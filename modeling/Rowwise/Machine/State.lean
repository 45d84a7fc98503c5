import Rowwise.Machine.Frame
import Rowwise.Machine.Fault
import Rowwise.Machine.Stack

/-! States of the machine and its single steps. Calls keep their frames in the state, so the
depth of calls is bounded by a limit and by nothing else. -/
namespace Rowwise

/-- The running frame, its callers from the innermost outwards, and the stack they share. -/
structure State where
  frame : Frame
  callers : List Frame
  stack : Stack

/-- What a step leads to, if it does not fail. -/
inductive Progress where
  | running (s : State)
  | finished (result : Value)

def Condition.test (c : Condition) : StackM Bool :=
  match c with
  | .always => return true
  | .ifFalse => return !(← Stack.popBoolean (.jump c))
  | .ifTrue => Stack.popBoolean (.jump c)
  | .ifNull => return (← Stack.pop).isNull
  | .ifNotNull => return !(← Stack.pop).isNull

namespace State

def push (v : Value) (s : State) : Except Fault Progress := do
  let ((), stack) ← (Stack.push v).run s.stack
  return .running { s with stack }

def store (slot : Nat) (s : State) : Except Fault Progress := do
  let (v, stack) ← Stack.pop.run s.stack
  let frame ← s.frame.store slot v
  return .running { s with frame, stack }

def call (c : Class) (limits : Limits) (index : UInt32) (args : Nat) (s : State) :
    Except Fault Progress :=
  match c.methods[index.toNat]? with
  | none => .error (.invalidCallTarget index)
  | some m =>
    let depth := s.callers.length + 2
    if limits.maxCallDepth < depth then
      .error (.callDepth depth)
    else do
      let (args, stack) ← (Stack.popMany args).run s.stack
      let frame ← Frame.enter m args stack.floor
      return .running ⟨frame, s.frame :: s.callers, { stack with floor := stack.values.size }⟩

/-- Hand a result to the caller. What the frame left on the stack is dropped. -/
def leave (v : Value) (s : State) : Except Fault Progress := do
  let result ← coerceReturn s.frame.method.returns v
  match s.callers with
  | [] => return .finished result
  | caller :: callers =>
    push result ⟨caller, callers, ⟨s.stack.clear, s.frame.savedFloor⟩⟩

/-- Execute an instruction. The frame already points behind it. -/
def execute (c : Class) (limits : Limits) (i : Instruction) (s : State) : Except Fault Progress :=
  match i with
  | .stack op => do
    let ((), stack) ← (Stack.perform op).run s.stack
    return .running { s with stack }
  | .constInt value => s.push (.int value)
  | .constDouble bits => s.push (.double (Float.ofBits bits))
  | .constText index =>
    match c.constants.strings[index.toNat]? with
    | some text => s.push (.string text)
    | none => .error (.invalidConstant index)
  | .constLong index =>
    match c.constants.integers[index.toNat]? with
    | some n => s.push (.long n)
    | none => .error (.invalidConstant index)
  | .load slot => do s.push (← s.frame.load slot.toNat)
  | .loadFixed slot => do s.push (← s.frame.load slot.val)
  | .store slot => s.store slot.toNat
  | .storeFixed slot => s.store slot.val
  | .jump condition distance => do
    let (taken, stack) ← condition.test.run s.stack
    let frame ← if taken then s.frame.jump distance else .ok s.frame
    return .running { s with frame, stack }
  | .call index args => s.call c limits index args.toNat
  | .returnValue => do
    let (v, stack) ← Stack.pop.run s.stack
    leave v { s with stack }
  | .returnVoid => s.leave .null
  | .throw => do
    let (v, _) ← Stack.pop.run s.stack
    throw (.thrown v.text)
  | .trap code => .error (.trapped code)

def step (c : Class) (limits : Limits) (s : State) : Except Fault Progress := do
  let (i, next) ← s.frame.fetch
  { s with frame.ip := next }.execute c limits i

def start (c : Class) (limits : Limits) (index : Nat) (args : List Value) : Except Fault State :=
  match c.methods[index]? with
  | none => .error (.invalidCallTarget (UInt32.ofNat index))
  | some m =>
    if limits.maxCallDepth = 0 then
      .error (.callDepth 1)
    else do
      let frame ← Frame.enter m args 0
      return ⟨frame, [], {}⟩

/-- Make at most `fuel` steps. There is no answer if that is not enough. -/
def run (c : Class) (limits : Limits) : Nat → State → Option (Except Fault Value)
  | 0, _ => none
  | fuel + 1, s =>
    match s.step c limits with
    | .error fault => some (.error fault)
    | .ok (.finished result) => some (.ok result)
    | .ok (.running next) => run c limits fuel next

end State

def Class.invoke (c : Class) (limits : Limits) (fuel index : Nat) (args : List Value) :
    Option (Except Fault Value) :=
  match State.start c limits index args with
  | .error fault => some (.error fault)
  | .ok s => s.run c limits fuel

end Rowwise
