import Rowwise.Machine.Fault

/-! The operand stack. All frames share it; values below the floor belong to callers and are out of
reach. Operations pop their right operand first. -/
namespace Rowwise

structure Stack where
  /-- The top is at the end. -/
  values : Array Value := #[]
  floor : Nat := 0

abbrev StackM := StateT Stack (Except Fault)

namespace Stack

/-- Values that the running frame may take. -/
def depth (s : Stack) : Nat := s.values.size - s.floor

/-- The stack without the values that the running frame left. -/
def clear (s : Stack) : Array Value := s.values.shrink s.floor

def push (v : Value) : StackM Unit := fun s => .ok ((), { s with values := s.values.push v })

def pop : StackM Value := fun s =>
  if s.values.size ≤ s.floor then
    .error .stackUnderflow
  else
    .ok (s.values.back?.getD .null, { s with values := s.values.pop })

/-- The top `n` values, the one pushed first in front. -/
def popMany (n : Nat) : StackM (List Value) := fun s =>
  if s.values.size < s.floor + n then
    .error .stackUnderflow
  else
    let rest := s.values.size - n
    .ok ((s.values.extract rest s.values.size).toList, { s with values := s.values.shrink rest })

def popAs (op : Opcode) (expected : Kind) (view : Value → Option α) : StackM α := do
  let v ← pop
  match view v with
  | some a => return a
  | none => throw (.typeMismatch op expected v.kind)

def popInt (op : Opcode) : StackM Int32 := popAs op .int Value.asInt?
def popLong (op : Opcode) : StackM Int64 := popAs op .long Value.asLong?
def popDouble (op : Opcode) : StackM Float := popAs op .double Value.asDouble?
def popBoolean (op : Opcode) : StackM Bool := popAs op .boolean Value.asBoolean?
def popString (op : Opcode) : StackM String := popAs op .string Value.asString?
def popArray (op : Opcode) : StackM (List Value) := popAs op .array Value.asArray?

end Stack

/-- Integers wrap; division truncates toward zero and a remainder has the sign of the dividend. -/
def Arithmetic.onInt : Arithmetic → Int32 → Int32 → Except Fault Int32
  | .add, a, b => .ok (a + b)
  | .sub, a, b => .ok (a - b)
  | .mul, a, b => .ok (a * b)
  | .div, a, b => if b = 0 then .error .divisionByZero else .ok (a / b)
  | .rem, a, b => if b = 0 then .error .divisionByZero else .ok (a % b)

def Arithmetic.onLong : Arithmetic → Int64 → Int64 → Except Fault Int64
  | .add, a, b => .ok (a + b)
  | .sub, a, b => .ok (a - b)
  | .mul, a, b => .ok (a * b)
  | .div, a, b => if b = 0 then .error .divisionByZero else .ok (a / b)
  | .rem, a, b => if b = 0 then .error .divisionByZero else .ok (a % b)

def DoubleArithmetic.apply : DoubleArithmetic → Float → Float → Float
  | .add, a, b => a + b
  | .sub, a, b => a - b
  | .mul, a, b => a * b
  | .div, a, b => a / b

def Comparison.onInt : Comparison → Int32 → Int32 → Bool
  | .eq, a, b => a == b
  | .ne, a, b => a != b
  | .lt, a, b => a < b
  | .le, a, b => a ≤ b
  | .gt, a, b => b < a
  | .ge, a, b => b ≤ a

def Comparison.onDouble : Comparison → Float → Float → Bool
  | .eq, a, b => a == b
  | .ne, a, b => a != b
  | .lt, a, b => a < b
  | .le, a, b => a ≤ b
  | .gt, a, b => b < a
  | .ge, a, b => b ≤ a

def orderLong (a b : Int64) : Int32 := if a < b then -1 else if a = b then 0 else 1

namespace Stack

/-- A double becomes the nearest integer toward zero that its target can hold, NaN becomes zero. -/
def convert (c : Conversion) : StackM Unit := do
  let op := .stack (.convert c)
  match c with
  | .intToLong => push (.long (← popInt op).toInt64)
  | .intToDouble => push (.double (← popInt op).toFloat)
  | .longToInt => push (.int (← popLong op).toInt32)
  | .longToDouble => push (.double (← popLong op).toFloat)
  | .doubleToInt => push (.int (← popDouble op).toInt32)
  | .doubleToLong => push (.long (← popDouble op).toInt64)

def binary (operand : StackM α) (f : α → α → Except Fault Value) : StackM Unit := do
  let b ← operand
  let a ← operand
  push (← f a b)

def element (op : Opcode) : StackM Unit := do
  let index ← popInt op
  let items ← popArray op
  match if index < 0 then none else items[index.toInt.toNat]? with
  | some item => push item
  | none => throw (.indexOutOfBounds index items.length)

def perform (op : Operation) : StackM Unit :=
  let code : Opcode := .stack op
  match op with
  | .nop => return ()
  | .pop => do let _ ← pop
  | .dup => do
    let v ← pop
    push v
    push v
  | .swap => do
    let b ← pop
    let a ← pop
    push b
    push a
  | .null => push .null
  | .boolean value => push (.boolean value)
  | .int f => binary (popInt code) fun a b => (f.onInt a b).map .int
  | .negateInt => do push (.int (-(← popInt code)))
  | .long f => binary (popLong code) fun a b => (f.onLong a b).map .long
  | .negateLong => do push (.long (-(← popLong code)))
  | .double f => binary (popDouble code) fun a b => .ok (.double (f.apply a b))
  | .negateDouble => do push (.double (-(← popDouble code)))
  | .convert c => convert c
  | .compareInt c => binary (popInt code) fun a b => .ok (.boolean (c.onInt a b))
  | .orderLong => binary (popLong code) fun a b => .ok (.int (orderLong a b))
  | .compareDouble c => binary (popDouble code) fun a b => .ok (.boolean (c.onDouble a b))
  | .equal => binary pop fun a b => .ok (.boolean (a.equal b))
  | .notEqual => binary pop fun a b => .ok (.boolean (!a.equal b))
  | .not => do push (.boolean (!(← popBoolean code)))
  | .and => binary (popBoolean code) fun a b => .ok (.boolean (a && b))
  | .or => binary (popBoolean code) fun a b => .ok (.boolean (a || b))
  | .concat => binary pop fun a b => .ok (.string (a.text ++ b.text))
  | .length => do push (.int (Int32.ofNat (← popString code).length))
  | .equalText => binary (popString code) fun a b => .ok (.boolean (a == b))
  | .toText => do push (.string (← pop).text)
  | .element => element code
  | .arrayLength => do push (.int (Int32.ofNat (← popArray code).length))

end Stack

end Rowwise
