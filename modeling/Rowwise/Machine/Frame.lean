import Rowwise.Code.Instruction
import Rowwise.Machine.Fault
import Rowwise.Verify.Class

/-! Frames of live methods: their way through the code, and their local slots. The machine reads
code on its own; that it comes to the instructions of the listing is a theorem. -/
namespace Rowwise

structure Frame where
  method : Method
  /-- The offset of the next instruction. -/
  ip : Nat
  locals : Array Value
  /-- The stack floor of the caller. -/
  savedFloor : Nat

/-- A computation that reads code, from an offset on. -/
abbrev CodeM := ReaderT (List UInt8) (StateT Nat (Except Fault))

namespace Frame

/-- Arguments fill the first slots; the others start as null. -/
def enter (m : Method) (args : List Value) (savedFloor : Nat) : Except Fault Frame :=
  let slots := max m.locals args.length
  if maxLocals < slots then
    .error (.tooManyLocals slots)
  else
    .ok ⟨m, 0, (args ++ List.replicate (slots - args.length) Value.null).toArray, savedFloor⟩

/-- The next bytes of the code, all of them or none. -/
def read (n : Nat) : CodeM (List UInt8) := fun code ip =>
  if ip + n ≤ code.length then
    .ok ((code.drop ip).take n, ip + n)
  else
    .error (.unexpectedEnd ip)

def readWord16 : CodeM UInt16 := do return Bytes.toWord16 (← read 2)
def readWord32 : CodeM UInt32 := do return Bytes.toWord32 (← read 4)
def readWord64 : CodeM UInt64 := do return Bytes.toWord64 (← read 8)

def readOpcode : CodeM Opcode := fun code ip =>
  match code[ip]? with
  | none => .error (.unexpectedEnd ip)
  | some b =>
    match Opcode.ofByte? b with
    | none => .error (.invalidOpcode b)
    | some op => .ok (op, ip + 1)

/-- Read what belongs to an opcode, field by field. -/
def readOperand : Opcode → CodeM Instruction
  | .stack op => return .stack op
  | .constInt => do return .constInt (← readWord32).toInt32
  | .constDouble => do return .constDouble (← readWord64)
  | .constText => do return .constText (← readWord32)
  | .constLong => do return .constLong (← readWord32)
  | .load => do return .load (← readWord16)
  | .store => do return .store (← readWord16)
  | .loadFixed slot => return .loadFixed slot
  | .storeFixed slot => return .storeFixed slot
  | .jump condition => do return .jump condition (← readWord32).toInt32
  | .call => do
    let method ← readWord32
    let args ← readWord16
    return .call method args
  | .returnValue => return .returnValue
  | .returnVoid => return .returnVoid
  | .throw => return .throw
  | .trap => do return .trap (← readWord16)

def fetch (f : Frame) : Except Fault (Instruction × Nat) :=
  (readOpcode >>= readOperand) f.method.code f.ip

/-- Move by a distance. The target has to be inside the code. -/
def jump (distance : Int32) (f : Frame) : Except Fault Frame :=
  let target := f.ip + distance.toInt
  if target < 0 ∨ f.method.code.length ≤ target then
    .error (.invalidJump target)
  else
    .ok { f with ip := target.toNat }

def load (slot : Nat) (f : Frame) : Except Fault Value :=
  match f.locals[slot]? with
  | some v => .ok v
  | none => .error (.invalidLocal slot)

def store (slot : Nat) (v : Value) (f : Frame) : Except Fault Frame :=
  if slot < f.locals.size then
    .ok { f with locals := f.locals.setIfInBounds slot v }
  else
    .error (.invalidLocal slot)

end Frame

end Rowwise
