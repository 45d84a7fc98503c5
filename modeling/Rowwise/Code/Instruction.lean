import Rowwise.Opcode

/-! Instructions, the bytes that encode them, and the listing of a piece of code. -/
namespace Rowwise

inductive Instruction where
  | stack (op : Operation)
  | constInt (value : Int32)
  | constDouble (bits : UInt64)
  | constText (index : UInt32)
  | constLong (index : UInt32)
  | load (slot : UInt16)
  | store (slot : UInt16)
  | loadFixed (slot : Fin 2)
  | storeFixed (slot : Fin 2)
  /-- The distance counts from the end of the instruction. -/
  | jump (condition : Condition) (distance : Int32)
  | call (method : UInt32) (args : UInt16)
  | returnValue
  | returnVoid
  | throw
  | trap (code : UInt16)
  deriving DecidableEq, Repr

namespace Instruction

def opcode : Instruction → Opcode
  | .stack op => .stack op
  | .constInt _ => .constInt
  | .constDouble _ => .constDouble
  | .constText _ => .constText
  | .constLong _ => .constLong
  | .load _ => .load
  | .store _ => .store
  | .loadFixed slot => .loadFixed slot
  | .storeFixed slot => .storeFixed slot
  | .jump condition _ => .jump condition
  | .call _ _ => .call
  | .returnValue => .returnValue
  | .returnVoid => .returnVoid
  | .throw => .throw
  | .trap _ => .trap

def operand : Instruction → List UInt8
  | .constInt value => Bytes.ofWord32 value.toUInt32
  | .constDouble bits => Bytes.ofWord64 bits
  | .constText index | .constLong index => Bytes.ofWord32 index
  | .load slot | .store slot => Bytes.ofWord16 slot
  | .jump _ distance => Bytes.ofWord32 distance.toUInt32
  | .call method args => Bytes.ofWord32 method ++ Bytes.ofWord16 args
  | .trap code => Bytes.ofWord16 code
  | _ => []

def encode (i : Instruction) : List UInt8 := i.opcode.byte :: i.operand

def width (i : Instruction) : Nat := i.opcode.width

/-- The instruction with this opcode whose operand fields hold these bytes. -/
def ofOperand (op : Opcode) (bs : List UInt8) : Instruction :=
  match op with
  | .stack op => .stack op
  | .constInt => .constInt (Bytes.toWord32 bs).toInt32
  | .constDouble => .constDouble (Bytes.toWord64 bs)
  | .constText => .constText (Bytes.toWord32 bs)
  | .constLong => .constLong (Bytes.toWord32 bs)
  | .load => .load (Bytes.toWord16 bs)
  | .store => .store (Bytes.toWord16 bs)
  | .loadFixed slot => .loadFixed slot
  | .storeFixed slot => .storeFixed slot
  | .jump condition => .jump condition (Bytes.toWord32 bs).toInt32
  | .call => .call (Bytes.toWord32 (bs.take 4)) (Bytes.toWord16 (bs.drop 4))
  | .returnValue => .returnValue
  | .returnVoid => .returnVoid
  | .throw => .throw
  | .trap => .trap (Bytes.toWord16 bs)

@[simp] theorem opcode_ofOperand (op : Opcode) (bs : List UInt8) :
    (ofOperand op bs).opcode = op := by
  cases op <;> rfl

theorem ofOperand_operand (i : Instruction) : ofOperand i.opcode i.operand = i := by
  cases i <;> simp [opcode, operand, ofOperand]

def pops : Instruction → Nat
  | .call _ args => args.toNat
  | i => i.opcode.entry.pops

def pushes (i : Instruction) : Nat := i.opcode.entry.pushes

def slot? : Instruction → Option Nat
  | .load slot | .store slot => some slot.toNat
  | .loadFixed slot | .storeFixed slot => some slot.val
  | _ => none

end Instruction

structure Placed where
  offset : Nat
  instruction : Instruction
  deriving DecidableEq, Repr

namespace Placed

def next (p : Placed) : Nat := p.offset + 1 + p.instruction.width

/-- Where a jump goes, which may be outside the code. -/
def target? (p : Placed) : Option Int :=
  match p.instruction with
  | .jump _ distance => some (p.next + distance.toInt)
  | _ => none

end Placed

/-- The instructions of code whose first byte stands at `offset`. Every byte belongs to one of
them, or there is no listing. -/
def listing (offset : Nat) (code : List UInt8) : Except DecodeError (List Placed) :=
  match code with
  | [] => .ok []
  | b :: rest =>
    match Opcode.ofByte? b with
    | none => .error (.invalidOpcode b offset)
    | some op =>
      if rest.length < op.width then
        .error (.unexpectedEnd (offset + 1))
      else
        match listing (offset + 1 + op.width) (rest.drop op.width) with
        | .error e => .error e
        | .ok later => .ok (⟨offset, .ofOperand op (rest.take op.width)⟩ :: later)
termination_by code.length
decreasing_by
  have : (rest.drop op.width).length ≤ rest.length := (List.drop_sublist _ _).length_le
  simp only [List.length_cons]; omega

end Rowwise
