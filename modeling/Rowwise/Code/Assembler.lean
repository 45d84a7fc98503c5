import Rowwise.Code.Instruction

/-! Writing code. A forward jump is emitted before its target is known; its operand is
reserved and filled in when the target is reached. -/
namespace Rowwise

structure Assembler where
  code : List UInt8 := []
  deriving DecidableEq, Repr

namespace Assembler

def offset (a : Assembler) : Nat := a.code.length

def raw (bs : List UInt8) (a : Assembler) : Assembler := ⟨a.code ++ bs⟩

def emit (i : Instruction) (a : Assembler) : Assembler := a.raw i.encode

/-- Keep room for a word; yields the offset of the room. -/
def reserve (a : Assembler) : Nat × Assembler := (a.offset, a.raw (Bytes.ofWord32 0))

def patch (offset : Nat) (word : UInt32) (a : Assembler) : Assembler :=
  ⟨a.code.take offset ++ Bytes.ofWord32 word ++ a.code.drop (offset + 4)⟩

/-- The distance of a jump whose operand stands at `operand`. -/
def distance (operand target : Nat) : Int32 := Int32.ofNat target - (Int32.ofNat operand + 4)

/-- A jump whose target is not known yet; yields the offset of its operand. -/
def jump (condition : Condition) (a : Assembler) : Nat × Assembler :=
  (a.raw [(Opcode.jump condition).byte]).reserve

def land (operand : Nat) (a : Assembler) : Assembler :=
  a.patch operand (distance operand a.offset).toUInt32

def jumpBack (condition : Condition) (target : Nat) (a : Assembler) : Assembler :=
  a.emit (.jump condition (distance (a.offset + 1) target))

end Assembler

end Rowwise
