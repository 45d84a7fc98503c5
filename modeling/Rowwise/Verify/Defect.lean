import Rowwise.Bytes.Cursor
import Rowwise.Text

/-! What verification can find wrong with a class. Offsets count bytes of one method's code. -/
namespace Rowwise

inductive MethodDefect where
  | invalidTypeName (name : String)
  | tooManyLocals (locals max : Nat)
  | tooFewLocals (locals params : Nat)
  | invalidOpcode (byte : UInt8) (offset : Nat)
  | malformed (error : DecodeError)
  | invalidConstant (index : UInt32) (offset : Nat)
  | invalidLocal (index max offset : Nat)
  | invalidCallTarget (index : UInt32) (offset : Nat)
  | callArity (expected found offset : Nat)
  | stackUnderflow (offset : Nat)
  | stackOverflow (offset depth : Nat)
  | inconsistentDepth (offset first second : Nat)
  | invalidJumpTarget (target : Int) (offset : Nat)
  | fallOffEnd (offset : Nat)
  deriving DecidableEq, Repr

inductive ClassDefect where
  | duplicateMethod (name : String)
  | inMethod (name : String) (defect : MethodDefect)
  deriving DecidableEq, Repr

def MethodDefect.message : MethodDefect → String
  | .invalidTypeName name => s!"Invalid type name '{name}'"
  | .tooManyLocals locals max => s!"Method declares {locals} locals, limit is {max}"
  | .tooFewLocals locals params => s!"Method declares {locals} locals but takes {params} parameters"
  | .invalidOpcode byte offset => s!"Invalid opcode {Text.hex byte.toNat} at offset {offset}"
  | .malformed error => s!"Decode error: {error.message}"
  | .invalidConstant index offset =>
    s!"Invalid constant pool reference: index {index} at offset {offset}"
  | .invalidLocal index max offset =>
    s!"Invalid local variable reference: index {index} (max {max}) at offset {offset}"
  | .invalidCallTarget index offset => s!"Invalid call target {index} at offset {offset}"
  | .callArity expected found offset =>
    s!"Call at offset {offset} passes {found} arguments, target takes {expected}"
  | .stackUnderflow offset => s!"Stack underflow at offset {offset}"
  | .stackOverflow offset depth => s!"Stack overflow at offset {offset} (depth: {depth})"
  | .inconsistentDepth offset first second =>
    s!"Inconsistent stack depth at offset {offset}: {first} vs {second}"
  | .invalidJumpTarget target offset => s!"Invalid jump target {target} at offset {offset}"
  | .fallOffEnd offset => s!"Execution falls off end of method at offset {offset}"

def ClassDefect.message : ClassDefect → String
  | .duplicateMethod name => s!"Duplicate method '{name}'"
  | .inMethod name defect => s!"In method '{name}': {defect.message}"

end Rowwise
