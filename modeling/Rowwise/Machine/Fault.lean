import Rowwise.Opcode
import Rowwise.Value.Basic

/-! Why a method can fail, and the limits on a single invocation. -/
namespace Rowwise

structure Limits where
  /-- How deep calls may nest, the invoked method included. -/
  maxCallDepth : Nat := 256
  deriving DecidableEq, Repr

inductive Fault where
  | callDepth (depth : Nat)
  | stackUnderflow
  | invalidOpcode (byte : UInt8)
  | unexpectedEnd (offset : Nat)
  | invalidJump (target : Int)
  | invalidLocal (slot : Nat)
  | tooManyLocals (slots : Nat)
  | invalidConstant (index : UInt32)
  | invalidCallTarget (index : UInt32)
  | typeMismatch (opcode : Opcode) (expected found : Kind)
  | divisionByZero
  | indexOutOfBounds (index : Int32) (length : Nat)
  | thrown (text : String)
  | trapped (code : UInt16)
  | native (text : String)
  deriving DecidableEq, Repr

def Fault.message : Fault → String
  | .callDepth depth => s!"Stack overflow (call depth {depth})"
  | .stackUnderflow => "Stack underflow"
  | .invalidOpcode byte => s!"Invalid opcode: {Text.hex byte.toNat}"
  | .unexpectedEnd offset => s!"Unexpected end of bytecode at offset {offset}"
  | .invalidJump target => s!"Jump target {target} out of bounds"
  | .invalidLocal slot => s!"Invalid local variable {slot}"
  | .tooManyLocals slots => s!"Method needs {slots} local slots"
  | .invalidConstant index => s!"Invalid constant {index}"
  | .invalidCallTarget index => s!"Invalid call target {index}"
  | .typeMismatch opcode expected found =>
    s!"Type error in {opcode.name}: expected {expected.name}, found {found.name}"
  | .divisionByZero => "Division by zero"
  | .indexOutOfBounds index length => s!"Index {index.toInt} out of bounds for length {length}"
  | .thrown text => s!"Exception: {text}"
  | .trapped code => s!"Trap {code}"
  | .native text => text

/-- Bring a result to the declared return type. Only the exact name of a primitive coerces. -/
def coerceReturn (returns : String) (v : Value) : Except Fault Value :=
  match Primitive.ofName? returns with
  | none => .ok v
  | some p =>
    match p.coerce? v with
    | some result => .ok result
    | none => .error (.typeMismatch .returnValue p.kind v.kind)

end Rowwise
