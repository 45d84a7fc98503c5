import Rowwise.Class.Codec
import Rowwise.Config.Settings
import Rowwise.Machine.Fault
import Rowwise.Verify.Defect

/-! What can go wrong between a caller and a method. -/
namespace Rowwise

/-- Identity of a namespace. Numbers are never used twice. -/
structure SpaceId where
  number : Nat
  deriving DecidableEq, Repr

def SpaceId.text (id : SpaceId) : String := s!"ns#{id.number}"

inductive DefinitionError where
  | malformed (error : FormatError)
  | defective (defect : ClassDefect)
  | nameMismatch (expected found : String)
  | invalidTypeName (name : String)
  | rejected (reason : String)
  deriving DecidableEq, Repr

def DefinitionError.message : DefinitionError → String
  | .malformed error => error.message
  | .defective defect => defect.message
  | .nameMismatch expected found => s!"class file declares '{found}', expected '{expected}'"
  | .invalidTypeName name => s!"invalid type name '{name}'"
  | .rejected reason => reason

inductive BatchPart where
  | column (index : Nat)
  | output
  deriving DecidableEq, Repr

def BatchPart.text : BatchPart → String
  | .column index => s!"column {index}"
  | .output => "output"

inductive Error where
  | typeNotFound (name path : String)
  | typeUnreadable (name : String)
  | invalidDefinition (name : String) (reason : DefinitionError)
  | methodNotFound (method : String)
  | invocationFailed (method : String) (row : Option Nat) (fault : Fault)
  | accessDenied (method : String)
  | unboxMismatch (index : Nat) (expected found : Kind)
  | lengthMismatch (part : BatchPart) (expected found : Nat)
  | arityMismatch (method : String) (expected found : Nat)
  | foreignHandle (expected found : SpaceId)
  | duplicateType (name : String)
  | config (error : ConfigError)
  deriving DecidableEq, Repr

def Error.message : Error → String
  | .typeNotFound name path => s!"Type not found: {name} (looked in {path})"
  | .typeUnreadable name => s!"Failed to read type {name}"
  | .invalidDefinition name reason => s!"Invalid definition for type {name}: {reason.message}"
  | .methodNotFound method => s!"Method not found: {method}"
  | .invocationFailed method none fault => s!"Invocation of {method} failed: {fault.message}"
  | .invocationFailed method (some row) fault =>
    s!"Invocation of {method} failed at row {row}: {fault.message}"
  | .accessDenied method => s!"Access denied to non-public method {method}"
  | .unboxMismatch index expected found =>
    s!"Cannot unbox element {index}: expected {expected.name}, found {found.name}"
  | .lengthMismatch part expected found =>
    s!"Batch length mismatch in {part.text}: expected {expected} rows, found {found}"
  | .arityMismatch method expected found =>
    s!"Method {method} takes {expected} arguments, batch has {found} columns"
  | .foreignHandle expected found =>
    s!"Handle belongs to namespace {found.text}, invoker serves {expected.text}"
  | .duplicateType name => s!"Type already registered: {name}"
  | .config error => s!"Configuration error: {error.message}"

end Rowwise
