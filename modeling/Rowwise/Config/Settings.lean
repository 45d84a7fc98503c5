import Rowwise.Files.Tree
import Rowwise.Machine.Fault
import Rowwise.Toml.Document
import Rowwise.Toml.Quoted

/-! Settings of loaders and invocations, and the configuration files that hold them. -/
namespace Rowwise

/-- How a loader finds and checks its files. -/
structure LoaderSettings where
  basePath : String := ""
  extension : String := "udfc"
  verify : Bool := true
  deriving DecidableEq, Repr

structure Settings where
  loader : LoaderSettings := {}
  limits : Limits := {}
  deriving DecidableEq, Repr

inductive ConfigError where
  | unreadable (path : String)
  | malformed
  | extension (found : String)
  | callDepth
  deriving DecidableEq, Repr

def ConfigError.message : ConfigError → String
  | .unreadable path => s!"Failed to read config file {path}"
  | .malformed => "Failed to parse config"
  | .extension found =>
    s!"Invalid config: extension must be a bare file extension, got '{found}'"
  | .callDepth => "Invalid config: max_call_depth must be at least 1"

/-- Take a field out of a table of settings. The fields may also be listed in order without
their names, and a point in time counts as a table without known fields. -/
def Toml.field? (v : Toml) (position : Nat) (name : String) : Option (Option Toml) :=
  match v with
  | .table entries => some (entries.lookup name)
  | .array items => some items[position]?
  | .time => some none
  | _ => none

def Toml.fieldOr (v : Toml) (position : Nat) (name : String) (read : Toml → Option α)
    (default : α) : Option α := do
  match ← v.field? position name with
  | none => return default
  | some field => read field

namespace Settings

def text? : Toml → Option String
  | .string s => some s
  | _ => none

def flag? : Toml → Option Bool
  | .boolean b => some b
  | _ => none

def count? : Toml → Option Nat
  | .integer n => if 0 ≤ n then some n.toNat else none
  | _ => none

def loader? (v : Toml) : Option LoaderSettings := do
  return {
    basePath := ← v.fieldOr 0 "base_path" text? ""
    extension := ← v.fieldOr 1 "extension" text? "udfc"
    verify := ← v.fieldOr 2 "verify" flag? true }

def limits? (v : Toml) : Option Limits := do
  return { maxCallDepth := ← v.fieldOr 0 "max_call_depth" count? 256 }

/-- Keys that are not known are passed over. -/
def ofToml? (v : Toml) : Option Settings := do
  return {
    loader := ← v.fieldOr 0 "loader" loader? {}
    limits := ← v.fieldOr 1 "invoke" limits? {} }

/-- An extension is a name and not a path, and one call is always allowed. -/
def validate (s : Settings) : Except ConfigError Unit :=
  let extension := s.loader.extension.toList
  if extension.isEmpty || extension.head? == some '.' || extension.any (· ∈ ['/', '\\']) then
    .error (.extension s.loader.extension)
  else if s.limits.maxCallDepth = 0 then
    .error .callDepth
  else
    .ok ()

def ofText (text : String) : Except ConfigError Settings := do
  match (Toml.parse? text).bind fun entries => ofToml? (.table entries) with
  | none => throw .malformed
  | some s =>
    s.validate
    return s

/-- Read and check the configuration file at a path. Its bytes have to be text. -/
def ofFile (files : FileTree) (path : String) : Except ConfigError Settings :=
  match files.read path with
  | .error _ => .error (.unreadable path)
  | .ok bytes =>
    match String.fromUTF8? ⟨bytes.toArray⟩ with
    | none => .error (.unreadable path)
    | some text => ofText text

def toText (s : Settings) : String :=
  "[loader]\n" ++
  "base_path = " ++ Toml.quote s.loader.basePath ++ "\n" ++
  "extension = " ++ Toml.quote s.loader.extension ++ "\n" ++
  "verify = " ++ toString s.loader.verify ++ "\n" ++
  "\n[invoke]\n" ++
  "max_call_depth = " ++ toString s.limits.maxCallDepth ++ "\n"

end Settings

end Rowwise
