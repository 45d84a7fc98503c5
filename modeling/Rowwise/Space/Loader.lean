import Rowwise.Files.Tree
import Rowwise.Space.Type
import Rowwise.Verify.Class

/-! Loaders: namespaces whose types are read from one directory, each at its first use. -/
namespace Rowwise

/-- What turns the bytes of a file into a type. -/
inductive Definer where
  /-- Read a class, and check it if `verify` is set. -/
  | bytecode (verify : Bool)
  /-- Like `bytecode` with all checks; its calls are of interest. -/
  | counted
  /-- Refuse everything. -/
  | reject (reason : String)
  deriving DecidableEq, Repr

namespace Definer

/-- A class must have the name that was asked for. Its name is compared before its code is
verified. -/
def defineClass (verify : Bool) (name : String) (bytes : List UInt8) (space : SpaceId) :
    Except DefinitionError LoadedType :=
  match Class.decode bytes with
  | .error e => .error (.malformed e)
  | .ok c =>
    if c.name ≠ name then .error (.nameMismatch name c.name)
    else
      match if verify then c.verify else .ok () with
      | .error defect => .error (.defective defect)
      | .ok () => .ok (.ofClass c bytes space)

def define (d : Definer) (name : String) (bytes : List UInt8) (space : SpaceId) :
    Except DefinitionError LoadedType :=
  match d with
  | .bytecode verify => defineClass verify name bytes space
  | .counted => defineClass true name bytes space
  | .reject reason => .error (.rejected reason)

end Definer

structure Loader where
  basePath : String
  extension : String
  space : SpaceId
  /-- The number of loaders that were made before. -/
  ordinal : Nat
  definer : Definer
  limits : Limits := {}
  /-- The types that are loaded, each under its own name. -/
  types : List LoadedType := []
  /-- How often the definer was called. -/
  defined : Nat := 0

namespace Loader

def ofSettings (s : Settings) (space : SpaceId) (ordinal : Nat) : Loader where
  basePath := s.loader.basePath
  extension := s.loader.extension
  space := space
  ordinal := ordinal
  definer := .bytecode s.loader.verify
  limits := s.limits

def ofDefiner (basePath : String) (definer : Definer) (space : SpaceId) (ordinal : Nat) :
    Loader :=
  { ofSettings { loader.basePath := basePath } space ordinal with definer }

def pathFor (l : Loader) (name : String) : String := Path.join l.basePath s!"{name}.{l.extension}"

def find? (l : Loader) (name : String) : Option LoadedType := l.types.find? (·.name == name)

/-- Give a loaded type again, or read and define it. A failure leaves the types as they are. -/
def resolve (files : FileTree) (name : String) (l : Loader) : Except Error LoadedType × Loader :=
  match l.find? name with
  | some t => (.ok t, l)
  | none =>
    match files.read (l.pathFor name) with
    | .error .missing => (.error (.typeNotFound name (l.pathFor name)), l)
    | .error .unreadable => (.error (.typeUnreadable name), l)
    | .ok bytes =>
      let l := { l with defined := l.defined + 1 }
      match l.definer.define name bytes l.space with
      | .error reason => (.error (.invalidDefinition name reason), l)
      | .ok t => (.ok t, { l with types := l.types ++ [t] })

def text (l : Loader) : String :=
  "NamespaceLoader\x7bpath='" ++ l.basePath ++ s!"', oid={l.ordinal}\x7d"

end Loader

end Rowwise
