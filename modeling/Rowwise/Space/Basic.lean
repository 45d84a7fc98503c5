import Rowwise.Space.Invoker
import Rowwise.Space.Loader

/-! Registries, which are namespaces of native types, each registered once; and namespaces of either
sort. -/
namespace Rowwise

structure Registry where
  /-- Only for diagnostics. -/
  name : String
  space : SpaceId
  limits : Limits := {}
  types : List LoadedType := []

namespace Registry

def find? (r : Registry) (name : String) : Option LoadedType := r.types.find? (·.name == name)

def invalidName? (names : List String) : Option String :=
  names.find? fun name => (TypeName.parse? name).isNone

/-- All type names of a native type: its own, then for each method the parameters and the
return type. -/
def typeNames (name : String) (methods : List NativeMethod) : List String :=
  name :: methods.flatMap fun m => m.params ++ [m.returns]

/-- Add a type. Its names have to be well formed, and its own name new. -/
def register (name : String) (methods : List NativeMethod) (r : Registry) :
    Except Error LoadedType × Registry :=
  match invalidName? (typeNames name methods) with
  | some invalid => (.error (.invalidDefinition name (.invalidTypeName invalid)), r)
  | none =>
    if (r.find? name).isSome then (.error (.duplicateType name), r)
    else
      let t := LoadedType.ofNative name methods r.space
      (.ok t, { r with types := r.types ++ [t] })

def resolve (r : Registry) (name : String) : Except Error LoadedType :=
  match r.find? name with
  | some t => .ok t
  | none => .error (.typeNotFound name r.name)

end Registry

inductive Space where
  | loader (l : Loader)
  | registry (r : Registry)

namespace Space

def id : Space → SpaceId
  | .loader l => l.space
  | .registry r => r.space

def limits : Space → Limits
  | .loader l => l.limits
  | .registry r => r.limits

def types : Space → List LoadedType
  | .loader l => l.types
  | .registry r => r.types

def isLoader : Space → Bool
  | .loader _ => true
  | .registry _ => false

/-- How many calls of a definer are of interest. -/
def defined : Space → Nat
  | .loader l => if l.definer = .counted then l.defined else 0
  | .registry _ => 0

def names (s : Space) : List String :=
  (s.types.map (·.name)).mergeSort fun a b => !(b < a)

def has (s : Space) (name : String) : Bool := s.types.any (·.name == name)

def invoker (s : Space) : Invoker := ⟨s.id, s.limits⟩

def resolve (files : FileTree) (name : String) : Space → Except Error LoadedType × Space
  | .loader l =>
    let answer := l.resolve files name
    (answer.1, .loader answer.2)
  | .registry r => (r.resolve name, .registry r)

end Space

end Rowwise
