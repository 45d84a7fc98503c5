import Rowwise.Space.Basic

/-! Sessions: all namespaces of a program with the files they read, and the objects that it keeps
under names. -/
namespace Rowwise

/-- Objects of one sort under their names. -/
structure Shelf (α : Type) where
  entries : List (String × α) := []

namespace Shelf

variable {α : Type}

def find? (name : String) (s : Shelf α) : Option α := s.entries.lookup name

/-- Put an object under a name. It replaces the one that had the name before. -/
def put (name : String) (a : α) (s : Shelf α) : Shelf α :=
  ⟨(name, a) :: s.entries.filter (·.1 != name)⟩

def namesWhere (property : α → Bool) (s : Shelf α) : List String :=
  ((s.entries.filter (property ·.2)).map (·.1)).mergeSort fun a b => !(b < a)

end Shelf

structure Session where
  files : FileTree := .empty
  /-- All namespaces in the order in which they were made, those without a name included. -/
  spaces : List Space := []
  /-- Positions in the list of namespaces. -/
  spaceNames : Shelf Nat := {}
  invokers : Shelf Invoker := {}
  types : Shelf LoadedType := {}
  handles : Shelf Handle := {}
  results : Shelf (List Value) := {}

inductive Refusal where
  | unknownName (name : String)
  | failed (error : Error)
  /-- A call takes more steps than it was given. -/
  | unfinished
  deriving DecidableEq, Repr

/-- A step may change the session even if it fails. -/
abbrev SessionM := EStateM Refusal Session

namespace Session

/-- Namespaces are numbered from 1 on. -/
def nextSpace (s : Session) : SpaceId := ⟨s.spaces.length + 1⟩

def nextOrdinal (s : Session) : Nat := s.spaces.countP Space.isLoader

def known (name : String) (shelf : Session → Shelf α) : SessionM α := do
  match (shelf (← get)).find? name with
  | some a => return a
  | none => throw (.unknownName name)

def check (answer : Except Error α) : SessionM α :=
  match answer with
  | .ok a => return a
  | .error e => throw (.failed e)

/-- Nothing is kept where no name is given. -/
def keep (name : Option String) (change : String → Session → Session) : SessionM Unit :=
  match name with
  | some name => modify (change name)
  | none => return ()

def space (name : String) : SessionM (Nat × Space) := do
  let position ← known name (·.spaceNames)
  match (← get).spaces[position]? with
  | some s => return (position, s)
  | none => throw (.unknownName name)

def setSpace (position : Nat) (new : Space) : SessionM Unit :=
  modify fun s => { s with spaces := s.spaces.set position new }

def addSpace (name : String) (new : Space) : SessionM Space := do
  modify fun s =>
    { s with
      spaces := s.spaces ++ [new]
      spaceNames := s.spaceNames.put name s.spaces.length }
  return new

/-- The invoker of that name, or else the one of the namespace of that name. -/
def invoker (name : String) : SessionM Invoker := do
  match (← get).invokers.find? name with
  | some i => return i
  | none => return (← space name).2.invoker

/-- The names of a type that are known so far. A name that is given is added. -/
def keepType (t : LoadedType) (name : Option String) : SessionM (List String) := do
  let names := (← get).types.namesWhere t.isSame
  keep name fun name s => { s with types := s.types.put name t }
  return names

def keepHandle (name : String) (h : Handle) : SessionM Handle := do
  modify fun s => { s with handles := s.handles.put name h }
  return h

def keepResults (name : Option String) (values : List Value) : SessionM Unit :=
  keep name fun name s => { s with results := s.results.put name values }

end Session

end Rowwise
