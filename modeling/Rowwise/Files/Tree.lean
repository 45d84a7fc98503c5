/-! Paths, which are texts with slashes between their components, and trees of files. Relative paths
start at the root. Around the root stand the directories above it and that of absolute paths, with
nothing in them but what was put there. -/
namespace Rowwise

namespace Path

/-- The components of a path: what stands between its slashes, from left to right. -/
def split : List Char → List (List Char)
  | [] => [[]]
  | c :: rest =>
    if c = '/' then [] :: split rest
    else
      match split rest with
      | [] => [[c]]
      | first :: others => (c :: first) :: others

def components (path : String) : List String := (split path.toList).map String.ofList

def isAbsolute (path : String) : Bool := path.toList.head? == some '/'

/-- A path below a base. An absolute path replaces the base, an empty base vanishes, and a base
that ends in a slash gets no second one. -/
def join (base path : String) : String :=
  if isAbsolute path || base.isEmpty then path
  else if base.toList.getLast? == some '/' then base ++ path
  else base ++ "/" ++ path

end Path

inductive ReadError where
  /-- There is nothing at the path. -/
  | missing
  /-- There is something else than a file, or the path is not usable. -/
  | unreadable
  deriving DecidableEq, Repr

inductive FileNode where
  | directory
  | file (content : List UInt8)
  deriving DecidableEq, Repr

/-- A place that a path leads to: names from the root on. The names `..` in front climb above the
root, and a slash in front stands for the directory that absolute paths start in. -/
abbrev Place := List String

structure FileTree where
  node : Place → Option FileNode

namespace Place

def isAnchor (place : Place) : Bool := place.all fun name => name == ".." || name == "/"

/-- The place above a place. Nothing is above the start of absolute paths. -/
def up (place : Place) : Place :=
  match place.getLast? with
  | none | some ".." => place ++ [".."]
  | some "/" => place
  | some _ => place.dropLast

/-- The place that a component leads to, without regard to what exists. -/
def step (place : Place) (name : String) : Place :=
  if name = "" ∨ name = "." then place
  else if name = ".." then place.up
  else place ++ [name]

def start (path : String) : Place := if Path.isAbsolute path then ["/"] else []

def ofPath (path : String) : Place := (Path.components path).foldl step (start path)

/-- The places that components lead through from a place, each after one more component. -/
def steps (place : Place) : List String → List Place
  | [] => []
  | name :: rest => step place name :: steps (step place name) rest

end Place

namespace FileTree

def empty : FileTree := ⟨fun place => if place.isAnchor then some .directory else none⟩

def maxName : Nat := 255
def maxPath : Nat := 4095

/-- Follow components from a place. Each of them needs a directory to start from. -/
def follow (t : FileTree) : List String → Place → Except ReadError Place
  | [], place => .ok place
  | name :: rest, place =>
    if t.node place ≠ some .directory ∨ maxName < name.utf8ByteSize then .error .unreadable
    else if (t.node (place.step name)).isNone then .error .missing
    else follow t rest (place.step name)

def read (t : FileTree) (path : String) : Except ReadError (List UInt8) :=
  if path.contains '\x00' ∨ maxPath < path.utf8ByteSize then .error .unreadable
  else if path.isEmpty then .error .missing
  else
    match t.follow (Path.components path) (.start path) with
    | .error e => .error e
    | .ok place =>
      match t.node place with
      | some (.file content) => .ok content
      | _ => .error .unreadable

/-- Put a directory at every place that components lead through. Those that a later `..` leaves
again are made too. -/
def makeDirectories (start : Place) (components : List String) (t : FileTree) : FileTree :=
  ⟨fun place => if place ∈ start.steps components then some .directory else t.node place⟩

def makeDirectory (path : String) (t : FileTree) : FileTree :=
  t.makeDirectories (.start path) (Path.components path)

def write (path : String) (content : List UInt8) (t : FileTree) : FileTree :=
  let target := Place.ofPath path
  let t := t.makeDirectories (.start path) (Path.components path).dropLast
  ⟨fun place => if place = target then some (.file content) else t.node place⟩

/-- Remove what is at a path and below it. The root and what is around it stays. -/
def remove (path : String) (t : FileTree) : FileTree :=
  let target := Place.ofPath path
  ⟨fun place => if target.isPrefixOf place && !target.isAnchor then none else t.node place⟩

end FileTree

end Rowwise
