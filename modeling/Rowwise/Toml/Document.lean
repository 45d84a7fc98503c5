import Rowwise.Toml.Scalar

/-! Reading a configuration file as a whole. -/
namespace Rowwise.Toml

namespace Scan

/-- One part of a key: bare, or quoted on one line. -/
def keyPart : Scan String := do
  match ← peek with
  | some '"' | some '\'' => string false
  | _ =>
    let cs ← span fun c => c.isAlphanum || c == '_' || c == '-'
    if cs.isEmpty then failure else return String.ofList cs

/-- The deepest nesting of collections, and the longest dotted key, that is read. -/
def maxNesting : Nat := 79

/-- The parts of a dotted key, at most so many, with the blanks around them. -/
def key : Nat → Scan (List String)
  | 0 => failure
  | n + 1 => do
    blanks
    let part ← keyPart
    blanks
    if ← accept ['.'] then return part :: (← key n) else return [part]

def binding (value : Scan Toml) : Scan (List String × Toml) := do
  let path ← key maxNesting
  char '='
  blanks
  return (path, ← value)

def items (value : Scan Toml) : Nat → Scan (List Toml)
  | 0 => failure
  | n + 1 => do
    filler ((← get).length + 1)
    if ← accept [']'] then return []
    let v ← value
    filler ((← get).length + 1)
    if ← accept [','] then return v :: (← items value n)
    char ']'
    return [v]

def members (value : Scan Toml) (entries : Entries) : Nat → Scan Entries
  | 0 => failure
  | n + 1 => do
    let (path, v) ← binding value
    match entries.write path.dropLast.isEmpty path.dropLast (path.getLastD "") v with
    | none => failure
    | some entries =>
      blanks
      if ← accept [','] then members value entries n
      else
        char '\x7d'
        return entries

def simpleValue : Scan Toml := do
  match ← peek with
  | some '"' | some '\'' => return .string (← string true)
  | _ => scalarValue

/-- A value. Collections nest at most as deep as the argument says. -/
def value : Nat → Scan Toml
  | 0 => simpleValue
  | depth + 1 => do
    if ← accept ['['] then
      return .array (← items (value depth) ((← get).length + 1))
    else if ← accept ['\x7b'] then
      blanks
      if ← accept ['\x7d'] then return .table []
      let entries ← members (value depth) [] ((← get).length + 1)
      return .table (closeEntries entries)
    else simpleValue

/-- A header in single or double brackets; yields its path and whether it is double. -/
def header : Scan (List String × Bool) := do
  char '['
  let double ← accept ['[']
  let path ← key maxNesting
  char ']'
  if double then char ']'
  return (path, double)

/-- The lines of a file. Bindings go into the table that the last header has opened. -/
def body (current : List String) (root : Entries) : Nat → Scan Entries
  | 0 => failure
  | n + 1 => do
    blanks
    match ← peek with
    | none => return root
    | some '[' =>
      let (path, double) ← header
      endLine
      let change := if double then Entries.openItem else Entries.openTable
      match root.descend (change (path.getLastD "")) path.dropLast with
      | some root => body path root n
      | none => failure
    | some c =>
      if c == '#' || c == '\n' || c == '\r' then
        endLine
        body current root n
      else
        let (path, v) ← binding (value maxNesting)
        endLine
        let parents := path.dropLast
        let change : Entries → Option Entries :=
          Entries.write parents.isEmpty parents (path.getLastD "") v
        match root.descend change current with
        | some root => body current root n
        | none => failure

end Scan

/-- The top-level table of a file. A byte order mark in front is skipped. -/
def parse? (text : String) : Option (List (String × Toml)) :=
  let cs := match text.toList with
    | '\ufeff' :: rest => rest
    | cs => cs
  (Scan.whole (Scan.body [] [] (cs.length + 1)) cs).map closeEntries

end Rowwise.Toml
