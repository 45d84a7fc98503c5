/-! Values of configuration files, and the tables that are built up while a file is read. -/
namespace Rowwise

/-- A value. Numbers with a point and points in time only count by their kind. -/
inductive Toml where
  | string (text : String)
  | integer (n : Int)
  | float
  | boolean (value : Bool)
  | time
  | array (items : List Toml)
  | table (entries : List (String × Toml))
  deriving Repr

namespace Toml

inductive Origin where
  /-- By a header of its own. -/
  | header
  /-- As a parent in the header of another table. -/
  | parent
  /-- By a dotted key. -/
  | dotted
  deriving DecidableEq, Repr

/-- An entry of an open table. Values are closed; tables can still grow. -/
inductive Node where
  | value (v : Toml)
  | table (origin : Origin) (entries : List (String × Node))
  /-- An array of tables. Only the last one can grow. -/
  | tables (earlier : List (List (String × Node))) (last : List (String × Node))

abbrev Entries := List (String × Node)

namespace Entries

def find? (key : String) (es : Entries) : Option Node := es.lookup key

def put (key : String) (node : Node) (es : Entries) : Entries :=
  if (es.find? key).isSome then
    es.map fun e => if e.1 == key then (key, node) else e
  else
    es ++ [(key, node)]

/-- Write under a dotted key. The tables that the key passes through must be open to dotted
keys, and the one that receives the value must not have it yet. `open_` tells whether the table
at hand may receive the value itself. -/
def write (open_ : Bool) (path : List String) (key : String) (v : Toml) (es : Entries) :
    Option Entries :=
  match path with
  | [] => if open_ && (es.find? key).isNone then some (es ++ [(key, .value v)]) else none
  | first :: rest =>
    match es.find? first with
    | none => (write true rest key v []).map fun new => es ++ [(first, .table .dotted new)]
    | some (.value _) | some (.table .header _) => none
    | some (.table origin inner) =>
      (write (origin == .dotted) rest key v inner).map fun new => es.put first (.table origin new)
    | some (.tables earlier last) =>
      (write false rest key v last).map fun new => es.put first (.tables earlier new)

/-- Change the table that a header path leads to. Tables that are missing on the way are made. -/
def descend (change : Entries → Option Entries) (path : List String) (es : Entries) :
    Option Entries :=
  match path with
  | [] => change es
  | first :: rest =>
    match es.find? first with
    | none => (descend change rest []).map fun new => es ++ [(first, .table .parent new)]
    | some (.value _) => none
    | some (.table origin inner) =>
      (descend change rest inner).map fun new => es.put first (.table origin new)
    | some (.tables earlier last) =>
      (descend change rest last).map fun new => es.put first (.tables earlier new)

/-- A header makes a table, or claims one that so far was only a parent. -/
def openTable (key : String) (es : Entries) : Option Entries :=
  match es.find? key with
  | none => some (es ++ [(key, .table .header [])])
  | some (.table .parent inner) => some (es.put key (.table .header inner))
  | _ => none

def openItem (key : String) (es : Entries) : Option Entries :=
  match es.find? key with
  | none => some (es ++ [(key, .tables [] [])])
  | some (.tables earlier last) => some (es.put key (.tables (earlier ++ [last]) []))
  | _ => none

end Entries

mutual

def Node.close : Node → Toml
  | .value v => v
  | .table _ entries => .table (closeEntries entries)
  | .tables earlier last => .array (closeItems earlier ++ [.table (closeEntries last)])

def closeEntries : List (String × Node) → List (String × Toml)
  | [] => []
  | (key, node) :: rest => (key, node.close) :: closeEntries rest

def closeItems : List (List (String × Node)) → List Toml
  | [] => []
  | entries :: rest => .table (closeEntries entries) :: closeItems rest

end

end Toml

end Rowwise
