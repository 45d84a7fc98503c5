import Rowwise.Error

/-! Batches of rows, given as parallel columns of unboxed values, and the way back: a column of
boxed results as a column of one primitive. -/
namespace Rowwise

inductive Column where
  | boolean (values : List Bool)
  | byte (values : List Int8)
  | char (units : List UInt16)
  | short (values : List Int16)
  | int (values : List Int32)
  | long (values : List Int64)
  | float (values : List Float32)
  | double (values : List Float)
  | string (values : List String)
  /-- Values that are boxed already, of any kinds. -/
  | boxed (values : List Value)
  deriving Repr

namespace Column

def length : Column → Nat
  | .boolean vs => vs.length
  | .byte vs => vs.length
  | .char vs => vs.length
  | .short vs => vs.length
  | .int vs => vs.length
  | .long vs => vs.length
  | .float vs => vs.length
  | .double vs => vs.length
  | .string vs => vs.length
  | .boxed vs => vs.length

def typeName : Column → String
  | .boolean _ => "boolean"
  | .byte _ => "byte"
  | .char _ => "char"
  | .short _ => "short"
  | .int _ => "int"
  | .long _ => "long"
  | .float _ => "float"
  | .double _ => "double"
  | .string _ => "string"
  | .boxed _ => "boxed"

def value? (row : Nat) : Column → Option Value
  | .boolean vs => vs[row]?.map .boolean
  | .byte vs => vs[row]?.map .byte
  | .char vs => vs[row]?.map .char
  | .short vs => vs[row]?.map .short
  | .int vs => vs[row]?.map .int
  | .long vs => vs[row]?.map .long
  | .float vs => vs[row]?.map .float
  | .double vs => vs[row]?.map .double
  | .string vs => vs[row]?.map .string
  | .boxed vs => vs[row]?

end Column

structure Batch where
  columns : List Column
  rows : Nat
  uniform : ∀ c ∈ columns, c.length = rows

namespace Batch

/-- The number and the length of the first column, counted from `index`, that has not `rows`
rows. -/
def mismatch? (rows : Nat) : Nat → List Column → Option (Nat × Nat)
  | _, [] => none
  | index, c :: rest =>
    if c.length = rows then mismatch? rows (index + 1) rest else some (index, c.length)

theorem length_of_mismatch?_eq_none {rows index : Nat} {columns : List Column}
    (h : mismatch? rows index columns = none) : ∀ c ∈ columns, c.length = rows := by
  induction columns generalizing index with
  | nil => simp
  | cons first rest ih =>
    simp only [mismatch?] at h
    split at h
    · rename_i same
      intro c member
      rcases List.mem_cons.mp member with rfl | later
      · exact same
      · exact ih h c later
    · cases h

/-- The first column gives the number of rows. -/
def ofColumns (columns : List Column) : Except Error Batch :=
  let rows := (columns.head?.map Column.length).getD 0
  match h : mismatch? rows 0 columns with
  | none => .ok ⟨columns, rows, length_of_mismatch?_eq_none h⟩
  | some (index, length) => .error (.lengthMismatch (.column index) rows length)

def nullary (rows : Nat) : Batch := ⟨[], rows, by simp⟩

inductive Source where
  | columns (columns : List Column)
  | nullary (rows : Nat)
  deriving Repr

def ofSource : Source → Except Error Batch
  | .columns columns => ofColumns columns
  | .nullary rows => .ok (nullary rows)

def width (b : Batch) : Nat := b.columns.length

def rowFrom (row : Nat) : Nat → List Column → Except Error (List Value)
  | _, [] => .ok []
  | index, c :: rest =>
    match c.value? row with
    | none => .error (.lengthMismatch (.column index) (row + 1) c.length)
    | some v =>
      match rowFrom row (index + 1) rest with
      | .error e => .error e
      | .ok vs => .ok (v :: vs)

def row (b : Batch) (row : Nat) : Except Error (List Value) := rowFrom row 0 b.columns

end Batch

/-- A primitive that results can be unboxed to. Nothing is widened. -/
structure Unboxing (α : Type) where
  kind : Kind
  box : α → Value
  view : Value → Option α

namespace Unboxing

def int : Unboxing Int32 where
  kind := .int
  box := .int
  view
    | .int v => some v
    | _ => none

def long : Unboxing Int64 where
  kind := .long
  box := .long
  view := Value.asLong?

def double : Unboxing Float where
  kind := .double
  box := .double
  view
    | .double v => some v
    | _ => none

def boolean : Unboxing Bool where
  kind := .boolean
  box := .boolean
  view := Value.asBoolean?

def runFrom (u : Unboxing α) : Nat → List Value → Except Error (List α)
  | _, [] => .ok []
  | index, v :: rest =>
    match u.view v with
    | none => .error (.unboxMismatch index u.kind v.kind)
    | some a =>
      match u.runFrom (index + 1) rest with
      | .error e => .error e
      | .ok as => .ok (a :: as)

/-- All values have to be of the kind; the first that is not fails the whole. -/
def run (u : Unboxing α) (values : List Value) : Except Error (List α) := u.runFrom 0 values

end Unboxing

inductive Unboxed where
  | ints (values : List Int32)
  | longs (values : List Int64)
  | doubles (values : List Float)
  | booleans (values : List Bool)
  deriving Repr

inductive UnboxTarget where
  | int | long | double | boolean
  deriving DecidableEq, Repr

def UnboxTarget.unbox (target : UnboxTarget) (values : List Value) : Except Error Unboxed :=
  match target with
  | .int => (Unboxing.int.run values).map .ints
  | .long => (Unboxing.long.run values).map .longs
  | .double => (Unboxing.double.run values).map .doubles
  | .boolean => (Unboxing.boolean.run values).map .booleans

end Rowwise
