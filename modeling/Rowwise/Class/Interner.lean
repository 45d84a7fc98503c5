import Rowwise.Class.Basic

/-! Pools that are being filled. A table gives the first slot of every value, so that adding a value
does not have to look through the slots. -/
namespace Rowwise

/-- Values in slots, and a table of where each of them stands first. Slots are numbered by words. -/
structure Slots (α : Type) where
  values : List α := []
  table : List (α × UInt32) := []

namespace Slots

variable {α : Type} [BEq α]

def find? (a : α) (s : Slots α) : Option UInt32 := s.table.lookup a

def get? (slot : UInt32) (s : Slots α) : Option α := s.values[slot.toNat]?

/-- Put a value into a new slot. The table keeps the first slot of a value that repeats. -/
def push (a : α) (s : Slots α) : UInt32 × Slots α :=
  let slot := UInt32.ofNat s.values.length
  let table := if (s.find? a).isSome then s.table else (a, slot) :: s.table
  (slot, { values := s.values ++ [a], table })

def intern (a : α) (s : Slots α) : UInt32 × Slots α :=
  match s.find? a with
  | some slot => (slot, s)
  | none => s.push a

end Slots

inductive Constant where
  | text (s : String)
  | long (n : Int64)
  | double (bits : UInt64)
  deriving DecidableEq, Repr

/-- A pool with the tables of its texts and integers. Doubles are never looked for. -/
structure Interner where
  strings : Slots String := {}
  integers : Slots Int64 := {}
  doubles : List UInt64 := []

namespace Interner

def pool (t : Interner) : Pool := ⟨t.strings.values, t.integers.values, t.doubles⟩

def addString (s : String) (t : Interner) : UInt32 × Interner :=
  let (slot, strings) := t.strings.intern s
  (slot, { t with strings })

def addInteger (n : Int64) (t : Interner) : UInt32 × Interner :=
  let (slot, integers) := t.integers.intern n
  (slot, { t with integers })

def addDouble (bits : UInt64) (t : Interner) : UInt32 × Interner :=
  (UInt32.ofNat t.doubles.length, { t with doubles := t.doubles ++ [bits] })

def add : Constant → Interner → UInt32 × Interner
  | .text s => addString s
  | .long n => addInteger n
  | .double bits => addDouble bits

def addAll : List Constant → Interner → List UInt32 × Interner
  | [], t => ([], t)
  | a :: later, t =>
    let (slot, t) := t.add a
    let (slots, t) := t.addAll later
    (slot :: slots, t)

def getString (slot : UInt32) (t : Interner) : Option String := t.strings.get? slot
def getInteger (slot : UInt32) (t : Interner) : Option Int64 := t.integers.get? slot
def getDouble (slot : UInt32) (t : Interner) : Option UInt64 := t.doubles[slot.toNat]?

def agrees (t u : Interner) : Bool := t.pool.agrees u.pool

end Interner

namespace Reader

def timesInto (item : Reader α) (push : α → β → β) : Nat → β → Reader β
  | 0, b => return b
  | n + 1, b => do timesInto item push n (push (← item) b)

def countedInto (item : Reader α) (push : α → β → β) (b : β) : Reader β := do
  let count ← word32
  timesInto item push count.toNat b

/-- Every slot that is read is a new one, also if its value is there already. -/
def interner : Reader Interner := do
  let strings ← countedInto text (fun s slots => (slots.push s).2) {}
  let integers ← countedInto (return (← word64).toInt64) (fun n slots => (slots.push n).2) {}
  let doubles ← countedInto word64 (fun bits doubles => doubles ++ [bits]) []
  return { strings, integers, doubles }

end Reader

end Rowwise
