import Rowwise.Class.Interner
import Rowwise.Proofs.Class.Extended
import Rowwise.Proofs.Class.Sized

/-! Interning through tables. A table always tells the first slot of a value, also in a pool that
was read with a value in several slots. So the slots alone decide what every addition answers, and
an interner does what a search of the slots would do. -/
namespace Rowwise

namespace Slots

variable {α : Type} [BEq α] {a b : α} {s : Slots α}

/-- The table tells the first slot of every value. -/
def Indexed (s : Slots α) : Prop := ∀ a, s.find? a = (s.values.idxOf? a).map UInt32.ofNat

theorem indexed_empty : Indexed ({} : Slots α) := fun _ => rfl

/-- What is there already stands in its first slot. -/
theorem Indexed.intern_of_first (indexed : s.Indexed) {i : Nat}
    (first : s.values.idxOf? a = some i) :
    s.intern a = (UInt32.ofNat i, s) := by
  have found := indexed a
  rw [first] at found
  simp only [intern, found, Option.map_some]

theorem Indexed.intern_of_new (indexed : s.Indexed) (new : s.values.idxOf? a = none) :
    s.intern a = s.push a := by
  have found := indexed a
  rw [new] at found
  simp only [intern, found, Option.map_none]

def extend (s : Slots α) (values : List α) : Slots α := values.foldl (fun s a => (s.push a).2) s

theorem values_extend (s : Slots α) (values : List α) :
    (s.extend values).values = s.values ++ values := by
  induction values generalizing s with
  | nil => exact (List.append_nil _).symm
  | cons a values ih =>
    rw [extend, List.foldl_cons, ← extend, ih]
    simp [push]

variable [LawfulBEq α]

theorem find?_push (a b : α) (s : Slots α) : (s.push b).2.find? a =
    (s.find? a).or (if b == a then some (UInt32.ofNat s.values.length) else none) := by
  simp only [push, find?]
  rcases Option.eq_none_or_eq_some (s.table.lookup b) with missing | ⟨slot, known⟩
  · by_cases same : b = a
    · subst same
      simp [missing]
    · have other : (a == b) = false := beq_false_of_ne (Ne.symm same)
      simp [missing, List.lookup_cons, same, other]
  · by_cases same : b = a
    · subst same
      simp [known]
    · simp [known, same]

theorem Indexed.push (indexed : s.Indexed) (b : α) : (s.push b).2.Indexed := by
  intro a
  have values : (s.push b).2.values = s.values ++ [b] := rfl
  rw [find?_push, indexed a, values, List.idxOf?, List.findIdx?_append, ← List.idxOf?,
    Option.map_or]
  by_cases same : b = a <;> simp [same]

theorem Indexed.extend (indexed : s.Indexed) (values : List α) : (s.extend values).Indexed := by
  induction values generalizing s with
  | nil => exact indexed
  | cons a values ih => exact ih (indexed.push a)

theorem Indexed.intern (indexed : s.Indexed) (a : α) : (s.intern a).2.Indexed := by
  cases first : s.values.idxOf? a with
  | some i => rwa [indexed.intern_of_first first]
  | none =>
    rw [indexed.intern_of_new first]
    exact indexed.push a

/-- What a value is interned as: its first slot. There is a new slot only if none has the value. -/
structure Interns (s : Slots α) (a : α) (slot : UInt32) (s' : Slots α) : Prop where
  gives : s'.get? slot = some a
  least : ∀ i < slot.toNat, s'.values[i]? ≠ some a
  known : a ∈ s.values → s' = s
  new : a ∉ s.values → s'.values = s.values ++ [a] ∧ slot.toNat = s.values.length

theorem Indexed.interns (indexed : s.Indexed) (few : s.values.length < UInt32.size) (a : α) :
    s.Interns a (s.intern a).1 (s.intern a).2 := by
  cases first : s.values.idxOf? a with
  | some i =>
    rw [indexed.intern_of_first first]
    obtain ⟨inside, here, before⟩ := List.idxOf?_eq_some_iff.mp first
    have member : a ∈ s.values := here ▸ List.getElem_mem inside
    have slot : (UInt32.ofNat i).toNat = i := UInt32.toNat_ofNat_of_lt' (inside.trans few)
    refine ⟨?_, ?_, fun _ => rfl, fun new => absurd member new⟩
    · rw [get?, slot, List.getElem?_eq_getElem inside, here]
    · intro j less there
      rw [slot] at less
      obtain ⟨_, there⟩ := List.getElem?_eq_some_iff.mp there
      exact before j less there
  | none =>
    rw [indexed.intern_of_new first]
    have new : a ∉ s.values := List.idxOf?_eq_none_iff.mp first
    have slot : (s.push a).1.toNat = s.values.length := UInt32.toNat_ofNat_of_lt' few
    have values : (s.push a).2.values = s.values ++ [a] := rfl
    refine ⟨?_, ?_, fun member => absurd member new, fun _ => ⟨values, slot⟩⟩
    · rw [get?, slot, values, List.getElem?_concat_length]
    · intro j less there
      rw [slot] at less
      rw [values, List.getElem?_append_left less] at there
      exact new (List.mem_of_getElem? there)

/-- No value is ever put into a second slot. -/
theorem Indexed.nodup_intern (indexed : s.Indexed) (distinct : s.values.Nodup) (a : α) :
    (s.intern a).2.values.Nodup := by
  cases first : s.values.idxOf? a with
  | some i => rwa [indexed.intern_of_first first]
  | none =>
    rw [indexed.intern_of_new first]
    have new : a ∉ s.values := List.idxOf?_eq_none_iff.mp first
    exact List.nodup_append.mpr ⟨distinct, List.nodup_singleton a, by grind⟩

end Slots

namespace Pool

def add : Constant → Pool → Nat × Pool
  | .text s => addString s
  | .long n => addInteger n
  | .double bits => addDouble bits

variable {p q : Pool}

theorem Grows.add (a : Constant) (p : Pool) : p.Grows (p.add a).2 := by
  cases a with
  | text s => exact .addString s p
  | long n => exact .addInteger n p
  | double bits => exact .addDouble bits p

structure Alike (p q : Pool) : Prop where
  strings : p.strings = q.strings
  integers : p.integers = q.integers
  doubles : p.doubles.length = q.doubles.length

theorem Alike.of_agrees (agrees : p.agrees q = true) : p.Alike q := by
  simp only [Pool.agrees, Bool.and_eq_true, beq_iff_eq] at agrees
  obtain ⟨⟨⟨strings, integers⟩, doubles⟩, -⟩ := agrees
  exact ⟨strings, integers, doubles⟩

theorem Alike.add (alike : p.Alike q) (a : Constant) :
    (p.add a).1 = (q.add a).1 ∧ (p.add a).2.Alike (q.add a).2 := by
  obtain ⟨strings, integers, doubles⟩ := alike
  cases a with
  | text s =>
    simp only [Pool.add, addString, strings]
    split
    · exact ⟨rfl, strings, integers, doubles⟩
    · exact ⟨rfl, rfl, integers, doubles⟩
  | long n =>
    simp only [Pool.add, addInteger, integers]
    split
    · exact ⟨rfl, strings, integers, doubles⟩
    · exact ⟨rfl, strings, rfl, doubles⟩
  | double bits => exact ⟨doubles, strings, integers, by simp [Pool.add, addDouble, doubles]⟩

end Pool

namespace Interner

variable {t u : Interner}

structure Indexed (t : Interner) : Prop where
  strings : t.strings.Indexed
  integers : t.integers.Indexed

theorem indexed_empty : Indexed {} := ⟨Slots.indexed_empty, Slots.indexed_empty⟩

theorem Indexed.add (indexed : t.Indexed) (a : Constant) : (t.add a).2.Indexed := by
  cases a with
  | text s => exact ⟨indexed.strings.intern s, indexed.integers⟩
  | long n => exact ⟨indexed.strings, indexed.integers.intern n⟩
  | double bits => exact ⟨indexed.strings, indexed.integers⟩

def ofPool (p : Pool) : Interner where
  strings := Slots.extend {} p.strings
  integers := Slots.extend {} p.integers
  doubles := p.doubles

theorem pool_ofPool (p : Pool) : (ofPool p).pool = p := by
  simp [pool, ofPool, Slots.values_extend]

theorem indexed_ofPool (p : Pool) : (ofPool p).Indexed :=
  ⟨Slots.indexed_empty.extend p.strings, Slots.indexed_empty.extend p.integers⟩

end Interner

namespace Reader

variable {α β : Type}

theorem timesInto_eq (item : Reader α) (push : α → β → β) (n : Nat) (b : β) :
    item.timesInto push n b =
      (fun items => items.foldl (fun b a => push a b) b) <$> item.times n := by
  induction n generalizing b with
  | zero => rfl
  | succ n ih => simp [timesInto, times, ih]

theorem countedInto_eq (item : Reader α) (push : α → β → β) (b : β) :
    item.countedInto push b =
      (fun items => items.foldl (fun b a => push a b) b) <$> item.counted := by
  simp [countedInto, counted, timesInto_eq]

/-- What is read is the interner of the pool that is read. -/
theorem interner_eq : interner = Interner.ofPool <$> pool := by
  have singles (xs : List UInt64) : (xs.map fun bits => [bits]).flatten = xs :=
    List.flatMap_singleton' xs
  simp [interner, pool, countedInto_eq, Interner.ofPool, Slots.extend, singles]

/-- Reading puts every value into the slot that it was read from, and indexes the first ones. -/
theorem interner_ok {c d : Cursor} {t : Interner} (ok : interner c = .ok t d) :
    pool c = .ok t.pool d ∧ t.Indexed := by
  rw [interner_eq, map_eq_pure_bind] at ok
  obtain ⟨p, _, read, made⟩ := run_bind_ok.mp ok
  obtain ⟨rfl, rfl⟩ := run_pure_ok.mp made
  rw [Interner.pool_ofPool]
  exact ⟨read, Interner.indexed_ofPool p⟩

end Reader

namespace Interner

variable {t u : Interner}

/-- A table answers what a search of the slots answers. -/
theorem Indexed.add_eq (indexed : t.Indexed) (a : Constant) :
    (t.add a).1 = UInt32.ofNat (t.pool.add a).1 ∧ (t.add a).2.pool = (t.pool.add a).2 := by
  cases a with
  | text s =>
    simp only [Interner.add, addString, Pool.add, Pool.addString, pool]
    cases first : t.strings.values.idxOf? s with
    | some i => simp [indexed.strings.intern_of_first first]
    | none => simp [indexed.strings.intern_of_new first, Slots.push]
  | long n =>
    simp only [Interner.add, addInteger, Pool.add, Pool.addInteger, pool]
    cases first : t.integers.values.idxOf? n with
    | some i => simp [indexed.integers.intern_of_first first]
    | none => simp [indexed.integers.intern_of_new first, Slots.push]
  | double bits => exact ⟨rfl, rfl⟩

/-- The constant is what a word finds. -/
def Gives (t : Interner) (slot : UInt32) : Constant → Prop
  | .text s => t.getString slot = some s
  | .long n => t.getInteger slot = some n
  | .double bits => t.getDouble slot = some bits

theorem Gives.of_grows {slot : UInt32} {a : Constant} (gives : t.Gives slot a)
    (grows : t.pool.Grows u.pool) : u.Gives slot a := by
  cases a with
  | text s => exact getElem?_of_grown grows.strings gives
  | long n => exact getElem?_of_grown grows.integers gives
  | double bits => exact getElem?_of_grown grows.doubles gives

theorem Indexed.grows (indexed : t.Indexed) (additions : List Constant) :
    t.pool.Grows (t.addAll additions).2.pool := by
  induction additions generalizing t with
  | nil => exact .refl t.pool
  | cons a later ih =>
    have first := Pool.Grows.add a t.pool
    rw [← (indexed.add_eq a).2] at first
    exact first.trans (ih (indexed.add a))

/-- Pools that are alike go on alike. -/
theorem Indexed.addAll_eq (indexed : t.Indexed) (indexed' : u.Indexed)
    (alike : t.pool.Alike u.pool) (additions : List Constant) :
    (t.addAll additions).1 = (u.addAll additions).1 := by
  induction additions generalizing t u with
  | nil => rfl
  | cons a later ih =>
    obtain ⟨slot, stepped⟩ := indexed.add_eq a
    obtain ⟨slot', stepped'⟩ := indexed'.add_eq a
    obtain ⟨same, alike⟩ := alike.add a
    rw [← stepped, ← stepped'] at alike
    simp only [addAll, slot, slot', same, ih (indexed.add a) (indexed'.add a) alike]

structure Room (t : Interner) : Prop where
  strings : t.strings.values.length < UInt32.size
  integers : t.integers.values.length < UInt32.size
  doubles : t.doubles.length < UInt32.size

/-- The additions give a slot to what they add. -/
theorem Indexed.gives (indexed : t.Indexed) (room : t.Room) (a : Constant) :
    (t.add a).2.Gives (t.add a).1 a := by
  cases a with
  | text s => exact (indexed.strings.interns room.strings s).gives
  | long n => exact (indexed.integers.interns room.integers n).gives
  | double bits =>
    have slot : (UInt32.ofNat t.doubles.length).toNat = t.doubles.length :=
      UInt32.toNat_ofNat_of_lt' room.doubles
    simp only [Gives, Interner.add, addDouble, getDouble, slot]
    exact List.getElem?_concat_length

theorem Indexed.nodup_addAll (indexed : t.Indexed) (strings : t.strings.values.Nodup)
    (integers : t.integers.values.Nodup) (additions : List Constant) :
    (t.addAll additions).2.strings.values.Nodup ∧ (t.addAll additions).2.integers.values.Nodup := by
  induction additions generalizing t with
  | nil => exact ⟨strings, integers⟩
  | cons a later ih =>
    apply ih (indexed.add a)
    · cases a with
      | text s => exact indexed.strings.nodup_intern strings s
      | _ => exact strings
    · cases a with
      | long n => exact indexed.integers.nodup_intern integers n
      | _ => exact integers

inductive Reached : Interner → Prop where
  | empty : Reached {}
  | read {c d : Cursor} {t : Interner} : Reader.interner c = .ok t d → Reached t
  | add {t : Interner} (a : Constant) : Reached t → Reached (t.add a).2

theorem Reached.indexed (reached : t.Reached) : t.Indexed := by
  induction reached with
  | empty => exact indexed_empty
  | read ok => exact (Reader.interner_ok ok).2
  | add a _ ih => exact ih.add a

end Interner

/-- Constants keep their slots, and equal ones share them. In a pool that was read, or filled from
nothing, a text or an integer is added as the first slot that holds it, and as a new one only if
there is none. Whatever a slot has been given for, or holds already, it holds for ever. A pool that
was filled from nothing never repeats a text or an integer. Pools with equal slots cannot be told
apart by further additions, however they came about. -/
theorem interning_stable {t : Interner} (reached : t.Reached) (room : t.Room) :
    (∀ s, t.strings.Interns s (t.addString s).1 (t.addString s).2.strings ∧
      (t.addString s).2 = { t with strings := (t.addString s).2.strings }) ∧
    (∀ n, t.integers.Interns n (t.addInteger n).1 (t.addInteger n).2.integers ∧
      (t.addInteger n).2 = { t with integers := (t.addInteger n).2.integers }) ∧
    (∀ a later, ((t.add a).2.addAll later).2.Gives (t.add a).1 a) ∧
    (∀ slot a later, t.Gives slot a → (t.addAll later).2.Gives slot a) ∧
    (∀ additions, (Interner.addAll additions {}).2.strings.values.Nodup ∧
      (Interner.addAll additions {}).2.integers.values.Nodup) ∧
    ∀ u : Interner, u.Reached → t.agrees u = true →
      ∀ additions, (t.addAll additions).1 = (u.addAll additions).1 := by
  have indexed := reached.indexed
  refine ⟨?_, ?_, ?_, ?_, ?_, ?_⟩
  · exact fun s => ⟨indexed.strings.interns room.strings s, rfl⟩
  · exact fun n => ⟨indexed.integers.interns room.integers n, rfl⟩
  · intro a later
    exact (indexed.gives room a).of_grows ((indexed.add a).grows later)
  · intro slot a later gives
    exact gives.of_grows (indexed.grows later)
  · exact Interner.indexed_empty.nodup_addAll .nil .nil
  · intro u reached' agrees additions
    exact indexed.addAll_eq reached'.indexed (.of_agrees agrees) additions

/-- A pool that repeats a text and an integer, as no interner writes them. -/
def stuttering : Pool where
  strings := ["a", "b", "a"]
  integers := [7, 7]

theorem stuttering_interned :
    let t := Interner.ofPool stuttering
    t.strings.Interns "a" 0 (t.addString "a").2.strings ∧
      ((t.add (.long 8)).2.addAll [.text "c", .long 7]).2.Gives 2 (.long 8) ∧
      (t.addAll [.text "a", .text "c", .long 7]).2.Gives 2 (.text "a") := by
  intro t
  have read : Reader.interner (Cursor.start stuttering.encode) =
      .ok t ⟨stuttering.encode, stuttering.encode.length⟩ := by
    cbv
  obtain ⟨texts, -, given, held, -⟩ := interning_stable (.read read) ⟨by cbv, by cbv, by cbv⟩
  refine ⟨(texts "a").1, given (.long 8) _, held 2 (.text "a") _ (by cbv)⟩

end Rowwise
