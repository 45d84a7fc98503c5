import Rowwise.Batch

/-! Unboxing against boxing. A column is unboxed to a primitive exactly if all its values are of the
kind that the primitive stands for, and then boxing gives the column back; otherwise the first value
of another kind is named. -/
namespace Rowwise

namespace Unboxing

variable {α : Type} {u : Unboxing α}

/-- The values of the kind are those that are boxed, and each is viewed as what it was made of. -/
structure Exact (u : Unboxing α) : Prop where
  views : ∀ v a, u.view v = some a ↔ v = u.box a
  kinds : ∀ v, u.view v = none ↔ v.kind ≠ u.kind

theorem int_exact : int.Exact where
  views v a := by cases v <;> simp [int]
  kinds v := by cases v <;> simp [int, Value.kind]

theorem long_exact : long.Exact where
  views v a := by cases v <;> simp [long, Value.asLong?]
  kinds v := by cases v <;> simp [long, Value.asLong?, Value.kind]

theorem double_exact : double.Exact where
  views v a := by cases v <;> simp [double]
  kinds v := by cases v <;> simp [double, Value.kind]

theorem boolean_exact : boolean.Exact where
  views v a := by cases v <;> simp [boolean, Value.asBoolean?]
  kinds v := by cases v <;> simp [boolean, Value.asBoolean?, Value.kind]

namespace Exact

variable {values : List Value}

theorem kind_of_view (exact : u.Exact) {v : Value} {a : α} (viewed : u.view v = some a) :
    v.kind = u.kind := by
  refine Decidable.byContradiction fun other => ?_
  rw [(exact.kinds v).mpr other] at viewed
  cases viewed

theorem runFrom_ok (exact : u.Exact) (index : Nat) {as : List α} :
    u.runFrom index values = .ok as ↔ values = as.map u.box := by
  induction values generalizing index as with
  | nil => cases as <;> simp [runFrom]
  | cons v rest ih =>
    cases as with
    | nil =>
      cases viewed : u.view v with
      | none => simp [runFrom, viewed]
      | some a => cases found : u.runFrom (index + 1) rest <;> simp [runFrom, viewed, found]
    | cons b bs =>
      rw [List.map_cons, List.cons.injEq, ← exact.views, ← ih (index + 1)]
      cases viewed : u.view v with
      | none => simp [runFrom, viewed]
      | some a => cases found : u.runFrom (index + 1) rest <;> simp [runFrom, viewed, found]

theorem runFrom_error (exact : u.Exact) (values : List Value) (index : Nat) {e : Error} :
    u.runFrom index values = .error e ↔
      ∃ before v after, values = before ++ v :: after ∧ (∀ w ∈ before, w.kind = u.kind) ∧
        v.kind ≠ u.kind ∧ e = .unboxMismatch (index + before.length) u.kind v.kind := by
  induction values generalizing index with
  | nil => simp [runFrom]
  | cons v rest ih =>
    simp only [List.cons_eq_append_iff]
    cases viewed : u.view v with
    | none =>
      have other := (exact.kinds v).mp viewed
      simp only [runFrom, viewed]
      constructor
      · intro error
        cases error
        exact ⟨[], v, rest, .inl ⟨rfl, rfl⟩, nofun, other, rfl⟩
      · rintro ⟨before, w, after, ⟨rfl, same⟩ | ⟨tail, rfl, _⟩, alike, _, rfl⟩
        · cases same; rfl
        · exact absurd (alike v List.mem_cons_self) other
    | some a =>
      have same := exact.kind_of_view viewed
      have step : u.runFrom index (v :: rest) = .error e ↔
          u.runFrom (index + 1) rest = .error e := by
        cases found : u.runFrom (index + 1) rest <;> simp [runFrom, viewed, found]
      rw [step, ih]
      constructor
      · rintro ⟨before, w, after, rfl, alike, other, rfl⟩
        refine ⟨v :: before, w, after, .inr ⟨before, rfl, rfl⟩, ?_, other, ?_⟩
        · exact List.forall_mem_cons.mpr ⟨same, alike⟩
        · rw [List.length_cons, Nat.add_right_comm, Nat.add_assoc]
      · rintro ⟨before, w, after, ⟨rfl, first⟩ | ⟨tail, rfl, rfl⟩, alike, other, rfl⟩
        · cases first
          exact absurd same other
        · refine ⟨tail, w, after, rfl, (List.forall_mem_cons.mp alike).2, other, ?_⟩
          rw [List.length_cons, Nat.add_right_comm, Nat.add_assoc]

end Exact

end Unboxing

def Unboxed.boxed : Unboxed → List Value
  | .ints values => values.map .int
  | .longs values => values.map .long
  | .doubles values => values.map .double
  | .booleans values => values.map .boolean

namespace UnboxTarget

variable {values : List Value}

def primitive : UnboxTarget → Primitive
  | .int => .int
  | .long => .long
  | .double => .double
  | .boolean => .boolean

theorem map_ok {u : Unboxing α} (exact : u.Exact) {wrap : List α → Unboxed} {column : Unboxed} :
    (u.run values).map wrap = .ok column ↔ ∃ as, values = as.map u.box ∧ wrap as = column := by
  simp only [← exact.runFrom_ok 0, Unboxing.run]
  cases u.runFrom 0 values <;> simp [Except.map]

theorem map_error {u : Unboxing α} (exact : u.Exact) {wrap : List α → Unboxed} {e : Error} :
    (u.run values).map wrap = .error e ↔
      ∃ before v after, values = before ++ v :: after ∧ (∀ w ∈ before, w.kind = u.kind) ∧
        v.kind ≠ u.kind ∧ e = .unboxMismatch before.length u.kind v.kind := by
  have first := exact.runFrom_error values 0 (e := e)
  simp only [Nat.zero_add] at first
  rw [← first, Unboxing.run]
  cases u.runFrom 0 values <;> simp [Except.map]

/-- What is unboxed can be boxed again. -/
theorem boxed_of_unbox {target : UnboxTarget} {column : Unboxed}
    (ok : target.unbox values = .ok column) : column.boxed = values := by
  cases target with
  | int => obtain ⟨_, same, rfl⟩ := (map_ok Unboxing.int_exact).mp ok; exact same.symm
  | long => obtain ⟨_, same, rfl⟩ := (map_ok Unboxing.long_exact).mp ok; exact same.symm
  | double => obtain ⟨_, same, rfl⟩ := (map_ok Unboxing.double_exact).mp ok; exact same.symm
  | boolean => obtain ⟨_, same, rfl⟩ := (map_ok Unboxing.boolean_exact).mp ok; exact same.symm

/-- Unboxing fails for the first value of another kind, and for nothing else. -/
theorem unbox_error {target : UnboxTarget} {e : Error} :
    target.unbox values = .error e ↔
      ∃ before v after, values = before ++ v :: after ∧
        (∀ w ∈ before, w.kind = target.primitive.kind) ∧ v.kind ≠ target.primitive.kind ∧
        e = .unboxMismatch before.length target.primitive.kind v.kind := by
  cases target with
  | int => exact map_error Unboxing.int_exact
  | long => exact map_error Unboxing.long_exact
  | double => exact map_error Unboxing.double_exact
  | boolean => exact map_error Unboxing.boolean_exact

theorem unbox_of_kind {target : UnboxTarget}
    (alike : ∀ v ∈ values, v.kind = target.primitive.kind) :
    ∃ column, target.unbox values = .ok column ∧ column.boxed = values := by
  cases unboxed : target.unbox values with
  | ok column => exact ⟨column, rfl, boxed_of_unbox unboxed⟩
  | error e =>
    obtain ⟨before, v, after, rfl, -, other, -⟩ := unbox_error.mp unboxed
    exact absurd (alike v (by simp)) other

end UnboxTarget

end Rowwise
