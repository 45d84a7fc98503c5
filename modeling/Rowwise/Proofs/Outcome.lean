/-! Computations that can fail: what success of the whole says about its parts. -/
namespace Rowwise

variable {ε α β : Type}

theorem bind_ok {x : Except ε α} {f : α → Except ε β} {b : β} (ok : x >>= f = .ok b) :
    ∃ a, x = .ok a ∧ f a = .ok b := by
  cases x with
  | error e => cases ok
  | ok a => exact ⟨a, rfl, ok⟩

theorem bind_error {x : Except ε α} {f : α → Except ε β} {e : ε} (error : x >>= f = .error e) :
    x = .error e ∨ ∃ a, x = .ok a ∧ f a = .error e := by
  cases x with
  | error e => cases error; exact .inl rfl
  | ok a => exact .inr ⟨a, rfl, error⟩

/-- A check that all items pass is passed by each of them. -/
theorem forM_ok {check : α → Except ε Unit} {items : List α} (ok : items.forM check = .ok ()) :
    ∀ a ∈ items, check a = .ok () := by
  induction items with
  | nil => exact fun a member => absurd member List.not_mem_nil
  | cons b later ih =>
    obtain ⟨_, first, rest⟩ := bind_ok ok
    intro a member
    rcases List.mem_cons.mp member with rfl | member
    · exact first
    · exact ih rest a member

/-- A check that fails on some items fails on one of them in the same way. -/
theorem forM_error {check : α → Except ε Unit} {items : List α} {e : ε}
    (error : items.forM check = .error e) : ∃ a ∈ items, check a = .error e := by
  induction items with
  | nil => cases error
  | cons b later ih =>
    rcases bind_error error with first | ⟨_, _, rest⟩
    · exact ⟨b, List.mem_cons_self, first⟩
    · obtain ⟨a, member, failed⟩ := ih rest
      exact ⟨a, List.mem_cons_of_mem b member, failed⟩

theorem forM_ok_of_forall {check : α → Except ε Unit} {items : List α}
    (passed : ∀ a ∈ items, check a = .ok ()) : items.forM check = .ok () := by
  induction items with
  | nil => rfl
  | cons b later ih =>
    rw [List.forall_mem_cons] at passed
    change (check b >>= fun _ => later.forM check) = .ok ()
    rw [passed.1]
    exact ih passed.2

/-! The same for computations that also move a state. -/

variable {σ : Type} {x : EStateM ε σ α} {f : α → EStateM ε σ β} {s t : σ}

theorem run_pure_ok {a b : α} : (pure a : EStateM ε σ α) s = .ok b t ↔ a = b ∧ s = t := by
  change EStateM.Result.ok a s = _ ↔ _
  rw [EStateM.Result.ok.injEq]

theorem run_bind_of_ok {a : α} (ok : x s = .ok a t) : (x >>= f) s = f a t := by
  simp only [bind, EStateM.bind, ok]

theorem run_bind_of_error {e : ε} (error : x s = .error e t) : (x >>= f) s = .error e t := by
  simp only [bind, EStateM.bind, error]

theorem run_bind_ok {b : β} :
    (x >>= f) s = .ok b t ↔ ∃ a u, x s = .ok a u ∧ f a u = .ok b t := by
  constructor
  · intro ok
    cases first : x s with
    | ok a u => exact ⟨a, u, rfl, (run_bind_of_ok first).symm.trans ok⟩
    | error e u => cases (run_bind_of_error first).symm.trans ok
  · rintro ⟨a, u, first, second⟩
    exact (run_bind_of_ok first).trans second

end Rowwise
