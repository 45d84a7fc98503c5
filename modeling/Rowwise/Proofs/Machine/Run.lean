import Rowwise.Machine.State
import Rowwise.Proofs.Outcome

/-! Runs of the machine, apart from the number of steps that they are given: paths from state to
state, the states that an invocation reaches, and how it ends, if it does. -/
namespace Rowwise

namespace State

variable {c : Class} {limits : Limits} {s t u : State}

/-- Some number of steps, none of which fails or finishes. -/
inductive Path (c : Class) (limits : Limits) : State → State → Prop where
  | refl {s : State} : Path c limits s s
  | cons {s t u : State} : s.step c limits = .ok (.running t) → Path c limits t u →
      Path c limits s u

theorem Path.trans (first : Path c limits s t) (second : Path c limits t u) :
    Path c limits s u := by
  induction first with
  | refl => exact second
  | cons step _ ih => exact .cons step (ih second)

theorem Path.keeps {P : State → Prop}
    (kept : ∀ {s t : State}, P s → s.step c limits = .ok (.running t) → P t)
    (path : Path c limits s t) (first : P s) : P t := by
  induction path with
  | refl => exact first
  | cons step _ ih => exact ih (kept first step)

/-- A path costs as many steps as it has, and then the run goes on from its end. -/
theorem Path.run (path : Path c limits s t) :
    ∃ steps, ∀ fuel, s.run c limits (steps + fuel) = t.run c limits fuel := by
  induction path with
  | refl => exact ⟨0, fun fuel => by rw [Nat.zero_add]⟩
  | cons step _ ih =>
    obtain ⟨steps, rest⟩ := ih
    refine ⟨steps + 1, fun fuel => ?_⟩
    rw [← rest fuel, Nat.add_right_comm]
    simp only [State.run, step]

/-- An answer stands, however many steps more are allowed. -/
theorem run_mono {fuel more : Nat} {answer : Except Fault Value}
    (ends : s.run c limits fuel = some answer) (enough : fuel ≤ more) :
    s.run c limits more = some answer := by
  induction fuel generalizing s more with
  | zero => cases ends
  | succ fuel ih =>
    obtain ⟨more, rfl⟩ : ∃ k, more = k + 1 := ⟨more - 1, by omega⟩
    simp only [run] at ends ⊢
    split at ends
    · exact ends
    · exact ends
    · exact ih ends (by omega)

/-- A run that ends does so in a step from the end of a path. -/
theorem path_of_run {fuel : Nat} {answer : Except Fault Value}
    (ends : s.run c limits fuel = some answer) :
    ∃ t, Path c limits s t ∧ t.step c limits = answer.map .finished := by
  induction fuel generalizing s with
  | zero => cases ends
  | succ fuel ih =>
    simp only [run] at ends
    split at ends
    · rename_i fault step
      cases ends
      exact ⟨s, .refl, step⟩
    · rename_i result step
      cases ends
      exact ⟨s, .refl, step⟩
    · rename_i next step
      obtain ⟨t, path, last⟩ := ih ends
      exact ⟨t, .cons step path, last⟩

theorem start_ok {index : Nat} {args : List Value} (started : start c limits index args = .ok s) :
    ∃ m frame, c.methods[index]? = some m ∧ Frame.enter m args 0 = .ok frame ∧
      s = ⟨frame, [], {}⟩ := by
  unfold start at started
  split at started
  · cases started
  rename_i m found
  split at started
  · cases started
  obtain ⟨frame, entered, same⟩ := bind_ok started
  cases same
  exact ⟨m, frame, found, entered, rfl⟩

end State

namespace Class

variable {c : Class} {limits : Limits} {index : Nat} {args : List Value}

/-- The state is one that the invocation passes through. -/
def Reaches (c : Class) (limits : Limits) (index : Nat) (args : List Value) (s : State) : Prop :=
  ∃ first, State.start c limits index args = .ok first ∧ State.Path c limits first s

/-- The invocation ends with an answer, given enough steps. -/
def Ends (c : Class) (limits : Limits) (index : Nat) (args : List Value)
    (answer : Except Fault Value) : Prop :=
  ∃ fuel, c.invoke limits fuel index args = some answer

def Diverges (c : Class) (limits : Limits) (index : Nat) (args : List Value) : Prop :=
  ∀ fuel, c.invoke limits fuel index args = none

theorem invoke_mono {fuel more : Nat} {answer : Except Fault Value}
    (ends : c.invoke limits fuel index args = some answer) (enough : fuel ≤ more) :
    c.invoke limits more index args = some answer := by
  simp only [invoke] at ends ⊢
  split at ends
  · exact ends
  · exact State.run_mono ends enough

/-- An invocation ends where it fails to start, or in a step from a state that it reaches. -/
theorem Ends.last {answer : Except Fault Value} (ends : c.Ends limits index args answer) :
    (∃ fault, State.start c limits index args = .error fault ∧ answer = .error fault) ∨
      ∃ first t, State.start c limits index args = .ok first ∧ State.Path c limits first t ∧
        t.step c limits = answer.map .finished := by
  obtain ⟨fuel, ends⟩ := ends
  unfold invoke at ends
  split at ends
  · rename_i fault failed
    cases ends
    exact .inl ⟨fault, failed, rfl⟩
  · rename_i first started
    obtain ⟨t, path, last⟩ := State.path_of_run ends
    exact .inr ⟨first, t, started, path, last⟩

theorem Diverges.first (diverges : c.Diverges limits index args) :
    ∃ first, State.start c limits index args = .ok first ∧
      ∀ fuel, first.run c limits fuel = none := by
  cases started : State.start c limits index args with
  | error fault =>
    have none := diverges 0
    simp only [invoke, started] at none
    cases none
  | ok first =>
    refine ⟨first, rfl, fun fuel => ?_⟩
    have none := diverges fuel
    simpa only [invoke, started] using none

/-- Behind a state that it reaches, an invocation goes on like any run from there. -/
theorem Reaches.invoke {s : State} (reaches : c.Reaches limits index args s) :
    ∃ steps, ∀ fuel, c.invoke limits (steps + fuel) index args = s.run c limits fuel := by
  obtain ⟨first, start, path⟩ := reaches
  obtain ⟨steps, rest⟩ := path.run
  refine ⟨steps, fun fuel => ?_⟩
  rw [← rest fuel]
  simp only [Class.invoke, start]

theorem Reaches.along {s t : State} (reaches : c.Reaches limits index args s)
    (path : State.Path c limits s t) : c.Reaches limits index args t := by
  obtain ⟨first, start, before⟩ := reaches
  exact ⟨first, start, before.trans path⟩

theorem Reaches.ends {s : State} {fuel : Nat} {answer : Except Fault Value}
    (reaches : c.Reaches limits index args s) (run : s.run c limits fuel = some answer) :
    c.Ends limits index args answer := by
  obtain ⟨steps, rest⟩ := reaches.invoke
  exact ⟨steps + fuel, (rest fuel).trans run⟩

theorem Reaches.diverges {s : State} (reaches : c.Reaches limits index args s)
    (run : ∀ fuel, s.run c limits fuel = none) : c.Diverges limits index args := by
  obtain ⟨steps, rest⟩ := reaches.invoke
  intro fuel
  cases found : c.invoke limits fuel index args with
  | none => rfl
  | some answer =>
    have later := invoke_mono found (Nat.le_add_left fuel steps)
    rw [rest, run] at later
    cases later

end Class

end Rowwise
