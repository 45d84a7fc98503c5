import Rowwise.Session.Step

/-! Logs of sessions: every step of a run, with what it answered and the session around it. -/
namespace Rowwise.Session

structure Moment where
  before : Session
  step : Step
  answer : Except Refusal Answer
  after : Session

def moment (fuel : Nat) (step : Step) (s : Session) : Moment :=
  match (perform fuel step).run s with
  | .ok answer t => ⟨s, step, .ok answer, t⟩
  | .error refusal t => ⟨s, step, .error refusal, t⟩

def log (fuel : Nat) : List Step → Session → List Moment
  | [], _ => []
  | step :: rest, s => moment fuel step s :: log fuel rest (moment fuel step s).after

variable {fuel : Nat} {s : Session}

theorem before_moment (fuel : Nat) (step : Step) (s : Session) :
    (moment fuel step s).before = s := by
  unfold moment
  split <;> rfl

theorem step_moment (fuel : Nat) (step : Step) (s : Session) :
    (moment fuel step s).step = step := by
  unfold moment
  split <;> rfl

theorem run_cons (fuel : Nat) (step : Step) (rest : List Step) (s : Session) :
    run fuel (step :: rest) s =
      ((moment fuel step s).answer :: (run fuel rest (moment fuel step s).after).1,
        (run fuel rest (moment fuel step s).after).2) := by
  simp only [run, moment]
  cases (perform fuel step).run s <;> rfl

/-- What holds first and is kept by each step, with its moment added to those of the past, holds in
the end. -/
theorem holds_along {Holds : List Moment → Session → Prop}
    (kept : ∀ {past s} step, Holds past s →
      Holds (past ++ [moment fuel step s]) (moment fuel step s).after)
    (past : List Moment) (first : Holds past s) (steps : List Step) :
    Holds (past ++ log fuel steps s) (run fuel steps s).2 := by
  induction steps generalizing past s with
  | nil => simpa [log, run] using first
  | cons step rest ih =>
    rw [log, run_cons, List.append_cons]
    exact ih _ (kept step first)

/-- Every moment of a run is the next one after a shorter run, and starts the rest of it. -/
theorem exists_run_before {steps : List Step} {earlier : List Moment} {m : Moment}
    (here : earlier ++ [m] <+: log fuel steps s) :
    ∃ first rest, earlier = log fuel first s ∧ m = moment fuel m.step (run fuel first s).2 ∧
      (run fuel steps s).2 = (run fuel rest m.after).2 := by
  induction steps generalizing earlier s with
  | nil => simp [log] at here
  | cons step rest ih =>
    cases earlier with
    | nil =>
      obtain ⟨rfl, -⟩ := List.cons_prefix_cons.mp here
      exact ⟨[], rest, rfl, by rw [step_moment]; rfl, by rw [run_cons]⟩
    | cons m' earlier =>
      obtain ⟨rfl, later⟩ := List.cons_prefix_cons.mp here
      obtain ⟨first, rest', past, made, final⟩ := ih later
      exact ⟨step :: first, rest', by rw [log, past], by rw [run_cons]; exact made,
        by rw [run_cons]; exact final⟩

end Rowwise.Session
