import Rowwise.Proofs.Machine.Floors

/-! The limit on the depth of calls, in runs of any code. A run looks at the limit only where it
calls; so runs with different limits go the same way until one of them is stopped, and what stops
it tells the limit. -/
namespace Rowwise

namespace State

variable {c : Class} {limits limits' : Limits} {s t : State}

def Shallow (limits : Limits) (s : State) : Prop := s.callers.length + 1 ≤ limits.maxCallDepth

/-- An instruction is stopped by the limit, or does the same under any higher one. -/
theorem execute_of_higher (higher : limits.maxCallDepth ≤ limits'.maxCallDepth) (i : Instruction) :
    s.execute c limits i = .error (.callDepth (s.callers.length + 2)) ∨
      s.execute c limits' i = s.execute c limits i := by
  cases i with
  | call index args =>
    simp only [execute, call]
    cases c.methods[index.toNat]? with
    | none => exact .inr rfl
    | some m =>
      by_cases deep : limits.maxCallDepth < s.callers.length + 2
      · exact .inl (if_pos deep)
      · have shallow : ¬ limits'.maxCallDepth < s.callers.length + 2 := by omega
        simp only [deep, shallow, ↓reduceIte, or_true]
  | _ => exact .inr rfl

theorem step_of_higher (higher : limits.maxCallDepth ≤ limits'.maxCallDepth) (c : Class)
    (s : State) :
    s.step c limits = .error (.callDepth (s.callers.length + 2)) ∨
      s.step c limits' = s.step c limits := by
  cases fetched : s.frame.fetch with
  | error fault => simp only [step, fetched, bind, Except.bind, or_true]
  | ok r =>
    rw [step_of_fetch fetched, step_of_fetch fetched]
    exact execute_of_higher (s := { s with frame.ip := r.2 }) higher r.1

theorem Path.of_higher (higher : limits.maxCallDepth ≤ limits'.maxCallDepth)
    (path : Path c limits s t) : Path c limits' s t := by
  induction path with
  | refl => exact .refl
  | @cons s t u step _ ih =>
    rcases step_of_higher higher c s with stopped | same
    · rw [step] at stopped
      cases stopped
    · exact .cons (same.trans step) ih

theorem start_of_higher (higher : limits.maxCallDepth ≤ limits'.maxCallDepth) (c : Class)
    (index : Nat) (args : List Value) :
    start c limits index args = .error (.callDepth 1) ∨
      start c limits' index args = start c limits index args := by
  simp only [start]
  cases c.methods[index]? with
  | none => exact .inr rfl
  | some m =>
    by_cases zero : limits.maxCallDepth = 0
    · exact .inl (if_pos zero)
    · have more : limits'.maxCallDepth ≠ 0 := by omega
      simp only [zero, more, ↓reduceIte, or_true]

theorem start_shallow {index : Nat} {args : List Value}
    (started : start c limits index args = .ok s) : s.Shallow limits := by
  obtain ⟨m, frame, found, -, rfl⟩ := start_ok started
  simp only [start, found] at started
  split at started
  · cases started
  · simp only [Shallow, List.length_nil]; omega

theorem Shallow.executes {i : Instruction} (shallow : s.Shallow limits)
    (executes : Executes c limits i s (.ok (.running t))) : t.Shallow limits := by
  unfold Shallow at shallow ⊢
  cases executes with
  | passes _ _ within | jumps _ _ _ within => rwa [within.callers]
  | enters _ _ room _ _ _ _ _ _ callers => rw [callers]; exact room
  | leaves _ _ callers _ rest => rw [callers, List.length_cons] at shallow; rw [rest]; omega

theorem Shallow.step (shallow : s.Shallow limits) (grounded : s.Grounded)
    (step : s.step c limits = .ok (.running t)) : t.Shallow limits := by
  obtain ⟨i, next, _, executes⟩ := executes_of_step grounded.inside step
  exact Shallow.executes (s := { s with frame.ip := next }) shallow executes

/-- Only a call beyond the limit complains about the depth, and it names the first depth that is
too much. -/
theorem Shallow.callDepth (shallow : s.Shallow limits) (grounded : s.Grounded) {depth : Nat}
    (stopped : s.step c limits = .error (.callDepth depth)) : depth = limits.maxCallDepth + 1 := by
  unfold Shallow at shallow
  rcases step_executes grounded.inside c limits with
    ⟨fault, fetched, failed⟩ | ⟨i, next, _, executes⟩
  · rw [stopped] at failed
    cases failed
    rcases Frame.fetch_error fetched with ⟨_, other⟩ | ⟨_, other⟩
    · cases other
    · cases other
  · rw [stopped] at executes
    cases executes with
    | fails fails =>
      cases fails with
      | data data => exact data.elim
      | deep _ deep => simp only at deep ⊢; omega

end State

namespace Class

variable {c : Class} {limits limits' : Limits} {index : Nat} {args : List Value}

theorem Reaches.shallow {s : State} (reaches : c.Reaches limits index args s) :
    s.Shallow limits := by
  obtain ⟨first, started, path⟩ := reaches
  have both : s.Grounded ∧ s.Shallow limits := path.keeps (P := fun s => s.Grounded ∧ _)
    (fun ⟨grounded, shallow⟩ step => ⟨grounded.step step, shallow.step grounded step⟩)
    ⟨State.start_grounded started, State.start_shallow started⟩
  exact both.2

/-- An end that is not due to the limit is the end under any higher limit. -/
theorem Ends.of_higher (higher : limits.maxCallDepth ≤ limits'.maxCallDepth)
    {answer : Except Fault Value} (ends : c.Ends limits index args answer)
    (unlimited : ∀ depth, answer ≠ .error (.callDepth depth)) :
    c.Ends limits' index args answer := by
  rcases ends.last with ⟨fault, failed, rfl⟩ | ⟨first, t, started, path, last⟩
  · rcases State.start_of_higher higher c index args with stopped | same
    · rw [failed] at stopped
      cases stopped
      exact absurd rfl (unlimited 1)
    · rw [failed] at same
      exact ⟨0, by simp only [invoke, same]⟩
  · have reaches : c.Reaches limits' index args t := by
      refine ⟨first, ?_, path.of_higher higher⟩
      rcases State.start_of_higher higher c index args with stopped | same
      · rw [started] at stopped
        cases stopped
      · exact same.trans started
    have step : t.step c limits' = answer.map .finished := by
      rcases State.step_of_higher higher c t with stopped | same
      · rw [last] at stopped
        cases answer with
        | ok v => cases stopped
        | error fault => cases stopped; exact absurd rfl (unlimited _)
      · exact same.trans last
    have run : t.run c limits' 1 = some answer := by
      cases answer with
      | ok v => simp only [State.run, step, Except.map]
      | error fault => simp only [State.run, step, Except.map]
    exact reaches.ends run

/-- Where the limit ends a run, the complaint is about one frame more than it allows. -/
theorem Ends.callDepth {depth : Nat}
    (ends : c.Ends limits index args (.error (.callDepth depth))) :
    depth = limits.maxCallDepth + 1 := by
  rcases ends.last with ⟨fault, failed, same⟩ | ⟨first, t, started, path, last⟩
  · cases same
    unfold State.start at failed
    split at failed
    · cases failed
    split at failed
    · cases failed; omega
    rcases bind_error failed with crowded | ⟨_, _, impossible⟩
    · obtain ⟨_, other⟩ := Frame.enter_error crowded
      cases other
    · cases impossible
  · have reaches : c.Reaches limits index args t := ⟨first, started, path⟩
    exact reaches.shallow.callDepth reaches.grounded last

end Class

/-- The limit on calls as a law of two runs, of any code. What ends within the limit, in a value or
in a fault that is not about the depth of calls, ends alike within every higher limit; what is
stopped by the limit complains about exactly one frame more; and there are never more live frames
than the limit allows. -/
theorem limit_only_stops {c : Class} {limits : Limits} {index : Nat} {args : List Value} :
    (∀ limits' answer, limits.maxCallDepth ≤ limits'.maxCallDepth →
      c.Ends limits index args answer → (∀ depth, answer ≠ .error (.callDepth depth)) →
      c.Ends limits' index args answer) ∧
    (∀ depth, c.Ends limits index args (.error (.callDepth depth)) →
      depth = limits.maxCallDepth + 1) ∧
    (∀ s, c.Reaches limits index args s → (s.frame :: s.callers).length ≤ limits.maxCallDepth) :=
  ⟨fun _ _ higher ends unlimited => ends.of_higher higher unlimited,
    fun _ ends => ends.callDepth, fun _ reaches => reaches.shallow⟩

def descent : Class where
  name := "Descent"
  methods :=
    [{ name := "top", params := [], returns := "int", locals := 0,
       code := [0xA6, 1, 0, 0, 0, 0, 0, 0xA2] },
     { name := "middle", params := [], returns := "int", locals := 0,
       code := [0xA6, 2, 0, 0, 0, 0, 0, 0xA2] },
     { name := "bottom", params := [], returns := "int", locals := 0,
       code := [0x07, 7, 0, 0, 0, 0xA2] }]

/-- Three frames are enough for it, and two are not. -/
theorem descent_limited :
    descent.Ends ⟨3⟩ 0 [] (.ok (.int 7)) ∧ descent.Ends {} 0 [] (.ok (.int 7)) ∧
      ∃ depth, descent.Ends ⟨2⟩ 0 [] (.error (.callDepth depth)) ∧ depth = 2 + 1 := by
  have enough : descent.Ends ⟨3⟩ 0 [] (.ok (.int 7)) := ⟨6, rfl⟩
  have stopped : descent.Ends ⟨2⟩ 0 [] (.error (.callDepth 3)) := ⟨2, rfl⟩
  have higher : (⟨3⟩ : Limits).maxCallDepth ≤ ({} : Limits).maxCallDepth := by decide
  exact ⟨enough, limit_only_stops.1 {} _ higher enough nofun,
    3, stopped, limit_only_stops.2.1 3 stopped⟩

end Rowwise
