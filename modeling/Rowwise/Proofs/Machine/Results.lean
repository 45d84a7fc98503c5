import Rowwise.Proofs.Machine.Floors

/-! The values that methods hand over, in runs of any code. Whatever a method returns has gone
through its declared type, whether it goes to a caller or out of the machine; and the frame that
returns runs the method that was called, above the floor that the call gave it, since live frames
never change their methods and floors. -/
namespace Rowwise

namespace Primitive

variable {p : Primitive} {v w : Value}

theorem ofName?_name (p : Primitive) : ofName? p.name = some p := by
  cases p <;> decide

/-- What is brought to a declared primitive is of its kind, whatever it was before. -/
theorem kind_of_coerce? (coerced : p.coerce? v = some w) : w.kind = p.kind := by
  cases p with
  | void => cases coerced; rfl
  | _ =>
    obtain ⟨_, _, rfl⟩ := Option.map_eq_some_iff.mp coerced
    rfl

theorem kind_of_coerceReturn (ok : coerceReturn p.name v = .ok w) : w.kind = p.kind := by
  simp only [coerceReturn, ofName?_name] at ok
  split at ok
  · rename_i coerced
    cases ok
    exact kind_of_coerce? coerced
  · cases ok

end Primitive

/-- The step hands the value over, to a caller or out of the machine. -/
def Progress.HandsOver (v : Value) : Progress → Prop
  | .running t => t.stack.values.back? = some v
  | .finished w => w = v

namespace State

variable {c : Class} {limits : Limits} {s t u : State} {progress : Progress} {m : Method}
  {floor : Nat} {outer : List (Method × Nat)}

def Returns (s : State) : Progress → Prop
  | .running t => t.callers.length < s.callers.length
  | .finished _ => True

/-- Only a return ends a frame, and of the values above its floor it leaves one. -/
theorem Executes.returns {i : Instruction} (executes : Executes c limits i s (.ok progress))
    (returns : s.Returns progress) :
    i.opcode.isReturn = true ∧
      ∀ t, progress = .running t → t.stack.values.size = s.stack.floor + 1 := by
  cases executes with
  | passes _ _ within | jumps _ _ _ within =>
    exact absurd (congrArg List.length within.callers) (Nat.ne_of_lt returns)
  | enters _ _ _ _ _ _ _ _ _ callers =>
    have more := congrArg List.length callers
    simp only [List.length_cons] at more
    simp only [Returns] at returns
    omega
  | leaves isReturn _ _ _ _ _ size =>
    exact ⟨isReturn, fun t same => by cases same; exact size⟩
  | finishes isReturn => exact ⟨isReturn, nofun⟩

theorem handsOver_of_leave {v : Value} (ok : s.leave v = .ok progress) :
    ∃ w, coerceReturn s.frame.method.returns v = .ok w ∧ progress.HandsOver w := by
  obtain ⟨w, coerced, ok⟩ := bind_ok ok
  refine ⟨w, coerced, ?_⟩
  split at ok
  · cases ok; rfl
  · cases ok; exact Array.back?_push

theorem leave_of_execute {i : Instruction} (returns : i.opcode.isReturn = true)
    (ok : s.execute c limits i = .ok progress) :
    ∃ v stack, State.leave v { s with stack } = .ok progress := by
  cases i with
  | returnValue =>
    obtain ⟨r, _, ok⟩ := bind_ok ok
    exact ⟨r.1, r.2, ok⟩
  | returnVoid => exact ⟨.null, s.stack, ok⟩
  | _ => cases returns

/-- The value that a frame leaves behind has gone through the return type of its method. -/
theorem handsOver_of_step (grounded : s.Grounded) (ok : s.step c limits = .ok progress)
    (returns : s.Returns progress) :
    ∃ v w, coerceReturn s.frame.method.returns v = .ok w ∧ progress.HandsOver w := by
  obtain ⟨i, next, fetched, executes⟩ := executes_of_step grounded.inside ok
  obtain ⟨isReturn, -⟩ := executes.returns returns
  rw [step_of_fetch fetched] at ok
  obtain ⟨v, stack, left⟩ := leave_of_execute isReturn ok
  obtain ⟨w, coerced, handed⟩ := handsOver_of_leave left
  exact ⟨v, w, coerced, handed⟩

theorem callers_of_finished {v : Value} (grounded : s.Grounded)
    (finished : s.step c limits = .ok (.finished v)) : s.callers = [] := by
  obtain ⟨i, next, _, executes⟩ := executes_of_step grounded.inside finished
  cases executes with
  | finishes _ _ callers => exact callers

/-- The methods of live frames with their floors, where the first floor is given and every frame
has saved that of the next one. -/
def liveFrom (floor : Nat) : List Frame → List (Method × Nat)
  | [] => []
  | f :: callers => (f.method, floor) :: liveFrom f.savedFloor callers

def live (s : State) : List (Method × Nat) := liveFrom s.stack.floor (s.frame :: s.callers)

theorem length_liveFrom (frames : List Frame) : (liveFrom floor frames).length = frames.length := by
  induction frames generalizing floor with
  | nil => rfl
  | cons f callers ih => rw [liveFrom, List.length_cons, ih, List.length_cons]

theorem length_live (s : State) : s.live.length = s.callers.length + 1 := length_liveFrom _

/-- A step adds a frame in front, takes the first one away, or leaves methods and floors alone. -/
theorem live_step (grounded : s.Grounded) (step : s.step c limits = .ok (.running t)) :
    t.live = s.live ∨ (∃ first, t.live = first :: s.live) ∨ ∃ first, s.live = first :: t.live := by
  rcases frames_step grounded step with ⟨g, on, frames, floor⟩ |
      ⟨g, on, -, callers, savedFloor, -⟩ | ⟨frames, floor⟩
  · refine .inl ?_
    change liveFrom t.stack.floor t.frames = _
    rw [frames, floor, live, liveFrom, liveFrom, on.method, on.savedFloor]
  · refine .inr (.inl ⟨(t.frame.method, t.stack.floor), ?_⟩)
    simp only [live, liveFrom, callers, savedFloor, on.method, on.savedFloor]
  · refine .inr (.inr ⟨(s.frame.method, s.stack.floor), ?_⟩)
    change liveFrom s.stack.floor (s.frame :: s.callers) = _ :: liveFrom t.stack.floor t.frames
    rw [liveFrom, frames, floor]

/-- As long as more frames are live than the outer ones, the innermost of the others stays. -/
theorem suffix_step (grounded : s.Grounded) (step : s.step c limits = .ok (.running t))
    (below : (m, floor) :: outer <:+ s.live) (deep : outer.length < t.live.length) :
    (m, floor) :: outer <:+ t.live := by
  rcases live_step grounded step with same | ⟨first, same⟩ | ⟨first, same⟩
  · rwa [same]
  · rw [same]
    exact below.trans (List.suffix_cons first _)
  · rw [same] at below
    rcases List.suffix_cons_iff.mp below with whole | below
    · cases whole
      exact absurd deep (Nat.lt_irrefl _)
    · exact below

/-- A path on which more than so many callers wait all the way. -/
inductive Above (c : Class) (limits : Limits) (callers : Nat) : State → State → Prop where
  | refl {s : State} : callers < s.callers.length → Above c limits callers s s
  | cons {s t u : State} : callers < s.callers.length → s.step c limits = .ok (.running t) →
      Above c limits callers t u → Above c limits callers s u

theorem Above.first {callers : Nat} (path : Above c limits callers s t) :
    callers < s.callers.length := by
  cases path with
  | refl deep => exact deep
  | cons deep => exact deep

theorem Above.last {callers : Nat} (path : Above c limits callers s t) :
    callers < t.callers.length := by
  induction path with
  | refl deep => exact deep
  | cons _ _ _ ih => exact ih

theorem Above.path {callers : Nat} (path : Above c limits callers s t) : Path c limits s t := by
  induction path with
  | refl => exact .refl
  | cons _ step _ ih => exact .cons step ih

theorem Above.suffix (path : Above c limits s.callers.length t u) (grounded : t.Grounded)
    (below : (m, floor) :: s.live <:+ t.live) : (m, floor) :: s.live <:+ u.live := by
  induction path with
  | refl => exact below
  | cons _ step rest ih =>
    refine ih (grounded.step step) (suffix_step grounded step below ?_)
    rw [length_live, length_live]
    exact Nat.succ_lt_succ rest.first

/-- The call that the machine makes in `s` comes back in `u`: it opens a frame, which stays live
until the step before `u` takes it away. -/
def ComesBack (c : Class) (limits : Limits) (s u : State) : Prop :=
  ∃ first last, s.step c limits = .ok (.running first) ∧
    Above c limits s.callers.length first last ∧ last.step c limits = .ok (.running u) ∧
    u.callers.length = s.callers.length

/-- A call opens a frame for the method that it names, with its floor where the arguments were. -/
theorem live_of_call {index : UInt32} {n : UInt16} {next : Nat} (grounded : s.Grounded)
    (fetched : s.frame.fetch = .ok (.call index n, next)) (found : c.methods[index.toNat]? = some m)
    (step : s.step c limits = .ok (.running t)) (deeper : s.callers.length < t.callers.length) :
    t.live = (m, t.stack.floor) :: s.live ∧ t.stack.floor + n.toNat = s.stack.values.size := by
  obtain ⟨i, next', fetched', executes⟩ := executes_of_step grounded.inside step
  rw [fetched] at fetched'
  cases fetched'
  cases executes with
  | passes _ _ within | jumps _ _ _ within =>
    exact absurd (congrArg List.length within.callers).symm (Nat.ne_of_lt deeper)
  | enters call found' _ _ _ method _ _ savedFloor callers floor size =>
    cases call
    rw [found] at found'
    cases found'
    refine ⟨?_, floor ▸ size⟩
    simp only [live, liveFrom, callers, method, savedFloor]
  | leaves isReturn => cases isReturn

/-- In the place of its arguments a call leaves one value to its caller, which has gone through the
return type of the called method. -/
theorem ComesBack.handsOver {index : UInt32} {n : UInt16} {next : Nat}
    (back : s.ComesBack c limits u) (grounded : s.Grounded)
    (fetched : s.frame.fetch = .ok (.call index n, next))
    (found : c.methods[index.toNat]? = some m) :
    u.stack.values.size + n.toNat = s.stack.values.size + 1 ∧
      ∃ v w, coerceReturn m.returns v = .ok w ∧ u.stack.values.back? = some w := by
  obtain ⟨first, last, step, path, returns, level⟩ := back
  obtain ⟨opened, room⟩ := live_of_call grounded fetched found step path.first
  have grounded := grounded.step step
  have open_still : (m, first.stack.floor) :: s.live <:+ last.live :=
    path.suffix grounded (opened ▸ List.suffix_rfl)
  have grounded := path.path.keeps Grounded.step grounded
  have fewer : u.callers.length < last.callers.length := level ▸ path.last
  have running : (m, first.stack.floor) :: s.live = last.live := by
    refine open_still.eq_of_length ?_
    rcases live_step grounded returns with same | ⟨_, same⟩ | ⟨_, same⟩ <;>
      have sizes := congrArg List.length same <;>
      simp only [List.length_cons, length_live] at sizes ⊢ <;> omega
  obtain ⟨method, floor⟩ := Prod.mk.inj (List.cons.inj running).1
  obtain ⟨v, w, coerced, handed⟩ := handsOver_of_step grounded returns fewer
  obtain ⟨i, next, _, executes⟩ := executes_of_step grounded.inside returns
  have size := (executes.returns fewer).2 u rfl
  simp only at size
  exact ⟨by omega, v, w, method ▸ coerced, handed⟩

end State

/-- What an invocation ends with has gone through the return type of the invoked method. -/
theorem Class.Ends.coerced {c : Class} {limits : Limits} {index : Nat} {args : List Value}
    {m : Method} {w : Value} (ends : c.Ends limits index args (.ok w))
    (found : c.methods[index]? = some m) : ∃ v, coerceReturn m.returns v = .ok w := by
  rcases ends.last with ⟨_, _, impossible⟩ | ⟨first, last, started, path, finished⟩
  · cases impossible
  have grounded := State.start_grounded started
  have opened : [(m, 0)] <:+ first.live := by
    obtain ⟨m', frame, found', entered, rfl⟩ := State.start_ok started
    obtain ⟨-, method, -⟩ := Frame.enter_ok entered
    rw [found] at found'
    cases found'
    simp only [State.live, State.liveFrom, method, List.suffix_rfl]
  obtain ⟨grounded, below⟩ : last.Grounded ∧ [(m, 0)] <:+ last.live :=
    path.keeps (P := fun s => s.Grounded ∧ [(m, 0)] <:+ s.live)
      (fun ⟨grounded, below⟩ step => ⟨grounded.step step,
        State.suffix_step grounded step below (by simp [State.length_live])⟩)
      ⟨grounded, opened⟩
  have alone := State.callers_of_finished grounded finished
  have running : [(m, 0)] = last.live := below.eq_of_length (by rw [State.length_live, alone]; rfl)
  have method : m = last.frame.method := (Prod.mk.inj (List.cons.inj running).1).1
  obtain ⟨v, _, coerced, rfl⟩ := State.handsOver_of_step grounded finished trivial
  exact ⟨v, method ▸ coerced⟩

end Rowwise
