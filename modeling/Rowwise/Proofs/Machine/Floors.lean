import Rowwise.Proofs.Machine.Step

/-! The live frames and their floors, in runs of any code. The floors ascend from zero at the
outermost frame to the top of the stack, so no frame reaches into what belongs to its callers. -/
namespace Rowwise

/-- The floors that a frame and its callers go back to descend to zero. -/
def Descending : (floor savedFloor : Nat) → List Frame → Prop
  | floor, _, [] => floor = 0
  | floor, savedFloor, caller :: callers =>
      savedFloor ≤ floor ∧ Descending savedFloor caller.savedFloor callers

namespace State

variable {c : Class} {limits : Limits} {s t : State}

structure Grounded (s : State) : Prop where
  inside : s.stack.floor ≤ s.stack.values.size
  floors : Descending s.stack.floor s.frame.savedFloor s.callers

theorem Grounded.executes {i : Instruction} (grounded : s.Grounded)
    (executes : Executes c limits i s (.ok (.running t))) : t.Grounded := by
  obtain ⟨inside, floors⟩ := grounded
  cases executes with
  | passes _ _ within | jumps _ _ _ within =>
    obtain ⟨_, savedFloor, _, callers, floor, enough, size⟩ := within
    exact ⟨by omega, floor ▸ savedFloor ▸ callers ▸ floors⟩
  | enters _ _ _ _ _ _ _ _ savedFloor callers floor size =>
    refine ⟨Nat.le_of_eq floor, ?_⟩
    rw [callers, savedFloor]
    exact ⟨by omega, floors⟩
  | leaves _ _ callers frame rest floor size =>
    rw [callers] at floors
    refine ⟨by have := floors.1; omega, ?_⟩
    rw [frame, rest, floor]
    exact floors.2

theorem Grounded.step (grounded : s.Grounded) (step : s.step c limits = .ok (.running t)) :
    t.Grounded := by
  obtain ⟨i, next, _, executes⟩ := executes_of_step grounded.inside step
  exact Grounded.executes (s := { s with frame.ip := next }) ⟨grounded.1, grounded.2⟩ executes

theorem start_grounded {index : Nat} {args : List Value}
    (started : start c limits index args = .ok s) : s.Grounded := by
  obtain ⟨_, _, _, _, rfl⟩ := start_ok started
  exact ⟨Nat.le_refl _, rfl⟩

def frames (s : State) : List Frame := s.frame :: s.callers

/-- A frame that has gone on: only its position and the contents of its locals may differ. -/
structure GoneOn (f g : Frame) : Prop where
  method : g.method = f.method
  savedFloor : g.savedFloor = f.savedFloor
  locals : g.locals.size = f.locals.size

theorem GoneOn.trans {f g h : Frame} (first : GoneOn f g) (second : GoneOn g h) : GoneOn f h where
  method := second.method.trans first.method
  savedFloor := second.savedFloor.trans first.savedFloor
  locals := second.locals.trans first.locals

/-- The running frame is as it was created, for some number of arguments. -/
structure Entered (s : State) : Prop where
  ip : s.frame.ip = 0
  locals : ∃ args, s.frame.locals.size = max s.frame.method.locals args

/-- All that a step can do to the live frames: the running one goes on, and it may be left for a new
one on top of it; or it is taken away. -/
theorem frames_step (grounded : s.Grounded) (step : s.step c limits = .ok (.running t)) :
    (∃ g, GoneOn s.frame g ∧ t.frames = g :: s.callers ∧ t.stack.floor = s.stack.floor) ∨
    (∃ g, GoneOn s.frame g ∧ t.Entered ∧ t.callers = g :: s.callers ∧
      t.frame.savedFloor = s.stack.floor ∧ s.stack.floor ≤ t.stack.floor) ∨
    (t.frames = s.callers ∧ t.stack.floor = s.frame.savedFloor) := by
  obtain ⟨i, next, -, executes⟩ := executes_of_step grounded.inside step
  cases executes with
  | passes _ _ within | jumps _ _ _ within =>
    obtain ⟨method, savedFloor, locals, callers, floor, -, -⟩ := within
    exact .inl ⟨t.frame, ⟨method, savedFloor, locals⟩, by rw [frames, callers], floor⟩
  | enters _ _ _ enough _ method ip locals savedFloor callers floor size =>
    simp only at enough size savedFloor
    refine .inr (.inl ⟨{ s.frame with ip := next }, ⟨rfl, rfl, rfl⟩, ⟨ip, ?_⟩, callers,
      savedFloor, by omega⟩)
    exact ⟨_, method ▸ locals⟩
  | leaves _ _ callers frame rest floor =>
    simp only at callers floor
    exact .inr (.inr ⟨by rw [frames, frame, rest, callers], floor⟩)

end State

theorem Class.Reaches.grounded {c : Class} {limits : Limits} {index : Nat} {args : List Value}
    {s : State} (reaches : c.Reaches limits index args s) : s.Grounded := by
  obtain ⟨first, started, path⟩ := reaches
  exact path.keeps State.Grounded.step (State.start_grounded started)

end Rowwise
