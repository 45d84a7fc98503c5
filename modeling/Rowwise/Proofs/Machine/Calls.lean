import Rowwise.Proofs.Machine.Floors

/-! A call runs as the called method runs on its own: on top of the frames and the values of its
caller, with what is left of the limit on calls. This holds of any code, verified or not. -/
namespace Rowwise

/-- The limits that remain below some live frames. -/
def Limits.less (limits : Limits) (frames : Nat) : Limits := ⟨limits.maxCallDepth - frames⟩

/-- The same fault, told from further up: only the depth of calls depends on where one counts. -/
def Fault.deepen (frames : Nat) : Fault → Fault
  | .callDepth depth => .callDepth (depth + frames)
  | fault => fault

/-- What a call leaves waiting: the caller, which points behind the call, the frames around it, and
the values below the arguments. -/
structure CallSite where
  frame : Frame
  callers : List Frame
  below : Array Value
  floor : Nat

namespace CallSite

def frames (site : CallSite) : Nat := site.callers.length + 1

def resume (site : CallSite) (v : Value) : State :=
  ⟨site.frame, site.callers, ⟨site.below.push v, site.floor⟩⟩

def saved (site : CallSite) (savedFloor : Nat) : List Frame → Nat
  | [] => site.floor
  | _ :: _ => site.below.size + savedFloor

def place (site : CallSite) (f : Frame) (callers : List Frame) : Frame :=
  { f with savedFloor := site.saved f.savedFloor callers }

def suspend (site : CallSite) : List Frame → List Frame
  | [] => site.frame :: site.callers
  | f :: callers => site.place f callers :: site.suspend callers

/-- A state of the called method, carried on top of the site. -/
def carry (site : CallSite) (s : State) : State :=
  ⟨site.place s.frame s.callers, site.suspend s.callers, s.stack.onto site.below⟩

/-- What a step of the called method is on top of the site: its result goes to the caller. -/
def relay (site : CallSite) : Except Fault Progress → Except Fault Progress
  | .error fault => .error (fault.deepen site.frames)
  | .ok (.running s) => .ok (.running (site.carry s))
  | .ok (.finished v) => .ok (.running (site.resume v))

end CallSite

namespace Stack

variable {n : Nat} {s : Stack} {below : Array Value} {args : List Value}

theorem popMany_append (values : s.values = below ++ args.toArray) (count : args.length = n)
    (above : s.floor ≤ below.size) : popMany n s = .ok (args, ⟨below, s.floor⟩) := by
  have size : s.values.size = below.size + n := by simp [values, count]
  have enough : ¬ s.values.size < s.floor + n := by omega
  have rest : s.values.size - n = below.size := by omega
  simp only [popMany, enough, rest, ↓reduceIte]
  simp [values]

end Stack

theorem Fault.OfData.deepen {fault : Fault} (data : fault.OfData) (frames : Nat) :
    fault.deepen frames = fault := by
  cases fault <;> first | rfl | exact absurd data id

theorem Stack.Effect.deepen {m : StackM α} {pops pushes : Nat} (effect : Effect m pops pushes)
    {s : Stack} {fault : Fault} (inside : s.floor ≤ s.values.size) (error : m s = .error fault)
    (frames : Nat) : fault.deepen frames = fault := by
  rcases effect.faults inside error with data | ⟨rfl, _⟩
  · exact data.deepen frames
  · rfl

namespace CallSite

variable {site : CallSite} {c : Class} {limits : Limits} {s t : State}

theorem length_suspend (callers : List Frame) :
    (site.suspend callers).length = callers.length + site.frames := by
  induction callers with
  | nil => simp [suspend, frames]
  | cons f callers ih => simp only [suspend, List.length_cons, ih]; omega

/-- A computation that begins on the operand stack is relayed if what follows is. -/
theorem relay_bind {m : StackM α} {pops pushes : Nat} (effect : Stack.Effect m pops pushes)
    {stack : Stack} (inside : stack.floor ≤ stack.values.size)
    {f g : α × Stack → Except Fault Progress}
    (next : ∀ a rest, m stack = .ok (a, rest) →
      f (a, rest.onto site.below) = site.relay (g (a, rest))) :
    (m (stack.onto site.below)).bind f = site.relay ((m stack).bind g) := by
  rw [effect.frame]
  cases ran : m stack with
  | error fault =>
    have same := effect.deepen inside ran site.frames
    simp only [Except.map, Except.bind, relay, same]
  | ok r => exact next r.1 r.2 ran

theorem relay_lift {x : Except Fault α} {f g : α → Except Fault Progress}
    (deepen : ∀ fault, x = .error fault → fault.deepen site.frames = fault)
    (next : ∀ a, x = .ok a → f a = site.relay (g a)) :
    x.bind f = site.relay (x.bind g) := by
  cases found : x with
  | error fault => simp only [Except.bind, relay, deepen fault found]
  | ok a => exact next a found

theorem push_carry (v : Value) : (site.carry s).push v = site.relay (s.push v) := by
  simp [State.push, Stack.push, carry, Stack.onto, relay, StateT.run, bind, Except.bind, pure,
    Except.pure]

theorem load_carry (slot : Nat) :
    (do (site.carry s).push (← (site.carry s).frame.load slot)) =
      site.relay (do s.push (← s.frame.load slot)) := by
  refine relay_lift (x := s.frame.load slot) ?_ fun v _ => push_carry v
  intro fault error
  obtain ⟨_, rfl⟩ := Frame.load_error error
  rfl

theorem store_carry (inside : s.stack.floor ≤ s.stack.values.size) (slot : Nat) :
    (site.carry s).store slot = site.relay (s.store slot) := by
  refine relay_bind Stack.Effect.pop inside fun v rest _ => ?_
  simp only [carry, place, Frame.store]
  by_cases exists_slot : slot < s.frame.locals.size
  · simp only [exists_slot, ↓reduceIte]; rfl
  · simp only [exists_slot, ↓reduceIte]; rfl

theorem jump_carry (inside : s.stack.floor ≤ s.stack.values.size) (condition : Condition)
    (distance : Int32) :
    (site.carry s).execute c limits (.jump condition distance) =
      site.relay (s.execute c (limits.less site.frames) (.jump condition distance)) := by
  refine relay_bind (Stack.Effect.test condition) inside fun taken rest _ => ?_
  cases taken with
  | false => rfl
  | true =>
    simp only [carry, place, Frame.jump, ↓reduceIte]
    by_cases astray : s.frame.ip + distance.toInt < 0 ∨
        (s.frame.method.code.length : Int) ≤ s.frame.ip + distance.toInt
    · simp only [astray, ↓reduceIte]; rfl
    · simp only [astray, ↓reduceIte]; rfl

theorem call_carry (inside : s.stack.floor ≤ s.stack.values.size) (index : UInt32) (args : Nat) :
    (site.carry s).call c limits index args =
      site.relay (s.call c (limits.less site.frames) index args) := by
  simp only [State.call]
  cases found : c.methods[index.toNat]? with
  | none => rfl
  | some m =>
    have length : (site.carry s).callers.length = s.callers.length + site.frames :=
      length_suspend s.callers
    have remain : (limits.less site.frames).maxCallDepth = limits.maxCallDepth - site.frames := rfl
    -- the frames of the site count against the limit as well as those of the called method
    by_cases deep : limits.maxCallDepth - site.frames < s.callers.length + 2
    · have deeper : limits.maxCallDepth < s.callers.length + site.frames + 2 := by omega
      simp only [length, remain, deep, deeper, ↓reduceIte, relay, Fault.deepen]
      rw [Nat.add_right_comm]
    · have shallow : ¬ limits.maxCallDepth < s.callers.length + site.frames + 2 := by omega
      simp only [length, remain, deep, shallow, ↓reduceIte]
      refine relay_bind (Stack.Effect.popMany args) inside fun values rest _ => ?_
      rw [Frame.enter_rebase m values rest.floor]
      cases entered : Frame.enter m values rest.floor with
      | error fault =>
        obtain ⟨_, rfl⟩ := Frame.enter_error entered
        rfl
      | ok frame =>
        obtain ⟨_, _, _, _, savedFloor⟩ := Frame.enter_ok entered
        have entering : site.carry ⟨frame, s.frame :: s.callers, ⟨rest.values, rest.values.size⟩⟩ =
            ⟨{ frame with savedFloor := (rest.onto site.below).floor },
              (site.carry s).frame :: (site.carry s).callers,
              ⟨site.below ++ rest.values, (site.below ++ rest.values).size⟩⟩ := by
          simp only [carry, suspend, place, saved, savedFloor, Stack.onto, Array.size_append]
        exact congrArg (Except.ok ∘ Progress.running) entering.symm

/-- The result of the called method itself goes to the caller of the site; those of the methods
that it calls stay on top. -/
theorem leave_carry (grounded : s.Grounded) (v : Value) :
    (site.carry s).leave v = site.relay (s.leave v) := by
  refine relay_lift (x := coerceReturn s.frame.method.returns v) ?_ fun result _ => ?_
  · exact fun fault error => (coerceReturn_error error).deepen _
  cases callers : s.callers with
  | nil =>
    have floors := grounded.floors
    rw [callers] at floors
    have floor : s.stack.floor = 0 := floors
    have cleared : (s.stack.onto site.below).clear = site.below := by
      simp [Stack.onto, Stack.clear, floor]
    simp only [carry, suspend, callers, cleared]
    rfl
  | cons caller callers' =>
    have cleared : (s.stack.onto site.below).clear = site.below ++ s.stack.clear :=
      Stack.shrink_append site.below s.stack.values s.stack.floor
    simp only [carry, suspend, callers, cleared]
    exact push_carry (s := ⟨caller, callers', ⟨s.stack.clear, s.frame.savedFloor⟩⟩) result

theorem execute_carry (grounded : s.Grounded) (i : Instruction) :
    (site.carry s).execute c limits i =
      site.relay (s.execute c (limits.less site.frames) i) := by
  have inside := grounded.inside
  cases i with
  | stack op => exact relay_bind (Stack.Effect.perform op) inside fun _ _ _ => rfl
  | constInt | constDouble => exact push_carry _
  | constText index =>
    simp only [State.execute]
    cases c.constants.strings[index.toNat]? with
    | none => rfl
    | some text => exact push_carry _
  | constLong index =>
    simp only [State.execute]
    cases c.constants.integers[index.toNat]? with
    | none => rfl
    | some n => exact push_carry _
  | load | loadFixed => exact load_carry _
  | store | storeFixed => exact store_carry inside _
  | jump condition distance => exact jump_carry inside condition distance
  | call index args => exact call_carry inside index args.toNat
  | returnValue =>
    refine relay_bind Stack.Effect.pop inside fun v rest popped => ?_
    have floor := Stack.Effect.pop.floor popped
    obtain ⟨_, size⟩ := Stack.Effect.pop.moves inside popped
    have still : State.Grounded { s with stack := rest } :=
      ⟨by dsimp only; omega, floor ▸ grounded.floors⟩
    exact leave_carry still v
  | returnVoid => exact leave_carry grounded .null
  | throw => exact relay_bind Stack.Effect.pop inside fun _ _ _ => rfl
  | trap => rfl

/-- The called method makes the same steps on top of the site as on its own. -/
theorem step_carry (grounded : s.Grounded) :
    (site.carry s).step c limits = site.relay (s.step c (limits.less site.frames)) := by
  refine relay_lift (x := s.frame.fetch) ?_ fun r _ => ?_
  · intro fault error
    rcases Frame.fetch_error error with ⟨_, rfl⟩ | ⟨_, rfl⟩
    · rfl
    · rfl
  · exact execute_carry (s := { s with frame.ip := r.2 }) ⟨grounded.inside, grounded.floors⟩ r.1

theorem path_carry (grounded : s.Grounded) (path : State.Path c (limits.less site.frames) s t) :
    State.Path c limits (site.carry s) (site.carry t) := by
  induction path with
  | refl => exact .refl
  | cons step _ ih =>
    have above : (site.carry _).step c limits = _ := step_carry grounded
    rw [step] at above
    exact .cons above (ih (grounded.step step))

theorem run_carry (grounded : s.Grounded) {fuel : Nat}
    (endless : s.run c (limits.less site.frames) fuel = none) :
    (site.carry s).run c limits fuel = none := by
  induction fuel generalizing s with
  | zero => rfl
  | succ fuel ih =>
    simp only [State.run] at endless ⊢
    rw [step_carry grounded]
    split at endless
    · cases endless
    · cases endless
    · rename_i next step
      rw [step]
      exact ih (grounded.step step) endless

end CallSite

namespace State

variable {c : Class} {limits : Limits} {s : State} {index : UInt32} {n : UInt16} {next : Nat}
  {below : Array Value} {args : List Value}

def site (s : State) (next : Nat) (below : Array Value) : CallSite :=
  ⟨{ s.frame with ip := next }, s.callers, below, s.stack.floor⟩

/-- A call puts the first state of the called method on top of its site, or fails as that method
fails to start. -/
theorem step_call (c : Class) (limits : Limits)
    (fetched : s.frame.fetch = .ok (.call index n, next))
    (values : s.stack.values = below ++ args.toArray) (count : args.length = n.toNat)
    (above : s.stack.floor ≤ below.size) :
    s.step c limits = (s.site next below).relay
      ((start c (limits.less (s.callers.length + 1)) index.toNat args).map .running) := by
  have popped : Stack.popMany n.toNat s.stack = .ok (args, ⟨below, s.stack.floor⟩) :=
    Stack.popMany_append values count above
  rw [step_of_fetch fetched]
  simp only [execute, call, start]
  cases found : c.methods[index.toNat]? with
  | none => simp [Except.map, CallSite.relay, Fault.deepen]
  | some m =>
    have remain : (limits.less (s.callers.length + 1)).maxCallDepth =
        limits.maxCallDepth - (s.callers.length + 1) := rfl
    by_cases deep : limits.maxCallDepth < s.callers.length + 2
    · have none_left : limits.maxCallDepth - (s.callers.length + 1) = 0 := by omega
      have depth : s.callers.length + 2 = 1 + (s.callers.length + 1) := by omega
      simp only [deep, remain, none_left, ↓reduceIte]
      exact congrArg (Except.error ∘ Fault.callDepth) depth
    · have some_left : limits.maxCallDepth - (s.callers.length + 1) ≠ 0 := by omega
      simp only [deep, remain, some_left, ↓reduceIte, StateT.run, popped, bind, Except.bind]
      rw [Frame.enter_rebase m args 0]
      cases entered : Frame.enter m args 0 with
      | error fault =>
        obtain ⟨_, rfl⟩ := Frame.enter_error entered
        rfl
      | ok frame =>
        have first : (s.site next below).carry ⟨frame, [], {}⟩ =
            ⟨{ frame with savedFloor := s.stack.floor },
              { s.frame with ip := next } :: s.callers, ⟨below, below.size⟩⟩ := by
          simp [CallSite.carry, CallSite.place, CallSite.saved, CallSite.suspend, site, Stack.onto]
        exact congrArg (Except.ok ∘ Progress.running) first.symm

/-- When the called method ends, the machine has made its last step on top of the site. -/
theorem path_of_call (fetched : s.frame.fetch = .ok (.call index n, next))
    (values : s.stack.values = below ++ args.toArray) (count : args.length = n.toNat)
    (above : s.stack.floor ≤ below.size) {answer : Except Fault Value}
    (ends : c.Ends (limits.less (s.callers.length + 1)) index.toNat args answer) :
    ∃ t, Path c limits s t ∧
      t.step c limits = (s.site next below).relay (answer.map .finished) := by
  have called := step_call c limits fetched values count above
  rcases ends.last with ⟨fault, failed, rfl⟩ | ⟨first, t, started, path, last⟩
  · rw [failed] at called
    exact ⟨s, .refl, called⟩
  · rw [started] at called
    have grounded := start_grounded started
    refine ⟨_, .cons called (CallSite.path_carry grounded path), ?_⟩
    rw [CallSite.step_carry (path.keeps Grounded.step grounded)]
    exact congrArg _ last

end State

/-- Calls are compositional, in any code. When a frame is about to call a method with some values
on the stack as its arguments, everything depends on how that method ends on its own, with what is
left of the limit on calls. Its result takes the place of the arguments, and nothing else changes;
its fault ends the whole run, with the depth of calls counted from the outside; and if it does not
end, the run does not. -/
theorem calls_compositional {c : Class} {limits : Limits} {start : Nat} {given : List Value}
    {s : State} (reaches : c.Reaches limits start given s) {index : UInt32} {n : UInt16}
    {next : Nat} (fetched : s.frame.fetch = .ok (.call index n, next)) {below : Array Value}
    {args : List Value} (values : s.stack.values = below ++ args.toArray)
    (count : args.length = n.toNat) (above : s.stack.floor ≤ below.size) :
    next = s.frame.ip + 7 ∧
    (∀ v, c.Ends (limits.less (s.callers.length + 1)) index.toNat args (.ok v) →
      State.Path c limits s
        ⟨{ s.frame with ip := next }, s.callers, ⟨below.push v, s.stack.floor⟩⟩) ∧
    (∀ fault, c.Ends (limits.less (s.callers.length + 1)) index.toNat args (.error fault) →
      c.Ends limits start given (.error (fault.deepen (s.callers.length + 1)))) ∧
    (c.Diverges (limits.less (s.callers.length + 1)) index.toNat args →
      c.Diverges limits start given) := by
  refine ⟨Frame.fetch_ok fetched, ?_, ?_, ?_⟩
  · intro v ends
    obtain ⟨t, path, last⟩ := State.path_of_call fetched values count above ends
    exact path.trans (.cons last .refl)
  · intro fault ends
    obtain ⟨t, path, last⟩ := State.path_of_call fetched values count above ends
    have run : t.run c limits 1 = some (.error (fault.deepen (s.callers.length + 1))) := by
      simp only [State.run, last]
      rfl
    exact (reaches.along path).ends run
  · intro endless
    have called := State.step_call c limits fetched values count above
    obtain ⟨first, started, endless⟩ := endless.first
    rw [started] at called
    refine (reaches.along (.cons called .refl)).diverges fun fuel => ?_
    exact CallSite.run_carry (State.start_grounded started) (endless fuel)

def doubles : Class where
  name := "Doubles"
  methods :=
    [{ name := "main", params := ["int"], returns := "int", locals := 1,
       code := [0x12, 0x12, 0x12, 0xA6, 1, 0, 0, 0, 2, 0, 0x20, 0xA2] },
     { name := "sum", params := ["int", "int"], returns := "int", locals := 2,
       code := [0x12, 0x13, 0x20, 0xA2] }]

theorem doubles_resumes :
    ∃ s, doubles.Reaches {} 0 [.int 7] s ∧ s.frame.fetch = .ok (.call 1 2, 10) ∧
      s.stack.values = #[.int 7] ++ [Value.int 7, .int 7].toArray ∧
      State.Path doubles {} s ⟨{ s.frame with ip := 10 }, [], ⟨#[.int 7, .int 14], 0⟩⟩ := by
  obtain ⟨s, reaches, fetched, values, floor, callers⟩ : ∃ s, doubles.Reaches {} 0 [.int 7] s ∧
      s.frame.fetch = .ok (.call 1 2, 10) ∧
      s.stack.values = #[.int 7] ++ [Value.int 7, .int 7].toArray ∧
      s.stack.floor = 0 ∧ s.callers = [] :=
    ⟨_, ⟨_, rfl, .cons rfl (.cons rfl (.cons rfl .refl))⟩, rfl, rfl, rfl, rfl⟩
  have ends : doubles.Ends (Limits.less {} (s.callers.length + 1)) 1 [.int 7, .int 7]
      (.ok (.int 14)) := by
    rw [callers]
    exact ⟨10, rfl⟩
  have called := calls_compositional reaches fetched values rfl (by rw [floor]; decide)
  have path := called.2.1 _ ends
  rw [callers, floor] at path
  exact ⟨s, reaches, fetched, values, path⟩

end Rowwise
