import Mathlib
import Rowwise.Proofs.Machine.Calls

/-! What bounds the state of the machine in runs of any code, verified or not. Every live frame
points into its code or to its end and keeps the locals that it was created with; the floors that
the frames go back to ascend to that of the running one; and what lies below a floor is out of
reach. -/
namespace Rowwise

namespace Stack

variable {s t : Stack} {n : Nat} {v : Value} {args : List Value}

theorem pop_ok (ok : pop s = .ok (v, t)) : s.values = t.values.push v := by
  simp only [pop] at ok
  split at ok
  · cases ok
  · cases ok
    have filled : s.values.size ≠ 0 := by omega
    obtain ⟨below, top, whole⟩ := Array.eq_push_of_size_ne_zero filled
    simp [whole]

theorem popAs_ok {α : Type} {op : Opcode} {expected : Kind} {view : Value → Option α} {a : α}
    (ok : popAs op expected view s = .ok (a, t)) :
    ∃ v, view v = some a ∧ s.values = t.values.push v := by
  obtain ⟨⟨v, u⟩, popped, ok⟩ := bind_ok ok
  cases seen : view v with
  | none =>
    simp only [seen] at ok
    cases ok
  | some b =>
    simp only [seen] at ok
    cases ok
    exact ⟨v, seen, pop_ok popped⟩

/-- What is split off are as many values as are asked for. -/
theorem popMany_ok (ok : popMany n s = .ok (args, t)) :
    args.length = n ∧ s.values = t.values ++ args.toArray := by
  refine ⟨length_of_popMany ok, ?_⟩
  simp only [popMany] at ok
  split at ok
  · cases ok
  · cases ok
    rw [Array.toArray_toList, Array.shrink_eq_take]
    simp

/-- An index and an array below it give way to the item of the array at that index. -/
def Picks (before after : Array Value) : Prop :=
  ∃ (below : Array Value) (array index : Value) (items : List Value) (k : Int32) (item : Value),
    before = (below.push array).push index ∧ index.asInt? = some k ∧
    array.asArray? = some items ∧ ¬ k < 0 ∧ items[k.toInt.toNat]? = some item ∧
    after = below.push item

theorem picks_of_element {op : Opcode} (ok : element op s = .ok ((), t)) :
    Picks s.values t.values := by
  obtain ⟨⟨k, u⟩, first, ok⟩ := bind_ok ok
  obtain ⟨⟨items, w⟩, second, ok⟩ := bind_ok ok
  obtain ⟨index, isInt, values⟩ := popAs_ok first
  obtain ⟨array, isArray, values'⟩ := popAs_ok second
  by_cases negative : k < 0
  · simp only [negative, ↓reduceIte] at ok
    cases ok
  cases found : items[k.toInt.toNat]? with
  | none =>
    simp only [negative, found, ↓reduceIte] at ok
    cases ok
  | some item =>
    simp only [negative, found, ↓reduceIte] at ok
    cases ok
    refine ⟨w.values, array, index, items, k, item, ?_, isInt, isArray, negative, found, rfl⟩
    rw [values, values']

end Stack

/-- Whatever a called method does, the values of its site stay below. -/
theorem CallSite.values_of_relay {site : CallSite} {x : Except Fault Progress} {t : State}
    (relayed : site.relay x = .ok (.running t)) :
    ∃ above, t.stack.values = site.below ++ above := by
  cases x with
  | error fault => cases relayed
  | ok progress =>
    cases progress with
    | running u =>
      cases relayed
      exact ⟨u.stack.values, rfl⟩
    | finished v =>
      cases relayed
      exact ⟨#[v], Array.push_eq_append⟩

namespace State

/-- The state is within the bounds that any code leaves it in. Floors descend from the running frame
outwards. -/
structure Bounded (s : State) : Prop where
  ips : ∀ f ∈ s.frames, f.ip ≤ f.method.code.length
  locals : ∀ f ∈ s.frames, f.locals.size ≤ maxLocals
  floors : (s.stack.floor :: s.frames.map (·.savedFloor)).Pairwise (· ≥ ·)
  inside : s.stack.floor ≤ s.stack.values.size

variable {c : Class} {limits : Limits} {s t u : State}

theorem Bounded.executes {i : Instruction} (bounded : s.Bounded)
    (executes : Executes c limits i s (.ok (.running t))) : t.Bounded := by
  obtain ⟨ips, locals, floors, inside⟩ := bounded
  simp only [frames, List.forall_mem_cons] at ips locals
  simp only [frames, List.map_cons] at floors
  have stays (within : s.Inside i t) (ip : t.frame.ip ≤ t.frame.method.code.length) :
      t.Bounded := by
    obtain ⟨method, savedFloor, slots, callers, floor, enough, size⟩ := within
    refine ⟨?_, ?_, ?_, by omega⟩
    · simp only [frames, List.forall_mem_cons, callers]
      exact ⟨ip, ips.2⟩
    · simp only [frames, List.forall_mem_cons, callers, slots]
      exact locals
    · simp only [frames, List.map_cons, callers, savedFloor, floor]
      exact floors
  cases executes with
  | passes _ ip within => exact stays within (by rw [ip, within.method]; exact ips.1)
  | jumps _ _ inside within => exact stays within (by rw [within.method]; omega)
  | enters _ _ _ _ room _ ip slots savedFloor callers floor size =>
    refine ⟨?_, ?_, ?_, Nat.le_of_eq floor⟩
    · simp only [frames, List.forall_mem_cons, callers, ip]
      exact ⟨Nat.zero_le _, ips⟩
    · simp only [frames, List.forall_mem_cons, callers, slots]
      exact ⟨room, locals⟩
    · simp only [frames, List.map_cons, callers, savedFloor]
      exact List.pairwise_cons_cons_iff_of_trans.mpr ⟨by omega, floors⟩
  | leaves _ _ callers frame rest floor size =>
    rw [callers] at ips locals floors
    rw [List.map_cons, List.pairwise_cons_cons_iff_of_trans] at floors
    refine ⟨?_, ?_, ?_, by omega⟩
    · simp only [frames, frame, rest]
      exact ips.2
    · simp only [frames, frame, rest]
      exact locals.2
    · simp only [frames, frame, rest, floor]
      exact floors.2

theorem Bounded.step (bounded : s.Bounded) (step : s.step c limits = .ok (.running t)) :
    t.Bounded := by
  obtain ⟨i, next, fetched, executes⟩ := executes_of_step bounded.inside step
  have further : State.Bounded { s with frame.ip := next } := by
    obtain ⟨ips, locals, floors, inside⟩ := bounded
    simp only [frames, List.forall_mem_cons] at ips locals
    refine ⟨?_, ?_, floors, inside⟩
    · simp only [frames, List.forall_mem_cons]
      exact ⟨Frame.next_le_of_fetch fetched, ips.2⟩
    · simp only [frames, List.forall_mem_cons]
      exact locals
  exact further.executes executes

theorem start_bounded {index : Nat} {args : List Value}
    (started : start c limits index args = .ok s) : s.Bounded := by
  obtain ⟨m, frame, -, entered, rfl⟩ := start_ok started
  obtain ⟨room, -, ip, slots, savedFloor⟩ := Frame.enter_ok entered
  refine ⟨?_, ?_, ?_, Nat.le_refl _⟩
  · simp [frames, ip]
  · simp only [frames, List.forall_mem_singleton, slots]
    exact room
  · simp [frames, savedFloor]

/-! What a frame finds below its floor it leaves there. -/

def alone (s : State) : State :=
  ⟨{ s.frame with savedFloor := 0 }, [], ⟨s.stack.values.extract s.stack.floor, 0⟩⟩

def home (s : State) (caller : Frame) (callers : List Frame) : CallSite :=
  ⟨caller, callers, s.stack.values.extract 0 s.stack.floor, s.frame.savedFloor⟩

theorem carry_alone {caller : Frame} {callers : List Frame}
    (waiting : s.callers = caller :: callers) (inside : s.stack.floor ≤ s.stack.values.size) :
    (s.home caller callers).carry s.alone = s := by
  have floor : (s.stack.values.extract 0 s.stack.floor).size = s.stack.floor := by
    rw [Array.size_extract]
    omega
  have values : s.stack.values.extract 0 s.stack.floor ++ s.stack.values.extract s.stack.floor =
      s.stack.values := by
    simp [Array.extract_append_extract, inside]
  simp only [CallSite.carry, alone, home, CallSite.place, CallSite.saved, CallSite.suspend,
    Stack.onto, floor, values, Nat.add_zero, ← waiting]

/-- A step leaves the values below the floor where they are. -/
theorem extract_step (grounded : s.Grounded) (step : s.step c limits = .ok (.running t)) :
    t.stack.values.extract 0 s.stack.floor = s.stack.values.extract 0 s.stack.floor := by
  cases waiting : s.callers with
  | nil =>
    have floors := grounded.floors
    rw [waiting] at floors
    have floor : s.stack.floor = 0 := floors
    rw [floor, Array.extract_zero, Array.extract_zero]
  | cons caller callers =>
    -- on top of its home the frame steps as on its own, and from there it cannot see further down
    have same : (s.home caller callers).carry s.alone = s := carry_alone waiting grounded.inside
    have carried : ((s.home caller callers).carry s.alone).step c limits = _ :=
      CallSite.step_carry ⟨Nat.zero_le _, rfl⟩
    rw [same, step] at carried
    have below : s.stack.values.extract 0 s.stack.floor = (s.home caller callers).below := rfl
    have size : (s.home caller callers).below.size = s.stack.floor := by
      rw [← below, Array.size_extract, Nat.min_eq_left grounded.inside, Nat.sub_zero]
    obtain ⟨above, whole⟩ := CallSite.values_of_relay carried.symm
    rw [below, whole, ← size]
    simp

/-- From the one state to the other the running frame of the first stays live. -/
inductive Stays (c : Class) (limits : Limits) (s : State) : State → Prop where
  | refl : Stays c limits s s
  | next {t u : State} : Stays c limits s t → t.step c limits = .ok (.running u) →
      s.callers.length ≤ u.callers.length → Stays c limits s u

theorem Stays.path (stays : Stays c limits s t) : Path c limits s t := by
  induction stays with
  | refl => exact .refl
  | next _ step _ ih => exact ih.trans (.cons step .refl)

/-- The outer frames wait for a frame that may have gone on since it was `f`. It is the running one,
or it waits for frames that do not get below a floor. -/
def InPlace (f : Frame) (outer : List Frame) (floor : Nat) (live : List Frame) : Prop :=
  ∃ inner g, live = inner ++ g :: outer ∧ GoneOn f g ∧ ∀ h ∈ inner, floor ≤ h.savedFloor

theorem InPlace.goneOn {f g h : Frame} {outer callers : List Frame} {floor : Nat}
    (inPlace : InPlace f outer floor (g :: callers)) (on : GoneOn g h) :
    InPlace f outer floor (h :: callers) := by
  obtain ⟨inner, x, whole, same, above⟩ := inPlace
  cases inner with
  | nil =>
    obtain ⟨rfl, rfl⟩ := List.cons.inj whole
    exact ⟨[], h, rfl, same.trans on, above⟩
  | cons y inner =>
    obtain ⟨rfl, rfl⟩ := List.cons.inj whole
    rw [List.forall_mem_cons] at above
    refine ⟨h :: inner, x, rfl, same, List.forall_mem_cons.mpr ⟨?_, above.2⟩⟩
    rw [on.savedFloor]
    exact above.1

/-- What is left alone as long as the running frame of `s` is live: the frame itself, but for its
position and the contents of its locals; the frames that wait for it; and the values below its
floor. -/
structure Keeps (s t : State) : Prop where
  frames : InPlace s.frame s.callers s.stack.floor t.frames
  floor : s.stack.floor ≤ t.stack.floor
  below : t.stack.values.extract 0 s.stack.floor = s.stack.values.extract 0 s.stack.floor

theorem Keeps.refl (s : State) : s.Keeps s where
  frames := ⟨[], s.frame, rfl, ⟨rfl, rfl, rfl⟩, nofun⟩
  floor := Nat.le_refl _
  below := rfl

theorem Keeps.step (keeps : s.Keeps t) (grounded : t.Grounded)
    (step : t.step c limits = .ok (.running u)) (live : s.callers.length ≤ u.callers.length) :
    s.Keeps u := by
  obtain ⟨inPlace, floor, below⟩ := keeps
  have lower : u.stack.values.extract 0 s.stack.floor = s.stack.values.extract 0 s.stack.floor := by
    have level := congrArg (Array.extract · 0 s.stack.floor) (extract_step grounded step)
    simp only [Array.extract_extract, Nat.zero_add, Nat.min_eq_left floor] at level
    exact level.trans below
  rcases frames_step grounded step with ⟨g, on, frames, same⟩ |
      ⟨g, on, -, callers, savedFloor, higher⟩ | ⟨frames, same⟩
  · exact ⟨frames ▸ inPlace.goneOn on, same ▸ floor, lower⟩
  · obtain ⟨inner, f, whole, still, above⟩ := inPlace.goneOn on
    refine ⟨⟨u.frame :: inner, f, ?_, still, ?_⟩, Nat.le_trans floor higher, lower⟩
    · rw [State.frames, callers, whole, List.cons_append]
    · exact List.forall_mem_cons.mpr ⟨savedFloor ▸ floor, above⟩
  · obtain ⟨inner, f, whole, still, above⟩ := inPlace
    cases inner with
    | nil =>
      have fewer := congrArg List.length frames
      rw [(List.cons.inj whole).2, State.frames, List.length_cons] at fewer
      omega
    | cons h inner =>
      obtain ⟨rfl, rest⟩ := List.cons.inj whole
      rw [List.forall_mem_cons] at above
      exact ⟨⟨inner, f, frames.trans rest, still, above.2⟩, same ▸ above.1, lower⟩

theorem Stays.keeps (stays : Stays c limits s t) (grounded : s.Grounded) : s.Keeps t := by
  induction stays with
  | refl => exact .refl s
  | next before step live ih => exact ih.step (before.path.keeps Grounded.step grounded) step live

/-- Behind each live frame there is a state in which it was created, and it has been live since. -/
def Created (c : Class) (limits : Limits) (first s : State) : Prop :=
  ∀ inner f outer, s.frames = inner ++ f :: outer → ∃ made, Path c limits first made ∧
    made.Entered ∧ made.callers = outer ∧ Stays c limits made s

/-- With another frame in front, the outer frames still wait for one. -/
theorem exists_place {g f : Frame} {callers inner outer : List Frame}
    (whole : g :: callers = inner ++ f :: outer) (h : Frame) :
    ∃ before x, h :: callers = before ++ x :: outer := by
  cases inner with
  | nil =>
    obtain ⟨-, rfl⟩ := List.cons.inj whole
    exact ⟨[], h, rfl⟩
  | cons k inner =>
    have rest : callers = inner ++ f :: outer := (List.cons.inj whole).2
    exact ⟨h :: inner, f, congrArg (h :: ·) rest⟩

theorem Created.step {first : State} (created : Created c limits first s)
    (path : Path c limits first s) (grounded : s.Grounded)
    (step : s.step c limits = .ok (.running t)) : Created c limits first t := by
  intro inner f outer whole
  have live : outer.length ≤ t.callers.length := by
    have length := congrArg List.length whole
    simp only [frames, List.length_cons, List.length_append] at length
    omega
  have older (waited : ∃ before x, s.frames = before ++ x :: outer) :
      ∃ made, Path c limits first made ∧ made.Entered ∧ made.callers = outer ∧
        Stays c limits made t := by
    obtain ⟨before, x, place⟩ := waited
    obtain ⟨made, behind, entered, callers, stays⟩ := created before x outer place
    exact ⟨made, behind, entered, callers, stays.next step (callers ▸ live)⟩
  rcases frames_step grounded step with ⟨g, -, frames, -⟩ | ⟨g, -, entered, callers, -⟩ |
      ⟨frames, -⟩
  · exact older (exists_place (frames.symm.trans whole) s.frame)
  · rw [State.frames, callers] at whole
    cases inner with
    | nil =>
      obtain ⟨-, rfl⟩ := List.cons.inj whole
      exact ⟨t, path.trans (.cons step .refl), entered, callers, .refl⟩
    | cons h inner =>
      have rest : g :: s.callers = inner ++ f :: outer := (List.cons.inj whole).2
      exact older (exists_place rest s.frame)
  · exact older ⟨s.frame :: inner, f, congrArg (s.frame :: ·) (frames.symm.trans whole)⟩

theorem start_created {index : Nat} {args : List Value}
    (started : start c limits index args = .ok s) : Created c limits s s := by
  obtain ⟨m, frame, -, entered, rfl⟩ := start_ok started
  obtain ⟨-, method, ip, slots, -⟩ := Frame.enter_ok entered
  intro inner f outer whole
  have short := congrArg List.length whole
  simp only [frames, List.length_cons, List.length_nil, List.length_append] at short
  obtain rfl : outer = [] := List.length_eq_zero_iff.mp (by omega)
  exact ⟨_, .refl, ⟨ip, args.length, method ▸ slots⟩, rfl, .refl⟩

/-- What a step reads and what it cuts off is there. The bytes of an operand are in the code, and
where the code ends before them the fault names an offset in it or its end. The values that an
instruction takes are above the floor. A call splits off its arguments, a return cuts the values off
at the floor, and an item is read at an index of its array. -/
structure InRange (c : Class) (limits : Limits) (s : State) : Prop where
  operand : ∀ i next, s.frame.fetch = .ok (i, next) → next ≤ s.frame.method.code.length ∧
    ∃ rest, s.frame.method.code.drop s.frame.ip = i.encode ++ rest
  cut : ∀ offset, s.frame.fetch = .error (.unexpectedEnd offset) →
    offset ≤ s.frame.method.code.length
  taken : ∀ i next progress, s.frame.fetch = .ok (i, next) → s.step c limits = .ok progress →
    s.stack.floor + i.pops ≤ s.stack.values.size
  arguments : ∀ index n next t, s.frame.fetch = .ok (.call index n, next) →
    s.step c limits = .ok (.running t) → ∃ args : List Value, args.length = n.toNat ∧
      s.stack.values = t.stack.values ++ args.toArray ∧ t.stack.floor = t.stack.values.size
  returned : ∀ i next t, s.frame.fetch = .ok (i, next) → i.opcode.isReturn = true →
    s.step c limits = .ok (.running t) →
      ∃ v, t.stack.values = (s.stack.values.extract 0 s.stack.floor).push v
  item : ∀ next t, s.frame.fetch = .ok (.stack .element, next) →
    s.step c limits = .ok (.running t) → Stack.Picks s.stack.values t.stack.values

theorem taken_of_step {i : Instruction} {next : Nat} {progress : Progress} (grounded : s.Grounded)
    (fetched : s.frame.fetch = .ok (i, next)) (step : s.step c limits = .ok progress) :
    s.stack.floor + i.pops ≤ s.stack.values.size := by
  obtain ⟨i', next', fetched', executes⟩ := executes_of_step grounded.inside step
  cases fetched.symm.trans fetched'
  cases executes with
  | passes _ _ within | jumps _ _ _ within => exact within.enough
  | enters call _ _ enough => subst call; exact enough
  | leaves _ enough | finishes _ enough => exact enough

theorem arguments_of_step {index : UInt32} {n : UInt16} {next : Nat}
    (fetched : s.frame.fetch = .ok (.call index n, next))
    (step : s.step c limits = .ok (.running t)) :
    ∃ args : List Value, args.length = n.toNat ∧
      s.stack.values = t.stack.values ++ args.toArray ∧
      t.stack.floor = t.stack.values.size := by
  rw [step_of_fetch fetched] at step
  simp only [execute, call] at step
  split at step
  · cases step
  split at step
  · cases step
  obtain ⟨⟨args, rest⟩, popped, step⟩ := bind_ok step
  obtain ⟨frame, entered, step⟩ := bind_ok step
  cases step
  obtain ⟨length, values⟩ := Stack.popMany_ok popped
  exact ⟨args, length, values, rfl⟩

theorem returned_of_step {i : Instruction} {next : Nat} (grounded : s.Grounded)
    (fetched : s.frame.fetch = .ok (i, next)) (returns : i.opcode.isReturn = true)
    (step : s.step c limits = .ok (.running t)) :
    ∃ v, t.stack.values = (s.stack.values.extract 0 s.stack.floor).push v := by
  have below := extract_step grounded step
  obtain ⟨i', next', fetched', executes⟩ := executes_of_step grounded.inside step
  cases fetched.symm.trans fetched'
  have size : t.stack.values.size = s.stack.floor + 1 := by
    cases executes with
    | passes through =>
      generalize i.opcode = op at returns through
      cases op with
      | returnValue | returnVoid => cases through
      | _ => cases returns
    | jumps jump => subst jump; cases returns
    | enters call => subst call; cases returns
    | leaves _ _ _ _ _ _ size => exact size
  have filled : t.stack.values.size ≠ 0 := by omega
  obtain ⟨rest, v, whole⟩ := Array.eq_push_of_size_ne_zero filled
  rw [whole, Array.size_push] at size
  refine ⟨v, ?_⟩
  rw [← below, whole, ← Nat.succ.inj size]
  simp

theorem picks_of_step {next : Nat} (fetched : s.frame.fetch = .ok (.stack .element, next))
    (step : s.step c limits = .ok (.running t)) : Stack.Picks s.stack.values t.stack.values := by
  rw [step_of_fetch fetched] at step
  obtain ⟨⟨⟨⟩, stack⟩, performed, step⟩ := bind_ok step
  cases step
  exact Stack.picks_of_element performed

theorem Bounded.inRange (bounded : s.Bounded) (grounded : s.Grounded) : s.InRange c limits where
  operand _ _ fetched := ⟨Frame.next_le_of_fetch fetched, Frame.spelled_of_fetch fetched⟩
  cut _ error := Frame.fetch_unexpectedEnd (bounded.ips s.frame List.mem_cons_self) error
  taken _ _ _ := taken_of_step grounded
  arguments _ _ _ _ := arguments_of_step
  returned _ _ _ := returned_of_step grounded
  item _ _ := picks_of_step

end State

namespace Class

variable {c : Class} {limits : Limits} {index : Nat} {args : List Value} {s : State}

theorem Reaches.bounded (reaches : c.Reaches limits index args s) : s.Bounded := by
  obtain ⟨first, started, path⟩ := reaches
  exact path.keeps State.Bounded.step (State.start_bounded started)

/-- Every live frame of a reached state goes back to a reached state in which it was created. -/
theorem Reaches.created (reaches : c.Reaches limits index args s) {inner outer : List Frame}
    {f : Frame} (whole : s.frames = inner ++ f :: outer) :
    ∃ made, c.Reaches limits index args made ∧ made.Entered ∧ made.callers = outer ∧
      State.Stays c limits made s ∧ State.GoneOn made.frame f := by
  obtain ⟨first, started, path⟩ := reaches
  have grounded := State.start_grounded started
  obtain ⟨-, -, created⟩ : State.Path c limits first s ∧ s.Grounded ∧
      State.Created c limits first s :=
    path.keeps (P := fun s => _ ∧ s.Grounded ∧ _)
      (fun ⟨path, grounded, created⟩ step => ⟨path.trans (.cons step .refl), grounded.step step,
        created.step path grounded step⟩)
      ⟨.refl, grounded, State.start_created started⟩
  obtain ⟨made, behind, entered, rfl, stays⟩ := created inner f outer whole
  obtain ⟨inner', g, whole', on, -⟩ :=
    (stays.keeps (behind.keeps State.Grounded.step grounded)).frames
  have same : f :: made.callers = g :: made.callers :=
    (List.append_inj' (whole.symm.trans whole') rfl).2
  obtain rfl := (List.cons.inj same).1
  exact ⟨made, ⟨first, started, behind⟩, entered, rfl, stays, on⟩

/-- A step goes on to a state that is reached, or it ends the invocation with a value or a fault. -/
theorem Reaches.steps (reaches : c.Reaches limits index args s) :
    (∃ t, s.step c limits = .ok (.running t) ∧ c.Reaches limits index args t) ∨
      ∃ answer : Except Fault Value, s.step c limits = answer.map .finished ∧
        c.Ends limits index args answer := by
  cases step : s.step c limits with
  | error fault =>
    have run : s.run c limits 1 = some (.error fault) := by simp only [State.run, step]
    exact .inr ⟨.error fault, rfl, reaches.ends run⟩
  | ok progress =>
    cases progress with
    | running t => exact .inl ⟨t, rfl, reaches.along (.cons step .refl)⟩
    | finished v =>
      have run : s.run c limits 1 = some (.ok v) := by simp only [State.run, step]
      exact .inr ⟨.ok v, rfl, reaches.ends run⟩

theorem Ends.unique {answer other : Except Fault Value} (ends : c.Ends limits index args answer)
    (ends' : c.Ends limits index args other) : other = answer := by
  obtain ⟨fuel, first⟩ := ends
  obtain ⟨fuel', second⟩ := ends'
  have same := (invoke_mono first (Nat.le_max_left fuel fuel')).symm.trans
    (invoke_mono second (Nat.le_max_right fuel fuel'))
  exact (Option.some.inj same).symm

theorem diverges_or_ends (c : Class) (limits : Limits) (index : Nat) (args : List Value) :
    c.Diverges limits index args ∨ ∃ answer, c.Ends limits index args answer := by
  by_cases ends : ∃ answer, c.Ends limits index args answer
  · exact .inr ends
  · refine .inl fun fuel => ?_
    cases ran : c.invoke limits fuel index args with
    | none => rfl
    | some answer => exact absurd ⟨answer, fuel, ran⟩ ends

end Class

/-- No code, verified or not, gets the machine out of its bounds. In every state that an invocation
reaches, the positions of all live frames are in their code, their locals are within the limit and
their floors in order; what a step reads and cuts off is there; every live frame has kept the locals
that it was created with; as long as the running frame is live, the values below its floor stay as
they are; and the next step goes on to such a state or ends the invocation with a value or a fault.
So an invocation that does not go on forever has one answer. -/
theorem any_code_contained (c : Class) (limits : Limits) (index : Nat) (args : List Value) :
    (∀ s, c.Reaches limits index args s →
      s.Bounded ∧ s.InRange c limits ∧
      (∀ inner f outer, s.frames = inner ++ f :: outer → ∃ made, c.Reaches limits index args made ∧
        made.Entered ∧ made.callers = outer ∧ State.Stays c limits made s ∧
        State.GoneOn made.frame f) ∧
      (∀ t, State.Stays c limits s t → s.Keeps t) ∧
      ((∃ t, s.step c limits = .ok (.running t) ∧ c.Reaches limits index args t) ∨
        ∃ answer : Except Fault Value, s.step c limits = answer.map .finished ∧
          c.Ends limits index args answer)) ∧
    (c.Diverges limits index args ∨ ∃ answer : Except Fault Value, c.Ends limits index args answer ∧
      ∀ other, c.Ends limits index args other → other = answer) := by
  constructor
  · intro s reaches
    have grounded := reaches.grounded
    exact ⟨reaches.bounded, reaches.bounded.inRange grounded, fun _ _ _ => reaches.created,
      fun _ stays => stays.keeps grounded, reaches.steps⟩
  · refine (Class.diverges_or_ends c limits index args).imp_right ?_
    rintro ⟨answer, ends⟩
    exact ⟨answer, ends, fun _ => ends.unique⟩

/-- A class that verification refuses. The second method is called with an argument that it does not
take, and pops more than it pushes. -/
def intruder : Class where
  name := "Intruder"
  methods :=
    [{ name := "main", params := [], returns := "int", locals := 0,
       code := [0x05, 0x05, 0xA6, 1, 0, 0, 0, 1, 0, 0xA2] },
     { name := "grab", params := [], returns := "int", locals := 0,
       code := [0x05, 0x01, 0x01, 0xA2] }]

/-- It does not get hold of the value of its caller. -/
theorem intruder_contained :
    intruder.verify ≠ .ok () ∧ ∃ s, intruder.Reaches {} 0 [] s ∧ s.callers.length = 1 ∧
      s.stack.floor = 1 ∧ s.Bounded ∧ (∀ t, State.Stays intruder {} s t → s.Keeps t) ∧
      intruder.Ends {} 0 [] (.error .stackUnderflow) := by
  have refused : intruder.verify = .error (.inMethod "main" (.callArity 0 1 2)) := by cbv
  obtain ⟨s, reaches, callers, floor⟩ : ∃ s, intruder.Reaches {} 0 [] s ∧ s.callers.length = 1 ∧
      s.stack.floor = 1 :=
    ⟨_, ⟨_, rfl, .cons rfl (.cons rfl (.cons rfl .refl))⟩, rfl, rfl⟩
  obtain ⟨bounded, -, -, kept, -⟩ := (any_code_contained intruder {} 0 []).1 s reaches
  refine ⟨fun accepted => ?_, s, reaches, callers, floor, bounded, kept, 10, rfl⟩
  cases refused.symm.trans accepted

end Rowwise
