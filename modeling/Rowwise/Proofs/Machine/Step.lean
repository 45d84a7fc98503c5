import Rowwise.Proofs.Machine.Effect
import Rowwise.Proofs.Machine.Fetched
import Rowwise.Proofs.Machine.Run

/-! All that one instruction can do, with the values left out: where control goes, how many values
move, and which fault comes of what. Later facts about steps are read off `Executes` and do not
look at the machine again. -/
namespace Rowwise

namespace Stack

variable {n : Nat} {s t : Stack} {args : List Value}

theorem length_of_popMany (ok : popMany n s = .ok (args, t)) : args.length = n := by
  simp only [popMany] at ok
  split at ok <;> cases ok
  simp; omega

theorem size_clear (inside : s.floor ≤ s.values.size) : s.clear.size = s.floor := by
  simp only [clear, Array.size_shrink]; omega

end Stack

namespace Frame

variable {f g : Frame} {m : Method} {args : List Value} {savedFloor slot : Nat} {v : Value}

theorem enter_ok (ok : enter m args savedFloor = .ok f) :
    max m.locals args.length ≤ maxLocals ∧ f.method = m ∧ f.ip = 0 ∧
      f.locals.size = max m.locals args.length ∧ f.savedFloor = savedFloor := by
  simp only [enter] at ok
  split at ok <;> cases ok
  refine ⟨by omega, rfl, rfl, ?_, rfl⟩
  simp only [List.size_toArray, List.length_append, List.length_replicate]
  omega

theorem enter_error {fault : Fault} (error : enter m args savedFloor = .error fault) :
    maxLocals < max m.locals args.length ∧
      fault = .tooManyLocals (max m.locals args.length) := by
  simp only [enter] at error
  split at error <;> cases error
  exact ⟨by assumption, rfl⟩

/-- A method enters the same frame, except that it goes back to another floor. -/
theorem enter_rebase (m : Method) (args : List Value) (savedFloor savedFloor' : Nat) :
    enter m args savedFloor' =
      (enter m args savedFloor).map fun f => { f with savedFloor := savedFloor' } := by
  simp only [enter]
  split <;> rfl

theorem store_ok (ok : f.store slot v = .ok g) :
    g = { f with locals := f.locals.setIfInBounds slot v } := by
  simp only [store] at ok
  split at ok <;> cases ok
  rfl

theorem store_error {fault : Fault} (error : f.store slot v = .error fault) :
    f.locals.size ≤ slot ∧ fault = .invalidLocal slot := by
  simp only [store] at error
  split at error <;> cases error
  exact ⟨by omega, rfl⟩

theorem load_error {fault : Fault} (error : f.load slot = .error fault) :
    f.locals.size ≤ slot ∧ fault = .invalidLocal slot := by
  simp only [load] at error
  split at error <;> cases error
  rename_i missing
  exact ⟨Array.getElem?_eq_none_iff.mp missing, rfl⟩

end Frame

theorem coerceReturn_error {returns : String} {v : Value} {fault : Fault}
    (error : coerceReturn returns v = .error fault) : fault.OfData := by
  unfold coerceReturn at error
  split at error
  · cases error
  · split at error <;> cases error
    trivial

namespace State

theorem step_of_fetch {c : Class} {limits : Limits} {s : State} {i : Instruction} {next : Nat}
    (fetched : s.frame.fetch = .ok (i, next)) :
    s.step c limits = { s with frame.ip := next }.execute c limits i := by
  simp only [step, fetched, bind, Except.bind]

/-- The step stays in its frame and moves as many values as the instruction declares. -/
structure Inside (i : Instruction) (s t : State) : Prop where
  method : t.frame.method = s.frame.method
  savedFloor : t.frame.savedFloor = s.frame.savedFloor
  locals : t.frame.locals.size = s.frame.locals.size
  callers : t.callers = s.callers
  floor : t.stack.floor = s.stack.floor
  enough : s.stack.floor + i.pops ≤ s.stack.values.size
  size : t.stack.values.size + i.pops = s.stack.values.size + i.pushes

/-- Each fault comes of one thing that is wrong with the instruction in this state. -/
inductive Fails (c : Class) (limits : Limits) (i : Instruction) (s : State) : Fault → Prop where
  | data {fault : Fault} : fault.OfData → Fails c limits i s fault
  | thrown {text : String} : i = .throw → Fails c limits i s (.thrown text)
  | trapped {code : UInt16} : i = .trap code → Fails c limits i s (.trapped code)
  | short : s.stack.values.size < s.stack.floor + i.pops → Fails c limits i s .stackUnderflow
  | astray {condition : Condition} {distance : Int32} : i = .jump condition distance →
      (s.frame.ip + distance.toInt < 0 ∨ s.frame.method.code.length ≤ s.frame.ip + distance.toInt) →
      Fails c limits i s (.invalidJump (s.frame.ip + distance.toInt))
  | missing {slot : Nat} : i.slot? = some slot → s.frame.locals.size ≤ slot →
      Fails c limits i s (.invalidLocal slot)
  | noText {index : UInt32} : i = .constText index → c.constants.strings[index.toNat]? = none →
      Fails c limits i s (.invalidConstant index)
  | noLong {index : UInt32} : i = .constLong index → c.constants.integers[index.toNat]? = none →
      Fails c limits i s (.invalidConstant index)
  | noMethod {index : UInt32} {args : UInt16} : i = .call index args →
      c.methods[index.toNat]? = none → Fails c limits i s (.invalidCallTarget index)
  | deep {index : UInt32} {args : UInt16} : i = .call index args →
      limits.maxCallDepth < s.callers.length + 2 →
      Fails c limits i s (.callDepth (s.callers.length + 2))
  | crowded {index : UInt32} {args : UInt16} {m : Method} : i = .call index args →
      c.methods[index.toNat]? = some m → maxLocals < max m.locals args.toNat →
      Fails c limits i s (.tooManyLocals (max m.locals args.toNat))

/-- What an instruction leads to when the frame already points behind it. -/
inductive Executes (c : Class) (limits : Limits) (i : Instruction) (s : State) :
    Except Fault Progress → Prop where
  | passes {t : State} : i.opcode.fallsThrough = true → t.frame.ip = s.frame.ip → s.Inside i t →
      Executes c limits i s (.ok (.running t))
  | jumps {condition : Condition} {distance : Int32} {t : State} : i = .jump condition distance →
      (t.frame.ip : Int) = s.frame.ip + distance.toInt →
      t.frame.ip < s.frame.method.code.length → s.Inside i t →
      Executes c limits i s (.ok (.running t))
  | enters {index : UInt32} {args : UInt16} {m : Method} {t : State} : i = .call index args →
      c.methods[index.toNat]? = some m → s.callers.length + 2 ≤ limits.maxCallDepth →
      s.stack.floor + args.toNat ≤ s.stack.values.size →
      max m.locals args.toNat ≤ maxLocals →
      t.frame.method = m → t.frame.ip = 0 → t.frame.locals.size = max m.locals args.toNat →
      t.frame.savedFloor = s.stack.floor → t.callers = s.frame :: s.callers →
      t.stack.floor = t.stack.values.size →
      t.stack.values.size + args.toNat = s.stack.values.size →
      Executes c limits i s (.ok (.running t))
  | leaves {caller : Frame} {callers : List Frame} {t : State} : i.opcode.isReturn = true →
      s.stack.floor + i.pops ≤ s.stack.values.size → s.callers = caller :: callers →
      t.frame = caller → t.callers = callers → t.stack.floor = s.frame.savedFloor →
      t.stack.values.size = s.stack.floor + 1 → Executes c limits i s (.ok (.running t))
  | finishes {v : Value} : i.opcode.isReturn = true →
      s.stack.floor + i.pops ≤ s.stack.values.size → s.callers = [] →
      Executes c limits i s (.ok (.finished v))
  | fails {fault : Fault} : Fails c limits i s fault → Executes c limits i s (.error fault)

namespace Executes

variable {c : Class} {limits : Limits} {i : Instruction} {s : State}

/-- An instruction that begins by taking its operands fails if they cannot be taken. -/
theorem starved {m : StackM α} {pushes : Nat} {fault : Fault}
    (effect : Stack.Effect m i.pops pushes) (inside : s.stack.floor ≤ s.stack.values.size)
    (error : m s.stack = .error fault) : Executes c limits i s (.error fault) := by
  rcases effect.faults inside error with data | ⟨rfl, short⟩
  · exact .fails (.data data)
  · exact .fails (.short short)

theorem push (through : i.opcode.fallsThrough = true) (pops : i.pops = 0) (pushes : i.pushes = 1)
    (inside : s.stack.floor ≤ s.stack.values.size) (v : Value) :
    Executes c limits i s (s.push v) := by
  refine .passes (t := { s with stack := { s.stack with values := s.stack.values.push v } })
    through rfl ⟨rfl, rfl, rfl, rfl, rfl, ?_, ?_⟩
  · rw [pops]; exact inside
  · simp [pops, pushes]

theorem load {slot : Nat} (through : i.opcode.fallsThrough = true) (pops : i.pops = 0)
    (pushes : i.pushes = 1) (names : i.slot? = some slot)
    (inside : s.stack.floor ≤ s.stack.values.size) :
    Executes c limits i s (do s.push (← s.frame.load slot)) := by
  cases found : s.frame.load slot with
  | error fault =>
    obtain ⟨outside, rfl⟩ := Frame.load_error found
    exact .fails (.missing names outside)
  | ok v => exact push through pops pushes inside v

theorem store {slot : Nat} (through : i.opcode.fallsThrough = true) (pops : i.pops = 1)
    (pushes : i.pushes = 0) (names : i.slot? = some slot)
    (inside : s.stack.floor ≤ s.stack.values.size) : Executes c limits i s (s.store slot) := by
  simp only [State.store, StateT.run, bind, Except.bind]
  cases popped : Stack.pop s.stack with
  | error fault => exact starved (pops ▸ Stack.Effect.pop) inside popped
  | ok r =>
    obtain ⟨v, stack⟩ := r
    obtain ⟨enough, size⟩ := Stack.Effect.pop.moves inside popped
    have floor := Stack.Effect.pop.floor popped
    dsimp only
    cases stored : s.frame.store slot v with
    | error fault =>
      obtain ⟨outside, rfl⟩ := Frame.store_error stored
      exact .fails (.missing names outside)
    | ok frame =>
      obtain rfl := Frame.store_ok stored
      refine .passes (t := ⟨_, s.callers, stack⟩) through rfl
        ⟨rfl, rfl, by simp, rfl, floor, ?_, ?_⟩
      · rw [pops]; exact enough
      · rw [pops, pushes]; exact size

theorem leave {stack : Stack} (returns : i.opcode.isReturn = true)
    (enough : s.stack.floor + i.pops ≤ s.stack.values.size) (floor : stack.floor = s.stack.floor)
    (inside : stack.floor ≤ stack.values.size) (v : Value) :
    Executes c limits i s (State.leave v { s with stack }) := by
  simp only [State.leave, bind, Except.bind]
  cases coerced : coerceReturn s.frame.method.returns v with
  | error fault => exact .fails (.data (coerceReturn_error coerced))
  | ok result =>
    cases callers : s.callers with
    | nil => exact .finishes returns enough callers
    | cons caller callers' =>
      refine .leaves returns enough callers rfl rfl rfl ?_
      simp [Stack.size_clear inside, floor]

theorem call {index : UInt32} {args : UInt16} (inside : s.stack.floor ≤ s.stack.values.size) :
    Executes c limits (.call index args) s (s.call c limits index args.toNat) := by
  simp only [State.call, StateT.run, bind, Except.bind]
  cases found : c.methods[index.toNat]? with
  | none => exact .fails (.noMethod rfl found)
  | some m =>
    by_cases deep : limits.maxCallDepth < s.callers.length + 2
    · simp only [deep, ↓reduceIte]
      exact .fails (.deep rfl deep)
    simp only [deep, ↓reduceIte]
    cases popped : Stack.popMany args.toNat s.stack with
    | error fault => exact starved (Stack.Effect.popMany _) inside popped
    | ok r =>
      obtain ⟨values, stack⟩ := r
      have length := Stack.length_of_popMany popped
      have floor := (Stack.Effect.popMany _).floor popped
      obtain ⟨enough, size⟩ := (Stack.Effect.popMany _).moves inside popped
      dsimp only
      cases entered : Frame.enter m values stack.floor with
      | error fault =>
        obtain ⟨crowded, rfl⟩ := Frame.enter_error entered
        simp only [length] at crowded ⊢
        exact .fails (.crowded rfl found crowded)
      | ok frame =>
        obtain ⟨room, method, ip, locals, savedFloor⟩ := Frame.enter_ok entered
        rw [length] at room locals
        exact .enters rfl found (Nat.le_of_not_lt deep) enough room method ip locals
          (savedFloor.trans floor) rfl rfl size

theorem jump {condition : Condition} {distance : Int32}
    (inside : s.stack.floor ≤ s.stack.values.size) :
    Executes c limits (.jump condition distance) s
      (s.execute c limits (.jump condition distance)) := by
  simp only [State.execute, StateT.run, bind, Except.bind]
  cases tested : condition.test s.stack with
  | error fault => exact starved (Stack.Effect.test condition) inside tested
  | ok r =>
    obtain ⟨taken, stack⟩ := r
    obtain ⟨enough, size⟩ := (Stack.Effect.test condition).moves inside tested
    have floor := (Stack.Effect.test condition).floor tested
    have pushes : (Instruction.jump condition distance).pushes = 0 := by cases condition <;> rfl
    have moved (ip : Nat) : s.Inside (.jump condition distance)
        { s with frame := { s.frame with ip }, stack } :=
      ⟨rfl, rfl, rfl, rfl, floor, enough, by rw [pushes]; exact size⟩
    cases taken with
    | false =>
      have through : (Opcode.jump condition).fallsThrough = true := by
        cases condition with
        | always => cases tested
        | _ => rfl
      exact .passes through rfl (moved s.frame.ip)
    | true =>
      simp only [Frame.jump, ↓reduceIte]
      by_cases astray : s.frame.ip + distance.toInt < 0 ∨
          (s.frame.method.code.length : Int) ≤ s.frame.ip + distance.toInt
      · simp only [astray, ↓reduceIte]
        exact .fails (.astray rfl astray)
      · simp only [astray, ↓reduceIte]
        exact .jumps rfl (by simp; omega) (by simp; omega) (moved _)

end Executes

/-- Every instruction does what `Executes` says, in any code and on any stack. -/
theorem execute_executes {s : State} (inside : s.stack.floor ≤ s.stack.values.size) (c : Class)
    (limits : Limits) (i : Instruction) : Executes c limits i s (s.execute c limits i) := by
  cases i with
  | stack op =>
    simp only [execute, StateT.run, bind, Except.bind]
    cases performed : Stack.perform op s.stack with
    | error fault => exact .starved (Stack.Effect.perform op) inside performed
    | ok r =>
      obtain ⟨enough, size⟩ := (Stack.Effect.perform op).moves inside performed
      exact .passes rfl rfl
        ⟨rfl, rfl, rfl, rfl, (Stack.Effect.perform op).floor performed, enough, size⟩
  | constInt | constDouble => exact .push rfl rfl rfl inside _
  | constText index =>
    simp only [execute]
    cases found : c.constants.strings[index.toNat]? with
    | none => exact .fails (.noText rfl found)
    | some text => exact .push rfl rfl rfl inside _
  | constLong index =>
    simp only [execute]
    cases found : c.constants.integers[index.toNat]? with
    | none => exact .fails (.noLong rfl found)
    | some n => exact .push rfl rfl rfl inside _
  | load slot => exact .load rfl rfl rfl rfl inside
  | store slot => exact .store rfl rfl rfl rfl inside
  | loadFixed slot =>
    refine .load rfl ?_ ?_ rfl inside
    · revert slot; decide
    · revert slot; decide
  | storeFixed slot =>
    refine .store rfl ?_ ?_ rfl inside
    · revert slot; decide
    · revert slot; decide
  | jump condition distance => exact .jump inside
  | call index args => exact .call inside
  | returnValue =>
    simp only [execute, StateT.run, bind, Except.bind]
    cases popped : Stack.pop s.stack with
    | error fault => exact .starved Stack.Effect.pop inside popped
    | ok r =>
      obtain ⟨enough, size⟩ := Stack.Effect.pop.moves inside popped
      have floor := Stack.Effect.pop.floor popped
      exact .leave rfl enough floor (by omega) r.1
  | returnVoid =>
    have enough : s.stack.floor + Instruction.returnVoid.pops ≤ s.stack.values.size := inside
    exact .leave (s := s) rfl enough rfl inside .null
  | throw =>
    simp only [execute, StateT.run, bind, Except.bind]
    cases popped : Stack.pop s.stack with
    | error fault => exact .starved Stack.Effect.pop inside popped
    | ok r => exact .fails (.thrown rfl)
  | trap code => exact .fails (.trapped rfl)

/-- A step fails to fetch, or it executes the instruction that it fetches. -/
theorem step_executes {s : State} (inside : s.stack.floor ≤ s.stack.values.size) (c : Class)
    (limits : Limits) :
    (∃ fault, s.frame.fetch = .error fault ∧ s.step c limits = .error fault) ∨
      ∃ i next, s.frame.fetch = .ok (i, next) ∧
        Executes c limits i { s with frame.ip := next } (s.step c limits) := by
  cases fetched : s.frame.fetch with
  | error fault => exact .inl ⟨fault, rfl, by simp only [step, fetched, bind, Except.bind]⟩
  | ok r =>
    refine .inr ⟨r.1, r.2, rfl, ?_⟩
    rw [step_of_fetch fetched]
    exact execute_executes (s := { s with frame.ip := r.2 }) inside c limits r.1

/-- A step that does not fail executes the instruction that it fetches. -/
theorem executes_of_step {c : Class} {limits : Limits} {s : State} {progress : Progress}
    (inside : s.stack.floor ≤ s.stack.values.size) (step : s.step c limits = .ok progress) :
    ∃ i next, s.frame.fetch = .ok (i, next) ∧
      Executes c limits i { s with frame.ip := next } (.ok progress) := by
  rcases step_executes inside c limits with ⟨fault, _, failed⟩ | ⟨i, next, fetched, executes⟩
  · rw [step] at failed
    cases failed
  · exact ⟨i, next, fetched, step ▸ executes⟩

end State

end Rowwise
