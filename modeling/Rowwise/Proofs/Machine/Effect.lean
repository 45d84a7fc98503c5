import Rowwise.Machine.State

/-! What computations on the operand stack do to its size, how they can fail, and that values below
the floor neither matter to them nor change. The facts travel together, so that each operation is
looked at once. -/
namespace Rowwise

/-- Faults that depend on the data that code works on. -/
def Fault.OfData : Fault → Prop
  | .typeMismatch _ _ _ | .divisionByZero | .indexOutOfBounds _ _ => True
  | _ => False

namespace Stack

def onto (base : Array Value) (s : Stack) : Stack := ⟨base ++ s.values, base.size + s.floor⟩

/-- The computation takes `pops` values above the floor and leaves `pushes` in their place. -/
structure Effect (m : StackM α) (pops pushes : Nat) : Prop where
  floor : ∀ {s t : Stack} {a : α}, m s = .ok (a, t) → t.floor = s.floor
  moves : ∀ {s t : Stack} {a : α}, s.floor ≤ s.values.size → m s = .ok (a, t) →
    s.floor + pops ≤ s.values.size ∧ t.values.size + pops = s.values.size + pushes
  faults : ∀ {s : Stack} {fault : Fault}, s.floor ≤ s.values.size → m s = .error fault →
    fault.OfData ∨ (fault = .stackUnderflow ∧ s.values.size < s.floor + pops)
  frame : ∀ base s, m (s.onto base) = (m s).map fun r => (r.1, r.2.onto base)

theorem bind_apply (m : StackM α) (f : α → StackM β) (s : Stack) :
    (m >>= f) s = match m s with
      | .ok (a, t) => f a t
      | .error fault => .error fault := by
  change (m s).bind (fun r => f r.1 r.2) = _
  cases m s <;> rfl

theorem shrink_append (base values : Array Value) (n : Nat) :
    (base ++ values).shrink (base.size + n) = base ++ values.shrink n := by
  have whole : base.extract 0 (base.size + n) = base := Array.extract_eq_self_of_le (by omega)
  rw [Array.shrink_eq_take, Array.shrink_eq_take]
  simp [Array.extract_append, whole]

namespace Effect

theorem pure (a : α) : Effect (Pure.pure a : StackM α) 0 0 where
  floor ok := by cases ok; rfl
  moves inside ok := by cases ok; exact ⟨inside, rfl⟩
  faults _ error := by cases error
  frame _ _ := rfl

theorem throw {fault : Fault} (data : fault.OfData) (pops pushes : Nat) :
    Effect (MonadExcept.throw fault : StackM α) pops pushes where
  floor ok := by cases ok
  moves _ ok := by cases ok
  faults _ error := by cases error; exact .inl data
  frame _ _ := rfl

/-- What is computed without the stack leaves it alone. -/
theorem lift {x : Except Fault α} (data : ∀ fault, x = .error fault → fault.OfData) :
    Effect (liftM x : StackM α) 0 0 := by
  cases x with
  | ok a => exact pure a
  | error fault => exact throw (data fault rfl) 0 0

/-- One after the other: what the second takes beyond what the first left comes from below. -/
theorem bind {m : StackM α} {f : α → StackM β} {p q p' q' : Nat} (first : Effect m p q)
    (second : ∀ a, Effect (f a) p' q') : Effect (m >>= f) (p + (p' - q)) (q' + (q - p')) where
  floor {s u b} ok := by
    rw [bind_apply] at ok
    cases run : m s with
    | error fault => simp [run] at ok
    | ok r =>
      simp only [run] at ok
      exact ((second r.1).floor ok).trans (first.floor run)
  moves {s u b} inside ok := by
    rw [bind_apply] at ok
    cases run : m s with
    | error fault => simp [run] at ok
    | ok r =>
      simp only [run] at ok
      have floor := first.floor run
      have size := first.moves inside run
      have size' := (second r.1).moves (by omega) ok
      omega
  faults {s fault} inside error := by
    rw [bind_apply] at error
    cases run : m s with
    | error e =>
      simp only [run, Except.error.injEq] at error
      subst error
      exact (first.faults inside run).imp_right fun short => ⟨short.1, by omega⟩
    | ok r =>
      simp only [run] at error
      have floor := first.floor run
      have size := first.moves inside run
      exact ((second r.1).faults (by omega) error).imp_right fun short => ⟨short.1, by omega⟩
  frame base s := by
    rw [bind_apply, bind_apply, first.frame base s]
    cases m s with
    | error fault => rfl
    | ok r => exact (second r.1).frame base r.2

theorem push (v : Value) : Effect (Stack.push v) 0 1 where
  floor ok := by cases ok; rfl
  moves inside ok := by cases ok; exact ⟨inside, by simp⟩
  faults _ error := by cases error
  frame base s := by simp [Stack.push, onto, Except.map]

theorem pop : Effect Stack.pop 1 0 where
  floor ok := by
    simp only [Stack.pop] at ok
    split at ok <;> cases ok
    rfl
  moves _ ok := by
    simp only [Stack.pop] at ok
    split at ok <;> cases ok
    simp; omega
  faults _ error := by
    simp only [Stack.pop] at error
    split at error <;> cases error
    exact .inr ⟨rfl, by omega⟩
  frame base s := by
    simp only [Stack.pop, onto, Array.size_append]
    by_cases empty : s.values.size ≤ s.floor
    · rw [if_pos (by omega), if_pos empty]; rfl
    · have filled : s.values ≠ #[] := by
        intro none
        simp [none] at empty
      rw [if_neg (by omega), if_neg empty, Array.pop_append_of_ne_empty filled, Array.back?_append]
      cases last : s.values.back? with
      | none => exact absurd (Array.back?_eq_none_iff.mp last) filled
      | some v => rfl

theorem popMany (n : Nat) : Effect (Stack.popMany n) n 0 where
  floor ok := by
    simp only [Stack.popMany] at ok
    split at ok <;> cases ok
    rfl
  moves _ ok := by
    simp only [Stack.popMany] at ok
    split at ok <;> cases ok
    simp; omega
  faults _ error := by
    simp only [Stack.popMany] at error
    split at error <;> cases error
    exact .inr ⟨rfl, by omega⟩
  frame base s := by
    simp only [Stack.popMany, onto, Array.size_append]
    by_cases few : s.values.size < s.floor + n
    · rw [if_pos (by omega), if_pos few]; rfl
    · have split : base.size + s.values.size - n = base.size + (s.values.size - n) := by omega
      have top : (base ++ s.values).extract (base.size + (s.values.size - n))
          (base.size + s.values.size) = s.values.extract (s.values.size - n) s.values.size := by
        simp [Array.extract_append]
      rw [if_neg (by omega), if_neg few, split, shrink_append, top]
      rfl

theorem popAs (op : Opcode) (expected : Kind) (view : Value → Option α) :
    Effect (Stack.popAs op expected view) 1 0 := by
  refine @bind _ _ _ _ 1 0 0 0 pop fun v => ?_
  cases view v with
  | some a => exact pure a
  | none => exact throw (by trivial) 0 0

theorem unary {operand : StackM α} (one : Effect operand 1 0) (f : α → Value) :
    Effect (do Stack.push (f (← operand))) 1 1 := by
  have effect := one.bind fun a => push (f a)
  exact effect

theorem binary {operand : StackM α} (one : Effect operand 1 0) {f : α → α → Except Fault Value}
    (data : ∀ a b fault, f a b = .error fault → fault.OfData) :
    Effect (Stack.binary operand f) 2 1 := by
  have effect := one.bind fun b => one.bind fun a => (lift (data a b)).bind push
  exact effect

theorem total {operand : StackM α} (one : Effect operand 1 0) (f : α → α → Value) :
    Effect (Stack.binary operand fun a b => .ok (f a b)) 2 1 :=
  one.binary fun _ _ _ error => by cases error

theorem element (op : Opcode) : Effect (Stack.element op) 2 1 := by
  refine @bind _ _ _ _ 1 0 1 1 (popAs op .int Value.asInt?) fun index => ?_
  refine @bind _ _ _ _ 1 0 0 1 (popAs op .array Value.asArray?) fun items => ?_
  split
  · exact push _
  · exact throw (by trivial) 0 1

theorem onInt_data (op : Arithmetic) (a b : Int32) (fault : Fault)
    (error : (op.onInt a b).map Value.int = .error fault) : fault.OfData := by
  cases op <;> simp only [Arithmetic.onInt] at error
  case div | rem => split at error <;> cases error; trivial
  all_goals cases error

theorem onLong_data (op : Arithmetic) (a b : Int64) (fault : Fault)
    (error : (op.onLong a b).map Value.long = .error fault) : fault.OfData := by
  cases op <;> simp only [Arithmetic.onLong] at error
  case div | rem => split at error <;> cases error; trivial
  all_goals cases error

/-- Every operation does to the stack what its entry in the instruction set says. -/
theorem perform (op : Operation) :
    Effect (Stack.perform op) (Opcode.stack op).entry.pops (Opcode.stack op).entry.pushes := by
  cases op with
  | nop => exact pure ()
  | pop => have effect := pop.bind fun _ => pure (); exact effect
  | dup => have effect := pop.bind fun v => (push v).bind fun _ => push v; exact effect
  | swap =>
    have effect := pop.bind fun b => pop.bind fun a => (push b).bind fun _ => push a
    exact effect
  | null => exact push _
  | boolean value => cases value <;> exact push _
  | int op => cases op <;> exact (popAs _ _ _).binary (onInt_data _)
  | long op => cases op <;> exact (popAs _ _ _).binary (onLong_data _)
  | double op => cases op <;> exact (popAs _ _ _).total _
  | convert conversion => cases conversion <;> exact (popAs _ _ _).unary _
  | compareInt op | compareDouble op => cases op <;> exact (popAs _ _ _).total _
  | negateInt | negateLong | negateDouble | not | length | arrayLength =>
    exact (popAs _ _ _).unary _
  | orderLong | and | or | equalText => exact (popAs _ _ _).total _
  | equal | notEqual | concat => exact pop.total _
  | toText => exact pop.unary fun v => .string v.text
  | element => exact element _

theorem test (condition : Condition) :
    Effect condition.test (Opcode.jumpEntry condition).pops 0 := by
  cases condition with
  | always => exact pure true
  | ifTrue => exact popAs _ _ _
  | ifFalse =>
    have effect := (popAs (.jump .ifFalse) .boolean Value.asBoolean?).bind fun b => pure (!b)
    exact effect
  | ifNull => have effect := pop.bind fun v => pure v.isNull; exact effect
  | ifNotNull => have effect := pop.bind fun v => pure (!v.isNull); exact effect

end Effect

end Stack

end Rowwise
