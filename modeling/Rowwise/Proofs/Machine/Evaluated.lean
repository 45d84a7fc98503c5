import Rowwise.Proofs.Machine.Step

/-! Operations as functions of their operands, apart from the code that they stand in and from the
rest of the state. -/
namespace Rowwise

/-- Wherever the operation comes next with these operands on top of the stack, the last of them
uppermost, a step puts a value in their place or fails, and changes nothing else. -/
def Operation.Evaluates (op : Operation) (operands : List Value)
    (outcome : Except Fault Value) : Prop :=
  ∀ (c : Class) (limits : Limits) (s : State) (next : Nat) (below : Array Value),
    s.frame.fetch = .ok (.stack op, next) → s.stack.floor ≤ below.size →
    s.stack.values = below ++ operands →
    s.step c limits = outcome.map fun v =>
      .running { s with frame.ip := next, stack.values := below.push v }

variable {α : Type} {v w : Value} {a b : α}

namespace Stack

def Takes (operand : StackM α) (v : Value) (a : α) : Prop :=
  ∀ {below : Array Value} {floor : Nat}, floor ≤ below.size →
    operand ⟨below.push v, floor⟩ = .ok (a, ⟨below, floor⟩)

theorem takes_pop (v : Value) : Takes pop v v := by
  intro below floor inside
  have above : ¬ (below.push v).size ≤ floor := by
    rw [Array.size_push]
    omega
  simp only [pop, above, ↓reduceIte, Array.back?_push, Array.pop_push, Option.getD_some]

theorem takes_popAs {op : Opcode} {expected : Kind} {view : Value → Option α}
    (seen : view v = some a) : Takes (popAs op expected view) v a := by
  intro below floor inside
  rw [popAs, bind_apply, takes_pop v inside]
  simp only [seen]
  rfl

variable {operand : StackM α}

theorem Takes.unary (takes : Takes operand v a) (f : α → Value) {below : Array Value} {floor : Nat}
    (inside : floor ≤ below.size) :
    (do push (f (← operand)) : StackM Unit) ⟨below.push v, floor⟩ =
      .ok ((), ⟨below.push (f a), floor⟩) := by
  rw [bind_apply, takes inside]
  rfl

theorem Takes.binary (left : Takes operand v a) (right : Takes operand w b)
    (f : α → α → Except Fault Value) {below : Array Value} {floor : Nat}
    (inside : floor ≤ below.size) :
    Stack.binary operand f ⟨(below.push v).push w, floor⟩ =
      (f a b).map fun u => ((), ⟨below.push u, floor⟩) := by
  have room : floor ≤ (below.push v).size := by
    rw [Array.size_push]
    omega
  rw [Stack.binary, bind_apply, right room]
  simp only [bind_apply, left inside]
  cases f a b <;> rfl

end Stack

namespace Operation.Evaluates

variable {op : Operation} {operands : List Value} {outcome other : Except Fault Value}
  {operand : StackM α}

theorem of_perform
    (performs : ∀ {below : Array Value} {floor : Nat}, floor ≤ below.size →
      Stack.perform op ⟨below ++ operands, floor⟩ =
        outcome.map fun v => ((), ⟨below.push v, floor⟩)) :
    op.Evaluates operands outcome := by
  intro c limits s next below fetched inside values
  obtain ⟨frame, callers, stack, floor⟩ := s
  simp only at values inside
  subst values
  rw [State.step_of_fetch fetched]
  simp only [State.execute, StateT.run, performs inside]
  cases outcome <;> rfl

theorem of_unary {f : α → Value} (performs : Stack.perform op = do Stack.push (f (← operand)))
    (takes : Stack.Takes operand v a) : op.Evaluates [v] (.ok (f a)) := by
  refine of_perform fun {below} _ inside => ?_
  have pushed : below ++ [v] = below.push v := by simp
  rw [performs, pushed]
  exact takes.unary f inside

theorem of_binary {f : α → α → Except Fault Value}
    (performs : Stack.perform op = Stack.binary operand f) (left : Stack.Takes operand v a)
    (right : Stack.Takes operand w b) : op.Evaluates [v, w] (f a b) := by
  refine of_perform fun {below} _ inside => ?_
  have pushed : below ++ [v, w] = (below.push v).push w := by simp
  rw [performs, pushed]
  exact left.binary right f inside

/-- Some state has the operation next and these operands on its stack, so their outcome is one. -/
theorem unique (evaluates : op.Evaluates operands outcome)
    (evaluates' : op.Evaluates operands other) : outcome = other := by
  let c : Class := { name := "" }
  let m : Method :=
    { name := "", params := [], returns := "", locals := 0, code := (Instruction.stack op).encode }
  let s : State := ⟨⟨m, 0, #[], 0⟩, [], ⟨operands.toArray, 0⟩⟩
  have fetched := Frame.fetch_encode (f := s.frame) (i := .stack op) (List.append_nil _).symm
  have values : s.stack.values = (#[] : Array Value) ++ operands := by simp [s]
  have first := evaluates c {} s _ #[] fetched (Nat.zero_le _) values
  have second := evaluates' c {} s _ #[] fetched (Nat.zero_le _) values
  rw [first] at second
  cases outcome <;> cases other <;> simp_all [Except.map]

end Operation.Evaluates

end Rowwise
