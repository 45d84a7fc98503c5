import Rowwise.Proofs.Machine.Discipline
import Rowwise.Proofs.Machine.Limit

/-! Verified code without backward jumps. Its runs end, however its methods call each other. What is
left to do is written as a number: each live frame gives a digit, the bytes of its code that lie
ahead, and inner frames give the lower digits. A call pays for all digits of the frame that it adds
with the one that it takes off its caller's. -/
namespace Rowwise

def Instruction.isForward : Instruction → Bool
  | .jump _ distance => 0 ≤ distance.toInt
  | _ => true

def Class.Forward (c : Class) : Prop :=
  ∀ m ∈ c.methods, ∀ code, m.instructions = .ok code → ∀ p ∈ code, p.instruction.isForward

instance (c : Class) : Decidable c.Forward :=
  decidable_of_iff
    (∀ m ∈ c.methods, ∀ p ∈ m.instructions.toOption.getD [], p.instruction.isForward)
    (forall₂_congr fun m _ => by cases m.instructions <;> simp [Except.toOption])

def Class.longest (c : Class) : Nat := c.methods.foldr (fun m most => max m.code.length most) 0

theorem Class.length_le_longest {c : Class} {m : Method} (member : m ∈ c.methods) :
    m.code.length ≤ c.longest := by
  unfold longest
  generalize c.methods = methods at member
  induction methods with
  | nil => cases member
  | cons n later ih =>
    rcases List.mem_cons.mp member with rfl | member
    · exact Nat.le_max_left _ _
    · exact Nat.le_trans (ih member) (Nat.le_max_right _ _)

def Frame.ahead (f : Frame) : Nat := f.method.code.length - f.ip

theorem Frame.ahead_lt {f g : Frame} (method : g.method = f.method) (further : f.ip < g.ip)
    (inside : f.ip < f.method.code.length) : g.ahead < f.ahead := by
  simp only [ahead, method]; omega

/-- The number with the digits of the frames, the innermost first. The outermost frame has the
digit in front of `limit - 1` others, so there is a place for every frame within the limit. -/
def weigh (base limit : Nat) : List Frame → Nat
  | [] => 0
  | f :: callers => f.ahead * base ^ (limit - (callers.length + 1)) + weigh base limit callers

section Weigh

variable {base limit : Nat} {f g h : Frame} {callers : List Frame}

theorem weigh_move (positive : 0 < base) (less : g.ahead < f.ahead) :
    weigh base limit (g :: callers) < weigh base limit (f :: callers) :=
  Nat.add_lt_add_right (Nat.mul_lt_mul_of_pos_right less (Nat.pow_pos positive)) _

theorem weigh_leave (positive : 0 < base) (inside : 0 < f.ahead) :
    weigh base limit callers < weigh base limit (f :: callers) :=
  Nat.lt_add_of_pos_left (Nat.mul_pos inside (Nat.pow_pos positive))

/-- The new frame gets a lower place, where its digit counts less than one of its caller's. -/
theorem weigh_enter (small : h.ahead < base) (less : g.ahead < f.ahead)
    (room : callers.length + 2 ≤ limit) :
    weigh base limit (h :: g :: callers) < weigh base limit (f :: callers) := by
  obtain ⟨place, rfl⟩ : ∃ place, limit = place + (callers.length + 2) :=
    ⟨limit - (callers.length + 2), by omega⟩
  have lower : place + (callers.length + 2) - (callers.length + 1 + 1) = place := by omega
  have higher : place + (callers.length + 2) - (callers.length + 1) = place + 1 := by omega
  simp only [weigh, List.length_cons, lower, higher]
  rw [← Nat.add_assoc]
  refine Nat.add_lt_add_right ?_ _
  calc h.ahead * base ^ place + g.ahead * base ^ (place + 1)
      < base * base ^ place + g.ahead * base ^ (place + 1) :=
        Nat.add_lt_add_right
          (Nat.mul_lt_mul_of_pos_right small (Nat.pow_pos (Nat.zero_lt_of_lt small))) _
    _ = (g.ahead + 1) * base ^ (place + 1) := by rw [Nat.succ_mul, Nat.pow_succ']; omega
    _ ≤ f.ahead * base ^ (place + 1) := Nat.mul_le_mul_right _ less

end Weigh

namespace State

variable {c : Class} {limits : Limits} {s t : State}

/-- Any number that every step makes smaller is as many steps as a run can take. -/
theorem run_of_measure {P : State → Prop} (measure : State → Nat)
    (falls : ∀ {s t : State}, P s → s.step c limits = .ok (.running t) →
      P t ∧ measure t < measure s)
    (holds : P s) {fuel : Nat} (enough : measure s < fuel) :
    ∃ answer, s.run c limits fuel = some answer := by
  induction fuel generalizing s with
  | zero => exact absurd enough (Nat.not_lt_zero _)
  | succ fuel ih =>
    simp only [run]
    cases step : s.step c limits with
    | error fault => exact ⟨_, rfl⟩
    | ok progress =>
      cases progress with
      | finished result => exact ⟨_, rfl⟩
      | running next =>
        obtain ⟨holds, less⟩ := falls holds step
        exact ih holds (by omega)

def weight (c : Class) (limits : Limits) (s : State) : Nat :=
  weigh (c.longest + 1) limits.maxCallDepth (s.frame :: s.callers)

theorem weight_step (verified : c.verify = .ok ()) (forward : c.Forward) (valid : s.Invariant c)
    (step : s.step c limits = .ok (.running t)) : t.weight c limits < s.weight c limits := by
  obtain ⟨code, i, p, checked, here, stands, -, executes⟩ := valid.fetches verified limits
  have member := List.mem_of_getElem? here
  have inside : s.frame.ip < s.frame.method.code.length := stands ▸ checked.offset_lt member
  have further := p.lt_next
  have listed := Method.instructions_of_listing checked.listed
  rw [step] at executes
  unfold weight
  cases executes with
  | passes _ ip within =>
    rw [within.callers]
    refine weigh_move (Nat.succ_pos _) (Frame.ahead_lt within.method ?_ inside)
    simp only at ip; omega
  | jumps jump ip _ within =>
    have onward := forward _ valid.running.member code listed p member
    rw [jump] at onward
    have distance_nonneg := of_decide_eq_true onward
    rw [within.callers]
    refine weigh_move (Nat.succ_pos _) (Frame.ahead_lt within.method ?_ inside)
    simp only at ip; omega
  | enters _ found room _ _ method ip _ _ callers =>
    have short := Class.length_le_longest (List.mem_of_getElem? found)
    have small : t.frame.ahead < c.longest + 1 := by simp only [Frame.ahead, method, ip]; omega
    rw [callers]
    refine weigh_enter small (Frame.ahead_lt rfl ?_ inside) room
    simp only; omega
  | leaves _ _ callers frame rest =>
    rw [frame, rest, ← callers]
    exact weigh_leave (Nat.succ_pos _) (by simp only [Frame.ahead]; omega)

theorem start_weight {index : Nat} {args : List Value}
    (started : start c limits index args = .ok s) :
    s.weight c limits < (c.longest + 1) ^ limits.maxCallDepth := by
  have shallow := start_shallow started
  obtain ⟨m, frame, found, entered, rfl⟩ := start_ok started
  obtain ⟨-, method, ip, -, -⟩ := Frame.enter_ok entered
  have short := Class.length_le_longest (List.mem_of_getElem? found)
  have small : frame.ahead < c.longest + 1 := by simp only [Frame.ahead, method, ip]; omega
  simp only [Shallow, List.length_nil, Nat.zero_add] at shallow
  calc weight c limits ⟨frame, [], {}⟩
      = frame.ahead * (c.longest + 1) ^ (limits.maxCallDepth - 1) := rfl
    _ < (c.longest + 1) * (c.longest + 1) ^ (limits.maxCallDepth - 1) :=
        Nat.mul_lt_mul_of_pos_right small (Nat.pow_pos (Nat.succ_pos _))
    _ = (c.longest + 1) ^ limits.maxCallDepth := by
        rw [← Nat.pow_succ', Nat.succ_eq_add_one, Nat.sub_add_cancel shallow]

end State

/-- Recursion alone does not run forever. Every invocation of a verified class without backward
jumps ends, within a number of steps that the longest code and the limit on calls give, however its
methods call each other or themselves. -/
theorem forward_code_ends {c : Class} (verified : c.verify = .ok ()) (forward : c.Forward)
    (limits : Limits) (index : Nat) (args : List Value) :
    ∃ answer, c.invoke limits ((c.longest + 1) ^ limits.maxCallDepth) index args = some answer := by
  unfold Class.invoke
  cases started : State.start c limits index args with
  | error fault => exact ⟨_, rfl⟩
  | ok first =>
    exact State.run_of_measure (P := State.Invariant c) (State.weight c limits)
      (fun valid step => ⟨valid.step verified step, State.weight_step verified forward valid step⟩)
      (State.start_invariant verified started) (State.start_weight started)

def echoes : Class where
  name := "Echoes"
  methods :=
    [{ name := "ping", params := ["int"], returns := "int", locals := 1,
       code :=
         [0x12, 0x93, 0, 0, 0, 0, 0x12, 0xA6, 1, 0, 0, 0, 1, 0, 0xA6, 1, 0, 0, 0, 1, 0, 0xA2] },
     { name := "pong", params := ["int"], returns := "int", locals := 1,
       code := [0x12, 0xA6, 0, 0, 0, 0, 1, 0, 0xA6, 0, 0, 0, 0, 1, 0, 0xA2] }]

theorem echoes_die_away :
    echoes.verify = .ok () ∧ echoes.Forward ∧
      ∃ answer, echoes.invoke {} (23 ^ 256) 0 [.int 7] = some answer := by
  have verified : echoes.verify = .ok () := by cbv
  have forward : echoes.Forward := by decide +kernel
  exact ⟨verified, forward, forward_code_ends verified forward {} 0 [.int 7]⟩

end Rowwise
