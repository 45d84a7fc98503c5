import Mathlib
import Rowwise.Proofs.Machine.Floors
import Rowwise.Proofs.Verify.Accepted

/-! Runs of a class that verification accepts. Every live frame stands at an instruction, with the
depth that the walk saw there; so no run ends because its code is broken, and the stack is bounded
by the number of frames. -/
namespace Rowwise

/-- Faults that tell of broken code. -/
def Fault.Structural : Fault → Prop
  | .stackUnderflow | .invalidOpcode _ | .unexpectedEnd _ | .invalidJump _ | .invalidLocal _
  | .tooManyLocals _ | .invalidConstant _ | .invalidCallTarget _ => True
  | _ => False

theorem Fault.OfData.not_structural {fault : Fault} (data : fault.OfData) :
    ¬ fault.Structural := by
  cases fault <;> first | exact id | exact absurd data id

def Method.depthAt (m : Method) (offset : Nat) : Option Nat :=
  match m.instructions with
  | .error _ => none
  | .ok code =>
    match stackDepths code, Visit.indexOf? code offset with
    | .ok depths, some i => depths[i]?.join
    | _, _ => none

/-- The frame is about to execute an instruction that a path reaches with this depth. -/
structure Frame.Stands (c : Class) (f : Frame) (depth : Nat) : Prop where
  member : f.method ∈ c.methods
  locals : f.method.locals ≤ f.locals.size
  reached : ∃ code i p, listing 0 f.method.code = .ok code ∧ code[i]? = some p ∧
    p.offset = f.ip ∧ Reached code ⟨i, depth⟩

/-- The callers wait, the innermost first, for one value above what they left below the floor. -/
def Suspended (c : Class) : (floor savedFloor : Nat) → List Frame → Prop
  | _, _, [] => True
  | floor, savedFloor, caller :: callers =>
      caller.Stands c (floor - savedFloor + 1) ∧ Suspended c savedFloor caller.savedFloor callers

/-- What holds whenever the machine is about to fetch an instruction. -/
structure State.Invariant (c : Class) (s : State) : Prop where
  grounded : s.Grounded
  running : s.frame.Stands c s.stack.depth
  suspended : Suspended c s.stack.floor s.frame.savedFloor s.callers

theorem Frame.Stands.depth_le {c : Class} {f : Frame} {depth : Nat} (stands : f.Stands c depth) :
    depth ≤ maxDepth := by
  obtain ⟨code, i, p, _, _, _, reached⟩ := stands.reached
  exact reached.depth_le

theorem Frame.Stands.depthAt {c : Class} {f : Frame} {depth : Nat} (verified : c.verify = .ok ())
    (stands : f.Stands c depth) : f.method.depthAt f.ip = some depth := by
  obtain ⟨code, i, p, listed, here, at_ip, reached⟩ := stands.reached
  obtain ⟨code', checked⟩ := c.verified_of_mem verified stands.member
  obtain rfl : code = code' := Except.ok.inj (listed.symm.trans checked.listed)
  have distinct := (Placed.gapless_of_listing listed).1.distinct
  have truthful := stackDepths_truthful distinct
  obtain ⟨depths, walked⟩ := truthful.accepts_iff.mpr checked.rules
  rw [walked] at truthful
  have recorded := (truthful.2 ⟨i, depth⟩).mpr reached
  simp only [Method.depthAt, Method.instructions_of_listing listed, walked, ← at_ip,
    Visit.indexOf?_offset distinct here, recorded, Option.join_some]

theorem Suspended.stands {c : Class} {floor savedFloor : Nat} {callers : List Frame}
    (suspended : Suspended c floor savedFloor callers) {f : Frame} (member : f ∈ callers) :
    ∃ depth, f.Stands c depth := by
  induction callers generalizing floor savedFloor with
  | nil => cases member
  | cons caller callers ih =>
    obtain ⟨stands, rest⟩ := suspended
    rcases List.mem_cons.mp member with rfl | member
    · exact ⟨_, stands⟩
    · exact ih rest member

theorem Suspended.floor_le {c : Class} {floor savedFloor : Nat} {callers : List Frame}
    (suspended : Suspended c floor savedFloor callers)
    (floors : Descending floor savedFloor callers) : floor ≤ maxDepth * callers.length := by
  induction callers generalizing floor savedFloor with
  | nil => exact Nat.le_of_eq floors
  | cons caller callers ih =>
    obtain ⟨stands, rest⟩ := suspended
    -- the caller keeps at most `maxDepth` values between its own floor and the one above
    have here := stands.depth_le
    have deeper := ih rest floors.2
    rw [List.length_cons, Nat.mul_succ]
    omega

namespace Method.Verified

variable {c : Class} {m : Method} {code : List Placed} {i depth : Nat} {p : Placed}

/-- Control that passes an instruction finds the next one, and paths go the same way. -/
theorem following (checked : m.Verified c code) (here : code[i]? = some p)
    (reached : Reached code ⟨i, depth⟩) (through : p.instruction.opcode.fallsThrough = true) :
    ∃ q, code[i + 1]? = some q ∧ q.offset = p.next ∧
      Reached code ⟨i + 1, depth - p.instruction.pops + p.instruction.pushes⟩ := by
  have permitted := checked.rules.permitted _ p reached here
  have inside := permitted.continues through
  have after : code[i + 1]? = some code[i + 1] := List.getElem?_eq_getElem inside
  have gapless := (Placed.gapless_of_listing checked.listed).1
  exact ⟨_, after, gapless.adjacent here after,
    reached.next (.fall here permitted.admitted through inside)⟩

/-- A jump finds an instruction, and paths go the same way. -/
theorem landing (checked : m.Verified c code) (here : code[i]? = some p)
    (reached : Reached code ⟨i, depth⟩) {condition : Condition} {distance : Int32}
    (jump : p.instruction = .jump condition distance) :
    ∃ j q, code[j]? = some q ∧ (q.offset : Int) = p.next + distance.toInt ∧
      Reached code ⟨j, depth - p.instruction.pops + p.instruction.pushes⟩ := by
  have permitted := checked.rules.permitted _ p reached here
  have target : p.target? = some (p.next + distance.toInt) := by simp [Placed.target?, jump]
  obtain ⟨q, member, lands⟩ := permitted.lands _ target
  obtain ⟨j, there⟩ := List.mem_iff_getElem?.mp member
  exact ⟨j, q, there, lands,
    reached.next (.jump here permitted.admitted (by rw [target, lands]) there)⟩

theorem offset_lt (checked : m.Verified c code) (member : p ∈ code) : p.offset < m.code.length := by
  obtain ⟨gapless, spelled⟩ := Placed.gapless_of_listing checked.listed
  exact spelled ▸ gapless.offset_lt_length member

/-- A verified method can be entered: its code does not begin with its end. -/
theorem entry (checked : m.Verified c code) :
    ∃ p, code[0]? = some p ∧ p.offset = 0 := by
  have filled : 0 < code.length := List.length_pos_iff.mpr checked.rules.nonempty
  have first : code[0]? = some code[0] := List.getElem?_eq_getElem filled
  exact ⟨_, first, (Placed.gapless_of_listing checked.listed).1.head first⟩

end Method.Verified

namespace State

variable {c : Class} {limits : Limits} {s t : State}

/-- In a state that keeps the invariant the next step executes a listed instruction, and what
verification knows about that instruction holds. -/
theorem Invariant.fetches (verified : c.verify = .ok ()) (valid : s.Invariant c)
    (limits : Limits) :
    ∃ code i p, s.frame.method.Verified c code ∧ code[i]? = some p ∧ p.offset = s.frame.ip ∧
      Reached code ⟨i, s.stack.depth⟩ ∧ Executes c limits p.instruction
        { s with frame.ip := p.next } (s.step c limits) := by
  obtain ⟨code, i, p, listed, here, stands, reached⟩ := valid.running.reached
  obtain ⟨code', checked⟩ := c.verified_of_mem verified valid.running.member
  obtain rfl : code = code' := Except.ok.inj (listed.symm.trans checked.listed)
  have fetched := Frame.fetch_of_listing listed (List.mem_of_getElem? here) stands.symm
  refine ⟨code, i, p, checked, here, stands, reached, ?_⟩
  rw [step_of_fetch fetched]
  exact execute_executes (s := { s with frame.ip := p.next }) valid.grounded.inside c limits _

theorem Invariant.move (valid : s.Invariant c) (grounded : t.Grounded) {code : List Placed}
    {j : Nat} {p q : Placed} (checked : s.frame.method.Verified c code)
    (inside : Inside p.instruction { s with frame.ip := p.next } t)
    (there : code[j]? = some q) (stands : q.offset = t.frame.ip)
    (reached : Reached code
      ⟨j, s.stack.depth - p.instruction.pops + p.instruction.pushes⟩) : t.Invariant c := by
  obtain ⟨method, savedFloor, locals, callers, floor, enough, size⟩ := inside
  have depth : t.stack.depth = s.stack.depth - p.instruction.pops + p.instruction.pushes := by
    simp only [Stack.depth] at *
    omega
  refine ⟨grounded, ⟨?_, ?_, code, j, q, ?_, there, stands, ?_⟩, ?_⟩
  · exact method ▸ valid.running.member
  · exact method ▸ locals ▸ valid.running.locals
  · exact method ▸ checked.listed
  · exact depth ▸ reached
  · exact floor ▸ savedFloor ▸ callers ▸ valid.suspended

theorem Invariant.step (verified : c.verify = .ok ()) (valid : s.Invariant c)
    (step : s.step c limits = .ok (.running t)) : t.Invariant c := by
  obtain ⟨code, i, p, checked, here, -, reached, executes⟩ := valid.fetches verified limits
  have grounded := valid.grounded.step step
  rw [step] at executes
  cases executes with
  | passes through ip inside =>
    obtain ⟨q, there, offset, onward⟩ := checked.following here reached through
    exact valid.move grounded checked inside there (offset.trans ip.symm) onward
  | jumps jump ip _ inside =>
    obtain ⟨j, q, there, offset, onward⟩ := checked.landing here reached jump
    exact valid.move grounded checked inside there (by simp only at ip; omega) onward
  | @enters index args m _ call found _ enough _ method ip locals savedFloor callers floor size =>
    have through : p.instruction.opcode.fallsThrough = true := by rw [call]; rfl
    obtain ⟨q, there, offset, onward⟩ := checked.following here reached through
    have pops : p.instruction.pops = args.toNat := by rw [call]; rfl
    have pushes : p.instruction.pushes = 1 := by rw [call]; rfl
    obtain ⟨code', checked'⟩ := c.verified_of_mem verified (List.mem_of_getElem? found)
    obtain ⟨first, begins, zero⟩ := checked'.entry
    have empty : t.stack.depth = 0 := by simp only [Stack.depth, floor]; omega
    have waits : t.stack.floor - s.stack.floor + 1 =
        s.stack.depth - p.instruction.pops + p.instruction.pushes := by
      have inside := valid.grounded.inside
      simp only [Stack.depth, pops, pushes] at *
      omega
    refine ⟨grounded, ⟨?_, ?_, code', 0, first, ?_, begins, ?_, ?_⟩, ?_⟩
    · exact method ▸ List.mem_of_getElem? found
    · rw [method, locals]; exact Nat.le_max_left _ _
    · exact method ▸ checked'.listed
    · rw [zero, ip]
    · rw [empty]; exact .entry
    · rw [callers, savedFloor]
      refine ⟨⟨valid.running.member, valid.running.locals,
        code, i + 1, q, checked.listed, there, offset, ?_⟩, valid.suspended⟩
      exact waits ▸ onward
  | leaves _ _ callers frame rest floor size =>
    have suspended := valid.suspended
    have floors := valid.grounded.floors
    simp only at callers floor size
    rw [callers] at suspended floors
    obtain ⟨stands, deeper⟩ := suspended
    have ascends := floors.1
    have depth : t.stack.depth = s.stack.floor - s.frame.savedFloor + 1 := by
      simp only [Stack.depth]; omega
    refine ⟨grounded, ?_, ?_⟩
    · rw [frame, depth]; exact stands
    · rw [frame, rest, floor]; exact deeper

theorem Invariant.sound (verified : c.verify = .ok ()) (valid : s.Invariant c) {fault : Fault}
    (error : s.step c limits = .error fault) : ¬ fault.Structural := by
  obtain ⟨code, i, p, checked, here, -, reached, executes⟩ := valid.fetches verified limits
  have member := List.mem_of_getElem? here
  have permitted := checked.rules.permitted _ p reached here
  rw [error] at executes
  cases executes with
  | fails fails =>
    cases fails with
    | data data => exact data.not_structural
    | thrown | trapped | deep => exact id
    | short short =>
      have enough := permitted.admitted.1
      have inside := valid.grounded.inside
      simp only [Stack.depth] at *
      omega
    | astray jump outside =>
      obtain ⟨j, q, there, lands, _⟩ := checked.landing here reached jump
      have small := checked.offset_lt (List.mem_of_getElem? there)
      simp only at outside
      omega
    | missing names outside =>
      have declared := checked.slot_lt member names
      have room := valid.running.locals
      simp only at outside
      omega
    | noText text absent => exact absurd absent (checked.text_exists member text)
    | noLong long absent => exact absurd absent (checked.long_exists member long)
    | noMethod call absent => exact absurd absent (checked.method_exists member call)
    | @crowded index args m call found crowded =>
      obtain ⟨_, checked'⟩ := c.verified_of_mem verified (List.mem_of_getElem? found)
      have declared := checked'.locals
      have few : args.toNat < maxLocals := args.toNat_lt
      omega

theorem start_invariant {index : Nat} {args : List Value} (verified : c.verify = .ok ())
    (started : start c limits index args = .ok s) : s.Invariant c := by
  have grounded := start_grounded started
  obtain ⟨m, frame, found, entered, rfl⟩ := start_ok started
  obtain ⟨_, method, ip, locals, savedFloor⟩ := Frame.enter_ok entered
  obtain ⟨code, checked⟩ := c.verified_of_mem verified (List.mem_of_getElem? found)
  obtain ⟨first, begins, zero⟩ := checked.entry
  refine ⟨grounded, ⟨?_, ?_, code, 0, first, ?_, begins, zero.trans ip.symm, .entry⟩, trivial⟩
  · exact method ▸ List.mem_of_getElem? found
  · rw [method, locals]; exact Nat.le_max_left _ _
  · exact method ▸ checked.listed

theorem start_sound {index : Nat} {args : List Value} {fault : Fault}
    (verified : c.verify = .ok ()) (inRange : index < c.methods.length)
    (few : args.length ≤ maxLocals) (failed : start c limits index args = .error fault) :
    ¬ fault.Structural := by
  unfold start at failed
  split at failed
  · rename_i absent
    have := List.getElem?_eq_none_iff.mp absent
    omega
  rename_i m found
  split at failed
  · cases failed; exact id
  rcases bind_error failed with crowded | ⟨_, _, impossible⟩
  · obtain ⟨crowded, _⟩ := Frame.enter_error crowded
    obtain ⟨_, checked⟩ := c.verified_of_mem verified (List.mem_of_getElem? found)
    have declared := checked.locals
    omega
  · cases impossible

end State

theorem Class.Reaches.invariant {c : Class} {limits : Limits} {index : Nat} {args : List Value}
    {s : State} (verified : c.verify = .ok ()) (reaches : c.Reaches limits index args s) :
    s.Invariant c := by
  obtain ⟨first, started, path⟩ := reaches
  exact path.keeps (fun valid step => valid.step verified step)
    (State.start_invariant verified started)

def halves : Class where
  name := "Halves"
  methods :=
    [{ name := "main", params := ["int"], returns := "int", locals := 1,
       code := [0x12, 0x07, 0, 0, 0, 0, 0xA6, 1, 0, 0, 0, 2, 0, 0xA2] },
     { name := "quotient", params := ["int", "int"], returns := "int", locals := 2,
       code := [0x12, 0x13, 0x23, 0xA2] }]

theorem halves_verified : halves.verify = .ok () := by cbv

/-- The discipline of verified code, in every state that a run passes through: each live frame is
about to execute a listed instruction; the depth of the running frame is the one that verification
recorded for this offset of this method, so any two visits agree on it; and the stack keeps to its
limit in the frame and, times the number of live frames, as a whole. -/
theorem reached_states_disciplined {c : Class} (verified : c.verify = .ok ()) {limits : Limits}
    {index : Nat} {args : List Value} {s : State} (reaches : c.Reaches limits index args s) :
    (∀ f ∈ s.frame :: s.callers,
      ∃ code p, f.method.instructions = .ok code ∧ p ∈ code ∧ p.offset = f.ip) ∧
    s.stack.floor ≤ s.stack.values.size ∧
    s.frame.method.depthAt s.frame.ip = some s.stack.depth ∧
    (∀ limits' index' args' t, c.Reaches limits' index' args' t →
      t.frame.method = s.frame.method → t.frame.ip = s.frame.ip →
      t.stack.depth = s.stack.depth) ∧
    s.stack.depth ≤ maxDepth ∧
    s.stack.values.size ≤ maxDepth * (s.callers.length + 1) := by
  have valid := reaches.invariant verified
  have recorded := valid.running.depthAt verified
  have bounded := valid.running.depth_le
  refine ⟨?_, valid.grounded.inside, recorded, ?_, bounded, ?_⟩
  · intro f member
    obtain ⟨depth, stands⟩ : ∃ depth, f.Stands c depth := by
      rcases List.mem_cons.mp member with rfl | member
      · exact ⟨_, valid.running⟩
      · exact valid.suspended.stands member
    obtain ⟨code, i, p, listed, here, at_ip, _⟩ := stands.reached
    exact ⟨code, p, Method.instructions_of_listing listed, List.mem_of_getElem? here, at_ip⟩
  · intro limits' index' args' t reaches' method ip
    have recorded' := (reaches'.invariant verified).running.depthAt verified
    rw [method, ip, recorded] at recorded'
    exact (Option.some.inj recorded').symm
  · have below := valid.suspended.floor_le valid.grounded.floors
    rw [Nat.mul_succ]
    simp only [Stack.depth] at bounded
    omega

/-- The second method of `halves`, about to divide below its caller. -/
theorem quotient_disciplined :
    ∃ s, halves.Reaches {} 0 [.int 7] s ∧ s.callers.length = 1 ∧
      s.frame.method.depthAt s.frame.ip = some s.stack.depth ∧ s.stack.depth = 2 := by
  obtain ⟨s, reaches, callers, depth⟩ : ∃ s, halves.Reaches {} 0 [.int 7] s ∧
      s.callers.length = 1 ∧ s.stack.depth = 2 :=
    ⟨_, ⟨_, rfl, .cons rfl (.cons rfl (.cons rfl (.cons rfl (.cons rfl .refl))))⟩, rfl, rfl⟩
  have disciplined := reached_states_disciplined halves_verified reaches
  exact ⟨s, reaches, callers, disciplined.2.2.1, depth⟩

/-- Verification is sound: whatever method of a verified class is invoked, with whatever arguments
and limits, no run ends because code is broken, in that method or in one that it calls. -/
theorem verified_ends_soundly {c : Class} (verified : c.verify = .ok ()) {index : Nat}
    (inRange : index < c.methods.length) {args : List Value} (few : args.length ≤ maxLocals)
    {limits : Limits} {fault : Fault} (ends : c.Ends limits index args (.error fault)) :
    ¬ fault.Structural := by
  rcases ends.last with ⟨_, failed, same⟩ | ⟨first, t, started, path, error⟩
  · cases same
    exact State.start_sound verified inRange few failed
  · have reaches : c.Reaches limits index args t := ⟨first, started, path⟩
    exact (reaches.invariant verified).sound verified error

theorem halves_divides :
    halves.Ends {} 0 [.int 7] (.error .divisionByZero) ∧ ¬ Fault.divisionByZero.Structural := by
  have ends : halves.Ends {} 0 [.int 7] (.error .divisionByZero) := ⟨10, by cbv⟩
  exact ⟨ends, verified_ends_soundly halves_verified (by decide) (by decide) ends⟩

end Rowwise
