import Mathlib.Algebra.Group.Nat.Defs
import Rowwise.Proofs.Code.Emitted

/-! Jumps in code that is being written. The target of a jump may become known long after the jump
itself is written, and other jumps may still wait then. In the finished code every jump has the
target it was given: in the listing, and in the machine. -/
namespace Rowwise

@[ext]
structure Branch where
  condition : Condition
  operand : Nat
  deriving DecidableEq, Repr

namespace Branch

variable {b b' : Branch} {d d' : Int32} {code : List Placed}

def Stands (b : Branch) (d : Int32) (code : List Placed) : Prop :=
  ∃ p ∈ code, p.offset + 1 = b.operand ∧ p.instruction = .jump b.condition d

theorem Stands.append (stands : b.Stands d code) (more : List Placed) :
    b.Stands d (code ++ more) := by
  obtain ⟨p, member, here, jump⟩ := stands
  exact ⟨p, List.mem_append_left more member, here, jump⟩

theorem stands_last {p : Placed} (here : p.offset + 1 = b.operand)
    (jump : p.instruction = .jump b.condition d) : b.Stands d (code ++ [p]) :=
  ⟨p, List.mem_append_right code (.head _), here, jump⟩

/-- The operand of a jump tells its condition. -/
theorem Stands.unique (stands : b.Stands d code) (stands' : b'.Stands d' code)
    (gapless : Placed.Gapless 0 code) (same : b.operand = b'.operand) : b = b' := by
  obtain ⟨p, member, here, jump⟩ := stands
  obtain ⟨p', member', here', jump'⟩ := stands'
  obtain ⟨i, there⟩ := List.mem_iff_getElem?.mp member
  obtain ⟨i', there'⟩ := List.mem_iff_getElem?.mp member'
  obtain rfl := gapless.distinct i i' p p' there there' (by omega)
  cases there.symm.trans there'
  exact Branch.ext (Instruction.jump.inj (jump.symm.trans jump')).1 same

end Branch

namespace Placed

variable {code : List Placed} {p : Placed}

theorem width_jump {condition : Condition} {d : Int32} (jump : p.instruction = .jump condition d) :
    p.next = p.offset + 5 := by
  rw [next, jump]
  cases condition <;> rfl

theorem Gapless.next_le_length (gapless : Gapless 0 code) (member : p ∈ code) :
    p.next ≤ (bytes code).length := by
  obtain ⟨-, rest, found⟩ := gapless.drop_bytes member
  have length := congrArg List.length found
  have width := p.length_encode
  have step := p.lt_next
  simp only [List.length_drop, List.length_append] at length
  omega

end Placed

namespace Assembler

variable {a : Assembler} {code : List Placed}

theorem offset_le_emit (i : Instruction) (a : Assembler) : a.offset ≤ (a.emit i).offset := by
  simp [offset, emit, raw]

theorem offset_patch {operand : Nat} (inside : operand + 4 ≤ a.offset) (word : UInt32) :
    (a.patch operand word).offset = a.offset := by
  simp only [offset, patch, List.length_append, List.length_take, List.length_drop,
    Bytes.length_ofWord32] at inside ⊢
  omega

/-- Patching changes nothing but the four bytes of an operand. -/
theorem patch_elsewhere {operand i : Nat} (inside : operand + 4 ≤ a.offset) (word : UInt32)
    (apart : i < operand ∨ operand + 4 ≤ i) : (a.patch operand word).code[i]? = a.code[i]? := by
  simp only [offset] at inside
  have front : (a.code.take operand).length = operand := by
    rw [List.length_take]
    omega
  simp only [patch, List.append_assoc]
  rcases apart with before | behind
  · rw [List.getElem?_append_left (by omega), List.getElem?_take_of_lt before]
  · rw [List.getElem?_append_right (by omega), front,
      List.getElem?_append_right (by rw [Bytes.length_ofWord32]; omega), Bytes.length_ofWord32,
      List.getElem?_drop]
    congr 1
    omega

theorem patch_bytes (before rest : List UInt8) {operand : List UInt8} (four : operand.length = 4)
    (byte : UInt8) (word : UInt32) :
    patch (before.length + 1) word ⟨before ++ byte :: (operand ++ rest)⟩ =
      ⟨before ++ byte :: (Bytes.ofWord32 word ++ rest)⟩ := by
  have front : before ++ byte :: (operand ++ rest) = (before ++ [byte]) ++ (operand ++ rest) := by
    simp
  have head : (before ++ [byte]).length = before.length + 1 := by simp
  have whole : (before ++ [byte] ++ operand).length = before.length + 1 + 4 := by
    rw [List.length_append, head, four]
  rw [patch, front, ← head, List.take_left, head, ← List.append_assoc, ← whole, List.drop_left]
  simp

/-- A jump in the code can be given another distance. Nothing else that stands there changes. -/
theorem exists_patched {b : Branch} {d : Int32} (gapless : Placed.Gapless 0 code)
    (spelled : Placed.bytes code = a.code) (stands : b.Stands d code) (d' : Int32) :
    ∃ code', Placed.Gapless 0 code' ∧
      Placed.bytes code' = (a.patch b.operand d'.toUInt32).code ∧ b.Stands d' code' ∧
      ∀ b' d'', b' ≠ b → b'.Stands d'' code → b'.Stands d'' code' := by
  have unique := fun b' d'' (stands' : Branch.Stands b' d'' code) => stands'.unique stands gapless
  obtain ⟨p, member, here, jump⟩ := stands
  obtain ⟨before, later, rfl⟩ := List.append_of_mem member
  obtain ⟨first, place, rest⟩ := Placed.Gapless.append.mp gapless
  have next : Placed.next ⟨p.offset, .jump b.condition d'⟩ = p.next := by
    rw [Placed.width_jump jump, Placed.width_jump rfl]
  refine ⟨before ++ ⟨p.offset, .jump b.condition d'⟩ :: later,
    Placed.Gapless.append.mpr ⟨first, place, next ▸ rest⟩, ?_,
    ⟨_, List.mem_append_right before (.head _), here, rfl⟩, ?_⟩
  · have stretch : Placed.bytes (before ++ p :: later) = Placed.bytes before ++
        (Opcode.jump b.condition).byte :: (Bytes.ofWord32 d.toUInt32 ++ Placed.bytes later) := by
      simp [Placed.bytes, jump, Instruction.encode, Instruction.opcode, Instruction.operand]
    have stretch' : Placed.bytes (before ++ ⟨p.offset, .jump b.condition d'⟩ :: later) =
        Placed.bytes before ++
        (Opcode.jump b.condition).byte :: (Bytes.ofWord32 d'.toUInt32 ++ Placed.bytes later) := by
      simp [Placed.bytes, Instruction.encode, Instruction.opcode, Instruction.operand]
    have operand : b.operand = (Placed.bytes before).length + 1 := by omega
    have patched := patch_bytes (Placed.bytes before) (Placed.bytes later)
      (Bytes.length_ofWord32 d.toUInt32) (Opcode.jump b.condition).byte d'.toUInt32
    rw [stretch', operand]
    rw [← stretch, spelled] at patched
    exact (congrArg code patched).symm
  · rintro b' d'' other ⟨q, member', here', jump'⟩
    refine ⟨q, ?_, here', jump'⟩
    rcases List.mem_append.mp member' with inside | inside
    · exact List.mem_append_left _ inside
    · rcases List.mem_cons.mp inside with rfl | inside
      · exact absurd (unique b' d'' ⟨q, member', here', jump'⟩ (by omega)) other
      · exact List.mem_append_right before (.tail _ inside)

/-- What can be written with an assembler. Each jump ahead waits until it is told to land, once, and
a jump back goes to an offset that is already reached. The jumps that have a target are recorded
with it: for a jump ahead that is the offset at which it was told to land. -/
inductive Written : Assembler → List Branch → List (Branch × Nat) → Prop where
  | start : Written {} [] []
  | emit {a : Assembler} {waiting : List Branch} {landed : List (Branch × Nat)} (i : Instruction) :
    Written a waiting landed → Written (a.emit i) waiting landed
  | jump {a : Assembler} {waiting : List Branch} {landed : List (Branch × Nat)}
    (condition : Condition) : Written a waiting landed →
      Written (a.jump condition).2 (⟨condition, (a.jump condition).1⟩ :: waiting) landed
  | land {a : Assembler} {waiting : List Branch} {landed : List (Branch × Nat)} {b : Branch} :
    Written a waiting landed → b ∈ waiting →
      Written (a.land b.operand) (waiting.erase b) ((b, a.offset) :: landed)
  | jumpBack {a : Assembler} {waiting : List Branch} {landed : List (Branch × Nat)} {target : Nat}
    (condition : Condition) : Written a waiting landed → target ≤ a.offset →
      Written (a.jumpBack condition target) waiting ((⟨condition, a.offset + 1⟩, target) :: landed)

/-- The code so far, taken apart: the jumps that wait stand in it with some distance, the others
with that to their target. -/
structure Drafted (a : Assembler) (waiting : List Branch) (landed : List (Branch × Nat))
    (code : List Placed) : Prop where
  gapless : Placed.Gapless 0 code
  spelled : Placed.bytes code = a.code
  waits : ∀ b ∈ waiting, ∃ d, b.Stands d code
  lands : ∀ b target, (b, target) ∈ landed →
    b.Stands (distance b.operand target) code ∧ target ≤ a.offset
  once : waiting.Nodup
  apart : ∀ b target, (b, target) ∈ landed → b ∉ waiting

namespace Drafted

variable {waiting : List Branch} {landed : List (Branch × Nat)} {b : Branch}

theorem operand_le (drafted : a.Drafted waiting landed code) {d : Int32}
    (stands : b.Stands d code) :
    b.operand + 4 ≤ a.offset := by
  obtain ⟨p, member, here, jump⟩ := stands
  have inside := drafted.gapless.next_le_length member
  rw [drafted.spelled, Placed.width_jump jump] at inside
  rw [offset]
  omega

theorem emit (drafted : a.Drafted waiting landed code) (i : Instruction) :
    (a.emit i).Drafted waiting landed (code ++ [⟨a.offset, i⟩]) where
  gapless := by
    refine Placed.Gapless.append.mpr ⟨drafted.gapless, ?_, trivial⟩
    rw [drafted.spelled, Nat.zero_add]
    rfl
  spelled := by
    rw [Assembler.emit, raw, ← drafted.spelled]
    simp [Placed.bytes]
  waits b member := by
    obtain ⟨d, stands⟩ := drafted.waits b member
    exact ⟨d, stands.append _⟩
  lands b target member := by
    obtain ⟨stands, reached⟩ := drafted.lands b target member
    exact ⟨stands.append _, Nat.le_trans reached (offset_le_emit i a)⟩
  once := drafted.once
  apart := drafted.apart

theorem jump (drafted : a.Drafted waiting landed code) (condition : Condition) :
    (a.jump condition).2.Drafted (⟨condition, (a.jump condition).1⟩ :: waiting) landed
      (code ++ [⟨a.offset, .jump condition 0⟩]) := by
  have operand : (a.jump condition).1 = a.offset + 1 := by
    simp [Assembler.jump, reserve, offset, raw]
  have emitted : (a.jump condition).2 = a.emit (.jump condition 0) := by
    simp only [Assembler.jump, reserve, Assembler.emit, raw, Instruction.encode, Instruction.opcode,
      Instruction.operand, List.append_assoc]
    rfl
  have draft := drafted.emit (.jump condition 0)
  have new : ∀ {b : Branch} {d : Int32}, b.Stands d code → b ≠ ⟨condition, a.offset + 1⟩ := by
    rintro b d stands rfl
    have := drafted.operand_le stands
    simp only at this
    omega
  rw [operand, emitted]
  refine ⟨draft.gapless, draft.spelled, ?_, draft.lands, ?_, ?_⟩
  · intro b member
    rcases List.mem_cons.mp member with rfl | member
    · exact ⟨0, Branch.stands_last rfl rfl⟩
    · exact draft.waits b member
  · refine List.nodup_cons.mpr ⟨fun member => ?_, drafted.once⟩
    obtain ⟨d, stands⟩ := drafted.waits _ member
    exact new stands rfl
  · intro b target member
    refine fun waits => ?_
    rcases List.mem_cons.mp waits with same | waits
    · exact new (drafted.lands b target member).1 same
    · exact drafted.apart b target member waits

theorem jumpBack (drafted : a.Drafted waiting landed code) (condition : Condition) {target : Nat}
    (reached : target ≤ a.offset) :
    (a.jumpBack condition target).Drafted waiting ((⟨condition, a.offset + 1⟩, target) :: landed)
      (code ++ [⟨a.offset, .jump condition (distance (a.offset + 1) target)⟩]) := by
  have draft := drafted.emit (.jump condition (distance (a.offset + 1) target))
  refine ⟨draft.gapless, draft.spelled, draft.waits, ?_, draft.once, ?_⟩
  · intro b target' member
    rcases List.mem_cons.mp member with same | member
    · cases same
      exact ⟨Branch.stands_last rfl rfl, Nat.le_trans reached (offset_le_emit _ a)⟩
    · exact draft.lands b target' member
  · intro b target' member
    rcases List.mem_cons.mp member with same | member
    · cases same
      intro waits
      obtain ⟨d, stands⟩ := drafted.waits _ waits
      have := drafted.operand_le stands
      simp only at this
      omega
    · exact draft.apart b target' member

theorem land (drafted : a.Drafted waiting landed code) (waits : b ∈ waiting) :
    ∃ code', (a.land b.operand).Drafted (waiting.erase b) ((b, a.offset) :: landed) code' := by
  obtain ⟨d, stands⟩ := drafted.waits b waits
  obtain ⟨code', gapless, spelled, stands', others⟩ :=
    exists_patched drafted.gapless drafted.spelled stands (distance b.operand a.offset)
  have length := offset_patch (drafted.operand_le stands) (distance b.operand a.offset).toUInt32
  refine ⟨code', gapless, spelled, ?_, ?_, drafted.once.erase b, ?_⟩
  · intro b' member
    obtain ⟨other, member⟩ := (drafted.once.mem_erase_iff).mp member
    obtain ⟨d', stands''⟩ := drafted.waits b' member
    exact ⟨d', others b' d' other stands''⟩
  · intro b' target member
    rw [Assembler.land, length]
    rcases List.mem_cons.mp member with same | earlier
    · cases same
      exact ⟨stands', Nat.le_refl _⟩
    · obtain ⟨stands'', reached⟩ := drafted.lands b' target earlier
      have other : b' ≠ b := by
        rintro rfl
        exact drafted.apart b' target earlier waits
      exact ⟨others b' _ other stands'', reached⟩
  · intro b' target member waits'
    obtain ⟨other, waits'⟩ := (drafted.once.mem_erase_iff).mp waits'
    rcases List.mem_cons.mp member with same | earlier
    · cases same
      exact other rfl
    · exact drafted.apart b' target earlier waits'

end Drafted

theorem Written.drafted {waiting : List Branch} {landed : List (Branch × Nat)}
    (written : Written a waiting landed) : ∃ code, a.Drafted waiting landed code := by
  induction written with
  | start => exact ⟨[], trivial, rfl, nofun, nofun, .nil, nofun⟩
  | emit i _ ih =>
    obtain ⟨code, drafted⟩ := ih
    exact ⟨_, drafted.emit i⟩
  | jump condition _ ih =>
    obtain ⟨code, drafted⟩ := ih
    exact ⟨_, drafted.jump condition⟩
  | land _ waits ih =>
    obtain ⟨code, drafted⟩ := ih
    exact drafted.land waits
  | jumpBack condition _ reached ih =>
    obtain ⟨code, drafted⟩ := ih
    exact ⟨_, drafted.jumpBack condition reached⟩

/-- Within 31 bits a distance is exact. -/
theorem toInt_distance {operand target : Nat} (inside : operand + 4 < 2 ^ 31)
    (reached : target < 2 ^ 31) :
    (distance operand target).toInt = (target : Int) - (operand + 4) := by
  have four : (4 : Int32) = Int32.ofNat 4 := rfl
  rw [distance, four, Int32.toInt_sub, Int32.toInt_add, Int32.toInt_ofNat_of_lt reached,
    Int32.toInt_ofNat_of_lt (by omega), Int32.toInt_ofNat_of_lt (by decide)]
  rw [Int.bmod_eq_of_le (n := (operand : Int) + (4 : Nat)) (by omega) (by omega),
    Int.bmod_eq_of_le (by omega) (by omega)]
  rfl

end Assembler

/-- A frame that jumps from behind an operand gets to the target, if that is inside the code. -/
theorem Frame.jump_eq {f : Frame} {d : Int32} {target : Nat} (exact : f.ip + d.toInt = target) :
    f.jump d = if target < f.method.code.length then .ok { f with ip := target }
      else .error (.invalidJump target) := by
  simp only [Frame.jump, exact]
  by_cases inside : target < f.method.code.length
  · rw [if_neg (by omega), if_pos inside]
    rfl
  · rw [if_pos (by omega), if_neg inside]

open Assembler in
/-- Finished code of less than 2^31 bytes: the listing and the machine find every jump at its
operand with the target that it was given when the code was written. Telling a jump to land changes
only the four bytes of its operand. -/
theorem jumps_reach_targets {a : Assembler} {landed : List (Branch × Nat)}
    (written : Written a [] landed) (short : a.offset < 2 ^ 31) :
    (∃ code, listing 0 a.code = .ok code ∧ ∀ b target, (b, target) ∈ landed →
      ∃ p ∈ code, p.offset + 1 = b.operand ∧ p.instruction.opcode = .jump b.condition ∧
        p.target? = some (target : Int) ∧
        ∀ f : Frame, f.method.code = a.code → f.ip = p.offset →
          ∃ d, f.fetch = .ok (.jump b.condition d, b.operand + 4) ∧
            { f with ip := b.operand + 4 }.jump d =
              if target < a.offset then .ok { f with ip := target }
              else .error (.invalidJump target)) ∧
    ∀ (early : Assembler) (waiting : List Branch) (landed' : List (Branch × Nat)) (b : Branch),
      Written early waiting landed' → b ∈ waiting →
      (early.land b.operand).offset = early.offset ∧
        ∀ i, i < b.operand ∨ b.operand + 4 ≤ i →
          (early.land b.operand).code[i]? = early.code[i]? := by
  constructor
  · obtain ⟨code, drafted⟩ := written.drafted
    have listed := drafted.gapless.listed
    rw [drafted.spelled] at listed
    refine ⟨code, listed, ?_⟩
    intro b target member
    obtain ⟨stands, reached⟩ := drafted.lands b target member
    have inside := drafted.operand_le stands
    have exact : (distance b.operand target).toInt = (target : Int) - (b.operand + 4) :=
      toInt_distance (by omega) (by omega)
    obtain ⟨p, member, here, jump⟩ := stands
    have next : p.next = b.operand + 4 := by
      rw [Placed.width_jump jump]
      omega
    refine ⟨p, member, here, by rw [jump]; rfl, ?_, ?_⟩
    · simp only [Placed.target?, jump, next, exact]
      congr 1
      omega
    · intro f same ip
      refine ⟨distance b.operand target, ?_, ?_⟩
      · rw [Frame.fetch_of_listing (same ▸ listed) member ip, jump, next]
      · have lands :
            (b.operand + 4 : Nat) + (distance b.operand target).toInt = (target : Int) := by
          rw [exact]
          omega
        rw [Frame.jump_eq lands, offset, ← same]
  · intro early waiting landed' b written' waits
    obtain ⟨code, drafted⟩ := written'.drafted
    obtain ⟨d, stands⟩ := drafted.waits b waits
    have inside := drafted.operand_le stands
    exact ⟨offset_patch inside _, fun i apart => patch_elsewhere inside _ apart⟩

/-- Two jumps ahead that land in the order in which they were written, the second one behind the
last instruction, with a jump back between the landings. -/
def crossing : Assembler where
  code := [0x91, 5, 0, 0, 0, 0x92, 6, 0, 0, 0, 0x00, 0x90, 0xF0, 0xFF, 0xFF, 0xFF]

open Assembler in
theorem crossing_written : Written crossing []
    [(⟨.ifTrue, 6⟩, 16), (⟨.always, 12⟩, 0), (⟨.ifFalse, 1⟩, 10)] := by
  have both := (Written.start.jump .ifFalse).jump .ifTrue
  have first := both.land (b := ⟨.ifFalse, 1⟩) (.tail _ (.head _))
  have back := (first.emit (.stack .nop)).jumpBack .always (Nat.zero_le _)
  exact back.land (b := ⟨.ifTrue, 6⟩) (.head _)

open Assembler in
theorem crossing_reaches_targets :
    Written crossing [] [(⟨.ifTrue, 6⟩, 16), (⟨.always, 12⟩, 0), (⟨.ifFalse, 1⟩, 10)] ∧
      crossing.offset < 2 ^ 31 ∧
      ∃ code, listing 0 crossing.code = .ok code ∧
        (∃ p ∈ code, p.offset = 0 ∧ p.target? = some 10) ∧
        (∃ p ∈ code, p.offset = 11 ∧ p.target? = some 0) ∧
        ∀ f : Frame, f.method.code = crossing.code → f.ip = 5 →
          ∃ d, f.fetch = .ok (.jump .ifTrue d, 10) ∧
            { f with ip := 10 }.jump d = .error (.invalidJump 16) := by
  have short : crossing.offset < 2 ^ 31 := by decide
  obtain ⟨⟨code, listed, reach⟩, -⟩ := jumps_reach_targets crossing_written short
  refine ⟨crossing_written, short, code, listed, ?_, ?_, ?_⟩
  · obtain ⟨p, member, here, -, target, -⟩ := reach ⟨.ifFalse, 1⟩ 10 (.tail _ (.tail _ (.head _)))
    exact ⟨p, member, Nat.succ.inj here, target⟩
  · obtain ⟨p, member, here, -, target, -⟩ := reach ⟨.always, 12⟩ 0 (.tail _ (.head _))
    exact ⟨p, member, Nat.succ.inj here, target⟩
  · obtain ⟨p, member, here, -, -, jumps⟩ := reach ⟨.ifTrue, 6⟩ 16 (.head _)
    intro f same ip
    exact jumps f same (ip.trans (Nat.succ.inj here).symm)

end Rowwise
