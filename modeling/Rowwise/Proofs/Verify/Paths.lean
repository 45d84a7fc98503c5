import Rowwise.Proofs.Code.Listing
import Rowwise.Verify.Depth

/-! Paths through a method, and what verification asks of all of them together. Nothing here
speaks of a work list or of an order in which paths are walked. -/
namespace Rowwise

namespace Visit

/-- The values that an instruction takes are there, and it leaves no more than the limit. -/
def Admitted (v : Visit) (p : Placed) : Prop :=
  p.instruction.pops ≤ v.depth ∧ v.depthAfter p ≤ maxDepth

/-- What an instruction has to meet where it is reached: the depths fit, a jump goes to an
instruction, and control does not run off the end. -/
structure Permitted (code : List Placed) (v : Visit) (p : Placed) : Prop where
  admitted : v.Admitted p
  lands : ∀ target, p.target? = some target → ∃ q ∈ code, (q.offset : Int) = target
  continues : p.instruction.opcode.fallsThrough = true → v.index + 1 < code.length

/-- One step along a path: to the target of a jump or to the instruction that follows. -/
inductive Leads (code : List Placed) (v : Visit) : Visit → Prop where
  | jump {p q : Placed} {j : Nat} : code[v.index]? = some p → v.Admitted p →
      p.target? = some (q.offset : Int) → code[j]? = some q → Leads code v ⟨j, v.depthAfter p⟩
  | fall {p : Placed} : code[v.index]? = some p → v.Admitted p →
      p.instruction.opcode.fallsThrough = true → v.index + 1 < code.length →
      Leads code v ⟨v.index + 1, v.depthAfter p⟩

end Visit

/-- The visits on paths from the first instruction and an empty stack. -/
inductive Reached (code : List Placed) : Visit → Prop where
  | entry : Reached code ⟨0, 0⟩
  | next {v w : Visit} : Reached code v → v.Leads code w → Reached code w

/-- The rules that all paths have to keep. -/
structure Disciplined (code : List Placed) : Prop where
  nonempty : code ≠ []
  consistent : ∀ v w, Reached code v → Reached code w → v.index = w.index → v.depth = w.depth
  permitted : ∀ v p, Reached code v → code[v.index]? = some p → v.Permitted code p

/-- What a defect says of the paths: one of them comes to the instruction at that offset and breaks
the rule there, with the numbers that the defect gives. Two paths that disagree both come to it.
Code without an instruction has its end at offset 0. -/
inductive Exhibits (code : List Placed) : MethodDefect → Prop where
  | empty : code = [] → Exhibits code (.fallOffEnd 0)
  | underflow {v : Visit} {p : Placed} : Reached code v → code[v.index]? = some p →
      v.depth < p.instruction.pops → Exhibits code (.stackUnderflow p.offset)
  | overflow {v : Visit} {p : Placed} : Reached code v → code[v.index]? = some p →
      p.instruction.pops ≤ v.depth → maxDepth < v.depthAfter p →
      Exhibits code (.stackOverflow p.offset (v.depthAfter p))
  | mismatch {v w : Visit} {p : Placed} : Reached code v → Reached code w → v.index = w.index →
      code[v.index]? = some p → v.depth ≠ w.depth →
      Exhibits code (.inconsistentDepth p.offset v.depth w.depth)
  | jump {v : Visit} {p : Placed} {target : Int} : Reached code v → code[v.index]? = some p →
      v.Admitted p → p.target? = some target → (∀ q ∈ code, (q.offset : Int) ≠ target) →
      Exhibits code (.invalidJumpTarget target p.offset)
  | fall {v : Visit} {p : Placed} : Reached code v → code[v.index]? = some p → v.Admitted p →
      p.instruction.opcode.fallsThrough = true → v.index + 1 = code.length →
      Exhibits code (.fallOffEnd p.offset)

theorem Exhibits.not_disciplined {code : List Placed} {defect : MethodDefect}
    (exhibits : Exhibits code defect) : ¬ Disciplined code := by
  intro rules
  cases exhibits with
  | empty none => exact rules.nonempty none
  | underflow reached here few =>
    exact absurd (rules.permitted _ _ reached here).admitted.1 (by omega)
  | overflow reached here _ many =>
    exact absurd (rules.permitted _ _ reached here).admitted.2 (by omega)
  | mismatch first second same _ different =>
    exact different (rules.consistent _ _ first second same)
  | jump reached here _ jumps missing =>
    obtain ⟨q, member, lands⟩ := (rules.permitted _ _ reached here).lands _ jumps
    exact missing q member lands
  | fall reached here _ through last =>
    exact absurd ((rules.permitted _ _ reached here).continues through) (by omega)

namespace Reached

variable {code : List Placed} {v : Visit}

theorem index_lt (nonempty : code ≠ []) (reached : Reached code v) : v.index < code.length := by
  cases reached with
  | entry => exact List.length_pos_iff.mpr nonempty
  | next _ leads =>
    cases leads with
    | jump _ _ _ there => exact (List.getElem?_eq_some_iff.mp there).1
    | fall _ _ _ inside => exact inside

theorem depth_le (reached : Reached code v) : v.depth ≤ maxDepth := by
  cases reached with
  | entry => exact Nat.zero_le _
  | next _ leads =>
    cases leads with
    | jump _ admitted _ _ => exact admitted.2
    | fall _ admitted _ _ => exact admitted.2

end Reached

/-- Both lists have their instructions at the same offsets, and they have the same instructions
wherever a path leads. -/
structure AlikeWhereReached (code other : List Placed) : Prop where
  offsets : other.map (·.offset) = code.map (·.offset)
  instructions : ∀ v, Reached code v → other[v.index]? = code[v.index]?

namespace AlikeWhereReached

variable {code other : List Placed}

theorem length (alike : AlikeWhereReached code other) : other.length = code.length := by
  simpa using congrArg List.length alike.offsets

theorem offset_at (alike : AlikeWhereReached code other) {j : Nat} {q : Placed}
    (there : other[j]? = some q) : ∃ r, code[j]? = some r ∧ r.offset = q.offset := by
  have same : (other.map (·.offset))[j]? = (code.map (·.offset))[j]? := by rw [alike.offsets]
  rw [List.getElem?_map, List.getElem?_map, there] at same
  exact Option.map_eq_some_iff.mp same.symm

theorem distinct (alike : AlikeWhereReached code other) (distinct : Placed.Distinct code) :
    Placed.Distinct other := by
  intro i j p q here there same
  obtain ⟨p', at_i, offset_i⟩ := alike.offset_at here
  obtain ⟨q', at_j, offset_j⟩ := alike.offset_at there
  exact distinct i j p' q' at_i at_j (by rw [offset_i, offset_j, same])

theorem leads_iff (alike : AlikeWhereReached code other) {v w : Visit} (reached : Reached code v) :
    v.Leads other w ↔ v.Leads code w := by
  have here := alike.instructions v reached
  constructor
  · intro leads
    cases leads with
    | jump at_v admitted target there =>
      obtain ⟨r, found, same⟩ := alike.offset_at there
      exact .jump (here ▸ at_v) admitted (same ▸ target) found
    | fall at_v admitted falls inside =>
      exact .fall (here ▸ at_v) admitted falls (alike.length ▸ inside)
  · intro leads
    have arrived := alike.instructions w (.next reached leads)
    cases leads with
    | jump at_v admitted target there =>
      exact .jump (here.trans at_v) admitted target (arrived.trans there)
    | fall at_v admitted falls inside =>
      exact .fall (here.trans at_v) admitted falls (alike.length.symm ▸ inside)

theorem reached_iff (alike : AlikeWhereReached code other) {v : Visit} :
    Reached other v ↔ Reached code v := by
  constructor
  · intro reached
    induction reached with
    | entry => exact .entry
    | next _ leads ih => exact .next ih ((alike.leads_iff ih).mp leads)
  · intro reached
    induction reached with
    | entry => exact .entry
    | next before leads ih => exact .next ih ((alike.leads_iff before).mpr leads)

theorem symm (alike : AlikeWhereReached code other) : AlikeWhereReached other code where
  offsets := alike.offsets.symm
  instructions v reached := (alike.instructions v (alike.reached_iff.mp reached)).symm

theorem disciplined (alike : AlikeWhereReached code other) (rules : Disciplined code) :
    Disciplined other where
  nonempty := by
    have := List.length_pos_iff.mpr rules.nonempty
    exact List.length_pos_iff.mp (alike.length ▸ this)
  consistent v w first second := by
    rw [alike.reached_iff] at first second
    exact rules.consistent v w first second
  permitted v p reached here := by
    rw [alike.reached_iff] at reached
    have same := alike.instructions v reached
    obtain ⟨admitted, lands, continues⟩ := rules.permitted v p reached (same ▸ here)
    refine ⟨admitted, ?_, ?_⟩
    · intro target jumps
      obtain ⟨q, member, lands⟩ := lands target jumps
      have offset : q.offset ∈ other.map (·.offset) := alike.offsets ▸ List.mem_map_of_mem member
      obtain ⟨r, found, equal⟩ := List.mem_map.mp offset
      exact ⟨r, found, by rw [equal, lands]⟩
    · intro falls
      exact alike.length ▸ continues falls

theorem disciplined_iff (alike : AlikeWhereReached code other) :
    Disciplined other ↔ Disciplined code :=
  ⟨alike.symm.disciplined, alike.disciplined⟩

end AlikeWhereReached

end Rowwise
