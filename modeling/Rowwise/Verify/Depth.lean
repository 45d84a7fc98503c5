import Rowwise.Code.Instruction
import Rowwise.Verify.Defect

/-! Stack depths along every path through a method. Each instruction has to be reached with one
depth; the walk records the first depth it sees and expands each instruction once. -/
namespace Rowwise

def maxDepth : Nat := 1024

/-- An instruction, by its position in the listing, that is reached with a depth. -/
structure Visit where
  index : Nat
  depth : Nat
  deriving DecidableEq, Repr

namespace Visit

def indexOf? (code : List Placed) (offset : Int) : Option Nat :=
  code.findIdx? fun p => (p.offset : Int) == offset

def jumps (code : List Placed) (p : Placed) (depth : Nat) : Except MethodDefect (List Visit) :=
  match p.target? with
  | none => .ok []
  | some target =>
    match indexOf? code target with
    | none => .error (.invalidJumpTarget target p.offset)
    | some index => .ok [⟨index, depth⟩]

def falls (code : List Placed) (p : Placed) (index depth : Nat) :
    Except MethodDefect (List Visit) :=
  if p.instruction.opcode.fallsThrough then
    if index + 1 < code.length then .ok [⟨index + 1, depth⟩] else .error (.fallOffEnd p.offset)
  else
    .ok []

def depthAfter (v : Visit) (p : Placed) : Nat :=
  v.depth - p.instruction.pops + p.instruction.pushes

/-- The visits that an instruction leads to. The following instruction comes before the target
of a jump. -/
def successors (code : List Placed) (v : Visit) (p : Placed) : Except MethodDefect (List Visit) :=
  if v.depth < p.instruction.pops then
    .error (.stackUnderflow p.offset)
  else if maxDepth < v.depthAfter p then
    .error (.stackOverflow p.offset (v.depthAfter p))
  else
    match jumps code p (v.depthAfter p) with
    | .error e => .error e
    | .ok taken =>
      match falls code p v.index (v.depthAfter p) with
      | .error e => .error e
      | .ok passed => .ok (passed ++ taken)

theorem length_successors {code : List Placed} {p : Placed} {v : Visit} {next : List Visit}
    (h : successors code v p = .ok next) : next.length ≤ 2 := by
  unfold successors at h
  split at h
  · cases h
  split at h
  · cases h
  split at h
  · cases h
  rename_i taken jumped
  split at h
  · cases h
  rename_i passed fallen
  cases h
  have first : taken.length ≤ 1 := by
    unfold jumps at jumped
    split at jumped
    · cases jumped; simp
    · split at jumped <;> cases jumped; simp
  have second : passed.length ≤ 1 := by
    unfold falls at fallen
    split at fallen
    · split at fallen <;> cases fallen; simp
    · cases fallen; simp
  simp; omega

end Visit

/-- The depths recorded so far and the visits still to be made, the next one first. -/
structure Walk where
  depths : List (Option Nat)
  pending : List Visit
  deriving DecidableEq, Repr

namespace Walk

def start (code : List Placed) : Walk := ⟨code.map fun _ => none, [⟨0, 0⟩]⟩

/-- Make the next visit. One to an instruction with a recorded depth only compares depths. -/
def step (code : List Placed) (w : Walk) : Except MethodDefect Walk :=
  match w.pending with
  | [] => .ok w
  | v :: rest =>
    match code[v.index]?, w.depths[v.index]? with
    | some p, some none =>
      match Visit.successors code v p with
      | .error e => .error e
      | .ok next => .ok ⟨w.depths.set v.index (some v.depth), next ++ rest⟩
    | some p, some (some first) =>
      if first = v.depth then
        .ok { w with pending := rest }
      else
        .error (.inconsistentDepth p.offset first v.depth)
    | _, _ => .ok { w with pending := rest }

/-- Every step lowers this number: expanding an instruction records its depth for good and adds
at most two visits. -/
def cost (w : Walk) : Nat := 2 * w.depths.count none + w.pending.length

theorem cost_step {code : List Placed} {w next : Walk} (pending : w.pending ≠ [])
    (h : w.step code = .ok next) : next.cost < w.cost := by
  obtain ⟨depths, _ | ⟨v, rest⟩⟩ := w
  · exact absurd rfl pending
  simp only [step] at h
  split at h
  · rename_i found
    split at h
    · cases h
    rename_i visits expanded
    cases h
    have few := Visit.length_successors expanded
    obtain ⟨bound, value⟩ := List.getElem?_eq_some_iff.mp found
    have undecided : 0 < depths.count none :=
      List.count_pos_iff.mpr (value ▸ List.getElem_mem bound)
    simp only [cost, List.count_set bound, value, List.length_append, List.length_cons]
    simp
    omega
  · split at h <;> cases h
    simp [cost]
  · cases h
    simp [cost]

def run (code : List Placed) (w : Walk) : Except MethodDefect (List (Option Nat)) :=
  if pending : w.pending = [] then
    .ok w.depths
  else
    match taken : w.step code with
    | .error e => .error e
    | .ok next =>
      have : next.cost < w.cost := cost_step pending taken
      run code next
termination_by w.cost

end Walk

def stackDepths (code : List Placed) : Except MethodDefect (List (Option Nat)) :=
  if code.isEmpty then .error (.fallOffEnd 0) else (Walk.start code).run code

end Rowwise
