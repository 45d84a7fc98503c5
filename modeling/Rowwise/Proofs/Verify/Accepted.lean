import Rowwise.Proofs.Outcome
import Rowwise.Proofs.Verify.Walk
import Rowwise.Verify.Class

/-! What is known of a class that verification accepts, method by method. -/
namespace Rowwise

namespace Method

/-- The method has passed every check, and `code` is its listing. -/
structure Verified (c : Class) (m : Method) (code : List Placed) : Prop where
  locals : m.locals ≤ maxLocals
  listed : listing 0 m.code = .ok code
  constants : ∀ p ∈ code, p.verifyConstant c.constants = .ok ()
  slots : ∀ p ∈ code, p.verifyLocal m.locals = .ok ()
  calls : ∀ p ∈ code, p.verifyCall c.methods = .ok ()
  rules : Disciplined code

theorem listing_of_instructions {m : Method} {code : List Placed} (ok : m.instructions = .ok code) :
    listing 0 m.code = .ok code := by
  unfold instructions at ok
  split at ok
  · cases ok; assumption
  · cases ok
  · cases ok

theorem instructions_of_listing {m : Method} {code : List Placed}
    (listed : listing 0 m.code = .ok code) : m.instructions = .ok code := by
  simp only [instructions, listed]

theorem locals_le_of_verifySignature {m : Method} (ok : m.verifySignature = .ok ()) :
    m.locals ≤ maxLocals := by
  obtain ⟨_, _, ok⟩ := bind_ok ok
  dsimp only at ok
  split at ok
  · cases ok
  split at ok
  · cases ok
  · omega

theorem verified_of_verify {c : Class} {m : Method} (ok : m.verify c = .ok ()) :
    ∃ code, m.Verified c code := by
  obtain ⟨_, signature, ok⟩ := bind_ok ok
  obtain ⟨code, listed, ok⟩ := bind_ok ok
  obtain ⟨_, constants, ok⟩ := bind_ok ok
  obtain ⟨_, slots, ok⟩ := bind_ok ok
  obtain ⟨_, calls, ok⟩ := bind_ok ok
  obtain ⟨depths, walked, _⟩ := bind_ok ok
  have listed := listing_of_instructions listed
  have truthful := stackDepths_truthful (Placed.gapless_of_listing listed).1.distinct
  exact ⟨code, locals_le_of_verifySignature signature, listed, forM_ok constants, forM_ok slots,
    forM_ok calls, truthful.accepts_iff.mp ⟨depths, walked⟩⟩

/-! Whatever an operand refers to exists. -/
namespace Verified

variable {c : Class} {m : Method} {code : List Placed} {p : Placed} {index : UInt32}

theorem slot_lt (checked : m.Verified c code) (member : p ∈ code) {slot : Nat}
    (names : p.instruction.slot? = some slot) : slot < m.locals := by
  have passed := checked.slots p member
  simp only [Placed.verifyLocal, names] at passed
  split at passed
  · assumption
  · cases passed

theorem text_exists (checked : m.Verified c code) (member : p ∈ code)
    (text : p.instruction = .constText index) : c.constants.strings[index.toNat]? ≠ none := by
  have passed := checked.constants p member
  simp only [Placed.verifyConstant, text] at passed
  split at passed
  · rename_i inside
    rw [List.getElem?_eq_getElem inside]
    exact Option.some_ne_none _
  · cases passed

theorem long_exists (checked : m.Verified c code) (member : p ∈ code)
    (long : p.instruction = .constLong index) : c.constants.integers[index.toNat]? ≠ none := by
  have passed := checked.constants p member
  simp only [Placed.verifyConstant, long] at passed
  split at passed
  · rename_i inside
    rw [List.getElem?_eq_getElem inside]
    exact Option.some_ne_none _
  · cases passed

theorem method_exists (checked : m.Verified c code) (member : p ∈ code) {args : UInt16}
    (call : p.instruction = .call index args) : c.methods[index.toNat]? ≠ none := by
  intro absent
  have passed := checked.calls p member
  simp only [Placed.verifyCall, call, absent] at passed
  cases passed

end Verified

end Method

namespace Class

variable {c : Class} {m : Method} {earlier later : List Method}

def Fresh (earlier : List Method) (m : Method) : Prop :=
  ∀ e ∈ earlier, ¬(e.name = m.name ∧ e.params = m.params)

theorem fresh_iff : Fresh earlier m ↔
    ¬ (earlier.any fun e => e.name == m.name && e.params == m.params) = true := by
  simp [Fresh]

/-- A method that passes its checks makes room for the next one. -/
theorem verifyFrom_of_passed (fresh : Fresh earlier m) (passed : m.verify c = .ok ()) :
    c.verifyFrom earlier (m :: later) = c.verifyFrom (earlier ++ [m]) later := by
  rw [verifyFrom, if_neg (fresh_iff.mp fresh), passed]

theorem verifyFrom_cons_ok (ok : c.verifyFrom earlier (m :: later) = .ok ()) :
    Fresh earlier m ∧ m.verify c = .ok () ∧ c.verifyFrom (earlier ++ [m]) later = .ok () := by
  unfold verifyFrom at ok
  split at ok
  · cases ok
  rename_i fresh
  split at ok
  · cases ok
  rename_i passed
  exact ⟨fresh_iff.mpr fresh, passed, ok⟩

theorem verify_of_verifyFrom (ok : c.verifyFrom earlier later = .ok ()) :
    ∀ m ∈ later, m.verify c = .ok () := by
  induction later generalizing earlier with
  | nil => exact fun m member => absurd member List.not_mem_nil
  | cons n later ih =>
    obtain ⟨-, passed, ok⟩ := verifyFrom_cons_ok ok
    intro m member
    rcases List.mem_cons.mp member with rfl | member
    · exact passed
    · exact ih ok m member

theorem verified_of_mem (ok : c.verify = .ok ()) (member : m ∈ c.methods) :
    ∃ code, m.Verified c code :=
  Method.verified_of_verify (verify_of_verifyFrom ok m member)

end Class

end Rowwise
