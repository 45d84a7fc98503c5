import Mathlib
import Rowwise.Proofs.Space.Checked
import Rowwise.Proofs.Types.Spelled
import Rowwise.Proofs.Verify.Accepted

/-! Overloads of verified classes, and which of them a name and a descriptor select. Verification
tells parameters by their spelling and a descriptor tells them by their types, so overloads that
differ in white space only pass as two methods, of which only the first is ever found. -/
namespace Rowwise

namespace Method

variable {c : Class} {m : Method}

/-- Parameters have types, and none of them is `void`. -/
theorem solid_of_verifyParams {names : List String} (ok : verifyParams names = .ok ()) :
    ∀ p ∈ names, ∃ t, TypeName.parse? p = some t ∧ t.isVoid = false := by
  induction names with
  | nil => exact fun p member => absurd member List.not_mem_nil
  | cons name names ih =>
    unfold verifyParams at ok
    split at ok
    · cases ok
    rename_i t parsed
    split at ok
    · cases ok
    rename_i solid
    rw [List.forall_mem_cons]
    exact ⟨⟨t, parsed, Bool.eq_false_of_not_eq_true solid⟩, ih ok⟩

theorem solid_of_verify (ok : m.verify c = .ok ()) :
    ∀ p ∈ m.params, ∃ t, TypeName.parse? p = some t ∧ t.isVoid = false := by
  obtain ⟨_, signature, _⟩ := bind_ok ok
  obtain ⟨_, params, _⟩ := bind_ok signature
  exact solid_of_verifyParams params

theorem readable_of_verify (ok : m.verify c = .ok ()) : m.toSignature.Readable := by
  constructor
  · intro p member
    obtain ⟨t, parsed, -⟩ := solid_of_verify ok p member
    rw [parsed]
    rfl
  · obtain ⟨_, signature, _⟩ := bind_ok ok
    obtain ⟨_, _, signature⟩ := bind_ok signature
    dsimp only at signature
    split at signature
    · cases signature
    rename_i returns
    exact Option.isSome_iff_ne_none.mpr fun absent => returns (by rw [absent]; rfl)

/-- A method that passes verification has a well-formed signature. -/
theorem reads_of_verify (ok : m.verify c = .ok ()) :
    ∃ params returns, m.toSignature.Reads params returns :=
  (readable_of_verify ok).reads

end Method

namespace Class

variable {c : Class} {earlier later : List Method}

/-- Verification goes on only as long as names and spelled parameters differ. -/
theorem pairwise_of_verifyFrom (ok : c.verifyFrom earlier later = .ok ())
    (before : earlier.Pairwise fun m n => ¬(m.name = n.name ∧ m.params = n.params)) :
    (earlier ++ later).Pairwise fun m n => ¬(m.name = n.name ∧ m.params = n.params) := by
  induction later generalizing earlier with
  | nil => rwa [List.append_nil]
  | cons m later ih =>
    obtain ⟨fresh, -, ok⟩ := verifyFrom_cons_ok ok
    rw [List.append_cons]
    refine ih ok (List.pairwise_append.mpr ⟨before, List.pairwise_singleton _ _, ?_⟩)
    intro e member n last
    cases List.mem_singleton.mp last
    exact fresh e member

theorem pairwise_of_verify (ok : c.verify = .ok ()) :
    c.methods.Pairwise fun m n => ¬(m.name = n.name ∧ m.params = n.params) :=
  pairwise_of_verifyFrom ok .nil

theorem reads_of_mem (ok : c.verify = .ok ()) {m : Method} (member : m ∈ c.methods) :
    ∃ params returns, m.toSignature.Reads params returns :=
  Method.reads_of_verify (verify_of_verifyFrom ok m member)

/-- A name and a descriptor fit the methods that agree with the one they are taken from. -/
theorem fits_iff (ok : c.verify = .ok ()) {m n : Method} (member : m ∈ c.methods)
    (member' : n ∈ c.methods) :
    (n.name == m.name && n.descriptor == m.descriptor) = true ↔ n.Agrees m.toSignature := by
  obtain ⟨_, _, reads⟩ := reads_of_mem ok member
  obtain ⟨_, _, reads'⟩ := reads_of_mem ok member'
  rw [reads'.agrees_iff reads, Bool.and_eq_true, beq_iff_eq, beq_iff_eq]

/-- Methods whose parameters are spelled without white space have no twins. -/
theorem eq_of_agrees (ok : c.verify = .ok ()) {i j : Nat} {m n : Method}
    (found : c.methods[i]? = some m) (found' : c.methods[j]? = some n)
    (agrees : n.Agrees m.toSignature) (plain : ∀ p ∈ m.params, TypeName.Plain p)
    (plain' : ∀ p ∈ n.params, TypeName.Plain p) : j = i := by
  obtain ⟨params, _, reads⟩ := reads_of_mem ok (List.mem_of_getElem? found)
  obtain ⟨name, same, -⟩ := agrees
  have spelled : n.params = m.params :=
    Signature.params_eq_of_plain (same.trans reads.params) reads.params plain' plain
  obtain ⟨inside, rfl⟩ := List.getElem?_eq_some_iff.mp found
  obtain ⟨inside', rfl⟩ := List.getElem?_eq_some_iff.mp found'
  have distinct := List.pairwise_iff_getElem.mp (pairwise_of_verify ok)
  rcases Nat.lt_trichotomy j i with less | rfl | more
  · exact absurd ⟨name, spelled⟩ (distinct j i inside' inside less)
  · rfl
  · exact absurd ⟨name.symm, spelled.symm⟩ (distinct i j inside inside' more)

end Class

namespace Handle

variable {c : Class} {bytes : List UInt8} {space : SpaceId} {m n : Method}

theorem fits_iff {h : Handle} (verified : c.verify = .ok ())
    (made : h.owner = .ofClass c bytes space)
    (member : m ∈ c.methods) (there : c.methods[h.index.val]? = some n) :
    (h.method.name == m.name && h.method.descriptor == m.descriptor) = true ↔
      n.Agrees m.toSignature := by
  obtain ⟨n', there', same⟩ := method_of_class made
  obtain rfl : n' = n := Option.some.inj (there'.symm.trans there)
  rw [← same]
  exact Class.fits_iff verified member (List.mem_of_getElem? there)

/-- The lookup succeeds, and finds the first method that agrees with the given one. -/
theorem lookup_first (verified : c.verify = .ok ()) (bytes : List UInt8) (space : SpaceId) {i : Nat}
    (found : c.methods[i]? = some m) :
    ∃ h n, lookup (.ofClass c bytes space) m.name m.descriptor = .ok h ∧
      h.owner = .ofClass c bytes space ∧
      c.methods[h.index.val]? = some n ∧ n.Agrees m.toSignature ∧
      ∀ j n, j < h.index.val → c.methods[j]? = some n → ¬ n.Agrees m.toSignature := by
  have size : (LoadedType.ofClass c bytes space).methods.length = c.methods.length :=
    List.length_map _
  have member := List.mem_of_getElem? found
  let on (j : Fin (LoadedType.ofClass c bytes space).methods.length) : Handle := ⟨_, j, false⟩
  have fits {j : Fin (LoadedType.ofClass c bytes space).methods.length} {n : Method}
      (there : c.methods[j.val]? = some n) := fits_iff (h := on j) verified rfl member there
  obtain ⟨inside, -⟩ := List.getElem?_eq_some_iff.mp found
  obtain ⟨first, looked, fit, least⟩ := find_first (.ofClass c bytes space)
    (fun d => d.name == m.name && d.descriptor == m.descriptor) (m.name ++ m.descriptor)
    ((fits (j := ⟨i, size ▸ inside⟩) found).mpr (.refl _))
  have there := List.getElem?_eq_getElem (size ▸ first.isLt : first.val < c.methods.length)
  refine ⟨on first, _, looked, rfl, there, (fits there).mp fit, ?_⟩
  intro j n less before
  have bound : j < (LoadedType.ofClass c bytes space).methods.length :=
    Nat.lt_trans less first.isLt
  exact mt (fits (j := ⟨j, bound⟩) before).mpr (least ⟨j, bound⟩ less)

end Handle

/-- Looking up a method of a verified class by its name and its descriptor never fails. It finds the
first method of that name with the same types, which is the method itself exactly if no earlier one
agrees with it; and as long as type names are written without white space, none does. -/
theorem lookup_finds_first_spelling {c : Class} (verified : c.verify = .ok ())
    (bytes : List UInt8) (space : SpaceId) {i : Nat} {m : Method}
    (found : c.methods[i]? = some m) :
    ∃ h n, Handle.lookup (.ofClass c bytes space) m.name m.descriptor = .ok h ∧
      h.owner = .ofClass c bytes space ∧
      c.methods[h.index.val]? = some n ∧ n.Agrees m.toSignature ∧
      (∀ j n, j < h.index.val → c.methods[j]? = some n → ¬ n.Agrees m.toSignature) ∧
      (h.index.val = i ↔ ∀ j n, j < i → c.methods[j]? = some n → ¬ n.Agrees m.toSignature) ∧
      ((∀ n ∈ c.methods, n.name = m.name → ∀ p ∈ n.params, TypeName.Plain p) →
        h.index.val = i) := by
  obtain ⟨h, n, looked, owner, there, agrees, earliest⟩ :=
    Handle.lookup_first verified bytes space found
  refine ⟨h, n, looked, owner, there, agrees, earliest, ⟨?_, ?_⟩, ?_⟩
  · rintro rfl
    exact earliest
  · intro alone
    rcases Nat.lt_trichotomy h.index.val i with less | same | more
    · exact absurd agrees (alone _ _ less there)
    · exact same
    · exact absurd (.refl _) (earliest i m more found)
  · intro plain
    exact Class.eq_of_agrees verified found there agrees
      (plain m (List.mem_of_getElem? found) rfl) (plain n (List.mem_of_getElem? there) agrees.1)

/-- The overloads of `f` differ in a blank only, those of `g` in a type. -/
def twins : Class where
  name := "Twins"
  methods :=
    [{ name := "f", params := ["int"], returns := "int", locals := 1, code := [0x12, 0xA2] },
     { name := "f", params := [" int"], returns := "int", locals := 1,
       code := [0x07, 2, 0, 0, 0, 0xA2] },
     { name := "g", params := ["long[]"], returns := "int", locals := 1,
       code := [0x07, 3, 0, 0, 0, 0xA2] },
     { name := "g", params := ["long"], returns := "int", locals := 1,
       code := [0x07, 4, 0, 0, 0, 0xA2] }]

theorem twins_verified : twins.verify = .ok () := by
  cbv

theorem twins_agree : twins.methods[0].Agrees twins.methods[1].toSignature :=
  ⟨rfl, by cbv, rfl⟩

/-- In the place of the second `f` the first is found; the second `g` is found itself. -/
theorem twins_found :
    (∃ h, Handle.lookup (.ofClass twins [] ⟨1⟩) "f" "(I)I" = .ok h ∧ h.index.val = 0) ∧
      ∃ h, Handle.lookup (.ofClass twins [] ⟨1⟩) "g" "(J)I" = .ok h ∧ h.index.val = 3 := by
  have descriptor : twins.methods[1].descriptor = "(I)I" := by cbv
  have descriptor' : twins.methods[3].descriptor = "(J)I" := by cbv
  constructor
  · obtain ⟨h, _, looked, _, _, _, earliest, _, _⟩ :=
      lookup_finds_first_spelling twins_verified [] ⟨1⟩ (i := 1) rfl
    refine ⟨h, descriptor ▸ looked, ?_⟩
    rcases Nat.eq_zero_or_pos h.index.val with first | later
    · exact first
    · exact absurd twins_agree (earliest 0 _ later rfl)
  · obtain ⟨h, _, looked, _, _, _, _, _, plain⟩ :=
      lookup_finds_first_spelling twins_verified [] ⟨1⟩ (i := 3) rfl
    exact ⟨h, descriptor' ▸ looked, plain (by decide)⟩

/-- The second `f` is declared, but a lookup by its name and descriptor does not find it. -/
theorem twins_hidden :
    ¬∀ (c : Class) (bytes : List UInt8) (space : SpaceId) (i : Nat) (m : Method),
      c.verify = .ok () → c.methods[i]? = some m →
        ∃ h, Handle.lookup (.ofClass c bytes space) m.name m.descriptor = .ok h ∧
          h.index.val = i := by
  intro selects
  obtain ⟨h, looked, index⟩ := selects twins [] ⟨1⟩ 1 _ twins_verified rfl
  obtain ⟨h', _, looked', _, _, _, earliest⟩ :=
    Handle.lookup_first twins_verified [] ⟨1⟩ (i := 1) rfl
  cases looked.symm.trans looked'
  exact earliest 0 _ (by omega) rfl twins_agree

end Rowwise
