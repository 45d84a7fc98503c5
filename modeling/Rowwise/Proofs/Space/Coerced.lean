import Rowwise.Proofs.Space.Results
import Rowwise.Proofs.Types.Spelled

/-! Return types and the results that they let through. Where a return type is read as a primitive,
only the exact name of the primitive brings results to its kind; with white space in it, the type
still has the same code, but every result passes. -/
namespace Rowwise

namespace Primitive

theorem parse?_name (p : Primitive) : TypeName.parse? p.name = some ⟨p.name, 0⟩ := by
  cases p <;> cbv

theorem typeCode_name (p : Primitive) : typeCode p.name = String.singleton p.letter := by
  cases p <;> cbv

theorem plain_name (p : Primitive) : TypeName.Plain p.name := by
  cases p <;> decide

end Primitive

/-- Every value is a result as it is. -/
def Passes (returns : String) : Prop := ∀ v, coerceReturn returns v = .ok v

variable {s s' : String} {p : Primitive} {t t' : TypeName}

theorem passes_of_ofName? (other : Primitive.ofName? s = none) : Passes s := by
  intro v
  simp only [coerceReturn, other]

/-- No primitive has values of all kinds. -/
theorem not_passes_name (p : Primitive) : ¬ Passes p.name := by
  intro passes
  have kind := Primitive.kind_of_coerceReturn (passes (.string ""))
  cases p <;> cases kind

theorem passes_of_spaced (spaced : ¬ TypeName.Plain s) : Passes s := by
  apply passes_of_ofName?
  cases found : Primitive.ofName? s with
  | none => rfl
  | some p =>
    rw [← Primitive.name_of_ofName? found] at spaced
    exact absurd p.plain_name spaced

/-- Without white space, the name of a primitive is the only spelling with its letter. -/
theorem eq_name_of_plain (parsed : TypeName.parse? s = some t)
    (code : typeCode s = String.singleton p.letter) (plain : TypeName.Plain s) : s = p.name := by
  have type : t = ⟨p.name, 0⟩ := by
    apply (TypeName.typeCode_eq_iff parsed p.parse?_name).mp
    rw [code, p.typeCode_name]
  have split := (TypeName.parse?_some parsed).1
  have split' := (TypeName.parse?_some p.parse?_name).1
  apply TypeName.split_inj plain p.plain_name
  rw [← split, ← split', type]

/-- Types with other codes, which are arrays and references, let everything pass. -/
theorem passes_of_code (other : ∀ p : Primitive, typeCode s ≠ String.singleton p.letter) :
    Passes s := by
  apply passes_of_ofName?
  cases found : Primitive.ofName? s with
  | none => rfl
  | some p =>
    rw [← Primitive.name_of_ofName? found] at other
    exact absurd p.typeCode_name (other p)

theorem passes_iff_spaced (parsed : TypeName.parse? s = some t)
    (code : typeCode s = String.singleton p.letter) : Passes s ↔ ¬ TypeName.Plain s := by
  constructor
  · intro passes plain
    rw [eq_name_of_plain parsed code plain] at passes
    exact not_passes_name p passes
  · exact passes_of_spaced

/-- Spellings with the same code treat all values alike, unless the code is the letter of a
primitive and there is white space in one of them only. -/
theorem coerceReturn_eq_iff (parsed : TypeName.parse? s = some t)
    (parsed' : TypeName.parse? s' = some t') (same : typeCode s = typeCode s') :
    (∀ v, coerceReturn s v = coerceReturn s' v) ↔
      ∀ p : Primitive, typeCode s = String.singleton p.letter →
        (TypeName.Plain s ↔ TypeName.Plain s') := by
  constructor
  · intro alike p code
    have passes : Passes s ↔ Passes s' := by simp only [Passes, alike]
    rw [passes_iff_spaced parsed code, passes_iff_spaced parsed' (same ▸ code)] at passes
    exact Decidable.not_iff_not.mp passes
  · intro spelled v
    by_cases primitive : ∃ p : Primitive, typeCode s = String.singleton p.letter
    · obtain ⟨p, code⟩ := primitive
      by_cases plain : TypeName.Plain s
      · have plain' := (spelled p code).mp plain
        rw [eq_name_of_plain parsed code plain, eq_name_of_plain parsed' (same ▸ code) plain']
      · have spaced' := mt (spelled p code).mpr plain
        rw [passes_of_spaced plain v, passes_of_spaced spaced' v]
    · have other := not_exists.mp primitive
      rw [passes_of_code other v, passes_of_code (fun p => same ▸ other p) v]

theorem kind_of_plain {v w : Value} (parsed : TypeName.parse? s = some t)
    (code : typeCode s = String.singleton p.letter) (plain : TypeName.Plain s)
    (coerced : coerceReturn s v = .ok w) : w.kind = p.kind := by
  rw [eq_name_of_plain parsed code plain] at coerced
  exact Primitive.kind_of_coerceReturn coerced

/-- The values of a return type are of the kind that the letter of its code tells exactly if the
return type is written without white space. Two spellings with the same code treat all values alike,
unless the code is the letter of a primitive and there is white space in one of them only. With such
a letter and without white space, all that a method with the return type yields, invoked in the
machine, for a row or for a batch, is of the kind of the primitive. -/
theorem coercion_depends_on_spelling (readable : (TypeName.parse? s).isSome)
    (readable' : (TypeName.parse? s').isSome) (same : typeCode s = typeCode s') :
    ((∀ v, coerceReturn s v = coerceReturn s' v) ↔
      ∀ p : Primitive, typeCode s = String.singleton p.letter →
        (TypeName.Plain s ↔ TypeName.Plain s')) ∧
    ∀ p : Primitive, typeCode s = String.singleton p.letter →
      (¬ TypeName.Plain s → ∀ v, coerceReturn s v = .ok v) ∧
      (TypeName.Plain s →
        (∀ v w, coerceReturn s v = .ok w → w.kind = p.kind) ∧
        (∀ (c : Class) limits index args (m : Method) v, c.methods[index]? = some m →
          m.returns = s → c.Ends limits index args (.ok v) → v.kind = p.kind) ∧
        ∀ (i : Invoker) (h : Handle), h.owner.Made → h.method.returns = s →
          (∀ args v, i.RowEnds h args (.ok v) → v.kind = p.kind) ∧
          ∀ fuel b results, i.invokeAll fuel h b = some (.ok results) →
            ∀ v ∈ results, v.kind = p.kind) := by
  obtain ⟨t, parsed⟩ := Option.isSome_iff_exists.mp readable
  obtain ⟨t', parsed'⟩ := Option.isSome_iff_exists.mp readable'
  refine ⟨coerceReturn_eq_iff parsed parsed' same, fun p code => ⟨passes_of_spaced, ?_⟩⟩
  intro plain
  have kind : ∀ v w, coerceReturn s v = .ok w → w.kind = p.kind :=
    fun v w coerced => kind_of_plain parsed code plain coerced
  refine ⟨kind, ?_, ?_⟩
  · intro c limits index args m v found declared ends
    obtain ⟨w, coerced⟩ := ends.coerced found
    rw [declared] at coerced
    exact kind w v coerced
  · intro i h made declared
    constructor
    · intro args v ends
      obtain ⟨w, coerced⟩ := Invoker.coerced_of_rowEnds made ends
      rw [declared] at coerced
      exact kind w v coerced
    · intro fuel b results all v member
      obtain ⟨w, coerced⟩ := Invoker.coerced_of_invokeAll made all member
      rw [declared] at coerced
      exact kind w v coerced

/-- Two methods with the descriptor `()I`. The return type of the second begins with a blank. -/
def padded : Class where
  name := "Padded"
  methods :=
    [{ name := "one", params := [], returns := "int", locals := 0,
       code := [0x07, 1, 0, 0, 0, 0xA2] },
     { name := "yes", params := [], returns := " int", locals := 0, code := [0x05, 0xA2] }]

def padding : Handle where
  owner := .ofClass padded [] ⟨1⟩
  index := ⟨0, by decide⟩

theorem read_alike : (TypeName.parse? "int").isSome ∧ (TypeName.parse? " int").isSome ∧
    typeCode "int" = String.singleton Primitive.int.letter ∧ typeCode "int" = typeCode " int" :=
  ⟨by cbv, by cbv, by cbv, by cbv⟩

theorem spellings_coerce :
    (¬∀ v, coerceReturn "int" v = coerceReturn " int" v) ∧
      coerceReturn " int" (.string "one") = .ok (.string "one") ∧
      (padded.Ends {} 0 [] (.ok (.int 1)) ∧ (Value.int 1).kind = Primitive.int.kind) ∧
      Invoker.invokeAll ⟨⟨1⟩, {}⟩ 2 padding (.nullary 1) = some (.ok [.int 1]) ∧
      ∀ v ∈ [Value.int 1], v.kind = Primitive.int.kind := by
  obtain ⟨readable, readable', code, same⟩ := read_alike
  obtain ⟨alike, exactly⟩ := coercion_depends_on_spelling readable readable' same
  obtain ⟨-, loosely⟩ := coercion_depends_on_spelling readable' readable same.symm
  have plain : TypeName.Plain "int" := by decide
  have spaced : ¬ TypeName.Plain " int" := by decide
  obtain ⟨-, ended, rows⟩ := (exactly .int code).2 plain
  refine ⟨?_, (loosely .int (same ▸ code)).1 spaced _, ?_, ?_⟩
  · intro treats
    exact spaced ((alike.mp treats .int code).mp plain)
  · have ends : padded.Ends {} 0 [] (.ok (.int 1)) := ⟨2, rfl⟩
    exact ⟨ends, ended padded {} 0 [] _ _ rfl rfl ends⟩
  · have made : padding.owner.Made := .inl ⟨_, _, _, rfl⟩
    have all : Invoker.invokeAll ⟨⟨1⟩, {}⟩ 2 padding (.nullary 1) = some (.ok [.int 1]) := rfl
    exact ⟨all, (rows ⟨⟨1⟩, {}⟩ padding made rfl).2 _ _ _ all⟩

/-- The verified class has a method with the descriptor `()I` that returns `true`. -/
theorem padded_returns_boolean :
    (¬∀ (s s' : String) (v : Value), (TypeName.parse? s).isSome → (TypeName.parse? s').isSome →
      typeCode s = typeCode s' → coerceReturn s v = coerceReturn s' v) ∧
    padded.verify = .ok () ∧ padded.methods[1].descriptor = "()I" ∧
      padded.Ends {} 1 [] (.ok (.boolean true)) := by
  obtain ⟨readable, readable', -, same⟩ := read_alike
  refine ⟨?_, by cbv, by cbv, ⟨2, rfl⟩⟩
  intro alike
  have refused := alike "int" " int" (.boolean true) readable readable' same
  cases refused

end Rowwise
