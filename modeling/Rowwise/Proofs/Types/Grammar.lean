import Rowwise.Proofs.Types.Spelled

/-! The grammar of type names. An element is a sequence of words with single dots between them; a
name is an element with a mark for each dimension, and white space may stand around the whole and
before each mark. Reading accepts exactly these texts, so it says of each what it is the name of. -/
namespace Rowwise

namespace TypeName

def WordChar (c : Char) : Prop :=
  ('A' ≤ c ∧ c ≤ 'Z') ∨ ('a' ≤ c ∧ c ≤ 'z') ∨ ('0' ≤ c ∧ c ≤ '9') ∨ c = '_' ∨ c = '$'

/-- One word or more, none of them empty, with a dot between each two. -/
inductive Dotted : List Char → Prop where
  | word {word : List Char} : word ≠ [] → (∀ c ∈ word, WordChar c) → Dotted word
  | dot {word rest : List Char} : word ≠ [] → (∀ c ∈ word, WordChar c) → Dotted rest →
      Dotted (word ++ '.' :: rest)

/-- The text is a name of the type. There are no arrays of `void`. -/
structure Names (s : String) (t : TypeName) : Prop where
  element : Dotted t.element.toList
  noVoids : ¬(t.element = "void" ∧ 0 < t.dimensions)
  spelled : Spells s t

variable {c d : Char} {cs word rest : List Char} {s : String} {t : TypeName}

theorem isNameChar_iff : isNameChar c = true ↔ WordChar c ∨ c = '.' := by
  simp only [isNameChar, Char.isAlphanum, Char.isAlpha, Char.isUpper, Char.isLower, Char.isDigit,
    Bool.or_eq_true, Bool.and_eq_true, decide_eq_true_eq, WordChar, Char.le_def, ge_iff_le,
    or_assoc]

theorem not_wordChar_dot : ¬ WordChar '.' := by
  unfold WordChar
  decide

/-! An element is checked character by character: one that ends it, one with a dot behind it, and
one inside of a word. -/

theorem isElement_singleton : isElement [c] = true ↔ WordChar c := by
  by_cases dot : c = '.'
  · simp [isElement, not_wordChar_dot, dot]
  · simp [isElement, hasDoubleDot, isNameChar_iff, dot]

theorem isElement_cons_dot :
    isElement (c :: '.' :: rest) = true ↔ WordChar c ∧ isElement rest = true := by
  by_cases dot : c = '.'
  · simp [isElement, not_wordChar_dot, dot]
  · cases rest with
    | nil => simp [isElement]
    | cons d rest =>
      by_cases next : d = '.'
      · simp [isElement, hasDoubleDot, dot, next]
      · simp [isElement, hasDoubleDot, isNameChar_iff, dot, next]
        tauto

theorem isElement_cons_cons (noDot : d ≠ '.') :
    isElement (c :: d :: rest) = true ↔ WordChar c ∧ isElement (d :: rest) = true := by
  by_cases dot : c = '.'
  · simp [isElement, not_wordChar_dot, dot]
  · simp [isElement, hasDoubleDot, isNameChar_iff, noDot, dot]
    tauto

/-- A word in front of what can stand behind its last character. -/
theorem isElement_word_append (filled : word ≠ []) (plain : ∀ c ∈ word, WordChar c)
    (closes : ∀ c, WordChar c → isElement (c :: rest) = true) :
    isElement (word ++ rest) = true := by
  induction word with
  | nil => exact absurd rfl filled
  | cons c word ih =>
    rw [List.forall_mem_cons] at plain
    cases word with
    | nil => exact closes c plain.1
    | cons d word =>
      have noDot : d ≠ '.' := by
        rintro rfl
        exact not_wordChar_dot (plain.2 _ List.mem_cons_self)
      exact (isElement_cons_cons noDot).mpr ⟨plain.1, ih (List.cons_ne_nil d word) plain.2⟩

theorem Dotted.cons_word (plain : WordChar c) (dotted : Dotted rest) : Dotted (c :: rest) := by
  cases dotted with
  | word _ letters => exact .word (List.cons_ne_nil _ _) (List.forall_mem_cons.mpr ⟨plain, letters⟩)
  | @dot word rest _ letters dotted =>
    rw [← List.cons_append]
    exact .dot (List.cons_ne_nil _ _) (List.forall_mem_cons.mpr ⟨plain, letters⟩) dotted

/-- The checks of an element are its grammar. -/
theorem isElement_iff : isElement cs = true ↔ Dotted cs := by
  constructor
  · intro accepted
    induction cs using List.twoStepInduction with
    | nil => cases accepted
    | singleton c =>
      have plain := isElement_singleton.mp accepted
      exact .word (List.cons_ne_nil c []) (List.forall_mem_singleton.mpr plain)
    | cons_cons c d rest behind_dot behind =>
      by_cases dot : d = '.'
      · subst dot
        obtain ⟨plain, later⟩ := isElement_cons_dot.mp accepted
        exact .dot (List.cons_ne_nil c []) (List.forall_mem_singleton.mpr plain) (behind_dot later)
      · obtain ⟨plain, later⟩ := (isElement_cons_cons dot).mp accepted
        exact (behind d later).cons_word plain
  · intro dotted
    induction dotted with
    | @word word filled plain =>
      rw [← List.append_nil word]
      exact isElement_word_append filled plain fun c => isElement_singleton.mpr
    | dot filled plain _ later =>
      exact isElement_word_append filled plain fun c letter =>
        isElement_cons_dot.mpr ⟨letter, later⟩

theorem names_iff : Names s t ↔ t.WellFormed ∧ Spells s t := by
  have dimensions : ¬(t.element = "void" ∧ 0 < t.dimensions) ↔
      (t.element = "void" → t.dimensions = 0) := by
    rw [not_and, Nat.not_lt, Nat.le_zero]
  constructor
  · rintro ⟨element, noVoids, spelled⟩
    exact ⟨⟨isElement_iff.mpr element, dimensions.mp noVoids⟩, spelled⟩
  · rintro ⟨⟨element, noVoids⟩, spelled⟩
    exact ⟨isElement_iff.mp element, dimensions.mpr noVoids, spelled⟩

theorem parse?_eq_some_iff_names : parse? s = some t ↔ Names s t :=
  parse?_eq_some_iff.trans names_iff.symm

/-- Reading decides the grammar: it finds the type that a text is a name of, and nothing if there is
none. A text is a name of one type at most, and white space around a name and before its marks makes
no difference. -/
theorem reading_decides_grammar :
    (∀ (s : String) (t : TypeName), parse? s = some t ↔ Names s t) ∧
    (∀ s : String, parse? s = none ↔ ∀ t, ¬ Names s t) ∧
    (∀ (s : String) (t u : TypeName), Names s t → Names s u → t = u) ∧
    ∀ (s s' : String) (t : TypeName), Names s t → Spells s' t → parse? s' = parse? s := by
  refine ⟨fun s t => parse?_eq_some_iff_names, ?_, ?_, ?_⟩
  · intro s
    simp only [Option.eq_none_iff_forall_ne_some, ne_eq, parse?_eq_some_iff_names]
  · intro s t u names names'
    have parsed := parse?_eq_some_iff_names.mpr names
    have parsed' := parse?_eq_some_iff_names.mpr names'
    exact Option.some.inj (parsed.symm.trans parsed')
  · intro s s' t names spells
    have names' : Names s' t := ⟨names.element, names.noVoids, spells⟩
    rw [parse?_eq_some_iff_names.mpr names, parse?_eq_some_iff_names.mpr names']

/-- A name of two words in two dimensions, with white space of several kinds in all places. -/
theorem spaced_name_read :
    Names "\u00a0my.Row \t[]\u3000[]\n" ⟨"my.Row", 2⟩ ∧
      parse? "\u00a0my.Row \t[]\u3000[]\n" = parse? "my.Row[][]" := by
  have names : Names "my.Row[][]" ⟨"my.Row", 2⟩ :=
    (reading_decides_grammar.1 _ _).mp (by cbv)
  have blank (gap : List Char) (all : gap.all Text.isBlank = true) : Blank gap :=
    List.all_eq_true.mp all
  have gaps : ∀ gap ∈ [[' ', '\t'], ['\u3000']], Blank gap :=
    List.forall_mem_cons.mpr ⟨blank _ (by cbv), List.forall_mem_singleton.mpr (blank _ (by cbv))⟩
  have spells : Spells "\u00a0my.Row \t[]\u3000[]\n" ⟨"my.Row", 2⟩ :=
    ⟨['\u00a0'], ['\n'], _, blank _ (by cbv), blank _ (by cbv), gaps, rfl, by cbv⟩
  have same := reading_decides_grammar.2.2.2 _ _ _ names spells
  exact ⟨⟨names.element, names.noVoids, spells⟩, same⟩

end TypeName

end Rowwise
