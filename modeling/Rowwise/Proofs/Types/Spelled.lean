import Mathlib
import Rowwise.Proofs.Types.Descriptor

/-! The spellings of types. A type is written as its element, followed by a mark for each dimension,
with white space around all of it and before each mark. Reading accepts exactly what is written in
this way, and it finds the type again; so does the code of a type. Without white space there is one
spelling of each type. -/
namespace Rowwise

namespace TypeName

variable {s : String} {t u : TypeName} {cs rest e : List Char} {gaps : List (List Char)}

structure WellFormed (t : TypeName) : Prop where
  element : isElement t.element.toList = true
  noVoids : t.element = "void" → t.dimensions = 0

def Blank (cs : List Char) : Prop := ∀ c ∈ cs, Text.isBlank c = true

/-- The text is the element between blanks, with a mark for each dimension. -/
def Spells (s : String) (t : TypeName) : Prop :=
  ∃ (front back : List Char) (gaps : List (List Char)), Blank front ∧ Blank back ∧
    (∀ g ∈ gaps, Blank g) ∧ gaps.length = t.dimensions ∧
    s.toList = front ++ (t.element.toList ++ gaps.flatMap (· ++ ['[', ']']) ++ back)

theorem toNat_of_isNameChar {c : Char} (name : isNameChar c = true) :
    36 ≤ c.toNat ∧ c.toNat ≤ 122 := by
  simp only [isNameChar, Char.isAlphanum, Char.isAlpha, Char.isUpper, Char.isLower, Char.isDigit,
    Bool.or_eq_true, Bool.and_eq_true, decide_eq_true_eq, UInt32.le_iff_toNat_le, ge_iff_le] at name
  rcases name with ((((upper | lower) | digit) | rfl) | rfl) | rfl
  · exact ⟨Nat.le_trans (by decide) upper.1, Nat.le_trans upper.2 (by decide)⟩
  · exact ⟨Nat.le_trans (by decide) lower.1, Nat.le_trans lower.2 (by decide)⟩
  · exact ⟨Nat.le_trans (by decide) digit.1, Nat.le_trans digit.2 (by decide)⟩
  · decide
  · decide
  · decide

theorem not_blank_of_isNameChar {c : Char} (name : isNameChar c = true) :
    Text.isBlank c = false := by
  obtain ⟨low, high⟩ := toNat_of_isNameChar name
  simp only [Text.isBlank, Text.blankRanges, List.any_cons, List.any_nil, Bool.or_false,
    Bool.or_eq_false_iff, Bool.and_eq_false_iff, decide_eq_false_iff_not]
  omega

namespace WellFormed

theorem proper (named : t.WellFormed) : t.Proper := by
  have element := named.element
  simp only [isElement, Bool.and_eq_true] at element
  exact List.all_eq_true.mp element.2

theorem filled (named : t.WellFormed) : t.element.toList ≠ [] := by
  intro empty
  have element := named.element
  rw [empty] at element
  exact absurd element (by decide)

end WellFormed

theorem blank_takeWhile (cs : List Char) : Blank (cs.takeWhile Text.isBlank) :=
  fun c member => List.all_eq_true.mp List.all_takeWhile c member

theorem Blank.reverse (blank : Blank cs) : Blank cs.reverse :=
  fun c member => blank c (List.mem_reverse.mp member)

theorem Blank.reversed (blank : ∀ g ∈ gaps, Blank g) :
    ∀ g ∈ (gaps.map List.reverse).reverse, Blank g := by
  intro g member
  obtain ⟨g', inside, rfl⟩ := List.mem_map.mp (List.mem_reverse.mp member)
  exact (blank g' inside).reverse

/-- White space is dropped up to the first character that is none. -/
theorem Blank.dropWhile_append (blank : Blank cs)
    (stops : ∀ c, rest.head? = some c → Text.isBlank c = false) :
    (cs ++ rest).dropWhile Text.isBlank = rest := by
  rw [List.dropWhile_append_of_pos blank]
  cases rest with
  | nil => rfl
  | cons c rest =>
    apply List.dropWhile_cons_of_neg
    simp [stops c rfl]

/-- The marks of a name that is read backwards: a blank gap follows each. -/
def backMarks (gaps : List (List Char)) : List Char := gaps.flatMap fun g => ']' :: '[' :: g

theorem reverse_marks (gaps : List (List Char)) :
    (gaps.flatMap (· ++ ['[', ']'])).reverse = backMarks (gaps.map List.reverse).reverse := by
  simp [backMarks, List.reverse_flatMap, List.flatMap_map, Function.comp_def, ← List.map_reverse]

theorem reverse_backMarks (gaps : List (List Char)) :
    (backMarks gaps).reverse = (gaps.map List.reverse).reverse.flatMap (· ++ ['[', ']']) := by
  simp [backMarks, List.reverse_flatMap, List.flatMap_map, Function.comp_def, ← List.map_reverse]

/-- Behind marks comes a word, so there is no white space in front. -/
theorem head?_backMarks_append (word : ∀ c ∈ e, isNameChar c = true) :
    ∀ c, (backMarks gaps ++ e).head? = some c → Text.isBlank c = false := by
  intro c first
  cases gaps with
  | nil =>
    apply not_blank_of_isNameChar
    apply word c
    exact List.mem_of_head? first
  | cons g gaps =>
    cases first
    decide

/-- What is stripped is a run of marks. -/
theorem exists_backMarks (cs : List Char) :
    ∃ gaps : List (List Char), (∀ g ∈ gaps, Blank g) ∧ gaps.length = (stripMarks cs).2 ∧
      cs = backMarks gaps ++ (stripMarks cs).1 := by
  fun_induction stripMarks cs with
  | case1 rest stripped ih =>
    obtain ⟨gaps, blank, count, whole⟩ := ih
    refine ⟨rest.takeWhile Text.isBlank :: gaps, ?_, ?_, ?_⟩
    · exact List.forall_mem_cons.mpr ⟨blank_takeWhile rest, blank⟩
    · rw [List.length_cons, count]
    · calc ']' :: '[' :: rest
          = ']' :: '[' :: (rest.takeWhile Text.isBlank ++ rest.dropWhile Text.isBlank) := by
            rw [List.takeWhile_append_dropWhile]
        _ = _ := by rw [whole]; simp [stripped, backMarks]
  | case2 cs other => exact ⟨[], fun g member => absurd member List.not_mem_nil, rfl, rfl⟩

/-- From marks in front of a word the word is left. -/
theorem stripMarks_backMarks (blank : ∀ g ∈ gaps, Blank g) (filled : e ≠ [])
    (word : ∀ c ∈ e, isNameChar c = true) :
    stripMarks (backMarks gaps ++ e) = (e, gaps.length) := by
  induction gaps with
  | nil =>
    obtain ⟨c, e, rfl⟩ := List.exists_cons_of_ne_nil filled
    have noMark : c ≠ ']' := by
      rintro rfl
      exact absurd (word _ List.mem_cons_self) (by decide)
    rw [backMarks, List.flatMap_nil, List.nil_append, stripMarks]
    · rfl
    · intro rest same
      exact noMark (List.cons.inj same).1
  | cons g gaps ih =>
    rw [List.forall_mem_cons] at blank
    have onward : (g ++ (backMarks gaps ++ e)).dropWhile Text.isBlank = backMarks gaps ++ e :=
      blank.1.dropWhile_append (head?_backMarks_append word)
    have first : backMarks (g :: gaps) ++ e = ']' :: '[' :: (g ++ (backMarks gaps ++ e)) := by
      simp [backMarks]
    rw [first, stripMarks]
    simp only [onward, ih blank.2, List.length_cons]

/-- Whatever a name is, it spells what it is taken apart into. -/
theorem spells_split (s : String) : Spells s (split s) := by
  let kept := Text.trimFront s.toList
  -- the marks come off the front of the name that is read backwards
  obtain ⟨gaps, blank, count, whole⟩ := exists_backMarks (kept.reverse.dropWhile Text.isBlank)
  have backwards : kept.reverse = kept.reverse.takeWhile Text.isBlank ++
      (backMarks gaps ++ (split s).element.toList.reverse) := by
    have element : (split s).element.toList.reverse =
        (stripMarks (kept.reverse.dropWhile Text.isBlank)).1 := by simp [split, kept]
    rw [element, ← whole, List.takeWhile_append_dropWhile]
  have forwards : kept = (split s).element.toList ++
      (gaps.map List.reverse).reverse.flatMap (· ++ ['[', ']']) ++
        (kept.reverse.takeWhile Text.isBlank).reverse := by
    have same := congrArg List.reverse backwards
    simpa only [List.reverse_append, List.reverse_reverse, reverse_backMarks] using same
  refine ⟨s.toList.takeWhile Text.isBlank, (kept.reverse.takeWhile Text.isBlank).reverse,
    (gaps.map List.reverse).reverse, blank_takeWhile _, (blank_takeWhile _).reverse,
    Blank.reversed blank, ?_, ?_⟩
  · rw [List.length_reverse, List.length_map, count]
    rfl
  · rw [← forwards]
    exact List.takeWhile_append_dropWhile.symm

def Plain (s : String) : Prop := ∀ c ∈ s.toList, Text.isBlank c = false

instance (s : String) : Decidable (Plain s) := List.decidableBAll _ s.toList

theorem Blank.eq_nil (blank : Blank cs) (plain : ∀ c ∈ cs, Text.isBlank c = false) : cs = [] := by
  apply List.eq_nil_iff_forall_not_mem.mpr
  intro c member
  have no := plain c member
  rw [blank c member] at no
  cases no

/-- Without white space there is one way to spell a type. -/
theorem Spells.toList (spells : Spells s t) (plain : Plain s) :
    s.toList = t.element.toList ++ (List.replicate t.dimensions ['[', ']']).flatten := by
  obtain ⟨front, back, gaps, blankFront, blankBack, blank, count, whole⟩ := spells
  have plain : ∀ c ∈ front ++ (t.element.toList ++ gaps.flatMap (· ++ ['[', ']']) ++ back),
      Text.isBlank c = false := whole ▸ plain
  obtain rfl := blankFront.eq_nil fun c member => plain c (by simp [member])
  obtain rfl := blankBack.eq_nil fun c member => plain c (by simp [member])
  have closed : ∀ g ∈ gaps, g ++ ['[', ']'] = ['[', ']'] := by
    intro g inside
    rw [(blank g inside).eq_nil, List.nil_append]
    intro c member
    apply plain
    apply List.mem_append_right
    apply List.mem_append_left
    apply List.mem_append_right
    exact List.mem_flatMap.mpr ⟨g, inside, List.mem_append_left _ member⟩
  rw [whole, List.nil_append, List.append_nil, ← count]
  congr 1
  rw [List.flatMap_def, List.map_congr_left closed, List.map_const']

/-- Names without white space that are read alike are spelled alike. -/
theorem split_inj {s' : String} (plain : Plain s) (plain' : Plain s') (same : split s = split s') :
    s = s' := by
  apply String.toList_inj.mp
  rw [(spells_split s).toList plain, (spells_split s').toList plain', same]

/-- A spelling of a type is taken apart into the type. -/
theorem split_of_spells (named : t.WellFormed) (spells : Spells s t) : split s = t := by
  obtain ⟨front, back, gaps, blankFront, blankBack, blank, count, whole⟩ := spells
  have filled : t.element.toList.reverse ≠ [] := by simpa using named.filled
  have word : ∀ c ∈ t.element.toList.reverse, isNameChar c = true :=
    fun c member => named.proper c (List.mem_reverse.mp member)
  have front_off : Text.trimFront s.toList =
      t.element.toList ++ gaps.flatMap (· ++ ['[', ']']) ++ back := by
    rw [whole]
    apply blankFront.dropWhile_append
    intro c first
    obtain ⟨d, ds, element⟩ := List.exists_cons_of_ne_nil named.filled
    rw [element] at first
    cases first
    apply not_blank_of_isNameChar
    apply named.proper
    rw [element]
    exact List.mem_cons_self
  have back_off : (Text.trimFront s.toList).reverse.dropWhile Text.isBlank =
      backMarks (gaps.map List.reverse).reverse ++ t.element.toList.reverse := by
    rw [front_off, List.reverse_append, List.reverse_append, reverse_marks]
    exact blankBack.reverse.dropWhile_append (head?_backMarks_append word)
  simp only [split, back_off, stripMarks_backMarks (Blank.reversed blank) filled word,
    List.reverse_reverse, String.ofList_toList, List.length_reverse, List.length_map, count]

theorem wellFormed_iff : t.WellFormed ↔
    (isElement t.element.toList && !(t.element == "void" && t.dimensions != 0)) = true := by
  constructor
  · rintro ⟨element, noVoids⟩
    by_cases void : t.element = "void"
    · simp [element, noVoids void]
    · simp [element, void]
  · intro accepted
    simp only [Bool.and_eq_true, Bool.not_eq_true', Bool.and_eq_false_iff, beq_eq_false_iff_ne,
      bne_eq_false_iff_eq] at accepted
    refine ⟨accepted.1, fun void => ?_⟩
    exact accepted.2.resolve_left fun other => other void

/-- Reading accepts the spellings of types, and nothing else. -/
theorem parse?_eq_some_iff : parse? s = some t ↔ t.WellFormed ∧ Spells s t := by
  constructor
  · intro parsed
    simp only [parse?] at parsed
    split at parsed
    · rename_i accepted
      cases parsed
      exact ⟨wellFormed_iff.mpr accepted, spells_split s⟩
    · cases parsed
  · rintro ⟨named, spells⟩
    obtain rfl := split_of_spells named spells
    simp only [parse?]
    rw [if_pos (wellFormed_iff.mp named)]

/-- The code of a spelling is the code of the type. -/
theorem typeCode_of_parse? (parsed : parse? s = some t) : typeCode s = t.code := by
  rw [typeCode_eq_code_split, (parse?_some parsed).1]

/-- Of two names with types, the codes are the same exactly if the types are. -/
theorem typeCode_eq_iff {s' : String} (parsed : parse? s = some t) (parsed' : parse? s' = some u) :
    typeCode s = typeCode s' ↔ t = u := by
  rw [typeCode_of_parse? parsed, typeCode_of_parse? parsed']
  constructor
  · intro same
    have same : t.code.toList ++ [] = u.code.toList ++ [] := by rw [same]
    exact (code_append_inj (parse?_some parsed).2 (parse?_some parsed').2 same).1
  · rintro rfl
    rfl

end TypeName

namespace Signature

structure Readable (s : Signature) : Prop where
  params : ∀ p ∈ s.params, (TypeName.parse? p).isSome
  returns : (TypeName.parse? s.returns).isSome

/-- The same number of parameters, and the same types in all places, however they are spelled. -/
structure SameTypes (s t : Signature) : Prop where
  arity : s.arity = t.arity
  params : ∀ (i : Nat) (p q : String), s.params[i]? = some p → t.params[i]? = some q →
    TypeName.parse? p = TypeName.parse? q
  returns : TypeName.parse? s.returns = TypeName.parse? t.returns

variable {s t : Signature} {params params' : List TypeName} {returns returns' : TypeName}

theorem Readable.reads (readable : s.Readable) : ∃ params returns, s.Reads params returns := by
  have whole : ∀ name : String, (TypeName.parse? name).isSome →
      TypeName.parse? name = some (TypeName.split name) := by
    intro name readable
    obtain ⟨t, parsed⟩ := Option.isSome_iff_exists.mp readable
    rw [parsed, (TypeName.parse?_some parsed).1]
  refine ⟨s.params.map TypeName.split, TypeName.split s.returns, ?_, whole _ readable.returns⟩
  rw [List.map_map]
  apply List.map_congr_left
  intro name member
  exact whole name (readable.params name member)

/-- Types agree in all places exactly if the lists of types agree. -/
theorem sameTypes_iff (reads : s.Reads params returns) (reads' : t.Reads params' returns') :
    s.SameTypes t ↔ params = params' ∧ returns = returns' := by
  have arity : s.arity = params.length := by
    simpa [Signature.arity] using congrArg List.length reads.params
  have arity' : t.arity = params'.length := by
    simpa [Signature.arity] using congrArg List.length reads'.params
  constructor
  · rintro ⟨count, each, last⟩
    constructor
    · apply (List.map_inj_right fun _ _ => Option.some.inj).mp
      rw [← reads.params, ← reads'.params]
      apply List.ext_getElem
      · simpa [Signature.arity] using count
      · intro i inside inside'
        rw [List.getElem_map, List.getElem_map]
        exact each i _ _ (List.getElem?_eq_getElem _) (List.getElem?_eq_getElem _)
    · rw [reads.returns, reads'.returns] at last
      exact Option.some.inj last
  · rintro ⟨rfl, rfl⟩
    refine ⟨arity.trans arity'.symm, ?_, reads.returns.trans reads'.returns.symm⟩
    intro i p q there there'
    have same : (s.params.map TypeName.parse?)[i]? = (t.params.map TypeName.parse?)[i]? := by
      rw [reads.params, reads'.params]
    rw [List.getElem?_map, List.getElem?_map, there, there'] at same
    exact Option.some.inj same

/-- Only white space can make the parameters of two signatures with the same types differ. -/
theorem params_eq_of_plain {names names' : List String} {types : List TypeName}
    (reads : names.map TypeName.parse? = types.map some)
    (reads' : names'.map TypeName.parse? = types.map some)
    (plain : ∀ n ∈ names, TypeName.Plain n) (plain' : ∀ n ∈ names', TypeName.Plain n) :
    names = names' := by
  induction names generalizing names' types with
  | nil =>
    cases types with
    | nil => exact (List.map_eq_nil_iff.mp reads').symm
    | cons => cases reads
  | cons name names ih =>
    cases types with
    | nil => cases reads
    | cons t types =>
      cases names' with
      | nil => cases reads'
      | cons name' names' =>
        obtain ⟨parsed, later⟩ := List.cons.inj reads
        obtain ⟨parsed', later'⟩ := List.cons.inj reads'
        rw [List.forall_mem_cons] at plain plain'
        have same := (TypeName.parse?_some parsed).1.symm.trans (TypeName.parse?_some parsed').1
        rw [TypeName.split_inj plain.1 plain'.1 same, ih later later' plain.2 plain'.2]

end Signature

/-- Descriptors are uniquely decodable. Two signatures whose names of types can be read have the
same descriptor exactly if they have as many parameters and, in every place, the same types. A name
is read as the type that it spells, and its code is the code of that type, so nothing about the
spelling comes into the descriptor. -/
theorem descriptors_tell_types :
    (∀ s t : Signature, s.Readable → t.Readable →
      (s.descriptor = t.descriptor ↔ s.SameTypes t)) ∧
    ∀ (name : String) (t : TypeName),
      (TypeName.parse? name = some t ↔ t.WellFormed ∧ TypeName.Spells name t) ∧
      (TypeName.parse? name = some t → typeCode name = t.code) := by
  constructor
  · intro s t readable readable'
    obtain ⟨params, returns, reads⟩ := readable.reads
    obtain ⟨params', returns', reads'⟩ := readable'.reads
    rw [reads.descriptor_eq_iff reads', Signature.sameTypes_iff reads reads']
  · intro name t
    exact ⟨TypeName.parse?_eq_some_iff, TypeName.typeCode_of_parse?⟩

/-- White space makes no difference to the descriptor, but the place of a mark does. -/
theorem descriptors_of_spellings :
    let spaced : Signature := ⟨"f", ["int []", " long"], "void "⟩
    let tight : Signature := ⟨"g", ["int[]", "long"], "void"⟩
    let moved : Signature := ⟨"f", ["int", "long[]"], "void"⟩
    spaced.descriptor = tight.descriptor ∧ tight.descriptor ≠ moved.descriptor := by
  intro spaced tight moved
  have ints : TypeName.parse? "int" = some ⟨"int", 0⟩ := by cbv
  have arrays : TypeName.parse? "int[]" = some ⟨"int", 1⟩ := by cbv
  have readable : spaced.Readable := ⟨List.all_eq_true.mp (by cbv), by cbv⟩
  have readable' : tight.Readable := ⟨List.all_eq_true.mp (by cbv), by cbv⟩
  have readable'' : moved.Readable := ⟨List.all_eq_true.mp (by cbv), by cbv⟩
  constructor
  · apply (descriptors_tell_types.1 _ _ readable readable').mpr
    refine ⟨rfl, ?_, by cbv⟩
    rintro (_ | _ | _) p q ⟨⟩ ⟨⟩
    · cbv
    · cbv
  · intro same
    have types := (descriptors_tell_types.1 _ _ readable' readable'').mp same
    have first := types.params 0 "int[]" "int" rfl rfl
    rw [arrays, ints] at first
    cases first

end Rowwise
