import Rowwise.Types.TypeName

/-! Descriptors and the types that they stand for. The codes of types are prefix free, so the
descriptor of a signature tells its types; it does not tell how they were spelled. -/
namespace Rowwise

/-- Two texts that begin with a run of alike characters fall apart at the same place. -/
theorem run_inj {α : Type} {p : α → Prop} {xs ys xs' ys' : List α} {x y : α}
    (run : ∀ a ∈ xs, p a) (run' : ∀ a ∈ ys, p a) (other : ¬ p x) (other' : ¬ p y)
    (same : xs ++ x :: xs' = ys ++ y :: ys') : xs = ys ∧ x :: xs' = y :: ys' := by
  induction xs generalizing ys with
  | nil =>
    cases ys with
    | nil => exact ⟨rfl, same⟩
    | cons b ys =>
      obtain rfl : x = b := (List.cons.inj same).1
      exact absurd (run' x List.mem_cons_self) other
  | cons a xs ih =>
    cases ys with
    | nil =>
      obtain rfl : a = y := (List.cons.inj same).1
      exact absurd (run a List.mem_cons_self) other'
    | cons b ys =>
      obtain ⟨rfl, later⟩ := List.cons.inj same
      obtain ⟨rfl, rests⟩ := ih (fun c member => run c (List.mem_cons_of_mem _ member))
        (fun c member => run' c (List.mem_cons_of_mem _ member)) later
      exact ⟨rfl, rests⟩

namespace Primitive

variable {p q : Primitive}

theorem name_of_ofName? {s : String} (found : ofName? s = some p) : p.name = s := by
  have named := List.find?_some found
  exact eq_of_beq named

theorem letter_inj (same : p.letter = q.letter) : p = q := by
  cases p <;> cases q <;> first | rfl | cases same

/-- No letter can be taken for the beginning of another code or for the end of the parameters. -/
theorem letter_ne (p : Primitive) : p.letter ≠ 'L' ∧ p.letter ≠ '[' ∧ p.letter ≠ ')' := by
  cases p <;> decide

end Primitive

namespace TypeName

variable {s : String} {t u : TypeName} {rest rest' : List Char}

def Proper (t : TypeName) : Prop := ∀ c ∈ t.element.toList, isNameChar c = true

theorem parse?_some (parsed : parse? s = some t) : t = split s ∧ t.Proper := by
  simp only [parse?] at parsed
  split at parsed
  · rename_i fine
    cases parsed
    simp only [isElement, Bool.and_eq_true] at fine
    exact ⟨rfl, List.all_eq_true.mp fine.1.2⟩
  · cases parsed

/-- From the back, the loop of the code strips what reading strips. -/
theorem cutMarks_reverse (dimensions : Nat) (cs : List Char) :
    cutMarks dimensions cs.reverse =
      ((stripMarks cs).1.reverse, dimensions + (stripMarks cs).2) := by
  fun_induction stripMarks cs generalizing dimensions with
  | case1 rest stripped ih =>
    have marked : ['[', ']'].isSuffixOf (']' :: '[' :: rest).reverse = true := by
      rw [List.isSuffixOf_iff_suffix]
      exact ⟨rest.reverse, by simp⟩
    have cut : (']' :: '[' :: rest).reverse.take ((']' :: '[' :: rest).reverse.length - 2) =
        rest.reverse := by simp
    rw [cutMarks, dif_pos marked, cut, Text.trimBack, List.reverse_reverse, ih, Nat.add_right_comm,
      Nat.add_assoc]
  | case2 cs other =>
    rw [cutMarks, dif_neg]
    · rfl
    · intro marked
      obtain ⟨front, whole⟩ := List.isSuffixOf_iff_suffix.mp marked
      have same := congrArg List.reverse whole
      rw [List.reverse_append, List.reverse_reverse] at same
      exact other front.reverse same.symm

/-- The code is that of the name as it is read. -/
theorem typeCode_eq_code_split (s : String) : typeCode s = (split s).code := by
  rw [typeCode, Text.trimBack, cutMarks_reverse, Nat.zero_add, split]

def elementCode (t : TypeName) : List Char :=
  match t.primitive? with
  | some p => [p.letter]
  | none => 'L' :: t.element.toList.map (fun c => if c = '.' then '/' else c) ++ [';']

theorem toList_code (t : TypeName) :
    t.code.toList = List.replicate t.dimensions '[' ++ t.elementCode := by
  unfold code elementCode
  cases t.primitive? <;> simp

theorem elementCode_cons (t : TypeName) :
    ∃ c cs, t.elementCode = c :: cs ∧ c ≠ '[' ∧ c ≠ ')' := by
  unfold elementCode
  cases t.primitive? with
  | some p => exact ⟨p.letter, [], rfl, p.letter_ne.2⟩
  | none => exact ⟨'L', _, rfl, by decide, by decide⟩

/-- Slashes are no characters of names, so they stand for dots only. -/
theorem slashed_inj {cs ds : List Char} (proper : ∀ c ∈ cs, isNameChar c = true)
    (proper' : ∀ c ∈ ds, isNameChar c = true)
    (same : cs.map (fun c => if c = '.' then '/' else c) =
      ds.map fun c => if c = '.' then '/' else c) : cs = ds := by
  induction cs generalizing ds with
  | nil => exact (List.map_eq_nil_iff.mp same.symm).symm
  | cons c cs ih =>
    cases ds with
    | nil => cases same
    | cons d ds =>
      obtain ⟨first, later⟩ := List.cons.inj same
      rw [List.forall_mem_cons] at proper proper'
      have noSlash (e : Char) (name : isNameChar e = true) : e ≠ '/' := by
        rintro rfl; exact absurd name (by decide)
      have heads : c = d := by
        have := noSlash c proper.1
        have := noSlash d proper'.1
        grind
      rw [heads, ih proper.2 proper'.2 later]

theorem slashed_ne {cs : List Char} (proper : ∀ c ∈ cs, isNameChar c = true) :
    ∀ c ∈ cs.map fun c => if c = '.' then '/' else c, c ≠ ';' := by
  intro c member
  obtain ⟨d, inside, rfl⟩ := List.mem_map.mp member
  have name := proper d inside
  split
  · decide
  · rintro rfl
    exact absurd name (by decide)

theorem elementCode_append_inj (proper : t.Proper) (proper' : u.Proper)
    (same : t.elementCode ++ rest = u.elementCode ++ rest') :
    t.element = u.element ∧ rest = rest' := by
  unfold elementCode at same
  cases found : t.primitive? with
  | some p =>
    cases found' : u.primitive? with
    | some q =>
      simp only [found, found'] at same
      obtain ⟨letters, rests⟩ := List.cons.inj same
      obtain rfl := Primitive.letter_inj letters
      exact ⟨(Primitive.name_of_ofName? found).symm.trans (Primitive.name_of_ofName? found'), rests⟩
    | none =>
      simp only [found, found'] at same
      exact absurd (List.cons.inj same).1 p.letter_ne.1
  | none =>
    cases found' : u.primitive? with
    | some q =>
      simp only [found, found'] at same
      exact absurd (List.cons.inj same).1.symm q.letter_ne.1
    | none =>
      simp only [found, found', List.cons_append, List.append_assoc, List.nil_append] at same
      obtain ⟨names, rests⟩ := run_inj (p := (· ≠ ';')) (slashed_ne proper)
        (slashed_ne proper') (fun differs => differs rfl) (fun differs => differs rfl)
        (List.cons.inj same).2
      exact ⟨String.toList_inj.mp (slashed_inj proper proper' names), (List.cons.inj rests).2⟩

/-- The codes of types are prefix free. -/
theorem code_append_inj (proper : t.Proper) (proper' : u.Proper)
    (same : t.code.toList ++ rest = u.code.toList ++ rest') : t = u ∧ rest = rest' := by
  obtain ⟨c, cs, starts, noBracket, -⟩ := t.elementCode_cons
  obtain ⟨d, ds, starts', noBracket', -⟩ := u.elementCode_cons
  rw [toList_code, toList_code, List.append_assoc, List.append_assoc] at same
  rw [starts, starts', List.cons_append, List.cons_append] at same
  obtain ⟨brackets, same⟩ := run_inj (p := (· = '['))
    (fun _ member => List.eq_of_mem_replicate member)
    (fun _ member => List.eq_of_mem_replicate member) noBracket noBracket' same
  rw [← List.cons_append, ← List.cons_append, ← starts, ← starts'] at same
  obtain ⟨elements, rests⟩ := elementCode_append_inj proper proper' same
  have dimensions := congrArg List.length brackets
  simp only [List.length_replicate] at dimensions
  obtain ⟨_, _⟩ := t
  cases elements
  cases dimensions
  exact ⟨rfl, rests⟩

theorem code_cons (t : TypeName) : ∃ c cs, t.code.toList = c :: cs ∧ c ≠ ')' := by
  obtain ⟨c, cs, starts, -, noEnd⟩ := t.elementCode_cons
  rw [toList_code, starts]
  cases t.dimensions with
  | zero => exact ⟨c, cs, rfl, noEnd⟩
  | succ n => exact ⟨'[', _, rfl, by decide⟩

/-- The codes of parameters, up to the parenthesis behind them, tell the parameters. -/
theorem codes_inj {ts us : List TypeName} (proper : ∀ t ∈ ts, t.Proper)
    (proper' : ∀ u ∈ us, u.Proper)
    (same : ts.flatMap (·.code.toList) ++ ')' :: rest =
      us.flatMap (·.code.toList) ++ ')' :: rest') :
    ts = us ∧ rest = rest' := by
  induction ts generalizing us with
  | nil =>
    cases us with
    | nil => exact ⟨rfl, (List.cons.inj same).2⟩
    | cons u us =>
      obtain ⟨c, cs, starts, noEnd⟩ := u.code_cons
      rw [List.flatMap_cons, starts] at same
      exact absurd (List.cons.inj same).1.symm noEnd
  | cons t ts ih =>
    cases us with
    | nil =>
      obtain ⟨c, cs, starts, noEnd⟩ := t.code_cons
      rw [List.flatMap_cons, starts] at same
      exact absurd (List.cons.inj same).1 noEnd
    | cons u us =>
      rw [List.forall_mem_cons] at proper proper'
      rw [List.flatMap_cons, List.flatMap_cons, List.append_assoc, List.append_assoc] at same
      obtain ⟨rfl, later⟩ := code_append_inj proper.1 proper'.1 same
      obtain ⟨rfl, rests⟩ := ih proper.2 proper'.2 later
      exact ⟨rfl, rests⟩

end TypeName

namespace Signature

variable {s t : Signature} {params params' : List TypeName} {returns returns' : TypeName}

/-- The signature is well formed, and these are its types. -/
structure Reads (s : Signature) (params : List TypeName) (returns : TypeName) : Prop where
  params : s.params.map TypeName.parse? = params.map some
  returns : TypeName.parse? s.returns = some returns

theorem Reads.proper (reads : s.Reads params returns) : ∀ t ∈ params, t.Proper := by
  intro t member
  have inside : some t ∈ s.params.map TypeName.parse? :=
    reads.params ▸ List.mem_map_of_mem member
  obtain ⟨p, _, parsed⟩ := List.mem_map.mp inside
  exact (TypeName.parse?_some parsed).2

theorem typeCodes_of_reads {names : List String} {types : List TypeName}
    (reads : names.map TypeName.parse? = types.map some) :
    names.map typeCode = types.map TypeName.code := by
  induction names generalizing types with
  | nil =>
    cases types with
    | nil => rfl
    | cons => cases reads
  | cons name names ih =>
    cases types with
    | nil => cases reads
    | cons t types =>
      obtain ⟨parsed, later⟩ := List.cons.inj reads
      obtain ⟨rfl, -⟩ := TypeName.parse?_some parsed
      rw [List.map_cons, List.map_cons, ih later, TypeName.typeCode_eq_code_split]

theorem Reads.descriptor (reads : s.Reads params returns) :
    s.descriptor.toList =
      '(' :: (params.flatMap (·.code.toList) ++ ')' :: returns.code.toList) := by
  obtain ⟨codes, last⟩ := reads
  obtain ⟨rfl, -⟩ := TypeName.parse?_some last
  simp [Signature.descriptor, typeCodes_of_reads codes, TypeName.typeCode_eq_code_split,
    String.toList_join, List.flatMap_map]

/-- Descriptors tell the types of well-formed signatures. -/
theorem Reads.descriptor_eq_iff (reads : s.Reads params returns)
    (reads' : t.Reads params' returns') :
    s.descriptor = t.descriptor ↔ params = params' ∧ returns = returns' := by
  rw [← String.toList_inj, reads.descriptor, reads'.descriptor]
  constructor
  · intro same
    obtain ⟨params, last⟩ := TypeName.codes_inj reads.proper reads'.proper (List.cons.inj same).2
    have last : returns.code.toList ++ [] = returns'.code.toList ++ [] := by rw [last]
    have proper := (TypeName.parse?_some reads.returns).2
    have proper' := (TypeName.parse?_some reads'.returns).2
    exact ⟨params, (TypeName.code_append_inj proper proper' last).1⟩
  · rintro ⟨rfl, rfl⟩
    rfl

/-- The signatures have the same name and the same types, however the types are spelled. -/
def Agrees (s t : Signature) : Prop :=
  s.name = t.name ∧ s.params.map TypeName.parse? = t.params.map TypeName.parse? ∧
    TypeName.parse? s.returns = TypeName.parse? t.returns

theorem Agrees.refl (s : Signature) : s.Agrees s := ⟨rfl, rfl, rfl⟩

/-- Name and descriptor tell well-formed signatures up to the spelling of their types. -/
theorem Reads.agrees_iff (reads : s.Reads params returns) (reads' : t.Reads params' returns') :
    s.Agrees t ↔ s.name = t.name ∧ s.descriptor = t.descriptor := by
  rw [reads.descriptor_eq_iff reads', Agrees, reads.params, reads'.params, reads.returns,
    reads'.returns, List.map_inj_right fun _ _ => Option.some.inj, Option.some.injEq]

end Signature

end Rowwise
