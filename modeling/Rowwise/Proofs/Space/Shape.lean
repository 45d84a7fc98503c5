import Rowwise.Proofs.Space.Store
import Rowwise.Proofs.Types.Spelled

/-! What the digest of a native type tells of its shape. A mark stands before each parameter and
each return type, and nothing between a type and the name that follows it. So the digest tells the
parameters, but it does not tell where a name begins, and a mark in the name of a method looks like
one of its own. -/
namespace Rowwise

namespace Bytes

theorem utf8_append (s t : String) : utf8 (s ++ t) = utf8 s ++ utf8 t := by
  simp [utf8]

theorem utf8_inj {s t : String} : utf8 s = utf8 t ↔ s = t := by
  simp [utf8, ← ByteArray.ext_iff, String.toByteArray_inj]

theorem utf8_eq_flatMap (s : String) : utf8 s = s.toList.flatMap String.utf8EncodeChar := by
  have encoded := String.toByteArray_ofList (l := s.toList)
  rw [String.ofList_toList] at encoded
  simp [utf8, encoded, List.utf8Encode]

/-- A byte below 128 stands for the character with its number. -/
theorem toNat_of_mem_utf8EncodeChar {c : Char} {b : UInt8} (small : b.toNat < 128)
    (member : b ∈ String.utf8EncodeChar c) : c.toNat = b.toNat := by
  change c.val.toNat = b.toNat
  simp only [String.utf8EncodeChar] at member
  repeat' split at member
  all_goals simp only [List.mem_cons, List.not_mem_nil, or_false] at member
  · subst member
    simp only [UInt8.toNat_ofNat']
    omega
  all_goals
    exfalso
    rcases member with rfl | rfl | rfl | rfl <;> simp only [UInt8.toNat_ofNat'] at small <;> omega

theorem mem_of_mem_utf8 {s : String} {b : UInt8} (small : b.toNat < 128) (member : b ∈ utf8 s) :
    Char.ofNat b.toNat ∈ s.toList := by
  rw [utf8_eq_flatMap] at member
  obtain ⟨c, inside, encoded⟩ := List.mem_flatMap.mp member
  rw [← toNat_of_mem_utf8EncodeChar small encoded, Char.ofNat_toNat]
  exact inside

end Bytes

namespace LoadedType

open Bytes

def Mark (b : UInt8) : Prop := b = 0 ∨ b = 1

/-- The text has nothing that could be taken for a mark. -/
def Unmarked (s : String) : Prop := '\x00' ∉ s.toList ∧ '\x01' ∉ s.toList

/-- The texts that stand in a row without a mark: the name of the type and that of the first method,
then each return type and the name of the method behind it. -/
def joints (name : String) : List Declared → List String
  | [] => [name]
  | m :: later => (name ++ m.name) :: joints m.returns later

structure SameShape (t u : LoadedType) : Prop where
  name : t.name = u.name
  signatures : t.methods.map (·.toSignature) = u.methods.map (·.toSignature)

def Registered (t : LoadedType) : Prop :=
  ∃ (r : Registry) (name : String) (methods : List NativeMethod),
    (r.register name methods).1 = .ok t

variable {s : String} {name name' : String} {m : Declared} {methods methods' later : List Declared}
  {params params' : List String} {t u : LoadedType}

theorem Unmarked.bytes (unmarked : Unmarked s) : ∀ b ∈ utf8 s, ¬ Mark b := by
  intro b member mark
  rcases mark with rfl | rfl
  · exact unmarked.1 (mem_of_mem_utf8 (by decide) member)
  · exact unmarked.2 (mem_of_mem_utf8 (by decide) member)

theorem Unmarked.append {s' : String} (first : Unmarked s) (second : Unmarked s') :
    Unmarked (s ++ s') := by
  simp only [Unmarked, String.toList_append, List.mem_append, not_or]
  exact ⟨⟨first.1, second.1⟩, first.2, second.2⟩

/-- No type is spelled with a mark. -/
theorem unmarked_of_parse? (named : (TypeName.parse? s).isSome) : Unmarked s := by
  obtain ⟨type, parsed⟩ := Option.isSome_iff_exists.mp named
  obtain ⟨formed, front, back, gaps, blankFront, blankBack, blank, -, whole⟩ :=
    TypeName.parse?_eq_some_iff.mp parsed
  have absent (c : Char) (solid : Text.isBlank c = false) (other : TypeName.isNameChar c = false)
      (noMark : c ∉ ['[', ']']) : c ∉ s.toList := by
    rw [whole]
    simp only [List.mem_append, List.mem_flatMap, not_or, not_exists, not_and]
    refine ⟨fun member => ?_, ⟨fun member => ?_, fun gap inside => ⟨fun member => ?_, noMark⟩⟩,
      fun member => ?_⟩
    · exact absurd (blankFront c member) (by simp [solid])
    · exact absurd (formed.proper c member) (by simp [other])
    · exact absurd (blank gap inside c member) (by simp [solid])
    · exact absurd (blankBack c member) (by simp [solid])
  exact ⟨absent _ (by decide) (by decide) (by decide), absent _ (by decide) (by decide) (by decide)⟩

def marked (params : List String) : List UInt8 := params.flatMap fun p => 0 :: utf8 p

theorem shape_nil (name : String) : shape name [] = utf8 name := by
  simp [shape]

/-- Behind the return type of a method stands what a type of that name would have there. -/
theorem shape_cons (name : String) (m : Declared) (later : List Declared) :
    shape name (m :: later) =
      utf8 name ++ (utf8 m.name ++ (marked m.params ++ 1 :: shape m.returns later)) := by
  simp [shape, marked]

/-- Nothing stands between the name in front and that of the first method. -/
theorem shape_joint (name : String) (m : Declared) (later : List Declared) :
    shape name (m :: later) =
      utf8 (name ++ m.name) ++ (marked m.params ++ 1 :: shape m.returns later) := by
  rw [shape_cons, utf8_append, List.append_assoc]

theorem marked_append_one (params : List String) (rest : List UInt8) :
    ∃ b bs, marked params ++ 1 :: rest = b :: bs ∧ Mark b := by
  cases params with
  | nil => exact ⟨1, rest, rfl, .inr rfl⟩
  | cons p params => exact ⟨0, _, rfl, .inl rfl⟩

/-- Texts without marks, followed by a mark, fall apart there. -/
theorem utf8_append_inj {s' : String} {b b' : UInt8} {bs bs' : List UInt8} (unmarked : Unmarked s)
    (unmarked' : Unmarked s') (mark : Mark b) (mark' : Mark b')
    (same : utf8 s ++ b :: bs = utf8 s' ++ b' :: bs') : s = s' ∧ b :: bs = b' :: bs' := by
  obtain ⟨texts, rests⟩ := run_inj (p := fun b => ¬ Mark b) unmarked.bytes unmarked'.bytes
    (not_not.mpr mark) (not_not.mpr mark') same
  exact ⟨utf8_inj.mp texts, rests⟩

theorem marked_inj {rest rest' : List UInt8} (unmarked : ∀ p ∈ params, Unmarked p)
    (unmarked' : ∀ p ∈ params', Unmarked p)
    (same : marked params ++ 1 :: rest = marked params' ++ 1 :: rest') :
    params = params' ∧ rest = rest' := by
  induction params generalizing params' with
  | nil =>
    cases params' with
    | nil => exact ⟨rfl, (List.cons.inj same).2⟩
    | cons p params' => exact absurd (List.cons.inj same).1 (by decide)
  | cons p params ih =>
    cases params' with
    | nil => exact absurd (List.cons.inj same).1 (by decide)
    | cons p' params' =>
      rw [List.forall_mem_cons] at unmarked unmarked'
      obtain ⟨b, bs, starts, mark⟩ := marked_append_one params rest
      obtain ⟨b', bs', starts', mark'⟩ := marked_append_one params' rest'
      have same : utf8 p ++ (marked params ++ 1 :: rest) =
          utf8 p' ++ (marked params' ++ 1 :: rest') := by
        simpa [marked] using same
      rw [starts, starts'] at same
      obtain ⟨rfl, behind⟩ := utf8_append_inj unmarked.1 unmarked'.1 mark mark' same
      rw [← starts, ← starts'] at behind
      obtain ⟨rfl, rests⟩ := ih unmarked.2 unmarked'.2 behind
      exact ⟨rfl, rests⟩

/-- No type in the signature is spelled with a mark. -/
structure TypesUnmarked (m : Declared) : Prop where
  params : ∀ p ∈ m.params, Unmarked p
  returns : Unmarked m.returns

/-- The mark of a return type is not in a name. -/
theorem shape_cons_ne_nil (unmarked : Unmarked name') :
    shape name (m :: later) ≠ shape name' [] := by
  intro same
  have member : 1 ∈ shape name (m :: later) := by
    rw [shape_cons]
    simp
  rw [same, shape_nil] at member
  exact unmarked.bytes 1 member (.inr rfl)

/-- Where no name has a mark, a shape tells the parameters of each method and the texts between the
marks, and nothing else. -/
theorem shape_eq_iff (first : Unmarked name) (first' : Unmarked name')
    (types : ∀ m ∈ methods, TypesUnmarked m) (types' : ∀ m ∈ methods', TypesUnmarked m)
    (names : ∀ m ∈ methods, Unmarked m.name) (names' : ∀ m ∈ methods', Unmarked m.name) :
    shape name methods = shape name' methods' ↔
      methods.map (·.params) = methods'.map (·.params) ∧
        joints name methods = joints name' methods' := by
  induction methods generalizing name name' methods' with
  | nil =>
    cases methods' with
    | nil => simp [shape_nil, utf8_inj, joints]
    | cons m' later' => simp [(shape_cons_ne_nil first).symm]
  | cons m later ih =>
    cases methods' with
    | nil => simp [shape_cons_ne_nil first']
    | cons m' later' =>
      rw [List.forall_mem_cons] at types types' names names'
      have rest := ih types.1.returns types'.1.returns types.2 types'.2 names.2 names'.2
      rw [shape_joint, shape_joint, List.map_cons, List.map_cons, List.cons.injEq, joints, joints,
        List.cons.injEq]
      constructor
      · intro same
        obtain ⟨b, bs, starts, mark⟩ := marked_append_one m.params (shape m.returns later)
        obtain ⟨b', bs', starts', mark'⟩ := marked_append_one m'.params (shape m'.returns later')
        rw [starts, starts'] at same
        obtain ⟨texts, behind⟩ :=
          utf8_append_inj (first.append names.1) (first'.append names'.1) mark mark' same
        rw [← starts, ← starts'] at behind
        obtain ⟨params, shapes⟩ := marked_inj types.1.params types'.1.params behind
        obtain ⟨others, joints⟩ := rest.mp shapes
        exact ⟨⟨params, others⟩, texts, joints⟩
      · rintro ⟨⟨params, others⟩, texts, joints⟩
        rw [texts, params, rest.mpr ⟨others, joints⟩]

/-- A word and a mark behind it fall apart at the first mark, and in front of that stands the same
text whatever mark comes behind the word. -/
theorem exists_first_mark {b b' : UInt8} (mark : Mark b) (mark' : Mark b')
    (word bs bs' : List UInt8) :
    ∃ front c cs c' cs', (∀ b ∈ front, ¬ Mark b) ∧ Mark c ∧ Mark c' ∧
      word ++ b :: bs = front ++ c :: cs ∧ word ++ b' :: bs' = front ++ c' :: cs' := by
  induction word with
  | nil => exact ⟨[], b, bs, b', bs', by simp, mark, mark', rfl, rfl⟩
  | cons a word ih =>
    by_cases solid : Mark a
    · exact ⟨[], a, word ++ b :: bs, a, word ++ b' :: bs', by simp, solid, solid, rfl, rfl⟩
    · obtain ⟨front, c, cs, c', cs', run, first, first', whole, whole'⟩ := ih
      have longer : ∀ b ∈ a :: front, ¬ Mark b := List.forall_mem_cons.mpr ⟨solid, run⟩
      refine ⟨a :: front, c, cs, c', cs', longer, first, first', ?_, ?_⟩
      · rw [List.cons_append, whole, List.cons_append]
      · rw [List.cons_append, whole', List.cons_append]

/-- A word that is known, marks and all, does not hide where the text in front of it ends. -/
theorem utf8_append_cancel {s' : String} {word : List UInt8} {b b' : UInt8} {bs bs' : List UInt8}
    (unmarked : Unmarked s) (unmarked' : Unmarked s') (mark : Mark b) (mark' : Mark b')
    (same : utf8 s ++ (word ++ b :: bs) = utf8 s' ++ (word ++ b' :: bs')) :
    s = s' ∧ b :: bs = b' :: bs' := by
  obtain ⟨front, c, cs, c', cs', run, first, first', whole, whole'⟩ :=
    exists_first_mark mark mark' word bs bs'
  have texts : utf8 s ++ front = utf8 s' ++ front := by
    rw [whole, whole', ← List.append_assoc, ← List.append_assoc] at same
    refine (run_inj (p := fun b => ¬ Mark b) ?_ ?_ (not_not.mpr first) (not_not.mpr first') same).1
    · exact List.forall_mem_append.mpr ⟨unmarked.bytes, run⟩
    · exact List.forall_mem_append.mpr ⟨unmarked'.bytes, run⟩
  obtain rfl := utf8_inj.mp (List.append_cancel_right texts)
  exact ⟨rfl, List.append_cancel_left (List.append_cancel_left same)⟩

/-- Where the names of the methods are known, marks and all, a shape tells everything else. -/
theorem shape_inj (names : methods.map (·.name) = methods'.map (·.name)) (first : Unmarked name)
    (first' : Unmarked name') (types : ∀ m ∈ methods, TypesUnmarked m)
    (types' : ∀ m ∈ methods', TypesUnmarked m) (same : shape name methods = shape name' methods') :
    name = name' ∧ methods.map (·.toSignature) = methods'.map (·.toSignature) := by
  induction methods generalizing name name' methods' with
  | nil =>
    obtain rfl : methods' = [] := List.map_eq_nil_iff.mp names.symm
    rw [shape_nil, shape_nil] at same
    exact ⟨utf8_inj.mp same, rfl⟩
  | cons m later ih =>
    cases methods' with
    | nil => cases names
    | cons m' later' =>
      obtain ⟨known : m.name = m'.name, names⟩ := List.cons.inj names
      rw [List.forall_mem_cons] at types types'
      obtain ⟨b, bs, starts, mark⟩ := marked_append_one m.params (shape m.returns later)
      obtain ⟨b', bs', starts', mark'⟩ := marked_append_one m'.params (shape m'.returns later')
      rw [shape_cons, shape_cons, known, starts, starts'] at same
      obtain ⟨rfl, behind⟩ := utf8_append_cancel first first' mark mark' same
      rw [← starts, ← starts'] at behind
      obtain ⟨params, shapes⟩ := marked_inj types.1.params types'.1.params behind
      obtain ⟨returns, others⟩ := ih names types.1.returns types'.1.returns types.2 types'.2 shapes
      refine ⟨rfl, List.cons_eq_cons.mpr ⟨?_, others⟩⟩
      change (⟨m.name, m.params, m.returns⟩ : Signature) = ⟨m'.name, m'.params, m'.returns⟩
      rw [known, params, returns]

/-- With the texts between the marks known, the names of the methods go with the return types. -/
theorem names_of_joints (texts : joints name methods = joints name methods')
    (returns : methods.map (·.returns) = methods'.map (·.returns)) :
    methods.map (·.name) = methods'.map (·.name) := by
  induction methods generalizing name methods' with
  | nil =>
    obtain rfl : methods' = [] := List.map_eq_nil_iff.mp returns.symm
    rfl
  | cons m later ih =>
    cases methods' with
    | nil => cases returns
    | cons m' later' =>
      obtain ⟨same : m.returns = m'.returns, returns⟩ := List.cons.inj returns
      rw [joints, joints, same, List.cons.injEq, String.append_right_inj] at texts
      exact List.cons_eq_cons.mpr ⟨texts.1, ih texts.2 returns⟩

/-- The hash keeps the two messages apart. -/
def NoCollision (message message' : List UInt8) : Prop :=
  Digest.sha256 message = Digest.sha256 message' → message = message'

theorem Registered.digest (made : Registered t) :
    t.digest = Digest.sha256 (shape t.name t.methods) := by
  obtain ⟨r, name, methods, admitted⟩ := made
  obtain ⟨-, -, rfl⟩ := Registry.register_ok_iff.mp admitted
  rfl

theorem Registered.unmarked (made : Registered t) :
    Unmarked t.name ∧ ∀ m ∈ t.methods, TypesUnmarked m := by
  obtain ⟨r, name, methods, admitted⟩ := made
  obtain ⟨readable, -, rfl⟩ := Registry.register_ok_iff.mp admitted
  simp only [Registry.typeNames, List.forall_mem_cons, List.forall_mem_flatMap,
    List.forall_mem_append] at readable
  refine ⟨unmarked_of_parse? readable.1, List.forall_mem_map.mpr fun m member => ?_⟩
  obtain ⟨params, returns, -⟩ := readable.2 m member
  exact ⟨fun p inside => unmarked_of_parse? (params p inside), unmarked_of_parse? returns⟩

theorem digest_eq_iff (made : Registered t) (made' : Registered u)
    (apart : NoCollision (shape t.name t.methods) (shape u.name u.methods)) :
    t.digest = u.digest ↔ shape t.name t.methods = shape u.name u.methods := by
  rw [made.digest, made'.digest]
  exact ⟨apart, congrArg _⟩

theorem SameShape.shape (same : SameShape t u) :
    LoadedType.shape t.name t.methods = LoadedType.shape u.name u.methods := by
  have whole (name : String) (methods : List Declared) : LoadedType.shape name methods =
      utf8 name ++ (methods.map (·.toSignature)).flatMap fun m =>
        utf8 m.name ++ m.params.flatMap (fun p => 0 :: utf8 p) ++ 1 :: utf8 m.returns := by
    rw [LoadedType.shape, List.flatMap_map]
  rw [whole, whole, same.name, same.signatures]

theorem signatures_eq_iff : methods.map (·.toSignature) = methods'.map (·.toSignature) ↔
    methods.map (·.name) = methods'.map (·.name) ∧
      methods.map (·.params) = methods'.map (·.params) ∧
      methods.map (·.returns) = methods'.map (·.returns) := by
  induction methods generalizing methods' with
  | nil => cases methods' <;> simp
  | cons m later ih =>
    cases methods' with
    | nil => simp
    | cons m' later' =>
      have parts : m.toSignature = m'.toSignature ↔
          m.name = m'.name ∧ m.params = m'.params ∧ m.returns = m'.returns :=
        Iff.of_eq (Signature.mk.injEq ..)
      simp only [List.map_cons, List.cons.injEq, ih, parts]
      tauto

/-- What the digests of two native types tell, as long as the hash keeps the bytes below them apart.
Types whose methods have the same names in the same order have the same digest exactly if their
shapes are the same. For other types the digest tells the parameters, and of the names no more than
the texts between the marks, so that it tells the shape only together with the name of the type and
the return types. -/
theorem digest_tells_joints (made : t.Registered) (made' : u.Registered)
    (apart : NoCollision (shape t.name t.methods) (shape u.name u.methods)) :
    (t.methods.map (·.name) = u.methods.map (·.name) → (t.digest = u.digest ↔ t.SameShape u)) ∧
    ((∀ m ∈ t.methods ++ u.methods, Unmarked m.name) →
      (t.digest = u.digest ↔ t.methods.map (·.params) = u.methods.map (·.params) ∧
        joints t.name t.methods = joints u.name u.methods) ∧
      (t.digest = u.digest → (t.SameShape u ↔
        t.name = u.name ∧ t.methods.map (·.returns) = u.methods.map (·.returns)))) := by
  obtain ⟨first, types⟩ := made.unmarked
  obtain ⟨first', types'⟩ := made'.unmarked
  rw [digest_eq_iff made made' apart]
  constructor
  · intro names
    constructor
    · intro same
      obtain ⟨name, signatures⟩ := shape_inj names first first' types types' same
      exact ⟨name, signatures⟩
    · exact SameShape.shape
  · intro unmarked
    rw [List.forall_mem_append] at unmarked
    have told := shape_eq_iff first first' types types' unmarked.1 unmarked.2
    refine ⟨told, fun same => ⟨fun shapes => ?_, ?_⟩⟩
    · exact ⟨shapes.name, (signatures_eq_iff.mp shapes.signatures).2.2⟩
    · rintro ⟨name, returns⟩
      obtain ⟨params, texts⟩ := told.mp same
      rw [name] at texts
      exact ⟨name, signatures_eq_iff.mpr ⟨names_of_joints texts returns, params, returns⟩⟩

def constant (m : String × String) : NativeMethod where
  name := m.1
  params := []
  returns := m.2
  access := Access.publicFlag ||| Access.staticFlag
  body := fun _ => .ok (.int 1)

def constants (name : String) (methods : List (String × String)) : LoadedType :=
  .ofNative name (methods.map constant) ⟨1⟩

theorem registered_constants {methods : List (String × String)}
    (readable : ((name :: methods.map (·.2)).all fun n => (TypeName.parse? n).isSome) = true) :
    (constants name methods).Registered := by
  refine ⟨{ name := "natives", space := ⟨1⟩ }, _, _, Registry.register_ok_iff.mpr ⟨?_, rfl, rfl⟩⟩
  simp only [List.all_eq_true, List.forall_mem_cons, List.forall_mem_map] at readable
  simp only [Registry.typeNames, List.forall_mem_cons, List.forall_mem_flatMap, List.forall_mem_map]
  exact ⟨readable.1, fun m member => by simpa [constant] using readable.2 m member⟩

def row : LoadedType := constants "Row" [("size", "int")]

def rows : LoadedType := constants "Rows" [("ize", "int")]

theorem row_registered : row.Registered := registered_constants (by cbv)

theorem rows_registered : rows.Registered := registered_constants (by cbv)

theorem row_shape : shape row.name row.methods = shape rows.name rows.methods := by
  change shape "Row" [(constant ("size", "int")).toDeclared] =
    shape "Rows" [(constant ("ize", "int")).toDeclared]
  rw [shape_joint, shape_joint]
  rfl

theorem row_and_rows : row.digest = rows.digest ∧ ¬row.SameShape rows := by
  have unmarked : ∀ m ∈ row.methods ++ rows.methods, Unmarked m.name := by
    simp [row, rows, constants, LoadedType.ofNative, constant, Unmarked]
  obtain ⟨told, whole⟩ :=
    (digest_tells_joints row_registered rows_registered fun _ => row_shape).2 unmarked
  have same := told.mpr ⟨rfl, by decide⟩
  exact ⟨same, fun shapes => absurd ((whole same).mp shapes).1 (by decide)⟩

/-- Two types of a registry with one digest, and not for a collision of the hash. -/
structure Confused (t u : LoadedType) : Prop where
  made : t.Registered
  made' : u.Registered
  apart : NoCollision (shape t.name t.methods) (shape u.name u.methods)
  digest : t.digest = u.digest

theorem confused_of_shape (made : t.Registered) (made' : u.Registered)
    (bytes : shape t.name t.methods = shape u.name u.methods) : Confused t u := by
  refine ⟨made, made', fun _ => bytes, ?_⟩
  rw [made.digest, made'.digest, bytes]

/-- A digest hides where the name of the type ends, then where a return type ends, and with a mark
in the name of a method even how many methods there are. -/
theorem digest_hides_shape :
    (¬∀ t u, Confused t u → t.name = u.name) ∧
    (¬∀ t u, Confused t u → t.name = u.name →
      t.methods.map (·.returns) = u.methods.map (·.returns)) ∧
    ¬∀ t u, Confused t u → t.name = u.name → t.methods.length = u.methods.length := by
  refine ⟨fun told => ?_, fun told => ?_, fun told => ?_⟩
  · have confused := confused_of_shape row_registered rows_registered row_shape
    exact absurd (told row rows confused) (by decide)
  · let t := constants "Table" [("key", "Row"), ("size", "int")]
    let u := constants "Table" [("key", "Rows"), ("ize", "int")]
    have confused : Confused t u := by
      refine confused_of_shape (registered_constants (by cbv)) (registered_constants (by cbv)) ?_
      change shape "Table" [(constant ("key", "Row")).toDeclared,
        (constant ("size", "int")).toDeclared] = shape "Table"
          [(constant ("key", "Rows")).toDeclared, (constant ("ize", "int")).toDeclared]
      rw [shape_joint, shape_joint]
      rfl
    exact absurd (told t u confused rfl) (by decide)
  · let t := constants "Table" [("first", "int"), ("last", "int")]
    let u := constants "Table" [("first\x01intlast", "int")]
    have confused : Confused t u := by
      refine confused_of_shape (registered_constants (by cbv)) (registered_constants (by cbv)) ?_
      change shape "Table" [(constant ("first", "int")).toDeclared,
        (constant ("last", "int")).toDeclared] =
          shape "Table" [(constant ("first\x01intlast", "int")).toDeclared]
      rw [shape_joint, shape_joint]
      rfl
    exact absurd (told t u confused rfl) (by decide)

end LoadedType
end Rowwise
