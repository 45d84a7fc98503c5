import Mathlib
import Rowwise.Proofs.Machine.Evaluated

/-! What the machine takes for the length of a string: the number of its characters, against the
number of its code units in UTF-16. The two differ by the characters that take two units. -/
namespace Rowwise

namespace Text

/-- Characters above the first 65536 take a pair of code units. -/
def isPaired (c : Char) : Bool := 0x10000 ≤ c.toNat

def units (c : Char) : List UInt16 :=
  if isPaired c then
    let n := c.toNat - 0x10000
    [UInt16.ofNat (0xD800 + n / 0x400), UInt16.ofNat (0xDC00 + n % 0x400)]
  else
    [UInt16.ofNat c.toNat]

def utf16 (s : String) : List UInt16 := s.toList.flatMap units

/-- How many characters of a string take two code units. -/
def paired (s : String) : Nat := s.toList.countP isPaired

theorem length_units (c : Char) : (units c).length = if isPaired c then 2 else 1 := by
  unfold units
  split <;> rfl

theorem length_utf16 (s : String) : (utf16 s).length = s.length + paired s := by
  rw [utf16, paired, ← String.length_toList]
  induction s.toList with
  | nil => rfl
  | cons c cs ih =>
    rw [List.flatMap_cons, List.length_append, length_units, List.countP_cons, List.length_cons, ih]
    split <;> omega

theorem paired_eq_zero {s : String} : paired s = 0 ↔ ∀ c ∈ s.toList, isPaired c = false := by
  simp [paired, List.countP_eq_zero]

/-- A code unit that is a character of its own is the text of that `char` value. -/
theorem units_text {c : Char} (single : isPaired c = false) :
    (units c).map (fun unit => (Value.char unit).text) = [String.singleton c] := by
  have small : c.toNat < 0x10000 := by simpa [isPaired] using single
  have whole : (UInt16.ofNat c.toNat).toNat = c.toNat := UInt16.toNat_ofNat_of_lt' small
  have valid : c.toNat < 0xD800 ∨ 0xDFFF < c.toNat ∧ c.toNat < 0x110000 := c.valid
  have full : ¬ (0xD800 ≤ UInt16.ofNat c.toNat ∧ UInt16.ofNat c.toNat ≤ 0xDFFF) := by
    rw [UInt16.le_iff_toNat_le, UInt16.le_iff_toNat_le, whole]
    change ¬ (0xD800 ≤ c.toNat ∧ c.toNat ≤ 0xDFFF)
    omega
  simp [units, single, Value.text, Value.unitText, full, whole, Char.ofNat_toNat]

/-- Read as `char` values, the code units of such characters spell the string. -/
theorem join_utf16 {s : String} (single : ∀ c ∈ s.toList, isPaired c = false) :
    String.join ((utf16 s).map fun unit => (Value.char unit).text) = s := by
  rw [← String.toList_inj, String.toList_join, utf16, List.map_flatMap, List.flatMap_assoc]
  generalize s.toList = cs at single ⊢
  induction cs with
  | nil => rfl
  | cons c cs ih =>
    rw [List.forall_mem_cons] at single
    rw [List.flatMap_cons, units_text single.1, ih single.2]
    simp

end Text

/-- The value is made of these strings, in this order, by concatenation. -/
inductive Joined : List String → Value → Prop where
  | one (s : String) : Joined [s] (.string s)
  | concat {front back : List String} {u v w : Value} : Joined front u → Joined back v →
      Operation.concat.Evaluates [u, v] (.ok w) → Joined (front ++ back) w

namespace Joined

variable {texts : List String} {v : Value}

theorem concat_evaluates (s t : String) :
    Operation.concat.Evaluates [.string s, .string t] (.ok (.string (s ++ t))) := by
  have evaluates : Operation.concat.Evaluates [.string s, .string t]
      (.ok (.string ((Value.string s).text ++ (Value.string t).text))) :=
    .of_binary (f := fun a b => .ok (.string (a.text ++ b.text))) rfl (Stack.takes_pop _)
      (Stack.takes_pop _)
  simpa only [Value.text] using evaluates

theorem joined_join (filled : texts ≠ []) : Joined texts (.string (String.join texts)) := by
  induction texts with
  | nil => exact absurd rfl filled
  | cons s texts ih =>
    by_cases last : texts = []
    · subst last
      simpa using Joined.one s
    · rw [String.join_cons]
      exact .concat (.one s) (ih last) (concat_evaluates s _)

theorem eq_join (joined : Joined texts v) : v = .string (String.join texts) := by
  induction joined with
  | one s => simp
  | concat _ _ evaluates front back =>
    subst front back
    have whole := evaluates.unique (concat_evaluates _ _)
    rw [Except.ok.inj whole, String.join_append]

end Joined

/-- `n` is what the machine pushes for the length of a string that is joined from these. -/
structure Measured (texts : List String) (v : Value) (n : Int32) : Prop where
  evaluates : Operation.length.Evaluates [v] (.ok (.int n))
  characters : n.toInt = (texts.map String.length).sum
  /-- Every character that takes two code units is one short. -/
  units : n.toInt + (texts.map Text.paired).sum = (texts.map fun s => (Text.utf16 s).length).sum
  exact : n.toInt = (texts.map fun s => (Text.utf16 s).length).sum ↔
    ∀ s ∈ texts, ∀ c ∈ s.toList, Text.isPaired c = false

theorem length_evaluates (s : String) :
    Operation.length.Evaluates [.string s] (.ok (.int (.ofNat s.length))) := by
  have seen : (Value.string s).asString? = some s := rfl
  exact .of_unary (f := fun s : String => .int (.ofNat s.length)) rfl (Stack.takes_popAs seen)

theorem length_join (texts : List String) :
    (String.join texts).length = (texts.map String.length).sum := by
  induction texts with
  | nil => rfl
  | cons s texts ih =>
    rw [String.join_cons, String.length_append, List.map_cons, List.sum_cons, ih]

theorem sum_utf16 (texts : List String) :
    (texts.map fun s => (Text.utf16 s).length).sum =
      (texts.map String.length).sum + (texts.map Text.paired).sum := by
  induction texts with
  | nil => rfl
  | cons s texts ih =>
    rw [List.map_cons, List.map_cons, List.map_cons, List.sum_cons, List.sum_cons, List.sum_cons,
      ih, Text.length_utf16]
    omega

theorem measured_join {texts : List String} (few : (texts.map String.length).sum < 2 ^ 31) :
    Measured texts (.string (String.join texts)) (.ofNat (String.join texts).length) := by
  have characters : (Int32.ofNat (String.join texts).length).toInt =
      (texts.map String.length).sum := by
    rw [length_join, Int32.toInt_ofNat_of_lt few]
  have none : (texts.map Text.paired).sum = 0 ↔ ∀ s ∈ texts, ∀ c ∈ s.toList,
      Text.isPaired c = false := by
    simp [List.sum_eq_zero_iff_forall_eq_nat, Text.paired_eq_zero]
  refine ⟨length_evaluates _, characters, ?_, ?_⟩
  · rw [characters, sum_utf16]
    omega
  · rw [characters, sum_utf16, ← none]
    omega

/-- The length of a string is the number of its characters. That is the number of its code units in
UTF-16 exactly if none of them takes two, and falls short by one for each that does. A string that
is joined from others, in whatever order that is done, has the sum of their lengths. Code units of
strings without pairs are the `char` values that spell them. -/
theorem length_counts_characters {texts : List String} (filled : texts ≠ [])
    (few : (texts.map String.length).sum < 2 ^ 31) :
    (∃ v, Joined texts v) ∧ (∀ v, Joined texts v → ∃ n, Measured texts v n) ∧
    (∀ s : String, (∀ c ∈ s.toList, Text.isPaired c = false) →
      String.join ((Text.utf16 s).map fun unit => (Value.char unit).text) = s) := by
  refine ⟨⟨_, Joined.joined_join filled⟩, ?_, fun _ => Text.join_utf16⟩
  intro v joined
  rw [joined.eq_join]
  exact ⟨_, measured_join few⟩

/-- A string that has two code units more than characters. -/
theorem faces_measured :
    ∃ v n, Joined ["für ", "😀😀"] v ∧ Measured ["für ", "😀😀"] v n ∧ n.toInt = 6 ∧
      (["für ", "😀😀"].map fun s => (Text.utf16 s).length).sum = 8 := by
  have filled : ["für ", "😀😀"] ≠ [] := nofun
  obtain ⟨⟨v, joined⟩, measures, -⟩ := length_counts_characters filled (by decide)
  obtain ⟨n, measured⟩ := measures v joined
  exact ⟨v, n, joined, measured, measured.characters, by decide⟩

def faces : Class where
  name := "Faces"
  constants := { strings := ["😀"] }
  methods :=
    [{ name := "size", params := [], returns := "int", locals := 0,
       code := [0x09, 0, 0, 0, 0, 0x81, 0xA2] }]

/-- The string has two code units, and its length is one. -/
theorem face_counted_once :
    (¬∀ s : String, (Text.utf16 s).length < 2 ^ 31 →
      Operation.length.Evaluates [.string s] (.ok (.int (.ofNat (Text.utf16 s).length)))) ∧
    faces.verify = .ok () ∧ (Text.utf16 "😀").length = 2 ∧
      faces.Ends {} 0 [] (.ok (.int 1)) := by
  have units : (Text.utf16 "😀").length = 2 := by decide
  refine ⟨fun counts => ?_, by cbv, units, 3, rfl⟩
  have pushed := counts "😀" (by rw [units]; decide)
  rw [units] at pushed
  have same := pushed.unique (length_evaluates "😀")
  cases same

end Rowwise
