import Rowwise.Proofs.Machine.Discipline

/-! Classes that are extended. What is added gets new slots and positions, so everything that the
methods of a verified class refer to stays where it is, and the methods go on doing what they did.
-/
namespace Rowwise

theorem getElem?_of_grown {α : Type} {xs ys : List α} (grown : xs <+: ys) {i : Nat} {a : α}
    (found : xs[i]? = some a) : ys[i]? = some a := by
  obtain ⟨inside, rfl⟩ := List.getElem?_eq_some_iff.mp found
  exact List.prefix_iff_getElem?.mp grown i inside

/-- What stands in the one list stands at the same place in the other. -/
theorem getElem?_eq_of_grown {α : Type} {xs ys : List α} (grown : xs <+: ys) {i : Nat}
    (present : xs[i]? ≠ none) : ys[i]? = xs[i]? := by
  obtain ⟨a, found⟩ := Option.ne_none_iff_exists'.mp present
  rw [found]
  exact getElem?_of_grown grown found

theorem getElem?_of_idxOf? {α : Type} [BEq α] [LawfulBEq α] {xs : List α} {a : α} {i : Nat}
    (found : xs.idxOf? a = some i) : xs[i]? = some a := by
  obtain ⟨inside, here, -⟩ := List.idxOf?_eq_some_iff.mp found
  rw [List.getElem?_eq_getElem inside, here]

namespace Pool

/-- All constants of the one pool have the same slots in the other. -/
structure Grows (p q : Pool) : Prop where
  strings : p.strings <+: q.strings
  integers : p.integers <+: q.integers
  doubles : p.doubles <+: q.doubles

variable {p q r : Pool}

theorem Grows.refl (p : Pool) : p.Grows p :=
  ⟨List.prefix_rfl, List.prefix_rfl, List.prefix_rfl⟩

theorem Grows.trans (first : p.Grows q) (second : q.Grows r) : p.Grows r where
  strings := first.strings.trans second.strings
  integers := first.integers.trans second.integers
  doubles := first.doubles.trans second.doubles

theorem Grows.addString (s : String) (p : Pool) : p.Grows (p.addString s).2 := by
  unfold Pool.addString
  split
  · exact .refl p
  · exact ⟨List.prefix_append _ _, List.prefix_rfl, List.prefix_rfl⟩

theorem Grows.addInteger (n : Int64) (p : Pool) : p.Grows (p.addInteger n).2 := by
  unfold Pool.addInteger
  split
  · exact .refl p
  · exact ⟨List.prefix_rfl, List.prefix_append _ _, List.prefix_rfl⟩

theorem Grows.addDouble (bits : UInt64) (p : Pool) : p.Grows (p.addDouble bits).2 :=
  ⟨List.prefix_rfl, List.prefix_rfl, List.prefix_append _ _⟩

theorem strings_addString (s : String) (p : Pool) :
    (p.addString s).2.strings[(p.addString s).1]? = some s := by
  unfold Pool.addString
  split
  · rename_i slot found
    exact getElem?_of_idxOf? found
  · exact List.getElem?_concat_length

theorem integers_addInteger (n : Int64) (p : Pool) :
    (p.addInteger n).2.integers[(p.addInteger n).1]? = some n := by
  unfold Pool.addInteger
  split
  · rename_i slot found
    exact getElem?_of_idxOf? found
  · exact List.getElem?_concat_length

end Pool

namespace Class

inductive Addition where
  | method (m : Method)
  | text (s : String)
  | long (n : Int64)
  | double (bits : UInt64)
  deriving DecidableEq, Repr

def add : Addition → Class → Class
  | .method m, c => (c.addMethod m).2
  | .text s, c => { c with constants := (c.constants.addString s).2 }
  | .long n, c => { c with constants := (c.constants.addInteger n).2 }
  | .double bits, c => { c with constants := (c.constants.addDouble bits).2 }

def extend (c : Class) (additions : List Addition) : Class := additions.foldl (fun c a => c.add a) c

/-- The method or constant is what the class has at a position or in a slot. -/
def Holds (c : Class) (i : Nat) : Addition → Prop
  | .method m => c.methods[i]? = some m
  | .text s => c.constants.strings[i]? = some s
  | .long n => c.constants.integers[i]? = some n
  | .double bits => c.constants.doubles[i]? = some bits

/-- Constants and methods of the one class have the same slots and positions in the other. -/
structure Grows (c d : Class) : Prop where
  constants : c.constants.Grows d.constants
  methods : c.methods <+: d.methods

variable {c d e : Class} {m : Method} {p : Placed}

theorem Grows.refl (c : Class) : c.Grows c := ⟨.refl _, List.prefix_rfl⟩

theorem Grows.trans (first : c.Grows d) (second : d.Grows e) : c.Grows e where
  constants := first.constants.trans second.constants
  methods := first.methods.trans second.methods

theorem Grows.add (a : Addition) (c : Class) : c.Grows (c.add a) := by
  cases a with
  | method m => exact ⟨.refl _, List.prefix_append _ _⟩
  | text s => exact ⟨.addString s _, List.prefix_rfl⟩
  | long n => exact ⟨.addInteger n _, List.prefix_rfl⟩
  | double bits => exact ⟨.addDouble bits _, List.prefix_rfl⟩

theorem Grows.extend (additions : List Addition) (c : Class) : c.Grows (c.extend additions) := by
  induction additions generalizing c with
  | nil => exact .refl c
  | cons a later ih => exact (Grows.add a c).trans (ih (c.add a))

/-- Nothing moves when a class grows. -/
theorem Grows.holds (grows : c.Grows d) {i : Nat} {a : Addition} (holds : c.Holds i a) :
    d.Holds i a := by
  cases a with
  | method m => exact getElem?_of_grown grows.methods holds
  | text s => exact getElem?_of_grown grows.constants.strings holds
  | long n => exact getElem?_of_grown grows.constants.integers holds
  | double bits => exact getElem?_of_grown grows.constants.doubles holds

theorem holds_add (a : Addition) (c : Class) : ∃ i, (c.add a).Holds i a := by
  cases a with
  | method m => exact ⟨_, List.getElem?_concat_length⟩
  | text s => exact ⟨_, Pool.strings_addString s c.constants⟩
  | long n => exact ⟨_, Pool.integers_addInteger n c.constants⟩
  | double bits => exact ⟨_, List.getElem?_concat_length⟩

/-- Everything that is added is there in the end. -/
theorem holds_extend {additions : List Addition} {a : Addition} (member : a ∈ additions)
    (c : Class) : ∃ i, (c.extend additions).Holds i a := by
  induction additions generalizing c with
  | nil => cases member
  | cons b later ih =>
    rcases List.mem_cons.mp member with rfl | member
    · obtain ⟨i, holds⟩ := holds_add a c
      exact ⟨i, (Grows.extend later (c.add a)).holds holds⟩
    · exact ih member (c.add b)

/-! What verification accepts in the smaller class, it accepts in the larger one. -/

theorem Grows.verifyConstant (grows : c.Grows d) (ok : p.verifyConstant c.constants = .ok ()) :
    p.verifyConstant d.constants = .ok () := by
  have strings := grows.constants.strings.length_le
  have integers := grows.constants.integers.length_le
  unfold Placed.verifyConstant at ok ⊢
  split at ok
  · split at ok
    · rw [if_pos (by omega)]
    · cases ok
  · split at ok
    · rw [if_pos (by omega)]
    · cases ok
  · rfl

theorem Grows.verifyCall (grows : c.Grows d) (ok : p.verifyCall c.methods = .ok ()) :
    p.verifyCall d.methods = .ok () := by
  unfold Placed.verifyCall at ok ⊢
  split at ok
  · split at ok
    · cases ok
    · rename_i target found
      rw [getElem?_of_grown grows.methods found]
      exact ok
  · rfl

theorem Grows.verifyMethod (grows : c.Grows d) (ok : m.verify c = .ok ()) :
    m.verify d = .ok () := by
  obtain ⟨_, signature, ok⟩ := bind_ok ok
  obtain ⟨code, listed, ok⟩ := bind_ok ok
  obtain ⟨_, constants, ok⟩ := bind_ok ok
  obtain ⟨_, slots, ok⟩ := bind_ok ok
  obtain ⟨_, calls, walked⟩ := bind_ok ok
  have constants : code.forM (·.verifyConstant d.constants) = .ok () :=
    forM_ok_of_forall fun p member => grows.verifyConstant (forM_ok constants p member)
  have calls : code.forM (·.verifyCall d.methods) = .ok () :=
    forM_ok_of_forall fun p member => grows.verifyCall (forM_ok calls p member)
  simp only [Method.verify, bind, Except.bind, signature, listed, constants, slots, calls]
  exact walked

theorem Grows.verifyFrom (grows : c.Grows d) {earlier later : List Method}
    (ok : c.verifyFrom earlier later = .ok ()) : d.verifyFrom earlier later = .ok () := by
  induction later generalizing earlier with
  | nil => rfl
  | cons m later ih =>
    obtain ⟨fresh, passed, ok⟩ := verifyFrom_cons_ok ok
    rw [verifyFrom_of_passed fresh (grows.verifyMethod passed)]
    exact ih ok

/-- Methods that pass the checks can be left out in front of others. -/
theorem verifyFrom_append {earlier middle later : List Method}
    (ok : c.verifyFrom earlier middle = .ok ()) :
    c.verifyFrom earlier (middle ++ later) = c.verifyFrom (earlier ++ middle) later := by
  induction middle generalizing earlier with
  | nil => rw [List.nil_append, List.append_nil]
  | cons m middle ih =>
    obtain ⟨fresh, passed, ok⟩ := verifyFrom_cons_ok ok
    rw [List.cons_append, verifyFrom_of_passed fresh passed, ih ok, List.append_assoc,
      List.singleton_append]

/-- The defect is one of the method at this position: the method repeats an earlier one, or it
does not pass a check of its own. -/
inductive Blames (c : Class) (i : Nat) : ClassDefect → Prop where
  | repeated {m n : Method} {j : Nat} : c.methods[i]? = some m → j < i → c.methods[j]? = some n →
      n.name = m.name → n.params = m.params → Blames c i (.duplicateMethod m.name)
  | inside {m : Method} {defect : MethodDefect} : c.methods[i]? = some m →
      m.verify c = .error defect → Blames c i (.inMethod m.name defect)

/-- Verification blames one of the methods that it has not been through yet. -/
theorem blames_of_verifyFrom {earlier later : List Method} {defect : ClassDefect}
    (whole : c.methods = earlier ++ later) (error : c.verifyFrom earlier later = .error defect) :
    ∃ i, earlier.length ≤ i ∧ c.Blames i defect := by
  induction later generalizing earlier with
  | nil => cases error
  | cons m later ih =>
    have here : c.methods[earlier.length]? = some m := by rw [whole]; simp
    unfold verifyFrom at error
    split at error
    · rename_i taken
      cases error
      obtain ⟨n, member, same⟩ := List.any_eq_true.mp taken
      simp only [Bool.and_eq_true, beq_iff_eq] at same
      obtain ⟨j, inside, there⟩ := List.mem_iff_getElem.mp member
      have there : c.methods[j]? = some n := by
        rw [whole, List.getElem?_append_left inside, List.getElem?_eq_getElem inside, there]
      exact ⟨_, Nat.le_refl _, .repeated here inside there same.1 same.2⟩
    · split at error
      · rename_i failed
        cases error
        exact ⟨_, Nat.le_refl _, .inside here failed⟩
      · have whole : c.methods = (earlier ++ [m]) ++ later := by
          rw [whole, List.append_assoc, List.singleton_append]
        obtain ⟨i, beyond, blames⟩ := ih whole error
        rw [List.length_append] at beyond
        exact ⟨i, Nat.le_of_add_right_le beyond, blames⟩

/-- A class that has grown out of a verified one can only be refused for the new methods. -/
theorem Grows.blames (grows : c.Grows d) (verified : c.verify = .ok ()) {defect : ClassDefect}
    (error : d.verify = .error defect) : ∃ i, c.methods.length ≤ i ∧ d.Blames i defect := by
  obtain ⟨later, whole⟩ := grows.methods
  apply blames_of_verifyFrom whole.symm
  rw [← error, verify, ← whole]
  exact (verifyFrom_append (grows.verifyFrom verified)).symm

end Class

namespace State

variable {c d : Class} {s t : State} {limits : Limits}

/-- An instruction does the same in both classes if what it refers to exists in the smaller one. -/
theorem execute_of_grows (grows : c.Grows d) {i : Instruction}
    (text : ∀ index, i = .constText index → c.constants.strings[index.toNat]? ≠ none)
    (long : ∀ index, i = .constLong index → c.constants.integers[index.toNat]? ≠ none)
    (called : ∀ index args, i = .call index args → c.methods[index.toNat]? ≠ none) :
    s.execute d limits i = s.execute c limits i := by
  cases i with
  | constText index =>
    simp only [execute, getElem?_eq_of_grown grows.constants.strings (text index rfl)]
  | constLong index =>
    simp only [execute, getElem?_eq_of_grown grows.constants.integers (long index rfl)]
  | call index args =>
    simp only [execute, call, getElem?_eq_of_grown grows.methods (called index args rfl)]
  | _ => rfl

/-- In the states that a verified class gets into, a step is the same in both classes. -/
theorem step_of_grows (grows : c.Grows d) (verified : c.verify = .ok ()) (valid : s.Invariant c) :
    s.step d limits = s.step c limits := by
  obtain ⟨code, i, p, checked, here, stands, -, -⟩ := valid.fetches verified limits
  have member := List.mem_of_getElem? here
  have fetched := Frame.fetch_of_listing checked.listed member stands.symm
  rw [step_of_fetch fetched, step_of_fetch fetched]
  apply execute_of_grows grows
  · exact fun index => checked.text_exists member
  · exact fun index => checked.long_exists member
  · exact fun index args => checked.method_exists member

theorem run_of_grows (grows : c.Grows d) (verified : c.verify = .ok ()) (valid : s.Invariant c)
    (fuel : Nat) : s.run d limits fuel = s.run c limits fuel := by
  induction fuel generalizing s with
  | zero => rfl
  | succ fuel ih =>
    simp only [run, step_of_grows grows verified valid]
    cases step : s.step c limits with
    | error fault => rfl
    | ok progress =>
      cases progress with
      | finished result => rfl
      | running next => exact ih (valid.step verified step)

theorem start_of_grows (grows : c.Grows d) {index : Nat} (inside : index < c.methods.length)
    (args : List Value) : start d limits index args = start c limits index args := by
  have found : c.methods[index]? ≠ none := by simpa using inside
  simp only [start, getElem?_eq_of_grown grows.methods found]

end State

/-- An invocation of a method of a verified class is the same in every class that has grown out of
it, to the last step. -/
theorem Class.Grows.invoke {c d : Class} (grows : c.Grows d) (verified : c.verify = .ok ())
    {index : Nat} (inside : index < c.methods.length) (limits : Limits) (fuel : Nat)
    (args : List Value) : d.invoke limits fuel index args = c.invoke limits fuel index args := by
  simp only [Class.invoke, State.start_of_grows grows inside]
  cases started : State.start c limits index args with
  | error fault => rfl
  | ok s => exact State.run_of_grows grows verified (State.start_invariant verified started) fuel

/-- Extending a class never changes what it already does. Whatever is added to a verified class, its
constants and methods stay where they are. Every invocation of an old method takes the same course
as before, whatever the arguments and the limits are: it has the same result or the same fault after
the same number of steps, or it does not end either. The old methods still pass verification, which
can fail for nothing but a new one. -/
theorem extension_keeps_behaviour {c : Class} (verified : c.verify = .ok ())
    (additions : List Class.Addition) :
    (∀ i a, c.Holds i a → (c.extend additions).Holds i a) ∧
    (∀ a ∈ additions, ∃ i, (c.extend additions).Holds i a) ∧
    (∀ (limits : Limits) (fuel index : Nat) (args : List Value), index < c.methods.length →
      (c.extend additions).invoke limits fuel index args = c.invoke limits fuel index args) ∧
    (∀ m ∈ c.methods, m.verify (c.extend additions) = .ok ()) ∧
    ∀ defect, (c.extend additions).verify = .error defect →
      ∃ i, c.methods.length ≤ i ∧ (c.extend additions).Blames i defect := by
  have grows := Class.Grows.extend additions c
  refine ⟨?_, ?_, ?_, ?_, ?_⟩
  · intro i a holds
    exact grows.holds holds
  · intro a member
    exact Class.holds_extend member c
  · intro limits fuel index args inside
    exact grows.invoke verified inside limits fuel args
  · intro m member
    exact grows.verifyMethod (Class.verify_of_verifyFrom verified m member)
  · intro defect error
    exact grows.blames verified error

def parrot : Class where
  constants := { strings := ["hello"] }
  name := "Parrot"
  methods :=
    [{ name := "talk", params := [], returns := "java.lang.String", locals := 0,
       code := [0xA6, 1, 0, 0, 0, 0, 0, 0xA2] },
     { name := "phrase", params := [], returns := "java.lang.String", locals := 0,
       code := [0x09, 0, 0, 0, 0, 0xA2] }]

/-- A constant that is there already, another one, and a method that repeats the first. -/
def louder : List Class.Addition :=
  [.text "hello", .text "HELLO",
   .method { name := "talk", params := [], returns := "int", locals := 0,
             code := [0x09, 1, 0, 0, 0, 0xA2] }]

theorem louder_parrot_talks :
    parrot.verify = .ok () ∧
      (parrot.extend louder).invoke {} 4 0 [] = some (.ok (.string "hello")) ∧
      ∃ i, 2 ≤ i ∧ (parrot.extend louder).Blames i (.duplicateMethod "talk") := by
  have verified : parrot.verify = .ok () := by cbv
  obtain ⟨-, -, same, -, blames⟩ := extension_keeps_behaviour verified louder
  refine ⟨verified, ?_, ?_⟩
  · rw [same {} 4 0 [] (by decide)]
    cbv
  · apply blames
    cbv

end Rowwise
