import Mathlib.Algebra.Group.Int.Defs
import Mathlib.Algebra.Group.Nat.Defs
import Rowwise.Proofs.Machine.Evaluated

/-! Integer arithmetic of the machine against arithmetic on mathematical integers, at both widths.
-/
namespace Rowwise

/-- What an operation stands for on integers of any size. Quotients are truncated toward zero. -/
def Arithmetic.exact : Arithmetic → Int → Int → Int
  | .add, a, b => a + b
  | .sub, a, b => a - b
  | .mul, a, b => a * b
  | .div, a, b => a.tdiv b
  | .rem, a, b => a.tmod b

def Arithmetic.divides : Arithmetic → Bool
  | .div | .rem => true
  | _ => false

namespace Arithmetic

theorem onInt_eq (f : Arithmetic) (x y : Int32) :
    f.onInt x y =
      if f.divides ∧ y.toInt = 0 then .error .divisionByZero
      else .ok (.ofInt (f.exact x.toInt y.toInt)) := by
  have low (z : Int32) : Int32.minValue.toInt ≤ z.toInt := z.minValue_le_toInt
  have high (z : Int32) : z.toInt ≤ Int32.maxValue.toInt := Int32.le_iff_toInt_le.mp z.le_maxValue
  have zero : y = 0 ↔ y.toInt = 0 := by rw [← Int32.toInt_inj, Int32.toInt_zero]
  cases f with
  | add | sub | mul =>
    simp [onInt, exact, divides, Int32.ofInt_add, Int32.ofInt_sub, Int32.ofInt_mul]
  | div => simp [onInt, exact, divides, zero, Int32.ofInt_tdiv (low x) (high x) (low y) (high y)]
  | rem => simp [onInt, exact, divides, zero, Int32.ofInt_tmod (low x) (high x) (low y) (high y)]

theorem onLong_eq (f : Arithmetic) (x y : Int64) :
    f.onLong x y =
      if f.divides ∧ y.toInt = 0 then .error .divisionByZero
      else .ok (.ofInt (f.exact x.toInt y.toInt)) := by
  have low (z : Int64) : Int64.minValue.toInt ≤ z.toInt := z.minValue_le_toInt
  have high (z : Int64) : z.toInt ≤ Int64.maxValue.toInt := Int64.le_iff_toInt_le.mp z.le_maxValue
  have zero : y = 0 ↔ y.toInt = 0 := by rw [← Int64.toInt_inj, Int64.toInt_zero]
  cases f with
  | add | sub | mul =>
    simp [onLong, exact, divides, Int64.ofInt_add, Int64.ofInt_sub, Int64.ofInt_mul]
  | div => simp [onLong, exact, divides, zero, Int64.ofInt_tdiv (low x) (high x) (low y) (high y)]
  | rem => simp [onLong, exact, divides, zero, Int64.ofInt_tmod (low x) (high x) (low y) (high y)]

end Arithmetic

inductive Width where
  | int | long
  deriving DecidableEq, Repr

namespace Width

def bits : Width → Nat
  | .int => 32
  | .long => 64

def operation : Width → Arithmetic → Operation
  | .int, f => .int f
  | .long, f => .long f

def negate : Width → Operation
  | .int => .negateInt
  | .long => .negateLong

/-- The integer that an operand is read as. Small integers are read as `int` too. -/
def read? : Width → Value → Option Int
  | .int, v => v.asInt?.map Int32.toInt
  | .long, v => v.asLong?.map Int64.toInt

def value : Width → Int → Value
  | .int, n => .int (.ofInt n)
  | .long, n => .long (.ofInt n)

def least (w : Width) : Int := -2 ^ (w.bits - 1)

def Holds (w : Width) (n : Int) : Prop := w.least ≤ n ∧ n < 2 ^ (w.bits - 1)

/-- The integer of the width that differs from `x` by a multiple of the size of the width. -/
structure Reduces (w : Width) (x n : Int) : Prop where
  holds : w.Holds n
  differs : (2 ^ w.bits : Int) ∣ n - x

/-- The operation gives what its mathematical result comes to in the width. -/
def Yields (w : Width) (op : Operation) (operands : List Value) (x : Int) : Prop :=
  ∃ n, w.Reduces x n ∧ op.Evaluates operands (.ok (w.value n))

def wrap (w : Width) (n : Int) : Int := n.bmod (2 ^ w.bits)

variable {w : Width} {u v : Value} {a b n x y : Int}

theorem wrap_reduces (w : Width) (x : Int) : w.Reduces x (w.wrap x) := by
  refine ⟨?_, Int.dvd_bmod_sub_self⟩
  have low := Int.le_bmod (x := x) (m := 2 ^ w.bits) (by cases w <;> decide)
  have high := Int.bmod_lt (x := x) (m := 2 ^ w.bits) (by cases w <;> decide)
  cases w <;> simp [Holds, wrap, least, bits] at * <;> omega

theorem wrap_of_holds (holds : w.Holds n) : w.wrap n = n := by
  unfold wrap
  apply Int.bmod_eq_of_le
  all_goals cases w <;> simp [Holds, least, bits] at * <;> omega

theorem value_wrap (w : Width) (x : Int) : w.value (w.wrap x) = w.value x := by
  cases w with
  | int => exact congrArg Value.int (Int32.toInt_inj.mp (by simp [wrap, bits, Int32.toInt_ofInt]))
  | long => exact congrArg Value.long (Int64.toInt_inj.mp (by simp [wrap, bits, Int64.toInt_ofInt]))

theorem value_congr (same : w.wrap x = w.wrap y) : w.value x = w.value y := by
  rw [← value_wrap w x, same, value_wrap w y]

theorem read?_value (w : Width) (x : Int) : w.read? (w.value x) = some (w.wrap x) := by
  cases w with
  | int => simp [read?, value, Value.asInt?, wrap, bits, Int32.toInt_ofInt]
  | long => simp [read?, value, Value.asLong?, wrap, bits, Int64.toInt_ofInt]

theorem holds_of_read? (read : w.read? v = some a) : w.Holds a := by
  cases w with
  | int =>
    obtain ⟨x, -, rfl⟩ := Option.map_eq_some_iff.mp read
    exact ⟨x.le_toInt, x.toInt_lt⟩
  | long =>
    obtain ⟨x, -, rfl⟩ := Option.map_eq_some_iff.mp read
    exact ⟨x.le_toInt, x.toInt_lt⟩

def outcome (w : Width) (f : Arithmetic) (a b : Int) : Except Fault Value :=
  if f.divides ∧ b = 0 then .error .divisionByZero else .ok (w.value (f.exact a b))

theorem evaluates (f : Arithmetic) (left : w.read? v = some a) (right : w.read? u = some b) :
    (w.operation f).Evaluates [v, u] (w.outcome f a b) := by
  cases w with
  | int =>
    obtain ⟨x, seen, rfl⟩ := Option.map_eq_some_iff.mp left
    obtain ⟨y, seen', rfl⟩ := Option.map_eq_some_iff.mp right
    have evaluates : (Operation.int f).Evaluates [v, u] ((f.onInt x y).map .int) :=
      .of_binary (f := fun x y => (f.onInt x y).map .int) rfl (Stack.takes_popAs seen)
        (Stack.takes_popAs seen')
    rw [f.onInt_eq x y, apply_ite (Except.map Value.int)] at evaluates
    exact evaluates
  | long =>
    obtain ⟨x, seen, rfl⟩ := Option.map_eq_some_iff.mp left
    obtain ⟨y, seen', rfl⟩ := Option.map_eq_some_iff.mp right
    have evaluates : (Operation.long f).Evaluates [v, u] ((f.onLong x y).map .long) :=
      .of_binary (f := fun x y => (f.onLong x y).map .long) rfl (Stack.takes_popAs seen)
        (Stack.takes_popAs seen')
    rw [f.onLong_eq x y, apply_ite (Except.map Value.long)] at evaluates
    exact evaluates

/-- Only a division can fail, and only one by zero. -/
theorem evaluates_ok (f : Arithmetic) (left : w.read? v = some a) (right : w.read? u = some b)
    (possible : f.divides = true → b ≠ 0) :
    (w.operation f).Evaluates [v, u] (.ok (w.value (f.exact a b))) := by
  have total := evaluates f left right
  rwa [outcome, if_neg (fun zero => possible zero.1 zero.2)] at total

theorem negate_evaluates (read : w.read? v = some a) :
    w.negate.Evaluates [v] (.ok (w.value (-a))) := by
  cases w with
  | int =>
    obtain ⟨x, seen, rfl⟩ := Option.map_eq_some_iff.mp read
    have negates : Operation.negateInt.Evaluates [v] (.ok (.int (-x))) :=
      .of_unary (f := fun x => .int (-x)) rfl (Stack.takes_popAs seen)
    rwa [← x.ofInt_toInt, ← Int32.ofInt_neg] at negates
  | long =>
    obtain ⟨x, seen, rfl⟩ := Option.map_eq_some_iff.mp read
    have negates : Operation.negateLong.Evaluates [v] (.ok (.long (-x))) :=
      .of_unary (f := fun x => .long (-x)) rfl (Stack.takes_popAs seen)
    rwa [← x.ofInt_toInt, ← Int64.ofInt_neg] at negates

theorem narrow_evaluates (read : Width.long.read? v = some a) :
    (Operation.convert .longToInt).Evaluates [v] (.ok (Width.int.value a)) := by
  obtain ⟨x, seen, rfl⟩ := Option.map_eq_some_iff.mp read
  have narrows : (Operation.convert .longToInt).Evaluates [v] (.ok (.int x.toInt32)) :=
    .of_unary (f := fun x => .int x.toInt32) rfl (Stack.takes_popAs seen)
  rwa [← x.ofInt_toInt, Int64.toInt32_ofInt] at narrows

theorem yields_of_evaluates {op : Operation} {operands : List Value}
    (evaluates : op.Evaluates operands (.ok (w.value x))) : w.Yields op operands x :=
  ⟨w.wrap x, w.wrap_reduces x, by rwa [value_wrap]⟩

/-- What a quotient `q` and a remainder `r` of the operands `v` and `u` have to meet, which are read
as `a` and `b`. -/
structure Division (w : Width) (v u : Value) (a b q r : Int) : Prop where
  quotient : (w.operation .div).Evaluates [v, u] (.ok (w.value q))
  remainder : (w.operation .rem).Evaluates [v, u] (.ok (w.value r))
  quotient_holds : w.Holds q
  remainder_holds : w.Holds r
  /-- The machine itself gets the dividend back. -/
  restores : ∃ product, (w.operation .mul).Evaluates [w.value q, u] (.ok product) ∧
    (w.operation .add).Evaluates [product, w.value r] (.ok (w.value a))
  smaller : r.natAbs < b.natAbs
  sign : r = 0 ∨ r.sign = a.sign
  truncates : ¬ (a = w.least ∧ b = -1) → q = a.tdiv b
  overflows : a = w.least ∧ b = -1 → q = w.least ∧ r = 0

theorem holds_tdiv (holds : w.Holds a) (nonzero : b ≠ 0) (fits : ¬ (a = w.least ∧ b = -1)) :
    w.Holds (a.tdiv b) := by
  have size : (a.tdiv b).natAbs = a.natAbs / b.natAbs := Int.natAbs_tdiv a b
  have least : w.least = -2 ^ (w.bits - 1) := rfl
  have positive : 0 < (2 : Int) ^ (w.bits - 1) := Int.pow_pos (by decide)
  obtain ⟨low, high⟩ := holds
  by_cases unit : b.natAbs = 1
  · rcases Int.natAbs_eq_iff.mp unit with rfl | rfl
    · rw [Int.natCast_one, Int.tdiv_one]
      exact ⟨low, high⟩
    · rw [Int.natCast_one, Int.tdiv_neg, Int.tdiv_one]
      exact ⟨by omega, by omega⟩
  · have half : a.natAbs / b.natAbs ≤ a.natAbs / 2 := Nat.div_le_div_left (by omega) (by decide)
    exact ⟨by omega, by omega⟩

theorem holds_tmod (holds : w.Holds b) (nonzero : b ≠ 0) : w.Holds (a.tmod b) := by
  have size : (a.tmod b).natAbs = a.natAbs % b.natAbs := Int.natAbs_tmod a b
  have smaller := Nat.mod_lt a.natAbs (Int.natAbs_pos.mpr nonzero)
  have least : w.least = -2 ^ (w.bits - 1) := rfl
  obtain ⟨low, high⟩ := holds
  exact ⟨by omega, by omega⟩

theorem division (left : w.read? v = some a) (right : w.read? u = some b) (nonzero : b ≠ 0) :
    w.Division v u a b (w.wrap (a.tdiv b)) (a.tmod b) := by
  have held := holds_of_read? left
  have quotient_holds := (w.wrap_reduces (a.tdiv b)).holds
  have remainder_holds : w.Holds (a.tmod b) := holds_tmod (holds_of_read? right) nonzero
  have reads {n : Int} (holds : w.Holds n) : w.read? (w.value n) = some n := by
    rw [read?_value, wrap_of_holds holds]
  refine ⟨?_, ?_, quotient_holds, remainder_holds, ?_, ?_, ?_, ?_, ?_⟩
  · rw [value_wrap]
    exact evaluates_ok .div left right fun _ => nonzero
  · exact evaluates_ok .rem left right fun _ => nonzero
  · refine ⟨_, evaluates_ok .mul (reads quotient_holds) right nofun, ?_⟩
    have sums := evaluates_ok .add (read?_value w (w.wrap (a.tdiv b) * b)) (reads remainder_holds)
      nofun
    have whole : w.wrap (w.wrap (w.wrap (a.tdiv b) * b) + a.tmod b) = w.wrap a := by
      simp only [wrap]
      rw [Int.bmod_mul_bmod, Int.bmod_add_bmod, Int.mul_comm, Int.add_comm,
        Int.tmod_add_mul_tdiv]
    rwa [Arithmetic.exact, value_congr whole] at sums
  · rw [Int.natAbs_tmod]
    exact Nat.mod_lt _ (Int.natAbs_pos.mpr nonzero)
  · rw [Int.sign_tmod]
    by_cases divides : b ∣ a
    · exact .inl (Int.tmod_eq_zero_of_dvd divides)
    · exact .inr (if_neg divides)
  · intro fits
    exact wrap_of_holds (holds_tdiv held nonzero fits)
  · rintro ⟨rfl, rfl⟩
    cases w <;> decide

end Width

open Width in
/-- Arithmetic of both widths, on all operands that are read as integers `a` and `b`. A quotient and
a remainder belong together: product and sum of the machine give the dividend back, the remainder is
smaller than the divisor and has the sign of the dividend, and the quotient is truncated toward
zero, except that the least integer divided by minus one stays what it is. Division by zero fails.
All other operations give their mathematical result, reduced into the width, and so does the
conversion of a `long` to an `int`. -/
theorem integers_divide_and_wrap (w : Width) {v u : Value} {a b : Int}
    (left : w.read? v = some a) (right : w.read? u = some b) :
    (b = 0 → (w.operation .div).Evaluates [v, u] (.error .divisionByZero) ∧
      (w.operation .rem).Evaluates [v, u] (.error .divisionByZero)) ∧
    (b ≠ 0 → ∃ q r, w.Division v u a b q r) ∧
    w.Yields (w.operation .add) [v, u] (a + b) ∧
    w.Yields (w.operation .sub) [v, u] (a - b) ∧
    w.Yields (w.operation .mul) [v, u] (a * b) ∧
    w.Yields w.negate [v] (-a) ∧
    (w = .long → Width.int.Yields (.convert .longToInt) [v] a) := by
  have sum := evaluates_ok .add left right nofun
  have difference := evaluates_ok .sub left right nofun
  have product := evaluates_ok .mul left right nofun
  refine ⟨?_, fun nonzero => ⟨_, _, division left right nonzero⟩, yields_of_evaluates sum,
    yields_of_evaluates difference, yields_of_evaluates product,
    yields_of_evaluates (negate_evaluates left), ?_⟩
  · rintro rfl
    exact ⟨evaluates .div left right, evaluates .rem left right⟩
  · rintro rfl
    exact yields_of_evaluates (narrow_evaluates left)

/-- The least `int` by minus one, which stands on the stack as a `byte`, and the least `long` by
three. -/
theorem least_integers_divided :
    (∃ q r, Width.int.Division (.int Int32.minValue) (.byte (-1)) (-2 ^ 31) (-1) q r ∧
      q = -2 ^ 31 ∧ r = 0) ∧
    (∃ q r, Width.long.Division (.long Int64.minValue) (.long 3) (-2 ^ 63) 3 q r ∧
      q = -3074457345618258602 ∧ r.natAbs < 3) := by
  have int := integers_divide_and_wrap .int (v := .int Int32.minValue) (u := .byte (-1)) rfl rfl
  have long := integers_divide_and_wrap .long (v := .long Int64.minValue) (u := .long 3) rfl rfl
  obtain ⟨q, r, division⟩ := int.2.1 (by decide)
  obtain ⟨q', r', division'⟩ := long.2.1 (by decide)
  exact ⟨⟨q, r, division, division.overflows (by decide)⟩,
    ⟨q', r', division', division'.truncates (by decide), division'.smaller⟩⟩

end Rowwise
