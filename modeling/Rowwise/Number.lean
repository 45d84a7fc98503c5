/-! Binary floating-point bit patterns and the numbers they stand for. -/
namespace Rowwise.Number

/-- A binary format: sign, exponent field and fraction field, most significant first. -/
structure Format where
  exponentBits : Nat
  fractionBits : Nat
  /-- So many decimal digits tell any two numbers of the format apart. -/
  digits : Nat
  deriving DecidableEq, Repr

def Format.double : Format := ⟨11, 52, 17⟩
def Format.single : Format := ⟨8, 23, 9⟩

/-- What a bit pattern stands for. -/
inductive Reading where
  | nan
  | infinite (negative : Bool)
  /-- The number `mantissa * 2 ^ exponent`. `wide` tells that the gap to the next smaller
  magnitude is as large as the gap to the next larger one. -/
  | finite (negative : Bool) (mantissa : Nat) (exponent : Int) (wide : Bool)
  deriving DecidableEq, Repr

namespace Format

def fraction (f : Format) (bits : Nat) : Nat := bits % 1 <<< f.fractionBits
def exponent (f : Format) (bits : Nat) : Nat := (bits >>> f.fractionBits) % 1 <<< f.exponentBits
def negative (f : Format) (bits : Nat) : Bool := bits.testBit (f.fractionBits + f.exponentBits)

/-- The power of two that one unit of a subnormal fraction counts. -/
def least (f : Format) : Int := 2 - Int.ofNat (1 <<< (f.exponentBits - 1)) - f.fractionBits

def decode (f : Format) (bits : Nat) : Reading :=
  let fraction := f.fraction bits
  let exponent := f.exponent bits
  if exponent = 1 <<< f.exponentBits - 1 then
    if fraction = 0 then .infinite (f.negative bits) else .nan
  else if exponent = 0 then
    .finite (f.negative bits) fraction f.least true
  else
    .finite (f.negative bits) (1 <<< f.fractionBits + fraction) (f.least + (exponent - 1))
      (fraction ≠ 0 || exponent = 1)

end Format

/-- Equality of two bit patterns as numbers: no NaN equals anything, and zero has no sign. -/
def Format.same (f : Format) (a b : Nat) : Bool :=
  match f.decode a, f.decode b with
  | .nan, _ | _, .nan => false
  | .infinite s, .infinite t => s = t
  | .finite s m e _, .finite t n k _ => m = n && (m = 0 || (s = t && e = k))
  | _, _ => false

/-! The shortest decimal that reads back as a given binary number. The reals that round to the
number form an interval; on the grid of decimals with one digit, then two, and so on, the two
neighbours of the number are tried. Of two hits the nearer is taken, and the larger one if both are
equally near. -/

structure Decimal where
  digits : Nat
  exponent : Int
  deriving DecidableEq, Repr

structure Ratio where
  num : Nat
  den : Nat
  deriving DecidableEq, Repr

namespace Ratio

def le (a b : Ratio) : Bool := a.num * b.den ≤ b.num * a.den
def lt (a b : Ratio) : Bool := a.num * b.den < b.num * a.den

def power (base m : Nat) (e : Int) : Ratio :=
  if 0 ≤ e then ⟨m * Nat.pow base e.toNat, 1⟩ else ⟨m, Nat.pow base (-e).toNat⟩

def mul (a b : Ratio) : Ratio := ⟨a.num * b.num, a.den * b.den⟩

def floor (a : Ratio) : Nat := a.num / a.den

def gap (a b : Ratio) : Ratio :=
  ⟨(a.num * b.den - b.num * a.den) + (b.num * a.den - a.num * b.den), a.den * b.den⟩

end Ratio

def Decimal.ratio (d : Decimal) : Ratio := .power 10 d.digits d.exponent

/-- The reals that round to `mantissa * 2 ^ exponent`; a tie goes to the even mantissa, so the
ends belong to the interval exactly if the mantissa is even. -/
structure Interval where
  low : Ratio
  value : Ratio
  high : Ratio
  closed : Bool

namespace Interval

def around (mantissa : Nat) (exponent : Int) (wide : Bool) : Interval where
  low := .power 2 (4 * mantissa - if wide then 2 else 1) (exponent - 2)
  value := .power 2 mantissa exponent
  high := .power 2 (4 * mantissa + 2) (exponent - 2)
  closed := mantissa % 2 = 0

def contains (i : Interval) (r : Ratio) : Bool :=
  if i.closed then i.low.le r && r.le i.high else i.low.lt r && r.lt i.high

/-- The best decimal on the grid of multiples of `10 ^ exponent`, if one lies inside. -/
def onGrid (i : Interval) (exponent : Int) : Option Decimal :=
  let below : Decimal := ⟨(i.value.mul (.power 10 1 (-exponent))).floor, exponent⟩
  let above : Decimal := { below with digits := below.digits + 1 }
  match i.contains below.ratio, i.contains above.ratio with
  | true, true =>
    if (i.value.gap below.ratio).lt (i.value.gap above.ratio) then some below else some above
  | true, false => some below
  | false, true => some above
  | false, false => none

end Interval

/-- The number of digits before the point, or minus the number of zeros that follow it. -/
def magnitude (mantissa : Nat) (exponent : Int) : Int :=
  let scale := (-exponent).toNat
  let scaled := (Ratio.power 2 (mantissa * Nat.pow 10 scale) exponent).floor
  (Nat.toDigits 10 scaled).length - scale

/-- The first grid with a hit gives the decimal. The number `limit` of digits is chosen such
that one of the grids has a hit. -/
def shortest (limit mantissa : Nat) (exponent : Int) (wide : Bool) : Decimal :=
  let interval := Interval.around mantissa exponent wide
  let size := magnitude mantissa exponent
  ((List.range' 1 limit).findSome? fun (count : Nat) => interval.onGrid (size - count)).getD ⟨0, 0⟩

def Decimal.trim (d : Decimal) : Decimal :=
  if d.digits ≠ 0 ∧ d.digits % 10 = 0 then trim ⟨d.digits / 10, d.exponent + 1⟩ else d
termination_by d.digits
decreasing_by omega

def Decimal.positional (d : Decimal) : String :=
  let digits := Nat.toDigits 10 d.digits
  if 0 ≤ d.exponent then
    String.ofList (digits ++ List.replicate d.exponent.toNat '0')
  else
    let places := (-d.exponent).toNat
    let digits := List.replicate (places + 1 - digits.length) '0' ++ digits
    let whole := digits.length - places
    String.ofList (digits.take whole ++ '.' :: digits.drop whole)

/-- The text of a bit pattern. Whole numbers have no point, and zero keeps its sign. -/
def Format.text (f : Format) (bits : Nat) : String :=
  let sign (negative : Bool) := if negative then "-" else ""
  match f.decode bits with
  | .nan => "NaN"
  | .infinite negative => sign negative ++ "inf"
  | .finite negative 0 _ _ => sign negative ++ "0"
  | .finite negative mantissa exponent wide =>
    sign negative ++ (shortest f.digits mantissa exponent wide).trim.positional

end Rowwise.Number
