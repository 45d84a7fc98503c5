import Rowwise.Toml.Scan

/-! Numbers, truth values and points in time. -/
namespace Rowwise.Toml

/-- The digits of a group, in which single underscores may stand between digits. -/
def ungroup (isDigit : Char → Bool) : List Char → Option (List Char)
  | [] => none
  | [c] => if isDigit c then some [c] else none
  | c :: '_' :: rest => if isDigit c then (ungroup isDigit rest).map (c :: ·) else none
  | c :: rest => if isDigit c then (ungroup isDigit rest).map (c :: ·) else none

def digitValue (c : Char) : Nat := if c.isDigit then c.toNat - 48 else c.toLower.toNat - 87

def ofDigits (base : Nat) (digits : List Char) : Nat :=
  digits.foldl (fun acc c => base * acc + digitValue c) 0

def signed : List Char → Bool × List Char
  | '+' :: rest => (false, rest)
  | '-' :: rest => (true, rest)
  | cs => (false, cs)

/-- A decimal number without leading zeros. -/
def natural? (cs : List Char) : Option (List Char) := do
  let digits ← ungroup Char.isDigit cs
  if 1 < digits.length && digits.head? == some '0' then failure
  return digits

/-- An integer has to fit into 64 bits with a sign. -/
def bounded (n : Int) : Option Toml :=
  if Int64.minValue.toInt ≤ n && n ≤ Int64.maxValue.toInt then some (.integer n) else none

def integer? (cs : List Char) : Option Toml :=
  let radix (base : Nat) (isDigit : Char → Bool) (rest : List Char) : Option Toml := do
    bounded (ofDigits base (← ungroup isDigit rest))
  match cs with
  | '0' :: 'x' :: rest =>
    radix 16 (fun c => c.isDigit || ('a' ≤ c.toLower && c.toLower ≤ 'f')) rest
  | '0' :: 'o' :: rest => radix 8 (fun c => '0' ≤ c && c ≤ '7') rest
  | '0' :: 'b' :: rest => radix 2 (fun c => c == '0' || c == '1') rest
  | _ => do
    let (negative, rest) := signed cs
    let n := ofDigits 10 (← natural? rest)
    bounded (if negative then -n else n)

/-- Whether `digits * 10 ^ exponent` is too large for a double. -/
def overflows (digits : Nat) (exponent : Int) : Bool :=
  let size := (Nat.toDigits 10 digits).length + exponent
  let limit := 1 <<< 1024 - 1 <<< 970
  digits != 0 && (310 < size ||
    (300 < size && limit * Nat.pow 10 (-exponent).toNat ≤ digits * Nat.pow 10 exponent.toNat))

def exponent? (cs : List Char) : Option Int := do
  let (negative, rest) := signed cs
  let n := ofDigits 10 (← ungroup Char.isDigit rest)
  return if negative then -n else n

def float? (cs : List Char) : Option Toml := do
  let (negative, rest) := signed cs
  if rest == ['i', 'n', 'f'] || rest == ['n', 'a', 'n'] then return .float
  let (whole, rest) := rest.span fun c => c.isDigit || c == '_'
  let whole ← natural? whole
  let (fraction, rest) ← match rest with
    | '.' :: rest =>
      let (fraction, rest) := rest.span fun c => c.isDigit || c == '_'
      (ungroup Char.isDigit fraction).map (·, rest)
    | 'e' :: _ | 'E' :: _ => some ([], rest)
    | _ => none
  let exponent ← match rest with
    | [] => some 0
    | 'e' :: rest | 'E' :: rest => exponent? rest
    | _ => none
  if !negative && overflows (ofDigits 10 (whole ++ fraction)) (exponent - fraction.length) then
    failure
  return .float

namespace Scan

def field (count low high : Nat) : Scan Unit := do
  let digits ← (List.range count).mapM fun _ => next
  let n := ofDigits 10 digits
  if !(digits.all Char.isDigit && low ≤ n && n ≤ high) then failure

def daysIn (year month : Nat) : Nat :=
  if month = 2 then
    if year % 4 = 0 && (year % 100 ≠ 0 || year % 400 = 0) then 29 else 28
  else if month ∈ [4, 6, 9, 11] then 30 else 31

def date : Scan Unit := fun cs => (do
  let number (digits : List Char) := ofDigits 10 digits
  let last := daysIn (number (cs.take 4)) (number ((cs.drop 5).take 2))
  field 4 0 9999
  char '-'
  field 2 1 12
  char '-'
  field 2 1 last : Scan Unit) cs

def clock : Scan Unit := do
  field 2 0 23
  char ':'
  field 2 0 59
  char ':'
  field 2 0 60
  if ← accept ['.'] then
    if (← span Char.isDigit).isEmpty then failure

def zone : Scan Unit := do
  match ← next with
  | 'Z' | 'z' => return ()
  | '+' | '-' =>
    field 2 0 23
    char ':'
    field 2 0 59
  | _ => failure

def moment : Scan Unit := fun cs =>
  match date cs with
  | none => clock cs
  | some ((), []) => some ((), [])
  | some ((), rest) => (do
      if !(← next) ∈ ['T', 't', ' '] then failure
      clock
      if (← peek).isSome then zone : Scan Unit) rest

def isTokenChar (c : Char) : Bool := c.isAlphanum || c ∈ ['+', '-', '_', '.', ':']

/-- The characters of a number, a word or a point in time. A date takes the time of day after a
space along. -/
def token : Scan (List Char) := do
  let first ← span isTokenChar
  match ← get with
  | ' ' :: c :: _ =>
    if (whole date first).isSome && c.isDigit then
      let _ ← next
      return first ++ ' ' :: (← span isTokenChar)
    else
      return first
  | _ => return first

def scalarValue : Scan Toml := do
  let cs ← token
  if cs == "true".toList then return .boolean true
  if cs == "false".toList then return .boolean false
  if (whole moment cs).isSome then return .time
  match float? cs <|> integer? cs with
  | some v => return v
  | none => failure

end Scan

end Rowwise.Toml
