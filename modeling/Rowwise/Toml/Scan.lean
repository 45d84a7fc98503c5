import Rowwise.Toml.Tree

/-! Scanning the characters of a configuration file: blanks, line ends, comments and strings. -/
namespace Rowwise.Toml

/-- A scan takes characters off the front of the text, or fails. -/
abbrev Scan := StateT (List Char) Option

namespace Scan

def peek : Scan (Option Char) := fun cs => some (cs.head?, cs)

def next : Scan Char
  | [] => none
  | c :: rest => some (c, rest)

def char (c : Char) : Scan Unit := do
  if (← next) != c then failure

def span (p : Char → Bool) : Scan (List Char) := fun cs => some (cs.span p)

/-- Whether the text goes on with the given characters, which are then taken. -/
def accept (expected : List Char) : Scan Bool := fun cs =>
  if expected.isPrefixOf cs then some (true, cs.drop expected.length) else some (false, cs)

def whole (scan : Scan α) (cs : List Char) : Option α :=
  match scan cs with
  | some (a, []) => some a
  | _ => none

def isBlank (c : Char) : Bool := c == ' ' || c == '\t'

/-- Characters that may stand in strings and comments: no control characters but the tab. -/
def isPlain (c : Char) : Bool := c == '\t' || (' ' ≤ c && c != '\x7f')

def blanks : Scan Unit := do let _ ← span isBlank

/-- A line ends with a line feed, which a carriage return may precede. -/
def newline : Scan Bool := do
  if ← accept ['\n'] then return true
  accept ['\r', '\n']

def comment : Scan Unit := do
  if (← peek) == some '#' then
    let _ ← span isPlain

def endLine : Scan Unit := do
  blanks
  comment
  unless ← newline do
    unless (← peek).isNone do failure

def filler : Nat → Scan Unit
  | 0 => failure
  | n + 1 => do
    blanks
    comment
    if ← newline then filler n

def hexDigits (n : Nat) : Scan Nat := fun cs =>
  let digits := cs.take n
  let value (c : Char) : Nat := if c.isDigit then c.toNat - 48 else c.toLower.toNat - 87
  if digits.length = n && digits.all fun c => c.isDigit || ('a' ≤ c.toLower && c.toLower ≤ 'f') then
    some (digits.foldl (fun acc c => 16 * acc + value c) 0, cs.drop n)
  else
    none

/-- A character by its number. Surrogates are no characters. -/
def scalar (digits : Nat) : Scan Char := do
  let n ← hexDigits digits
  if n.isValidChar then return Char.ofNat n else failure

def escape : Scan Char := do
  match ← next with
  | 'b' => return '\x08'
  | 't' => return '\t'
  | 'n' => return '\n'
  | 'f' => return '\x0c'
  | 'r' => return '\r'
  | '"' => return '"'
  | '\\' => return '\\'
  | 'u' => scalar 4
  | 'U' => scalar 8
  | _ => failure

/-- The rest of a string on one line. Between single quotes there are no escapes. -/
def line (quote : Char) : Nat → Scan (List Char)
  | 0 => failure
  | n + 1 => do
    let c ← next
    if c == quote then return []
    if c == '\\' && quote == '"' then return (← escape) :: (← line quote n)
    if isPlain c then return c :: (← line quote n) else failure

/-- The text without the blanks and line ends at its front. -/
def skipLines : List Char → List Char
  | '\r' :: '\n' :: rest => skipLines rest
  | c :: rest => if isBlank c || c == '\n' then skipLines rest else c :: rest
  | [] => []

/-- A backslash at the end of a line swallows all blanks and line ends up to the next character. -/
def continuation : Scan Bool := fun cs =>
  match newline (cs.dropWhile isBlank) with
  | some (true, rest) => some (true, skipLines rest)
  | _ => some (false, cs)

/-- The rest of a string over several lines. It ends with three quotes, and up to two quotes
before them belong to it. -/
def lines (quote : Char) : Nat → Scan (List Char)
  | 0 => failure
  | n + 1 => do
    let quotes ← span (· == quote)
    if 5 < quotes.length then failure
    if 3 ≤ quotes.length then return quotes.drop 3
    if !quotes.isEmpty then return quotes ++ (← lines quote n)
    if ← newline then return '\n' :: (← lines quote n)
    let c ← next
    if c == '\\' && quote == '"' then
      if ← continuation then lines quote n else return (← escape) :: (← lines quote n)
    else if isPlain c then return c :: (← lines quote n)
    else failure

/-- A string in any of the four forms, if `many` lines are allowed, or in one of the two forms
on one line. -/
def string (many : Bool) : Scan String := do
  let quote := if (← peek) == some '\'' then '\'' else '"'
  let length := (← get).length
  if many && (← accept [quote, quote, quote]) then
    let _ ← newline
    return String.ofList (← lines quote length)
  char quote
  return String.ofList (← line quote length)

end Scan

end Rowwise.Toml
