/-! Writing strings of configuration files. Of the four forms of a string, the first that needs no
escapes is taken: double quotes, single quotes, and then either of them over several lines. -/
namespace Rowwise.Toml

inductive Style where
  | basic
  | literal
  | basicLines
  | literalLines
  deriving DecidableEq, Repr

/-- Control characters that no form of a string may contain as they are. -/
def isCode (c : Char) : Bool := (c < ' ' && c != '\t' && c != '\n') || c == '\x7f'

def longestRun (c : Char) (cs : List Char) : Nat :=
  (cs.foldl (fun (run, best) d =>
    let run := if d == c then run + 1 else 0
    (run, max run best)) (0, 0)).2

namespace Style

def ofText (cs : List Char) : Style :=
  let codes := cs.any isCode
  let escapes := codes || cs.contains '\\'
  let many := cs.contains '\n'
  if !escapes && !many && longestRun '"' cs = 0 then .basic
  else if !codes && !many && longestRun '\'' cs = 0 then .literal
  else if !escapes && longestRun '"' cs ≤ 2 then .basicLines
  else if !codes && longestRun '\'' cs ≤ 2 then .literalLines
  else if many then .basicLines
  else .basic

def quotes : Style → List Char
  | .basic => ['"']
  | .literal => ['\'']
  | .basicLines => ['"', '"', '"']
  | .literalLines => ['\'', '\'', '\'']

def isMany : Style → Bool
  | .basic | .literal => false
  | .basicLines | .literalLines => true

end Style

def escapeChar (c : Char) : List Char :=
  match c with
  | '"' => ['\\', '"']
  | '\\' => ['\\', '\\']
  | '\x08' => ['\\', 'b']
  | '\t' => ['\\', 't']
  | '\n' => ['\\', 'n']
  | '\x0c' => ['\\', 'f']
  | '\r' => ['\\', 'r']
  | c =>
    if isCode c then
      let digits := (Nat.toDigits 16 c.toNat).map Char.toUpper
      '\\' :: 'u' :: List.replicate (4 - digits.length) '0' ++ digits
    else [c]

/-- Characters between three double quotes, of which `quotes` more may be double quotes before one
has to be escaped. -/
def escapeLines (quotes : Nat) : List Char → List Char
  | [] => []
  | '\n' :: rest => '\n' :: escapeLines 2 rest
  | '"' :: rest =>
    match quotes with
    | 0 => '\\' :: '"' :: escapeLines 2 rest
    | quotes + 1 => '"' :: escapeLines quotes rest
  | c :: rest => escapeChar c ++ escapeLines 2 rest

def quote (s : String) : String :=
  let cs := s.toList
  let style := Style.ofText cs
  let content := match style with
    | .basic => cs.flatMap escapeChar
    | .basicLines => escapeLines 2 cs
    | .literal | .literalLines => cs
  /- A line end after the quotes does not belong to the string. -/
  let start := if style.isMany && cs.contains '\n' then ['\n'] else []
  String.ofList (style.quotes ++ start ++ content ++ style.quotes)

end Rowwise.Toml
