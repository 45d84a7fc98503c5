import Rowwise.Text

/-! Names of types as they stand in method signatures: an element name, which may be a primitive,
followed by any number of `[]` marks. -/
namespace Rowwise

inductive Primitive where
  | boolean | byte | char | short | int | long | float | double | void
  deriving DecidableEq, Repr

namespace Primitive

def all : List Primitive := [.boolean, .byte, .char, .short, .int, .long, .float, .double, .void]

def name : Primitive → String
  | .boolean => "boolean"
  | .byte => "byte"
  | .char => "char"
  | .short => "short"
  | .int => "int"
  | .long => "long"
  | .float => "float"
  | .double => "double"
  | .void => "void"

def ofName? (s : String) : Option Primitive := all.find? (·.name == s)

def letter : Primitive → Char
  | .boolean => 'Z'
  | .byte => 'B'
  | .char => 'C'
  | .short => 'S'
  | .int => 'I'
  | .long => 'J'
  | .float => 'F'
  | .double => 'D'
  | .void => 'V'

end Primitive

structure TypeName where
  element : String
  dimensions : Nat
  deriving DecidableEq, Repr

namespace TypeName

/-- Strip `[]` marks, and white space before each, from a name that is given backwards. -/
def stripMarks : List Char → List Char × Nat
  | ']' :: '[' :: rest =>
    let stripped := stripMarks (rest.dropWhile Text.isBlank)
    (stripped.1, stripped.2 + 1)
  | cs => (cs, 0)
termination_by cs => cs.length
decreasing_by
  have := (List.dropWhile_sublist Text.isBlank (l := rest)).length_le
  simp; omega

/-- The element name and the number of marks, whether or not the element is well formed. -/
def split (s : String) : TypeName :=
  let stripped := stripMarks ((Text.trimFront s.toList).reverse.dropWhile Text.isBlank)
  ⟨String.ofList stripped.1.reverse, stripped.2⟩

def isNameChar (c : Char) : Bool := c.isAlphanum || c = '_' || c = '$' || c = '.'

def hasDoubleDot : List Char → Bool
  | '.' :: '.' :: _ => true
  | _ :: rest => hasDoubleDot rest
  | [] => false

/-- Segments of letters, digits, `_` and `$`, separated by single dots. -/
def isElement (cs : List Char) : Bool :=
  !cs.isEmpty && cs.head? != some '.' && cs.getLast? != some '.' && !hasDoubleDot cs &&
    cs.all isNameChar

/-- Read a name. There are no arrays of `void`. -/
def parse? (s : String) : Option TypeName :=
  let name := split s
  if isElement name.element.toList && !(name.element == "void" && name.dimensions != 0) then
    some name
  else
    none

def primitive? (t : TypeName) : Option Primitive := Primitive.ofName? t.element

def isVoid (t : TypeName) : Bool := t.dimensions == 0 && t.element == "void"

def isArray (t : TypeName) : Bool := t.dimensions != 0

/-- The code of a type in a descriptor: one bracket for each dimension, then the letter of a
primitive, or `L`, the name with slashes for dots, and `;`. -/
def code (t : TypeName) : String :=
  let brackets := List.replicate t.dimensions '['
  match t.primitive? with
  | some p => String.ofList (brackets ++ [p.letter])
  | none =>
    String.ofList (brackets ++
      'L' :: t.element.toList.map (fun c => if c = '.' then '/' else c) ++ [';'])

/-- Cut marks off the end of a name, and the white space before each, and count them. -/
def cutMarks (dimensions : Nat) (element : List Char) : List Char × Nat :=
  if marked : ['[', ']'].isSuffixOf element then
    cutMarks (dimensions + 1) (Text.trimBack (element.take (element.length - 2)))
  else
    (element, dimensions)
termination_by element.length
decreasing_by
  have mark := (List.isSuffixOf_iff_suffix.mp marked).length_le
  have trimmed := Text.length_trimBack_le (element.take (element.length - 2))
  simp only [List.length_cons, List.length_nil, List.length_take] at mark trimmed
  omega

end TypeName

/-- The code of the type that a name spells. Ill-formed names have one too: the name is not read
for it, but taken apart on its own. -/
def typeCode (s : String) : String :=
  let (element, dimensions) := TypeName.cutMarks 0 (Text.trimBack (Text.trimFront s.toList))
  TypeName.code ⟨String.ofList element, dimensions⟩

/-! Signatures of methods, and the descriptors that tell overloads apart. -/

/-- Parameter and return types are kept as they were written. -/
structure Signature where
  name : String
  params : List String
  returns : String
  deriving DecidableEq, Repr

namespace Signature

def arity (s : Signature) : Nat := s.params.length

def descriptor (s : Signature) : String :=
  "(" ++ String.join (s.params.map typeCode) ++ ")" ++ typeCode s.returns

end Signature

end Rowwise
