import Rowwise.Number
import Rowwise.Types.TypeName

/-! Values that cross the boundary of a call: how they are read as numbers, and their text. -/
namespace Rowwise

inductive Kind where
  | null | boolean | byte | char | short | int | long | float | double | string | array
  deriving DecidableEq, Repr

def Kind.name : Kind → String
  | .null => "null"
  | .boolean => "boolean"
  | .byte => "byte"
  | .char => "char"
  | .short => "short"
  | .int => "int"
  | .long => "long"
  | .float => "float"
  | .double => "double"
  | .string => "string"
  | .array => "array"

inductive Value where
  | null
  | boolean (value : Bool)
  | byte (value : Int8)
  /-- One UTF-16 code unit. -/
  | char (unit : UInt16)
  | short (value : Int16)
  | int (value : Int32)
  | long (value : Int64)
  | float (value : Float32)
  | double (value : Float)
  | string (value : String)
  | array (items : List Value)
  deriving Inhabited, Repr

namespace Value

def kind : Value → Kind
  | .null => .null
  | .boolean _ => .boolean
  | .byte _ => .byte
  | .char _ => .char
  | .short _ => .short
  | .int _ => .int
  | .long _ => .long
  | .float _ => .float
  | .double _ => .double
  | .string _ => .string
  | .array _ => .array

def isNull : Value → Bool
  | .null => true
  | _ => false

/-- The small integer kinds widen to `int`. -/
def asInt? : Value → Option Int32
  | .int v => some v
  | .byte v => some v.toInt32
  | .short v => some v.toInt32
  | .char u => some u.toUInt32.toInt32
  | _ => none

def asLong? : Value → Option Int64
  | .long v => some v
  | _ => none

def asDouble? : Value → Option Float
  | .double v => some v
  | .float v => some v.toFloat
  | _ => none

def asBoolean? : Value → Option Bool
  | .boolean v => some v
  | _ => none

def asString? : Value → Option String
  | .string v => some v
  | _ => none

def asArray? : Value → Option (List Value)
  | .array items => some items
  | _ => none

mutual

/-- Equality of kind and content. Floating-point contents compare as numbers. -/
def same : Value → Value → Bool
  | .null, .null => true
  | .boolean v, .boolean w => v == w
  | .byte v, .byte w => v == w
  | .char v, .char w => v == w
  | .short v, .short w => v == w
  | .int v, .int w => v == w
  | .long v, .long w => v == w
  | .float v, .float w => v == w
  | .double v, .double w => v == w
  | .string v, .string w => v == w
  | .array v, .array w => sameItems v w
  | _, _ => false

def sameItems : List Value → List Value → Bool
  | [], [] => true
  | v :: vs, w :: ws => v.same w && sameItems vs ws
  | _, _ => false

end

/-- Equality as programs see it: two values that both widen to `int` compare as such. -/
def equal (a b : Value) : Bool :=
  match a.asInt?, b.asInt? with
  | some x, some y => x == y
  | _, _ => a.same b

end Value

/-- The kind of value that a primitive stands for. A `void` result is null. -/
def Primitive.kind : Primitive → Kind
  | .boolean => .boolean
  | .byte => .byte
  | .char => .char
  | .short => .short
  | .int => .int
  | .long => .long
  | .float => .float
  | .double => .double
  | .void => .null

/-- Bring a value to the kind of a declared type. Small integers and `float` travel as `int` and
`double` and are narrowed back; `int` widens to `long`, and both widen to `double`. -/
def Primitive.coerce? : Primitive → Value → Option Value
  | .void, _ => some .null
  | .boolean, v => v.asBoolean?.map .boolean
  | .byte, v => v.asInt?.map fun n => .byte n.toInt8
  | .char, v => v.asInt?.map fun n => .char n.toUInt32.toUInt16
  | .short, v => v.asInt?.map fun n => .short n.toInt16
  | .int, v => v.asInt?.map .int
  | .long, v => (v.asLong? <|> v.asInt?.map (·.toInt64)).map .long
  | .float, v => v.asDouble?.map fun d => .float d.toFloat32
  | .double, v =>
    (v.asDouble? <|> v.asInt?.map (·.toFloat) <|> v.asLong?.map (·.toFloat)).map .double

namespace Value

/-- A code unit that is half of a surrogate pair has no text of its own. -/
def unitText (unit : UInt16) : String :=
  if 0xD800 ≤ unit ∧ unit ≤ 0xDFFF then "\uFFFD" else String.singleton (Char.ofNat unit.toNat)

mutual

def text : Value → String
  | .null => "null"
  | .boolean v => if v then "true" else "false"
  | .byte v => toString v.toInt
  | .char unit => unitText unit
  | .short v => toString v.toInt
  | .int v => toString v.toInt
  | .long v => toString v.toInt
  | .float v => Number.Format.single.text v.toBits.toNat
  | .double v => Number.Format.double.text v.toBits.toNat
  | .string v => v
  | .array items => "[" ++ itemsText items ++ "]"

def itemsText : List Value → String
  | [] => ""
  | [v] => v.text
  | v :: rest => v.text ++ ", " ++ itemsText rest

end

end Value

end Rowwise
