import Rowwise.Bytes.Cursor
import Rowwise.Number
import Rowwise.Types.TypeName

/-! Classes: named collections of methods that share a pool of constants. Code refers to a constant
by its slot, so slots never move. -/
namespace Rowwise

structure Pool where
  strings : List String := []
  integers : List Int64 := []
  /-- Bit patterns of doubles. -/
  doubles : List UInt64 := []
  deriving DecidableEq, Repr

namespace Pool

/-- The first slot that holds `s`, or a new one. -/
def addString (s : String) (p : Pool) : Nat × Pool :=
  match p.strings.idxOf? s with
  | some slot => (slot, p)
  | none => (p.strings.length, { p with strings := p.strings ++ [s] })

def addInteger (n : Int64) (p : Pool) : Nat × Pool :=
  match p.integers.idxOf? n with
  | some slot => (slot, p)
  | none => (p.integers.length, { p with integers := p.integers ++ [n] })

/-- Doubles are never shared. -/
def addDouble (bits : UInt64) (p : Pool) : Nat × Pool :=
  (p.doubles.length, { p with doubles := p.doubles ++ [bits] })

/-- Equality of the slots, doubles compared as numbers. -/
def agrees (p q : Pool) : Bool :=
  p.strings == q.strings && p.integers == q.integers &&
    p.doubles.length == q.doubles.length &&
    (p.doubles.zip q.doubles).all fun d => Number.Format.double.same d.1.toNat d.2.toNat

def encode (p : Pool) : List UInt8 :=
  Bytes.ofCounted Bytes.ofText p.strings ++
  Bytes.ofCounted (fun n => Bytes.ofWord64 n.toUInt64) p.integers ++
  Bytes.ofCounted Bytes.ofWord64 p.doubles

def encodedSize (p : Pool) : Nat :=
  4 + p.strings.foldr (fun s size => 4 + s.utf8ByteSize + size) 0 +
    4 + p.integers.length * 8 + 4 + p.doubles.length * 8

end Pool

namespace Reader

/-- Slots are kept as they stand, also those that repeat a value. -/
def pool : Reader Pool := do
  let strings ← counted text
  let integers ← counted (return (← word64).toInt64)
  let doubles ← counted word64
  return { strings, integers, doubles }

end Reader

namespace Access

def publicFlag : UInt16 := 0x0001

def staticFlag : UInt16 := 0x0008

def isPublic (flags : UInt16) : Bool := flags &&& publicFlag != 0
def isStatic (flags : UInt16) : Bool := flags &&& staticFlag != 0

end Access

/-- A method with its code. Parameters take up the first local slots. -/
structure Method extends Signature where
  access : UInt16 := Access.publicFlag ||| Access.staticFlag
  locals : Nat
  code : List UInt8
  deriving DecidableEq, Repr

structure Class where
  version : UInt32 := 1
  flags : UInt32 := 0
  constants : Pool := {}
  name : String
  methods : List Method := []
  deriving DecidableEq, Repr

namespace Class

def currentVersion : UInt32 := 1

def addMethod (m : Method) (c : Class) : Nat × Class :=
  (c.methods.length, { c with methods := c.methods ++ [m] })

def method? (c : Class) (name : String) : Option Method := c.methods.find? (·.name == name)

/-- Equality of two classes, constants compared as numbers. -/
def agrees (c d : Class) : Bool :=
  c.version == d.version && c.flags == d.flags && c.constants.agrees d.constants &&
    c.name == d.name && c.methods == d.methods

end Class

end Rowwise
