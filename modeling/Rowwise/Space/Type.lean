import Rowwise.Bytes.Digest
import Rowwise.Error

/-! Types that live in a namespace, and handles. A handle designates one method of one type; it is
resolved once and used for many rows. -/
namespace Rowwise

structure Declared extends Signature where
  access : UInt16
  deriving DecidableEq, Repr

def Declared.isPublic (d : Declared) : Bool := Access.isPublic d.access

/-- A method body that is not bytecode: a function of one row of arguments. -/
abbrev Native := List Value → Except Fault Value

/-- What runs when a method of the type is called. Bodies stand in the order of the methods. -/
inductive Body where
  | bytecode (c : Class)
  | native (bodies : List Native)

structure LoadedType where
  name : String
  space : SpaceId
  /-- The length of the file that the type comes from; native types come from none. -/
  size : Nat
  digest : List UInt8
  methods : List Declared
  body : Body

structure NativeMethod extends Declared where
  body : Native

namespace LoadedType

def ofClass (c : Class) (bytes : List UInt8) (space : SpaceId) : LoadedType where
  name := c.name
  space := space
  size := bytes.length
  digest := Bytes.Digest.sha256 bytes
  methods := c.methods.map fun m => ⟨m.toSignature, m.access⟩
  body := .bytecode c

/-- What the digest of a native type is taken of: its name and the signatures of its methods. -/
def shape (name : String) (methods : List Declared) : List UInt8 :=
  Bytes.utf8 name ++ methods.flatMap fun m =>
    Bytes.utf8 m.name ++ m.params.flatMap (fun p => 0 :: Bytes.utf8 p) ++ 1 :: Bytes.utf8 m.returns

/-- A native type has no bytes; its digest identifies its shape. -/
def ofNative (name : String) (methods : List NativeMethod) (space : SpaceId) : LoadedType where
  name := name
  space := space
  size := 0
  digest := Bytes.Digest.sha256 (shape name (methods.map (·.toDeclared)))
  methods := methods.map (·.toDeclared)
  body := .native (methods.map (·.body))

def isBytecode (t : LoadedType) : Bool :=
  match t.body with
  | .bytecode _ => true
  | .native _ => false

def text (t : LoadedType) : String := s!"{t.name}@{t.space.text}"

/-- Two types are the same object if they have the same name in the same namespace. -/
def isSame (t u : LoadedType) : Bool := t.name == u.name && t.space == u.space

end LoadedType

def describe (typeName : String) (methods : List Signature) (name : String) : Except Error String :=
  match methods.find? (·.name == name) with
  | some m => .ok m.descriptor
  | none => .error (.methodNotFound s!"{typeName}.{name}")

def Class.describe (c : Class) (name : String) : Except Error String :=
  Rowwise.describe c.name (c.methods.map (·.toSignature)) name

def LoadedType.describe (t : LoadedType) (name : String) : Except Error String :=
  Rowwise.describe t.name (t.methods.map (·.toSignature)) name

inductive Selector where
  | first
  | named (name : String)
  /-- A name and a descriptor tell overloads apart. -/
  | overload (name descriptor : String)
  deriving DecidableEq, Repr

structure Handle where
  owner : LoadedType
  index : Fin owner.methods.length
  /-- Whether this handle may call its method though it is not public. -/
  granted : Bool := false

namespace Handle

/-- The first method that fits, or the complaint that none is called `wanted`. -/
def find (t : LoadedType) (fits : Declared → Bool) (wanted : String) : Except Error Handle :=
  match t.methods.findFinIdx? fits with
  | some index => .ok { owner := t, index }
  | none => .error (.methodNotFound s!"{t.name}.{wanted}")

def first (t : LoadedType) : Except Error Handle := find t (fun _ => true) "<first>"

def byName (t : LoadedType) (name : String) : Except Error Handle :=
  find t (fun m => m.name == name) name

def lookup (t : LoadedType) (name descriptor : String) : Except Error Handle :=
  find t (fun m => m.name == name && m.descriptor == descriptor) (name ++ descriptor)

def select (t : LoadedType) : Selector → Except Error Handle
  | .first => first t
  | .named name => byName t name
  | .overload name descriptor => lookup t name descriptor

def method (h : Handle) : Declared := h.owner.methods[h.index]

def grant (h : Handle) : Handle := { h with granted := true }

def isAccessible (h : Handle) : Bool := h.granted || h.method.isPublic

def arity (h : Handle) : Nat := h.method.arity

def qualifiedName (h : Handle) : String := s!"{h.owner.name}.{h.method.name}"

def text (h : Handle) : String := h.qualifiedName ++ h.method.descriptor

end Handle

end Rowwise
