import Rowwise.Space.Basic
import Rowwise.Text

/-! Diagnostic texts that spell out what an object holds. -/
namespace Rowwise

namespace Text

def record (name : String) (fields : List (String × String)) : String :=
  name ++ " \x7b " ++ ", ".intercalate (fields.map fun f => f.1 ++ ": " ++ f.2) ++ " \x7d"

def items (texts : List String) : String := "[" ++ ", ".intercalate texts ++ "]"

end Text

def SpaceId.inspect (id : SpaceId) : String := s!"NamespaceId({id.number})"

namespace Declared

def inspectSignature (m : Declared) : String :=
  Text.record "MethodSignature" [
    ("name", Text.quoted m.name),
    ("param_types", Text.items (m.params.map Text.quoted)),
    ("return_type", Text.quoted m.returns)]

def inspect (m : Declared) : String :=
  Text.record "DeclaredMethod" [
    ("signature", m.inspectSignature),
    ("access_flags", toString m.access.toNat)]

end Declared

def Body.inspect : Body → String
  | .bytecode c => Text.record "Bytecode" [("methods", toString c.methods.length)]
  | .native bodies => Text.record "Native" [("count", toString bodies.length)]

def LoadedType.inspect (t : LoadedType) : String :=
  Text.record "LoadedType" [
    ("name", Text.quoted t.name),
    ("namespace", t.space.inspect),
    ("bytecode_len", toString t.size),
    ("digest", Text.byteList t.digest),
    ("methods", Text.items (t.methods.map Declared.inspect)),
    ("body", t.body.inspect)]

def Handle.inspect (h : Handle) : String :=
  Text.record "MethodHandle" [
    ("owner", Text.quoted h.owner.name),
    ("namespace", h.owner.space.inspect),
    ("method", Text.quoted h.method.name),
    ("descriptor", Text.quoted h.method.descriptor),
    ("access_granted", toString h.granted)]

def Space.inspect (s : Space) : String :=
  match s with
  | .loader l =>
    Text.record "NamespaceLoader" [
      ("base_path", Text.quoted l.basePath),
      ("extension", Text.quoted l.extension),
      ("namespace", l.space.inspect),
      ("oid", toString l.ordinal),
      ("loaded", toString l.types.length)]
  | .registry r =>
    Text.record "StaticRegistry" [
      ("name", Text.quoted r.name),
      ("namespace", r.space.inspect),
      ("types", Text.items (s.names.map Text.quoted))]

end Rowwise
