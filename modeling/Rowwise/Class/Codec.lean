import Rowwise.Bytes.Digest
import Rowwise.Class.Basic
import Rowwise.Text

/-! The file format of classes: a header of 16 bytes with the checksum of the payload, then the
payload, which is the pool of constants, the name and the methods. -/
namespace Rowwise

inductive FormatError where
  | malformed (error : DecodeError)
  | wrongMagic (found : List UInt8)
  | unsupportedVersion (version : UInt32)
  | wrongChecksum (expected actual : UInt32)
  | trailingBytes (count : Nat)
  deriving DecidableEq, Repr

def FormatError.message : FormatError → String
  | .malformed error => s!"Decode error: {error.message}"
  | .wrongMagic found => s!"Invalid magic number: expected UDFC, got {Text.byteList found}"
  | .unsupportedVersion version =>
    s!"Unsupported version: {version} (current: {Class.currentVersion})"
  | .wrongChecksum expected actual =>
    s!"Checksum mismatch: expected {Text.hex expected.toNat}, got {Text.hex actual.toNat}"
  | .trailingBytes count => s!"{count} trailing bytes after class body"

def Method.encode (m : Method) : List UInt8 :=
  Bytes.ofText m.name ++ Bytes.ofWord16 m.access ++ Bytes.ofCounted Bytes.ofText m.params ++
    Bytes.ofText m.returns ++ Bytes.ofNat 4 m.locals ++ Bytes.ofNat 4 m.code.length ++ m.code

namespace Class

def magic : List UInt8 := [0x55, 0x44, 0x46, 0x43]

def headerSize : Nat := 16

def payload (c : Class) : List UInt8 :=
  c.constants.encode ++ Bytes.ofText c.name ++ Bytes.ofCounted Method.encode c.methods

def header (c : Class) (checksum : UInt32) : List UInt8 :=
  magic ++ Bytes.ofWord32 c.version ++ Bytes.ofWord32 c.flags ++ Bytes.ofWord32 checksum

def encode (c : Class) : List UInt8 :=
  c.header (Bytes.Checksum.crc32 c.payload) ++ c.payload

end Class

namespace Reader

def method : Reader Method := do
  let name ← text
  let access ← word16
  let params ← counted text
  let returns ← text
  let locals ← word32
  let length ← word32
  let code ← bytes length.toNat
  return { name, params, returns, access, locals := locals.toNat, code }

end Reader

abbrev FileReader := EStateM FormatError Cursor

namespace FileReader

def field (item : Reader α) : FileReader α := item.adaptExcept .malformed

def check (condition : Bool) (error : FormatError) : FileReader Unit :=
  if condition then return () else throw error

/-- The header is checked field by field before the payload is looked at. -/
def classFile (data : List UInt8) : FileReader Class := do
  let magic ← field (Reader.bytes 4)
  check (magic == Class.magic) (.wrongMagic magic)
  let version ← field Reader.word32
  check (version == Class.currentVersion) (.unsupportedVersion version)
  let flags ← field Reader.word32
  let expected ← field Reader.word32
  let actual := Bytes.Checksum.crc32 (data.drop Class.headerSize)
  check (expected == actual) (.wrongChecksum expected actual)
  let constants ← field Reader.pool
  let name ← field Reader.text
  let methods ← field (Reader.counted Reader.method)
  let c ← get
  check (!c.hasMore) (.trailingBytes c.remaining)
  return { version, flags, constants, name, methods }

end FileReader

def Class.decode (data : List UInt8) : Except FormatError Class :=
  match FileReader.classFile data |>.run (.start data) with
  | .ok c _ => .ok c
  | .error e _ => .error e

end Rowwise
