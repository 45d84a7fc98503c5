import Rowwise.Bytes.Word

/-! Reading typed items from a buffer of bytes. A failing read says where it stood, and
leaves the cursor behind whatever it had already consumed. -/
namespace Rowwise

/-- Why bytes could not be read. -/
inductive DecodeError where
  | unexpectedEnd (offset : Nat)
  | invalidText (offset : Nat)
  | invalidOpcode (byte : UInt8) (offset : Nat)
  deriving DecidableEq, Repr

def DecodeError.message : DecodeError → String
  | .unexpectedEnd offset => s!"Unexpected end of bytecode at offset {offset}"
  | .invalidText offset => s!"Invalid UTF-8 string at offset {offset}"
  | .invalidOpcode byte offset => s!"Invalid opcode {byte} at offset {offset}"

/-- A position in a buffer. It may lie past the end, where nothing can be read. -/
structure Cursor where
  buffer : List UInt8
  position : Nat
  deriving DecidableEq, Repr

namespace Cursor

def start (buffer : List UInt8) : Cursor := ⟨buffer, 0⟩

def rest (c : Cursor) : List UInt8 := c.buffer.drop c.position

def remaining (c : Cursor) : Nat := c.buffer.length - c.position

def hasMore (c : Cursor) : Bool := c.position < c.buffer.length

@[simp] theorem length_rest (c : Cursor) : c.rest.length = c.remaining := by
  simp [rest, remaining]

@[simp] theorem rest_start (buffer : List UInt8) : (start buffer).rest = buffer := rfl

end Cursor

/-- A read either yields a value or an error; the cursor moves in both cases. -/
abbrev Reader := EStateM DecodeError Cursor

namespace Reader

def position : Reader Nat := fun c => .ok c.position c

def seek (target : Nat) : Reader Unit := fun c => .ok () { c with position := target }

/-- The next `n` bytes, all of them or none. -/
def bytes (n : Nat) : Reader (List UInt8) := fun c =>
  if c.position + n ≤ c.buffer.length then
    .ok (c.rest.take n) { c with position := c.position + n }
  else
    .error (.unexpectedEnd c.position) c

def word8 : Reader UInt8 := do return UInt8.ofNat (Bytes.toNat (← bytes 1))
def word16 : Reader UInt16 := do return Bytes.toWord16 (← bytes 2)
def word32 : Reader UInt32 := do return Bytes.toWord32 (← bytes 4)
def word64 : Reader UInt64 := do return Bytes.toWord64 (← bytes 8)

/-- A text is its length in bytes followed by its UTF-8 bytes. An invalid text is consumed. -/
def text : Reader String := do
  let length ← word32
  let start ← position
  let content ← bytes length.toNat
  match String.fromUTF8? ⟨content.toArray⟩ with
  | some s => return s
  | none => throw (.invalidText start)

def times (item : Reader α) : Nat → Reader (List α)
  | 0 => return []
  | n + 1 => do
    let head ← item
    let tail ← times item n
    return head :: tail

def counted (item : Reader α) : Reader (List α) := do
  let count ← word32
  times item count.toNat

end Reader

namespace Bytes

def utf8 (s : String) : List UInt8 := s.toUTF8.data.toList

def ofText (s : String) : List UInt8 := ofNat 4 (utf8 s).length ++ utf8 s

def ofCounted (item : α → List UInt8) (items : List α) : List UInt8 :=
  ofNat 4 items.length ++ items.flatMap item

theorem length_ofText (s : String) : (ofText s).length = 4 + s.utf8ByteSize := by
  rw [ofText, List.length_append, length_ofNat]
  rfl

theorem length_ofCounted (item : α → List UInt8) (items : List α) :
    (ofCounted item items).length = 4 + items.foldr (fun a size => (item a).length + size) 0 := by
  rw [ofCounted, List.length_append, length_ofNat, List.length_flatMap, List.sum_eq_foldr,
    List.foldr_map]

/-- Items of one width take up as much for each of them. -/
theorem length_ofCounted_of_width {item : α → List UInt8} {width : Nat}
    (each : ∀ a, (item a).length = width) (items : List α) :
    (ofCounted item items).length = 4 + items.length * width := by
  rw [ofCounted, List.length_append, length_ofNat, List.length_flatMap]
  simp only [each, List.map_const', List.sum_replicate_nat]

end Bytes

end Rowwise
