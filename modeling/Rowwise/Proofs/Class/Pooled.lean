import Rowwise.Proofs.Class.Interned
import Rowwise.Proofs.Code.Items

/-! Pools among other bytes. No mark tells where a pool ends, so its reader has to stop by the
counts alone: the size of a pool, computed from its slots, is the length of what is written for it,
and it is how far the reader goes. -/
namespace Rowwise

namespace Item

def counted (shape : Shape) (contents : List shape.Content) : List Item :=
  ⟨.word32, UInt32.ofNat contents.length⟩ :: contents.map fun content => ⟨shape, content⟩

theorem encode_counted (shape : Shape) (contents : List shape.Content) :
    (counted shape contents).flatMap encode = Bytes.ofCounted shape.encode contents := by
  have count : encode ⟨.word32, UInt32.ofNat contents.length⟩ = Bytes.ofNat 4 contents.length := by
    change Bytes.ofNat 4 (UInt32.ofNat contents.length).toNat = _
    rw [UInt32.toNat_ofNat']
    exact Bytes.ofNat_mod 4 contents.length
  rw [counted, List.flatMap_cons, count, List.flatMap_map]
  rfl

end Item

namespace Pool

def items (p : Pool) : List Item :=
  Item.counted .text p.strings ++ Item.counted .long p.integers ++ Item.counted .double p.doubles

theorem encode_items (p : Pool) : p.items.flatMap Item.encode = p.encode := by
  simp only [items, List.flatMap_append, Item.encode_counted]
  rfl

/-- The computed size is the size. -/
theorem length_encode (p : Pool) : p.encode.length = p.encodedSize := by
  have texts : (Bytes.ofCounted Bytes.ofText p.strings).length =
      4 + p.strings.foldr (fun s size => 4 + s.utf8ByteSize + size) 0 := by
    simp only [Bytes.length_ofCounted, Bytes.length_ofText]
  have longs := Bytes.length_ofCounted_of_width
    (fun n : Int64 => Bytes.length_ofWord64 n.toUInt64) p.integers
  have doubles := Bytes.length_ofCounted_of_width Bytes.length_ofWord64 p.doubles
  rw [encode, List.length_append, List.length_append, texts, longs, doubles, encodedSize]
  omega

end Pool

/-- An interner is read exactly from the encoding of its slots, and its tables are those that follow
from the slots. -/
theorem Reader.interner_inverts : interner.Inverts (fun t => t.pool.encode) fun t =>
    t.pool.Sized ∧ t = Interner.ofPool t.pool := by
  rw [interner_eq, map_eq_pure_bind]
  exact pool_inverts.map Interner.ofPool Interner.pool fun p _ => Interner.pool_ofPool p

/-- A pool is read back wherever it stands. Written item by item behind anything else, it takes up
its computed size. Whatever follows it, the reader comes to an end exactly there, with the same
slots in the same order: a value that repeats is not merged with its first slot, though the tables
tell the first one, and doubles are the same bit patterns. The reader without tables reads the same.
-/
theorem written_pool_read_back {p : Pool} (sized : p.Sized) (a : Assembler) :
    (a.writeAll p.items).code = a.code ++ p.encode ∧
    (a.writeAll p.items).offset = a.offset + p.encodedSize ∧
    ∀ rest : List UInt8, ∃ (t : Interner) (d : Cursor),
      Reader.interner ⟨(a.writeAll p.items).code ++ rest, a.offset⟩ = .ok t d ∧
      Reader.pool ⟨(a.writeAll p.items).code ++ rest, a.offset⟩ = .ok p d ∧
      t.pool = p ∧ t.Indexed ∧ d.position = (a.writeAll p.items).offset ∧ d.rest = rest := by
  have code : (a.writeAll p.items).code = a.code ++ p.encode := by
    rw [Assembler.code_writeAll, p.encode_items]
  have offset : (a.writeAll p.items).offset = a.offset + p.encodedSize := by
    rw [Assembler.offset_writeAll, p.encode_items, p.length_encode]
  refine ⟨code, offset, fun rest => ?_⟩
  have slots : (Interner.ofPool p).pool = p := Interner.pool_ofPool p
  have made : (Interner.ofPool p).pool.Sized ∧
      Interner.ofPool p = Interner.ofPool (Interner.ofPool p).pool := by
    rw [slots]
    exact ⟨sized, rfl⟩
  -- both readers invert the encoding, so neither has to be followed through its loops
  have read := Reader.interner_inverts.between made a.code rest
  have plain := Reader.pool_inverts.between sized a.code rest
  rw [slots, ← code] at read
  rw [← code] at plain
  refine ⟨_, _, read, plain, slots, Interner.indexed_ofPool p, rfl, ?_⟩
  rw [Cursor.rest, List.drop_left]

/-- A text with a character of two bytes and an integer, both in two slots, a signalling NaN and a
negative zero. -/
def refrain : Pool where
  strings := ["Zoë", "", "Zoë"]
  integers := [-9000000000, -9000000000]
  doubles := [0x7FF0000000000001, 0x8000000000000000]

/-- Behind two bytes of something else, and before a name. -/
theorem refrain_read_back :
    refrain.Sized ∧
      (Assembler.writeAll refrain.items ⟨[0x55, 0x44]⟩).offset = 66 ∧
      ∃ (t : Interner) (d : Cursor),
        Reader.interner
            ⟨(Assembler.writeAll refrain.items ⟨[0x55, 0x44]⟩).code ++ Bytes.ofText "Chorus", 2⟩ =
          .ok t d ∧
        t.pool = refrain ∧ d.position = 66 ∧ d.rest = Bytes.ofText "Chorus" := by
  have sized : refrain.Sized := by decide
  obtain ⟨-, offset, reads⟩ := written_pool_read_back sized ⟨[0x55, 0x44]⟩
  have size : refrain.encodedSize = 64 := by decide
  have behind : (Assembler.writeAll refrain.items ⟨[0x55, 0x44]⟩).offset = 66 := by
    rw [offset, size]
    rfl
  obtain ⟨t, d, read, -, slots, -, position, left⟩ := reads (Bytes.ofText "Chorus")
  exact ⟨sized, behind, t, d, read, slots, position.trans behind, left⟩

end Rowwise
