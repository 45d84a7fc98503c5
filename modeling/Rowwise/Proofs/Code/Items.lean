import Rowwise.Code.Assembler
import Rowwise.Proofs.Bytes.Inverse

/-! Sequences of typed items, written one after the other and read back. The bytes do not show where
an item ends and what it is, so a reader has to know the shapes of the items. -/
namespace Rowwise

namespace Reader

/-! An opcode is read in two steps: its byte, then what the byte stands for. -/

def named (start : Nat) (byte : UInt8) : Reader Opcode :=
  match Opcode.ofByte? byte with
  | some op => return op
  | none => throw (.invalidOpcode byte start)

theorem named_inverts (start : Nat) (byte : UInt8) :
    (named start byte).Inverts (fun _ => []) (·.byte = byte) := by
  refine Inverse.still fun c d op => ?_
  have stands : op.byte = byte ↔ Opcode.ofByte? byte = some op :=
    ⟨fun same => same ▸ op.ofByte?_byte, Opcode.byte_of_ofByte?⟩
  rw [stands, named]
  cases Opcode.ofByte? byte with
  | some other => rw [run_pure_ok, Option.some.injEq]
  | none => exact ⟨nofun, nofun⟩

theorem opcode_inverts : opcode.Inverts (fun op => [op.byte]) fun _ => True := by
  have law (start : Nat) :
      (word8 >>= named start).Inverts (fun op => [op.byte]) fun _ => True :=
    (word8_inverts.field Opcode.byte (fun _ _ _ same => same) fun byte _ =>
      named_inverts start byte).congr (by simp) (by simp)
  exact ⟨fun {c _ _} => (law c.position).ok_iff, fun {c _} => (law c.position).short⟩

end Reader

/-- What has to be known of an item to read it. -/
inductive Shape where
  | word8 | word16 | word32 | int | long | double | text | opcode
  /-- Bytes without their length. -/
  | raw (count : Nat)
  deriving DecidableEq, Repr

namespace Shape

/-- Doubles are bit patterns. -/
abbrev Content : Shape → Type
  | .word8 => UInt8
  | .word16 => UInt16
  | .word32 => UInt32
  | .int => Int32
  | .long => Int64
  | .double => UInt64
  | .text => String
  | .opcode => Opcode
  | .raw _ => List UInt8

def encode : (shape : Shape) → shape.Content → List UInt8
  | .word8, w => [w]
  | .word16, w => Bytes.ofWord16 w
  | .word32, w => Bytes.ofWord32 w
  | .int, n => Bytes.ofWord32 n.toUInt32
  | .long, n => Bytes.ofWord64 n.toUInt64
  | .double, bits => Bytes.ofWord64 bits
  | .text, s => Bytes.ofText s
  | .opcode, op => [op.byte]
  | .raw _, bs => bs

def read : (shape : Shape) → Reader shape.Content
  | .word8 => Reader.word8
  | .word16 => Reader.word16
  | .word32 => Reader.word32
  | .int => do return (← Reader.word32).toInt32
  | .long => do return (← Reader.word64).toInt64
  | .double => Reader.word64
  | .text => Reader.text
  | .opcode => Reader.opcode
  | .raw count => Reader.bytes count

/-- The length of a text fits into its field, and bytes are as many as they are said to be. -/
def Fits : (shape : Shape) → shape.Content → Prop
  | .text, s => (Bytes.utf8 s).length < UInt32.size
  | .raw count, bs => bs.length = count
  | _, _ => True

theorem read_inverts (shape : Shape) : shape.read.Inverts shape.encode shape.Fits := by
  cases shape with
  | word8 => exact Reader.word8_inverts
  | word16 => exact Reader.word16_inverts
  | word32 => exact Reader.word32_inverts
  | int => exact Reader.int_inverts
  | long => exact Reader.long_inverts
  | double => exact Reader.word64_inverts
  | text => exact Reader.text_inverts
  | opcode => exact Reader.opcode_inverts
  | raw count => exact Reader.bytes_inverts count

end Shape

structure Item where
  shape : Shape
  content : shape.Content

namespace Item

def encode (i : Item) : List UInt8 := i.shape.encode i.content

def Fits (i : Item) : Prop := i.shape.Fits i.content

end Item

namespace Assembler

def write (i : Item) (a : Assembler) : Assembler := a.raw i.encode

def writeAll (items : List Item) (a : Assembler) : Assembler :=
  items.foldl (fun a i => a.write i) a

theorem code_writeAll (items : List Item) (a : Assembler) :
    (a.writeAll items).code = a.code ++ items.flatMap Item.encode := by
  induction items generalizing a with
  | nil => simp [writeAll]
  | cons i later ih =>
    have first : a.writeAll (i :: later) = (a.write i).writeAll later := rfl
    rw [first, ih, List.flatMap_cons, ← List.append_assoc]
    rfl

theorem offset_writeAll (items : List Item) (a : Assembler) :
    (a.writeAll items).offset = a.offset + (items.flatMap Item.encode).length := by
  rw [offset, code_writeAll, List.length_append, offset]

end Assembler

namespace Reader

def item (shape : Shape) : Reader Item := do return ⟨shape, ← shape.read⟩

def items : List Shape → Reader (List Item)
  | [] => return []
  | shape :: later => do
    let head ← item shape
    let tail ← items later
    return head :: tail

theorem item_inverts (shape : Shape) :
    (item shape).Inverts Item.encode fun i => i.shape = shape ∧ i.Fits := by
  refine shape.read_inverts.inject (Item.mk shape) (fun i => ⟨?_, ?_⟩) fun _ _ => rfl
  · rintro ⟨rfl, fit⟩
    exact ⟨i.content, fit, rfl⟩
  · rintro ⟨content, fit, rfl⟩
    exact ⟨rfl, fit⟩

theorem items_inverts (shapes : List Shape) :
    (items shapes).Inverts (·.flatMap Item.encode) fun is =>
      is.map (·.shape) = shapes ∧ ∀ i ∈ is, i.Fits := by
  induction shapes with
  | nil =>
    refine (Inverse.pure []).congr ?_ ?_
    · rintro (_ | _) <;> simp
    · rintro is ⟨none, -⟩
      rw [List.map_eq_nil_iff.mp none]
      rfl
  | cons shape later ih =>
    refine (item_inverts shape).bind
      (fun head _ => ih.map (head :: ·) List.tail (fun _ _ => rfl)) ?_ ?_
    · rintro (_ | ⟨head, tail⟩)
      · simp
      · simpa using and_and_and_comm
    · rintro head items - ⟨-, split⟩
      rw [split]
      rfl

end Reader

variable {items : List Item} {a : Assembler}

/-- A position within what is written is within one of the items. -/
theorem exists_item_at {k : Nat} (within : k < (items.flatMap Item.encode).length) :
    ∃ earlier i later, items = earlier ++ i :: later ∧
      (earlier.flatMap Item.encode).length ≤ k ∧
      k < (earlier.flatMap Item.encode).length + i.encode.length := by
  induction items generalizing k with
  | nil => exact absurd within (Nat.not_lt_zero k)
  | cons i later ih =>
    by_cases first : k < i.encode.length
    · exact ⟨[], i, later, rfl, Nat.zero_le k, by simpa using first⟩
    · rw [List.flatMap_cons, List.length_append] at within
      obtain ⟨earlier, j, last, rfl, low, high⟩ := ih (k := k - i.encode.length) (by omega)
      refine ⟨i :: earlier, j, last, rfl, ?_, ?_⟩
      all_goals
        rw [List.flatMap_cons, List.length_append]
        omega

theorem read_written (fits : ∀ i ∈ items, i.Fits) (a : Assembler) (rest : List UInt8) :
    Reader.items (items.map (·.shape)) ⟨(a.writeAll items).code ++ rest, a.offset⟩ =
      .ok items ⟨(a.writeAll items).code ++ rest, (a.writeAll items).offset⟩ := by
  have read := (Reader.items_inverts _).between ⟨rfl, fits⟩ a.code rest
  rw [← Assembler.code_writeAll] at read
  exact read

/-- Input that ends within a piece, read from somewhere before the piece. -/
theorem Cursor.cut_behind {front xs ys : List UInt8} (later : List UInt8) {cut : Nat}
    (low : (front ++ xs).length ≤ cut) (high : cut < (front ++ xs ++ ys).length) :
    let buffer := (front ++ xs ++ ys ++ later).take cut
    Crosses ⟨buffer, front.length⟩ xs ⟨buffer, (front ++ xs).length⟩ ∧
      Cut ⟨buffer, (front ++ xs).length⟩ ys := by
  intro buffer
  rw [List.length_append] at low high
  have few : cut - front.length - xs.length ≤ ys.length := by
    rw [List.length_append] at high
    omega
  have before : buffer.drop front.length = xs ++ ys.take (cut - front.length - xs.length) := by
    rw [List.drop_take, List.append_assoc, List.append_assoc, List.drop_left, List.take_append,
      List.take_of_length_le (by omega), List.take_append_of_le_length few]
  have behind : buffer.drop (front ++ xs).length = ys.take (cut - front.length - xs.length) := by
    rw [List.length_append, ← List.drop_drop, before, List.drop_left]
  refine ⟨⟨?_, by rw [advance, List.length_append]⟩, ?_, ?_⟩
  · rw [rest, rest, before, behind]
  · rw [rest, behind]
    exact List.take_prefix _ _
  · rw [← length_rest, rest, behind, List.length_take]
    rw [List.length_append] at high
    omega

/-- Where bytes are cut off, the items before the cut are read, and then the input ends. -/
theorem read_cut (fits : ∀ i ∈ items, i.Fits) (a : Assembler) {cut : Nat} (behind : a.offset ≤ cut)
    (within : cut < (a.writeAll items).offset) :
    ∃ earlier i later, items = earlier ++ i :: later ∧ (a.writeAll earlier).offset ≤ cut ∧
      cut < (a.writeAll (earlier ++ [i])).offset ∧
      Reader.items (earlier.map (·.shape)) ⟨(a.writeAll items).code.take cut, a.offset⟩ =
        .ok earlier ⟨(a.writeAll items).code.take cut, (a.writeAll earlier).offset⟩ ∧
      ∃ offset d, i.shape.read ⟨(a.writeAll items).code.take cut, (a.writeAll earlier).offset⟩ =
        .error (.unexpectedEnd offset) d := by
  rw [Assembler.offset_writeAll] at within
  have position : cut - a.offset < (items.flatMap Item.encode).length := by omega
  obtain ⟨earlier, i, later, rfl, low, high⟩ := exists_item_at position
  have start : (a.writeAll earlier).offset = (a.code ++ earlier.flatMap Item.encode).length := by
    rw [Assembler.offset, Assembler.code_writeAll]
  have stop : (a.writeAll (earlier ++ [i])).offset =
      (a.code ++ earlier.flatMap Item.encode ++ i.encode).length := by
    simp [Assembler.offset, Assembler.code_writeAll]
  have code : (a.writeAll (earlier ++ i :: later)).code =
      a.code ++ earlier.flatMap Item.encode ++ i.encode ++ later.flatMap Item.encode := by
    simp [Assembler.code_writeAll]
  have low : (a.writeAll earlier).offset ≤ cut := by
    rw [Assembler.offset_writeAll]
    omega
  have high : cut < (a.writeAll (earlier ++ [i])).offset := by
    rw [stop, List.length_append, ← start, Assembler.offset_writeAll]
    omega
  obtain ⟨crosses, ends⟩ :=
    Cursor.cut_behind (later.flatMap Item.encode) (start ▸ low) (stop ▸ high)
  rw [← code, ← start] at crosses ends
  have inside : Cursor.Inside ⟨(a.writeAll (earlier ++ i :: later)).code.take cut, a.offset⟩ := by
    rw [Cursor.Inside, List.length_take, Nat.le_min]
    exact ⟨behind, Nat.le.intro (Assembler.offset_writeAll _ a).symm⟩
  have read := ((Reader.items_inverts _).ok_iff inside).mpr
    ⟨⟨rfl, fun j member => fits j (List.mem_append_left _ member)⟩, crosses⟩
  have ended := i.shape.read_inverts.short (crosses.inside inside)
    (fits i (List.mem_append_right _ List.mem_cons_self)) ends
  exact ⟨earlier, i, later, rfl, low, high, read, ended⟩

/-- Whatever is written and whatever follows it, reading gives the items back and comes to what
follows. Where the bytes are cut off earlier, all items up to the cut are read, and the one that is
not whole is reported as an unexpected end. -/
theorem written_items_read_back {items : List Item} (fits : ∀ i ∈ items, i.Fits) (a : Assembler) :
    (∀ rest : List UInt8, ∃ d : Cursor,
      Reader.items (items.map (·.shape)) ⟨(a.writeAll items).code ++ rest, a.offset⟩ =
        .ok items d ∧
      d.position = (a.writeAll items).offset ∧ d.rest = rest) ∧
    ∀ cut, a.offset ≤ cut → cut < (a.writeAll items).offset →
      ∃ earlier i later, items = earlier ++ i :: later ∧ (a.writeAll earlier).offset ≤ cut ∧
        cut < (a.writeAll (earlier ++ [i])).offset ∧
        Reader.items (earlier.map (·.shape)) ⟨(a.writeAll items).code.take cut, a.offset⟩ =
          .ok earlier ⟨(a.writeAll items).code.take cut, (a.writeAll earlier).offset⟩ ∧
        ∃ offset d, i.shape.read ⟨(a.writeAll items).code.take cut, (a.writeAll earlier).offset⟩ =
          .error (.unexpectedEnd offset) d := by
  refine ⟨fun rest => ⟨_, read_written fits a rest, rfl, ?_⟩, fun cut => read_cut fits a⟩
  rw [Cursor.rest, Assembler.offset, List.drop_left]

def samples : List Item :=
  [⟨.opcode, .stack (.int .add)⟩, ⟨.int, (-42 : Int32)⟩, ⟨.raw 2, ([7, 8] : List UInt8)⟩,
   ⟨.text, "Zoë"⟩, ⟨.long, (-9000000000 : Int64)⟩]

/-- Cut off within the bytes of the text, behind its length. -/
theorem samples_read_back :
    (∃ d : Cursor, Reader.items (samples.map (·.shape))
      ⟨(({} : Assembler).writeAll samples).code ++ [1], 0⟩ = .ok samples d ∧ d.rest = [1]) ∧
    ∃ earlier i later, samples = earlier ++ i :: later ∧
      (({} : Assembler).writeAll earlier).offset ≤ 13 ∧
      13 < (({} : Assembler).writeAll (earlier ++ [i])).offset ∧
      ∃ offset d, i.shape.read ⟨(({} : Assembler).writeAll samples).code.take 13,
        (({} : Assembler).writeAll earlier).offset⟩ = .error (.unexpectedEnd offset) d := by
  have fits : ∀ i ∈ samples, i.Fits := by
    have short : (Bytes.utf8 "Zoë").length < UInt32.size := by decide
    simpa [samples, Item.Fits, Shape.Fits] using short
  obtain ⟨reads, cuts⟩ := written_items_read_back fits {}
  obtain ⟨d, read, -, rest⟩ := reads [1]
  obtain ⟨earlier, i, later, whole, low, high, -, ended⟩ := cuts 13 (by decide) (by decide)
  exact ⟨⟨d, read, rest⟩, earlier, i, later, whole, low, high, ended⟩

end Rowwise
