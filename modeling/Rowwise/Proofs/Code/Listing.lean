import Rowwise.Code.Instruction

/-! What a listing says about the code: its instructions follow one another without gaps, and the
code is their encodings, one after the other. Where there is no listing, the bytes up to some
instruction have one. -/
namespace Rowwise

namespace Opcode

theorem fields_stack (op : Operation) : (stack op).fields = [] := by
  cases op with
  | boolean value => cases value <;> rfl
  | int op | long op | double op | convert op | compareInt op | compareDouble op =>
    cases op <;> rfl
  | _ => rfl

theorem fields_loadFixed (slot : Fin 2) : (loadFixed slot).fields = [] := by
  revert slot
  decide

theorem fields_storeFixed (slot : Fin 2) : (storeFixed slot).fields = [] := by
  revert slot
  decide

theorem fields_jump (condition : Condition) : (jump condition).fields = [4] := by
  cases condition <;> rfl

end Opcode

namespace Instruction

theorem length_operand (i : Instruction) : i.operand.length = i.width := by
  rw [width, Opcode.width]
  cases i with
  | stack op => rw [opcode, Opcode.fields_stack]; rfl
  | loadFixed slot => rw [opcode, Opcode.fields_loadFixed]; rfl
  | storeFixed slot => rw [opcode, Opcode.fields_storeFixed]; rfl
  | jump condition distance => rw [opcode, Opcode.fields_jump]; rfl
  | _ => rfl

/-- Bytes of the right number are the operand of the instruction that they spell. -/
theorem operand_ofOperand (op : Opcode) (bs : List UInt8) (width : bs.length = op.width) :
    (ofOperand op bs).operand = bs := by
  have none (zero : op.width = 0) : [] = bs := by
    rw [zero] at width
    exact (List.length_eq_zero_iff.mp width).symm
  cases op with
  | stack op => exact none (by rw [Opcode.width, Opcode.fields_stack]; rfl)
  | loadFixed slot => exact none (by rw [Opcode.width, Opcode.fields_loadFixed]; rfl)
  | storeFixed slot => exact none (by rw [Opcode.width, Opcode.fields_storeFixed]; rfl)
  | returnValue | returnVoid | throw => exact none rfl
  | constInt | constText | constLong =>
    simpa [ofOperand, operand] using Bytes.ofWord32_toWord32 bs width
  | constDouble => exact Bytes.ofWord64_toWord64 bs width
  | load | store | trap => exact Bytes.ofWord16_toWord16 bs width
  | jump condition =>
    rw [Opcode.width, Opcode.fields_jump] at width
    simpa [ofOperand, operand] using Bytes.ofWord32_toWord32 bs width
  | call =>
    have six : bs.length = 6 := width
    have method := Bytes.ofWord32_toWord32 (bs.take 4) (by simp [six])
    have args := Bytes.ofWord16_toWord16 (bs.drop 4) (by simp [six])
    simp only [ofOperand, operand, method, args, List.take_append_drop]

end Instruction

namespace Placed

def bytes (code : List Placed) : List UInt8 := code.flatMap (·.instruction.encode)

/-- Each instruction stands where the one before it ends, and the first one at `offset`. -/
def Gapless : Nat → List Placed → Prop
  | _, [] => True
  | offset, p :: later => p.offset = offset ∧ Gapless p.next later

def Distinct (code : List Placed) : Prop :=
  ∀ (i j : Nat) (p q : Placed), code[i]? = some p → code[j]? = some q → p.offset = q.offset → i = j

theorem lt_next (p : Placed) : p.offset < p.next := by
  simp only [next]; omega

/-- A listing has no gaps, and it accounts for every byte. -/
theorem gapless_of_listing {offset : Nat} {bs : List UInt8} {code : List Placed}
    (listed : listing offset bs = .ok code) : Gapless offset code ∧ bytes code = bs := by
  fun_induction listing offset bs generalizing code with
  | case1 => cases listed; exact ⟨trivial, rfl⟩
  | case2 => cases listed
  | case3 => cases listed
  | case4 => cases listed
  | case5 offset b rest op decoded fits later found ih =>
    cases listed
    obtain ⟨gapless, spelled⟩ := ih found
    have width : (rest.take op.width).length = op.width := by simp; omega
    have operand := Instruction.operand_ofOperand op (rest.take op.width) width
    have byte := Opcode.byte_of_ofByte? decoded
    refine ⟨⟨rfl, ?_⟩, ?_⟩
    · simpa [next, Instruction.width] using gapless
    · calc bytes (⟨offset, .ofOperand op (rest.take op.width)⟩ :: later)
          = b :: (rest.take op.width ++ bytes later) := by
            simp [bytes, Instruction.encode, operand, byte]
        _ = b :: rest := by rw [spelled, List.take_append_drop]

def place : Nat → List Instruction → List Placed
  | _, [] => []
  | offset, i :: later => ⟨offset, i⟩ :: place (next ⟨offset, i⟩) later

theorem gapless_place (offset : Nat) (is : List Instruction) :
    Gapless offset (place offset is) := by
  induction is generalizing offset with
  | nil => trivial
  | cons i later ih => exact ⟨rfl, ih _⟩

@[simp] theorem instructions_place (offset : Nat) (is : List Instruction) :
    (place offset is).map (·.instruction) = is := by
  induction is generalizing offset with
  | nil => rfl
  | cons i later ih => rw [place, List.map_cons, ih]

theorem bytes_eq (code : List Placed) :
    bytes code = (code.map (·.instruction)).flatMap Instruction.encode := by
  rw [List.flatMap_map, bytes]

theorem length_encode (p : Placed) : p.instruction.encode.length = p.next - p.offset := by
  simp only [Instruction.encode, List.length_cons, Instruction.length_operand, next]
  omega

namespace Gapless

variable {offset : Nat} {code : List Placed}

/-- Whatever stands without gaps is the listing of its bytes. -/
theorem listed (gapless : Gapless offset code) : listing offset (bytes code) = .ok code := by
  induction code generalizing offset with
  | nil => simp [bytes, listing]
  | cons p later ih =>
    obtain ⟨rfl, gapless⟩ := gapless
    have split : bytes (p :: later) =
        p.instruction.opcode.byte :: (p.instruction.operand ++ bytes later) := rfl
    have width : p.instruction.opcode.width = p.instruction.operand.length :=
      p.instruction.length_operand.symm
    have fits : ¬ (p.instruction.operand ++ bytes later).length < p.instruction.opcode.width := by
      simp [width]
    have after : p.offset + 1 + p.instruction.opcode.width = p.next := rfl
    rw [split, listing, Opcode.ofByte?_byte]
    simp only [fits, ↓reduceIte, after]
    rw [width, List.drop_left, ih gapless]
    simp only [List.take_left, Instruction.ofOperand_operand]

theorem append {before later : List Placed} : Gapless offset (before ++ later) ↔
    Gapless offset before ∧ Gapless (offset + (bytes before).length) later := by
  induction before generalizing offset with
  | nil => simp [Gapless, bytes]
  | cons p before ih =>
    have split :
        (bytes (p :: before)).length = p.instruction.encode.length + (bytes before).length :=
      List.length_append
    have step := p.lt_next
    rw [List.cons_append, Gapless, Gapless, ih, and_assoc, split, p.length_encode]
    refine and_congr_right fun here => and_congr_right fun _ => ?_
    rw [show offset + (p.next - p.offset + (bytes before).length) =
      p.next + (bytes before).length by omega]

theorem head (gapless : Gapless offset code) {p : Placed} (first : code[0]? = some p) :
    p.offset = offset := by
  cases code with
  | nil => cases first
  | cons q later => cases first; exact gapless.1

theorem adjacent (gapless : Gapless offset code) {i : Nat} {p q : Placed}
    (here : code[i]? = some p) (after : code[i + 1]? = some q) : q.offset = p.next := by
  induction i generalizing offset code with
  | zero =>
    cases code with
    | nil => cases here
    | cons r later => cases here; exact gapless.2.head (by simpa using after)
  | succ i ih =>
    cases code with
    | nil => cases here
    | cons r later => exact ih gapless.2 (by simpa using here) (by simpa using after)

theorem offset_lt (gapless : Gapless offset code) {i j : Nat} {p q : Placed} (before : i < j)
    (here : code[i]? = some p) (there : code[j]? = some q) : p.offset < q.offset := by
  obtain ⟨k, rfl⟩ := Nat.exists_eq_add_of_lt before
  induction k generalizing q with
  | zero => rw [gapless.adjacent here there]; exact p.lt_next
  | succ k ih =>
    obtain ⟨bound, _⟩ := List.getElem?_eq_some_iff.mp there
    have middle : code[i + k + 1]? = some code[i + k + 1] := List.getElem?_eq_getElem (by omega)
    have first := ih (by omega) middle
    have second := gapless.adjacent middle there
    have step := code[i + k + 1].lt_next
    omega

theorem distinct (gapless : Gapless offset code) : Distinct code := by
  intro i j p q here there same
  rcases Nat.lt_trichotomy i j with before | equal | after
  · have := gapless.offset_lt before here there; omega
  · exact equal
  · have := gapless.offset_lt after there here; omega

/-- At the offset of an instruction stands its encoding. -/
theorem drop_bytes (gapless : Gapless offset code) {p : Placed} (member : p ∈ code) :
    offset ≤ p.offset ∧
      ∃ rest, (bytes code).drop (p.offset - offset) = p.instruction.encode ++ rest := by
  induction code generalizing offset with
  | nil => cases member
  | cons q later ih =>
    obtain ⟨rfl, gapless⟩ := gapless
    rcases List.mem_cons.mp member with rfl | member
    · exact ⟨Nat.le_refl _, bytes later, by simp [bytes]⟩
    · obtain ⟨behind, rest, found⟩ := ih gapless member
      have width := q.length_encode
      have step := q.lt_next
      refine ⟨by omega, rest, ?_⟩
      have split : bytes (q :: later) = q.instruction.encode ++ bytes later := rfl
      rw [split, ← found, List.drop_append, width, List.drop_eq_nil_of_le (by omega)]
      simp; congr 1; omega

theorem increasing (gapless : Gapless offset code) : code.Pairwise (·.offset < ·.offset) := by
  rw [List.pairwise_iff_getElem]
  intro i j inside inside' before
  exact gapless.offset_lt before (List.getElem?_eq_getElem inside)
    (List.getElem?_eq_getElem inside')

theorem offset_lt_length (gapless : Gapless 0 code) {p : Placed} (member : p ∈ code) :
    p.offset < (bytes code).length := by
  obtain ⟨_, rest, found⟩ := gapless.drop_bytes member
  have length := congrArg List.length found
  simp [Instruction.encode] at length
  omega

end Gapless

end Placed

/-- The bytes, of which the first stands at `start`, are whole instructions up to the given one. -/
def Boundary (start : Nat) (bytes : List UInt8) (length : Nat) : Prop :=
  ∃ code, listing start (bytes.take length) = .ok code

theorem Boundary.zero (start : Nat) (bytes : List UInt8) : Boundary start bytes 0 :=
  ⟨[], by simp [listing]⟩

/-- Behind an instruction the boundaries are those of the bytes that follow it. -/
theorem Boundary.cons {start length : Nat} {b : UInt8} {rest : List UInt8} {op : Opcode}
    (decoded : Opcode.ofByte? b = some op) (fits : ¬ rest.length < op.width)
    (later : Boundary (start + 1 + op.width) (rest.drop op.width) length) :
    Boundary start (b :: rest) (1 + op.width + length) := by
  obtain ⟨code, listed⟩ := later
  have front : (b :: rest).take (1 + op.width + length) = b :: rest.take (op.width + length) := by
    rw [show 1 + op.width + length = (op.width + length) + 1 by omega, List.take_succ_cons]
  have behind :
      (rest.take (op.width + length)).drop op.width = (rest.drop op.width).take length := by
    rw [List.drop_take, Nat.add_sub_cancel_left]
  have whole : ¬ (rest.take (op.width + length)).length < op.width := by
    rw [List.length_take]
    omega
  refine ⟨⟨start, .ofOperand op ((rest.take (op.width + length)).take op.width)⟩ :: code, ?_⟩
  rw [front, listing, decoded]
  simp only [whole, ↓reduceIte, behind, listed]

/-- At the offset of a listed instruction stands its encoding, behind whole instructions. -/
theorem boundary_of_mem {start : Nat} {bytes : List UInt8} {code : List Placed} {p : Placed}
    (listed : listing start bytes = .ok code) (member : p ∈ code) :
    Boundary start bytes (p.offset - start) := by
  fun_induction listing start bytes generalizing code with
  | case1 => cases listed; cases member
  | case2 => cases listed
  | case3 => cases listed
  | case4 => cases listed
  | case5 start b rest op decoded fits later found ih =>
    cases listed
    rcases List.mem_cons.mp member with rfl | member
    · rw [Nat.sub_self]
      exact .zero start _
    · have behind := ((Placed.gapless_of_listing found).1.drop_bytes member).1
      rw [show p.offset - start = 1 + op.width + (p.offset - (start + 1 + op.width)) by omega]
      exact .cons decoded fits (ih found member)

/-- Bytes without a listing have a boundary with a byte that is no opcode, or with an instruction
that needs more bytes than there are. -/
theorem listing_error {start : Nat} {bytes : List UInt8} {e : DecodeError}
    (failed : listing start bytes = .error e) :
    ∃ length b, Boundary start bytes length ∧ bytes[length]? = some b ∧
      ((Opcode.ofByte? b = none ∧ e = .invalidOpcode b (start + length)) ∨
      ∃ op, Opcode.ofByte? b = some op ∧ bytes.length < length + 1 + op.width ∧
        e = .unexpectedEnd (start + length + 1)) := by
  fun_induction listing start bytes with
  | case1 => cases failed
  | case2 start b rest unknown =>
    cases failed
    exact ⟨0, b, .zero start _, rfl, .inl ⟨unknown, rfl⟩⟩
  | case3 start b rest op decoded short =>
    cases failed
    refine ⟨0, b, .zero start _, rfl, .inr ⟨op, decoded, ?_, rfl⟩⟩
    rw [List.length_cons]
    omega
  | case4 start b rest op decoded fits e found ih =>
    cases failed
    obtain ⟨length, b', boundary, there, wrong⟩ := ih found
    have offset : start + (1 + op.width + length) = start + 1 + op.width + length := by omega
    refine ⟨1 + op.width + length, b', .cons decoded fits boundary, ?_, ?_⟩
    · rw [show 1 + op.width + length = (op.width + length) + 1 by omega, List.getElem?_cons_succ]
      rw [List.getElem?_drop] at there
      exact there
    · rw [offset]
      refine wrong.imp_right ?_
      rintro ⟨op', decoded', short, told⟩
      refine ⟨op', decoded', ?_, told⟩
      rw [List.length_drop] at short
      rw [List.length_cons]
      omega
  | case5 => cases failed

end Rowwise
