import Rowwise.Machine.Frame
import Rowwise.Proofs.Code.Listing

/-! Reading code. The machine reads the operand of each opcode by itself. Here this is the reading
of fields whose widths stand in the entry of the opcode, so that the machine finds what the listing
has. -/
namespace Rowwise

namespace Frame

variable {α β : Type} {f : Frame} {x : CodeM α} {value : List UInt8 → α} {fields : List Nat}
  {n : Nat}

theorem bind_of_ok {y : α → CodeM β} {code : List UInt8} {ip next : Nat} {a : α}
    (run : x code ip = .ok (a, next)) : (x >>= y) code ip = y a code next := by
  simp only [Bind.bind, ReaderT.bind, StateT.bind, run, Except.bind]

theorem bind_of_error {y : α → CodeM β} {code : List UInt8} {ip : Nat} {fault : Fault}
    (run : x code ip = .error fault) : (x >>= y) code ip = .error fault := by
  simp only [Bind.bind, ReaderT.bind, StateT.bind, run, Except.bind]

/-- The offset of the first field that does not fit into the bytes that are left. -/
def cutOff : List Nat → Nat → Nat → Nat
  | [], _, offset => offset
  | width :: fields, left, offset =>
    if left < width then offset else cutOff fields (left - width) (offset + width)

theorem cutOff_le (fields : List Nat) (left offset : Nat) :
    cutOff fields left offset ≤ offset + left := by
  induction fields generalizing left offset with
  | nil => exact Nat.le_add_right _ _
  | cons width fields ih =>
    rw [cutOff]
    split
    · exact Nat.le_add_right _ _
    · have later := ih (left - width) (offset + width)
      omega

/-- Fields of these widths are read, and `value` is what their bytes come to. -/
structure Reads (x : CodeM α) (fields : List Nat) (value : List UInt8 → α) : Prop where
  ok : ∀ {code bs rest : List UInt8} {ip : Nat}, ip ≤ code.length → code.drop ip = bs ++ rest →
    bs.length = fields.foldr (· + ·) 0 → x code ip = .ok (value bs, ip + bs.length)
  cut : ∀ {code rest : List UInt8} {ip : Nat}, ip ≤ code.length → code.drop ip = rest →
    rest.length < fields.foldr (· + ·) 0 →
    x code ip = .error (.unexpectedEnd (cutOff fields rest.length ip))

namespace Reads

theorem pure (a : α) : Reads (Pure.pure a) [] fun _ => a where
  ok _ _ none := by
    rw [List.length_eq_zero_iff.mp none]
    rfl
  cut _ _ short := absurd short (Nat.not_lt_zero _)

theorem read (n : Nat) : Reads (Frame.read n) [n] id where
  ok {code bs rest ip} inside here length := by
    have all := congrArg List.length here
    simp only [List.length_drop, List.length_append, List.foldr, Nat.add_zero] at all length
    simp only [Frame.read, here]
    rw [if_pos (by omega), ← length, List.take_left]
    rfl
  cut {code rest ip} inside here short := by
    have all := congrArg List.length here
    simp only [List.length_drop, List.foldr, Nat.add_zero] at all short
    simp only [Frame.read, cutOff]
    rw [if_neg (by omega), if_pos short]

/-- One field before the others. -/
theorem bind {y : α → CodeM β} {value' : α → List UInt8 → β} (first : Reads x [n] value)
    (later : ∀ a, Reads (y a) fields (value' a)) :
    Reads (x >>= y) (n :: fields) fun bs => value' (value (bs.take n)) (bs.drop n) where
  ok {code bs rest ip} inside here length := by
    have all := congrArg List.length here
    simp only [List.length_drop, List.length_append, List.foldr] at all length
    have front : (bs.take n).length = n := by
      rw [List.length_take]
      omega
    have split : code.drop ip = bs.take n ++ (bs.drop n ++ rest) := by
      rw [here, ← List.append_assoc, List.take_append_drop]
    have behind : code.drop (ip + n) = bs.drop n ++ rest := by
      rw [← List.drop_drop, split, List.drop_left' front]
    have others : (bs.drop n).length = fields.foldr (· + ·) 0 := by
      rw [List.length_drop]
      omega
    have run := first.ok inside split front
    have next := (later (value (bs.take n))).ok (by omega) behind others
    rw [front] at run
    rw [bind_of_ok run, next, others, length, Nat.add_assoc]
  cut {code rest ip} inside here short := by
    have all := congrArg List.length here
    simp only [List.length_drop, List.foldr] at all short
    by_cases ends : rest.length < n
    · have run := first.cut inside here ends
      rw [cutOff, if_pos ends] at run
      rw [bind_of_error run, cutOff, if_pos ends]
    · have front : (rest.take n).length = n := by
        rw [List.length_take]
        omega
      have behind : code.drop (ip + n) = rest.drop n := by rw [← here, List.drop_drop]
      have run := first.ok inside (here.trans (List.take_append_drop n rest).symm) front
      have next := (later (value (rest.take n))).cut (by omega) behind
        (by rw [List.length_drop]; omega)
      rw [front] at run
      rw [bind_of_ok run, next, List.length_drop, cutOff, if_neg ends]

/-- A single field that is converted. -/
theorem map (reads : Reads x [n] value) (g : α → β) :
    Reads (x >>= fun a => Pure.pure (g a)) [n] fun bs => g (value bs) where
  ok {code bs rest ip} inside here length := by
    have whole : bs.take n = bs := List.take_of_length_le (Nat.le_of_eq length)
    have run := (reads.bind fun a => pure (g a)).ok inside here length
    rwa [whole] at run
  cut inside here short := (reads.bind fun a => pure (g a)).cut inside here short

theorem word16 : Reads readWord16 [2] Bytes.toWord16 := (read 2).map Bytes.toWord16
theorem word32 : Reads readWord32 [4] Bytes.toWord32 := (read 4).map Bytes.toWord32
theorem word64 : Reads readWord64 [8] Bytes.toWord64 := (read 8).map Bytes.toWord64

/-- What the machine reads for an opcode are the fields in the entry of the opcode. -/
theorem operand (op : Opcode) : Reads (readOperand op) op.fields (Instruction.ofOperand op) := by
  cases op with
  | constInt => exact word32.map fun w => Instruction.constInt w.toInt32
  | constDouble => exact word64.map Instruction.constDouble
  | constText => exact word32.map Instruction.constText
  | constLong => exact word32.map Instruction.constLong
  | load => exact word16.map Instruction.load
  | store => exact word16.map Instruction.store
  | jump condition =>
    rw [Opcode.fields_jump]
    exact word32.map fun w => Instruction.jump condition w.toInt32
  | call => exact word32.bind fun method => word16.map (Instruction.call method)
  | trap => exact word16.map Instruction.trap
  | stack op =>
    rw [Opcode.fields_stack]
    exact pure (Instruction.stack op)
  | loadFixed slot =>
    rw [Opcode.fields_loadFixed]
    exact pure (Instruction.loadFixed slot)
  | storeFixed slot =>
    rw [Opcode.fields_storeFixed]
    exact pure (Instruction.storeFixed slot)
  | _ => exact pure _

end Reads

theorem fetch_eq (f : Frame) : f.fetch =
    match f.method.code.drop f.ip with
    | [] => .error (.unexpectedEnd f.ip)
    | b :: rest =>
      match Opcode.ofByte? b with
      | none => .error (.invalidOpcode b)
      | some op =>
        if rest.length < op.width then
          .error (.unexpectedEnd (cutOff op.fields rest.length (f.ip + 1)))
        else
          .ok (.ofOperand op (rest.take op.width), f.ip + 1 + op.width) := by
  have first : f.method.code[f.ip]? = (f.method.code.drop f.ip).head? := List.head?_drop.symm
  rw [fetch]
  cases here : f.method.code.drop f.ip with
  | nil =>
    rw [here, List.head?_nil] at first
    have ended : readOpcode f.method.code f.ip = .error (.unexpectedEnd f.ip) := by
      simp only [readOpcode, first]
    rw [bind_of_error ended]
  | cons b rest =>
    rw [here, List.head?_cons] at first
    cases named : Opcode.ofByte? b with
    | none =>
      have unknown : readOpcode f.method.code f.ip = .error (.invalidOpcode b) := by
        simp only [readOpcode, first, named]
      simp only [bind_of_error unknown, named]
    | some op =>
      have length := congrArg List.length here
      rw [List.length_drop, List.length_cons] at length
      have inside : f.ip + 1 ≤ f.method.code.length := by omega
      have behind : f.method.code.drop (f.ip + 1) = rest := by
        rw [← List.drop_drop, here, List.drop_one, List.tail_cons]
      have opcode : readOpcode f.method.code f.ip = .ok (op, f.ip + 1) := by
        simp only [readOpcode, first, named]
      simp only [bind_of_ok opcode, named]
      by_cases short : rest.length < op.width
      · rw [if_pos short, (Reads.operand op).cut inside behind short]
      · have width : (rest.take op.width).length = op.width := by
          rw [List.length_take]
          omega
        have run := (Reads.operand op).ok inside
          (behind.trans (List.take_append_drop op.width rest).symm) width
        rw [if_neg short, run, width]

variable {i : Instruction} {next : Nat}

theorem fetch_encode {i : Instruction} {rest : List UInt8}
    (here : f.method.code.drop f.ip = i.encode ++ rest) :
    f.fetch = .ok (i, f.ip + 1 + i.width) := by
  have width : i.opcode.width = i.operand.length := i.length_operand.symm
  simp [fetch_eq, here, Instruction.encode, Opcode.ofByte?_byte, width, Instruction.width,
    Instruction.ofOperand_operand]

theorem fetch_of_listing {code : List Placed} {p : Placed}
    (listed : listing 0 f.method.code = .ok code) (member : p ∈ code) (here : f.ip = p.offset) :
    f.fetch = .ok (p.instruction, p.next) := by
  obtain ⟨gapless, spelled⟩ := Placed.gapless_of_listing listed
  obtain ⟨_, rest, found⟩ := gapless.drop_bytes member
  rw [spelled, Nat.sub_zero, ← here] at found
  rw [fetch_encode found, here, Placed.next]

theorem fetch_ok {i : Instruction} {next : Nat} (ok : f.fetch = .ok (i, next)) :
    next = f.ip + 1 + i.width := by
  rw [fetch_eq] at ok
  repeat' split at ok
  all_goals cases ok
  rw [Instruction.width, Instruction.opcode_ofOperand]

theorem fetch_error {fault : Fault} (error : f.fetch = .error fault) :
    (∃ byte, fault = .invalidOpcode byte) ∨ ∃ offset, fault = .unexpectedEnd offset := by
  rw [fetch_eq] at error
  repeat' split at error
  all_goals cases error
  · exact .inr ⟨_, rfl⟩
  · exact .inl ⟨_, rfl⟩
  · exact .inr ⟨_, rfl⟩

/-- An instruction that is fetched stands in the code, its operand included. -/
theorem spelled_of_fetch (ok : f.fetch = .ok (i, next)) :
    ∃ rest, f.method.code.drop f.ip = i.encode ++ rest := by
  rw [fetch_eq] at ok
  split at ok
  · cases ok
  rename_i b rest here
  split at ok
  · cases ok
  rename_i op decoded
  split at ok
  · cases ok
  · cases ok
    have width : (rest.take op.width).length = op.width := by simp; omega
    refine ⟨rest.drop op.width, ?_⟩
    rw [here, Instruction.encode, Instruction.opcode_ofOperand, Opcode.byte_of_ofByte? decoded,
      Instruction.operand_ofOperand op _ width, List.cons_append, List.take_append_drop]

theorem next_le_of_fetch (ok : f.fetch = .ok (i, next)) : next ≤ f.method.code.length := by
  obtain ⟨rest, spelled⟩ := spelled_of_fetch ok
  have length := congrArg List.length spelled
  simp only [List.length_drop, List.length_append, Instruction.encode, List.length_cons,
    Instruction.length_operand] at length
  rw [fetch_ok ok]
  omega

/-- The field that a failing fetch names begins in the code or at its end. -/
theorem fetch_unexpectedEnd {offset : Nat} (inside : f.ip ≤ f.method.code.length)
    (error : f.fetch = .error (.unexpectedEnd offset)) : offset ≤ f.method.code.length := by
  rw [fetch_eq] at error
  split at error
  · cases error
    exact inside
  rename_i b rest here
  split at error
  · cases error
  split at error
  · cases error
    have length := congrArg List.length here
    rw [List.length_drop, List.length_cons] at length
    refine Nat.le_trans (cutOff_le _ _ _) ?_
    omega
  · cases error

end Frame

end Rowwise
