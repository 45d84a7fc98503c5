import Rowwise.Proofs.Bytes.Checksum
import Rowwise.Proofs.Class.File

/-! Damaged files. A file whose payload has changed within four neighbouring bytes is refused for
its checksum, whatever the payload now spells. -/
namespace Rowwise

namespace Class

def storedChecksum (data : List UInt8) : UInt32 := Bytes.toWord32 ((data.drop 12).take 4)

theorem storedChecksum_opening (flags checksum : UInt32) (bs : List UInt8) :
    storedChecksum (opening flags checksum ++ bs) = checksum := by
  have last : (opening flags checksum ++ bs).drop 12 = Bytes.ofWord32 checksum ++ bs := by
    rw [opening, List.append_assoc]
    exact List.drop_left' (by simp [magic])
  rw [storedChecksum, last, List.take_left' (Bytes.length_ofWord32 checksum),
    Bytes.toWord32_ofWord32]

theorem take_opening (flags checksum : UInt32) (bs : List UInt8) :
    (opening flags checksum ++ bs).take headerSize = opening flags checksum :=
  List.take_left' rfl

/-- A payload with another checksum than the stored one is not looked at. -/
theorem decode_of_wrong_checksum (flags : UInt32) {checksum : UInt32} {bs : List UInt8}
    (wrong : checksum ≠ Bytes.Checksum.crc32 bs) :
    decode (opening flags checksum ++ bs) =
      .error (.wrongChecksum checksum (Bytes.Checksum.crc32 bs)) := by
  obtain ⟨d, opens, -, rest⟩ := exists_behind_opening flags checksum bs
  have run := FileReader.classFile_of_opening opens
  rw [rest, if_neg wrong] at run
  exact decode_of_error run

/-- Only what is behind the header can differ, and its checksum does. -/
theorem crc32_ne_of_window {data damaged : List UInt8} {start : Nat}
    (length : damaged.length = data.length)
    (header : damaged.take headerSize = data.take headerSize)
    (window : ∀ i, damaged[i]? ≠ data[i]? → start ≤ i ∧ i < start + 4) (changed : damaged ≠ data) :
    Bytes.Checksum.crc32 (damaged.drop headerSize) ≠
      Bytes.Checksum.crc32 (data.drop headerSize) := by
  intro kept
  have window' : ∀ i, (damaged.drop headerSize)[i]? ≠ (data.drop headerSize)[i]? →
      start - headerSize ≤ i ∧ i < start - headerSize + 4 := by
    intro i differ
    rw [List.getElem?_drop, List.getElem?_drop] at differ
    have := window _ differ
    omega
  have length' : (damaged.drop headerSize).length = (data.drop headerSize).length := by
    rw [List.length_drop, List.length_drop, length]
  have payload := Bytes.Checksum.eq_of_crc32_eq length' window' kept
  apply changed
  rw [← List.take_append_drop headerSize damaged, header, payload, List.take_append_drop]

end Class

/-- Damage is detected. If a file that can be read is changed somewhere behind its header, and only
within four neighbouring bytes, then it is refused, and the reason names the stored checksum and the
one of the payload as it is now. -/
theorem damage_detected {data damaged : List UInt8} {c : Class}
    (accepted : Class.decode data = .ok c) (length : damaged.length = data.length)
    (header : damaged.take Class.headerSize = data.take Class.headerSize) {start : Nat}
    (window : ∀ i, damaged[i]? ≠ data[i]? → start ≤ i ∧ i < start + 4) (changed : damaged ≠ data) :
    Class.decode damaged = .error (.wrongChecksum (Class.storedChecksum data)
      (Bytes.Checksum.crc32 (damaged.drop Class.headerSize))) := by
  have wrong := Class.crc32_ne_of_window length header window changed
  obtain ⟨current, -, rfl⟩ := Class.decode_eq_ok_iff.mp accepted
  rw [Class.encode_eq current] at header wrong ⊢
  rw [Class.take_opening] at header
  rw [Class.drop_opening] at wrong
  rw [Class.storedChecksum_opening]
  have whole := List.take_append_drop Class.headerSize damaged
  rw [header] at whole
  rw [← Class.decode_of_wrong_checksum c.flags wrong.symm, whole]

/-- The name in the file of `stub` turns from "Stub" into "sTuB". -/
theorem stub_damage_detected :
    Class.decode stub.encode = .ok stub ∧
      Class.decode (((stub.encode.set 32 0x73).set 33 0x54).set 35 0x42) =
        .error (.wrongChecksum 3679734045 744373715) := by
  have accepted : Class.decode stub.encode = .ok stub :=
    Class.decode_eq_ok_iff.mpr ⟨rfl, ⟨by decide, by decide⟩, rfl⟩
  have window : ∀ i, (((stub.encode.set 32 0x73).set 33 0x54).set 35 0x42)[i]? ≠ stub.encode[i]? →
      32 ≤ i ∧ i < 32 + 4 := by
    intro i differ
    refine Classical.byContradiction fun outside => differ ?_
    rw [List.getElem?_set_ne (by omega), List.getElem?_set_ne (by omega),
      List.getElem?_set_ne (by omega)]
  have refused := damage_detected accepted (by simp) (by decide +kernel) window (by decide +kernel)
  have stored : Class.storedChecksum stub.encode = 3679734045 := by decide +kernel
  have actual : Bytes.Checksum.crc32
      ((((stub.encode.set 32 0x73).set 33 0x54).set 35 0x42).drop Class.headerSize) =
        744373715 := by
    decide +kernel
  rw [stored, actual] at refused
  exact ⟨accepted, refused⟩

end Rowwise
