import Rowwise.Bytes.Digest
import Rowwise.Bytes.Word

/-! What the checksum tells apart. The register moves linearly in exclusive or and never forgets:
different registers stay different, whatever is absorbed. Up to four bytes enter it as one word, so
two messages that differ within four bytes have different checksums. -/
namespace Rowwise.Bytes.Checksum

theorem odd_iff (r : UInt32) : r &&& 1 = 1 ↔ r.toNat % 2 = 1 := by
  rw [← UInt32.toNat_inj, UInt32.toNat_and]
  exact Iff.of_eq (congrArg (· = 1) (Nat.and_one_is_mod _))

def excess (r : UInt32) : UInt32 := if r &&& 1 = 1 then polynomial else 0

theorem shift_eq (r : UInt32) : shift r = (r >>> 1) ^^^ excess r := by
  unfold shift excess
  split
  · rfl
  · rw [UInt32.xor_zero]

theorem excess_xor (a b : UInt32) : excess (a ^^^ b) = excess a ^^^ excess b := by
  simp only [excess, odd_iff, UInt32.toNat_xor, Nat.xor_mod_two_eq_one]
  rcases Nat.mod_two_eq_zero_or_one a.toNat with ha | ha <;>
    rcases Nat.mod_two_eq_zero_or_one b.toNat with hb | hb <;>
    simp [ha, hb]

theorem shift_xor (a b : UInt32) : shift (a ^^^ b) = shift a ^^^ shift b := by
  simp only [shift_eq, UInt32.shiftRight_xor, excess_xor]
  ac_rfl

theorem toNat_shiftRight_one (r : UInt32) : (r >>> 1).toNat = r.toNat / 2 := by
  simp [UInt32.toNat_shiftRight, Nat.shiftRight_eq_div_pow]

/-- The polynomial has its highest bit set, and a shifted register has not. -/
theorem eq_zero_of_shift {r : UInt32} (h : shift r = 0) : r = 0 := by
  rw [shift_eq, UInt32.xor_eq_zero_iff] at h
  have half : r.toNat / 2 = (excess r).toNat := by rw [← toNat_shiftRight_one, h]
  have small : r.toNat < 4294967296 := r.toNat_lt
  apply UInt32.toNat_inj.mp
  simp only [excess, odd_iff] at half
  split at half
  · have top : polynomial.toNat = 3988292384 := rfl
    omega
  · have none : (0 : UInt32).toNat = 0 := rfl
    omega

theorem shifts_xor (n : Nat) (a b : UInt32) : shifts n (a ^^^ b) = shifts n a ^^^ shifts n b := by
  induction n generalizing a b with
  | zero => rfl
  | succ n ih => rw [shifts, shift_xor, ih, shifts, shifts]

theorem shifts_inj (n : Nat) {a b : UInt32} : shifts n a = shifts n b ↔ a = b := by
  refine ⟨fun same => ?_, congrArg _⟩
  rw [← UInt32.xor_eq_zero_iff, ← shifts_xor] at same
  rw [← UInt32.xor_eq_zero_iff]
  generalize a ^^^ b = d at same ⊢
  induction n generalizing d with
  | zero => exact same
  | succ n ih => exact eq_zero_of_shift (ih (shift d) same)

theorem shifts_add (m n : Nat) (r : UInt32) : shifts (m + n) r = shifts n (shifts m r) := by
  induction m generalizing r with
  | zero => rw [Nat.zero_add, shifts]
  | succ m ih => rw [Nat.add_right_comm, shifts, ih, shifts]

/-- Bits that are not set are shifted out without a trace. -/
theorem toNat_shifts_of_dvd (n : Nat) {r : UInt32} (low : Nat.pow 2 n ∣ r.toNat) :
    (shifts n r).toNat = r.toNat / Nat.pow 2 n := by
  induction n generalizing r with
  | zero => exact (Nat.div_one _).symm
  | succ n ih =>
    have next : Nat.pow 2 (n + 1) = 2 * Nat.pow 2 n := Nat.mul_comm ..
    rw [next] at low ⊢
    obtain ⟨k, multiple⟩ := low
    rw [Nat.mul_assoc] at multiple
    have even : ¬ r &&& 1 = 1 := by
      rw [odd_iff]
      omega
    have half : (shift r).toNat = Nat.pow 2 n * k := by
      rw [shift, if_neg even, toNat_shiftRight_one, multiple]
      omega
    rw [shifts, ih (half ▸ Nat.dvd_mul_right _ k), half, multiple, ← Nat.div_div_eq_div_mul,
      Nat.mul_div_cancel_left _ Nat.two_pos]

theorem absorb_inj (b : UInt8) {r s : UInt32} : absorb r b = absorb s b ↔ r = s := by
  rw [absorb, absorb, shifts_inj, UInt32.xor_left_inj]

theorem foldl_absorb_inj (bs : List UInt8) {r s : UInt32} :
    bs.foldl absorb r = bs.foldl absorb s ↔ r = s := by
  induction bs generalizing r s with
  | nil => rfl
  | cons b bs ih => rw [List.foldl_cons, List.foldl_cons, ih, absorb_inj]

theorem toNat_toWord32 {bs : List UInt8} (short : bs.length ≤ 4) :
    (toWord32 bs).toNat = toNat bs := by
  have small := toNat_lt bs
  have bound : Nat.pow 256 bs.length ≤ Nat.pow 256 4 := Nat.pow_le_pow_right (by decide) short
  exact Nat.mod_eq_of_lt (Nat.lt_of_lt_of_le small bound)

/-- A byte in front of others, which move up to make room for it. -/
theorem toWord32_cons (b : UInt8) {bs : List UInt8} (short : bs.length ≤ 3) :
    ∃ w : UInt32, toWord32 (b :: bs) = b.toUInt32 ^^^ w ∧ shifts 8 w = toWord32 bs := by
  have small := toNat_lt bs
  have bound : Nat.pow 256 bs.length ≤ Nat.pow 256 3 := Nat.pow_le_pow_right (by decide) short
  have room : 256 * toNat bs < UInt32.size := by
    have top : 256 * Nat.pow 256 3 = UInt32.size := rfl
    omega
  have up : (UInt32.ofNat (256 * toNat bs)).toNat = 256 * toNat bs := Nat.mod_eq_of_lt room
  refine ⟨UInt32.ofNat (256 * toNat bs), ?_, ?_⟩
  · apply UInt32.toNat_inj.mp
    rw [toNat_toWord32 (by simp; omega), toNat, UInt32.toNat_xor, up, UInt8.toNat_toUInt32]
    have hb : b.toNat < 2 ^ 8 := b.toNat_lt
    apply Nat.eq_of_testBit_eq
    intro i
    rw [Nat.add_comm, Nat.testBit_two_pow_mul_add (toNat bs) hb i, Nat.testBit_xor,
      Nat.testBit_two_pow_mul (i := 8)]
    by_cases low : i < 8
    · simp [low, Nat.not_le.mpr low]
    · have high : b.toNat.testBit i = false :=
        Nat.testBit_lt_two_pow (Nat.lt_of_lt_of_le hb (Nat.pow_le_pow_right (by decide) (by omega)))
      simp [low, Nat.not_lt.mp low, high]
  · apply UInt32.toNat_inj.mp
    rw [toNat_shifts_of_dvd 8 (by rw [up]; exact Nat.dvd_mul_right ..), up,
      toNat_toWord32 (by omega)]
    exact Nat.mul_div_cancel_left _ (by decide)

/-- Up to four bytes enter the register together. -/
theorem foldl_absorb_eq {bs : List UInt8} (short : bs.length ≤ 4) (r : UInt32) :
    bs.foldl absorb r = shifts (8 * bs.length) (r ^^^ toWord32 bs) := by
  induction bs generalizing r with
  | nil => exact (UInt32.xor_zero).symm
  | cons b bs ih =>
    rw [List.length_cons] at short
    obtain ⟨w, word, moved⟩ := toWord32_cons b (show bs.length ≤ 3 by omega)
    calc (b :: bs).foldl absorb r
        = shifts (8 * bs.length) (shifts 8 (r ^^^ b.toUInt32) ^^^ toWord32 bs) := by
          rw [List.foldl_cons, ih (by omega), absorb]
      _ = shifts (8 * bs.length) (shifts 8 (r ^^^ toWord32 (b :: bs))) := by
          rw [← moved, ← shifts_xor, word, UInt32.xor_assoc]
      _ = shifts (8 * (b :: bs).length) (r ^^^ toWord32 (b :: bs)) := by
          rw [← shifts_add, List.length_cons, Nat.mul_add_one, Nat.add_comm]

/-- No word of up to four bytes can stand for another one. -/
theorem crc32_replace {before xs ys after : List UInt8} (length : xs.length = ys.length)
    (short : xs.length ≤ 4) :
    crc32 (before ++ (xs ++ after)) = crc32 (before ++ (ys ++ after)) ↔ xs = ys := by
  refine ⟨fun same => ?_, by rintro rfl; rfl⟩
  simp only [crc32, UInt32.xor_left_inj, List.foldl_append, foldl_absorb_inj] at same
  have short' : ys.length ≤ 4 := length ▸ short
  rw [foldl_absorb_eq short, foldl_absorb_eq short', length, shifts_inj,
    UInt32.xor_right_inj] at same
  have spelled : toNat xs = toNat ys := by
    rw [← toNat_toWord32 short, same, toNat_toWord32 short']
  rw [← ofNat_toNat xs, spelled, length, ofNat_toNat]

/-- Messages of one length that differ only within four neighbouring bytes have the same checksum
only if they are the same. -/
theorem eq_of_crc32_eq {xs ys : List UInt8} (length : xs.length = ys.length) {start : Nat}
    (window : ∀ i, xs[i]? ≠ ys[i]? → start ≤ i ∧ i < start + 4) (same : crc32 xs = crc32 ys) :
    xs = ys := by
  have before : xs.take start = ys.take start := by
    apply List.ext_getElem?
    intro i
    rw [List.getElem?_take, List.getElem?_take]
    split
    · refine Classical.byContradiction fun differ => ?_
      have := window i differ
      omega
    · rfl
  have after : xs.drop (start + 4) = ys.drop (start + 4) := by
    apply List.ext_getElem?
    intro i
    rw [List.getElem?_drop, List.getElem?_drop]
    refine Classical.byContradiction fun differ => ?_
    have := window _ differ
    omega
  have split (zs : List UInt8) :
      zs = zs.take start ++ ((zs.drop start).take 4 ++ zs.drop (start + 4)) := by
    rw [← List.drop_drop, List.take_append_drop, List.take_append_drop]
  rw [split xs, split ys, before, after,
    crc32_replace (by simp [length]) (List.length_take_le 4 _)] at same
  rw [split xs, split ys, before, after, same]

end Rowwise.Bytes.Checksum
