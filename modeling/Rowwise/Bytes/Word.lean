/-! Words as bytes, least significant byte first. One recursion on the number of bytes
serves every width: a run of `n` bytes and a number below `256 ^ n` are the same thing. -/
namespace Rowwise.Bytes

/-- The `n` low bytes of a number, least significant first. -/
def ofNat : Nat → Nat → List UInt8
  | 0, _ => []
  | n + 1, x => UInt8.ofNat x :: ofNat n (x / 256)

def toNat : List UInt8 → Nat
  | [] => 0
  | b :: bs => b.toNat + 256 * toNat bs

@[simp] theorem length_ofNat (n x : Nat) : (ofNat n x).length = n := by
  induction n generalizing x with
  | zero => rfl
  | succ n ih => simp [ofNat, ih]

theorem toNat_lt (bs : List UInt8) : toNat bs < Nat.pow 256 bs.length := by
  induction bs with
  | nil => exact Nat.one_pos
  | cons b bs ih =>
    have hb : b.toNat < 256 := b.toNat_lt
    have next : Nat.pow 256 (bs.length + 1) = Nat.pow 256 bs.length * 256 := rfl
    simp only [toNat, List.length_cons, next]
    omega

theorem toNat_ofNat (n x : Nat) : toNat (ofNat n x) = x % Nat.pow 256 n := by
  induction n generalizing x with
  | zero => exact (Nat.mod_one x).symm
  | succ n ih =>
    have next : Nat.pow 256 (n + 1) = 256 * Nat.pow 256 n := Nat.mul_comm ..
    rw [ofNat, toNat, ih, UInt8.toNat_ofNat', next, Nat.mod_mul]

theorem ofNat_toNat (bs : List UInt8) : ofNat bs.length (toNat bs) = bs := by
  induction bs with
  | nil => rfl
  | cons b bs ih =>
    have hb : b.toNat < 256 := b.toNat_lt
    have low : UInt8.ofNat (b.toNat + 256 * toNat bs) = b := by
      apply UInt8.toNat_inj.1
      rw [UInt8.toNat_ofNat', Nat.add_mul_mod_self_left, Nat.mod_eq_of_lt hb]
    have high : (b.toNat + 256 * toNat bs) / 256 = toNat bs := by omega
    simp only [List.length_cons, toNat, ofNat, low, high, ih]

/-- Only the low bytes are written. -/
theorem ofNat_mod (n x : Nat) : ofNat n (x % Nat.pow 256 n) = ofNat n x := by
  have whole := ofNat_toNat (ofNat n x)
  rwa [length_ofNat, toNat_ofNat] at whole

def ofWord16 (w : UInt16) : List UInt8 := ofNat 2 w.toNat
def ofWord32 (w : UInt32) : List UInt8 := ofNat 4 w.toNat
def ofWord64 (w : UInt64) : List UInt8 := ofNat 8 w.toNat

def toWord16 (bs : List UInt8) : UInt16 := UInt16.ofNat (toNat bs)
def toWord32 (bs : List UInt8) : UInt32 := UInt32.ofNat (toNat bs)
def toWord64 (bs : List UInt8) : UInt64 := UInt64.ofNat (toNat bs)

@[simp] theorem length_ofWord16 (w : UInt16) : (ofWord16 w).length = 2 := length_ofNat ..
@[simp] theorem length_ofWord32 (w : UInt32) : (ofWord32 w).length = 4 := length_ofNat ..
@[simp] theorem length_ofWord64 (w : UInt64) : (ofWord64 w).length = 8 := length_ofNat ..

@[simp] theorem toWord16_ofWord16 (w : UInt16) : toWord16 (ofWord16 w) = w := by
  simp [toWord16, ofWord16, toNat_ofNat, Nat.mod_eq_of_lt w.toNat_lt]

@[simp] theorem toWord32_ofWord32 (w : UInt32) : toWord32 (ofWord32 w) = w := by
  simp [toWord32, ofWord32, toNat_ofNat, Nat.mod_eq_of_lt w.toNat_lt]

@[simp] theorem toWord64_ofWord64 (w : UInt64) : toWord64 (ofWord64 w) = w := by
  simp [toWord64, ofWord64, toNat_ofNat, Nat.mod_eq_of_lt w.toNat_lt]

theorem ofWord16_toWord16 (bs : List UInt8) (h : bs.length = 2) : ofWord16 (toWord16 bs) = bs := by
  have small := toNat_lt bs
  rw [h] at small
  rw [ofWord16, toWord16, UInt16.toNat_ofNat', Nat.mod_eq_of_lt small, ← h]
  exact ofNat_toNat bs

theorem ofWord32_toWord32 (bs : List UInt8) (h : bs.length = 4) : ofWord32 (toWord32 bs) = bs := by
  have small := toNat_lt bs
  rw [h] at small
  rw [ofWord32, toWord32, UInt32.toNat_ofNat', Nat.mod_eq_of_lt small, ← h]
  exact ofNat_toNat bs

theorem ofWord64_toWord64 (bs : List UInt8) (h : bs.length = 8) : ofWord64 (toWord64 bs) = bs := by
  have small := toNat_lt bs
  rw [h] at small
  rw [ofWord64, toWord64, UInt64.toNat_ofNat', Nat.mod_eq_of_lt small, ← h]
  exact ofNat_toNat bs

end Rowwise.Bytes
