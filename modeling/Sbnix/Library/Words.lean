import Mathlib.Data.Nat.Bitwise
import Mathlib.Tactic

/-! 64-bit words as unsigned machine integers: clearing the low bits of an
address, setting flag bits in an aligned one, and the eight bytes of a word.

Everything is stated through `toNat`, so that after one rewrite a goal about
masks and flags is linear arithmetic. -/
namespace Sbnix.Words

abbrev Word := BitVec 64
abbrev Byte := BitVec 8

/-- A number that fits is the `int` it is stored as. -/
theorem toInt_small {n : Nat} (h : n < 2 ^ 31) : (BitVec.ofNat 32 n).toInt = n := by
  have hnat : (BitVec.ofNat 32 n).toNat = n := by
    rw [BitVec.toNat_ofNat]
    omega
  rw [BitVec.toInt_eq_toNat_of_lt (by omega), hnat]

/-! ### Clearing and setting low bits -/

/-- The mask that keeps all but the low `k` bits. -/
def highMask (k : Nat) : Word := (BitVec.allOnes 64 >>> k) <<< k

theorem and_highMask (x : Word) (k : Nat) : x &&& highMask k = (x >>> k) <<< k := by
  apply BitVec.eq_of_getLsbD_eq
  intro i hi
  simp only [highMask, BitVec.getLsbD_and, BitVec.getLsbD_shiftLeft, BitVec.getLsbD_ushiftRight,
    BitVec.getLsbD_allOnes]
  by_cases hk : i < k
  · simp [hk]
  · have hle : k + (i - k) = i := by omega
    simp [hk, hle, hi]

theorem toNat_and_highMask (x : Word) (k : Nat) :
    (x &&& highMask k).toNat = x.toNat / 2 ^ k * 2 ^ k := by
  have hx := x.isLt
  have hle : x.toNat / 2 ^ k * 2 ^ k ≤ x.toNat := Nat.div_mul_le_self _ _
  rw [and_highMask, BitVec.toNat_shiftLeft, BitVec.toNat_ushiftRight, Nat.shiftRight_eq_div_pow,
    Nat.shiftLeft_eq, Nat.mod_eq_of_lt (by omega)]

/-- Or-ing flags into the zero low bits of an aligned word is adding them. -/
theorem toNat_or_low (x b : Word) {k : Nat} (hx : 2 ^ k ∣ x.toNat) (hb : b.toNat < 2 ^ k) :
    (x ||| b).toNat = x.toNat + b.toNat := by
  obtain ⟨a, ha⟩ := hx
  rw [BitVec.toNat_or, ha, Nat.two_pow_add_eq_or_of_lt hb]

theorem toNat_and_low (x : Word) (k : Nat) (hk : k < 64) :
    (x &&& BitVec.ofNat 64 (2 ^ k - 1)).toNat = x.toNat % 2 ^ k := by
  have hlt : 2 ^ k - 1 < 2 ^ 64 := by
    have := Nat.pow_lt_pow_right (a := 2) (by decide) hk
    omega
  rw [BitVec.toNat_and, BitVec.toNat_ofNat, Nat.mod_eq_of_lt hlt, Nat.and_two_pow_sub_one_eq_mod]

/-! ### Bytes -/

/-- Byte `k` of a word, counted from the least significant one. -/
def byteOf (w : Word) (k : Nat) : Byte := w.extractLsb' (8 * k) 8

/-- The word with byte `k` replaced. -/
def setByte (w : Word) (k : Nat) (b : Byte) : Word :=
  (w &&& ~~~(0xff#64 <<< (8 * k))) ||| (b.setWidth 64 <<< (8 * k))

private theorem getLsbD_ff (i : Nat) : (0xff#64).getLsbD i = decide (i < 8) := by
  by_cases hi : i < 8
  · interval_cases i <;> rfl
  · have h : (0xff#64) = (0xff#8).setWidth 64 := rfl
    rw [h, BitVec.getLsbD_setWidth, BitVec.getLsbD_of_ge _ _ (by omega)]
    simp [hi]

theorem getLsbD_setByte (w : Word) (k : Nat) (b : Byte) {i : Nat} (hi : i < 64) :
    (setByte w k b).getLsbD i =
      if 8 * k ≤ i ∧ i < 8 * k + 8 then b.getLsbD (i - 8 * k) else w.getLsbD i := by
  simp only [setByte, BitVec.getLsbD_or, BitVec.getLsbD_and, BitVec.getLsbD_not,
    BitVec.getLsbD_shiftLeft, BitVec.getLsbD_setWidth, getLsbD_ff, hi]
  by_cases h1 : 8 * k ≤ i
  · by_cases h2 : i < 8 * k + 8
    · have h3 : i - 8 * k < 8 := by omega
      have h4 : ¬ i < 8 * k := by omega
      have h5 : i - 8 * k < 64 := by omega
      simp [h1, h2, h3, h4, h5]
    · have h3 : ¬ i - 8 * k < 8 := by omega
      have h4 : b.getLsbD (i - 8 * k) = false := BitVec.getLsbD_of_ge _ _ (by omega)
      simp [h2, h3, h4]
  · simp [h1, show i < 8 * k by omega]

theorem byteOf_setByte_same (w : Word) {k : Nat} (hk : k < 8) (b : Byte) :
    byteOf (setByte w k b) k = b := by
  apply BitVec.eq_of_getLsbD_eq
  intro i hi
  rw [byteOf, BitVec.getLsbD_extractLsb', getLsbD_setByte w k b (by omega)]
  simp [hi]

theorem byteOf_setByte_other (w : Word) {k j : Nat} (hj : j < 8) (b : Byte)
    (hne : j ≠ k) : byteOf (setByte w k b) j = byteOf w j := by
  apply BitVec.eq_of_getLsbD_eq
  intro i hi
  rw [byteOf, BitVec.getLsbD_extractLsb', getLsbD_setByte w k b (by omega), byteOf,
    BitVec.getLsbD_extractLsb', if_neg (by omega)]

theorem byteOf_zero (k : Nat) : byteOf 0 k = 0 := by
  apply BitVec.eq_of_getLsbD_eq
  intro i hi
  simp [byteOf]

end Sbnix.Words
