import Mathlib.Data.Nat.Digits.Lemmas
import Sbnix.Library.Words

/-! Numerals: the digits of a number as characters, the most significant digit first, without
leading zeros. Ten and what follows are lower-case letters. -/
namespace Sbnix.Library
open Words (Byte)

/-- The character of a digit. -/
def digitChar (d : Nat) : Byte := if d < 10 then BitVec.ofNat 8 (0x30 + d) else BitVec.ofNat 8 (0x57 + d)

/-- The characters of the digits of a number, the least significant first; none for zero. -/
def digitChars (base n : Nat) : List Byte := (Nat.digits base n).map digitChar

def numeral (base n : Nat) : List Byte := if n = 0 then [digitChar 0] else (digitChars base n).reverse

/-- The numeral of a signed number. -/
def decimal (n : Int) : List Byte := if n < 0 then 0x2d :: numeral 10 n.natAbs else numeral 10 n.natAbs

/-- Digits read one after the other, after a number `acc`. -/
def readDigits (base acc : Nat) (ds : List Nat) : Nat := ds.foldl (fun acc d => acc * base + d) acc

theorem le_readDigits {base : Nat} (hb : 0 < base) (acc : Nat) (ds : List Nat) : acc ≤ readDigits base acc ds := by
  induction ds generalizing acc with
  | nil => exact Nat.le_refl _
  | cons d ds ih =>
    have hstep : acc ≤ acc * base + d := Nat.le_add_right_of_le (Nat.le_mul_of_pos_right acc hb)
    exact hstep.trans (ih (acc * base + d))

/-- Reading the digits of a number from the top gives the number back. -/
theorem readDigits_reverse (base n : Nat) : readDigits base 0 (Nat.digits base n).reverse = n := by
  rw [readDigits, List.foldl_reverse]
  have hfold : (Nat.digits base n).foldr (fun d acc => acc * base + d) 0 = Nat.ofDigits base (Nat.digits base n) := by
    rw [Nat.ofDigits_eq_foldr]
    congr 1
    funext d acc
    rw [Nat.mul_comm, Nat.add_comm]
    rfl
  rw [hfold, Nat.ofDigits_digits]

/-- A digit less takes a bit off the bound. -/
theorem div_lt_two_pow {base n fuel : Nat} (hb : 1 < base) (h : n < 2 ^ (fuel + 1)) : n / base < 2 ^ fuel := by
  have hhalf : n / base ≤ n / 2 := Nat.div_le_div_left hb (by decide)
  rw [Nat.pow_succ] at h
  omega

theorem digitChars_zero (base : Nat) : digitChars base 0 = [] := by
  rw [digitChars, Nat.digits_zero]
  rfl

theorem digitChars_pos {base n : Nat} (hb : 1 < base) (hn : 0 < n) :
    digitChars base n = digitChar (n % base) :: digitChars base (n / base) := by
  rw [digitChars, Nat.digits_def' hb hn]
  rfl

theorem length_digitChars (base n : Nat) : (digitChars base n).length = (Nat.digits base n).length := List.length_map ..

theorem length_digitChars_le {base n k : Nat} (hb : 1 < base) : (digitChars base n).length ≤ k ↔ n < base ^ k := by
  rw [length_digitChars, Nat.digits_length_le_iff hb]

theorem numeral_pos {base n : Nat} (hn : n ≠ 0) : numeral base n = (digitChars base n).reverse := if_neg hn

/-! ### The digits of a numeral -/

/-- Zero has a digit here. -/
def topDigits (base n : Nat) : List Nat := if n = 0 then [0] else (Nat.digits base n).reverse

theorem numeral_eq_map (base n : Nat) : numeral base n = (topDigits base n).map digitChar := by
  unfold numeral topDigits
  split
  · rfl
  · rw [digitChars, List.map_reverse]

theorem readDigits_topDigits (base n : Nat) : readDigits base 0 (topDigits base n) = n := by
  unfold topDigits
  split
  · rename_i hzero
    rw [hzero, readDigits, List.foldl_cons, List.foldl_nil]
    simp
  · exact readDigits_reverse base n

theorem topDigits_lt {base n d : Nat} (hb : 1 < base) (h : d ∈ topDigits base n) : d < base := by
  unfold topDigits at h
  split at h
  · rw [List.mem_singleton.mp h]
    omega
  · exact Nat.digits_lt_base hb (List.mem_reverse.mp h)

theorem length_topDigits_le {base n k : Nat} (hb : 1 < base) (hk : 0 < k) (hn : n < base ^ k) :
    (topDigits base n).length ≤ k := by
  unfold topDigits
  split
  · exact hk
  · rw [List.length_reverse]
    exact (Nat.digits_length_le_iff hb n).mpr hn

theorem mem_topDigits {base n d : Nat} (hd : d ≠ 0) : d ∈ topDigits base n ↔ d ∈ Nat.digits base n := by
  unfold topDigits
  split
  · rename_i hzero
    simp [hzero, hd]
  · exact List.mem_reverse

theorem digitChar_ne_zero {d : Nat} (h : d < 36) : digitChar d ≠ 0 := by
  revert d
  decide

theorem zero_not_mem_digitChars {base : Nat} (hb : 1 < base) (h : base ≤ 36) (n : Nat) : (0 : Byte) ∉ digitChars base n := by
  intro hc
  obtain ⟨d, hd, hzero⟩ := List.mem_map.mp hc
  exact digitChar_ne_zero ((Nat.digits_lt_base hb hd).trans_le h) hzero

end Sbnix.Library
