import Sbnix.Libc.Numbers

/-! The kernel's copies of the number routines (`sys/string.c`, lines 5 to 147).

They are the library's, but for one index: `strrev` begins its exchanges at the
terminating zero and not before it. That brings the zero to the front, so that every
string that is turned round is empty afterwards (`strrev_empties`), also the ones that
`itoa` and `xtoa` have written. -/
namespace Sbnix.Libc
open Library Library.Store

namespace Kernel

/-- `high = len`, where the library has `len-1`. -/
def strrev (m : Store) (buff : Nat) : Store :=
  let len := Files.strlen m buff
  swapLoop buff len 0 len m

def itoa (m : Store) (num : Int) (buff : Nat) : Option Store := itoaWith strrev m buff num

def xtoa (m : Store) (num : Int) (buff : Nat) : Store := xtoaWith strrev m buff num

def atoi (m : Store) (buff : Nat) : Option Int :=
  if m buff = 0x2d then (readLoop 10 decimalValue m Files.intMax (buff + 1) 0).bind fun num => int (num * -1)
  else (readLoop 10 decimalValue m Files.intMax buff 0).bind fun num => int (num * 1)

def atox (m : Store) (buff : Nat) : Option Int := readLoop 16 hexValue m Files.intMax buff 0

end Kernel

/-- What a caller sees of `strrev`, `itoa` and `xtoa`: they return 0, in both files, and there is the
string in the buffer. -/
def seen (buff : Nat) (m : Store) : Int × List Byte := (0, Files.cString m buff)

def StrrevAgrees (m : Store) (buff : Nat) : Prop := seen buff (Kernel.strrev m buff) = seen buff (strrev m buff)

def ItoaAgrees (m : Store) (n : Int) (buff : Nat) : Prop :=
  (Kernel.itoa m n buff).map (seen buff) = (itoa m n buff).map (seen buff)

def XtoaAgrees (m : Store) (n : Int) (buff : Nat) : Prop := seen buff (Kernel.xtoa m n buff) = seen buff (xtoa m n buff)

section
variable {m : Store} {buff : Nat} {s : List Byte} {n : Int}

theorem seen_spells (h : Spells m buff s) (hs : s.length < Files.intMax) : seen buff m = (0, s) := by
  rw [seen, Files.cString_spells h hs]

theorem strrev_nil (h : Spells m buff []) : strrev m buff = m ∧ Kernel.strrev m buff = m := by
  have hlen := Files.strlen_spells h (by decide)
  unfold strrev Kernel.strrev
  rw [hlen]
  exact ⟨rfl, rfl⟩

/-- The terminating zero comes to the front. -/
theorem strrev_empties (h : Spells m buff s) (hs : s.length < Files.intMax) (hne : s ≠ []) :
    seen buff (Kernel.strrev m buff) = (0, []) := by
  have hlen := Files.strlen_spells h hs
  have hpos : 0 < s.length := List.length_pos_iff.mpr hne
  have hzero : m (buff + s.length) = 0 := by
    have hend : Spells m (buff + s.length) [] := spells_append (by rw [List.append_nil]; exact h)
    exact spells_nil hend
  have hfront : Kernel.strrev m buff buff = 0 := by
    unfold Kernel.strrev
    have hswap := swapLoop_eq buff s.length 0 s.length m (by omega) 0
    rw [if_pos (by omega)] at hswap
    rw [hlen]
    exact hswap.trans (by simpa using hzero)
  exact seen_spells ⟨holds_cons.mpr ⟨hfront, holds_nil _ _⟩, List.not_mem_nil⟩ (by decide)

theorem strrev_agrees_iff (h : Spells m buff s) (hs : s.length < Files.intMax) : StrrevAgrees m buff ↔ s = [] := by
  unfold StrrevAgrees
  by_cases hne : s = []
  · subst hne
    obtain ⟨hlib, hkernel⟩ := strrev_nil h
    rw [hlib, hkernel]
    simp
  · have hrev := seen_spells (strrev_spells h hs).1 (by rw [List.length_reverse]; exact hs)
    rw [strrev_empties h hs hne, hrev]
    exact iff_of_false (fun hc => hne (List.reverse_eq_nil_iff.mp (Prod.mk.inj hc).2.symm)) hne

/-- A string that is written and then turned round. -/
theorem written_agrees_iff (m : Store) (buff : Nat) (hz : (0 : Byte) ∉ s) (hs : s.length < Files.intMax) :
    StrrevAgrees (put m buff (s ++ [0])) buff ↔ s = [] := strrev_agrees_iff ⟨put_holds m buff _, hz⟩ hs

theorem itoa_agrees_iff (m : Store) (buff : Nat) (hlo : -2 ^ 31 < n) (hhi : n < 2 ^ 31) :
    ItoaAgrees m n buff ↔ n = 0 := by
  by_cases h0 : n = 0
  · subst h0
    exact iff_of_true rfl rfl
  · have hlen := length_decimal_le hlo hhi
    rw [← backwards_reverse h0, List.length_reverse] at hlen
    have hne : backwards n ≠ [] := by
      have habs : 0 < n.natAbs := by omega
      rw [backwards, digitChars_pos (by decide) habs]
      exact List.cons_ne_nil _ _
    have hwritten := written_agrees_iff m buff (zero_not_mem_backwards n) (by unfold Files.intMax; omega)
    refine iff_of_false (fun h => hne (hwritten.mp ?_)) h0
    unfold ItoaAgrees at h
    rw [itoa_with, Kernel.itoa, itoaWith_eq strrev m buff hlo hhi h0, itoaWith_eq Kernel.strrev m buff hlo hhi h0] at h
    exact Option.some.inj h

theorem xtoa_agrees_iff (m : Store) (buff : Nat) (hhi : n < 2 ^ 31) : XtoaAgrees m n buff ↔ n ≤ 0 := by
  by_cases h0 : n = 0
  · subst h0
    exact iff_of_true rfl (Int.le_refl 0)
  · have hz := zero_not_mem_digitChars (show 1 < 16 by decide) (by decide) n.toNat
    have hwritten := written_agrees_iff m buff hz (length_hex_lt hhi)
    unfold XtoaAgrees
    rw [xtoa_with, Kernel.xtoa, xtoaWith_eq strrev m buff hhi h0, xtoaWith_eq Kernel.strrev m buff hhi h0]
    refine hwritten.trans ?_
    by_cases hpos : 0 < n.toNat
    · rw [digitChars_pos (by decide) hpos]
      exact iff_of_false (List.cons_ne_nil _ _) (by omega)
    · have hnat : n.toNat = 0 := by omega
      rw [hnat, digitChars_zero]
      exact iff_of_true rfl (by omega)

/-- The kernel's `strrev` does what the library's does on the empty string only, its `itoa` for zero
only, and its `xtoa` for numbers that are not positive; `atoi` and `atox` are the same. -/
theorem copies_agree_iff (m : Store) (buff : Nat) (s : List Byte) (h : Spells m buff s) (hs : s.length < Files.intMax)
    (n : Int) (hlo : -2 ^ 31 < n) (hhi : n < 2 ^ 31) :
    (StrrevAgrees m buff ↔ s = []) ∧ (ItoaAgrees m n buff ↔ n = 0) ∧ (XtoaAgrees m n buff ↔ n ≤ 0) ∧
      Kernel.atoi m buff = atoi m buff ∧ Kernel.atox m buff = atox m buff :=
  ⟨strrev_agrees_iff h hs, itoa_agrees_iff m buff hlo hhi, xtoa_agrees_iff m buff hhi, rfl, rfl⟩

end

/-- The empty string, and zero. -/
theorem copies_agree_zero :
    StrrevAgrees (fun _ => 0) 0 ∧ ItoaAgrees (fun _ => 0) 0 0 ∧ XtoaAgrees (fun _ => 0) 0 0 := by
  obtain ⟨hrev, hitoa, hxtoa, _⟩ := copies_agree_iff (fun _ => 0) 0 [] ⟨rfl, List.not_mem_nil⟩ (by decide) 0
    (by decide) (by decide)
  exact ⟨hrev.mpr rfl, hitoa.mpr rfl, hxtoa.mpr (Int.le_refl 0)⟩

/-- The string `ab`: the library makes it `ba`, the kernel leaves the empty string. -/
theorem strrev_copies_differ :
    seen 0 (strrev (put (fun _ => 0) 0 [0x61, 0x62, 0]) 0) = (0, [0x62, 0x61]) ∧
    seen 0 (Kernel.strrev (put (fun _ => 0) 0 [0x61, 0x62, 0]) 0) = (0, []) ∧
    ¬ StrrevAgrees (put (fun _ => 0) 0 [0x61, 0x62, 0]) 0 := by
  have hspells : Spells (put (fun _ => 0) 0 [0x61, 0x62, 0]) 0 [0x61, 0x62] := ⟨put_holds _ 0 _, by decide⟩
  have hlib := seen_spells (strrev_spells hspells (by decide)).1 (by decide)
  have hkernel := strrev_empties hspells (by decide) (by decide)
  refine ⟨hlib, hkernel, fun hc => ?_⟩
  unfold StrrevAgrees at hc
  rw [hlib, hkernel] at hc
  exact absurd hc (by decide)

end Sbnix.Libc
