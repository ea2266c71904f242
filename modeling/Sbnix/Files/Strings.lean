import Sbnix.Library.Bytes

/-! The string functions of `sys/string.c` that the file code uses.

Their counters are `int`: a scan is followed for `2 ^ 31` bytes. Characters are
signed, which matters to the comparisons of `atoo` only. -/
namespace Sbnix.Files
open Library Library.Store

def intMax : Nat := 2 ^ 31

def strlen (m : Store) (str : Nat) : Nat := scan m str intMax

/-- The string at an address. -/
def cString (m : Store) (str : Nat) : List Byte := fetch m str (strlen m str)

def strcpy (m : Store) (str1 str2 : Nat) : Store :=
  let len := strlen m str2
  put (copyFrom str1 str2 0 len m) (str1 + len) [0]

/-- `cplen` is an `int`; below zero nothing is copied. -/
def strncpy (m : Store) (str1 str2 : Nat) (cplen : Int) : Store :=
  let len := (min (strlen m str2 : Int) cplen).toNat
  put (copyFrom str1 str2 0 len m) (str1 + len) [0]

def memset (m : Store) (str : Nat) (val : Byte) (size : Nat) : Store := put m str (List.replicate size val)

/-- The characters from an address on. -/
def chars (m : Store) (str : Nat) : Nat → Byte := fun i => m (str + i)

/-- The loop of `strncmp` and of `strcmp`: the characters from the `i`-th on, `n` of them. -/
def compareFrom (str1 str2 : Nat → Byte) : Nat → Nat → Int
  | _, 0 => 0
  | i, n + 1 =>
    if (str2 i).slt (str1 i) then 1
    else if (str1 i).slt (str2 i) then -1
    else compareFrom str1 str2 (i + 1) n

/-- It does not stop at a zero. -/
def strncmp (str1 str2 : Nat → Byte) (cplen : Nat) : Int := compareFrom str1 str2 0 cplen

def strcmp (str1 str2 : Nat → Byte) : Int :=
  let len1 := strlen str1 0
  let len2 := strlen str2 0
  if len1 > len2 then 1
  else if len2 > len1 then -1
  else compareFrom str1 str2 0 len1

/-- `buff[i]>='0' && buff[i]<'9'` -/
def octalDigit (c : Byte) : Bool := (0x30 : Byte).sle c && c.slt 0x39

/-- The loop of `atoo`: `num` so far, the character at `buff` next. -/
def atooLoop (m : Store) : Nat → BitVec 32 → Nat → BitVec 32
  | _, num, 0 => num
  | buff, num, fuel + 1 =>
    if m buff ≠ 0 ∧ m buff ≠ 0x0a then
      let num := if octalDigit (m buff) then num * 8 + ((m buff).signExtend 32 - 0x30) else num
      atooLoop m (buff + 1) num fuel
    else num

def atoo (m : Store) (buff : Nat) : BitVec 32 := atooLoop m buff 0 intMax

/-! ### Strings that end -/

theorem strlen_spells {m : Store} {a : Nat} {s : List Byte} (h : Spells m a s) (hs : s.length < intMax) :
    strlen m a = s.length := scan_spells h hs

theorem cString_spells {m : Store} {a : Nat} {s : List Byte} (h : Spells m a s) (hs : s.length < intMax) :
    cString m a = s := by
  rw [cString, strlen_spells h hs]
  exact h.holds

/-- Copying bytes to a place that does not overlap them, and a zero after them. -/
theorem copyFrom_put {m : Store} {dst src : Nat} {s : List Byte} (h : Holds m src s)
    (hd : dst + s.length ≤ src ∨ src + s.length ≤ dst) :
    put (copyFrom dst src 0 s.length m) (dst + s.length) [0] = put m dst (s ++ [0]) := by
  funext x
  have hcopy := copyFrom_eq dst src m hd s.length 0 m (by omega) (fun _ _ _ => rfl)
  by_cases hx : x = dst + s.length
  · subst hx
    have hzero := put_at (copyFrom dst src 0 s.length m) (dst + s.length) [0] (show 0 < 1 by omega)
    have hlast := put_at m dst (s ++ [0]) (show s.length < (s ++ [0]).length by simp)
    rw [hlast, List.getElem_concat_length rfl]
    exact hzero
  · have hother : put (copyFrom dst src 0 s.length m) (dst + s.length) [0] x = copyFrom dst src 0 s.length m x := by
      by_cases hlow : x < dst + s.length
      · exact put_below _ _ hlow
      · exact put_above _ _ (by rw [List.length_singleton]; omega)
    rw [hother, hcopy x]
    by_cases hin : dst ≤ x ∧ x < dst + s.length
    · obtain ⟨i, rfl⟩ := Nat.exists_eq_add_of_le hin.1
      have hi : i < s.length := by omega
      have hoff : src + (dst + i - dst) = src + i := by omega
      rw [if_pos (by omega), hoff, put_at m dst (s ++ [0]) (by rw [List.length_append]; omega),
        List.getElem_append_left hi]
      exact h.at hi
    · rw [if_neg (by omega)]
      by_cases hlow : x < dst
      · exact (put_below m _ hlow).symm
      · exact (put_above m _ (by rw [List.length_append, List.length_singleton]; omega)).symm

/-- `strcpy` between places that do not overlap writes the string and its zero. -/
theorem strcpy_spells {m : Store} {dst src : Nat} {s : List Byte} (h : Spells m src s)
    (hs : s.length < intMax) (hd : dst + s.length ≤ src ∨ src + s.length ≤ dst) :
    strcpy m dst src = put m dst (s ++ [0]) := by
  simp only [strcpy, strlen_spells h hs]
  exact copyFrom_put h.holds hd

theorem scan_ge {m : Store} {a fuel : Nat} {s : List Byte} (h : Holds m a s) (hz : (0 : Byte) ∉ s)
    (hf : s.length ≤ fuel) : s.length ≤ scan m a fuel := by
  rw [scan_append h hz hf]
  exact Nat.le_add_right ..

/-- `strncpy` copies as many bytes as it is told, if the string is not shorter. -/
theorem strncpy_holds {m : Store} {dst src : Nat} {s : List Byte} (h : Holds m src s) (hz : (0 : Byte) ∉ s)
    (hs : s.length < intMax) (hd : dst + s.length ≤ src ∨ src + s.length ≤ dst) :
    strncpy m dst src s.length = put m dst (s ++ [0]) := by
  have hlen : s.length ≤ strlen m src := scan_ge h hz hs.le
  unfold strncpy
  dsimp only
  rw [min_eq_right (by exact_mod_cast hlen), Int.toNat_natCast]
  exact copyFrom_put h hd

/-! ### Comparisons -/

theorem compareFrom_eq_zero (str1 str2 : Nat → Byte) (i n : Nat) :
    compareFrom str1 str2 i n = 0 ↔ ∀ j, i ≤ j → j < i + n → str1 j = str2 j := by
  induction n generalizing i with
  | zero => exact ⟨fun _ j hlo hhi => absurd hhi (by omega), fun _ => rfl⟩
  | succ n ih =>
    rw [compareFrom]
    by_cases hsame : str1 i = str2 i
    · have hirr : ∀ c : Byte, c.slt c = false := by decide
      rw [hsame, hirr, if_neg (by decide), if_neg (by decide), ih]
      constructor
      · intro h j hlo hhi
        obtain rfl | hlt := Nat.eq_or_lt_of_le hlo
        · exact hsame
        · exact h j hlt (by omega)
      · exact fun h j hlo hhi => h j (by omega) (by omega)
    · have hne : ¬ ∀ j, i ≤ j → j < i + (n + 1) → str1 j = str2 j := fun h => hsame (h i (by omega) (by omega))
      refine iff_of_false ?_ hne
      by_cases hgt : (str2 i).slt (str1 i) = true
      · rw [if_pos hgt]
        decide
      · have hlt : (str1 i).slt (str2 i) = true := by
          rw [BitVec.slt_iff_toInt_lt] at hgt ⊢
          have hint : (str1 i).toInt ≠ (str2 i).toInt := fun hc => hsame (BitVec.toInt_inj.mp hc)
          omega
        rw [if_neg hgt, if_pos hlt]
        decide

theorem strncmp_eq_zero (str1 str2 : Nat → Byte) (n : Nat) :
    strncmp str1 str2 n = 0 ↔ ∀ j < n, str1 j = str2 j := by
  rw [strncmp, compareFrom_eq_zero]
  exact ⟨fun h j hj => h j (by omega) (by omega), fun h j _ hj => h j (by omega)⟩

/-- `strncmp` over the whole length of its first string asks for a beginning of the second. -/
theorem strncmp_isPrefix {m m' : Store} {a b : Nat} {s n : List Byte} (hs : Spells m a s) (hn : Spells m' b n) :
    strncmp (chars m a) (chars m' b) s.length = 0 ↔ s <+: n := by
  have hbyte : ∀ i (hi : i < s.length), chars m a i = s[i] := fun i hi => hs.holds.at hi
  rw [strncmp_eq_zero]
  constructor
  · intro h
    have hle : s.length ≤ n.length := by
      by_contra hc
      have hlt : n.length < s.length := by omega
      have hend : m' (b + n.length) = 0 := by
        have := hn.1.at (i := n.length) (by rw [List.length_append]; exact Nat.lt_succ_self _)
        rwa [List.getElem_concat_length rfl] at this
      have hzero : s[n.length] = 0 := (hbyte _ hlt).symm.trans ((h _ hlt).trans hend)
      exact hs.2 (hzero ▸ List.getElem_mem hlt)
    refine List.prefix_iff_eq_take.mpr (List.ext_getElem (by rw [List.length_take_of_le hle]) fun i hi _ => ?_)
    rw [List.getElem_take, ← hbyte i hi, h i hi]
    exact hn.holds.at (by omega)
  · rintro ⟨rest, rfl⟩ j hj
    have hchar := hn.holds.at (i := j) (by rw [List.length_append]; omega)
    rw [List.getElem_append_left hj] at hchar
    exact (hbyte j hj).trans hchar.symm

/-! ### Octal numbers -/

/-- The character of an octal digit. -/
def octalChar (d : Fin 8) : Byte := 0x30 + BitVec.ofNat 8 d

/-- The value of octal digits, the most significant first, after `num`. -/
def octalFrom (num : Nat) : List (Fin 8) → Nat
  | [] => num
  | d :: rest => octalFrom (num * 8 + d) rest

def octal (digits : List (Fin 8)) : Nat := octalFrom 0 digits

theorem octalChar_spec (d : Fin 8) :
    octalChar d ≠ 0 ∧ octalChar d ≠ 0x0a ∧ octalDigit (octalChar d) = true ∧
      (octalChar d).signExtend 32 - 0x30 = BitVec.ofNat 32 d := by
  revert d
  decide

/-- Up to the zero, the loop reads the digits as an octal number. -/
theorem atooLoop_digits {m : Store} {a num fuel : Nat} {digits : List (Fin 8)}
    (h : Holds m a (digits.map octalChar ++ [0])) (hf : digits.length < fuel) :
    atooLoop m a (BitVec.ofNat 32 num) fuel = BitVec.ofNat 32 (octalFrom num digits) := by
  induction digits generalizing a num fuel with
  | nil =>
    obtain ⟨fuel, rfl⟩ := Nat.exists_eq_succ_of_ne_zero (by omega : fuel ≠ 0)
    have hzero : m a = 0 := (holds_cons.mp h).1
    rw [atooLoop, if_neg (by simp [hzero])]
    rfl
  | cons d rest ih =>
    obtain ⟨fuel, rfl⟩ := Nat.exists_eq_succ_of_ne_zero (by omega : fuel ≠ 0)
    obtain ⟨hbyte, hrest⟩ := holds_cons.mp h
    obtain ⟨hnul, hnewline, hdigit, hvalue⟩ := octalChar_spec d
    have hlen : rest.length < fuel := by
      rw [List.length_cons] at hf
      omega
    have hstep : BitVec.ofNat 32 num * 8 + BitVec.ofNat 32 d = BitVec.ofNat 32 (num * 8 + d) := by
      rw [BitVec.ofNat_add, BitVec.ofNat_mul]
      rfl
    simp only [atooLoop, hbyte, ne_eq, hnul, hnewline, not_false_eq_true, and_self, if_true, hdigit,
      hvalue, hstep]
    exact ih hrest hlen

theorem atoo_digits {m : Store} {a : Nat} {digits : List (Fin 8)} (h : Holds m a (digits.map octalChar ++ [0]))
    (hd : digits.length < intMax) : atoo m a = BitVec.ofNat 32 (octal digits) :=
  atooLoop_digits h hd

end Sbnix.Files
