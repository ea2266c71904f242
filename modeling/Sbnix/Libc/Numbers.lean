import Sbnix.Files.Strings
import Sbnix.Library.Numerals

/-! Numbers as strings (`libc/string.c`, lines 5 to 104).

`itoa` and `xtoa` store the digits from the least significant one on, and then have
`strrev` turn the string round in place; `atoi` and `atox` read a string from the
beginning. An `int` that overflows has no value here. -/
namespace Sbnix.Libc
open Library Library.Store

/-- The result of an operation on `int`. -/
def int (v : Int) : Option Int := if -2 ^ 31 ≤ v ∧ v < 2 ^ 31 then some v else none

/-! ### `strrev` -/

/-- The loop of `strrev`. -/
def swapLoop (buff : Nat) : Nat → Nat → Int → Store → Store
  | 0, _, _, m => m
  | fuel + 1, low, high, m =>
    if high > low then
      let ch := m (buff + low)
      let m := Function.update m (buff + low) (m (buff + high.toNat))
      let m := Function.update m (buff + high.toNat) ch
      swapLoop buff fuel (low + 1) (high - 1) m
    else m

def strrev (m : Store) (buff : Nat) : Store :=
  let len := Files.strlen m buff
  swapLoop buff len 0 (len - 1) m

/-! ### `itoa` and `xtoa` -/

/-- The loop over a positive number: its digits in some base, as characters, from `buff[i]` on. -/
def digitLoop (base : Nat) (digit : Nat → Byte) (buff : Nat) : Nat → Nat → Nat → Store → Nat × Store
  | 0, _, i, m => (i, m)
  | fuel + 1, num, i, m =>
    if num > 0 then digitLoop base digit buff fuel (num / base) (i + 1) (put m (buff + i) [digit (num % base)])
    else (i, m)

/-- `num%10 + '0'` -/
def decimalDigit (rem : Nat) : Byte := BitVec.ofNat 8 (rem + 0x30)

/-- Letters from ten on. -/
def hexDigit (rem : Nat) : Byte := if rem > 9 then BitVec.ofNat 8 (rem - 10 + 0x61) else BitVec.ofNat 8 (rem + 0x30)

/-- The string `0`. -/
def storeZero (m : Store) (buff : Nat) : Store := put (put m buff [0x30]) (buff + 1) [0]

def itoa (m : Store) (num : Int) (buff : Nat) : Option Store :=
  if num = 0 then some (storeZero m buff)
  else (if num < 0 then int (-num) else some num).map fun n =>
    let (i, m) := digitLoop 10 decimalDigit buff 32 n.toNat 0 m
    let (i, m) := if num < 0 then (i + 1, put m (buff + i) [0x2d]) else (i, m)
    strrev (put m (buff + i) [0]) buff

def xtoa (m : Store) (num : Int) (buff : Nat) : Store :=
  if num = 0 then storeZero m buff
  else
    let (i, m) := digitLoop 16 hexDigit buff 32 num.toNat 0 m
    strrev (put m (buff + i) [0]) buff

/-! ### `atoi` and `atox` -/

/-- The loop of both: `num` so far, the character at `buff` next. -/
def readLoop (base : Int) (value : Byte → Int) (m : Store) : Nat → Nat → Int → Option Int
  | 0, _, _ => none
  | fuel + 1, buff, num =>
    if m buff ≠ 0 ∧ m buff ≠ 0x0a then do
      let scaled ← int (num * base)
      let num ← int (scaled + value (m buff))
      readLoop base value m fuel (buff + 1) num
    else some num

/-- `buff[i] - '0'` -/
def decimalValue (c : Byte) : Int := c.toInt - 0x30

/-- `buff[i]>='0' && buff[i]<'9'` is a digit, anything else a letter. -/
def hexValue (c : Byte) : Int := if 0x30 ≤ c.toInt ∧ c.toInt < 0x39 then c.toInt - 0x30 else c.toInt - 0x61 + 10

def atoi (m : Store) (buff : Nat) : Option Int :=
  if m buff = 0x2d then (readLoop 10 decimalValue m Files.intMax (buff + 1) 0).bind fun num => int (num * -1)
  else (readLoop 10 decimalValue m Files.intMax buff 0).bind fun num => int (num * 1)

def atox (m : Store) (buff : Nat) : Option Int := readLoop 16 hexValue m Files.intMax buff 0

/-! ### Turning a string round -/

section
variable {m : Store} {buff a : Nat} {s : List Byte}

theorem swapLoop_below (buff fuel low : Nat) (high : Int) (m : Store) {x : Nat} (hx : x < buff) :
    swapLoop buff fuel low high m x = m x := by
  induction fuel generalizing low high m with
  | zero => rfl
  | succ fuel ih =>
    rw [swapLoop]
    split
    · dsimp only
      rw [ih, Function.update_of_ne (by omega), Function.update_of_ne (by omega)]
    · rfl

/-- The loop turns the characters from `low` to `high` round. -/
theorem swapLoop_eq (buff fuel low : Nat) (high : Int) (m : Store) (hfuel : high ≤ low + fuel) (j : Nat) :
    swapLoop buff fuel low high m (buff + j) =
      if low ≤ j ∧ (j : Int) ≤ high then m (buff + (low + high - j).toNat) else m (buff + j) := by
  induction fuel generalizing low high m with
  | zero =>
    rw [swapLoop]
    split
    · congr 2
      omega
    · rfl
  | succ fuel ih =>
    rw [swapLoop]
    split
    · rename_i hlt
      dsimp only
      rw [ih _ _ _ (by omega)]
      -- the two ends have been exchanged, and the rest is turned round by what follows
      by_cases hlow : j = low
      · subst hlow
        rw [if_neg (by omega), if_pos (by omega), Function.update_of_ne (by omega), Function.update_self]
        congr 2
        omega
      · by_cases hhigh : j = high.toNat
        · subst hhigh
          rw [if_neg (by omega), if_pos (by omega), Function.update_self]
          congr 2
          omega
        · by_cases hin : low ≤ j ∧ (j : Int) ≤ high
          · rw [if_pos (by omega), if_pos hin, Function.update_of_ne (by omega), Function.update_of_ne (by omega)]
            congr 2
            omega
          · rw [if_neg (by omega), if_neg hin, Function.update_of_ne (by omega), Function.update_of_ne (by omega)]
    · rename_i hge
      split
      · congr 2
        omega
      · rfl

theorem strrev_spells (h : Spells m a s) (hs : s.length < Files.intMax) :
    Spells (strrev m a) a s.reverse ∧ Within m (strrev m a) a s.length := by
  have hlen := Files.strlen_spells h hs
  have hrev : ∀ j, strrev m a (a + j) = if j < s.length then m (a + (s.length - 1 - j)) else m (a + j) := by
    intro j
    unfold strrev
    rw [hlen, swapLoop_eq _ _ _ _ _ (by omega)]
    by_cases hj : j < s.length
    · rw [if_pos (by omega), if_pos hj]
      congr 2
      omega
    · rw [if_neg (by omega), if_neg hj]
  refine ⟨⟨holds_of_at fun j hj => ?_, by simpa using h.2⟩, fun x hx => ?_⟩
  · rw [hrev]
    by_cases hlt : j < s.length
    · rw [if_pos hlt, h.holds.at (by omega), List.getElem_append_left (by simpa using hlt), List.getElem_reverse]
    · have hlast : j = s.length := by
        simp only [List.length_append, List.length_reverse, List.length_singleton] at hj
        omega
      subst hlast
      have hzero := h.1.at (i := s.length) (by simp)
      rw [List.getElem_concat_length rfl] at hzero
      rw [if_neg hlt, hzero, List.getElem_append_right (by simp)]
      simp
  · obtain hlow | hhigh := hx
    · exact swapLoop_below _ _ _ _ _ hlow
    · obtain ⟨j, rfl⟩ := Nat.exists_eq_add_of_le (Nat.le_trans (Nat.le_add_right _ _) hhigh)
      rw [hrev, if_neg (by omega)]

/-- A string that is written and then turned round. -/
theorem strrev_put (m : Store) (buff : Nat) (hz : (0 : Byte) ∉ s) (hs : s.length < Files.intMax) :
    Spells (strrev (put m buff (s ++ [0])) buff) buff s.reverse ∧
      Within m (strrev (put m buff (s ++ [0])) buff) buff (s.length + 1) := by
  have hspells : Spells (put m buff (s ++ [0])) buff s := ⟨put_holds m buff _, hz⟩
  obtain ⟨hrev, hwithin⟩ := strrev_spells hspells hs
  have hput : Within m (put m buff (s ++ [0])) buff (s.length + 1) :=
    put_within m _ (Nat.le_refl _) (by rw [List.length_append, List.length_singleton])
  exact ⟨hrev, hput.trans (hwithin.mono (Nat.le_refl _) (by omega))⟩

end

/-! ### Storing the digits -/

theorem digitLoop_eq {base : Nat} {digit : Nat → Byte} (hb : 1 < base) (hdigit : ∀ d < base, digit d = digitChar d)
    (buff fuel num i : Nat) (m : Store) (hfuel : num < 2 ^ fuel) :
    digitLoop base digit buff fuel num i m =
      (i + (digitChars base num).length, put m (buff + i) (digitChars base num)) := by
  induction fuel generalizing num i m with
  | zero =>
    have hnum : num = 0 := by omega
    rw [hnum, digitChars_zero, put_same (holds_nil m _)]
    rfl
  | succ fuel ih =>
    rw [digitLoop]
    split
    · rename_i hpos
      have hput := put_append m (buff + i) [digitChar (num % base)] (digitChars base (num / base))
      rw [ih _ _ _ (div_lt_two_pow hb hfuel), hdigit _ (Nat.mod_lt _ (by omega)), digitChars_pos hb hpos, List.length_cons]
      refine Prod.ext ?_ hput
      dsimp only
      omega
    · have hnum : num = 0 := by omega
      rw [hnum, digitChars_zero, put_same (holds_nil m _)]
      rfl

theorem decimalDigit_eq : ∀ d < 10, decimalDigit d = digitChar d := by decide

theorem hexDigit_eq : ∀ d < 16, hexDigit d = digitChar d := by decide

theorem storeZero_eq (m : Store) (buff : Nat) : storeZero m buff = put m buff [digitChar 0, 0] :=
  put_append m buff [0x30] [0]

section
variable (rev : Store → Nat → Store) (m : Store) (buff : Nat)

/-- `itoa`, whatever turns the string round. -/
def itoaWith (num : Int) : Option Store :=
  if num = 0 then some (storeZero m buff)
  else (if num < 0 then int (-num) else some num).map fun n =>
    let (i, m) := digitLoop 10 decimalDigit buff 32 n.toNat 0 m
    let (i, m) := if num < 0 then (i + 1, put m (buff + i) [0x2d]) else (i, m)
    rev (put m (buff + i) [0]) buff

/-- `xtoa`, whatever turns the string round. -/
def xtoaWith (num : Int) : Store :=
  if num = 0 then storeZero m buff
  else
    let (i, m) := digitLoop 16 hexDigit buff 32 num.toNat 0 m
    rev (put m (buff + i) [0]) buff

theorem itoa_with (num : Int) : itoa m num buff = itoaWith strrev m buff num := rfl

theorem xtoa_with (num : Int) : xtoa m num buff = xtoaWith strrev m buff num := rfl

/-- The digits of a number, and the sign after them. -/
def backwards (n : Int) : List Byte := digitChars 10 n.natAbs ++ if n < 0 then [0x2d] else []

/-- A number other than zero is written from its end, and then turned round. -/
theorem itoaWith_eq {n : Int} (hlo : -2 ^ 31 < n) (hhi : n < 2 ^ 31) (h0 : n ≠ 0) :
    itoaWith rev m buff n = some (rev (put m buff (backwards n ++ [0])) buff) := by
  have hloop := digitLoop_eq (by decide) decimalDigit_eq buff 32 n.natAbs 0 m (by omega)
  simp only [Nat.zero_add, Nat.add_zero] at hloop
  unfold itoaWith backwards
  rw [if_neg h0]
  by_cases hneg : n < 0
  · have habs : (-n).toNat = n.natAbs := by omega
    have hint : int (-n) = some (-n) := if_pos (by omega)
    simp only [if_pos hneg, hint, Option.map_some, habs, hloop]
    rw [put_append, ← put_append m buff (_ ++ [0x2d]) [0], List.length_append, List.length_singleton]
  · have habs : n.toNat = n.natAbs := by omega
    simp only [if_neg hneg, Option.map_some, habs, hloop]
    rw [put_append, List.append_nil]

/-- A negative number has no digits here. -/
theorem xtoaWith_eq {n : Int} (hhi : n < 2 ^ 31) (h0 : n ≠ 0) :
    xtoaWith rev m buff n = rev (put m buff (digitChars 16 n.toNat ++ [0])) buff := by
  have hloop := digitLoop_eq (by decide) hexDigit_eq buff 32 n.toNat 0 m (by omega)
  simp only [Nat.zero_add, Nat.add_zero] at hloop
  unfold xtoaWith
  rw [if_neg h0, hloop]
  dsimp only
  rw [put_append]

end

theorem length_hex_lt {n : Int} (hhi : n < 2 ^ 31) : (digitChars 16 n.toNat).length < Files.intMax := by
  have hlen : (digitChars 16 n.toNat).length ≤ 8 := (length_digitChars_le (by decide)).mpr (by omega)
  unfold Files.intMax
  omega

/-- The string of a number that is not negative. -/
theorem xtoa_spells (m : Store) (buff : Nat) {n : Nat} (hn : n < 2 ^ 31) :
    Spells (xtoa m n buff) buff (numeral 16 n) := by
  by_cases hn0 : n = 0
  · rw [hn0]
    show Spells (storeZero m buff) buff _
    rw [storeZero_eq]
    exact ⟨put_holds m buff [digitChar 0, 0], by decide⟩
  · have hhi : (n : Int) < 2 ^ 31 := by exact_mod_cast hn
    rw [xtoa_with, xtoaWith_eq strrev m buff hhi (by exact_mod_cast hn0), numeral_pos hn0]
    exact (strrev_put m buff (zero_not_mem_digitChars (by decide) (by decide) n) (length_hex_lt hhi)).1

theorem backwards_reverse {n : Int} (h0 : n ≠ 0) : (backwards n).reverse = decimal n := by
  have habs : n.natAbs ≠ 0 := by omega
  rw [backwards, decimal, numeral_pos habs, List.reverse_append]
  split
  · rfl
  · rfl

theorem zero_not_mem_backwards (n : Int) : (0 : Byte) ∉ backwards n := by
  rw [backwards, List.mem_append, not_or]
  refine ⟨zero_not_mem_digitChars (by decide) (by decide) n.natAbs, ?_⟩
  split
  · decide
  · exact List.not_mem_nil

theorem length_decimal_le {n : Int} (hlo : -2 ^ 31 < n) (hhi : n < 2 ^ 31) : (decimal n).length ≤ 11 := by
  by_cases h0 : n = 0
  · rw [h0]
    decide
  · have hlen : (digitChars 10 n.natAbs).length ≤ 10 := (length_digitChars_le (by decide)).mpr (by omega)
    rw [← backwards_reverse h0, List.length_reverse, backwards, List.length_append]
    split
    · rw [List.length_singleton]
      omega
    · rw [List.length_nil]
      omega

theorem itoa_spells (m : Store) (buff : Nat) {n : Int} (hlo : -2 ^ 31 < n) (hhi : n < 2 ^ 31) :
    ∃ m', itoa m n buff = some m' ∧ Spells m' buff (decimal n) ∧ Within m m' buff ((decimal n).length + 1) := by
  by_cases h0 : n = 0
  · refine ⟨storeZero m buff, if_pos h0, ?_⟩
    rw [storeZero_eq, h0]
    exact ⟨⟨put_holds m buff [digitChar 0, 0], by decide⟩, put_within m _ (Nat.le_refl _) (Nat.le_refl _)⟩
  · have hlen := length_decimal_le hlo hhi
    rw [itoa_with, itoaWith_eq strrev m buff hlo hhi h0]
    rw [← backwards_reverse h0, List.length_reverse] at hlen ⊢
    exact ⟨_, rfl, strrev_put m buff (zero_not_mem_backwards n) (by unfold Files.intMax; omega)⟩

/-! ### Reading the digits -/

theorem int_natCast {v : Nat} (h : v < 2 ^ 31) : int v = some (v : Int) := if_pos (by omega)

theorem int_some {v w : Int} (h : int v = some w) : w = v := by
  unfold int at h
  split at h
  · exact (Option.some.inj h).symm
  · cases h

theorem readLoop_step {base num : Int} {value : Byte → Int} {m : Store} {a fuel : Nat} (hnul : m a ≠ 0)
    (hnewline : m a ≠ 0x0a) :
    readLoop base value m (fuel + 1) a num =
      (int (num * base)).bind fun scaled => (int (scaled + value (m a))).bind (readLoop base value m fuel (a + 1)) :=
  if_pos ⟨hnul, hnewline⟩

theorem readLoop_end {base num : Int} {value : Byte → Int} {m : Store} {a fuel : Nat} (hzero : m a = 0) :
    readLoop base value m (fuel + 1) a num = some num := if_neg fun h => h.1 hzero

/-- Digits whose values are read right, as far as the number fits. -/
theorem readLoop_digits {base : Nat} {value : Byte → Int} {m : Store} (hb : 0 < base) {ds : List Nat} {a num fuel : Nat}
    (hholds : Holds m a (ds.map digitChar ++ [0]))
    (hds : ∀ d ∈ ds, digitChar d ≠ 0 ∧ digitChar d ≠ 0x0a ∧ value (digitChar d) = d)
    (hfit : readDigits base num ds < 2 ^ 31) (hfuel : ds.length < fuel) :
    readLoop base value m fuel a num = some (readDigits base num ds : Int) := by
  induction ds generalizing a num fuel with
  | nil =>
    obtain ⟨fuel, rfl⟩ := Nat.exists_eq_succ_of_ne_zero (by omega : fuel ≠ 0)
    exact readLoop_end (holds_cons.mp hholds).1
  | cons d rest ih =>
    obtain ⟨fuel, rfl⟩ := Nat.exists_eq_succ_of_ne_zero (by omega : fuel ≠ 0)
    obtain ⟨hbyte, hrest⟩ := holds_cons.mp hholds
    obtain ⟨hnul, hnewline, hvalue⟩ := hds d List.mem_cons_self
    -- what is read so far never exceeds the number in the end
    have hbelow : num * base + d < 2 ^ 31 := Nat.lt_of_le_of_lt (le_readDigits hb _ rest) hfit
    have hscaled : int (num * base) = some (num * base : Int) := int_natCast (v := num * base) (by omega)
    have hsum : int (num * base + d) = some (num * base + d : Int) := int_natCast hbelow
    have hnext := ih hrest (fun d hd => hds d (List.mem_cons_of_mem _ hd)) hfit (Nat.lt_of_succ_lt_succ hfuel)
    rw [readLoop_step (hbyte ▸ hnul) (hbyte ▸ hnewline), hscaled, Option.bind_some, hbyte, hvalue, hsum,
      Option.bind_some]
    exact hnext

theorem decimalValue_spec :
    ∀ d < 10, digitChar d ≠ 0 ∧ digitChar d ≠ 0x0a ∧ digitChar d ≠ 0x2d ∧ decimalValue (digitChar d) = d := by
  decide

theorem readLoop_decimal {m : Store} {a n : Nat} (h : Spells m a (numeral 10 n)) (hn : n < 2 ^ 31) :
    readLoop 10 decimalValue m Files.intMax a 0 = some (n : Int) := by
  have hds : ∀ d ∈ topDigits 10 n, digitChar d ≠ 0 ∧ digitChar d ≠ 0x0a ∧ decimalValue (digitChar d) = d := by
    intro d hd
    obtain ⟨hnul, hnewline, -, hvalue⟩ := decimalValue_spec d (topDigits_lt (by decide) hd)
    exact ⟨hnul, hnewline, hvalue⟩
  have hread := readDigits_topDigits 10 n
  have hlen : (topDigits 10 n).length ≤ 10 := length_topDigits_le (by decide) (by decide) (by omega)
  rw [numeral_eq_map] at h
  have hloop : readLoop (10 : Nat) decimalValue m Files.intMax a (0 : Nat) = some (readDigits 10 0 (topDigits 10 n) : Int) :=
    readLoop_digits (by decide) h.1 hds (by rw [hread]; exact hn) (by unfold Files.intMax; omega)
  rw [hread] at hloop
  exact hloop

theorem atoi_spells {m : Store} {a : Nat} {n : Int} (h : Spells m a (decimal n)) (hlo : -2 ^ 31 < n) (hhi : n < 2 ^ 31) :
    atoi m a = some n := by
  unfold decimal at h
  unfold atoi
  by_cases hneg : n < 0
  · rw [if_pos hneg] at h
    obtain ⟨hsign, -, hrest⟩ := spells_cons h
    have hvalue : (n.natAbs : Int) * -1 = n := by omega
    rw [if_pos hsign, readLoop_decimal hrest (by omega), Option.bind_some, hvalue]
    exact if_pos (by omega)
  · rw [if_neg hneg] at h
    have hfirst : m a ≠ 0x2d := by
      have hspells := h
      rw [numeral_eq_map] at hspells
      cases hds : topDigits 10 n.natAbs with
      | nil =>
        rw [hds] at hspells
        rw [spells_nil hspells]
        decide
      | cons d rest =>
        rw [hds] at hspells
        have hd : d < 10 := topDigits_lt (by decide) (hds ▸ List.mem_cons_self)
        rw [(spells_cons hspells).1]
        exact (decimalValue_spec d hd).2.2.1
    have hvalue : (n.natAbs : Int) * 1 = n := by omega
    rw [if_neg hfirst, readLoop_decimal h (by omega), Option.bind_some, hvalue]
    exact if_pos (by omega)

/-- A number other than the least one is stored as its numeral, in at most twelve bytes, and read back. -/
theorem decimal_round_trip (m : Store) (buff : Nat) {n : Int} (hlo : -2 ^ 31 < n) (hhi : n < 2 ^ 31) :
    ∃ m', itoa m n buff = some m' ∧ Spells m' buff (decimal n) ∧ (decimal n).length + 1 ≤ 12 ∧
      Within m m' buff ((decimal n).length + 1) ∧ atoi m' buff = some n := by
  obtain ⟨m', hitoa, hspells, hwithin⟩ := itoa_spells m buff hlo hhi
  have hlen := length_decimal_le hlo hhi
  exact ⟨m', hitoa, hspells, by omega, hwithin, atoi_spells hspells hlo hhi⟩

theorem decimal_round_trip_minus_42 :
    decimal (-42) = [0x2d, 0x34, 0x32] ∧ ∃ m', itoa (fun _ => 0) (-42) 0 = some m' ∧ Spells m' 0 (decimal (-42)) ∧
      (decimal (-42)).length + 1 ≤ 12 ∧ Within (fun _ => 0) m' 0 ((decimal (-42)).length + 1) ∧ atoi m' 0 = some (-42) :=
  ⟨by simp [decimal, numeral, digitChars, digitChar], decimal_round_trip (fun _ => 0) 0 (by decide) (by decide)⟩

/-! ### Hexadecimal numbers -/

theorem hexValue_spec :
    ∀ d < 16, digitChar d ≠ 0 ∧ digitChar d ≠ 0x0a ∧ hexValue (digitChar d) = if d = 9 then -30 else (d : Int) := by
  decide

/-- A digit `9` is read as too small a number, and what is read after it does not make up for it. -/
theorem readLoop_nine {m : Store} {ds : List Nat} {a fuel least : Nat} {num v : Int}
    (hholds : Holds m a (ds.map digitChar ++ [0])) (hds : ∀ d ∈ ds, d < 16) (hle : num ≤ least)
    (hlt : num < least ∨ 9 ∈ ds) (hloop : readLoop 16 hexValue m fuel a num = some v) : v < readDigits 16 least ds := by
  induction ds generalizing a fuel num least with
  | nil =>
    obtain _ | fuel := fuel
    · cases hloop
    · rw [readLoop_end (holds_cons.mp hholds).1] at hloop
      obtain rfl := Option.some.inj hloop
      exact hlt.resolve_right List.not_mem_nil
  | cons d rest ih =>
    obtain _ | fuel := fuel
    · cases hloop
    · obtain ⟨hbyte, hrest⟩ := holds_cons.mp hholds
      obtain ⟨hnul, hnewline, hvalue⟩ := hexValue_spec d (hds d List.mem_cons_self)
      rw [readLoop_step (hbyte ▸ hnul) (hbyte ▸ hnewline)] at hloop
      obtain ⟨scaled, hscaled, hloop⟩ := Option.bind_eq_some_iff.mp hloop
      obtain ⟨next, hnext, hloop⟩ := Option.bind_eq_some_iff.mp hloop
      obtain rfl := int_some hscaled
      obtain rfl := int_some hnext
      rw [hbyte, hvalue] at hloop
      refine ih hrest (fun d hd => hds d (List.mem_cons_of_mem _ hd)) ?_ ?_ hloop
      · push_cast
        split <;> omega
      · push_cast
        by_cases hd : d = 9
        · left
          rw [if_pos hd]
          omega
        · rw [if_neg hd]
          obtain hlt | hmem := hlt
          · left
            omega
          · right
            exact (List.mem_cons.mp hmem).resolve_left (Ne.symm hd)

/-- A number is read back as printed unless one of its digits is `9`. -/
theorem hex_round_trip_iff (m : Store) (buff : Nat) {n : Int} (h0 : 0 ≤ n) (hn : n < 2 ^ 31) :
    atox (xtoa m n buff) buff = some n ↔ 9 ∉ Nat.digits 16 n.toNat := by
  obtain ⟨k, rfl⟩ := Int.eq_ofNat_of_zero_le h0
  have hk : k < 2 ^ 31 := by exact_mod_cast hn
  have hspells := xtoa_spells m buff hk
  have hread := readDigits_topDigits 16 k
  have hlen : (topDigits 16 k).length ≤ 8 := length_topDigits_le (by decide) (by decide) (by omega)
  have hdigits : ∀ d ∈ topDigits 16 k, d < 16 := fun d hd => topDigits_lt (by decide) hd
  rw [numeral_eq_map] at hspells
  rw [Int.toNat_natCast, ← mem_topDigits (by decide)]
  constructor
  · intro hatox hnine
    have hlt := readLoop_nine hspells.1 hdigits (Int.le_refl 0) (Or.inr hnine) hatox
    rw [hread] at hlt
    exact Int.lt_irrefl _ hlt
  · intro hnine
    have hds : ∀ d ∈ topDigits 16 k, digitChar d ≠ 0 ∧ digitChar d ≠ 0x0a ∧ hexValue (digitChar d) = d := by
      intro d hd
      obtain ⟨hnul, hnewline, hvalue⟩ := hexValue_spec d (hdigits d hd)
      rw [if_neg (fun hc : d = 9 => hnine (hc ▸ hd))] at hvalue
      exact ⟨hnul, hnewline, hvalue⟩
    have hloop : readLoop (16 : Nat) hexValue (xtoa m k buff) Files.intMax buff (0 : Nat) =
        some (readDigits 16 0 (topDigits 16 k) : Int) :=
      readLoop_digits (by decide) hspells.1 hds (by rw [hread]; exact hk) (by unfold Files.intMax; omega)
    rw [hread] at hloop
    exact hloop

theorem hex_round_trip_1f : atox (xtoa (fun _ => 0) 0x1f 0) 0 = some 0x1f :=
  (hex_round_trip_iff (fun _ => 0) 0 (by decide) (by decide)).mpr (by simp)

/-- The number nine is printed as `9` and read as minus thirty. -/
theorem hex_nine_misread :
    Spells (xtoa (fun _ => 0) 9 0) 0 [0x39] ∧ atox (xtoa (fun _ => 0) 9 0) 0 = some (-30) ∧
      ¬ ∀ (m : Store) (buff : Nat) (n : Int), 0 ≤ n → n < 2 ^ 31 → atox (xtoa m n buff) buff = some n := by
  have hspells : Spells (xtoa (fun _ => 0) 9 0) 0 [0x39] := xtoa_spells (fun _ => 0) 0 (show 9 < 2 ^ 31 by decide)
  have hread : atox (xtoa (fun _ => 0) 9 0) 0 = some (-30) := by decide +kernel
  refine ⟨hspells, hread, fun h => ?_⟩
  have hnine := h (fun _ => 0) 0 9 (by decide) (by decide)
  rw [hread] at hnine
  exact absurd hnine (by decide)

end Sbnix.Libc
