import Sbnix.Files.Descriptors
import Sbnix.Library.Numerals

/-! `i_printf` and `printk` (`sys/printf.c`, lines 120 to 221).

What is printed is the list of the characters given to `c_printf`. `i_printf` collects the
digits in an array of 20 numbers on the stack; the model notes which of its elements are
used, and an index past the end finds what lies behind on the stack. `printk` reads its
format from memory and its other arguments from wherever `va_arg` finds them, whether the
caller has passed any or not; the model notes how many it reads, and which addresses of
the format. -/
namespace Sbnix.Console
open Library Library.Store Files

/-! ### `i_printf` -/

def intSize : Nat := 20

/-- `numArr` and what lies behind it, and the indices that have been used. -/
structure NumArr where
  cells : Nat → Int
  touched : List Nat

namespace NumArr

def init (stack : Nat → Int) : NumArr := ⟨fun i => if i < intSize then 0 else stack i, []⟩

def set (a : NumArr) (i : Nat) (v : Int) : NumArr := ⟨Function.update a.cells i v, a.touched ++ [i]⟩

end NumArr

/-- A digit from ten on becomes a letter when 48 is added to it. -/
def biased (digit : Nat) : Nat := if digit > 9 then digit + (7 + 32) else digit

/-- The loop over the number, the `i`-th digit next. -/
def storeDigits (base : Nat) : Nat → Nat → Nat → NumArr → Nat × NumArr
  | 0, _, i, a => (i, a)
  | fuel + 1, num, i, a =>
    if num > 0 then storeDigits base fuel (num / base) (i + 1) (a.set i (biased (num % base)))
    else (i, a)

structure Digits where
  out : List Byte
  touched : List Nat

/-- `c_printf(numArr[i] + 48)` -/
def cellChar (a : NumArr) (i : Nat) : Byte := BitVec.ofInt 8 (a.cells i + 48)

/-- The loop over the array, down from index `i`; `flag` after the first digit that is not 0. -/
def emitDigits (a : NumArr) : Nat → Bool → Digits
  | 0, flag => ⟨if a.cells 0 ≠ 0 ∨ flag then [cellChar a 0] else [], [0]⟩
  | i + 1, flag =>
    if a.cells (i + 1) ≠ 0 ∨ flag then
      let rest := emitDigits a i true
      ⟨cellChar a (i + 1) :: rest.out, (i + 1) :: rest.touched⟩
    else
      let rest := emitDigits a i false
      ⟨rest.out, (i + 1) :: rest.touched⟩

/-- `i_printf` without `xflag`. A number has at most 64 digits. -/
def printNumber (stack : Nat → Int) (num : BitVec 64) (base : Nat) : Digits :=
  if num = 0 then ⟨[BitVec.ofNat 8 (num.toNat + 48)], []⟩
  else
    let (i, a) := storeDigits base 64 num.toNat 0 (.init stack)
    let rest := emitDigits a i false
    ⟨rest.out, a.touched ++ rest.touched⟩

def iPrintf (stack : Nat → Int) (num : BitVec 64) (base : Nat) (xflag : Bool) : Digits :=
  if xflag then
    let zero := printNumber stack 0 2
    let rest := printNumber stack num base
    ⟨zero.out ++ 0x78 :: rest.out, zero.touched ++ rest.touched⟩
  else printNumber stack num base

/-! ### `printk` -/

structure Printed where
  /-- What has been given to `c_printf`. -/
  out : List Byte
  /-- The indices of `numArr` that have been used. -/
  touched : List Nat
  /-- The number of arguments that have been read. -/
  args : Nat
  /-- The addresses of the format that have been read. -/
  reads : List Nat
  printed : Nat

def Printed.none : Printed := ⟨[], [], 0, [], 0⟩

/-- What `va_arg` finds, argument by argument, and what is on the stack. -/
structure Frame where
  va : Nat → BitVec 64
  stack : Nat → Int

/-- `va_arg(val, int)` -/
def Frame.int (f : Frame) (i : Nat) : Int := ((f.va i).setWidth 32).toInt

def Printed.number (p : Printed) (sign : List Byte) (d : Digits) : Printed :=
  {p with out := p.out ++ (sign ++ d.out), touched := p.touched ++ d.touched, args := p.args + 1}

/-- The bytes of a string, if it ends. -/
def stringAt (m : Store) (t : Nat) : Option (List Byte) :=
  let len := scan m t (2 ^ 64)
  if len < 2 ^ 64 then some (fetch m t len) else none

/-- `-`, for a number below zero. -/
def minus (num : Int) : List Byte := if num < 0 then [0x2d] else []

/-- The `switch` on the character after a percent sign. -/
def convert (m : Store) (f : Frame) (c : Byte) (p : Printed) : Option Printed :=
  let num := f.int p.args
  if c = 0x64 then some (p.number (minus num) (iPrintf f.stack (BitVec.ofInt 64 num) 10 false))
  else if c = 0x73 then
    (stringAt m (f.va p.args).toNat).map fun s => {p with out := p.out ++ s, args := p.args + 1}
  else if c = 0x78 then some (p.number (minus num) (iPrintf f.stack (BitVec.ofInt 64 num) 16 false))
  else if c = 0x70 then some (p.number [] (iPrintf f.stack (BitVec.ofInt 64 num) 16 true))
  else if c = 0x63 then some {p with out := p.out ++ [BitVec.ofInt 8 num], args := p.args + 1}
  else if c = 0x25 then some {p with out := p.out ++ [c]}
  else some p

/-- The loop over the format. After a percent sign the next character is taken whatever it is,
and the index is advanced past it. -/
def printkLoop (m : Store) (f : Frame) : Nat → Nat → Printed → Option Printed
  | 0, _, _ => none
  | fuel + 1, format, p =>
    let p := {p with reads := p.reads ++ [format]}
    if m format = 0 then some p
    else if m format = 0x25 then
      (convert m f (m (format + 1)) {p with reads := p.reads ++ [format + 1]}).bind fun p =>
        printkLoop m f fuel (format + 2) {p with printed := p.printed + 1}
    else printkLoop m f fuel (format + 1) {p with out := p.out ++ [m format], printed := p.printed + 1}

def printk (m : Store) (f : Frame) (format fuel : Nat) : Option Printed := printkLoop m f fuel format .none

/-! ### Numerals -/

section
variable {base num i j : Nat} {a : NumArr} {stack : Nat → Int}

/-- The numbers are stored one after the other. -/
def NumArr.setAll : NumArr → Nat → List Nat → NumArr
  | a, _, [] => a
  | a, i, d :: ds => (a.set i d).setAll (i + 1) ds

theorem setAll_cells_other (a : NumArr) (ds : List Nat) {k : Nat} (h : k < i ∨ i + ds.length ≤ k) :
    (a.setAll i ds).cells k = a.cells k := by
  induction ds generalizing a i with
  | nil => rfl
  | cons d ds ih =>
    rw [List.length_cons] at h
    rw [NumArr.setAll, ih _ (by omega)]
    exact Function.update_of_ne (by omega) ..

theorem setAll_cells (a : NumArr) (i : Nat) (ds : List Nat) (hj : j < ds.length) :
    (a.setAll i ds).cells (i + j) = ds[j] := by
  induction ds generalizing a i j with
  | nil => exact absurd hj (Nat.not_lt_zero _)
  | cons d ds ih =>
    rw [NumArr.setAll]
    cases j with
    | zero =>
      rw [setAll_cells_other _ _ (by omega)]
      exact Function.update_self ..
    | succ j =>
      have hnext : i + (j + 1) = i + 1 + j := by omega
      rw [hnext, ih _ (i + 1) (Nat.lt_of_succ_lt_succ hj)]
      rfl

theorem setAll_touched (a : NumArr) (i : Nat) (ds : List Nat) :
    (a.setAll i ds).touched = a.touched ++ List.range' i ds.length := by
  induction ds generalizing a i with
  | nil => simp [NumArr.setAll]
  | cons d ds ih =>
    rw [NumArr.setAll, ih, List.length_cons, List.range'_succ]
    simp [NumArr.set]

/-- The first loop stores the digits, the least significant first. -/
theorem storeDigits_eq (hb : 1 < base) {fuel : Nat} (hfuel : num < 2 ^ fuel) (i : Nat) (a : NumArr) :
    storeDigits base fuel num i a =
      (i + (Nat.digits base num).length, a.setAll i ((Nat.digits base num).map biased)) := by
  induction fuel generalizing num i a with
  | zero =>
    obtain rfl : num = 0 := by omega
    rw [Nat.digits_zero]
    rfl
  | succ fuel ih =>
    rw [storeDigits]
    by_cases hpos : num > 0
    · rw [if_pos hpos, ih (div_lt_two_pow hb hfuel), Nat.digits_def' hb hpos, List.length_cons, List.map_cons,
        NumArr.setAll, Nat.add_assoc, Nat.add_comm 1]
    · obtain rfl : num = 0 := by omega
      rw [if_neg hpos, Nat.digits_zero]
      rfl

/-- After the first digit that is not 0, everything is printed. -/
theorem emitDigits_true (a : NumArr) (i : Nat) :
    emitDigits a i true = ⟨((List.range (i + 1)).map (cellChar a)).reverse, (List.range (i + 1)).reverse⟩ := by
  induction i with
  | zero =>
    rw [emitDigits, if_pos (Or.inr rfl)]
    rfl
  | succ i ih =>
    rw [emitDigits, if_pos (Or.inr rfl), ih, List.range_succ (n := i + 1)]
    simp

theorem emitDigits_false (h : a.cells i ≠ 0) : emitDigits a i false = emitDigits a i true := by
  cases i with
  | zero => rw [emitDigits, emitDigits, if_pos (Or.inl h), if_pos (Or.inl h)]
  | succ i => rw [emitDigits, emitDigits, if_pos (Or.inl h), if_pos (Or.inl h)]

theorem biased_char (d : Nat) : BitVec.ofInt 8 ((biased d : Int) + 48) = digitChar d := by
  have hcast : ((biased d : Int) + 48) = ((biased d + 48 : Nat) : Int) := by push_cast; rfl
  rw [hcast, BitVec.ofInt_natCast]
  unfold biased digitChar
  by_cases hd : d > 9
  · rw [if_pos hd, if_neg (by omega)]
    congr 1
    omega
  · rw [if_neg hd, if_pos (by omega)]
    congr 1
    omega

/-- The digits in the array, as characters. -/
theorem cellChar_digits (stack : Nat → Int) (ds : List Nat) :
    (List.range ds.length).map (cellChar ((NumArr.init stack).setAll 0 (ds.map biased))) = ds.map digitChar := by
  refine List.ext_getElem (by simp) fun j hj hj' => ?_
  have hlen : j < (ds.map biased).length := by simpa using hj
  have hcell := setAll_cells (NumArr.init stack) 0 (ds.map biased) hlen
  rw [Nat.zero_add] at hcell
  rw [List.getElem_map, List.getElem_range, cellChar, hcell, List.getElem_map, List.getElem_map]
  exact biased_char _

theorem emitDigits_touched (a : NumArr) (i : Nat) (flag : Bool) :
    (emitDigits a i flag).touched = (List.range (i + 1)).reverse := by
  induction i generalizing flag with
  | zero => rfl
  | succ i ih =>
    rw [emitDigits, List.range_succ (n := i + 1), List.reverse_append]
    split
    · dsimp only
      rw [ih]
      rfl
    · dsimp only
      rw [ih]
      rfl

theorem printNumber_stores {n : BitVec 64} (hb : 1 < base) (hn : n ≠ 0) :
    printNumber stack n base =
      ⟨(emitDigits ((NumArr.init stack).setAll 0 ((Nat.digits base n.toNat).map biased)) (Nat.digits base n.toNat).length
        false).out, List.range (Nat.digits base n.toNat).length ++ (List.range ((Nat.digits base n.toNat).length + 1)).reverse⟩ := by
  unfold printNumber
  rw [if_neg hn, storeDigits_eq hb n.isLt]
  dsimp only
  rw [Nat.zero_add, emitDigits_touched, setAll_touched, List.length_map, ← List.range_eq_range']
  rfl

/-- The elements that are used are those of the digits, and one more. -/
theorem printNumber_touched {n : BitVec 64} (hb : 1 < base) {k : Nat} (hk : k ∈ (printNumber stack n base).touched) :
    k ≤ (Nat.digits base n.toNat).length := by
  by_cases hn : n = 0
  · rw [printNumber, if_pos hn] at hk
    cases hk
  · rw [printNumber_stores hb hn, List.mem_append, List.mem_reverse, List.mem_range, List.mem_range] at hk
    omega

theorem printNumber_touches {n : BitVec 64} (hb : 1 < base) (hn : n ≠ 0) :
    (Nat.digits base n.toNat).length ∈ (printNumber stack n base).touched := by
  rw [printNumber_stores hb hn, List.mem_append, List.mem_reverse, List.mem_range, List.mem_range]
  exact Or.inr (Nat.lt_succ_self _)

/-- The second loop skips the element behind the digits, which is still 0, and prints the digits. -/
theorem emitDigits_stored (stack : Nat → Int) (ds : List Nat) (hne : ds ≠ []) (htop : ds.getLast hne ≠ 0)
    (hlen : ds.length < intSize) :
    (emitDigits ((NumArr.init stack).setAll 0 (ds.map biased)) ds.length false).out = (ds.map digitChar).reverse := by
  rw [← cellChar_digits stack]
  generalize ha : (NumArr.init stack).setAll 0 (ds.map biased) = a
  obtain ⟨top, htoplen⟩ : ∃ top, ds.length = top + 1 :=
    Nat.exists_eq_succ_of_ne_zero (mt List.length_eq_zero_iff.mp hne)
  have hzero : a.cells (top + 1) = 0 := by
    rw [← ha, setAll_cells_other _ _ (by rw [List.length_map]; omega)]
    exact if_pos (by omega)
  have hfirst : a.cells top ≠ 0 := by
    have hcell := setAll_cells (NumArr.init stack) 0 (ds.map biased) (j := top) (by rw [List.length_map]; omega)
    rw [ha, Nat.zero_add, List.getElem_map] at hcell
    have hlast : ds.getLast hne = ds[top] := by
      rw [List.getLast_eq_getElem]
      congr 1
      omega
    rw [hlast] at htop
    rw [hcell]
    unfold biased
    split
    · omega
    · omega
  rw [htoplen, emitDigits, if_neg (by simp [hzero])]
  dsimp only
  rw [emitDigits_false hfirst, emitDigits_true]

/-- With fewer digits than the array has elements, `i_printf` prints the numeral. -/
theorem printNumber_numeral {n : BitVec 64} (hb : 1 < base) (hlen : (Nat.digits base n.toNat).length < intSize) :
    (printNumber stack n base).out = numeral base n.toNat := by
  by_cases hn : n = 0
  · subst hn
    rfl
  · have hnat : n.toNat ≠ 0 := fun hc => hn (BitVec.eq_of_toNat_eq hc)
    rw [printNumber_stores hb hn, numeral_pos hnat]
    exact emitDigits_stored stack _ (Nat.digits_ne_nil_iff_ne_zero.mpr hnat) (Nat.getLast_digit_ne_zero base hnat) hlen

/-- `xflag` puts `0x` in front, and uses no other element of the array. -/
theorem iPrintf_xflag (stack : Nat → Int) (n : BitVec 64) (base : Nat) :
    (iPrintf stack n base true).out = 0x30 :: 0x78 :: (printNumber stack n base).out ∧
      (iPrintf stack n base true).touched = (printNumber stack n base).touched := ⟨rfl, rfl⟩

/-- A number of 64 bits has at most 16 hexadecimal digits. -/
theorem digits_fit {n : BitVec 64} (h : base = 16 ∨ base = 10 ∧ n.toNat < 10 ^ 19) :
    1 < base ∧ (Nat.digits base n.toNat).length < intSize := by
  obtain rfl | ⟨rfl, hn⟩ := h
  · have hlen : (Nat.digits 16 n.toNat).length ≤ 16 := (Nat.digits_length_le_iff (by decide) _).mpr n.isLt
    exact ⟨by decide, Nat.lt_of_le_of_lt hlen (by decide)⟩
  · have hlen : (Nat.digits 10 n.toNat).length ≤ 19 := (Nat.digits_length_le_iff (by decide) _).mpr hn
    exact ⟨by decide, Nat.lt_of_le_of_lt hlen (by decide)⟩

/-- Hexadecimal numbers, and decimal ones of at most 19 digits, are printed as their numerals, and
the array is large enough for them. -/
theorem unsigned_numeral (stack : Nat → Int) (n : BitVec 64) (base : Nat)
    (h : base = 16 ∨ base = 10 ∧ n.toNat < 10 ^ 19) :
    (iPrintf stack n base false).out = numeral base n.toNat ∧
      (iPrintf stack n base true).out = [0x30, 0x78] ++ numeral base n.toNat ∧
      ∀ xflag, ∀ k ∈ (iPrintf stack n base xflag).touched, k < intSize := by
  obtain ⟨hb, hlen⟩ := digits_fit h
  have hnumeral : (printNumber stack n base).out = numeral base n.toNat := printNumber_numeral hb hlen
  have htouched : ∀ k ∈ (printNumber stack n base).touched, k < intSize := fun k hk =>
    Nat.lt_of_le_of_lt (printNumber_touched hb hk) hlen
  obtain ⟨hout, hsame⟩ := iPrintf_xflag stack n base
  refine ⟨hnumeral, ?_, fun xflag => ?_⟩
  · rw [hout, hnumeral]
    rfl
  · cases xflag with
    | false => exact htouched
    | true =>
      rw [hsame]
      exact htouched

theorem unsigned_numeral_max :
    (iPrintf (fun _ => 0) (BitVec.allOnes 64) 16 true).out = [0x30, 0x78] ++ numeral 16 (2 ^ 64 - 1) :=
  (unsigned_numeral (fun _ => 0) (BitVec.allOnes 64) 16 (Or.inl rfl)).2.1

end

/-! ### Signed numbers -/

/-- `%d` -/
def percentD : List Byte := [0x25, 0x64]

/-- The call prints the numeral, and stays inside of `numArr`. -/
def PrintsSigned (m : Store) (f : Frame) (format : Nat) (n : Int) : Prop :=
  ∃ fuel p, printk m f format fuel = some p ∧ p.out = decimal n ∧ ∀ k ∈ p.touched, k < intSize

section
variable {m : Store} {f : Frame} {format : Nat}

theorem printk_percentD (h : Spells m format percentD) (fuel : Nat) :
    printk m f format (fuel + 2) =
      some ⟨minus (f.int 0) ++ (printNumber f.stack (BitVec.ofInt 64 (f.int 0)) 10).out,
        (printNumber f.stack (BitVec.ofInt 64 (f.int 0)) 10).touched, 1, [format, format + 1, format + 2], 1⟩ := by
  obtain ⟨hpercent, hrest⟩ := holds_cons.mp h.1
  obtain ⟨hletter, hend⟩ := holds_cons.mp hrest
  have hzero : m (format + 2) = 0 := (holds_cons.mp hend).1
  simp only [printk, printkLoop, hpercent, hletter, hzero, convert, iPrintf, Printed.number, Printed.none]
  rfl

theorem printk_percentD_cases (h : Spells m format percentD) {fuel : Nat} {p : Printed}
    (hp : printk m f format fuel = some p) :
    p.out = minus (f.int 0) ++ (printNumber f.stack (BitVec.ofInt 64 (f.int 0)) 10).out ∧
      p.touched = (printNumber f.stack (BitVec.ofInt 64 (f.int 0)) 10).touched := by
  match fuel with
  | 0 => cases hp
  | 1 =>
    obtain ⟨hpercent, hrest⟩ := holds_cons.mp h.1
    have hletter : m (format + 1) = 0x64 := (holds_cons.mp hrest).1
    simp [printk, printkLoop, hpercent, hletter, convert] at hp
  | fuel + 2 =>
    rw [printk_percentD h] at hp
    obtain rfl := Option.some.inj hp
    exact ⟨rfl, rfl⟩

/-- A number below zero has twenty digits as an unsigned one, so the element behind the array is
read. -/
theorem negative_touches (n : BitVec 32) (hn : n.toInt < 0) (stack : Nat → Int) :
    intSize ∈ (printNumber stack (BitVec.ofInt 64 n.toInt) 10).touched := by
  have hlow : -2 ^ 31 ≤ n.toInt := by
    have := BitVec.le_toInt n
    simpa using this
  have hnat : (BitVec.ofInt 64 n.toInt).toNat = (n.toInt + 2 ^ 64).toNat := by
    rw [BitVec.toNat_ofInt]
    omega
  have hlen : (Nat.digits 10 (BitVec.ofInt 64 n.toInt).toNat).length = intSize := by
    apply Nat.le_antisymm
    · exact (Nat.digits_length_le_iff (by decide) _).mpr (by rw [hnat]; unfold intSize; omega)
    · exact (Nat.lt_digits_length_iff (k := 19) (by decide) _).mpr (by rw [hnat]; omega)
  rw [← hlen]
  refine printNumber_touches (by decide) fun hc => ?_
  rw [hc] at hnat
  have : (0 : BitVec 64).toNat = 0 := rfl
  omega

/-- `printk("%d", n)` prints the numeral of `n` just when `n` is not negative. -/
theorem printk_signed_iff (m : Store) (f : Frame) (format : Nat) (n : BitVec 32) (h : Spells m format percentD)
    (hn : (f.va 0).setWidth 32 = n) : PrintsSigned m f format n.toInt ↔ 0 ≤ n.toInt := by
  have hint : f.int 0 = n.toInt := by rw [← hn]; rfl
  constructor
  · rintro ⟨fuel, p, hp, _, htouched⟩
    by_contra hneg
    have hcell := negative_touches n (by omega) f.stack
    rw [← hint, ← (printk_percentD_cases h hp).2] at hcell
    exact absurd (htouched _ hcell) (Nat.lt_irrefl _)
  · intro hpos
    have hhigh : n.toInt < 2 ^ 31 := by
      have := BitVec.toInt_lt (x := n)
      simpa using this
    have hnat : (BitVec.ofInt 64 n.toInt).toNat = n.toInt.natAbs := by
      rw [BitVec.toNat_ofInt]
      omega
    have hlen : (Nat.digits 10 (BitVec.ofInt 64 n.toInt).toNat).length < intSize := by
      refine Nat.lt_of_le_of_lt ((Nat.digits_length_le_iff (k := 10) (by decide) _).mpr ?_) (by decide)
      rw [hnat]
      omega
    refine ⟨2, _, printk_percentD h 0, ?_, fun k hk => ?_⟩
    · dsimp only
      rw [hint, printNumber_numeral (by decide) hlen, hnat, minus, decimal, if_neg (by omega), if_neg (by omega)]
      rfl
    · dsimp only at hk
      rw [hint] at hk
      exact Nat.lt_of_le_of_lt (printNumber_touched (by decide) hk) hlen

end

/-- The format `%d` at address 0, and a number. -/
def percentStore : Store := put (fun _ => 0) 0 percentD
def numberFrame (n : BitVec 64) : Frame := ⟨fun _ => n, fun _ => 0⟩

theorem percent_spells : Spells percentStore 0 percentD := ⟨rfl, by decide⟩

theorem printk_signed_42 : PrintsSigned percentStore (numberFrame 42) 0 42 :=
  (printk_signed_iff percentStore (numberFrame 42) 0 42 percent_spells rfl).mpr (by decide)

/-- -1 is printed as a minus sign and the largest number of 64 bits. -/
theorem printk_minus_one : Spells percentStore 0 percentD ∧ ((numberFrame (-1)).va 0).setWidth 32 = (-1 : BitVec 32) ∧
    (printk percentStore (numberFrame (-1)) 0 2).map (·.out) = some [0x2d, 0x31, 0x38, 0x34, 0x34, 0x36, 0x37, 0x34, 0x34,
      0x30, 0x37, 0x33, 0x37, 0x30, 0x39, 0x35, 0x35, 0x31, 0x36, 0x31, 0x35] ∧
    ¬ PrintsSigned percentStore (numberFrame (-1)) 0 (-1) := by
  refine ⟨percent_spells, rfl, by decide +kernel, ?_⟩
  rintro ⟨fuel, p, hp, _, htouched⟩
  have hcell := negative_touches (-1) (by decide) (numberFrame (-1)).stack
  rw [(printk_percentD_cases percent_spells hp).2] at htouched
  exact absurd (htouched _ hcell) (Nat.lt_irrefl _)

end Sbnix.Console
