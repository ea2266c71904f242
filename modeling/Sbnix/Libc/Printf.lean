import Sbnix.Console.Format
import Sbnix.Libc.Numbers

/-! `printf` of the C library (`libc/printf.c`).

It goes over its format as `printk` does, but prints by `write`: a system call for every
character, and one for every number, which is handed over in an array of 15 bytes. The
kernel prints what it gets up to the first zero, and takes it for a format again, so
nothing that is printed may be a percent sign, not even one that is written as `%%`.
`printf_renders` says that apart from that the pieces of the format come out as they do
from `printk`, and that nothing but the array and the kernel's copy is written to. -/
namespace Sbnix.Libc
open Library Library.Store Files Console

/-- The size of `tmp`. -/
def tmpSize : Nat := 15

/-- What a call of `printf` finds: its arguments, where `tmp` lies and where the kernel puts its
copy, and the calling process. -/
structure Call where
  va : Nat → BitVec 64
  tmp : Nat
  temBuf : Nat
  process : Task
  /-- What `printk` finds in the kernel. -/
  frame : Frame

structure Output where
  mem : Store
  /-- What has been given to `c_printf`. -/
  out : List Byte
  args : Nat
  printed : Nat

/-- `va_arg(val, int)` -/
def Call.int (k : Call) (i : Nat) : Int := ((k.va i).setWidth 32).toInt

/-- `write(1, buf, size)` -/
def Call.write (k : Call) (fuel buf size : Nat) (p : Output) : Option Output :=
  match sysWrite p.mem k.frame k.process k.temBuf 1 buf size fuel with
  | .ok (some w) => some {p with mem := w.mem, out := p.out ++ w.out}
  | _ => none

/-- `for(;*t;t++) write(1,t,1);` -/
def Call.writeString (k : Call) (fuel : Nat) : Nat → Nat → Output → Option Output
  | 0, _, _ => none
  | n + 1, t, p => if p.mem t = 0 then some p else (k.write fuel t 1 p).bind (k.writeString fuel n (t + 1))

/-- The `switch` on the character at `format`, behind a percent sign. -/
def Call.convert (k : Call) (fuel format : Nat) (p : Output) : Option Output :=
  let num := k.int p.args
  let c := p.mem format
  if c = 0x64 then (itoa p.mem num k.tmp).bind fun m => k.write fuel k.tmp tmpSize {p with mem := m, args := p.args + 1}
  else if c = 0x73 then k.writeString fuel fuel (k.va p.args).toNat {p with args := p.args + 1}
  else if c = 0x78 then k.write fuel k.tmp tmpSize {p with mem := xtoa p.mem num k.tmp, args := p.args + 1}
  else if c = 0x63 then
    k.write fuel k.tmp 1 {p with mem := put (put p.mem k.tmp [BitVec.ofInt 8 num]) (k.tmp + 1) [0], args := p.args + 1}
  else if c = 0x25 then k.write fuel format 1 p
  else some p

/-- The loop over the format. -/
def Call.loop (k : Call) (fuel : Nat) : Nat → Nat → Output → Option Output
  | 0, _, _ => none
  | rounds + 1, format, p =>
    if p.mem format = 0 then some p
    else if p.mem format = 0x25 then
      (k.convert fuel (format + 1) p).bind fun p => k.loop fuel rounds (format + 2) {p with printed := p.printed + 1}
    else (k.write fuel format 1 p).bind fun p => k.loop fuel rounds (format + 1) {p with printed := p.printed + 1}

/-- `char tmp[15]="\0";` comes first. -/
def printf (k : Call) (fuel : Nat) (m : Store) (format : Nat) : Option Output :=
  k.loop fuel fuel format ⟨put m k.tmp (List.replicate tmpSize 0), [], 0, 0⟩

/-! ### The two arrays -/

/-- `tmp` and the kernel's copy of what is written. -/
def Call.Scratch (k : Call) (x : Nat) : Prop := (k.tmp ≤ x ∧ x < k.tmp + tmpSize) ∨ (k.temBuf ≤ x ∧ x ≤ k.temBuf + tmpSize)

/-- Nothing else has been written to. -/
def Call.Keeps (k : Call) (m m' : Store) : Prop := ∀ x, ¬ k.Scratch x → m' x = m x

/-- The `n` bytes at `a` are in neither. -/
def Call.Apart (k : Call) (a n : Nat) : Prop := ∀ x, a ≤ x → x < a + n → ¬ k.Scratch x

/-- The caller's output is on the console, and the kernel's copy is not in the caller's array. -/
structure Call.Ready (k : Call) : Prop where
  console : OnConsole k.process 1
  apart : k.tmp + tmpSize ≤ k.temBuf ∨ k.temBuf + tmpSize < k.tmp

section
variable {k : Call} {m m' m'' : Store} {a n fuel : Nat} {s : List Byte} {p : Output}

theorem Call.Keeps.refl (k : Call) (m : Store) : k.Keeps m m := fun _ _ => rfl

theorem Call.Keeps.trans (h : k.Keeps m m') (h' : k.Keeps m' m'') : k.Keeps m m'' :=
  fun x hx => (h' x hx).trans (h x hx)

theorem Call.Keeps.agree (h : k.Keeps m m') (ha : k.Apart a n) : Agree m m' a n :=
  fun x hlo hhi => h x (ha x hlo hhi)

theorem keeps_tmp (h : Within m m' k.tmp tmpSize) : k.Keeps m m' := by
  intro x hx
  refine h x ?_
  by_contra hc
  exact hx (Or.inl ⟨by omega, by omega⟩)

theorem Call.Apart.mono (h : k.Apart a n) {b j : Nat} (hlo : a ≤ b) (hhi : b + j ≤ a + n) : k.Apart b j :=
  fun x hx hlt => h x (by omega) (by omega)

/-- `tmp` does not lie where the kernel copies it to. -/
theorem tmp_apart (hk : k.Ready) (hn : n ≤ tmpSize) : k.temBuf + n ≤ k.tmp ∨ k.tmp + n ≤ k.temBuf := by
  obtain h | h := hk.apart
  · right
    omega
  · left
    omega

/-! ### One call of `write` -/

/-- The kernel's copy ends at the first zero. -/
theorem strncpy_string (h : Spells m a s) (hs : s.length ≤ n) (hn : n < 2 ^ 31)
    (hd : k.temBuf + s.length ≤ a ∨ a + s.length ≤ k.temBuf) :
    strncpy m k.temBuf a (BitVec.ofNat 32 n).toInt = put m k.temBuf (s ++ [0]) := by
  have hlen : strlen m a = s.length := strlen_spells h (by unfold intMax; omega)
  unfold strncpy
  dsimp only
  rw [hlen, toInt_small hn, min_eq_left (by exact_mod_cast hs), Int.toNat_natCast]
  exact copyFrom_put h.holds hd

/-- A call whose copy is a string without percent signs prints that string. -/
theorem write_copied (hk : k.Ready) (hcopy : strncpy p.mem k.temBuf a (BitVec.ofNat 32 n).toInt = put p.mem k.temBuf (s ++ [0]))
    (hz : (0 : Byte) ∉ s) (hplain : (0x25 : Byte) ∉ s) (hs : s.length ≤ n) (hn : n ≤ tmpSize) (hfuel : tmpSize < fuel) :
    ∃ m', k.write fuel a n p = some {p with mem := m', out := p.out ++ s} ∧ k.Keeps p.mem m' := by
  have hall : Holds (put p.mem k.temBuf (s ++ [0])) k.temBuf (s ++ [0]) := put_holds ..
  have hspell : Spells (put (put p.mem k.temBuf (s ++ [0])) (k.temBuf + n) [0]) k.temBuf s := by
    obtain hlt | heq := Nat.lt_or_eq_of_le hs
    · refine Spells.congr ⟨hall, hz⟩ (put_agree _ _ (Or.inr (by omega)))
    · rw [← heq, put_same (holds_append.mp hall).2]
      exact ⟨hall, hz⟩
  have hprint := printkLoop_plain (f := k.frame) (p := .none) hspell hplain
    (show s.length < fuel by omega)
  have hwithin : Within p.mem (put (put p.mem k.temBuf (s ++ [0])) (k.temBuf + n) [0]) k.temBuf (tmpSize + 1) := by
    refine (put_within _ _ (Nat.le_refl _) ?_).trans (put_within _ _ (by omega) ?_)
    · rw [List.length_append, List.length_singleton]
      omega
    · rw [List.length_singleton]
      omega
  refine ⟨_, ?_, fun x hx => hwithin x ?_⟩
  · unfold Call.write
    rw [hk.console.sysWrite_eq, hcopy, printk, hprint]
    rfl
  · by_contra hc
    exact hx (Or.inr ⟨by omega, by omega⟩)

/-- The string in `tmp`. -/
theorem write_tmp (hk : k.Ready) (h : Spells p.mem k.tmp s) (hplain : (0x25 : Byte) ∉ s) (hs : s.length < tmpSize)
    (hfuel : tmpSize < fuel) :
    ∃ m', k.write fuel k.tmp tmpSize p = some {p with mem := m', out := p.out ++ s} ∧ k.Keeps p.mem m' :=
  write_copied hk (strncpy_string h hs.le (by decide) (tmp_apart hk hs.le)) h.2 hplain hs.le (Nat.le_refl _) hfuel

/-- One character. -/
theorem write_char (hk : k.Ready) {c : Byte} (hc : p.mem a = c) (hz : c ≠ 0) (hplain : c ≠ 0x25)
    (hd : k.temBuf + 1 ≤ a ∨ a + 1 ≤ k.temBuf) (hfuel : tmpSize < fuel) :
    ∃ m', k.write fuel a 1 p = some {p with mem := m', out := p.out ++ [c]} ∧ k.Keeps p.mem m' := by
  have hholds : Holds p.mem a [c] := holds_cons.mpr ⟨hc, holds_nil ..⟩
  have hzero : (0 : Byte) ∉ [c] := by simpa using hz.symm
  exact write_copied hk (strncpy_holds hholds hzero (show 1 < 2 ^ 31 by decide) hd) hzero (by simpa using hplain.symm) (Nat.le_refl _)
    (by decide) hfuel

theorem apart_char (h : k.Apart a 1) : k.temBuf + 1 ≤ a ∨ a + 1 ≤ k.temBuf := by
  by_contra hc
  exact h a (Nat.le_refl _) (by omega) (Or.inr ⟨by omega, by unfold tmpSize; omega⟩)

/-- A string, one character at a time. -/
theorem writeString_eq (hk : k.Ready) {t rounds : Nat} (h : Spells p.mem t s) (hplain : (0x25 : Byte) ∉ s)
    (hapart : k.Apart t (s.length + 1)) (hrounds : s.length < rounds) (hfuel : tmpSize < fuel) :
    ∃ m', k.writeString fuel rounds t p = some {p with mem := m', out := p.out ++ s} ∧ k.Keeps p.mem m' := by
  induction s generalizing t rounds p with
  | nil =>
    obtain ⟨rounds, rfl⟩ := Nat.exists_eq_succ_of_ne_zero (by omega : rounds ≠ 0)
    refine ⟨p.mem, ?_, .refl k _⟩
    rw [Call.writeString, if_pos (spells_nil h), List.append_nil]
  | cons c s ih =>
    rw [List.length_cons] at hapart hrounds
    obtain ⟨rounds, rfl⟩ := Nat.exists_eq_succ_of_ne_zero (by omega : rounds ≠ 0)
    obtain ⟨hc, hnz, hspell⟩ := spells_cons h
    have hnp : c ≠ 0x25 := fun he => hplain (he ▸ List.mem_cons_self ..)
    have hrest : k.Apart (t + 1) (s.length + 1) := hapart.mono (by omega) (by omega)
    obtain ⟨m₁, hwrite, hkeeps⟩ := write_char hk hc hnz hnp (apart_char (hapart.mono (Nat.le_refl _) (by omega))) hfuel
    obtain ⟨m', hloop, hkeeps'⟩ := ih (p := {p with mem := m₁, out := p.out ++ [c]}) (hspell.congr (hkeeps.agree hrest))
      (fun hm => hplain (List.mem_cons_of_mem c hm)) hrest (show s.length < rounds by omega)
    refine ⟨m', ?_, hkeeps.trans hkeeps'⟩
    rw [Call.writeString, hc, if_neg hnz, hwrite, Option.bind_some, hloop]
    simp

/-! ### Pieces -/

/-- The `i`-th argument of the call is the piece's, and nothing it prints is a percent sign. A string
does not lie in the arrays. -/
def Call.Takes (k : Call) (m : Store) (i : Nat) : Piece → Prop
  | .plain c => c ≠ 0 ∧ c ≠ 0x25
  | .char c => BitVec.ofInt 8 (k.int i) = c ∧ c ≠ 0 ∧ c ≠ 0x25
  | .string s => Spells m (k.va i).toNat s ∧ (0x25 : Byte) ∉ s ∧ k.Apart (k.va i).toNat (s.length + 1)
  | .int n => k.int i = n ∧ -2 ^ 31 < n
  | .hex n => k.int i = n ∧ 0 ≤ n
  | .percent | .pointer _ => False

/-- The arguments of the call, from the `i`-th on, are those of the pieces. -/
def Call.Supplied (k : Call) (m : Store) : Nat → List Piece → Prop
  | _, [] => True
  | i, p :: ps => k.Takes m i p ∧ k.Supplied m (i + p.arity) ps

theorem Call.Takes.keep {i : Nat} {piece : Piece} (h : k.Takes m i piece) (hm : k.Keeps m m') : k.Takes m' i piece := by
  cases piece with
  | string s =>
    obtain ⟨hspell, hplain, hapart⟩ := h
    exact ⟨hspell.congr (hm.agree hapart), hplain, hapart⟩
  | _ => exact h

theorem Call.Supplied.keep {i : Nat} {ps : List Piece} (h : k.Supplied m i ps) (hm : k.Keeps m m') : k.Supplied m' i ps := by
  induction ps generalizing i with
  | nil => trivial
  | cons piece ps ih => exact ⟨h.1.keep hm, ih h.2⟩

/-- What the call has done for some pieces. -/
structure Call.Prints (k : Call) (p q : Output) (xs : List Byte) (n : Nat) : Prop where
  out : q.out = p.out ++ xs
  args : q.args = p.args + n
  printed : q.printed = p.printed
  keeps : k.Keeps p.mem q.mem

theorem call_int_range (k : Call) (i : Nat) : -2 ^ 31 ≤ k.int i ∧ k.int i < 2 ^ 31 := frame_int_range ⟨k.va, fun _ => 0⟩ i

theorem percent_not_mem_numeral {base : Nat} (hb : 1 < base) (hle : base ≤ 16) (n : Nat) : (0x25 : Byte) ∉ numeral base n := by
  have hdigit : ∀ d < 16, digitChar d ≠ 0x25 := by decide
  rw [numeral_eq_map]
  intro hmem
  obtain ⟨d, hd, hc⟩ := List.mem_map.mp hmem
  have hlt := topDigits_lt hb hd
  exact hdigit d (by omega) hc

theorem percent_not_mem_decimal (n : Int) : (0x25 : Byte) ∉ decimal n := by
  have hnumeral := percent_not_mem_numeral (show 1 < 10 by decide) (by decide) n.natAbs
  unfold decimal
  split
  · simpa using hnumeral
  · exact hnumeral

/-- A number that is not negative, as `xtoa` leaves it in `tmp`. -/
theorem xtoa_tmp (m : Store) (buff : Nat) {n : Nat} (hn : n < 2 ^ 31) :
    (numeral 16 n).length < tmpSize ∧ Within m (xtoa m n buff) buff tmpSize := by
  by_cases hn0 : n = 0
  · subst hn0
    refine ⟨by decide, ?_⟩
    show Within m (storeZero m buff) buff tmpSize
    rw [storeZero_eq]
    exact put_within m _ (Nat.le_refl _) (Nat.add_le_add_left (by decide) _)
  · have hhi : (n : Int) < 2 ^ 31 := by exact_mod_cast hn
    have hlen : (digitChars 16 n).length ≤ 8 := (length_digitChars_le (by decide)).mpr (by omega)
    have hsize : tmpSize = 15 := rfl
    refine ⟨by rw [numeral_pos hn0, List.length_reverse]; omega, ?_⟩
    rw [xtoa_with, xtoaWith_eq strrev m buff hhi (by exact_mod_cast hn0)]
    refine (strrev_put m buff (zero_not_mem_digitChars (by decide) (by decide) n) (length_hex_lt hhi)).2.mono
      (Nat.le_refl _) ?_
    show buff + ((digitChars 16 n).length + 1) ≤ _
    omega

/-- A conversion prints its piece. -/
theorem convert_prints (hk : k.Ready) {piece : Piece} {letter : Byte} (htext : piece.text = [0x25, letter])
    (hletter : p.mem a = letter) (h : k.Takes p.mem p.args piece) (hfuel : tmpSize + piece.rendered.length < fuel) :
    ∃ q, k.convert fuel a p = some q ∧ k.Prints p q piece.rendered piece.arity := by
  obtain ⟨hlo, hhi⟩ := call_int_range k p.args
  have hsize : tmpSize = 15 := rfl
  unfold Call.convert
  rw [hletter]
  cases piece with
  | plain c => cases htext
  | percent => exact h.elim
  | pointer n => exact h.elim
  | int n =>
    cases htext
    obtain ⟨rfl, hmin⟩ := h
    obtain ⟨m₁, hitoa, hspell, hwithin⟩ := itoa_spells p.mem k.tmp hmin hhi
    have hlen := length_decimal_le hmin hhi
    obtain ⟨m', hwrite, hkeeps⟩ := write_tmp (p := {p with mem := m₁, args := p.args + 1}) hk hspell
      (percent_not_mem_decimal _) (by omega) (show tmpSize < fuel by omega)
    refine ⟨{p with mem := m', out := p.out ++ decimal (k.int p.args), args := p.args + 1}, ?_, rfl, rfl, rfl,
      (keeps_tmp (hwithin.mono (Nat.le_refl _) (by omega))).trans hkeeps⟩
    show (itoa p.mem (k.int p.args) k.tmp).bind _ = _
    rw [hitoa]
    exact hwrite
  | hex n =>
    cases htext
    obtain ⟨hn, h0⟩ := h
    obtain ⟨n, rfl⟩ := Int.eq_ofNat_of_zero_le h0
    have hlt : n < 2 ^ 31 := by omega
    obtain ⟨hlen, hwithin⟩ := xtoa_tmp p.mem k.tmp hlt
    have hrendered : Piece.rendered (.hex n) = numeral 16 n := by
      have hnat : Piece.unsigned n = n := by
        rw [Piece.unsigned, BitVec.toNat_ofInt]
        omega
      rw [Piece.rendered, hnat, minus, if_neg (by omega), List.nil_append]
    obtain ⟨m', hwrite, hkeeps⟩ := write_tmp (p := {p with mem := xtoa p.mem n k.tmp, args := p.args + 1}) hk
      (xtoa_spells p.mem k.tmp hlt) (percent_not_mem_numeral (by decide) (by decide) n) hlen
      (show tmpSize < fuel by omega)
    refine ⟨{p with mem := m', out := p.out ++ numeral 16 n, args := p.args + 1}, ?_, by rw [hrendered], rfl, rfl,
      (keeps_tmp hwithin).trans hkeeps⟩
    show k.write fuel k.tmp tmpSize {p with mem := xtoa p.mem (k.int p.args) k.tmp, args := p.args + 1} = _
    rw [hn]
    exact hwrite
  | char c =>
    cases htext
    obtain ⟨hc, hz, hplain⟩ := h
    have hcell : put (put p.mem k.tmp [c]) (k.tmp + 1) [0] k.tmp = c :=
      (put_below _ _ (by omega)).trans (put_at _ k.tmp [c] (i := 0) (Nat.lt_succ_self 0))
    have hwithin : Within p.mem (put (put p.mem k.tmp [c]) (k.tmp + 1) [0]) k.tmp tmpSize :=
      (put_within _ _ (Nat.le_refl _) (by rw [List.length_singleton]; omega)).trans
        (put_within _ _ (by omega) (by rw [List.length_singleton]; omega))
    obtain ⟨m', hwrite, hkeeps⟩ := write_char
      (p := {p with mem := put (put p.mem k.tmp [c]) (k.tmp + 1) [0], args := p.args + 1}) hk hcell hz hplain
      (tmp_apart hk (by decide)) (show tmpSize < fuel by omega)
    refine ⟨{p with mem := m', out := p.out ++ [c], args := p.args + 1}, ?_, rfl, rfl, rfl,
      (keeps_tmp hwithin).trans hkeeps⟩
    show k.write fuel k.tmp 1 {p with
      mem := put (put p.mem k.tmp [BitVec.ofInt 8 (k.int p.args)]) (k.tmp + 1) [0], args := p.args + 1} = _
    rw [hc]
    exact hwrite
  | string s =>
    cases htext
    obtain ⟨hspell, hplain, hapart⟩ := h
    obtain ⟨m', hwrite, hkeeps⟩ := writeString_eq (p := {p with args := p.args + 1}) hk hspell hplain hapart
      (show s.length < fuel by rw [Piece.rendered] at hfuel; omega) (show tmpSize < fuel by omega)
    exact ⟨_, hwrite, rfl, rfl, rfl, hkeeps⟩

/-! ### The whole format -/

/-- A piece is a character, or a percent sign and a letter. -/
theorem Call.Takes.text_cases {i : Nat} {piece : Piece} (h : k.Takes m i piece) :
    (∃ c, piece = .plain c ∧ c ≠ 0 ∧ c ≠ 0x25) ∨ ∃ letter, piece.text = [0x25, letter] := by
  cases piece with
  | plain c => exact Or.inl ⟨c, rfl, h⟩
  | _ => exact Or.inr ⟨_, rfl⟩

theorem loop_pieces (hk : k.Ready) {ps : List Piece} {rounds : Nat} (h : Spells p.mem a (formatText ps))
    (hapart : k.Apart a ((formatText ps).length + 1)) (hargs : k.Supplied p.mem p.args ps)
    (hrounds : (formatText ps).length < rounds) (hfuel : tmpSize + (render ps).length < fuel) :
    ∃ q, k.loop fuel rounds a p = some q ∧ q.out = p.out ++ render ps ∧ q.args = p.args + arguments ps ∧
      q.printed = p.printed + ps.length ∧ k.Keeps p.mem q.mem := by
  induction ps generalizing a rounds p with
  | nil =>
    obtain ⟨rounds, rfl⟩ := Nat.exists_eq_succ_of_ne_zero (by omega : rounds ≠ 0)
    refine ⟨p, ?_, (List.append_nil _).symm, rfl, rfl, .refl k _⟩
    rw [Call.loop, if_pos (spells_nil h)]
  | cons piece ps ih =>
    obtain ⟨rounds, rfl⟩ := Nat.exists_eq_succ_of_ne_zero (by omega : rounds ≠ 0)
    obtain ⟨hpiece, hrest⟩ := hargs
    rw [formatText_cons] at h hapart hrounds
    rw [List.length_append] at hrounds hapart
    rw [render_cons, List.length_append] at hfuel
    rw [render_cons, arguments_cons, List.length_cons, Call.loop]
    obtain ⟨c, rfl, hc, hpercent⟩ | ⟨letter, htext⟩ := hpiece.text_cases
    · obtain ⟨hbyte, _, hspell⟩ := spells_cons h
      have hlen : (Piece.text (.plain c)).length = 1 := rfl
      have hnext : k.Apart (a + 1) ((formatText ps).length + 1) := hapart.mono (by omega) (by omega)
      obtain ⟨m₁, hwrite, hkeeps⟩ := write_char hk hbyte hc hpercent (apart_char (hapart.mono (Nat.le_refl _) (by omega)))
        (show tmpSize < fuel by omega)
      obtain ⟨q, hq, hout, hargs, hprinted, hkeeps'⟩ := ih
        (p := {p with mem := m₁, out := p.out ++ [c], printed := p.printed + 1}) (hspell.congr (hkeeps.agree hnext)) hnext
        (hrest.keep hkeeps) (show (formatText ps).length < rounds by omega) (by omega)
      refine ⟨q, ?_, ?_, ?_, ?_, hkeeps.trans hkeeps'⟩
      · rw [hbyte, if_neg hc, if_neg hpercent, hwrite]
        exact hq
      · rw [hout, List.append_assoc]
        rfl
      · rw [hargs]
        exact congrArg (p.args + ·) (Nat.zero_add _).symm
      · rw [hprinted]
        dsimp only
        omega
    · rw [htext] at h hrounds hapart
      obtain ⟨hbyte, hnz, hspell⟩ := spells_cons h
      obtain ⟨hbyte', _, hspell'⟩ := spells_cons hspell
      have hlen : ([0x25, letter] : List Byte).length = 2 := rfl
      have hnext : k.Apart (a + 1 + 1) ((formatText ps).length + 1) := hapart.mono (by omega) (by omega)
      obtain ⟨q₁, hq₁, hprints⟩ := convert_prints hk htext hbyte' hpiece
        (show tmpSize + piece.rendered.length < fuel by omega)
      have hrest₁ : k.Supplied q₁.mem q₁.args ps := by
        rw [hprints.args]
        exact hrest.keep hprints.keeps
      obtain ⟨q, hq, hout, hargs, hprinted, hkeeps'⟩ := ih (p := {q₁ with printed := q₁.printed + 1})
        (hspell'.congr (hprints.keeps.agree hnext)) hnext hrest₁ (show (formatText ps).length < rounds by omega)
        (by omega)
      refine ⟨q, ?_, ?_, ?_, ?_, hprints.keeps.trans hkeeps'⟩
      · rw [hbyte, if_neg hnz, if_pos rfl, hq₁, Option.bind_some]
        exact hq
      · rw [hout, ← List.append_assoc, ← hprints.out]
      · rw [hargs, ← Nat.add_assoc, ← hprints.args]
      · rw [hprinted]
        dsimp only
        rw [hprints.printed]
        omega

/-- On the console `printf` prints the pieces of its format in order, each with its own argument, by
as many system calls as it takes; it returns the number of pieces, and writes to nothing but its
array and the kernel's copy. -/
theorem printf_renders (k : Call) (m : Store) (format fuel : Nat) (ps : List Piece) (hk : k.Ready)
    (hargs : k.Supplied m 0 ps) (hformat : Spells m format (formatText ps))
    (hapart : k.Apart format ((formatText ps).length + 1))
    (hfuel : (formatText ps).length + tmpSize + (render ps).length < fuel) :
    ∃ p, printf k fuel m format = some p ∧ p.out = render ps ∧ p.args = arguments ps ∧ p.printed = ps.length ∧
      k.Keeps m p.mem := by
  have hkeeps : k.Keeps m (put m k.tmp (List.replicate tmpSize 0)) := keeps_tmp (put_within _ _ (Nat.le_refl _)
    (by rw [List.length_replicate]))
  obtain ⟨p, hp, hout, hcount, hprinted, hkeeps'⟩ := loop_pieces (p := ⟨put m k.tmp (List.replicate tmpSize 0), [], 0, 0⟩) hk
    (hformat.congr (hkeeps.agree hapart)) hapart (hargs.keep hkeeps) (show (formatText ps).length < fuel by omega)
    (show tmpSize + (render ps).length < fuel by omega)
  exact ⟨p, hp, hout, hcount.trans (Nat.zero_add _), hprinted.trans (Nat.zero_add _), hkeeps.trans hkeeps'⟩

end

/-- A program whose output is on the console. -/
def consoleCall (n : BitVec 64) : Call := ⟨fun _ => n, 8192, 65536, Task.create, numberFrame 0⟩

theorem printf_renders_minus_42 :
    ∃ p, printf (consoleCall (-42)) 21 percentStore 0 = some p ∧ p.out = render [.int (-42)] ∧
      p.args = arguments [.int (-42)] ∧ p.printed = [Piece.int (-42)].length ∧ (consoleCall (-42)).Keeps percentStore p.mem :=
  printf_renders (consoleCall (-42)) percentStore 0 21 [.int (-42)] ⟨create_onConsole, Or.inl (by decide)⟩
    ⟨⟨by decide, by decide⟩, trivial⟩ percent_spells
    (fun x _ hx hc => by
      have hlt : x < 3 := hx
      obtain ⟨hlo, _⟩ | ⟨hlo, _⟩ := hc
      · exact absurd (show 8192 ≤ x from hlo) (by omega)
      · exact absurd (show 65536 ≤ x from hlo) (by omega)) (by decide)

end Sbnix.Libc
