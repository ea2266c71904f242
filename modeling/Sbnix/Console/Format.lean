import Sbnix.Console.Write

/-! Formats (`sys/printf.c`, lines 165 to 221).

A format is a list of pieces, each a character or a conversion with the argument that is
passed for it. `printk_renders` says that `printk` prints the pieces one after the other:
it takes the arguments in order and no others, and reads the format up to its end. What
it returns is the number of pieces, not that of the characters. -/
namespace Sbnix.Console
open Library Library.Store Files

/-- A piece of a format. A conversion comes with its argument. -/
inductive Piece where
  | plain (c : Byte)
  | percent
  | char (c : Byte)
  | string (s : List Byte)
  | int (n : Int)
  | hex (n : Int)
  | pointer (n : Int)
  deriving DecidableEq

namespace Piece

/-- The piece in the format. -/
def text : Piece → List Byte
  | plain c => [c]
  | percent => [0x25, 0x25]
  | char _ => [0x25, 0x63]
  | string _ => [0x25, 0x73]
  | int _ => [0x25, 0x64]
  | hex _ => [0x25, 0x78]
  | pointer _ => [0x25, 0x70]

/-- The number of arguments it takes. -/
def arity : Piece → Nat
  | plain _ | percent => 0
  | _ => 1

/-- An `int` as the unsigned number of 64 bits it is converted to. -/
def unsigned (n : Int) : Nat := (BitVec.ofInt 64 n).toNat

/-- What is printed for it. -/
def rendered : Piece → List Byte
  | plain c | char c => [c]
  | percent => [0x25]
  | string s => s
  | int n => decimal n
  | hex n => minus n ++ numeral 16 (unsigned n)
  | pointer n => [0x30, 0x78] ++ numeral 16 (unsigned n)

end Piece

open Piece

/-- The `i`-th argument of the call is the piece's. A number for `%d` is not negative. -/
def Takes (m : Store) (f : Frame) (i : Nat) : Piece → Prop
  | .plain c => c ≠ 0 ∧ c ≠ 0x25
  | .percent => True
  | .char c => BitVec.ofInt 8 (f.int i) = c
  | .string s => Spells m (f.va i).toNat s ∧ s.length < 2 ^ 64
  | .int n => f.int i = n ∧ 0 ≤ n
  | .hex n | .pointer n => f.int i = n

/-- The arguments of the call, from the `i`-th on, are those of the pieces. -/
def Supplied (m : Store) (f : Frame) : Nat → List Piece → Prop
  | _, [] => True
  | i, p :: ps => Takes m f i p ∧ Supplied m f (i + p.arity) ps

def formatText (ps : List Piece) : List Byte := ps.flatMap text
def render (ps : List Piece) : List Byte := ps.flatMap rendered
def arguments (ps : List Piece) : Nat := (ps.map arity).sum

theorem formatText_cons (p : Piece) (ps : List Piece) : formatText (p :: ps) = p.text ++ formatText ps := List.flatMap_cons

theorem render_cons (p : Piece) (ps : List Piece) : render (p :: ps) = p.rendered ++ render ps := List.flatMap_cons

theorem arguments_cons (p : Piece) (ps : List Piece) : arguments (p :: ps) = p.arity + arguments ps := rfl

/-! ### One conversion -/

section
variable {m : Store} {f : Frame} {p q r : Printed} {xs ys : List Byte}

/-- What `printk` has done for some pieces: it has printed `xs` and taken `n` arguments, and has
stayed inside of `numArr`. -/
structure Adds (p q : Printed) (xs : List Byte) (n : Nat) : Prop where
  out : q.out = p.out ++ xs
  args : q.args = p.args + n
  inside : (∀ k ∈ p.touched, k < intSize) → ∀ k ∈ q.touched, k < intSize

/-- The counters of the loop do not matter. -/
theorem Adds.refl (p : Printed) (reads : List Nat) (printed : Nat) :
    Adds p {p with reads := reads, printed := printed} [] 0 := ⟨(List.append_nil _).symm, rfl, fun h => h⟩

theorem Adds.trans {n k : Nat} (h : Adds p q xs n) (h' : Adds q r ys k) : Adds p r (xs ++ ys) (n + k) where
  out := by rw [h'.out, h.out, List.append_assoc]
  args := by rw [h'.args, h.args, Nat.add_assoc]
  inside := fun hp => h'.inside (h.inside hp)

/-- An `int` has few enough digits for `numArr`, unless it is negative and printed in base 10. -/
theorem digits_int {base : Nat} {n : Int} (hlo : -2 ^ 31 ≤ n) (hhi : n < 2 ^ 31)
    (h : base = 16 ∨ base = 10 ∧ 0 ≤ n) :
    1 < base ∧ (Nat.digits base (BitVec.ofInt 64 n).toNat).length < intSize := by
  refine digits_fit (h.imp_right fun ⟨hbase, hn⟩ => ⟨hbase, ?_⟩)
  rw [BitVec.toNat_ofInt]
  omega

theorem frame_int_range (f : Frame) (i : Nat) : -2 ^ 31 ≤ f.int i ∧ f.int i < 2 ^ 31 := by
  unfold Frame.int
  generalize (f.va i).setWidth 32 = n
  have hlo := BitVec.le_toInt n
  have hhi := BitVec.toInt_lt (x := n)
  exact ⟨by simpa using hlo, by simpa using hhi⟩

theorem number_adds {base : Nat} {n : BitVec 64} (hb : 1 < base) (hlen : (Nat.digits base n.toNat).length < intSize)
    (sign : List Byte) : Adds p (p.number sign (printNumber f.stack n base)) (sign ++ numeral base n.toNat) 1 where
  out := by
    show p.out ++ (sign ++ (printNumber f.stack n base).out) = _
    rw [printNumber_numeral hb hlen]
  args := rfl
  inside := fun hp k hk => by
    obtain hk | hk := List.mem_append.mp hk
    · exact hp k hk
    · exact Nat.lt_of_le_of_lt (printNumber_touched hb hk) hlen

theorem pointer_adds {n : BitVec 64} :
    Adds p (p.number [] (iPrintf f.stack n 16 true)) ([0x30, 0x78] ++ numeral 16 n.toNat) 1 := by
  obtain ⟨hb, hlen⟩ := digits_fit (n := n) (Or.inl rfl)
  obtain ⟨hout, htouched⟩ := iPrintf_xflag f.stack n 16
  refine ⟨?_, rfl, fun hp k hk => ?_⟩
  · show p.out ++ ([] ++ (iPrintf f.stack n 16 true).out) = _
    rw [hout, printNumber_numeral hb hlen]
    rfl
  · obtain hk | hk := List.mem_append.mp hk
    · exact hp k hk
    · rw [htouched] at hk
      exact Nat.lt_of_le_of_lt (printNumber_touched hb hk) hlen

theorem stringAt_spells {t : Nat} {s : List Byte} (h : Spells m t s) (hs : s.length < 2 ^ 64) :
    stringAt m t = some s := by
  rw [stringAt, scan_spells h hs, if_pos hs]
  exact congrArg some h.holds

theorem decimal_unsigned {n : Int} (h0 : 0 ≤ n) (hn : n < 2 ^ 31) : minus n ++ numeral 10 (unsigned n) = decimal n := by
  have hnat : unsigned n = n.natAbs := by
    rw [unsigned, BitVec.toNat_ofInt]
    omega
  rw [minus, decimal, hnat, if_neg (by omega), if_neg (by omega), List.nil_append]

/-- A conversion prints its piece, and takes its argument. -/
theorem convert_adds {piece : Piece} {letter : Byte} (htext : piece.text = [0x25, letter])
    (h : Takes m f p.args piece) : ∃ q, convert m f letter p = some q ∧ Adds p q piece.rendered piece.arity := by
  obtain ⟨hlo, hhi⟩ := frame_int_range f p.args
  cases piece with
  | plain c => cases htext
  | percent =>
    cases htext
    exact ⟨_, rfl, rfl, rfl, fun h => h⟩
  | char c =>
    cases htext
    refine ⟨_, rfl, ?_, rfl, fun h => h⟩
    rw [rendered, ← show BitVec.ofInt 8 (f.int p.args) = c from h]
  | string s =>
    cases htext
    refine ⟨{p with out := p.out ++ s, args := p.args + 1}, ?_, rfl, rfl, fun h => h⟩
    show (stringAt m (f.va p.args).toNat).map _ = _
    rw [stringAt_spells h.1 h.2]
    rfl
  | int n =>
    cases htext
    obtain ⟨rfl, h0⟩ := h
    obtain ⟨hb, hlen⟩ := digits_int hlo hhi (Or.inr ⟨rfl, h0⟩)
    refine ⟨_, rfl, ?_⟩
    rw [rendered, ← decimal_unsigned h0 hhi]
    exact number_adds hb hlen _
  | hex n =>
    cases htext
    obtain rfl : f.int p.args = n := h
    obtain ⟨hb, hlen⟩ := digits_int hlo hhi (Or.inl rfl)
    exact ⟨_, rfl, number_adds hb hlen _⟩
  | pointer n =>
    cases htext
    obtain rfl : f.int p.args = n := h
    exact ⟨_, rfl, pointer_adds⟩

/-! ### The whole format -/

/-- A piece is a character, or a percent sign and a letter. -/
theorem text_cases {i : Nat} {piece : Piece} (h : Takes m f i piece) :
    (∃ c, piece = .plain c ∧ c ≠ 0 ∧ c ≠ 0x25) ∨ ∃ letter, piece.text = [0x25, letter] ∧ letter ≠ 0 := by
  cases piece with
  | plain c => exact Or.inl ⟨c, rfl, h⟩
  | _ => exact Or.inr ⟨_, rfl, by decide⟩

theorem reads_append (reads : List Nat) (a n k : Nat) :
    reads ++ List.range' a n ++ List.range' (a + n) (k + 1) = reads ++ List.range' a (n + k + 1) := by
  rw [List.append_assoc, List.range'_append_1, Nat.add_assoc]

theorem zero_not_mem_formatText {ps : List Piece} {i : Nat} (h : Supplied m f i ps) : (0 : Byte) ∉ formatText ps := by
  induction ps generalizing i with
  | nil => exact List.not_mem_nil
  | cons piece ps ih =>
    obtain ⟨hpiece, hrest⟩ := h
    rw [formatText_cons, List.mem_append, not_or]
    refine ⟨?_, ih hrest⟩
    obtain ⟨c, rfl, hc, _⟩ | ⟨letter, htext, hletter⟩ := text_cases hpiece
    · simpa [text] using hc.symm
    · rw [htext]
      simpa using hletter.symm

/-- The loop over the pieces, from any state of the call. -/
theorem printkLoop_pieces {ps : List Piece} {a fuel : Nat} (h : Spells m a (formatText ps))
    (hargs : Supplied m f p.args ps) (hfuel : (formatText ps).length < fuel) :
    ∃ q, printkLoop m f fuel a p = some q ∧ Adds p q (render ps) (arguments ps) ∧
      q.reads = p.reads ++ List.range' a ((formatText ps).length + 1) ∧ q.printed = p.printed + ps.length := by
  induction ps generalizing a fuel p with
  | nil =>
    obtain ⟨fuel, rfl⟩ := Nat.exists_eq_succ_of_ne_zero (by omega : fuel ≠ 0)
    refine ⟨{p with reads := p.reads ++ [a]}, ?_, Adds.refl p _ _, rfl, rfl⟩
    rw [printkLoop]
    exact if_pos (spells_nil h)
  | cons piece ps ih =>
    obtain ⟨fuel, rfl⟩ := Nat.exists_eq_succ_of_ne_zero (by omega : fuel ≠ 0)
    obtain ⟨hpiece, hrest⟩ := hargs
    rw [formatText_cons] at h hfuel ⊢
    rw [List.length_append] at hfuel
    rw [render_cons, arguments_cons, List.length_cons, printkLoop]
    dsimp only
    obtain ⟨c, rfl, hc, hpercent⟩ | ⟨letter, htext, hletter⟩ := text_cases hpiece
    · obtain ⟨hbyte, _, hspell⟩ := spells_cons h
      have hlen : (text (.plain c)).length = 1 := rfl
      obtain ⟨q, hq, hadds, hreads, hprinted⟩ := ih
        (p := {p with out := p.out ++ [c], reads := p.reads ++ [a], printed := p.printed + 1}) hspell hrest
        (show (formatText ps).length < fuel by omega)
      refine ⟨q, by rw [hbyte, if_neg hc, if_neg hpercent, hq], ?_, ?_, by rw [hprinted]; dsimp only; omega⟩
      · have hhere : Adds p {p with out := p.out ++ [c]} [c] 0 := ⟨rfl, rfl, fun h => h⟩
        exact hhere.trans ⟨hadds.out, hadds.args, hadds.inside⟩
      · rw [hreads, List.length_append, hlen]
        exact reads_append p.reads a 1 _
    · rw [htext] at h hfuel ⊢
      obtain ⟨hbyte, hnz, hspell⟩ := spells_cons h
      obtain ⟨hbyte', _, hspell'⟩ := spells_cons hspell
      obtain ⟨q₁, hq₁, hadds₁⟩ := convert_adds (p := {p with reads := p.reads ++ [a] ++ [a + 1]}) htext hpiece
      obtain ⟨hreads₁, hprinted₁⟩ := convert_keeps hq₁
      have hlen : ([0x25, letter] : List Byte).length = 2 := rfl
      have hrest₁ : Supplied m f q₁.args ps := by
        rw [hadds₁.args]
        exact hrest
      obtain ⟨q, hq, hadds, hreads, hprinted⟩ := ih (p := {q₁ with printed := q₁.printed + 1}) hspell' hrest₁
        (show (formatText ps).length < fuel by omega)
      refine ⟨q, by rw [hbyte, if_neg hnz, if_pos rfl, hbyte', hq₁, Option.bind_some, hq], ?_, ?_,
        by rw [hprinted]; dsimp only at hprinted₁ ⊢; omega⟩
      · have hhere : Adds p q₁ piece.rendered piece.arity := ⟨hadds₁.out, hadds₁.args, hadds₁.inside⟩
        exact hhere.trans ⟨hadds.out, hadds.args, hadds.inside⟩
      · dsimp only at hreads hreads₁
        rw [hreads, hreads₁, List.length_append, hlen, List.append_assoc p.reads]
        exact reads_append p.reads a 2 _

/-- `printk` prints the pieces of its format in order, each with its own argument. It takes no
argument beyond these, reads nothing behind the format, stays inside of `numArr`, and returns the
number of pieces. -/
theorem printk_renders (m : Store) (f : Frame) (format fuel : Nat) (ps : List Piece) (hargs : Supplied m f 0 ps)
    (hformat : Holds m format (formatText ps ++ [0])) (hfuel : (formatText ps).length < fuel) :
    ∃ p, printk m f format fuel = some p ∧ p.out = render ps ∧ p.args = arguments ps ∧ p.printed = ps.length ∧
      p.reads = List.range' format ((formatText ps).length + 1) ∧ ∀ k ∈ p.touched, k < intSize := by
  obtain ⟨p, hp, hadds, hreads, hprinted⟩ := printkLoop_pieces (p := .none) ⟨hformat, zero_not_mem_formatText hargs⟩
    hargs hfuel
  refine ⟨p, hp, hadds.out, ?_, ?_, hreads, hadds.inside (by simp [Printed.none])⟩
  · rw [hadds.args]
    exact Nat.zero_add _
  · rw [hprinted]
    exact Nat.zero_add _

end

theorem printk_renders_percent :
    ∃ p, printk (put percentStore 2 [0x25, 0x25]) (numberFrame 42) 0 5 = some p ∧ p.out = render [.int 42, .percent] ∧
      p.args = arguments [.int 42, .percent] ∧ p.printed = [Piece.int 42, .percent].length ∧
      p.reads = List.range' 0 ((formatText [.int 42, .percent]).length + 1) ∧ ∀ k ∈ p.touched, k < intSize :=
  printk_renders _ (numberFrame 42) 0 5 [.int 42, .percent] ⟨⟨by decide, by decide⟩, trivial, trivial⟩ rfl
    (by decide)

end Sbnix.Console
