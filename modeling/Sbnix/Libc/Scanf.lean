import Sbnix.Console.Strokes
import Sbnix.Files.Descriptors
import Sbnix.Libc.Numbers

/-! `scanf` of the C library (`libc/scanf.c`), from the keys on.

A call reads one line, whatever its format, and every conversion takes the whole of it:
`%d %d` gives the same number twice. Letters count as conversions without a percent sign,
and other characters of the format as conversions that store nothing. `scanf_one_line` says
what a line that has been typed stores. -/
namespace Sbnix.Libc
open Library Library.Store Files Console

/-- `MAXLENGTH` -/
def maxLength : Nat := 1024

/-- A call of `scanf`: its pointers, and where `buf` lies. -/
structure ScanfCall where
  va : Nat → Nat
  buf : Nat

structure Scanf where
  mem : Store
  scanned : Nat
  keyboard : Keyboard

/-- An `int` in memory. -/
def intBytes (v : Int) : List Byte := toLE 4 (BitVec.ofInt 32 v).toNat

/-- `read(0, buf, size)`, which waits for a line if the keyboard is read. -/
def readInput (k : Keyboard) (keys : List Byte) (fuel : Nat) (t : Task) (m : Store) (buf size : Nat) :
    Option (Int × Store × Keyboard) :=
  if t.dupArr 0 = 0 then
    (scank k keys fuel).bind fun r =>
      (sysRead r.buf m t 0 size).toOption.map fun o => (o.ret, put o.mem buf o.bytes, r.keyboard)
  else (sysRead [] m t 0 size).toOption.map fun o => (o.ret, put o.mem buf o.bytes, k)

/-- The `switch`: what is stored, and the number of pointers that have been taken. -/
def ScanfCall.convert (c : ScanfCall) (letter : Byte) (args : Nat) (m : Store) : Option (Store × Nat) :=
  if letter = 0x64 then (atoi m c.buf).map fun num => (put m (c.va args) (intBytes num), args + 1)
  else if letter = 0x73 then some (strcpy m (c.va args) c.buf, args + 1)
  else if letter = 0x78 then (atox m c.buf).map fun num => (put m (c.va args) (intBytes num), args + 1)
  else if letter = 0x63 then some (put m (c.va args) [m c.buf], args + 1)
  else some (m, args)

/-- The loop over the format. -/
def ScanfCall.loop (c : ScanfCall) : Nat → Nat → Nat → Nat → Store → Option (Store × Nat)
  | 0, _, _, _, _ => none
  | fuel + 1, format, args, scanned, m =>
    if m format = 0 then some (m, scanned)
    else
      let format := if m format = 0x25 then format + 1 else format
      (c.convert (m format) args m).bind fun o => c.loop fuel (format + 1) o.2 (scanned + 1) o.1

/-- `fuel` is for the line that is read, and `rounds` for the format. -/
def scanf (c : ScanfCall) (k : Keyboard) (keys : List Byte) (t : Task) (fuel rounds : Nat) (m : Store) (format : Nat) :
    Option Scanf :=
  let m := put m c.buf (List.replicate maxLength 0)
  (readInput k keys fuel t m c.buf maxLength).bind fun r =>
    let m := put r.2.1 (c.buf + r.1.toNat) [0]
    (c.loop rounds format 0 0 m).map fun o => ⟨o.1, o.2, r.2.2⟩

/-! ### What is asked of it -/

inductive Conversion where
  | decimal
  | string
  | hex
  | char
  deriving DecidableEq, Repr

def Conversion.letter : Conversion → Byte
  | .decimal => 0x64
  | .string => 0x73
  | .hex => 0x78
  | .char => 0x63

/-- The line, alone in a memory. -/
def lineStore (line : List Byte) : Store := put (fun _ => 0) 0 (line ++ [0])

/-- What a conversion stores of a line. A number that is too large for an `int` has no value. -/
def Conversion.bytes (line : List Byte) : Conversion → Option (List Byte)
  | .decimal => (atoi (lineStore line) 0).map intBytes
  | .string => some (line ++ [0])
  | .hex => (atox (lineStore line) 0).map intBytes
  | .char => some [(line ++ [0]).headD 0]

/-- The format, with a percent sign before each letter. -/
def percents (convs : List Conversion) : List Byte := convs.flatMap fun conv => [0x25, conv.letter]

/-- The bytes for the pointers from the `i`-th on. -/
def ScanfCall.writes (c : ScanfCall) : Nat → List (List Byte) → List (Nat × List Byte)
  | _, [] => []
  | i, v :: vs => (c.va i, v) :: c.writes (i + 1) vs

section
variable {c : ScanfCall} {m m' : Store} {a a' format args : Nat} {line s : List Byte}

/-! ### Numbers in different places -/

/-- A number is read from the characters of the string, wherever they are. -/
theorem readLoop_spells {base : Int} {value : Byte → Int} (h : Spells m a s) (h' : Spells m' a' s) (fuel : Nat)
    (num : Int) : readLoop base value m fuel a num = readLoop base value m' fuel a' num := by
  induction s generalizing a a' fuel num with
  | nil =>
    cases fuel with
    | zero => rfl
    | succ fuel =>
      rw [readLoop, readLoop, if_neg (by simp [spells_nil h]), if_neg (by simp [spells_nil h'])]
  | cons b rest ih =>
    cases fuel with
    | zero => rfl
    | succ fuel =>
      obtain ⟨hb, _, hrest⟩ := spells_cons h
      obtain ⟨hb', _, hrest'⟩ := spells_cons h'
      rw [readLoop, readLoop, hb, hb']
      split
      · congr 1
        funext scaled
        congr 1
        funext num
        exact ih hrest hrest' fuel num
      · rfl

theorem lineStore_spells (hz : (0 : Byte) ∉ line) : Spells (lineStore line) 0 line := ⟨put_holds _ 0 _, hz⟩

theorem spells_head (h : Spells m a s) : m a = (s ++ [0]).headD 0 := by
  cases s with
  | nil => exact spells_nil h
  | cons b rest => exact (spells_cons h).1

/-- The numeral of an `int` is read as that `int`. -/
theorem decimal_bytes {n : Int} (hlo : -2 ^ 31 < n) (hhi : n < 2 ^ 31) :
    Conversion.bytes (decimal n) .decimal = some (intBytes n) := by
  have hz : (0 : Byte) ∉ decimal n := by
    by_cases h0 : n = 0
    · rw [h0]
      decide
    · rw [← backwards_reverse h0, List.mem_reverse]
      exact zero_not_mem_backwards n
  rw [Conversion.bytes, atoi_spells (lineStore_spells hz) hlo hhi]
  rfl

theorem atox_line (h : Spells m a line) : atox m a = atox (lineStore line) 0 :=
  readLoop_spells h (lineStore_spells h.2) _ _

theorem atoi_line (h : Spells m a line) : atoi m a = atoi (lineStore line) 0 := by
  have h' := lineStore_spells h.2
  unfold atoi
  rw [spells_head h, spells_head h']
  split
  · rename_i hminus
    cases line with
    | nil => exact absurd hminus (by decide)
    | cons b rest => rw [readLoop_spells (spells_cons h).2.2 (spells_cons h').2.2]
  · rw [readLoop_spells h h']

/-! ### The conversions -/

/-- One conversion stores its bytes, if the string does not lie where it is copied to. -/
theorem convert_line (h : Spells m c.buf line) (hlen : line.length < intMax) {conv : Conversion} {bytes : List Byte}
    (hbytes : conv.bytes line = some bytes) (hclear : Clear (c.va args) bytes.length c.buf (line.length + 1)) :
    c.convert conv.letter args m = some (put m (c.va args) bytes, args + 1) := by
  cases conv with
  | decimal =>
    obtain ⟨v, hv, rfl⟩ := Option.map_eq_some_iff.mp hbytes
    show (atoi m c.buf).map _ = _
    rw [atoi_line h, hv]
    rfl
  | string =>
    obtain rfl := Option.some.inj hbytes
    show some (strcpy m (c.va args) c.buf, args + 1) = _
    rw [List.length_append, List.length_singleton] at hclear
    rw [strcpy_spells h hlen (by unfold Clear at hclear; omega)]
  | hex =>
    obtain ⟨v, hv, rfl⟩ := Option.map_eq_some_iff.mp hbytes
    show (atox m c.buf).map _ = _
    rw [atox_line h, hv]
    rfl
  | char =>
    obtain rfl := Option.some.inj hbytes
    show some (put m (c.va args) [m c.buf], args + 1) = _
    rw [spells_head h]

theorem letter_ne (conv : Conversion) : conv.letter ≠ 0 ∧ conv.letter ≠ 0x25 := by
  cases conv <;> decide

/-- All conversions of a format take the same line. -/
theorem loop_convs {convs : List Conversion} {values : List (List Byte)} {scanned : Nat} (h : Spells m c.buf line)
    (hlen : line.length < intMax) (hformat : Spells m format (percents convs))
    (hvalues : List.Forall₂ (fun conv bytes => conv.bytes line = some bytes) convs values)
    (hbuf : ∀ w ∈ c.writes args values, Clear w.1 w.2.length c.buf (line.length + 1))
    (htext : ∀ w ∈ c.writes args values, Clear w.1 w.2.length format (2 * convs.length + 1)) :
    c.loop (convs.length + 1) format args scanned m =
      some (putAll m (c.writes args values), scanned + convs.length) := by
  induction hvalues generalizing m format args scanned with
  | nil =>
    rw [ScanfCall.loop, if_pos (spells_nil hformat)]
    rfl
  | @cons conv bytes convs values hbytes _ ih =>
    obtain ⟨hpercent, _, hrest⟩ := spells_cons hformat
    obtain ⟨hletter, _, hrest⟩ := spells_cons hrest
    obtain ⟨hnul, _⟩ := letter_ne conv
    obtain ⟨hbuf₀, hbufs⟩ := List.forall_mem_cons.mp hbuf
    obtain ⟨htext₀, htexts⟩ := List.forall_mem_cons.mp htext
    rw [List.length_cons] at htext₀ htexts
    have hfront : Clear (c.va args) bytes.length format (2 * (convs.length + 1) + 1) := htext₀
    have hpercents : (percents convs).length = 2 * convs.length := by
      simp [percents, List.length_flatMap, Nat.mul_comm]
    have hbufKept : Agree m (put m (c.va args) bytes) c.buf (line.length + 1) := put_agree m bytes hbuf₀
    have htextKept : Agree m (put m (c.va args) bytes) (format + 1 + 1) ((percents convs).length + 1) := by
      refine put_agree m bytes ?_
      unfold Clear at hfront
      omega
    have hnext := @ih (put m (c.va args) bytes) (format + 1 + 1) (args + 1) (scanned + 1) (h.congr hbufKept)
      (hrest.congr htextKept) hbufs fun w hw => by
        have := htexts w hw
        unfold Clear at this ⊢
        omega
    rw [List.length_cons, ScanfCall.loop, hpercent, if_neg (by decide)]
    dsimp only
    rw [if_pos rfl, hletter, convert_line h hlen hbytes hbuf₀, Option.bind_some, hnext]
    congr 2
    omega

/-! ### From the keys -/

/-- The keys of a line that is not disturbed, and Enter: `scank` returns the line, and the next
one begins without shift. -/
theorem scank_line (k : Keyboard) {codes : List Byte} (hstrokes : Strokes k.shiftKey codes)
    (h : Undisturbed (struck k.shiftKey codes)) (hlen : (edit (struck k.shiftKey codes)).length ≤ 511) :
    ∃ r, scank k (codes ++ [28]) ((edit (struck k.shiftKey codes)).length + 1) = some r ∧
      r.buf = edit (struck k.shiftKey codes) ∧ r.keyboard.shiftKey = false := by
  have hk := begin_waiting k
  obtain ⟨htop, _⟩ := h.line hk
  have hend := strikes_above hk htop (Int.natCast_nonneg _) (Int.le_refl _) (by omega)
  obtain ⟨k₁, hshift, hscank⟩ := scank_strokes k hstrokes
  rw [hscank, h.copyLine hk (struck_ne_zero hstrokes) hend]
  exact ⟨_, rfl, rfl, hshift⟩

/-- The string is stored into the buffer, and what is read is at most as long. -/
theorem readInput_line {k : Keyboard} {keys : List Byte} {fuel : Nat} {t : Task} (ht : t.dupArr 0 = 0) {buf size : Nat}
    {r : Scanned} (hr : scank k keys fuel = some r) (hsize : r.buf.length ≤ size) (hpos : 0 < size) :
    readInput k keys fuel t m buf size = some ((r.buf.length : Int), put m buf (r.buf ++ [0]), r.keyboard) := by
  have hslot : slotOf (0 : Nat) = .ok 0 := slotOf_ok.mpr rfl
  have hread : sysRead r.buf m t 0 size = .ok ⟨r.buf.length, r.buf ++ [0], none, t, m⟩ := by
    unfold sysRead
    rw [if_pos hpos, hslot]
    simp only [Bind.bind, Except.bind]
    rw [if_neg (by simp [ht]), if_pos trivial, Nat.min_eq_left hsize, List.take_length]
  unfold readInput
  rw [if_pos ht, hr, Option.bind_some, hread]
  rfl

/-- `scanf` changes its own buffer, and then stores what the conversions say of the line. -/
theorem scanf_puts {k : Keyboard} {codes : List Byte} (hstrokes : Strokes k.shiftKey codes)
    (hline : Undisturbed (struck k.shiftKey codes)) (hlen : (edit (struck k.shiftKey codes)).length ≤ 511) {t : Task}
    (ht : t.dupArr 0 = 0) {convs : List Conversion} (hformat : Spells m format (percents convs)) {values : List (List Byte)}
    (hvalues : List.Forall₂ (fun conv bytes => conv.bytes (edit (struck k.shiftKey codes)) = some bytes) convs values)
    (htext : Clear c.buf maxLength format (2 * convs.length + 1))
    (hclear : ∀ w ∈ c.writes 0 values, Clear w.1 w.2.length c.buf maxLength ∧
      Clear w.1 w.2.length format (2 * convs.length + 1)) :
    ∃ m₁ k₁, scanf c k (codes ++ [28]) t ((edit (struck k.shiftKey codes)).length + 1) (convs.length + 1) m format =
        some ⟨putAll m₁ (c.writes 0 values), convs.length, k₁⟩ ∧ Within m m₁ c.buf maxLength ∧ k₁.shiftKey = false := by
  obtain ⟨r, hr, hbuf, hshift⟩ := scank_line k hstrokes hline hlen
  have hz : (0 : Byte) ∉ edit (struck k.shiftKey codes) := fun hc => struck_ne_zero hstrokes (mem_edit hc)
  generalize edit (struck k.shiftKey codes) = line at *
  have hpos : 0 < maxLength := by decide
  have hfits : line.length + 1 ≤ maxLength := by
    unfold maxLength
    omega
  have hread := @readInput_line (put m c.buf (List.replicate maxLength 0)) k _ _ t ht c.buf maxLength r hr
    (by rw [hbuf]; omega) hpos
  rw [hbuf] at hread
  have hstored : Holds (put (put m c.buf (List.replicate maxLength 0)) c.buf (line ++ [0])) c.buf (line ++ [0]) :=
    put_holds _ _ _
  have hinside : Within m (put (put m c.buf (List.replicate maxLength 0)) c.buf (line ++ [0])) c.buf maxLength := by
    refine (put_within m _ (Nat.le_refl _) ?_).trans (put_within _ _ (Nat.le_refl _) ?_)
    · rw [List.length_replicate]
    · rw [List.length_append, List.length_singleton]
      omega
  -- the zero that `scanf` puts behind the line is there already
  have hzero : put (put (put m c.buf (List.replicate maxLength 0)) c.buf (line ++ [0]))
      (c.buf + (line.length : Int).toNat) [0] = put (put m c.buf (List.replicate maxLength 0)) c.buf (line ++ [0]) :=
    put_same (holds_append.mp hstored).2
  generalize put (put m c.buf (List.replicate maxLength 0)) c.buf (line ++ [0]) = m₁ at *
  have hpercents : (percents convs).length + 1 = 2 * convs.length + 1 := by
    simp [percents, List.length_flatMap, Nat.mul_comm]
  have hkept : Agree m m₁ format ((percents convs).length + 1) := by
    refine hinside.agree ?_
    unfold Clear at htext
    omega
  have hapart : ∀ w ∈ c.writes 0 values, Clear w.1 w.2.length c.buf (line.length + 1) := by
    intro w hw
    have := (hclear w hw).1
    unfold Clear at this ⊢
    omega
  have hloop : c.loop (convs.length + 1) format 0 0 m₁ = some (putAll m₁ (c.writes 0 values), 0 + convs.length) :=
    loop_convs ⟨hstored, hz⟩ (by unfold intMax; omega) (hformat.congr hkept) hvalues hapart fun w hw => (hclear w hw).2
  refine ⟨m₁, r.keyboard, ?_, hinside, hshift⟩
  unfold scanf
  dsimp only
  rw [hread, Option.bind_some]
  dsimp only
  rw [hzero, hloop, Nat.zero_add]
  rfl

end

/-- A line that is typed at the console, with any shift keys, releases, and backspaces that do not
disturb it, is what every conversion of the call takes: each pointer gets the bytes of its
conversion, the call returns their number, and nothing else is written but its own buffer. -/
theorem scanf_one_line (c : ScanfCall) (k : Keyboard) (codes : List Byte) (hstrokes : Strokes k.shiftKey codes)
    (hline : Undisturbed (struck k.shiftKey codes)) (hlen : (edit (struck k.shiftKey codes)).length ≤ 511) (t : Task)
    (ht : t.dupArr 0 = 0) (m : Store) (format : Nat) (convs : List Conversion) (hformat : Spells m format (percents convs))
    (values : List (List Byte))
    (hvalues : List.Forall₂ (fun conv bytes => conv.bytes (edit (struck k.shiftKey codes)) = some bytes) convs values)
    (htext : Clear c.buf maxLength format (2 * convs.length + 1))
    (hclear : ∀ w ∈ c.writes 0 values, Clear w.1 w.2.length c.buf maxLength ∧
      Clear w.1 w.2.length format (2 * convs.length + 1))
    (hapart : (c.writes 0 values).Pairwise fun w w' => Clear w'.1 w'.2.length w.1 w.2.length) :
    ∃ fuel rounds r, scanf c k (codes ++ [28]) t fuel rounds m format = some r ∧ r.scanned = convs.length ∧
      (∀ w ∈ c.writes 0 values, Holds r.mem w.1 w.2) ∧
      ∀ x, ¬ (c.buf ≤ x ∧ x < c.buf + maxLength) →
        (∀ w ∈ c.writes 0 values, ¬ (w.1 ≤ x ∧ x < w.1 + w.2.length)) → r.mem x = m x := by
  obtain ⟨m₁, k₁, hscanf, hinside, _⟩ := scanf_puts hstrokes hline hlen ht hformat hvalues htext hclear
  refine ⟨_, _, _, hscanf, rfl, fun w hw => putAll_holds hapart hw, fun x hx hw => ?_⟩
  have hother : Agree m₁ (putAll m₁ (c.writes 0 values)) x 1 := putAll_agree fun w hw' => by
    have := hw w hw'
    unfold Clear
    omega
  exact (hother x (Nat.le_refl _) (Nat.lt_succ_self _)).trans (hinside x (by omega))

/-- A format and two pointers behind it. -/
def twoConversions : Store := put (fun _ => 0) 0 (percents [.decimal, .char])
def twoPointers : ScanfCall := ⟨fun i => 100 + 8 * i, 2000⟩

/-- 42 is typed for `%d%c`: the number, and its first digit. -/
theorem scanf_one_line_42 :
    ∃ fuel rounds r, scanf twoPointers idle ([5, 3] ++ [28]) Task.create fuel rounds twoConversions 0 = some r ∧
      r.scanned = 2 ∧ (∀ w ∈ twoPointers.writes 0 [intBytes 42, [0x34]], Holds r.mem w.1 w.2) ∧
      ∀ x, ¬ (2000 ≤ x ∧ x < 2000 + maxLength) →
        (∀ w ∈ twoPointers.writes 0 [intBytes 42, [0x34]], ¬ (w.1 ≤ x ∧ x < w.1 + w.2.length)) →
        r.mem x = twoConversions x := by
  have hinits : ∀ q ∈ (struck false [5, 3]).inits, 0 ≤ tally q ∧ tally q ≤ tally (struck false [5, 3]) := by decide
  have hformat : Spells twoConversions 0 (percents [.decimal, .char]) := ⟨rfl, by decide⟩
  have hline : Undisturbed (struck false [5, 3]) := Or.inr fun q hq => hinits q ((List.mem_inits q _).mpr hq)
  refine scanf_one_line twoPointers idle [5, 3] ?_ hline (by decide) Task.create rfl twoConversions 0 [.decimal, .char]
    hformat _ (.cons ?_ (.cons rfl .nil)) ?_ ?_ ?_
  · simp +decide [Strokes]
  · exact decimal_bytes (n := 42) (by decide) (by decide)
  · exact Or.inr (by decide)
  · unfold Clear
    decide
  · unfold Clear
    decide

end Sbnix.Libc
