import Sbnix.Library.Bytes

/-! The keyboard (`sys/keyb.c`).

`scank` clears `kbuffer` and waits; while it waits, the interrupt handler stores a
character for each key, and counts them. A backspace lowers the count and leaves the
character in its place, and below zero it goes on counting. `scank` does not look at the
count: it takes the characters up to the first zero. `line_editing_iff` says for which
keys this gives the line that was typed.

The elements of `kbuffer` are addressed by an `Int`, so that an index outside of
`0 .. 511` has a meaning; the model notes which indices are used. -/
namespace Sbnix.Console
open Library

/-! ### The handler -/

/-- `keyborard_character_set_normal` -/
def characterSetNormal : List Byte := [
  0, 0x1b, 0x31, 0x32, 0x33, 0x34, 0x35, 0x36, 0x37, 0x38,
  0x39, 0x30, 0x2d, 0x3d, 0x08, 0x09, 0x71, 0x77, 0x65, 0x72,
  0x74, 0x79, 0x75, 0x69, 0x6f, 0x70, 0x5b, 0x5d, 0x0a, 0,
  0x61, 0x73, 0x64, 0x66, 0x67, 0x68, 0x6a, 0x6b, 0x6c, 0x3b,
  0x27, 0x60, 0, 0x5c, 0x7a, 0x78, 0x63, 0x76, 0x62, 0x6e,
  0x6d, 0x2c, 0x2e, 0x2f, 0, 0x2a, 0, 0x20, 0, 0,
  0, 0, 0, 0, 0, 0, 0, 0, 0, 0,
  0, 0, 0, 0, 0x2d, 0, 0, 0, 0x2b, 0,
  0, 0, 0, 0, 0, 0, 0, 0, 0, 0,
  0x21, 0x40, 0x23, 0x24, 0x25, 0x5e, 0x26, 0x2a, 0x28, 0x29,
  0x5f, 0x2b]

/-- `Keyboard_character_set_shift` -/
def characterSetShift : List Byte := [
  0, 0x1b, 0x21, 0x40, 0x23, 0x24, 0x25, 0x5e, 0x26, 0x2a,
  0x28, 0x29, 0x5f, 0x2b, 0x08, 0x09, 0x51, 0x57, 0x45, 0x52,
  0x54, 0x59, 0x55, 0x49, 0x4f, 0x50, 0x7b, 0x7d, 0x0a, 0,
  0x41, 0x53, 0x44, 0x46, 0x47, 0x48, 0x4a, 0x4b, 0x4c, 0x3a,
  0x22, 0x7e, 0, 0x7c, 0x5a, 0x58, 0x43, 0x56, 0x42, 0x4e,
  0x4d, 0x3c, 0x3e, 0x3f, 0, 0x2a, 0, 0x20, 0, 0,
  0, 0, 0, 0, 0, 0, 0, 0, 0, 0,
  0, 0, 0, 0, 0x2d, 0, 0, 0, 0x2b, 0,
  0, 0, 0, 0, 0, 0, 0, 0, 0, 0]

/-- The character of a make code, with or without shift; the rest of the tables is zero. -/
def charOf (shift : Bool) (code : Byte) : Byte :=
  (if shift then characterSetShift else characterSetNormal).getD code.toNat 0

structure Keyboard where
  kbuffer : Int → Byte
  count : Int
  scanFlag : Bool
  shiftKey : Bool
  /-- What the handler has printed. -/
  echo : List Byte
  /-- The indices of `kbuffer` that have been used. -/
  used : List Int

namespace Keyboard

/-- `kbuffer[count++]=ch` -/
def store (k : Keyboard) (ch : Byte) : Keyboard :=
  {k with kbuffer := Function.update k.kbuffer k.count ch, count := k.count + 1, used := k.used ++ [k.count]}

/-- A key that is pressed, with the character it has in the table. -/
def press (k : Keyboard) (code ch : Byte) : Keyboard :=
  let k := {k with echo := k.echo ++ [ch]}
  if ch = 0x0a then k
  else if k.scanFlag then
    if code = 14 then {k with count := k.count - 1} else k.store ch
  else k

/-- `checkCode` is what is read from the port. -/
def kbHandler (k : Keyboard) (checkCode : Byte) : Keyboard :=
  let k := if checkCode = 28 then {k with scanFlag := false} else k
  if checkCode &&& 0x80 ≠ 0 then
    if checkCode = 0x2a then {k with shiftKey := false} else k
  else if checkCode = 0x2a then {k with shiftKey := true}
  else if k.shiftKey then {k.press checkCode (charOf true checkCode) with shiftKey := false}
  else k.press checkCode (charOf false checkCode)

/-! ### `scank` -/

/-- The loops that clear `kbuffer`. -/
def clear (k : Keyboard) : Keyboard :=
  {k with
    kbuffer := fun i => if 0 ≤ i ∧ i < 512 then 0 else k.kbuffer i
    used := k.used ++ (List.range 512).map Int.ofNat }

/-- `while(scan_flag)`, with the keys that are delivered meanwhile. -/
def wait : Keyboard → List Byte → Option Keyboard
  | k, [] => if k.scanFlag then none else some k
  | k, code :: rest => if k.scanFlag then wait (k.kbHandler code) rest else some k

end Keyboard

/-- The loop that copies `kbuffer`, from index `j` on. -/
def copyLine (kbuffer : Int → Byte) : Nat → Nat → Option (List Byte)
  | 0, _ => none
  | fuel + 1, j => if kbuffer j = 0 then some [] else (copyLine kbuffer fuel (j + 1)).map (kbuffer j :: ·)

structure Scanned where
  ret : Int
  buf : List Byte
  used : List Int
  keyboard : Keyboard

def scank (k : Keyboard) (keys : List Byte) (fuel : Nat) : Option Scanned :=
  let k := {({k with used := []} : Keyboard).clear with scanFlag := true, count := 0}
  (k.wait keys).bind fun k => (copyLine k.kbuffer fuel 0).map fun buf =>
    ⟨buf.length, buf, k.used ++ (List.range (buf.length + 1)).map Int.ofNat, k.clear⟩

/-! ### What is asked of it -/

/-- Make codes of keys with a character, other than Enter. Shift counts for the first one. -/
def Keys : Bool → List Byte → Prop
  | _, [] => True
  | shift, code :: rest => code.toNat < 128 ∧ code ≠ 28 ∧ charOf shift code ≠ 0 ∧ Keys false rest

/-- The characters of the keys; backspace is one of them. -/
def typed : Bool → List Byte → List Byte
  | _, [] => []
  | shift, code :: rest => charOf shift code :: typed false rest

def backspace : Byte := 0x08

/-- A character is added to the line; a backspace takes the last one away, if there is one. -/
def editChar (line : List Byte) (ch : Byte) : List Byte := if ch = backspace then line.dropLast else line ++ [ch]

def edit (chars : List Byte) : List Byte := chars.foldl editChar []

/-- Waiting for the keys and Enter, `scank` returns the line that was typed and its length, and uses
`kbuffer` inside of its bounds. -/
def EditsLine (k : Keyboard) (codes : List Byte) : Prop :=
  ∃ fuel r, scank k (codes ++ [28]) fuel = some r ∧ r.buf = edit (typed k.shiftKey codes) ∧
    r.ret = (edit (typed k.shiftKey codes)).length ∧ ∀ i ∈ r.used, 0 ≤ i ∧ i < 512

/-- The number of characters minus the number of backspaces. -/
def tally (chars : List Byte) : Int := chars.length - 2 * chars.count backspace

/-! ### Keys and characters -/

section
variable {k : Keyboard} {codes chars q : List Byte} {shift : Bool}

/-- What a key does while `scank` waits, in terms of its character. -/
def Keyboard.strike (k : Keyboard) (ch : Byte) : Keyboard :=
  let k := {k with echo := k.echo ++ [ch], shiftKey := false}
  if ch = backspace then {k with count := k.count - 1} else k.store ch

/-- In both tables, Enter is the only newline and code 14 the only backspace. -/
theorem charOf_spec (shift : Bool) (code : Byte) (hmake : code.toNat < 128) (henter : code ≠ 28)
    (hchar : charOf shift code ≠ 0) :
    code &&& 0x80 = 0 ∧ code ≠ 0x2a ∧ charOf shift code ≠ 0x0a ∧ (charOf shift code = backspace ↔ code = 14) := by
  revert shift code
  decide +kernel

/-- A key with a character, other than Enter, is echoed and stored, or takes one off the count. -/
theorem press_key (hk : k.scanFlag = true) {code ch : Byte} (hline : ch ≠ 0x0a) (hback : ch = backspace ↔ code = 14) :
    k.press code ch =
      if ch = backspace then {k with echo := k.echo ++ [ch], count := k.count - 1}
      else ({k with echo := k.echo ++ [ch]} : Keyboard).store ch := by
  unfold Keyboard.press
  dsimp only
  rw [if_neg hline, if_pos hk]
  by_cases h14 : code = 14
  · rw [if_pos h14, if_pos (hback.mpr h14)]
  · rw [if_neg h14, if_neg (mt hback.mp h14)]

theorem kbHandler_key (hk : k.scanFlag = true) {code : Byte} (hmake : code.toNat < 128) (henter : code ≠ 28)
    (hchar : charOf k.shiftKey code ≠ 0) : k.kbHandler code = k.strike (charOf k.shiftKey code) := by
  obtain ⟨hbit, hshift, hline, hback⟩ := charOf_spec k.shiftKey code hmake henter hchar
  unfold Keyboard.kbHandler Keyboard.strike
  dsimp only
  rw [if_neg henter, if_neg (by simpa using hbit), if_neg hshift]
  cases hs : k.shiftKey with
  | true =>
    rw [hs] at hline hback
    rw [if_pos rfl, press_key hk hline hback]
    split
    · rfl
    · rfl
  | false =>
    rw [hs] at hline hback
    rw [if_neg (by decide), press_key hk hline hback, hs]

theorem strike_flags (k : Keyboard) (ch : Byte) : (k.strike ch).scanFlag = k.scanFlag ∧ (k.strike ch).shiftKey = false := by
  unfold Keyboard.strike
  dsimp only
  split
  · exact ⟨rfl, rfl⟩
  · exact ⟨rfl, rfl⟩

/-- Enter ends the wait and leaves the line alone. -/
theorem kbHandler_enter (k : Keyboard) :
    (k.kbHandler 28).scanFlag = false ∧ (k.kbHandler 28).kbuffer = k.kbuffer ∧ (k.kbHandler 28).used = k.used := by
  unfold Keyboard.kbHandler
  cases k.shiftKey <;> exact ⟨rfl, rfl, rfl⟩

/-- The wait ends with Enter, after the keys before it. -/
theorem wait_keys (hk : k.scanFlag = true) (hkeys : Keys k.shiftKey codes) :
    k.wait (codes ++ [28]) = some (((typed k.shiftKey codes).foldl Keyboard.strike k).kbHandler 28) := by
  induction codes generalizing k with
  | nil =>
    rw [List.nil_append, Keyboard.wait, if_pos hk, Keyboard.wait, if_neg (by rw [(kbHandler_enter k).1]; decide)]
    rfl
  | cons code rest ih =>
    obtain ⟨hmake, henter, hchar, hrest⟩ := hkeys
    obtain ⟨hflag, hshift⟩ := strike_flags k (charOf k.shiftKey code)
    rw [List.cons_append, Keyboard.wait, if_pos hk, kbHandler_key hk hmake henter hchar,
      ih (hflag.trans hk) (by rw [hshift]; exact hrest), hshift]
    rfl

theorem typed_ne_zero (hkeys : Keys shift codes) : (0 : Byte) ∉ typed shift codes := by
  induction codes generalizing shift with
  | nil => exact List.not_mem_nil
  | cons code rest ih =>
    obtain ⟨_, _, hchar, hrest⟩ := hkeys
    intro hmem
    obtain hfirst | hlater := List.mem_cons.mp hmem
    · exact hchar hfirst.symm
    · exact ih hrest hlater

/-! ### The buffer after some characters -/

theorem tally_concat (chars : List Byte) (ch : Byte) :
    tally (chars ++ [ch]) = if ch = backspace then tally chars - 1 else tally chars + 1 := by
  unfold tally
  rw [List.length_append, List.count_append, List.count_singleton]
  by_cases h : ch = backspace
  · rw [if_pos h, if_pos (by simpa using h)]
    simp only [List.length_singleton]
    push_cast
    omega
  · rw [if_neg h, if_neg (by simpa using h)]
    simp only [List.length_singleton]
    push_cast
    omega

theorem edit_concat (chars : List Byte) (ch : Byte) : edit (chars ++ [ch]) = editChar (edit chars) ch := by
  unfold edit
  rw [List.foldl_append]
  rfl

/-- The keyboard when `scank` begins to wait. -/
structure Keyboard.Waiting (k : Keyboard) : Prop where
  count : k.count = 0
  cleared : ∀ i, 0 ≤ i → i < 512 → k.kbuffer i = 0

def Keyboard.strikes (k : Keyboard) (chars : List Byte) : Keyboard := chars.foldl Keyboard.strike k

theorem strikes_concat (k : Keyboard) (chars : List Byte) (ch : Byte) :
    k.strikes (chars ++ [ch]) = (k.strikes chars).strike ch := by
  unfold Keyboard.strikes
  rw [List.foldl_append]
  rfl

theorem strike_backspace (k : Keyboard) :
    (k.strike backspace).count = k.count - 1 ∧ (k.strike backspace).kbuffer = k.kbuffer ∧
      (k.strike backspace).used = k.used := ⟨rfl, rfl, rfl⟩

theorem strike_char (k : Keyboard) {ch : Byte} (h : ch ≠ backspace) :
    (k.strike ch).count = k.count + 1 ∧ (k.strike ch).kbuffer = Function.update k.kbuffer k.count ch ∧
      (k.strike ch).used = k.used ++ [k.count] := by
  unfold Keyboard.strike
  rw [if_neg h]
  exact ⟨rfl, rfl, rfl⟩

/-- The handler's count is the tally, which may be negative. -/
theorem strikes_count (h : k.Waiting) (chars : List Byte) : (k.strikes chars).count = tally chars := by
  induction chars using List.reverseRecOn with
  | nil => exact h.count
  | append_singleton chars ch ih =>
    rw [strikes_concat, tally_concat]
    by_cases hb : ch = backspace
    · rw [hb, if_pos rfl, (strike_backspace _).1, ih]
    · rw [if_neg hb, (strike_char _ hb).1, ih]

/-- Every character is stored where the tally of those before it stands. -/
theorem strikes_used (h : k.Waiting) (chars : List Byte) (i : Int) :
    i ∈ (k.strikes chars).used ↔ i ∈ k.used ∨ ∃ q ch, q ++ [ch] <+: chars ∧ ch ≠ backspace ∧ i = tally q := by
  induction chars using List.reverseRecOn with
  | nil =>
    refine (or_iff_left ?_).symm
    rintro ⟨q, ch, hq, _⟩
    exact absurd (List.prefix_nil.mp hq) (List.append_ne_nil_of_right_ne_nil _ (List.cons_ne_nil _ _))
  | append_singleton chars c ih =>
    have hmore : (∃ q ch, q ++ [ch] <+: chars ++ [c] ∧ ch ≠ backspace ∧ i = tally q) ↔
        (∃ q ch, q ++ [ch] <+: chars ∧ ch ≠ backspace ∧ i = tally q) ∨ (c ≠ backspace ∧ i = tally chars) := by
      constructor
      · rintro ⟨q, ch, hq, hne, hi⟩
        obtain hold | hlast := List.prefix_concat_iff.mp hq
        · obtain ⟨rfl, hch⟩ := List.append_inj' hold rfl
          obtain rfl := List.singleton_inj.mp hch
          exact Or.inr ⟨hne, hi⟩
        · exact Or.inl ⟨q, ch, hlast, hne, hi⟩
      · rintro (⟨q, ch, hq, hne, hi⟩ | ⟨hne, hi⟩)
        · exact ⟨q, ch, hq.trans (List.prefix_append _ _), hne, hi⟩
        · exact ⟨chars, c, List.prefix_refl _, hne, hi⟩
    rw [strikes_concat, hmore, ← or_assoc, ← ih]
    by_cases hb : c = backspace
    · rw [hb, (strike_backspace _).2.2]
      exact (or_iff_left fun hc => hc.1 rfl).symm
    · rw [(strike_char _ hb).2.2, List.mem_append, List.mem_singleton, strikes_count h]
      exact or_congr_right (and_iff_right hb).symm

/-- What has been stored stays, or is overwritten by another character. -/
theorem strikes_stale (h : k.Waiting) (hz : (0 : Byte) ∉ chars) (hq : q <+: chars) {i : Int} (hlo : 0 ≤ i)
    (hi : i < tally q) : (k.strikes chars).kbuffer i ≠ 0 := by
  induction chars using List.reverseRecOn generalizing q with
  | nil =>
    obtain rfl := List.prefix_nil.mp hq
    exact absurd hi (by unfold tally; simp; omega)
  | append_singleton chars c ih =>
    have hz' : (0 : Byte) ∉ chars := fun hc => hz (List.mem_append_left _ hc)
    have hbefore : i < tally chars ∨ q <+: chars ∨ c ≠ backspace ∧ i = tally chars := by
      obtain rfl | hlast := List.prefix_concat_iff.mp hq
      · rw [tally_concat] at hi
        by_cases hb : c = backspace
        · rw [if_pos hb] at hi
          exact Or.inl (by omega)
        · rw [if_neg hb] at hi
          obtain hlt | heq : i < tally chars ∨ i = tally chars := by omega
          · exact Or.inl hlt
          · exact Or.inr (Or.inr ⟨hb, heq⟩)
      · exact Or.inr (Or.inl hlast)
    have hc : c ≠ 0 := fun hc => hz (List.mem_append_right _ (hc ▸ List.mem_singleton_self c))
    have hold : i < tally chars ∨ q <+: chars → (k.strikes chars).kbuffer i ≠ 0 := by
      rintro (hlt | hpre)
      · exact ih hz' (List.prefix_refl _) hlt
      · exact ih hz' hpre hi
    rw [strikes_concat]
    by_cases hb : c = backspace
    · rw [hb, (strike_backspace _).2.1]
      exact hold (hbefore.imp_right fun hor => hor.resolve_right fun hc => hc.1 hb)
    · rw [(strike_char _ hb).2.1, strikes_count h]
      by_cases heq : i = tally chars
      · rw [heq, Function.update_self]
        exact hc
      · rw [Function.update_of_ne heq]
        exact hold (hbefore.imp_right fun hor => hor.resolve_right fun hc => heq hc.2)

/-- If no backspace meets an empty line, the tally is the length of the line. -/
theorem edit_length (hpos : ∀ q, q <+: chars → 0 ≤ tally q) : ((edit chars).length : Int) = tally chars := by
  induction chars using List.reverseRecOn with
  | nil => rfl
  | append_singleton chars c ih =>
    have hlen := ih fun q hq => hpos q (hq.trans (List.prefix_append _ _))
    have hnow := hpos _ (List.prefix_refl (chars ++ [c]))
    rw [tally_concat] at hnow ⊢
    rw [edit_concat, editChar]
    by_cases hb : c = backspace
    · rw [if_pos hb] at hnow ⊢
      rw [if_pos hb, List.length_dropLast]
      omega
    · rw [if_neg hb, if_neg hb, List.length_append, List.length_singleton]
      push_cast
      omega

/-- And the line is in front in the buffer. -/
theorem strikes_line (h : k.Waiting) (hpos : ∀ q, q <+: chars → 0 ≤ tally q) {i : Nat} {b : Byte}
    (hi : (edit chars)[i]? = some b) : (k.strikes chars).kbuffer i = b := by
  induction chars using List.reverseRecOn with
  | nil => cases hi
  | append_singleton chars c ih =>
    have hbefore : ∀ q, q <+: chars → 0 ≤ tally q := fun q hq => hpos q (hq.trans (List.prefix_append _ _))
    have hlen := edit_length hbefore
    rw [edit_concat, editChar] at hi
    rw [strikes_concat]
    by_cases hb : c = backspace
    · rw [if_pos hb, List.getElem?_dropLast] at hi
      rw [hb, (strike_backspace _).2.1]
      split at hi
      · exact ih hbefore hi
      · cases hi
    · rw [if_neg hb] at hi
      rw [(strike_char _ hb).2.1, strikes_count h, ← hlen]
      by_cases hlt : i < (edit chars).length
      · rw [List.getElem?_append_left hlt] at hi
        rw [Function.update_of_ne (by omega)]
        exact ih hbefore hi
      · obtain ⟨hbound, _⟩ := List.getElem?_eq_some_iff.mp hi
        rw [List.length_append, List.length_singleton] at hbound
        obtain rfl : i = (edit chars).length := by omega
        rw [List.getElem?_concat_length] at hi
        rw [Function.update_self]
        exact Option.some.inj hi

/-- Above the highest tally the buffer is as it was cleared. -/
theorem strikes_above (h : k.Waiting) {top : Int} (htop : ∀ q, q <+: chars → tally q ≤ top) {i : Int} (hlo : 0 ≤ i)
    (hi : top ≤ i) (hlt : i < 512) : (k.strikes chars).kbuffer i = 0 := by
  induction chars using List.reverseRecOn with
  | nil => exact h.cleared i hlo hlt
  | append_singleton chars c ih =>
    have hnow := htop _ (List.prefix_refl (chars ++ [c]))
    have hold := ih fun q hq => htop q (hq.trans (List.prefix_append _ _))
    rw [tally_concat] at hnow
    rw [strikes_concat]
    by_cases hb : c = backspace
    · rw [hb, (strike_backspace _).2.1]
      exact hold
    · rw [if_neg hb] at hnow
      rw [(strike_char _ hb).2.1, strikes_count h, Function.update_of_ne (by omega)]
      exact hold

/-- If every character is stored inside of the buffer, either no backspace meets an empty line, or
only backspaces follow the first that does. -/
theorem tally_cases (hstored : ∀ q ch, q ++ [ch] <+: chars → ch ≠ backspace → 0 ≤ tally q) :
    (∀ q, q <+: chars → 0 ≤ tally q) ∨ tally chars < 0 ∧ edit chars = [] := by
  induction chars using List.reverseRecOn with
  | nil =>
    refine Or.inl fun q hq => ?_
    obtain rfl := List.prefix_nil.mp hq
    exact Int.le_refl 0
  | append_singleton chars c ih =>
    have hlast := hstored chars c (List.prefix_refl _)
    rw [tally_concat, edit_concat, editChar]
    obtain hpos | ⟨hneg, hempty⟩ := ih fun q ch hq => hstored q ch (hq.trans (List.prefix_append _ _))
    · by_cases hnow : 0 ≤ tally (chars ++ [c])
      · refine Or.inl fun q hq => ?_
        obtain rfl | hold := List.prefix_concat_iff.mp hq
        · exact hnow
        · exact hpos q hold
      · rw [tally_concat] at hnow
        have hchars := hpos chars (List.prefix_refl _)
        by_cases hb : c = backspace
        · rw [if_pos hb] at hnow
          have hlen : (edit chars).length = 0 := by
            have := edit_length hpos
            omega
          rw [if_pos hb, if_pos hb, List.length_eq_zero_iff.mp hlen]
          exact Or.inr ⟨by omega, rfl⟩
        · rw [if_neg hb] at hnow
          omega
    · by_cases hb : c = backspace
      · rw [if_pos hb, if_pos hb, hempty]
        exact Or.inr ⟨by omega, rfl⟩
      · exact absurd (hlast hb) (by omega)

/-! ### The line that is read -/

theorem copyLine_some {kbuffer : Int → Byte} {fuel j : Nat} {buf : List Byte} (h : copyLine kbuffer fuel j = some buf) :
    kbuffer (j + buf.length : Nat) = 0 := by
  induction fuel generalizing j buf with
  | zero => cases h
  | succ fuel ih =>
    rw [copyLine] at h
    split at h
    · rename_i hzero
      obtain rfl := Option.some.inj h
      exact hzero
    · obtain ⟨rest, hrest, rfl⟩ := Option.map_eq_some_iff.mp h
      have hend := ih hrest
      rwa [List.length_cons, show j + (rest.length + 1) = j + 1 + rest.length by omega]

theorem copyLine_eq {kbuffer : Int → Byte} {j : Nat} {buf : List Byte} (hz : (0 : Byte) ∉ buf)
    (hcells : ∀ (i : Nat) (b : Byte), buf[i]? = some b → kbuffer (j + i : Nat) = b)
    (hend : kbuffer (j + buf.length : Nat) = 0) : copyLine kbuffer (buf.length + 1) j = some buf := by
  induction buf generalizing j with
  | nil => exact if_pos hend
  | cons b rest ih =>
    have hb : kbuffer j = b := hcells 0 b rfl
    have hne : b ≠ 0 := fun hc => hz (hc ▸ List.mem_cons_self ..)
    have hrest := ih (j := j + 1) (fun hc => hz (List.mem_cons_of_mem _ hc))
      (fun i b' hi => by
        have := hcells (i + 1) b' (by simpa using hi)
        rwa [show j + (i + 1) = j + 1 + i by omega] at this)
      (by rwa [List.length_cons, show j + (rest.length + 1) = j + 1 + rest.length by omega] at hend)
    rw [List.length_cons, copyLine, hb, if_neg hne, hrest]
    rfl

/-- The keyboard when `scank` begins to wait. -/
def Keyboard.begin (k : Keyboard) : Keyboard :=
  {({k with used := []} : Keyboard).clear with scanFlag := true, count := 0}

/-- `kbuffer` is cleared. -/
def Keyboard.cleared (k : Keyboard) : Keyboard := ({k with used := []} : Keyboard).clear

/-- The same, if keys come between `scan_flag=true` and `count=0`. -/
def Keyboard.begun (k : Keyboard) (early : List Byte) : Keyboard :=
  {early.foldl kbHandler {k.cleared with scanFlag := true} with count := 0}

/-- `scank`, with such keys. -/
def scankEarly (k : Keyboard) (early keys : List Byte) (fuel : Nat) : Option Scanned :=
  ((k.begun early).wait keys).bind fun k => (copyLine k.kbuffer fuel 0).map fun buf =>
    ⟨buf.length, buf, k.used ++ (List.range (buf.length + 1)).map Int.ofNat, k.clear⟩

theorem begin_waiting (k : Keyboard) : k.begin.Waiting := ⟨rfl, fun _ hlo hhi => if_pos ⟨hlo, hhi⟩⟩

theorem begin_used (k : Keyboard) (i : Int) : i ∈ k.begin.used ↔ 0 ≤ i ∧ i < 512 := by
  have hused : k.begin.used = (List.range 512).map Int.ofNat := List.nil_append _
  rw [hused, List.mem_map]
  constructor
  · rintro ⟨n, hn, rfl⟩
    have := List.mem_range.mp hn
    exact ⟨Int.natCast_nonneg n, by simp; omega⟩
  · rintro ⟨hlo, hhi⟩
    exact ⟨i.toNat, List.mem_range.mpr (by omega), by simp; omega⟩

/-- `scank` reads what is in the buffer after the keys. -/
theorem scank_eq (k : Keyboard) (hkeys : Keys k.shiftKey codes) (fuel : Nat) :
    scank k (codes ++ [28]) fuel =
      (copyLine (k.begin.strikes (typed k.shiftKey codes)).kbuffer fuel 0).map fun buf =>
        ⟨buf.length, buf, (k.begin.strikes (typed k.shiftKey codes)).used ++ (List.range (buf.length + 1)).map Int.ofNat,
          ((k.begin.strikes (typed k.shiftKey codes)).kbHandler 28).clear⟩ := by
  have hwait : k.begin.wait (codes ++ [28]) = some ((k.begin.strikes (typed k.shiftKey codes)).kbHandler 28) :=
    wait_keys rfl hkeys
  obtain ⟨_, hbuffer, hused⟩ := kbHandler_enter (k.begin.strikes (typed k.shiftKey codes))
  show (k.begin.wait (codes ++ [28])).bind _ = _
  rw [hwait, Option.bind_some, hbuffer, hused]

theorem mem_edit {b : Byte} (h : b ∈ edit chars) : b ∈ chars := by
  induction chars using List.reverseRecOn with
  | nil => cases h
  | append_singleton chars c ih =>
    rw [edit_concat, editChar] at h
    rw [List.mem_append]
    split at h
    · exact Or.inl (ih (List.mem_of_mem_dropLast h))
    · obtain hold | hnew := List.mem_append.mp h
      · exact Or.inl (ih hold)
      · exact Or.inr hnew

theorem tally_nonpos (h : ∀ ch ∈ chars, ch = backspace) : tally chars ≤ 0 := by
  have hcount : chars.count backspace = chars.length := List.count_eq_length.mpr fun ch hch => (h ch hch).symm
  unfold tally
  omega

/-- The condition under which the line is right. -/
def Undisturbed (chars : List Byte) : Prop :=
  (∀ ch ∈ chars, ch = backspace) ∨ ∀ q, q <+: chars → 0 ≤ tally q ∧ tally q ≤ tally chars

/-- The line is in front in the buffer, and as long as the tally has ever been. -/
theorem Undisturbed.line (h : Undisturbed chars) (hk : k.Waiting) :
    (∀ q, q <+: chars → tally q ≤ (edit chars).length) ∧
      ∀ (i : Nat) (b : Byte), (edit chars)[i]? = some b → (k.strikes chars).kbuffer i = b := by
  obtain hall | hpos := h
  · have hempty : edit chars = [] := by
      have hlast := tally_nonpos hall
      obtain hcase | hcase := tally_cases fun q ch (hq : q ++ [ch] <+: chars) hne =>
        absurd (hall ch (hq.subset (List.mem_append_right _ (List.mem_singleton_self ch)))) hne
      · exact List.length_eq_zero_iff.mp (by have := edit_length hcase; omega)
      · exact hcase.2
    rw [hempty]
    refine ⟨fun q hq => tally_nonpos fun ch hch => hall ch (hq.subset hch), fun i b hi => ?_⟩
    cases hi
  · have hlen := edit_length fun q hq => (hpos q hq).1
    refine ⟨fun q hq => ?_, fun i b hi => strikes_line hk (fun q hq => (hpos q hq).1) hi⟩
    rw [hlen]
    exact (hpos q hq).2

/-- Every index that a character is stored at lies in front of the end of the line. -/
theorem Undisturbed.stored (h : Undisturbed chars) {ch : Byte} (hq : q ++ [ch] <+: chars) (hne : ch ≠ backspace) :
    0 ≤ tally q ∧ tally q < (edit chars).length := by
  have hmem : ch ∈ chars := hq.subset (List.mem_append_right _ (List.mem_singleton_self ch))
  obtain hall | hpos := h
  · exact absurd (hall ch hmem) hne
  · have hlen := edit_length fun q hq => (hpos q hq).1
    have hnext := (hpos _ hq).2
    rw [tally_concat, if_neg hne] at hnext
    exact ⟨(hpos q ((List.prefix_append _ _).trans hq)).1, by omega⟩

/-- If the line is read back from indices of the buffer, it was not disturbed. -/
theorem undisturbed_of_line (hk : k.Waiting) (hz : (0 : Byte) ∉ chars)
    (hend : (k.strikes chars).kbuffer (edit chars).length = 0)
    (hused : ∀ i ∈ (k.strikes chars).used, 0 ≤ i) : Undisturbed chars := by
  have hstored : ∀ q ch, q ++ [ch] <+: chars → ch ≠ backspace → 0 ≤ tally q := fun q ch hq hne =>
    hused _ ((strikes_used hk chars _).mpr (Or.inr ⟨q, ch, hq, hne, rfl⟩))
  -- a cell below an earlier tally is not zero, so the line is as long as that
  have hlong : ∀ q, q <+: chars → tally q ≤ (edit chars).length := by
    intro q hq
    by_contra hc
    exact strikes_stale hk hz hq (Int.natCast_nonneg _) (by omega) hend
  obtain hpos | ⟨_, hempty⟩ := tally_cases hstored
  · refine Or.inr fun q hq => ⟨hpos q hq, ?_⟩
    rw [← edit_length hpos]
    exact hlong q hq
  · refine Or.inl fun ch hch => ?_
    by_contra hne
    obtain ⟨q, rest, rfl⟩ := List.append_of_mem hch
    have hpre : q ++ [ch] <+: q ++ ch :: rest := ⟨rest, by simp⟩
    have hfirst := hstored q ch hpre hne
    have hnext := hlong _ hpre
    rw [tally_concat, if_neg hne, hempty, List.length_nil] at hnext
    omega

/-- The keys are read back as the line that was typed just when there is no character among them,
or no backspace meets an empty line and the line is never longer than it is at the end. -/
theorem line_editing_iff (k : Keyboard) (codes : List Byte) (hkeys : Keys k.shiftKey codes)
    (hpending : ∀ q, q <+: typed k.shiftKey codes → (edit q).length ≤ 511) :
    EditsLine k codes ↔ Undisturbed (typed k.shiftKey codes) := by
  have hz := typed_ne_zero hkeys
  have hk := begin_waiting k
  unfold EditsLine
  simp only [scank_eq k hkeys]
  have hlast := hpending _ (List.prefix_refl _)
  generalize typed k.shiftKey codes = chars at *
  constructor
  · rintro ⟨fuel, r, hr, hbuf, _, hused⟩
    obtain ⟨buf, hcopy, rfl⟩ := Option.map_eq_some_iff.mp hr
    obtain rfl : buf = edit chars := hbuf
    have hend := copyLine_some hcopy
    rw [Nat.zero_add] at hend
    exact undisturbed_of_line hk hz hend fun i hi => (hused i (List.mem_append_left _ hi)).1
  · intro h
    obtain ⟨htop, hcells⟩ := h.line hk
    have hend := strikes_above hk htop (Int.natCast_nonneg _) (Int.le_refl _) (by omega)
    have hcopy := copyLine_eq (j := 0) (fun hc => hz (mem_edit hc)) (fun i b hi => by rw [Nat.zero_add]; exact hcells i b hi)
      (by rw [Nat.zero_add]; exact hend)
    refine ⟨_, _, by rw [hcopy, Option.map_some], rfl, rfl, fun i hi => ?_⟩
    obtain hold | hread := List.mem_append.mp hi
    · obtain hclear | ⟨q, ch, hq, hne, rfl⟩ := (strikes_used hk chars i).mp hold
      · exact (begin_used k i).mp hclear
      · have := h.stored hq hne
        omega
    · obtain ⟨n, hn, rfl⟩ := List.mem_map.mp hread
      have := List.mem_range.mp hn
      exact ⟨Int.natCast_nonneg n, by simp; omega⟩

end

/-! ### Short lines -/

/-- The keyboard before any key. -/
def idle : Keyboard := ⟨fun _ => 0, 0, false, false, [], []⟩

/-- The keys h and i, without a backspace. -/
theorem line_editing_hi : EditsLine idle [35, 23] := by
  refine (line_editing_iff idle [35, 23] ?_ ?_).mpr (Or.inr ?_)
  · exact ⟨by decide, by decide, by decide, by decide, by decide, by decide, trivial⟩
  · have hall : ∀ q ∈ (typed false [35, 23]).inits, (edit q).length ≤ 511 := by decide
    exact fun q hq => hall q ((List.mem_inits q _).mpr hq)
  · have hall : ∀ q ∈ (typed false [35, 23]).inits, 0 ≤ tally q ∧ tally q ≤ tally (typed false [35, 23]) := by decide
    exact fun q hq => hall q ((List.mem_inits q _).mpr hq)

/-- The keys a and b and a backspace: the line is a, and `scank` returns ab. -/
theorem backspace_keeps : Keys idle.shiftKey [30, 48, 14] ∧ edit (typed idle.shiftKey [30, 48, 14]) = [0x61] ∧
    (scank idle [30, 48, 14, 28] 3).map (fun r => (r.ret, r.buf)) = some (2, [0x61, 0x62]) ∧
    ¬ EditsLine idle [30, 48, 14] := by
  have hkeys : Keys idle.shiftKey [30, 48, 14] :=
    ⟨by decide, by decide, by decide, by decide, by decide, by decide, by decide, by decide, by decide, trivial⟩
  refine ⟨hkeys, by decide, by decide +kernel, ?_⟩
  rintro ⟨fuel, r, hr, hbuf, _, _⟩
  rw [scank_eq idle hkeys] at hr
  obtain ⟨buf, hcopy, rfl⟩ := Option.map_eq_some_iff.mp hr
  obtain rfl : buf = [0x61] := hbuf
  exact absurd (copyLine_some hcopy) (by decide)

end Sbnix.Console
