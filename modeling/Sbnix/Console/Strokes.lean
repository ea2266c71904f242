import Sbnix.Console.Keyboard

/-! Keys with shift and with their releases (`kb_handler`, lines 101 to 160 of `sys/keyb.c`).

The keyboard sends a code when a key goes down and another when it comes up. The handler
compares the second kind with the code of the shift key going down, so no release has any
effect, and shift counts for one character, however long it is held. `strokes_line_iff` is
about any sequence of such codes. -/
namespace Sbnix.Console
open Library

/-- Releases, the left shift key, and keys with a character other than Enter. -/
def Strokes : Bool → List Byte → Prop
  | _, [] => True
  | shift, code :: rest =>
    if 128 ≤ code.toNat then Strokes shift rest
    else if code = 0x2a then Strokes true rest
    else code ≠ 28 ∧ charOf shift code ≠ 0 ∧ Strokes false rest

/-- The characters of the keys, the first one after a shift key in capitals. -/
def struck : Bool → List Byte → List Byte
  | _, [] => []
  | shift, code :: rest =>
    if 128 ≤ code.toNat then struck shift rest
    else if code = 0x2a then struck true rest
    else charOf shift code :: struck false rest

/-- Waiting for the keys and Enter, `scank` returns the line that has been edited and its length, and uses
`kbuffer` inside of its bounds. -/
def ReadsLine (k : Keyboard) (codes : List Byte) : Prop :=
  ∃ fuel r, scank k (codes ++ [28]) fuel = some r ∧ r.buf = edit (struck k.shiftKey codes) ∧
    r.ret = (edit (struck k.shiftKey codes)).length ∧ ∀ i ∈ r.used, 0 ≤ i ∧ i < 512

variable {k : Keyboard} {codes chars : List Byte} {shift : Bool} {code : Byte}

/-! ### One code -/

theorem kbHandler_release (hcode : 128 ≤ code.toNat) : k.kbHandler code = k := by
  have hbits : ∀ code : Byte, 128 ≤ code.toNat → code ≠ 28 ∧ code &&& 0x80 ≠ 0 ∧ code ≠ 0x2a := by decide +kernel
  obtain ⟨henter, hbit, hshift⟩ := hbits code hcode
  unfold Keyboard.kbHandler
  dsimp only
  rw [if_neg henter, if_pos hbit, if_neg hshift]

theorem kbHandler_shift : k.kbHandler 0x2a = {k with shiftKey := true} := rfl

/-- What is stored for a key does not depend on the shift that it takes back. -/
theorem strikes_shift (k : Keyboard) (shift after : Bool) (chars : List Byte) :
    ({({k with shiftKey := shift} : Keyboard).strikes chars with shiftKey := after} : Keyboard) =
      {k.strikes chars with shiftKey := after} := by
  cases chars with
  | nil => rfl
  | cons ch rest => rfl

/-! ### All of them -/

/-- The wait ends with Enter, after the characters before it. -/
theorem wait_strokes (hk : k.scanFlag = true) (h : Strokes k.shiftKey codes) :
    ∃ shift, k.wait (codes ++ [28]) =
      some (({k.strikes (struck k.shiftKey codes) with shiftKey := shift} : Keyboard).kbHandler 28) := by
  induction codes generalizing k with
  | nil =>
    refine ⟨k.shiftKey, ?_⟩
    rw [List.nil_append, Keyboard.wait, if_pos hk, Keyboard.wait, if_neg (by rw [(kbHandler_enter k).1]; decide)]
    rfl
  | cons code rest ih =>
    rw [List.cons_append, Keyboard.wait, if_pos hk]
    unfold Strokes at h
    unfold struck
    by_cases hrelease : 128 ≤ code.toNat
    · rw [if_pos hrelease] at h ⊢
      rw [kbHandler_release hrelease]
      exact ih hk h
    · rw [if_neg hrelease] at h ⊢
      by_cases hshift : code = 0x2a
      · rw [if_pos hshift] at h ⊢
        obtain ⟨shift, hwait⟩ := ih (k := {k with shiftKey := true}) hk h
        refine ⟨shift, ?_⟩
        rw [hshift, kbHandler_shift, hwait, strikes_shift]
      · rw [if_neg hshift] at h ⊢
        obtain ⟨henter, hchar, hrest⟩ := h
        obtain ⟨hflag, hnext⟩ := strike_flags k (charOf k.shiftKey code)
        rw [kbHandler_key hk (by omega) henter hchar]
        obtain ⟨shift, hwait⟩ := ih (hflag.trans hk) (by rw [hnext]; exact hrest)
        exact ⟨shift, by rw [hwait, hnext]; rfl⟩

theorem struck_ne_zero (h : Strokes shift codes) : (0 : Byte) ∉ struck shift codes := by
  induction codes generalizing shift with
  | nil => exact List.not_mem_nil
  | cons code rest ih =>
    unfold Strokes at h
    unfold struck
    split
    · rename_i hrelease
      rw [if_pos hrelease] at h
      exact ih h
    · rename_i hrelease
      rw [if_neg hrelease] at h
      split
      · rename_i hshift
        rw [if_pos hshift] at h
        exact ih h
      · rename_i hshift
        rw [if_neg hshift] at h
        obtain ⟨_, hchar, hrest⟩ := h
        intro hmem
        obtain hfirst | hlater := List.mem_cons.mp hmem
        · exact hchar hfirst.symm
        · exact ih hrest hlater

theorem enter_shift (k : Keyboard) : (k.kbHandler 28).shiftKey = false := by
  unfold Keyboard.kbHandler
  cases k.shiftKey <;> rfl

/-- `scank` reads what is in the buffer after the characters, and the next line begins without
shift. -/
theorem scank_strokes (k : Keyboard) (h : Strokes k.shiftKey codes) :
    ∃ k₁ : Keyboard, k₁.shiftKey = false ∧ ∀ fuel, scank k (codes ++ [28]) fuel =
      (copyLine (k.begin.strikes (struck k.shiftKey codes)).kbuffer fuel 0).map fun buf =>
        ⟨buf.length, buf,
          (k.begin.strikes (struck k.shiftKey codes)).used ++ (List.range (buf.length + 1)).map Int.ofNat, k₁⟩ := by
  obtain ⟨shift, hwait⟩ := wait_strokes (k := k.begin) rfl h
  obtain ⟨_, hbuffer, hused⟩ := kbHandler_enter {k.begin.strikes (struck k.begin.shiftKey codes) with shiftKey := shift}
  refine ⟨({k.begin.strikes (struck k.begin.shiftKey codes) with shiftKey := shift}.kbHandler 28).clear,
    enter_shift _, fun fuel => ?_⟩
  show (k.begin.wait (codes ++ [28])).bind _ = _
  rw [hwait, Option.bind_some, hbuffer, hused]
  rfl

/-! ### The line -/

/-- A line that has not been disturbed is copied out. -/
theorem Undisturbed.copyLine {chars : List Byte} (h : Undisturbed chars) (hk : k.Waiting) (hz : (0 : Byte) ∉ chars)
    (hend : (k.strikes chars).kbuffer (edit chars).length = 0) :
    copyLine (k.strikes chars).kbuffer ((edit chars).length + 1) 0 = some (edit chars) := by
  obtain ⟨_, hcells⟩ := h.line hk
  refine copyLine_eq (fun hc => hz (mem_edit hc)) (fun i b hi => ?_) ?_
  · rw [Nat.zero_add]
    exact hcells i b hi
  · rw [Nat.zero_add]
    exact hend

/-- Keys in any order, with their releases and with shift: the line is read back as it was typed just
when there is no character in it, or no backspace meets an empty line and the line is never longer
than it is at the end. -/
theorem strokes_line_iff (k : Keyboard) (codes : List Byte) (h : Strokes k.shiftKey codes)
    (hpending : ∀ q, q <+: struck k.shiftKey codes → (edit q).length ≤ 511) :
    ReadsLine k codes ↔ Undisturbed (struck k.shiftKey codes) := by
  have hz := struck_ne_zero h
  have hk := begin_waiting k
  obtain ⟨k₁, _, hscank⟩ := scank_strokes k h
  unfold ReadsLine
  simp only [hscank]
  have hlast := hpending _ (List.prefix_refl _)
  generalize struck k.shiftKey codes = chars at *
  constructor
  · rintro ⟨fuel, r, hr, hbuf, _, hused⟩
    obtain ⟨buf, hcopy, rfl⟩ := Option.map_eq_some_iff.mp hr
    obtain rfl : buf = edit chars := hbuf
    have hend := copyLine_some hcopy
    rw [Nat.zero_add] at hend
    exact undisturbed_of_line hk hz hend fun i hi => (hused i (List.mem_append_left _ hi)).1
  · intro hchars
    obtain ⟨htop, _⟩ := hchars.line hk
    have hend := strikes_above hk htop (Int.natCast_nonneg _) (Int.le_refl _) (by omega)
    have hcopy := hchars.copyLine hk hz hend
    refine ⟨_, _, by rw [hcopy, Option.map_some], rfl, rfl, fun i hi => ?_⟩
    obtain hold | hread := List.mem_append.mp hi
    · obtain hclear | ⟨q, ch, hq, hne, rfl⟩ := (strikes_used hk chars i).mp hold
      · exact (begin_used k i).mp hclear
      · have := hchars.stored hq hne
        omega
    · obtain ⟨n, hn, rfl⟩ := List.mem_map.mp hread
      have := List.mem_range.mp hn
      exact ⟨Int.natCast_nonneg n, by simp; omega⟩

/-- Shift and the key a, then the key b, each released after the other went down, and shift at the end. -/
theorem strokes_line_shift : ReadsLine idle [0x2a, 30, 48, 0x9e, 0xb0, 0xaa] := by
  refine (strokes_line_iff idle [0x2a, 30, 48, 0x9e, 0xb0, 0xaa] ?_ ?_).mpr (Or.inr ?_)
  · simp +decide [Strokes]
  · have hall : ∀ q ∈ (struck false [0x2a, 30, 48, 0x9e, 0xb0, 0xaa]).inits, (edit q).length ≤ 511 := by decide
    exact fun q hq => hall q ((List.mem_inits q _).mpr hq)
  · have hall : ∀ q ∈ (struck false [0x2a, 30, 48, 0x9e, 0xb0, 0xaa]).inits,
        0 ≤ tally q ∧ tally q ≤ tally (struck false [0x2a, 30, 48, 0x9e, 0xb0, 0xaa]) := by decide
    exact fun q hq => hall q ((List.mem_inits q _).mpr hq)

end Sbnix.Console
