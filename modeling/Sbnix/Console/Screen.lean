import Sbnix.Library.Bytes

/-! The screen (`sys/printf.c`, lines 19 to 107).

The video memory has two bytes for each cell, the character and its colour, and 80 cells
for each row. Text is printed into a window of 20 rows; a newline in the last of them
moves the other rows up. `console_shows_last` says what the window shows after a text
whose lines fit into a row.

A character that is printed when the cursor stands behind the last column is not drawn:
the test for drawing fails, and only then the cursor goes to the next row. So
`none_dropped_iff` is about lines that fit, too. -/
namespace Sbnix.Console
open Library

/-- The video memory, from `A_VIDEO` on, and the cursor. -/
structure Screen where
  vid : Store
  csrX : Int
  csrY : Int

/-- A character and its colour, at two bytes that follow each other. -/
def setCell (vid : Store) (a : Nat) (ch : Byte) : Store := Function.update (Function.update vid a ch) (a + 1) 0x07

/-- `n` cells are filled with blanks. -/
def blankLoop : Nat → Nat → Store → Store
  | 0, _, vid => vid
  | n + 1, a, vid => blankLoop n (a + 2) (setCell vid a 0x20)

/-- `n` cells get the character of the cell below them. -/
def scrollLoop : Nat → Nat → Store → Store
  | 0, _, vid => vid
  | n + 1, a, vid => scrollLoop n (a + 2) (setCell vid a (vid (a + 160)))

namespace Screen

def reset (c : Screen) : Screen := ⟨blankLoop (80 * 15 * 2 + 1) 0 c.vid, 0, 0⟩

def windowScroll (c : Screen) : Screen :=
  ⟨blankLoop 80 (2 * (20 * 80 - 80)) (scrollLoop (20 * 80 - 80) 0 c.vid), 0, 19⟩

/-- The cell that a character is drawn into, if it is drawn. -/
def target (c : Screen) : Option Nat :=
  if 0 ≤ c.csrX ∧ c.csrX < 80 ∧ 0 ≤ c.csrY ∧ c.csrY < 25 then some (c.csrX + c.csrY * 80).toNat else none

/-- The cursor goes to the next row. -/
def nextRow (c : Screen) : Screen :=
  let c := {c with csrX := 0, csrY := c.csrY + 1}
  if c.csrY ≥ 20 then c.windowScroll else c

/-- A character that is none of the four below. -/
def draw (c : Screen) (ch : Byte) : Screen :=
  let c := match c.target with
    | some offset => {c with vid := setCell c.vid (2 * offset) ch}
    | none => c
  if c.csrX ≥ 80 then c.nextRow else {c with csrX := c.csrX + 1}

def cPrintf (c : Screen) (ch : Byte) : Screen :=
  if ch = 0x08 then
    let c := {c with csrX := c.csrX - 1}.draw 0x20
    {c with csrX := c.csrX - 1}
  else if ch = 0x0a then c.nextRow
  else if ch = 0x09 then {c with csrX := c.csrX + 8}
  else if ch = 0x0d then {c with csrX := 0}
  else c.draw ch

/-- The text is printed character by character. -/
def print (c : Screen) (text : List Byte) : Screen := text.foldl cPrintf c

/-- The character in a row and a column. -/
def charAt (c : Screen) (row col : Nat) : Byte := c.vid (2 * (col + 80 * row))

end Screen

/-! ### What is asked of it -/

/-- Neither a backspace, a tab nor a carriage return. -/
def Plain (ch : Byte) : Prop := ch ≠ 0x08 ∧ ch ≠ 0x09 ∧ ch ≠ 0x0d

/-- The lines of a text. -/
def linesOf (text : List Byte) : List (List Byte) := text.splitOn 0x0a

/-- The window shows the last 20 of the lines, and the cursor is at the end of the last. -/
structure ShowsLast (c : Screen) (lines : List (List Byte)) : Prop where
  rows : ∀ r < 20, ∀ j < 80, c.charAt r j = (lines.getD (r + (lines.length - 1 - 19)) []).getD j 0x20
  csrX : c.csrX = (lines.getLastD []).length
  csrY : c.csrY = min (lines.length - 1) 19

/-- The cursor is in the window, or behind the last column of it. -/
def InWindow (c : Screen) : Prop := 0 ≤ c.csrX ∧ c.csrX ≤ 80 ∧ 0 ≤ c.csrY ∧ c.csrY ≤ 19

/-- The character is stored in a cell of the window. -/
def Stored (c : Screen) (ch : Byte) : Prop :=
  ∃ i < 20 * 80, c.target = some i ∧ (c.cPrintf ch).vid (2 * i) = ch

/-- The cursor stays in the window while the text is printed, and every character but a newline
is stored. -/
def NoneDropped : Screen → List Byte → Prop
  | c, [] => InWindow c
  | c, ch :: rest => InWindow c ∧ (ch ≠ 0x0a → Stored c ch) ∧ NoneDropped (c.cPrintf ch) rest

/-! ### Cells -/

section
variable {c : Screen} {vid : Store}

theorem setCell_cell (vid : Store) (i j : Nat) (ch : Byte) :
    setCell vid (2 * i) ch (2 * j) = if j = i then ch else vid (2 * j) := by
  unfold setCell
  rw [Function.update_of_ne (by omega)]
  split
  · rename_i h
    rw [h, Function.update_self]
  · exact Function.update_of_ne (by omega) ..

theorem blankLoop_cell (n i j : Nat) (vid : Store) :
    blankLoop n (2 * i) vid (2 * j) = if i ≤ j ∧ j < i + n then 0x20 else vid (2 * j) := by
  induction n generalizing i vid with
  | zero => rw [blankLoop, if_neg (by omega)]
  | succ n ih =>
    rw [blankLoop, show 2 * i + 2 = 2 * (i + 1) by omega, ih, setCell_cell]
    split_ifs <;> first | rfl | omega

/-- Every cell is read before it is overwritten. -/
theorem scrollLoop_cell (n i j : Nat) (vid : Store) :
    scrollLoop n (2 * i) vid (2 * j) = if i ≤ j ∧ j < i + n then vid (2 * (j + 80)) else vid (2 * j) := by
  induction n generalizing i vid with
  | zero => rw [scrollLoop, if_neg (by omega)]
  | succ n ih =>
    rw [scrollLoop, show 2 * i + 2 = 2 * (i + 1) by omega, show 2 * i + 160 = 2 * (i + 80) by omega, ih, setCell_cell,
      setCell_cell]
    by_cases hj : j = i
    · subst hj
      rw [if_neg (by omega), if_pos rfl, if_pos (by omega)]
    · rw [if_neg hj]
      by_cases hin : i ≤ j ∧ j < i + (n + 1)
      · rw [if_pos (by omega), if_neg (by omega), if_pos hin]
      · rw [if_neg (by omega), if_neg hin]

theorem windowScroll_charAt {r j : Nat} (hr : r < 20) (hj : j < 80) :
    c.windowScroll.charAt r j = if r < 19 then c.charAt (r + 1) j else 0x20 := by
  have hblank := blankLoop_cell 80 1520 (j + 80 * r) (scrollLoop 1520 0 c.vid)
  have hmove := scrollLoop_cell 1520 0 (j + 80 * r) c.vid
  have hrow : j + 80 * r + 80 = j + 80 * (r + 1) := by omega
  show blankLoop 80 (2 * 1520) (scrollLoop 1520 0 c.vid) (2 * (j + 80 * r)) = _
  rw [hblank]
  by_cases hlast : r < 19
  · rw [if_neg (by omega), if_pos hlast, hmove, if_pos (by omega), hrow]
    rfl
  · rw [if_pos (by omega), if_neg hlast]

/-! ### Lines -/

theorem linesOf_newline (text : List Byte) : linesOf (0x0a :: text) = [] :: linesOf text := by
  unfold linesOf
  rw [List.splitOn_cons_eq_if_modifyHead]
  rfl

theorem linesOf_cons {ch : Byte} (h : ch ≠ 0x0a) (text : List Byte) :
    linesOf (ch :: text) = (linesOf text).modifyHead (ch :: ·) := by
  unfold linesOf
  rw [List.splitOn_cons_eq_if_modifyHead, if_neg (by simpa using h)]

theorem linesOf_eq_cons (text : List Byte) : ∃ line rest, linesOf text = line :: rest :=
  List.exists_cons_of_ne_nil (List.splitOn_ne_nil _ _)

/-- The lines of a text after some lines `pre` and the beginning `cur` of another. -/
def continued (pre : List (List Byte)) (cur : List Byte) (text : List Byte) : List (List Byte) :=
  pre ++ (linesOf text).modifyHead (cur ++ ·)

theorem continued_nil (pre : List (List Byte)) (cur : List Byte) : continued pre cur [] = pre ++ [cur] := by
  simp [continued, linesOf]

theorem continued_newline (pre : List (List Byte)) (cur text : List Byte) :
    continued pre cur (0x0a :: text) = continued (pre ++ [cur]) [] text := by
  obtain ⟨line, rest, hlines⟩ := linesOf_eq_cons text
  rw [continued, linesOf_newline]
  simp [continued, hlines]

theorem continued_cons (pre : List (List Byte)) (cur : List Byte) {ch : Byte} (h : ch ≠ 0x0a) (text : List Byte) :
    continued pre cur (ch :: text) = continued pre (cur ++ [ch]) text := by
  obtain ⟨line, rest, hlines⟩ := linesOf_eq_cons text
  simp [continued, linesOf_cons h, hlines]

/-! ### One character -/

theorem cPrintf_newline (c : Screen) : c.cPrintf 0x0a = c.nextRow := rfl

theorem cPrintf_draw {ch : Byte} (hp : Plain ch) (hn : ch ≠ 0x0a) : c.cPrintf ch = c.draw ch := by
  obtain ⟨hb, ht, hr⟩ := hp
  rw [Screen.cPrintf, if_neg hb, if_neg hn, if_neg ht, if_neg hr]

theorem target_eq {x y : Nat} (hx : c.csrX = x) (hy : c.csrY = y) (hlt : x < 80) (hrow : y < 20) :
    c.target = some (x + 80 * y) := by
  unfold Screen.target
  rw [hx, hy, if_pos (by omega)]
  congr 1
  omega

theorem draw_inside {x y : Nat} (hx : c.csrX = x) (hy : c.csrY = y) (hlt : x < 80) (hrow : y < 20) (ch : Byte) :
    c.draw ch = ⟨setCell c.vid (2 * (x + 80 * y)) ch, x + 1, y⟩ := by
  unfold Screen.draw
  rw [target_eq hx hy hlt hrow]
  dsimp only
  rw [if_neg (by omega), hx, hy]

/-- Behind the last column nothing is drawn. -/
theorem draw_edge (hx : c.csrX = 80) (ch : Byte) : c.target = none ∧ c.draw ch = c.nextRow := by
  have htarget : c.target = none := if_neg (by omega)
  refine ⟨htarget, ?_⟩
  unfold Screen.draw
  rw [htarget]
  dsimp only
  rw [if_pos (by omega)]

theorem nextRow_above (h : c.csrY < 19) : c.nextRow = {c with csrX := 0, csrY := c.csrY + 1} := by
  unfold Screen.nextRow
  dsimp only
  rw [if_neg (by omega)]

theorem nextRow_last (h : c.csrY = 19) : c.nextRow = c.windowScroll := by
  unfold Screen.nextRow
  dsimp only
  rw [if_pos (by omega)]
  rfl

/-! ### The last lines -/

/-- The window after the lines `pre`, in the line `cur`. -/
structure Shows (c : Screen) (pre : List (List Byte)) (cur : List Byte) : Prop where
  rows : ∀ r < 20, ∀ j < 80, c.charAt r j = ((pre ++ [cur]).getD (r + (pre.length - 19)) []).getD j 0x20
  csrX : c.csrX = cur.length
  csrY : c.csrY = (min pre.length 19 : Nat)

variable {pre : List (List Byte)} {cur : List Byte}

theorem reset_shows (c : Screen) : Shows c.reset [] [] where
  rows := fun r hr j hj => by
    have hblank := blankLoop_cell (80 * 15 * 2 + 1) 0 (j + 80 * r) c.vid
    rw [if_pos (by omega), Nat.mul_zero] at hblank
    have hline : ([] ++ [[]] : List (List Byte)).getD (r + (0 - 19)) [] = [] := by
      cases r <;> rfl
    rw [List.length_nil, hline, Screen.charAt, Screen.reset]
    dsimp only
    rw [hblank]
    rfl
  csrX := rfl
  csrY := rfl

section
variable {α : Type}

theorem getD_concat_length (l : List α) (a d : α) : (l ++ [a]).getD l.length d = a := by
  rw [List.getD_eq_getElem?_getD, List.getElem?_concat_length]
  rfl

theorem getD_concat_of_ne {l : List α} {i : Nat} (h : i ≠ l.length) (a d : α) : (l ++ [a]).getD i d = l.getD i d := by
  by_cases hlt : i < l.length
  · exact List.getD_append _ _ _ _ hlt
  · rw [List.getD_eq_default l _ (by omega), List.getD_eq_default _ _ (by simp; omega)]

/-- What is read where nothing stands can stand at the end as well. -/
theorem getD_concat_default (l : List α) (i : Nat) (d : α) : (l ++ [d]).getD i d = l.getD i d := by
  by_cases hi : i = l.length
  · rw [hi, getD_concat_length, List.getD_eq_default _ _ (Nat.le_refl _)]
  · exact getD_concat_of_ne hi d d

end

theorem Shows.newline (h : Shows c pre cur) : Shows c.nextRow (pre ++ [cur]) [] := by
  have hlen : (pre ++ [cur]).length = pre.length + 1 := by rw [List.length_append]; rfl
  by_cases habove : pre.length < 19
  · have hy : c.csrY < 19 := by
      rw [h.csrY]
      omega
    rw [nextRow_above hy]
    refine ⟨fun r hr j hj => ?_, rfl, ?_⟩
    · have hsame : pre.length + 1 - 19 = pre.length - 19 := by omega
      rw [hlen, hsame, getD_concat_default]
      exact h.rows r hr j hj
    · rw [hlen]
      show c.csrY + 1 = _
      rw [h.csrY]
      omega
  · have hy : c.csrY = 19 := by
      rw [h.csrY]
      omega
    rw [nextRow_last hy]
    refine ⟨fun r hr j hj => ?_, rfl, ?_⟩
    · rw [windowScroll_charAt hr hj, hlen, getD_concat_default]
      by_cases hlast : r < 19
      · have hup : r + 1 + (pre.length - 19) = r + (pre.length + 1 - 19) := by omega
        rw [if_pos hlast, h.rows (r + 1) (by omega) j hj, hup]
      · have hnone : (pre ++ [cur]).getD (r + (pre.length + 1 - 19)) [] = [] :=
          List.getD_eq_default _ _ (by rw [hlen]; omega)
        rw [if_neg hlast, hnone]
        rfl
    · rw [hlen, Nat.min_eq_right (by omega)]
      rfl

theorem Shows.char (h : Shows c pre cur) (hcur : cur.length < 80) (ch : Byte) :
    Shows (c.draw ch) pre (cur ++ [ch]) := by
  rw [draw_inside h.csrX h.csrY hcur (by omega)]
  refine ⟨fun r hr j hj => ?_, ?_, rfl⟩
  · have hcell := setCell_cell c.vid (cur.length + 80 * min pre.length 19) (j + 80 * r) ch
    show setCell c.vid (2 * (cur.length + 80 * min pre.length 19)) ch (2 * (j + 80 * r)) = _
    rw [hcell]
    -- the row of the cursor is the row of the last line
    by_cases hrow : r = min pre.length 19
    · have hidx : r + (pre.length - 19) = pre.length := by omega
      have hold := h.rows r hr j hj
      rw [hidx, getD_concat_length] at hold
      rw [hidx, getD_concat_length]
      by_cases hj' : j = cur.length
      · subst hj'
        rw [if_pos (by rw [hrow]), getD_concat_length]
      · rw [if_neg (by omega), getD_concat_of_ne hj']
        exact hold
    · have hidx : r + (pre.length - 19) ≠ pre.length := by omega
      have hold := h.rows r hr j hj
      rw [getD_concat_of_ne hidx] at hold
      rw [if_neg (by omega), getD_concat_of_ne hidx]
      exact hold
  · rw [List.length_append]
    rfl

/-- A whole text, from any line that is not full. -/
theorem Shows.print (h : Shows c pre cur) (text : List Byte) (hplain : ∀ ch ∈ text, Plain ch)
    (hfit : ∀ line ∈ continued pre cur text, line.length ≤ 80) :
    ∃ pre' cur', continued pre cur text = pre' ++ [cur'] ∧ Shows (c.print text) pre' cur' := by
  induction text generalizing c pre cur with
  | nil => exact ⟨pre, cur, continued_nil pre cur, h⟩
  | cons ch rest ih =>
    have hrest : ∀ ch ∈ rest, Plain ch := fun d hd => hplain d (List.mem_cons_of_mem _ hd)
    by_cases hn : ch = 0x0a
    · subst hn
      rw [continued_newline] at hfit ⊢
      exact ih h.newline hrest hfit
    · rw [continued_cons pre cur hn] at hfit ⊢
      have hcur : cur.length < 80 := by
        obtain ⟨line, lines, hlines⟩ := linesOf_eq_cons rest
        have hlen := hfit (cur ++ [ch] ++ line) (by simp [continued, hlines])
        simp only [List.length_append, List.length_singleton] at hlen
        omega
      have hdraw := cPrintf_draw (c := c) (hplain ch (List.mem_cons_self ..)) hn
      have hnext := h.char hcur ch
      rw [← hdraw] at hnext
      exact ih hnext hrest hfit

/-- After `reset`, a text whose lines fit into a row is shown by its last 20 lines. -/
theorem console_shows_last (c : Screen) (text : List Byte) (hplain : ∀ ch ∈ text, Plain ch)
    (hfit : ∀ line ∈ linesOf text, line.length ≤ 80) : ShowsLast (c.reset.print text) (linesOf text) := by
  have hstart : continued [] [] text = linesOf text := by
    obtain ⟨line, rest, hlines⟩ := linesOf_eq_cons text
    simp [continued, hlines]
  obtain ⟨pre, cur, hlines, h⟩ := (reset_shows c).print text hplain (by rw [hstart]; exact hfit)
  rw [hstart] at hlines
  have hlen : (pre ++ [cur]).length - 1 = pre.length := by rw [List.length_append]; rfl
  rw [hlines]
  refine ⟨?_, ?_, ?_⟩
  · rw [hlen]
    exact h.rows
  · rw [List.getLastD_concat]
    exact h.csrX
  · rw [hlen, h.csrY]

/-! ### The right edge -/

theorem nextRow_cursor (h : InWindow c) : InWindow c.nextRow ∧ c.nextRow.csrX = 0 := by
  obtain ⟨hx, hx', hy, hy'⟩ := h
  obtain hlt | hlast : c.csrY < 19 ∨ c.csrY = 19 := by omega
  · rw [nextRow_above hlt]
    refine ⟨⟨Int.le_refl 0, ?_, ?_, ?_⟩, rfl⟩
    · show (0 : Int) ≤ 80
      decide
    · show 0 ≤ c.csrY + 1
      omega
    · show c.csrY + 1 ≤ 19
      omega
  · rw [nextRow_last hlast]
    have hright : (0 : Int) ≤ 80 := by decide
    have hdown : (0 : Int) ≤ 19 := by decide
    exact ⟨⟨Int.le_refl 0, hright, hdown, Int.le_refl 19⟩, rfl⟩

/-- Before the right edge a character is stored and the cursor moves on. -/
theorem draw_before_edge (h : InWindow c) (hx : c.csrX < 80) {ch : Byte} (hp : Plain ch) (hn : ch ≠ 0x0a) :
    Stored c ch ∧ InWindow (c.cPrintf ch) ∧ (c.cPrintf ch).csrX = c.csrX + 1 := by
  obtain ⟨hx₀, _, hy₀, hy⟩ := h
  obtain ⟨x, hcx⟩ := Int.eq_ofNat_of_zero_le hx₀
  obtain ⟨y, hcy⟩ := Int.eq_ofNat_of_zero_le hy₀
  have hdraw := draw_inside hcx hcy (by omega) (by omega) ch
  have hcell := setCell_cell c.vid (x + 80 * y) (x + 80 * y) ch
  rw [if_pos rfl] at hcell
  unfold Stored InWindow
  rw [cPrintf_draw hp hn, hdraw]
  refine ⟨⟨x + 80 * y, by omega, target_eq hcx hcy (by omega) (by omega), hcell⟩, ?_, ?_⟩
  · dsimp only
    omega
  · dsimp only
    omega

/-- Printing a text from a position in the window drops no character just when every line fits
into what is left of its row. -/
theorem none_dropped_iff (c : Screen) (text : List Byte) (h : InWindow c) (hplain : ∀ ch ∈ text, Plain ch) :
    NoneDropped c text ↔
      c.csrX + ((linesOf text).headD []).length ≤ 80 ∧ ∀ line ∈ (linesOf text).tail, line.length ≤ 80 := by
  induction text generalizing c with
  | nil =>
    refine iff_of_true h ⟨?_, fun _ hline => (nomatch hline)⟩
    have := h.2.1
    simpa [linesOf] using this
  | cons ch rest ih =>
    obtain ⟨first, lines, hlines⟩ := linesOf_eq_cons rest
    have hrest : ∀ ch ∈ rest, Plain ch := fun d hd => hplain d (List.mem_cons_of_mem _ hd)
    rw [NoneDropped, and_iff_right h]
    by_cases hn : ch = 0x0a
    · subst hn
      obtain ⟨hnext, hx⟩ := nextRow_cursor h
      have hleft := h.2.1
      rw [and_iff_right (fun hc => absurd rfl hc), cPrintf_newline, ih _ hnext hrest, hx, linesOf_newline, hlines]
      simp only [List.headD_cons, List.tail_cons, List.length_nil, List.forall_mem_cons]
      constructor
      · intro hfit
        exact ⟨by omega, by omega, hfit.2⟩
      · intro hfit
        exact ⟨by omega, hfit.2.2⟩
    · rw [linesOf_cons hn, hlines, List.modifyHead_cons, List.headD_cons, List.tail_cons, List.length_cons]
      have hp := hplain ch (List.mem_cons_self ..)
      obtain hlt | hedge : c.csrX < 80 ∨ c.csrX = 80 := by
        have := h.2.1
        omega
      · obtain ⟨hstored, hnext, hx⟩ := draw_before_edge h hlt hp hn
        rw [and_iff_right (fun _ => hstored), ih _ hnext hrest, hx, hlines, List.headD_cons, List.tail_cons]
        push_cast
        rw [add_assoc, add_comm (1 : Int)]
      · -- the character is not drawn, and the line is too long
        have hnone := (draw_edge hedge ch).1
        refine iff_of_false (fun hc => ?_) (fun hc => ?_)
        · obtain ⟨i, _, htarget, _⟩ := hc.1 hn
          rw [hnone] at htarget
          cases htarget
        · have := hc.1
          omega

/-- The cursor stays in the window in any case. -/
theorem print_inWindow (c : Screen) (text : List Byte) (h : InWindow c) (hplain : ∀ ch ∈ text, Plain ch) :
    InWindow (c.print text) := by
  induction text generalizing c with
  | nil => exact h
  | cons ch rest ih =>
    refine ih _ ?_ fun d hd => hplain d (List.mem_cons_of_mem _ hd)
    have hp := hplain ch (List.mem_cons_self ..)
    by_cases hn : ch = 0x0a
    · subst hn
      exact (nextRow_cursor h).1
    · obtain hlt | hedge : c.csrX < 80 ∨ c.csrX = 80 := by
        have := h.2.1
        omega
      · exact (draw_before_edge h hlt hp hn).2.1
      · rw [cPrintf_draw hp hn, (draw_edge hedge ch).2]
        exact (nextRow_cursor h).1

end

/-! ### Short texts -/

/-- A blank screen. -/
def blank : Screen := ⟨fun _ => 0x20, 0, 0⟩

/-- The letters from a to z, each twice and on a line of its own. -/
def alphabet : List Byte := (List.range 26).flatMap fun i => [BitVec.ofNat 8 (0x61 + i), BitVec.ofNat 8 (0x61 + i), 0x0a]

/-- 27 lines with the empty one at the end: the screen has scrolled seven times, and begins with
the row of the letter h. -/
theorem console_shows_alphabet :
    ShowsLast (blank.reset.print alphabet)
      ((List.range 26).map (fun i => [BitVec.ofNat 8 (0x61 + i), BitVec.ofNat 8 (0x61 + i)]) ++ [[]]) := by
  have hlines : linesOf alphabet =
      (List.range 26).map (fun i => [BitVec.ofNat 8 (0x61 + i), BitVec.ofNat 8 (0x61 + i)]) ++ [[]] := by decide +kernel
  have h := console_shows_last blank alphabet (by unfold Plain; decide +kernel) (by rw [hlines]; decide +kernel)
  rwa [hlines] at h

theorem blank_inWindow : InWindow blank := by
  unfold InWindow blank
  decide

theorem none_dropped_two : NoneDropped blank [0x61, 0x62, 0x0a, 0x63] := by
  have hlines : linesOf [0x61, 0x62, 0x0a, 0x63] = [[0x61, 0x62], [0x63]] := by decide
  refine (none_dropped_iff blank [0x61, 0x62, 0x0a, 0x63] blank_inWindow (by unfold Plain; decide)).mpr ?_
  rw [hlines]
  decide

/-- A row of the letter a fills the first row, and the next one is not drawn. -/
theorem edge_drops : InWindow (blank.reset.print (List.replicate 80 0x61)) ∧
    ¬ NoneDropped (blank.reset.print (List.replicate 80 0x61)) [0x61] := by
  have hlines : continued [] [] (List.replicate 80 0x61) = [] ++ [List.replicate 80 0x61] := by decide +kernel
  obtain ⟨pre, cur, heq, h⟩ := (reset_shows blank).print (List.replicate 80 0x61)
    (fun ch hch => by rw [List.eq_of_mem_replicate hch]; unfold Plain; decide)
    (by rw [hlines]; decide)
  obtain ⟨rfl, hcur⟩ := List.append_inj' (hlines.symm.trans heq) rfl
  obtain rfl := List.singleton_inj.mp hcur
  have hx : (blank.reset.print (List.replicate 80 0x61)).csrX = 80 := h.csrX
  have hy : (blank.reset.print (List.replicate 80 0x61)).csrY = 0 := h.csrY
  refine ⟨⟨by omega, by omega, by omega, by omega⟩, fun hnone => ?_⟩
  obtain ⟨i, _, htarget, _⟩ := hnone.2.1 (by decide)
  rw [(draw_edge hx 0x61).1] at htarget
  cases htarget

end Sbnix.Console
