import Sbnix.Console.Format
import Sbnix.Console.Screen
import Sbnix.Library.Run

/-! The clock (`sys/timer.c`, lines 55 to 118).

Every hundredth interrupt of the timer is a second, and `call_timer` writes the time since
boot into the 23rd row, below the window that text is printed into. It moves the cursor
there and back, so text that is being printed goes on where it was (`clock_apart`), and
nothing that is printed reaches the clock (`clock_shows`).

The characters printed by the kernel and the interrupts come in any order. What `awake` and
`schedule` do on every 18th interrupt is in the modules on the scheduler. -/
namespace Sbnix.Console
open Library Library.Store

/-! ### The time -/

def fillTimer (m : Store) (str num : Nat) : Store :=
  if num ≤ 9 then put (put m str [0x30]) (str + 1) [BitVec.ofNat 8 (num + 48)]
  else put (put m str [BitVec.ofNat 8 (num / 10 + 48)]) (str + 1) [BitVec.ofNat 8 (num % 10 + 48)]

/-- `str_time`, of ten characters, and a zero behind it. -/
def strTime (m : Store) (str hours mins secs : Nat) : Store :=
  let m := fillTimer m str hours
  let m := put (put m (str + 2) [0x3a]) (str + 3) [0x3a]
  let m := fillTimer m (str + 4) mins
  let m := put (put m (str + 6) [0x3a]) (str + 7) [0x3a]
  let m := fillTimer m (str + 8) secs
  put m (str + 10) [0]

structure Desk where
  screen : Screen
  counter : Nat
  time : Nat

def Screen.gotoxy (c : Screen) (x y : Int) : Screen := {c with csrX := x, csrY := y}

/-- `call_timer`, on a stack with the given contents and `str_time` at the given place.
`none` when the seconds do not fit into an `int`. -/
def Desk.callTimer (d : Desk) (m : Store) (str : Nat) : Option Desk :=
  let counter := (d.counter + 1) % 2 ^ 64
  if counter % 100 = 0 then
    let time := d.time + 1
    if time < 2 ^ 31 then
      let hours := time / 3600
      let mins := (time - hours * 3600) / 60
      let secs := time % 60
      let hours := hours % 24
      let x := d.screen.csrX
      let y := d.screen.csrY
      (stringAt (strTime m str hours mins secs) str).map fun text =>
        ⟨((d.screen.gotoxy 66 22).print text).gotoxy x y, counter, time⟩
    else none
  else some {d with counter := counter}

/-- A character is printed, or the timer interrupts. -/
inductive Beat where
  | char (ch : Byte)
  | tick (m : Store) (str : Nat)

namespace Desk

def step (d : Desk) : Beat → Option Desk
  | .char ch => some {d with screen := d.screen.cPrintf ch}
  | .tick m str => d.callTimer m str

/-- `start` clears the screen. -/
def boot (c : Screen) : Desk := ⟨c.reset, 0, 0⟩

end Desk

def Beat.byte : Beat → Option Byte
  | .char ch => some ch
  | .tick _ _ => none

def Beat.isTick : Beat → Bool
  | .char _ => false
  | .tick _ _ => true

def twoDigits (n : Nat) : List Byte := [BitVec.ofNat 8 (n / 10 + 48), BitVec.ofNat 8 (n % 10 + 48)]

/-- The time of day after so many seconds. -/
def timeText (t : Nat) : List Byte :=
  twoDigits (t / 3600 % 24) ++ [0x3a, 0x3a] ++ twoDigits (t / 60 % 60) ++ [0x3a, 0x3a] ++ twoDigits (t % 60)

/-- The bytes of the clock's cells. -/
def InClock (a : Nat) : Prop := 2 * (66 + 80 * 22) ≤ a ∧ a < 2 * (76 + 80 * 22)

/-- The same cursor and the same video memory, but for the clock. -/
structure Apart (c c' : Screen) : Prop where
  vid : ∀ a, ¬ InClock a → c.vid a = c'.vid a
  csrX : c.csrX = c'.csrX
  csrY : c.csrY = c'.csrY

variable {c c' : Screen} {d d' : Desk} {m : Store} {str : Nat}

/-! ### The string -/

theorem fillTimer_eq (m : Store) (str : Nat) {num : Nat} (h : num < 100) :
    fillTimer m str num = put m str (twoDigits num) := by
  unfold fillTimer twoDigits
  split
  · have hzero : num / 10 = 0 := by omega
    have hrest : num % 10 = num := by omega
    rw [hzero, hrest]
    exact put_append m str [0x30] _
  · exact put_append m str [_] _

theorem strTime_eq (m : Store) (str : Nat) {hours mins secs : Nat} (hh : hours < 100) (hm : mins < 100) (hs : secs < 100) :
    strTime m str hours mins secs = put m str
      (twoDigits hours ++ [0x3a] ++ [0x3a] ++ twoDigits mins ++ [0x3a] ++ [0x3a] ++ twoDigits secs ++ [0]) := by
  unfold strTime
  dsimp only
  rw [fillTimer_eq _ _ hh, fillTimer_eq _ _ hm, fillTimer_eq _ _ hs]
  -- each piece follows the one before
  simp (disch := simp [twoDigits]) only [put_put]

theorem length_timeText (t : Nat) : (timeText t).length = 10 := rfl

theorem digit_plain {n : Nat} (h : n < 10) : BitVec.ofNat 8 (n + 48) ≠ 0 ∧ Plain (BitVec.ofNat 8 (n + 48)) ∧
    BitVec.ofNat 8 (n + 48) ≠ 0x0a := by
  unfold Plain
  interval_cases n <;> decide

theorem twoDigits_plain {n : Nat} (h : n < 100) : ∀ ch ∈ twoDigits n, ch ≠ 0 ∧ Plain ch ∧ ch ≠ 0x0a := by
  intro ch hch
  simp only [twoDigits, List.mem_cons, List.not_mem_nil, or_false] at hch
  obtain rfl | rfl := hch
  · exact digit_plain (by omega)
  · exact digit_plain (by omega)

/-- Digits and colons. -/
theorem timeText_plain (t : Nat) : ∀ ch ∈ timeText t, ch ≠ 0 ∧ Plain ch ∧ ch ≠ 0x0a := by
  intro ch hch
  have hcolon : ∀ ch ∈ [(0x3a : Byte), 0x3a], ch ≠ 0 ∧ Plain ch ∧ ch ≠ 0x0a := by
    unfold Plain
    decide
  simp only [timeText, List.mem_append] at hch
  obtain (((hch | hch) | hch) | hch) | hch := hch
  · exact twoDigits_plain (by omega) ch hch
  · exact hcolon ch hch
  · exact twoDigits_plain (by omega) ch hch
  · exact hcolon ch hch
  · exact twoDigits_plain (by omega) ch hch

/-- What `printk` finds at `str_time`. -/
theorem strTime_string (m : Store) (str t : Nat) :
    stringAt (strTime m str (t / 3600 % 24) ((t - t / 3600 * 3600) / 60) (t % 60)) str = some (timeText t) := by
  have hmins : (t - t / 3600 * 3600) / 60 = t / 60 % 60 := by omega
  have htext : strTime m str (t / 3600 % 24) (t / 60 % 60) (t % 60) = put m str (timeText t ++ [0]) :=
    strTime_eq m str (by omega) (by omega) (by omega)
  rw [hmins, htext]
  refine stringAt_spells ⟨put_holds m str _, fun hz => (timeText_plain t 0 hz).1 rfl⟩ ?_
  rw [length_timeText]
  decide

/-! ### Printing into a row -/

/-- A text that fits into the rest of a row on the screen is drawn there, and nowhere else. -/
theorem print_row {x y : Nat} (hx : c.csrX = x) (hy : c.csrY = y) (hrow : y < 25) (text : List Byte)
    (hplain : ∀ ch ∈ text, Plain ch ∧ ch ≠ 0x0a) (hfit : x + text.length ≤ 80) :
    (∀ i (hi : i < text.length), (c.print text).vid (2 * (x + 80 * y + i)) = text[i]) ∧
      ∀ a, a < 2 * (x + 80 * y) ∨ 2 * (x + 80 * y + text.length) ≤ a → (c.print text).vid a = c.vid a := by
  induction text generalizing c x with
  | nil => exact ⟨fun i hi => absurd hi (Nat.not_lt_zero _), fun a _ => rfl⟩
  | cons ch rest ih =>
    rw [List.length_cons] at hfit
    obtain ⟨hp, hn⟩ := hplain ch (List.mem_cons_self ..)
    have htarget : c.target = some (x + 80 * y) := by
      unfold Screen.target
      rw [hx, hy, if_pos (by omega)]
      congr 1
      omega
    have hdraw : c.cPrintf ch = ⟨setCell c.vid (2 * (x + 80 * y)) ch, (x + 1 : Nat), y⟩ := by
      rw [cPrintf_draw hp hn, Screen.draw, htarget]
      dsimp only
      rw [if_neg (by omega), hx, hy]
      rfl
    have hprint : c.print (ch :: rest) = (c.cPrintf ch).print rest := rfl
    obtain ⟨hdrawn, hother⟩ := ih (c := c.cPrintf ch) (x := x + 1) (by rw [hdraw]) (by rw [hdraw])
      (fun ch' hch => hplain ch' (List.mem_cons_of_mem _ hch)) (by omega)
    have hvid : ∀ a, (c.cPrintf ch).vid a = setCell c.vid (2 * (x + 80 * y)) ch a := fun a => by rw [hdraw]
    rw [hprint]
    refine ⟨fun i hi => ?_, fun a ha => ?_⟩
    · cases i with
      | zero =>
        rw [hother _ (by omega), hvid, setCell_cell, if_pos (by omega)]
        rfl
      | succ i =>
        have hnext : x + 80 * y + (i + 1) = x + 1 + 80 * y + i := by omega
        rw [hnext, hdrawn i (Nat.lt_of_succ_lt_succ hi)]
        rfl
    · rw [List.length_cons] at ha
      rw [hother a (by omega), hvid, setCell, Function.update_of_ne (by omega), Function.update_of_ne (by omega)]

/-! ### One second -/

/-- An interrupt that ends no second leaves the screen alone; the others rewrite the clock. -/
theorem callTimer_cases (h : d.callTimer m str = some d') :
    d'.counter = (d.counter + 1) % 2 ^ 64 ∧
      (d'.counter % 100 ≠ 0 ∧ d'.screen = d.screen ∧ d'.time = d.time ∨
        d'.counter % 100 = 0 ∧ d'.time = d.time + 1 ∧ d'.time < 2 ^ 31 ∧
          d'.screen = ((d.screen.gotoxy 66 22).print (timeText (d.time + 1))).gotoxy d.screen.csrX d.screen.csrY) := by
  unfold Desk.callTimer at h
  dsimp only at h
  by_cases hsec : (d.counter + 1) % 2 ^ 64 % 100 = 0
  · rw [if_pos hsec] at h
    by_cases htime : d.time + 1 < 2 ^ 31
    · rw [if_pos htime, strTime_string] at h
      obtain rfl := Option.some.inj h
      exact ⟨rfl, Or.inr ⟨hsec, rfl, htime, rfl⟩⟩
    · rw [if_neg htime] at h
      cases h
  · rw [if_neg hsec] at h
    obtain rfl := Option.some.inj h
    exact ⟨rfl, Or.inl ⟨hsec, rfl, rfl⟩⟩

/-! ### Apart from the clock -/

theorem Apart.refl (c : Screen) : Apart c c := ⟨fun _ _ => rfl, rfl, rfl⟩

section
variable {vid vid' : Store} (h : ∀ a, ¬ InClock a → vid a = vid' a)
include h

theorem setCell_apart (a : Nat) (ch : Byte) : ∀ x, ¬ InClock x → setCell vid a ch x = setCell vid' a ch x := by
  intro x hx
  unfold setCell
  rw [Function.update_apply, Function.update_apply, Function.update_apply, Function.update_apply, h x hx]

theorem blankLoop_apart (n a : Nat) : ∀ x, ¬ InClock x → blankLoop n a vid x = blankLoop n a vid' x := by
  induction n generalizing a vid vid' with
  | zero => exact h
  | succ n ih => exact ih (setCell_apart h a 0x20) (a + 2)

/-- The rows that move up are those of the window. -/
theorem scrollLoop_apart (n a : Nat) (ha : a + 2 * n + 158 < 2 * (66 + 80 * 22)) :
    ∀ x, ¬ InClock x → scrollLoop n a vid x = scrollLoop n a vid' x := by
  induction n generalizing a vid vid' with
  | zero => exact h
  | succ n ih =>
    have hread : vid (a + 160) = vid' (a + 160) := h _ (fun hc => by have := hc.1; omega)
    rw [scrollLoop, scrollLoop, hread]
    exact ih (setCell_apart h a _) (a + 2) (by omega)

end

theorem Apart.windowScroll (h : Apart c c') : Apart c.windowScroll c'.windowScroll :=
  ⟨blankLoop_apart (scrollLoop_apart h.vid (20 * 80 - 80) 0 (by decide)) 80 _, rfl, rfl⟩

theorem Apart.nextRow (h : Apart c c') : Apart c.nextRow c'.nextRow := by
  have hmoved : Apart {c with csrX := 0, csrY := c.csrY + 1} {c' with csrX := 0, csrY := c'.csrY + 1} :=
    ⟨h.vid, rfl, congrArg (· + 1) h.csrY⟩
  unfold Screen.nextRow
  dsimp only
  rw [h.csrY]
  split
  · rw [← h.csrY]
    exact hmoved.windowScroll
  · rw [← h.csrY]
    exact ⟨h.vid, rfl, rfl⟩

theorem Apart.draw (h : Apart c c') (ch : Byte) : Apart (c.draw ch) (c'.draw ch) := by
  have htarget : c.target = c'.target := by
    unfold Screen.target
    rw [h.csrX, h.csrY]
  have hmove : ∀ {c c' : Screen}, Apart c c' →
      Apart (if c.csrX ≥ 80 then c.nextRow else {c with csrX := c.csrX + 1})
        (if c'.csrX ≥ 80 then c'.nextRow else {c' with csrX := c'.csrX + 1}) := by
    intro c c' h
    rw [h.csrX]
    split
    · exact h.nextRow
    · exact ⟨h.vid, rfl, h.csrY⟩
  unfold Screen.draw
  rw [htarget]
  cases c'.target with
  | none => exact hmove h
  | some offset => exact hmove ⟨setCell_apart h.vid _ ch, h.csrX, h.csrY⟩

theorem Apart.cPrintf (h : Apart c c') (ch : Byte) : Apart (c.cPrintf ch) (c'.cPrintf ch) := by
  unfold Screen.cPrintf
  split
  · have hleft : Apart {c with csrX := c.csrX - 1} {c' with csrX := c'.csrX - 1} :=
      ⟨h.vid, congrArg (· - 1) h.csrX, h.csrY⟩
    have hback := hleft.draw 0x20
    exact ⟨hback.vid, congrArg (· - 1) hback.csrX, hback.csrY⟩
  · split
    · exact h.nextRow
    · split
      · exact ⟨h.vid, congrArg (· + 8) h.csrX, h.csrY⟩
      · split
        · exact ⟨h.vid, rfl, h.csrY⟩
        · exact h.draw ch

/-- An interrupt writes the clock at most. -/
theorem callTimer_apart (h : d.callTimer m str = some d') : Apart d'.screen d.screen := by
  obtain ⟨_, ⟨_, hscreen, _⟩ | ⟨_, _, _, hscreen⟩⟩ := callTimer_cases h
  · rw [hscreen]
    exact .refl _
  · rw [hscreen]
    refine ⟨fun a ha => ?_, rfl, rfl⟩
    have hother := (print_row (c := d.screen.gotoxy 66 22) (x := 66) (y := 22) rfl rfl (by decide)
      (timeText (d.time + 1)) (fun ch hch => (timeText_plain _ ch hch).2) (Nat.le_of_ble_eq_true rfl)).2
    refine hother a ?_
    rw [length_timeText]
    by_contra hc
    exact ha ⟨by omega, by omega⟩

/-- Whatever is printed, interrupts at any points of it change the clock's ten cells and
nothing else: the cursor and all other cells are those of the same text printed without
them. -/
theorem clock_apart (d d' : Desk) (beats : List Beat) (h : run Desk.step d beats = some d') :
    Apart d'.screen (d.screen.print (beats.filterMap Beat.byte)) := by
  suffices hall : ∀ c, Apart d.screen c → Apart d'.screen (c.print (beats.filterMap Beat.byte)) from
    hall d.screen (.refl _)
  induction beats generalizing d with
  | nil =>
    obtain rfl := Option.some.inj h
    exact fun c hc => hc
  | cons beat rest ih =>
    intro c hc
    obtain ⟨d₁, hs, hr⟩ := run_cons_some h
    cases beat with
    | char ch =>
      obtain rfl := Option.some.inj hs
      exact ih _ hr _ (hc.cPrintf ch)
    | tick m str =>
      have hclock := callTimer_apart hs
      exact ih d₁ hr c ⟨fun a ha => (hclock.vid a ha).trans (hc.vid a ha), hclock.csrX.trans hc.csrX,
        hclock.csrY.trans hc.csrY⟩

/-- The first second ends between two letters. -/
theorem clock_apart_second :
    ∃ d, run Desk.step ⟨blank, 99, 0⟩ [.char 0x61, .tick (fun _ => 0) 0, .char 0x61] = some d ∧
      Apart d.screen (blank.print [0x61, 0x61]) :=
  ⟨_, rfl, clock_apart ⟨blank, 99, 0⟩ _ [.char 0x61, .tick (fun _ => 0) 0, .char 0x61] rfl⟩

/-! ### What the clock shows -/

/-- The cursor is in a row of the window, in any column. -/
def InRows (c : Screen) : Prop := 0 ≤ c.csrY ∧ c.csrY ≤ 19

/-- The cursor stays in the rows, and the video memory below the window is as it was. -/
def StaysAbove (c c' : Screen) : Prop := InRows c' ∧ ∀ a, 2 * (80 * 20) ≤ a → c'.vid a = c.vid a

theorem blankLoop_above (n a : Nat) (vid : Store) {x : Nat} (hx : a + 2 * n ≤ x) : blankLoop n a vid x = vid x := by
  induction n generalizing a vid with
  | zero => rfl
  | succ n ih =>
    rw [blankLoop, ih _ _ (by omega), setCell, Function.update_of_ne (by omega), Function.update_of_ne (by omega)]

theorem scrollLoop_above (n a : Nat) (vid : Store) {x : Nat} (hx : a + 2 * n ≤ x) : scrollLoop n a vid x = vid x := by
  induction n generalizing a vid with
  | zero => rfl
  | succ n ih =>
    rw [scrollLoop, ih _ _ (by omega), setCell, Function.update_of_ne (by omega), Function.update_of_ne (by omega)]

theorem nextRow_above_clock (h : InRows c) : StaysAbove c c.nextRow := by
  obtain ⟨hlow, hhigh⟩ := h
  by_cases hlast : c.csrY = 19
  · rw [nextRow_last hlast]
    have hdown : (0 : Int) ≤ 19 := by decide
    refine ⟨⟨hdown, Int.le_refl 19⟩, fun a ha => ?_⟩
    show blankLoop 80 _ (scrollLoop _ 0 c.vid) a = _
    rw [blankLoop_above _ _ _ (by omega), scrollLoop_above _ _ _ (by omega)]
  · rw [nextRow_above (by omega)]
    refine ⟨⟨?_, ?_⟩, fun _ _ => rfl⟩
    · show 0 ≤ c.csrY + 1
      omega
    · show c.csrY + 1 ≤ 19
      omega

theorem draw_above_clock (h : InRows c) (ch : Byte) : StaysAbove c (c.draw ch) := by
  have hmove : ∀ {c₁ : Screen}, InRows c₁ → (∀ a, 2 * (80 * 20) ≤ a → c₁.vid a = c.vid a) →
      StaysAbove c (if c₁.csrX ≥ 80 then c₁.nextRow else {c₁ with csrX := c₁.csrX + 1}) := by
    intro c₁ hrows hvid
    split
    · obtain ⟨hstays, hbelow⟩ := nextRow_above_clock hrows
      exact ⟨hstays, fun a ha => (hbelow a ha).trans (hvid a ha)⟩
    · exact ⟨hrows, hvid⟩
  unfold Screen.draw
  cases htarget : c.target with
  | none => exact hmove h fun _ _ => rfl
  | some offset =>
    refine hmove h fun a ha => ?_
    have hoffset : offset < 80 * 20 := by
      unfold Screen.target at htarget
      obtain ⟨hlow, hhigh⟩ := h
      split at htarget
      · obtain rfl := Option.some.inj htarget
        omega
      · cases htarget
    show setCell c.vid (2 * offset) ch a = _
    rw [setCell, Function.update_of_ne (by omega), Function.update_of_ne (by omega)]

theorem cPrintf_above_clock (h : InRows c) (ch : Byte) : StaysAbove c (c.cPrintf ch) := by
  unfold Screen.cPrintf
  split
  · have hleft : InRows {c with csrX := c.csrX - 1} := h
    exact draw_above_clock hleft 0x20
  · split
    · exact nextRow_above_clock h
    · split
      · exact ⟨h, fun _ _ => rfl⟩
      · split
        · exact ⟨h, fun _ _ => rfl⟩
        · exact draw_above_clock h ch

/-- The state after `n` interrupts. -/
structure Counted (d : Desk) (n : Nat) : Prop where
  rows : InRows d.screen
  counter : d.counter = n
  time : d.time = n / 100
  cells : ∀ i (hi : i < 10), d.screen.vid (2 * (66 + 80 * 22 + i)) = if n / 100 = 0 then 0x20 else (timeText (n / 100))[i]

theorem boot_counted (c : Screen) : Counted (.boot c) 0 where
  rows := by
    have hup : (0 : Int) ≤ 19 := by decide
    exact ⟨Int.le_refl 0, hup⟩
  counter := rfl
  time := rfl
  cells := fun i hi => by
    have hblank := blankLoop_cell (80 * 15 * 2 + 1) 0 (66 + 80 * 22 + i) c.vid
    rw [if_pos (by omega), Nat.mul_zero] at hblank
    rw [if_pos (Nat.zero_div _), Desk.boot, Screen.reset]
    dsimp only
    rw [hblank]

theorem Counted.char {n : Nat} (h : Counted d n) (ch : Byte) :
    Counted {d with screen := d.screen.cPrintf ch} n := by
  obtain ⟨hrows, hbelow⟩ := cPrintf_above_clock h.rows ch
  exact ⟨hrows, h.counter, h.time, fun i hi => (hbelow _ (by omega)).trans (h.cells i hi)⟩

theorem callTimer_some (m : Store) (str : Nat) (h : d.time + 1 < 2 ^ 31) : ∃ d', d.callTimer m str = some d' := by
  unfold Desk.callTimer
  dsimp only
  split
  · rw [strTime_string]
    exact ⟨_, rfl⟩
  · exact ⟨_, rfl⟩

theorem Counted.tick {n : Nat} (h : Counted d n) (hn : n + 1 < 100 * (2 ^ 31 - 1)) (m : Store) (str : Nat) :
    ∃ d', d.callTimer m str = some d' ∧ Counted d' (n + 1) := by
  obtain ⟨d', ht⟩ := callTimer_some (d := d) m str (by rw [h.time]; omega)
  obtain ⟨hcounter, hcases⟩ := callTimer_cases ht
  have hnext : d'.counter = n + 1 := by
    rw [hcounter, h.counter]
    omega
  rw [hnext, h.time] at hcases
  refine ⟨d', ht, ?_⟩
  obtain ⟨hsec, hscreen, htime⟩ | ⟨hsec, htime, _, hscreen⟩ := hcases
  · have hsame : (n + 1) / 100 = n / 100 := by omega
    refine ⟨by rw [hscreen]; exact h.rows, hnext, by rw [htime, hsame], ?_⟩
    rw [hscreen, hsame]
    exact h.cells
  · have hsecond : (n + 1) / 100 = n / 100 + 1 := by omega
    refine ⟨by rw [hscreen]; exact h.rows, hnext, by rw [htime, hsecond], fun i hi => ?_⟩
    have hdrawn := (print_row (c := d.screen.gotoxy 66 22) (x := 66) (y := 22) rfl rfl (by decide)
      (timeText (n / 100 + 1)) (fun ch hch => (timeText_plain _ ch hch).2) (Nat.le_of_ble_eq_true rfl)).1
    rw [hsecond, if_neg (by omega), hscreen]
    exact hdrawn i hi

/-- From boot on, whatever is printed and however the interrupts lie in it, as long as the
seconds fit into an `int`, the clock shows the time of day that a hundredth of their number
makes in seconds, and blanks during the first second. -/
theorem clock_shows (c : Screen) (beats : List Beat) (hfit : beats.countP Beat.isTick < 100 * (2 ^ 31 - 1)) :
    ∃ d, run Desk.step (.boot c) beats = some d ∧ d.time = beats.countP Beat.isTick / 100 ∧
      ∀ i (hi : i < 10), d.screen.vid (2 * (66 + 80 * 22 + i)) =
        if beats.countP Beat.isTick / 100 = 0 then 0x20 else (timeText (beats.countP Beat.isTick / 100))[i] := by
  suffices hall : ∀ beats d₀ n, n + beats.countP Beat.isTick < 100 * (2 ^ 31 - 1) → Counted d₀ n →
      ∃ d, run Desk.step d₀ beats = some d ∧ Counted d (n + beats.countP Beat.isTick) by
    obtain ⟨d, hd, hcounted⟩ := hall beats (.boot c) 0 (by omega) (boot_counted c)
    rw [Nat.zero_add] at hcounted
    exact ⟨d, hd, hcounted.time, hcounted.cells⟩
  intro beats
  induction beats with
  | nil => exact fun d₀ n _ hn => ⟨d₀, rfl, hn⟩
  | cons beat rest ih =>
    intro d₀ n hfit hn
    cases beat with
    | char ch =>
      rw [List.countP_cons_of_neg (by simp [Beat.isTick])] at hfit ⊢
      exact ih _ n hfit (hn.char ch)
    | tick m str =>
      rw [List.countP_cons_of_pos (by simp [Beat.isTick])] at hfit ⊢
      obtain ⟨d₁, hs, hn₁⟩ := hn.tick (by omega) m str
      obtain ⟨d, hr, hcounted⟩ := ih d₁ (n + 1) (by omega) hn₁
      refine ⟨d, ?_, ?_⟩
      · rw [run]
        exact (congrArg (fun o => o.bind fun s' => run Desk.step s' rest) hs).trans hr
      · rwa [Nat.add_assoc, Nat.add_comm 1] at hcounted

/-- After a hundred interrupts, `00::00::01`. -/
theorem clock_shows_second :
    ∃ d, run Desk.step (.boot blank) (List.replicate 100 (.tick (fun _ => 0) 0)) = some d ∧ d.time = 1 ∧
      ∀ i (hi : i < 10), d.screen.vid (2 * (66 + 80 * 22 + i)) = (timeText 1)[i] := by
  have h := clock_shows blank (List.replicate 100 (.tick (fun _ => 0) 0))
  rw [List.countP_replicate] at h
  exact h (by decide)

end Sbnix.Console
