import Sbnix.Console.Format
import Sbnix.Sched.Pids

/-! The task list (`sys_ps` in `sys/sched.c`, lines 57 to 72).

Two loops over the queues call `printk` twice for each entry. `ps_lists_queues` says what
is printed after any run from boot: the title, and one line for each task there is, with
its number, its parent, its pid and its name, those on `runQueue` first. -/
namespace Sbnix.Sched
open Library Library.Store Files Console

/-- The characters of a string constant. -/
def ascii (s : String) : List Byte := s.toList.map fun c => BitVec.ofNat 8 c.toNat

def titleText : List Byte := ascii "S.No.\t PARENT_PID\t PID\t NAME\t STATUS\n"
def underlineText : List Byte := ascii "=====\t ==========\t ===\t ====\t ======\n"
def rowFormat : List Byte := ascii "%d.\t\t %d\t %d\t %s\t"
def runningText : List Byte := ascii "RUNNING\n"
def waitingText : List Byte := ascii "WAITING\n"

/-- Where the strings of `sys_ps` lie, and the `bin_name` of each task. `frame` is what
`va_arg` finds when there is no argument. -/
structure PsStrings where
  mem : Store
  title : Nat
  underline : Nat
  row : Nat
  running : Nat
  waiting : Nat
  binName : Node → Nat
  frame : Frame

/-- `printk(format, args...)` -/
def PsStrings.print (k : PsStrings) (fuel format : Nat) (args : List (BitVec 64)) : Option (List Byte) :=
  (printk k.mem {k.frame with va := fun i => args.getD i (k.frame.va i)} format fuel).map Printed.out

namespace State

/-- One of the two loops of `sys_ps`, at `process`: the next number, and what has been printed. -/
def psEntries (k : PsStrings) (fuel : Nat) (s : State) (head : Node) (status : Nat) :
    Nat → Node → Nat → Option (Nat × List Byte)
  | 0, _, _ => none
  | rounds + 1, process, cnt =>
    if process = head then some (cnt, [])
    else do
      let row ← k.print fuel k.row [BitVec.ofNat 64 cnt, (s.task process).ppid.setWidth 64,
        (s.task process).pid.setWidth 64, BitVec.ofNat 64 (k.binName process)]
      let word ← k.print fuel status []
      let rest ← psEntries k fuel s head status rounds (s.links.next process) (cnt + 1)
      some (rest.1, row ++ word ++ rest.2)

/-- Everything that is printed, if the call returns. -/
def sysPs (k : PsStrings) (fuel : Nat) (s : State) : Option (List Byte) := do
  let first ← k.print fuel k.title []
  let second ← k.print fuel k.underline []
  let run ← psEntries k fuel s .runQueue k.running fuel (s.links.next .runQueue) 1
  let wait ← psEntries k fuel s .waitQueue k.waiting fuel (s.links.next .waitQueue) run.1
  some (first ++ second ++ run.2 ++ wait.2)

end State

/-! ### What is to be printed -/

/-- The line of a task. -/
def psRow (cnt : Nat) (t : Task) (name status : List Byte) : List Byte :=
  numeral 10 cnt ++ ascii ".\t\t " ++ numeral 10 t.ppid.toNat ++ ascii "\t " ++ numeral 10 t.pid.toNat ++ ascii "\t " ++
    name ++ ascii "\t" ++ status

/-- The lines of the tasks of a queue, numbered from `cnt` on. -/
def psRows (task : Node → Task) (name : Node → List Byte) (status : List Byte) : Nat → List Node → List Byte
  | _, [] => []
  | cnt, n :: rest => psRow cnt (task n) (name n) status ++ psRows task name status (cnt + 1) rest

/-- The strings are those of the source, and the `bin_name`s end. -/
structure PsStrings.Loaded (k : PsStrings) (name : Node → List Byte) : Prop where
  title : Spells k.mem k.title titleText
  underline : Spells k.mem k.underline underlineText
  row : Spells k.mem k.row rowFormat
  running : Spells k.mem k.running runningText
  waiting : Spells k.mem k.waiting waitingText
  binName : ∀ n, k.binName n < 2 ^ 64 ∧ Spells k.mem (k.binName n) (name n) ∧ (name n).length < 2 ^ 64

/-! ### One line -/

section
variable {k : PsStrings} {name : Node → List Byte} {s : State} {fuel : Nat}

/-- Characters that are printed as they are. -/
def literal (xs : List Byte) : List Piece := xs.map .plain

theorem formatText_literal (xs : List Byte) (ps : List Piece) : formatText (literal xs ++ ps) = xs ++ formatText ps := by
  induction xs with
  | nil => rfl
  | cons c xs ih => exact congrArg (c :: ·) ih

theorem render_literal (xs : List Byte) (ps : List Piece) : render (literal xs ++ ps) = xs ++ render ps := by
  induction xs with
  | nil => rfl
  | cons c xs ih => exact congrArg (c :: ·) ih

theorem supplied_literal {m : Store} {f : Frame} {i : Nat} {xs : List Byte} {ps : List Piece}
    (hxs : ∀ c ∈ xs, c ≠ 0 ∧ c ≠ 0x25) (h : Supplied m f i ps) : Supplied m f i (literal xs ++ ps) := by
  induction xs with
  | nil => exact h
  | cons c xs ih => exact ⟨hxs c (List.mem_cons_self ..), ih fun b hb => hxs b (List.mem_cons_of_mem c hb)⟩

/-- The pieces of the format of a line. -/
def rowPieces (cnt : Nat) (t : Task) (name : List Byte) : List Piece :=
  .int cnt :: (literal (ascii ".\t\t ") ++ .int t.ppid.toNat :: (literal (ascii "\t ") ++
    .int t.pid.toNat :: (literal (ascii "\t ") ++ .string name :: (literal (ascii "\t") ++ []))))

theorem decimal_natCast (n : Nat) : decimal n = numeral 10 n := by
  rw [decimal, if_neg (by omega), Int.natAbs_natCast]

theorem formatText_row (cnt : Nat) (t : Task) (name : List Byte) : formatText (rowPieces cnt t name) = rowFormat := by
  simp only [rowPieces, formatText_cons, formatText_literal]
  rfl

theorem render_row (cnt : Nat) (t : Task) (name status : List Byte) :
    render (rowPieces cnt t name) ++ status = psRow cnt t name status := by
  simp only [rowPieces, render_cons, render_literal, Piece.rendered, decimal_natCast, psRow, List.append_assoc]
  rfl

/-- A string without percent signs is printed as it is. -/
theorem print_plain {format : Nat} {xs : List Byte} (h : Spells k.mem format xs) (hplain : (0x25 : Byte) ∉ xs)
    (hfuel : xs.length < fuel) (args : List (BitVec 64)) : k.print fuel format args = some xs := by
  rw [PsStrings.print, printk, printkLoop_plain h hplain hfuel]
  rfl

theorem int_of_toNat {f : Frame} {i n : Nat} (h : (f.va i).toNat = n) (hn : n < 2 ^ 31) : f.int i = n := by
  rw [Frame.int, BitVec.toInt_eq_toNat_of_lt]
  · rw [BitVec.toNat_setWidth, h]
    omega
  · rw [BitVec.toNat_setWidth, h]
    omega

theorem pid_word (pid : Pid) : (pid.setWidth 64).toNat = pid.toNat := BitVec.toNat_setWidth_of_le (by decide)

theorem print_row (h : k.Loaded name) (n : Node) {cnt : Nat} (hcnt : cnt < 2 ^ 31) (hfuel : rowFormat.length < fuel) :
    k.print fuel k.row [BitVec.ofNat 64 cnt, (s.task n).ppid.setWidth 64, (s.task n).pid.setWidth 64,
      BitVec.ofNat 64 (k.binName n)] = some (render (rowPieces cnt (s.task n) (name n))) := by
  obtain ⟨hlt, hspell, hlen⟩ := h.binName n
  have hppid := (s.task n).ppid.isLt
  have hpid := (s.task n).pid.isLt
  generalize hf : ({k.frame with va := fun i => [BitVec.ofNat 64 cnt, (s.task n).ppid.setWidth 64,
    (s.task n).pid.setWidth 64, BitVec.ofNat 64 (k.binName n)].getD i (k.frame.va i)} : Frame) = f
  have hva₀ : (f.va 0).toNat = cnt := by
    rw [← hf]
    exact Nat.mod_eq_of_lt (by omega)
  have hva₁ : (f.va 1).toNat = (s.task n).ppid.toNat := by
    rw [← hf]
    exact pid_word _
  have hva₂ : (f.va 2).toNat = (s.task n).pid.toNat := by
    rw [← hf]
    exact pid_word _
  have hva₃ : (f.va 3).toNat = k.binName n := by
    rw [← hf]
    exact Nat.mod_eq_of_lt hlt
  have hsupplied : Supplied k.mem f 0 (rowPieces cnt (s.task n) (name n)) := by
    refine ⟨⟨int_of_toNat hva₀ hcnt, by omega⟩, supplied_literal (by decide) ?_⟩
    refine ⟨⟨int_of_toNat hva₁ (by omega), by omega⟩, supplied_literal (by decide) ?_⟩
    refine ⟨⟨int_of_toNat hva₂ (by omega), by omega⟩, supplied_literal (by decide) ?_⟩
    refine ⟨⟨?_, hlen⟩, supplied_literal (by decide) trivial⟩
    show Spells k.mem (f.va 3).toNat (name n)
    rw [hva₃]
    exact hspell
  have htext := formatText_row cnt (s.task n) (name n)
  obtain ⟨p, hp, hadds, _⟩ := printkLoop_pieces (p := .none) (by rw [htext]; exact h.row) hsupplied (by rw [htext]; exact hfuel)
  rw [PsStrings.print, hf, printk, hp]
  exact congrArg some hadds.out

/-! ### The loops -/

/-- The loop from `a` on prints the lines of the tasks up to the head. -/
theorem psEntries_eq (h : k.Loaded name) {head a : Node} {status : Nat} {word : List Byte} {xs : List Node}
    (hword : Spells k.mem status word) (hplain : (0x25 : Byte) ∉ word) (hfuel : rowFormat.length < fuel)
    (hlen : word.length < fuel) (hs : Segment s.links a xs head) (hhead : head ∉ xs) {rounds cnt : Nat}
    (hrounds : xs.length < rounds) (hcnt : cnt + xs.length < 2 ^ 31) :
    s.psEntries k fuel head status rounds (s.links.next a) cnt =
      some (cnt + xs.length, psRows s.task name word cnt xs) := by
  induction xs generalizing a rounds cnt with
  | nil =>
    obtain ⟨rounds, rfl⟩ := Nat.exists_eq_succ_of_ne_zero (by omega : rounds ≠ 0)
    rw [State.psEntries, if_pos hs.1]
    rfl
  | cons n xs ih =>
    rw [List.length_cons] at hrounds hcnt
    obtain ⟨rounds, rfl⟩ := Nat.exists_eq_succ_of_ne_zero (by omega : rounds ≠ 0)
    have hne : n ≠ head := fun he => hhead (he ▸ List.mem_cons_self ..)
    have hrest := ih hs.2.2 (fun hm => hhead (List.mem_cons_of_mem n hm)) (show xs.length < rounds by omega)
      (show cnt + 1 + xs.length < 2 ^ 31 by omega)
    rw [State.psEntries, hs.1, if_neg hne, print_row h n (by omega) hfuel, print_plain hword hplain hlen, hrest]
    show some (cnt + 1 + xs.length, render _ ++ word ++ psRows s.task name word (cnt + 1) xs) = _
    rw [render_row, psRows, List.length_cons]
    congr 2
    omega

/-- The call prints the title and the lines of both queues. -/
theorem sysPs_eq (h : k.Loaded name) {xs ys : List Node} (hx : Ring s.links .runQueue xs) (hy : Ring s.links .waitQueue ys)
    (hlen : xs.length + ys.length ≤ nrTasks) (hfuel : nrTasks < fuel) :
    s.sysPs k fuel = some (titleText ++ underlineText ++ psRows s.task name runningText 1 xs ++
      psRows s.task name waitingText (1 + xs.length) ys) := by
  have hn : nrTasks = 128 := rfl
  have htitle : titleText.length < 128 := by decide
  have hunderline : underlineText.length < 128 := by decide
  have hrow : rowFormat.length < 128 := by decide
  have hrunning : runningText.length < 128 := by decide
  have hwaiting : waitingText.length < 128 := by decide
  unfold State.sysPs
  rw [print_plain h.title (by decide) (by omega), print_plain h.underline (by decide) (by omega),
    psEntries_eq h h.running (by decide) (by omega) (by omega) hx.segment hx.head_notMem (by omega) (by omega)]
  show (s.psEntries k fuel .waitQueue k.waiting fuel (s.links.next .waitQueue) (1 + xs.length)).bind _ = _
  rw [psEntries_eq h h.waiting (by decide) (by omega) (by omega) hy.segment hy.head_notMem (by omega) (by omega)]
  rfl

/-- After any run from boot the call lists every task there is, on its own line, under consecutive
numbers, the running ones first and each queue in its order. -/
theorem ps_lists_queues (k : PsStrings) (name : Node → List Byte) (h : k.Loaded name) (ops : List Op)
    (hops : Along step Allowed State.boot ops) :
    ∃ s, run step State.boot ops = some s ∧ s.queued.Nodup ∧ s.queued.length = s.numTask ∧ ∀ fuel, nrTasks < fuel →
      s.sysPs k fuel = some (titleText ++ underlineText ++ psRows s.task name runningText 1 (s.entries .runQueue) ++
        psRows s.task name waitingText (1 + (s.entries .runQueue).length) (s.entries .waitQueue)) := by
  obtain ⟨s, hs, q, href, _⟩ := progress (fun s op hs hop => Represented.step hs hop)
    (⟨bootQueues, boot_refines, boot_runs, by decide⟩ : Represented State.boot) hops
  have hcount := href.count
  have hroom := href.room
  have hqueued : s.queued = q.run ++ q.wait := href.queued
  refine ⟨s, hs, by rw [hqueued]; exact href.rings.nodup, by rw [hqueued, List.length_append, hcount], fun fuel hfuel => ?_⟩
  rw [href.entries_run, href.entries_wait]
  exact sysPs_eq h href.rings.run href.rings.wait (by omega) hfuel

end

/-- The strings one behind the other from address 0 on; all tasks have one name. -/
def bootStrings : PsStrings where
  mem := put (put (put (put (put (put (fun _ => 0) 0 titleText) 64 underlineText) 128 rowFormat) 192 runningText) 256
    waitingText) 320 (ascii "bin/sbush")
  title := 0
  underline := 64
  row := 128
  running := 192
  waiting := 256
  binName := fun _ => 320
  frame := numberFrame 0

theorem bootName_spells : 320 < 2 ^ 64 ∧ Spells bootStrings.mem 320 (ascii "bin/sbush") ∧ (ascii "bin/sbush").length < 2 ^ 64 :=
  ⟨by decide, ⟨rfl, by decide⟩, by decide⟩

theorem bootStrings_loaded : bootStrings.Loaded fun _ => ascii "bin/sbush" where
  title := ⟨rfl, by decide⟩
  underline := ⟨rfl, by decide⟩
  row := ⟨rfl, by decide⟩
  running := ⟨rfl, by decide⟩
  waiting := ⟨rfl, by decide⟩
  binName := fun _ => bootName_spells

/-- The shell waits for a child. -/
theorem ps_lists_wait :
    ∃ s, run step State.boot [.fork, .waitpid 3] = some s ∧ s.queued.Nodup ∧ s.queued.length = s.numTask ∧
      ∀ fuel, nrTasks < fuel → s.sysPs bootStrings fuel = some (titleText ++ underlineText ++
        psRows s.task (fun _ => ascii "bin/sbush") runningText 1 (s.entries .runQueue) ++
        psRows s.task (fun _ => ascii "bin/sbush") waitingText (1 + (s.entries .runQueue).length) (s.entries .waitQueue)) :=
  ps_lists_queues bootStrings _ bootStrings_loaded [.fork, .waitpid 3] (by decide)

end Sbnix.Sched
