import Sbnix.Files.Counts
import Sbnix.Files.Reading
import Sbnix.Shell.Session

/-! Scripts (`execShell` of `bin/sbush/sbush.c`, lines 226 to 266).

A script is opened and read byte by byte, and every line of it is given to `execLine` as
soon as its newline has been read. `sbh` in a script runs a script again, through a
descriptor of its own; none of them is closed. `Executes` says what a script does in terms of
the lines of the file, and `script_executes_iff` that this is what `execShell` does: it ends
just when every line has room in the buffer and every command returns.

What the commands of the shell do is a parameter here. They must leave the descriptors that
are in use and the archive alone, which is `Keeps`: they run in children, with tables of their
own, and the shell itself only takes new descriptors, for its pipes. -/
namespace Sbnix.Shell
open Library Library.Store Files

/-- The shell, the index of the archive and the memory that the files are in. -/
structure Sbush where
  index : List Entry
  task : Task
  mem : Store

/-! ### The code -/

/-- `#!` -/
def shebang : List Byte := [0x23, 0x21]

/-- `sbh` -/
def sbh : List Byte := [0x73, 0x62, 0x68]

/-- The size of `buffer`. -/
def bufferSize : Nat := 200

/-- `buffer[n]=c` -/
def setBuffer (buffer : Store) (n : Nat) (c : Byte) : Option Store :=
  if n < bufferSize then some (put buffer n [c]) else none

/-- The test of `execCmd` for a script. -/
def Job.isScript : Job → Bool
  | .single cmd => (cmd 0).map (cString · 0) = some sbh
  | _ => false

/-- `cmd[1]` -/
def Job.fileName : Job → Option (List Byte)
  | .single cmd => (cmd 1).map (cString · 0)
  | _ => none

/-- The loop of `execShell`. -/
def scriptLoop (exec : Sbush → List Byte → Option Sbush) (fdShell : Nat) : Nat → Sbush → Store → Nat → Option Sbush
  | 0, _, _, _ => none
  | rounds + 1, s, buffer, n =>
    (sysRead [] s.mem s.task fdShell 1).toOption.bind fun o =>
      let s := {s with task := o.task, mem := o.mem}
      if o.ret = 0 then some s
      else
        (setBuffer buffer n (o.bytes.headD 0)).bind fun buffer =>
          if buffer n = 0x0a then
            (setBuffer buffer (n + 1) 0).bind fun buffer =>
              (if cString buffer 0 ≠ shebang then exec s (cString buffer 0) else some s).bind fun s =>
                scriptLoop exec fdShell rounds s (fun _ => 0) 0
          else scriptLoop exec fdShell rounds s buffer (n + 1)

/-- `open`, of a file with a name that fits into `path` of the slot: the run is not followed through
a slot that is overwritten. -/
def openShort (s : Sbush) (fileName : List Byte) : Except Fault Opened :=
  if (Call.sysOpen fileName 0).NameFits s.index then sysOpen s.index s.task fileName 0
  else .error .path

/-- `fd_shell` is -1 if the name is a blank. -/
def execShell (exec : Sbush → List Byte → Option Sbush) (rounds : Nat) (s : Sbush) (fileName : List Byte) :
    Option Sbush :=
  if fileName ≠ [0x20] then
    (openShort s fileName).toOption.bind fun o =>
      let s := {s with index := o.index, task := o.task}
      if o.ret = 0 then some s else scriptLoop exec o.ret.toNat rounds s (fun _ => 0) 0
  else scriptLoop exec (2 ^ 64 - 1) rounds s (fun _ => 0) 0

/-- `execLine`, with what it hands on: a script, or something else, which is `command`. -/
def execIn (command : Sbush → Job → Option Sbush) (rounds : Nat) : Nat → Sbush → List Byte → Option Sbush
  | 0, _, _ => none
  | depth + 1, s, input => (execLine input).bind fun job =>
    if job.isScript then job.fileName.bind (execShell (execIn command rounds depth) rounds s) else command s job

/-! ### Scripts by their lines -/

/-- The bytes of a file. -/
def content (m : Store) (e : Entry) : List Byte := fetch m e.binStartAddr e.fileSize.toNat

/-- The position in the file moves on. -/
def Sbush.advance (s : Sbush) (i : Fin 25) (n : Nat) : Sbush :=
  {s with task := s.task.setFd i {s.task.fd i with offsetRead := (s.task.fd i).offsetRead + BitVec.ofNat 64 n}}

/-- The next descriptor is on the file. -/
def Sbush.opened (s : Sbush) (fileName : List Byte) (e : Entry) (i : Fin 25) : Sbush :=
  ⟨modifyFirst (·.opens fileName) Entry.retain s.index,
    {s.task.setFd i (e.opened (s.task.fd i) 0) with fdCnt := s.task.fdCnt + 1}, s.mem⟩

/-- What a line is for `execLine`, which takes it for a string. -/
def lineText (chars : List Byte) : List Byte := (chars ++ [0x0a]).takeWhile (· ≠ 0)

/-- What there is to do: a script, what is left of one in a descriptor, or a line. -/
inductive Work where
  | script (fileName : List Byte)
  | rest (i : Fin 25) (bytes : List Byte)
  | line (text : List Byte)

/-- The work is done, and so many files have been opened for it. A line may have 198 characters
besides its newline. What follows the last newline is read and forgotten. -/
inductive Executes (command : Sbush → Job → Option Sbush) : Sbush → Work → Nat → Sbush → Prop
  | missing {s : Sbush} {fileName : List Byte} (hname : fileName ≠ [0x20])
      (hfind : s.index.find? (·.opens fileName) = none) : Executes command s (.script fileName) 0 s
  | script {s s' : Sbush} {fileName : List Byte} {e : Entry} {i : Fin 25} {n : Nat} (hname : fileName ≠ [0x20])
      (hfind : s.index.find? (·.opens fileName) = some e) (hi : i.val = s.task.fdCnt + 1) (hshort : e.name.length < 32)
      (h : Executes command (s.opened fileName e i) (.rest i (content s.mem e)) n s') :
      Executes command s (.script fileName) (n + 1) s'
  | tail {s : Sbush} {i : Fin 25} {chars : List Byte} (hchars : (0x0a : Byte) ∉ chars) (hlen : chars.length ≤ bufferSize) :
      Executes command s (.rest i chars) 0 (s.advance i chars.length)
  | next {s s₁ s' : Sbush} {i : Fin 25} {chars rest : List Byte} {n n' : Nat} (hchars : (0x0a : Byte) ∉ chars)
      (hlen : chars.length + 1 < bufferSize)
      (h : Executes command (s.advance i (chars.length + 1)) (.line (lineText chars)) n s₁)
      (hrest : Executes command s₁ (.rest i rest) n' s') :
      Executes command s (.rest i (chars ++ 0x0a :: rest)) (n + n') s'
  | skip {s : Sbush} : Executes command s (.line shebang) 0 s
  | command {s s' : Sbush} {text : List Byte} {job : Job} (htext : text ≠ shebang) (hjob : execLine text = some job)
      (hplain : job.isScript = false) (h : command s job = some s') : Executes command s (.line text) 0 s'
  | sbh {s s' : Sbush} {text fileName : List Byte} {job : Job} {n : Nat} (htext : text ≠ shebang)
      (hjob : execLine text = some job) (hscript : job.isScript = true) (hname : job.fileName = some fileName)
      (h : Executes command s (.script fileName) n s') : Executes command s (.line text) n s'

/-! ### What is kept -/

/-- Where the archive is, for the kernel to read it. -/
structure Archive (k : Link) : Prop where
  low : initialMem ≤ k.start
  high : k.stop < 2 ^ 64

/-- The table of the shell is as the calls leave it, and every file lies in the archive. -/
structure Sbush.Good (k : Link) (s : Sbush) : Prop where
  sound : Sound s.task
  files : ∀ e ∈ s.index, 0 ≤ e.fileSize ∧ k.start ≤ e.binStartAddr ∧ e.binStartAddr + e.fileSize.toNat ≤ k.stop

/-- The descriptors up to the `n`-th, but for one, and the archive are as they were. -/
structure Kept (k : Link) (n : Nat) (but : Option (Fin 25)) (s s' : Sbush) : Prop where
  grown : s.task.fdCnt ≤ s'.task.fdCnt
  slots : ∀ j : Fin 25, j.val ≤ n → some j ≠ but → s'.task.fd j = s.task.fd j ∧ s'.task.dupArr j = s.task.dupArr j
  files : Agree s.mem s'.mem k.start (k.stop - k.start)

/-- What is asked of the commands. -/
structure Keeps (k : Link) (command : Sbush → Job → Option Sbush) : Prop where
  good : ∀ {s s' : Sbush} {job : Job}, s.Good k → command s job = some s' → s'.Good k
  kept : ∀ {s s' : Sbush} {job : Job}, s.Good k → command s job = some s' → Kept k s.task.fdCnt none s s'

/-- The descriptor is on a file, of which these bytes have not been read. -/
structure Reading (k : Link) (s : Sbush) (i : Fin 25) (bytes : List Byte) : Prop where
  above : 2 < i.val
  used : i.val ≤ s.task.fdCnt
  direct : s.task.dupArr i = i
  seek : (s.task.fd i).seek = 0
  size : (s.task.fd i).offsetRead.toNat + bytes.length = ((s.task.fd i).offset + (s.task.fd i).fileSize).toNat
  start : k.start ≤ (s.task.fd i).offsetRead.toNat
  stop : (s.task.fd i).offsetRead.toNat + bytes.length ≤ k.stop
  holds : Holds s.mem (s.task.fd i).offsetRead.toNat bytes

section
variable {k : Link} {s s' s'' : Sbush} {i : Fin 25} {n m : Nat} {but : Option (Fin 25)} {bytes rest done : List Byte}
  {c : Byte}

theorem Kept.refl (k : Link) (n : Nat) (but : Option (Fin 25)) (s : Sbush) : Kept k n but s s :=
  ⟨Nat.le_refl _, fun _ _ _ => ⟨rfl, rfl⟩, fun _ _ _ => rfl⟩

theorem Kept.trans (h : Kept k n but s s') (h' : Kept k n but s' s'') : Kept k n but s s'' where
  grown := h.grown.trans h'.grown
  slots j hj hne := by
    obtain ⟨hfd, hdup⟩ := h.slots j hj hne
    obtain ⟨hfd', hdup'⟩ := h'.slots j hj hne
    exact ⟨hfd'.trans hfd, hdup'.trans hdup⟩
  files := h.files.trans h'.files

theorem Kept.mono (h : Kept k m but s s') (hn : n ≤ m) : Kept k n but s s' :=
  ⟨h.grown, fun j hj => h.slots j (hj.trans hn), h.files⟩

theorem Kept.weaken (h : Kept k n none s s') : Kept k n but s s' :=
  ⟨h.grown, fun j hj _ => h.slots j hj (fun hc => nomatch hc), h.files⟩

/-- What is done with a new descriptor does not touch those before it. -/
theorem Kept.below (h : Kept k m (some i) s s') (hn : n ≤ m) (hi : n < i.val) : Kept k n none s s' := by
  refine ⟨h.grown, fun j hj _ => h.slots j (hj.trans hn) fun hc => ?_, h.files⟩
  rw [Option.some.inj hc] at hj
  omega

theorem advance_kept (k : Link) (n : Nat) (s : Sbush) (i : Fin 25) (m : Nat) : Kept k n (some i) s (s.advance i m) where
  grown := Nat.le_refl _
  slots _ _ hne := ⟨s.task.setFd_other _ fun hc => hne (congrArg some hc), rfl⟩
  files _ _ _ := rfl

theorem advance_advance (s : Sbush) (i : Fin 25) (n m : Nat) : (s.advance i n).advance i m = s.advance i (n + m) := by
  unfold Sbush.advance Task.setFd
  simp only [Function.update_self, Function.update_idem, BitVec.ofNat_add, BitVec.add_assoc]

theorem advance_zero (s : Sbush) (i : Fin 25) : s.advance i 0 = s := by
  unfold Sbush.advance Task.setFd
  simp only [BitVec.add_zero, Function.update_eq_self]

/-! ### A descriptor in use -/

theorem advance_fd (s : Sbush) (i : Fin 25) (n : Nat) : (s.advance i n).task.fd i =
    {s.task.fd i with offsetRead := (s.task.fd i).offsetRead + BitVec.ofNat 64 n} := s.task.setFd_same i _

/-- The position after some of the bytes that are left. -/
theorem Reading.position (h : Reading k s i (done ++ rest)) (harchive : Archive k) :
    ((s.task.fd i).offsetRead + BitVec.ofNat 64 done.length).toNat = (s.task.fd i).offsetRead.toNat + done.length := by
  have hhigh := harchive.high
  have hstop := h.stop
  rw [List.length_append] at hstop
  rw [BitVec.toNat_add, BitVec.toNat_ofNat]
  omega

theorem Reading.advance (h : Reading k s i (done ++ rest)) (harchive : Archive k) :
    Reading k (s.advance i done.length) i rest := by
  have hpos := h.position harchive
  have hsize := h.size
  have hstop := h.stop
  have hstart := h.start
  rw [List.length_append] at hsize hstop
  refine ⟨h.above, h.used, h.direct, ?_, ?_, ?_, ?_, ?_⟩ <;> rw [advance_fd] <;> dsimp only
  · exact h.seek
  · rw [hpos]
    omega
  · rw [hpos]
    omega
  · rw [hpos]
    omega
  · rw [hpos]
    exact (holds_append.mp h.holds).2

theorem Reading.behind_line {xs : List Byte} (h : Reading k s i (xs ++ 0x0a :: rest)) (harchive : Archive k) :
    Reading k (s.advance i (xs.length + 1)) i rest := by
  have hread : Reading k s i ((xs ++ [0x0a]) ++ rest) := by
    rw [List.append_assoc]
    exact h
  have hon := hread.advance harchive
  rw [List.length_append, List.length_singleton] at hon
  exact hon

/-- Work that keeps the descriptor and the archive does not disturb what is read. -/
theorem Reading.kept (h : Reading k s i bytes) (hkept : Kept k s.task.fdCnt none s s') : Reading k s' i bytes := by
  obtain ⟨hfd, hdup⟩ := hkept.slots i h.used (fun hc => nomatch hc)
  have hstart := h.start
  have hstop := h.stop
  refine ⟨h.above, h.used.trans hkept.grown, hdup.trans h.direct, ?_, ?_, ?_, ?_, ?_⟩ <;> rw [hfd]
  · exact h.seek
  · exact h.size
  · exact h.start
  · exact h.stop
  · exact h.holds.congr (hkept.files.mono hstart (by omega))

/-- A file that has just been opened is read from its start. -/
theorem Sbush.Good.reading (h : s.Good k) (harchive : Archive k) {fileName : List Byte} {e : Entry}
    (hfind : s.index.find? (·.opens fileName) = some e) (hi : i.val = s.task.fdCnt + 1) :
    Reading k (s.opened fileName e i) i (content s.mem e) := by
  obtain ⟨hsize, hstart, hstop⟩ := h.files e (List.mem_of_find?_eq_some hfind)
  have hlow := h.sound.low
  have hhigh := harchive.high
  have hfd : (s.opened fileName e i).task.fd i = e.opened (s.task.fd i) 0 := s.task.setFd_same i _
  have hpos : e.addr.toNat = e.binStartAddr := by
    rw [Entry.addr, BitVec.toNat_ofNat]
    omega
  have hlength : (content s.mem e).length = e.fileSize.toNat := length_fetch ..
  have hfile : e.size.toNat = e.fileSize.toNat := by
    rw [Entry.size, BitVec.toNat_ofInt]
    omega
  refine ⟨by omega, hi.le, (h.sound.unused i (by omega)).2, ?_, ?_, ?_, ?_, ?_⟩ <;> rw [hfd] <;> dsimp only [Entry.opened]
  · rw [hlength, hpos, BitVec.toNat_add, hpos, hfile]
    omega
  · rw [hpos]
    exact hstart
  · rw [hlength, hpos]
    exact hstop
  · rw [hpos]
    unfold Holds
    rw [hlength]
    rfl

theorem Sbush.Good.advance (h : s.Good k) (hused : i.val ≤ s.task.fdCnt) : (s.advance i n).Good k :=
  ⟨h.sound.setFd fun hc => absurd hused (by omega), h.files⟩

theorem Sbush.Good.opened (h : s.Good k) {fileName : List Byte} {e : Entry} (hi : i.val = s.task.fdCnt + 1) :
    (s.opened fileName e i).Good k := by
  refine ⟨h.sound.grow hi _, fun e' he' => ?_⟩
  -- counting an opening moves no file
  have hsame : (modifyFirst (·.opens fileName) Entry.retain s.index).map (fun e => (e.fileSize, e.binStartAddr)) =
      s.index.map fun e => (e.fileSize, e.binStartAddr) :=
    map_modifyFirst (f := Entry.retain) (fun _ => rfl) s.index
  have hmem := List.mem_map_of_mem (f := fun e : Entry => (e.fileSize, e.binStartAddr)) he'
  rw [show (s.opened fileName e i).index = modifyFirst (·.opens fileName) Entry.retain s.index from rfl, hsame] at hmem
  obtain ⟨e₀, he₀, heq⟩ := List.mem_map.mp hmem
  obtain ⟨hsize, hstart⟩ := Prod.mk.inj heq
  rw [← hsize, ← hstart]
  exact h.files e₀ he₀

theorem opened_kept (k : Link) (s : Sbush) (fileName : List Byte) (e : Entry) (hi : i.val = s.task.fdCnt + 1) :
    Kept k s.task.fdCnt but s (s.opened fileName e i) := by
  refine ⟨Nat.le_succ _, fun j hj _ => ⟨s.task.setFd_other _ fun hc => ?_, rfl⟩, fun _ _ _ => rfl⟩
  rw [hc] at hj
  omega

/-! ### Reading a byte -/

theorem Reading.read (h : Reading k s i (c :: rest)) (harchive : Archive k) :
    sysRead [] s.mem s.task i.val 1 = .ok ⟨1, [c, 0], none, (s.advance i 1).task, s.mem⟩ := by
  have hlow := harchive.low
  have hstart := h.start
  have hsize := h.size
  rw [List.length_cons] at hsize
  have hunread : (s.task.fd i).Unread := by
    unfold File.Unread
    rw [BitVec.lt_def]
    omega
  have hsrc : (s.task.fd i).src = (s.task.fd i).offsetRead := if_pos h.seek
  obtain ⟨hc, _⟩ := holds_cons.mp h.holds
  rw [sysRead_slot Nat.one_pos h.direct h.above, if_pos hunread, hsrc, if_neg (by omega)]
  congr 2
  rw [fetch, fetch, hc]
  rfl

theorem Reading.read_end (h : Reading k s i []) : sysRead [] s.mem s.task i.val 1 = .ok ⟨0, [], none, s.task, s.mem⟩ := by
  have hsize := h.size
  rw [List.length_nil] at hsize
  have hread : ¬ (s.task.fd i).Unread := by
    unfold File.Unread
    rw [BitVec.lt_def]
    omega
  rw [sysRead_slot Nat.one_pos h.direct h.above, if_neg hread]

/-! ### A round of the loop -/

variable {exec : Sbush → List Byte → Option Sbush} {rounds : Nat}

theorem setBuffer_written (c : Byte) (hn : done.length < bufferSize) :
    setBuffer (written done) done.length c = some (written (done ++ [c])) := by
  have hput := put_append (fun _ => 0) 0 done [c]
  rw [Nat.zero_add] at hput
  rw [setBuffer, if_pos hn, written, hput]
  rfl

theorem written_last (done : List Byte) (c : Byte) : written (done ++ [c]) done.length = c := by
  have hlast : done.length < (done ++ [c]).length := by
    rw [List.length_append, List.length_singleton]
    exact Nat.lt_succ_self _
  have hat := put_at (fun _ => 0) 0 (done ++ [c]) hlast
  rw [Nat.zero_add] at hat
  rw [written, hat]
  simp

/-- A string ends at its first zero. -/
theorem takeWhile_ends (xs : List Byte) : xs.takeWhile (· ≠ 0) ++ [0] <+: xs ++ [0] := by
  induction xs with
  | nil => exact List.prefix_refl _
  | cons b bs ih =>
    by_cases hb : b = 0
    · rw [hb, List.takeWhile_cons_of_neg (by decide)]
      exact ⟨bs ++ [0], rfl⟩
    · rw [List.takeWhile_cons_of_pos (by simpa using hb)]
      exact (List.prefix_cons_inj b).mpr ih

theorem cString_line (hlen : done.length + 1 < bufferSize) :
    cString (written (done ++ [0x0a] ++ [0])) 0 = lineText done := by
  have hends : lineText done ++ [0] <+: done ++ [0x0a] ++ [0] := takeWhile_ends _
  have hzero : (0 : Byte) ∉ lineText done := by
    intro hmem
    have hne := List.mem_takeWhile_imp hmem
    exact absurd rfl (of_decide_eq_true hne)
  have hshort : (lineText done).length < intMax := by
    have hle := hends.length_le
    simp only [List.length_append, List.length_singleton] at hle
    unfold bufferSize at hlen
    unfold intMax
    omega
  exact cString_spells ⟨(put_holds _ 0 _).of_isPrefix hends, hzero⟩ hshort

theorem loop_char (h : Reading k s i (c :: rest)) (harchive : Archive k) (hc : c ≠ 0x0a) (hlen : done.length < bufferSize) :
    scriptLoop exec i (rounds + 1) s (written done) done.length =
      scriptLoop exec i rounds (s.advance i 1) (written (done ++ [c])) (done ++ [c]).length := by
  rw [scriptLoop, h.read harchive]
  simp only [Except.toOption, Option.bind_some, List.headD_cons, setBuffer_written c hlen, written_last, if_neg hc,
    List.length_append, List.length_singleton]
  rfl

theorem loop_full (h : Reading k s i (c :: rest)) (harchive : Archive k) (hlen : bufferSize ≤ done.length) :
    scriptLoop exec i (rounds + 1) s (written done) done.length = none := by
  have hset : setBuffer (written done) done.length c = none := if_neg (by omega)
  rw [scriptLoop, h.read harchive]
  simp only [Except.toOption, Option.bind_some, List.headD_cons, hset, Option.bind_none]
  rfl

/-- The end of a line: it is executed, unless it is `#!`, and the next one begins. -/
theorem loop_newline (h : Reading k s i (0x0a :: rest)) (harchive : Archive k) (hlen : done.length + 1 < bufferSize) :
    scriptLoop exec i (rounds + 1) s (written done) done.length =
      (if lineText done ≠ shebang then exec (s.advance i 1) (lineText done) else some (s.advance i 1)).bind fun s =>
        scriptLoop exec i rounds s (written []) 0 := by
  have hset := @setBuffer_written (done ++ [0x0a]) 0 (by rw [List.length_append, List.length_singleton]; exact hlen)
  rw [List.length_append, List.length_singleton] at hset
  rw [scriptLoop, h.read harchive]
  simp only [Except.toOption, Option.bind_some, List.headD_cons, setBuffer_written 0x0a (Nat.lt_of_succ_lt hlen),
    written_last, if_true, hset, cString_line hlen]
  rfl

/-- The zero behind a line would lie outside of the buffer. -/
theorem loop_cut (h : Reading k s i (0x0a :: rest)) (harchive : Archive k) (hlen : bufferSize ≤ done.length + 1) :
    scriptLoop exec i (rounds + 1) s (written done) done.length = none := by
  by_cases hfull : bufferSize ≤ done.length
  · exact loop_full h harchive hfull
  · have hset : setBuffer (written (done ++ [0x0a])) (done.length + 1) 0 = none := if_neg (by omega)
    rw [scriptLoop, h.read harchive]
    simp only [Except.toOption, Option.bind_some, List.headD_cons, setBuffer_written 0x0a (Nat.lt_of_not_le hfull),
      written_last, if_true, hset, Option.bind_none]
    rfl

theorem loop_end (h : Reading k s i []) (buffer : Store) (n : Nat) :
    scriptLoop exec i (rounds + 1) s buffer n = some s := by
  rw [scriptLoop, h.read_end]
  rfl

theorem loop_chars {xs : List Byte} (h : Reading k s i (xs ++ rest)) (harchive : Archive k) (hxs : (0x0a : Byte) ∉ xs)
    (hlen : done.length + xs.length ≤ bufferSize) :
    scriptLoop exec i (rounds + xs.length) s (written done) done.length =
      scriptLoop exec i rounds (s.advance i xs.length) (written (done ++ xs)) (done ++ xs).length := by
  induction xs generalizing s done with
  | nil => rw [List.length_nil, advance_zero, List.append_nil, Nat.add_zero]
  | cons c xs ih =>
    obtain ⟨hc, hxs⟩ := not_or.mp (mt List.mem_cons.mpr hxs)
    rw [List.length_cons] at hlen
    have hmoved : Reading k (s.advance i 1) i (xs ++ rest) := @Reading.advance k s i (xs ++ rest) [c] h harchive
    have hnext := @ih (s.advance i 1) (done ++ [c]) hmoved hxs
      (by rw [List.length_append, List.length_singleton]; omega)
    rw [List.append_assoc, advance_advance] at hnext
    rw [List.length_cons, ← Nat.add_assoc, loop_char h harchive (Ne.symm hc) (by omega), hnext, Nat.add_comm 1]
    rfl

/-- What follows the last newline is read to the end. -/
theorem loop_tail {xs : List Byte} {loops : Nat} (h : Reading k s i xs) (harchive : Archive k)
    (hxs : (0x0a : Byte) ∉ xs) (hlen : xs.length ≤ bufferSize) (hloops : xs.length + 1 ≤ loops) :
    scriptLoop exec i loops s (written []) 0 = some (s.advance i xs.length) := by
  obtain ⟨loops, rfl⟩ := Nat.exists_eq_add_of_le' hloops
  rw [← List.append_nil xs] at h
  have hrun := @loop_chars k s i [] [] exec (loops + 1) xs h harchive hxs
    (by rw [List.length_nil, Nat.zero_add]; exact hlen)
  rw [loop_end (h.advance harchive), Nat.add_assoc, Nat.add_comm 1] at hrun
  exact hrun

/-- A whole line. -/
theorem loop_line {xs : List Byte} (h : Reading k s i (xs ++ 0x0a :: rest)) (harchive : Archive k)
    (hxs : (0x0a : Byte) ∉ xs) (hlen : xs.length + 1 < bufferSize) :
    scriptLoop exec i (rounds + 1 + xs.length) s (written []) 0 =
      (if lineText xs ≠ shebang then exec (s.advance i (xs.length + 1)) (lineText xs)
        else some (s.advance i (xs.length + 1))).bind fun s => scriptLoop exec i rounds s (written []) 0 := by
  have hrun := @loop_chars k s i (0x0a :: rest) [] exec (rounds + 1) xs h harchive hxs
    (by rw [List.length_nil]; omega)
  rw [List.nil_append, loop_newline (h.advance harchive) harchive hlen, advance_advance] at hrun
  exact hrun

theorem loop_minus_one (exec : Sbush → List Byte → Option Sbush) (rounds : Nat) (s : Sbush) (buffer : Store) (n : Nat) :
    scriptLoop exec (2 ^ 64 - 1) rounds s buffer n = none := by
  cases rounds with
  | zero => rfl
  | succ rounds =>
    rw [scriptLoop, show sysRead [] s.mem s.task (2 ^ 64 - 1) 1 = .error .bounds from rfl]
    rfl

/-! ### What the work keeps -/

/-- What has to hold before the work. -/
def Work.Ready (k : Link) (s : Sbush) : Work → Prop
  | .rest i bytes => Reading k s i bytes
  | _ => True

/-- The descriptor that the work moves. -/
def Work.moves : Work → Option (Fin 25)
  | .rest i _ => some i
  | _ => none

variable {command : Sbush → Job → Option Sbush} {w : Work}

/-- The descriptors in use and the archive are kept, and every file takes a descriptor. -/
theorem Executes.kept (h : Executes command s w n s') (harchive : Archive k) (hcommand : Keeps k command) (hs : s.Good k)
    (hw : w.Ready k s) : s'.Good k ∧ Kept k s.task.fdCnt w.moves s s' ∧ s.task.fdCnt + n ≤ s'.task.fdCnt := by
  induction h with
  | @missing s => exact ⟨hs, Kept.refl k _ _ s, Nat.le_refl _⟩
  | @script s s' fileName e i n hname hfind hi _ _ ih =>
    obtain ⟨hgood, hkept, hcount⟩ := ih (hs.opened hi) (hs.reading harchive hfind hi)
    have hfd : (s.opened fileName e i).task.fdCnt = s.task.fdCnt + 1 := rfl
    refine ⟨hgood, (opened_kept k s fileName e hi).trans (hkept.below ?_ ?_), ?_⟩
    · rw [hfd]
      exact Nat.le_succ _
    · omega
    · omega
  | @tail s i chars _ _ => exact ⟨hs.advance hw.used, advance_kept k _ s i _, Nat.le_refl _⟩
  | @next s s₁ s' i chars rest n n' _ _ _ _ ih ihrest =>
    have hread : Reading k s i (chars ++ 0x0a :: rest) := hw
    have hon := hread.behind_line harchive
    obtain ⟨hgood, hkept, hcount⟩ := ih (hs.advance hread.used) trivial
    obtain ⟨hgood', hkept', hcount'⟩ := ihrest hgood (hon.kept hkept)
    have hfd : (s.advance i (chars.length + 1)).task.fdCnt = s.task.fdCnt := rfl
    rw [hfd] at hkept hcount
    refine ⟨hgood', ?_, by omega⟩
    exact ((advance_kept k _ s i _).trans hkept.weaken).trans (hkept'.mono hkept.grown)
  | @skip s => exact ⟨hs, Kept.refl k _ _ s, Nat.le_refl _⟩
  | command _ _ _ hdo =>
    have hkept := hcommand.kept hs hdo
    exact ⟨hcommand.good hs hdo, hkept, hkept.grown⟩
  | sbh _ _ _ _ _ ih => exact ih hs trivial

/-! ### From the code to the lines -/

theorem loop_executes (harchive : Archive k) (hcommand : Keeps k command)
    (hexec : ∀ {s s' : Sbush} {text : List Byte}, s.Good k → text ≠ shebang → exec s text = some s' →
      ∃ n, Executes command s (.line text) n s') (hs : s.Good k) (h : Reading k s i (done ++ rest))
    (hdone : (0x0a : Byte) ∉ done) (hlen : done.length ≤ bufferSize)
    (hloop : scriptLoop exec i rounds (s.advance i done.length) (written done) done.length = some s') :
    ∃ n, Executes command s (.rest i (done ++ rest)) n s' := by
  induction rounds generalizing s done rest with
  | zero => cases hloop
  | succ rounds ih =>
    have hnow := h.advance harchive
    cases rest with
    | nil =>
      rw [loop_end hnow] at hloop
      obtain rfl := Option.some.inj hloop
      rw [List.append_nil]
      exact ⟨0, .tail hdone hlen⟩
    | cons c rest =>
      by_cases hc : c = 0x0a
      · subst hc
        by_cases hroom : done.length + 1 < bufferSize
        · rw [loop_newline hnow harchive hroom, advance_advance] at hloop
          obtain ⟨s₁, hline, hrest⟩ := Option.bind_eq_some_iff.mp hloop
          have hon := h.behind_line harchive
          have hgood : (s.advance i (done.length + 1)).Good k := hs.advance h.used
          obtain ⟨n, hdoes⟩ : ∃ n, Executes command (s.advance i (done.length + 1)) (.line (lineText done)) n s₁ := by
            by_cases hskip : lineText done = shebang
            · rw [if_neg (not_not.mpr hskip)] at hline
              obtain rfl := Option.some.inj hline
              rw [hskip]
              exact ⟨0, .skip⟩
            · rw [if_pos hskip] at hline
              exact hexec hgood hskip hline
          obtain ⟨hgood₁, hkept, _⟩ := hdoes.kept harchive hcommand hgood trivial
          obtain ⟨n', hdoes'⟩ := @ih s₁ rest [] hgood₁ (hon.kept hkept) List.not_mem_nil (Nat.zero_le _)
            (by rw [List.length_nil, advance_zero]; exact hrest)
          exact ⟨n + n', .next hdone hroom hdoes hdoes'⟩
        · rw [loop_cut hnow harchive (Nat.le_of_not_lt hroom)] at hloop
          cases hloop
      · by_cases hroom : done.length < bufferSize
        · rw [loop_char hnow harchive hc hroom, advance_advance] at hloop
          have hsplit : done ++ c :: rest = (done ++ [c]) ++ rest := by rw [List.append_assoc]; rfl
          rw [hsplit] at h ⊢
          refine ih hs h ?_ ?_ ?_
          · rw [List.mem_append, List.mem_singleton, not_or]
            exact ⟨hdone, Ne.symm hc⟩
          · rw [List.length_append, List.length_singleton]
            exact hroom
          · rw [List.length_append, List.length_singleton]
            rw [List.length_append, List.length_singleton] at hloop
            exact hloop
        · rw [loop_full hnow harchive (Nat.le_of_not_lt hroom)] at hloop
          cases hloop

theorem toOption_eq_some {ε α : Type} {x : Except ε α} {a : α} (h : x.toOption = some a) : x = .ok a := by
  cases x with
  | error e => cases h
  | ok b => rw [Option.some.inj h]

theorem openShort_cases {s : Sbush} {fileName : List Byte} {o : Opened} (h : openShort s fileName = .ok o) :
    (s.index.find? (·.opens fileName) = none ∧ o = ⟨0, s.index, s.task⟩) ∨
      ∃ e i, s.index.find? (·.opens fileName) = some e ∧ i.val = s.task.fdCnt + 1 ∧ e.name.length < 32 ∧
        o = ⟨s.task.fdCnt + 1, (s.opened fileName e i).index, (s.opened fileName e i).task⟩ := by
  unfold openShort at h
  split at h
  · rename_i hnames
    obtain hnone | ⟨e, i, hfind, hi, rfl⟩ := sysOpen_cases h
    · exact Or.inl hnone
    · have hshort := hnames e hfind
      rw [Task.fill_short _ _ hshort]
      exact Or.inr ⟨e, i, hfind, hi, hshort, rfl⟩
  · cases h

theorem execShell_executes (harchive : Archive k) (hcommand : Keeps k command)
    (hexec : ∀ {s s' : Sbush} {text : List Byte}, s.Good k → text ≠ shebang → exec s text = some s' →
      ∃ n, Executes command s (.line text) n s') (hs : s.Good k) {fileName : List Byte}
    (h : execShell exec rounds s fileName = some s') : ∃ n, Executes command s (.script fileName) n s' := by
  unfold execShell at h
  split at h
  · rename_i hname
    obtain ⟨o, ho, h⟩ := Option.bind_eq_some_iff.mp h
    obtain ⟨hfind, rfl⟩ | ⟨e, i, hfind, hi, hshort, rfl⟩ := openShort_cases (toOption_eq_some ho)
    · obtain rfl := Option.some.inj h
      exact ⟨0, .missing hname hfind⟩
    · dsimp only at h
      rw [if_neg (by omega), show ((s.task.fdCnt : Int) + 1).toNat = i.val by omega] at h
      have hread : Reading k (s.opened fileName e i) i ([] ++ content s.mem e) := hs.reading harchive hfind hi
      have hloop : scriptLoop exec i rounds ((s.opened fileName e i).advance i 0) (written []) 0 = some s' := by
        rw [advance_zero]
        exact h
      obtain ⟨n, hdoes⟩ := loop_executes harchive hcommand hexec (hs.opened hi) hread List.not_mem_nil (Nat.zero_le _)
        hloop
      exact ⟨n + 1, .script hname hfind hi hshort hdoes⟩
  · rw [loop_minus_one] at h
    cases h

theorem execIn_executes (harchive : Archive k) (hcommand : Keeps k command) {depth : Nat} {text : List Byte} (hs : s.Good k)
    (htext : text ≠ shebang) (h : execIn command rounds depth s text = some s') :
    ∃ n, Executes command s (.line text) n s' := by
  induction depth generalizing s s' text with
  | zero => cases h
  | succ depth ih =>
    obtain ⟨job, hjob, h⟩ := Option.bind_eq_some_iff.mp h
    by_cases hscript : job.isScript = true
    · rw [if_pos hscript] at h
      obtain ⟨fileName, hname, h⟩ := Option.bind_eq_some_iff.mp h
      obtain ⟨n, hdoes⟩ := execShell_executes harchive hcommand (fun hs htext h => ih hs htext h) hs h
      exact ⟨n, .sbh htext hjob hscript hname hdoes⟩
    · rw [if_neg hscript] at h
      exact ⟨0, .command htext hjob (Bool.eq_false_iff.mpr hscript) h⟩

/-! ### From the lines to the code -/

/-- What the code does with the work. -/
def Work.code (command : Sbush → Job → Option Sbush) (depth rounds loops : Nat) (s : Sbush) : Work → Option Sbush
  | .script fileName => execShell (execIn command rounds depth) rounds s fileName
  | .rest i _ => scriptLoop (execIn command rounds depth) i loops s (written []) 0
  | .line text => if text ≠ shebang then execIn command rounds depth s text else some s

theorem openShort_missing {fileName : List Byte} (hfind : s.index.find? (·.opens fileName) = none) :
    openShort s fileName = .ok ⟨0, s.index, s.task⟩ := by
  have hfits : (Call.sysOpen fileName 0).NameFits s.index := fun e he => by
    rw [hfind] at he
    cases he
  rw [openShort, if_pos hfits, sysOpen, hfind]

theorem openShort_found {fileName : List Byte} {e : Entry} (hfind : s.index.find? (·.opens fileName) = some e)
    (hi : i.val = s.task.fdCnt + 1) (hshort : e.name.length < 32) : openShort s fileName =
      .ok ⟨s.task.fdCnt + 1, (s.opened fileName e i).index, (s.opened fileName e i).task⟩ := by
  have hslot : slotOf (s.task.fdCnt + 1) = .ok i := slotOf_ok.mpr (by omega)
  have hfits : (Call.sysOpen fileName 0).NameFits s.index := fun e' he' => by
    rw [hfind] at he'
    exact Option.some.inj he' ▸ hshort
  rw [openShort, if_pos hfits, sysOpen, hfind]
  simp only [hslot, Bind.bind, Except.bind]
  rw [Task.fill_short _ _ hshort]
  rfl

/-- With fuel enough the code does it. -/
theorem Executes.code (h : Executes command s w n s') (harchive : Archive k) (hcommand : Keeps k command) (hs : s.Good k)
    (hw : w.Ready k s) :
    ∃ fuel, ∀ depth rounds loops, fuel ≤ depth → fuel ≤ rounds → fuel ≤ loops →
      w.code command depth rounds loops s = some s' := by
  induction h with
  | @missing s fileName hname hfind =>
    refine ⟨0, fun depth rounds loops _ _ _ => ?_⟩
    show execShell _ _ _ _ = _
    rw [execShell, if_pos hname, openShort_missing hfind]
    rfl
  | @script s s' fileName e i n hname hfind hi hshort _ ih =>
    obtain ⟨fuel, hcode⟩ := ih (hs.opened hi) (hs.reading harchive hfind hi)
    refine ⟨fuel, fun depth rounds loops hdepth hrounds _ => ?_⟩
    show execShell _ _ _ _ = _
    rw [execShell, if_pos hname, openShort_found hfind hi hshort]
    simp only [Except.toOption, Option.bind_some]
    rw [if_neg (by omega), show ((s.task.fdCnt : Int) + 1).toNat = i.val by omega]
    exact hcode depth rounds rounds hdepth hrounds hrounds
  | @tail s i chars hchars hlen =>
    exact ⟨chars.length + 1, fun depth rounds loops _ _ hloops => loop_tail hw harchive hchars hlen hloops⟩
  | @next s s₁ s' i chars rest n n' hchars hlen hline _ ih ihrest =>
    have hread : Reading k s i (chars ++ 0x0a :: rest) := hw
    obtain ⟨fuel, hcode⟩ := ih (hs.advance hread.used) trivial
    obtain ⟨hgood, hkept, _⟩ := hline.kept harchive hcommand (hs.advance hread.used) trivial
    obtain ⟨fuel', hcode'⟩ := ihrest hgood ((hread.behind_line harchive).kept hkept)
    refine ⟨fuel + fuel' + 1 + chars.length, fun depth rounds loops hdepth hrounds hloops => ?_⟩
    obtain ⟨loops, rfl⟩ : ∃ l, loops = l + 1 + chars.length := ⟨loops - 1 - chars.length, by omega⟩
    have hline := hcode depth rounds loops (by omega) (by omega) (by omega)
    have hrest := hcode' depth rounds loops (by omega) (by omega) (by omega)
    show scriptLoop _ _ _ _ (written []) 0 = _
    rw [loop_line hread harchive hchars hlen]
    exact (congrArg (·.bind fun s => scriptLoop (execIn command rounds depth) i loops s (written []) 0) hline).trans hrest
  | @skip s =>
    refine ⟨0, fun depth rounds loops _ _ _ => ?_⟩
    rw [Work.code, if_neg (not_not.mpr rfl)]
  | command htext hjob hplain hdo =>
    refine ⟨1, fun depth rounds loops hdepth _ _ => ?_⟩
    obtain ⟨depth, rfl⟩ := Nat.exists_eq_add_of_le' hdepth
    rw [Work.code, if_pos htext, execIn, hjob, Option.bind_some, if_neg (by rw [hplain]; decide)]
    exact hdo
  | sbh htext hjob hscript hname _ ih =>
    obtain ⟨fuel, hcode⟩ := ih hs trivial
    refine ⟨fuel + 1, fun depth rounds loops hdepth hrounds hloops => ?_⟩
    obtain ⟨depth, rfl⟩ := Nat.exists_eq_add_of_le' hdepth
    rw [Work.code, if_pos htext, ← Nat.add_assoc, execIn, hjob, Option.bind_some, if_pos hscript, hname, Option.bind_some]
    exact hcode (depth + fuel) rounds loops (by omega) (by omega) (by omega)

end

/-- In any state of the shell, whatever commands it has that keep to theirs: running a script ends in
a state just when the lines of the file, and of those it runs in turn, lead to it. Then it has
taken a descriptor for every file, and none is given back. -/
theorem script_executes_iff (k : Link) (harchive : Archive k) (command : Sbush → Job → Option Sbush)
    (hcommand : Keeps k command) (s s' : Sbush) (hs : s.Good k) (fileName : List Byte) :
    (∃ depth rounds, execShell (execIn command rounds depth) rounds s fileName = some s') ↔
      ∃ n, Executes command s (.script fileName) n s' ∧ s.task.fdCnt + n ≤ s'.task.fdCnt ∧ s'.task.fdCnt < 25 := by
  constructor
  · rintro ⟨depth, rounds, h⟩
    obtain ⟨n, hdoes⟩ := execShell_executes harchive hcommand
      (fun hs htext h => execIn_executes harchive hcommand hs htext h) hs h
    obtain ⟨hgood, _, hcount⟩ := hdoes.kept harchive hcommand hs trivial
    exact ⟨n, hdoes, hcount, hgood.sound.high⟩
  · rintro ⟨n, hdoes, _⟩
    obtain ⟨fuel, hcode⟩ := hdoes.code harchive hcommand hs trivial
    exact ⟨fuel, fuel, hcode fuel fuel fuel (Nat.le_refl _) (Nat.le_refl _) (Nat.le_refl _)⟩

/-! ### A script that runs another -/

theorem Fits.lt_intMax {w : List Byte} (hw : Fits w) : w.length < intMax := by
  have := hw.short
  unfold intMax
  omega

/-- A command of words is handed on as these words. -/
theorem execLine_single {ws : List (List Byte)} {line : List Byte} (hjoin : Joins ws line) (hws : ∀ w ∈ ws, Fits w)
    (hlen : ws.length ≤ 7) (hline : Command line) :
    ∃ cmd, execLine (line ++ [0x0a]) = some (.single cmd) ∧
      ∀ n (hn : n < ws.length), (cmd n).map (cString · 0) = some ws[n] := by
  obtain ⟨job, hjob, hruns⟩ := execLine_words (.last line) (fun c hc => List.mem_singleton.mp hc ▸ hline) (by simp)
    (.cons hjoin .nil) (fun ws' hws' => List.mem_singleton.mp hws' ▸ ⟨hlen, hws⟩)
  cases job with
  | nothing => cases hruns
  | pipe cmds => exact absurd hruns.1 (by simp)
  | single cmd =>
    obtain ⟨ws', hws', hwords, _⟩ := hruns
    obtain rfl := List.singleton_inj.mp hws'
    refine ⟨cmd, hjob, fun n hn => ?_⟩
    obtain ⟨word, hcmd, hspells⟩ := hwords n hn
    rw [hcmd, Option.map_some, cString_spells hspells (hws _ (List.getElem_mem hn)).lt_intMax]

/-- The commands of a shell that only makes pipes. -/
def pipes (pipeBuff : BitVec 64) (s : Sbush) : Job → Option Sbush
  | .pipe _ => (sysPipe s.task pipeBuff).toOption.map fun o => {s with task := o.task}
  | _ => some s

theorem pipes_keeps (k : Link) (pipeBuff : BitVec 64) : Keeps k (pipes pipeBuff) where
  good {s s' job} hs h := by
    cases job with
    | nothing => exact Option.some.inj h ▸ hs
    | single cmd => exact Option.some.inj h ▸ hs
    | pipe cmds =>
      obtain ⟨o, ho, rfl⟩ := Option.map_eq_some_iff.mp h
      exact ⟨sysPipe_sound hs.sound (toOption_eq_some ho), hs.files⟩
  kept {s s' job} hs h := by
    cases job with
    | nothing => exact Option.some.inj h ▸ Kept.refl k _ _ s
    | single cmd => exact Option.some.inj h ▸ Kept.refl k _ _ s
    | pipe cmds =>
      obtain ⟨o, ho, rfl⟩ := Option.map_eq_some_iff.mp h
      obtain ⟨_, rfl⟩ | ⟨i, j, _, hi, hj, rfl⟩ := sysPipe_cases (toOption_eq_some ho)
      · exact Kept.refl k _ _ s
      · refine ⟨Nat.le_add_right _ 2, fun l hl _ => ⟨?_, rfl⟩, fun _ _ _ => rfl⟩
        have hil : l ≠ i := fun hc => by rw [hc] at hl; omega
        have hjl : l ≠ j := fun hc => by rw [hc] at hl; omega
        show ((s.task.setFd i _).setFd j _).fd l = _
        rw [Task.setFd_other _ _ hjl, Task.setFd_other _ _ hil]

/-- The files `a` and `b`: the first runs the second, and that has one command. -/
def fileA : Entry := ⟨[0x61], 6, 0, 0, 0, 100000⟩
def fileB : Entry := ⟨[0x62], 3, 0, 0, 0, 100512⟩
def textA : List Byte := [0x73, 0x62, 0x68, 0x20, 0x62]
def textB : List Byte := [0x6c, 0x73]
def scriptStore : Store := put (put (fun _ => 0) 100000 (textA ++ [0x0a])) 100512 (textB ++ [0x0a])
def scriptShell : Sbush := ⟨[fileA, fileB], Task.create, scriptStore⟩

/-- Both are run, and both descriptors stay open. -/
theorem script_executes_two :
    ∃ s', (∃ depth rounds, execShell (execIn (pipes 0x200000) rounds depth) rounds scriptShell [0x61] = some s') ∧
      s'.task.fdCnt = 4 := by
  have harchive : Archive ⟨0, 100000, 100515⟩ := ⟨by decide, by decide⟩
  have hgood : scriptShell.Good ⟨0, 100000, 100515⟩ := ⟨create_sound, by decide⟩
  have hwordsA : ∀ w ∈ [sbh, [0x62]], Fits w := by
    intro w hw
    obtain rfl | rfl := List.mem_pair.mp hw
    · exact ⟨by decide, by decide, by decide⟩
    · exact ⟨by decide, by decide, by decide⟩
  have hwordsB : ∀ w ∈ [textB], Fits w := by
    intro w hw
    obtain rfl := List.mem_singleton.mp hw
    exact ⟨by decide, by decide, by decide⟩
  obtain ⟨cmdA, hjobA, hA⟩ := execLine_single (.next sbh (show ∀ b ∈ [], Blank b by decide) (.last [0x62])) hwordsA
    (by decide) ⟨by decide, by decide, by decide, by decide⟩
  obtain ⟨cmdB, hjobB, hB⟩ := execLine_single (.last textB) hwordsB (by decide) ⟨by decide, by decide, by decide, by decide⟩
  have hscript : (Job.single cmdA).isScript = true := decide_eq_true (hA 0 Nat.two_pos)
  have hplain : (Job.single cmdB).isScript = false := by
    refine decide_eq_false fun hc => ?_
    rw [hB 0 Nat.one_pos] at hc
    exact absurd hc (by decide)
  have hcontentA : content scriptStore fileA = textA ++ [0x0a] := by decide
  have hcontentB : content scriptStore fileB = textB ++ [0x0a] := by decide
  have hlineB : ∀ s : Sbush, Executes (pipes 0x200000) s (.line (lineText textB)) 0 s := fun s =>
    .command (by decide) hjobB hplain rfl
  have hinner : ∀ s : Sbush, s.index.find? (·.opens [0x62]) = some fileB → s.task.fdCnt = 3 → s.mem = scriptStore →
      Executes (pipes 0x200000) s (.script [0x62]) 1 (((s.opened [0x62] fileB 4).advance 4 3).advance 4 0) := by
    intro s hfind hfd hmem
    refine .script (i := 4) (by decide) hfind (by rw [hfd]; rfl) (by decide) ?_
    rw [hmem, hcontentB]
    exact .next (by decide) (by decide) (hlineB _) (.tail List.not_mem_nil (Nat.zero_le _))
  have hlineA : Executes (pipes 0x200000) ((scriptShell.opened [0x61] fileA 3).advance 3 6) (.line (lineText textA)) 1 _ :=
    .sbh (by decide) hjobA hscript (hA 1 Nat.one_lt_two) (hinner _ rfl rfl rfl)
  have houter : Executes (pipes 0x200000) scriptShell (.script [0x61]) 2 ((((((scriptShell.opened [0x61] fileA 3).advance 3
      6).opened [0x62] fileB 4).advance 4 3).advance 4 0).advance 3 0) := by
    refine .script (i := 3) (by decide) rfl rfl (by decide) ?_
    rw [show scriptShell.mem = scriptStore from rfl, hcontentA]
    exact .next (by decide) (by decide) hlineA (.tail List.not_mem_nil (Nat.zero_le _))
  exact ⟨_, (script_executes_iff ⟨0, 100000, 100515⟩ harchive (pipes 0x200000) (pipes_keeps _ _) scriptShell _ hgood
    [0x61]).mpr ⟨2, houter, by decide, by decide⟩, rfl⟩

end Sbnix.Shell
