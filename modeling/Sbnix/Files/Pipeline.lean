import Mathlib.Data.List.TakeWhile
import Sbnix.Files.Pipe

/-! Pipelines (`execute_pipe_cmd` in `bin/sbush/sbush.c`, lines 406 to 482, and the loop of
`execLine` that calls it).

The shell makes one pipe for the whole line, at the first command. It forks for each
command, waits until it is done, and goes on with the next. The child redirects its
standard input and output to the pipe, as far as it is neither the first nor the last, and
then becomes the command. So the commands run one after the other and all use one buffer:
each finds there what the one before has written, and must have read it before it writes.

`pipelines_compose` says what comes of a session of such lines: every line prints the
composition of its commands, as long as there are descriptors; a line takes two of them
for good, and the first one that finds none left runs past the table. -/
namespace Sbnix.Files
open Library Library.Store

/-! ### The shell -/

/-- A program as its neighbours see it: whether it reads its standard input, which it then does
once, and what it writes to its standard output, call by call. -/
structure Command where
  reads : Bool
  writes : List Byte → List (List Byte)

/-- The shell with the kernel's memory and what has been given to `printk`. -/
structure Shell where
  task : Task
  mem : Store
  pfd : Int × Int
  screen : List Byte

/-- A line as it is typed: what is typed after it, the page that `kmalloc` finds for its pipe, and
the commands. -/
structure Line where
  typed : List Byte
  pipeBuff : BitVec 64
  commands : List Command

/-- `MAXLENGTH` of `scanf`. -/
def maxLength : Nat := 1024

section
variable (printk : List Byte → Int)

/-- The writes of a program: the memory, and what has been given to `printk`. -/
def writeAll (t : Task) : List (List Byte) → Store → List Byte → Except Fault (Store × List Byte)
  | [], m, screen => .ok (m, screen)
  | data :: rest, m, screen => do
    let o ← sysWrite printk m t 1 data
    writeAll t rest o.mem (if o.buffer.isSome then screen else screen ++ o.bytes)

def readInput (typed : List Byte) (reads : Bool) (m : Store) (t : Task) : Except Fault (List Byte × Store) :=
  if reads then (sysRead typed m t 0 maxLength).map fun o => (o.counted, o.mem) else .ok ([], m)

def Command.main (c : Command) (typed : List Byte) (t : Task) (m : Store) (screen : List Byte) :
    Except Fault (Store × List Byte) := do
  let input ← readInput typed c.reads m t
  writeAll printk t (c.writes input.1) input.2 screen

/-- What the child does to its descriptors. -/
def redirect (i cnt : Nat) (pfd : Int × Int) (t : Task) : Except Fault Task :=
  if i = 0 then (sysDup2 t 1 pfd.2).map Prod.snd
  else if i = cnt - 1 then (sysDup2 t 0 pfd.1).bind fun r => (sysDup2 r.2 pfd.2 1).map Prod.snd
  else (sysDup2 t 0 pfd.1).bind fun r => (sysDup2 r.2 1 pfd.2).map Prod.snd

/-- `if (i_chld == 0) pipe(pfd);` -/
def openPipe (i : Nat) (pipeBuff : BitVec 64) (s : Shell) : Except Fault Shell :=
  if i = 0 then (sysPipe s.task pipeBuff).map fun o =>
    {s with task := o.task, pfd := (o.ends.getD 0 s.pfd.1, o.ends.getD 1 s.pfd.2)}
  else .ok s

/-- The child between `fork` and the first instruction of the command. -/
def stageTask (i cnt : Nat) (s : Shell) : Except Fault Task := do
  let child ← sysFork s.task
  let child ← redirect i cnt s.pfd child
  sysExecve child

/-- One command, which is found on the path. The shell waits for it. -/
def executePipeCmd (l : Line) (i : Nat) (c : Command) (s : Shell) : Except Fault Shell := do
  let s ← openPipe i l.pipeBuff s
  let child ← stageTask i l.commands.length s
  let r ← c.main printk l.typed child s.mem s.screen
  .ok {s with mem := r.1, screen := r.2}

/-- The loop over the commands, from the `i`-th on. -/
def pipeLoop (l : Line) : Nat → List Command → Shell → Except Fault Shell
  | _, [], s => .ok s
  | i, c :: rest, s => executePipeCmd printk l i c s >>= pipeLoop l (i + 1) rest

def execLine (l : Line) (s : Shell) : Except Fault Shell := pipeLoop printk l 0 l.commands s

def execLines : List Line → Shell → Except Fault Shell
  | [], s => .ok s
  | l :: rest, s => execLine printk l s >>= execLines rest

end

/-! ### What a pipeline is to do -/

/-- What a command leaves of what it finds, and what it writes. -/
def Command.rest (c : Command) (input : List Byte) : List Byte := if c.reads then [] else input
def Command.output (c : Command) (input : List Byte) : List Byte := (c.writes (if c.reads then input else [])).flatten

/-- The commands behind the first one, with what is in the pipe: what the last one prints. -/
def compose : List Command → List Byte → List Byte
  | [], _ => []
  | [c], input => c.output input
  | c :: rest, input => compose rest (c.rest input ++ c.output input)

def Line.output (l : Line) : List Byte :=
  match l.commands with
  | [] => []
  | c :: rest => compose rest (c.output (l.typed.take maxLength))

/-- A command can take what it finds, and writes no zeros. -/
def Command.Takes (c : Command) (input : List Byte) : Prop :=
  (c.reads → input.length < maxLength) ∧ (0 : Byte) ∉ c.output input

/-- Every command can take what it finds in the pipe, which has room for it. -/
def Passes : List Command → List Byte → Prop
  | [], input => input.length < 4096
  | c :: rest, input => input.length < 4096 ∧ c.Takes input ∧
      (rest ≠ [] → Passes rest (c.rest input ++ c.output input))

def Line.Passes (l : Line) : Prop :=
  match l.commands with
  | [] => True
  | c :: rest => (0 : Byte) ∉ c.output (l.typed.take maxLength) ∧ Files.Passes rest (c.output (l.typed.take maxLength))

/-! ### The page of a pipe -/

/-- A page with a string in it and zeros behind the string. -/
structure Filled (m : Store) (a : Nat) (s : List Byte) : Prop where
  bytes : Holds m a s
  nonzero : (0 : Byte) ∉ s
  zero : ∀ x, a + s.length ≤ x → x < a + 4096 → m x = 0
  room : s.length < 4096

section
variable {m m' : Store} {a : Nat} {s data : List Byte}

theorem Filled.spells (h : Filled m a s) : Spells m a s := by
  have hroom := h.room
  exact ⟨holds_append.mpr ⟨h.bytes, holds_cons.mpr ⟨h.zero _ (Nat.le_refl _) (by omega), holds_nil _ _⟩⟩, h.nonzero⟩

theorem Filled.strlen (h : Filled m a s) : strlen m a = s.length := by
  have hroom := h.room
  exact strlen_spells h.spells (by unfold intMax; omega)

theorem Filled.put (h : Filled m a s) (hdata : (0 : Byte) ∉ data) (hroom : s.length + data.length < 4096) :
    Filled (put m (a + s.length) data) a (s ++ data) where
  bytes := holds_append.mpr ⟨h.bytes.congr (put_agree m data (Or.inr (Nat.le_refl _))), put_holds _ _ _⟩
  nonzero := by
    rw [List.mem_append, not_or]
    exact ⟨h.nonzero, hdata⟩
  zero := fun x hlo hhi => by
    rw [List.length_append] at hlo
    rw [put_above m data (by omega)]
    exact h.zero x (by omega) hhi
  room := by
    rw [List.length_append]
    exact hroom

theorem Filled.clear (h : Filled m a s) : Filled (memset m a 0 s.length) a [] where
  bytes := holds_nil _ _
  nonzero := List.not_mem_nil
  zero := fun x hlo hhi => by
    rw [List.length_nil, Nat.add_zero] at hlo
    obtain ⟨i, rfl⟩ := Nat.exists_eq_add_of_le hlo
    by_cases hi : i < s.length
    · rw [memset, put_at m a _ (by rwa [List.length_replicate]), List.getElem_replicate]
    · rw [memset, put_above m _ (by rw [List.length_replicate]; omega)]
      exact h.zero _ (by omega) hhi
  room := by decide

theorem Filled.within (h : Filled m a s) {b : Nat} (hm : Within m m' b 4096) (hd : a + 4096 ≤ b ∨ b + 4096 ≤ a) :
    Filled m' a s where
  bytes := h.bytes.congr fun x hlo hhi => hm x (by have := h.room; omega)
  nonzero := h.nonzero
  zero := fun x hlo hhi => by
    rw [hm x (by omega)]
    exact h.zero x hlo hhi
  room := h.room

end

/-! ### One command -/

section
variable (printk : List Byte → Int) {t : Task} {m : Store} {input : List Byte} {buffer : BitVec 64}

/-- Writes to the pipe. -/
theorem writeAll_pipe (screen : List Byte) (chunks : List (List Byte)) (hbuffer : initialMem ≤ buffer.toNat)
    (ht : t.RedirectedTo 1 buffer) (h : Filled m buffer.toNat input) (hzero : (0 : Byte) ∉ chunks.flatten)
    (hroom : input.length + chunks.flatten.length < 4096) :
    ∃ m', writeAll printk t chunks m screen = .ok (m', screen) ∧ Filled m' buffer.toNat (input ++ chunks.flatten) ∧
      Within m m' buffer.toNat 4096 := by
  induction chunks generalizing m input with
  | nil => exact ⟨m, rfl, by rwa [List.flatten_nil, List.append_nil], fun _ _ => rfl⟩
  | cons data rest ih =>
    rw [List.flatten_cons, List.length_append] at hroom
    rw [List.flatten_cons, List.mem_append, not_or] at hzero
    obtain ⟨hdup, j, hj, hoff⟩ := ht
    have hwrite : sysWrite printk m t 1 data =
        .ok ⟨data.length, data, some buffer.toNat, t, put m (buffer.toNat + input.length) data⟩ := by
      have hpipe : sysWrite printk m t ((1 : Fin 25) : Nat) data = _ := sysWrite_redirected printk hdup hj
      rw [hoff, if_neg (by omega), h.strlen] at hpipe
      exact hpipe
    obtain ⟨m', hrest, hfilled, hwithin⟩ := ih (h.put hzero.1 (by omega)) hzero.2
      (by rw [List.length_append]; omega)
    refine ⟨m', ?_, ?_, ?_⟩
    · rw [writeAll, hwrite]
      exact hrest
    · rw [List.flatten_cons, ← List.append_assoc]
      exact hfilled
    · exact (put_within m data (Nat.le_add_right _ _) (by omega)).trans hwithin

/-- Writes to the console. -/
theorem writeAll_console (screen : List Byte) {chunks : List (List Byte)} (ht : t.dupArr 1 = 1) (hzero : (0 : Byte) ∉ chunks.flatten) :
    writeAll printk t chunks m screen = .ok (m, screen ++ chunks.flatten) := by
  induction chunks generalizing screen with
  | nil =>
    rw [List.flatten_nil, List.append_nil]
    rfl
  | cons data rest ih =>
    rw [List.flatten_cons, List.mem_append, not_or] at hzero
    have htake : data.takeWhile (· ≠ 0) = data := List.takeWhile_eq_self_iff.mpr fun b hb => by
      simpa using fun hc : b = 0 => hzero.1 (hc ▸ hb)
    have hwrite : sysWrite printk m t 1 data = .ok ⟨printk data, data, none, t, m⟩ := by
      show (if t.dupArr 1 ≠ 1 then _ else if (1 = 1 ∨ 1 = 2) then _ else _) = _
      rw [if_neg (not_not.mpr ht), if_pos (Or.inl rfl)]
      dsimp only
      rw [htake]
    rw [writeAll, hwrite]
    show writeAll printk t rest m (screen ++ data) = _
    rw [ih (screen ++ data) hzero.2, List.append_assoc, List.flatten_cons]

/-- A program that reads takes all there is in the pipe. -/
theorem readInput_pipe (hbuffer : initialMem ≤ buffer.toNat) (ht : t.RedirectedTo 0 buffer)
    (h : Filled m buffer.toNat input) (typed : List Byte) (c : Command) :
    ∃ m', readInput typed c.reads m t = .ok (if c.reads then input else [], m') ∧
      Filled m' buffer.toNat (c.rest input) ∧ Within m m' buffer.toNat 4096 := by
  unfold readInput Command.rest
  cases c.reads with
  | false => exact ⟨m, rfl, h, fun _ _ => rfl⟩
  | true =>
    obtain ⟨hdup, j, hj, hoff⟩ := ht
    have hread : sysRead typed m t ((0 : Fin 25) : Nat) maxLength = _ := sysRead_redirected (by decide) hdup hj
    rw [hoff, if_neg (by omega), cString, h.strlen, h.bytes] at hread
    refine ⟨memset m buffer.toNat 0 input.length, ?_, h.clear, put_within m _ (Nat.le_refl _) ?_⟩
    · rw [if_pos rfl, if_pos rfl]
      show (sysRead typed m t ((0 : Fin 25) : Nat) maxLength).map _ = _
      rw [hread]
      show Except.ok (List.take input.length (input ++ [0]), _) = _
      rw [List.take_left]
    · have hroom := h.room
      rw [List.length_replicate]
      omega

/-- One that is not redirected reads what is typed. -/
theorem readInput_console (ht : t.dupArr 0 = 0) (typed : List Byte) (c : Command) :
    readInput typed c.reads m t = .ok (if c.reads then typed.take maxLength else [], m) := by
  unfold readInput
  cases c.reads with
  | false => rfl
  | true =>
    have hread : sysRead typed m t 0 maxLength =
        .ok ⟨(min typed.length maxLength : Nat), typed.take (min typed.length maxLength) ++ [0], none, t, m⟩ := by
      show (if t.dupArr 0 ≠ 0 then _ else _) = _
      rw [if_neg (not_not.mpr ht)]
      rfl
    have hcounted : Transfer.counted ⟨(min typed.length maxLength : Nat), typed.take (min typed.length maxLength) ++ [0],
        none, t, m⟩ = typed.take maxLength := by
      show List.take (min typed.length maxLength) (typed.take (min typed.length maxLength) ++ [0]) = _
      rw [List.take_append_of_le_length (by rw [List.length_take]; omega), List.take_take, Nat.min_self,
        Nat.min_comm, List.take_eq_take_min (i := maxLength)]
    rw [if_pos rfl, hread, if_pos rfl, ← hcounted]
    rfl

end

/-! ### The descriptors of the shell and of its children -/

section
variable {s : Shell} {buffer : BitVec 64} {r w : Fin 25}

/-- The shell has the two ends of the pipe in `pfd`. -/
structure HasPipe (s : Shell) (buffer : BitVec 64) (r w : Fin 25) : Prop where
  sound : Sound s.task
  short : s.task.Short
  pfd : s.pfd = (((r : Nat) : Int), ((w : Nat) : Int))
  reading : 2 < r.val ∧ r.val ≤ s.task.fdCnt ∧ (s.task.fd r).offset = buffer
  writing : 2 < w.val ∧ w.val ≤ s.task.fdCnt ∧ (s.task.fd w).offset = buffer

theorem dup2_ok (t : Task) {a b : Fin 25} (ha : a.val ≤ t.fdCnt) (hb : b.val ≤ t.fdCnt) :
    (sysDup2 t (a : Nat) (b : Nat)).map Prod.snd = .ok {t with dupArr := Function.update t.dupArr a b} := by
  unfold sysDup2
  rw [if_neg (by omega), if_neg (by omega), slotOf_fin]
  rfl

/-- `i_chld == 0` and `i_chld == cnt_chld-1` decide what the child redirects. -/
theorem redirect_ok {t : Task} (hlow : 2 ≤ t.fdCnt) (hr : r.val ≤ t.fdCnt) (hw : w.val ≤ t.fdCnt) (i cnt : Nat) :
    ∃ dupArr, redirect i cnt (((r : Nat) : Int), ((w : Nat) : Int)) t = .ok {t with dupArr := dupArr} ∧
      (2 < w.val → t.dupArr 0 = 0 → t.dupArr 1 = 1 → dupArr 0 = (if i = 0 then 0 else r.val) ∧
        dupArr 1 = if i = 0 ∨ i ≠ cnt - 1 then w.val else 1) := by
  have h0 : ((0 : Fin 25) : Nat) ≤ t.fdCnt := Nat.zero_le _
  have h1 : ((1 : Fin 25) : Nat) ≤ t.fdCnt := by
    show 1 ≤ t.fdCnt
    omega
  have hne : (0 : Fin 25) ≠ 1 := by decide
  unfold redirect
  by_cases hfirst : i = 0
  · refine ⟨_, by rw [if_pos hfirst]; exact dup2_ok t h1 hw, fun _ hzero _ => ⟨?_, ?_⟩⟩
    · rw [if_pos hfirst, Function.update_of_ne hne]
      exact hzero
    · rw [if_pos (Or.inl hfirst), Function.update_self]
  · have hread := dup2_ok t h0 hr
    obtain ⟨o, ho, hsnd⟩ := map_ok.mp hread
    rw [if_neg hfirst]
    by_cases hlast : i = cnt - 1
    · have hw1 := dup2_ok {t with dupArr := Function.update t.dupArr 0 r} hw h1
      refine ⟨Function.update (Function.update t.dupArr 0 r) w 1, ?_, fun hw2 _ hone => ⟨?_, ?_⟩⟩
      · rw [if_pos hlast]
        show (sysDup2 t ((0 : Fin 25) : Nat) (r : Nat)).bind _ = _
        rw [ho]
        show (sysDup2 o.2 (w : Nat) ((1 : Fin 25) : Nat)).map Prod.snd = _
        rw [hsnd]
        exact hw1
      · have h0w : (0 : Fin 25) ≠ w := fun he => by
          rw [← he] at hw2
          cases hw2
        rw [Function.update_of_ne h0w, Function.update_self, if_neg hfirst]
      · have h1w : (1 : Fin 25) ≠ w := fun he => by
          rw [← he] at hw2
          exact absurd hw2 (by decide)
        rw [Function.update_of_ne h1w, Function.update_of_ne hne.symm, if_neg (by omega)]
        exact hone
    · have h1w := dup2_ok {t with dupArr := Function.update t.dupArr 0 r} h1 hw
      refine ⟨Function.update (Function.update t.dupArr 0 r) 1 w, ?_, fun _ _ _ => ⟨?_, ?_⟩⟩
      · rw [if_neg hlast]
        show (sysDup2 t ((0 : Fin 25) : Nat) (r : Nat)).bind _ = _
        rw [ho]
        show (sysDup2 o.2 ((1 : Fin 25) : Nat) (w : Nat)).map Prod.snd = _
        rw [hsnd]
        exact h1w
      · rw [Function.update_of_ne hne, Function.update_self, if_neg hfirst]
      · rw [Function.update_self, if_pos (Or.inr hlast)]

/-- A child in the pipeline: what it reads and writes through. -/
theorem stageTask_ok (h : HasPipe s buffer r w) (i cnt : Nat) :
    ∃ child, stageTask i cnt s = .ok child ∧
      (if i = 0 then child.dupArr 0 = 0 else child.RedirectedTo 0 buffer) ∧
      (if i = 0 ∨ i ≠ cnt - 1 then child.RedirectedTo 1 buffer else child.dupArr 1 = 1) := by
  obtain ⟨hr2, hr, hroff⟩ := h.reading
  obtain ⟨hw2, hw, hwoff⟩ := h.writing
  have hlow := h.sound.low
  have hcopy : ∀ (t : Task) (dupArr : Fin 25 → Nat), t.fdCnt < 25 → ∃ c, copyFds t dupArr = .ok c := fun t dupArr hlt =>
    ⟨_, if_pos hlt⟩
  obtain ⟨forked, hfork⟩ := hcopy s.task (fun i => i) h.sound.high
  obtain ⟨_, hcnt, hdup⟩ := copyFds_shape hfork
  have hfd := copyFds_short h.short hfork
  obtain ⟨dupArr, hredirect, hends⟩ := redirect_ok (t := forked) (by omega) (r := r) (by omega) (w := w) (by omega) i cnt
  obtain ⟨hzero, hone⟩ := hends hw2 (by rw [hdup]; rfl) (by rw [hdup]; rfl)
  obtain ⟨child, hexec⟩ := hcopy {forked with dupArr := dupArr} dupArr (by dsimp only; have := h.sound.high; omega)
  obtain ⟨_, hcnt', hdup'⟩ := copyFds_shape hexec
  have hshort : Task.Short {forked with dupArr := dupArr} :=
    (copyFds_sound h.sound h.short (fun _ _ => rfl) (fun _ hi => hi) hfork).2
  have hfd' := copyFds_short hshort hexec
  have hoff : ∀ j : Fin 25, j.val ≤ s.task.fdCnt → (child.fd j).offset = (s.task.fd j).offset := fun j hj => by
    rw [hfd' j, if_pos (by dsimp only; omega)]
    dsimp only
    rw [hfd j, if_pos hj]
  refine ⟨child, ?_, ?_, ?_⟩
  · unfold stageTask sysFork
    rw [hfork, h.pfd]
    show redirect i cnt _ forked >>= _ = _
    rw [hredirect]
    exact hexec
  · split
    · rename_i hi
      rw [hdup', hzero, if_pos hi]
    · rename_i hi
      rw [if_neg hi] at hzero
      refine ⟨?_, r, by rw [hdup', hzero], (hoff r hr).trans hroff⟩
      rw [hdup', hzero]
      show r.val ≠ 0
      omega
  · split
    · rename_i hi
      rw [if_pos hi] at hone
      refine ⟨?_, w, by rw [hdup', hone], (hoff w hw).trans hwoff⟩
      rw [hdup', hone]
      show w.val ≠ 1
      omega
    · rename_i hi
      rw [hdup', hone, if_neg hi]

/-- With room in the table the shell gets a pipe, and its other descriptors stay. -/
theorem openPipe_ok (h : Sound s.task) (hs : s.task.Short) (hroom : s.task.fdCnt + 2 < 25) (hbuffer : buffer ≠ 0) :
    ∃ s' r w, openPipe 0 buffer s = .ok s' ∧ HasPipe s' buffer r w ∧ s'.task.fdCnt = s.task.fdCnt + 2 ∧ s'.mem = s.mem ∧
      s'.screen = s.screen := by
  have hlow := h.low
  have hbounds : ∀ e, sysPipe s.task buffer ≠ .error e := by
    intro e he
    unfold sysPipe at he
    rw [if_neg hbuffer] at he
    rw [show slotOf (s.task.fdCnt + 1) = .ok ⟨s.task.fdCnt + 1, by omega⟩ from slotOf_ok.mpr (by push_cast; rfl)] at he
    dsimp only [bind, Except.bind] at he
    rw [show slotOf (s.task.fdCnt + 2) = .ok ⟨s.task.fdCnt + 2, by omega⟩ from slotOf_ok.mpr (by push_cast; rfl)] at he
    cases he
  cases hpipe : sysPipe s.task buffer with
  | error e => exact absurd hpipe (hbounds e)
  | ok o =>
    obtain ⟨hzero, _⟩ | ⟨i, j, _, hi, hj, rfl⟩ := sysPipe_cases hpipe
    · exact absurd hzero hbuffer
    · have hne : i ≠ j := fun he => by
        rw [he] at hi
        omega
      have hsound : Sound {(s.task.setFd i ((s.task.fd i).pipeEnd buffer)).setFd j ((s.task.fd j).pipeEnd buffer) with
          fdCnt := s.task.fdCnt + 2} :=
        sysPipe_sound h hpipe
      have hname : pipeName.length < 32 := by decide
      refine ⟨{s with
        task := {(s.task.setFd i ((s.task.fd i).pipeEnd buffer)).setFd j ((s.task.fd j).pipeEnd buffer) with
          fdCnt := s.task.fdCnt + 2}
        pfd := ((s.task.fdCnt : Int) + 1, (s.task.fdCnt : Int) + 2) }, i, j, by rw [openPipe, if_pos rfl, hpipe]; rfl,
        ⟨hsound, setFd_short (setFd_short hs hname) hname, ?_, ⟨by omega, ?_, ?_⟩, ⟨by omega, ?_, ?_⟩⟩, rfl, rfl, rfl⟩
      · rw [hi, hj]
        push_cast
        rfl
      · show i.val ≤ s.task.fdCnt + 2
        omega
      · show ((Task.setFd _ j _).fd i).offset = buffer
        rw [Task.setFd_other _ _ hne, Task.setFd_same]
        rfl
      · show j.val ≤ s.task.fdCnt + 2
        omega
      · show ((Task.setFd _ j _).fd j).offset = buffer
        rw [Task.setFd_same]
        rfl

/-! ### A whole line -/

variable (printk : List Byte → Int) {l : Line} {input : List Byte}

/-- The first command writes to the empty pipe. -/
theorem first_stage (h : Sound s.task) (hs : s.task.Short) (hroom : s.task.fdCnt + 2 < 25)
    (hbuffer : initialMem ≤ l.pipeBuff.toNat)
    (hempty : Filled s.mem l.pipeBuff.toNat []) (c : Command)
    (hzero : (0 : Byte) ∉ c.output (l.typed.take maxLength)) (hlen : (c.output (l.typed.take maxLength)).length < 4096) :
    ∃ s' r w, executePipeCmd printk l 0 c s = .ok s' ∧ HasPipe s' l.pipeBuff r w ∧
      Filled s'.mem l.pipeBuff.toNat (c.output (l.typed.take maxLength)) ∧ Within s.mem s'.mem l.pipeBuff.toNat 4096 ∧
      s'.screen = s.screen ∧ s'.task.fdCnt = s.task.fdCnt + 2 := by
  have hnull : l.pipeBuff ≠ 0 := fun hc => by
    rw [hc] at hbuffer
    exact absurd hbuffer (by decide)
  obtain ⟨s₁, r, w, hopen, hpipe, hcnt, hmem, hscreen⟩ := openPipe_ok h hs hroom hnull
  obtain ⟨child, hchild, hin, hout⟩ := stageTask_ok hpipe 0 l.commands.length
  rw [if_pos rfl] at hin
  rw [if_pos (Or.inl rfl)] at hout
  rw [← hmem] at hempty
  obtain ⟨m', hwrite, hfilled, hwithin⟩ := writeAll_pipe printk s₁.screen
    (c.writes (if c.reads then l.typed.take maxLength else [])) hbuffer hout hempty hzero
    (by rw [List.length_nil, Nat.zero_add]; exact hlen)
  refine ⟨{s₁ with mem := m'}, r, w, ?_, ⟨hpipe.sound, hpipe.short, hpipe.pfd, hpipe.reading, hpipe.writing⟩, hfilled,
    ?_, hscreen, hcnt⟩
  · unfold executePipeCmd
    rw [hopen]
    show stageTask 0 l.commands.length s₁ >>= _ = _
    rw [hchild]
    show c.main printk l.typed child s₁.mem s₁.screen >>= _ = _
    rw [Command.main, readInput_console hin]
    show writeAll printk child _ s₁.mem s₁.screen >>= _ = _
    rw [hwrite]
    rfl
  · rw [← hmem]
    exact hwithin

/-- Any other command reads from the pipe. It writes back to it, or to the console if it is the last. -/
theorem next_stage (h : HasPipe s l.pipeBuff r w) (hbuffer : initialMem ≤ l.pipeBuff.toNat)
    (hfilled : Filled s.mem l.pipeBuff.toNat input) {i : Nat} (hi : i ≠ 0) (c : Command) (htakes : c.Takes input) :
    if i = l.commands.length - 1 then ∃ m', executePipeCmd printk l i c s = .ok {s with
        mem := m', screen := s.screen ++ c.output input } ∧ Within s.mem m' l.pipeBuff.toNat 4096
    else (c.rest input ++ c.output input).length < 4096 → ∃ m', executePipeCmd printk l i c s = .ok {s with mem := m'} ∧
      Filled m' l.pipeBuff.toNat (c.rest input ++ c.output input) ∧ Within s.mem m' l.pipeBuff.toNat 4096 := by
  obtain ⟨child, hchild, hin, hout⟩ := stageTask_ok h i l.commands.length
  rw [if_neg hi] at hin
  obtain ⟨m₁, hread, hrest, hwithin⟩ := readInput_pipe hbuffer hin hfilled l.typed c
  have hrun : executePipeCmd printk l i c s =
      (writeAll printk child (c.writes (if c.reads then input else [])) m₁ s.screen).bind fun o =>
        .ok {s with mem := o.1, screen := o.2} := by
    unfold executePipeCmd openPipe
    rw [if_neg hi]
    show stageTask i l.commands.length s >>= _ = _
    rw [hchild]
    show c.main printk l.typed child s.mem s.screen >>= _ = _
    rw [Command.main, hread]
    rfl
  split
  · rename_i hlast
    rw [if_neg (by omega)] at hout
    have hwrite := writeAll_console printk (m := m₁) s.screen hout htakes.2
    refine ⟨m₁, ?_, hwithin⟩
    rw [hrun, hwrite]
    rfl
  · rename_i hlast
    intro hroom
    rw [if_pos (Or.inr hlast)] at hout
    rw [List.length_append] at hroom
    obtain ⟨m', hwrite, hfilled', hwithin'⟩ := writeAll_pipe printk s.screen _ hbuffer hout hrest
      htakes.2 hroom
    refine ⟨m', ?_, hfilled', hwithin.trans hwithin'⟩
    rw [hrun, hwrite]
    rfl

theorem passes_room {cs : List Command} (h : Passes cs input) : input.length < 4096 := by
  cases cs with
  | nil => exact h
  | cons c cs => exact h.1

/-- The commands behind the first one. -/
theorem pipeLoop_ok (h : HasPipe s l.pipeBuff r w) (hbuffer : initialMem ≤ l.pipeBuff.toNat)
    (hfilled : Filled s.mem l.pipeBuff.toNat input) {cs : List Command} (hcs : cs ≠ []) {i : Nat} (hi : i ≠ 0)
    (hcnt : i + cs.length = l.commands.length) (hpasses : Passes cs input) :
    ∃ m', pipeLoop printk l i cs s = .ok {s with mem := m', screen := s.screen ++ compose cs input } ∧
      Within s.mem m' l.pipeBuff.toNat 4096 := by
  induction cs generalizing s input i with
  | nil => exact absurd rfl hcs
  | cons c cs ih =>
    obtain ⟨_, htakes, hnext⟩ := hpasses
    have hstage := next_stage printk h hbuffer hfilled hi c htakes
    rw [List.length_cons] at hcnt
    rw [pipeLoop]
    cases cs with
    | nil =>
      rw [if_pos (by rw [List.length_nil] at hcnt; omega)] at hstage
      obtain ⟨m', hrun, hwithin⟩ := hstage
      exact ⟨m', by rw [hrun]; rfl, hwithin⟩
    | cons d ds =>
      have hpasses := hnext (List.cons_ne_nil d ds)
      rw [if_neg (by rw [List.length_cons] at hcnt; omega)] at hstage
      obtain ⟨m₁, hrun, hfilled₁, hwithin₁⟩ := hstage (passes_room hpasses)
      obtain ⟨m', hloop, hwithin⟩ := ih (s := {s with mem := m₁}) ⟨h.sound, h.short, h.pfd, h.reading, h.writing⟩ hfilled₁
        (List.cons_ne_nil d ds) (i := i + 1) (by omega) (by omega) hpasses
      refine ⟨m', ?_, hwithin₁.trans hwithin⟩
      rw [hrun]
      exact hloop

/-- A line with two commands or more prints their composition. It takes two descriptors. -/
theorem execLine_ok (h : Sound s.task) (hs : s.task.Short) (hroom : s.task.fdCnt + 2 < 25) (hbuffer : initialMem ≤ l.pipeBuff.toNat)
    (hempty : Filled s.mem l.pipeBuff.toNat []) (hcnt : 2 ≤ l.commands.length) (hpasses : l.Passes) :
    ∃ s', execLine printk l s = .ok s' ∧ s'.screen = s.screen ++ l.output ∧ s'.task.fdCnt = s.task.fdCnt + 2 ∧
      (Sound s'.task ∧ s'.task.Short) ∧ Within s.mem s'.mem l.pipeBuff.toNat 4096 := by
  unfold execLine
  unfold Line.Passes at hpasses
  unfold Line.output
  generalize hcs : l.commands = cs at hcnt hpasses ⊢
  cases cs with
  | nil => cases hcnt
  | cons c cs =>
    obtain ⟨hzero, hrest⟩ := hpasses
    obtain ⟨s₁, r, w, hfirst, hpipe, hfilled, hwithin, hscreen, hfds⟩ := first_stage printk h hs hroom hbuffer hempty
      c hzero (passes_room hrest)
    have hne : cs ≠ [] := fun he => by
      rw [he, List.length_singleton] at hcnt
      omega
    obtain ⟨m', hloop, hwithin'⟩ := pipeLoop_ok printk hpipe hbuffer hfilled hne (i := 1) (by decide)
      (by rw [hcs, List.length_cons, Nat.add_comm]) hrest
    refine ⟨{s₁ with mem := m', screen := s₁.screen ++ compose cs (c.output (l.typed.take maxLength)) }, ?_, ?_, hfds,
      ⟨hpipe.sound, hpipe.short⟩, hwithin.trans hwithin'⟩
    · rw [pipeLoop, hfirst]
      exact hloop
    · rw [hscreen]

/-! ### A session -/

/-- The lines are pipelines whose commands can take what they find, and each has a page of its own
with nothing in it. -/
structure Prepared (m : Store) (ls : List Line) : Prop where
  pages : ∀ l ∈ ls, initialMem ≤ l.pipeBuff.toNat ∧ Filled m l.pipeBuff.toNat []
  passes : ∀ l ∈ ls, 2 ≤ l.commands.length ∧ l.Passes
  apart : ls.Pairwise fun l l' => l.pipeBuff.toNat + 4096 ≤ l'.pipeBuff.toNat ∨ l'.pipeBuff.toNat + 4096 ≤ l.pipeBuff.toNat

/-- Without room in the table the first command makes the line fail. -/
theorem execLine_full (hroom : 25 ≤ s.task.fdCnt + 2) (hbuffer : initialMem ≤ l.pipeBuff.toNat)
    (hcnt : 2 ≤ l.commands.length) : execLine printk l s = .error .bounds := by
  have hnull : l.pipeBuff ≠ 0 := fun hc => by
    rw [hc] at hbuffer
    exact absurd hbuffer (by decide)
  unfold execLine
  cases hcs : l.commands with
  | nil =>
    rw [hcs] at hcnt
    cases hcnt
  | cons c cs =>
    rw [pipeLoop, executePipeCmd, openPipe, if_pos rfl, (sysPipe_bounds _).mpr ⟨hnull, hroom⟩]
    rfl

/-- A session of pipelines prints what each of them is to print, in order, as long as there are two
descriptors for every line. The line after that runs past the table. -/
theorem pipelines_compose (s : Shell) (ls : List Line) (h : Sound s.task) (hs : s.task.Short)
    (hls : Prepared s.mem ls) :
    if s.task.fdCnt + 2 * ls.length < 25 then ∃ s', execLines printk ls s = .ok s' ∧
      s'.screen = s.screen ++ (ls.map Line.output).flatten ∧ s'.task.fdCnt = s.task.fdCnt + 2 * ls.length
    else execLines printk ls s = .error .bounds := by
  induction ls generalizing s with
  | nil =>
    rw [if_pos (by simpa using h.high)]
    exact ⟨s, rfl, by simp, by simp⟩
  | cons l ls ih =>
    obtain ⟨hbuffer, hempty⟩ := hls.pages l (List.mem_cons_self ..)
    obtain ⟨hcnt, hpasses⟩ := hls.passes l (List.mem_cons_self ..)
    obtain ⟨hapart, hrest⟩ := List.pairwise_cons.mp hls.apart
    rw [execLines, List.length_cons]
    by_cases hroom : s.task.fdCnt + 2 < 25
    · obtain ⟨s₁, hline, hscreen, hfds, ⟨hsound, hshort⟩, hwithin⟩ := execLine_ok printk h hs hroom hbuffer hempty hcnt hpasses
      -- the page of this line is not that of any line to come
      have hnext : Prepared s₁.mem ls := by
        refine ⟨fun l' hl' => ?_, fun l' hl' => hls.passes l' (List.mem_cons_of_mem l hl'), hrest⟩
        obtain ⟨hbuffer', hempty'⟩ := hls.pages l' (List.mem_cons_of_mem l hl')
        exact ⟨hbuffer', hempty'.within hwithin (hapart l' hl').symm⟩
      have hsession := ih s₁ hsound hshort hnext
      have hcount : s.task.fdCnt + 2 * (ls.length + 1) = s₁.task.fdCnt + 2 * ls.length := by omega
      rw [hline, hcount]
      split
      · rename_i hlt
        rw [if_pos hlt] at hsession
        obtain ⟨s', hrun, hout, hfds'⟩ := hsession
        refine ⟨s', hrun, ?_, hfds'⟩
        rw [hout, hscreen, List.map_cons, List.flatten_cons, List.append_assoc]
      · rename_i hlt
        rw [if_neg hlt] at hsession
        exact hsession
    · rw [if_neg (by omega), execLine_full printk (by omega) hbuffer hcnt]
      rfl

end

/-- `ls | scan_pipe`, with one name in the listing. -/
def lsPiped : Line where
  typed := []
  pipeBuff := 0xffffffff80400000
  commands := [⟨false, fun _ => [[0x62, 0x69, 0x6e], [0x0a]]⟩, ⟨true, fun input => [[0x3e], input]⟩]

def freshShell : Shell := ⟨Task.create, fun _ => 0, (0, 0), []⟩

theorem pipelines_compose_ls :
    if freshShell.task.fdCnt + 2 * [lsPiped].length < 25 then ∃ s', execLines (fun _ => 0) [lsPiped] freshShell = .ok s' ∧
      s'.screen = freshShell.screen ++ ([lsPiped].map Line.output).flatten ∧
      s'.task.fdCnt = freshShell.task.fdCnt + 2 * [lsPiped].length
    else execLines (fun _ => 0) [lsPiped] freshShell = .error .bounds :=
  pipelines_compose (fun _ => 0) freshShell [lsPiped] create_sound create_short
    { pages := fun l hl => by
        obtain rfl := List.mem_singleton.mp hl
        exact ⟨by decide, holds_nil _ _, List.not_mem_nil, fun _ _ _ => rfl, by decide⟩
      passes := fun l hl => by
        obtain rfl := List.mem_singleton.mp hl
        exact ⟨by decide, by decide, by decide, ⟨by decide, by decide⟩, fun hne => absurd rfl hne⟩
      apart := List.pairwise_singleton .. }

/-- It prints the name behind the sign of the second command. -/
example : lsPiped.output = [0x3e, 0x62, 0x69, 0x6e, 0x0a] := by decide

end Sbnix.Files
