import Sbnix.Files.Tar

/-! Descriptors (`sys/tarfs.c`, `sys/iostream.c`, `sys/pipe.c`, `sys/fork.c`).

A task has a table `fd` of 25 slots, a table `dup_arr` of the same size that says
where a descriptor is redirected to, and `fd_cnt`, the last slot handed out. None of
the calls looks at the size of the tables: a call that goes past the end is a fault
here (`Fault.bounds`). The kernel is killed for using an address below `INITIAL_MEM`
(`page_fault`).

`path` has 32 bytes, and the names in the index have up to 99. `strcpy` stores the rest of a
name over the fields behind `path`, and over the next slot or `dup_arr` (`Task.setPath`); a
string that fills `path` goes on in what is behind it (`Task.path`).

Sizes are below `2 ^ 31`, as the counters of the loops are `int`. A buffer of the
caller does not overlap the kernel's memory. -/
namespace Sbnix.Files
open Library Library.Store

/-- `struct File`, of 72 bytes. `path` has what there is before its first zero, or 32 bytes
without one. The compiler leaves four bytes behind `flags`. -/
structure File where
  path : List Byte
  offset : BitVec 64
  offsetRead : BitVec 64
  fileSize : BitVec 64
  flags : BitVec 32
  pad : BitVec 32
  seek : BitVec 64
  deriving DecidableEq, Repr

def File.zero : File := ⟨[], 0, 0, 0, 0, 0, 0⟩

/-- Of `struct task_struct`, the descriptors. -/
structure Task where
  fd : Fin 25 → File
  dupArr : Fin 25 → Nat
  fdCnt : Nat

inductive Fault where
  /-- An index outside of `fd` or `dup_arr`. -/
  | bounds
  /-- A name that `path` has no room for, where such names are not followed. -/
  | path
  /-- An address below `INITIAL_MEM`: `page_fault` ends the process. -/
  | killed
  deriving DecidableEq, Repr

/-- `fd[i]`, `dup_arr[i]` -/
def slotOf (i : Int) : Except Fault (Fin 25) :=
  if h : 0 ≤ i ∧ i < 25 then .ok ⟨i.toNat, by omega⟩ else .error .bounds

def initialMem : Nat := 100000

/-- `*p` -/
def deref (p : BitVec 64) : Except Fault Nat :=
  if p.toNat < initialMem then .error .killed else .ok p.toNat

/-! ### `path` and what is behind it -/

/-- A field of `n` bytes, after `bytes` have been stored from its start on; there may be fewer of
them, or more. -/
def overwrite (n : Nat) : List Byte → Nat → Nat
  | [], v => v
  | b :: bytes, v => ofLE ((b :: bytes).take n ++ (toLE n v).drop (bytes.length + 1))

/-- A slot, after `bytes` have been stored from its start on. The last of them is the zero of a
string. -/
def File.overlay (f : File) (bytes : List Byte) : File where
  path := if bytes = [] then f.path else if bytes.length ≤ 32 then bytes.dropLast else bytes.take 32
  offset := .ofNat 64 (overwrite 8 (bytes.drop 32) f.offset.toNat)
  offsetRead := .ofNat 64 (overwrite 8 (bytes.drop 40) f.offsetRead.toNat)
  fileSize := .ofNat 64 (overwrite 8 (bytes.drop 48) f.fileSize.toNat)
  flags := .ofNat 32 (overwrite 4 (bytes.drop 56) f.flags.toNat)
  pad := .ofNat 32 (overwrite 4 (bytes.drop 60) f.pad.toNat)
  seek := .ofNat 64 (overwrite 8 (bytes.drop 64) f.seek.toNat)

/-- The bytes of a slot behind `path`. -/
def File.fields (f : File) : List Byte :=
  toLE 8 f.offset.toNat ++ toLE 8 f.offsetRead.toNat ++ toLE 8 f.fileSize.toNat ++ toLE 4 f.flags.toNat ++
    toLE 4 f.pad.toNat ++ toLE 8 f.seek.toNat

/-- The string at the start of slots that lie one behind the other, and `rest` behind them. -/
def stringAt (rest : List Byte) : List File → List Byte
  | [] => rest.takeWhile (· ≠ 0)
  | f :: fs =>
    if f.path.length < 32 then f.path
    else if 0 ∈ f.fields then f.path ++ f.fields.takeWhile (· ≠ 0)
    else f.path ++ f.fields ++ stringAt rest fs

namespace Task

/-- The string at `process->fd[i].path`. -/
def path (t : Task) (i : Fin 25) : List Byte :=
  stringAt ((List.finRange 25).flatMap fun j => toLE 8 (t.dupArr j)) (((List.finRange 25).drop i).map t.fd)

/-- `strcpy(process->fd[i].path, s)` -/
def setPath (t : Task) (i : Fin 25) (s : List Byte) : Task where
  fd := fun j => if i ≤ j then (t.fd j).overlay ((s ++ [0]).drop (72 * (j - i))) else t.fd j
  dupArr := fun j => overwrite 8 ((s ++ [0]).drop (72 * (25 - i) + 8 * j)) (t.dupArr j)
  fdCnt := t.fdCnt

/-- The descriptors of a process that `create_process` made. -/
def create : Task := ⟨fun _ => .zero, fun i => i, 2⟩

def setFd (t : Task) (i : Fin 25) (f : File) : Task := {t with fd := Function.update t.fd i f}

theorem setFd_same (t : Task) (i : Fin 25) (f : File) : (t.setFd i f).fd i = f := Function.update_self ..

theorem setFd_other (t : Task) {i j : Fin 25} (f : File) (h : j ≠ i) : (t.setFd i f).fd j = t.fd j :=
  Function.update_of_ne h ..

theorem setFd_setFd (t : Task) (i : Fin 25) (f g : File) : (t.setFd i f).setFd i g = t.setFd i g := by
  simp only [setFd, Function.update_idem]

end Task

theorem File.overlay_nil (f : File) : f.overlay [] = f := by
  simp only [File.overlay, if_true, List.drop_nil, overwrite, BitVec.ofNat_toNat, BitVec.setWidth_eq]

/-- A string that fits into `path` changes nothing else. -/
theorem File.overlay_path (f : File) {s : List Byte} (h : s.length < 32) : f.overlay (s ++ [0]) = {f with path := s} := by
  have hlen : (s ++ [0]).length = s.length + 1 := List.length_append
  have hdrop : ∀ n, 32 ≤ n → (s ++ [0]).drop n = [] := fun n hn => List.drop_eq_nil_of_le (by omega)
  unfold File.overlay
  rw [if_neg (by simp), if_pos (by omega), List.dropLast_concat, hdrop 32 (by decide), hdrop 40 (by decide),
    hdrop 48 (by decide), hdrop 56 (by decide), hdrop 60 (by decide), hdrop 64 (by decide)]
  simp only [overwrite, BitVec.ofNat_toNat, BitVec.setWidth_eq]

/-- Up to 32 bytes reach no field behind `path`. -/
theorem File.overlay_low (f : File) {bytes : List Byte} (h : bytes.length ≤ 32) :
    f.overlay bytes = {f with path := (f.overlay bytes).path} := by
  have hdrop : ∀ n, 32 ≤ n → bytes.drop n = [] := fun n hn => List.drop_eq_nil_of_le (by omega)
  simp only [File.overlay, hdrop 32 (by decide), hdrop 40 (by decide), hdrop 48 (by decide), hdrop 56 (by decide),
    hdrop 60 (by decide), hdrop 64 (by decide), overwrite, BitVec.ofNat_toNat, BitVec.setWidth_eq]

theorem File.overlay_length (f : File) (bytes : List Byte) (h : f.path.length ≤ 32) :
    (f.overlay bytes).path.length ≤ 32 := by
  unfold File.overlay
  dsimp only
  split
  · exact h
  · split
    · rw [List.length_dropLast]
      omega
    · rw [List.length_take]
      omega

namespace Task
variable (t : Task) {i j : Fin 25} {s : List Byte}

/-- A string that fits into a slot stays there. -/
theorem setPath_slot (h : s.length < 72) : t.setPath i s = t.setFd i ((t.fd i).overlay (s ++ [0])) := by
  have hlen : (s ++ [0]).length = s.length + 1 := List.length_append
  have hfd : ∀ j, (t.setPath i s).fd j = (t.setFd i ((t.fd i).overlay (s ++ [0]))).fd j := by
    intro j
    show (if i ≤ j then (t.fd j).overlay ((s ++ [0]).drop (72 * (j - i))) else t.fd j) = _
    by_cases he : j = i
    · subst he
      rw [if_pos (Fin.le_refl _), Nat.sub_self, Nat.mul_zero, List.drop_zero, t.setFd_same]
    · rw [t.setFd_other _ he]
      split
      · rename_i hle
        have hlt : i.val < j.val := Nat.lt_of_le_of_ne hle fun hc => he (Fin.ext hc.symm)
        rw [List.drop_eq_nil_of_le (by omega), File.overlay_nil]
      · rfl
  have hdup : ∀ j, (t.setPath i s).dupArr j = t.dupArr j := by
    intro j
    show overwrite 8 ((s ++ [0]).drop (72 * (25 - i) + 8 * j)) (t.dupArr j) = _
    have hi := i.isLt
    rw [List.drop_eq_nil_of_le (by omega), overwrite]
  exact congrArg₂ (fun a b => Task.mk a b t.fdCnt) (funext hfd) (funext hdup)

theorem path_short (h : (t.fd i).path.length < 32) : t.path i = (t.fd i).path := by
  have hi : i.val < (List.finRange 25).length := by rw [List.length_finRange]; exact i.isLt
  rw [path, List.drop_eq_getElem_cons hi, List.getElem_finRange]
  exact if_pos h

/-- A string that fills `path` ends in the fields behind it, if these have a zero. -/
theorem path_long (h : ¬ (t.fd i).path.length < 32) (hzero : 0 ∈ (t.fd i).fields) :
    t.path i = (t.fd i).path ++ (t.fd i).fields.takeWhile (· ≠ 0) := by
  have hi : i.val < (List.finRange 25).length := by rw [List.length_finRange]; exact i.isLt
  rw [path, List.drop_eq_getElem_cons hi, List.getElem_finRange]
  exact (if_neg h).trans (if_pos hzero)

end Task

/-! ### `sys_open` and `sys_close` -/

/-- Change the first element that satisfies `p`. -/
def modifyFirst {α : Type*} (p : α → Bool) (f : α → α) : List α → List α
  | [] => []
  | x :: xs => if p x then f x :: xs else x :: modifyFirst p f xs

/-- A byte of the field `name`. -/
def Entry.nameAt (e : Entry) (i : Nat) : Byte := e.name.getD i 0

/-- The test of `sys_open`: the characters of `file_name`, and then the end, or a slash
and the end. -/
def Entry.opens (fileName : List Byte) (e : Entry) : Bool :=
  fileName.isPrefixOf e.name && (e.nameAt fileName.length == 0x2f && e.nameAt (fileName.length + 1) == 0 ||
    e.nameAt fileName.length == 0)

/-- `bin_start_addr` and `file_size`, as they are stored in a slot. -/
def Entry.addr (e : Entry) : BitVec 64 := BitVec.ofNat 64 e.binStartAddr
def Entry.size (e : Entry) : BitVec 64 := BitVec.ofInt 64 e.fileSize

/-- `ref_cnt++` -/
def Entry.retain (e : Entry) : Entry := {e with refCnt := e.refCnt + 1}

/-- `ref_cnt--` -/
def Entry.release (e : Entry) : Entry := {e with refCnt := e.refCnt - 1}

structure Opened where
  ret : Int
  index : List Entry
  task : Task

/-- The slot is filled. The name comes after the fields that it may run into, but before `seek`. -/
def Task.fill (process : Task) (i : Fin 25) (e : Entry) (flags : Int) : Task :=
  let process := process.setFd i {process.fd i with
    offset := e.addr
    offsetRead := e.addr
    fileSize := e.size
    flags := .ofInt 32 flags }
  let process := process.setPath i e.name
  process.setFd i {process.fd i with seek := 0}

def sysOpen (index : List Entry) (process : Task) (fileName : List Byte) (flags : Int) : Except Fault Opened :=
  match index.find? (·.opens fileName) with
  | none => .ok ⟨0, index, process⟩
  | some e => do
    let i ← slotOf (process.fdCnt + 1)
    .ok ⟨process.fdCnt + 1, modifyFirst (·.opens fileName) Entry.retain index,
      {process.fill i e flags with fdCnt := process.fdCnt + 1}⟩

/-- The test of `sys_close`. -/
def Entry.startsAt (offset : BitVec 64) (e : Entry) : Bool := e.addr == offset

def sysClose (index : List Entry) (process : Task) (filedes : Int) : Except Fault Opened := do
  let i ← slotOf filedes
  let f := process.fd i
  match index.find? (·.startsAt f.offset) with
  | none => .ok ⟨0, index, process⟩
  | some _ =>
    .ok ⟨1, modifyFirst (·.startsAt f.offset) Entry.release index,
      process.setFd i {f with offset := 0, path := [0x20], flags := 0}⟩

/-! ### `sys_pipe` and `sys_dup2` -/

/-- "pipe_buffer" -/
def pipeName : List Byte := [0x70, 0x69, 0x70, 0x65, 0x5f, 0x62, 0x75, 0x66, 0x66, 0x65, 0x72]

structure Piped where
  ret : Int
  ends : List Int
  task : Task

/-- `pipeBuff` is what `kmalloc(4096)` returns. -/
def sysPipe (process : Task) (pipeBuff : BitVec 64) : Except Fault Piped :=
  if pipeBuff = 0 then .ok ⟨1, [], process⟩
  else do
    let i1 ← slotOf (process.fdCnt + 1)
    let process1 := process.setFd i1 {process.fd i1 with offset := pipeBuff, path := pipeName}
    let i2 ← slotOf (process.fdCnt + 2)
    let process2 := process1.setFd i2 {process1.fd i2 with offset := pipeBuff, path := pipeName}
    .ok ⟨0, [process.fdCnt + 1, process.fdCnt + 2], {process2 with fdCnt := process.fdCnt + 2}⟩

def sysDup2 (process : Task) (oldFd newFd : Int) : Except Fault (Int × Task) :=
  if oldFd > process.fdCnt ∨ oldFd < 0 then .ok (-1, process)
  else if newFd > process.fdCnt ∨ newFd < 0 then .ok (-1, process)
  else do
    let i ← slotOf oldFd
    .ok (newFd, {process with dupArr := Function.update process.dupArr i newFd.toNat})

/-! ### `sys_fork` and `sys_execve` -/

/-- One turn of the loop: two of the fields are copied. -/
def copySlot (parent child : Task) (i : Fin 25) : Task :=
  let child := child.setFd i {child.fd i with offset := (parent.fd i).offset}
  child.setPath i (parent.path i)

/-- The loop over the slots up to `fd_cnt`, in a new task that is zero, and then `dup_arr`. -/
def copyFds (parent : Task) (dupArr : Fin 25 → Nat) : Except Fault Task :=
  if parent.fdCnt < 25 then
    let child := ((List.finRange 25).filter (·.val ≤ parent.fdCnt)).foldl (copySlot parent)
      ⟨fun _ => .zero, fun _ => 0, parent.fdCnt⟩
    .ok {child with dupArr := dupArr}
  else .error .bounds

/-- The descriptors of the child. -/
def sysFork (pproc : Task) : Except Fault Task := copyFds pproc fun i => i

/-- The descriptors of the task that replaces the caller. -/
def sysExecve (execParent : Task) : Except Fault Task := copyFds execParent execParent.dupArr

/-! ### `sys_read`, `sys_write` and `sys_lseek` -/

/-- Where the next byte of a file is read. -/
def File.src (f : File) : BitVec 64 := if f.seek = 0 then f.offsetRead else f.seek

/-- The test for the end of the file. -/
def File.Unread (f : File) : Prop := f.offsetRead < f.offset + f.fileSize

instance (f : File) : Decidable f.Unread := inferInstanceAs (Decidable (_ < _))

structure Transfer where
  ret : Int
  /-- What is stored into the caller's buffer, or given to `printk`. -/
  bytes : List Byte
  /-- The buffer of the pipe, if the descriptor is redirected. -/
  buffer : Option Nat
  task : Task
  mem : Store

/-- `line` is what `scank` gets from the keyboard. -/
def sysRead (line : List Byte) (mem : Store) (process : Task) (fildes size : Nat) : Except Fault Transfer :=
  if size > 0 then do
    let i ← slotOf fildes
    if process.dupArr i ≠ fildes then
      let j ← slotOf (process.dupArr i)
      let pipeTempBuf ← deref (process.fd j).offset
      let len := strlen mem pipeTempBuf
      .ok ⟨len, cString mem pipeTempBuf ++ [0], some pipeTempBuf, process, memset mem pipeTempBuf 0 len⟩
    else if fildes = 0 then
      let len := min line.length size
      .ok ⟨len, line.take len ++ [0], none, process, mem⟩
    else if fildes > 2 then
      let f := process.fd i
      if f.Unread then do
        let src ← deref f.src
        .ok ⟨size, fetch mem src size ++ [0], none, process.setFd i {f with offsetRead := f.offsetRead + BitVec.ofNat 64 size}, mem⟩
      else .ok ⟨0, [], none, process, mem⟩
    else .ok ⟨0, [], none, process, mem⟩
  else .ok ⟨0, [], none, process, mem⟩

/-- `data` is the caller's buffer, `size` bytes of it. `strncpy` stops at a zero, and
`printk` takes the text for a format. -/
def sysWrite (printk : List Byte → Int) (mem : Store) (process : Task) (fildes : Nat) (data : List Byte) :
    Except Fault Transfer := do
  let i ← slotOf fildes
  if process.dupArr i ≠ fildes then
    let j ← slotOf (process.dupArr i)
    let pipeTempBuf ← deref (process.fd j).offset
    let len := strlen mem pipeTempBuf
    .ok ⟨data.length, data, some pipeTempBuf, process, put mem (pipeTempBuf + len) data⟩
  else if fildes = 1 ∨ fildes = 2 then
    let temBuf := data.takeWhile (· ≠ 0)
    .ok ⟨printk temBuf, temBuf, none, process, mem⟩
  else .ok ⟨0, [], none, process, mem⟩

inductive Whence where
  | set
  | cur
  | end
  deriving DecidableEq, Repr

/-- The new position, which is also returned. -/
def sysLseek (index : List Entry) (proc : Task) (fildes : Int) (offset : BitVec 64) (whence : Whence) :
    Except Fault (Int × Task) := do
  let i ← slotOf fildes
  let f := proc.fd i
  let seek : BitVec 64 ← match whence with
    | .set => .ok offset
    | .cur => .ok (f.seek + offset)
    | .end =>
      match index.find? (·.name == proc.path i) with
      | some e => .ok (e.size + offset)
      -- the loop runs out of the index
      | none => .error .bounds
  .ok (seek.toInt, proc.setFd i {f with seek := seek})

/-! ### What the calls can do -/

theorem bind_ok {ε α β : Type} {x : Except ε α} {f : α → Except ε β} {b : β} :
    x >>= f = .ok b ↔ ∃ a, x = .ok a ∧ f a = .ok b := by
  cases x with
  | error e => exact ⟨fun h => (nomatch h), fun ⟨_, h, _⟩ => (nomatch h)⟩
  | ok a => exact ⟨fun h => ⟨a, rfl, h⟩, fun ⟨_, h, hf⟩ => Except.ok.inj h ▸ hf⟩

theorem slotOf_ok {n : Int} {i : Fin 25} : slotOf n = .ok i ↔ (i.val : Int) = n := by
  unfold slotOf
  split
  · rename_i h
    constructor
    · intro he
      have hval := congrArg Fin.val (Except.ok.inj he)
      simp only at hval
      omega
    · intro he
      congr 1
      apply Fin.ext
      simp only
      omega
  · rename_i h
    constructor
    · intro he
      cases he
    · intro he
      omega

/-- The slot `f` once it is on an entry, if the name fits into `path`. -/
def Entry.opened (e : Entry) (f : File) (flags : Int) : File :=
  ⟨e.name, e.addr, e.addr, e.size, .ofInt 32 flags, f.pad, 0⟩

/-- And whatever the name. -/
def Entry.filled (e : Entry) (f : File) (flags : Int) : File :=
  {({f with offset := e.addr, offsetRead := e.addr, fileSize := e.size, flags := .ofInt 32 flags} : File).overlay
    (e.name ++ [0]) with seek := 0}

theorem Entry.filled_short {e : Entry} (h : e.name.length < 32) (f : File) (flags : Int) :
    e.filled f flags = e.opened f flags := by
  rw [filled, File.overlay_path _ h]
  rfl

section
variable (t : Task) {e : Entry} {i : Fin 25} (flags : Int)

theorem Task.fill_same : (t.fill i e flags).fd i = e.filled (t.fd i) flags := by
  have hat : ∀ (u : Task) (s : List Byte), (u.setPath i s).fd i = (u.fd i).overlay (s ++ [0]) := by
    intro u s
    show (if i ≤ i then _ else _) = _
    rw [if_pos (Fin.le_refl _), Nat.sub_self, Nat.mul_zero, List.drop_zero]
  unfold fill
  dsimp only
  rw [Task.setFd_same, hat, Task.setFd_same]
  rfl

/-- The other slots, of which the next may get the end of a name. -/
theorem Task.fill_other {j : Fin 25} (h : j ≠ i) :
    (t.fill i e flags).fd j =
      if i ≤ j then (t.fd j).overlay ((e.name ++ [0]).drop (72 * (j - i))) else t.fd j := by
  unfold fill
  dsimp only
  rw [Task.setFd_other _ _ h]
  show (if i ≤ j then _ else _) = _
  rw [Task.setFd_other _ _ h]

theorem Task.fill_short (h : e.name.length < 32) : t.fill i e flags = t.setFd i (e.opened (t.fd i) flags) := by
  unfold fill
  dsimp only
  rw [Task.setPath_slot _ (by omega), Task.setFd_same, Task.setFd_same, Task.setFd_setFd, Task.setFd_setFd,
    File.overlay_path _ h]
  rfl

end

section
variable {index : List Entry} {t : Task}

theorem sysOpen_cases {fileName : List Byte} {flags : Int} {o : Opened} (h : sysOpen index t fileName flags = .ok o) :
    (index.find? (·.opens fileName) = none ∧ o = ⟨0, index, t⟩) ∨
      ∃ e i, index.find? (·.opens fileName) = some e ∧ i.val = t.fdCnt + 1 ∧
        o = ⟨t.fdCnt + 1, modifyFirst (·.opens fileName) Entry.retain index,
          {t.fill i e flags with fdCnt := t.fdCnt + 1}⟩ := by
  unfold sysOpen at h
  cases hfind : index.find? (·.opens fileName) with
  | none =>
    rw [hfind] at h
    exact Or.inl ⟨rfl, (Except.ok.inj h).symm⟩
  | some e =>
    rw [hfind] at h
    obtain ⟨i, hi, h⟩ := bind_ok.mp h
    have hslot := slotOf_ok.mp hi
    exact Or.inr ⟨e, i, rfl, by omega, (Except.ok.inj h).symm⟩

theorem sysClose_cases {filedes : Int} {o : Opened} (h : sysClose index t filedes = .ok o) :
    ∃ i : Fin 25, (i.val : Int) = filedes ∧
      ((index.find? (·.startsAt (t.fd i).offset) = none ∧ o = ⟨0, index, t⟩) ∨
        ∃ e, index.find? (·.startsAt (t.fd i).offset) = some e ∧
          o = ⟨1, modifyFirst (·.startsAt (t.fd i).offset) Entry.release index,
            t.setFd i {t.fd i with offset := 0, path := [0x20], flags := 0}⟩) := by
  unfold sysClose at h
  obtain ⟨i, hi, h⟩ := bind_ok.mp h
  refine ⟨i, slotOf_ok.mp hi, ?_⟩
  dsimp only at h
  cases hfind : index.find? (·.startsAt (t.fd i).offset) with
  | none =>
    rw [hfind] at h
    exact Or.inl ⟨rfl, (Except.ok.inj h).symm⟩
  | some e =>
    rw [hfind] at h
    exact Or.inr ⟨e, rfl, (Except.ok.inj h).symm⟩

/-- A slot that is an end of a pipe. -/
def File.pipeEnd (f : File) (pipeBuff : BitVec 64) : File := {f with offset := pipeBuff, path := pipeName}

theorem sysPipe_cases {pipeBuff : BitVec 64} {o : Piped} (h : sysPipe t pipeBuff = .ok o) :
    (pipeBuff = 0 ∧ o = ⟨1, [], t⟩) ∨
      ∃ i j : Fin 25, pipeBuff ≠ 0 ∧ i.val = t.fdCnt + 1 ∧ j.val = t.fdCnt + 2 ∧
        o = ⟨0, [t.fdCnt + 1, t.fdCnt + 2],
          {(t.setFd i ((t.fd i).pipeEnd pipeBuff)).setFd j ((t.fd j).pipeEnd pipeBuff) with fdCnt := t.fdCnt + 2}⟩ := by
  unfold sysPipe at h
  split at h
  · rename_i hbuff
    exact Or.inl ⟨hbuff, (Except.ok.inj h).symm⟩
  · rename_i hbuff
    obtain ⟨i, hi, h⟩ := bind_ok.mp h
    obtain ⟨j, hj, h⟩ := bind_ok.mp h
    have hi := slotOf_ok.mp hi
    have hj := slotOf_ok.mp hj
    have hne : j ≠ i := fun he => by
      rw [he] at hj
      omega
    refine Or.inr ⟨i, j, hbuff, by omega, by omega, (Except.ok.inj h).symm.trans ?_⟩
    rw [← t.setFd_other ((t.fd i).pipeEnd pipeBuff) hne]
    rfl

theorem sysDup2_cases {oldFd newFd : Int} {o : Int × Task} (h : sysDup2 t oldFd newFd = .ok o) :
    o = (-1, t) ∨ ∃ i : Fin 25, i.val ≤ t.fdCnt ∧ newFd.toNat ≤ t.fdCnt ∧
      o = (newFd, {t with dupArr := Function.update t.dupArr i newFd.toNat}) := by
  unfold sysDup2 at h
  split at h
  · exact Or.inl (Except.ok.inj h).symm
  · split at h
    · exact Or.inl (Except.ok.inj h).symm
    · obtain ⟨i, hi, h⟩ := bind_ok.mp h
      have hi := slotOf_ok.mp hi
      exact Or.inr ⟨i, by omega, by omega, (Except.ok.inj h).symm⟩

/-- Reading changes a task at most in how far it has read. -/
theorem sysRead_task {line : List Byte} {mem : Store} {fildes size : Nat} {o : Transfer}
    (h : sysRead line mem t fildes size = .ok o) :
    o.task = t ∨ ∃ i : Fin 25, 2 < i.val ∧ o.task = t.setFd i {t.fd i with offsetRead := (t.fd i).offsetRead + BitVec.ofNat 64 size} ∧
      (t.fd i).Unread := by
  unfold sysRead at h
  split at h
  · obtain ⟨i, hi, h⟩ := bind_ok.mp h
    have hslot := slotOf_ok.mp hi
    split at h
    · obtain ⟨_, _, h⟩ := bind_ok.mp h
      obtain ⟨_, _, h⟩ := bind_ok.mp h
      rw [← Except.ok.inj h]
      exact Or.inl rfl
    · split at h
      · rw [← Except.ok.inj h]
        exact Or.inl rfl
      · split at h
        · dsimp only at h
          split at h
          · rename_i hmore
            obtain ⟨_, _, h⟩ := bind_ok.mp h
            rw [← Except.ok.inj h]
            exact Or.inr ⟨i, by omega, rfl, hmore⟩
          · rw [← Except.ok.inj h]
            exact Or.inl rfl
        · rw [← Except.ok.inj h]
          exact Or.inl rfl
  · rw [← Except.ok.inj h]
    exact Or.inl rfl

/-- The slot of a new task. -/
def Task.copied (t : Task) (i : Fin 25) : File :=
  ({File.zero with offset := (t.fd i).offset} : File).overlay (t.path i ++ [0])

theorem foldl_copySlot (slots : List (Fin 25)) (hslots : slots.Nodup) (h : ∀ i ∈ slots, (t.path i).length < 72)
    (child : Task) (j : Fin 25) :
    (slots.foldl (copySlot t) child).fd j =
      if j ∈ slots then ({child.fd j with offset := (t.fd j).offset} : File).overlay (t.path j ++ [0]) else child.fd j := by
  induction slots generalizing child with
  | nil => rfl
  | cons i rest ih =>
    obtain ⟨hi, hrest⟩ := List.nodup_cons.mp hslots
    have hone : copySlot t child i =
        child.setFd i (({child.fd i with offset := (t.fd i).offset} : File).overlay (t.path i ++ [0])) := by
      unfold copySlot
      dsimp only
      rw [Task.setPath_slot _ (h i (List.mem_cons_self ..)), Task.setFd_same, Task.setFd_setFd]
    rw [List.foldl_cons, ih hrest (fun k hk => h k (List.mem_cons_of_mem i hk)), hone]
    by_cases hji : j = i
    · subst hji
      rw [if_neg hi, Task.setFd_same, if_pos (List.mem_cons_self ..)]
    · simp only [Task.setFd_other _ _ hji, List.mem_cons, hji, false_or]

theorem copyFds_shape {dupArr : Fin 25 → Nat} {c : Task} (h : copyFds t dupArr = .ok c) :
    t.fdCnt < 25 ∧ c.fdCnt = t.fdCnt ∧ c.dupArr = dupArr := by
  have hcnt : ∀ (slots : List (Fin 25)) (child : Task), (slots.foldl (copySlot t) child).fdCnt = child.fdCnt := by
    intro slots
    induction slots with
    | nil => exact fun _ => rfl
    | cons i rest ih => exact fun child => ih (copySlot t child i)
  unfold copyFds at h
  split at h
  · rename_i hlt
    obtain rfl := Except.ok.inj h
    exact ⟨hlt, hcnt _ _, rfl⟩
  · cases h

/-- The slots up to `fd_cnt` are copied, if their strings end inside them. -/
theorem copyFds_copied {dupArr : Fin 25 → Nat} {c : Task} (hin : ∀ i, (t.path i).length < 72)
    (h : copyFds t dupArr = .ok c) (i : Fin 25) : c.fd i = if i.val ≤ t.fdCnt then t.copied i else .zero := by
  unfold copyFds at h
  split at h
  · obtain rfl := Except.ok.inj h
    dsimp only
    rw [foldl_copySlot _ ((List.nodup_finRange 25).filter _) (fun i _ => hin i)]
    simp only [List.mem_filter, List.mem_finRange, true_and, decide_eq_true_eq]
    rfl
  · cases h

/-- Every string in `path` ends there. -/
def Task.Short (t : Task) : Prop := ∀ i, (t.fd i).path.length < 32

theorem Task.Short.copied (h : t.Short) (i : Fin 25) :
    t.copied i = {File.zero with offset := (t.fd i).offset, path := (t.fd i).path} := by
  rw [Task.copied, t.path_short (h i), File.overlay_path _ (h i)]

theorem Task.Short.within (h : t.Short) (i : Fin 25) : (t.path i).length < 72 := by
  have := h i
  rw [t.path_short this]
  omega

theorem copyFds_short {dupArr : Fin 25 → Nat} {c : Task} (hs : t.Short) (h : copyFds t dupArr = .ok c) (i : Fin 25) :
    c.fd i = if i.val ≤ t.fdCnt then {File.zero with offset := (t.fd i).offset, path := (t.fd i).path} else .zero := by
  rw [copyFds_copied hs.within h i, hs.copied]

end

end Sbnix.Files
