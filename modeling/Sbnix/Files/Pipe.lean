import Sbnix.Files.Inherit

/-! Pipes (`sys/pipe.c`, and the redirected branches of `sys/iostream.c`).

A pipe is a page of kernel memory without a length: a write goes behind the string in
it, and a read takes the whole string and clears it. `Pipe` adds to the memory what has
been written and what reads have returned so far; what is between is pending.

The string in the buffer is what is pending (`Pipe.Holding`) as long as no byte that is
written is zero, the byte behind what is written is, and a read asks for all of it.
Then the pipe is a queue (`pipe_fifo`). -/
namespace Sbnix.Files
open Library Library.Store

/-- The descriptor is redirected to a slot with the buffer. -/
def Task.RedirectedTo (t : Task) (i : Fin 25) (buffer : BitVec 64) : Prop :=
  t.dupArr i ≠ i ∧ ∃ j : Fin 25, j.val = t.dupArr i ∧ (t.fd j).offset = buffer

instance (t : Task) (i : Fin 25) (buffer : BitVec 64) : Decidable (t.RedirectedTo i buffer) :=
  inferInstanceAs (Decidable (_ ∧ _))

/-- The calls on a pipe, by any process through any of its descriptors. -/
inductive PipeCall where
  | sysWrite (process : Task) (fildes : Fin 25) (data : List Byte)
  | sysRead (process : Task) (fildes : Fin 25) (size : Nat)

structure Pipe where
  mem : Store
  written : List Byte
  returned : List Byte

def Pipe.pending (s : Pipe) : List Byte := s.written.drop s.returned.length

/-- The bytes of a transfer that the result counts. -/
def Transfer.counted (o : Transfer) : List Byte := o.bytes.take o.ret.toNat

namespace PipeCall
variable (printk : List Byte → Int)

def step (s : Pipe) : PipeCall → Option Pipe
  | sysWrite process fildes data =>
    (Files.sysWrite printk s.mem process fildes data).toOption.map fun o => ⟨o.mem, s.written ++ data, s.returned⟩
  | sysRead process fildes size =>
    (Files.sysRead [] s.mem process fildes size).toOption.map fun o => ⟨o.mem, s.written, s.returned ++ o.counted⟩

/-- The call is on the pipe, which never has more than a page pending. -/
def OnPipe (buffer : BitVec 64) (s : Pipe) : PipeCall → Prop
  | sysWrite process fildes data => process.RedirectedTo fildes buffer ∧ s.pending.length + data.length ≤ 4096
  | sysRead process fildes _ => process.RedirectedTo fildes buffer

/-- What is written has no zeros and a zero behind it, and what is asked for is all. -/
def Allowed (buffer : BitVec 64) (s : Pipe) : PipeCall → Prop
  | sysWrite _ _ data =>
    (0 : Byte) ∉ data ∧ (data = [] ∨ s.mem (buffer.toNat + s.pending.length + data.length) = 0)
  | sysRead _ _ size => size = 0 ∨ s.pending.length ≤ size

instance (buffer : BitVec 64) (s : Pipe) : (c : PipeCall) → Decidable (c.OnPipe buffer s)
  | sysWrite .. => inferInstanceAs (Decidable (_ ∧ _))
  | sysRead .. => inferInstanceAs (Decidable (Task.RedirectedTo ..))

instance (buffer : BitVec 64) (s : Pipe) : (c : PipeCall) → Decidable (c.Allowed buffer s)
  | sysWrite .. => inferInstanceAs (Decidable (_ ∧ _))
  | sysRead .. => inferInstanceAs (Decidable (_ ∨ _))

/-- What a queue of bytes does: a write takes all, and a read returns what is pending next,
no more than asked for, and something if there is something. -/
def Fifo (s : Pipe) : PipeCall → Prop
  | sysWrite process fildes data => ∃ o, Files.sysWrite printk s.mem process fildes data = .ok o ∧ o.ret = data.length
  | sysRead process fildes size => ∃ o, Files.sysRead [] s.mem process fildes size = .ok o ∧
      o.ret = o.counted.length ∧ s.returned ++ o.counted <+: s.written ∧ o.counted.length ≤ size ∧
      (s.pending ≠ [] → 0 < size → o.counted ≠ [])

end PipeCall

/-- The string in the buffer is what is pending. -/
structure Pipe.Holding (buffer : BitVec 64) (s : Pipe) : Prop where
  before : s.returned <+: s.written
  spells : Spells s.mem buffer.toNat s.pending
  bound : s.pending.length ≤ 4096

section
variable {buffer : BitVec 64} {s : Pipe} {t : Task} {i : Fin 25} {data : List Byte} {size : Nat}

theorem Pipe.Holding.split (h : s.Holding buffer) : s.returned ++ s.pending = s.written :=
  (List.prefix_iff_eq_append.mp h.before)

theorem Pipe.Holding.strlen (h : s.Holding buffer) : strlen s.mem buffer.toNat = s.pending.length := by
  have hbound := h.bound
  exact strlen_spells h.spells (by rw [show intMax = 2147483648 from rfl]; omega)

theorem Pipe.Holding.cString (h : s.Holding buffer) : cString s.mem buffer.toNat = s.pending := by
  rw [Files.cString, h.strlen]
  exact h.spells.holds

/-- The byte behind what is pending is a zero. -/
theorem Pipe.Holding.zero (h : s.Holding buffer) : s.mem (buffer.toNat + s.pending.length) = 0 :=
  (holds_cons.mp (holds_append.mp h.spells.1).2).1

theorem Pipe.Holding.sysWrite (h : s.Holding buffer) (hbuffer : initialMem ≤ buffer.toNat) (ht : t.RedirectedTo i buffer)
    (printk : List Byte → Int) :
    Files.sysWrite printk s.mem t i data =
      .ok ⟨data.length, data, some buffer.toNat, t, put s.mem (buffer.toNat + s.pending.length) data⟩ := by
  obtain ⟨hdup, j, hj, hoff⟩ := ht
  rw [sysWrite_redirected printk hdup hj, hoff, if_neg (by omega), h.strlen]

theorem Pipe.Holding.sysRead (h : s.Holding buffer) (hbuffer : initialMem ≤ buffer.toNat) (ht : t.RedirectedTo i buffer)
    (hsize : 0 < size) :
    Files.sysRead [] s.mem t i size =
      .ok ⟨s.pending.length, s.pending ++ [0], some buffer.toNat, t, memset s.mem buffer.toNat 0 s.pending.length⟩ := by
  obtain ⟨hdup, j, hj, hoff⟩ := ht
  rw [sysRead_redirected hsize hdup hj, hoff, if_neg (by omega), h.cString, h.strlen]

/-- A string grows by bytes that are not zero, if there is a zero behind them. -/
theorem spells_put {m : Store} {a : Nat} {s data : List Byte} (h : Spells m a s) (hdata : (0 : Byte) ∉ data)
    (hzero : m (a + s.length + data.length) = 0) : Spells (put m (a + s.length) data) a (s ++ data) := by
  have hs : Holds (put m (a + s.length) data) a s := h.holds.congr (put_agree m data (Or.inr (le_refl _)))
  have hend : put m (a + s.length) data (a + s.length + data.length) = 0 := by
    rw [put_above m data (le_refl _), hzero]
  refine ⟨?_, ?_⟩
  · rw [List.append_assoc]
    exact holds_append.mpr ⟨hs, holds_append.mpr ⟨put_holds _ _ _, holds_cons.mpr ⟨hend, holds_nil _ _⟩⟩⟩
  · rw [List.mem_append]
    rintro (hin | hin)
    · exact h.2 hin
    · exact hdata hin

/-- A string that is cleared is empty. -/
theorem spells_clear {m : Store} {a : Nat} {s : List Byte} (h : Spells m a s) : Spells (memset m a 0 s.length) a [] := by
  refine ⟨holds_cons.mpr ⟨?_, holds_nil _ _⟩, List.not_mem_nil⟩
  cases s with
  | nil =>
    rw [List.length_nil, memset, List.replicate_zero, put_above m [] (le_refl a)]
    exact (holds_cons.mp h.1).1
  | cons b rest => exact put_at m a (List.replicate (rest.length + 1) 0) (i := 0) (by simp)

theorem Pipe.Holding.write (h : s.Holding buffer) (hdata : (0 : Byte) ∉ data)
    (hzero : data = [] ∨ s.mem (buffer.toNat + s.pending.length + data.length) = 0)
    (hroom : s.pending.length + data.length ≤ 4096) :
    Pipe.Holding buffer ⟨put s.mem (buffer.toNat + s.pending.length) data, s.written ++ data, s.returned⟩ := by
  have hpending : Pipe.pending ⟨put s.mem (buffer.toNat + s.pending.length) data, s.written ++ data, s.returned⟩ =
      s.pending ++ data := List.drop_append_of_le_length h.before.length_le
  refine ⟨h.before.trans (List.prefix_append _ _), ?_, ?_⟩
  · rw [hpending]
    apply spells_put h.spells hdata
    obtain rfl | hzero := hzero
    · exact h.zero
    · exact hzero
  · rw [hpending, List.length_append]
    exact hroom

theorem Pipe.Holding.read (h : s.Holding buffer) :
    Pipe.Holding buffer ⟨memset s.mem buffer.toNat 0 s.pending.length, s.written, s.returned ++ s.pending⟩ := by
  have hpending : Pipe.pending ⟨memset s.mem buffer.toNat 0 s.pending.length, s.written, s.returned ++ s.pending⟩ = [] := by
    show s.written.drop (s.returned ++ s.pending).length = []
    rw [h.split, List.drop_length]
  refine ⟨?_, ?_, ?_⟩
  · rw [h.split]
  · rw [hpending]
    exact spells_clear h.spells
  · rw [hpending]
    exact Nat.zero_le _

/-- A call that is allowed is one on a queue, and the buffer goes on holding it. -/
theorem Pipe.Holding.call (h : s.Holding buffer) (hbuffer : initialMem ≤ buffer.toNat) (printk : List Byte → Int)
    {c : PipeCall} (hon : c.OnPipe buffer s) (hallowed : c.Allowed buffer s) :
    c.Fifo printk s ∧ ∀ s', c.step printk s = some s' → s'.Holding buffer := by
  cases c with
  | sysWrite t i data =>
    obtain ⟨hdata, hzero⟩ := hallowed
    have hwrite : Files.sysWrite printk s.mem t i data = .ok _ := h.sysWrite hbuffer hon.1 printk
    refine ⟨⟨_, hwrite, rfl⟩, fun s' hs' => ?_⟩
    rw [PipeCall.step, hwrite] at hs'
    obtain rfl := Option.some.inj hs'
    exact h.write hdata hzero hon.2
  | sysRead t i size =>
    rcases Nat.eq_zero_or_pos size with rfl | hsize
    · refine ⟨⟨_, rfl, rfl, ?_, Nat.le_refl 0, fun _ hpos => absurd hpos (by decide)⟩, fun s' hs' => ?_⟩
      · show s.returned ++ [] <+: s.written
        rw [List.append_nil]
        exact h.before
      · obtain rfl := Option.some.inj hs'
        show Pipe.Holding buffer ⟨s.mem, s.written, s.returned ++ []⟩
        rw [List.append_nil]
        exact h
    · have hread : Files.sysRead [] s.mem t i size = .ok _ := h.sysRead hbuffer hon hsize
      have hcounted : ∀ m, Transfer.counted ⟨s.pending.length, s.pending ++ [0], some buffer.toNat, t, m⟩ = s.pending :=
        fun _ => List.take_left
      have hall : s.pending.length ≤ size := hallowed.resolve_left (by omega)
      refine ⟨⟨_, hread, ?_⟩, fun s' hs' => ?_⟩
      · rw [hcounted, h.split]
        exact ⟨rfl, List.prefix_refl _, hall, fun hpending _ => hpending⟩
      · rw [PipeCall.step, hread] at hs'
        obtain rfl := Option.some.inj hs'
        dsimp only
        rw [hcounted]
        exact h.read

end

/-- A pipe whose buffer starts with a zero is a queue of bytes, along every run of calls by
any processes that are allowed. -/
theorem pipe_fifo (printk : List Byte → Int) (buffer : BitVec 64) (hbuffer : initialMem ≤ buffer.toNat) (mem : Store)
    (hempty : mem buffer.toNat = 0) (calls : List PipeCall)
    (hcalls : Along (PipeCall.step printk) (fun s c => c.OnPipe buffer s ∧ c.Allowed buffer s) ⟨mem, [], []⟩ calls) :
    Along (PipeCall.step printk) (PipeCall.Fifo printk) ⟨mem, [], []⟩ calls := by
  have hstart : Pipe.Holding buffer ⟨mem, [], []⟩ :=
    ⟨List.prefix_refl _, ⟨holds_cons.mpr ⟨hempty, holds_nil _ _⟩, List.not_mem_nil⟩, Nat.zero_le _⟩
  refine along_imp ?_ ?_ hstart hcalls
  · intro s c h hc
    exact (h.call hbuffer printk hc.1 hc.2).1
  · intro s c s' h hc hs'
    exact (h.call hbuffer printk hc.1 hc.2).2 s' hs'

/-- A process that makes a pipe, writes to it with descriptor 1 and reads from it with
descriptor 0. -/
def piping : List Call := [.sysPipe 0xffffffff80400000, .sysDup2 1 4, .sysDup2 0 3]

theorem pipe_fifo_drained :
    ∃ p, run step (start []) piping = some p ∧
      Along (PipeCall.step fun _ => 0) (PipeCall.Fifo fun _ => 0) ⟨fun _ => 0, [], []⟩
        [.sysWrite p.task 1 [0x61, 0x62], .sysWrite p.task 1 [0x63], .sysRead p.task 0 3, .sysRead p.task 0 3] := by
  refine ⟨_, rfl, pipe_fifo (fun _ => 0) 0xffffffff80400000 (by decide) (fun _ => 0) rfl _ ?_⟩
  decide +kernel

/-- Two bytes are returned to a reader that asks for one. -/
theorem pipe_returns_too_much :
    ∃ p, run step (start []) piping = some p ∧
      Along (PipeCall.step fun _ => 0) (PipeCall.OnPipe 0xffffffff80400000) ⟨fun _ => 0, [], []⟩
        [.sysWrite p.task 1 [0x61, 0x62], .sysRead p.task 0 1] ∧
      ¬ Along (PipeCall.step fun _ => 0) (PipeCall.Fifo fun _ => 0) ⟨fun _ => 0, [], []⟩
        [.sysWrite p.task 1 [0x61, 0x62], .sysRead p.task 0 1] := by
  refine ⟨_, rfl, by decide +kernel, ?_⟩
  rintro ⟨_, hrest⟩
  obtain ⟨⟨o, ho, _, _, hsize, _⟩, _⟩ := hrest _ rfl
  rw [← Except.ok.inj ho] at hsize
  exact absurd hsize (by decide +kernel)

end Sbnix.Files
