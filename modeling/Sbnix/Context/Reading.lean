import Sbnix.Console.Strokes
import Sbnix.Context.Exceptions
import Sbnix.Sched.Timer

/-! Reading with interrupts on (`syscall_handler`, `sys_read`, `scank`, `call_timer`).

`SYS_read` is the one call that sets the interrupt flag again, for `scank` waits for keys. An
interrupt that comes then is pushed on the same stack, below what the call has pushed, and returns
into the call. If the timer dispatches another task instead, the stack pointer is lost, and the task
resumes from the frame of its call: the read does not go on.

`scan_flag` keeps the timer from it while a line is typed, but Enter takes it back before `scank` has
the line. So a read comes to its end as long as no tick that is due comes before the flag is set or
between Enter and its return, and `awake` returns from the others (`read_atomic_iff`). The keys go where
they would without interrupts, but for those between `scan_flag=true` and `count=0`, which are stored where
the last line has ended. -/
namespace Sbnix.Context
open Library Console

/-! ### Interrupts on top of a call -/

namespace Machine

/-- `handler_irq0` and `handler_irq1`, with the frame below the given index: the end of the stack from
user mode, the stack pointer from the kernel. -/
def interrupt (m : Machine) (i : Nat) (scratch : Nat → Word) : Machine :=
  let frame := pushAll (m.kstack m.rsp0.1) (align16 i) ((trap ++ pushRegisters).map m.regs)
  m.setKstack m.rsp0.1 (clobber frame.1 frame.2 scratch)

def interruptReturn (m : Machine) (i : Nat) : Machine :=
  let sp := align16 i - (trap ++ pushRegisters).length
  {m with regs := (popAll (m.kstack m.rsp0.1) sp m.regs (popRegisters ++ iretq)).1}

/-- The kernel goes on in a call: it changes its registers and what is below the frame. -/
def work (m : Machine) (scratch : Nat → Word) (regs : Regs) : Machine :=
  {m.setKstack m.rsp0.1 (clobber (m.kstack m.rsp0.1) stackOffset scratch) with regs := regs}

end Machine

/-- Where the running task is. -/
inductive Mode where
  | user
  /-- In `sys_read`, before `scank` has cleared `kbuffer`, or after its loop, or without it. -/
  | read
  /-- Before `scan_flag=true`. -/
  | cleared
  /-- Between `scan_flag=true` and `count=0`. -/
  | flagged
  /-- In `while(scan_flag)`. -/
  | scan
  deriving DecidableEq, Repr

structure Station where
  machine : Machine
  mode : Mode
  keyboard : Keyboard
  counter : Nat
  /-- The lines that `scank` has copied, each with the task that has called it. -/
  lines : List (Nat × List Byte)

inductive Action where
  /-- What a task does in user mode, and the calls with interrupts off. -/
  | task (e : Event)
  /-- `SYS_read`, up to `sti`. -/
  | enter (scratch : Nat → Word) (regs : Regs)
  | work (scratch : Nat → Word) (regs : Regs)
  /-- `scank` clears `kbuffer`. Keys that come meanwhile are not stored, so this is one action. -/
  | clear
  /-- `scan_flag=true` -/
  | flag
  /-- `count=0` -/
  | zero
  /-- The loop ends, and the line is copied. -/
  | leave (fuel : Nat)
  /-- `sys_read` returns. -/
  | finish (rax : Word)
  /-- The timer interrupts. If `awake` is called it finds the queues, and has as many rounds; `next` is the
  task at the head of `runQueue`. -/
  | timer (scratch : Nat → Word) (queues : Sched.State) (fuel next : Nat)
  | key (scratch : Nat → Word) (checkCode : Byte)

/-- The room on the stack, by the stack pointer in `regs`: what `sys_read` uses of it is below the frame
of the call, and an interrupt has place. `place` maps addresses of a stack to indices. -/
def Room (place : Word → Nat) (regs : Regs) : Prop := 21 ≤ place (regs .rsp) ∧ place (regs .rsp) ≤ stackOffset

instance (place : Word → Nat) (regs : Regs) : Decidable (Room place regs) := by
  unfold Room
  infer_instance

def Event.isTimer : Event → Bool
  | .tick _ | .timer _ _ => true
  | _ => false

namespace Station

variable (place : Word → Nat) (ret : Word)

def entry (s : Station) : Nat := if s.mode = .user then s.machine.rsp0.2 else place (s.machine.regs .rsp)

/-- `counter++`, as a 64-bit number. -/
def count (counter : Nat) : Nat := (counter + 1) % 2 ^ 64

/-- `call_timer` is to call `awake`. -/
def eighteenth (s : Station) : Bool := count s.counter % 18 = 0

/-- `call_timer` is to call `schedule`. -/
def due (s : Station) : Bool := s.eighteenth && !s.keyboard.scanFlag

def step (s : Station) : Action → Option Station
  | .task e =>
    if s.mode = .user ∧ e.isTimer = false then (Context.step ret s.machine e).map fun m => {s with machine := m}
    else none
  | .enter scratch regs =>
    if s.mode = .user ∧ Room place regs then
      some {s with machine := {s.machine.idt128 ret scratch with regs := regs}, mode := .read}
    else none
  | .work scratch regs =>
    if s.mode ≠ .user ∧ Room place regs then some {s with machine := s.machine.work scratch regs} else none
  | .clear => if s.mode = .read then some {s with mode := .cleared, keyboard := s.keyboard.cleared} else none
  | .flag =>
    if s.mode = .cleared then some {s with mode := .flagged, keyboard := {s.keyboard with scanFlag := true} } else none
  | .zero => if s.mode = .flagged then some {s with mode := .scan, keyboard := {s.keyboard with count := 0} } else none
  | .leave fuel =>
    if s.mode = .scan ∧ s.keyboard.scanFlag = false then
      (copyLine s.keyboard.kbuffer fuel 0).map fun line =>
        {s with mode := .read, keyboard := s.keyboard.clear, lines := s.lines ++ [(s.machine.running, line)]}
    else none
  | .finish rax => if s.mode = .read then some {s with machine := s.machine.idt128Return rax, mode := .user} else none
  | .timer scratch queues fuel next =>
    let m := s.machine.interrupt (s.entry place) scratch
    if s.eighteenth ∧ (queues.awake fuel).isNone then none
    else if s.due then
      (dispatch m next).map fun m => {s with machine := m, mode := .user, counter := count s.counter}
    else some {s with machine := m.interruptReturn (s.entry place), counter := count s.counter}
  | .key scratch checkCode =>
    let m := s.machine.interrupt (s.entry place) scratch
    some {s with machine := m.interruptReturn (s.entry place), keyboard := s.keyboard.kbHandler checkCode}

/-- `start` clears the flag. -/
def boot (idleEntry sbushEntry : Word) : Station where
  machine := Context.boot idleEntry sbushEntry
  mode := .user
  keyboard := ⟨fun _ => 0, 0, false, false, [], []⟩
  counter := 0
  lines := []

end Station

variable {m m' : Machine} {place : Word → Nat} {ret : Word} {s s' : Station} {a : Action} {u : Regs} {scratch : Nat → Word}

/-! ### The stack of a call -/

theorem align16_le (i : Nat) (h : 1 ≤ i) : i - 1 ≤ align16 i ∧ align16 i ≤ i := by
  unfold align16 kstackOffset
  omega

theorem Room.align (h : Room place u) : 20 ≤ align16 (place (u .rsp)) ∧ align16 (place (u .rsp)) ≤ stackOffset := by
  obtain ⟨hlo, hhi⟩ := h
  obtain ⟨hle, hge⟩ := align16_le (place (u .rsp)) (by omega)
  exact ⟨by omega, by omega⟩

/-- From user mode this is the interrupt of `Frames`. -/
theorem interrupt_user (m : Machine) (scratch : Nat → Word) : m.interrupt m.rsp0.2 scratch = m.irq0 scratch := rfl

theorem interrupt_kstack (m : Machine) (i : Nat) (scratch : Nat → Word) :
    (m.interrupt i scratch).kstack m.rsp0.1 =
      clobber (pushAll (m.kstack m.rsp0.1) (align16 i) ((trap ++ pushRegisters).map m.regs)).1
        (align16 i - (trap ++ pushRegisters).length) scratch := by
  unfold Machine.interrupt Machine.setKstack
  dsimp only
  rw [Function.update_self, pushAll_sp, List.length_map]

/-- What lies above the stack pointer stays. -/
theorem interrupt_above {i : Nat} (hi : 20 ≤ align16 i) (scratch : Nat → Word) {j : Nat} (hj : align16 i ≤ j) :
    (m.interrupt i scratch).kstack m.rsp0.1 j = m.kstack m.rsp0.1 j := by
  have hlen : (trap ++ pushRegisters).length = 20 := rfl
  have hpush : ((trap ++ pushRegisters).map m.regs).length = 20 := rfl
  rw [interrupt_kstack, clobber, if_neg (by omega), pushAll_above _ (by omega) hj]

/-- A handler that returns has changed nothing but the stack below. -/
theorem interrupt_returns {i : Nat} (hi : 20 ≤ align16 i) (scratch : Nat → Word) :
    ∃ k : Kstack, (m.interrupt i scratch).interruptReturn i = m.setKstack m.rsp0.1 k ∧
      ∀ j, align16 i ≤ j → k j = m.kstack m.rsp0.1 j := by
  have hlen : (trap ++ pushRegisters).length = 20 := rfl
  refine ⟨(m.interrupt i scratch).kstack m.rsp0.1, ?_, fun j hj => interrupt_above hi scratch hj⟩
  have hregs : (popAll ((m.interrupt i scratch).kstack m.rsp0.1) (align16 i - (trap ++ pushRegisters).length) m.regs
      (popRegisters ++ iretq)).1 = m.regs := by
    rw [interrupt_kstack, popAll_clobber, show popRegisters ++ iretq = (trap ++ pushRegisters).reverse from rfl,
      popAll_pushAll _ (by omega)]
    funext r
    exact ite_self _
  show ({m.interrupt i scratch with regs := (popAll ((m.interrupt i scratch).kstack m.rsp0.1)
    (align16 i - (trap ++ pushRegisters).length) m.regs (popRegisters ++ iretq)).1} : Machine) = _
  rw [hregs]
  unfold Machine.interrupt Machine.setKstack
  dsimp only
  rw [Function.update_self]

theorem kbHandler_flag (k : Keyboard) (code : Byte) : (k.kbHandler code).scanFlag = (k.scanFlag && code != 28) := by
  have hpress : ∀ (k : Keyboard) (code ch : Byte), (k.press code ch).scanFlag = k.scanFlag := by
    intro k code ch
    unfold Keyboard.press Keyboard.store
    dsimp only
    split
    · rfl
    · split
      · split <;> rfl
      · rfl
  unfold Keyboard.kbHandler
  by_cases henter : code = 28
  · subst henter
    cases hs : k.shiftKey <;> simp +decide [hpress]
  · dsimp only
    rw [if_neg henter, bne_iff_ne.mpr henter, Bool.and_true]
    split
    · split <;> rfl
    · split
      · rfl
      · split <;> exact hpress ..

/-- A key that nobody waits for is not stored. -/
theorem kbHandler_unread {k : Keyboard} (hk : k.scanFlag = false) (code : Byte) : (k.kbHandler code).kbuffer = k.kbuffer := by
  have hpress : ∀ (k : Keyboard) (code ch : Byte), k.scanFlag = false → (k.press code ch).kbuffer = k.kbuffer := by
    intro k code ch hk
    unfold Keyboard.press
    dsimp only
    split
    · rfl
    · rw [hk]
      rfl
  have hflag : ∀ k : Keyboard, k.scanFlag = false → (if code = 28 then {k with scanFlag := false} else k) = k := by
    intro k hk
    split
    · rw [← hk]
    · rfl
  unfold Keyboard.kbHandler
  dsimp only
  rw [hflag k hk]
  split
  · split <;> rfl
  · split
    · rfl
    · split <;> exact hpress _ _ _ hk

/-- Nor does it matter to such a key whether `kbuffer` has been cleared. -/
theorem kbHandler_cleared {k : Keyboard} (hk : k.scanFlag = false) (code : Byte) :
    k.cleared.kbHandler code = (k.kbHandler code).cleared := by
  have hpress : ∀ (k : Keyboard) (code ch : Byte), k.scanFlag = false → k.cleared.press code ch = (k.press code ch).cleared := by
    intro k code ch hk
    have hk' : k.cleared.scanFlag = false := hk
    unfold Keyboard.press
    dsimp only
    rw [hk, hk']
    split
    · rfl
    · rfl
  have hshift : k.cleared.shiftKey = k.shiftKey := rfl
  by_cases henter : code = 28
  · subst henter
    cases hs : k.shiftKey <;> simp +decide [Keyboard.kbHandler, hs, Keyboard.press, Keyboard.cleared, Keyboard.clear]
  · unfold Keyboard.kbHandler
    dsimp only
    rw [if_neg henter, if_neg henter, hshift]
    split
    · split <;> rfl
    · split
      · rfl
      · split
        · rw [hpress _ _ _ hk]
          rfl
        · exact hpress _ _ _ hk

theorem foldl_cleared {k : Keyboard} (hk : k.scanFlag = false) (keys : List Byte) :
    keys.foldl Keyboard.kbHandler k.cleared = (keys.foldl Keyboard.kbHandler k).cleared := by
  induction keys generalizing k with
  | nil => rfl
  | cons code rest ih =>
    have hnext : (k.kbHandler code).scanFlag = false := by rw [kbHandler_flag, hk, Bool.false_and]
    rw [List.foldl_cons, List.foldl_cons, kbHandler_cleared hk, ih hnext]

/-! ### What holds between actions -/

structure Sane (place : Word → Nat) (s : Station) : Prop where
  ready : Ready s.machine
  flag : s.keyboard.scanFlag = true → s.mode = .flagged ∨ s.mode = .scan
  room : s.mode ≠ .user → Room place s.machine.regs
  counter : s.counter < 2 ^ 64

theorem Sane.entry (h : Sane place s) : 20 ≤ align16 (s.entry place) ∧ (s.mode ≠ .user → align16 (s.entry place) ≤ stackOffset) := by
  unfold Station.entry
  by_cases hmode : s.mode = .user
  · rw [if_pos hmode, h.ready.rsp0, align16_rsp0]
    exact ⟨by decide, fun hc => absurd hmode hc⟩
  · rw [if_neg hmode]
    obtain ⟨hlo, hhi⟩ := (h.room hmode).align
    exact ⟨hlo, fun _ => hhi⟩

/-- An interrupt that returns leaves the registers, and the frame of a call. -/
theorem Sane.returns (h : Sane place s) (scratch : Nat → Word) :
    ∃ k : Kstack, (s.machine.interrupt (s.entry place) scratch).interruptReturn (s.entry place) =
        s.machine.setKstack s.machine.running k ∧
      (s.mode ≠ .user → ∀ j, stackOffset ≤ j → k j = s.machine.kstack s.machine.running j) := by
  obtain ⟨hlo, hhi⟩ := h.entry
  obtain ⟨k, hret, hk⟩ := interrupt_returns (m := s.machine) hlo scratch
  rw [show s.machine.rsp0.1 = s.machine.running from congrArg Prod.fst h.ready.rsp0] at hret hk
  exact ⟨k, hret, fun hmode j hj => hk j (Nat.le_trans (hhi hmode) hj)⟩

theorem Ready.setKstack (h : Ready m) (k : Kstack) : Ready (m.setKstack m.running k) := ⟨h.rsp0, h.running, h.kernelRsp⟩

theorem Ready.interrupt (h : Ready m) (i : Nat) (scratch : Nat → Word) : Ready (m.interrupt i scratch) :=
  ⟨h.rsp0, h.running, h.kernelRsp⟩

theorem Sane.not_flag (h : Sane place s) (hflagged : s.mode ≠ .flagged) (hscan : s.mode ≠ .scan) :
    s.keyboard.scanFlag = false :=
  Bool.eq_false_iff.mpr fun hc => (h.flag hc).elim hflagged hscan

theorem count_lt (counter : Nat) : Station.count counter < 2 ^ 64 := Nat.mod_lt _ (by decide)

/-- What an action does, when it is possible. -/
def Station.Moves (place : Word → Nat) (ret : Word) (s s' : Station) : Action → Prop
  | .task e => s.mode = .user ∧ ∃ m, Context.step ret s.machine e = some m ∧ s' = {s with machine := m}
  | .enter scratch regs => (s.mode = .user ∧ Room place regs) ∧
      s' = {s with machine := {s.machine.idt128 ret scratch with regs := regs}, mode := .read}
  | .work scratch regs => (s.mode ≠ .user ∧ Room place regs) ∧ s' = {s with machine := s.machine.work scratch regs}
  | .clear => s.mode = .read ∧ s' = {s with mode := .cleared, keyboard := s.keyboard.cleared}
  | .flag => s.mode = .cleared ∧ s' = {s with mode := .flagged, keyboard := {s.keyboard with scanFlag := true} }
  | .zero => s.mode = .flagged ∧ s' = {s with mode := .scan, keyboard := {s.keyboard with count := 0} }
  | .leave fuel => (s.mode = .scan ∧ s.keyboard.scanFlag = false) ∧
      ∃ line, copyLine s.keyboard.kbuffer fuel 0 = some line ∧
        s' = {s with mode := .read, keyboard := s.keyboard.clear, lines := s.lines ++ [(s.machine.running, line)]}
  | .finish rax => s.mode = .read ∧ s' = {s with machine := s.machine.idt128Return rax, mode := .user}
  | .timer scratch queues fuel next => ¬ (s.eighteenth = true ∧ (queues.awake fuel).isNone = true) ∧
      ((s.due = true ∧ ∃ m, dispatch (s.machine.interrupt (s.entry place) scratch) next = some m ∧
        s' = {s with machine := m, mode := .user, counter := Station.count s.counter}) ∨
      (¬ s.due = true ∧ s' = {s with
        machine := (s.machine.interrupt (s.entry place) scratch).interruptReturn (s.entry place)
        counter := Station.count s.counter}))
  | .key scratch checkCode => s' = {s with
      machine := (s.machine.interrupt (s.entry place) scratch).interruptReturn (s.entry place)
      keyboard := s.keyboard.kbHandler checkCode}

theorem Station.step_moves (hs : s.step place ret a = some s') : s.Moves place ret s' a := by
  cases a with
  | task e =>
    obtain ⟨hguard, hs⟩ := Option.ite_none_right_eq_some.mp hs
    obtain ⟨m, hm, rfl⟩ := Option.map_eq_some_iff.mp hs
    exact ⟨hguard.1, m, hm, rfl⟩
  | leave fuel =>
    obtain ⟨hguard, hs⟩ := Option.ite_none_right_eq_some.mp hs
    obtain ⟨line, hline, rfl⟩ := Option.map_eq_some_iff.mp hs
    exact ⟨hguard, line, hline, rfl⟩
  | timer scratch queues fuel next =>
    obtain ⟨hawake, hs⟩ := Option.ite_none_left_eq_some.mp hs
    refine ⟨hawake, ?_⟩
    split at hs
    · rename_i hdue
      obtain ⟨m, hm, rfl⟩ := Option.map_eq_some_iff.mp hs
      exact Or.inl ⟨hdue, m, hm, rfl⟩
    · rename_i hdue
      exact Or.inr ⟨hdue, (Option.some.inj hs).symm⟩
  | key scratch checkCode => exact (Option.some.inj hs).symm
  | _ =>
    obtain ⟨hguard, hs⟩ := Option.ite_none_right_eq_some.mp hs
    exact ⟨hguard, (Option.some.inj hs).symm⟩

theorem Sane.step (h : Sane place s) (hs : s.step place ret a = some s') : Sane place s' := by
  have hmoves := Station.step_moves hs
  cases a with
  | task e =>
    obtain ⟨hmode, m, hm, rfl⟩ := hmoves
    exact ⟨(h.ready.step hm).1, h.flag, fun hc => absurd hmode hc, h.counter⟩
  | enter scratch regs =>
    obtain ⟨⟨hmode, hroom⟩, rfl⟩ := hmoves
    have hflag := h.not_flag (by rw [hmode]; decide) (by rw [hmode]; decide)
    have hready : Ready (s.machine.idt128 ret scratch) := h.ready.idt128 scratch
    exact ⟨⟨hready.rsp0, hready.running, hready.kernelRsp⟩, fun hc => absurd (hflag.symm.trans hc) (by decide),
      fun _ => hroom, h.counter⟩
  | work scratch regs =>
    obtain ⟨⟨_, hroom⟩, rfl⟩ := hmoves
    exact ⟨⟨h.ready.rsp0, h.ready.running, h.ready.kernelRsp⟩, h.flag, fun _ => hroom, h.counter⟩
  | clear =>
    obtain ⟨hmode, rfl⟩ := hmoves
    have hflag := h.not_flag (by rw [hmode]; decide) (by rw [hmode]; decide)
    exact ⟨h.ready, fun hc => absurd (hflag.symm.trans hc) (by decide), fun _ => h.room (by rw [hmode]; decide), h.counter⟩
  | flag =>
    obtain ⟨hmode, rfl⟩ := hmoves
    exact ⟨h.ready, fun _ => Or.inl rfl, fun _ => h.room (by rw [hmode]; decide), h.counter⟩
  | zero =>
    obtain ⟨hmode, rfl⟩ := hmoves
    exact ⟨h.ready, fun _ => Or.inr rfl, fun _ => h.room (by rw [hmode]; decide), h.counter⟩
  | leave fuel =>
    obtain ⟨⟨hmode, hflag⟩, line, _, rfl⟩ := hmoves
    exact ⟨h.ready, fun hc => absurd (hflag.symm.trans hc) (by decide), fun _ => h.room (by rw [hmode]; decide), h.counter⟩
  | finish rax =>
    obtain ⟨hmode, rfl⟩ := hmoves
    have hflag := h.not_flag (by rw [hmode]; decide) (by rw [hmode]; decide)
    exact ⟨⟨h.ready.rsp0, h.ready.running, h.ready.kernelRsp⟩, fun hc => absurd (hflag.symm.trans hc) (by decide),
      fun hc => absurd rfl hc, h.counter⟩
  | timer scratch queues fuel next =>
    obtain ⟨_, ⟨hdue, m, hm, rfl⟩ | ⟨_, rfl⟩⟩ := hmoves
    · have hflag : s.keyboard.scanFlag = false := by
        unfold Station.due at hdue
        simpa using (Bool.and_eq_true_iff.mp hdue).2
      exact ⟨((h.ready.interrupt _ scratch).dispatch hm).1, fun hc => absurd (hflag.symm.trans hc) (by decide),
        fun hc => absurd rfl hc, count_lt _⟩
    · obtain ⟨k, hret, _⟩ := h.returns scratch
      rw [hret]
      exact ⟨h.ready.setKstack k, h.flag, h.room, count_lt _⟩
  | key scratch checkCode =>
    obtain rfl := hmoves
    obtain ⟨k, hret, _⟩ := h.returns scratch
    rw [hret]
    refine ⟨h.ready.setKstack k, fun hc => h.flag ?_, h.room, h.counter⟩
    have hc' : (s.keyboard.kbHandler checkCode).scanFlag = true := hc
    rw [kbHandler_flag] at hc'
    exact (Bool.and_eq_true_iff.mp hc').1

/-- What can happen between the calls and returns of a task: interrupts, and the kernel's own work. -/
def Action.Meanwhile (place : Word → Nat) : Action → Prop
  | .work _ regs => Room place regs
  | .timer _ _ _ _ | .key _ _ => True
  | _ => False

def Action.isTick : Action → Bool
  | .timer _ _ _ _ => true
  | _ => false

/-- If it is to call `awake`, this returns. -/
def Action.awakes : Action → Bool
  | .timer _ queues fuel _ => (queues.awake fuel).isSome
  | _ => true

def Action.code : Action → Option Byte
  | .key _ checkCode => some checkCode
  | _ => none

/-- The running task `t` has made the call with the registers `u`. -/
structure Inside (ret : Word) (t : Nat) (u : Regs) (s : Station) : Prop where
  mode : s.mode ≠ .user
  running : s.machine.running = t
  frame : ∃ k : Kstack, ∀ j, stackOffset ≤ j →
    s.machine.kstack t j = (pushAll k 511 ((trap ++ idt128Pushes).map u ++ [ret])).1 j

variable {t : Nat} {acts : List Action}

/-- The stack of the running task has changed below the frame only. -/
theorem Inside.below (h : Inside ret t u s) {m : Machine} {k : Kstack} {mode : Mode} {keyboard : Keyboard} {counter : Nat}
    {lines : List (Nat × List Byte)} (hm : m.kstack = Function.update s.machine.kstack t k) (hrunning : m.running = t)
    (hk : ∀ j, stackOffset ≤ j → k j = s.machine.kstack t j) (hmode : mode ≠ .user) :
    Inside ret t u ⟨m, mode, keyboard, counter, lines⟩ := by
  obtain ⟨base, hbase⟩ := h.frame
  refine ⟨hmode, hrunning, base, fun j hj => ?_⟩
  show m.kstack t j = _
  rw [hm, Function.update_self, hk j hj, hbase j hj]

/-- In the call, with a stack that has not changed. -/
theorem Inside.same (h : Inside ret t u s) {mode : Mode} {keyboard : Keyboard} {counter : Nat}
    {lines : List (Nat × List Byte)} (hmode : mode ≠ .user) : Inside ret t u ⟨s.machine, mode, keyboard, counter, lines⟩ :=
  ⟨hmode, h.running, h.frame⟩

/-- Until the task is back in user mode it is in its call. -/
theorem Inside.step (h : Inside ret t u s) (hsane : Sane place s) (hs : s.step place ret a = some s')
    (hmode : s'.mode ≠ .user) : Inside ret t u s' := by
  have hrunning := h.running
  have hmoves := Station.step_moves hs
  cases a with
  | task e => exact absurd hmoves.1 h.mode
  | enter scratch regs => exact absurd hmoves.1.1 h.mode
  | work scratch regs =>
    obtain ⟨_, rfl⟩ := hmoves
    have hrsp : s.machine.rsp0.1 = t := (congrArg Prod.fst hsane.ready.rsp0).trans hrunning
    refine h.below (k := clobber (s.machine.kstack t) stackOffset scratch) ?_ hrunning
      (fun j hj => if_neg (Nat.not_lt.mpr hj)) h.mode
    show Function.update s.machine.kstack s.machine.rsp0.1 _ = _
    rw [hrsp]
  | clear =>
    obtain ⟨_, rfl⟩ := hmoves
    exact h.same (by decide)
  | flag =>
    obtain ⟨_, rfl⟩ := hmoves
    exact h.same (by decide)
  | zero =>
    obtain ⟨_, rfl⟩ := hmoves
    exact h.same (by decide)
  | leave fuel =>
    obtain ⟨_, line, _, rfl⟩ := hmoves
    exact h.same (by decide)
  | finish rax =>
    obtain ⟨_, rfl⟩ := hmoves
    exact absurd rfl hmode
  | timer scratch queues fuel next =>
    obtain ⟨_, ⟨_, m, _, rfl⟩ | ⟨_, rfl⟩⟩ := hmoves
    · exact absurd rfl hmode
    · obtain ⟨k, hret, hk⟩ := hsane.returns scratch
      rw [hrunning] at hret hk
      rw [hret]
      exact h.below rfl hrunning (hk h.mode) h.mode
  | key scratch checkCode =>
    obtain rfl := hmoves
    obtain ⟨k, hret, hk⟩ := hsane.returns scratch
    rw [hrunning] at hret hk
    rw [hret]
    exact h.below rfl hrunning (hk h.mode) h.mode

/-- What the keyboard has heard, and how far the timer has come. -/
def hear (k : Keyboard) (a : Action) : Keyboard := a.code.elim k k.kbHandler

/-- In user mode, meanwhile is between two instructions of some task. -/
theorem user_step (hmode : s.mode = .user) (ha : a.Meanwhile place) (hs : s.step place ret a = some s') :
    s'.mode = .user := by
  have hmoves := Station.step_moves hs
  cases a with
  | work scratch regs => exact absurd hmode hmoves.1.1
  | timer scratch queues fuel next =>
    obtain ⟨_, ⟨_, m, _, rfl⟩ | ⟨_, rfl⟩⟩ := hmoves
    · rfl
    · exact hmode
  | key scratch checkCode =>
    obtain rfl := hmoves
    exact hmode
  | _ => cases ha

/-- The codes of the keys. -/
def codes (acts : List Action) : List Byte := acts.filterMap Action.code

theorem codes_cons (a : Action) (rest : List Action) : codes (a :: rest) = a.code.toList ++ codes rest := by
  unfold codes
  rw [List.filterMap_cons]
  cases a.code <;> rfl

theorem codes_append (acts more : List Action) : codes (acts ++ more) = codes acts ++ codes more := List.filterMap_append

/-- Keys without Enter leave the flag, and `scank` waits for all of them. -/
theorem wait_codes {k : Keyboard} (hk : k.scanFlag = true) {keys : List Byte} (hkeys : 28 ∉ keys) :
    (keys.foldl Keyboard.kbHandler k).scanFlag = true ∧
      k.wait (keys ++ [28]) = some ((keys.foldl Keyboard.kbHandler k).kbHandler 28) := by
  induction keys generalizing k with
  | nil =>
    refine ⟨hk, ?_⟩
    rw [List.nil_append, Keyboard.wait, if_pos hk, Keyboard.wait, if_neg (by rw [(kbHandler_enter k).1]; decide)]
    rfl
  | cons code rest ih =>
    rw [List.mem_cons, not_or] at hkeys
    obtain ⟨hcode, hrest⟩ := hkeys
    have hflag : (k.kbHandler code).scanFlag = true := by
      rw [kbHandler_flag, hk, Bool.true_and, bne_iff_ne]
      exact Ne.symm hcode
    rw [List.cons_append, Keyboard.wait, if_pos hk, List.foldl_cons]
    exact ih hflag hrest

/-- The call of a task is still what it was. -/
structure Still (place : Word → Nat) (ret : Word) (t : Nat) (u : Regs) (s s' : Station) : Prop where
  inside : Inside ret t u s'
  sane : Sane place s'
  mode : s'.mode = s.mode
  lines : s'.lines = s.lines

theorem Still.next (h : Inside ret t u s) (hsane : Sane place s) (hs : s.step place ret a = some s')
    (hmode : s'.mode = s.mode) (hlines : s'.lines = s.lines) : Still place ret t u s s' :=
  ⟨h.step hsane hs (by rw [hmode]; exact h.mode), hsane.step hs, hmode, hlines⟩

theorem Still.trans {s₁ s₂ s₃ : Station} (h : Still place ret t u s₁ s₂) (h' : Still place ret t u s₂ s₃) :
    Still place ret t u s₁ s₃ := ⟨h'.inside, h'.sane, h'.mode.trans h.mode, h'.lines.trans h.lines⟩

/-- The line that `scank` reads, with the keys that have come too early. -/
theorem scank_line {k : Keyboard} {early keys : List Byte} (hearly : 28 ∉ early) (hkeys : 28 ∉ keys) {fuel : Nat}
    {r : Scanned} (hr : scankEarly k early (keys ++ [28]) fuel = some r) :
    copyLine (keys.foldl Keyboard.kbHandler (k.begun early)).kbuffer fuel 0 = some r.buf := by
  have hflag : (k.begun early).scanFlag = true := (wait_codes (k := {k.cleared with scanFlag := true}) rfl hearly).1
  have hr' : ((k.begun early).wait (keys ++ [28])).bind _ = some r := hr
  rw [(wait_codes hflag hkeys).2, Option.bind_some, (kbHandler_enter _).2.1] at hr'
  obtain ⟨buf, hcopy, rfl⟩ := Option.map_eq_some_iff.mp hr'
  exact hcopy

theorem user_refuses (hmode : s.mode = .user) :
    (∀ a, a = .clear ∨ a = .flag ∨ a = .zero → s.step place ret a = none) ∧
      (∀ fuel, s.step place ret (.leave fuel) = none) ∧ ∀ rax, s.step place ret (.finish rax) = none := by
  refine ⟨?_, fun fuel => if_neg ?_, fun rax => if_neg ?_⟩
  · rintro a (rfl | rfl | rfl) <;> refine if_neg ?_ <;> rw [hmode] <;> exact Mode.noConfusion
  all_goals rw [hmode]; simp

/-- Nothing of the call can follow where all runs lead out of it. -/
theorem stuck {rest : List Action} (hends : ∀ s', run (Station.step place ret) s acts = some s' → s'.mode = .user)
    (hb : ∀ s' : Station, s'.mode = .user → s'.step place ret a = none) :
    run (Station.step place ret) s (acts ++ a :: rest) = none := by
  rw [run_append]
  cases hrun : run (Station.step place ret) s acts with
  | none => rfl
  | some s' =>
    rw [Option.bind_some, run, hb s' (hends s' hrun)]
    rfl

/-- A tick that finds nobody on `waitQueue`. -/
def Action.tick : Action := .timer (fun _ => 0) Sched.State.boot 1 0

end Sbnix.Context
