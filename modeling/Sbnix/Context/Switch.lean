import Sbnix.Library.Run
import Sbnix.Library.Stack

/-! Context switches (`sys/irq.s`, `sys/macro.s`, `sys_yield`, the frames `create_process`
and `sys_fork` build).

Every task has a kernel stack in its `task_struct`, and `tss.rsp0` points at the last
word of the running task's. The kernel never saves a stack pointer: a switch loads
`kernel_rsp`, set once when the task is made, and pops a frame from there. So all that is
pushed on the way into the kernel has to land where `sys_yield` will look for it.

Registers are named by the places of a frame. The processor pushes and pops five of them
as its manual says; the rest is up to the handlers. Which task is switched to is left
open here: whatever the scheduler picks, what follows holds. -/
namespace Sbnix.Context
open Library

abbrev Word := BitVec 64

inductive Reg where
  | rax | rbx | rcx | rdx | rsi | rdi | rbp
  | r8 | r9 | r10 | r11 | r12 | r13 | r14 | r15
  | rip | cs | rflags | rsp | ss
  deriving DecidableEq, Repr

/-- What a task sees of the processor in user mode. -/
abbrev Regs := Reg → Word

def kernelStackSize : Nat := 512
def trapSize : Nat := 5
def tssOffset : Nat := 1
def numRegistersSaved : Nat := 15
def stackOffset : Nat := kernelStackSize - numRegistersSaved - trapSize - tssOffset

/-- Where `kstack` is in a `task_struct`, which begins on a page. -/
def kstackOffset : Nat := 104

/-- The processor aligns the stack pointer it takes from the TSS down to 16 bytes. Here
as an index into `kstack`. -/
def align16 (i : Nat) : Nat := ((kstackOffset + 8 * i) / 16 * 16 - kstackOffset) / 8

/-! ### What is pushed and popped, in the order of the source -/

/-- An interrupt from user mode. -/
def trap : List Reg := [.ss, .rsp, .rflags, .cs, .rip]

def pushRegisters : List Reg :=
  [.rax, .rbx, .rcx, .rdx, .rsi, .rdi, .rbp, .r8, .r9, .r10, .r11, .r12, .r13, .r14, .r15]

def popRegisters : List Reg :=
  [.r15, .r14, .r13, .r12, .r11, .r10, .r9, .r8, .rbp, .rdi, .rsi, .rdx, .rcx, .rbx, .rax]

/-- `handler_idt128` does not save `rax`. -/
def idt128Pushes : List Reg :=
  [.rbx, .rcx, .rdx, .rsi, .rdi, .rbp, .r8, .r9, .r10, .r11, .r12, .r13, .r14, .r15]

def idt128Pops : List Reg :=
  [.r15, .r14, .r13, .r12, .r11, .r10, .r9, .r8, .rbp, .rdi, .rsi, .rdx, .rcx, .rbx]

/-- The pops of `sys_yield`, which are also those of `init_process`. -/
def yieldPops : List Reg :=
  [.r15, .r14, .r13, .r12, .r11, .r10, .r9, .r8, .rbp, .rdi, .rsi, .rdx, .rcx, .rbx, .rax]

def iretq : List Reg := [.rip, .cs, .rflags, .rsp, .ss]

abbrev Kstack := Nat → Word

/-- The kernel's own code uses the stack below the stack pointer. -/
def clobber (k : Kstack) (sp : Nat) (scratch : Nat → Word) : Kstack := fun i => if i < sp then scratch i else k i

/-! ### The machine -/

structure Machine where
  kstack : Nat → Kstack
  /-- A task and an index into its stack. -/
  kernelRsp : Nat → Nat × Nat
  rsp0 : Nat × Nat
  /-- The number of tasks made so far. -/
  top : Nat
  running : Nat
  regs : Regs

namespace Machine

def setKstack (m : Machine) (t : Nat) (k : Kstack) : Machine := {m with kstack := Function.update m.kstack t k}

/-- `handler_irq0`, up to the return of `call_timer` or its switch to another task. -/
def irq0 (m : Machine) (scratch : Nat → Word) : Machine :=
  let frame := pushAll (m.kstack m.rsp0.1) (align16 m.rsp0.2) ((trap ++ pushRegisters).map m.regs)
  m.setKstack m.rsp0.1 (clobber frame.1 frame.2 scratch)

/-- `handler_idt128` into `syscall_handler`; `ret` is the return address of that call. -/
def idt128 (ret : Word) (m : Machine) (scratch : Nat → Word) : Machine :=
  let frame := pushAll (m.kstack m.rsp0.1) (align16 m.rsp0.2) ((trap ++ idt128Pushes).map m.regs ++ [ret])
  m.setKstack m.rsp0.1 (clobber frame.1 frame.2 scratch)

/-- `sys_yield` to the task `next`. -/
def sysYield (m : Machine) (next : Nat) : Machine :=
  let rsp := m.kernelRsp next
  let frame := popAll (m.kstack rsp.1) rsp.2 m.regs (yieldPops ++ iretq)
  {m with rsp0 := (next, kernelStackSize - 1), running := next, regs := frame.1}

/-- The end of `handler_irq0`: `pop_registers` and `iretq`. -/
def irq0Return (m : Machine) : Machine :=
  let sp := align16 m.rsp0.2 - (trap ++ pushRegisters).length
  {m with regs := (popAll (m.kstack m.rsp0.1) sp m.regs (popRegisters ++ iretq)).1}

/-- The end of `handler_idt128`, with the result of the call in `rax`. -/
def idt128Return (m : Machine) (rax : Word) : Machine :=
  let sp := align16 m.rsp0.2 - (trap ++ idt128Pushes).length
  {m with regs := (popAll (m.kstack m.rsp0.1) sp (Function.update m.regs .rax rax) (idt128Pops ++ iretq)).1}

/-- A new `task_struct` with the given frame. -/
def newTask (m : Machine) (k : Kstack) : Machine :=
  {m.setKstack m.top k with kernelRsp := Function.update m.kernelRsp m.top (m.top, stackOffset), top := m.top + 1}

def stackMemTop : Word := 0xf0000000

/-- The frame `create_process` builds in the zeroed `kstack`. -/
def createFrame (entryPt : Word) : Kstack := fun i =>
  if i = kernelStackSize - tssOffset - 5 then entryPt
  else if i = kernelStackSize - tssOffset - 4 then 0x1b
  else if i = kernelStackSize - tssOffset - 3 then 0x246
  else if i = kernelStackSize - tssOffset - 2 then stackMemTop - 8
  else if i = kernelStackSize - tssOffset - 1 then 0x23
  else 0

/-- The frame `sys_fork` builds from its caller's stack. `handler_idt128` has pushed one
register less than `sys_yield` pops, so the copies are one word down. -/
def forkFrame (pproc : Kstack) : Kstack := fun i =>
  if i = kernelStackSize - tssOffset - 6 then 0
  else if i = kernelStackSize - tssOffset - 5 then pproc i
  else if i = kernelStackSize - tssOffset - 4 then pproc i
  else if i = kernelStackSize - tssOffset - 3 then 0x200286
  else if i = kernelStackSize - tssOffset - 2 then pproc i
  else if i = kernelStackSize - tssOffset - 1 then pproc i
  else if stackOffset ≤ i ∧ i < stackOffset + numRegistersSaved + 1 then pproc (i + 1)
  else 0

end Machine

/-! ### Runs -/

/-- What happens to the running task. `scratch` is what the kernel's code leaves on the
stack on the way. -/
inductive Event where
  /-- It computes. -/
  | compute (regs : Regs)
  /-- The timer interrupts it and does not switch. -/
  | tick (scratch : Nat → Word)
  /-- The timer interrupts it, and `schedule` dispatches `next`. -/
  | timer (scratch : Nat → Word) (next : Nat)
  /-- It makes a call that returns `rax`. -/
  | call (scratch : Nat → Word) (rax : Word)
  /-- It calls `sys_fork`, which returns `pid`. -/
  | fork (scratch : Nat → Word) (pid : Word)
  /-- It calls `sys_sleep` or `sys_waitpid` and blocks. -/
  | block (scratch : Nat → Word) (next : Nat)
  /-- It calls `sys_execve`: a task is made in its place, and `sys_exit` switches. -/
  | execve (scratch : Nat → Word) (entryPt : Word) (next : Nat)
  | exit (scratch : Nat → Word) (next : Nat)

/-- The task an event dispatches. -/
def Event.next : Event → Option Nat
  | .timer _ next | .block _ next | .execve _ _ next | .exit _ next => some next
  | .compute _ | .tick _ | .call _ _ | .fork _ _ => none

def dispatch (m : Machine) (next : Nat) : Option Machine := if next < m.top then some (m.sysYield next) else none

variable (ret : Word)

def step (m : Machine) : Event → Option Machine
  | .compute regs => some {m with regs := regs}
  | .tick scratch => some (m.irq0 scratch).irq0Return
  | .timer scratch next => dispatch (m.irq0 scratch) next
  | .call scratch rax => some ((m.idt128 ret scratch).idt128Return rax)
  | .fork scratch pid =>
    let m := m.idt128 ret scratch
    some ((m.newTask (Machine.forkFrame (m.kstack m.running))).idt128Return pid)
  | .block scratch next => dispatch (m.idt128 ret scratch) next
  | .execve scratch entryPt next => dispatch ((m.idt128 ret scratch).newTask (Machine.createFrame entryPt)) next
  | .exit scratch next => dispatch (m.idt128 ret scratch) next

/-- Idle and sbush are made, and `init_process` runs sbush: its pops are those of
`sys_yield`, and then it loads 0x2b into `ax`. -/
def boot (idleEntry sbushEntry : Word) : Machine :=
  let empty : Machine := ⟨fun _ _ => 0, fun _ => (0, 0), (0, 0), 0, 0, fun _ => 0⟩
  let m := ((empty.newTask (Machine.createFrame idleEntry)).newTask (Machine.createFrame sbushEntry)).sysYield 1
  {m with regs := Function.update m.regs .rax 0x2b}

end Sbnix.Context
