import Sbnix.Context.Frames

/-! Exceptions and interrupts that return (`sys/isr.s`, `fault_handler`, `handler_irq1`).

The stubs of `sys/isr.s` pass `fault_handler` the number and the error code of an exception
on the stack. The processor pushes an error code for some exceptions only, and the stubs
push a zero for the others, to keep one frame for all; they do so for the alignment check
as well, where the processor has pushed one. `fault_handler` comes back for page faults only
(`uniform_frame_iff`).

A page fault that is resolved, a key and a tick of the timer return to the task they
interrupt. They write its stack, where it has left nothing: a run with any number of them
in any places leads where the run without them does (`interrupts_invisible`). -/
namespace Sbnix.Context
open Library

variable {m m' : Machine} {code : Word} {scratch : Nat → Word} {ret : Word}

/-! ### `fault_handler` -/

def exceptionMessages : List String :=
  ["Division By Zero", "Debug", "Non Maskable Interrupt", "Breakpoint", "Into Detected Overflow", "Out of Bounds",
    "Invalid Opcode", "No Coprocessor", "Double Fault", "Coprocessor Segment Overrun", "Bad TSS",
    "Segment Not Present", "Stack Fault", "General Protection Fault", "Page Fault", "Unknown Interrupt",
    "Coprocessor Fault", "Alignment Check", "Machine Check"] ++ List.replicate 13 "Reserved"

/-- `page_fault` is called, the endless loop is reached, or the function returns. -/
inductive Outcome where
  | pageFault (errCode : Word)
  | halted (message : String)
  | returns

def faultHandler (r errCode : Word) : Outcome :=
  if r = 14 then .pageFault errCode
  else if r < 32 then .halted (exceptionMessages.getD r.toNat "")
  else .returns

/-- The endless loop does not come back, and neither does a page fault that ends the task, which is not one of
those here. -/
def Outcome.comesBack : Outcome → Bool
  | .halted _ => false
  | .pageFault _ | .returns => true

/-! ### The stubs -/

/-- The exceptions for which the processor pushes an error code on top of the trap frame. -/
def errorCodes : List Nat := [8, 10, 11, 12, 13, 14, 17]

/-- The stubs that push nothing in its place. -/
def bareStubs : List Nat := [8, 10, 11, 12, 13, 14]

def processorPushes (v : Nat) (code : Word) : List Word := if v ∈ errorCodes then [code] else []

/-- `handler_isr0` up to `handler_isr31`. -/
def handlerIsr (v : Nat) : List Word := (if v ∈ bareStubs then [] else [0]) ++ [BitVec.ofNat 64 v]

/-- The stack when `isr_common_stub` loads the two pointers. -/
def isrFrame (k : Kstack) (sp : Nat) (u : Regs) (v : Nat) (code : Word) : Kstack × Nat :=
  pushAll k sp (trap.map u ++ processorPushes v code ++ handlerIsr v ++ [Reg.rdi, Reg.rsi].map u)

/-- The stack when `isr_common_stub` calls `fault_handler`: what `push_registers` saves of
`rdi` and `rsi` are the pointers to the number and to the error code. -/
def isrCommonStub (addr : Nat → Word) (k : Kstack) (sp : Nat) (u : Regs) (v : Nat) (code : Word) : Kstack × Nat :=
  let frame := isrFrame k sp u v code
  let pointers := Function.update (Function.update u .rdi (addr (frame.2 + 2))) .rsi (addr (frame.2 + 3))
  pushAll frame.1 frame.2 (pushRegisters.map pointers)

/-- What `fault_handler` finds behind its two pointers. -/
def faultArguments (k : Kstack) (sp : Nat) (u : Regs) (v : Nat) (code : Word) : Word × Word :=
  let frame := isrFrame k sp u v code
  (frame.1 (frame.2 + 2), frame.1 (frame.2 + 3))

/-- The end of `isr_common_stub`. -/
def isrReturn (k : Kstack) (sp : Nat) (g : Regs) : Regs :=
  let general := popAll k sp g (popRegisters ++ [.rsi, .rdi])
  (popAll k (general.2 + 2) general.1 iretq).1

/-- An exception `v`, and the return from it, if `fault_handler` comes back. -/
def Machine.isr (addr : Nat → Word) (m : Machine) (v : Nat) (code : Word) (scratch : Nat → Word) : Option Machine :=
  let arguments := faultArguments (m.kstack m.rsp0.1) (align16 m.rsp0.2) m.regs v code
  let frame := isrCommonStub addr (m.kstack m.rsp0.1) (align16 m.rsp0.2) m.regs v code
  let k := clobber frame.1 frame.2 scratch
  if (faultHandler arguments.1 arguments.2).comesBack then
    some {m.setKstack m.rsp0.1 k with regs := isrReturn k frame.2 m.regs}
  else none

variable {addr : Nat → Word} {k : Kstack} {sp v : Nat} {u g : Regs}

theorem popRegisters_reverse : popRegisters = pushRegisters.reverse := rfl

theorem iretq_reverse : iretq = trap.reverse := rfl

/-- The words between the trap frame and the pointers, the last two of which are what
`fault_handler` gets. -/
theorem pushes_eq : processorPushes v code ++ handlerIsr v =
    (if v = 17 then [code] else []) ++ [if v ∈ bareStubs then code else 0, BitVec.ofNat 64 v] := by
  unfold processorPushes handlerIsr
  by_cases h17 : v = 17
  · rw [h17]
    rfl
  · have hsame : v ∈ errorCodes ↔ v ∈ bareStubs := by
      simp [errorCodes, bareStubs, h17]
    by_cases hv : v ∈ bareStubs
    · rw [if_pos (hsame.mpr hv), if_pos hv, if_neg h17, if_pos hv]
      rfl
    · rw [if_neg fun hc => hv (hsame.mp hc), if_neg hv, if_neg h17, if_neg hv]
      rfl

/-- Two words, but for the alignment check. -/
theorem pushes_length : (processorPushes v code ++ handlerIsr v).length = if v = 17 then 3 else 2 := by
  rw [pushes_eq, List.length_append]
  split
  · rfl
  · rfl

/-- `isr_common_stub` goes on where the processor and the stub have left the stack. -/
theorem isrFrame_eq : isrFrame k sp u v code =
    pushAll (pushAll k sp (trap.map u ++ (processorPushes v code ++ handlerIsr v))).1
      (pushAll k sp (trap.map u ++ (processorPushes v code ++ handlerIsr v))).2 ([Reg.rdi, Reg.rsi].map u) := by
  unfold isrFrame
  rw [List.append_assoc (trap.map u), pushAll_append]

theorem pushes_sp : (pushAll k sp (trap.map u ++ (processorPushes v code ++ handlerIsr v))).2 =
    sp - (5 + (processorPushes v code ++ handlerIsr v).length) := by
  rw [pushAll_sp, List.length_append, List.length_map]
  rfl

theorem isrFrame_sp (k : Kstack) (sp : Nat) (u : Regs) (v : Nat) (code : Word) :
    (isrFrame k sp u v code).2 = sp - (5 + (processorPushes v code ++ handlerIsr v).length) - 2 := by
  rw [isrFrame_eq, pushAll_sp, pushes_sp]
  rfl

theorem pushes_le (v : Nat) (code : Word) : (processorPushes v code ++ handlerIsr v).length ≤ 3 := by
  rw [pushes_length]
  split
  · exact Nat.le_refl _
  · exact Nat.le_succ _

/-- What `fault_handler` is called with lies above what it uses of the stack. -/
theorem isrCommonStub_above (hsp : 32 ≤ sp) {i : Nat} (hi : (isrFrame k sp u v code).2 ≤ i) :
    clobber (isrCommonStub addr k sp u v code).1 (isrCommonStub addr k sp u v code).2 scratch i =
      (isrFrame k sp u v code).1 i := by
  have hle := pushes_le v code
  have hframe := isrFrame_sp k sp u v code
  have hlen : pushRegisters.length = 15 := rfl
  unfold isrCommonStub clobber
  dsimp only
  rw [pushAll_sp, List.length_map, if_neg (by omega), pushAll_above _ (by rw [List.length_map]; omega) hi]

/-- The stack pointer is back where it was when the pointers were loaded, and the registers
hold what was saved, the pointers among them. -/
theorem pop_saved (hsp : 32 ≤ sp) :
    popAll (clobber (isrCommonStub addr k sp u v code).1 (isrCommonStub addr k sp u v code).2 scratch)
        (isrCommonStub addr k sp u v code).2 g popRegisters =
      (fun r => if r ∈ pushRegisters then Function.update (Function.update u .rdi
        (addr ((isrFrame k sp u v code).2 + 2))) .rsi (addr ((isrFrame k sp u v code).2 + 3)) r else g r,
        (isrFrame k sp u v code).2) := by
  have hlen : pushRegisters.length = 15 := rfl
  have hle := pushes_le v code
  have hframe := isrFrame_sp k sp u v code
  rw [popAll_clobber, popRegisters_reverse]
  unfold isrCommonStub
  dsimp only
  rw [pushAll_sp, List.length_map, popAll_pushAll _ (by omega)]

/-- The two registers pushed before the pointers were loaded. -/
theorem pop_pointers (hsp : 32 ≤ sp) :
    popAll (clobber (isrCommonStub addr k sp u v code).1 (isrCommonStub addr k sp u v code).2 scratch)
        (isrFrame k sp u v code).2 g [.rsi, .rdi] =
      (fun r => if r ∈ [Reg.rdi, .rsi] then u r else g r, (isrFrame k sp u v code).2 + 2) := by
  have hle := pushes_le v code
  have hlen : [Reg.rdi, Reg.rsi].length = 2 := rfl
  rw [popAll_congr (fun i hi _ => isrCommonStub_above hsp hi), isrFrame_sp, isrFrame_eq, pushes_sp, ← hlen]
  rw [show [Reg.rsi, Reg.rdi] = [Reg.rdi, Reg.rsi].reverse from rfl, popAll_pushAll _ (by omega), hlen]
  ext1
  · rfl
  · show sp - _ = sp - _ - 2 + 2
    omega

/-- All the general registers come back. -/
theorem pop_general (hsp : 32 ≤ sp) :
    popAll (clobber (isrCommonStub addr k sp u v code).1 (isrCommonStub addr k sp u v code).2 scratch)
        (isrCommonStub addr k sp u v code).2 g (popRegisters ++ [.rsi, .rdi]) =
      (fun r => if r ∈ pushRegisters then u r else g r, (isrFrame k sp u v code).2 + 2) := by
  rw [popAll_append, pop_saved hsp, pop_pointers hsp]
  ext1
  · funext r
    dsimp only
    by_cases hr : r ∈ [Reg.rdi, .rsi]
    · have hsaved : r ∈ pushRegisters := by
        revert r
        decide
      rw [if_pos hr, if_pos hsaved]
    · have hdi : r ≠ .rdi := fun hc => hr (by rw [hc]; decide)
      have hsi : r ≠ .rsi := fun hc => hr (by rw [hc]; decide)
      rw [if_neg hr, Function.update_of_ne hsi, Function.update_of_ne hdi]
  · rfl

/-- With two words between the trap frame and the pointers, the trap frame lies behind them. -/
theorem pop_trap (hsp : 32 ≤ sp) (hv : v ≠ 17) :
    popAll (isrFrame k sp u v code).1 ((isrFrame k sp u v code).2 + 4) g iretq =
      (fun r => if r ∈ trap then u r else g r, sp) := by
  have hlen : trap.length = 5 := rfl
  have h : (processorPushes v code ++ handlerIsr v).length = 2 := pushes_length.trans (if_neg hv)
  have hpop : (isrFrame k sp u v code).2 + 4 = sp - trap.length := by
    rw [isrFrame_sp, h]
    omega
  have habove : ∀ i, sp - trap.length ≤ i → i < sp - trap.length + iretq.length →
      (isrFrame k sp u v code).1 i = (pushAll k sp (trap.map u)).1 i := by
    intro i hi _
    have hrest : (processorPushes v code ++ (handlerIsr v ++ [Reg.rdi, .rsi].map u)).length = 4 := by
      rw [← List.append_assoc, List.length_append, h]
      rfl
    have hsp' : (pushAll k sp (trap.map u)).2 = sp - trap.length := by
      rw [pushAll_sp, List.length_map]
    rw [isrFrame, List.append_assoc, List.append_assoc, pushAll_append, pushAll_above _ (by omega) (by omega)]
  rw [hpop, popAll_congr habove, iretq_reverse, popAll_pushAll _ (by omega)]

/-- All registers come back. -/
theorem isrReturn_eq (hsp : 32 ≤ sp) (hv : v ≠ 17) :
    isrReturn (clobber (isrCommonStub addr k sp u v code).1 (isrCommonStub addr k sp u v code).2 scratch)
      (isrCommonStub addr k sp u v code).2 g = u := by
  have habove : ∀ i, (isrFrame k sp u v code).2 + 4 ≤ i → i < (isrFrame k sp u v code).2 + 4 + iretq.length →
      clobber (isrCommonStub addr k sp u v code).1 (isrCommonStub addr k sp u v code).2 scratch i =
        (isrFrame k sp u v code).1 i := fun i hi _ => isrCommonStub_above hsp (by omega)
  unfold isrReturn
  dsimp only
  rw [pop_general hsp]
  dsimp only
  rw [popAll_congr habove, pop_trap hsp hv]
  funext r
  dsimp only
  have hall : r ∈ trap ∨ r ∈ pushRegisters := by
    cases r <;> decide
  split
  · rfl
  · rename_i hr
    rw [if_pos (hall.resolve_left hr)]

theorem faultArguments_eq (hsp : 32 ≤ sp) :
    faultArguments k sp u v code = (BitVec.ofNat 64 v, if v ∈ bareStubs then code else 0) := by
  have hle := pushes_le v code
  have hptrs : ([Reg.rdi, .rsi].map u).length = 2 := rfl
  have hxs : (trap.map u ++ if v = 17 then [code] else []).length ≤ 6 := by
    rw [List.length_append, List.length_map]
    split
    · rfl
    · exact Nat.le_of_ble_eq_true rfl
  have hback : (isrFrame k sp u v code).2 + 2 =
      (pushAll k sp (trap.map u ++ (processorPushes v code ++ handlerIsr v))).2 := by
    rw [isrFrame_sp, pushes_sp]
    omega
  obtain ⟨hnumber, herror⟩ := @pushAll_last _ k sp (trap.map u ++ if v = 17 then [code] else [])
    (if v ∈ bareStubs then code else 0) (BitVec.ofNat 64 v) (by omega)
  rw [List.append_assoc, ← pushes_eq] at hnumber herror
  unfold faultArguments
  dsimp only
  rw [show (isrFrame k sp u v code).2 + 3 = (isrFrame k sp u v code).2 + 2 + 1 from rfl, hback, isrFrame_eq,
    pushAll_above _ (by omega) (Nat.le_refl _), pushAll_above _ (by omega) (Nat.le_succ _), hnumber, herror]

/-- `fault_handler` comes back from a page fault alone. -/
theorem comesBack_iff (hv : v < 32) (errCode : Word) :
    (faultHandler (BitVec.ofNat 64 v) errCode).comesBack = true ↔ v = 14 := by
  have hnumber : ∀ v < 32, (BitVec.ofNat 64 v = 14 ↔ v = 14) ∧ BitVec.ofNat 64 v < 32 := by decide
  obtain ⟨hpage, hlt⟩ := hnumber v hv
  unfold faultHandler
  by_cases h : v = 14
  · rw [if_pos (hpage.mpr h)]
    exact iff_of_true rfl h
  · rw [if_neg fun hc => h (hpage.mp hc), if_pos hlt]
    exact iff_of_false Bool.false_ne_true h

/-- What an exception comes to. -/
theorem Machine.isr_some (h : Ready m) (hv : v < 32) :
    m.isr addr v code scratch = some m' ↔ v = 14 ∧ m' = {m.setKstack m.rsp0.1 (clobber
      (isrCommonStub addr (m.kstack m.rsp0.1) (align16 m.rsp0.2) m.regs v code).1
      (isrCommonStub addr (m.kstack m.rsp0.1) (align16 m.rsp0.2) m.regs v code).2 scratch) with regs := m.regs} := by
  have hsp : 32 ≤ align16 m.rsp0.2 := by
    rw [h.rsp0, align16_rsp0]
    decide
  unfold Machine.isr
  rw [faultArguments_eq hsp]
  dsimp only
  by_cases hpage : v = 14
  · rw [if_pos ((comesBack_iff hv _).mpr hpage), isrReturn_eq hsp (by rw [hpage]; decide), Option.some.injEq, eq_comm]
    exact (and_iff_right hpage).symm
  · rw [if_neg fun hc => hpage ((comesBack_iff hv _).mp hc)]
    exact iff_of_false (fun hc => by cases hc) (fun hc => hpage hc.1)

/-- `handler_irq1`, which saves and restores like `handler_irq0` and never switches. -/
def Machine.irq1 (m : Machine) (scratch : Nat → Word) : Machine := (m.irq0 scratch).irq0Return

/-- What can happen while a task runs. -/
inductive Moment where
  | event (e : Event)
  /-- A key is pressed or released. -/
  | key (scratch : Nat → Word)
  /-- An access faults, and `page_fault` maps the page. -/
  | pageFault (code : Word) (scratch : Nat → Word)

def momentStep (addr : Nat → Word) (ret : Word) (m : Machine) : Moment → Option Machine
  | .event e => step ret m e
  | .key scratch => some (m.irq1 scratch)
  | .pageFault code scratch => m.isr addr 14 code scratch

/-- What a task can notice. -/
def Moment.noticed : Moment → Option Event
  | .event (.tick _) => none
  | .event e => some e
  | .key _ => none
  | .pageFault _ _ => none

/-- The same, but for the part of its stack that the running task does not use. -/
structure Same (m m' : Machine) : Prop where
  ready : Ready m'
  regs : m.regs = m'.regs
  running : m.running = m'.running
  top : m.top = m'.top
  rsp0 : m.rsp0 = m'.rsp0
  kernelRsp : m.kernelRsp = m'.kernelRsp
  others : ∀ t ≠ m'.running, m.kstack t = m'.kstack t
  used : ∀ i, 511 ≤ i → m.kstack m'.running i = m'.kstack m'.running i

theorem Same.refl (h : Ready m) : Same m m := ⟨h, rfl, rfl, rfl, rfl, rfl, fun _ _ => rfl, fun _ _ => rfl⟩

/-- The running task's stack may change below its end. -/
theorem Same.scratched (h : Same m m') {k : Kstack} (hk : ∀ i, 511 ≤ i → k i = m.kstack m.running i) :
    Same (m.setKstack m.running k) m' where
  ready := h.ready
  regs := h.regs
  running := h.running
  top := h.top
  rsp0 := h.rsp0
  kernelRsp := h.kernelRsp
  others := fun t ht => by
    show Function.update m.kstack m.running k t = _
    rw [Function.update_of_ne (by rw [h.running]; exact ht), h.others t ht]
  used := fun i hi => by
    show Function.update m.kstack m.running k m'.running i = _
    rw [← h.running, Function.update_self, hk i hi, h.running, h.used i hi]

/-- A handler that pushes on the stack of the running task leaves both with the same one. -/
theorem Same.pushed (h : Same m m') (words : List Word) (scratch : Nat → Word) :
    let frame := pushAll (m.kstack m.rsp0.1) (align16 m.rsp0.2) words
    let frame' := pushAll (m'.kstack m'.rsp0.1) (align16 m'.rsp0.2) words
    m.setKstack m.rsp0.1 (clobber frame.1 frame.2 scratch) =
      m'.setKstack m'.rsp0.1 (clobber frame'.1 frame'.2 scratch) := by
  have hstack : clobber (pushAll (m.kstack m'.running) 511 words).1 (511 - words.length) scratch =
      clobber (pushAll (m'.kstack m'.running) 511 words).1 (511 - words.length) scratch := by
    funext i
    unfold clobber
    split
    · rfl
    · exact pushAll_congr words h.used (by omega)
  dsimp only
  rw [pushAll_sp, pushAll_sp, h.rsp0, h.ready.rsp0, align16_rsp0]
  dsimp only
  rw [hstack]
  have hkstack : ∀ k, Function.update m.kstack m'.running k = Function.update m'.kstack m'.running k := by
    intro k
    funext t
    by_cases ht : t = m'.running
    · rw [ht, Function.update_self, Function.update_self]
    · rw [Function.update_of_ne ht, Function.update_of_ne ht, h.others t ht]
  unfold Machine.setKstack
  rw [hkstack]
  obtain ⟨_, hregs, hrunning, htop, hrsp0, hkernelRsp, _, _⟩ := h
  cases m
  cases m'
  simp only at hregs hrunning htop hrsp0 hkernelRsp
  subst hregs hrunning htop hrsp0 hkernelRsp
  rfl

theorem Same.irq0 (h : Same m m') : m.irq0 scratch = m'.irq0 scratch := by
  unfold Machine.irq0
  rw [h.regs]
  exact h.pushed _ scratch

theorem Same.idt128 (h : Same m m') : m.idt128 ret scratch = m'.idt128 ret scratch := by
  unfold Machine.idt128
  rw [h.regs]
  exact h.pushed _ scratch

theorem Same.ready_left (h : Same m m') : Ready m where
  rsp0 := by rw [h.rsp0, h.running, h.ready.rsp0]
  running := by
    rw [h.running, h.top]
    exact h.ready.running
  kernelRsp := by
    rw [h.kernelRsp, h.top]
    exact h.ready.kernelRsp

/-- A handler that has saved all registers brings them back and leaves the rest. -/
theorem Same.returned (h : Same m m') {words : List Word} {u : Regs} (hlen : words.length ≤ 511) (hu : u = m.regs) :
    let frame := pushAll (m.kstack m.rsp0.1) (align16 m.rsp0.2) words
    Same {m.setKstack m.rsp0.1 (clobber frame.1 frame.2 scratch) with regs := u} m' := by
  have hready := h.ready_left
  dsimp only
  rw [hu, hready.rsp0, align16_rsp0, pushAll_sp]
  refine h.scratched fun i hi => ?_
  unfold clobber
  rw [if_neg (by omega), pushAll_above _ hlen hi]

theorem Same.tick (h : Same m m') : Same (m.irq0 scratch).irq0Return m' := by
  have hready := h.ready_left
  have hsp : align16 (m.irq0 scratch).rsp0.2 - (trap ++ pushRegisters).length = stackOffset := by
    show align16 m.rsp0.2 - _ = _
    rw [hready.rsp0, align16_rsp0, stackOffset_eq]
  have hregs : (popAll ((m.irq0 scratch).kstack (m.irq0 scratch).rsp0.1)
      (align16 (m.irq0 scratch).rsp0.2 - (trap ++ pushRegisters).length) m.regs (popRegisters ++ iretq)).1 = m.regs := by
    rw [hsp, show (m.irq0 scratch).rsp0.1 = m.running from congrArg Prod.fst hready.rsp0]
    exact irq0_frame hready m.regs
  have hlen : ((trap ++ pushRegisters).map m.regs).length = 20 := rfl
  exact h.returned (by omega) hregs

/-- All that is pushed on the way to `fault_handler`. -/
theorem isrCommonStub_eq (addr : Nat → Word) (k : Kstack) (sp : Nat) (u : Regs) (v : Nat) (code : Word) :
    ∃ words, words.length ≤ 25 ∧ isrCommonStub addr k sp u v code = pushAll k sp words := by
  have hle := pushes_le v code
  have hlen : pushRegisters.length = 15 := rfl
  have htrap : trap.length = 5 := rfl
  rw [List.length_append] at hle
  unfold isrCommonStub isrFrame
  dsimp only
  rw [← pushAll_append]
  refine ⟨_, ?_, rfl⟩
  simp only [List.length_append, List.length_map, List.length_cons, List.length_nil]
  omega

theorem Same.isr (h : Same m m') (addr : Nat → Word) (code : Word) (scratch : Nat → Word) :
    ∃ m₁, m.isr addr 14 code scratch = some m₁ ∧ Same m₁ m' := by
  refine ⟨_, (Machine.isr_some h.ready_left (by decide)).mpr ⟨rfl, rfl⟩, ?_⟩
  obtain ⟨words, hlen, hwords⟩ := isrCommonStub_eq addr (m.kstack m.rsp0.1) (align16 m.rsp0.2) m.regs 14 code
  rw [hwords]
  exact h.returned (by omega) rfl

theorem Same.compute (h : Same m m') (regs : Regs) : Same {m with regs := regs} {m' with regs := regs} :=
  ⟨⟨h.ready.rsp0, h.ready.running, h.ready.kernelRsp⟩, rfl, h.running, h.top, h.rsp0, h.kernelRsp, h.others, h.used⟩

/-- Every event that is noticed goes the same way from both. -/
theorem Same.stepped (h : Same m m') (e : Event) (he : ∀ scratch, e ≠ .tick scratch) :
    Option.Rel Same (step ret m e) (step ret m' e) := by
  have hrest : (∀ regs, e ≠ .compute regs) → step ret m e = step ret m' e := by
    intro hne
    cases e with
    | compute regs => exact absurd rfl (hne regs)
    | tick scratch => exact absurd rfl (he scratch)
    | timer scratch next =>
      show dispatch (m.irq0 scratch) next = dispatch (m'.irq0 scratch) next
      rw [h.irq0]
    | call scratch rax =>
      show some ((m.idt128 ret scratch).idt128Return rax) = some ((m'.idt128 ret scratch).idt128Return rax)
      rw [h.idt128]
    | fork scratch pid =>
      simp only [step, h.idt128]
    | block scratch next =>
      show dispatch (m.idt128 ret scratch) next = dispatch (m'.idt128 ret scratch) next
      rw [h.idt128]
    | execve scratch entryPt next =>
      simp only [step, h.idt128]
    | exit scratch next =>
      show dispatch (m.idt128 ret scratch) next = dispatch (m'.idt128 ret scratch) next
      rw [h.idt128]
  cases e with
  | compute regs => exact .some (h.compute regs)
  | _ =>
    rw [hrest (by simp)]
    cases hs : step ret m' _ with
    | none => exact .none
    | some m₁ => exact .some (.refl (h.ready.step hs).1)

theorem noticed_some {i : Moment} {e : Event} (h : i.noticed = some e) :
    i = .event e ∧ ∀ scratch, e ≠ .tick scratch := by
  cases i with
  | event e' =>
    cases e' with
    | tick scratch => cases h
    | _ =>
      obtain rfl := Option.some.inj h
      exact ⟨rfl, by simp⟩
  | key scratch => cases h
  | pageFault code scratch => cases h

/-- What is not noticed leaves the machine as it was. -/
theorem Same.unnoticed (h : Same m m') {addr : Nat → Word} {i : Moment} (hi : i.noticed = none) :
    ∃ m₁, momentStep addr ret m i = some m₁ ∧ Same m₁ m' := by
  cases i with
  | event e =>
    cases e with
    | tick scratch => exact ⟨_, rfl, h.tick⟩
    | _ => cases hi
  | key scratch => exact ⟨_, rfl, h.tick⟩
  | pageFault code scratch => exact h.isr addr code scratch

/-- Ticks, keys and page faults, in any number and in any places of a run, change neither
what the tasks compute with nor what happens next: the run goes on as far as the run
without them, to a machine that is the same but for the part of its own stack that the
running task does not use. -/
theorem interrupts_invisible (addr : Nat → Word) (ret idleEntry sbushEntry : Word) (ms : List Moment) :
    Option.Rel Same (run (momentStep addr ret) (boot idleEntry sbushEntry) ms)
      (run (step ret) (boot idleEntry sbushEntry) (ms.filterMap Moment.noticed)) := by
  refine run_filterMap _ (fun m m' i h hi => h.unnoticed hi) (fun m m' i e h hi => ?_) ms
    (.refl (boot_ready idleEntry sbushEntry))
  obtain ⟨rfl, he⟩ := noticed_some hi
  exact h.stepped e he

end Sbnix.Context
