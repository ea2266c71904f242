import Sbnix.Context.Switch

/-! What a task finds when it runs again.

`Ready` holds of the machine between events: `tss.rsp0` is at the end of the running
task's stack, and every task's `kernel_rsp` is at the same place in its own. Events only
write the stack of the running task and that of a task being made, so a frame stays as
it is until its task is dispatched (`run_kstack`).

The timer pushes what `sys_yield` pops, in the opposite order, and a preempted task gets
every register back (`preemption_transparent`). `handler_idt128` pushes one register less,
and the return address of its call takes the last place: a task that blocks in a call
resumes with its registers moved by one (`blocked_registers_iff`). `sys_fork` makes up for
that in the frame of the child, which starts as a copy of its parent (`child_resumes_copy`). -/
namespace Sbnix.Context
open Library

variable {ret : Word} {m m' : Machine} {t next : Nat} {e : Event} {u : Regs} {scratch : Nat → Word}

/-! ### Events -/

structure Ready (m : Machine) : Prop where
  rsp0 : m.rsp0 = (m.running, kernelStackSize - 1)
  running : m.running < m.top
  kernelRsp : ∀ t < m.top, m.kernelRsp t = (t, stackOffset)

theorem Ready.newTask (h : Ready m) (k : Kstack) : Ready (m.newTask k) where
  rsp0 := h.rsp0
  running := Nat.lt_succ_of_lt h.running
  kernelRsp := fun t ht => by
    show Function.update m.kernelRsp m.top (m.top, stackOffset) t = _
    by_cases he : t = m.top
    · rw [he, Function.update_self]
    · have hlt : t < m.top := by
        have : t < m.top + 1 := ht
        omega
      rw [Function.update_of_ne he]
      exact h.kernelRsp t hlt

theorem Ready.dispatch (h : Ready m) (hd : dispatch m next = some m') : Ready m' ∧ m'.running = next := by
  unfold Context.dispatch at hd
  split at hd
  · rename_i hlt
    obtain rfl := Option.some.inj hd
    exact ⟨⟨rfl, hlt, h.kernelRsp⟩, rfl⟩
  · cases hd

/-- Handlers change the stack of the running task only. -/
theorem Ready.irq0 (h : Ready m) (scratch : Nat → Word) : Ready (m.irq0 scratch) := ⟨h.rsp0, h.running, h.kernelRsp⟩

theorem Ready.idt128 (h : Ready m) (scratch : Nat → Word) : Ready (m.idt128 ret scratch) :=
  ⟨h.rsp0, h.running, h.kernelRsp⟩

/-- Whoever is dispatched runs; the rest goes on. -/
theorem Ready.step (h : Ready m) (hs : step ret m e = some m') : Ready m' ∧ m'.running = e.next.getD m.running := by
  cases e with
  | compute regs =>
    obtain rfl := Option.some.inj hs
    exact ⟨⟨h.rsp0, h.running, h.kernelRsp⟩, rfl⟩
  | tick scratch =>
    obtain rfl := Option.some.inj hs
    exact ⟨⟨h.rsp0, h.running, h.kernelRsp⟩, rfl⟩
  | timer scratch next => exact (h.irq0 scratch).dispatch hs
  | call scratch rax =>
    obtain rfl := Option.some.inj hs
    exact ⟨⟨h.rsp0, h.running, h.kernelRsp⟩, rfl⟩
  | fork scratch pid =>
    obtain rfl := Option.some.inj hs
    have hcall : Ready (m.idt128 ret scratch) := h.idt128 scratch
    have hnew := hcall.newTask (Machine.forkFrame ((m.idt128 ret scratch).kstack (m.idt128 ret scratch).running))
    exact ⟨⟨hnew.rsp0, hnew.running, hnew.kernelRsp⟩, rfl⟩
  | block scratch next => exact (h.idt128 scratch).dispatch hs
  | execve scratch entryPt next => exact ((h.idt128 scratch).newTask _).dispatch hs
  | exit scratch next => exact (h.idt128 scratch).dispatch hs

theorem boot_ready (idleEntry sbushEntry : Word) : Ready (boot idleEntry sbushEntry) where
  rsp0 := rfl
  running := by
    show 1 < 2
    decide
  kernelRsp := fun t ht => by
    have ht' : t < 2 := ht
    have hcases : t = 0 ∨ t = 1 := by omega
    rcases hcases with rfl | rfl
    · rfl
    · rfl

/-! ### Other tasks' stacks -/

theorem irq0_kstack (h : Ready m) (ht : t ≠ m.running) : (m.irq0 scratch).kstack t = m.kstack t := by
  refine Function.update_of_ne ?_ _ _
  rw [h.rsp0]
  exact ht

theorem idt128_kstack (h : Ready m) (ht : t ≠ m.running) : (m.idt128 ret scratch).kstack t = m.kstack t := by
  refine Function.update_of_ne ?_ _ _
  rw [h.rsp0]
  exact ht

theorem newTask_kstack (k : Kstack) (ht : t < m.top) : (m.newTask k).kstack t = m.kstack t :=
  Function.update_of_ne (Nat.ne_of_lt ht) _ _

theorem dispatch_kstack (hd : dispatch m next = some m') : m'.kstack = m.kstack ∧ m'.top = m.top := by
  unfold dispatch at hd
  split at hd
  · obtain rfl := Option.some.inj hd
    exact ⟨rfl, rfl⟩
  · cases hd

theorem step_top (hs : step ret m e = some m') : m.top ≤ m'.top := by
  cases e with
  | compute regs =>
    obtain rfl := Option.some.inj hs
    exact Nat.le_refl _
  | tick scratch =>
    obtain rfl := Option.some.inj hs
    exact Nat.le_refl _
  | timer scratch next => exact Nat.le_of_eq (dispatch_kstack hs).2.symm
  | call scratch rax =>
    obtain rfl := Option.some.inj hs
    exact Nat.le_refl _
  | fork scratch pid =>
    obtain rfl := Option.some.inj hs
    exact Nat.le_succ _
  | block scratch next => exact Nat.le_of_eq (dispatch_kstack hs).2.symm
  | execve scratch entryPt next =>
    rw [(dispatch_kstack hs).2]
    exact Nat.le_succ _
  | exit scratch next => exact Nat.le_of_eq (dispatch_kstack hs).2.symm

theorem step_kstack (h : Ready m) (ht : t ≠ m.running) (hlt : t < m.top) (hs : step ret m e = some m') :
    m'.kstack t = m.kstack t := by
  cases e with
  | compute regs =>
    obtain rfl := Option.some.inj hs
    rfl
  | tick scratch =>
    obtain rfl := Option.some.inj hs
    exact irq0_kstack h ht
  | timer scratch next =>
    rw [(dispatch_kstack hs).1]
    exact irq0_kstack h ht
  | call scratch rax =>
    obtain rfl := Option.some.inj hs
    exact idt128_kstack h ht
  | fork scratch pid =>
    obtain rfl := Option.some.inj hs
    exact (newTask_kstack (m := m.idt128 ret scratch) _ hlt).trans (idt128_kstack h ht)
  | block scratch next =>
    rw [(dispatch_kstack hs).1]
    exact idt128_kstack h ht
  | execve scratch entryPt next =>
    rw [(dispatch_kstack hs).1]
    exact (newTask_kstack (m := m.idt128 ret scratch) _ hlt).trans (idt128_kstack h ht)
  | exit scratch next =>
    rw [(dispatch_kstack hs).1]
    exact idt128_kstack h ht

/-- A task that is not dispatched keeps its frame. -/
theorem run_kstack (h : Ready m) (ht : t ≠ m.running) (hlt : t < m.top) {es : List Event}
    (hes : ∀ e ∈ es, e.next ≠ some t) (hr : run (step ret) m es = some m') :
    Ready m' ∧ m'.kstack t = m.kstack t ∧ t ≠ m'.running ∧ t < m'.top := by
  induction es generalizing m with
  | nil =>
    obtain rfl := Option.some.inj hr
    exact ⟨h, rfl, ht, hlt⟩
  | cons e es ih =>
    obtain ⟨m₁, hs, hr⟩ := run_cons_some hr
    obtain ⟨h₁, hrun⟩ := h.step hs
    have hk := step_kstack h ht hlt hs
    have hlt₁ : t < m₁.top := Nat.lt_of_lt_of_le hlt (step_top hs)
    have hne : t ≠ m₁.running := by
      have hnext := hes e (List.mem_cons_self ..)
      rw [hrun]
      cases he : e.next with
      | none => exact ht
      | some next =>
        rw [he] at hnext
        exact fun hc => hnext (congrArg some hc.symm)
    obtain ⟨h', hk', hne', hlt'⟩ := ih h₁ hne hlt₁ (fun e' he' => hes e' (List.mem_cons_of_mem e he')) hr
    exact ⟨h', hk'.trans hk, hne', hlt'⟩

/-! ### Resuming -/

theorem dispatch_regs (h : Ready m) (hd : dispatch m t = some m') :
    m'.regs = (popAll (m.kstack t) stackOffset m.regs (yieldPops ++ iretq)).1 := by
  unfold dispatch at hd
  split at hd
  · rename_i hlt
    obtain rfl := Option.some.inj hd
    show (popAll (m.kstack (m.kernelRsp t).1) (m.kernelRsp t).2 m.regs (yieldPops ++ iretq)).1 = _
    rw [h.kernelRsp t hlt]
  · cases hd

/-- A task that is dispatched gets what `sys_yield` finds in its frame. -/
theorem step_regs (h : Ready m) (ht : t ≠ m.running) (hlt : t < m.top) (hs : step ret m e = some m')
    (he : e.next = some t) : ∃ g, m'.regs = (popAll (m.kstack t) stackOffset g (yieldPops ++ iretq)).1 := by
  cases e with
  | compute regs => cases he
  | tick scratch => cases he
  | timer scratch next =>
    obtain rfl := Option.some.inj he
    refine ⟨m.regs, ?_⟩
    rw [dispatch_regs (h.irq0 scratch) hs, irq0_kstack h ht]
    rfl
  | call scratch rax => cases he
  | fork scratch pid => cases he
  | block scratch next =>
    obtain rfl := Option.some.inj he
    refine ⟨m.regs, ?_⟩
    rw [dispatch_regs (h.idt128 scratch) hs, idt128_kstack h ht]
    rfl
  | execve scratch entryPt next =>
    obtain rfl := Option.some.inj he
    refine ⟨m.regs, ?_⟩
    rw [dispatch_regs ((h.idt128 scratch).newTask _) hs, newTask_kstack (m := m.idt128 ret scratch) _ hlt,
      idt128_kstack h ht]
    rfl
  | exit scratch next =>
    obtain rfl := Option.some.inj he
    refine ⟨m.regs, ?_⟩
    rw [dispatch_regs (h.idt128 scratch) hs, idt128_kstack h ht]
    rfl

/-- A frame left by the running task is what it is given when it runs next, whatever
happens in between. -/
theorem resumes (h : Ready m) {k : Kstack} (hstep : step ret m e = some m') (hnext : e.next ≠ none)
    (haway : e.next ≠ some m.running) (hk : m'.kstack m.running = k) {post : List Event} {away back : Machine}
    (hpost : ∀ e ∈ post, e.next ≠ some m.running) (hrun : run (step ret) m' post = some away) {e' : Event}
    (hback : step ret away e' = some back) (he' : e'.next = some m.running) :
    ∃ g, back.regs = (popAll k stackOffset g (yieldPops ++ iretq)).1 := by
  obtain ⟨h', hrunning⟩ := h.step hstep
  have hne : m.running ≠ m'.running := by
    rw [hrunning]
    cases he : e.next with
    | none => exact absurd he hnext
    | some next =>
      rw [he] at haway
      exact fun hc => haway (congrArg some hc.symm)
  have hlt : m.running < m'.top := Nat.lt_of_lt_of_le h.running (step_top hstep)
  obtain ⟨hready, hkept, hne', hlt'⟩ := run_kstack h' hne hlt hpost hrun
  obtain ⟨g, hg⟩ := step_regs hready hne' hlt' hback he'
  exact ⟨g, by rw [hg, hkept, hk]⟩

/-- What the kernel's code leaves below the stack pointer is not popped. -/
theorem popAll_clobber (k : Kstack) (sp : Nat) (scratch : Nat → Word) (g : Regs) (rs : List Reg) :
    popAll (clobber k sp scratch) sp g rs = popAll k sp g rs :=
  popAll_congr fun _ hlo _ => if_neg (Nat.not_lt.mpr hlo)

/-! ### The timer -/

theorem stackOffset_eq : stackOffset = 511 - (trap ++ pushRegisters).length := rfl

/-- The `kstack` of a `task_struct` is where the alignment of the processor changes
nothing. -/
theorem align16_rsp0 : align16 (kernelStackSize - 1) = 511 := rfl

/-- `sys_yield` and `iretq` pop what the processor and `push_registers` push, in the
opposite order, and no register is missing. -/
theorem yieldPops_reverse : yieldPops ++ iretq = (trap ++ pushRegisters).reverse := rfl

theorem mem_saved (r : Reg) : r ∈ trap ++ pushRegisters := by
  cases r <;> decide

theorem irq0_frame (h : Ready m) (g : Regs) :
    (popAll ((m.irq0 scratch).kstack m.running) stackOffset g (yieldPops ++ iretq)).1 = m.regs := by
  have hkstack : (m.irq0 scratch).kstack m.running =
      clobber (pushAll (m.kstack m.running) 511 ((trap ++ pushRegisters).map m.regs)).1 stackOffset scratch := by
    unfold Machine.irq0 Machine.setKstack
    dsimp only
    rw [h.rsp0, pushAll_sp, align16_rsp0, Function.update_self, List.length_map, ← stackOffset_eq]
  rw [hkstack, popAll_clobber, yieldPops_reverse, stackOffset_eq, popAll_pushAll _ (by decide)]
  funext r
  exact if_pos (mem_saved r)

/-- A task the timer takes the processor from, in any reachable state and with any
register contents, finds all of them again when it is dispatched next, whatever the
other tasks have done in the meantime. -/
theorem preemption_transparent (ret idleEntry sbushEntry : Word) (pre : List Event) (m : Machine)
    (hm : run (step ret) (boot idleEntry sbushEntry) pre = some m) (scratch : Nat → Word) (next : Nat)
    (hnext : next ≠ m.running) (post : List Event) (hpost : ∀ e ∈ post, e.next ≠ some m.running) (away : Machine)
    (haway : run (step ret) m (.timer scratch next :: post) = some away) (e : Event) (he : e.next = some m.running)
    (back : Machine) (hback : step ret away e = some back) : back.regs = m.regs := by
  have h : Ready m := invariant_all (fun _ _ _ h hs => (Ready.step h hs).1) (boot_ready idleEntry sbushEntry) hm
  obtain ⟨m', hs, hr⟩ := run_cons_some haway
  have hk : m'.kstack m.running = (m.irq0 scratch).kstack m.running := by
    rw [(dispatch_kstack hs).1]
  obtain ⟨g, hg⟩ := resumes h hs (by simp [Event.next]) (by simpa [Event.next] using hnext) hk hpost hr hback he
  rw [hg, irq0_frame h g]

/-- The shell is preempted with 7 in every register; idle runs until the next switch. -/
theorem preemption_transparent_idle :
    ∃ m away back, run (step 0xffffffff80204000) (boot 0x4000b0 0x4000b0) [.compute fun _ => 7] = some m ∧
      run (step 0xffffffff80204000) m [.timer (fun _ => 0) 0, .tick fun _ => 0] = some away ∧
      step 0xffffffff80204000 away (.timer (fun _ => 0) 1) = some back ∧ back.regs = m.regs :=
  ⟨_, _, _, rfl, rfl, rfl, preemption_transparent 0xffffffff80204000 0x4000b0 0x4000b0 [.compute fun _ => 7] _ rfl
    (fun _ => 0) 0 (by decide)
    [.tick fun _ => 0] (by simp [Event.next]) _ rfl (.timer (fun _ => 0) 1) rfl _ rfl⟩

/-! ### Calls that block -/

/-- What a blocked task resumes with: every register has moved to the place of the one
pushed before it, and the last place holds the return address. -/
def moved (ret : Word) (u : Regs) : Regs
  | .rax => u .rbx
  | .rbx => u .rcx
  | .rcx => u .rdx
  | .rdx => u .rsi
  | .rsi => u .rdi
  | .rdi => u .rbp
  | .rbp => u .r8
  | .r8 => u .r9
  | .r9 => u .r10
  | .r10 => u .r11
  | .r11 => u .r12
  | .r12 => u .r13
  | .r13 => u .r14
  | .r14 => u .r15
  | .r15 => ret
  | .rip => u .rip
  | .cs => u .cs
  | .rflags => u .rflags
  | .rsp => u .rsp
  | .ss => u .ss

/-- The stack of a task inside a call. -/
theorem idt128_running (h : Ready m) : (m.idt128 ret scratch).kstack m.running =
    clobber (pushAll (m.kstack m.running) 511 ((trap ++ idt128Pushes).map m.regs ++ [ret])).1 stackOffset scratch := by
  unfold Machine.idt128 Machine.setKstack
  dsimp only
  rw [h.rsp0, pushAll_sp, align16_rsp0, Function.update_self]
  rfl

theorem idt128_frame (h : Ready m) (g : Regs) :
    (popAll ((m.idt128 ret scratch).kstack m.running) stackOffset g (yieldPops ++ iretq)).1 = moved ret m.regs := by
  rw [idt128_running h, popAll_clobber]
  funext r
  cases r <;> rfl

/-- What a call has to leave as it was: it may return something in `rax`. -/
structure Preserved (u u' : Regs) : Prop where
  general : ∀ r ∈ idt128Pushes, u' r = u r
  rip : u' .rip = u .rip
  rsp : u' .rsp = u .rsp
  cs : u' .cs = u .cs
  ss : u' .ss = u .ss

theorem preserved_moved_iff (ret : Word) (u : Regs) :
    Preserved u (moved ret u) ↔ ∀ r ∈ idt128Pushes, u r = ret := by
  constructor
  · intro h
    have h15 : ret = u .r15 := h.general .r15 (by decide)
    have h14 : u .r15 = u .r14 := h.general .r14 (by decide)
    have h13 : u .r14 = u .r13 := h.general .r13 (by decide)
    have h12 : u .r13 = u .r12 := h.general .r12 (by decide)
    have h11 : u .r12 = u .r11 := h.general .r11 (by decide)
    have h10 : u .r11 = u .r10 := h.general .r10 (by decide)
    have h9 : u .r10 = u .r9 := h.general .r9 (by decide)
    have h8 : u .r9 = u .r8 := h.general .r8 (by decide)
    have hbp : u .r8 = u .rbp := h.general .rbp (by decide)
    have hdi : u .rbp = u .rdi := h.general .rdi (by decide)
    have hsi : u .rdi = u .rsi := h.general .rsi (by decide)
    have hdx : u .rsi = u .rdx := h.general .rdx (by decide)
    have hcx : u .rdx = u .rcx := h.general .rcx (by decide)
    have hbx : u .rcx = u .rbx := h.general .rbx (by decide)
    simp only [idt128Pushes, List.forall_mem_cons, List.not_mem_nil, false_implies, implies_true, and_true]
    rw [← hbx, ← hcx, ← hdx, ← hsi, ← hdi, ← hbp, ← h8, ← h9, ← h10, ← h11, ← h12, ← h13, ← h14, ← h15]
    simp
  · intro h
    refine ⟨fun r hr => ?_, rfl, rfl, rfl, rfl⟩
    rw [h r hr]
    simp only [idt128Pushes, List.mem_cons, List.not_mem_nil, or_false] at hr
    rcases hr with rfl | rfl | rfl | rfl | rfl | rfl | rfl | rfl | rfl | rfl | rfl | rfl | rfl | rfl
    all_goals first | rfl | exact h _ (by decide)

/-- A task that blocks in `sys_sleep` or `sys_waitpid`, in any reachable state and with
any register contents, resumes with its registers if and only if all those
`handler_idt128` pushes hold the return address of its call of `syscall_handler`. -/
theorem blocked_registers_iff (ret idleEntry sbushEntry : Word) (pre : List Event) (m : Machine)
    (hm : run (step ret) (boot idleEntry sbushEntry) pre = some m) (scratch : Nat → Word) (next : Nat)
    (hnext : next ≠ m.running) (post : List Event) (hpost : ∀ e ∈ post, e.next ≠ some m.running) (away : Machine)
    (haway : run (step ret) m (.block scratch next :: post) = some away) (e : Event) (he : e.next = some m.running)
    (back : Machine) (hback : step ret away e = some back) :
    Preserved m.regs back.regs ↔ ∀ r ∈ idt128Pushes, m.regs r = ret := by
  have h : Ready m := invariant_all (fun _ _ _ h hs => (Ready.step h hs).1) (boot_ready idleEntry sbushEntry) hm
  obtain ⟨m', hs, hr⟩ := run_cons_some haway
  have hk : m'.kstack m.running = (m.idt128 ret scratch).kstack m.running := by
    rw [(dispatch_kstack hs).1]
  obtain ⟨g, hg⟩ := resumes h hs (by simp [Event.next]) (by simpa [Event.next] using hnext) hk hpost hr hback he
  rw [hg, idt128_frame h g]
  exact preserved_moved_iff ret m.regs

/-- A task with the return address in every register is the one that would not notice. -/
theorem blocked_registers_same :
    ∃ m away back, run (step 0xffffffff80204000) (boot 0x4000b0 0x4000b0)
        [.compute fun _ => 0xffffffff80204000, .fork (fun _ => 0) 3] = some m ∧
      run (step 0xffffffff80204000) m [.block (fun _ => 0) 2] = some away ∧
      step 0xffffffff80204000 away (.exit (fun _ => 0) 1) = some back ∧ Preserved m.regs back.regs :=
  ⟨_, _, _, rfl, rfl, rfl, (blocked_registers_iff 0xffffffff80204000 0x4000b0 0x4000b0
    [.compute fun _ => 0xffffffff80204000, .fork (fun _ => 0) 3] _ rfl (fun _ => 0) 2 (by decide) [] (by simp) _ rfl
    (.exit (fun _ => 0) 1) rfl _ rfl).mpr (by decide)⟩

/-- The shell has a child, puts 1 into `rbx` and waits; the child exits, and the shell
resumes with what was in `rcx` instead. -/
theorem blocked_registers_moved :
    ∃ m away back, run (step 0xffffffff80204000) (boot 0x4000b0 0x4000b0)
        [.fork (fun _ => 0) 3, .compute fun r => if r = .rbx then 1 else 2] = some m ∧
      run (step 0xffffffff80204000) m [.block (fun _ => 0) 2] = some away ∧
      step 0xffffffff80204000 away (.exit (fun _ => 0) 1) = some back ∧ ¬ Preserved m.regs back.regs :=
  ⟨_, _, _, rfl, rfl, rfl, fun h => absurd (h.general .rbx (by decide)) (by decide)⟩

/-! ### The child of a fork -/

/-- What a child starts with. -/
def inherited (u : Regs) : Regs
  | .rax => 0
  | .rflags => 0x200286
  | r => u r

theorem preserved_inherited (u : Regs) : Preserved u (inherited u) where
  general := fun r hr => by
    simp only [idt128Pushes, List.mem_cons, List.not_mem_nil, or_false] at hr
    rcases hr with rfl | rfl | rfl | rfl | rfl | rfl | rfl | rfl | rfl | rfl | rfl | rfl | rfl | rfl
    all_goals rfl
  rip := rfl
  rsp := rfl
  cs := rfl
  ss := rfl

/-- The copies one word down, with `rax` put between the general registers and the trap
frame, are a frame for `sys_yield`. -/
theorem forkFrame_pops (h : Ready m) (g : Regs) :
    (popAll (Machine.forkFrame ((m.idt128 ret scratch).kstack m.running)) stackOffset g (yieldPops ++ iretq)).1 =
      inherited m.regs := by
  rw [idt128_running h]
  funext r
  cases r <;> rfl

theorem fork_kstack {pid : Word} (hs : step ret m (.fork scratch pid) = some m') :
    m'.kstack m.top = Machine.forkFrame ((m.idt128 ret scratch).kstack m.running) ∧ m'.top = m.top + 1 := by
  obtain rfl := Option.some.inj hs
  exact ⟨Function.update_self .., rfl⟩

/-- The child of a fork, in any reachable state and with any register contents of the
parent: dispatched for the first time, whatever happens until then, it finds the parent's
registers, and 0 in `rax`. -/
theorem child_resumes_copy (ret idleEntry sbushEntry : Word) (pre : List Event) (m : Machine)
    (hm : run (step ret) (boot idleEntry sbushEntry) pre = some m) (scratch : Nat → Word) (pid : Word)
    (post : List Event) (hpost : ∀ e ∈ post, e.next ≠ some m.top) (away : Machine)
    (haway : run (step ret) m (.fork scratch pid :: post) = some away) (e : Event) (he : e.next = some m.top)
    (back : Machine) (hback : step ret away e = some back) :
    Preserved m.regs back.regs ∧ back.regs .rax = 0 := by
  have h : Ready m := invariant_all (fun _ _ _ h hs => (Ready.step h hs).1) (boot_ready idleEntry sbushEntry) hm
  obtain ⟨m', hs, hr⟩ := run_cons_some haway
  obtain ⟨h', hrunning⟩ := h.step hs
  obtain ⟨hk, htop⟩ := fork_kstack hs
  have hne : m.top ≠ m'.running := by
    rw [hrunning]
    exact (Nat.ne_of_lt h.running).symm
  have hlt : m.top < m'.top := by
    rw [htop]
    exact Nat.lt_succ_self _
  obtain ⟨hready, hkept, hne', hlt'⟩ := run_kstack h' hne hlt hpost hr
  obtain ⟨g, hg⟩ := step_regs hready hne' hlt' hback he
  rw [hg, hkept, hk, forkFrame_pops h g]
  exact ⟨preserved_inherited m.regs, rfl⟩

/-- The shell forks with 7 in every register, and the timer dispatches the child. -/
theorem child_resumes_copy_shell :
    ∃ m away back, run (step 0xffffffff80204000) (boot 0x4000b0 0x4000b0) [.compute fun _ => 7] = some m ∧
      run (step 0xffffffff80204000) m [.fork (fun _ => 0) 3, .tick fun _ => 0] = some away ∧
      step 0xffffffff80204000 away (.timer (fun _ => 0) 2) = some back ∧
      Preserved m.regs back.regs ∧ back.regs .rax = 0 :=
  ⟨_, _, _, rfl, rfl, rfl, child_resumes_copy 0xffffffff80204000 0x4000b0 0x4000b0 [.compute fun _ => 7] _ rfl
    (fun _ => 0) 3 [.tick fun _ => 0] (by simp [Event.next]) _ rfl (.timer (fun _ => 0) 2) rfl _ rfl⟩

end Sbnix.Context
