import Sbnix.Sched.Fairness
import Sbnix.Sched.Timer

/-! The system calls that reach the queues (`syscall_handler` of `sys/syscall.c`).

`sys_kill` takes any task off the queues, and libc and the shell have a `kill`, but the switch
of `syscall_handler` has no case for `SYS_kill`: what a program can do to the queues is less
than what the functions of `sys/sched.c` can. In every run of system calls, of any numbers, and
of the timer, a task leaves the queues by its own exit or its own `execve` of a file and in no other
way (`leaves_iff`).

A call is made by the running task; idle makes none. A tick, every eighteenth one, goes through `awake` first,
which need not return; every call does, or another task is dispatched. -/
namespace Sbnix.Sched
open Library

/-! ### The switch -/

/-- What a case of `syscall_handler` does to the queues, for `s_cal_no` and `param_1`: `SYS_exit`, `SYS_fork`,
`SYS_execve`, where `isFile` is the answer of `check_file`, `SYS_wait4` and `SYS_nanosleep`. The others have no
part in them, and a number without a case does nothing at all. -/
def syscallHandler (sCalNo param1 : BitVec 64) (isFile : Bool) : Option Op :=
  if sCalNo = 60 then some .exit
  else if sCalNo = 57 then some .fork
  else if sCalNo = 59 then some (.execve isFile)
  else if sCalNo = 61 then some (.waitpid (param1.setWidth 32))
  else if sCalNo = 35 then some (.sleep param1)
  else none

/-- A system call of the running task, or an eighteenth tick, with some rounds of the loop of `awake`, and
`scan_flag` set if a line is being typed. -/
inductive Move where
  | syscall (sCalNo param1 : BitVec 64) (isFile : Bool)
  | timer (fuel : Nat) (scanFlag : Bool)

/-- `awake(); if(!scan_flag) schedule();` -/
def callTimer (s : State) (fuel : Nat) (scanFlag : Bool) : Option State :=
  (s.awake fuel).map fun s => if scanFlag then s else s.schedule

def moveStep (s : State) : Move → Option State
  | .syscall sCalNo param1 isFile => (syscallHandler sCalNo param1 isFile).elim (some s) (step s)
  | .timer fuel scanFlag => callTimer s fuel scanFlag

/-- Idle makes no system call. -/
def Move.Allowed (s : State) : Move → Prop
  | .syscall _ _ _ => s.running ≠ State.idle
  | .timer _ _ => True

/-- The task calls `exit`, or `execve` with a file. -/
def Move.Leaves (n : Node) (s : State) : Move → Prop
  | .syscall sCalNo _ isFile => s.running = n ∧ (sCalNo = 60 ∨ sCalNo = 59 ∧ isFile = true)
  | .timer _ _ => False

section
variable {s s' : State} {n : Node} {m : Move} {op : Op} {sCalNo param1 : BitVec 64} {isFile : Bool}

/-! ### A call -/

/-- The operations that programs have. -/
theorem syscallHandler_cases (h : syscallHandler sCalNo param1 isFile = some op) :
    (sCalNo = 60 ∧ op = .exit) ∨ (sCalNo = 59 ∧ op = .execve isFile) ∨
      (sCalNo ≠ 60 ∧ sCalNo ≠ 59 ∧ (op = .fork ∨ (∃ pid, op = .waitpid pid) ∨ ∃ seconds, op = .sleep seconds)) := by
  unfold syscallHandler at h
  split_ifs at h with hexit hfork hexecve hwait hsleep
  · exact Or.inl ⟨hexit, (Option.some.inj h).symm⟩
  · exact Or.inr (Or.inr ⟨hexit, by rw [hfork]; decide, Or.inl (Option.some.inj h).symm⟩)
  · exact Or.inr (Or.inl ⟨hexecve, (Option.some.inj h).symm⟩)
  · exact Or.inr (Or.inr ⟨hexit, hexecve, Or.inr (Or.inl ⟨_, (Option.some.inj h).symm⟩)⟩)
  · exact Or.inr (Or.inr ⟨hexit, hexecve, Or.inr (Or.inr ⟨_, (Option.some.inj h).symm⟩)⟩)

/-- The two calls that end a task have their cases. -/
theorem syscallHandler_none (h : syscallHandler sCalNo param1 isFile = none) : sCalNo ≠ 60 ∧ sCalNo ≠ 59 := by
  constructor
  · rintro rfl
    cases h
  · rintro rfl
    cases h

/-- No program kills. -/
theorem syscall_allowed (h : syscallHandler sCalNo param1 isFile = some op) (hrunning : s.running ≠ State.idle) :
    Sched.Allowed s op ∧ ∀ pid sig, op ≠ .kill pid sig := by
  obtain ⟨_, rfl⟩ | ⟨_, rfl⟩ | ⟨_, _, rfl | ⟨pid, rfl⟩ | ⟨seconds, rfl⟩⟩ := syscallHandler_cases h
  all_goals exact ⟨hrunning, fun pid sig hc => by cases hc⟩

/-- The task leaves just when the operation is its own exit or replacement. -/
theorem syscall_leaves_iff (h : syscallHandler sCalNo param1 isFile = some op) :
    (Move.syscall sCalNo param1 isFile).Leaves n s ↔ s.running = n ∧ (op = .exit ∨ op = .execve true) := by
  refine and_congr_right fun _ => ?_
  obtain ⟨hexit, rfl⟩ | ⟨hexecve, rfl⟩ | ⟨hexit, hexecve, hop⟩ := syscallHandler_cases h
  · exact iff_of_true (Or.inl hexit) (Or.inl rfl)
  · subst hexecve
    have hno : ¬ (59 : BitVec 64) = 60 := by decide
    have heq : Op.execve isFile = .exit ∨ Op.execve isFile = .execve true ↔ isFile = true := by simp
    rw [heq]
    exact ⟨fun hc => hc.elim (fun hc => absurd hc hno) And.right, fun hfile => Or.inr ⟨rfl, hfile⟩⟩
  · refine iff_of_false (fun hc => hc.elim hexit fun hc => hexecve hc.1) ?_
    obtain rfl | ⟨pid, rfl⟩ | ⟨seconds, rfl⟩ := hop
    all_goals exact fun hc => by obtain hc | hc := hc <;> cases hc

/-- One operation that is no kill. -/
theorem Represented.leaves (hs : Represented s) (hop : Sched.Allowed s op) (hkill : ∀ pid sig, op ≠ .kill pid sig)
    (hn : n ∈ s.queued) : ∃ s', Sched.step s op = some s' ∧ Represented s' ∧
      (n ∉ s'.queued ↔ s.running = n ∧ (op = .exit ∨ op = .execve true)) := by
  obtain ⟨s', hstep, hs'⟩ := hs.step hop
  have hcall := hs.manned op
  obtain ⟨q, href, hruns, hidle⟩ := hs
  have hne := List.ne_nil_of_mem hidle
  obtain ⟨href', _, _⟩ := href.step hruns hcall hstep
  have hnd : q.queued.Nodup := href.rings.nodup
  rw [href.queued] at hn
  refine ⟨s', hstep, hs', ?_⟩
  rw [href'.queued, hruns hne]
  constructor
  · intro hgone
    by_contra hstays
    refine hgone (Queues.stays_queued hnd href.notMem_top hne hn (fun hop hcur => hstays ⟨hcur.symm, hop⟩) ?_)
    exact fun pid sig hc => absurd hc (hkill pid sig)
  · rintro ⟨rfl, rfl | rfl⟩ hmem
    · exact ((Queues.mem_queued_exit hnd).mp hmem).2 rfl
    · have hnd' : q.replaced.queued.Nodup := Queues.nodup_addHead (q := (q.fresh _).setTask _ _) hnd href.notMem_top
      refine ((Queues.mem_queued_exit hnd').mp hmem).2 ?_
      rw [q.replaced_current hne]

/-! ### A tick -/

/-- When `awake` returns the queues are as they were. -/
theorem Refines.awake {q : Queues} {fuel : Nat} (h : Refines s q) (hs : s.awake fuel = some s') :
    Refines s' {q with task := s'.task} ∧ s'.running = s.running := by
  obtain rfl | rfl := awake_returns h.rings hs
  · exact ⟨{ h with task := rfl }, rfl⟩
  · exact ⟨{ h with task := rfl }, rfl⟩

/-- A tick takes no task off the queues. -/
theorem Represented.callTimer {fuel : Nat} {scanFlag : Bool} (hs : Represented s)
    (hstep : Sched.callTimer s fuel scanFlag = some s') : Represented s' ∧ ∀ n, n ∈ s'.queued ↔ n ∈ s.queued := by
  obtain ⟨q, h, hruns, hidle⟩ := hs
  obtain ⟨t, ht, rfl⟩ := Option.map_eq_some_iff.mp hstep
  obtain ⟨h', hrunning⟩ := h.awake ht
  have hruns' : Runs t {q with task := t.task} := fun hne => hrunning.trans (hruns hne)
  cases scanFlag with
  | true =>
    refine ⟨⟨_, h', hruns', hidle⟩, fun n => ?_⟩
    show n ∈ t.queued ↔ _
    rw [h'.queued, h.queued]
    rfl
  | false =>
    obtain ⟨hsched, hruns''⟩ := h'.schedule
    refine ⟨⟨_, hsched, hruns'', Queues.mem_schedule hidle⟩, fun n => ?_⟩
    show n ∈ t.schedule.queued ↔ _
    rw [hsched.queued, h.queued]
    exact Queues.mem_queued_schedule

/-! ### Any move -/

theorem Represented.moveStep (hs : Represented s) (hm : m.Allowed s) (hstep : Sched.moveStep s m = some s') :
    Represented s' ∧ ∀ n ∈ s.queued, n ∉ s'.queued ↔ m.Leaves n s := by
  cases m with
  | timer fuel scanFlag =>
    obtain ⟨hs', hsame⟩ := hs.callTimer hstep
    exact ⟨hs', fun n hn => iff_of_false (not_not.mpr ((hsame n).mpr hn)) id⟩
  | syscall sCalNo param1 isFile =>
    cases hop : syscallHandler sCalNo param1 isFile with
    | none =>
      rw [Sched.moveStep, hop] at hstep
      obtain rfl := Option.some.inj hstep
      obtain ⟨hexit, hexecve⟩ := syscallHandler_none hop
      exact ⟨hs, fun n hn => iff_of_false (not_not.mpr hn) fun hc => hc.2.elim hexit fun hc => hexecve hc.1⟩
    | some op =>
      rw [Sched.moveStep, hop] at hstep
      obtain ⟨hallowed, hkill⟩ := syscall_allowed hop hm
      refine ⟨?_, fun n hn => ?_⟩
      · obtain ⟨t, ht, hrep⟩ := hs.step hallowed
        obtain rfl := Option.some.inj (ht.symm.trans hstep)
        exact hrep
      · obtain ⟨t, ht, _, hleaves⟩ := hs.leaves hallowed hkill hn
        obtain rfl := Option.some.inj (ht.symm.trans hstep)
        exact hleaves.trans (syscall_leaves_iff hop).symm

/-- Every call comes to an end. -/
theorem Represented.moves (hs : Represented s) (hm : m.Allowed s) :
    (∃ s', Sched.moveStep s m = some s') ∨ ∃ fuel scanFlag, m = .timer fuel scanFlag ∧ s.awake fuel = none := by
  cases m with
  | timer fuel scanFlag =>
    cases hawake : s.awake fuel with
    | none => exact Or.inr ⟨fuel, scanFlag, rfl, hawake⟩
    | some t => exact Or.inl ⟨_, by rw [Sched.moveStep, Sched.callTimer, hawake, Option.map_some]⟩
  | syscall sCalNo param1 isFile =>
    left
    cases hop : syscallHandler sCalNo param1 isFile with
    | none => exact ⟨s, by rw [Sched.moveStep, hop]; rfl⟩
    | some op =>
      obtain ⟨t, ht, _⟩ := hs.step (syscall_allowed hop hm).1
      exact ⟨t, by rw [Sched.moveStep, hop]; exact ht⟩

end

end Sbnix.Sched
