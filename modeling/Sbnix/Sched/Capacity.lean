import Sbnix.Sched.Pids

/-! Creating a task when the table is full.

`addTasktoQueueHead` refuses a task when `NR_TASKS` are queued, and neither `sys_fork` nor
`sys_execve` looks at what it returns. `sys_fork` then reports the pid of a child that is
on no queue; `sys_execve` goes on to remove its caller, and nothing is left of the
process. `creation_matches_iff` says when their reports are true. -/
namespace Sbnix.Sched
open Library

variable {s : State} {q : Queues}

/-- The tasks of `s'` that are queued there and were not in `s`. -/
def isNew (s s' : State) (n : Node) : Prop := n ∈ s'.queued ∧ n ∉ s.queued

/-- If `sys_fork` returns an id, there is one new task, of that pid, a child of the
caller. -/
def ForkMatches (s : State) : Prop :=
  ∀ c, s.sysFork.ret = some c → c ≠ 0 →
    (∃! n, isNew s s.sysFork.state n) ∧
    (∀ n, isNew s s.sysFork.state n → n ∈ s.sysFork.state.entries .runQueue ∧
      ((s.sysFork.state.task n).pid.toNat : Int) = c ∧
      (s.sysFork.state.task n).ppid = (s.task s.getCurrentTask).pid) ∧
    s.sysFork.state.numTask = s.numTask + 1

/-- A task with the pid and the parent of the running one, as they are in `s`. -/
def Stands (s s' : State) (n : Node) : Prop :=
  n ∈ s'.queued ∧ (s'.task n).pid = (s.task s.getCurrentTask).pid ∧ (s'.task n).ppid = (s.task s.getCurrentTask).ppid

/-- A `sys_execve` that finds its file leaves one task in the place of the caller. -/
def ExecveMatches (s : State) : Prop :=
  ∃ r, s.sysExecve true = some r ∧ (∃! n, Stands s r.state n) ∧ r.state.numTask = s.numTask

namespace Queues
variable {n : Node}

theorem run_addHead (h : q.run.length + q.wait.length < nrTasks) : (q.addHead n).run = n :: q.run := by
  rw [addHead, if_pos h]

theorem queued_addHead_full (h : ¬ q.run.length + q.wait.length < nrTasks) : (q.addHead n).queued = q.queued := by
  rw [addHead, if_neg h]

/-- One task fewer. -/
theorem length_queued_exit (hnd : q.queued.Nodup) (hnd' : q.exit.queued.Nodup) (hne : q.run ≠ []) :
    q.exit.queued.length + 1 = q.queued.length := by
  have hcur : q.current ∈ q.queued := List.mem_append_left _ (q.current_mem hne)
  have hperm : q.exit.queued.Perm (q.queued.erase q.current) :=
    (List.perm_ext_iff_of_nodup hnd' (hnd.erase _)).mpr fun n => by
      rw [mem_queued_exit hnd, hnd.mem_erase_iff, and_comm]
  rw [hperm.length_eq, List.length_erase_of_mem hcur]
  exact Nat.succ_pred_eq_of_pos (List.length_pos_of_mem hcur)

end Queues

/-! ### `sys_fork` -/

theorem sysFork_ret (s : State) : s.sysFork.ret = some ((s.availPid + 1).toNat : Int) := by
  show some ((((s.newTask.2).addTasktoQueueHead s.newTask.1).2.availPid + 1).toNat : Int) = _
  rw [State.addHead_availPid]
  rfl

theorem queued_length (h : Refines s q) : q.queued.length = s.numTask := by
  rw [Queues.queued, List.length_append, h.count]

theorem fork_queued (h : Refines s q) (hroom : s.numTask < nrTasks) : q.fork.queued = .task q.top :: q.queued := by
  rw [← queued_length h] at hroom
  exact Queues.queued_addHead (q := q.fresh _) hroom

theorem fork_full (h : Refines s q) (hfull : ¬ s.numTask < nrTasks) : q.fork.queued = q.queued := by
  rw [h.count] at hfull
  exact Queues.queued_addHead_full (q := q.fresh _) hfull

theorem fork_task (q : Queues) : q.fork.task (.task q.top) = ⟨q.availPid + 1, (q.task q.current).pid, false, 0⟩ := by
  show (Queues.addHead (q.fresh _) _).task _ = _
  rw [Queues.addHead_task]
  exact Function.update_self ..

theorem forkMatches_iff (h : Refines s q) (hruns : Runs s q) (hne : q.run ≠ []) :
    ForkMatches s ↔ s.numTask < nrTasks ∨ s.availPid = BitVec.allOnes 16 := by
  have h' := (h.sysFork hruns hne).1
  have hnew : ∀ n, isNew s s.sysFork.state n ↔ n ∈ q.fork.queued ∧ n ∉ q.queued := fun n => by
    rw [isNew, h'.queued, h.queued]
  constructor
  · intro hm
    by_contra hcon
    obtain ⟨hfull, havail⟩ := not_or.mp hcon
    have hc : ((s.availPid + 1).toNat : Int) ≠ 0 := by
      intro hz
      refine havail (BitVec.eq_of_toNat_eq ?_)
      have hlt := s.availPid.isLt
      have hsum : (s.availPid + 1).toNat = 0 := by exact_mod_cast hz
      rw [BitVec.toNat_add] at hsum
      have hone : (1 : Pid).toNat = 1 := rfl
      rw [hone] at hsum
      rw [BitVec.toNat_allOnes]
      omega
    obtain ⟨n, hn, _⟩ := (hm _ (sysFork_ret s) hc).1
    rw [hnew, fork_full h hfull] at hn
    exact hn.2 hn.1
  · intro hor c hc hc0
    rw [sysFork_ret] at hc
    obtain rfl := Option.some.inj hc
    have hroom : s.numTask < nrTasks := by
      refine hor.resolve_right fun ha => hc0 ?_
      rw [ha]
      rfl
    have hfresh : Node.task q.top ∉ q.queued := h.notMem_top
    have honly : ∀ n, isNew s s.sysFork.state n ↔ n = .task q.top := fun n => by
      rw [hnew, fork_queued h hroom, List.mem_cons]
      constructor
      · rintro ⟨hn | hn, hno⟩
        · exact hn
        · exact absurd hn hno
      · rintro rfl
        exact ⟨Or.inl rfl, hfresh⟩
    refine ⟨⟨.task q.top, (honly _).mpr rfl, fun m hm => (honly m).mp hm⟩, fun n hn => ?_, ?_⟩
    · obtain rfl := (honly n).mp hn
      have hrun : q.fork.run = .task q.top :: q.run := by
        rw [h.count] at hroom
        exact Queues.run_addHead (q := q.fresh _) hroom
      rw [h'.entries_run, h'.task, fork_task, hrun, h.task, h.current, h.availPid]
      exact ⟨List.mem_cons_self .., rfl, rfl⟩
    · rw [← queued_length h', fork_queued h hroom, List.length_cons, queued_length h]

/-! ### `sys_execve` -/

/-- Another task with the pid and the parent of the running one. -/
def Doubled (s : State) : Prop :=
  ∃ n ∈ s.queued, n ≠ s.getCurrentTask ∧ (s.task n).pid = (s.task s.getCurrentTask).pid ∧
    (s.task n).ppid = (s.task s.getCurrentTask).ppid

theorem execve_state (h : Refines s q) (hruns : Runs s q) (hne : q.run ≠ []) :
    ∃ r, s.sysExecve true = some r ∧ Refines r.state q.replaced.exit := by
  obtain ⟨r, hr, h', _⟩ := h.sysExecve hruns hne true
  exact ⟨r, hr, h'⟩

/-- Whoever is queued after a `sys_execve` that found its file. -/
theorem mem_replaced_exit (h : Refines s q) (hne : q.run ≠ []) (n : Node) :
    n ∈ q.replaced.exit.queued ↔ n ∈ q.replaced.queued ∧ n ≠ q.current := by
  have hnd : q.replaced.queued.Nodup := Queues.nodup_addHead (q := (q.fresh _).setTask _ _) h.rings.nodup h.notMem_top
  rw [Queues.mem_queued_exit hnd, q.replaced_current hne]

/-- The caller is gone, and its replacement has been queued or not. -/
theorem execve_numTask (h : Refines s q) (hne : q.run ≠ []) {s' : State} (h' : Refines s' q.replaced.exit) :
    s'.numTask = s.numTask ↔ s.numTask < nrTasks := by
  have hnd : q.replaced.queued.Nodup := Queues.nodup_addHead (q := (q.fresh _).setTask _ _) h.rings.nodup h.notMem_top
  have hne' : q.replaced.run ≠ [] := (Queues.addHead_current ((q.fresh _).setTask _ _) _ hne).2
  have hlen := Queues.length_queued_exit hnd h'.rings.nodup hne'
  have hpos := List.length_pos_of_mem (q.current_mem hne)
  have hcount := h.count
  rw [queued_length h'] at hlen
  by_cases hroom : s.numTask < nrTasks
  · have hlong : q.replaced.queued = .task q.top :: q.queued := by
      rw [← queued_length h] at hroom
      exact Queues.queued_addHead (q := (q.fresh _).setTask _ _) hroom
    rw [hlong, List.length_cons, queued_length h] at hlen
    exact ⟨fun _ => hroom, fun _ => Nat.succ.inj hlen⟩
  · have hsame : q.replaced.queued = q.queued := by
      rw [h.count] at hroom
      exact Queues.queued_addHead_full (q := (q.fresh _).setTask _ _) hroom
    rw [hsame, queued_length h] at hlen
    exact ⟨fun he => by omega, fun hr => absurd hr hroom⟩

theorem execveMatches_iff (h : Refines s q) (hruns : Runs s q) (hne : q.run ≠ []) :
    ExecveMatches s ↔ s.numTask < nrTasks ∧ ¬ Doubled s := by
  obtain ⟨r, hr, h'⟩ := execve_state h hruns hne
  have hcur : q.current ∈ q.queued := List.mem_append_left _ (q.current_mem hne)
  have hnew : (Node.task q.top) ≠ q.current := (ne_of_mem_of_not_mem hcur h.notMem_top).symm
  have hnum := execve_numTask h hne h'
  have hmatch : ExecveMatches s ↔ s.numTask < nrTasks ∧ ∃! n, Stands s r.state n := by
    unfold ExecveMatches
    rw [hr]
    constructor
    · rintro ⟨r', hr', hone, hsame⟩
      obtain rfl := Option.some.inj hr'
      exact ⟨hnum.mp hsame, hone⟩
    · rintro ⟨hroom, hone⟩
      exact ⟨r, rfl, hone, hnum.mpr hroom⟩
  rw [hmatch]
  refine and_congr_right fun hroom => ?_
  have hqueued : q.replaced.queued = .task q.top :: q.queued := by
    rw [← queued_length h] at hroom
    exact Queues.queued_addHead (q := (q.fresh _).setTask _ _) hroom
  have htask : ∀ n, n ≠ q.current → r.state.task n =
      if n = .task q.top then ⟨(q.task q.current).pid, (q.task q.current).ppid, false, 0⟩ else q.task n := fun n hn => by
    rw [h'.task, Queues.exit_task, q.replaced_task, if_neg hn]
  -- the replacement, and whoever stood beside the caller before
  have hstands : ∀ n, Stands s r.state n ↔ n = .task q.top ∨ (n ∈ s.queued ∧ n ≠ s.getCurrentTask ∧
      (s.task n).pid = (s.task s.getCurrentTask).pid ∧ (s.task n).ppid = (s.task s.getCurrentTask).ppid) := fun n => by
    unfold Stands
    rw [h'.queued, mem_replaced_exit h hne, hqueued, List.mem_cons, h.queued, h.current, h.task]
    by_cases hn : n = .task q.top
    · subst hn
      rw [htask _ hnew, if_pos rfl]
      exact ⟨fun _ => Or.inl rfl, fun _ => ⟨⟨Or.inl rfl, hnew⟩, rfl, rfl⟩⟩
    · by_cases hnc : n = q.current
      · exact ⟨fun hs => absurd hnc hs.1.2, fun hs => absurd hnc (hs.resolve_left hn).2.1⟩
      · rw [htask n hnc, if_neg hn]
        tauto
  constructor
  · rintro ⟨m, _, hone⟩ ⟨n, hn, hrest⟩
    have hm : Node.task q.top = m := hone _ ((hstands _).mpr (Or.inl rfl))
    have hnm : n = m := hone n ((hstands n).mpr (Or.inr ⟨hn, hrest⟩))
    rw [h.queued, hnm, ← hm] at hn
    exact h.notMem_top hn
  · intro hsingle
    refine ⟨.task q.top, (hstands _).mpr (Or.inl rfl), fun n hn => ?_⟩
    exact ((hstands n).mp hn).resolve_right fun hn => hsingle ⟨n, hn⟩

/-! ### Both -/

/-- In every well-formed state: the id that `sys_fork` reports is that of a new task on
`runQueue` if and only if there was room for one (or the id is 0, as `avail_pid` wraps),
and `sys_execve` leaves one task in the caller's place if and only if there was room for
it (and no other task has the caller's pid and parent). -/
theorem creation_matches_iff (s : State) (q : Queues) (h : Refines s q) (hruns : Runs s q) (hne : q.run ≠ []) :
    (ForkMatches s ↔ s.numTask < nrTasks ∨ s.availPid = BitVec.allOnes 16) ∧
    (ExecveMatches s ↔ s.numTask < nrTasks ∧ ¬ Doubled s) :=
  ⟨forkMatches_iff h hruns hne, execveMatches_iff h hruns hne⟩

/-- After boot there is room. -/
theorem creation_matches_boot : ForkMatches State.boot ∧ ExecveMatches State.boot := by
  obtain ⟨hfork, hexecve⟩ := creation_matches_iff State.boot bootQueues boot_refines boot_runs (by decide)
  refine ⟨hfork.mpr (Or.inl (by decide)), hexecve.mpr ⟨by decide, ?_⟩⟩
  rintro ⟨n, hn, hother, hpid, _⟩
  have hq : State.boot.queued = bootQueues.queued := boot_refines.queued
  rw [hq] at hn
  exact hother (named_boot.distinct n hn _ (by decide) hpid)

/-- From boot, forks until the table is full. -/
theorem forks_fill (k : Nat) (hk : k + 2 ≤ nrTasks) :
    ∃ s q, run step State.boot (List.replicate k .fork) = some s ∧ Refines s q ∧ Runs s q ∧ q.run ≠ [] ∧
      s.numTask = k + 2 ∧ s.availPid.toNat = k + 2 := by
  induction k with
  | zero => exact ⟨State.boot, bootQueues, rfl, boot_refines, boot_runs, by decide, rfl, rfl⟩
  | succ k ih =>
    obtain ⟨s, q, hs, h, hruns, hne, hnum, havail⟩ := ih (by omega)
    obtain ⟨h', hruns'⟩ := h.sysFork hruns hne
    have hroom : s.numTask < nrTasks := by omega
    refine ⟨s.sysFork.state, q.fork, ?_, h', hruns', ?_, ?_, ?_⟩
    · rw [List.replicate_succ', run_append, hs]
      rfl
    · exact (Queues.addHead_current (q.fresh _) _ hne).2
    · rw [← queued_length h', fork_queued h hroom, List.length_cons, queued_length h, hnum]
    · rw [h'.availPid]
      show (q.availPid + 1).toNat = _
      rw [← h.availPid, BitVec.toNat_add, havail]
      show (k + 2 + 1) % 65536 = _
      have : nrTasks = 128 := rfl
      omega

/-- The shell forks 126 times. The next fork returns 129, and the table is as it was; the
next `sys_execve` removes the shell. -/
theorem creation_lost : ∃ s, run step State.boot (List.replicate 126 .fork) = some s ∧
    s.sysFork.ret = some 129 ∧ s.sysFork.state.numTask = s.numTask ∧ ¬ ForkMatches s ∧ ¬ ExecveMatches s := by
  obtain ⟨s, q, hs, h, hruns, hne, hnum, havail⟩ := forks_fill 126 (by decide)
  have hfull : ¬ s.numTask < nrTasks := by
    rw [hnum]
    decide
  have havail' : s.availPid = 128 := BitVec.eq_of_toNat_eq havail
  refine ⟨s, hs, ?_, ?_, fun hm => ?_, fun hm => ?_⟩
  · rw [sysFork_ret, havail']
    rfl
  · rw [← queued_length (h.sysFork hruns hne).1, fork_full h hfull, queued_length h]
  · rcases (forkMatches_iff h hruns hne).mp hm with hroom | hwrap
    · exact hfull hroom
    · rw [havail'] at hwrap
      exact absurd hwrap (by decide)
  · exact hfull ((execveMatches_iff h hruns hne).mp hm).1

end Sbnix.Sched
