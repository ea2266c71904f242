import Sbnix.Sched.Invariant

/-! Which tasks are queued, and under which pids.

No two queued tasks have one pid as long as `avail_pid` does not wrap (`Named`): a fork
takes the next pid, and `sys_execve` gives the caller's pid to the task that replaces
it. On that rests that waking a pid wakes the task that is meant. -/
namespace Sbnix.Sched
open Library

namespace State

/-- The tasks on a queue, as a walk along it meets them. -/
def entries (s : State) (head : Node) : List Node := walk s.links head nrTasks (s.links.next head)

def queued (s : State) : List Node := s.entries .runQueue ++ s.entries .waitQueue

end State

namespace Queues

/-- All tasks. -/
def queued (q : Queues) : List Node := q.run ++ q.wait

variable {q : Queues} {n m : Node}

/-! ### What each operation does to the tasks -/

theorem awakepid_task (q : Queues) (pid : PidT) : (q.awakepid pid).task = q.task := by
  unfold awakepid
  split
  · rfl
  · rfl

theorem awakepid_availPid (q : Queues) (pid : PidT) : (q.awakepid pid).availPid = q.availPid := by
  unfold awakepid
  split
  · rfl
  · rfl

theorem mem_queued_awakepid {pid : PidT} : n ∈ (q.awakepid pid).queued ↔ n ∈ q.queued :=
  (awakepid_perm q pid).mem_iff

theorem mem_queued_schedule : n ∈ q.schedule.queued ↔ n ∈ q.queued := by
  show n ∈ q.run.rotate 1 ++ q.wait ↔ n ∈ q.run ++ q.wait
  rw [List.mem_append, List.mem_append, List.mem_rotate]

theorem mem_queued_block (hne : q.run ≠ []) : n ∈ q.block.queued ↔ n ∈ q.queued := by
  have hperm : (q.run.erase q.current ++ q.current :: q.wait).Perm (q.run ++ q.wait) :=
    List.perm_middle.trans ((List.perm_cons_erase (q.current_mem hne)).symm.append_right q.wait)
  exact hperm.mem_iff

theorem mem_queued_delete (hnd : q.queued.Nodup) : n ∈ (q.delete m).queued ↔ n ∈ q.queued ∧ n ≠ m := by
  obtain ⟨hrun, hwait, _⟩ := List.nodup_append.mp hnd
  show n ∈ q.run.erase m ++ q.wait.erase m ↔ n ∈ q.run ++ q.wait ∧ n ≠ m
  rw [List.mem_append, List.mem_append, hrun.mem_erase_iff, hwait.mem_erase_iff]
  tauto

/-- A task goes: its parent is woken, and it is taken off its queue. -/
def remove (q : Queues) (n : Node) : Queues := (q.awakepid ((q.task n).ppid.setWidth 32)).delete n

theorem exit_eq (q : Queues) : q.exit = (q.remove q.current).schedule := rfl

theorem remove_task (q : Queues) (n : Node) : (q.remove n).task = q.task := awakepid_task ..

theorem remove_availPid (q : Queues) (n : Node) : (q.remove n).availPid = q.availPid := awakepid_availPid ..

theorem mem_queued_remove (hnd : q.queued.Nodup) : n ∈ (q.remove m).queued ↔ n ∈ q.queued ∧ n ≠ m := by
  have hnd' : (q.awakepid ((q.task m).ppid.setWidth 32)).queued.Nodup := (awakepid_perm q _).nodup_iff.mpr hnd
  rw [remove, mem_queued_delete hnd', mem_queued_awakepid]

theorem mem_queued_exit (hnd : q.queued.Nodup) : n ∈ q.exit.queued ↔ n ∈ q.queued ∧ n ≠ q.current := by
  rw [exit_eq, mem_queued_schedule, mem_queued_remove hnd]

/-- What `sys_kill` comes to. -/
theorem kill_cases (q : Queues) (pid : PidT) (sig : BitVec 32) :
    q.kill pid sig = q ∨ q.kill pid sig = q.exit ∨ ∃ n ∈ q.queued, q.kill pid sig = q.remove n := by
  unfold kill
  split
  · split
    · exact Or.inr (Or.inl rfl)
    · split
      · rename_i n hfind
        exact Or.inr (Or.inr ⟨n, List.mem_of_find?_eq_some hfind, rfl⟩)
      · exact Or.inl rfl
  · exact Or.inl rfl

theorem addHead_task (q : Queues) (n : Node) : (q.addHead n).task = q.task := by
  unfold addHead
  split
  · rfl
  · rfl

theorem addHead_availPid (q : Queues) (n : Node) : (q.addHead n).availPid = q.availPid := by
  unfold addHead
  split
  · rfl
  · rfl

theorem addHead_wait (q : Queues) (n : Node) : (q.addHead n).wait = q.wait := by
  unfold addHead
  split
  · rfl
  · rfl

theorem awakepid_wait_subset (q : Queues) (pid : PidT) : (q.awakepid pid).wait ⊆ q.wait := by
  unfold awakepid
  split
  · exact List.erase_subset
  · exact List.Subset.refl _

theorem mem_queued_addHead_of (h : n ∈ q.queued) : n ∈ (q.addHead m).queued := by
  unfold addHead
  split
  · exact List.mem_cons_of_mem m h
  · exact h

theorem mem_queued_addHead (h : n ∈ (q.addHead m).queued) : n = m ∨ n ∈ q.queued := by
  unfold addHead at h
  split at h
  · exact List.mem_cons.mp h
  · exact Or.inr h

theorem queued_addHead (hroom : q.queued.length < nrTasks) : (q.addHead m).queued = m :: q.queued := by
  unfold addHead
  rw [if_pos (by rwa [queued, List.length_append] at hroom)]
  rfl

theorem nodup_addHead (hnd : q.queued.Nodup) (hm : m ∉ q.queued) : (q.addHead m).queued.Nodup := by
  unfold addHead
  split
  · exact List.nodup_cons.mpr ⟨hm, hnd⟩
  · exact hnd

/-- The state in which the caller of `sys_execve` exits: its replacement is queued. -/
def replaced (q : Queues) : Queues :=
  ((q.fresh ⟨(q.task q.current).pid, (q.task q.current).ppid, false, 0⟩).setTask q.current
    {q.task q.current with ppid := 0}).addHead (.task q.top)

theorem execve_true (q : Queues) : q.execve true = q.replaced.exit := rfl

theorem replaced_current (q : Queues) (hne : q.run ≠ []) : q.replaced.current = q.current :=
  (addHead_current ((q.fresh _).setTask _ _) _ hne).1

theorem replaced_availPid (q : Queues) : q.replaced.availPid = q.availPid :=
  addHead_availPid ((q.fresh _).setTask _ _) _

/-- The tasks of `replaced`: the new one, the caller, and the others. -/
theorem replaced_task (q : Queues) (n : Node) : q.replaced.task n =
    if n = q.current then {q.task q.current with ppid := 0}
    else if n = .task q.top then ⟨(q.task q.current).pid, (q.task q.current).ppid, false, 0⟩
    else q.task n := by
  unfold replaced
  rw [addHead_task]
  show Function.update (Function.update q.task (.task q.top) _) q.current _ n = _
  rw [Function.update_apply, Function.update_apply]

/-- The fields `sys_sleep` writes are not those by which tasks are found. -/
theorem sleeping_names (q : Queues) (seconds : BitVec 64) (n : Node) :
    ((q.setTask q.current {q.task q.current with isSleep := true, sleepTime := seconds}).task n).pid = (q.task n).pid ∧
    ((q.setTask q.current {q.task q.current with isSleep := true, sleepTime := seconds}).task n).ppid = (q.task n).ppid := by
  by_cases hn : n = q.current
  · subst hn
    dsimp only [setTask]
    rw [Function.update_self]
    exact ⟨rfl, rfl⟩
  · dsimp only [setTask]
    rw [Function.update_of_ne hn]
    exact ⟨rfl, rfl⟩

theorem exit_task (q : Queues) : q.exit.task = q.task := remove_task ..

theorem exit_availPid (q : Queues) : q.exit.availPid = q.availPid := remove_availPid ..

end Queues

variable {s s' : State} {q q' : Queues} {op : Op}

/-! ### The queues, seen through the pointers -/

theorem Refines.entries_run (h : Refines s q) : s.entries .runQueue = q.run := by
  have := h.room
  have := h.count
  exact h.rings.run.walk_eq (by omega)

theorem Refines.entries_wait (h : Refines s q) : s.entries .waitQueue = q.wait := by
  have := h.room
  have := h.count
  exact h.rings.wait.walk_eq (by omega)

theorem Refines.queued (h : Refines s q) : s.queued = q.queued := by
  rw [State.queued, h.entries_run, h.entries_wait]
  rfl

theorem Refines.run_ne_nil (h : Refines s q) (hcall : Manned s op) (hop : op ≠ .schedule) : q.run ≠ [] := by
  have hempty := hcall hop
  rw [← Bool.not_eq_true, h.listEmpty_run] at hempty
  exact hempty

/-- A step does to the lists what it does to the pointers. With nothing on `runQueue` there is
only the timer, which does nothing. -/
theorem Refines.step (h : Refines s q) (hruns : Runs s q) (hcall : Manned s op) (hs : step s op = some s') :
    Refines s' (q.perform op) ∧ Runs s' (q.perform op) ∧ (q.run = [] → op = .schedule) := by
  by_cases hne : q.run = []
  · have hop : op = .schedule := by
      by_contra hop
      exact h.run_ne_nil hcall hop hne
    subst hop
    obtain rfl := Option.some.inj hs
    exact ⟨h.schedule.1, h.schedule.2, fun _ => rfl⟩
  · obtain ⟨s'', hs'', href⟩ := step_refines h hruns hne op
    obtain rfl := Option.some.inj (hs''.symm.trans hs)
    exact ⟨href.1, href.2, fun he => absurd he hne⟩

/-! ### Pids -/

/-- Queued tasks have different pids, all of them handed out. -/
structure Named (q : Queues) : Prop where
  positive : ∀ n ∈ q.queued, (q.task n).pid ≠ 0
  handed : ∀ n ∈ q.queued, (q.task n).pid ≤ q.availPid
  distinct : ∀ n ∈ q.queued, ∀ m ∈ q.queued, (q.task n).pid = (q.task m).pid → n = m

theorem Named.mono (h : Named q) (hsub : ∀ n ∈ q'.queued, n ∈ q.queued)
    (hpid : ∀ n ∈ q'.queued, (q'.task n).pid = (q.task n).pid) (havail : q'.availPid = q.availPid) : Named q' where
  positive := fun n hn => by
    rw [hpid n hn]
    exact h.positive n (hsub n hn)
  handed := fun n hn => by
    rw [hpid n hn, havail]
    exact h.handed n (hsub n hn)
  distinct := fun n hn m hm he => by
    rw [hpid n hn, hpid m hm] at he
    exact h.distinct n (hsub n hn) m (hsub m hm) he

/-- The child gets a pid nobody has. -/
theorem Named.fork (h : Named q) (hfresh : Node.task q.top ∉ q.queued) (hroom : q.availPid.toNat + 1 < 2 ^ 16) :
    Named q.fork := by
  have hnext : (q.availPid + 1).toNat = q.availPid.toNat + 1 := by
    rw [BitVec.toNat_add]
    show (q.availPid.toNat + 1) % 2 ^ 16 = _
    omega
  have htask : q.fork.task = Function.update q.task (.task q.top) ⟨q.availPid + 1, (q.task q.current).pid, false, 0⟩ := by
    show (Queues.addHead _ _).task = _
    rw [Queues.addHead_task]
    rfl
  have hnew : (q.fork.task (.task q.top)).pid = q.availPid + 1 := by
    rw [htask, Function.update_self]
  have hold : ∀ n ∈ q.queued, (q.fork.task n).pid = (q.task n).pid := fun n hn => by
    rw [htask, Function.update_of_ne (ne_of_mem_of_not_mem hn hfresh)]
  have hmem : ∀ n ∈ q.fork.queued, n = .task q.top ∨ n ∈ q.queued := fun n hn =>
    Queues.mem_queued_addHead (q := q.fresh ⟨q.availPid + 1, (q.task q.current).pid, false, 0⟩) hn
  -- the pids handed out before are below the new one
  have hbelow : ∀ n ∈ q.queued, (q.fork.task n).pid ≠ q.availPid + 1 := fun n hn he => by
    have hle : (q.task n).pid.toNat ≤ q.availPid.toNat := h.handed n hn
    rw [hold n hn] at he
    rw [he, hnext] at hle
    omega
  refine ⟨fun n hn => ?_, fun n hn => ?_, fun n hn m hm he => ?_⟩
  · rcases hmem n hn with rfl | hn
    · rw [hnew]
      intro hz
      rw [hz] at hnext
      have hzero : (0 : Pid).toNat = 0 := rfl
      omega
    · rw [hold n hn]
      exact h.positive n hn
  · show (q.fork.task n).pid ≤ q.availPid + 1
    rcases hmem n hn with rfl | hn
    · rw [hnew]
      exact BitVec.le_refl _
    · rw [hold n hn, BitVec.le_def, hnext]
      have hle : (q.task n).pid.toNat ≤ q.availPid.toNat := h.handed n hn
      omega
  · rcases hmem n hn with rfl | hn
    · rcases hmem m hm with rfl | hm
      · rfl
      · rw [hnew] at he
        exact absurd he.symm (hbelow m hm)
    · rcases hmem m hm with rfl | hm
      · rw [hnew] at he
        exact absurd he (hbelow n hn)
      · rw [hold n hn, hold m hm] at he
        exact h.distinct n hn m hm he

/-- The replacement has the caller's pid, and the caller is gone. -/
theorem Named.execve (h : Named q) (hnd : q.queued.Nodup) (hfresh : Node.task q.top ∉ q.queued) (hne : q.run ≠ []) :
    Named (q.execve true) := by
  have hcur : q.current ∈ q.queued := List.mem_append_left _ (q.current_mem hne)
  have hnd' : q.replaced.queued.Nodup := Queues.nodup_addHead (q := (q.fresh _).setTask _ _) hnd hfresh
  -- a task left is the replacement, or was there before and is not the caller
  have hmem : ∀ n ∈ q.replaced.exit.queued, n ≠ q.current ∧ (n = .task q.top ∨ n ∈ q.queued) := fun n hn => by
    rw [Queues.mem_queued_exit hnd', q.replaced_current hne] at hn
    exact ⟨hn.2, Queues.mem_queued_addHead (q := (q.fresh _).setTask _ _) hn.1⟩
  -- so there is one task of before for each, with the same pid
  have hold : ∀ n ∈ q.replaced.exit.queued, ∃ m ∈ q.queued, (q.replaced.exit.task n).pid = (q.task m).pid ∧
      (m = q.current ↔ n = .task q.top) ∧ (n ≠ .task q.top → m = n) := fun n hn => by
    obtain ⟨hnc, hor⟩ := hmem n hn
    rw [Queues.exit_task, q.replaced_task, if_neg hnc]
    by_cases hnew : n = .task q.top
    · rw [if_pos hnew]
      exact ⟨q.current, hcur, rfl, by simp [hnew], fun hc => absurd hnew hc⟩
    · rw [if_neg hnew]
      refine ⟨n, hor.resolve_left hnew, rfl, by simp [hnc, hnew], fun _ => rfl⟩
  have havail : q.replaced.exit.availPid = q.availPid := q.replaced.exit_availPid.trans q.replaced_availPid
  rw [Queues.execve_true]
  refine ⟨fun n hn => ?_, fun n hn => ?_, fun n hn n' hn' he => ?_⟩
  · obtain ⟨m, hm, hpid, _⟩ := hold n hn
    rw [hpid]
    exact h.positive m hm
  · obtain ⟨m, hm, hpid, _⟩ := hold n hn
    rw [hpid, havail]
    exact h.handed m hm
  · obtain ⟨m, hm, hpid, hiff, hsame⟩ := hold n hn
    obtain ⟨m', hm', hpid', hiff', hsame'⟩ := hold n' hn'
    have hmm : m = m' := h.distinct m hm m' hm' (by rw [← hpid, ← hpid', he])
    by_cases hnew : n = .task q.top
    · rw [hnew]
      exact (hiff'.mp (hmm ▸ hiff.mpr hnew)).symm
    · have hnew' : n' ≠ .task q.top := fun hc => hnew (hiff.mp (hmm ▸ hiff'.mpr hc))
      rw [← hsame hnew, ← hsame' hnew', hmm]

theorem Named.remove (h : Named q) (hnd : q.queued.Nodup) (n : Node) : Named (q.remove n) :=
  h.mono (fun _ hm => ((Queues.mem_queued_remove hnd).mp hm).1) (fun m _ => by rw [Queues.remove_task])
    (Queues.remove_availPid ..)

theorem Named.schedule (h : Named q) : Named q.schedule :=
  h.mono (fun _ hm => Queues.mem_queued_schedule.mp hm) (fun _ _ => rfl) rfl

theorem Named.block (h : Named q) (hne : q.run ≠ []) : Named q.block :=
  h.mono (fun _ hm => (Queues.mem_queued_block hne).mp hm) (fun _ _ => rfl) rfl

theorem Named.exit (h : Named q) (hnd : q.queued.Nodup) : Named q.exit := (h.remove hnd q.current).schedule

/-- The calls of processes, with room for the task `sys_execve` makes, and with fewer
than 65535 pids handed out. -/
def Legal (s : State) : Op → Prop
  | .add _ _ => False
  | .fork => s.availPid.toNat + 1 < 65535
  | .execve _ => s.numTask < nrTasks
  | .exit | .sleep _ | .waitpid _ | .awakepid _ | .kill _ _ | .schedule => True

instance (s : State) : ∀ op, Decidable (Legal s op)
  | .add _ _ => inferInstanceAs (Decidable False)
  | .fork | .execve _ => inferInstanceAs (Decidable (_ < _))
  | .exit | .sleep _ | .waitpid _ | .awakepid _ | .kill _ _ | .schedule => inferInstanceAs (Decidable True)

/-- Pids stay apart as long as `avail_pid` does not wrap. -/
theorem Named.perform (h : Named q) (href : Refines s q) (hne : q.run ≠ []) {op : Op} (hop : Legal s op) :
    Named (q.perform op) := by
  have hnd : q.queued.Nodup := href.rings.nodup
  cases op with
  | add pid ppid => exact hop.elim
  | fork =>
    refine h.fork href.notMem_top ?_
    rw [← href.availPid]
    exact Nat.lt_of_lt_of_le hop (by decide)
  | execve isFile =>
    cases isFile with
    | true => exact h.execve hnd href.notMem_top hne
    | false => exact h
  | exit => exact h.exit hnd
  | sleep seconds =>
    have hset : Named (q.setTask q.current {q.task q.current with isSleep := true, sleepTime := seconds}) :=
      h.mono (fun _ hm => hm) (fun n _ => (q.sleeping_names seconds n).1) rfl
    exact (hset.block hne).schedule
  | waitpid pid =>
    show Named (q.waitpid pid)
    unfold Queues.waitpid
    split
    · exact (h.block hne).schedule
    · exact h
  | awakepid pid =>
    exact h.mono (fun _ hm => Queues.mem_queued_awakepid.mp hm) (fun n _ => by rw [Queues.perform, Queues.awakepid_task])
      (Queues.awakepid_availPid ..)
  | kill pid sig =>
    show Named (q.kill pid sig)
    rcases q.kill_cases pid sig with he | he | ⟨n, _, he⟩
    · rw [he]
      exact h
    · rw [he]
      exact h.exit hnd
    · rw [he]
      exact h.remove hnd n
  | schedule => exact h.schedule

theorem named_boot : Named bootQueues := ⟨by decide, by decide, by decide⟩

/-- The pointers represent queues of tasks with names of their own. -/
def Live (s : State) : Prop := ∃ q, Refines s q ∧ Runs s q ∧ Named q

theorem Live.step (h : Live s) (hop : Legal s op ∧ Manned s op) (hs : step s op = some s') : Live s' := by
  obtain ⟨q, href, hruns, hnamed⟩ := h
  obtain ⟨hop, hcall⟩ := hop
  obtain ⟨href', hruns', hidle⟩ := href.step hruns hcall hs
  refine ⟨q.perform op, href', hruns', ?_⟩
  by_cases hne : q.run = []
  · obtain rfl := hidle hne
    exact hnamed.schedule
  · exact hnamed.perform href hne hop

end Sbnix.Sched
