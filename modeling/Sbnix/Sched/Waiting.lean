import Sbnix.Sched.Pids

/-! Waiting for a process.

The wait queue does not record what its tasks wait for: `sys_exit` wakes the first one
that has the pid of the exiting task's parent. `Traced` adds to the scheduler what the
kernel forgets, the `sys_waitpid` call each task is blocked in.

A parent is never left waiting for a child that is gone (`no_lost_wakeup`), unless idle makes
calls: with nothing on `runQueue` these splice the two queues (`wakeup_lost`). But it may
be woken by another child than the one it has named, and `waits_for_named_iff` is the
condition under which that does not happen. -/
namespace Sbnix.Sched
open Library

/-- A call of `sys_waitpid`: the pid it names, and whether the task found under it is a
child of the caller. -/
structure Wait where
  pid : PidT
  child : Bool
  deriving DecidableEq

namespace State

/-- The task `sys_waitpid` finds. -/
def findPid (s : State) (pid : PidT) : Option Node :=
  match s.listForEachEntry .runQueue (s.hasPid pid) with
  | some (some n) => some n
  | _ => (s.listForEachEntry .waitQueue (s.hasPid pid)).join

def isChild (s : State) (pid : PidT) : Bool :=
  (s.findPid pid).any fun n => (s.task n).ppid == (s.task s.getCurrentTask).pid

end State

structure Traced where
  state : State
  waiting : Node → Option Wait

def Traced.boot : Traced := ⟨State.boot, fun _ => none⟩

/-- What the running task asks for when it goes to sleep. -/
def record (t : Traced) : Op → Node → Option Wait
  | .waitpid pid => Function.update t.waiting t.state.getCurrentTask (some ⟨pid, t.state.isChild pid⟩)
  | .sleep _ => Function.update t.waiting t.state.getCurrentTask none
  | _ => t.waiting

def tracedStep (t : Traced) (op : Op) : Option Traced := (step t.state op).map fun s => ⟨s, record t op⟩

variable {s s' : State} {q : Queues} {t t' : Traced} {n m : Node} {op : Op} {w : Node → Option Wait}

/-! ### The queues, seen through the pointers -/

theorem Refines.findPid (h : Refines s q) (pid : PidT) : s.findPid pid = q.queued.find? (q.hasPid pid) := by
  unfold State.findPid
  rw [h.find_run, h.find_wait, h.hasPid, Queues.queued, List.find?_append]
  cases q.run.find? (q.hasPid pid) with
  | none => rfl
  | some n => rfl

/-! ### No lost wakeup -/

/-- Whoever waits for a child waits for a task that is there, and that will wake it. -/
def Served (q : Queues) (w : Node → Option Wait) : Prop :=
  ∀ n ∈ q.wait, ∀ v ∈ w n, v.child = true → ∃ m ∈ q.queued, q.hasPid v.pid m = true ∧ (q.task m).ppid = (q.task n).pid

theorem pid_setWidth_inj {a b : Pid} (h : a.setWidth 32 = b.setWidth 32) : a = b := by
  apply BitVec.eq_of_toNat_eq
  have := congrArg BitVec.toNat h
  rw [BitVec.toNat_setWidth, BitVec.toNat_setWidth] at this
  omega

/-- Nobody of the pid that is woken is left on the queue. -/
theorem Named.mem_wait_awakepid (h : Named q) (hnd : q.queued.Nodup) {pid : PidT} (hn : n ∈ (q.awakepid pid).wait) :
    n ∈ q.wait ∧ q.hasPid pid n = false := by
  unfold Queues.awakepid at hn
  cases hfind : q.wait.find? (q.hasPid pid) with
  | none =>
    rw [hfind] at hn
    exact ⟨hn, by simpa using List.find?_eq_none.mp hfind n hn⟩
  | some m =>
    rw [hfind] at hn
    have hwait := (List.nodup_append.mp hnd).2.1
    obtain ⟨hne, hn⟩ := hwait.mem_erase_iff.mp hn
    refine ⟨hn, ?_⟩
    by_contra hpid
    have hm : m ∈ q.wait := List.mem_of_find?_eq_some hfind
    have hsame : (q.task n).pid = (q.task m).pid := by
      have hpn : (q.task n).pid.setWidth 32 = pid := by simpa [Queues.hasPid] using hpid
      have hpm : (q.task m).pid.setWidth 32 = pid := by simpa [Queues.hasPid] using List.find?_some hfind
      exact pid_setWidth_inj (hpn.trans hpm.symm)
    exact hne (h.distinct n (List.mem_append_right _ hn) m (List.mem_append_right _ hm) hsame)

theorem Served.remove (h : Served q w) (hnamed : Named q) (hnd : q.queued.Nodup) (m : Node) : Served (q.remove m) w := by
  intro n hn v hv hchild
  have hawake : n ∈ (q.awakepid ((q.task m).ppid.setWidth 32)).wait := List.mem_of_mem_erase hn
  obtain ⟨hwait, hother⟩ := hnamed.mem_wait_awakepid hnd hawake
  obtain ⟨c, hc, hpid, hppid⟩ := h n hwait v hv hchild
  -- if the task that goes were the one waited for, the waiter would have been woken
  have hcm : c ≠ m := by
    intro he
    rw [Queues.hasPid, ← he, hppid, beq_self_eq_true] at hother
    cases hother
  refine ⟨c, (Queues.mem_queued_remove hnd).mpr ⟨hc, hcm⟩, ?_, ?_⟩
  · rw [Queues.hasPid, Queues.remove_task]
    exact hpid
  · rw [Queues.remove_task]
    exact hppid

theorem Served.schedule (h : Served q w) : Served q.schedule w := by
  intro n hn v hv hchild
  obtain ⟨c, hc, hpid, hppid⟩ := h n hn v hv hchild
  exact ⟨c, Queues.mem_queued_schedule.mpr hc, hpid, hppid⟩

theorem Served.exit (h : Served q w) (hnamed : Named q) (hnd : q.queued.Nodup) : Served q.exit w :=
  (h.remove hnamed hnd q.current).schedule

theorem Served.awakepid (h : Served q w) (hnamed : Named q) (hnd : q.queued.Nodup) (pid : PidT) :
    Served (q.awakepid pid) w := by
  intro n hn v hv hchild
  obtain ⟨c, hc, hpid, hppid⟩ := h n (hnamed.mem_wait_awakepid hnd hn).1 v hv hchild
  refine ⟨c, Queues.mem_queued_awakepid.mpr hc, ?_, ?_⟩
  · rw [Queues.hasPid, Queues.awakepid_task]
    exact hpid
  · rw [Queues.awakepid_task]
    exact hppid

theorem Served.fork (h : Served q w) (hfresh : Node.task q.top ∉ q.queued) : Served q.fork w := by
  have htask : ∀ m ∈ q.queued, q.fork.task m = q.task m := fun m hm => by
    show (Queues.addHead _ _).task m = _
    rw [Queues.addHead_task]
    exact Function.update_of_ne (ne_of_mem_of_not_mem hm hfresh) _ _
  intro n hn v hv hchild
  have hwait : n ∈ q.wait := by
    have : (q.fork).wait = q.wait := Queues.addHead_wait ..
    rwa [this] at hn
  obtain ⟨c, hc, hpid, hppid⟩ := h n hwait v hv hchild
  refine ⟨c, Queues.mem_queued_addHead_of (q := q.fresh _) hc, ?_, ?_⟩
  · rw [Queues.hasPid, htask c hc]
    exact hpid
  · rw [htask c hc, htask n (List.mem_append_right _ hwait)]
    exact hppid

/-- A caller of `sys_execve` is replaced by a task its parent can wait for. -/
theorem Served.execve (h : Served q w) (hnd : q.queued.Nodup) (hfresh : Node.task q.top ∉ q.queued)
    (hne : q.run ≠ []) (hroom : q.queued.length < nrTasks) : Served (q.execve true) w := by
  have hcur := q.current_mem hne
  have hcurq : q.current ∈ q.queued := List.mem_append_left _ hcur
  have hqueued : q.replaced.queued = .task q.top :: q.queued := Queues.queued_addHead (q := (q.fresh _).setTask _ _) hroom
  have hnd' : q.replaced.queued.Nodup := Queues.nodup_addHead (q := (q.fresh _).setTask _ _) hnd hfresh
  have htask : ∀ m ∈ q.queued, m ≠ q.current → q.replaced.task m = q.task m := fun m hm hmc => by
    rw [q.replaced_task, if_neg hmc, if_neg (ne_of_mem_of_not_mem hm hfresh)]
  have hleft : ∀ m, m ∈ q.replaced.exit.queued ↔ (m = .task q.top ∨ m ∈ q.queued) ∧ m ≠ q.current := fun m => by
    rw [Queues.mem_queued_exit hnd', q.replaced_current hne, hqueued, List.mem_cons]
  rw [Queues.execve_true]
  intro n hn v hv hchild
  have hwait : n ∈ q.wait := by
    have hsub : n ∈ (q.replaced.awakepid ((q.replaced.task q.replaced.current).ppid.setWidth 32)).wait :=
      List.mem_of_mem_erase hn
    have hsame : q.replaced.wait = q.wait := Queues.addHead_wait ..
    rw [← hsame]
    exact Queues.awakepid_wait_subset _ _ hsub
  have hnq : n ∈ q.queued := List.mem_append_right _ hwait
  have hnc : n ≠ q.current := fun he => (List.nodup_append.mp hnd).2.2 _ hcur _ hwait he.symm
  obtain ⟨c, hc, hpid, hppid⟩ := h n hwait v hv hchild
  by_cases hcc : c = q.current
  · -- the caller itself was waited for: now it is the replacement
    have hnew : (Node.task q.top) ≠ q.current := (ne_of_mem_of_not_mem hcurq hfresh).symm
    refine ⟨.task q.top, (hleft _).mpr ⟨Or.inl rfl, hnew⟩, ?_, ?_⟩
    · rw [Queues.hasPid, Queues.exit_task, q.replaced_task, if_neg hnew, if_pos rfl]
      rw [hcc] at hpid
      exact hpid
    · rw [Queues.exit_task, htask n hnq hnc, q.replaced_task, if_neg hnew, if_pos rfl]
      rw [hcc] at hppid
      exact hppid
  · refine ⟨c, (hleft c).mpr ⟨Or.inr hc, hcc⟩, ?_, ?_⟩
    · rw [Queues.hasPid, Queues.exit_task, htask c hc hcc]
      exact hpid
    · rw [Queues.exit_task, htask c hc hcc, htask n hnq hnc]
      exact hppid

/-- The running task goes to sleep; if it waits for a child, the child is there. -/
theorem Served.block (h : Served q w) (hne : q.run ≠ []) {o : Option Wait}
    (ho : ∀ v ∈ o, v.child = true → ∃ m ∈ q.queued, q.hasPid v.pid m = true ∧ (q.task m).ppid = (q.task q.current).pid) :
    Served q.block (Function.update w q.current o) := by
  intro n hn v hv hchild
  by_cases hnc : n = q.current
  · rw [hnc, Function.update_self] at hv
    obtain ⟨c, hc, hpid, hppid⟩ := ho v hv hchild
    exact ⟨c, (Queues.mem_queued_block hne).mpr hc, hpid, by rw [hnc]; exact hppid⟩
  · rw [Function.update_of_ne hnc] at hv
    have hwait : n ∈ q.wait := (List.mem_cons.mp hn).resolve_left hnc
    obtain ⟨c, hc, hpid, hppid⟩ := h n hwait v hv hchild
    exact ⟨c, (Queues.mem_queued_block hne).mpr hc, hpid, hppid⟩

theorem Served.perform (h : Served q t.waiting) (href : Refines t.state q) (hnamed : Named q) (hne : q.run ≠ [])
    (hop : Legal t.state op) : Served (q.perform op) (record t op) := by
  have hnd : q.queued.Nodup := href.rings.nodup
  have hcur := q.current_mem hne
  cases op with
  | add pid ppid => exact hop.elim
  | fork => exact h.fork href.notMem_top
  | execve isFile =>
    cases isFile with
    | false => exact h
    | true =>
      have hroom : q.queued.length < nrTasks := by
        rw [Queues.queued, List.length_append, ← href.count]
        exact hop
      exact h.execve hnd href.notMem_top hne hroom
  | exit => exact h.exit hnamed hnd
  | sleep seconds =>
    have hset : Served (q.setTask q.current {q.task q.current with isSleep := true, sleepTime := seconds}) t.waiting := by
      intro n hn v hv hchild
      obtain ⟨c, hc, hcpid, hcppid⟩ := h n hn v hv hchild
      refine ⟨c, hc, ?_, ?_⟩
      · rw [Queues.hasPid, (q.sleeping_names seconds c).1]
        exact hcpid
      · rw [(q.sleeping_names seconds c).2, (q.sleeping_names seconds n).1]
        exact hcppid
    rw [record, href.current]
    exact (hset.block hne (fun v hv => absurd hv (by simp))).schedule
  | waitpid pid =>
    show Served (q.waitpid pid) _
    rw [record, href.current]
    unfold Queues.waitpid
    split
    · refine (h.block hne fun v hv hchild => ?_).schedule
      obtain rfl := Option.mem_some.mp hv
      have hfound : (q.queued.find? (q.hasPid pid)).any
          (fun n => (q.task n).ppid == (q.task q.current).pid) = true := by
        rw [← hchild, State.isChild, href.findPid, href.current, href.task]
      obtain ⟨c, hc, hppid⟩ := (Option.any_eq_true _ _).mp hfound
      exact ⟨c, List.mem_of_find?_eq_some hc, List.find?_some hc, by simpa using hppid⟩
    · intro n hn v hv hchild
      have hnc : n ≠ q.current := fun he => (List.nodup_append.mp hnd).2.2 _ hcur _ hn he.symm
      rw [Function.update_of_ne hnc] at hv
      exact h n hn v hv hchild
  | awakepid pid => exact h.awakepid hnamed hnd pid
  | kill pid sig =>
    show Served (q.kill pid sig) _
    rcases q.kill_cases pid sig with he | he | ⟨n, _, he⟩
    · rw [he]
      exact h
    · rw [he]
      exact h.exit hnamed hnd
    · rw [he]
      exact h.remove hnamed hnd n
  | schedule => exact h.schedule

/-- What holds between calls. -/
def Orderly (t : Traced) : Prop := ∃ q, Refines t.state q ∧ Runs t.state q ∧ Named q ∧ Served q t.waiting

theorem tracedStep_eq (h : tracedStep t op = some t') : step t.state op = some t'.state ∧ t'.waiting = record t op := by
  obtain ⟨s, hs, he⟩ := Option.map_eq_some_iff.mp h
  obtain rfl := he
  exact ⟨hs, rfl⟩

theorem Orderly.step (h : Orderly t) (hop : Legal t.state op ∧ Manned t.state op) (ht : tracedStep t op = some t') :
    Orderly t' := by
  obtain ⟨q, href, hruns, hnamed, hserved⟩ := h
  obtain ⟨hop, hcall⟩ := hop
  obtain ⟨hs, hw⟩ := tracedStep_eq ht
  obtain ⟨href', hruns', hidle⟩ := href.step hruns hcall hs
  refine ⟨q.perform op, href', hruns', ?_⟩
  rw [hw]
  by_cases hne : q.run = []
  · obtain rfl := hidle hne
    exact ⟨hnamed.schedule, hserved.schedule⟩
  · exact ⟨hnamed.perform href hne hop, hserved.perform href hnamed hne hop⟩

/-- The calls that fork, end and wait, and the timer. -/
def Op.Basic : Op → Prop
  | .fork | .exit | .sleep _ | .waitpid _ | .schedule => True
  | .add _ _ | .execve _ | .awakepid _ | .kill _ _ => False

instance : ∀ op : Op, Decidable op.Basic
  | .fork | .exit | .sleep _ | .waitpid _ | .schedule => inferInstanceAs (Decidable True)
  | .add _ _ | .execve _ | .awakepid _ | .kill _ _ => inferInstanceAs (Decidable False)

/-- The step moves no task that is blocked in `sys_waitpid` to `runQueue` while a task
of the pid it named is on a queue. -/
def NotEarly (t : Traced) (op : Op) : Prop :=
  ∀ t' ∈ tracedStep t op, ∀ n ∈ t.state.entries .waitQueue, ∀ v ∈ t.waiting n, n ∈ t'.state.entries .runQueue →
    ∀ m ∈ t'.state.queued, t'.state.hasPid v.pid m = false

/-- If a task exits, the one its exit wakes does not wait for a pid some other task
has. -/
def Patient (t : Traced) (op : Op) : Prop :=
  op = .exit → ∀ c ∈ (t.state.entries .runQueue).getLast?,
    ∀ n ∈ (t.state.listForEachEntry .waitQueue (t.state.hasPid ((t.state.task c).ppid.setWidth 32))).join,
      ∀ v ∈ t.waiting n, ∀ m ∈ t.state.queued, m ≠ c → t.state.hasPid v.pid m = false

instance (t : Traced) (op : Op) : Decidable (NotEarly t op) :=
  inferInstanceAs (Decidable (∀ t' ∈ tracedStep t op, ∀ n ∈ t.state.entries .waitQueue, ∀ v ∈ t.waiting n,
    n ∈ t'.state.entries .runQueue → ∀ m ∈ t'.state.queued, t'.state.hasPid v.pid m = false))

instance (t : Traced) (op : Op) : Decidable (Patient t op) :=
  inferInstanceAs (Decidable (op = .exit → ∀ c ∈ (t.state.entries .runQueue).getLast?,
    ∀ n ∈ (t.state.listForEachEntry .waitQueue (t.state.hasPid ((t.state.task c).ppid.setWidth 32))).join,
      ∀ v ∈ t.waiting n, ∀ m ∈ t.state.queued, m ≠ c → t.state.hasPid v.pid m = false))

/-- Of the waiting tasks `sys_exit` moves only the one its search finds. -/
theorem Queues.mem_run_exit (hnd : q.queued.Nodup) (hne : q.run ≠ []) (hn : n ∈ q.wait) :
    n ∈ q.exit.run ↔ q.wait.find? (q.hasPid ((q.task q.current).ppid.setWidth 32)) = some n := by
  have hdisj : n ∉ q.run := fun hr => (List.nodup_append.mp hnd).2.2 _ hr _ hn rfl
  have hnc : n ≠ q.current := fun he => hdisj (he ▸ q.current_mem hne)
  show n ∈ ((q.awakepid ((q.task q.current).ppid.setWidth 32)).run.erase q.current).rotate 1 ↔ _
  rw [List.mem_rotate, List.mem_erase_of_ne hnc]
  unfold Queues.awakepid
  cases q.wait.find? (q.hasPid ((q.task q.current).ppid.setWidth 32)) with
  | none => simp [hdisj]
  | some m => simp [hdisj, eq_comm]

/-- The other calls move none. -/
theorem Queues.notMem_run_perform (hnd : q.queued.Nodup) (hfresh : Node.task q.top ∉ q.queued) (hop : op.Basic)
    (hexit : op ≠ .exit) (hn : n ∈ q.wait) : n ∉ (q.perform op).run := by
  have hdisj : n ∉ q.run := fun hr => (List.nodup_append.mp hnd).2.2 _ hr _ hn rfl
  have hblock : n ∉ q.block.schedule.run := fun hr => hdisj (List.mem_of_mem_erase (List.mem_rotate.mp hr))
  cases op with
  | add pid ppid => exact hop.elim
  | fork =>
    intro hr
    unfold Queues.perform Queues.fork Queues.addHead at hr
    dsimp only at hr
    split at hr
    · rcases List.mem_cons.mp hr with he | hr
      · exact hfresh (he ▸ List.mem_append_right _ hn)
      · exact hdisj hr
    · exact hdisj hr
  | execve isFile => exact hop.elim
  | exit => exact absurd rfl hexit
  | sleep seconds => exact fun hr => hdisj (List.mem_of_mem_erase (List.mem_rotate.mp hr))
  | waitpid pid =>
    show n ∉ (q.waitpid pid).run
    unfold Queues.waitpid
    split
    · exact hblock
    · exact hdisj
  | awakepid pid => exact hop.elim
  | kill pid sig => exact hop.elim
  | schedule => exact fun hr => hdisj (List.mem_rotate.mp hr)

/-- The pointers represent some queues. -/
def Sound (t : Traced) : Prop := ∃ q, Refines t.state q ∧ Runs t.state q

theorem notEarly_iff_patient (h : Sound t) (hop : op.Basic) (hcall : Manned t.state op) : NotEarly t op ↔ Patient t op := by
  obtain ⟨q, href, hruns⟩ := h
  have hnd : q.queued.Nodup := href.rings.nodup
  unfold NotEarly Patient
  rw [href.entries_wait, href.entries_run, href.queued, href.hasPid, href.task]
  by_cases hexit : op = .exit
  · subst hexit
    have hne : q.run ≠ [] := href.run_ne_nil hcall (by simp)
    obtain ⟨s', hs', href', _⟩ := step_refines href hruns hne .exit
    have hstep : tracedStep t .exit = some ⟨s', t.waiting⟩ := by
      rw [tracedStep, hs']
      rfl
    have hlast : q.run.getLast? = some q.current := by
      rw [Queues.current, List.getLastD_eq_getLast?, List.getLast?_eq_some_getLast hne]
      rfl
    have hpid : s'.hasPid = q.hasPid := by
      rw [href'.hasPid]
      funext pid m
      rw [Queues.hasPid, Queues.hasPid, Queues.perform, Queues.exit_task]
    rw [hlast, hstep]
    simp only [Option.mem_some_iff, forall_eq', forall_const]
    rw [href'.entries_run, href'.queued, hpid, href.find_wait, Option.join_some]
    constructor
    · intro h n hn v hv m hm hmc
      have hwait := List.mem_of_find?_eq_some hn
      exact h n hwait v hv ((Queues.mem_run_exit hnd hne hwait).mpr hn) m ((Queues.mem_queued_exit hnd).mpr ⟨hm, hmc⟩)
    · intro h n hn v hv hr m hm
      obtain ⟨hm, hmc⟩ := (Queues.mem_queued_exit hnd).mp hm
      exact h n ((Queues.mem_run_exit hnd hne hn).mp hr) v hv m hm hmc
  · constructor
    · intro _ he
      exact absurd he hexit
    · intro _ t' ht' n hn v _ hr
      obtain ⟨href', _⟩ := href.step hruns hcall (tracedStep_eq (Option.mem_def.mp ht')).1
      rw [href'.entries_run] at hr
      exact absurd hr (Queues.notMem_run_perform hnd href.notMem_top hop hexit hn)

theorem Sound.step (h : Sound t) (hcall : Manned t.state op) (ht : tracedStep t op = some t') : Sound t' := by
  obtain ⟨q, href, hruns⟩ := h
  obtain ⟨href', hruns', _⟩ := href.step hruns hcall (tracedStep_eq ht).1
  exact ⟨_, href', hruns'⟩

/-- In a run of forks, exits, sleeps, waits and timer ticks, in which nobody calls with nothing on
`runQueue`, every task blocked in `sys_waitpid` stays blocked while the process it named is
there if and only if no task exits whose parent waits for another process that is still
there. -/
theorem waits_for_named_iff (ops : List Op)
    (hops : Along tracedStep (fun t op => op.Basic ∧ Manned t.state op) Traced.boot ops) :
    Along tracedStep NotEarly Traced.boot ops ↔ Along tracedStep Patient Traced.boot ops := by
  have hagree : ∀ t op, Sound t → (op.Basic ∧ Manned t.state op) → (NotEarly t op ↔ Patient t op) :=
    fun _ _ h hop => notEarly_iff_patient h hop.1 hop.2
  have hkeep : ∀ t op t', Sound t → (op.Basic ∧ Manned t.state op) → tracedStep t op = some t' → Sound t' :=
    fun _ _ _ h hop ht => h.step hop.2 ht
  exact along_iff hagree hkeep ⟨bootQueues, boot_refines, boot_runs⟩ hops

/-- The shell waits for its only child. -/
theorem waits_for_named_only :
    Along tracedStep NotEarly Traced.boot [.fork, .waitpid 3, .exit, .schedule] :=
  (waits_for_named_iff [.fork, .waitpid 3, .exit, .schedule] (by decide)).mpr (by decide +kernel)

/-- The shell has two children and waits for the first; the second exits and wakes it. -/
theorem woken_by_sibling : ¬ Along tracedStep NotEarly Traced.boot [.fork, .fork, .waitpid 3, .exit] := by
  decide +kernel

end Sbnix.Sched
