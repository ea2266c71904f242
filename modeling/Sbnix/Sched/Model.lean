import Sbnix.Sched.Queue

/-! The queues as lists.

`Queues` is the scheduler as it is meant: two lists of tasks, of which the last one of
`run` is running. `Refines s q` says that the pointers of `s` represent `q`: both queues
are rings, no task is on both or twice on one, and `num_task` counts them. Every
operation on the pointers does what the operation of the same name does to the lists
(`step_refines`), so a result about whole runs can be proved on lists. -/
namespace Sbnix.Sched
open Library

structure Queues where
  run : List Node
  wait : List Node
  task : Node → Task
  availPid : Pid
  top : Nat

namespace Queues

def current (q : Queues) : Node := q.run.getLastD .runQueue

def hasPid (q : Queues) (pid : PidT) (n : Node) : Bool := (q.task n).pid.setWidth 32 == pid

def addHead (q : Queues) (n : Node) : Queues :=
  if q.run.length + q.wait.length < nrTasks then {q with run := n :: q.run} else q

def awakepid (q : Queues) (pid : PidT) : Queues :=
  match q.wait.find? (q.hasPid pid) with
  | some n => {q with run := n :: q.run, wait := q.wait.erase n}
  | none => q

def schedule (q : Queues) : Queues := {q with run := q.run.rotate 1}

def delete (q : Queues) (n : Node) : Queues := {q with run := q.run.erase n, wait := q.wait.erase n}

/-- The running task goes to sleep. -/
def block (q : Queues) : Queues := {q with run := q.run.erase q.current, wait := q.current :: q.wait}

def setTask (q : Queues) (n : Node) (t : Task) : Queues := {q with task := Function.update q.task n t}

/-- Another `task_struct`. -/
def fresh (q : Queues) (t : Task) : Queues := {q.setTask (.task q.top) t with top := q.top + 1}

def exit (q : Queues) : Queues :=
  ((q.awakepid ((q.task q.current).ppid.setWidth 32)).delete q.current).schedule

def sleep (q : Queues) (seconds : BitVec 64) : Queues :=
  (q.setTask q.current {q.task q.current with isSleep := true, sleepTime := seconds}).block.schedule

def waitpid (q : Queues) (pid : PidT) : Queues :=
  if (q.run ++ q.wait).any (q.hasPid pid) then q.block.schedule else q

def kill (q : Queues) (pid : PidT) (sig : BitVec 32) : Queues :=
  if sig = sigkill then
    if q.hasPid pid q.current then q.exit
    else match (q.run ++ q.wait).find? (q.hasPid pid) with
      | some n => (q.awakepid ((q.task n).ppid.setWidth 32)).delete n
      | none => q
  else q

def fork (q : Queues) : Queues :=
  {(q.fresh ⟨q.availPid + 1, (q.task q.current).pid, false, 0⟩).addHead (.task q.top) with availPid := q.availPid + 1}

/-- The new task takes over the pid and the parent of the one that exits. -/
def execve (q : Queues) (isFile : Bool) : Queues :=
  if isFile then
    (((q.fresh ⟨(q.task q.current).pid, (q.task q.current).ppid, false, 0⟩).setTask q.current
      {q.task q.current with ppid := 0}).addHead (.task q.top)).exit
  else q

def perform (q : Queues) : Op → Queues
  | .add pid ppid => (q.fresh ⟨pid, ppid, false, 0⟩).addHead (.task q.top)
  | .fork => q.fork
  | .execve isFile => q.execve isFile
  | .exit => q.exit
  | .sleep seconds => q.sleep seconds
  | .waitpid pid => q.waitpid pid
  | .awakepid pid => q.awakepid pid
  | .kill pid sig => q.kill pid sig
  | .schedule => q.schedule

theorem current_cons (q : Queues) (n : Node) (hne : q.run ≠ []) : (n :: q.run).getLastD .runQueue = q.current := by
  cases hrun : q.run with
  | nil => exact absurd hrun hne
  | cons m rest =>
    rw [current, hrun]
    simp

theorem current_mem (q : Queues) (hne : q.run ≠ []) : q.current ∈ q.run := by
  rw [current, List.getLastD_eq_getLast?, List.getLast?_eq_some_getLast hne]
  exact List.getLast_mem hne

theorem run_eq (q : Queues) (hne : q.run ≠ []) : q.run = q.run.dropLast ++ [q.current] := by
  rw [current, List.getLastD_eq_getLast?, List.getLast?_eq_some_getLast hne]
  exact (List.dropLast_append_getLast hne).symm

/-- Deleting a task that does not run does not change which one does. -/
theorem current_delete (q : Queues) {n : Node} (hn : n ≠ q.current) (hne : q.run ≠ []) :
    (q.delete n).current = q.current ∧ (q.delete n).run ≠ [] := by
  have hrun : (q.delete n).run = q.run.dropLast.erase n ++ [q.current] := by
    show q.run.erase n = _
    nth_rewrite 1 [q.run_eq hne]
    rw [List.erase_append]
    split
    · rfl
    · rename_i hmem
      rw [List.erase_of_not_mem hmem, List.erase_of_not_mem (by simpa using hn)]
  constructor
  · rw [current, hrun, List.getLastD_concat]
  · rw [hrun]
    simp

theorem schedule_nil {q : Queues} (h : q.run = []) : q.schedule = q := by
  obtain ⟨run, wait, task, availPid, top⟩ := q
  obtain rfl : run = [] := h
  rfl

theorem schedule_cons {q : Queues} {n : Node} {rest : List Node} (h : q.run = n :: rest) :
    q.schedule = {q with run := rest ++ [n]} := by
  rw [schedule, h, List.rotate_cons_succ, List.rotate_zero]

/-- Waking a task moves it from one queue to the other. -/
theorem awakepid_perm (q : Queues) (pid : PidT) :
    ((q.awakepid pid).run ++ (q.awakepid pid).wait).Perm (q.run ++ q.wait) := by
  unfold awakepid
  cases hfind : q.wait.find? (q.hasPid pid) with
  | none => exact List.Perm.refl _
  | some n =>
    have hn : n ∈ q.wait := List.mem_of_find?_eq_some hfind
    show (n :: (q.run ++ q.wait.erase n)).Perm (q.run ++ q.wait)
    exact List.perm_middle.symm.trans (List.Perm.append_left q.run (List.perm_cons_erase hn).symm)

/-- A task added goes to the head of the queue; the running one stays at its end. -/
theorem addHead_current (q : Queues) (n : Node) (hne : q.run ≠ []) :
    (q.addHead n).current = q.current ∧ (q.addHead n).run ≠ [] := by
  unfold addHead
  split
  · exact ⟨current_cons q n hne, List.cons_ne_nil _ _⟩
  · exact ⟨rfl, hne⟩

/-- So does a task woken. -/
theorem awakepid_current (q : Queues) (pid : PidT) (hne : q.run ≠ []) :
    (q.awakepid pid).current = q.current ∧ (q.awakepid pid).run ≠ [] := by
  unfold awakepid
  cases q.wait.find? (q.hasPid pid) with
  | none => exact ⟨rfl, hne⟩
  | some n => exact ⟨current_cons q n hne, List.cons_ne_nil _ _⟩

end Queues

/-! ### The pointers of two queues -/

structure Rings (l : Lists) (xs ys : List Node) : Prop where
  run : Ring l .runQueue xs
  wait : Ring l .waitQueue ys
  nodup : (xs ++ ys).Nodup
  tasks : ∀ n ∈ xs ++ ys, ∃ t, n = .task t

variable {l : Lists} {xs ys : List Node} {n : Node}

theorem task_notMem_run {t : Nat} (hn : Node.task t ∉ xs ++ ys) : Node.task t ∉ Node.runQueue :: xs := by
  simp only [List.mem_append, not_or] at hn
  simp [hn.1]

theorem task_notMem_wait {t : Nat} (hn : Node.task t ∉ xs ++ ys) : Node.task t ∉ Node.waitQueue :: ys := by
  simp only [List.mem_append, not_or] at hn
  simp [hn.2]

theorem erase_sublist_queues (n : Node) : (xs.erase n ++ ys.erase n).Sublist (xs ++ ys) :=
  (List.erase_sublist ..).append (List.erase_sublist ..)

namespace Rings

theorem apart (h : Rings l xs ys) {c : Node} (hx : c ∈ Node.runQueue :: xs) : c ∉ Node.waitQueue :: ys := by
  intro hy
  have hxy : c ∈ xs → c ∉ ys := fun hx hy => (List.nodup_append.mp h.nodup).2.2 c hx c hy rfl
  rcases List.mem_cons.mp hx with rfl | hx
  · obtain ⟨t, ht⟩ := h.tasks .runQueue (List.mem_append_right _ (by simpa using hy))
    cases ht
  · rcases List.mem_cons.mp hy with rfl | hy
    · obtain ⟨t, ht⟩ := h.tasks .waitQueue (by simp [hx])
      cases ht
    · exact hxy hx hy

theorem apart' (h : Rings l xs ys) {c : Node} (hy : c ∈ Node.waitQueue :: ys) : c ∉ Node.runQueue :: xs :=
  fun hx => h.apart hx hy

/-- Links of a node on neither queue do not matter. -/
theorem congr {l' : Lists} (h : Rings l xs ys) {t : Nat} (hn : Node.task t ∉ xs ++ ys)
    (hnext : ∀ c, c ≠ .task t → l'.next c = l.next c) (hprev : ∀ c, c ≠ .task t → l'.prev c = l.prev c) :
    Rings l' xs ys := by
  refine ⟨h.run.congr (fun c hc => ?_) (fun c hc => ?_), h.wait.congr (fun c hc => ?_) (fun c hc => ?_),
    h.nodup, h.tasks⟩
  · exact hnext c (ne_of_mem_of_not_mem hc (task_notMem_run hn))
  · exact hprev c (ne_of_mem_of_not_mem hc (task_notMem_run hn))
  · exact hnext c (ne_of_mem_of_not_mem hc (task_notMem_wait hn))
  · exact hprev c (ne_of_mem_of_not_mem hc (task_notMem_wait hn))

theorem addRun (h : Rings l xs ys) {t : Nat} (hn : Node.task t ∉ xs ++ ys) :
    Rings (listAdd l (.task t) .runQueue) (.task t :: xs) ys := by
  refine ⟨h.run.push (task_notMem_run hn), h.wait.splice_other (task_notMem_wait hn) (h.apart (List.mem_cons_self ..))
    (h.apart ?_), ?_, ?_⟩
  · rw [h.run.next_head]
    cases xs with
    | nil => simp
    | cons x xs => simp
  · exact List.nodup_cons.mpr ⟨hn, h.nodup⟩
  · intro n hm
    rcases List.mem_cons.mp hm with rfl | hm
    · exact ⟨t, rfl⟩
    · exact h.tasks n hm

theorem addTailRun (h : Rings l xs ys) {t : Nat} (hn : Node.task t ∉ xs ++ ys) :
    Rings (listAddTail l (.task t) .runQueue) (xs ++ [.task t]) ys := by
  have hperm : (xs ++ [Node.task t] ++ ys).Perm (Node.task t :: (xs ++ ys)) := by
    rw [List.append_assoc]
    exact List.perm_middle
  refine ⟨h.run.pushBack (task_notMem_run hn), h.wait.splice_other (task_notMem_wait hn) (h.apart ?_)
    (h.apart (List.mem_cons_self ..)), ?_, ?_⟩
  · rw [h.run.prev_head]
    exact List.getLastD_mem_cons ..
  · exact hperm.nodup_iff.mpr (List.nodup_cons.mpr ⟨hn, h.nodup⟩)
  · intro n hm
    rcases List.mem_cons.mp (hperm.mem_iff.mp hm) with rfl | hm
    · exact ⟨t, rfl⟩
    · exact h.tasks n hm

theorem addWait (h : Rings l xs ys) {t : Nat} (hn : Node.task t ∉ xs ++ ys) :
    Rings (listAdd l (.task t) .waitQueue) xs (.task t :: ys) := by
  refine ⟨h.run.splice_other (task_notMem_run hn) (h.apart' (List.mem_cons_self ..)) (h.apart' ?_),
    h.wait.push (task_notMem_wait hn), ?_, ?_⟩
  · rw [h.wait.next_head]
    cases ys with
    | nil => simp
    | cons y ys => simp
  · exact (List.perm_middle.nodup_iff).mpr (List.nodup_cons.mpr ⟨hn, h.nodup⟩)
  · intro n hm
    rcases List.mem_cons.mp (List.perm_middle.mem_iff.mp hm) with rfl | hm
    · exact ⟨t, rfl⟩
    · exact h.tasks n hm

/-- A task is on neither queue once it is erased from both. -/
theorem notMem_erase (h : Rings l xs ys) (n : Node) : n ∉ xs.erase n ++ ys.erase n := by
  have hnd := List.nodup_append.mp h.nodup
  rw [List.mem_append, not_or]
  exact ⟨hnd.1.not_mem_erase, hnd.2.1.not_mem_erase⟩

theorem delEntry (h : Rings l xs ys) (hn : n ∈ xs ++ ys) :
    Rings (listDelEntry l n) (xs.erase n) (ys.erase n) := by
  have hdisj := (List.nodup_append.mp h.nodup).2.2
  have hnd := h.nodup.sublist (erase_sublist_queues n)
  have htasks : ∀ c ∈ xs.erase n ++ ys.erase n, ∃ t, c = .task t := fun c hc => h.tasks c ((erase_sublist_queues n).subset hc)
  rcases List.mem_append.mp hn with hx | hy
  · have hy : n ∉ ys := fun hy => hdisj n hx n hy rfl
    obtain ⟨hprev, hnext⟩ := h.run.neighbours hx
    refine ⟨h.run.erase hx, ?_, hnd, htasks⟩
    rw [List.erase_of_not_mem hy]
    exact h.wait.bridge_other (h.apart hprev) (h.apart hnext)
  · have hx : n ∉ xs := fun hx => hdisj n hx n hy rfl
    obtain ⟨hprev, hnext⟩ := h.wait.neighbours hy
    refine ⟨?_, h.wait.erase hy, hnd, htasks⟩
    rw [List.erase_of_not_mem hx]
    exact h.run.bridge_other (h.apart' hprev) (h.apart' hnext)

theorem del (h : Rings l xs ys) (hn : n ∈ xs ++ ys) : Rings (listDel l n) (xs.erase n) (ys.erase n) := by
  obtain ⟨t, rfl⟩ := h.tasks n hn
  refine (h.delEntry hn).congr (h.notMem_erase _) (fun c hc => ?_) (fun c hc => ?_)
  · exact Function.update_of_ne hc _ _
  · exact Function.update_of_ne hc _ _

theorem moveRun (h : Rings l xs ys) (hn : n ∈ ys) : Rings (listMove l n .runQueue) (n :: xs) (ys.erase n) := by
  have hmem : n ∈ xs ++ ys := List.mem_append_right _ hn
  have hx : n ∉ xs := fun hx => (List.nodup_append.mp h.nodup).2.2 n hx n hn rfl
  obtain ⟨t, rfl⟩ := h.tasks n hmem
  have := (h.delEntry hmem).addRun (h.notMem_erase _)
  rwa [List.erase_of_not_mem hx] at this

theorem moveWait (h : Rings l xs ys) (hn : n ∈ xs) : Rings (listMove l n .waitQueue) (xs.erase n) (n :: ys) := by
  have hmem : n ∈ xs ++ ys := List.mem_append_left _ hn
  have hy : n ∉ ys := fun hy => (List.nodup_append.mp h.nodup).2.2 n hn n hy rfl
  obtain ⟨t, rfl⟩ := h.tasks n hmem
  have := (h.delEntry hmem).addWait (h.notMem_erase _)
  rwa [List.erase_of_not_mem hy] at this

theorem rotate (h : Rings l (n :: xs) ys) : Rings (listMoveTail l n .runQueue) (xs ++ [n]) ys := by
  have hmem : n ∈ n :: xs ++ ys := List.mem_cons_self ..
  have hy : n ∉ ys := fun hy => (List.nodup_append.mp h.nodup).2.2 n (List.mem_cons_self ..) n hy rfl
  obtain ⟨t, rfl⟩ := h.tasks n hmem
  have := (h.delEntry hmem).addTailRun (h.notMem_erase _)
  rwa [List.erase_of_not_mem hy, List.erase_cons_head] at this

end Rings

namespace State

/-! Queueing a task does not touch what the `task_struct`s hold. -/

theorem addHead_setTask (s : State) (n m : Node) (t : Task) :
    ((s.setTask n t).addTasktoQueueHead m).2 = (s.addTasktoQueueHead m).2.setTask n t := by
  unfold addTasktoQueueHead
  by_cases hfull : s.numTask + 1 > nrTasks
  · rw [if_pos hfull]
    exact congrArg Prod.snd (if_pos hfull)
  · rw [if_neg hfull]
    exact congrArg Prod.snd (if_neg hfull)

theorem addHead_task (s : State) (n : Node) : (s.addTasktoQueueHead n).2.task = s.task := by
  unfold addTasktoQueueHead
  split
  · rfl
  · rfl

theorem addHead_availPid (s : State) (n : Node) : (s.addTasktoQueueHead n).2.availPid = s.availPid := by
  unfold addTasktoQueueHead
  split
  · rfl
  · rfl

theorem addHead_running (s : State) (n : Node) : (s.addTasktoQueueHead n).2.running = s.running := by
  unfold addTasktoQueueHead
  split
  · rfl
  · rfl

end State

/-! ### Refinement -/

structure Refines (s : State) (q : Queues) : Prop where
  rings : Rings s.links q.run q.wait
  old : ∀ t, Node.task t ∈ q.run ++ q.wait → t < q.top
  count : s.numTask = q.run.length + q.wait.length
  room : s.numTask ≤ nrTasks
  task : s.task = q.task
  availPid : s.availPid = q.availPid
  top : s.top = q.top

/-- The running task is the last one of `run`. Between the edits of one call this may
fail. -/
def Runs (s : State) (q : Queues) : Prop := q.run ≠ [] → s.running = q.current

variable {s : State} {q : Queues}

namespace Refines

theorem current (h : Refines s q) : s.getCurrentTask = q.current := h.rings.run.prev_head

theorem hasPid (h : Refines s q) : s.hasPid = q.hasPid := by
  funext pid n
  rw [State.hasPid, Queues.hasPid, h.task]

theorem listEmpty_run (h : Refines s q) : listEmpty s.links .runQueue = true ↔ q.run = [] := by
  rw [listEmpty, decide_eq_true_iff]
  exact h.rings.run.next_head_eq_head

theorem listEmpty_wait (h : Refines s q) : listEmpty s.links .waitQueue = true ↔ q.wait = [] := by
  rw [listEmpty, decide_eq_true_iff]
  exact h.rings.wait.next_head_eq_head

theorem find_run (h : Refines s q) (p : Node → Bool) :
    s.listForEachEntry .runQueue p = some (q.run.find? p) := by
  have := h.room
  have := h.count
  exact h.rings.run.search_eq (by omega)

theorem find_wait (h : Refines s q) (p : Node → Bool) :
    s.listForEachEntry .waitQueue p = some (q.wait.find? p) := by
  have := h.room
  have := h.count
  exact h.rings.wait.search_eq (by omega)

/-- A task that is not allocated yet is on no queue. -/
theorem notMem_top (h : Refines s q) : Node.task q.top ∉ q.run ++ q.wait :=
  fun hm => Nat.lt_irrefl _ (h.old _ hm)

theorem setTask (h : Refines s q) (n : Node) (t : Task) : Refines (s.setTask n t) (q.setTask n t) where
  rings := h.rings
  old := h.old
  count := h.count
  room := h.room
  task := by rw [State.setTask, Queues.setTask, h.task]
  availPid := h.availPid
  top := h.top

/-- Allocation, once the fields are filled in. -/
theorem fresh (h : Refines s q) (t : Task) : Refines (s.newTask.2.setTask s.newTask.1 t) (q.fresh t) where
  rings := by
    refine h.rings.congr h.notMem_top (fun c hc => ?_) (fun c hc => ?_)
    · rw [← h.top] at hc
      exact Function.update_of_ne hc _ _
    · rw [← h.top] at hc
      exact Function.update_of_ne hc _ _
  old := fun n hn => Nat.lt_succ_of_lt (h.old n hn)
  count := h.count
  room := h.room
  task := by
    show Function.update (Function.update s.task (.task s.top) _) (.task s.top) t = Function.update q.task (.task q.top) t
    rw [Function.update_idem, h.top, h.task]
  availPid := h.availPid
  top := congrArg (· + 1) h.top

theorem addHead (h : Refines s q) {t : Nat} (hn : Node.task t ∉ q.run ++ q.wait) (ht : t < q.top) :
    Refines (s.addTasktoQueueHead (.task t)).2 (q.addHead (.task t)) := by
  have hcount := h.count
  unfold State.addTasktoQueueHead Queues.addHead
  by_cases hfull : s.numTask + 1 > nrTasks
  · rw [if_pos hfull, if_neg (by omega)]
    exact h
  · rw [if_neg hfull, if_pos (by omega)]
    refine ⟨h.rings.addRun hn, fun t' ht' => ?_, ?_, ?_, h.task, h.availPid, h.top⟩
    · rcases List.mem_cons.mp ht' with he | hm
      · cases he
        exact ht
      · exact h.old t' hm
    · show s.numTask + 1 = q.run.length + 1 + q.wait.length
      omega
    · show s.numTask + 1 ≤ nrTasks
      omega

theorem awakepid (h : Refines s q) (pid : PidT) :
    ∃ s', s.awakepid pid = some s' ∧ Refines s' (q.awakepid pid) ∧ s'.running = s.running := by
  unfold State.awakepid Queues.awakepid
  rw [h.find_wait, h.hasPid]
  by_cases hempty : listEmpty s.links .waitQueue = true
  · rw [if_pos hempty, h.listEmpty_wait.mp hempty]
    exact ⟨s, rfl, h, rfl⟩
  · rw [if_neg hempty]
    cases hfind : q.wait.find? (q.hasPid pid) with
    | none => exact ⟨s, rfl, h, rfl⟩
    | some n =>
      have hn : n ∈ q.wait := List.mem_of_find?_eq_some hfind
      have hlen := List.length_erase_of_mem hn
      have hpos := List.length_pos_of_mem hn
      have hcount := h.count
      refine ⟨_, rfl, ⟨h.rings.moveRun hn, fun t ht => ?_, ?_, h.room, h.task, h.availPid, h.top⟩, rfl⟩
      · refine h.old t ?_
        rcases List.mem_cons.mp ht with rfl | ht
        · exact List.mem_append_right _ hn
        · exact (List.Sublist.append_left (List.erase_sublist ..) q.run).subset ht
      · show s.numTask = (n :: q.run).length + (q.wait.erase n).length
        rw [List.length_cons]
        omega

theorem delTask (h : Refines s q) {n : Node} (hn : n ∈ q.run ++ q.wait) : Refines (s.delTask n) (q.delete n) := by
  have hcount := h.count
  have hroom := h.room
  have hlen : (q.run.erase n).length + (q.wait.erase n).length + 1 = q.run.length + q.wait.length := by
    rcases List.mem_append.mp hn with hr | hw
    · have hw : n ∉ q.wait := fun hw => (List.nodup_append.mp h.rings.nodup).2.2 n hr n hw rfl
      have := List.length_erase_of_mem hr
      have := List.length_pos_of_mem hr
      rw [List.erase_of_not_mem hw]
      omega
    · have hr : n ∉ q.run := fun hr => (List.nodup_append.mp h.rings.nodup).2.2 n hr n hw rfl
      have := List.length_erase_of_mem hw
      have := List.length_pos_of_mem hw
      rw [List.erase_of_not_mem hr]
      omega
  refine ⟨h.rings.del hn, fun t ht => h.old t ((erase_sublist_queues n).subset ht), ?_, ?_, h.task, h.availPid, h.top⟩
  · show s.numTask - 1 = (q.run.erase n).length + (q.wait.erase n).length
    omega
  · show s.numTask - 1 ≤ nrTasks
    omega

theorem block (h : Refines s q) (hne : q.run ≠ []) :
    Refines {s with links := listMove s.links s.getCurrentTask .waitQueue} q.block := by
  have hmem := q.current_mem hne
  have hlen := List.length_erase_of_mem hmem
  have hpos := List.length_pos_of_mem hmem
  have hcount := h.count
  rw [h.current]
  refine ⟨h.rings.moveWait hmem, fun t ht => h.old t ?_, ?_, h.room, h.task, h.availPid, h.top⟩
  · rcases List.mem_append.mp ht with ht | ht
    · exact List.mem_append_left _ (List.mem_of_mem_erase ht)
    · rcases List.mem_cons.mp ht with he | ht
      · rw [he]
        exact List.mem_append_left _ hmem
      · exact List.mem_append_right _ ht
  · show s.numTask = (q.run.erase q.current).length + (q.wait.length + 1)
    omega

/-- `schedule` runs the first task of the queue and makes it the last. -/
theorem schedule (h : Refines s q) : Refines s.schedule q.schedule ∧ Runs s.schedule q.schedule := by
  unfold State.schedule
  cases hrun : q.run with
  | nil =>
    rw [if_pos (h.listEmpty_run.mpr hrun), Queues.schedule_nil hrun]
    exact ⟨h, fun hne => absurd hrun hne⟩
  | cons n rest =>
    have hempty : ¬ listEmpty s.links .runQueue = true := by
      rw [h.listEmpty_run, hrun]
      exact List.cons_ne_nil n rest
    have hrings := h.rings
    have hnext : s.getNextTask = n := by
      rw [State.getNextTask, hrings.run.next_head, hrun]
      rfl
    rw [hrun] at hrings
    have hperm : (rest ++ [n] ++ q.wait).Perm (q.run ++ q.wait) := by
      rw [hrun, List.append_assoc]
      exact List.perm_middle
    rw [if_neg hempty, Queues.schedule_cons hrun]
    dsimp only
    rw [hnext]
    refine ⟨⟨hrings.rotate, fun t ht => h.old t (hperm.mem_iff.mp ht), ?_, h.room, h.task, h.availPid, h.top⟩,
      fun _ => ?_⟩
    · have hcount := h.count
      rw [hrun] at hcount
      show s.numTask = (rest ++ [n]).length + q.wait.length
      rw [hcount]
      simp
    · show n = (rest ++ [n]).getLastD .runQueue
      simp

theorem scheduleThen (h : Refines s q) (ret : Int) :
    Refines (s.scheduleThen ret).state q.schedule ∧ Runs (s.scheduleThen ret).state q.schedule := h.schedule

/-! ### The calls -/

theorem sysExit (h : Refines s q) (hne : q.run ≠ []) :
    ∃ r, s.sysExit = some r ∧ Refines r.state q.exit ∧ Runs r.state q.exit := by
  obtain ⟨s', hs', h', _⟩ := h.awakepid ((q.task q.current).ppid.setWidth 32)
  have hmem : q.current ∈ (q.awakepid ((q.task q.current).ppid.setWidth 32)).run ++
      (q.awakepid ((q.task q.current).ppid.setWidth 32)).wait :=
    (Queues.awakepid_perm q _).mem_iff.mpr (List.mem_append_left _ (q.current_mem hne))
  unfold State.sysExit
  dsimp only
  rw [h.current, h.task, hs']
  exact ⟨_, rfl, (h'.delTask hmem).scheduleThen (-1)⟩

theorem sysSleep (h : Refines s q) (hne : q.run ≠ []) (seconds : BitVec 64) :
    Refines (s.sysSleep seconds).state (q.sleep seconds) ∧ Runs (s.sysSleep seconds).state (q.sleep seconds) := by
  have hset := h.setTask s.getCurrentTask {s.task s.getCurrentTask with isSleep := true, sleepTime := seconds}
  have hsleep : q.sleep seconds = (q.setTask s.getCurrentTask
      {s.task s.getCurrentTask with isSleep := true, sleepTime := seconds}).block.schedule := by
    rw [h.current, h.task]
    rfl
  rw [hsleep]
  exact (hset.block hne).scheduleThen 0

theorem sysWaitpid (h : Refines s q) (hruns : Runs s q) (hne : q.run ≠ []) (pid : PidT) :
    ∃ r, s.sysWaitpid pid = some r ∧ Refines r.state (q.waitpid pid) ∧ Runs r.state (q.waitpid pid) := by
  have hblock := (h.block hne).scheduleThen pid.toNat
  have hany : (q.run ++ q.wait).any (q.hasPid pid) =
      ((q.run.find? (q.hasPid pid)).isSome || (q.wait.find? (q.hasPid pid)).isSome) := by
    rw [List.any_append, List.isSome_find?, List.isSome_find?]
  unfold State.sysWaitpid Queues.waitpid
  dsimp only
  rw [hany, h.find_run, h.find_wait, h.hasPid]
  cases hrun : q.run.find? (q.hasPid pid) with
  | some n => exact ⟨_, rfl, hblock⟩
  | none =>
    cases hwait : q.wait.find? (q.hasPid pid) with
    | some n => exact ⟨_, rfl, hblock⟩
    | none => exact ⟨_, rfl, h, hruns⟩

theorem killTask (h : Refines s q) (hruns : Runs s q) (hne : q.run ≠ []) {n : Node} (hn : n ∈ q.run ++ q.wait)
    (hcur : n ≠ q.current) :
    ∃ r, s.killTask n = some r ∧ Refines r.state ((q.awakepid ((q.task n).ppid.setWidth 32)).delete n) ∧
      Runs r.state ((q.awakepid ((q.task n).ppid.setWidth 32)).delete n) := by
  obtain ⟨s', hs', h', hrunning⟩ := h.awakepid ((q.task n).ppid.setWidth 32)
  have hmem := (Queues.awakepid_perm q ((q.task n).ppid.setWidth 32)).mem_iff.mpr hn
  obtain ⟨hcur', hne'⟩ := Queues.awakepid_current q ((q.task n).ppid.setWidth 32) hne
  unfold State.killTask
  rw [h.task, hs']
  refine ⟨_, rfl, h'.delTask hmem, fun _ => ?_⟩
  rw [(Queues.current_delete _ (by rw [hcur']; exact hcur) hne').1, hcur']
  exact hrunning.trans (hruns hne)

theorem sysKill (h : Refines s q) (hruns : Runs s q) (hne : q.run ≠ []) (pid : PidT) (sig : BitVec 32) :
    ∃ r, s.sysKill pid sig = some r ∧ Refines r.state (q.kill pid sig) ∧ Runs r.state (q.kill pid sig) := by
  unfold State.sysKill Queues.kill
  rw [h.hasPid, h.current, h.find_run, h.find_wait]
  by_cases hsig : sig = sigkill
  · rw [if_pos hsig, if_pos hsig]
    by_cases hself : q.hasPid pid q.current = true
    · rw [if_pos hself, if_pos hself]
      exact h.sysExit hne
    · rw [if_neg hself, if_neg hself, List.find?_append]
      have hother : ∀ {n}, q.hasPid pid n = true → n ≠ q.current := fun hp he => hself (he ▸ hp)
      cases hrun : q.run.find? (q.hasPid pid) with
      | some n =>
        exact h.killTask hruns hne (List.mem_append_left _ (List.mem_of_find?_eq_some hrun))
          (hother (List.find?_some hrun))
      | none =>
        cases hwait : q.wait.find? (q.hasPid pid) with
        | some n =>
          exact h.killTask hruns hne (List.mem_append_right _ (List.mem_of_find?_eq_some hwait))
            (hother (List.find?_some hwait))
        | none => exact ⟨_, rfl, h, hruns⟩
  · rw [if_neg hsig, if_neg hsig]
    exact ⟨_, rfl, h, hruns⟩

theorem setAvailPid (h : Refines s q) (pid : Pid) : Refines {s with availPid := pid} {q with availPid := pid} :=
  ⟨h.rings, h.old, h.count, h.room, h.task, rfl, h.top⟩

/-- A fresh task at the head of the queue. -/
theorem addFresh (h : Refines s q) (t : Task) :
    Refines ((s.newTask.2.setTask s.newTask.1 t).addTasktoQueueHead s.newTask.1).2 ((q.fresh t).addHead (.task q.top)) := by
  have hnode : s.newTask.1 = .task q.top := congrArg Node.task h.top
  have hfresh := h.fresh t
  rw [hnode] at hfresh ⊢
  exact hfresh.addHead h.notMem_top (Nat.lt_succ_self q.top)

/-- The running task is not one that has just been allocated. -/
theorem current_ne_new (h : Refines s q) (hne : q.run ≠ []) : s.getCurrentTask ≠ s.newTask.1 := by
  have hnode : s.newTask.1 = .task q.top := congrArg Node.task h.top
  rw [h.current, hnode]
  exact ne_of_mem_of_not_mem (List.mem_append_left _ (q.current_mem hne)) h.notMem_top

theorem sysFork (h : Refines s q) (hruns : Runs s q) (hne : q.run ≠ []) :
    Refines s.sysFork.state q.fork ∧ Runs s.sysFork.state q.fork := by
  -- the order in which the child is queued and filled in makes no difference
  have hfork : s.sysFork.state = {((s.newTask.2.setTask s.newTask.1
      ⟨s.availPid + 1, (s.task s.getCurrentTask).pid, false, 0⟩).addTasktoQueueHead s.newTask.1).2 with
        availPid := s.availPid + 1} := by
    have hparent : (s.newTask.2.addTasktoQueueHead s.newTask.1).2.task s.getCurrentTask = s.task s.getCurrentTask := by
      rw [State.addHead_task]
      exact Function.update_of_ne (h.current_ne_new hne) _ _
    have hpid : (s.newTask.2.addTasktoQueueHead s.newTask.1).2.availPid = s.availPid := State.addHead_availPid ..
    unfold State.sysFork
    dsimp only
    rw [State.addHead_setTask, hparent, hpid]
    rfl
  have hadd := (h.addFresh ⟨s.availPid + 1, (s.task s.getCurrentTask).pid, false, 0⟩).setAvailPid (s.availPid + 1)
  rw [h.current, h.task, h.availPid] at hadd hfork
  rw [hfork]
  refine ⟨hadd, fun _ => ?_⟩
  show ((s.newTask.2.setTask s.newTask.1 _).addTasktoQueueHead s.newTask.1).2.running = _
  rw [State.addHead_running]
  exact (hruns hne).trans (Queues.addHead_current (q.fresh _) _ hne).1.symm

theorem execChild (h : Refines s q) (hne : q.run ≠ []) : Refines s.execChild.2
    ((q.fresh ⟨(q.task q.current).pid, (q.task q.current).ppid, false, 0⟩).setTask q.current
      {q.task q.current with ppid := 0}) := by
  have hcur := h.current_ne_new hne
  have hnode : s.newTask.1 = .task q.top := congrArg Node.task h.top
  have hpid : s.availPid + 1 - 1 = s.availPid := BitVec.add_sub_cancel ..
  have hcreate : s.createProcess.2.task = Function.update s.task s.newTask.1 ⟨s.availPid + 1, 0, false, 0⟩ := by
    show Function.update s.newTask.2.task s.newTask.1 {s.newTask.2.task s.newTask.1 with pid := s.availPid + 1} = _
    have hnew : s.newTask.2.task = Function.update s.task s.newTask.1 ⟨0, 0, false, 0⟩ := rfl
    rw [hnew, Function.update_idem, Function.update_self]
  have hparent : s.createProcess.2.task s.getCurrentTask = s.task s.getCurrentTask := by
    rw [hcreate, Function.update_of_ne hcur]
  have hchild : s.createProcess.2.task s.newTask.1 = ⟨s.availPid + 1, 0, false, 0⟩ := by
    rw [hcreate, Function.update_self]
  have hsame : s.createProcess.2.getCurrentTask = s.getCurrentTask := by
    show Function.update s.links.prev (.task s.top) .null .runQueue = s.links.prev .runQueue
    exact Function.update_of_ne (by simp) _ _
  have htask : s.execChild.2.task = Function.update (Function.update s.task s.newTask.1
      ⟨(s.task s.getCurrentTask).pid, (s.task s.getCurrentTask).ppid, false, 0⟩) s.getCurrentTask
      {s.task s.getCurrentTask with ppid := 0} := by
    have hfirst : s.createProcess.1 = s.newTask.1 := rfl
    unfold State.execChild State.setTask
    dsimp only
    rw [hsame, hparent, hfirst, hchild, Function.update_of_ne hcur, hparent, hcreate, Function.update_idem]
  have hfresh := h.fresh ⟨(q.task q.current).pid, (q.task q.current).ppid, false, 0⟩
  refine ⟨hfresh.rings, hfresh.old, hfresh.count, hfresh.room, ?_, hpid.trans h.availPid, hfresh.top⟩
  rw [htask, h.current, h.task, hnode]
  rfl

theorem sysExecve (h : Refines s q) (hruns : Runs s q) (hne : q.run ≠ []) (isFile : Bool) :
    ∃ r, s.sysExecve isFile = some r ∧ Refines r.state (q.execve isFile) ∧ Runs r.state (q.execve isFile) := by
  unfold State.sysExecve Queues.execve
  cases isFile with
  | false => exact ⟨_, rfl, h, hruns⟩
  | true =>
    rw [if_pos rfl, if_pos rfl]
    have hnode : s.execChild.1 = .task q.top := congrArg Node.task h.top
    have hadd := (h.execChild hne).addHead h.notMem_top (Nat.lt_succ_self q.top)
    obtain ⟨r, hr, hexit⟩ := hadd.sysExit (Queues.addHead_current ((q.fresh _).setTask _ _) _ hne).2
    dsimp only
    rw [hnode, hr]
    exact ⟨_, rfl, hexit⟩

end Refines

/-- Every operation on the pointers does to them what it does to the lists. -/
theorem step_refines (h : Refines s q) (hruns : Runs s q) (hne : q.run ≠ []) (op : Op) :
    ∃ s', step s op = some s' ∧ Refines s' (q.perform op) ∧ Runs s' (q.perform op) := by
  have hstay : ∀ {s' q'}, s'.running = s.running → q'.current = q.current → Runs s' q' := by
    intro s' q' hs hq _
    rw [hs, hq]
    exact hruns hne
  cases op with
  | add pid ppid =>
    refine ⟨_, rfl, h.addFresh _, hstay ?_ (Queues.addHead_current (q.fresh _) _ hne).1⟩
    exact State.addHead_running ..
  | fork => exact ⟨_, rfl, h.sysFork hruns hne⟩
  | execve isFile =>
    obtain ⟨r, hr, href⟩ := h.sysExecve hruns hne isFile
    exact ⟨r.state, by rw [step, hr]; rfl, href⟩
  | exit =>
    obtain ⟨r, hr, href⟩ := h.sysExit hne
    exact ⟨r.state, by rw [step, hr]; rfl, href⟩
  | sleep seconds => exact ⟨_, rfl, h.sysSleep hne seconds⟩
  | waitpid pid =>
    obtain ⟨r, hr, href⟩ := h.sysWaitpid hruns hne pid
    exact ⟨r.state, by rw [step, hr]; rfl, href⟩
  | awakepid pid =>
    obtain ⟨s', hs', h', hrunning⟩ := h.awakepid pid
    exact ⟨s', hs', h', hstay hrunning (Queues.awakepid_current q pid hne).1⟩
  | kill pid sig =>
    obtain ⟨r, hr, href⟩ := h.sysKill hruns hne pid sig
    exact ⟨r.state, by rw [step, hr]; rfl, href⟩
  | schedule => exact ⟨_, rfl, h.schedule⟩

end Sbnix.Sched
