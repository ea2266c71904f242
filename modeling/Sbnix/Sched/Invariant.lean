import Sbnix.Sched.Model

/-! The representation invariant.

Every call finds the process that makes it as the last entry of `runQueue`, so each of
the operations has to keep that cell right, also those that insert at the head, move
tasks between the queues or delete them. `queues_wellFormed` says that they do, in any
order, as long as the idle task stays out of it: it makes no call and is not killed, so
there is always a task to switch to. -/
namespace Sbnix.Sched
open Library

/-- The idle task makes no system call, and nobody kills it. The timer may interrupt
anyone. -/
def Allowed (s : State) : Op → Prop
  | .schedule => True
  | .kill pid _ => s.running ≠ State.idle ∧ pid ≠ (s.task State.idle).pid.setWidth 32
  | _ => s.running ≠ State.idle

instance (s : State) : ∀ op, Decidable (Allowed s op)
  | .schedule => inferInstanceAs (Decidable True)
  | .kill _ _ => inferInstanceAs (Decidable (_ ∧ _))
  | .add _ _ | .fork | .execve _ | .exit | .sleep _ | .waitpid _ | .awakepid _ => inferInstanceAs (Decidable (_ ≠ _))

/-- With nothing on `runQueue` no call is made. -/
def Manned (s : State) (op : Op) : Prop := op ≠ .schedule → listEmpty s.links .runQueue = false

instance (s : State) (op : Op) : Decidable (Manned s op) := inferInstanceAs (Decidable (_ → _))

/-- The queues are `run` and `wait`, and the last of `run` is the running task. -/
structure WellFormed (s : State) (run wait : List Node) : Prop where
  runRing : Ring s.links .runQueue run
  waitRing : Ring s.links .waitQueue wait
  inverse : ∀ n ∈ (.runQueue :: run) ++ (.waitQueue :: wait), s.links.prev (s.links.next n) = n ∧ s.links.next (s.links.prev n) = n
  nodup : (run ++ wait).Nodup
  tasks : ∀ n ∈ run ++ wait, ∃ t, n = .task t
  count : s.numTask = (run ++ wait).length
  room : s.numTask ≤ nrTasks
  nonempty : run ≠ []
  current : run.getLast? = some s.running ∧ s.getCurrentTask = s.running

/-! ### A task that does not run stays on the queue -/

namespace Queues
variable {q : Queues} {n : Node}

theorem mem_addHead (h : n ∈ q.run) (m : Node) : n ∈ (q.addHead m).run := by
  unfold addHead
  split
  · exact List.mem_cons_of_mem m h
  · exact h

theorem mem_awakepid (h : n ∈ q.run) (pid : PidT) : n ∈ (q.awakepid pid).run := by
  unfold awakepid
  split
  · exact List.mem_cons_of_mem _ h
  · exact h

theorem mem_schedule (h : n ∈ q.run) : n ∈ q.schedule.run := List.mem_rotate.mpr h

theorem mem_delete (h : n ∈ q.run) {m : Node} (hm : m ≠ n) : n ∈ (q.delete m).run :=
  (List.mem_erase_of_ne hm.symm).mpr h

theorem mem_exit (h : n ∈ q.run) (hn : q.current ≠ n) : n ∈ q.exit.run :=
  mem_schedule (mem_delete (mem_awakepid h _) hn)

theorem mem_block (h : n ∈ q.run) (hn : q.current ≠ n) : n ∈ q.block.schedule.run :=
  mem_schedule ((List.mem_erase_of_ne hn.symm).mpr h)

theorem mem_perform (h : n ∈ q.run) {op : Op} (hn : op ≠ .schedule → q.current ≠ n)
    (hkill : ∀ pid sig, op = .kill pid sig → q.hasPid pid n = false) : n ∈ (q.perform op).run := by
  cases op with
  | add pid ppid => exact mem_addHead (q := q.fresh _) h _
  | fork => exact mem_addHead (q := q.fresh _) h _
  | execve isFile =>
    have hcur := hn (by simp)
    show n ∈ (q.execve isFile).run
    unfold execve
    split
    · refine mem_exit (mem_addHead (q := (q.fresh _).setTask _ _) h _) ?_
      rw [(addHead_current ((q.fresh _).setTask _ _) _ (List.ne_nil_of_mem h)).1]
      exact hcur
    · exact h
  | exit => exact mem_exit h (hn (by simp))
  | sleep seconds => exact mem_block (q := q.setTask _ _) h (hn (by simp))
  | waitpid pid =>
    show n ∈ (q.waitpid pid).run
    unfold waitpid
    split
    · exact mem_block h (hn (by simp))
    · exact h
  | awakepid pid => exact mem_awakepid h pid
  | kill pid sig =>
    have hpid := hkill pid sig rfl
    show n ∈ (q.kill pid sig).run
    unfold kill
    split
    · split
      · exact mem_exit h (hn (by simp))
      · split
        · rename_i m hfind
          have hm : m ≠ n := by
            rintro rfl
            rw [List.find?_some hfind] at hpid
            cases hpid
          exact mem_delete (mem_awakepid h _) hm
        · exact h
    · exact h
  | schedule => exact mem_schedule h

end Queues

/-! ### Runs from boot -/

def bootQueues : Queues := ⟨[.task 0, .task 1], [], State.boot.task, 2, 2⟩

theorem boot_refines : Refines State.boot bootQueues where
  rings :=
    { run := ⟨by decide, rfl, rfl, rfl, rfl, rfl, rfl⟩
      wait := ⟨by decide, rfl, rfl⟩
      nodup := by decide
      tasks := fun n hn => by
        simp only [bootQueues, List.append_nil, List.mem_cons, List.not_mem_nil, or_false] at hn
        rcases hn with rfl | rfl
        · exact ⟨0, rfl⟩
        · exact ⟨1, rfl⟩ }
  old := fun t ht => by
    simp only [bootQueues, List.append_nil, List.mem_cons, Node.task.injEq, List.not_mem_nil, or_false] at ht
    show t < 2
    omega
  count := rfl
  room := by decide
  task := rfl
  availPid := rfl
  top := rfl

theorem boot_runs : Runs State.boot bootQueues := fun _ => rfl

/-- The pointers represent two queues, and idle is on the first. -/
def Represented (s : State) : Prop := ∃ q, Refines s q ∧ Runs s q ∧ State.idle ∈ q.run

theorem Represented.manned {s : State} (hs : Represented s) (op : Op) : Manned s op := by
  obtain ⟨q, h, _, hidle⟩ := hs
  intro _
  rw [← Bool.not_eq_true, h.listEmpty_run]
  exact List.ne_nil_of_mem hidle

theorem Represented.step {s : State} (hs : Represented s) {op : Op} (hop : Allowed s op) :
    ∃ s', step s op = some s' ∧ Represented s' := by
  obtain ⟨q, h, hruns, hidle⟩ := hs
  have hne : q.run ≠ [] := List.ne_nil_of_mem hidle
  obtain ⟨s', hs', h', hruns'⟩ := step_refines h hruns hne op
  refine ⟨s', hs', q.perform op, h', hruns', Queues.mem_perform hidle ?_ ?_⟩
  · intro hsched
    rw [← hruns hne]
    cases op with
    | schedule => exact absurd rfl hsched
    | kill pid sig => exact hop.1
    | _ => exact hop
  · intro pid sig he
    subst he
    rw [← h.hasPid, State.hasPid, beq_eq_false_iff_ne]
    exact fun he => hop.2 he.symm

/-- As long as idle has no part in it, there is a task to make every call. -/
theorem manned_of_allowed {ops : List Op} (h : Along step Allowed State.boot ops) : Along step Manned State.boot ops := by
  refine along_imp (fun _ op (hs : Represented _) _ => hs.manned op) (fun s op s' hs hop hstep => ?_)
    ⟨bootQueues, boot_refines, boot_runs, by decide⟩ h
  obtain ⟨t, ht, hrep⟩ := hs.step hop
  obtain rfl := Option.some.inj (ht.symm.trans hstep)
  exact hrep

theorem Represented.wellFormed {s : State} (hs : Represented s) : ∃ run wait, WellFormed s run wait := by
  obtain ⟨q, h, hruns, hidle⟩ := hs
  have hne : q.run ≠ [] := List.ne_nil_of_mem hidle
  refine ⟨q.run, q.wait, h.rings.run, h.rings.wait, fun n hn => ?_, h.rings.nodup, h.rings.tasks, ?_, h.room, hne, ?_, ?_⟩
  · rcases List.mem_append.mp hn with hn | hn
    · exact h.rings.run.inverse n hn
    · exact h.rings.wait.inverse n hn
  · rw [List.length_append]
    exact h.count
  · rw [hruns hne, Queues.current, List.getLastD_eq_getLast?, List.getLast?_eq_some_getLast hne]
    rfl
  · rw [h.current, hruns hne]

/-- From boot, after any operations the idle task has no part in: the pointers are those
of two circular lists of tasks, `num_task` is their number, and the last entry of
`runQueue` is the task dispatched last. -/
theorem queues_wellFormed (ops : List Op) (hops : Along step Allowed State.boot ops) :
    ∃ s, run step State.boot ops = some s ∧ ∃ runQ waitQ, WellFormed s runQ waitQ := by
  obtain ⟨s, hs, hinv⟩ := progress (fun s op hs hop => Represented.step hs hop)
    (⟨bootQueues, boot_refines, boot_runs, by decide⟩ : Represented State.boot) hops
  exact ⟨s, hs, hinv.wellFormed⟩

/-- The shell forks and waits for the child, which exits. -/
theorem queues_wellFormed_wait :
    ∃ s, run step State.boot [.fork, .waitpid 3, .exit] = some s ∧ ∃ runQ waitQ, WellFormed s runQ waitQ :=
  queues_wellFormed [.fork, .waitpid 3, .exit] (by decide)

end Sbnix.Sched
