import Sbnix.Sched.Queue

/-! Round robin.

`schedule` dispatches the first task of `runQueue` and makes it the last one. The edit is
made on the pointers, where with one task the node to be moved is its own neighbour's
neighbour, and with two it is next to the head on both sides. -/
namespace Sbnix.Sched
open Library

variable {l : Lists} {s : State} {n : Node} {rest run : List Node}

/-- The tasks that `k` calls of `schedule` dispatch, in turn. -/
def State.dispatched : State → Nat → List Node
  | _, 0 => []
  | s, k + 1 => s.schedule.running :: s.schedule.dispatched k

/-- The first entry, moved to the end. -/
theorem ring_moveTail (h : Ring l .runQueue (n :: rest)) : Ring (listMoveTail l n .runQueue) .runQueue (rest ++ [n]) := by
  have hnew : n ∉ Node.runQueue :: rest := by
    have hnd := h.nodup
    simp only [List.nodup_cons, List.mem_cons, not_or] at hnd
    rw [List.mem_cons, not_or]
    exact ⟨fun he => hnd.1.1 he.symm, hnd.2.1⟩
  have hfront : Ring l .runQueue ([] ++ n :: rest) := h
  have hdel : Ring (listDelEntry l n) .runQueue ([] ++ rest) := hfront.remove
  exact hdel.pushBack hnew

/-- One call: the head of the queue runs, and the queue is rotated by one. -/
theorem schedule_ring (h : Ring s.links .runQueue (n :: rest)) :
    s.schedule.running = n ∧ Ring s.schedule.links .runQueue (rest ++ [n]) := by
  have hnext : s.getNextTask = n := h.next_head
  have hempty : ¬ listEmpty s.links .runQueue = true := by
    rw [listEmpty, decide_eq_true_iff, h.next_head_eq_head]
    exact List.cons_ne_nil n rest
  unfold State.schedule
  rw [if_neg hempty]
  dsimp only
  rw [hnext]
  exact ⟨rfl, ring_moveTail h⟩

theorem schedule_rotate (h : Ring s.links .runQueue run) (hne : run ≠ []) :
    Ring s.schedule.links .runQueue (run.rotate 1) := by
  cases run with
  | nil => exact absurd rfl hne
  | cons n rest =>
    rw [List.rotate_cons_succ, List.rotate_zero]
    exact (schedule_ring h).2

/-- `k` calls rotate by `k`. -/
theorem schedules_rotate (h : Ring s.links .runQueue run) (hne : run ≠ []) (k : Nat) :
    Ring (State.schedule^[k] s).links .runQueue (run.rotate k) := by
  induction k with
  | zero =>
    rw [List.rotate_zero]
    exact h
  | succ k ih =>
    have hne' : run.rotate k ≠ [] := fun he => hne (List.rotate_eq_nil_iff.mp he)
    rw [Function.iterate_succ_apply', ← List.rotate_rotate]
    exact schedule_rotate ih hne'

/-- As many calls as there are tasks in front of `ys` dispatch just these, in order. -/
theorem dispatched_append {xs ys : List Node} (h : Ring s.links .runQueue (xs ++ ys)) : s.dispatched xs.length = xs := by
  induction xs generalizing s ys with
  | nil => rfl
  | cons x xs ih =>
    rw [List.cons_append] at h
    obtain ⟨hx, hrest⟩ := schedule_ring h
    rw [List.append_assoc] at hrest
    show s.schedule.running :: s.schedule.dispatched xs.length = x :: xs
    rw [hx, ih hrest]

theorem dispatched_round (h : Ring s.links .runQueue run) : s.dispatched run.length = run := by
  rw [← List.append_nil run] at h
  exact dispatched_append h

/-- Each call dispatches the task at the head, and after `k` of them the queue is the first
one rotated by `k` modulo its length, a circular list again; the next `n` calls dispatch
its `n` tasks, each of them once, in the order of the queue. -/
theorem round_robin (s : State) (run : List Node) (h : Ring s.links .runQueue run) (hne : run ≠ []) (k : Nat) :
    Ring (State.schedule^[k] s).links .runQueue (run.rotate (k % run.length)) ∧
    (∀ c ∈ Node.runQueue :: run,
      (State.schedule^[k] s).links.prev ((State.schedule^[k] s).links.next c) = c ∧
      (State.schedule^[k] s).links.next ((State.schedule^[k] s).links.prev c) = c) ∧
    (State.schedule^[k + 1] s).running = (run.rotate (k % run.length)).headD .runQueue ∧
    (State.schedule^[k] s).dispatched run.length = run.rotate (k % run.length) ∧
    ∀ c ∈ run, ((State.schedule^[k] s).dispatched run.length).count c = 1 := by
  have hk : Ring (State.schedule^[k] s).links .runQueue (run.rotate (k % run.length)) := by
    rw [List.rotate_mod]
    exact schedules_rotate h hne k
  have hround : (State.schedule^[k] s).dispatched run.length = run.rotate (k % run.length) := by
    have hall := dispatched_round hk
    rwa [List.length_rotate] at hall
  have hnd : (run.rotate (k % run.length)).Nodup := (List.nodup_cons.mp hk.nodup).2
  refine ⟨hk, fun c hc => hk.inverse c ?_, ?_, hround, fun c hc => ?_⟩
  · rw [List.mem_cons, List.mem_rotate]
    exact List.mem_cons.mp hc
  · rw [Function.iterate_succ_apply']
    cases hrot : run.rotate (k % run.length) with
    | nil => exact absurd (List.rotate_eq_nil_iff.mp hrot) hne
    | cons n rest =>
      rw [hrot] at hk
      exact (schedule_ring hk).1
  · rw [hround]
    exact List.count_eq_one_of_mem hnd (List.mem_rotate.mpr hc)

/-- Idle and the shell, after five ticks. -/
theorem round_robin_boot : ∃ run : List Node, run.length = 2 ∧ Ring State.boot.links .runQueue run ∧
    Ring (State.schedule^[5] State.boot).links .runQueue (run.rotate 1) ∧
    (State.schedule^[5] State.boot).dispatched 2 = run.rotate 1 := by
  have hboot : Ring State.boot.links .runQueue [.task 0, .task 1] := ⟨by decide, rfl, rfl, rfl, rfl, rfl, rfl⟩
  have h := round_robin State.boot [.task 0, .task 1] hboot (by decide) 5
  exact ⟨[.task 0, .task 1], rfl, hboot, h.1, h.2.2.2.1⟩

end Sbnix.Sched
