import Sbnix.Sched.Pids

/-! How long a task waits for its turn.

Whoever is added to `runQueue` goes to its head: a child, the task that replaces a caller
of `sys_execve`, a task that is woken. All of them come before the tasks that are waiting
already. `waits_boundedly` says that nothing else holds a task up: with `p` tasks in
front of it, it is dispatched at the latest by the dispatch after as many as `p` and the
arrivals together. `starved_by_children` says that there is no bound without counting the
arrivals: a program that forks, and whose children do the same and exit, keeps everyone
else from running for as long as it likes. -/
namespace Sbnix.Sched
open Library

/-- The operation ends in `schedule`. -/
def State.dispatches (s : State) : Op → Bool
  | .schedule | .exit | .sleep _ => true
  | .waitpid pid => s.queued.any (s.hasPid pid)
  | .execve isFile => isFile
  | .kill pid sig => sig == sigkill && s.hasPid pid s.getCurrentTask
  | .add _ _ | .fork | .awakepid _ => false

/-- The number of tasks that the operation brings to `runQueue`. -/
def State.arrivals (s : State) (op : Op) : Nat :=
  (step s op).elim 0 fun s' => ((s'.entries .runQueue).filter (· ∉ s.entries .runQueue)).length

/-- The number of tasks in front of `n`. -/
def State.place (s : State) (n : Node) : Nat := (s.entries .runQueue).idxOf n

/-! ### Positions in a list -/

section
variable {α : Type*} [DecidableEq α] {xs ys news : List α} {n : α}

/-- Taking others away brings an element forward. -/
theorem idxOf_sublist (h : ys.Sublist xs) (hnd : xs.Nodup) (hn : n ∈ ys) : ys.idxOf n ≤ xs.idxOf n := by
  induction h with
  | slnil => exact Nat.le_refl _
  | cons a h ih =>
    obtain ⟨ha, hnd⟩ := List.nodup_cons.mp hnd
    have hne : a ≠ n := fun he => ha (he ▸ h.subset hn)
    rw [List.idxOf_cons_ne _ hne]
    exact Nat.le_succ_of_le (ih hnd hn)
  | cons_cons a h ih =>
    by_cases hne : a = n
    · rw [hne, List.idxOf_cons_self]
      exact Nat.zero_le _
    · rw [List.idxOf_cons_ne _ hne, List.idxOf_cons_ne _ hne]
      exact Nat.succ_le_succ (ih (List.nodup_cons.mp hnd).2 ((List.mem_cons.mp hn).resolve_left (Ne.symm hne)))

/-- Behind newcomers. -/
theorem idxOf_behind (hnews : n ∉ news) : (news ++ ys).idxOf n = news.length + ys.idxOf n :=
  List.idxOf_append_of_notMem hnews

/-- The head goes to the end: it was `n`, or `n` comes one place forward. -/
theorem idxOf_rotate (hn : n ∈ xs) :
    (∃ rest, xs = n :: rest) ∨ (xs.rotate 1).idxOf n + 1 = xs.idxOf n ∧ (xs.rotate 1).getLast? ≠ some n := by
  cases xs with
  | nil => cases hn
  | cons a rest =>
    by_cases ha : a = n
    · exact Or.inl ⟨rest, by rw [ha]⟩
    · right
      have hrest : n ∈ rest := (List.mem_cons.mp hn).resolve_left (Ne.symm ha)
      rw [List.rotate_cons_succ, List.rotate_zero, List.idxOf_append_of_mem hrest, List.idxOf_cons_ne _ ha]
      exact ⟨rfl, by simpa using ha⟩

theorem length_newcomers (hnews : ∀ m ∈ news, m ∉ xs) (hys : ys.Sublist xs) :
    ((news ++ ys).filter (· ∉ xs)).length = news.length := by
  rw [List.filter_append, List.filter_eq_self.mpr (fun m hm => by simpa using hnews m hm),
    List.filter_eq_nil_iff.mpr (fun m hm => by simpa using hys.subset hm), List.append_nil]

end

/-! ### What an operation does to `run` -/

namespace Queues
variable {q : Queues} {n : Node} {op : Op}

def dispatches (q : Queues) : Op → Bool
  | .schedule | .exit | .sleep _ => true
  | .waitpid pid => q.queued.any (q.hasPid pid)
  | .execve isFile => isFile
  | .kill pid sig => sig == sigkill && q.hasPid pid q.current
  | .add _ _ | .fork | .awakepid _ => false

/-- Newcomers go to the front, others may leave, and then the head may go to the end. -/
structure Moves (q q' : Queues) (n : Node) (turn : Bool) (news kept : List Node) : Prop where
  new : ∀ m ∈ news, m ∉ q.run
  left : kept.Sublist q.run
  stays : n ∈ kept
  run : q'.run = if turn then (news ++ kept).rotate 1 else news ++ kept
  current : turn = false → q'.current = q.current

theorem addHead_run (q : Queues) (m : Node) : ∃ news, (∀ x ∈ news, x = m) ∧ (q.addHead m).run = news ++ q.run := by
  unfold addHead
  split
  · exact ⟨[m], fun _ hx => List.mem_singleton.mp hx, rfl⟩
  · exact ⟨[], fun _ hx => absurd hx List.not_mem_nil, rfl⟩

theorem awakepid_run (q : Queues) (pid : PidT) : ∃ news, (∀ x ∈ news, x ∈ q.wait) ∧ (q.awakepid pid).run = news ++ q.run := by
  unfold awakepid
  cases hfind : q.wait.find? (q.hasPid pid) with
  | none => exact ⟨[], fun _ hx => absurd hx List.not_mem_nil, rfl⟩
  | some m =>
    refine ⟨[m], fun x hx => ?_, rfl⟩
    rw [List.mem_singleton.mp hx]
    exact List.mem_of_find?_eq_some hfind

theorem notMem_run_of_wait (hnd : q.queued.Nodup) (h : n ∈ q.wait) : n ∉ q.run :=
  fun hr => (List.nodup_append.mp hnd).2.2 n hr n h rfl

/-- A task that is not `n` is taken off the queues. -/
theorem delete_run (q : Queues) {m : Node} {news old : List Node} (h : q.run = news ++ old) (hm : m ≠ n) (hn : n ∈ old) :
    ∃ news' kept, (∀ x ∈ news', x ∈ news) ∧ kept.Sublist old ∧ n ∈ kept ∧ (q.delete m).run = news' ++ kept := by
  show ∃ news' kept, _ ∧ _ ∧ _ ∧ q.run.erase m = _
  rw [h, List.erase_append]
  split
  · exact ⟨news.erase m, old, fun x hx => List.mem_of_mem_erase hx, List.Sublist.refl _, hn, rfl⟩
  · exact ⟨news, old.erase m, fun _ hx => hx, List.erase_sublist .., (List.mem_erase_of_ne hm.symm).mpr hn, rfl⟩

theorem remove_run (q : Queues) {m : Node} {news old : List Node} (h : q.run = news ++ old) (hm : m ≠ n) (hn : n ∈ old) :
    ∃ news' kept, (∀ x ∈ news', x ∈ q.wait ∨ x ∈ news) ∧ kept.Sublist old ∧ n ∈ kept ∧ (q.remove m).run = news' ++ kept := by
  obtain ⟨woken, hwoken, hrun⟩ := awakepid_run q ((q.task m).ppid.setWidth 32)
  rw [h, ← List.append_assoc] at hrun
  obtain ⟨news', kept, hnews, hkept, hstay, hdel⟩ := delete_run _ hrun hm hn
  refine ⟨news', kept, fun x hx => ?_, hkept, hstay, hdel⟩
  obtain hx | hx := List.mem_append.mp (hnews x hx)
  · exact Or.inl (hwoken x hx)
  · exact Or.inr hx

theorem exit_moves (hnd : q.queued.Nodup) (hn : n ∈ q.run) (hcur : q.current ≠ n) :
    ∃ news kept, Moves q q.exit n true news kept := by
  obtain ⟨news, kept, hnews, hkept, hstay, hrun⟩ := remove_run q (List.nil_append q.run).symm hcur hn
  refine ⟨news, kept, fun m hm => ?_, hkept, hstay, ?_, fun hc => nomatch hc⟩
  · exact notMem_run_of_wait hnd ((hnews m hm).resolve_right List.not_mem_nil)
  · rw [exit_eq, if_pos rfl, ← hrun]
    rfl

theorem block_moves (hn : n ∈ q.run) (hcur : q.current ≠ n) : ∃ news kept, Moves q q.block.schedule n true news kept :=
  ⟨[], q.run.erase q.current, fun _ hm => absurd hm List.not_mem_nil, List.erase_sublist ..,
    (List.mem_erase_of_ne hcur.symm).mpr hn, rfl, fun hc => nomatch hc⟩

theorem fresh_moves (hfresh : Node.task q.top ∉ q.queued) (t : Task) (hn : n ∈ q.run) :
    ∃ news kept, Moves q ((q.fresh t).addHead (.task q.top)) n false news kept := by
  obtain ⟨news, hnews, hrun⟩ := addHead_run (q.fresh t) (.task q.top)
  refine ⟨news, q.run, fun m hm hr => ?_, List.Sublist.refl _, hn, hrun, fun _ => ?_⟩
  · rw [hnews m hm] at hr
    exact hfresh (List.mem_append_left _ hr)
  · exact (addHead_current (q.fresh t) _ (List.ne_nil_of_mem hn)).1

theorem execve_moves (hnd : q.queued.Nodup) (hfresh : Node.task q.top ∉ q.queued) (hn : n ∈ q.run) (hcur : q.current ≠ n) :
    ∃ news kept, Moves q (q.execve true) n true news kept := by
  obtain ⟨added, hadded, hrun⟩ := addHead_run ((q.fresh ⟨(q.task q.current).pid, (q.task q.current).ppid, false, 0⟩).setTask
    q.current {q.task q.current with ppid := 0}) (.task q.top)
  have hcur' : q.replaced.current ≠ n := by
    rw [q.replaced_current (List.ne_nil_of_mem hn)]
    exact hcur
  obtain ⟨news, kept, hnews, hkept, hstay, hremove⟩ := remove_run q.replaced hrun hcur' hn
  have hwait : q.replaced.wait = q.wait := addHead_wait ((q.fresh _).setTask _ _) _
  refine ⟨news, kept, fun m hm hr => ?_, hkept, hstay, ?_, fun hc => nomatch hc⟩
  · obtain hm | hm := hnews m hm
    · rw [hwait] at hm
      exact notMem_run_of_wait hnd hm hr
    · rw [hadded m hm] at hr
      exact hfresh (List.mem_append_left _ hr)
  · rw [execve_true, exit_eq, if_pos rfl, ← hremove]
    rfl

theorem perform_moves (hnd : q.queued.Nodup) (hfresh : Node.task q.top ∉ q.queued) (hn : n ∈ q.run) (hcur : q.current ≠ n)
    (hkill : ∀ pid sig, op = .kill pid sig → q.hasPid pid n = false) :
    ∃ news kept, Moves q (q.perform op) n (q.dispatches op) news kept := by
  have hsame : ∃ news kept, Moves q q n false news kept :=
    ⟨[], q.run, fun _ hm => absurd hm List.not_mem_nil, List.Sublist.refl _, hn, rfl, fun _ => rfl⟩
  cases op with
  | add pid ppid => exact fresh_moves hfresh _ hn
  | fork =>
    obtain ⟨news, kept, h⟩ := fresh_moves hfresh ⟨q.availPid + 1, (q.task q.current).pid, false, 0⟩ hn
    exact ⟨news, kept, h.new, h.left, h.stays, h.run, h.current⟩
  | execve isFile =>
    cases isFile with
    | false => exact hsame
    | true => exact execve_moves hnd hfresh hn hcur
  | exit => exact exit_moves hnd hn hcur
  | sleep seconds =>
    obtain ⟨news, kept, h⟩ := block_moves (q := q.setTask q.current {q.task q.current with
      isSleep := true, sleepTime := seconds }) hn hcur
    exact ⟨news, kept, h.new, h.left, h.stays, h.run, h.current⟩
  | waitpid pid =>
    show ∃ news kept, Moves q (q.waitpid pid) n ((q.run ++ q.wait).any (q.hasPid pid)) news kept
    unfold waitpid
    split
    · rename_i hany
      rw [hany]
      exact block_moves hn hcur
    · rename_i hany
      rw [Bool.eq_false_iff.mpr hany]
      exact hsame
  | awakepid pid =>
    obtain ⟨news, hnews, hrun⟩ := awakepid_run q pid
    exact ⟨news, q.run, fun m hm => notMem_run_of_wait hnd (hnews m hm), List.Sublist.refl _, hn, hrun,
      fun _ => (awakepid_current q pid (List.ne_nil_of_mem hn)).1⟩
  | kill pid sig =>
    have hpid := hkill pid sig rfl
    show ∃ news kept, Moves q (q.kill pid sig) n (sig == sigkill && q.hasPid pid q.current) news kept
    unfold kill
    by_cases hsig : sig = sigkill
    · rw [if_pos hsig, hsig, beq_self_eq_true, Bool.true_and]
      cases hself : q.hasPid pid q.current with
      | true =>
        rw [if_pos rfl]
        exact exit_moves hnd hn hcur
      | false =>
        rw [if_neg (by simp)]
        cases hfind : (q.run ++ q.wait).find? (q.hasPid pid) with
        | none => exact hsame
        | some m =>
          have hm : m ≠ n := by
            rintro rfl
            rw [List.find?_some hfind] at hpid
            cases hpid
          have hmcur : m ≠ q.current := by
            rintro rfl
            rw [List.find?_some hfind] at hself
            cases hself
          obtain ⟨news, kept, hnews, hkept, hstay, hrun⟩ := remove_run q (List.nil_append q.run).symm hm hn
          refine ⟨news, kept, fun x hx => ?_, hkept, hstay, hrun, fun _ => ?_⟩
          · exact notMem_run_of_wait hnd ((hnews x hx).resolve_right List.not_mem_nil)
          · obtain ⟨hcur', hne'⟩ := awakepid_current q ((q.task m).ppid.setWidth 32) (List.ne_nil_of_mem hn)
            exact (current_delete _ (by rw [hcur']; exact hmcur) hne').1.trans hcur'
    · have hbeq : (sig == sigkill) = false := beq_eq_false_iff_ne.mpr hsig
      rw [if_neg hsig, hbeq]
      exact hsame
  | schedule =>
    exact ⟨[], q.run, fun _ hm => absurd hm List.not_mem_nil, List.Sublist.refl _, hn, rfl, fun hc => nomatch hc⟩

/-- The task is dispatched, or the dispatch, if there is one, has brought it forward. -/
theorem Moves.place {q' : Queues} {turn : Bool} {news kept : List Node} (h : Moves q q' n turn news kept) (hnd : q.run.Nodup)
    (hn : n ∈ q.run) (hcur : q.current ≠ n) :
    (turn = true ∧ q'.current = n) ∨ (n ∈ q'.run ∧ q'.current ≠ n ∧
      q'.run.idxOf n + turn.toNat ≤ q.run.idxOf n + (q'.run.filter (· ∉ q.run)).length) := by
  have hplace : (news ++ kept).idxOf n ≤ q.run.idxOf n + news.length := by
    rw [idxOf_behind (fun hm => h.new n hm hn)]
    have := idxOf_sublist h.left hnd h.stays
    omega
  have hmem : n ∈ news ++ kept := List.mem_append_right _ h.stays
  have hnew := length_newcomers h.new h.left
  have hrun := h.run
  cases turn with
  | false =>
    rw [if_neg (by simp)] at hrun
    refine Or.inr ⟨hrun ▸ hmem, by rw [h.current rfl]; exact hcur, ?_⟩
    rw [hrun, hnew]
    exact hplace
  | true =>
    rw [if_pos rfl] at hrun
    obtain ⟨rest, hhead⟩ | ⟨hforward, hlast⟩ := idxOf_rotate hmem
    · refine Or.inl ⟨rfl, ?_⟩
      rw [Queues.current, hrun, hhead, List.rotate_cons_succ, List.rotate_zero, List.getLastD_concat]
    · have hperm := ((List.rotate_perm (news ++ kept) 1).filter (· ∉ q.run)).length_eq
      have hne : q'.run ≠ [] := by
        rw [hrun]
        exact List.ne_nil_of_mem (List.mem_rotate.mpr hmem)
      refine Or.inr ⟨?_, fun hc => hlast ?_, ?_⟩
      · rw [hrun, List.mem_rotate]
        exact hmem
      · rw [← hrun, List.getLast?_eq_some_getLast hne, ← hc, Queues.current,
          List.getLastD_eq_getLast?,
          List.getLast?_eq_some_getLast hne]
        rfl
      · rw [hrun, hperm, hnew]
        show _ + 1 ≤ _
        omega

end Queues

/-! ### Bounded waiting -/

section
variable {s s' : State} {q : Queues} {n : Node} {op : Op}

theorem Refines.dispatches (h : Refines s q) (op : Op) : s.dispatches op = q.dispatches op := by
  cases op with
  | waitpid pid =>
    show s.queued.any (s.hasPid pid) = _
    rw [h.queued, h.hasPid]
    rfl
  | kill pid sig =>
    show (sig == sigkill && s.hasPid pid s.getCurrentTask) = _
    rw [h.current, h.hasPid]
    rfl
  | _ => rfl

/-- The task waits on `runQueue`. -/
def Waits (n : Node) (s : State) : Prop :=
  ∃ q, Refines s q ∧ Runs s q ∧ State.idle ∈ q.run ∧ n ∈ q.run ∧ q.current ≠ n

/-- Idle stays out of it, and nobody kills the task. -/
def Spares (n : Node) (s : State) (op : Op) : Prop := Allowed s op ∧ ∀ pid sig, op = .kill pid sig → s.hasPid pid n = false

/-- One operation: the task is dispatched, or it goes on waiting, and the dispatch has brought it
forward by as much as the arrivals have not put it back. -/
theorem waits_step (h : Waits n s) (hop : Spares n s op) (hs : step s op = some s') :
    s'.running = n ∨ (Waits n s' ∧ s'.place n + (s.dispatches op).toNat ≤ s.place n + s.arrivals op) := by
  obtain ⟨q, href, hruns, hidle, hn, hcur⟩ := h
  obtain ⟨hallowed, hkill⟩ := hop
  have hrep : Represented s := ⟨q, href, hruns, hidle⟩
  obtain ⟨href', hruns', _⟩ := href.step hruns (hrep.manned op) hs
  have hnd : q.queued.Nodup := href.rings.nodup
  obtain ⟨news, kept, hmoves⟩ := Queues.perform_moves hnd href.notMem_top hn hcur fun pid sig (he : op = .kill pid sig) => by
    rw [← href.hasPid]
    exact hkill pid sig he
  obtain ⟨hturn, hdispatched⟩ | ⟨hn', hcur', hplace⟩ := hmoves.place (List.nodup_append.mp hnd).1 hn hcur
  · have hne : (q.perform op).run ≠ [] := by
      have hlen : (q.perform op).run.length = (news ++ kept).length := by
        rw [hmoves.run, hturn, if_pos rfl, List.length_rotate]
      have hpos := List.length_pos_of_mem hmoves.stays
      intro hc
      rw [hc, List.length_append, List.length_nil] at hlen
      omega
    exact Or.inl ((hruns' hne).trans hdispatched)
  · right
    obtain ⟨s'', hs'', q'', href'', hruns'', hidle''⟩ := hrep.step hallowed
    obtain rfl : s' = s'' := Option.some.inj (hs.symm.trans hs'')
    have hrun : q''.run = (q.perform op).run := by rw [← href''.entries_run, href'.entries_run]
    refine ⟨⟨q.perform op, href', hruns', hrun ▸ hidle'', hn', hcur'⟩, ?_⟩
    rw [State.place, State.place, State.arrivals, hs, Option.elim_some, href.dispatches, href.entries_run, href'.entries_run]
    exact hplace

/-- A task on `runQueue` is dispatched at the latest when there have been more dispatches than there
were tasks in front of it at first and arrivals since then. -/
theorem waits_boundedly (ops₀ : List Op) (hops₀ : Along step Allowed State.boot ops₀) (s : State)
    (hs : run step State.boot ops₀ = some s) (n : Node) (hn : n ∈ s.entries .runQueue) (hrunning : s.running ≠ n)
    (ops : List Op) (hops : Along step (Spares n) s ops) (t : State) (ht : run step s ops = some t)
    (hmany : s.place n + tally step State.arrivals s ops < tally step (fun s op => (s.dispatches op).toNat) s ops) :
    ∃ before, before <+: ops ∧ ∃ u, run step s before = some u ∧ u.running = n := by
  obtain ⟨s', hs', q, href, hruns, hidle⟩ := progress (fun s op hs hop => Represented.step hs hop)
    (⟨bootQueues, boot_refines, boot_runs, by decide⟩ : Represented State.boot) hops₀
  obtain rfl : s = s' := Option.some.inj (hs.symm.trans hs')
  have hwaits : Waits n s := by
    rw [href.entries_run] at hn
    refine ⟨q, href, hruns, hidle, hn, fun hc => hrunning ?_⟩
    exact (hruns (List.ne_nil_of_mem hn)).trans hc
  have hstep : ∀ s op s', Waits n s → Spares n s op → step s op = some s' → (fun u : State => u.running = n) s' ∨
      (Waits n s' ∧ (fun s : State => s.place n) s' + (fun s op => (State.dispatches s op).toNat) s op ≤
        (fun s : State => s.place n) s + s.arrivals op) := fun s op s' h hop hs' => waits_step h hop hs'
  obtain hgoal | hpaid := potential hstep hwaits hops ht
  · exact hgoal
  · omega

end

/-- The shell forks, and the timer comes three times: idle has had its turn. -/
theorem waits_boundedly_idle : ∃ before, before <+: [Op.fork, .schedule, .schedule, .schedule] ∧
    ∃ u, run step State.boot before = some u ∧ u.running = State.idle :=
  waits_boundedly [] trivial State.boot rfl State.idle (by decide) (by decide) [.fork, .schedule, .schedule, .schedule]
    ⟨⟨by decide, fun _ _ h => nomatch h⟩, fun _ h₁ => ⟨⟨trivial, fun _ _ h => nomatch h⟩, fun _ h₂ =>
      ⟨⟨trivial, fun _ _ h => nomatch h⟩, fun _ h₃ => ⟨⟨trivial, fun _ _ h => nomatch h⟩, fun _ _ => trivial⟩⟩⟩⟩
    _ rfl (by decide +kernel)

/-! ### Nobody is lost -/

/-- The task does not leave of its own accord, and nobody kills it. -/
def Stays (n : Node) (s : State) : Op → Prop
  | .exit => s.running ≠ n
  | .execve isFile => isFile = true → s.running ≠ n
  | .kill pid _ => s.hasPid pid n = false
  | _ => True

theorem Queues.stays_queued {q : Queues} {n : Node} {op : Op} (hnd : q.queued.Nodup) (hfresh : Node.task q.top ∉ q.queued)
    (hne : q.run ≠ []) (hn : n ∈ q.queued) (hleave : op = .exit ∨ op = .execve true → n ≠ q.current)
    (hkill : ∀ pid sig, op = .kill pid sig → q.hasPid pid n = false) : n ∈ (q.perform op).queued := by
  cases op with
  | add pid ppid => exact mem_queued_addHead_of (q := q.fresh _) hn
  | fork => exact mem_queued_addHead_of (q := q.fresh _) hn
  | execve isFile =>
    cases isFile with
    | false => exact hn
    | true =>
      have hnd' : q.replaced.queued.Nodup := nodup_addHead (q := (q.fresh _).setTask _ _) hnd hfresh
      refine (mem_queued_exit hnd').mpr ⟨mem_queued_addHead_of (q := (q.fresh _).setTask _ _) hn, ?_⟩
      rw [q.replaced_current hne]
      exact hleave (Or.inr rfl)
  | exit => exact (mem_queued_exit hnd).mpr ⟨hn, hleave (Or.inl rfl)⟩
  | sleep seconds => exact mem_queued_schedule.mpr ((mem_queued_block (q := q.setTask _ _) hne).mpr hn)
  | waitpid pid =>
    show n ∈ (q.waitpid pid).queued
    unfold waitpid
    split
    · exact mem_queued_schedule.mpr ((mem_queued_block hne).mpr hn)
    · exact hn
  | awakepid pid => exact mem_queued_awakepid.mpr hn
  | kill pid sig =>
    have hpid := hkill pid sig rfl
    have hother : ∀ m, q.hasPid pid m = true → n ≠ m := fun m hm he => by
      rw [he, hm] at hpid
      cases hpid
    show n ∈ (q.kill pid sig).queued
    unfold kill
    split
    · split
      · rename_i hself
        exact (mem_queued_exit hnd).mpr ⟨hn, hother _ hself⟩
      · split
        · rename_i m hfind
          exact (mem_queued_remove hnd).mpr ⟨hn, hother m (List.find?_some hfind)⟩
        · exact hn
    · exact hn
  | schedule => exact mem_queued_schedule.mpr hn

/-- A task that is queued stays queued, whatever the others do, unless it exits, is replaced by
`sys_execve`, or is named in a kill. -/
theorem nobody_is_lost (ops₀ : List Op) (hops₀ : Along step Allowed State.boot ops₀) (s : State)
    (hs : run step State.boot ops₀ = some s) (n : Node) (hn : n ∈ s.queued) (ops : List Op)
    (hops : Along step (fun s op => Allowed s op ∧ Stays n s op) s ops) :
    ∃ t, run step s ops = some t ∧ n ∈ t.queued := by
  obtain ⟨s', hs', hrep⟩ := progress (fun s op hs hop => Represented.step hs hop)
    (⟨bootQueues, boot_refines, boot_runs, by decide⟩ : Represented State.boot) hops₀
  obtain rfl : s = s' := Option.some.inj (hs.symm.trans hs')
  have hstep : ∀ (s : State) (op : Op), (fun s => Represented s ∧ n ∈ s.queued) s → Allowed s op ∧ Stays n s op →
      ∃ s', step s op = some s' ∧ (fun s => Represented s ∧ n ∈ s.queued) s' := by
    rintro s op ⟨hrep, hn⟩ ⟨hallowed, hstays⟩
    obtain ⟨s', hs', hrep'⟩ := hrep.step hallowed
    have hcall := hrep.manned op
    obtain ⟨q, href, hruns, hidle⟩ := hrep
    have hne := List.ne_nil_of_mem hidle
    obtain ⟨href', _, _⟩ := href.step hruns hcall hs'
    rw [href.queued] at hn
    refine ⟨s', hs', hrep', ?_⟩
    rw [href'.queued]
    refine Queues.stays_queued href.rings.nodup href.notMem_top hne hn (fun he hc => ?_) fun pid sig he => ?_
    · have hcur : s.running = n := (hruns hne).trans hc.symm
      obtain rfl | rfl := he
      · exact hstays hcur
      · exact hstays rfl hcur
    · subst he
      rw [← href.hasPid]
      exact hstays
  obtain ⟨t, ht, _, hqueued⟩ := progress hstep ⟨hrep, hn⟩ hops
  exact ⟨t, ht, hqueued⟩

/-- The shell waits for its child, which exits. -/
theorem nobody_is_lost_shell : ∃ t, run step State.boot [.fork, .waitpid 3, .exit] = some t ∧ .task 1 ∈ t.queued :=
  nobody_is_lost [] trivial State.boot rfl (.task 1) (by decide) [.fork, .waitpid 3, .exit]
    ⟨⟨by decide, trivial⟩, fun _ h₁ => ⟨⟨by cases h₁; decide, trivial⟩, fun _ h₂ => by
      cases h₁
      cases h₂
      exact ⟨⟨by decide, by show _ ≠ _; decide⟩, fun _ _ => trivial⟩⟩⟩

/-! ### Starvation -/

/-- Each child forks and exits. -/
def offspring : Nat → List Op
  | 0 => []
  | k + 1 => .fork :: .exit :: offspring k

namespace Queues
variable {q : Queues}

theorem fork_run (hroom : q.run.length + q.wait.length < nrTasks) : q.fork.run = .task q.top :: q.run := by
  show ((q.fresh _).addHead (.task q.top)).run = _
  unfold addHead
  exact congrArg run (if_pos hroom)

theorem fork_wait (q : Queues) : q.fork.wait = q.wait := addHead_wait (q.fresh _) _

theorem fork_top (q : Queues) : q.fork.top = q.top + 1 := by
  show ((q.fresh _).addHead (.task q.top)).top = _
  unfold addHead
  split
  · rfl
  · rfl

theorem exit_top (q : Queues) : q.exit.top = q.top := by
  show (q.awakepid _).top = _
  unfold awakepid
  split
  · rfl
  · rfl

/-- With nobody waiting nobody is woken. -/
theorem exit_alone (h : q.wait = []) : q.exit.run = (q.run.erase q.current).rotate 1 ∧ q.exit.wait = [] := by
  have hawake : q.awakepid ((q.task q.current).ppid.setWidth 32) = q := by
    unfold awakepid
    rw [h]
    rfl
  rw [exit_eq, remove, hawake]
  refine ⟨rfl, ?_⟩
  show q.wait.erase _ = []
  rw [h]
  rfl

end Queues

/-- The running task is none of the old ones, nobody waits, and there is room for a child. -/
def Descends (old : List Node) (s : State) : Prop :=
  ∃ q, Refines s q ∧ Runs s q ∧ q.wait = [] ∧ State.idle ∈ q.run ∧ q.run.length < nrTasks ∧ q.current ∉ old ∧
    q.current ≠ State.idle ∧ ∀ t, Node.task t ∈ old → t < q.top

section
variable {s s' : State} {old : List Node}

theorem Descends.running (h : Descends old s) : s.running ∉ old ∧ s.running ≠ State.idle := by
  obtain ⟨q, _, hruns, _, hidle, _, hcur, hne, _⟩ := h
  rw [hruns (List.ne_nil_of_mem hidle)]
  exact ⟨hcur, hne⟩

/-- The child comes to the head of the queue, so it is the next to run when its parent exits. -/
theorem Descends.round (h : Descends old s) :
    ∃ s₁ s₂, step s .fork = some s₁ ∧ step s₁ .exit = some s₂ ∧ s₁.running = s.running ∧ Descends old s₂ := by
  obtain ⟨q, href, hruns, hwait, hidle, hroom, hcur, hne, hold⟩ := h
  have hnonempty := List.ne_nil_of_mem hidle
  obtain ⟨s₁, hs₁, href₁, hruns₁⟩ := step_refines href hruns hnonempty .fork
  have hrun₁ : q.fork.run = .task q.top :: q.run := Queues.fork_run (by rw [hwait]; exact hroom)
  have hwait₁ : q.fork.wait = [] := q.fork_wait.trans hwait
  have hnonempty₁ : q.fork.run ≠ [] := by
    rw [hrun₁]
    exact List.cons_ne_nil _ _
  have hcur₁ : q.fork.current = q.current := by
    rw [Queues.current, hrun₁]
    exact Queues.current_cons q _ hnonempty
  obtain ⟨s₂, hs₂, href₂, hruns₂⟩ := step_refines href₁ hruns₁ hnonempty₁ .exit
  obtain ⟨hrun₂, hwait₂⟩ := Queues.exit_alone hwait₁
  have hnew : Node.task q.top ≠ q.current := fun he =>
    href.notMem_top (he ▸ List.mem_append_left _ (q.current_mem hnonempty))
  have hrun : q.fork.exit.run = q.run.erase q.current ++ [.task q.top] := by
    rw [hrun₂, hrun₁, hcur₁, List.erase_cons_tail (by simpa using hnew), List.rotate_cons_succ, List.rotate_zero]
  have hcurrent : q.fork.exit.current = .task q.top := by
    rw [Queues.current, hrun, List.getLastD_concat]
  refine ⟨s₁, s₂, hs₁, hs₂, ?_, q.fork.exit, href₂, hruns₂, hwait₂, ?_, ?_, ?_, ?_, fun t ht => ?_⟩
  · rw [hruns₁ hnonempty₁, hruns hnonempty]
    exact hcur₁
  · rw [hrun]
    exact List.mem_append_left _ ((List.mem_erase_of_ne hne.symm).mpr hidle)
  · have hpos := List.length_pos_of_mem hidle
    rw [hrun, List.length_append, List.length_singleton, List.length_erase_of_mem (q.current_mem hnonempty)]
    omega
  · rw [hcurrent]
    exact fun hm => Nat.lt_irrefl _ (hold q.top hm)
  · rw [hcurrent]
    exact fun hm => href.notMem_top (hm ▸ List.mem_append_left _ hidle)
  · rw [Queues.exit_top, Queues.fork_top]
    exact Nat.lt_succ_of_lt (hold t ht)

/-- No operation of such a run lets one of the old tasks run. -/
theorem Descends.offspring (h : Descends old s) (k : Nat) :
    (∃ t, run step s (offspring k) = some t) ∧
      Along step (fun s op => Allowed s op ∧ ∀ s', step s op = some s' → s'.running ∉ old) s (offspring k) ∧
      tally step (fun s op => (s.dispatches op).toNat) s (offspring k) = k := by
  induction k generalizing s with
  | zero => exact ⟨⟨s, rfl⟩, trivial, rfl⟩
  | succ k ih =>
    obtain ⟨s₁, s₂, hs₁, hs₂, hrunning, h₂⟩ := h.round
    obtain ⟨⟨t, ht⟩, hrest, hcount⟩ := ih h₂
    obtain ⟨hnew, hidle⟩ := h.running
    refine ⟨⟨t, by simp [Sched.offspring, Library.run, hs₁, hs₂, ht]⟩, ?_, ?_⟩
    · rw [Sched.offspring, along_cons_some hs₁, along_cons_some hs₂]
      refine ⟨⟨hidle, fun s' hs' => ?_⟩, ⟨?_, fun s' hs' => ?_⟩, hrest⟩
      · obtain rfl := Option.some.inj (hs₁.symm.trans hs')
        rw [hrunning]
        exact hnew
      · show s₁.running ≠ State.idle
        rw [hrunning]
        exact hidle
      · obtain rfl := Option.some.inj (hs₂.symm.trans hs')
        exact h₂.running.1
    · rw [Sched.offspring, tally_cons_some hs₁, tally_cons_some hs₂, hcount]
      show 0 + (1 + k) = k + 1
      omega

/-- The first child, when nobody waits. -/
theorem descends_first {q : Queues} (href : Refines s q) (hruns : Runs s q) (hidle : State.idle ∈ q.run)
    (hwait : q.wait = []) (hroom : q.run.length + 1 < nrTasks) :
    ∃ s₁ s₂, step s .fork = some s₁ ∧ step s₁ .schedule = some s₂ ∧ s₁.running = s.running ∧ Descends s.queued s₂ := by
  have hnonempty := List.ne_nil_of_mem hidle
  obtain ⟨s₁, hs₁, href₁, hruns₁⟩ := step_refines href hruns hnonempty .fork
  have hrun₁ : q.fork.run = .task q.top :: q.run := Queues.fork_run (by rw [hwait, List.length_nil]; omega)
  have hnonempty₁ : q.fork.run ≠ [] := by
    rw [hrun₁]
    exact List.cons_ne_nil _ _
  obtain ⟨s₂, hs₂, href₂, hruns₂⟩ := step_refines href₁ hruns₁ hnonempty₁ .schedule
  have hqueued : s.queued = q.run := by
    rw [href.queued, Queues.queued, hwait, List.append_nil]
  have hrun : q.fork.schedule.run = q.run ++ [.task q.top] := by
    show q.fork.run.rotate 1 = _
    rw [hrun₁, List.rotate_cons_succ, List.rotate_zero]
  have hcurrent : q.fork.schedule.current = .task q.top := by
    rw [Queues.current, hrun, List.getLastD_concat]
  refine ⟨s₁, s₂, hs₁, hs₂, ?_, q.fork.schedule, href₂, hruns₂, q.fork_wait.trans hwait, ?_, ?_, ?_, ?_, fun t ht => ?_⟩
  · rw [hruns₁ hnonempty₁, hruns hnonempty]
    show q.fork.current = q.current
    rw [Queues.current, hrun₁]
    exact Queues.current_cons q _ hnonempty
  · rw [hrun]
    exact List.mem_append_left _ hidle
  · rw [hrun, List.length_append, List.length_singleton]
    exact hroom
  · rw [hcurrent, hqueued]
    exact fun hm => href.notMem_top (List.mem_append_left _ hm)
  · rw [hcurrent]
    exact fun hm => href.notMem_top (hm ▸ List.mem_append_left _ hidle)
  · rw [hqueued] at ht
    show t < q.fork.top
    rw [q.fork_top]
    exact Nat.lt_succ_of_lt (href.old t (List.mem_append_left _ ht))

/-- While nobody waits for anything, a program that forks can keep all other tasks from running, for
any number of dispatches. -/
theorem starved_by_children (ops₀ : List Op) (hops₀ : Along step Allowed State.boot ops₀) (s : State)
    (hs : run step State.boot ops₀ = some s) (hrunning : s.running ≠ State.idle) (hwait : s.entries .waitQueue = [])
    (hroom : s.numTask + 1 < nrTasks) (k : Nat) :
    ∃ ops, Along step Allowed s ops ∧ (∃ t, run step s ops = some t) ∧
      tally step (fun s op => (s.dispatches op).toNat) s ops = k + 1 ∧
      ∀ before, before <+: ops → ∀ u, run step s before = some u → u.running ∈ s.queued → u.running = s.running := by
  obtain ⟨s', hs', q, href, hruns, hidle⟩ := progress (fun s op hs hop => Represented.step hs hop)
    (⟨bootQueues, boot_refines, boot_runs, by decide⟩ : Represented State.boot) hops₀
  obtain rfl : s = s' := Option.some.inj (hs.symm.trans hs')
  rw [href.entries_wait] at hwait
  have hcount := href.count
  rw [hwait, List.length_nil] at hcount
  obtain ⟨s₁, s₂, hs₁, hs₂, hsame, h₂⟩ := descends_first href hruns hidle hwait (by omega)
  obtain ⟨⟨t, ht⟩, halong, htally⟩ := h₂.offspring k
  have hany : (fun _ : State => True) s₂ := trivial
  refine ⟨.fork :: .schedule :: offspring k, ?_, ⟨t, by simp [Library.run, hs₁, hs₂, ht]⟩, ?_, ?_⟩
  · rw [along_cons_some hs₁, along_cons_some hs₂]
    exact ⟨hrunning, trivial, along_imp (fun _ _ _ h => h.1) (fun _ _ _ _ _ _ => trivial) hany halong⟩
  · rw [tally_cons_some hs₁, tally_cons_some hs₂, htally]
    show 0 + (1 + k) = k + 1
    omega
  · refine reached_iff.mpr ⟨fun _ => rfl, ?_⟩
    rw [along_cons_some hs₁, along_cons_some hs₂]
    refine ⟨fun s' hs' _ => ?_, fun s' hs' hm => ?_, ?_⟩
    · obtain rfl := Option.some.inj (hs₁.symm.trans hs')
      exact hsame
    · obtain rfl := Option.some.inj (hs₂.symm.trans hs')
      exact absurd hm h₂.running.1
    · exact along_imp (fun _ _ _ h s' hs' hm => absurd hm (h.2 s' hs')) (fun _ _ _ _ _ _ => trivial) hany halong

end

/-- The shell starves idle. -/
theorem starved_by_children_boot : ∃ ops, Along step Allowed State.boot ops ∧ (∃ t, run step State.boot ops = some t) ∧
    tally step (fun s op => (s.dispatches op).toNat) State.boot ops = 1000 + 1 ∧
    ∀ before, before <+: ops → ∀ u, run step State.boot before = some u → u.running ∈ State.boot.queued →
      u.running = State.boot.running :=
  starved_by_children [] trivial State.boot rfl (by decide) (by decide) (by decide) 1000

end Sbnix.Sched
