import Sbnix.Sched.Pids

/-! Timer wakeups.

`awake` is called once a second. It is to count down every sleeping task on `waitQueue`
and to move those that are done to `runQueue`. It does nothing if there is only one task
on the queue; and the task it moves is the one its loop stands on, so that the loop goes
on along `runQueue` and never comes back to the head of `waitQueue`. So it wakes nobody:
if it returns it has moved no task (`awake_links`). -/
namespace Sbnix.Sched
open Library

def listIsSingular (l : Lists) (head : Node) : Bool := !listEmpty l head && l.next head == l.prev head

namespace State

/-- The body of the loop of `awake`. The loop can come to stand on the head of `runQueue`;
what is then taken for a `task_struct` is whatever lies around it. -/
def awakeEntry (s : State) (process : Node) : State :=
  if (s.task process).isSleep then
    let s := s.setTask process {s.task process with sleepTime := (s.task process).sleepTime - 1}
    if (s.task process).sleepTime.toInt ≤ 0 then
      let s := s.setTask process {s.task process with isSleep := false}
      {s with links := listMove s.links process .runQueue}
    else s
  else s

/-- `list_for_each_entry(process, &waitQueue, tasks)`. The next entry is read after the body
has run. -/
def awakeEntries : Nat → State → Node → Option State
  | 0, _, _ => none
  | fuel + 1, s, process =>
    if process = .waitQueue then some s
    else awakeEntries fuel (s.awakeEntry process) ((s.awakeEntry process).links.next process)

/-- `none` is a call that has not returned after `fuel` rounds of its loop. -/
def awake (s : State) (fuel : Nat) : Option State :=
  if listEmpty s.links .waitQueue then some s
  else if listIsSingular s.links .waitQueue then some s
  else awakeEntries fuel s (s.links.next .waitQueue)

/-- That many calls. -/
def awakes (fuel : Nat) : Nat → State → Option State
  | 0, s => some s
  | k + 1, s => (s.awake fuel).bind (awakes fuel k)

end State

/-! ### What a call is to do -/

/-- One more second, and its sleep is over. -/
def Task.expires (t : Task) : Bool := t.isSleep && (t.sleepTime - 1).toInt ≤ 0

/-- One second later. -/
def Task.later (t : Task) : Task :=
  if t.isSleep then {t with sleepTime := t.sleepTime - 1, isSleep := !t.expires} else t

/-- From `s` to `s'` every sleeping task is counted down once, and those whose time is over
are moved from `wait` to `run`. -/
structure Wakes (s s' : State) (run wait : List Node) : Prop where
  queues : ∃ run', run'.Perm ((wait.filter fun n => (s.task n).expires) ++ run) ∧
    Rings s'.links run' (wait.filter fun n => !(s.task n).expires)
  waiting : ∀ n ∈ wait, s'.task n = (s.task n).later
  others : ∀ n, n ∉ wait → s'.task n = s.task n

variable {s s' : State} {l : Lists} {n : Node} {run wait : List Node}

/-! ### One round -/

theorem setTask_self (s : State) (n : Node) (t : Task) : (s.setTask n t).task n = t := Function.update_self ..

theorem awakeEntry_stays (h : (s.task n).expires = false) : s.awakeEntry n = s.setTask n (s.task n).later := by
  unfold State.awakeEntry Task.later
  by_cases hsleep : (s.task n).isSleep = true
  · have hlong : ¬ ((s.task n).sleepTime - 1).toInt ≤ 0 := by
      rw [Task.expires, hsleep, Bool.true_and] at h
      exact of_decide_eq_false h
    rw [if_pos hsleep, if_pos hsleep, h]
    dsimp only
    rw [if_neg (by rw [setTask_self]; exact hlong), hsleep]
    rfl
  · rw [if_neg hsleep, if_neg hsleep]
    show s = {s with task := Function.update s.task n (s.task n)}
    rw [Function.update_eq_self]

theorem awakeEntry_moves (h : (s.task n).expires = true) :
    (s.awakeEntry n).links = listMove s.links n .runQueue := by
  obtain ⟨hsleep, hover⟩ := (Bool.and_eq_true_iff).mp h
  unfold State.awakeEntry
  rw [if_pos hsleep]
  dsimp only
  rw [if_pos (by rw [setTask_self]; exact of_decide_eq_true hover)]
  rfl

/-! ### Nobody's time is over -/

/-- The tasks of `xs` one second later. -/
def State.later (s : State) (xs : List Node) : State :=
  {s with task := fun n => if n ∈ xs then (s.task n).later else s.task n}

theorem setTask_later {x : Node} {xs : List Node} (hx : x ∉ xs) :
    (s.setTask x (s.task x).later).later xs = s.later (x :: xs) := by
  unfold State.later State.setTask
  congr 1
  funext n
  by_cases hn : n = x
  · subst hn
    rw [if_neg hx, if_pos (List.mem_cons_self ..)]
    exact Function.update_self ..
  · have hmem : n ∈ x :: xs ↔ n ∈ xs := by rw [List.mem_cons, or_iff_right hn]
    simp only [hmem, Function.update_of_ne hn]

/-- The loop goes through the queue and returns. -/
theorem awakeEntries_returns {a : Node} {xs : List Node} {fuel : Nat} (hseg : Segment s.links a xs .waitQueue)
    (hhead : Node.waitQueue ∉ xs) (hnd : xs.Nodup) (hlong : ∀ n ∈ xs, (s.task n).expires = false)
    (hfuel : xs.length < fuel) : State.awakeEntries fuel s (s.links.next a) = some (s.later xs) := by
  induction xs generalizing s a fuel with
  | nil =>
    obtain ⟨fuel, rfl⟩ := Nat.exists_eq_add_of_lt hfuel
    rw [hseg.1]
    exact if_pos rfl
  | cons x xs ih =>
    cases fuel with
    | zero => cases hfuel
    | succ fuel =>
      obtain ⟨hx, hnd⟩ := List.nodup_cons.mp hnd
      have hxw : x ≠ .waitQueue := fun he => hhead (he ▸ List.mem_cons_self ..)
      have hentry := awakeEntry_stays (hlong x (List.mem_cons_self ..))
      have hrest : ∀ n ∈ xs, ((s.setTask x (s.task x).later).task n).expires = false := fun n hn => by
        dsimp only [State.setTask]
        rw [Function.update_of_ne (ne_of_mem_of_not_mem hn hx)]
        exact hlong n (List.mem_cons_of_mem x hn)
      have hseg' : Segment (s.setTask x (s.task x).later).links x xs .waitQueue := hseg.2.2
      rw [hseg.1, State.awakeEntries, if_neg hxw, hentry, ← setTask_later hx]
      exact ih hseg' (fun hm => hhead (List.mem_cons_of_mem x hm)) hnd hrest (Nat.lt_of_succ_lt_succ hfuel)

/-! ### Somebody's time is over -/

/-- A set of nodes that the pointers do not lead out of, with the one head and without the
other. -/
structure Shut (l : Lists) (R : Set Node) : Prop where
  head : .runQueue ∈ R
  out : .waitQueue ∉ R
  next : ∀ c ∈ R, l.next c ∈ R
  prev : ∀ c ∈ R, l.prev c ∈ R

theorem Shut.move {R : Set Node} (h : Shut l R) (hn : n ∈ R) : Shut (listMove l n .runQueue) R := by
  have hdel : Shut (listDelEntry l n) R := by
    refine ⟨h.head, h.out, fun c hc => ?_, fun c hc => ?_⟩
    · rw [listDelEntry, Links.bridge_next]
      split
      · exact h.next n hn
      · exact h.next c hc
    · rw [listDelEntry, Links.bridge_prev]
      split
      · exact h.prev n hn
      · exact h.prev c hc
  refine ⟨h.head, h.out, fun c hc => ?_, fun c hc => ?_⟩
  · rw [listMove, listAdd, Links.splice_next]
    split
    · exact hn
    · split
      · exact hdel.next _ h.head
      · exact hdel.next c hc
  · rw [listMove, listAdd, Links.splice_prev]
    split
    · exact h.head
    · split
      · exact hn
      · exact hdel.prev c hc

theorem Shut.awakeEntry {R : Set Node} (h : Shut s.links R) (hn : n ∈ R) : Shut (s.awakeEntry n).links R := by
  cases hexp : (s.task n).expires with
  | false =>
    rw [awakeEntry_stays hexp]
    exact h
  | true =>
    rw [awakeEntry_moves hexp]
    exact h.move hn

/-- From inside the set the loop does not return, whatever the tasks there are. -/
theorem Shut.awakeEntries {R : Set Node} (h : Shut s.links R) (hn : n ∈ R) (fuel : Nat) :
    State.awakeEntries fuel s n = none := by
  induction fuel generalizing s n with
  | zero => rfl
  | succ fuel ih =>
    have hnw : n ≠ .waitQueue := fun he => h.out (he ▸ hn)
    have h' := h.awakeEntry hn
    rw [State.awakeEntries, if_neg hnw]
    exact ih h' (h'.next n hn)

theorem shut_run (h : Rings l run wait) : Shut l {c | c ∈ Node.runQueue :: run} := by
  have hnbr : ∀ c ∈ Node.runQueue :: run, l.next c ∈ Node.runQueue :: run ∧ l.prev c ∈ Node.runQueue :: run := by
    intro c hc
    rcases List.mem_cons.mp hc with rfl | hc
    · rw [h.run.next_head, h.run.prev_head]
      refine ⟨?_, List.getLastD_mem_cons ..⟩
      cases run with
      | nil => exact List.mem_cons_self ..
      | cons x xs => exact List.mem_cons_of_mem _ (List.mem_cons_self ..)
    · exact (h.run.neighbours hc).symm
  exact ⟨List.mem_cons_self .., h.apart' (List.mem_cons_self ..), fun c hc => (hnbr c hc).1, fun c hc => (hnbr c hc).2⟩

theorem waiting_ne_head (h : Rings l run wait) (hn : n ∈ wait) : n ≠ .waitQueue :=
  fun he => h.wait.head_notMem (he ▸ hn)

/-- A task whose time is over takes the loop along to the other queue. -/
theorem awakeEntries_led (h : Rings s.links run wait) (hn : n ∈ wait) (hover : (s.task n).expires = true) (fuel : Nat) :
    State.awakeEntries fuel s n = none := by
  cases fuel with
  | zero => rfl
  | succ fuel =>
    have hmoved : Shut (s.awakeEntry n).links {c | c ∈ Node.runQueue :: n :: run} := by
      rw [awakeEntry_moves hover]
      exact shut_run (h.moveRun hn)
    have hin : n ∈ Node.runQueue :: n :: run := List.mem_cons_of_mem _ (List.mem_cons_self ..)
    rw [State.awakeEntries, if_neg (waiting_ne_head h hn)]
    exact hmoved.awakeEntries (hmoved.next n hin) fuel

theorem awakeEntries_stuck {a : Node} {xs : List Node} (h : Rings s.links run wait) (hsub : ∀ n ∈ xs, n ∈ wait)
    (hseg : Segment s.links a xs .waitQueue) (hnd : xs.Nodup) (hover : ∃ x ∈ xs, (s.task x).expires = true) (fuel : Nat) :
    State.awakeEntries fuel s (s.links.next a) = none := by
  induction xs generalizing s a fuel with
  | nil =>
    obtain ⟨x, hx, _⟩ := hover
    cases hx
  | cons y xs ih =>
    have hy := hsub y (List.mem_cons_self ..)
    rw [hseg.1]
    cases hexp : (s.task y).expires with
    | true => exact awakeEntries_led h hy hexp fuel
    | false =>
      cases fuel with
      | zero => rfl
      | succ fuel =>
        obtain ⟨x, hx, hover⟩ := hover
        have hxy : x ≠ y := by
          rintro rfl
          rw [hover] at hexp
          cases hexp
        have hx : x ∈ xs := (List.mem_cons.mp hx).resolve_left hxy
        have hover' : ((s.setTask y (s.task y).later).task x).expires = true := by
          dsimp only [State.setTask]
          rw [Function.update_of_ne hxy]
          exact hover
        have h' : Rings (s.setTask y (s.task y).later).links run wait := h
        have hseg' : Segment (s.setTask y (s.task y).later).links y xs .waitQueue := hseg.2.2
        rw [State.awakeEntries, if_neg (waiting_ne_head h hy), awakeEntry_stays hexp]
        exact ih h' (fun n hn => hsub n (List.mem_cons_of_mem y hn)) hseg' (List.nodup_cons.mp hnd).2 ⟨x, hx, hover'⟩ fuel

/-! ### A call -/

theorem listIsSingular_iff (h : Rings l run wait) : listIsSingular l .waitQueue = true ↔ wait.length = 1 := by
  unfold listIsSingular listEmpty
  rw [h.wait.next_head, h.wait.prev_head]
  cases wait with
  | nil => simp
  | cons x xs =>
    have hx : x ≠ .waitQueue := waiting_ne_head h (List.mem_cons_self ..)
    cases xs with
    | nil => simp [hx]
    | cons y ys =>
      have hne : x ≠ (y :: ys).getLast (List.cons_ne_nil y ys) := by
        intro he
        have hnd := (List.nodup_append.mp h.nodup).2.1
        exact (List.nodup_cons.mp hnd).1 (he ▸ List.getLast_mem _)
      simp [hx, List.getLast?_eq_some_getLast, hne]

theorem awake_few (h : Rings s.links run wait) (hfew : wait.length ≤ 1) (fuel : Nat) : s.awake fuel = some s := by
  unfold State.awake
  by_cases hempty : listEmpty s.links .waitQueue = true
  · exact if_pos hempty
  · rw [if_neg hempty, if_pos]
    rw [listIsSingular_iff h]
    have hne : wait ≠ [] := fun he => hempty (by
      rw [listEmpty, decide_eq_true_iff, h.wait.next_head_eq_head]
      exact he)
    have := List.length_pos_of_ne_nil hne
    omega

theorem awake_many (h : Rings s.links run wait) (hmany : 2 ≤ wait.length) (fuel : Nat) :
    s.awake fuel = State.awakeEntries fuel s (s.links.next .waitQueue) := by
  have hempty : ¬ listEmpty s.links .waitQueue = true := by
    rw [listEmpty, decide_eq_true_iff, h.wait.next_head_eq_head]
    rintro rfl
    cases hmany
  have hsingle : ¬ listIsSingular s.links .waitQueue = true := by
    rw [listIsSingular_iff h]
    omega
  rw [State.awake, if_neg hempty, if_neg hsingle]

/-- What a call comes to, for two tasks or more. -/
theorem awake_cases (h : Rings s.links run wait) (hmany : 2 ≤ wait.length) :
    ((∀ n ∈ wait, (s.task n).expires = false) ∧ ∀ fuel, wait.length < fuel → s.awake fuel = some (s.later wait)) ∨
    ((∃ n ∈ wait, (s.task n).expires = true) ∧ ∀ fuel, s.awake fuel = none) := by
  have hnd := (List.nodup_append.mp h.nodup).2.1
  by_cases hover : ∃ n ∈ wait, (s.task n).expires = true
  · refine Or.inr ⟨hover, fun fuel => ?_⟩
    rw [awake_many h hmany]
    exact awakeEntries_stuck h (fun _ hn => hn) h.wait.segment hnd hover fuel
  · have hlong : ∀ n ∈ wait, (s.task n).expires = false := fun n hn => by
      rw [← Bool.not_eq_true]
      exact fun he => hover ⟨n, hn, he⟩
    refine Or.inl ⟨hlong, fun fuel hfuel => ?_⟩
    rw [awake_many h hmany]
    exact awakeEntries_returns h.wait.segment h.wait.head_notMem hnd hlong hfuel

theorem awakeEntries_mono {fuel : Nat} (hs : State.awakeEntries fuel s n = some s') (more : Nat) :
    State.awakeEntries (fuel + more) s n = some s' := by
  induction fuel generalizing s n with
  | zero => cases hs
  | succ fuel ih =>
    rw [Nat.succ_add]
    unfold State.awakeEntries at hs ⊢
    split
    · rename_i hn
      rwa [if_pos hn] at hs
    · rename_i hn
      rw [if_neg hn] at hs
      exact ih hs

/-- If `awake` returns, it has done nothing, or has counted down the tasks that sleep. -/
theorem awake_returns (h : Rings s.links run wait) {fuel : Nat} (hs : s.awake fuel = some s') :
    s' = s ∨ s' = s.later wait := by
  by_cases hfew : wait.length ≤ 1
  · rw [awake_few h hfew] at hs
    exact Or.inl (Option.some.inj hs).symm
  · have hmany : 2 ≤ wait.length := Nat.lt_of_not_le hfew
    rcases awake_cases h hmany with ⟨_, hlater⟩ | ⟨_, hstuck⟩
    · have hmore := hlater (fuel + (wait.length + 1)) (by omega)
      rw [awake_many h hmany] at hs hmore
      rw [awakeEntries_mono hs] at hmore
      exact Or.inr (Option.some.inj hmore)
    · rw [hstuck] at hs
      cases hs

/-- If `awake` returns, it has moved no task. -/
theorem awake_links (h : Rings s.links run wait) {fuel : Nat} (hs : s.awake fuel = some s') : s'.links = s.links := by
  obtain rfl | rfl := awake_returns h hs
  · rfl
  · rfl

theorem awakes_links (h : Rings s.links run wait) {fuel k : Nat} (hs : State.awakes fuel k s = some s') :
    s'.links = s.links := by
  induction k generalizing s with
  | zero => rw [Option.some.inj hs]
  | succ k ih =>
    obtain ⟨t, ht, hs⟩ := Option.bind_eq_some_iff.mp hs
    have hlinks := awake_links h ht
    rw [← hlinks] at h ⊢
    exact ih h hs

/-! ### When a call does what it is to do -/

theorem later_ne {t : Task} (h : t.isSleep = true) : t.later ≠ t := by
  intro he
  rw [Task.later, if_pos h] at he
  have htime : t.sleepTime - 1 = t.sleepTime := congrArg Task.sleepTime he
  bv_omega

theorem wakes_later (h : Rings s.links run wait) (hlong : ∀ n ∈ wait, (s.task n).expires = false) :
    Wakes s (s.later wait) run wait where
  queues := by
    have hnone : (wait.filter fun n => (s.task n).expires) = [] :=
      List.filter_eq_nil_iff.mpr fun n hn => by rw [hlong n hn]; exact Bool.false_ne_true
    have hall : (wait.filter fun n => !(s.task n).expires) = wait :=
      List.filter_eq_self.mpr fun n hn => by rw [hlong n hn]; rfl
    rw [hnone, hall]
    exact ⟨run, List.Perm.refl _, h⟩
  waiting := fun _ hn => if_pos hn
  others := fun _ hn => if_neg hn

/-- Nobody sleeps alone, and nobody's sleep is over. -/
def Spared (s : State) (wait : List Node) : Prop :=
  ∀ n ∈ wait, (s.task n).isSleep = true → 2 ≤ wait.length ∧ (s.task n).expires = false

theorem awake_wakes_iff (h : Rings s.links run wait) :
    (∃ fuel s', s.awake fuel = some s' ∧ Wakes s s' run wait) ↔ Spared s wait := by
  have hawake : ∀ t : Task, t.isSleep = false → t.expires = false := fun t ht => by rw [Task.expires, ht]; rfl
  by_cases hfew : wait.length ≤ 1
  · constructor
    · rintro ⟨fuel, s', hs, hw⟩ n hn hsleep
      rw [awake_few h hfew] at hs
      obtain rfl := Option.some.inj hs
      exact absurd (hw.waiting n hn).symm (later_ne hsleep)
    · intro hspared
      have hawakeAll : ∀ n ∈ wait, (s.task n).isSleep = false := fun n hn => by
        rw [← Bool.not_eq_true]
        intro hsleep
        have := (hspared n hn hsleep).1
        omega
      have hsame : s.later wait = s := by
        unfold State.later
        congr 1
        funext n
        split
        · rename_i hn
          rw [Task.later, hawakeAll n hn]
          rfl
        · rfl
      have hw := wakes_later h fun n hn => hawake _ (hawakeAll n hn)
      rw [hsame] at hw
      exact ⟨0, s, awake_few h hfew 0, hw⟩
  · have hmany : 2 ≤ wait.length := Nat.lt_of_not_le hfew
    rcases awake_cases h hmany with ⟨hlong, hlater⟩ | ⟨⟨n, hn, hover⟩, hstuck⟩
    · refine ⟨fun _ n hn _ => ⟨hmany, hlong n hn⟩, fun _ => ?_⟩
      exact ⟨wait.length + 1, _, hlater _ (Nat.lt_succ_self _), wakes_later h hlong⟩
    · constructor
      · rintro ⟨fuel, s', hs, _⟩
        rw [hstuck] at hs
        cases hs
      · intro hspared
        have hsleep : (s.task n).isSleep = true := ((Bool.and_eq_true_iff).mp hover).1
        rw [(hspared n hn hsleep).2] at hover
        cases hover

/-! ### After `sys_sleep` -/

/-- `n` is on `runQueue`. -/
def OnRun (s : State) (n : Node) : Prop := ∃ run, Ring s.links .runQueue run ∧ n ∈ run

/-- The pointers determine the list. -/
theorem ring_unique {head : Node} {xs ys : List Node} (hx : Ring l head xs) (hy : Ring l head ys) : xs = ys := by
  have hxs := hx.walk_eq (Nat.le_max_left xs.length ys.length)
  have hys := hy.walk_eq (Nat.le_max_right xs.length ys.length)
  exact hxs.symm.trans hys

theorem sysSleep_rings (h : Rings s.links run wait) (hne : run ≠ []) (seconds : BitVec 64) :
    ∃ run', Rings (s.sysSleep seconds).state.links run' (s.getCurrentTask :: wait) := by
  have hcur : s.getCurrentTask ∈ run := by
    have hlast : s.getCurrentTask = run.getLastD .runQueue := h.run.prev_head
    rw [hlast, List.getLastD_eq_getLast?, List.getLast?_eq_some_getLast hne]
    exact List.getLast_mem hne
  have hmoved := h.moveWait hcur
  show ∃ run', Rings (State.schedule _).links run' _
  unfold State.schedule
  split
  · exact ⟨_, hmoved⟩
  · rename_i hempty
    cases hrest : run.erase s.getCurrentTask with
    | nil =>
      rw [hrest] at hmoved
      refine absurd ?_ hempty
      rw [listEmpty, decide_eq_true_iff]
      exact hmoved.run.next_head_eq_head.mpr rfl
    | cons n rest =>
      rw [hrest] at hmoved
      have hnext : (listMove s.links s.getCurrentTask .waitQueue).next .runQueue = n := hmoved.run.next_head
      refine ⟨rest ++ [n], ?_⟩
      dsimp only [State.getNextTask]
      rw [hnext]
      exact hmoved.rotate

theorem never_back (h : Rings s.links run wait) (hne : run ≠ []) (seconds : BitVec 64) {fuel k : Nat}
    (hs : State.awakes fuel k (s.sysSleep seconds).state = some s') : ¬ OnRun s' s.getCurrentTask := by
  obtain ⟨run', h'⟩ := sysSleep_rings h hne seconds
  rintro ⟨run'', hring, hmem⟩
  rw [awakes_links h' hs] at hring
  rw [ring_unique hring h'.run] at hmem
  exact h'.apart (List.mem_cons_of_mem _ hmem) (List.mem_cons_of_mem _ (List.mem_cons_self ..))

/-- Whatever is on the queues: a call of `awake` returns and does what it is to do if and
only if no task sleeps alone on `waitQueue` and none has its last second; and a task that
calls `sys_sleep` is not back on `runQueue` after as many calls as it wanted to sleep
seconds, because a call of `awake` that moves a task does not return. -/
theorem timer_wakeups_iff (s : State) (run wait : List Node) (h : Rings s.links run wait) :
    ((∃ fuel s', s.awake fuel = some s' ∧ Wakes s s' run wait) ↔ Spared s wait) ∧
    (run ≠ [] → ∀ seconds : BitVec 64, 0 < seconds.toNat →
      ¬ ∃ fuel s', State.awakes fuel seconds.toNat (s.sysSleep seconds).state = some s' ∧ OnRun s' s.getCurrentTask) := by
  refine ⟨awake_wakes_iff h, fun hne seconds _ => ?_⟩
  rintro ⟨fuel, s', hs, hback⟩
  exact never_back h hne seconds hs hback

/-- The shell forks, and it and its child sleep. -/
def twoAsleep (first second : BitVec 64) : List Op := [.fork, .sleep first, .sleep second]

theorem twoAsleep_rings (first second : BitVec 64) :
    ∃ s, Library.run step State.boot (twoAsleep first second) = some s ∧ Rings s.links [.task 0] [.task 2, .task 1] ∧
      s.task (.task 1) = ⟨2, 0, true, first⟩ ∧ s.task (.task 2) = ⟨3, 2, true, second⟩ := by
  have hfork := (boot_refines.sysFork boot_runs (by decide)).1
  have hfirst := (hfork.sysSleep (by decide) first).1
  have hleft : (bootQueues.fork.sleep first).run ≠ [] := List.cons_ne_nil (Node.task 0) [.task 2]
  have hsecond := (hfirst.sysSleep hleft second).1
  have hblocked : (bootQueues.fork.sleep first).run.erase (bootQueues.fork.sleep first).current = [.task 0] := rfl
  have hrun : ((bootQueues.fork.sleep first).sleep second).run = [.task 0] := by
    show ((bootQueues.fork.sleep first).run.erase (bootQueues.fork.sleep first).current).rotate 1 = [.task 0]
    rw [hblocked]
    rfl
  have hwait : ((bootQueues.fork.sleep first).sleep second).wait = [.task 2, .task 1] := rfl
  have hrings := hsecond.rings
  rw [hrun, hwait] at hrings
  refine ⟨_, ?_, hrings, ?_, ?_⟩
  · rfl
  · rw [hsecond.task]
    rfl
  · rw [hsecond.task]
    rfl

/-- Two tasks with time left are counted down. -/
theorem timer_wakeups_counted :
    ∃ s, Library.run step State.boot (twoAsleep 5 7) = some s ∧
      ∃ fuel s', s.awake fuel = some s' ∧ Wakes s s' [.task 0] [.task 2, .task 1] := by
  obtain ⟨s, hs, hrings, hshell, hchild⟩ := twoAsleep_rings 5 7
  refine ⟨s, hs, (timer_wakeups_iff s _ _ hrings).1.mpr fun n hn _ => ?_⟩
  simp only [List.mem_cons, List.not_mem_nil, or_false] at hn
  rcases hn with rfl | rfl
  · rw [hchild]
    decide
  · rw [hshell]
    decide

/-- The shell sleeps for one second, its child for seven: the call that is to wake the shell
does not return. -/
theorem awake_hangs : ∃ s, Library.run step State.boot (twoAsleep 1 7) = some s ∧ (∀ fuel, s.awake fuel = none) ∧
    ¬ ∃ fuel s', s.awake fuel = some s' ∧ Wakes s s' [.task 0] [.task 2, .task 1] := by
  obtain ⟨s, hs, hrings, hshell, _⟩ := twoAsleep_rings 1 7
  have hover : (s.task (.task 1)).expires = true := by
    rw [hshell]
    decide
  have hstuck : ∀ fuel, s.awake fuel = none := by
    rcases awake_cases hrings (by decide) with ⟨hlong, _⟩ | ⟨_, hstuck⟩
    · rw [hlong _ (by decide)] at hover
      cases hover
    · exact hstuck
  refine ⟨s, hs, hstuck, ?_⟩
  rintro ⟨fuel, s', hs', _⟩
  rw [hstuck] at hs'
  cases hs'

end Sbnix.Sched
