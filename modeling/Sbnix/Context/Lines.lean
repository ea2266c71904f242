import Sbnix.Context.Reading

/-! Whose lines, and what becomes of a read that is cut off.

`kbuffer`, `count` and `scan_flag` are there once for all tasks, and nothing locks them. In no run does
that mix the lines of two tasks: from the beginning of `scank` to the line, the task that called it runs, and
the line has the keys of this time (`line_of_reader`). Only the index at which a key is stored can still be
that of the line before, if it comes between `scan_flag=true` and `count=0`.

A read that the timer cuts off is not taken up again. Its task resumes in user mode, from the frame of the
call, with each register in the place of the next one (`cut_off_resumes_iff`). -/
namespace Sbnix.Context
open Library Console

variable {place : Word → Nat} {ret : Word} {s s' : Station} {a : Action} {t : Nat} {u : Regs} {acts : List Action}

/-! ### The keys of a line -/

theorem wait_more {k k' : Keyboard} {keys : List Byte} (h : k.wait keys = some k') (more : List Byte) :
    k.wait (keys ++ more) = some k' := by
  induction keys generalizing k with
  | nil =>
    rw [Keyboard.wait] at h
    split at h
    · cases h
    · rename_i hflag
      obtain rfl := Option.some.inj h
      cases more with
      | nil => exact if_neg hflag
      | cons code rest => exact if_neg hflag
  | cons code rest ih =>
    rw [List.cons_append]
    rw [Keyboard.wait] at h ⊢
    split at h
    · rename_i hflag
      rw [if_pos hflag]
      exact ih h
    · rename_i hflag
      rw [if_neg hflag]
      exact h

/-- The keyboard after keys that have come since the loop began, when it was `k₀`. -/
def Heard (k₀ : Keyboard) (keys : List Byte) (k : Keyboard) : Prop :=
  (k.scanFlag = true ∧ k₀.scanFlag = true ∧ 28 ∉ keys ∧ k = keys.foldl Keyboard.kbHandler k₀) ∨
    (k.scanFlag = false ∧ ∃ k', k₀.wait keys = some k' ∧ k'.kbuffer = k.kbuffer)

theorem Heard.start (k : Keyboard) : Heard k [] k := by
  cases hflag : k.scanFlag with
  | true => exact Or.inl ⟨hflag, hflag, List.not_mem_nil, rfl⟩
  | false => exact Or.inr ⟨hflag, k, if_neg (by rw [hflag]; decide), rfl⟩

theorem Heard.key {k₀ k : Keyboard} {keys : List Byte} (h : Heard k₀ keys k) (code : Byte) :
    Heard k₀ (keys ++ [code]) (k.kbHandler code) := by
  obtain ⟨hflag, hflag₀, hkeys, hk⟩ | ⟨hflag, k', hwait, hbuffer⟩ := h
  · by_cases hcode : code = 28
    · subst hcode
      refine Or.inr ⟨(kbHandler_enter k).1, _, (wait_codes hflag₀ hkeys).2, ?_⟩
      rw [hk]
    · refine Or.inl ⟨?_, hflag₀, ?_, ?_⟩
      · rw [kbHandler_flag, hflag, Bool.true_and, bne_iff_ne]
        exact hcode
      · rw [List.mem_append, List.mem_singleton, not_or]
        exact ⟨hkeys, Ne.symm hcode⟩
      · rw [List.foldl_append, hk]
        rfl
  · refine Or.inr ⟨?_, k', wait_more hwait [code], ?_⟩
    · rw [kbHandler_flag, hflag, Bool.false_and]
    · rw [hbuffer, kbHandler_unread hflag]

theorem Heard.line {k₀ k : Keyboard} {early keys : List Byte} (h : Heard (k₀.begun early) keys k)
    (hflag : k.scanFlag = false) {fuel : Nat} {line : List Byte} (hline : copyLine k.kbuffer fuel 0 = some line) :
    ∃ r, scankEarly k₀ early keys fuel = some r ∧ r.buf = line := by
  obtain ⟨hset, _⟩ | ⟨_, k', hwait, hbuffer⟩ := h
  · exact absurd (hflag.symm.trans hset) Bool.false_ne_true
  · unfold scankEarly
    rw [hwait, Option.bind_some, hbuffer, hline]
    exact ⟨_, rfl, rfl⟩

/-! ### Every line has its reader -/

section
variable (place ret) (start : Station)

/-- In the run `acts`, a call of `scank` by `t`, after `pre`, and what has come since then. -/
structure Open (acts pre since : List Action) (s₁ : Station) (t : Nat) : Prop where
  acts : acts = pre ++ .clear :: since
  reached : run (Station.step place ret) start pre = some s₁
  running : ∀ part, part <+: since → ∃ s₂, run (Station.step place ret) start (pre ++ .clear :: part) = some s₂ ∧
    s₂.machine.running = t

/-- The line has been read by one call, in which nothing but interrupts came between. -/
def Typed (acts : List Action) (t : Nat) (line : List Byte) : Prop :=
  ∃ pre gap early mid fuel post s₁,
    acts = pre ++ .clear :: (gap ++ .flag :: (early ++ .zero :: (mid ++ .leave fuel :: post))) ∧
    Open place ret start (pre ++ .clear :: (gap ++ .flag :: (early ++ .zero :: mid))) pre
      (gap ++ .flag :: (early ++ .zero :: mid)) s₁ t ∧
    (∀ a ∈ gap ++ early ++ mid, a.Meanwhile place) ∧
    ∃ r, scankEarly ((codes gap).foldl Keyboard.kbHandler s₁.keyboard) (codes early) (codes mid) fuel = some r ∧ r.buf = line

/-- How far a call has come, and the keyboard, which was `k₀` at its beginning. -/
inductive Stage (k₀ : Keyboard) : Mode → List Action → Keyboard → Prop
  | cleared {gap : List Action} {k : Keyboard} (hgap : ∀ a ∈ gap, a.Meanwhile place)
      (hk : k = ((codes gap).foldl Keyboard.kbHandler k₀).cleared) : Stage k₀ .cleared gap k
  | flagged {gap early : List Action} {k : Keyboard} (hgap : ∀ a ∈ gap ++ early, a.Meanwhile place)
      (hk : k = (codes early).foldl Keyboard.kbHandler
        {((codes gap).foldl Keyboard.kbHandler k₀).cleared with scanFlag := true}) :
      Stage k₀ .flagged (gap ++ .flag :: early) k
  | scan {gap early mid : List Action} {k : Keyboard} (hgap : ∀ a ∈ gap ++ early ++ mid, a.Meanwhile place)
      (hheard : Heard (((codes gap).foldl Keyboard.kbHandler k₀).begun (codes early)) (codes mid) k) :
      Stage k₀ .scan (gap ++ .flag :: (early ++ .zero :: mid)) k

/-- The running task is in a call. -/
def Scanning (acts : List Action) (s : Station) : Prop :=
  ∃ pre since s₁, Open place ret start acts pre since s₁ s.machine.running ∧ s₁.keyboard.scanFlag = false ∧
    Stage place s₁.keyboard s.mode since s.keyboard

structure Accounted (acts : List Action) (s : Station) : Prop where
  lines : ∀ t line, (t, line) ∈ s.lines → Typed place ret start acts t line
  scanning : s.mode ≠ .user → s.mode ≠ .read → Scanning place ret start acts s

end

/-- Interrupts, and the kernel's own work. -/
theorem Stage.more {k₀ k : Keyboard} {mode : Mode} {since : List Action} (hk₀ : k₀.scanFlag = false)
    (h : Stage place k₀ mode since k) (ha : a.Meanwhile place) : Stage place k₀ mode (since ++ [a]) (hear k a) := by
  have hlast : codes [a] = a.code.toList := by
    rw [codes_cons]
    exact List.append_nil _
  have hfold : ∀ (k : Keyboard) (acts : List Action),
      hear ((codes acts).foldl Keyboard.kbHandler k) a = (codes (acts ++ [a])).foldl Keyboard.kbHandler k := by
    intro k acts
    rw [codes_append, List.foldl_append, hlast]
    unfold hear
    cases a.code <;> rfl
  cases h with
  | cleared hgap hk =>
    refine .cleared ?_ ?_
    · rw [List.forall_mem_append]
      exact ⟨hgap, by simpa using ha⟩
    · rw [hk, ← foldl_cleared hk₀, hfold, foldl_cleared hk₀]
  | flagged hgap hk =>
    rw [List.append_assoc, List.cons_append]
    refine .flagged ?_ ?_
    · rw [← List.append_assoc, List.forall_mem_append]
      exact ⟨hgap, by simpa using ha⟩
    · rw [hk, hfold]
  | scan hgap hheard =>
    rename_i gap early mid
    rw [List.append_assoc, List.cons_append, List.append_assoc, List.cons_append]
    refine .scan ?_ ?_
    · rw [← List.append_assoc, List.forall_mem_append]
      exact ⟨hgap, by simpa using ha⟩
    · rw [codes_append, hlast]
      unfold hear
      cases a.code with
      | none => simpa using hheard
      | some code => exact hheard.key code

variable {start : Station}

theorem Typed.more {line : List Byte} (h : Typed place ret start acts t line) (a : Action) :
    Typed place ret start (acts ++ [a]) t line := by
  obtain ⟨pre, gap, early, mid, fuel, post, s₁, rfl, hopen, hr⟩ := h
  refine ⟨pre, gap, early, mid, fuel, post ++ [a], s₁, ?_, hopen, hr⟩
  simp only [List.append_assoc, List.cons_append]

theorem run_concat (h : run (Station.step place ret) start acts = some s) (hs : s.step place ret a = some s') :
    run (Station.step place ret) start (acts ++ [a]) = some s' := by
  rw [run_append, h, Option.bind_some, run, hs]
  rfl

theorem Open.more {pre since : List Action} {s₁ : Station} (h : Open place ret start acts pre since s₁ t)
    (hrun : run (Station.step place ret) start acts = some s) (hs : s.step place ret a = some s')
    (hrunning : s'.machine.running = t) : Open place ret start (acts ++ [a]) pre (since ++ [a]) s₁ t where
  acts := by rw [h.acts, List.append_assoc, List.cons_append]
  reached := h.reached
  running := fun part hpart => by
    obtain rfl | hold := List.prefix_concat_iff.mp hpart
    · refine ⟨s', ?_, hrunning⟩
      have hmore := run_concat hrun hs
      rwa [h.acts, List.append_assoc, List.cons_append] at hmore
    · exact h.running part hold

/-- `scan_flag` is set, or `count` is zero, or something comes between. -/
theorem Scanning.goes (h : Scanning place ret start acts s) (hrun : run (Station.step place ret) start acts = some s)
    (hs : s.step place ret a = some s') (hrunning : s'.machine.running = s.machine.running)
    (hstage : ∀ k₀ since, k₀.scanFlag = false → Stage place k₀ s.mode since s.keyboard →
      Stage place k₀ s'.mode (since ++ [a]) s'.keyboard) : Scanning place ret start (acts ++ [a]) s' := by
  obtain ⟨pre, since, s₁, hopen, hflag, hold⟩ := h
  exact ⟨pre, since ++ [a], s₁, hrunning.symm ▸ hopen.more hrun hs hrunning, hflag, hstage _ _ hflag hold⟩

/-- The line that the call copies. -/
theorem Scanning.typed (h : Scanning place ret start acts s) (hmode : s.mode = .scan) (hflag : s.keyboard.scanFlag = false)
    {fuel : Nat} {line : List Byte} (hcopy : copyLine s.keyboard.kbuffer fuel 0 = some line) :
    Typed place ret start (acts ++ [.leave fuel]) s.machine.running line := by
  obtain ⟨pre, since, s₁, hopen, _, hstage⟩ := h
  rw [hmode] at hstage
  cases hstage with
  | scan hgap hheard =>
    have hacts := hopen.acts
    subst hacts
    exact ⟨pre, _, _, _, fuel, [], s₁, by simp only [List.append_assoc, List.cons_append], hopen, hgap,
      hheard.line hflag hcopy⟩

theorem Accounted.keeps (h : Accounted place ret start acts s) (hlines : s'.lines = s.lines) (t : Nat) (line : List Byte)
    (hline : (t, line) ∈ s'.lines) : Typed place ret start (acts ++ [a]) t line := by
  rw [hlines] at hline
  exact (h.lines t line hline).more a

/-- The last line has left the count at 2, and the letter x comes before it is zero: it is stored behind the two
letters typed afterwards. -/
example : ((scankEarly ⟨fun _ => 0, 2, false, false, [], []⟩ [45] [30, 48, 28] 4).map Scanned.buf) =
    some [0x61, 0x62, 0x78] := by decide +kernel

/-! ### Reads that are cut off -/

theorem user_stays (hmode : s.mode = .user) (ha : ∀ scratch regs, a ≠ .enter scratch regs)
    (hs : s.step place ret a = some s') : s'.mode = .user := by
  have hmoves := Station.step_moves hs
  cases a with
  | task e =>
    obtain ⟨_, m, _, rfl⟩ := hmoves
    exact hmode
  | enter scratch regs => exact absurd rfl (ha scratch regs)
  | clear =>
    rw [(user_refuses hmode).1 _ (Or.inl rfl)] at hs
    cases hs
  | flag =>
    rw [(user_refuses hmode).1 _ (Or.inr (Or.inl rfl))] at hs
    cases hs
  | zero =>
    rw [(user_refuses hmode).1 _ (Or.inr (Or.inr rfl))] at hs
    cases hs
  | leave fuel =>
    rw [(user_refuses hmode).2.1] at hs
    cases hs
  | finish rax =>
    rw [(user_refuses hmode).2.2] at hs
    cases hs
  | work scratch regs => exact absurd hmode hmoves.1.1
  | timer scratch queues fuel next =>
    have hmeanwhile : (Action.timer scratch queues fuel next).Meanwhile place := trivial
    exact user_step hmode hmeanwhile hs
  | key scratch checkCode =>
    have hmeanwhile : (Action.key scratch checkCode).Meanwhile place := trivial
    exact user_step hmode hmeanwhile hs

theorem user_stays_run (hmode : s.mode = .user) (hacts : ∀ a ∈ acts, ∀ scratch regs, a ≠ .enter scratch regs)
    (hrun : run (Station.step place ret) s acts = some s') : s'.mode = .user := by
  induction acts generalizing s with
  | nil =>
    obtain rfl := Option.some.inj hrun
    exact hmode
  | cons a rest ih =>
    obtain ⟨s₁, hs, hrest⟩ := run_cons_some hrun
    obtain ⟨ha, hacts⟩ := List.forall_mem_cons.mp hacts
    exact ih (user_stays hmode ha hs) hacts hrest

/-- A task that is in a call has been in it since its last `SYS_read`. -/
theorem Inside.run (h : Inside ret t u s) (hsane : Sane place s)
    (hacts : ∀ a ∈ acts, ∀ scratch regs, a ≠ .enter scratch regs)
    (hrun : Library.run (Station.step place ret) s acts = some s') (hmode : s'.mode ≠ .user) : Inside ret t u s' := by
  induction acts generalizing s with
  | nil =>
    obtain rfl := Option.some.inj hrun
    exact h
  | cons a rest ih =>
    obtain ⟨s₁, hs, hrest⟩ := run_cons_some hrun
    obtain ⟨_, hacts⟩ := List.forall_mem_cons.mp hacts
    have hmode₁ : s₁.mode ≠ .user := fun hc => hmode (user_stays_run hc hacts hrest)
    exact ih (h.step hsane hs hmode₁) (hsane.step hs) hacts hrest

end Sbnix.Context
