import Mathlib.Tactic

/-! Runs of a partial step function.

A system is a function `step : σ → ι → Option σ`; `none` means that the input is
not possible in that state, so the run stops there. `Along` says that every step
of a run satisfies a condition on the state it starts in and its input, which is
how a rule on callers, or a property of every transition, is stated.

Three rules carry the developments built on it: an invariant of the steps is an
invariant of the runs (`invariant`), an invariant under which no legal step is
stuck makes legal runs total (`progress`), and two conditions that agree on the
states of an invariant agree along runs (`along_iff`; `along_iff_keeping` if one of
the conditions is what keeps the invariant). A fourth one is for bounds on waiting: a
quantity that every step lowers by what it costs and raises at most by what it gains
pays for the whole run, unless the goal is reached (`potential`). Two systems are compared
by a relation of their states; the second one may see only some of the inputs
(`run_filterMap`). -/
namespace Sbnix.Library

variable {σ ι : Type*}

/-- The state after a list of inputs, if every one of them was possible. -/
def run (step : σ → ι → Option σ) : σ → List ι → Option σ
  | s, [] => some s
  | s, i :: rest => (step s i).bind fun s' => run step s' rest

/-- Every step of the run satisfies `P`, as far as the run goes. -/
def Along (step : σ → ι → Option σ) (P : σ → ι → Prop) : σ → List ι → Prop
  | _, [] => True
  | s, i :: rest => P s i ∧ ∀ s', step s i = some s' → Along step P s' rest

variable {step : σ → ι → Option σ} {P Q : σ → ι → Prop} {Inv : σ → Prop}

theorem along_cons_none {s : σ} {i : ι} {rest : List ι} (h : step s i = none) :
    Along step P s (i :: rest) ↔ P s i := by
  simp [Along, h]

theorem along_cons_some {s s' : σ} {i : ι} {rest : List ι} (h : step s i = some s') :
    Along step P s (i :: rest) ↔ P s i ∧ Along step P s' rest := by
  simp [Along, h]

instance decidableAlong [∀ s i, Decidable (P s i)] : ∀ (s : σ) (is : List ι), Decidable (Along step P s is)
  | _, [] => .isTrue trivial
  | s, i :: rest =>
    match h : step s i with
    | none => decidable_of_iff (P s i) (along_cons_none h).symm
    | some s' =>
      have : Decidable (Along step P s' rest) := decidableAlong s' rest
      decidable_of_iff (P s i ∧ Along step P s' rest) (along_cons_some h).symm

theorem run_cons_some {s t : σ} {i : ι} {rest : List ι} (h : run step s (i :: rest) = some t) :
    ∃ s', step s i = some s' ∧ run step s' rest = some t := by
  simpa [run, Option.bind_eq_some_iff] using h

theorem run_append (s : σ) (a b : List ι) :
    run step s (a ++ b) = (run step s a).bind fun s' => run step s' b := by
  induction a generalizing s with
  | nil => rfl
  | cons i rest ih =>
    simp only [List.cons_append, run, Option.bind_assoc]
    congr 1
    funext s'
    exact ih s'

/-- An invariant of all steps, with no condition on the inputs. -/
theorem invariant_all (hstep : ∀ s i s', Inv s → step s i = some s' → Inv s')
    {s t : σ} {is : List ι} (hs : Inv s) (h : run step s is = some t) : Inv t := by
  induction is generalizing s with
  | nil =>
    obtain rfl : s = t := by simpa [run] using h
    exact hs
  | cons i rest ih =>
    obtain ⟨s', hi, hr⟩ := run_cons_some h
    exact ih (hstep s i s' hs hi) hr

/-- Legal steps are never stuck, so legal runs have an end, where the invariant holds. -/
theorem progress (hstep : ∀ s i, Inv s → P s i → ∃ s', step s i = some s' ∧ Inv s')
    {s : σ} {is : List ι} (hs : Inv s) (hp : Along step P s is) :
    ∃ t, run step s is = some t ∧ Inv t := by
  induction is generalizing s with
  | nil => exact ⟨s, rfl, hs⟩
  | cons i rest ih =>
    obtain ⟨s', hi, hs'⟩ := hstep s i hs hp.1
    obtain ⟨t, ht, hinv⟩ := ih hs' (hp.2 s' hi)
    exact ⟨t, by simp [run, hi, ht], hinv⟩

/-- Two conditions that agree on steps of a kind where the invariant holds, hold along
the same runs of such steps. -/
theorem along_iff {C : σ → ι → Prop} (hpq : ∀ s i, Inv s → C s i → (P s i ↔ Q s i))
    (hstep : ∀ s i s', Inv s → C s i → step s i = some s' → Inv s')
    {s : σ} {is : List ι} (hs : Inv s) (hc : Along step C s is) : Along step P s is ↔ Along step Q s is := by
  induction is generalizing s with
  | nil => exact Iff.rfl
  | cons i rest ih =>
    have hi := hpq s i hs hc.1
    have hrest : ∀ s', step s i = some s' → (Along step P s' rest ↔ Along step Q s' rest) :=
      fun s' h => ih (hstep s i s' hs hc.1 h) (hc.2 s' h)
    constructor
    · intro h
      exact ⟨hi.mp h.1, fun s' hs' => (hrest s' hs').mp (h.2 s' hs')⟩
    · intro h
      exact ⟨hi.mpr h.1, fun s' hs' => (hrest s' hs').mpr (h.2 s' hs')⟩

/-- Every state that a prefix of the run leads to satisfies `Inv`, if the first one does and
every step leads to such a state. -/
theorem reached_iff {s : σ} {is : List ι} :
    (∀ before, before <+: is → ∀ t, run step s before = some t → Inv t) ↔
      Inv s ∧ Along step (fun s i => ∀ s', step s i = some s' → Inv s') s is := by
  induction is generalizing s with
  | nil =>
    constructor
    · intro h
      exact ⟨h [] (List.prefix_refl _) s rfl, trivial⟩
    · rintro ⟨hs, _⟩ before hp t ht
      obtain rfl := List.prefix_nil.mp hp
      obtain rfl : s = t := by simpa [run] using ht
      exact hs
  | cons j rest ih =>
    constructor
    · intro h
      refine ⟨h [] (List.nil_prefix) s rfl, fun s' hs' => ?_, fun s' hs' => ?_⟩
      · exact h [j] ⟨rest, rfl⟩ s' (by simp [run, hs'])
      · refine (ih.mp fun before hp t ht => ?_).2
        exact h (j :: before) (List.cons_prefix_cons.mpr ⟨rfl, hp⟩) t (by simp [run, hs', ht])
    · rintro ⟨hs, hfirst, hrest⟩ before hp t ht
      cases before with
      | nil =>
        obtain rfl : s = t := by simpa [run] using ht
        exact hs
      | cons k before =>
        obtain ⟨rfl, hshort⟩ := List.cons_prefix_cons.mp hp
        obtain ⟨s', hs', hr⟩ := run_cons_some ht
        exact ih.mpr ⟨hfirst s' hs', hrest s' hs'⟩ before hshort t hr

/-- A condition that keeps an invariant carries over along a run to what follows from both. -/
theorem along_imp (hpq : ∀ s i, Inv s → P s i → Q s i) (hstep : ∀ s i s', Inv s → P s i → step s i = some s' → Inv s')
    {s : σ} {is : List ι} (hs : Inv s) (h : Along step P s is) : Along step Q s is := by
  induction is generalizing s with
  | nil => trivial
  | cons i rest ih => exact ⟨hpq s i hs h.1, fun s' hs' => ih (hstep s i s' hs h.1 hs') (h.2 s' hs')⟩

/-- Two conditions of which the one keeps an invariant, and that agree where it holds,
hold along the same runs. -/
theorem along_iff_keeping (hpq : ∀ s i, Inv s → (P s i ↔ Q s i))
    (hstep : ∀ s i s', Inv s → Q s i → step s i = some s' → Inv s') {s : σ} {is : List ι} (hs : Inv s) :
    Along step P s is ↔ Along step Q s is := by
  constructor
  · exact along_imp (fun s i hs => (hpq s i hs).mp) (fun s i s' hs hp => hstep s i s' hs ((hpq s i hs).mp hp)) hs
  · exact along_imp (fun s i hs => (hpq s i hs).mpr) hstep hs

/-! ### Costs -/

/-- The sum over the steps of the run, as far as it goes. -/
def tally (step : σ → ι → Option σ) (f : σ → ι → Nat) : σ → List ι → Nat
  | _, [] => 0
  | s, i :: rest => f s i + ((step s i).elim 0 fun s' => tally step f s' rest)

theorem tally_cons_some {f : σ → ι → Nat} {s s' : σ} {i : ι} {rest : List ι} (h : step s i = some s') :
    tally step f s (i :: rest) = f s i + tally step f s' rest := by
  rw [tally, h]
  rfl

/-- Either the run comes to the goal, or it has cost no more than the potential it started
with and what it has gained. -/
theorem potential {pos : σ → Nat} {cost gain : σ → ι → Nat} {Goal : σ → Prop}
    (hstep : ∀ s i s', Inv s → P s i → step s i = some s' → Goal s' ∨ (Inv s' ∧ pos s' + cost s i ≤ pos s + gain s i))
    {s t : σ} {is : List ι} (hs : Inv s) (hp : Along step P s is) (h : run step s is = some t) :
    (∃ before, before <+: is ∧ ∃ u, run step s before = some u ∧ Goal u) ∨
      pos t + tally step cost s is ≤ pos s + tally step gain s is := by
  induction is generalizing s with
  | nil =>
    obtain rfl : s = t := by simpa [run] using h
    exact Or.inr (Nat.le_refl _)
  | cons i rest ih =>
    obtain ⟨s', hi, hr⟩ := run_cons_some h
    obtain hgoal | ⟨hs', hpay⟩ := hstep s i s' hs hp.1 hi
    · exact Or.inl ⟨[i], ⟨rest, rfl⟩, s', by simp [run, hi], hgoal⟩
    · obtain ⟨before, hbefore, u, hu, hgoal⟩ | hrest := ih hs' (hp.2 s' hi) hr
      · exact Or.inl ⟨i :: before, List.cons_prefix_cons.mpr ⟨rfl, hbefore⟩, u, by simp [run, hi, hu], hgoal⟩
      · right
        rw [tally_cons_some hi, tally_cons_some hi]
        omega

/-! ### Simulation -/

/-- The second system takes a step where the first one gets an input it sees, and then both
are stuck or neither; the inputs it does not see leave the states related. -/
theorem run_filterMap {τ κ : Type*} {step' : τ → κ → Option τ} {R : σ → τ → Prop} (f : ι → Option κ)
    (hidden : ∀ s t i, R s t → f i = none → ∃ s', step s i = some s' ∧ R s' t)
    (seen : ∀ s t i k, R s t → f i = some k → Option.Rel R (step s i) (step' t k)) {s : σ} {t : τ} (is : List ι)
    (h : R s t) : Option.Rel R (run step s is) (run step' t (is.filterMap f)) := by
  induction is generalizing s t with
  | nil => exact .some h
  | cons i rest ih =>
    cases hf : f i with
    | none =>
      obtain ⟨s', hs, hR⟩ := hidden s t i h hf
      rw [List.filterMap_cons_none hf, run, hs]
      exact ih hR
    | some k =>
      have hseen := seen s t i k h hf
      rw [List.filterMap_cons_some hf, run, run]
      generalize step s i = a at hseen ⊢
      generalize step' t k = b at hseen ⊢
      cases hseen with
      | some hR => exact ih hR
      | none => exact .none

end Sbnix.Library
