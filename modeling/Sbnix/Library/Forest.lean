import Mathlib.Tactic

/-! Multi-level tables kept in frames of a store.

A store gives every frame an array of entries. Some frames are tables: the root
table of a root `r` sits at position `(r, [])`, and the table linked from entry
`i` of the table at `(r, π)` at position `(r, π ++ [i])`. `loc` says which frame
is the table at each position. `Forest` is the separation invariant: no frame is
at two positions, every entry of a table above the last level is the encoding of
what is at the position below it, and nothing is below an absent table. A root
need not own all its slots; what hangs below a slot it does not own is not part
of the forest.

Entries of the last-level tables are data. `leaf` reads them by position, absent
tables reading as empty, so a forest is a finite map from paths to entries.
The rules say what each edit of the store does to that map: writing a last-level
entry changes that entry and nothing else (`Forest.write`, `leaf_write`), linking
an empty table changes nothing (`Forest.grow`, `leaf_grow`), and so do a new
empty root (`Forest.plant`, `leaf_plant`) and any edit of other frames
(`Forest.frame`, `leaf_frame`). -/
namespace Sbnix.Library

variable {R F I V : Type*}

/-- The frame that holds the table at each position. -/
abbrev Places (R F I : Type*) := R → List I → Option F

/-- The path starts in a slot that belongs to the root. -/
def Owned (own : R → I → Prop) (r : R) (π : List I) : Prop := ∀ a ∈ π.head?, own r a

theorem Owned.append {own : R → I → Prop} {r : R} {π : List I} (h : Owned own r π) (hne : π ≠ [])
    (ρ : List I) : Owned own r (π ++ ρ) := by
  cases π with
  | nil => exact absurd rfl hne
  | cons a π => simpa [Owned] using h

structure Forest (enc : Option F → V) (own : R → I → Prop) (d : Nat) (tbl : F → I → V)
    (loc : Places R F I) : Prop where
  inj : ∀ {r r' : R} {π π' : List I} {f : F}, loc r π = some f → loc r' π' = some f → r = r' ∧ π = π'
  links : ∀ {r : R} {π : List I} {f : F} {i : I}, loc r π = some f → π.length < d →
    Owned own r (π ++ [i]) → tbl f i = enc (loc r (π ++ [i]))
  closed : ∀ {r : R} {π : List I} {i : I}, π ≠ [] → loc r π = none → loc r (π ++ [i]) = none

/-- The entry at index `i` of the table at a position; empty if there is no table. -/
def leaf (enc : Option F → V) (tbl : F → I → V) (loc : Places R F I) (r : R) (π : List I) (i : I) : V :=
  match loc r π with
  | some f => tbl f i
  | none => enc none

theorem leaf_some {enc : Option F → V} {tbl : F → I → V} {loc : Places R F I} {r : R} {π : List I}
    {f : F} (h : loc r π = some f) (i : I) : leaf enc tbl loc r π i = tbl f i := by
  simp [leaf, h]

theorem leaf_none {enc : Option F → V} {tbl : F → I → V} {loc : Places R F I} {r : R} {π : List I}
    (h : loc r π = none) (i : I) : leaf enc tbl loc r π i = enc none := by
  simp [leaf, h]

variable [DecidableEq R] [DecidableEq F] [DecidableEq I]

/-- Put a frame at a position. -/
def place (loc : Places R F I) (r : R) (π : List I) (g : F) : Places R F I :=
  fun r' π' => if r' = r ∧ π' = π then some g else loc r' π'

/-- Store one entry. -/
def writeEntry (tbl : F → I → V) (f : F) (i : I) (v : V) : F → I → V :=
  fun f' i' => if f' = f ∧ i' = i then v else tbl f' i'

omit [DecidableEq F] in
@[simp] theorem place_same (loc : Places R F I) (r : R) (π : List I) (g : F) :
    place loc r π g r π = some g := by simp [place]

omit [DecidableEq F] in
theorem place_other (loc : Places R F I) {r r' : R} {π π' : List I} (g : F)
    (h : ¬ (r' = r ∧ π' = π)) : place loc r π g r' π' = loc r' π' := by simp [place, h]

@[simp] theorem writeEntry_same (tbl : F → I → V) (f : F) (i : I) (v : V) :
    writeEntry tbl f i v f i = v := by simp [writeEntry]

theorem writeEntry_other (tbl : F → I → V) {f f' : F} {i i' : I} (v : V)
    (h : ¬ (f' = f ∧ i' = i)) : writeEntry tbl f i v f' i' = tbl f' i' := by simp [writeEntry, h]

variable {enc : Option F → V} {own : R → I → Prop} {d : Nat} {tbl tbl' : F → I → V}
  {loc : Places R F I} {r : R} {π : List I} {f g : F} {i : I} {v : V}

omit [DecidableEq F] in
/-- A frame that was at no position is at one after it is placed. -/
theorem place_inj (hinj : ∀ {r r' : R} {π π' : List I} {f : F}, loc r π = some f → loc r' π' = some f →
    r = r' ∧ π = π') (hfresh : ∀ r π, loc r π ≠ some g) {r₁ r₂ : R} {π₁ π₂ : List I}
    (h₁ : place loc r π g r₁ π₁ = some f) (h₂ : place loc r π g r₂ π₂ = some f) :
    r₁ = r₂ ∧ π₁ = π₂ := by
  by_cases hp₁ : r₁ = r ∧ π₁ = π <;> by_cases hp₂ : r₂ = r ∧ π₂ = π
  · exact ⟨hp₁.1.trans hp₂.1.symm, hp₁.2.trans hp₂.2.symm⟩
  · rw [hp₁.1, hp₁.2, place_same] at h₁
    rw [place_other _ _ hp₂] at h₂
    exact absurd (h₂.trans h₁.symm) (hfresh r₂ π₂)
  · rw [hp₂.1, hp₂.2, place_same] at h₂
    rw [place_other _ _ hp₁] at h₁
    exact absurd (h₁.trans h₂.symm) (hfresh r₁ π₁)
  · rw [place_other _ _ hp₁] at h₁
    rw [place_other _ _ hp₂] at h₂
    exact hinj h₁ h₂

/-! ### Edits elsewhere -/

omit [DecidableEq R] [DecidableEq F] [DecidableEq I] in
/-- Only the frames that are tables matter. -/
theorem Forest.frame (h : Forest enc own d tbl loc)
    (hsame : ∀ r π f, loc r π = some f → tbl' f = tbl f) : Forest enc own d tbl' loc where
  inj := h.inj
  links := fun hf hd ho => by rw [hsame _ _ _ hf]; exact h.links hf hd ho
  closed := h.closed

omit [DecidableEq R] [DecidableEq F] [DecidableEq I] in
theorem leaf_frame (hsame : ∀ r π f, loc r π = some f → tbl' f = tbl f) (r : R) (π : List I) (i : I) :
    leaf enc tbl' loc r π i = leaf enc tbl loc r π i := by
  cases hl : loc r π with
  | none => rw [leaf_none hl, leaf_none hl]
  | some f => rw [leaf_some hl, leaf_some hl, hsame r π f hl]

/-! ### Writing a last-level entry -/

omit [DecidableEq R] in
theorem Forest.write (h : Forest enc own d tbl loc) (hf : loc r π = some f) (hd : d ≤ π.length)
    (i : I) (v : V) : Forest enc own d (writeEntry tbl f i v) loc where
  inj := h.inj
  links := by
    intro r' π' f' i' hf' hd' ho
    have hne : f' ≠ f := by
      rintro rfl
      obtain ⟨_, rfl⟩ := h.inj hf hf'
      omega
    rw [writeEntry_other _ _ (fun hc => hne hc.1)]
    exact h.links hf' hd' ho
  closed := h.closed

theorem leaf_write (h : Forest enc own d tbl loc) (hf : loc r π = some f) (i : I) (v : V)
    (r' : R) (π' : List I) (i' : I) :
    leaf enc (writeEntry tbl f i v) loc r' π' i' =
      if r' = r ∧ π' = π ∧ i' = i then v else leaf enc tbl loc r' π' i' := by
  cases hl : loc r' π' with
  | none =>
    have hne : ¬ (r' = r ∧ π' = π ∧ i' = i) := by
      rintro ⟨rfl, rfl, _⟩
      rw [hf] at hl
      cases hl
    rw [leaf_none hl, leaf_none hl, if_neg hne]
  | some f' =>
    rw [leaf_some hl, leaf_some hl]
    by_cases hff : f' = f
    · subst hff
      obtain ⟨rfl, rfl⟩ := h.inj hf hl
      by_cases hi : i' = i
      · subst hi
        simp
      · rw [writeEntry_other _ _ (fun hc => hi hc.2), if_neg (fun hc => hi hc.2.2)]
    · have hne : ¬ (r' = r ∧ π' = π ∧ i' = i) := by
        rintro ⟨rfl, rfl, _⟩
        rw [hf] at hl
        exact hff (Option.some.inj hl).symm
      rw [writeEntry_other _ _ (fun hc => hff hc.1), if_neg hne]

/-! ### Linking an empty table -/

/-- A fresh empty table linked from an empty entry. -/
theorem Forest.grow (h : Forest enc own d tbl loc) (hf : loc r π = some f)
    (hnone : loc r (π ++ [i]) = none) (hfresh : ∀ r π, loc r π ≠ some g)
    (hempty : ∀ j, tbl g j = enc none) :
    Forest enc own d (writeEntry tbl f i (enc (some g))) (place loc r (π ++ [i]) g) where
  inj := place_inj h.inj hfresh
  links := by
    intro r' π' f' i' hf' hd' ho'
    by_cases hp : r' = r ∧ π' = π ++ [i]
    · -- the new table: empty, and nothing was below the position it fills
      obtain ⟨rfl, rfl⟩ := hp
      rw [place_same] at hf'
      obtain rfl : g = f' := Option.some.inj hf'
      have hgf : ¬ (g = f ∧ i' = i) := fun hc => hfresh r' π (hc.1 ▸ hf)
      have hpos : ¬ (r' = r' ∧ π ++ [i] ++ [i'] = π ++ [i]) := by simp
      rw [writeEntry_other _ _ hgf, hempty, place_other _ _ hpos, h.closed (by simp) hnone]
    · rw [place_other _ _ hp] at hf'
      by_cases he : f' = f ∧ i' = i
      · obtain ⟨rfl, rfl⟩ := he
        obtain ⟨rfl, rfl⟩ := h.inj hf hf'
        simp
      · have hpos : ¬ (r' = r ∧ π' ++ [i'] = π ++ [i]) := by
          rintro ⟨rfl, hcat⟩
          obtain ⟨rfl, hi⟩ := List.append_inj' hcat rfl
          obtain rfl : i' = i := by simpa using hi
          rw [hf] at hf'
          exact he ⟨(Option.some.inj hf').symm, rfl⟩
        rw [writeEntry_other _ _ he, place_other _ _ hpos]
        exact h.links hf' hd' ho'
  closed := by
    intro r' π' i' hne hl
    by_cases hp : r' = r ∧ π' = π ++ [i]
    · rw [hp.1, hp.2, place_same] at hl
      cases hl
    · rw [place_other _ _ hp] at hl
      have hpos : ¬ (r' = r ∧ π' ++ [i'] = π ++ [i]) := by
        rintro ⟨rfl, hcat⟩
        obtain ⟨rfl, _⟩ := List.append_inj' hcat rfl
        rw [hf] at hl
        cases hl
      rw [place_other _ _ hpos]
      exact h.closed hne hl

theorem leaf_grow (h : Forest enc own d tbl loc) (hf : loc r π = some f) (hd : π.length < d)
    (hnone : loc r (π ++ [i]) = none) (hempty : ∀ j, tbl g j = enc none) (hfresh : ∀ r π, loc r π ≠ some g)
    (r' : R) {π' : List I} (hπ' : π'.length = d) (i' : I) :
    leaf enc (writeEntry tbl f i (enc (some g))) (place loc r (π ++ [i]) g) r' π' i' =
      leaf enc tbl loc r' π' i' := by
  by_cases hp : r' = r ∧ π' = π ++ [i]
  · obtain ⟨rfl, rfl⟩ := hp
    have hgf : ¬ (g = f ∧ i' = i) := fun hc => hfresh r' π (hc.1 ▸ hf)
    rw [leaf_some (place_same ..), leaf_none hnone, writeEntry_other _ _ hgf, hempty]
  · have hl := place_other loc g hp
    cases hl' : loc r' π' with
    | none => rw [leaf_none (hl.trans hl'), leaf_none hl']
    | some f' =>
      have hff : f' ≠ f := by
        rintro rfl
        obtain ⟨_, rfl⟩ := h.inj hf hl'
        omega
      rw [leaf_some (hl.trans hl'), leaf_some hl', writeEntry_other _ _ (fun hc => hff hc.1)]

/-! ### A new empty root -/

omit [DecidableEq F] in
theorem Forest.plant (h : Forest enc own d tbl loc) (hnew : ∀ π, loc r π = none)
    (hfresh : ∀ r π, loc r π ≠ some g) (hempty : ∀ j, own r j → tbl g j = enc none) :
    Forest enc own d tbl (place loc r [] g) where
  inj := place_inj h.inj hfresh
  links := by
    intro r' π' f' i' hf' hd' ho'
    have hpos : ¬ (r' = r ∧ π' ++ [i'] = []) := by simp
    rw [place_other _ _ hpos]
    by_cases hp : r' = r ∧ π' = []
    · obtain ⟨rfl, rfl⟩ := hp
      rw [place_same] at hf'
      obtain rfl : g = f' := Option.some.inj hf'
      rw [hnew, hempty i' (by simpa [Owned] using ho')]
    · rw [place_other _ _ hp] at hf'
      exact h.links hf' hd' ho'
  closed := by
    intro r' π' i' hne hl
    have hp : ¬ (r' = r ∧ π' = []) := fun hc => hne hc.2
    have hpos : ¬ (r' = r ∧ π' ++ [i'] = []) := by simp
    rw [place_other _ _ hp] at hl
    rw [place_other _ _ hpos]
    exact h.closed hne hl

omit [DecidableEq F] in
theorem leaf_plant (r' : R) {π' : List I} (hπ' : π' ≠ []) (i' : I) :
    leaf enc tbl (place loc r [] g) r' π' i' = leaf enc tbl loc r' π' i' := by
  have hl : place loc r [] g r' π' = loc r' π' := place_other loc g (fun hc => hπ' hc.2)
  cases hl' : loc r' π' with
  | none => rw [leaf_none (hl.trans hl'), leaf_none hl']
  | some f => rw [leaf_some (hl.trans hl'), leaf_some hl']

/-! ### Nothing below an absent table -/

omit [DecidableEq R] [DecidableEq F] [DecidableEq I] in
theorem Forest.below_none (h : Forest enc own d tbl loc) (hne : π ≠ []) (hl : loc r π = none)
    (ρ : List I) : loc r (π ++ ρ) = none := by
  induction ρ generalizing π with
  | nil => simpa using hl
  | cons a ρ ih =>
    have hbelow : loc r ((π ++ [a]) ++ ρ) = none := ih (by simp) (h.closed hne hl)
    simpa using hbelow

end Sbnix.Library
