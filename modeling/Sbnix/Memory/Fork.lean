import Sbnix.Memory.Spaces

/-! What `cow_walk_pages` does to the address spaces.

A path of indices stands for the entry it leads to. `Forked r c D` says that memory
has come to the point where the entries below the paths in `D` have been copied
from the root `r` to the root `c`: both have the parent's pages there, none of them
writable, and nothing else has changed. `Copies` is the specification of a piece of
the walk: run where the child has nothing yet, it copies its part and does not
return early. The four nested loops are put together from one entry of the last
level (`sharePage_copies`), one entry of a level above (`copyTable_copies`) and one
loop (`forEntries_copies`). -/
namespace Sbnix.Memory
open Words Library

variable {s s' s₁ s₂ : Mem} {loc loc' loc₁ loc₂ : TableMap} {pg pg' pg₁ pg₂ : PageMap} {r c f g : Nat}
  {π σ : List (Fin 512)} {D D' : Set (List (Fin 512))} {p : Page Nat}

open Classical in
structure Forked (r c : Nat) (D : Set (List (Fin 512))) (s : Mem) (loc : TableMap) (pg : PageMap)
    (s' : Mem) (loc' : TableMap) (pg' : PageMap) : Prop where
  spaces : Spaces s' loc' pg'
  pages : ∀ q σ, pg' (q, σ) =
    if σ ∈ D ∧ (q = r ∨ q = c) then (pg (r, σ)).map Page.protect else pg (q, σ)
  tables : ∀ {q σ}, ¬ (q = c ∧ σ ∈ D) → loc' q σ = loc q σ
  fresh : ∀ {q σ f}, loc' q σ = some f → loc q σ = some f ∨ s.Avail f
  avail : ∀ {f}, s'.Avail f → s.Avail f
  phys : ∀ {f}, ¬ s.Avail f → (∀ q π, loc q π ≠ some f) → s'.phys f = s.phys f
  roots : ∀ {q}, loc q [] = some q → loc' q [] = some q
  kernel : ∀ {q}, loc q [] = some q → s'.phys q 511 = s.phys q 511

theorem Forked.pages_in (h : Forked r c D s loc pg s' loc' pg') (hσ : σ ∈ D) {q : Nat} (hq : q = r ∨ q = c) :
    pg' (q, σ) = (pg (r, σ)).map Page.protect := by
  rw [h.pages, if_pos ⟨hσ, hq⟩]

theorem Forked.pages_out (h : Forked r c D s loc pg s' loc' pg') {q : Nat} (hq : ¬ (σ ∈ D ∧ (q = r ∨ q = c))) :
    pg' (q, σ) = pg (q, σ) := by
  rw [h.pages, if_neg hq]

theorem Forked.refl (h : Spaces s loc pg) : Forked r c ∅ s loc pg s loc pg where
  spaces := h
  pages := fun q σ => by simp
  tables := fun _ => rfl
  fresh := Or.inl
  avail := id
  phys := fun _ _ => rfl
  roots := id
  kernel := fun _ => rfl

theorem Forked.trans (h₁ : Forked r c D s loc pg s₁ loc₁ pg₁) (h₂ : Forked r c D' s₁ loc₁ pg₁ s₂ loc₂ pg₂) :
    Forked r c (D ∪ D') s loc pg s₂ loc₂ pg₂ where
  spaces := h₂.spaces
  pages := by
    intro q σ
    by_cases hq : q = r ∨ q = c
    · by_cases hσ' : σ ∈ D'
      · rw [h₂.pages_in hσ' hq, if_pos ⟨Or.inr hσ', hq⟩]
        by_cases hσ : σ ∈ D
        · rw [h₁.pages_in hσ (Or.inl rfl), Option.map_map]
          rfl
        · rw [h₁.pages_out (fun hc => hσ hc.1)]
      · rw [h₂.pages_out (fun hc => hσ' hc.1)]
        by_cases hσ : σ ∈ D
        · rw [h₁.pages_in hσ hq, if_pos ⟨Or.inl hσ, hq⟩]
        · rw [h₁.pages_out (fun hc => hσ hc.1), if_neg]
          exact fun hc => hc.1.elim hσ hσ'
    · rw [h₂.pages_out (fun hc => hq hc.2), h₁.pages_out (fun hc => hq hc.2), if_neg (fun hc => hq hc.2)]
  tables := by
    intro q σ hn
    rw [h₂.tables (fun hc => hn ⟨hc.1, Or.inr hc.2⟩), h₁.tables (fun hc => hn ⟨hc.1, Or.inl hc.2⟩)]
  fresh := by
    intro q σ f hl
    rcases h₂.fresh hl with hl | ha
    · exact h₁.fresh hl
    · exact Or.inr (h₁.avail ha)
  avail := fun ha => h₁.avail (h₂.avail ha)
  phys := by
    intro f ha htab
    have htab₁ : ∀ q π, loc₁ q π ≠ some f := fun q π hl =>
      (h₁.fresh hl).elim (htab q π) ha
    rw [h₂.phys (fun hc => ha (h₁.avail hc)) htab₁, h₁.phys ha htab]
  roots := fun hq => h₂.roots (h₁.roots hq)
  kernel := fun hq => (h₂.kernel (h₁.roots hq)).trans (h₁.kernel hq)

/-- Paths the parent has nothing on come for free. -/
theorem Forked.mono (h : Forked r c D s loc pg s' loc' pg') (hD : D ⊆ D')
    (hnone : ∀ σ ∈ D', σ ∉ D → pg (r, σ) = none ∧ pg (c, σ) = none) : Forked r c D' s loc pg s' loc' pg' where
  spaces := h.spaces
  pages := by
    intro q σ
    by_cases hσ : σ ∈ D
    · by_cases hq : q = r ∨ q = c
      · rw [h.pages_in hσ hq, if_pos ⟨hD hσ, hq⟩]
      · rw [h.pages_out (fun hc => hq hc.2), if_neg (fun hc => hq hc.2)]
    · rw [h.pages_out (fun hc => hσ hc.1)]
      split
      · rename_i hin
        obtain ⟨hr, hc⟩ := hnone σ hin.1 hσ
        rcases hin.2 with rfl | rfl
        · rw [hr]
          rfl
        · rw [hc, hr]
          rfl
      · rfl
  tables := fun hn => h.tables (fun hc => hn ⟨hc.1, hD hc.2⟩)
  fresh := h.fresh
  avail := h.avail
  phys := h.phys
  roots := h.roots
  kernel := h.kernel

/-- New empty tables of the child. -/
theorem Forked.grown (h : Spaces s loc pg) (hg : Grown userSlot s loc s' loc')
    (htab : ∀ {q σ}, ¬ (q = c ∧ σ ∈ D) → loc' q σ = loc q σ)
    (hnone : ∀ σ ∈ D, pg (r, σ) = none ∧ pg (c, σ) = none) : Forked r c D s loc pg s' loc' pg where
  spaces := h.grown hg
  pages := by
    intro q σ
    split
    · rename_i hin
      obtain ⟨hr, hc⟩ := hnone σ hin.1
      rcases hin.2 with rfl | rfl
      · rw [hr]
        rfl
      · rw [hc, hr]
        rfl
    · rfl
  tables := htab
  fresh := hg.fresh
  avail := hg.avail
  phys := hg.phys
  roots := hg.keeps
  kernel := fun hq => hg.unowned hq (fun ho => ho rfl)

theorem Forked.kept (h : Forked r c D s loc pg s' loc' pg') : Kept s loc pg s' loc' pg' where
  tables := fun hl => (h.fresh hl).imp (fun hl => ⟨_, _, hl⟩) id
  pages := fun {k p} hp => by
    obtain ⟨q, σ⟩ := k
    by_cases hσ : σ ∈ D ∧ (q = r ∨ q = c)
    · rw [h.pages_in hσ.1 hσ.2] at hp
      obtain ⟨p', hp', rfl⟩ := Option.map_eq_some_iff.mp hp
      exact Or.inl ⟨_, p', hp', rfl⟩
    · rw [h.pages_out hσ] at hp
      exact Or.inl ⟨_, p, hp, rfl⟩
  avail := h.avail
  roots := h.roots
  phys := fun ha htab _ => h.phys ha htab
  kernel := h.kernel

/-- The contents of the pages: the child reads what the parent reads, and everybody
reads what they read before. -/
theorem Forked.pageAt_child (h : Forked r c D s loc pg s' loc' pg') (hs : Spaces s loc pg) (hσ : σ ∈ D) :
    pageAt s' pg' (c, σ) = pageAt s pg (r, σ) := by
  unfold pageAt
  rw [h.pages_in hσ (Or.inr rfl)]
  cases hp : pg (r, σ) with
  | none => rfl
  | some p => exact h.phys (hs.busy hp).2.1 (hs.busy hp).2.2

theorem Forked.pageAt_other (h : Forked r c D s loc pg s' loc' pg') (hs : Spaces s loc pg) {q : Nat}
    (hq : q ≠ c) (σ : List (Fin 512)) : pageAt s' pg' (q, σ) = pageAt s pg (q, σ) := by
  unfold pageAt
  by_cases hσ : σ ∈ D ∧ (q = r ∨ q = c)
  · obtain rfl : q = r := hσ.2.resolve_right hq
    rw [h.pages_in hσ.1 hσ.2]
    cases hp : pg (q, σ) with
    | none => rfl
    | some p => exact h.phys (hs.busy hp).2.1 (hs.busy hp).2.2
  · rw [h.pages_out hσ]
    cases hp : pg (q, σ) with
    | none => rfl
    | some p => exact h.phys (hs.busy hp).2.1 (hs.busy hp).2.2

/-! ### One entry of the last level -/

/-- The paths that go through entry `j` of the table at `π`. -/
def under (π : List (Fin 512)) (j : Fin 512) : Set (List (Fin 512)) := {σ | π ++ [j] <+: σ}

/-- The specification of a part of the walk that copies the paths in `D`, with the
tables at `π` in the frames `f` and `g`. -/
def Copies (r c : Nat) (π : List (Fin 512)) (f g : Nat) (D : Set (List (Fin 512)))
    (code : Mem → Except Mem Mem) : Prop :=
  ∀ ⦃s : Mem⦄ ⦃loc : TableMap⦄ ⦃pg : PageMap⦄, Spaces s loc pg → loc r π = some f → loc c π = some g →
    (∀ σ ∈ D, loc c σ = none ∧ pg (c, σ) = none) → 0 ∉ (returned (code s)).handed →
    ∃ s' loc' pg', code s = .ok s' ∧ Forked r c D s loc pg s' loc' pg'

/-- Below a last-level table there are pages and nothing else. -/
theorem Mapped.under_leaf (h : Mapped s loc pg) (hπ : π.length = 3) {j : Fin 512} (hσ : σ ∈ under π j)
    {q : Nat} (hp : pg (q, σ) = some p) : σ = π ++ [j] := by
  have hlen := h.paths hp
  exact (List.IsPrefix.eq_of_length hσ (by simp [hπ, hlen])).symm

/-- Memory with entry `j` of two tables set to the same page. -/
def setBoth (s : Mem) (f g : Nat) (j : Fin 512) (p : Page Nat) : Mem :=
  {s with phys := writeEntry (writeEntry s.phys f j (pageEntry (some p))) g j (pageEntry (some p))}

theorem sharePage_eq (hs : Spaces s loc pg) (hf : loc r π = some f) (hg : loc c π = some g)
    (hπ : π.length = 3) (j : Fin 512) (hp : pg (r, π ++ [j]) = some p) :
    sharePage (framePtr f) (framePtr g) j s =
      .ok ((setBoth s f g j p.protect).count p.frame ((s.memmap p.frame).refCnt + 1) true) := by
  have hflt := hs.tables.lt hf
  have hglt := hs.tables.lt hg
  have hplt : p.frame < maxMem := (hs.busy hp).1
  have hentry : s.phys f j = pageEntry (some p) := by
    rw [← hp, ← hs.entries r j hπ, entryOf, leaf_some hf]
  have hboth : withEntries s f g j (pageEntry (some p)) = setBoth s f g j p.protect := by
    rw [withEntries, pageEntry_protect hplt]
    rfl
  have hfind : getPhysicalMemmap (setBoth s f g j p.protect) (pageEntry (some p) &&& pageMask) = some p.frame := by
    refine getPhysicalMemmap_eq (hs.tables.addressed.of_memmap rfl) hplt ?_
    rw [pageEntry_mask hplt]
    exact frameAddr_mask hplt
  rw [sharePage_present (by omega) (by omega) (by rw [hentry]; exact pageEntry_present p), hentry, hboth, hfind]

open Classical in
/-- Parent and child get the page, without its write bit, and nobody else's pages change. -/
theorem Mapped.shared_pages (h : Mapped s loc pg) (hπ : π.length = 3) {j : Fin 512} (hp : pg (r, π ++ [j]) = some p)
    (q : Nat) (σ : List (Fin 512)) :
    Function.update (Function.update pg (r, π ++ [j]) (some p.protect)) (c, π ++ [j]) (some p.protect) (q, σ) =
      if σ ∈ under π j ∧ (q = r ∨ q = c) then (pg (r, σ)).map Page.protect else pg (q, σ) := by
  by_cases hσ : σ = π ++ [j]
  · subst hσ
    have hin : π ++ [j] ∈ under π j := List.prefix_refl _
    by_cases hqc : q = c
    · subst hqc
      rw [Function.update_self, if_pos ⟨hin, Or.inr rfl⟩, hp]
      rfl
    · by_cases hqr : q = r
      · subst hqr
        rw [Function.update_of_ne (by simp [hqc]), Function.update_self, if_pos ⟨hin, Or.inl rfl⟩, hp]
        rfl
      · rw [Function.update_of_ne (by simp [hqc]), Function.update_of_ne (by simp [hqr]), if_neg]
        exact fun hc => hc.2.elim hqr hqc
  · rw [Function.update_of_ne (by simp [hσ]), Function.update_of_ne (by simp [hσ])]
    have hleaf : ∀ {q}, σ ∈ under π j → pg (q, σ) = none := fun hin =>
      Option.eq_none_iff_forall_ne_some.mpr fun p' hp' => hσ (h.under_leaf hπ hin hp')
    split
    · rename_i hin
      rw [hleaf hin.1, hleaf hin.1]
      rfl
    · rfl

theorem setBoth_other {x : Nat} (hf : x ≠ f) (hg : x ≠ g) (j i : Fin 512) : (setBoth s f g j p).phys x i = s.phys x i := by
  show writeEntry (writeEntry s.phys f j _) g j _ x i = s.phys x i
  rw [writeEntry_other _ _ (fun hc => hg hc.1), writeEntry_other _ _ (fun hc => hf hc.1)]

/-- An absent page is shared by leaving it out. -/
theorem Spaces.share_none (hs : Spaces s loc pg) (hπ : π.length = 3) {j : Fin 512} (hp : pg (r, π ++ [j]) = none)
    (hempty : ∀ σ ∈ under π j, loc c σ = none ∧ pg (c, σ) = none) : Forked r c (under π j) s loc pg s loc pg := by
  refine (Forked.refl hs).mono (Set.empty_subset _) fun σ hσ _ => ⟨?_, (hempty σ hσ).2⟩
  refine Option.eq_none_iff_forall_ne_some.mpr fun p hp' => ?_
  rw [hs.under_leaf hπ hσ hp', hp] at hp'
  cases hp'

theorem Spaces.share_page (hs : Spaces s loc pg) (hf : loc r π = some f) (hg : loc c π = some g) (hπ : π.length = 3)
    {j : Fin 512} (hp : pg (r, π ++ [j]) = some p) :
    Forked r c (under π j) s loc pg ((setBoth s f g j p.protect).count p.frame ((s.memmap p.frame).refCnt + 1) true) loc
      (Function.update (Function.update pg (r, π ++ [j]) (some p.protect)) (c, π ++ [j]) (some p.protect)) := by
  have hbusy := hs.busy hp
  have hmapped : Mapped (setBoth s f g j p.protect) loc
      (Function.update (Function.update pg (r, π ++ [j]) (some p.protect)) (c, π ++ [j]) (some p.protect)) :=
    (hs.toMapped.setPage (p := p.protect) hf hπ j hbusy).setPage (p := p.protect) hg hπ j hbusy
  have hroot : ∀ {q q' f'}, loc q [] = some q → loc q' π = some f' → q ≠ f' := by
    rintro q q' f' hq hl rfl
    have hnil := (hs.tables.forest.inj hl hq).2
    simp [hnil] at hπ
  exact {
    spaces := ⟨hmapped.count _ _ _, by
        rw [count_refCnt, count_cowFlag]
        exact hs.shared.share hp (c, π ++ [j]), fun {x} ha => by
        rw [count_avail] at ha
        have hne : x ≠ p.frame := fun he => hbusy.2.1 (he ▸ ha)
        rw [show ((setBoth s f g j p.protect).count p.frame _ true).memmap x = s.memmap x from
          Function.update_of_ne hne _ _]
        exact hs.spare ha⟩
    pages := hs.shared_pages hπ hp
    tables := fun _ => rfl
    fresh := Or.inl
    avail := fun ha => (count_avail _ _ _ _ _).mp ha
    phys := fun {x} _ htab => by
      have hxf : x ≠ f := fun he => htab r π (he ▸ hf)
      have hxg : x ≠ g := fun he => htab c π (he ▸ hg)
      funext i
      exact setBoth_other hxf hxg j i
    roots := id
    kernel := fun hq => setBoth_other (hroot hq hf) (hroot hq hg) j 511 }

theorem sharePage_copies (hπ : π.length = 3) (j : Fin 512) :
    Copies r c π f g (under π j) (sharePage (framePtr f) (framePtr g) j) := by
  intro s loc pg hs hf hg hempty _
  cases hp : pg (r, π ++ [j]) with
  | none =>
    have hflt := hs.tables.lt hf
    have hload : s.load (nth (framePtr f) j) = pageEntry none := by
      rw [load_nth s (by omega), ← hp, ← hs.entries r j hπ, entryOf, leaf_some hf]
    have hrun : sharePage (framePtr f) (framePtr g) j s = .ok s := by
      unfold sharePage
      rw [hload, pageEntry_absent]
      rfl
    exact ⟨s, loc, pg, hrun, hs.share_none hπ hp hempty⟩
  | some p => exact ⟨_, loc, _, sharePage_eq hs hf hg hπ j hp, hs.share_page hf hg hπ hp⟩

/-! ### One loop -/

/-- The paths through `n` entries of the table at `π`, from the `k`-th on. -/
def between (π : List (Fin 512)) (k n : Nat) : Set (List (Fin 512)) :=
  {σ | ∃ j : Fin 512, k ≤ j.val ∧ j.val < k + n ∧ σ ∈ under π j}

theorem between_succ (π : List (Fin 512)) {k : Nat} (n : Nat) (hk : k < 512) :
    between π k (n + 1) = under π ⟨k, hk⟩ ∪ between π (k + 1) n := by
  ext σ
  constructor
  · intro hσ
    obtain ⟨j, hlo, hhi, hu⟩ := hσ
    by_cases he : j.val = k
    · exact Or.inl ((Fin.ext he : j = ⟨k, hk⟩) ▸ hu)
    · exact Or.inr ⟨j, by omega, by omega, hu⟩
  · intro hσ
    rcases hσ with hu | ⟨j, hlo, hhi, hu⟩
    · exact ⟨⟨k, hk⟩, Nat.le_refl k, by simp, hu⟩
    · exact ⟨j, by omega, by omega, hu⟩

theorem under_disjoint {j j' : Fin 512} (h : σ ∈ under π j) (h' : σ ∈ under π j') : j = j' := by
  have he : π ++ [j] = π ++ [j'] :=
    (List.prefix_of_prefix_length_le h h' (by simp)).eq_of_length (by simp)
  simpa using he

theorem notMem_under (π : List (Fin 512)) (j : Fin 512) : π ∉ under π j := by
  intro h
  have := List.IsPrefix.length_le h
  simp at this

/-- A loop whose bodies copy their entries copies them all. -/
theorem forEntries_copies {body : Nat → Mem → Except Mem Mem} {m : Nat} (hm : m ≤ 512)
    (hsteps : ∀ j s, Steps s (returned (body j s)))
    (hbody : ∀ j : Fin 512, j.val < m → Copies r c π f g (under π j) (body j)) (k n : Nat)
    (hkn : k + n ≤ m) : Copies r c π f g (between π k n) (forEntries body k n) := by
  induction n generalizing k with
  | zero =>
    intro s loc pg hs _ _ _ _
    have hempty : between π k 0 = ∅ := by
      apply Set.eq_empty_iff_forall_notMem.mpr
      intro σ hσ
      obtain ⟨j, hlo, hhi, _⟩ := hσ
      omega
    rw [hempty]
    exact ⟨s, loc, pg, rfl, Forked.refl hs⟩
  | succ n ih =>
    intro s loc pg hs hf hg hempty h0
    have hk : k < 512 := by omega
    rw [between_succ π n hk] at hempty ⊢
    have h0' : 0 ∉ (returned (body k s)).handed := by
      rw [forEntries] at h0
      cases hb : body k s with
      | error t =>
        rw [hb] at h0
        exact h0
      | ok t =>
        rw [hb] at h0
        exact (forEntries_steps hsteps (k + 1) n t).ok h0
    obtain ⟨s₁, loc₁, pg₁, hrun₁, hfork₁⟩ :=
      hbody ⟨k, hk⟩ (by simp; omega) hs hf hg (fun σ hσ => hempty σ (Or.inl hσ)) h0'
    have hf₁ : loc₁ r π = some f := by
      rw [hfork₁.tables (fun hc => notMem_under _ _ hc.2)]
      exact hf
    have hg₁ : loc₁ c π = some g := by
      rw [hfork₁.tables (fun hc => notMem_under _ _ hc.2)]
      exact hg
    -- the first entry leaves the child empty where the others will go
    have hempty₁ : ∀ σ ∈ between π (k + 1) n, loc₁ c σ = none ∧ pg₁ (c, σ) = none := by
      intro σ hσ
      have hout : σ ∉ under π ⟨k, hk⟩ := fun hu => by
        obtain ⟨j, hlo, _, hj⟩ := hσ
        have := under_disjoint hu hj
        subst this
        simp at hlo
      rw [hfork₁.tables (fun hc => hout hc.2), hfork₁.pages_out (fun hc => hout hc.1)]
      exact hempty σ (Or.inr hσ)
    have hloop : forEntries body k (n + 1) s = forEntries body (k + 1) n s₁ := by
      rw [forEntries, hrun₁]
      rfl
    rw [hloop] at h0 ⊢
    obtain ⟨s₂, loc₂, pg₂, hrun₂, hfork₂⟩ := ih (k + 1) (by omega) hfork₁.spaces hf₁ hg₁ hempty₁ h0
    exact ⟨s₂, loc₂, pg₂, hrun₂, hfork₁.trans hfork₂⟩

/-! ### One entry of a level above -/

/-- Below an absent table there is no page. -/
theorem Mapped.under_none (h : Mapped s loc pg) (hπ : π.length < 3) {j : Fin 512}
    (hl : loc r (π ++ [j]) = none) (hσ : σ ∈ under π j) : pg (r, σ) = none := by
  apply Option.eq_none_iff_forall_ne_some.mpr
  intro p hp
  have hlen := h.paths hp
  obtain ⟨ρ, rfl⟩ := hσ
  have hρ : ρ ≠ [] := fun he => by
    rw [he] at hlen
    simp at hlen
    omega
  obtain ⟨ρ', i, rfl⟩ : ∃ ρ' i, ρ = ρ' ++ [i] := ⟨ρ.dropLast, ρ.getLast hρ, (List.dropLast_append_getLast hρ).symm⟩
  rw [← List.append_assoc] at hp
  obtain ⟨f, hf⟩ := h.table hp
  rw [h.tables.forest.below_none (by simp) hl] at hf
  cases hf

theorem under_eq (π : List (Fin 512)) (j : Fin 512) :
    under π j = {π ++ [j]} ∪ between (π ++ [j]) 0 512 := by
  ext σ
  constructor
  · intro hσ
    obtain ⟨ρ, rfl⟩ := hσ
    cases ρ with
    | nil => exact Or.inl (by simp)
    | cons i ρ => exact Or.inr ⟨i, by omega, by omega, ρ, by simp⟩
  · intro hσ
    rcases hσ with he | ⟨i, _, _, hu⟩
    · rw [Set.mem_singleton_iff.mp he]
      exact List.prefix_refl _
    · exact (List.prefix_append _ _).trans hu

/-- If the level below copies its table, an entry that links it is copied. -/
theorem copyTable_copies {below : Word → Word → Mem → Except Mem Mem} (hrc : r ≠ c) (hπ : π.length < 3)
    (j : Fin 512) (ho : ∀ q, Owned userSlot q (π ++ [j]))
    (hsteps : ∀ table child s, Steps s (returned (below table child s)))
    (hbelow : ∀ f' g', Copies r c (π ++ [j]) f' g' (between (π ++ [j]) 0 512) (below (framePtr f') (framePtr g'))) :
    Copies r c π f g (under π j) (copyTable below (framePtr f) (framePtr g) j) := by
  intro s loc pg hs hf hg hempty h0
  have hflt := hs.tables.lt hf
  have hglt := hs.tables.lt hg
  have hparent := hs.tables.forest.links hf hπ (ho r)
  have hself : π ++ [j] ∈ under π j := List.prefix_refl _
  cases hl : loc r (π ++ [j]) with
  | none =>
    have hrun : copyTable below (framePtr f) (framePtr g) j s = .ok s :=
      copyTable_absent (by omega) (by rw [hparent, hl]; rfl)
    refine ⟨s, loc, pg, hrun, (Forked.refl hs).mono (Set.empty_subset _) ?_⟩
    exact fun σ hσ _ => ⟨hs.under_none hπ hl hσ, (hempty σ hσ).2⟩
  | some f' =>
    obtain ⟨g', hav, _, hrun⟩ := copyTable_taken hsteps hs.tables.addressed (by omega) (by omega)
      (by rw [hparent, hl]; exact entry_present _) h0
    -- the new table of the child
    have hgrown : Grown userSlot s loc (withTable s g j g') (place loc c (π ++ [j]) g') :=
      hs.tables.link hg hπ (ho c) (hempty _ hself).1 hav
    have hl₁ : place loc c (π ++ [j]) g' r (π ++ [j]) = some f' := by
      rw [place_other _ _ (fun hc => hrc hc.1)]
      exact hl
    have hentry := hgrown.tables.forest.links (hgrown.keeps hf) hπ (ho r)
    have hlt' := hs.tables.lt hl
    rw [hl₁] at hentry
    rw [hrun, hentry, tableEntry, entry_toNat (by omega), show (4096 * f' + 7) / 4096 = f' by omega] at h0 ⊢
    have hempty₁ : ∀ σ ∈ between (π ++ [j]) 0 512,
        place loc c (π ++ [j]) g' c σ = none ∧ pg (c, σ) = none := by
      intro σ hσ
      have hin : σ ∈ under π j := by
        rw [under_eq]
        exact Or.inr hσ
      have hne : ¬ (c = c ∧ σ = π ++ [j]) := fun hc => by
        obtain ⟨i, _, _, hu⟩ := hσ
        rw [hc.2] at hu
        exact notMem_under _ _ hu
      rw [place_other _ _ hne]
      exact hempty σ hin
    obtain ⟨s₂, loc₂, pg₂, hrun₂, hfork₂⟩ := hbelow f' g' (hs.grown hgrown) hl₁ (place_same ..) hempty₁ h0
    have hpath : ∀ q, pg (q, π ++ [j]) = none := fun q =>
      Option.eq_none_iff_forall_ne_some.mpr fun p hp => by
        have := hs.paths hp
        simp at this
        omega
    refine ⟨s₂, loc₂, pg₂, hrun₂, ?_⟩
    rw [under_eq]
    refine (Forked.grown hs hgrown ?_ ?_).trans hfork₂
    · intro q σ hn
      exact place_other _ _ (fun hc => hn ⟨hc.1, hc.2⟩)
    · intro σ hσ
      rw [Set.mem_singleton_iff.mp hσ]
      exact ⟨hpath r, hpath c⟩

/-! ### The whole walk -/

theorem cowWalkPages_copies (hrc : r ≠ c) :
    Copies r c [] r c (between [] 0 511) (fun s => cowWalkPages s (framePtr r) (framePtr c)) := by
  have hpages : ∀ {π f g}, π.length = 3 →
      Copies r c π f g (between π 0 512) (sharePages (framePtr f) (framePtr g)) := fun hπ =>
    forEntries_copies (Nat.le_refl 512) (sharePage_steps _ _) (fun j _ => sharePage_copies hπ j) 0 512 (by omega)
  have hpde : ∀ {π f g}, π.length = 2 → (∀ q j, Owned userSlot q (π ++ [j])) →
      Copies r c π f g (between π 0 512) (copyPde (framePtr f) (framePtr g)) := fun hπ ho =>
    forEntries_copies (Nat.le_refl 512) (copyTable_steps sharePages_steps _ _)
      (fun j _ => copyTable_copies hrc (by omega) j (fun q => ho q j) sharePages_steps
        (fun f' g' => hpages (by simp [hπ]))) 0 512 (by omega)
  have hpdpe : ∀ {π f g}, π.length = 1 → (∀ q, Owned userSlot q π) →
      Copies r c π f g (between π 0 512) (copyPdpe (framePtr f) (framePtr g)) := by
    intro π f g hπ ho
    have hne : π ≠ [] := fun he => by simp [he] at hπ
    exact forEntries_copies (Nat.le_refl 512) (copyTable_steps copyPde_steps _ _)
      (fun j _ => copyTable_copies hrc (by omega) j (fun q => (ho q).append hne _) copyPde_steps
        (fun f' g' => hpde (by simp [hπ]) (fun q i => ((ho q).append hne _).append (by simp) _))) 0 512 (by omega)
  refine forEntries_copies (by decide : 511 ≤ 512) (copyTable_steps copyPdpe_steps _ _) (fun j hj => ?_) 0 511 (by omega)
  -- the loop stops before the slot of the kernel
  have ho : ∀ q, Owned userSlot q ([] ++ [j]) := fun q => by
    simp only [Owned, userSlot, List.nil_append, List.head?_cons, Option.mem_some_iff]
    intro a ha
    rw [← ha]
    omega
  exact copyTable_copies hrc (by decide) j ho copyPdpe_steps (fun f' g' => hpdpe (by simp) ho)

/-! ### A new root, and a copied address space -/

/-- A cleared frame, with the kernel's entry in its last slot. -/
theorem newRoot_eq (hs : Addressed s) (pml4e : Word) (h0 : 0 ∉ (newRoot s pml4e).2.handed) :
    ∃ c e, s.Avail c ∧ newRoot s pml4e =
        (frameAddr c, {s.take c with phys := writeEntry (Function.update s.phys c fun _ => 0) c 511 e}) ∧
      ∀ n, pml4e = framePtr n → n < 2 ^ 15 → n ≠ c → e = s.phys n 511 := by
  have halloc : 0 ∉ (memAllocate s).2.handed := by
    unfold newRoot at h0
    rw [store_handed] at h0
    exact (clearPage_steps _ _).ok h0
  obtain ⟨c, _, hav, _, heq⟩ := memAllocate_ok hs halloc
  have hmax := maxMem_lt
  have hlt : c < 2 ^ 15 := hav.1.trans hmax
  have hclear : clearPage (framePtr c) (s.take c) =
      {s.take c with phys := Function.update s.phys c (fun _ => 0)} := clearPage_eq (by omega) _
  have hrun : newRoot s pml4e = (frameAddr c, (clearPage (framePtr c) (s.take c)).store (nth (framePtr c) 511)
      ((clearPage (framePtr c) (s.take c)).load (nth pml4e 511))) := by
    unfold newRoot
    rw [heq]
    rfl
  have hkernel : ∀ n, pml4e = framePtr n → n < 2 ^ 15 → n ≠ c →
      (clearPage (framePtr c) (s.take c)).load (nth pml4e 511) = s.phys n 511 := by
    rintro n rfl hn hne
    rw [load_nth _ (by omega) ⟨511, by decide⟩, hclear]
    exact congrFun (Function.update_of_ne hne _ _) 511
  rw [hrun]
  generalize (clearPage (framePtr c) (s.take c)).load (nth pml4e 511) = e at hkernel ⊢
  rw [hclear, store_nth _ (by omega) ⟨511, by decide⟩]
  exact ⟨c, e, hav, rfl, hkernel⟩

theorem newRoot_spec (hs : Spaces s loc pg) (pml4e : Word) (h0 : 0 ∉ (newRoot s pml4e).2.handed) :
    ∃ c s', newRoot s pml4e = (frameAddr c, s') ∧ s.Avail c ∧ Spaces s' (place loc c [] c) pg ∧
      (∀ f, f ≠ c → s'.phys f = s.phys f) ∧ (∀ {f}, s'.Avail f → s.Avail f) ∧
      ∀ n, pml4e = framePtr n → n < 2 ^ 15 → n ≠ c → s'.phys c 511 = s.phys n 511 := by
  obtain ⟨c, e, hav, hrun, hkernel⟩ := newRoot_eq hs.tables.addressed pml4e h0
  have hother : ∀ g, g ≠ c → writeEntry (Function.update s.phys c fun _ => 0) c 511 e g = s.phys g := by
    intro g hg
    funext i
    rw [writeEntry_other _ _ (fun hc => hg hc.1), Function.update_of_ne hg]
  rw [hrun]
  refine ⟨c, _, rfl, hav, hs.plant hav rfl hother (fun j hj => ?_), hother, ?_, ?_⟩
  · show writeEntry (Function.update s.phys c fun _ => 0) c 511 e c j = 0
    rw [writeEntry_other _ _ (fun hc => hj (by rw [hc.2]; rfl)), Function.update_self]
  · exact fun ha => ((take_avail s c _).mp ha).1
  · intro n hn hlt hne
    rw [← hkernel n hn hlt hne]
    exact writeEntry_same ..

/-- A frame of the pool that became a root. -/
theorem Spaces.kept_root (hs : Spaces s loc pg) (hav : s.Avail c) (hphys : ∀ f, f ≠ c → s'.phys f = s.phys f)
    (havail : ∀ {f}, s'.Avail f → s.Avail f) : Kept s loc pg s' (place loc c [] c) pg where
  tables := fun {q π f} hl => by
    by_cases hp : q = c ∧ π = []
    · rw [hp.1, hp.2, place_same] at hl
      exact Or.inr (Option.some.inj hl ▸ hav)
    · rw [place_other _ _ hp] at hl
      exact Or.inl ⟨q, π, hl⟩
  pages := fun hp => Or.inl ⟨_, _, hp, rfl⟩
  avail := havail
  roots := fun {q} hq => by
    have hne : q ≠ c := fun he => (hs.tables.taken hq).2 (he ▸ hav)
    rw [place_other _ _ (fun hc => hne hc.1)]
    exact hq
  phys := fun ha _ _ => hphys _ fun he => ha (he ▸ hav)
  kernel := fun {q} hq => by
    have hne : q ≠ c := fun he => (hs.tables.taken hq).2 (he ▸ hav)
    rw [hphys q hne]

/-- The child gets the parent's pages in all slots but the kernel's, and nobody
else's change. -/
theorem forkSpace_spec (hs : Spaces s loc pg) (hr : loc r [] = some r) (pml4e : Word)
    (h0 : 0 ∉ (forkSpace s pml4e (framePtr r)).2.handed) :
    ∃ c s' loc' pg', forkSpace s pml4e (framePtr r) = (frameAddr c, s') ∧ s.Avail c ∧ Spaces s' loc' pg' ∧
      loc' c [] = some c ∧ (∀ q, loc q [] = some q → loc' q [] = some q) ∧
      (∀ σ ∈ between [] 0 511, pageAt s' pg' (c, σ) = pageAt s pg (r, σ)) ∧
      (∀ q σ, q ≠ c → pageAt s' pg' (q, σ) = pageAt s pg (q, σ)) ∧ Kept s loc pg s' loc' pg' ∧
      ∀ n, pml4e = framePtr n → n < 2 ^ 15 → n ≠ c → s'.phys c 511 = s.phys n 511 := by
  have h0' : 0 ∉ (newRoot s pml4e).2.handed := (cowWalkPages_steps _ _ _).ok h0
  obtain ⟨c, s₁, hroot, hav, hs₁, hphys, havail, hkernel⟩ := newRoot_spec hs pml4e h0'
  have hrc : r ≠ c := fun he => (hs.tables.taken hr).2 (he ▸ hav)
  have hkeep : ∀ q, loc q [] = some q → place loc c [] c q [] = some q := by
    intro q hq
    have hne : q ≠ c := fun he => (hs.tables.taken hq).2 (he ▸ hav)
    rw [place_other _ _ (fun hc => hne hc.1)]
    exact hq
  have hrun : forkSpace s pml4e (framePtr r) =
      (frameAddr c, returned (cowWalkPages s₁ (framePtr r) (framePtr c))) := by
    unfold forkSpace
    rw [hroot]
    rfl
  rw [hrun] at h0 ⊢
  have hempty : ∀ σ ∈ between [] 0 511, place loc c [] c c σ = none ∧ pg (c, σ) = none := by
    intro σ hσ
    obtain ⟨j, _, _, hu⟩ := hσ
    have hne : σ ≠ [] := fun he => by
      rw [he] at hu
      exact notMem_under [] j hu
    rw [place_other _ _ (fun hc => hne hc.2)]
    refine ⟨hs.tables.no_root hav σ, Option.eq_none_iff_forall_ne_some.mpr fun p hp => ?_⟩
    exact (hs.tables.taken (hs.rooted hp)).2 hav
  obtain ⟨s₂, loc₂, pg₂, hwalk, hfork⟩ :=
    cowWalkPages_copies hrc hs₁ (hkeep r hr) (place_same ..) hempty h0
  dsimp only at hwalk
  have hnil : ([] : List (Fin 512)) ∉ between [] 0 511 := fun hσ => by
    obtain ⟨j, _, _, hu⟩ := hσ
    exact notMem_under [] j hu
  have hbusy : ∀ {f}, ¬ s.Avail f → s₁.phys f = s.phys f := fun ha => hphys _ fun he => ha (he ▸ hav)
  have hcontents : ∀ k, pageAt s₁ pg k = pageAt s pg k :=
    hs.pageAt_eq (fun ha _ => hbusy ha)
  refine ⟨c, s₂, loc₂, pg₂, by rw [hwalk]; rfl, hav, hfork.spaces, ?_, ?_, ?_, ?_,
    (hs.kept_root hav hphys havail).trans hfork.kept, ?_⟩
  · rw [hfork.tables (fun hc => hnil hc.2), place_same]
  · intro q hq
    rw [hfork.tables (fun hc => hnil hc.2)]
    exact hkeep q hq
  · intro σ hσ
    rw [hfork.pageAt_child hs₁ hσ, hcontents]
  · intro q σ hq
    rw [hfork.pageAt_other hs₁ hq, hcontents]
  · intro n hn hlt hne
    rw [hfork.kernel (place_same ..), hkernel n hn hlt hne]

end Sbnix.Memory
