import Sbnix.Memory.Paging
import Sbnix.Memory.Pool

/-! The page tables implement a finite map.

`Tables` instantiates the table forest with the kernel's memory: tables are
frames of the pool that have been handed out, entries above the last level are
either zero or a frame address with all permissions, and every frame still
available is zero. `walk_pages` adds empty tables on its way down and changes no
last-level entry (`walkPages_spec`), whatever the frames the pool hands it;
`page_insert` then changes one last-level entry (`pageInsert_spec`); and
`look_pages` reads the map (`lookPages_spec`). A sequence of insertions is then a
sequence of updates of the map, and looking an address up finds the last one for
its page (`pageInserts_implement_map`). -/
namespace Sbnix.Memory
open Words Library

/-- Which slots of which roots belong to the tables under consideration. -/
abbrev Own := Nat → Fin 512 → Prop

/-- The frames that hold tables, by position; roots are named by their frame. -/
abbrev TableMap := Places Nat Nat (Fin 512)

structure Tables (own : Own) (s : Mem) (loc : TableMap) : Prop where
  addressed : Addressed s
  forest : Forest tableEntry own 3 s.phys loc
  root : ∀ {r f : Nat} {π : List (Fin 512)}, loc r π = some f → loc r [] = some r
  taken : ∀ {r : Nat} {π : List (Fin 512)} {f : Nat}, loc r π = some f → f < maxMem ∧ ¬ s.Avail f
  zeroed : ∀ {f : Nat}, s.Avail f → ∀ i, s.phys f i = 0

/-- The last-level entry an address would be translated by; zero if there is none. -/
def entryOf (s : Mem) (loc : TableMap) (r : Nat) (π : List (Fin 512)) (i : Fin 512) : Word :=
  leaf tableEntry s.phys loc r π i

/-- `s'` is `s` with empty tables added: the last-level entries are the same, and
so is every frame that was neither available nor a table, and what roots have in
slots that are not theirs. -/
structure Grown (own : Own) (s : Mem) (loc : TableMap) (s' : Mem) (loc' : TableMap) : Prop where
  tables : Tables own s' loc'
  keeps : ∀ {r : Nat} {π : List (Fin 512)} {f : Nat}, loc r π = some f → loc' r π = some f
  fresh : ∀ {r : Nat} {π : List (Fin 512)} {f : Nat}, loc' r π = some f → loc r π = some f ∨ s.Avail f
  entries : ∀ (r : Nat) {π : List (Fin 512)} (i : Fin 512), π.length = 3 →
    entryOf s' loc' r π i = entryOf s loc r π i
  avail : ∀ {f : Nat}, s'.Avail f → s.Avail f
  memmap : ∀ {f : Nat}, f < maxMem → ¬ s.Avail f → s'.memmap f = s.memmap f
  spare : ∀ {f : Nat}, s'.Avail f → s'.memmap f = s.memmap f
  phys : ∀ {f : Nat}, ¬ s.Avail f → (∀ r π, loc r π ≠ some f) → s'.phys f = s.phys f
  unowned : ∀ {r : Nat} {i : Fin 512}, loc r [] = some r → ¬ own r i → s'.phys r i = s.phys r i

variable {own : Own} {s s' : Mem} {loc loc' : TableMap} {r f g : Nat} {π : List (Fin 512)}

theorem Tables.lt (h : Tables own s loc) (hf : loc r π = some f) : f < 2 ^ 15 :=
  (h.taken hf).1.trans maxMem_lt

theorem Tables.not_avail (h : Tables own s loc) (ha : s.Avail f) (r : Nat) (π : List (Fin 512)) :
    loc r π ≠ some f :=
  fun hf => (h.taken hf).2 ha

theorem Grown.refl (h : Tables own s loc) : Grown own s loc s loc :=
  ⟨h, id, Or.inl, fun _ _ _ _ => rfl, id, fun _ _ => rfl, fun _ => rfl, fun _ _ => rfl, fun _ _ => rfl⟩

theorem Grown.trans {s₁ s₂ : Mem} {loc₁ loc₂ : TableMap} (h : Grown own s loc s₁ loc₁)
    (h' : Grown own s₁ loc₁ s₂ loc₂) : Grown own s loc s₂ loc₂ where
  tables := h'.tables
  keeps := fun hf => h'.keeps (h.keeps hf)
  fresh := fun hf => by
    rcases h'.fresh hf with hf | ha
    · exact h.fresh hf
    · exact Or.inr (h.avail ha)
  entries := fun r _ i hπ => (h'.entries r i hπ).trans (h.entries r i hπ)
  avail := fun ha => h.avail (h'.avail ha)
  memmap := fun hf ha => (h'.memmap hf (fun hc => ha (h.avail hc))).trans (h.memmap hf ha)
  spare := fun ha => (h'.spare ha).trans (h.spare (h'.avail ha))
  phys := fun ha hf => by
    have hnot : ∀ r π, loc₁ r π ≠ some _ := fun r π hc =>
      (h.fresh hc).elim (fun hold => hf r π hold) (fun hav => ha hav)
    exact (h'.phys (fun hc => ha (h.avail hc)) hnot).trans (h.phys ha hf)
  unowned := fun hr ho => (h'.unowned (h.keeps hr) ho).trans (h.unowned hr ho)

/-! ### Steps that keep the tables -/

/-- Taking a frame out of the pool. -/
theorem Tables.take (h : Tables own s loc) (g : Nat) : Tables own (s.take g) loc where
  addressed := take_addressed h.addressed g
  forest := h.forest
  root := h.root
  taken := fun hf => ⟨(h.taken hf).1, fun ha => (h.taken hf).2 ((take_avail s g _).mp ha).1⟩
  zeroed := fun ha => h.zeroed ((take_avail s g _).mp ha).1

theorem Grown.take (h : Tables own s loc) (ha : s.Avail g) : Grown own s loc (s.take g) loc where
  tables := h.take g
  keeps := id
  fresh := Or.inl
  entries := fun _ _ _ _ => rfl
  avail := fun hf => ((take_avail s g _).mp hf).1
  memmap := fun _ hf => take_refCnt_other s (fun he => hf (he ▸ ha))
  spare := fun hf => take_refCnt_other s ((take_avail s g _).mp hf).2
  phys := fun _ _ => rfl
  unowned := fun _ _ => rfl

/-- What matters of memory are the tables, the available frames, and which these
are. -/
theorem Tables.congr (h : Tables own s loc)
    (hm : ∀ i < maxMem, (s'.memmap i).addr = (s.memmap i).addr ∧ (s'.memmap i).resFlag = (s.memmap i).resFlag)
    (hp : ∀ {f}, (s.Avail f ∨ ∃ r π, loc r π = some f) → s'.phys f = s.phys f) : Tables own s' loc := by
  have hav : ∀ i, s'.Avail i ↔ s.Avail i := fun i =>
    and_congr_right fun hi => by rw [(hm i hi).2]
  exact
    { addressed := fun i hi => by rw [(hm i hi).1]; exact h.addressed i hi
      forest := h.forest.frame fun r π f hf => hp (Or.inr ⟨r, π, hf⟩)
      root := h.root
      taken := fun hf => ⟨(h.taken hf).1, fun ha => (h.taken hf).2 ((hav _).mp ha)⟩
      zeroed := fun ha i => by
        rw [hp (Or.inl ((hav _).mp ha))]
        exact h.zeroed ((hav _).mp ha) i }

/-- Storing into a last-level table. -/
theorem Tables.setEntry (h : Tables own s loc) (hf : loc r π = some f) (hπ : π.length = 3)
    (i : Fin 512) (w : Word) : Tables own {s with phys := writeEntry s.phys f i w} loc where
  addressed := h.addressed
  forest := h.forest.write hf (by omega) i w
  root := h.root
  taken := h.taken
  zeroed := fun {f'} ha i' => by
    have hne : ¬ (f' = f ∧ i' = i) := fun hc => (h.taken hf).2 (hc.1 ▸ ha)
    show writeEntry s.phys f i w f' i' = 0
    rw [writeEntry_other _ _ hne]
    exact h.zeroed ha i'

theorem entryOf_setEntry (h : Tables own s loc) (hf : loc r π = some f) (i : Fin 512) (w : Word)
    (r' : Nat) (π' : List (Fin 512)) (i' : Fin 512) :
    entryOf {s with phys := writeEntry s.phys f i w} loc r' π' i' =
      if r' = r ∧ π' = π ∧ i' = i then w else entryOf s loc r' π' i' :=
  leaf_write h.forest hf i w r' π' i'

/-- A fresh table linked from an empty entry. -/
theorem Tables.link (h : Tables own s loc) (hf : loc r π = some f) (hd : π.length < 3) {i : Fin 512}
    (ho : Owned own r (π ++ [i])) (hnone : loc r (π ++ [i]) = none) (ha : s.Avail g) :
    Grown own s loc {s.take g with phys := writeEntry s.phys f i (tableEntry (some g))}
      (place loc r (π ++ [i]) g) := by
  have hzero : ∀ j, s.phys g j = tableEntry none := h.zeroed ha
  have hfresh : ∀ r π, loc r π ≠ some g := h.not_avail ha
  have hcases : ∀ {r' : Nat} {π' : List (Fin 512)} {f' : Nat}, place loc r (π ++ [i]) g r' π' = some f' →
      loc r' π' = some f' ∨ f' = g := by
    intro r' π' f' hl
    by_cases hp : r' = r ∧ π' = π ++ [i]
    · rw [hp.1, hp.2, place_same] at hl
      exact Or.inr (Option.some.inj hl).symm
    · rw [place_other _ _ hp] at hl
      exact Or.inl hl
  refine
    { tables :=
        { addressed := take_addressed h.addressed g
          forest := h.forest.grow hf hnone hfresh hzero
          root := ?_
          taken := ?_
          zeroed := ?_ }
      keeps := ?_
      fresh := ?_
      entries := fun r' _ i' hπ' => leaf_grow h.forest hf hd hnone hzero hfresh r' hπ' i'
      avail := fun hav => ((take_avail s g _).mp hav).1
      memmap := fun _ hav => take_refCnt_other s (fun he => hav (he ▸ ha))
      spare := fun hav => take_refCnt_other s ((take_avail s g _).mp hav).2
      phys := ?_
      unowned := ?_ }
  · intro r' f' π' hl
    rw [place_other _ _ (by simp)]
    by_cases hp : r' = r ∧ π' = π ++ [i]
    · rw [hp.1]
      exact h.root hf
    · rw [place_other _ _ hp] at hl
      exact h.root hl
  · intro r' π' f' hl
    rcases hcases hl with hl | rfl
    · exact ⟨(h.taken hl).1, fun hav => (h.taken hl).2 ((take_avail s g f').mp hav).1⟩
    · exact ⟨ha.1, fun hav => ((take_avail s f' f').mp hav).2 rfl⟩
  · intro f' hav i'
    have hne : ¬ (f' = f ∧ i' = i) :=
      fun hc => (h.taken hf).2 (hc.1 ▸ ((take_avail s g f').mp hav).1)
    show writeEntry s.phys f i _ f' i' = 0
    rw [writeEntry_other _ _ hne]
    exact h.zeroed ((take_avail s g f').mp hav).1 i'
  · intro r' π' f' hl
    have hne : ¬ (r' = r ∧ π' = π ++ [i]) := fun hc => by
      rw [hc.1, hc.2, hnone] at hl
      cases hl
    rw [place_other _ _ hne]
    exact hl
  · intro r' π' f' hl
    rcases hcases hl with hl | rfl
    · exact Or.inl hl
    · exact Or.inr ha
  · intro f' _ hnot
    have hne : f' ≠ f := fun he => hnot r π (he ▸ hf)
    funext i'
    exact writeEntry_other _ _ (fun hc => hne hc.1)
  · intro r' i' hr' hunowned
    refine writeEntry_other _ _ fun hc => hunowned ?_
    obtain ⟨rfl, rfl⟩ := hc
    obtain ⟨rfl, rfl⟩ := h.forest.inj hf hr'
    exact ho _ rfl

/-! ### Walking -/

theorem tableEntry_eq_zero {o : Option Nat} : tableEntry o = 0 ↔ o = none := by
  cases o with
  | none => simp [tableEntry]
  | some f =>
    have := entry_ne_zero (frameAddr f)
    simpa [tableEntry] using this

theorem walkLevel_present {absent : Word → Bool} (habs : ∀ e, absent e = (e == 0)) (hf : f < 2 ^ 15) {i : Word}
    (hi : i.toNat < 512) (hg : g < 2 ^ 15) (h : s.phys f ⟨i.toNat, hi⟩ = tableEntry (some g)) :
    walkLevel absent s (framePtr f) i = (framePtr g, s) := by
  have hload : s.load (index (framePtr f) i) = tableEntry (some g) := by
    rw [load_index s (by omega) hi, h]
  have hpresent : absent (tableEntry (some g)) = false := by
    rw [habs]
    simpa using tableEntry_eq_zero.not.mpr (Option.some_ne_none g)
  rw [walkLevel, hload, hpresent]
  simp only [Bool.false_eq_true, if_false, hload]
  rw [tableEntry, nextTable_entry hg]

theorem walkLevel_spec (h : Tables own s loc) (hf : loc r π = some f) (hd : π.length < 3) {i : Word}
    (hi : i.toNat < 512) (ho : Owned own r (π ++ [⟨i.toNat, hi⟩])) {absent : Word → Bool}
    (habs : ∀ e, absent e = (e == 0)) (h0 : 0 ∉ (walkLevel absent s (framePtr f) i).2.handed) :
    ∃ g loc', (walkLevel absent s (framePtr f) i).1 = framePtr g ∧
      loc' r (π ++ [⟨i.toNat, hi⟩]) = some g ∧ Grown own s loc (walkLevel absent s (framePtr f) i).2 loc' := by
  have hlt : f < 2 ^ 15 := h.lt hf
  have hent : s.load (index (framePtr f) i) = tableEntry (loc r (π ++ [⟨i.toNat, hi⟩])) := by
    rw [load_index s (by omega) hi]
    exact h.forest.links hf hd ho
  cases hl : loc r (π ++ [⟨i.toNat, hi⟩]) with
  | some g =>
    have hg : g < 2 ^ 15 := h.lt hl
    rw [hl] at hent
    rw [load_index s (by omega) hi] at hent
    rw [walkLevel_present habs hlt hi hg hent]
    exact ⟨g, loc, rfl, hl, .refl h⟩
  | none =>
    rw [hl] at hent
    have habsent : absent (s.load (index (framePtr f) i)) = true := by
      rw [habs, hent]
      rfl
    rw [walkLevel, habsent] at h0 ⊢
    simp only [if_true] at h0 ⊢
    have h0' : 0 ∉ (memAllocate s).2.handed := by
      split at h0
      · exact h0
      · exact h0
    obtain ⟨g, hpos, ha, _, halloc⟩ := memAllocate_ok h.addressed h0'
    have hmax := maxMem_lt
    have hg : g < 2 ^ 15 := ha.1.trans hmax
    have hne : frameAddr g ≠ 0 := fun he => by
      have := (frameAddr_eq_zero (by omega)).mp he
      omega
    rw [halloc, if_pos hne, store_index _ (by omega) hi, load_index _ (by omega) hi]
    dsimp only
    rw [writeEntry_same, nextTable_entry hg]
    exact ⟨g, _, rfl, place_same .., h.link hf hd ho hl ha⟩

theorem walkPages_spec (h : Tables own s loc) (hr : loc r [] = some r) (v : Word)
    (ho : own r (slot v .pml4e)) (h0 : 0 ∉ (walkPages s (framePtr r) v).2.handed) :
    ∃ g loc', (walkPages s (framePtr r) v).1 = index (framePtr g) (addrRes v .pte) ∧
      loc' r (tablePath v) = some g ∧ Grown own s loc (walkPages s (framePtr r) v).2 loc' := by
  have hown : Owned own r ([slot v .pml4e]) := by simpa [Owned] using ho
  unfold walkPages at h0 ⊢
  dsimp only at h0 ⊢
  have h0₂ := (walkLevel_steps _ _ _ _).ok h0
  have h0₁ := (walkLevel_steps _ _ _ _).ok h0₂
  obtain ⟨g₁, loc₁, hp₁, hl₁, hg₁⟩ := walkLevel_spec h hr (by decide) (addrRes_lt v .pml4e) hown
    pml4Absent_iff h0₁
  rw [hp₁] at h0 h0₂ ⊢
  obtain ⟨g₂, loc₂, hp₂, hl₂, hg₂⟩ := walkLevel_spec hg₁.tables hl₁ (by simp) (addrRes_lt v .pdpe)
    (hown.append (by simp) _) (fun _ => rfl) h0₂
  rw [hp₂] at h0 ⊢
  obtain ⟨g₃, loc₃, hp₃, hl₃, hg₃⟩ := walkLevel_spec hg₂.tables hl₂ (by simp) (addrRes_lt v .pde)
    (hown.append (by simp) _) (fun _ => rfl) h0
  rw [hp₃]
  exact ⟨g₃, loc₃, rfl, hl₃, (hg₁.trans hg₂).trans hg₃⟩

/-! ### Looking an address up -/

/-- `look_pages` reads the entry the forest has for the address. -/
theorem lookPages_spec (h : Tables own s loc) (hr : loc r [] = some r) (v : Word)
    (ho : own r (slot v .pml4e)) :
    lookPages s (framePtr r) v =
      (loc r (tablePath v)).bind fun g =>
        if s.phys g (slot v .pte) ≠ 0 then some (index (framePtr g) (addrRes v .pte)) else none := by
  have hown : Owned own r ([slot v .pml4e]) := by simpa [Owned] using ho
  have hlink : ∀ {π : List (Fin 512)} {f : Nat} (l : Level), loc r π = some f → π.length < 3 →
      Owned own r (π ++ [slot v l]) →
      s.load (index (framePtr f) (addrRes v l)) = tableEntry (loc r (π ++ [slot v l])) := by
    intro π f l hf hd howned
    have := h.lt hf
    rw [load_index s (by omega) (addrRes_lt v l)]
    exact h.forest.links hf hd howned
  have hnone : ∀ {π : List (Fin 512)} (ρ : List (Fin 512)), π ≠ [] → loc r π = none → loc r (π ++ ρ) = none :=
    fun ρ hne hl => h.forest.below_none hne hl ρ
  unfold lookPages
  dsimp only
  rw [hlink .pml4e hr (by decide) hown, List.nil_append]
  cases h₁ : loc r [slot v .pml4e] with
  | none =>
    have : loc r (tablePath v) = none := hnone [slot v .pdpe, slot v .pde] (by simp) h₁
    rw [this]
    simp [tableEntry]
  | some g₁ =>
    rw [tableEntry, if_pos (entry_present _), nextTable_entry (h.lt h₁),
      hlink .pdpe h₁ (by simp) (hown.append (by simp) _)]
    cases h₂ : loc r ([slot v .pml4e] ++ [slot v .pdpe]) with
    | none =>
      have : loc r (tablePath v) = none := hnone [slot v .pde] (by simp) h₂
      rw [this]
      simp [tableEntry]
    | some g₂ =>
      rw [tableEntry, if_pos (entry_ne_zero _), nextTable_entry (h.lt h₂),
        hlink .pde h₂ (by simp) (hown.append (by simp) _)]
      cases h₃ : loc r ([slot v .pml4e] ++ [slot v .pdpe] ++ [slot v .pde]) with
      | none =>
        have : loc r (tablePath v) = none := h₃
        rw [this]
        simp [tableEntry]
      | some g₃ =>
        have hg₃ : loc r (tablePath v) = some g₃ := h₃
        have := h.lt h₃
        rw [tableEntry, if_pos (entry_ne_zero _), nextTable_entry (h.lt h₃), hg₃,
          load_index s (by omega) (addrRes_lt v .pte)]
        rfl

/-- What an address is translated by: the entry `look_pages` points at. -/
def translation (s : Mem) (r : Nat) (v : Word) : Option Word :=
  (lookPages s (framePtr r) v).map s.load

theorem translation_eq (h : Tables own s loc) (hr : loc r [] = some r) (v : Word)
    (ho : own r (slot v .pml4e)) :
    translation s r v =
      if entryOf s loc r (tablePath v) (slot v .pte) ≠ 0
      then some (entryOf s loc r (tablePath v) (slot v .pte)) else none := by
  rw [translation, lookPages_spec h hr v ho, entryOf]
  cases hl : loc r (tablePath v) with
  | none => simp [leaf_none hl, tableEntry]
  | some g =>
    have := h.lt hl
    rw [leaf_some hl, Option.bind_some]
    by_cases hz : s.phys g (slot v .pte) = 0
    · simp [hz]
    · simp only [hz, ne_eq, not_false_iff, if_true, Option.map_some]
      rw [load_index s (by omega) (addrRes_lt v .pte)]
      rfl

/-! ### Inserting a page -/

theorem pageInsert_spec (h : Tables own s loc) (hr : loc r [] = some r) (v physical : Word)
    (ho : own r (slot v .pml4e)) (h0 : 0 ∉ (pageInsert s (framePtr r) v physical).handed) :
    ∃ loc', Tables own (pageInsert s (framePtr r) v physical) loc' ∧
      (∀ r f, loc r [] = some f → loc' r [] = some f) ∧
      ∀ r' π' i', π'.length = 3 → entryOf (pageInsert s (framePtr r) v physical) loc' r' π' i' =
        if r' = r ∧ π' = tablePath v ∧ i' = slot v .pte then physical ||| pagePerm
        else entryOf s loc r' π' i' := by
  have hins : pageInsert s (framePtr r) v physical =
      (freePresent (walkPages s (framePtr r) v).2 (walkPages s (framePtr r) v).1).store
        (walkPages s (framePtr r) v).1 (physical ||| pagePerm) := rfl
  rw [hins, store_handed, freePresent_handed] at h0
  obtain ⟨g, loc', hptr, hl, hg⟩ := walkPages_spec h hr v ho h0
  rw [hins]
  generalize walkPages s (framePtr r) v = walked at hptr hg ⊢
  have hlt := hg.tables.lt hl
  have htab : Tables own (freePresent walked.2 walked.1) loc' :=
    hg.tables.congr (fun i hi => by simp [freePresent_memmap hg.tables.addressed _ i hi])
      (fun _ => by rw [freePresent_phys])
  have hstore : ∀ t : Mem, t.store walked.1 (physical ||| pagePerm) =
      {t with phys := writeEntry t.phys g (slot v .pte) (physical ||| pagePerm)} := by
    intro t
    rw [hptr, store_index t (by omega) (addrRes_lt v .pte)]
    rfl
  rw [hstore]
  refine ⟨loc', htab.setEntry hl rfl _ _, fun _ _ hf => hg.keeps hf, ?_⟩
  intro r' π' i' hπ'
  rw [entryOf_setEntry htab hl]
  have hentries : entryOf (freePresent walked.2 walked.1) loc' r' π' i' = entryOf walked.2 loc' r' π' i' := by
    unfold entryOf
    rw [freePresent_phys]
  rw [hentries, hg.entries r' i' hπ']

/-- The entry that is there is what `mem_free` gets. -/
theorem pageInsert_overrun (h : Tables own s loc) (hr : loc r [] = some r) (v physical : Word)
    (ho : own r (slot v .pml4e)) (h0 : 0 ∉ (pageInsert s (framePtr r) v physical).handed) :
    (pageInsert s (framePtr r) v physical).overrun =
      (s.overrun || decide (entryOf s loc r (tablePath v) (slot v .pte) &&& pagePresent ≠ 0 ∧
        ¬ InMemmap (entryOf s loc r (tablePath v) (slot v .pte)))) := by
  have hins : pageInsert s (framePtr r) v physical =
      (freePresent (walkPages s (framePtr r) v).2 (walkPages s (framePtr r) v).1).store
        (walkPages s (framePtr r) v).1 (physical ||| pagePerm) := rfl
  rw [hins, store_handed, freePresent_handed] at h0
  obtain ⟨g, loc', hptr, hl, hg⟩ := walkPages_spec h hr v ho h0
  have hlt := hg.tables.lt hl
  have hload : (walkPages s (framePtr r) v).2.load (walkPages s (framePtr r) v).1 =
      entryOf s loc r (tablePath v) (slot v .pte) := by
    rw [← hg.entries r (slot v .pte) rfl, entryOf, leaf_some hl, hptr, load_index _ (by omega) (addrRes_lt v .pte)]
    rfl
  rw [hins, store_overrun, freePresent_overrun, walkPages_overrun, hload]

/-! ### A sequence of insertions -/

/-- The arguments of one call of `page_insert`; the root is named by its frame. -/
structure Insert where
  root : Nat
  logical : Word
  physical : Word

def pageInserts (s : Mem) : List Insert → Mem
  | [] => s
  | c :: cs => pageInserts (pageInsert s (framePtr c.root) c.logical c.physical) cs

theorem pageInserts_append (s : Mem) (a b : List Insert) :
    pageInserts s (a ++ b) = pageInserts (pageInserts s a) b := by
  induction a generalizing s with
  | nil => rfl
  | cons c cs ih => exact ih _

theorem pageInserts_steps (s : Mem) (cs : List Insert) : Steps s (pageInserts s cs) := by
  induction cs generalizing s with
  | nil => exact .refl
  | cons c cs ih => exact (pageInsert_steps s _ _ _).trans (ih _)

/-- Roots the pool has handed out, all of whose entries are zero, and a pool of
zeroed frames. -/
structure ZeroedRoots (s : Mem) (roots : Finset Nat) : Prop where
  addressed : Addressed s
  taken : ∀ r ∈ roots, r < maxMem ∧ ¬ s.Avail r
  empty : ∀ r ∈ roots, ∀ i, s.phys r i = 0
  zeroed : ∀ {f : Nat}, s.Avail f → ∀ i, s.phys f i = 0

/-- The call that decides how `v` is translated under the root `r`. -/
def lastInsert (calls : List Insert) (r : Nat) (v : Word) : Option Insert :=
  calls.reverse.find? fun c => c.root = r ∧ SamePage c.logical v

/-- Tables that are roots only. -/
def rootTables (roots : Finset Nat) : TableMap := fun r π => if r ∈ roots ∧ π = [] then some r else none

theorem rootTables_eq_some {roots : Finset Nat} (h : rootTables roots r π = some f) :
    r ∈ roots ∧ π = [] ∧ f = r := by
  unfold rootTables at h
  split at h
  · rename_i hr
    exact ⟨hr.1, hr.2, (Option.some.inj h).symm⟩
  · cases h

theorem ZeroedRoots.tables {roots : Finset Nat} (h : ZeroedRoots s roots) :
    Tables (fun _ _ => True) s (rootTables roots) where
  addressed := h.addressed
  forest :=
    { inj := by
        intro r r' π π' f hf hf'
        obtain ⟨_, hπ, hr⟩ := rootTables_eq_some hf
        obtain ⟨_, hπ', hr'⟩ := rootTables_eq_some hf'
        exact ⟨hr.symm.trans hr', hπ.trans hπ'.symm⟩
      links := by
        intro r π f i hf _ _
        obtain ⟨hr, hπ, rfl⟩ := rootTables_eq_some hf
        rw [h.empty f hr i]
        simp [rootTables, tableEntry]
      closed := by
        intro r π i hne _
        simp [rootTables] }
  root := fun hf => by simp [rootTables, (rootTables_eq_some hf).1]
  taken := fun hf => by
    obtain ⟨hr, _, rfl⟩ := rootTables_eq_some hf
    exact h.taken _ hr
  zeroed := h.zeroed

/-- The last call that matches decides; before any, the translation is the old one. -/
theorem pageInserts_translation {roots : Finset Nat} (h : Tables (fun _ _ => True) s loc)
    (hroots : ∀ r ∈ roots, loc r [] = some r) (calls : List Insert)
    (hcalls : ∀ c ∈ calls, c.root ∈ roots) (h0 : 0 ∉ (pageInserts s calls).handed) (hr : r ∈ roots)
    (v : Word) : translation (pageInserts s calls) r v =
      ((lastInsert calls r v).map fun c => c.physical ||| pagePerm).or (translation s r v) := by
  -- by induction on the calls, the tables growing with each
  induction calls generalizing s loc with
  | nil => rfl
  | cons c cs ih =>
    have hc : c.root ∈ roots := hcalls c (List.mem_cons_self ..)
    have h0' := (pageInserts_steps _ cs).ok h0
    obtain ⟨loc', htab, hkeep, hentries⟩ := pageInsert_spec h (hroots _ hc) c.logical c.physical trivial h0'
    have hroots' : ∀ r ∈ roots, loc' r [] = some r := fun r hr => hkeep r r (hroots r hr)
    rw [pageInserts, ih htab hroots' (fun c' hc' => hcalls c' (List.mem_cons_of_mem _ hc')) h0]
    have hone : translation (pageInsert s (framePtr c.root) c.logical c.physical) r v =
        if c.root = r ∧ SamePage c.logical v then some (c.physical ||| pagePerm) else translation s r v := by
      rw [translation_eq htab (hroots' r hr) v trivial, translation_eq h (hroots r hr) v trivial,
        hentries r _ _ rfl]
      have hiff : (r = c.root ∧ tablePath v = tablePath c.logical ∧ slot v .pte = slot c.logical .pte) ↔
          (c.root = r ∧ SamePage c.logical v) := by
        rw [← path_eq_iff c.logical v, eq_comm, @eq_comm _ (tablePath v), @eq_comm _ (slot v .pte)]
      by_cases hmatch : c.root = r ∧ SamePage c.logical v
      · rw [if_pos (hiff.mpr hmatch), if_pos hmatch, if_pos (entry_ne_zero _)]
      · rw [if_neg (fun hh => hmatch (hiff.mp hh)), if_neg hmatch]
    rw [hone, lastInsert, lastInsert, List.reverse_cons, List.find?_append]
    cases hfind : cs.reverse.find? fun c => c.root = r ∧ SamePage c.logical v with
    | some c' => rfl
    | none =>
      by_cases hmatch : c.root = r ∧ SamePage c.logical v
      · simp [hmatch]
      · simp [hmatch]

/-- Zeroed roots translate nothing. -/
theorem ZeroedRoots.translation {roots : Finset Nat} (h : ZeroedRoots s roots) (hr : r ∈ roots) (v : Word) :
    Memory.translation s r v = none := by
  rw [translation_eq h.tables (by simp [rootTables, hr]) v trivial, entryOf, leaf_none (by simp [rootTables, tablePath])]
  simp [tableEntry]

/-- From zeroed roots on, the last call that matches decides. -/
theorem ZeroedRoots.inserts {roots : Finset Nat} (h : ZeroedRoots s roots) {calls : List Insert}
    (hcalls : ∀ c ∈ calls, c.root ∈ roots) (h0 : 0 ∉ (pageInserts s calls).handed) (hr : r ∈ roots) (v : Word) :
    Memory.translation (pageInserts s calls) r v = (lastInsert calls r v).map fun c => c.physical ||| pagePerm := by
  rw [pageInserts_translation h.tables (fun r hr => by simp [rootTables, hr]) calls hcalls h0 hr v, h.translation hr v,
    Option.or_none]

/-- The tables after a sequence of insertions. -/
theorem pageInserts_tables {roots : Finset Nat} (h : Tables (fun _ _ => True) s loc)
    (hroots : ∀ r ∈ roots, loc r [] = some r) {calls : List Insert} (hcalls : ∀ c ∈ calls, c.root ∈ roots)
    (h0 : 0 ∉ (pageInserts s calls).handed) :
    ∃ loc', Tables (fun _ _ => True) (pageInserts s calls) loc' ∧ ∀ r ∈ roots, loc' r [] = some r := by
  induction calls generalizing s loc with
  | nil => exact ⟨loc, h, hroots⟩
  | cons c cs ih =>
    obtain ⟨loc', htab, hkeep, _⟩ := pageInsert_spec h (hroots _ (hcalls c (List.mem_cons_self ..))) c.logical c.physical
      trivial ((pageInserts_steps _ cs).ok h0)
    exact ih htab (fun r hr => hkeep r r (hroots r hr)) (fun c' hc' => hcalls c' (List.mem_cons_of_mem _ hc')) h0

/-- One insertion more leaves the table of frames just when it overwrites an entry that is not of a frame in it. -/
theorem ZeroedRoots.overrun {roots : Finset Nat} (h : ZeroedRoots s roots) {calls : List Insert} {c : Insert}
    (hcalls : ∀ c' ∈ calls ++ [c], c'.root ∈ roots) (h0 : 0 ∉ (pageInserts s (calls ++ [c])).handed) :
    (pageInserts s (calls ++ [c])).overrun = true ↔ (pageInserts s calls).overrun = true ∨
      ∃ c' ∈ lastInsert calls c.root c.logical, ¬ InMemmap (c'.physical ||| pagePerm) := by
  have hc : c.root ∈ roots := hcalls c (by simp)
  have hbefore : ∀ c' ∈ calls, c'.root ∈ roots := fun c' hc' => hcalls c' (List.mem_append_left _ hc')
  have hlast : pageInserts s (calls ++ [c]) = pageInsert (pageInserts s calls) (framePtr c.root) c.logical c.physical :=
    pageInserts_append s calls [c]
  rw [hlast] at h0 ⊢
  have h0b := (pageInsert_steps _ _ _ _).ok h0
  obtain ⟨loc', htab, hroots⟩ := pageInserts_tables h.tables (fun r (hr : r ∈ roots) => by simp [rootTables, hr]) hbefore h0b
  have hold := h.inserts hbefore h0b hc c.logical
  rw [translation_eq htab (hroots _ hc) c.logical trivial] at hold
  rw [pageInsert_overrun htab (hroots _ hc) c.logical c.physical trivial h0, Bool.or_eq_true, decide_eq_true_eq]
  refine or_congr_right ?_
  cases hl : lastInsert calls c.root c.logical with
  | none =>
    rw [hl, Option.map_none] at hold
    have hzero : entryOf (pageInserts s calls) loc' c.root (tablePath c.logical) (slot c.logical .pte) = 0 := by
      by_contra hne
      rw [if_pos hne] at hold
      cases hold
    rw [hzero]
    refine iff_of_false (fun hc => hc.1 rfl) fun ⟨c', hc', _⟩ => ?_
    cases hc'
  | some c' =>
    rw [hl, Option.map_some] at hold
    have hentry : entryOf (pageInserts s calls) loc' c.root (tablePath c.logical) (slot c.logical .pte) =
        c'.physical ||| pagePerm := by
      split_ifs at hold
      exact Option.some.inj hold
    rw [hentry]
    simp only [entry_present, ne_eq, not_false_eq_true, true_and, Option.mem_some_iff, exists_eq_left']

/-- An insertion and a later one for the same page. -/
def Insert.Overwritten (c c' : Insert) : Prop := c.root = c'.root ∧ SamePage c.logical c'.logical

/-- `mem_free` finds its way with the entries that later insertions overwrite. -/
def Freeable (calls : List Insert) : Prop :=
  calls.Pairwise fun c c' => c.Overwritten c' → InMemmap (c.physical ||| pagePerm)

theorem lastInsert_some {calls : List Insert} {v : Word} {c : Insert} (h : lastInsert calls r v = some c) :
    c ∈ calls ∧ c.root = r ∧ SamePage c.logical v := by
  have hfound := List.find?_some h
  exact ⟨List.mem_reverse.mp (List.mem_of_find?_eq_some h), of_decide_eq_true hfound⟩

/-- Then none of the insertions leaves the table of frames. -/
theorem ZeroedRoots.keeps_overrun {roots : Finset Nat} (h : ZeroedRoots s roots) {calls : List Insert}
    (hcalls : ∀ c ∈ calls, c.root ∈ roots) (h0 : 0 ∉ (pageInserts s calls).handed) (hfree : Freeable calls) :
    (pageInserts s calls).overrun = s.overrun := by
  induction calls using List.reverseRecOn with
  | nil => rfl
  | append_singleton cs c ih =>
    obtain ⟨hcs, _, hpair⟩ := List.pairwise_append.mp hfree
    have h0b : 0 ∉ (pageInserts s cs).handed := by
      rw [pageInserts_append] at h0
      exact (pageInserts_steps _ [c]).ok h0
    rw [← ih (fun c' hc' => hcalls c' (List.mem_append_left _ hc')) h0b hcs]
    refine Bool.eq_iff_iff.mpr ((h.overrun hcalls h0).trans (or_iff_left ?_))
    rintro ⟨c', hc', hout⟩
    obtain ⟨hmem, hroot, hpage⟩ := lastInsert_some hc'
    exact hout (hpair c' hmem c (List.mem_singleton_self c) ⟨hroot, hpage⟩)

/-- The page tables implement a finite map from pages to entries, as long as the frames of overwritten
entries are in `memmap`: under every root, an address is translated by the entry of the last
insertion for its page, and by nothing if there was none. So an insertion changes the translation of
its own page under its own root, and of no other. -/
theorem pageInserts_implement_map (s : Mem) (roots : Finset Nat) (hs : ZeroedRoots s roots)
    (calls : List Insert) (hcalls : ∀ c ∈ calls, c.root ∈ roots) (hfree : Freeable calls)
    (h0 : 0 ∉ (pageInserts s calls).handed) :
    (pageInserts s calls).overrun = s.overrun ∧
    (∀ r ∈ roots, ∀ v, translation (pageInserts s calls) r v =
      (lastInsert calls r v).map fun c => c.physical ||| pagePerm) ∧
    (∀ (before after : List Insert) (c : Insert), calls = before ++ c :: after →
      ∀ r ∈ roots, ∀ v, ¬ (r = c.root ∧ SamePage c.logical v) →
        translation (pageInserts s (before ++ [c])) r v = translation (pageInserts s before) r v) := by
  refine ⟨hs.keeps_overrun hcalls h0 hfree, fun r hr v => hs.inserts hcalls h0 hr v, ?_⟩
  intro before after c hsplit r hr v hother
  subst hsplit
  have h0c : 0 ∉ (pageInserts s (before ++ [c])).handed := by
    rw [show before ++ c :: after = (before ++ [c]) ++ after by simp, pageInserts_append] at h0
    exact (pageInserts_steps _ after).ok h0
  have h0b : 0 ∉ (pageInserts s before).handed := by
    rw [pageInserts_append] at h0c
    exact (pageInserts_steps _ [c]).ok h0c
  have hbefore : ∀ c' ∈ before, c'.root ∈ roots := fun c' hc' => hcalls c' (List.mem_append_left _ hc')
  have hwith : ∀ c' ∈ before ++ [c], c'.root ∈ roots := by
    intro c' hc'
    rcases List.mem_append.mp hc' with hc' | hc'
    · exact hbefore c' hc'
    · rw [List.mem_singleton.mp hc']
      exact hcalls c (by simp)
  have hne : ¬ (c.root = r ∧ SamePage c.logical v) := fun hc => hother ⟨hc.1.symm, hc.2⟩
  rw [hs.inserts hwith h0c hr v, hs.inserts hbefore h0b hr v]
  simp [lastInsert, hne]

theorem bootMem_zeroedRoots : ZeroedRoots bootMem {512} where
  addressed := bootMem_shape.addressed
  taken := fun r hr => by
    rw [Finset.mem_singleton.mp hr, bootMem_shape.avail 512 (by decide)]
    exact ⟨by decide, by decide⟩
  empty := fun _ _ _ => rfl
  zeroed := fun _ _ => rfl

/-- There are frames for two insertions. -/
theorem bootMem_two (c c' : Insert) : 0 ∉ (pageInserts bootMem [c, c']).handed := by
  refine bootMem_enough (pageInserts_steps _ _) ?_
  have h₁ := pageInsert_length bootMem (framePtr c.root) c.logical c.physical
  have h₂ := pageInsert_length (pageInsert bootMem (framePtr c.root) c.logical c.physical) (framePtr c'.root)
    c'.logical c'.physical
  have h₀ : bootMem.handed.length = 0 := rfl
  simp only [pageInserts]
  omega

/-- Two insertions for one page: the second one counts, and the page after it
is still absent. -/
theorem pageInserts_implement_map_boot :
    (pageInserts bootMem [⟨512, 0x400000, 0x300000⟩, ⟨512, 0x400fff, 0x305000⟩]).overrun = false ∧
      translation (pageInserts bootMem [⟨512, 0x400000, 0x300000⟩, ⟨512, 0x400fff, 0x305000⟩]) 512 0x400123 =
        some 0x305007 ∧
      translation (pageInserts bootMem [⟨512, 0x400000, 0x300000⟩, ⟨512, 0x400fff, 0x305000⟩]) 512 0x401000 = none := by
  obtain ⟨hinside, hmap, _⟩ := pageInserts_implement_map bootMem {512} bootMem_zeroedRoots
    [⟨512, 0x400000, 0x300000⟩, ⟨512, 0x400fff, 0x305000⟩] (by decide)
    (List.pairwise_pair.mpr fun _ => by decide) (bootMem_two _ _)
  refine ⟨hinside, ?_, ?_⟩
  · rw [hmap 512 (by decide)]
    decide
  · rw [hmap 512 (by decide)]
    decide

/-- A page of frame 5, or of one behind the last in `memmap`, inserted twice: the second time `mem_free`
goes past the table. -/
theorem overwritten_low_page :
    (pageInserts bootMem [⟨512, 0x400000, 0x5000⟩, ⟨512, 0x400000, 0x5000⟩]).overrun = true ∧
      (pageInserts bootMem [⟨512, 0x400000, 0x8000000⟩, ⟨512, 0x400000, 0x8000000⟩]).overrun = true := by
  have htwice : ∀ physical, ¬ InMemmap (physical ||| pagePerm) →
      (pageInserts bootMem [⟨512, 0x400000, physical⟩, ⟨512, 0x400000, physical⟩]).overrun = true := fun physical hout =>
    (@ZeroedRoots.overrun bootMem {512} bootMem_zeroedRoots [⟨512, 0x400000, physical⟩] ⟨512, 0x400000, physical⟩
      (by simp) (bootMem_two _ _)).mpr (Or.inr ⟨⟨512, 0x400000, physical⟩, by simp [lastInsert, SamePage], hout⟩)
  exact ⟨htwice 0x5000 (by decide), htwice 0x8000000 (by decide)⟩

end Sbnix.Memory
