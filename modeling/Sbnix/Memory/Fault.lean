import Sbnix.Memory.Mmu

/-! What `page_fault` does to the address spaces.

For the two faults an access by a process to its own slots can raise, an absent
page and a write to a page that is not writable, the handler leaves the process
with a writable page and changes no content anybody can read (`Resolved`): a new
page is zero, as absent pages read, and a copy is a copy. -/
namespace Sbnix.Memory
open Words Library

variable {s s' : Mem} {loc loc' : TableMap} {pg pg' : PageMap} {r f g : Nat} {p : Page Nat}
  {k : Nat × List (Fin 512)}

structure Resolved (k : Nat × List (Fin 512)) (s : Mem) (loc : TableMap) (pg : PageMap)
    (s' : Mem) (loc' : TableMap) (pg' : PageMap) : Prop where
  spaces : Spaces s' loc' pg'
  roots : ∀ {q : Nat}, loc q [] = some q → loc' q [] = some q
  contents : ∀ k', pageAt s' pg' k' = pageAt s pg k'
  page : ∃ p, pg' k = some p ∧ p.writable = true
  kept : Kept s loc pg s' loc' pg'

theorem writeEntry_frame (tbl : Nat → Fin 512 → Word) {f : Nat} (i : Fin 512) (w : Word) (h : Nat) (hne : h ≠ f) :
    writeEntry tbl f i w h = tbl h := by
  funext j
  exact writeEntry_other _ _ (fun hc => hne hc.1)

/-- The page map after `k` gets a new page: contents are kept if that page has
the content `k` had, and the frames of the other pages are untouched. -/
theorem pageAt_update (hother : ∀ {k' p'}, k' ≠ k → pg k' = some p' → s'.phys p'.frame = s.phys p'.frame)
    (hself : s'.phys p.frame = pageAt s pg k) (k' : Nat × List (Fin 512)) :
    pageAt s' (Function.update pg k (some p)) k' = pageAt s pg k' := by
  by_cases he : k' = k
  · subst he
    rw [pageAt, Function.update_self]
    exact hself
  · rw [pageAt, pageAt, Function.update_of_ne he]
    cases hp : pg k' with
    | none => rfl
    | some p' => exact hother he hp

/-! ### The pieces of the handler -/

/-- The copy loop copies the page. -/
theorem copyPage_eq (hfg : f ≠ g) (hf : f < 2 ^ 52) (hg : g < 2 ^ 52) (s : Mem) :
    copyPage (frameAddr f + kernMem) (frameAddr g + kernMem) s =
      {s with phys := Function.update s.phys g (s.phys f)} := by
  have hptr : ∀ h, frameAddr h + kernMem = framePtr h := fun h => BitVec.add_comm _ _
  rw [hptr, hptr]
  unfold copyPage
  refine storeWords_page hg (s.phys f) fun j t ht => ?_
  rw [load_nth t hf, ht f hfg]

theorem pageRoundless4096_toNat (v : Word) : (pageRoundless4096 v).toNat = v.toNat / 4096 * 4096 := by
  have hmod : (v % 4096).toNat = v.toNat % 4096 := rfl
  unfold pageRoundless4096
  split
  · rename_i h
    have := congrArg BitVec.toNat h
    rw [hmod] at this
    simp only [BitVec.ofNat_eq_ofNat, BitVec.toNat_ofNat, Nat.zero_mod] at this
    omega
  · rw [BitVec.toNat_sub_of_le (by rw [BitVec.le_def, hmod]; omega), hmod]
    omega

theorem pageRoundless4096_frameAddr (hf : f < maxMem) : pageRoundless4096 (frameAddr f) = frameAddr f := by
  have hmax := maxMem_lt
  apply BitVec.eq_of_toNat_eq
  rw [pageRoundless4096_toNat, frameAddr_toNat (by omega)]
  omega

theorem samePage_roundless (v : Word) : SamePage (pageRoundless4096 v) v := by
  rw [SamePage, pageRoundless4096_toNat]
  omega

theorem pageRoundless4096_ne_zero {v : Word} (hv : 4096 ≤ v.toNat) : pageRoundless4096 v ≠ 0 := by
  intro h
  have hz := congrArg BitVec.toNat h
  rw [pageRoundless4096_toNat] at hz
  simp only [BitVec.ofNat_eq_ofNat, BitVec.toNat_ofNat, Nat.zero_mod] at hz
  omega

/-- Mapping one page, any but the first. -/
theorem mapKernel_page (s : Mem) (pml4e : Word) {v physical : Word} (hv : 4096 ≤ v.toNat) :
    mapKernel s pml4e v physical 4096 =
      (walkPages s pml4e (pageRoundless4096 v)).2.store (walkPages s pml4e (pageRoundless4096 v)).1
        (pageRoundless4096 physical ||| pagePerm) := by
  have hne := pageRoundless4096_ne_zero hv
  have hsize : (pageRoundoff4096 4096).toNat / 4096 = 1 := by decide
  have hzero : ∀ w : Word, w + BitVec.ofNat 64 (4096 * 0) = w := fun w => by simp
  unfold mapKernel
  dsimp only
  rw [if_pos hne, hsize, mapPages, mapPages]
  simp only [hzero]

/-! ### An absent page -/

/-- An available frame becomes a page. -/
theorem Spaces.mapFresh (h : Spaces s loc pg) (hav : s.Avail g) {π : List (Fin 512)} (hf : loc r π = some f)
    (hπ : π.length = 3) (i : Fin 512) :
    Spaces {s.take g with phys := writeEntry s.phys f i (frameAddr g ||| pagePerm)} loc
      (Function.update pg (r, π ++ [i]) (some ⟨g, true⟩)) := by
  have hgrown := Grown.take h.tables hav
  refine (h.grown hgrown).map hf hπ i ⟨hav.1, ?_, h.tables.not_avail hav⟩ ?_ ?_
  · exact fun ha => ((take_avail s g g).mp ha).2 rfl
  · exact fun hp he => (h.busy hp).2.1 (he ▸ hav)
  · have := h.spare hav
    rw [take_refCnt_same]
    omega

theorem pageFault_absent (hs : Spaces s loc pg) (hr : loc r [] = some r) {v : Word}
    (ho : userSlot r (slot v .pml4e)) (hv : ¬ v < initialMem) (exitReturns write : Bool)
    (hnone : pg (r, pagePath v) = none)
    (h0 : ∀ t ∈ (pageFault exitReturns s (framePtr r) v (faultCode false write)).mem, 0 ∉ t.handed) :
    ∃ s' loc' pg', pageFault exitReturns s (framePtr r) v (faultCode false write) = .resolved (-1) s' ∧
      Resolved (r, pagePath v) s loc pg s' loc' pg' := by
  have hcode : ¬ faultCode false write &&& pagePresent ≠ 0 := by
    cases write <;> decide
  have hrun : pageFault exitReturns s (framePtr r) v (faultCode false write) =
      .resolved (-1) ((memAllocate (walkPages s (framePtr r) v).2).2.store (walkPages s (framePtr r) v).1
        ((memAllocate (walkPages s (framePtr r) v).2).1 ||| pagePerm)) := by
    rw [pageFault, if_neg hcode, if_neg hv]
  rw [hrun] at h0 ⊢
  have h0' := h0 _ rfl
  rw [store_handed] at h0'
  obtain ⟨f, loc', hptr, hl, hgrown⟩ := walkPages_spec hs.tables hr v ho ((memAllocate_steps _).ok h0')
  generalize walkPages s (framePtr r) v = walked at hptr hgrown h0' ⊢
  have hspaces := hs.grown hgrown
  obtain ⟨g, _, hav, _, halloc⟩ := memAllocate_ok hgrown.tables.addressed h0'
  have hlt := hgrown.tables.lt hl
  rw [halloc, hptr, store_index _ (by omega) (addrRes_lt v .pte)]
  refine ⟨_, loc', _, rfl,
    { spaces := hspaces.mapFresh hav hl rfl (slot v .pte)
      roots := fun hq => hgrown.keeps hq
      contents := ?_
      page := ⟨⟨g, true⟩, Function.update_self .., rfl⟩
      kept := (hgrown.kept pg).trans (Kept.write (fun ha => ((take_avail _ g _).mp ha).1) (writeEntry_frame _ _ _)
        (Or.inr (Or.inr ⟨r, _, hl⟩)) (hgrown.tables.below_root hl (by simp [tablePath])) (pages_update _ (Or.inr hav))) }⟩
  -- pages are not tables, so their frames are what they were before the walk
  have htable : ∀ {k p}, pg k = some p → p.frame ≠ f := fun hp he => (hspaces.busy hp).2.2 _ _ (he ▸ hl)
  refine pageAt_update (fun {k' p'} _ hp' => ?_) ?_
  · funext i
    show writeEntry walked.2.phys f _ _ p'.frame i = s.phys p'.frame i
    rw [writeEntry_other _ _ (fun hc => htable hp' hc.1), hgrown.phys (hs.busy hp').2.1 (hs.busy hp').2.2]
  · have hgf : g ≠ f := fun he => hgrown.tables.not_avail hav _ _ (he ▸ hl)
    funext i
    show writeEntry walked.2.phys f _ _ g i = pageAt s pg (r, pagePath v) i
    rw [writeEntry_other _ _ (fun hc => hgf hc.1), hgrown.tables.zeroed hav, pageAt, hnone]

/-! ### A write to a shared page -/

/-- The entry of a page, as `look_pages` finds it. -/
theorem Spaces.lookPages_page (hs : Spaces s loc pg) (hr : loc r [] = some r) {v : Word}
    (ho : userSlot r (slot v .pml4e)) (hp : pg (r, pagePath v) = some p) :
    ∃ f, loc r (tablePath v) = some f ∧
      lookPages s (framePtr r) v = some (index (framePtr f) (addrRes v .pte)) ∧
      s.load (index (framePtr f) (addrRes v .pte)) = pageEntry (some p) := by
  obtain ⟨f, hf⟩ := hs.table hp
  have hlt := hs.tables.lt hf
  have hentry : s.phys f (slot v .pte) = pageEntry (some p) := by
    rw [← hp, pagePath, ← hs.entries r (slot v .pte) rfl, entryOf, leaf_some hf]
  refine ⟨f, hf, ?_, ?_⟩
  · have hne : s.phys f (slot v .pte) ≠ 0 := by
      rw [hentry]
      exact fun h => by simpa using pageEntry_eq_zero.mp h
    rw [lookPages_spec hs.tables hr v ho, hf, Option.bind_some, if_pos hne]
  · rw [load_index s (by omega) (addrRes_lt v .pte)]
    exact hentry

/-- The last user of a page gets it back. -/
theorem Spaces.reclaim (hs : Spaces s loc pg) {π : List (Fin 512)} (hf : loc r π = some f) (hπ : π.length = 3)
    {i : Fin 512} (hp : pg (r, π ++ [i]) = some p) (hone : (s.memmap p.frame).refCnt = 1) :
    Resolved (r, π ++ [i]) s loc pg {s with phys := writeEntry s.phys f i (frameAddr p.frame ||| pagePerm)} loc
      (Function.update pg (r, π ++ [i]) (some ⟨p.frame, true⟩)) where
  spaces := by
    have hbusy := hs.busy hp
    exact
      { toMapped := hs.toMapped.setPage (p := ⟨p.frame, true⟩) hf hπ i hbusy
        shared := hs.shared.reclaim hp hone
        spare := hs.spare }
  roots := id
  contents := by
    have hkeep : ∀ {k p'}, pg k = some p' →
        writeEntry s.phys f i (frameAddr p.frame ||| pagePerm) p'.frame = s.phys p'.frame := by
      intro k p' hp'
      have hne : p'.frame ≠ f := fun he => (hs.busy hp').2.2 _ _ (he ▸ hf)
      funext j
      exact writeEntry_other _ _ (fun hc => hne hc.1)
    have hself := hkeep hp
    refine pageAt_update (fun _ hp' => hkeep hp') ?_
    rw [pageAt, hp]
    exact hself
  page := ⟨⟨p.frame, true⟩, Function.update_self .., rfl⟩
  kept := Kept.write id (writeEntry_frame _ _ _) (Or.inr (Or.inr ⟨r, π, hf⟩))
    (hs.tables.below_root hf (fun he => by simp [he] at hπ)) (pages_update (p := ⟨p.frame, true⟩) _ (Or.inl ⟨_, p, hp, rfl⟩))

/-- Memory once a page has been given up and its content copied into the frame `g`. -/
def copied (s : Mem) (p : Page Nat) (g : Nat) : Mem :=
  let t := (s.count p.frame ((s.memmap p.frame).refCnt - 1) (s.memmap p.frame).cowFlag).take g
  {t with phys := Function.update s.phys g (s.phys p.frame)}

theorem copied_avail (s : Mem) (p : Page Nat) (g h : Nat) : (copied s p g).Avail h ↔ s.Avail h ∧ h ≠ g := by
  have htake := take_avail (s.count p.frame ((s.memmap p.frame).refCnt - 1) (s.memmap p.frame).cowFlag) g h
  rw [count_avail] at htake
  exact htake

theorem Spaces.copied_mapped (hs : Spaces s loc pg) (hav : s.Avail g) : Mapped (copied s p g) loc pg := by
  have hcount := hs.toMapped.count p.frame ((s.memmap p.frame).refCnt - 1) (s.memmap p.frame).cowFlag
  have hav' := (count_avail s p.frame ((s.memmap p.frame).refCnt - 1) (s.memmap p.frame).cowFlag g).mpr hav
  refine (hcount.grown (Grown.take hcount.tables hav')).content (f := g) ?_ (hs.tables.not_avail hav) ?_ rfl
  · exact fun ha => ((take_avail _ g g).mp ha).2 rfl
  · exact fun h hne => Function.update_of_ne hne _ _

/-- The counts after the copy go with the page map in which the frame `g` has
taken the place of the page. -/
theorem Spaces.copied_shared (hs : Spaces s loc pg) (hp : pg k = some p) (hav : s.Avail g) :
    Shared (Function.update pg k (some ⟨g, true⟩)) (fun h => ((copied s p g).memmap h).refCnt)
      (fun h => ((copied s p g).memmap h).cowFlag) := by
  have hgone := hs.shared.leave hp
  have hused : ∀ {k' p'}, Function.update pg k none k' = some p' → p'.frame ≠ g :=
    fun hp' he => (hs.busy (update_none hp').2).2.1 (he ▸ hav)
  have hmemmap : ∀ h, h ≠ g → (copied s p g).memmap h =
      (s.count p.frame ((s.memmap p.frame).refCnt - 1) (s.memmap p.frame).cowFlag).memmap h :=
    fun h hne => take_refCnt_other _ hne
  have hcounts := congrFun (count_refCnt s p.frame ((s.memmap p.frame).refCnt - 1) (s.memmap p.frame).cowFlag)
  have hflags := congrFun (count_cowFlag s p.frame ((s.memmap p.frame).refCnt - 1) (s.memmap p.frame).cowFlag)
  rw [Function.update_eq_self] at hflags
  have hleft : Shared (Function.update pg k none) (fun h => ((copied s p g).memmap h).refCnt)
      (fun h => ((copied s p g).memmap h).cowFlag) := by
    refine hgone.congr (fun {k' p'} hp' => ?_) (fun {k' p'} hp' => ?_)
    · rw [hmemmap _ (hused hp')]
      exact hcounts p'.frame
    · rw [hmemmap _ (hused hp')]
      exact hflags p'.frame
  have hone : 1 ≤ ((copied s p g).memmap g).refCnt := by
    have hne : g ≠ p.frame := fun he => (hs.busy hp).2.1 (he ▸ hav)
    have hspare := hs.spare hav
    have hsame : (copied s p g).memmap g = ((s.count p.frame ((s.memmap p.frame).refCnt - 1)
      (s.memmap p.frame).cowFlag).take g).memmap g := rfl
    rw [hsame, take_refCnt_same, show (s.count p.frame _ _).memmap g = s.memmap g from
      Function.update_of_ne hne _ _]
    omega
  have hfresh := hleft.fresh k hused hone
  rwa [Function.update_idem] at hfresh

section
variable {t : Mem} {π : List (Fin 512)} {i : Fin 512}

theorem copied_used (s : Mem) (p : Page Nat) (g : Nat) : ¬ (copied s p g).Avail g :=
  fun ha => ((copied_avail s p g g).mp ha).2 rfl

/-- The copy is no table, whatever the walk for it adds. -/
theorem Spaces.copied_not_table (hs : Spaces s loc pg) (hav : s.Avail g) (hgrown : Grown userSlot (copied s p g) loc t loc')
    (q : Nat) (π : List (Fin 512)) : loc' q π ≠ some g :=
  fun hq => (hgrown.fresh hq).elim (hs.tables.not_avail hav q π) (copied_used s p g)

/-- Neither the copy nor the walk touches the other pages. -/
theorem Spaces.copied_kept (hs : Spaces s loc pg) (hav : s.Avail g) (hgrown : Grown userSlot (copied s p g) loc t loc')
    {k : Nat × List (Fin 512)} {p' : Page Nat} (hp' : pg k = some p') :
    (∀ q π, loc' q π ≠ some p'.frame) ∧ t.phys p'.frame = s.phys p'.frame := by
  have hmapped : Mapped (copied s p g) loc pg := hs.copied_mapped hav
  have hne : p'.frame ≠ g := fun he => (hs.busy hp').2.1 (he ▸ hav)
  refine ⟨((hmapped.grown hgrown).busy hp').2.2, ?_⟩
  rw [hgrown.phys (hmapped.busy hp').2.1 (hmapped.busy hp').2.2]
  exact Function.update_of_ne hne _ _

theorem Spaces.copied_spaces (hs : Spaces s loc pg) (hp : pg (r, π ++ [i]) = some p) (hav : s.Avail g)
    (hgrown : Grown userSlot (copied s p g) loc t loc') (hl : loc' r π = some f) (hπ : π.length = 3) :
    Spaces {t with phys := writeEntry t.phys f i (frameAddr g ||| pagePerm)} loc'
      (Function.update pg (r, π ++ [i]) (some ⟨g, true⟩)) where
  toMapped := ((hs.copied_mapped hav).grown hgrown).setPage (p := ⟨g, true⟩) hl hπ i
    ⟨hav.1, fun ha => copied_used s p g (hgrown.avail ha), hs.copied_not_table hav hgrown⟩
  shared := by
    have hmapped : Mapped (copied s p g) loc pg := hs.copied_mapped hav
    have hsame : ∀ {k' p'}, Function.update pg (r, π ++ [i]) (some ⟨g, true⟩) k' = some p' →
        t.memmap p'.frame = (copied s p g).memmap p'.frame := by
      intro k' p' hp'
      obtain ⟨_, rfl⟩ | ⟨_, hp'⟩ := update_cases hp'
      · exact hgrown.memmap hav.1 (copied_used s p g)
      · exact hgrown.memmap (hmapped.busy hp').1 (hmapped.busy hp').2.1
    exact (hs.copied_shared hp hav).congr (fun hp' => by rw [hsame hp']) (fun hp' => by rw [hsame hp'])
  spare := fun {h} ha => by
    have hcop := (copied_avail s p g h).mp (hgrown.avail ha)
    have hne : h ≠ p.frame := fun he => (hs.busy hp).2.1 (he ▸ hcop.1)
    have hsame : (copied s p g).memmap h = s.memmap h :=
      (take_refCnt_other _ hcop.2).trans (Function.update_of_ne hne _ _)
    show 0 ≤ (t.memmap h).refCnt
    rw [hgrown.spare ha, hsame]
    exact hs.spare hcop.1

/-- The user of the copy reads what it read. -/
theorem Spaces.copied_contents (hs : Spaces s loc pg) (hp : pg (r, π ++ [i]) = some p) (hav : s.Avail g)
    (hgrown : Grown userSlot (copied s p g) loc t loc') (hl : loc' r π = some f) (k : Nat × List (Fin 512)) :
    pageAt {t with phys := writeEntry t.phys f i (frameAddr g ||| pagePerm)}
      (Function.update pg (r, π ++ [i]) (some ⟨g, true⟩)) k = pageAt s pg k := by
  refine pageAt_update (fun {k' p'} _ hp' => ?_) ?_ k
  · obtain ⟨hnot, hphys⟩ := hs.copied_kept hav hgrown hp'
    have hne : p'.frame ≠ f := fun he => hnot r π (he ▸ hl)
    rw [← hphys]
    exact writeEntry_frame _ _ _ _ hne
  · have hgf : g ≠ f := fun he => hs.copied_not_table hav hgrown r π (he ▸ hl)
    show writeEntry t.phys f i _ g = pageAt s pg (r, π ++ [i])
    rw [writeEntry_frame _ _ _ _ hgf, hgrown.phys (copied_used s p g) (hs.tables.not_avail hav), pageAt, hp]
    exact Function.update_self g (s.phys p.frame) s.phys

end

/-- The copy takes the place of the page. -/
theorem Spaces.copy (hs : Spaces s loc pg) (hr : loc r [] = some r) {v : Word} (ho : userSlot r (slot v .pml4e))
    (hp : pg (r, pagePath v) = some p) (hav : s.Avail g)
    (h0 : 0 ∉ (walkPages (copied s p g) (framePtr r) (pageRoundless4096 v)).2.handed) :
    ∃ loc', Resolved (r, pagePath v) s loc pg
      ((walkPages (copied s p g) (framePtr r) (pageRoundless4096 v)).2.store
        (walkPages (copied s p g) (framePtr r) (pageRoundless4096 v)).1 (frameAddr g ||| pagePerm)) loc'
      (Function.update pg (r, pagePath v) (some ⟨g, true⟩)) := by
  obtain ⟨htable, hslot⟩ := (path_eq_iff _ _).mpr (samePage_roundless v)
  have ho' : userSlot r (slot (pageRoundless4096 v) .pml4e) := by
    rw [(List.cons.inj htable).1]
    exact ho
  obtain ⟨f, loc', hptr, hl, hgrown⟩ := walkPages_spec (hs.copied_mapped (p := p) hav).tables hr _ ho' h0
  generalize walkPages (copied s p g) (framePtr r) (pageRoundless4096 v) = walked at hptr hgrown ⊢
  rw [htable] at hl
  have hlt := hgrown.tables.lt hl
  have hstore : walked.2.store walked.1 (frameAddr g ||| pagePerm) =
      {walked.2 with phys := writeEntry walked.2.phys f (slot v .pte) (frameAddr g ||| pagePerm)} := by
    rw [hptr, store_index _ (by omega) (addrRes_lt _ .pte), ← hslot]
    rfl
  rw [hstore]
  -- the copy, the walk, and the new entry
  have hcopy : Kept s loc pg (copied s p g) loc (Function.update pg (r, pagePath v) (some ⟨g, true⟩)) :=
    Kept.write (fun ha => ((copied_avail s p g _).mp ha).1) (fun h hne => Function.update_of_ne hne _ _) (Or.inl hav)
      (fun hq he => (hs.tables.taken hq).2 (he ▸ hav)) (pages_update _ (Or.inr hav))
  exact ⟨loc',
    { spaces := hs.copied_spaces hp hav hgrown hl rfl
      roots := fun hq => hgrown.keeps hq
      contents := hs.copied_contents hp hav hgrown hl
      page := ⟨⟨g, true⟩, Function.update_self .., rfl⟩
      kept := (hcopy.trans (hgrown.kept _)).trans (Kept.write id (writeEntry_frame _ _ _) (Or.inr (Or.inr ⟨r, _, hl⟩))
        (hgrown.tables.below_root hl (by simp [tablePath])) (fun hp' => Or.inl ⟨_, _, hp', rfl⟩)) }⟩

theorem pageFault_write (hs : Spaces s loc pg) (hr : loc r [] = some r) {v : Word}
    (ho : userSlot r (slot v .pml4e)) (hv : ¬ v < initialMem) (exitReturns : Bool)
    (hp : pg (r, pagePath v) = some p) (hw : p.writable = false)
    (h0 : ∀ t ∈ (pageFault exitReturns s (framePtr r) v (faultCode true true)).mem, 0 ∉ t.handed) :
    ∃ s' loc' pg', pageFault exitReturns s (framePtr r) v (faultCode true true) = .resolved 0 s' ∧
      Resolved (r, pagePath v) s loc pg s' loc' pg' := by
  obtain ⟨f, hf, hlook, hload⟩ := hs.lookPages_page hr ho hp
  have hplt : p.frame < maxMem := (hs.busy hp).1
  have hflt := hs.tables.lt hf
  have hfind : getPhysicalMemmap s (frameAddr p.frame) = some p.frame :=
    getPhysicalMemmap_eq hs.tables.addressed hplt (frameAddr_mask hplt)
  have hcow : (s.memmap p.frame).cowFlag = true := hs.shared.flagged hp hw
  have hrun : pageFault exitReturns s (framePtr r) v (faultCode true true) =
      writeFault s (framePtr r) v (freeFault exitReturns (framePtr r) v) := by
    rw [pageFault, if_pos (by decide), if_pos (by decide)]
  rw [hrun] at h0 ⊢
  unfold writeFault at h0 ⊢
  rw [hlook] at h0 ⊢
  dsimp only at h0 ⊢
  rw [hload, pageEntry_mask hplt, hfind] at h0 ⊢
  dsimp only at h0 ⊢
  rw [if_pos hcow] at h0 ⊢
  by_cases hone : (s.memmap p.frame).refCnt = 1
  · rw [if_pos hone, store_index _ (by omega) (addrRes_lt v .pte)]
    exact ⟨_, loc, _, rfl, hs.reclaim hf rfl hp hone⟩
  · rw [if_neg hone] at h0 ⊢
    generalize hcount : s.count p.frame ((s.memmap p.frame).refCnt - 1) (s.memmap p.frame).cowFlag = t at h0 ⊢
    have h0' := h0 _ rfl
    have halloc : 0 ∉ (memAllocate t).2.handed :=
      ((copyPage_steps _ _ _).trans (mapKernel_steps _ _ _ _ _)).ok h0'
    have haddr : Addressed t := fun i hi => by
      rw [← hcount, (count_other s _ _ _ i).1]
      exact hs.tables.addressed i hi
    obtain ⟨g, _, hav, _, heq⟩ := memAllocate_ok haddr halloc
    have hav' : s.Avail g := by
      rw [← hcount, count_avail] at hav
      exact hav
    have hmax := maxMem_lt
    have hglt : g < 2 ^ 15 := hav'.1.trans hmax
    have hpg : p.frame ≠ g := fun he => (hs.busy hp).2.1 (he ▸ hav')
    have hcopied : {t.take g with phys := Function.update (t.take g).phys g ((t.take g).phys p.frame)} =
        copied s p g := by
      rw [← hcount]
      rfl
    have hpage : 4096 ≤ v.toNat := by
      have hi : initialMem.toNat = 100000 := rfl
      rw [BitVec.lt_def, hi] at hv
      omega
    rw [heq, copyPage_eq hpg (by omega) (by omega), hcopied, mapKernel_page _ _ hpage,
      pageRoundless4096_frameAddr hav'.1] at h0' ⊢
    obtain ⟨loc', hres⟩ := hs.copy hr ho hp hav' h0'
    exact ⟨_, loc', _, rfl, hres⟩

/-! ### An access -/

/-- An access by a process to its own slots finds a page, which it may write if it
writes, and changes no content. -/
theorem access_spec (hs : Spaces s loc pg) (hr : loc r [] = some r) {v : Word}
    (ho : userSlot r (slot v .pml4e)) (hv : ¬ v < initialMem) (exitReturns write : Bool)
    (h0 : 0 ∉ (access exitReturns s (frameAddr r) (framePtr r) v write).2.handed) :
    ∃ p s' loc' pg', access exitReturns s (frameAddr r) (framePtr r) v write = (some p.frame, s') ∧
      Spaces s' loc' pg' ∧ (∀ {q : Nat}, loc q [] = some q → loc' q [] = some q) ∧
      (∀ k, pageAt s' pg' k = pageAt s pg k) ∧ pg' (r, pagePath v) = some p ∧
      (write = true → p.writable = true) ∧ Kept s loc pg s' loc' pg' := by
  have htrans := hs.translate_eq hr v write ho
  -- after a fault has been resolved the translation succeeds
  have hretry : ∀ {s' : Mem} {loc' : TableMap} {pg' : PageMap} {code : Word} {n : Int},
      translate s (frameAddr r) v write = .error code →
      pageFault exitReturns s (framePtr r) v code = .resolved n s' →
      Resolved (r, pagePath v) s loc pg s' loc' pg' →
      ∃ p s' loc' pg', access exitReturns s (frameAddr r) (framePtr r) v write = (some p.frame, s') ∧
        Spaces s' loc' pg' ∧ (∀ {q : Nat}, loc q [] = some q → loc' q [] = some q) ∧
        (∀ k, pageAt s' pg' k = pageAt s pg k) ∧ pg' (r, pagePath v) = some p ∧
        (write = true → p.writable = true) ∧ Kept s loc pg s' loc' pg' := by
    intro s' loc' pg' code n hcode hfault hres
    obtain ⟨p, hp, hw⟩ := hres.page
    refine ⟨p, s', loc', pg', ?_, hres.spaces, hres.roots, hres.contents, hp, fun _ => hw, hres.kept⟩
    rw [access, hcode]
    dsimp only
    rw [hfault]
    dsimp only
    rw [hres.spaces.translate_eq (hres.roots hr) v write ho, hp]
    simp [hw, Except.toOption]
  have hmem : ∀ {code}, translate s (frameAddr r) v write = .error code →
      ∀ t ∈ (pageFault exitReturns s (framePtr r) v code).mem, 0 ∉ t.handed := by
    intro code hcode t ht
    rw [access, hcode] at h0
    dsimp only at h0
    cases hfault : pageFault exitReturns s (framePtr r) v code with
    | resolved n s' =>
      rw [hfault] at h0 ht
      obtain rfl := Option.mem_some.mp ht
      exact h0
    | killed s' =>
      rw [hfault] at h0 ht
      obtain rfl := Option.mem_some.mp ht
      exact h0
    | crashed =>
      rw [hfault] at ht
      cases ht
  cases hp : pg (r, pagePath v) with
  | none =>
    rw [hp] at htrans
    obtain ⟨s', loc', pg', hfault, hres⟩ := pageFault_absent hs hr ho hv exitReturns write hp (hmem htrans)
    exact hretry htrans hfault hres
  | some p =>
    rw [hp] at htrans
    dsimp only at htrans
    by_cases hw : (!write || p.writable) = true
    · rw [if_pos hw] at htrans
      refine ⟨p, s, loc, pg, by rw [access, htrans], hs, id, fun _ => rfl, hp, ?_, Kept.refl⟩
      intro hwrite
      simpa [hwrite] using hw
    · rw [if_neg hw] at htrans
      obtain ⟨hwrite, hro⟩ : write = true ∧ p.writable = false := by simpa using hw
      subst hwrite
      obtain ⟨s', loc', pg', hfault, hres⟩ := pageFault_write hs hr ho hv exitReturns hp hro (hmem htrans)
      exact hretry htrans hfault hres

/-- Writing a byte of a writable page changes that byte for its user and nothing
for anybody else. -/
theorem Spaces.setFrameByte (hs : Spaces s loc pg) (hp : pg k = some p) (hw : p.writable = true) (v : Word)
    (b : Byte) : Spaces (setFrameByte s p.frame v b) loc pg ∧
      (∀ k', k' ≠ k → pageAt (setFrameByte s p.frame v b) pg k' = pageAt s pg k') ∧
      pageAt (setFrameByte s p.frame v b) pg k =
        Function.update (pageAt s pg k) (wordOf v) (setByte (pageAt s pg k (wordOf v)) (v.toNat % 8) b) := by
  have hother : ∀ g, g ≠ p.frame → (Memory.setFrameByte s p.frame v b).phys g = s.phys g := fun g hg => by
    funext i
    exact writeEntry_other _ _ (fun hc => hg hc.1)
  refine ⟨hs.content (hs.busy hp).2.1 (hs.busy hp).2.2 hother rfl, fun k' hk => ?_, ?_⟩
  · unfold pageAt
    cases hp' : pg k' with
    | none => rfl
    | some p' => exact hother _ fun he => hk (hs.shared.exclusive hp hw hp' he)
  · rw [pageAt, pageAt, hp]
    funext i
    by_cases hi : i = wordOf v
    · subst hi
      rw [Function.update_self]
      exact writeEntry_same ..
    · rw [Function.update_of_ne hi]
      exact writeEntry_other _ _ (fun hc => hi hc.2)

/-! ### Inserting a page -/

section
variable {t u : Mem} {π : List (Fin 512)} {i : Fin 512}

theorem Spaces.fresh_not_table (hs : Spaces s loc pg) (hav : s.Avail g) (hgrown : Grown userSlot (s.take g) loc t loc')
    (q : Nat) (π : List (Fin 512)) : loc' q π ≠ some g :=
  fun hq => (hgrown.fresh hq).elim (hs.tables.not_avail hav q π) fun ha => ((take_avail s g g).mp ha).2 rfl

/-- A frame is taken, the walk leads to `t`, and giving back what was mapped, which gives
nothing back, to `u`. Then the page is the process's. -/
theorem Spaces.fresh_spaces (hs : Spaces s loc pg) (hav : s.Avail g) (hgrown : Grown userSlot (s.take g) loc t loc')
    (hm : ∀ h < maxMem, u.memmap h = t.memmap h) (hp : u.phys = t.phys) (hl : loc' r π = some f) (hπ : π.length = 3) :
    Spaces {u with phys := writeEntry u.phys f i (frameAddr g ||| pagePerm)} loc'
      (Function.update pg (r, π ++ [i]) (some ⟨g, true⟩)) := by
  have hused : ¬ (s.take g).Avail g := fun ha => ((take_avail s g g).mp ha).2 rfl
  have hmem : u.memmap g = (s.take g).memmap g := by
    rw [hm g hav.1, hgrown.memmap hav.1 hused]
  have hfree : Spaces u loc' pg := ((hs.grown (Grown.take hs.tables hav)).grown hgrown).congr hm hp
  refine hfree.map hl hπ i ⟨hav.1, fun ha => ?_, hs.fresh_not_table hav hgrown⟩ ?_ ?_
  · rw [Mem.Avail, hmem] at ha
    exact hused ha
  · exact fun hp he => (hs.busy hp).2.1 (he ▸ hav)
  · have := hs.spare hav
    rw [hmem, take_refCnt_same]
    omega

theorem Spaces.fresh_contents (hs : Spaces s loc pg) (hav : s.Avail g) (hgrown : Grown userSlot (s.take g) loc t loc')
    (hphys : u.phys = t.phys) (hl : loc' r π = some f) (k : Nat × List (Fin 512)) :
    pageAt {u with phys := writeEntry u.phys f i (frameAddr g ||| pagePerm)}
      (Function.update pg (r, π ++ [i]) (some ⟨g, true⟩)) k =
        if k = (r, π ++ [i]) then fun _ => 0 else pageAt s pg k := by
  have htake := hs.grown (Grown.take hs.tables hav)
  by_cases hk : k = (r, π ++ [i])
  · rw [if_pos hk, hk, pageAt, Function.update_self]
    have hgf : g ≠ f := fun he => hs.fresh_not_table hav hgrown r π (he ▸ hl)
    dsimp only
    rw [writeEntry_frame _ _ _ _ hgf, hphys,
      hgrown.phys (fun ha => ((take_avail s g g).mp ha).2 rfl) (hs.tables.not_avail hav)]
    funext j
    exact hs.tables.zeroed hav j
  · rw [if_neg hk, pageAt, pageAt, Function.update_of_ne hk]
    cases hp : pg k with
    | none => rfl
    | some p =>
      have hpf : p.frame ≠ f := fun he => ((htake.grown hgrown).busy hp).2.2 _ _ (he ▸ hl)
      dsimp only
      rw [writeEntry_frame _ _ _ _ hpf, hphys, hgrown.phys (htake.busy hp).2.1 (htake.busy hp).2.2]
      rfl

/-- Taking the frame, the walk, and the new entry. -/
theorem Spaces.fresh_kept (hs : Spaces s loc pg) (hav : s.Avail g) (hgrown : Grown userSlot (s.take g) loc t loc')
    (hm : ∀ h < maxMem, u.memmap h = t.memmap h) (hp : u.phys = t.phys) (hl : loc' r π = some f) (hπ : π.length = 3) :
    Kept s loc pg {u with phys := writeEntry u.phys f i (frameAddr g ||| pagePerm)} loc'
      (Function.update pg (r, π ++ [i]) (some ⟨g, true⟩)) := by
  have htaken : Kept s loc pg (s.take g) loc (Function.update pg (r, π ++ [i]) (some ⟨g, true⟩)) :=
    Kept.write (f := g) (fun ha => ((take_avail s g _).mp ha).1) (fun _ _ => rfl) (Or.inl hav)
      (fun hq he => (hs.tables.taken hq).2 (he ▸ hav)) (pages_update _ (Or.inr hav))
  have hne : π ≠ [] := fun he => by rw [he] at hπ; cases hπ
  refine (htaken.trans (hgrown.kept _)).trans (Kept.write (fun {h} ha => ?_) (fun h hne => ?_)
    (Or.inr (Or.inr ⟨r, _, hl⟩)) (hgrown.tables.below_root hl hne) (fun hp' => Or.inl ⟨_, _, hp', rfl⟩))
  · rw [Mem.Avail] at ha ⊢
    rwa [← hm h ha.1]
  · show writeEntry u.phys f _ _ h = t.phys h
    rw [writeEntry_frame _ _ _ h hne, hp]

end

/-- `page_insert` of a frame just taken from the pool, as `kmalloc_user_space` and
`allocate` do: the page becomes a zeroed one, and no other changes. -/
theorem pageInsert_fresh (hs : Spaces s loc pg) (hr : loc r [] = some r) {v : Word}
    (ho : userSlot r (slot v .pml4e))
    (h0 : 0 ∉ (pageInsert (memAllocate s).2 (framePtr r) v (memAllocate s).1).handed) :
    ∃ loc' g, Spaces (pageInsert (memAllocate s).2 (framePtr r) v (memAllocate s).1) loc'
        (Function.update pg (r, pagePath v) (some ⟨g, true⟩)) ∧
      (∀ {q : Nat}, loc q [] = some q → loc' q [] = some q) ∧
      (∀ k, pageAt (pageInsert (memAllocate s).2 (framePtr r) v (memAllocate s).1)
        (Function.update pg (r, pagePath v) (some ⟨g, true⟩)) k =
          if k = (r, pagePath v) then fun _ => 0 else pageAt s pg k) ∧
      Kept s loc pg (pageInsert (memAllocate s).2 (framePtr r) v (memAllocate s).1) loc'
        (Function.update pg (r, pagePath v) (some ⟨g, true⟩)) := by
  obtain ⟨g, _, hav, _, heq⟩ := memAllocate_ok hs.tables.addressed ((pageInsert_steps _ _ _ _).ok h0)
  have hins : pageInsert (s.take g) (framePtr r) v (frameAddr g) =
      (freePresent (walkPages (s.take g) (framePtr r) v).2 (walkPages (s.take g) (framePtr r) v).1).store
        (walkPages (s.take g) (framePtr r) v).1 (frameAddr g ||| pagePerm) := rfl
  rw [heq] at h0 ⊢
  dsimp only at h0 ⊢
  rw [hins] at h0 ⊢
  rw [store_handed, freePresent_handed] at h0
  obtain ⟨f, loc', hptr, hl, hgrown⟩ := walkPages_spec (hs.tables.take g) hr v ho h0
  generalize walkPages (s.take g) (framePtr r) v = walked at hptr hgrown ⊢
  have hlt := hgrown.tables.lt hl
  have hm := freePresent_memmap hgrown.tables.addressed walked.1
  have hp := freePresent_phys walked.2 walked.1
  have hstore : (freePresent walked.2 walked.1).store walked.1 (frameAddr g ||| pagePerm) =
      {freePresent walked.2 walked.1 with
        phys := writeEntry (freePresent walked.2 walked.1).phys f (slot v .pte) (frameAddr g ||| pagePerm)} := by
    rw [hptr, store_index _ (by omega) (addrRes_lt v .pte)]
    rfl
  rw [hstore]
  exact ⟨loc', g, hs.fresh_spaces hav hgrown hm hp hl rfl, fun hq => hgrown.keeps hq,
    hs.fresh_contents hav hgrown hp hl, hs.fresh_kept hav hgrown hm hp hl rfl⟩

end Sbnix.Memory
