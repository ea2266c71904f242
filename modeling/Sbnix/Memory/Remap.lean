import Sbnix.Memory.Direct
import Sbnix.Memory.Process

/-! Mapping another frame where one is mapped.

`page_insert` and `sys_brk` mean to give the old frame back: they call `mem_free` on the
entry they are about to overwrite. But an entry is not an address. It has its present bit
set, and no element of `memmap` has such an address, so neither the guess of `mem_free`
nor its search finds one, and the frame stays busy for good. -/
namespace Sbnix.Memory
open Words Library

variable {s t : Mem} {f g : Nat}

/-- The address has a present entry, for the frame `f`, which was handed out and has one
user. Frames below `INITIAL_MEM` are the kernel's and not handed out. -/
structure Occupied (s : Mem) (pml4e logical : Word) (f : Nat) : Prop where
  entry : ∃ pte, lookPages s pml4e logical = some pte ∧ s.load pte &&& pagePresent ≠ 0 ∧
    s.load pte &&& pageMask = frameAddr f
  frame : f < maxMem
  above : initialMem ≤ frameAddr f
  handed : frameAddr f ∈ s.handed
  busy : (s.memmap f).resFlag = .busy
  single : (s.memmap f).refCnt = 1

/-- From `s` to `s'` no flag but that of `f` is changed, less those of frames handed out on the
way. -/
def OnlyAllocates (s s' : Mem) (f : Nat) : Prop :=
  ∃ new, s'.handed = new ++ s.handed ∧
    ∀ g < maxMem, g ≠ f → (s'.memmap g).resFlag ≠ (s.memmap g).resFlag → frameAddr g ∈ new

/-- The frame `f` is back in the pool, and nothing else has changed there. -/
def GivesBack (s s' : Mem) (f : Nat) : Prop := s'.Avail f ∧ OnlyAllocates s s' f

/-- The flags that change are those of frames handed out. -/
theorem Steps.flags (hst : Steps s t) (hs : Addressed s) :
    ∃ new, t.handed = new ++ s.handed ∧
      ∀ g < maxMem, (t.memmap g).resFlag ≠ (s.memmap g).resFlag → frameAddr g ∈ new := by
  induction hst with
  | refl => exact ⟨[], rfl, fun g _ hne => absurd rfl hne⟩
  | @allocate u hu ih =>
    obtain ⟨new, hnew, hflags⟩ := ih
    obtain ⟨f, hav, _, heq⟩ | ⟨_, heq⟩ := memAllocate_cases u
    · have haddr : (u.memmap f).addr = frameAddr f := (hu.avail hs).1 f hav.1
      refine ⟨frameAddr f :: new, ?_, fun g hg hne => ?_⟩
      · rw [heq]
        show (u.memmap f).addr :: u.handed = _
        rw [haddr, hnew]
        rfl
      · rw [heq] at hne
        by_cases hgf : g = f
        · rw [hgf]
          exact List.mem_cons_self ..
        · rw [take_refCnt_other u hgf] at hne
          exact List.mem_cons_of_mem _ (hflags g hg hne)
    · refine ⟨0 :: new, ?_, fun g hg hne => ?_⟩
      · rw [heq]
        show 0 :: u.handed = _
        rw [hnew]
        rfl
      · rw [heq] at hne
        exact List.mem_cons_of_mem _ (hflags g hg hne)
  | store p w _ ih => exact ih
  | @free u e he hu ih =>
    obtain ⟨new, hnew, hflags⟩ := ih
    refine ⟨new, by rw [memFree_handed, hnew], fun g hg hne => hflags g hg ?_⟩
    rwa [memFree_entry (hu.avail hs).1 he g hg] at hne
  | @count u i c b _ ih =>
    obtain ⟨new, hnew, hflags⟩ := ih
    refine ⟨new, hnew, fun g hg hne => hflags g hg ?_⟩
    rwa [(count_other u i c b g).2] at hne

theorem Steps.onlyAllocates (hst : Steps s t) (hs : Addressed s) (f : Nat) : OnlyAllocates s t f := by
  obtain ⟨new, hnew, hflags⟩ := hst.flags hs
  exact ⟨new, hnew, fun g hg _ => hflags g hg⟩

/-- `mem_free` can look for the old entry. -/
theorem Occupied.frees {pml4e logical : Word} (h : Occupied s pml4e logical f) {u : Mem} (hu : u.phys = s.phys) :
    (freePresent (walkPages u pml4e logical).2 (walkPages u pml4e logical).1).overrun = u.overrun := by
  have hmax : maxMem = 32510 := rfl
  have hlt := h.frame
  obtain ⟨pte, hlook, _, hmask⟩ := h.entry
  have hload : u.load = s.load := by
    funext p
    rw [Mem.load, hu, Mem.load]
  have hlook' : lookPages u pml4e logical = some pte := by
    unfold lookPages at hlook ⊢
    rw [hload]
    exact hlook
  have hframe : (s.load pte).toNat / 4096 * 4096 = 4096 * f := by
    rw [← toNat_and_pageMask, hmask, frameAddr_toNat (by omega)]
  have habove : 100000 ≤ 4096 * f := by
    have hle := BitVec.le_def.mp h.above
    rw [frameAddr_toNat (by omega)] at hle
    exact hle
  have hin : InMemmap (u.load pte) := by
    rw [hload]
    exact ⟨BitVec.le_def.mpr (show 100000 ≤ _ by omega), by omega⟩
  rw [walkPages_look hlook', freePresent_overrun, decide_eq_false fun hc => hc.2 hin, Bool.or_false]

/-- A busy frame stays so. -/
theorem Steps.keeps_busy (hst : Steps s t) (hs : Addressed s) (hbusy : (s.memmap f).resFlag = .busy) : ¬ t.Avail f := by
  intro ha
  have hav := (hst.avail hs).2 ha
  rw [Mem.Avail, hbusy] at hav
  cases hav.2

/-- Remapping, by `page_insert` or by a round of `sys_brk`, comes to its end, but never gives the old frame
back, and nothing that is done later does; the other flags it leaves alone. -/
theorem remapping_never_frees (s : Mem) (hs : Addressed s) (pml4e logical physical remSize : Word) (f : Nat)
    (h : Occupied s pml4e logical f) :
    ((pageInsert s pml4e logical physical).overrun = s.overrun ∧
      ¬ GivesBack s (pageInsert s pml4e logical physical) f ∧
      OnlyAllocates s (pageInsert s pml4e logical physical) f ∧
      ∀ t, Steps (pageInsert s pml4e logical physical) t → ¬ t.Avail f) ∧
    ((brkPages pml4e 1 logical remSize s).2.overrun = s.overrun ∧
      ¬ GivesBack s (brkPages pml4e 1 logical remSize s).2 f ∧
      OnlyAllocates s (brkPages pml4e 1 logical remSize s).2 f ∧
      ∀ t, Steps (brkPages pml4e 1 logical remSize s).2 t → ¬ t.Avail f) := by
  have hinsert := pageInsert_steps s pml4e logical physical
  have hbrk := brkPages_steps pml4e 1 logical remSize s
  have hphys : (memAllocate s).2.phys = s.phys := by
    obtain ⟨f, _, _, heq⟩ | ⟨_, heq⟩ := memAllocate_cases s
    · rw [heq, take_phys]
    · rw [heq]
  refine ⟨⟨h.frees rfl, fun hback => ?_, hinsert.onlyAllocates hs f, fun t ht => ?_⟩,
    (h.frees hphys).trans (memAllocate_overrun s), fun hback => ?_, hbrk.onlyAllocates hs f, fun t ht => ?_⟩
  · exact hinsert.keeps_busy hs h.busy hback.1
  · exact (hinsert.trans ht).keeps_busy hs h.busy
  · exact hbrk.keeps_busy hs h.busy hback.1
  · exact (hbrk.trans ht).keeps_busy hs h.busy

/-- A root in frame 595, its tables in the frames 596 to 598, and one page in frame 599. -/
def pageHeld : Mem where
  memmap := fun i => ⟨frameAddr i, if i < 600 then .busy else .avail, 1, false⟩
  phys := fun f j => if j.val = 0 ∧ 595 ≤ f ∧ f ≤ 598 then frameAddr (f + 1) ||| pagePerm else 0
  handed := [frameAddr 599]
  overrun := false

theorem pageHeld_occupied : Occupied pageHeld (framePtr 595) 0 599 where
  entry := ⟨framePtr 598, by decide +kernel, by decide +kernel, by decide +kernel⟩
  frame := by decide
  above := by decide
  handed := by decide
  busy := by decide
  single := by decide

theorem remapping_never_frees_held :
    ¬ GivesBack pageHeld (pageInsert pageHeld (framePtr 595) 0 (frameAddr 600)) 599 ∧
    ¬ GivesBack pageHeld (brkPages (framePtr 595) 1 0 0 pageHeld).2 599 := by
  have h := remapping_never_frees pageHeld (fun _ _ => rfl) (framePtr 595) 0 (frameAddr 600) 0 599 pageHeld_occupied
  exact ⟨h.1.2.1, h.2.2.1⟩

/-- The page at address 0 is mapped to frame 600. `mem_free` has come to its end, and frame 599, which nothing
maps any more, is still busy. -/
theorem frame_lost : Occupied pageHeld (framePtr 595) 0 599 ∧
    (pageInsert pageHeld (framePtr 595) 0 (frameAddr 600)).overrun = false ∧
    ((pageInsert pageHeld (framePtr 595) 0 (frameAddr 600)).memmap 599).resFlag = .busy ∧
    ¬ GivesBack pageHeld (pageInsert pageHeld (framePtr 595) 0 (frameAddr 600)) 599 := by
  refine ⟨pageHeld_occupied, by decide +kernel, by decide +kernel, fun h => ?_⟩
  exact (pageInsert_steps _ _ _ _).keeps_busy (fun _ _ => rfl) pageHeld_occupied.busy h.1

end Sbnix.Memory
