import Sbnix.Memory.Paging

/-! Copying an address space and resolving page faults (`sys/cow.c`,
`sys/pagefault.c`).

`cow_walk_pages` goes through the tables of the parent, allocates a table of the
child for each, and shares the pages: both entries lose their write bit, and the
page's count goes up. It returns as soon as a page has no entry in `memmap`, so
each loop is run in `Except`, an error carrying the memory at that point.

`page_fault` makes the page writable again if it is the last user, and copies it
otherwise. -/
namespace Sbnix.Memory
open Words Library

/-! ### `cow_walk_pages` -/

/-- `for(i=k; i<k+n; i++)` around a body that may return. -/
def forEntries (body : Nat → Mem → Except Mem Mem) : Nat → Nat → Mem → Except Mem Mem
  | _, 0, s => .ok s
  | k, n + 1, s => (body k s).bind (forEntries body (k + 1) n)

/-- `p[i]` for an `int` index. -/
def nth (p : Word) (i : Nat) : Word := index p (BitVec.ofNat 64 i)

theorem load_nth (s : Mem) {f : Nat} (hf : f < 2 ^ 52) (i : Fin 512) :
    s.load (nth (framePtr f) i) = s.phys f i := by
  have hi : (BitVec.ofNat 64 i.val : Word).toNat = i.val := by
    rw [BitVec.toNat_ofNat]
    omega
  rw [nth, load_index s hf (by omega)]
  congr

theorem store_nth (s : Mem) {f : Nat} (hf : f < 2 ^ 52) (i : Fin 512) (w : Word) :
    s.store (nth (framePtr f) i) w = {s with phys := writeEntry s.phys f i w} := by
  have hi : (BitVec.ofNat 64 i.val : Word).toNat = i.val := by
    rw [BitVec.toNat_ofNat]
    omega
  rw [nth, store_index s hf (by omega)]
  congr

/-- Level 1, one entry. -/
def sharePage (pte pteChild : Word) (l : Nat) (s : Mem) : Except Mem Mem :=
  if s.load (nth pte l) &&& pagePresent ≠ 0 then
    let s := s.store (nth pte l) (s.load (nth pte l) &&& ~~~pageWrite)
    let s := s.store (nth pteChild l) (s.load (nth pte l))
    match getPhysicalMemmap s (s.load (nth pteChild l) &&& pageMask) with
    | none => .error s
    | some i => .ok (s.count i ((s.memmap i).refCnt + 1) true)
  else .ok s

/-- Level 1. -/
def sharePages (pte pteChild : Word) (s : Mem) : Except Mem Mem :=
  forEntries (sharePage pte pteChild) 0 512 s

/-- Levels 4 to 2, one entry: `below` is the level under it. -/
def copyTable (below : Word → Word → Mem → Except Mem Mem) (table child : Word) (i : Nat) (s : Mem) :
    Except Mem Mem :=
  if s.load (nth table i) &&& pagePresent ≠ 0 then
    let page := memAllocate s
    let s := if page.1 ≠ 0 then page.2.store (nth child i) (page.1 ||| pagePerm) else page.2
    below (nextTable (s.load (nth table i))) (nextTable (s.load (nth child i))) s
  else .ok s

/-- Level 2. -/
def copyPde (pde pdeChild : Word) (s : Mem) : Except Mem Mem :=
  forEntries (copyTable sharePages pde pdeChild) 0 512 s

/-- Level 3. -/
def copyPdpe (pdpe pdpeChild : Word) (s : Mem) : Except Mem Mem :=
  forEntries (copyTable copyPde pdpe pdpeChild) 0 512 s

/-- Level 4. The last slot belongs to the kernel and is left out. -/
def cowWalkPages (s : Mem) (pml4e pml4eChild : Word) : Except Mem Mem :=
  forEntries (copyTable copyPdpe pml4e pml4eChild) 0 511 s

/-- The memory at the return, whatever is returned. -/
def returned : Except Mem Mem → Mem
  | .ok s => s
  | .error s => s

/-! ### The address space of a new process -/

/-- `n` rounds of a loop `dst[j] = val(j)`, from the `j`-th word on. -/
def storeWords (dst : Word) (val : Nat → Mem → Word) : Nat → Nat → Mem → Mem
  | _, 0, s => s
  | j, n + 1, s => storeWords dst val (j + 1) n (s.store (nth dst j) (val j s))

/-- `memset(p, 0, 4096)`, a word at a time. -/
@[irreducible] def clearPage (p : Word) (s : Mem) : Mem := storeWords p (fun _ _ => 0) 0 512 s

/-- The root of a new process, in `create_process` and `sys_fork`: a cleared table
whose last entry is that of the kernel's own table. The address is physical. -/
def newRoot (s : Mem) (pml4e : Word) : Word × Mem :=
  let page := memAllocate s
  let root := kernMem + page.1
  let s := clearPage root page.2
  (page.1, s.store (nth root 511) (s.load (nth pml4e 511)))

/-- The address-space copy of `sys_fork`: a new root, filled from the parent's. -/
def forkSpace (s : Mem) (pml4e parent : Word) : Word × Mem :=
  let root := newRoot s pml4e
  (root.1, returned (cowWalkPages root.2 parent (kernMem + root.1)))

/-! ### `page_fault` -/

/-- How a page fault ends. -/
inductive Fault where
  | resolved (code : Int) (s : Mem)
  /-- `segfault` ended the task. -/
  | killed (s : Mem)
  /-- The handler read through `NULL`. -/
  | crashed

/-- `for(i=0, j=0; i < PAGE_SIZE-1; i+=8, j++) dst[j] = src[j];` -/
@[irreducible] def copyPage (src dst : Word) (s : Mem) : Mem := storeWords dst (fun j s => s.load (nth src j)) 0 512 s

/-- A write to a page that is present and not writable. -/
def writeFault (s : Mem) (pml4e logical : Word) (segfault : Mem → Fault) : Fault :=
  match lookPages s pml4e logical with
  | none => .crashed
  | some pte =>
    let physical := s.load pte &&& pageMask
    match getPhysicalMemmap s physical with
    | none => .crashed
    | some i =>
      if (s.memmap i).cowFlag then
        if (s.memmap i).refCnt = 1 then .resolved 0 (s.store pte (physical ||| pagePerm))
        else
          let s := s.count i ((s.memmap i).refCnt - 1) (s.memmap i).cowFlag
          let page := memAllocate s
          let s := copyPage (physical + kernMem) (page.1 + kernMem) page.2
          .resolved 0 (mapKernel s pml4e logical page.1 4096)
      else segfault s

/-- A present page must not be read: `segfault` comes back only if `sys_exit` does,
which is when no task is left to run; the handler then frees the entry. -/
def freeFault (exitReturns : Bool) (pml4e logical : Word) (s : Mem) : Fault :=
  if exitReturns then
    let pte := walkPages s pml4e logical
    .resolved (-1) (freePresent pte.2 pte.1)
  else .killed s

def pageFault (exitReturns : Bool) (s : Mem) (pml4e logical error : Word) : Fault :=
  if error &&& pagePresent ≠ 0 then
    if error &&& pageWrite ≠ 0 then writeFault s pml4e logical (freeFault exitReturns pml4e logical)
    else freeFault exitReturns pml4e logical s
  else if logical < initialMem then
    if exitReturns then .resolved (-1) s else .killed s
  else
    let pte := walkPages s pml4e logical
    let page := memAllocate pte.2
    .resolved (-1) (page.2.store pte.1 (page.1 ||| pagePerm))

/-! ### Each function as primitive steps -/

theorem forEntries_steps {body : Nat → Mem → Except Mem Mem}
    (h : ∀ i s, Steps s (returned (body i s))) (k n : Nat) (s : Mem) :
    Steps s (returned (forEntries body k n s)) := by
  induction n generalizing k s with
  | zero => exact .refl
  | succ n ih =>
    have hone := h k s
    rw [forEntries]
    cases hb : body k s with
    | error t =>
      rw [hb] at hone
      exact hone
    | ok t =>
      rw [hb] at hone
      exact hone.trans (ih _ _)

theorem sharePage_steps (pte pteChild : Word) (l : Nat) (s : Mem) :
    Steps s (returned (sharePage pte pteChild l s)) := by
  unfold sharePage
  dsimp only
  split
  · split
    · exact (Steps.refl.store _ _).store _ _
    · exact ((Steps.refl.store _ _).store _ _).count _ _ _
  · exact .refl

theorem copyTable_steps {below : Word → Word → Mem → Except Mem Mem}
    (h : ∀ table child s, Steps s (returned (below table child s))) (table child : Word) (i : Nat)
    (s : Mem) : Steps s (returned (copyTable below table child i s)) := by
  unfold copyTable
  dsimp only
  split
  · refine Steps.trans ?_ (h _ _ _)
    split
    · exact (memAllocate_steps s).store _ _
    · exact memAllocate_steps s
  · exact .refl

theorem sharePages_steps (table child : Word) (s : Mem) : Steps s (returned (sharePages table child s)) :=
  forEntries_steps (sharePage_steps table child) 0 512 s

theorem copyPde_steps (table child : Word) (s : Mem) : Steps s (returned (copyPde table child s)) :=
  forEntries_steps (copyTable_steps sharePages_steps table child) 0 512 s

theorem copyPdpe_steps (table child : Word) (s : Mem) : Steps s (returned (copyPdpe table child s)) :=
  forEntries_steps (copyTable_steps copyPde_steps table child) 0 512 s

theorem cowWalkPages_steps (s : Mem) (pml4e pml4eChild : Word) :
    Steps s (returned (cowWalkPages s pml4e pml4eChild)) :=
  forEntries_steps (copyTable_steps copyPdpe_steps pml4e pml4eChild) 0 511 s

/-! ### One entry of `cow_walk_pages` -/

section
variable {s : Mem} {f c g x : Nat} {i l : Fin 512} {e : Word} {below : Word → Word → Mem → Except Mem Mem}

/-- The write bit is not part of the address. -/
theorem protected_mask (e : Word) : (e &&& ~~~pageWrite) &&& pageMask = e &&& pageMask := by
  have hmask : ~~~pageWrite &&& pageMask = pageMask := by decide
  rw [BitVec.and_assoc, hmask]

theorem sharePage_absent (hf : f < 2 ^ 52) {child : Word} (h : s.phys f i &&& pagePresent = 0) :
    sharePage (framePtr f) child i s = .ok s := by
  unfold sharePage
  rw [load_nth s hf, if_neg (not_not_intro h)]

/-- The entry `e` without its write bit in both tables. -/
def withEntries (s : Mem) (f c : Nat) (i : Fin 512) (e : Word) : Mem :=
  {s with phys := writeEntry (writeEntry s.phys f i (e &&& ~~~pageWrite)) c i (e &&& ~~~pageWrite)}

theorem sharePage_present (hf : f < 2 ^ 52) (hc : c < 2 ^ 52) (h : s.phys f i &&& pagePresent ≠ 0) :
    sharePage (framePtr f) (framePtr c) i s =
      match getPhysicalMemmap (withEntries s f c i (s.phys f i)) (s.phys f i &&& pageMask) with
      | none => .error (withEntries s f c i (s.phys f i))
      | some x => .ok ((withEntries s f c i (s.phys f i)).count x ((s.memmap x).refCnt + 1) true) := by
  unfold sharePage withEntries
  dsimp only
  rw [load_nth s hf, if_pos h, store_nth _ hf, load_nth _ hf, store_nth _ hc, load_nth _ hc]
  dsimp only
  rw [writeEntry_same, writeEntry_same, protected_mask]

/-- A frame of the pool linked as a table. -/
def withTable (s : Mem) (c : Nat) (i : Fin 512) (g : Nat) : Mem :=
  {s.take g with phys := writeEntry s.phys c i (tableEntry (some g))}

theorem withTable_other (hx : ¬ (x = c ∧ l = i)) : (withTable s c i g).phys x l = s.phys x l := writeEntry_other _ _ hx

theorem withTable_same : (withTable s c i g).phys c i = tableEntry (some g) := writeEntry_same ..

theorem withTable_memmap (hx : x ≠ g) : (withTable s c i g).memmap x = s.memmap x := Function.update_of_ne hx _ _

theorem copyTable_absent (hf : f < 2 ^ 52) {child : Word} (h : s.phys f i &&& pagePresent = 0) :
    copyTable below (framePtr f) child i s = .ok s := by
  unfold copyTable
  rw [load_nth s hf, if_neg (not_not_intro h)]

/-- The level below goes on with the new table and the one that the parent's entry names. -/
theorem copyTable_present (hf : f < 2 ^ 52) (hc : c < 2 ^ 52) (hg : 0 < g ∧ g < 2 ^ 15)
    (heq : memAllocate s = (frameAddr g, s.take g)) (h : s.phys f i &&& pagePresent ≠ 0) :
    copyTable below (framePtr f) (framePtr c) i s =
      below (framePtr (((withTable s c i g).phys f i).toNat / 4096)) (framePtr g) (withTable s c i g) := by
  have hne : frameAddr g ≠ 0 := fun he => by
    have := (frameAddr_eq_zero (by omega)).mp he
    omega
  unfold copyTable
  dsimp only
  rw [load_nth s hf, if_pos h, heq, if_pos hne, store_nth _ hc, load_nth _ hf, load_nth _ hc]
  dsimp only
  rw [writeEntry_same, nextTable_entry hg.2, nextTable_frame]
  rfl

/-- The same, as long as no allocation fails. -/
theorem copyTable_taken (hsteps : ∀ table child s, Steps s (returned (below table child s))) (hs : Addressed s)
    (hf : f < 2 ^ 52) (hc : c < 2 ^ 52) (h : s.phys f i &&& pagePresent ≠ 0)
    (h0 : 0 ∉ (returned (copyTable below (framePtr f) (framePtr c) i s)).handed) :
    ∃ g, s.Avail g ∧ Steps s (withTable s c i g) ∧ copyTable below (framePtr f) (framePtr c) i s =
      below (framePtr (((withTable s c i g).phys f i).toNat / 4096)) (framePtr g) (withTable s c i g) := by
  have halloc : 0 ∉ (memAllocate s).2.handed := by
    unfold copyTable at h0
    rw [load_nth s hf, if_pos h] at h0
    have h0' := (hsteps _ _ _).ok h0
    split at h0'
    · exact h0'
    · exact h0'
  obtain ⟨g, hpos, hav, _, heq⟩ := memAllocate_ok hs halloc
  have hlt : g < 2 ^ 15 := hav.1.trans maxMem_lt
  have hlink := (memAllocate_steps s).store (nth (framePtr c) i) (tableEntry (some g))
  rw [heq, store_nth _ hc] at hlink
  exact ⟨g, hav, hlink, copyTable_present hf hc ⟨hpos, hlt⟩ heq h⟩

end

theorem storeWords_steps (dst : Word) (val : Nat → Mem → Word) (j n : Nat) (s : Mem) :
    Steps s (storeWords dst val j n s) := by
  induction n generalizing j s with
  | zero => exact .refl
  | succ n ih => exact (Steps.refl.store _ _).trans (ih _ _)

theorem clearPage_steps (p : Word) (s : Mem) : Steps s (clearPage p s) := by
  unfold clearPage
  exact storeWords_steps ..

theorem copyPage_steps (src dst : Word) (s : Mem) : Steps s (copyPage src dst s) := by
  unfold copyPage
  exact storeWords_steps ..

theorem storeWords_handed (dst : Word) (val : Nat → Mem → Word) (j n : Nat) (s : Mem) :
    (storeWords dst val j n s).handed = s.handed := by
  induction n generalizing j s with
  | zero => rfl
  | succ n ih => rw [storeWords, ih, store_handed]

@[simp] theorem clearPage_handed (p : Word) (s : Mem) : (clearPage p s).handed = s.handed := by
  unfold clearPage
  exact storeWords_handed ..

@[simp] theorem copyPage_handed (src dst : Word) (s : Mem) : (copyPage src dst s).handed = s.handed := by
  unfold copyPage
  exact storeWords_handed ..

theorem newRoot_length (s : Mem) (pml4e : Word) : (newRoot s pml4e).2.handed.length = s.handed.length + 1 := by
  unfold newRoot
  rw [store_handed, clearPage_handed, memAllocate_length]

theorem newRoot_steps (s : Mem) (pml4e : Word) : Steps s (newRoot s pml4e).2 := by
  unfold newRoot
  exact ((memAllocate_steps s).trans (clearPage_steps _ _)).store _ _

theorem forkSpace_steps (s : Mem) (pml4e parent : Word) : Steps s (forkSpace s pml4e parent).2 :=
  (newRoot_steps s pml4e).trans (cowWalkPages_steps _ _ _)

/-- The memory after a fault; a crash leaves none. -/
def Fault.mem : Fault → Option Mem
  | .resolved _ s => some s
  | .killed s => some s
  | .crashed => none

theorem freeFault_steps (exitReturns : Bool) (pml4e logical : Word) (s : Mem) :
    ∀ t ∈ (freeFault exitReturns pml4e logical s).mem, Steps s t := by
  intro t ht
  unfold freeFault at ht
  split at ht
  · obtain rfl := Option.mem_some.mp ht
    exact (walkPages_steps _ _ _).trans (freePresent_steps _ _)
  · obtain rfl := Option.mem_some.mp ht
    exact .refl

theorem writeFault_steps (s : Mem) (pml4e logical : Word) {segfault : Mem → Fault}
    (h : ∀ s, ∀ t ∈ (segfault s).mem, Steps s t) :
    ∀ t ∈ (writeFault s pml4e logical segfault).mem, Steps s t := by
  intro t ht
  unfold writeFault at ht
  dsimp only at ht
  split at ht
  · cases ht
  · split at ht
    · cases ht
    · split at ht
      · split at ht
        · obtain rfl := Option.mem_some.mp ht
          exact Steps.refl.store _ _
        · obtain rfl := Option.mem_some.mp ht
          refine Steps.trans ?_ (mapKernel_steps _ _ _ _ _)
          exact (Steps.allocate (Steps.refl.count _ _ _)).trans (copyPage_steps _ _ _)
      · exact h s t ht

theorem pageFault_steps (exitReturns : Bool) (s : Mem) (pml4e logical error : Word) :
    ∀ t ∈ (pageFault exitReturns s pml4e logical error).mem, Steps s t := by
  intro t ht
  unfold pageFault at ht
  dsimp only at ht
  split at ht
  · split at ht
    · exact writeFault_steps s pml4e logical (freeFault_steps exitReturns pml4e logical) t ht
    · exact freeFault_steps exitReturns pml4e logical s t ht
  · split at ht
    · split at ht
      · obtain rfl := Option.mem_some.mp ht
        exact .refl
      · obtain rfl := Option.mem_some.mp ht
        exact .refl
    · obtain rfl := Option.mem_some.mp ht
      exact ((walkPages_steps _ _ _).allocate).store _ _

/-- Resolving a fault takes at most a table for each level and a page. -/
theorem pageFault_length (exitReturns : Bool) (s : Mem) (pml4e logical error : Word) :
    ∀ t ∈ (pageFault exitReturns s pml4e logical error).mem, t.handed.length ≤ s.handed.length + 4 := by
  have hfree : ∀ t ∈ (freeFault exitReturns pml4e logical s).mem, t.handed.length ≤ s.handed.length + 4 := by
    intro t ht
    unfold freeFault at ht
    split at ht
    · obtain rfl := Option.mem_some.mp ht
      have := walkPages_length s pml4e logical
      rw [freePresent_handed]
      omega
    · obtain rfl := Option.mem_some.mp ht
      omega
  intro t ht
  unfold pageFault at ht
  dsimp only at ht
  split at ht
  · split at ht
    · unfold writeFault at ht
      dsimp only at ht
      split at ht
      · cases ht
      · split at ht
        · cases ht
        · split at ht
          · split at ht
            · obtain rfl := Option.mem_some.mp ht
              rw [store_handed]
              omega
            · obtain rfl := Option.mem_some.mp ht
              refine (mapKernel_length _ _ _ _).trans ?_
              rw [copyPage_handed, memAllocate_length]
              exact Nat.le_refl _
          · exact hfree t ht
    · exact hfree t ht
  · split at ht
    · split at ht
      · obtain rfl := Option.mem_some.mp ht
        omega
      · obtain rfl := Option.mem_some.mp ht
        omega
    · obtain rfl := Option.mem_some.mp ht
      have := walkPages_length s pml4e logical
      rw [store_handed, memAllocate_length]
      omega

end Sbnix.Memory
