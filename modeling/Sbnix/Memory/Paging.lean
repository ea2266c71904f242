import Sbnix.Memory.Frames

/-! The page-table code of `sys/memory.c`: lookup, walking with allocation on the
way down, and the functions that fill address ranges.

Tables are reached through kernel pointers. An entry is a frame address with
permission bits; `nextTable` is how the source turns one into the pointer to the
table it names. -/
namespace Sbnix.Memory
open Words Library

def pagePerm : Word := 7
def pageWrite : Word := 2
def pagePresent : Word := 1
def videoMem : Word := 0xb8000

/-- The `flag` of `addr_res`. -/
inductive Level where
  | pml4e
  | pdpe
  | pde
  | pte
  deriving DecidableEq, Repr

def addrRes (logical : Word) : Level → Word
  | .pml4e => (logical >>> 39) &&& 0x1FF
  | .pdpe => (logical >>> 30) &&& 0x1FF
  | .pde => (logical >>> 21) &&& 0x1FF
  | .pte => (logical >>> 12) &&& 0x1FF

/-- `(entry + KERN_MEM) & 0xFFFFFFFFFFFFF000`, as a pointer. -/
def nextTable (entry : Word) : Word := (entry + kernMem) &&& pageMask

/-- A pointer to the entry, or `none` for `NULL`. The root entry is tested for its
present bit, the others for being non-zero. -/
def lookPages (s : Mem) (pml4e logical : Word) : Option Word :=
  let pml4 := s.load (index pml4e (addrRes logical .pml4e))
  if pml4 &&& pagePresent ≠ 0 then
    let pdp := s.load (index (nextTable pml4) (addrRes logical .pdpe))
    if pdp ≠ 0 then
      let pd := s.load (index (nextTable pdp) (addrRes logical .pde))
      if pd ≠ 0 then
        let pte := index (nextTable pd) (addrRes logical .pte)
        if s.load pte ≠ 0 then some pte else none
      else none
    else none
  else none

/-- `!entry & PAGE_PRESENT`: the negation binds first. -/
def pml4Absent (entry : Word) : Bool := ((if entry = 0 then 1 else 0) &&& pagePresent) != 0

/-- One level of `walk_pages`: if the entry is absent, link a newly allocated
table; then go to the table the entry names. -/
def walkLevel (absent : Word → Bool) (s : Mem) (table i : Word) : Word × Mem :=
  let s :=
    if absent (s.load (index table i)) then
      let page := memAllocate s
      if page.1 ≠ 0 then page.2.store (index table i) (page.1 ||| pagePerm) else page.2
    else s
  (nextTable (s.load (index table i)), s)

/-- A pointer to the last-level entry, and the memory with the tables above it. -/
def walkPages (s : Mem) (pml4e logical : Word) : Word × Mem :=
  let pdpe := walkLevel pml4Absent s pml4e (addrRes logical .pml4e)
  let pde := walkLevel (· == 0) pdpe.2 pdpe.1 (addrRes logical .pdpe)
  let pte := walkLevel (· == 0) pde.2 pde.1 (addrRes logical .pde)
  (index pte.1 (addrRes logical .pte), pte.2)

/-- `if(*pte & PAGE_PRESENT) mem_free(*pte);` -/
def freePresent (s : Mem) (pte : Word) : Mem :=
  if s.load pte &&& pagePresent ≠ 0 then memFree s (s.load pte) else s

def pageInsert (s : Mem) (pml4e logical physical : Word) : Mem :=
  let pte := walkPages s pml4e logical
  (freePresent pte.2 pte.1).store pte.1 (physical ||| pagePerm)

/-- The loop of `map_kernel`, `n` pages from the `k`-th on. -/
def mapPages (pml4e virAddr physical : Word) : Nat → Nat → Mem → Mem
  | _, 0, s => s
  | k, n + 1, s =>
    let i := BitVec.ofNat 64 (4096 * k)
    let pte := walkPages s pml4e (virAddr + i)
    mapPages pml4e virAddr physical (k + 1) n (pte.2.store pte.1 ((physical + i) ||| pagePerm))

def mapKernel (s : Mem) (pml4e logical phys sz : Word) : Mem :=
  let virAddr := pageRoundless4096 logical
  let physical := pageRoundless4096 phys
  let size := pageRoundoff4096 sz
  if virAddr ≠ 0 then mapPages pml4e virAddr physical 0 (size.toNat / 4096) s else s

/-- The loop of `kmalloc_user_space`, `n` pages from the `k`-th on. -/
def userPages (pml4e logical : Word) : Nat → Nat → Mem → Mem
  | _, 0, s => s
  | k, n + 1, s =>
    let page := memAllocate s
    userPages pml4e logical (k + 1) n
      (pageInsert page.2 pml4e (logical + BitVec.ofNat 64 (4096 * k)) page.1)

def kmallocUserSpace (s : Mem) (pml4e logical size : Word) : Mem :=
  userPages pml4e logical 0 (pageCount size).toInt.toNat s

/-- The loop of `allocate`. A failed `mem_allocate` calls `OOM`, which exits the
process and does not come back. -/
def allocatePages (pml4e start : Word) : Nat → Nat → Mem → Mem
  | _, 0, s => s
  | k, n + 1, s =>
    let page := memAllocate s
    if page.1 = 0 then page.2
    else allocatePages pml4e start (k + 1) n
      (pageInsert page.2 pml4e (start + BitVec.ofNat 64 (4096 * k)) page.1)

/-- `start` of `allocate`. -/
def allocateStart (addr : Word) : Word :=
  if addr % 4096 ≠ 0 then pageRoundoff4096 addr - 4096 else addr

/-- The rounds of `for(i=start; i<end; i+=4096)`: both ends are multiples of the
page size. -/
def allocateCount (addr : Word) (len : BitVec 32) : Nat :=
  ((pageRoundoff4096 (addr + len.signExtend 64)).toNat - (allocateStart addr).toNat) / 4096

def allocate (s : Mem) (pml4e addr : Word) (len : BitVec 32) : Mem :=
  allocatePages pml4e (allocateStart addr) 0 (allocateCount addr len) s

/-! ### The four indices of an address -/

theorem addrRes_toNat (v : Word) (l : Level) :
    (addrRes v l).toNat =
      v.toNat / 2 ^ (match l with | .pml4e => 39 | .pdpe => 30 | .pde => 21 | .pte => 12) % 512 := by
  have hmask : (0x1FF : Word) = BitVec.ofNat 64 (2 ^ 9 - 1) := rfl
  cases l <;> simp only [addrRes, hmask, toNat_and_low _ 9 (by decide), BitVec.toNat_ushiftRight,
    Nat.shiftRight_eq_div_pow] <;> rfl

theorem addrRes_lt (v : Word) (l : Level) : (addrRes v l).toNat < 512 := by
  rw [addrRes_toNat]
  exact Nat.mod_lt _ (by decide)

/-- An index of an address as a slot of a table. -/
def slot (v : Word) (l : Level) : Fin 512 := ⟨(addrRes v l).toNat, addrRes_lt v l⟩

/-- The path of an address from the root to its last-level table. -/
def tablePath (v : Word) : List (Fin 512) := [slot v .pml4e, slot v .pdpe, slot v .pde]

/-- Two addresses that agree on bits 12 to 47. -/
def SamePage (v w : Word) : Prop := v.toNat / 4096 % 2 ^ 36 = w.toNat / 4096 % 2 ^ 36

instance (v w : Word) : Decidable (SamePage v w) := by unfold SamePage; infer_instance

/-- The four indices identify the page. -/
theorem path_eq_iff (v w : Word) : (tablePath v = tablePath w ∧ slot v .pte = slot w .pte) ↔ SamePage v w := by
  simp only [tablePath, slot, List.cons.injEq, Fin.mk.injEq, addrRes_toNat, SamePage, and_true]
  omega

/-! ### Entries -/

/-- The entry that names a table, or no table. -/
def tableEntry : Option Nat → Word
  | none => 0
  | some f => frameAddr f ||| pagePerm

theorem entry_toNat {f : Nat} (hf : f < 2 ^ 40) : (frameAddr f ||| pagePerm).toNat = 4096 * f + 7 := by
  have h := toNat_or_low (frameAddr f) pagePerm (k := 12)
    (by rw [frameAddr_toNat (by omega)]; exact ⟨f, rfl⟩) (by decide)
  rw [h, frameAddr_toNat (by omega)]
  rfl

theorem entry_ne_zero (x : Word) : x ||| pagePerm ≠ 0 := by
  intro h
  have := congrArg (fun w : Word => w.getLsbD 0) h
  simp [pagePerm] at this

theorem entry_present (x : Word) : (x ||| pagePerm) &&& pagePresent ≠ 0 := by
  intro h
  have := congrArg (fun w : Word => w.getLsbD 0) h
  simp [pagePerm, pagePresent] at this

theorem present_odd {e : Word} (h : e &&& pagePresent ≠ 0) : e.toNat % 2 = 1 := by
  by_contra hodd
  apply h
  apply BitVec.eq_of_toNat_eq
  have := toNat_and_low e 1 (by decide)
  rw [show pagePresent = BitVec.ofNat 64 (2 ^ 1 - 1) from rfl, this]
  simp
  omega

theorem nextTable_frame (e : Word) : nextTable e = framePtr (e.toNat / 4096) := by
  apply BitVec.eq_of_toNat_eq
  have hk : kernMem.toNat = 0xffffffff80000000 := rfl
  have hlt := e.isLt
  rw [nextTable, toNat_and_pageMask, BitVec.toNat_add, framePtr, BitVec.toNat_add, frameAddr_toNat (by omega), hk]
  omega

theorem nextTable_entry {f : Nat} (hf : f < 2 ^ 15) : nextTable (frameAddr f ||| pagePerm) = framePtr f := by
  apply BitVec.eq_of_toNat_eq
  have hk : kernMem.toNat = 0xffffffff80000000 := rfl
  rw [nextTable, toNat_and_pageMask, BitVec.toNat_add, entry_toNat (by omega), framePtr, BitVec.toNat_add,
    frameAddr_toNat (by omega), hk]
  omega

theorem pml4Absent_iff (e : Word) : pml4Absent e = (e == 0) := by
  by_cases h : e = 0
  · subst h
    rfl
  · have hne : (e == 0) = false := by simpa using h
    rw [pml4Absent, if_neg h, hne]
    rfl

@[simp] theorem freePresent_handed (s : Mem) (pte : Word) : (freePresent s pte).handed = s.handed := by
  unfold freePresent
  split <;> simp

@[simp] theorem freePresent_phys (s : Mem) (pte : Word) : (freePresent s pte).phys = s.phys := by
  unfold freePresent
  split <;> simp

theorem freePresent_overrun (s : Mem) (pte : Word) : (freePresent s pte).overrun =
    (s.overrun || decide (s.load pte &&& pagePresent ≠ 0 ∧ ¬ InMemmap (s.load pte))) := by
  unfold freePresent
  by_cases hpresent : s.load pte &&& pagePresent ≠ 0
  · rw [if_pos hpresent, memFree_overrun, decide_eq_decide.mpr (and_iff_right hpresent)]
  · rw [if_neg hpresent, decide_eq_false fun hc => hpresent hc.1, Bool.or_false]

theorem freePresent_memmap {s : Mem} (hs : Addressed s) (pte : Word) :
    ∀ i < maxMem, (freePresent s pte).memmap i = s.memmap i := by
  intro i hi
  unfold freePresent
  split
  · exact memFree_entry hs (present_odd ‹_›) i hi
  · rfl

/-! ### Each function as primitive steps -/

theorem walkLevel_steps (absent : Word → Bool) (s : Mem) (table i : Word) :
    Steps s (walkLevel absent s table i).2 := by
  unfold walkLevel
  dsimp only
  split
  · split
    · exact (memAllocate_steps s).store _ _
    · exact memAllocate_steps s
  · exact .refl

theorem walkPages_steps (s : Mem) (pml4e logical : Word) : Steps s (walkPages s pml4e logical).2 := by
  unfold walkPages
  dsimp only
  exact ((walkLevel_steps _ s _ _).trans (walkLevel_steps _ _ _ _)).trans (walkLevel_steps _ _ _ _)

theorem walkLevel_overrun (absent : Word → Bool) (s : Mem) (table i : Word) :
    (walkLevel absent s table i).2.overrun = s.overrun := by
  unfold walkLevel
  dsimp only
  split_ifs
  · rw [store_overrun, memAllocate_overrun]
  · rw [memAllocate_overrun]
  · rfl

@[simp] theorem walkPages_overrun (s : Mem) (pml4e logical : Word) : (walkPages s pml4e logical).2.overrun = s.overrun := by
  unfold walkPages
  dsimp only
  rw [walkLevel_overrun, walkLevel_overrun, walkLevel_overrun]

/-- A walk allocates at most one table for each level. -/
theorem walkLevel_length (absent : Word → Bool) (s : Mem) (table i : Word) :
    (walkLevel absent s table i).2.handed.length ≤ s.handed.length + 1 := by
  unfold walkLevel
  dsimp only
  split
  · split
    · rw [store_handed, memAllocate_length]
    · rw [memAllocate_length]
  · omega

theorem walkPages_length (s : Mem) (pml4e logical : Word) :
    (walkPages s pml4e logical).2.handed.length ≤ s.handed.length + 3 := by
  unfold walkPages
  dsimp only
  have h₁ := walkLevel_length pml4Absent s pml4e (addrRes logical .pml4e)
  generalize walkLevel pml4Absent s pml4e (addrRes logical .pml4e) = pdpe at h₁ ⊢
  have h₂ := walkLevel_length (· == 0) pdpe.2 pdpe.1 (addrRes logical .pdpe)
  generalize walkLevel (· == 0) pdpe.2 pdpe.1 (addrRes logical .pdpe) = pde at h₂ ⊢
  have h₃ := walkLevel_length (· == 0) pde.2 pde.1 (addrRes logical .pde)
  omega

theorem pageInsert_length (s : Mem) (pml4e logical physical : Word) :
    (pageInsert s pml4e logical physical).handed.length ≤ s.handed.length + 3 := by
  unfold pageInsert
  rw [store_handed, freePresent_handed]
  exact walkPages_length s pml4e logical

theorem freePresent_steps (s : Mem) (pte : Word) : Steps s (freePresent s pte) := by
  unfold freePresent
  split
  · exact .free (present_odd ‹_›) .refl
  · exact .refl

theorem pageInsert_steps (s : Mem) (pml4e logical physical : Word) :
    Steps s (pageInsert s pml4e logical physical) := by
  unfold pageInsert
  exact ((walkPages_steps s pml4e logical).trans (freePresent_steps _ _)).store _ _

/-- Where `look_pages` finds an entry, `walk_pages` finds the same one and allocates nothing. -/
theorem walkPages_look {s : Mem} {pml4e logical pte : Word} (h : lookPages s pml4e logical = some pte) :
    walkPages s pml4e logical = (pte, s) := by
  have hlevel : ∀ (absent : Word → Bool) (table i : Word), absent (s.load (index table i)) = false →
      walkLevel absent s table i = (nextTable (s.load (index table i)), s) := by
    intro absent table i habsent
    simp only [walkLevel, habsent, Bool.false_eq_true, if_false]
  unfold lookPages at h
  dsimp only at h
  split_ifs at h with hpml4 hpdp hpd hpte
  have hroot : pml4Absent (s.load (index pml4e (addrRes logical .pml4e))) = false := by
    rw [pml4Absent_iff]
    refine beq_false_of_ne fun hzero => hpml4 ?_
    rw [hzero]
    rfl
  obtain rfl := Option.some.inj h
  rw [walkPages, hlevel _ _ _ hroot]
  dsimp only
  rw [hlevel (· == 0) _ _ (beq_false_of_ne hpdp)]
  dsimp only
  rw [hlevel (· == 0) _ _ (beq_false_of_ne hpd)]

theorem mapPages_steps (pml4e virAddr physical : Word) (k n : Nat) (s : Mem) :
    Steps s (mapPages pml4e virAddr physical k n s) := by
  induction n generalizing k s with
  | zero => exact .refl
  | succ n ih =>
    unfold mapPages
    exact ((walkPages_steps s _ _).store _ _).trans (ih _ _)

theorem mapKernel_length (s : Mem) (pml4e logical phys : Word) :
    (mapKernel s pml4e logical phys 4096).handed.length ≤ s.handed.length + 3 := by
  have hsize : (pageRoundoff4096 4096).toNat / 4096 = 1 := by decide
  unfold mapKernel
  dsimp only
  split
  · rw [hsize, mapPages, mapPages, store_handed]
    exact walkPages_length _ _ _
  · omega

theorem mapKernel_steps (s : Mem) (pml4e logical phys sz : Word) :
    Steps s (mapKernel s pml4e logical phys sz) := by
  unfold mapKernel
  dsimp only
  split
  · exact mapPages_steps ..
  · exact .refl

theorem userPages_steps (pml4e logical : Word) (k n : Nat) (s : Mem) :
    Steps s (userPages pml4e logical k n s) := by
  induction n generalizing k s with
  | zero => exact .refl
  | succ n ih =>
    unfold userPages
    exact ((memAllocate_steps s).trans (pageInsert_steps _ _ _ _)).trans (ih _ _)

theorem kmallocUserSpace_steps (s : Mem) (pml4e logical size : Word) :
    Steps s (kmallocUserSpace s pml4e logical size) := userPages_steps ..

theorem allocatePages_steps (pml4e start : Word) (k n : Nat) (s : Mem) :
    Steps s (allocatePages pml4e start k n s) := by
  induction n generalizing k s with
  | zero => exact .refl
  | succ n ih =>
    unfold allocatePages
    dsimp only
    split
    · exact memAllocate_steps s
    · exact ((memAllocate_steps s).trans (pageInsert_steps _ _ _ _)).trans (ih _ _)

theorem allocate_steps (s : Mem) (pml4e addr : Word) (len : BitVec 32) :
    Steps s (allocate s pml4e addr len) := allocatePages_steps ..

end Sbnix.Memory
