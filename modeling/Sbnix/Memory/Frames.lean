import Sbnix.Library.Forest
import Sbnix.Library.Words

/-! Physical memory and its frame pool (`sys/memory.c`, lines 3 to 94 and 108 to 116).

Physical memory is frames of 512 words. The kernel reads and writes it through
the direct map: the word at kernel address `p` is the word at physical address
`p - KERN_MEM`. `load` and `store` take the address for mapped. So it is for every
frame the pool hands out (`kernel_direct_map`), but not for frame 0, which a failed
`mem_allocate` stands for; the module on a pool that has run out asks at every address
whether there is a page. The table `memmap` has `MAX_MEM` entries and lies in the
kernel image, apart from the frames it describes.

Two fields are not in the source. `handed` records what `mem_allocate` has returned,
most recent first, so that "no call has failed" and "no frame was handed out twice"
can be said of a state. `overrun` is set for good when `mem_free` uses an index past
the table. For an address below `INITIAL_MEM` the index is about 2^52; the element
would lie at an address that is not canonical, and the processor's exception halts the
system. What a function makes of a memory with `overrun` set says nothing about the
kernel. -/
namespace Sbnix.Memory
open Words Library

def maxMem : Nat := 32510
def initialMem : Word := 100000
def kernMem : Word := 0xffffffff80000000
def endLimit : Word := 0x7ffe000

theorem maxMem_lt : maxMem < 2 ^ 15 := by decide

inductive ResFlag where
  | avail
  | busy
  deriving DecidableEq, Repr

/-- `struct memory_map`. -/
structure MemoryMap where
  addr : Word
  resFlag : ResFlag
  refCnt : Int
  cowFlag : Bool

structure Mem where
  memmap : Nat → MemoryMap
  phys : Nat → Fin 512 → Word
  handed : List Word
  overrun : Bool

namespace Mem

/-- The frame a kernel address lies in. -/
def frameOf (p : Word) : Nat := (p - kernMem).toNat / 4096

/-- The word of its frame a kernel address points at. -/
def slotOf (p : Word) : Fin 512 := ⟨(p - kernMem).toNat % 4096 / 8, by omega⟩

def load (s : Mem) (p : Word) : Word := s.phys (frameOf p) (slotOf p)

def store (s : Mem) (p w : Word) : Mem := {s with phys := writeEntry s.phys (frameOf p) (slotOf p) w}

def setEntry (s : Mem) (i : Nat) (e : MemoryMap) : Mem :=
  {s with memmap := Function.update s.memmap i e}

/-- Set the count and the flag of an entry. -/
def count (s : Mem) (i : Nat) (refCnt : Int) (cowFlag : Bool) : Mem :=
  s.setEntry i {s.memmap i with refCnt := refCnt, cowFlag := cowFlag}

/-- What `mem_allocate` does to the entry it finds. -/
def take (s : Mem) (i : Nat) : Mem :=
  {s with
    memmap := Function.update s.memmap i
      {s.memmap i with refCnt := (s.memmap i).refCnt + 1, resFlag := .busy}
    handed := (s.memmap i).addr :: s.handed}

def Avail (s : Mem) (i : Nat) : Prop := i < maxMem ∧ (s.memmap i).resFlag = .avail

instance (s : Mem) (i : Nat) : Decidable (s.Avail i) := by unfold Avail; infer_instance

end Mem

def initMemmap (s : Mem) (physfree : Word) : Mem :=
  {s with memmap := fun i =>
    if i < maxMem then
      -- `addr_t` is `4096 * i` in the `i`-th round
      if BitVec.ofNat 64 (4096 * i) < physfree then ⟨BitVec.ofNat 64 (4096 * i), .busy, 1, false⟩
      else ⟨BitVec.ofNat 64 (4096 * i), .avail, 0, false⟩
    else s.memmap i}

@[irreducible] def memAllocate (s : Mem) : Word × Mem :=
  match (List.range maxMem).find? (fun i => (s.memmap i).resFlag == .avail) with
  | some i => ((s.memmap i).addr, s.take i)
  | none => (0, {s with handed := 0 :: s.handed})

/-- `int cnt = size/4096; if(size%4096>0) cnt++;` -/
def pageCount (size : Word) : BitVec 32 :=
  (size / 4096).setWidth 32 + (if size % 4096 > 0 then 1 else 0)

/-- Calls of `mem_allocate` whose result is dropped. -/
def memAllocateTimes : Nat → Mem → Mem
  | 0, s => s
  | n + 1, s => memAllocateTimes n (memAllocate s).2

def kmalloc (s : Mem) (size : Word) : Word × Mem :=
  if size > 0 then
    let first := memAllocate s
    (kernMem + first.1, memAllocateTimes ((pageCount size).toInt - 1).toNat first.2)
  else (0, s)

/-- The entry `mem_free` tries first. -/
def freeGuess (addr : Word) : Nat := ((addr - initialMem) / 4096).toNat

def memFree (s : Mem) (addr : Word) : Mem :=
  if freeGuess addr < maxMem then
    if (s.memmap (freeGuess addr)).addr = addr then
      s.setEntry (freeGuess addr) {s.memmap (freeGuess addr) with resFlag := .avail}
    else
      {s with memmap := fun i =>
        if i < maxMem ∧ (s.memmap i).addr = addr then {s.memmap i with resFlag := .avail} else s.memmap i}
  else {s with overrun := true}

def pageRoundoff4096 (addr : Word) : Word :=
  if addr % 4096 = 0 then addr
  else
    let newPgAddr := addr + (4096 - addr % 4096)
    if newPgAddr ≥ endLimit then 0 else newPgAddr

/-- The comparison `new_pg_addr<0` of the source is never true of an unsigned word. -/
def pageRoundless4096 (addr : Word) : Word :=
  if addr % 4096 = 0 then addr else addr - addr % 4096

/-- The mask `0xFFFFFFFFFFFFF000`. -/
def pageMask : Word := 0xFFFFFFFFFFFFF000

/-- The index of the entry it points at, or `none` for `NULL`. -/
def getPhysicalMemmap (s : Mem) (physical : Word) : Option Nat :=
  (List.range maxMem).find? fun i => (s.memmap i).addr == physical &&& pageMask

/-! ### Frame addresses -/

/-- The physical address of a frame. -/
def frameAddr (f : Nat) : Word := BitVec.ofNat 64 (4096 * f)

/-- The kernel address of a frame. -/
def framePtr (f : Nat) : Word := kernMem + frameAddr f

/-- `p[i]` for a `uint64_t *p`. -/
def index (p i : Word) : Word := p + 8 * i

theorem frameAddr_toNat {f : Nat} (h : f < 2 ^ 52) : (frameAddr f).toNat = 4096 * f := by
  simp only [frameAddr, BitVec.toNat_ofNat]
  omega

theorem frameAddr_inj {f g : Nat} (hf : f < 2 ^ 52) (hg : g < 2 ^ 52) (h : frameAddr f = frameAddr g) :
    f = g := by
  have := congrArg BitVec.toNat h
  rw [frameAddr_toNat hf, frameAddr_toNat hg] at this
  omega

theorem frameAddr_eq_zero {f : Nat} (hf : f < 2 ^ 52) : frameAddr f = 0 ↔ f = 0 := by
  constructor
  · intro h
    exact frameAddr_inj hf (by omega) (by rw [h]; rfl)
  · intro h
    subst h
    rfl

theorem pageMask_eq : pageMask = highMask 12 := by decide

theorem toNat_and_pageMask (x : Word) : (x &&& pageMask).toNat = x.toNat / 4096 * 4096 := by
  rw [pageMask_eq]
  exact toNat_and_highMask x 12

private theorem framePtr_sub (f : Nat) (i : Word) : index (framePtr f) i - kernMem = frameAddr f + 8 * i := by
  unfold index framePtr
  bv_omega

private theorem framePtr_sub_toNat {f : Nat} {i : Word} (hf : f < 2 ^ 52) (hi : i.toNat < 512) :
    (index (framePtr f) i - kernMem).toNat = 4096 * f + 8 * i.toNat := by
  have h8 : (8 : Word).toNat = 8 := rfl
  rw [framePtr_sub, BitVec.toNat_add, BitVec.toNat_mul, frameAddr_toNat (by omega), h8]
  omega

theorem frameOf_index {f : Nat} {i : Word} (hf : f < 2 ^ 52) (hi : i.toNat < 512) :
    Mem.frameOf (index (framePtr f) i) = f := by
  rw [Mem.frameOf, framePtr_sub_toNat hf hi]
  omega

theorem slotOf_index {f : Nat} {i : Word} (hf : f < 2 ^ 52) (hi : i.toNat < 512) :
    Mem.slotOf (index (framePtr f) i) = ⟨i.toNat, hi⟩ := by
  apply Fin.ext
  simp only [Mem.slotOf, framePtr_sub_toNat hf hi]
  omega

theorem load_index (s : Mem) {f : Nat} {i : Word} (hf : f < 2 ^ 52) (hi : i.toNat < 512) :
    s.load (index (framePtr f) i) = s.phys f ⟨i.toNat, hi⟩ := by
  rw [Mem.load, frameOf_index hf hi, slotOf_index hf hi]

theorem store_index (s : Mem) {f : Nat} {i : Word} (hf : f < 2 ^ 52) (hi : i.toNat < 512) (w : Word) :
    s.store (index (framePtr f) i) w = {s with phys := writeEntry s.phys f ⟨i.toNat, hi⟩ w} := by
  rw [Mem.store, frameOf_index hf hi, slotOf_index hf hi]

@[simp] theorem store_handed (s : Mem) (p w : Word) : (s.store p w).handed = s.handed := rfl
@[simp] theorem store_overrun (s : Mem) (p w : Word) : (s.store p w).overrun = s.overrun := rfl
@[simp] theorem take_phys (s : Mem) (i : Nat) : (s.take i).phys = s.phys := rfl

theorem pageRoundoff4096_toNat (a : Word) : (pageRoundoff4096 a).toNat =
    if a.toNat % 4096 = 0 then a.toNat
    else if a.toNat + (4096 - a.toNat % 4096) < endLimit.toNat then a.toNat + (4096 - a.toNat % 4096) else 0 := by
  have hmod : (a % 4096).toNat = a.toNat % 4096 := rfl
  have hz : a % 4096 = 0 ↔ a.toNat % 4096 = 0 := by
    rw [← hmod]
    exact ⟨fun h => by rw [h]; rfl, fun h => BitVec.eq_of_toNat_eq h⟩
  have hend : endLimit.toNat = 0x7ffe000 := rfl
  have ha := a.isLt
  unfold pageRoundoff4096
  dsimp only
  by_cases hzero : a.toNat % 4096 = 0
  · rw [if_pos (hz.mpr hzero), if_pos hzero]
  · have hup : (4096 - a % 4096).toNat = 4096 - a.toNat % 4096 := by
      rw [BitVec.toNat_sub_of_le (by rw [BitVec.le_def, hmod]; exact Nat.le_of_lt (Nat.mod_lt _ (by decide))), hmod]
      rfl
    have hadd : (a + (4096 - a % 4096)).toNat = (a.toNat + (4096 - a.toNat % 4096)) % 2 ^ 64 := by
      rw [BitVec.toNat_add, hup]
    rw [if_neg (mt hz.mp hzero), if_neg hzero]
    by_cases hlim : a + (4096 - a % 4096) ≥ endLimit
    · rw [if_pos hlim]
      rw [ge_iff_le, BitVec.le_def, hadd] at hlim
      rw [if_neg (by omega)]
      rfl
    · rw [if_neg hlim, hadd]
      rw [ge_iff_le, BitVec.le_def, hadd] at hlim
      split
      · omega
      · omega

/-! ### The allocator -/

/-- Every entry of the table describes the frame of its index. -/
def Addressed (s : Mem) : Prop := ∀ i < maxMem, (s.memmap i).addr = frameAddr i

theorem Addressed.of_memmap {s s' : Mem} (h : Addressed s) (he : s'.memmap = s.memmap) : Addressed s' := by
  intro i hi
  rw [he]
  exact h i hi

theorem initMemmap_addressed (s : Mem) (physfree : Word) : Addressed (initMemmap s physfree) := by
  intro i hi
  simp only [initMemmap, if_pos hi]
  split <;> rfl

/-- `mem_allocate` either takes the first available frame or returns zero. -/
theorem memAllocate_cases (s : Mem) :
    (∃ f, s.Avail f ∧ (∀ j < f, ¬ s.Avail j) ∧ memAllocate s = ((s.memmap f).addr, s.take f)) ∨
      ((∀ j, ¬ s.Avail j) ∧ memAllocate s = (0, {s with handed := 0 :: s.handed})) := by
  unfold memAllocate
  cases hfind : (List.range maxMem).find? (fun i => (s.memmap i).resFlag == .avail) with
  | some f =>
    left
    rw [List.find?_range_eq_some] at hfind
    obtain ⟨hf, hmem, hbefore⟩ := hfind
    refine ⟨f, ⟨List.mem_range.mp hmem, by simpa using hf⟩, ?_, rfl⟩
    intro j hj hav
    have := hbefore j hj
    simp [hav.2] at this
  | none =>
    right
    refine ⟨?_, rfl⟩
    intro j hav
    rw [List.find?_eq_none] at hfind
    exact hfind j (List.mem_range.mpr hav.1) (by simp [hav.2])

/-- `mem_allocate` succeeds: the first available frame, whose address is not zero. -/
theorem memAllocate_ok {s : Mem} (hs : Addressed s) (h : 0 ∉ (memAllocate s).2.handed) :
    ∃ f, 0 < f ∧ s.Avail f ∧ (∀ j < f, ¬ s.Avail j) ∧ memAllocate s = (frameAddr f, s.take f) := by
  have hmax := maxMem_lt
  rcases memAllocate_cases s with ⟨f, hav, hbefore, heq⟩ | ⟨_, heq⟩
  · rw [hs f hav.1] at heq
    refine ⟨f, ?_, hav, hbefore, heq⟩
    rcases Nat.eq_zero_or_pos f with rfl | hpos
    · rw [heq] at h
      simp [Mem.take, hs 0 hav.1, frameAddr] at h
    · exact hpos
  · rw [heq] at h
    simp at h

theorem take_addressed {s : Mem} (hs : Addressed s) (f : Nat) : Addressed (s.take f) := by
  intro i hi
  by_cases he : i = f
  · subst he
    simp [Mem.take, hs i hi]
  · simp [Mem.take, Function.update_of_ne he, hs i hi]

theorem take_avail (s : Mem) (f i : Nat) : (s.take f).Avail i ↔ s.Avail i ∧ i ≠ f := by
  by_cases he : i = f
  · subst he
    simp [Mem.Avail, Mem.take]
  · simp [Mem.Avail, Mem.take, he]

/-- Counts and flags say nothing about where a frame is or whether it is available. -/
theorem count_other (s : Mem) (i : Nat) (refCnt : Int) (cowFlag : Bool) (j : Nat) :
    ((s.count i refCnt cowFlag).memmap j).addr = (s.memmap j).addr ∧
      ((s.count i refCnt cowFlag).memmap j).resFlag = (s.memmap j).resFlag := by
  by_cases he : j = i
  · subst he
    simp [Mem.count, Mem.setEntry]
  · simp [Mem.count, Mem.setEntry, Function.update_of_ne he]

theorem count_avail (s : Mem) (i : Nat) (refCnt : Int) (cowFlag : Bool) (j : Nat) :
    (s.count i refCnt cowFlag).Avail j ↔ s.Avail j := by
  rw [Mem.Avail, (count_other s i refCnt cowFlag j).2, Mem.Avail]

theorem take_refCnt_other (s : Mem) {f i : Nat} (h : i ≠ f) :
    (s.take f).memmap i = s.memmap i := by
  simp [Mem.take, Function.update_of_ne h]

theorem take_refCnt_same (s : Mem) (f : Nat) :
    ((s.take f).memmap f).refCnt = (s.memmap f).refCnt + 1 := by
  simp [Mem.take]

theorem memAllocate_length (s : Mem) : (memAllocate s).2.handed.length = s.handed.length + 1 := by
  rcases memAllocate_cases s with ⟨f, _, _, heq⟩ | ⟨_, heq⟩
  · rw [heq]
    rfl
  · rw [heq]
    rfl

@[simp] theorem memAllocate_overrun (s : Mem) : (memAllocate s).2.overrun = s.overrun := by
  obtain ⟨f, _, _, heq⟩ | ⟨_, heq⟩ := memAllocate_cases s
  · rw [heq]
    rfl
  · rw [heq]

theorem memAllocate_addressed {s : Mem} (hs : Addressed s) : Addressed (memAllocate s).2 := by
  rcases memAllocate_cases s with ⟨f, _, _, heq⟩ | ⟨_, heq⟩ <;> rw [heq]
  · exact take_addressed hs f
  · exact hs.of_memmap rfl

@[simp] theorem memFree_handed (s : Mem) (addr : Word) : (memFree s addr).handed = s.handed := by
  unfold memFree
  split_ifs <;> rfl

@[simp] theorem memFree_phys (s : Mem) (addr : Word) : (memFree s addr).phys = s.phys := by
  unfold memFree
  split_ifs <;> rfl

/-- The first index of `mem_free` is in the table. -/
def InMemmap (addr : Word) : Prop := initialMem ≤ addr ∧ addr.toNat < 100000 + 4096 * maxMem

instance (addr : Word) : Decidable (InMemmap addr) := by unfold InMemmap; infer_instance

theorem freeGuess_lt_iff (addr : Word) : freeGuess addr < maxMem ↔ InMemmap addr := by
  have hinit : initialMem.toNat = 100000 := rfl
  have hmax : maxMem = 32510 := rfl
  have hlt := addr.isLt
  have hguess : freeGuess addr = (addr.toNat + (2 ^ 64 - 100000)) % 2 ^ 64 / 4096 := by
    show ((addr - initialMem) / 4096).toNat = _
    rw [BitVec.toNat_udiv, BitVec.toNat_sub, hinit]
    show ((2 ^ 64 - 100000 + addr.toNat) % 2 ^ 64) / 4096 = _
    rw [Nat.add_comm]
  rw [hguess, InMemmap, BitVec.le_def, hinit]
  omega

/-- A run that has gone past the table does not come back. -/
theorem memFree_overrun (s : Mem) (addr : Word) :
    (memFree s addr).overrun = (s.overrun || decide ¬ InMemmap addr) := by
  unfold memFree
  by_cases h : InMemmap addr
  · rw [if_pos ((freeGuess_lt_iff addr).mpr h), decide_eq_false (not_not.mpr h), Bool.or_false]
    split_ifs <;> rfl
  · rw [if_neg (mt (freeGuess_lt_iff addr).mp h), decide_eq_true h, Bool.or_true]

/-! ### The primitive steps of the memory code

Every function below changes memory by these steps only: it takes frames from the
pool, stores words, frees odd addresses (page-table entries with their present bit
set), and changes counts and flags of a `memmap` entry. What holds of each step
holds of every function. -/

inductive Steps (s : Mem) : Mem → Prop where
  | refl : Steps s s
  | allocate {t : Mem} : Steps s t → Steps s (memAllocate t).2
  | store {t : Mem} (p w : Word) : Steps s t → Steps s (t.store p w)
  | free {t : Mem} {e : Word} : e.toNat % 2 = 1 → Steps s t → Steps s (memFree t e)
  | count {t : Mem} (i : Nat) (refCnt : Int) (cowFlag : Bool) : Steps s t →
      Steps s (t.count i refCnt cowFlag)

theorem Steps.trans {a b c : Mem} (h : Steps a b) (h' : Steps b c) : Steps a c := by
  induction h' with
  | refl => exact h
  | allocate _ ih => exact ih.allocate
  | store p w _ ih => exact ih.store p w
  | free he _ ih => exact ih.free he
  | count i n f _ ih => exact ih.count i n f

/-- Nothing that was handed out is forgotten. -/
theorem Steps.handed {s t : Mem} (h : Steps s t) : s.handed <:+ t.handed := by
  induction h with
  | refl => exact List.suffix_refl _
  | @allocate t _ ih =>
    rcases memAllocate_cases t with ⟨f, _, _, heq⟩ | ⟨_, heq⟩
    · rw [heq]
      exact ih.trans (List.suffix_cons _ _)
    · rw [heq]
      exact ih.trans (List.suffix_cons _ _)
  | store p w _ ih => exact ih
  | free he _ ih => rwa [memFree_handed]
  | count i n f _ ih => exact ih

/-- If no call has failed by now, none had failed before. -/
theorem Steps.ok {s t : Mem} (h : Steps s t) (h0 : 0 ∉ t.handed) : 0 ∉ s.handed :=
  fun hm => h0 (h.handed.subset hm)

theorem memAllocate_steps (s : Mem) : Steps s (memAllocate s).2 := .allocate .refl

theorem memAllocateTimes_steps (n : Nat) (s : Mem) : Steps s (memAllocateTimes n s) := by
  induction n generalizing s with
  | zero => exact .refl
  | succ n ih => exact (memAllocate_steps s).trans (ih _)

theorem kmalloc_steps (s : Mem) (size : Word) : Steps s (kmalloc s size).2 := by
  unfold kmalloc
  split
  · exact (memAllocate_steps s).trans (memAllocateTimes_steps _ _)
  · exact .refl

/-! ### Freeing an entry frees nothing

`mem_free` is only ever called on a page-table entry with its present bit set.
Such a value is odd, and every frame address is even. -/

theorem frameAddr_even (f : Nat) : (frameAddr f).toNat % 2 = 0 := by
  simp only [frameAddr, BitVec.toNat_ofNat]
  omega

theorem memFree_entry {s : Mem} (hs : Addressed s) {e : Word} (he : e.toNat % 2 = 1) :
    ∀ i < maxMem, (memFree s e).memmap i = s.memmap i := by
  have hne : ∀ i < maxMem, (s.memmap i).addr ≠ e := by
    intro i hi heq
    rw [hs i hi] at heq
    have := frameAddr_even i
    rw [heq] at this
    omega
  intro i hi
  unfold memFree
  split_ifs with hin hguess
  · exact absurd hguess (hne _ hin)
  · simp [hne i hi]
  · rfl

theorem getPhysicalMemmap_eq {s : Mem} (hs : Addressed s) {f : Nat} (hf : f < maxMem) {physical : Word}
    (hp : physical &&& pageMask = frameAddr f) : getPhysicalMemmap s physical = some f := by
  have hmax := maxMem_lt
  unfold getPhysicalMemmap
  rw [hp, List.find?_range_eq_some]
  refine ⟨by simp [hs f hf], List.mem_range.mpr hf, ?_⟩
  intro j hj
  have hjm : j < maxMem := hj.trans hf
  have hne : frameAddr j ≠ frameAddr f := fun he => by
    have := frameAddr_inj (by omega) (by omega) he
    omega
  simp [hs j hjm, hne]

end Sbnix.Memory
