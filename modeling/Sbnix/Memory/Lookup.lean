import Sbnix.Memory.Calls

/-! Finding the entry of a frame (`sys/memory.c`, lines 57 to 70 and 108 to 116).

`mem_free` tries the entry that would be the right one if the table began at
`INITIAL_MEM`, and searches the table if that entry has another address.
`get_physical_memmap` searches it at once. The table begins at address zero, and
nothing changes the addresses in it, so the first entry that `mem_free` tries is never
the right one (`freeGuess_misses`), and the search finds the entry with the index of the
frame. -/
namespace Sbnix.Memory
open Words Library

/-- A call of the allocator or of the copy-on-write code, or `mem_free` with any address. -/
inductive FrameOp where
  | call (c : Call)
  | memFree (addr : Word)

def performOp (s : Mem) : FrameOp → Option Mem
  | .call c => perform s c
  | .memFree addr => some (memFree s addr)

/-- The loop of `mem_free` alone. -/
def freeSearch (s : Mem) (addr : Word) : Mem :=
  {s with memmap := fun i =>
    if i < maxMem ∧ (s.memmap i).addr = addr then {s.memmap i with resFlag := .avail} else s.memmap i}

/-- The entry of a frame becomes available. -/
def release (s : Mem) (f : Nat) : Mem := s.setEntry f {s.memmap f with resFlag := .avail}

variable {s t : Mem} {a : Word}

/-! ### The addresses in the table -/

theorem memFree_addr (s : Mem) (a : Word) (i : Nat) : ((memFree s a).memmap i).addr = (s.memmap i).addr := by
  unfold memFree
  split_ifs
  · by_cases hi : i = freeGuess a
    · subst hi
      simp [Mem.setEntry]
    · simp [Mem.setEntry, hi]
  · dsimp only
    split
    · rfl
    · rfl
  · rfl

theorem Steps.addr (h : Steps s t) (i : Nat) : (t.memmap i).addr = (s.memmap i).addr := by
  induction h with
  | refl => rfl
  | @allocate t _ ih =>
    obtain ⟨f, _, _, heq⟩ | ⟨_, heq⟩ := memAllocate_cases t
    · rw [heq]
      by_cases hi : i = f
      · subst hi
        simpa [Mem.take] using ih
      · rw [take_refCnt_other t hi]
        exact ih
    · rw [heq]
      exact ih
  | store p w _ ih => exact ih
  | free _ _ ih => rw [memFree_addr, ih]
  | count j n f _ ih => rw [(count_other _ j n f i).1, ih]

theorem performOp_addressed {op : FrameOp} (hs : Addressed s) (h : performOp s op = some t) : Addressed t := by
  intro i hi
  cases op with
  | call c => rw [(perform_steps h).addr, hs i hi]
  | memFree addr =>
    obtain rfl := Option.some.inj h
    rw [memFree_addr, hs i hi]

/-! ### One lookup -/

theorem freeGuess_eq (hlo : initialMem ≤ a) : freeGuess a = (a.toNat - 100000) / 4096 := by
  have hsub : (a - initialMem).toNat = a.toNat - 100000 := BitVec.toNat_sub_of_le hlo
  show (a - initialMem).toNat / 4096 = _
  rw [hsub]

/-- The first try is 24 entries too low, or 25. -/
theorem freeGuess_lt (hlo : initialMem ≤ a) : freeGuess a < a.toNat / 4096 := by
  have hle : 100000 ≤ a.toNat := hlo
  rw [freeGuess_eq hlo]
  omega

theorem freeGuess_misses (hs : Addressed s) (hlo : initialMem ≤ a) (hhi : a.toNat < 4096 * maxMem) :
    (s.memmap (freeGuess a)).addr ≠ a := by
  have hguess := freeGuess_lt hlo
  have hmax := maxMem_lt
  rw [hs _ (by omega)]
  intro hc
  have haddr := congrArg BitVec.toNat hc
  rw [frameAddr_toNat (by omega)] at haddr
  omega

theorem addr_eq_iff (hs : Addressed s) {i : Nat} (hi : i < maxMem) :
    (s.memmap i).addr = a ↔ a.toNat % 4096 = 0 ∧ i = a.toNat / 4096 := by
  have hmax := maxMem_lt
  have hnat := frameAddr_toNat (f := i) (by omega)
  rw [hs i hi]
  constructor
  · rintro rfl
    rw [hnat]
    omega
  · rintro ⟨hzero, hidx⟩
    apply BitVec.eq_of_toNat_eq
    rw [hnat]
    omega

theorem freeSearch_eq (hs : Addressed s) (hhi : a.toNat < 4096 * maxMem) :
    freeSearch s a = if a.toNat % 4096 = 0 then release s (a.toNat / 4096) else s := by
  have hfound : ∀ i, (i < maxMem ∧ (s.memmap i).addr = a) ↔ a.toNat % 4096 = 0 ∧ i = a.toNat / 4096 := by
    intro i
    constructor
    · rintro ⟨hi, haddr⟩
      exact (addr_eq_iff hs hi).mp haddr
    · intro h
      have hi : i < maxMem := by omega
      exact ⟨hi, (addr_eq_iff hs hi).mpr h⟩
  unfold freeSearch
  simp only [hfound]
  by_cases hzero : a.toNat % 4096 = 0
  · rw [if_pos hzero]
    unfold release Mem.setEntry
    congr 1
    funext i
    by_cases hi : i = a.toNat / 4096
    · subst hi
      simp [hzero]
    · simp [hi]
  · simp [hzero]

theorem memFree_eq (hs : Addressed s) (hlo : initialMem ≤ a) (hhi : a.toNat < 4096 * maxMem) :
    memFree s a = freeSearch s a := by
  rw [memFree, if_pos ((freeGuess_lt_iff a).mpr ⟨hlo, by omega⟩), if_neg (freeGuess_misses hs hlo hhi)]
  rfl

theorem getPhysicalMemmap_lookup (hs : Addressed s) (a : Word) :
    getPhysicalMemmap s a = if a.toNat < 4096 * maxMem then some (a.toNat / 4096) else none := by
  have hmax := maxMem_lt
  have hmask := toNat_and_pageMask a
  by_cases hhi : a.toNat < 4096 * maxMem
  · rw [if_pos hhi]
    refine getPhysicalMemmap_eq hs (by omega) (BitVec.eq_of_toNat_eq ?_)
    rw [hmask, frameAddr_toNat (by omega)]
    omega
  · rw [if_neg hhi]
    unfold getPhysicalMemmap
    rw [List.find?_eq_none]
    intro i hi
    have hlt := List.mem_range.mp hi
    have hne : ¬ (s.memmap i).addr = a &&& pageMask := by
      rw [addr_eq_iff hs hlt, hmask]
      omega
    simpa using hne

/-- After any calls, `mem_free` and `get_physical_memmap` find the entry with the index of the frame:
the first try of `mem_free` lies in the table and does not differ from the search. -/
theorem frame_lookups (s₀ : Mem) (physfree : Word) (ops : List FrameOp) (s : Mem)
    (hrun : run performOp (initMemmap s₀ physfree) ops = some s) :
    (∀ a : Word, initialMem ≤ a → a.toNat < 4096 * maxMem →
      freeGuess a < maxMem ∧ memFree s a = freeSearch s a ∧
        memFree s a = if a.toNat % 4096 = 0 then release s (a.toNat / 4096) else s) ∧
    ∀ a : Word, getPhysicalMemmap s a = if a.toNat < 4096 * maxMem then some (a.toNat / 4096) else none := by
  have hs : Addressed s := invariant_all (fun _ _ _ hs h => performOp_addressed hs h) (initMemmap_addressed s₀ physfree) hrun
  refine ⟨fun a hlo hhi => ?_, getPhysicalMemmap_lookup hs⟩
  have hguess := freeGuess_lt hlo
  have hsearch := memFree_eq hs hlo hhi
  refine ⟨by omega, hsearch, ?_⟩
  rw [hsearch]
  exact freeSearch_eq hs hhi

/-- Two allocations, and the frame of the first is freed. -/
theorem frame_lookups_boot :
    memFree (memAllocate (memAllocate bootMem).2).2 0x201000 =
        release (memAllocate (memAllocate bootMem).2).2 513 ∧
      getPhysicalMemmap (memAllocate (memAllocate bootMem).2).2 0x201234 = some 513 := by
  have hrun : run performOp bootMem [.call .memAllocate, .call .memAllocate] =
      some (memAllocate (memAllocate bootMem).2).2 := rfl
  obtain ⟨hfree, hlook⟩ := frame_lookups _ _ _ _ hrun
  exact ⟨(hfree 0x201000 (by decide) (by decide)).2.2, hlook 0x201234⟩

end Sbnix.Memory
