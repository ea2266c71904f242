import Sbnix.Memory.Frames

/-! The shape of the frame pool.

`mem_allocate` takes the first available frame and nothing ever gives one back
(`memFree_entry`), so the available frames are always those from some index on:
`Shape` is preserved by every primitive step, hence by every function
(`Steps.shape`). That is what makes the several allocations of one `kmalloc`
adjacent (`memAllocateTimes_shape`), and it counts what is left: as long as the
frames above the boundary cover the allocations made, none fails
(`Steps.enough`). -/
namespace Sbnix.Memory
open Words Library

/-- The frames available are those from `n` on, and every frame handed out lies
below `n` and was handed out once. -/
structure Shape (s : Mem) (n : Nat) : Prop where
  addressed : Addressed s
  pos : 0 < n
  avail : ∀ i < maxMem, s.Avail i ↔ n ≤ i
  bound : n ≤ maxMem
  below : ∀ a ∈ s.handed, ∃ f, 0 < f ∧ f < n ∧ a = frameAddr f
  nodup : s.handed.Nodup

variable {s t : Mem} {n : Nat}

theorem Shape.congr (h : Shape s n) (hm : ∀ i < maxMem, t.memmap i = s.memmap i)
    (hh : t.handed = s.handed) : Shape t n where
  addressed := fun i hi => by rw [hm i hi]; exact h.addressed i hi
  pos := h.pos
  avail := fun i hi => by rw [Mem.Avail, hm i hi]; exact h.avail i hi
  bound := h.bound
  below := by rw [hh]; exact h.below
  nodup := by rw [hh]; exact h.nodup

/-- Counts and flags play no part in the shape. -/
theorem Shape.count (h : Shape s n) (i : Nat) (refCnt : Int) (cowFlag : Bool) :
    Shape (s.count i refCnt cowFlag) n where
  addressed := fun j hj => by
    rw [(count_other s i refCnt cowFlag j).1]
    exact h.addressed j hj
  pos := h.pos
  avail := fun j hj => by
    rw [count_avail]
    exact h.avail j hj
  bound := h.bound
  below := h.below
  nodup := h.nodup

/-- The frame at the boundary is the one `mem_allocate` takes. -/
theorem Shape.allocate_eq (h : Shape s n) (hn : n < maxMem) :
    memAllocate s = (frameAddr n, s.take n) := by
  have havail : s.Avail n := (h.avail n hn).mpr (Nat.le_refl n)
  rcases memAllocate_cases s with ⟨f, hav, hbefore, heq⟩ | ⟨hnone, _⟩
  · have hle : n ≤ f := (h.avail f hav.1).mp hav
    have hf : f = n := by
      rcases Nat.lt_or_eq_of_le hle with hlt | he
      · exact absurd havail (hbefore n hlt)
      · exact he.symm
    rw [heq, h.addressed f hav.1, hf]
  · exact absurd havail (hnone n)

theorem Shape.take (h : Shape s n) (hn : n < maxMem) : Shape (s.take n) (n + 1) where
  addressed := take_addressed h.addressed n
  pos := by omega
  avail := fun i hi => by
    rw [take_avail, h.avail i hi]
    omega
  bound := hn
  below := fun a ha => by
    rcases List.mem_cons.mp ha with rfl | ha
    · exact ⟨n, h.pos, by omega, h.addressed n hn⟩
    · obtain ⟨f, hpos, hf, rfl⟩ := h.below a ha
      exact ⟨f, hpos, by omega, rfl⟩
  nodup := by
    have hmax := maxMem_lt
    refine List.nodup_cons.mpr ⟨?_, h.nodup⟩
    intro hmem
    obtain ⟨f, _, hf, he⟩ := h.below _ hmem
    rw [h.addressed n hn] at he
    have := frameAddr_inj (by omega) (by omega) he
    omega

theorem Shape.allocate (h : Shape s n) (hn : n < maxMem) : Shape (memAllocate s).2 (n + 1) := by
  rw [h.allocate_eq hn]
  exact h.take hn

/-- With no frame left `mem_allocate` returns zero. -/
theorem Shape.exhausted (h : Shape s n) (h0 : 0 ∉ (memAllocate s).2.handed) : n < maxMem := by
  obtain ⟨f, _, hav, _⟩ := memAllocate_ok h.addressed h0
  have := (h.avail f hav.1).mp hav
  have := hav.1
  omega

/-- A pool with the shape has never failed. -/
theorem Shape.ok (h : Shape s n) : 0 ∉ s.handed := by
  have hmax := maxMem_lt
  have hbound := h.bound
  intro hmem
  obtain ⟨f, hpos, hf, he⟩ := h.below 0 hmem
  have := (frameAddr_eq_zero (by omega)).mp he.symm
  omega

/-- Frames are handed out once each, so no more often than there are frames. -/
theorem Shape.length_le (h : Shape s n) : s.handed.length ≤ maxMem := by
  have hsub : s.handed ⊆ (List.range maxMem).map frameAddr := by
    intro a ha
    obtain ⟨f, _, hf, rfl⟩ := h.below a ha
    exact List.mem_map.mpr ⟨f, List.mem_range.mpr (by have := h.bound; omega), rfl⟩
  have hle := (h.nodup.subperm hsub).length_le
  rwa [List.length_map, List.length_range] at hle

/-- Every state the memory code can bring about has the shape. -/
theorem Steps.shape (hst : Steps s t) (h : Shape s n) (h0 : 0 ∉ t.handed) : ∃ m, n ≤ m ∧ Shape t m := by
  induction hst with
  | refl => exact ⟨n, Nat.le_refl n, h⟩
  | @allocate t _ ih =>
    obtain ⟨m, hm, ht⟩ := ih ((memAllocate_steps t).ok h0)
    exact ⟨m + 1, by omega, ht.allocate (ht.exhausted h0)⟩
  | store p w _ ih =>
    obtain ⟨m, hm, ht⟩ := ih h0
    exact ⟨m, hm, ht.congr (fun _ _ => rfl) rfl⟩
  | free he _ ih =>
    rw [memFree_handed] at h0
    obtain ⟨m, hm, ht⟩ := ih h0
    exact ⟨m, hm, ht.congr (memFree_entry ht.addressed he) (memFree_handed _ _)⟩
  | count i c f _ ih =>
    obtain ⟨m, hm, ht⟩ := ih h0
    exact ⟨m, hm, ht.count i c f⟩

/-- Allocations that the frames left can cover all succeed, and move the boundary
by their number. -/
theorem Steps.enough (hst : Steps s t) (h : Shape s n)
    (hroom : n + t.handed.length ≤ maxMem + s.handed.length) :
    Shape t (n + t.handed.length - s.handed.length) := by
  induction hst with
  | refl => simpa using h
  | @allocate t hst ih =>
    have hle := hst.handed.length_le
    rw [memAllocate_length] at hroom ⊢
    have hsh := ih (by omega)
    have hlt : n + t.handed.length - s.handed.length < maxMem := by omega
    have he : n + (t.handed.length + 1) - s.handed.length =
        n + t.handed.length - s.handed.length + 1 := by omega
    rw [he]
    exact hsh.allocate hlt
  | store p w _ ih => exact (ih hroom).congr (fun _ _ => rfl) rfl
  | free he _ ih =>
    rw [memFree_handed] at hroom ⊢
    have hsh := ih hroom
    exact hsh.congr (memFree_entry hsh.addressed he) (memFree_handed _ _)
  | count i c f _ ih => exact (ih hroom).count i c f

/-! ### The pool at boot -/

/-- The first frame at or above `physfree`. -/
def firstFree (physfree : Word) : Nat := min maxMem ((physfree.toNat + 4095) / 4096)

theorem initMemmap_shape (s : Mem) (physfree : Word) (hpos : 0 < physfree.toNat) (hnone : s.handed = []) :
    Shape (initMemmap s physfree) (firstFree physfree) where
  addressed := initMemmap_addressed s physfree
  pos := by
    have : 0 < maxMem := by decide
    unfold firstFree
    omega
  avail := fun i hi => by
    have hmax := maxMem_lt
    have haddr : (BitVec.ofNat 64 (4096 * i)).toNat = 4096 * i := frameAddr_toNat (by omega)
    simp only [Mem.Avail, initMemmap, if_pos hi, BitVec.lt_def, haddr, firstFree]
    by_cases hlt : 4096 * i < physfree.toNat
    · rw [if_pos hlt]
      simp only [reduceCtorEq, and_false, false_iff]
      omega
    · rw [if_neg hlt]
      simp only [and_true, hi, true_iff]
      omega
  bound := Nat.min_le_left _ _
  below := by
    intro a ha
    rw [show (initMemmap s physfree).handed = [] from hnone] at ha
    cases ha
  nodup := by
    rw [show (initMemmap s physfree).handed = [] from hnone]
    exact List.nodup_nil

/-- Zeroed memory with the pool as boot leaves it: the kernel image ends below
frame 513. -/
def bootMem : Mem := initMemmap ⟨fun _ => ⟨0, .busy, 0, false⟩, fun _ _ => 0, [], false⟩ 0x201000

theorem bootMem_shape : Shape bootMem 513 := by
  have hfirst : firstFree 0x201000 = 513 := by decide
  rw [← hfirst]
  exact initMemmap_shape _ 0x201000 (by decide) rfl

/-- A few allocations from boot on do not exhaust the pool. -/
theorem bootMem_enough {t : Mem} (hst : Steps bootMem t) (hlen : t.handed.length ≤ 30000) :
    0 ∉ t.handed := by
  have hmax : maxMem = 32510 := rfl
  exact (hst.enough bootMem_shape (by omega)).ok

/-! ### Several allocations in a row -/

/-- The frames from `n` to `n + c` become busy; no other frame changes. -/
theorem memAllocateTimes_shape (c : Nat) (h : Shape s n) (hc : n + c ≤ maxMem) :
    Shape (memAllocateTimes c s) (n + c) := by
  induction c generalizing s n with
  | zero => exact h
  | succ c ih =>
    have := ih (h.allocate (by omega)) (by omega)
    rwa [Nat.add_right_comm] at this

theorem memAllocateTimes_memmap (c : Nat) (h : Shape s n) (hc : n + c ≤ maxMem) {i : Nat}
    (hi : i < n ∨ n + c ≤ i) : (memAllocateTimes c s).memmap i = s.memmap i := by
  induction c generalizing s n with
  | zero => rfl
  | succ c ih =>
    rw [memAllocateTimes, ih (h.allocate (by omega)) (by omega) (by omega), h.allocate_eq (by omega)]
    exact take_refCnt_other s (by omega)

theorem memAllocateTimes_handed (c : Nat) (h : Shape s n) (hroom : n + c ≤ maxMem) {i : Nat} (hlo : n ≤ i)
    (hhi : i < n + c) : frameAddr i ∈ (memAllocateTimes c s).handed := by
  induction c generalizing s n with
  | zero => omega
  | succ c ih =>
    have hnext := h.allocate (by omega)
    rw [memAllocateTimes]
    rcases Nat.eq_or_lt_of_le hlo with he | hlt
    · have hmem : frameAddr i ∈ (memAllocate s).2.handed := by
        rw [h.allocate_eq (by omega), ← he]
        exact List.mem_cons.mpr (Or.inl (h.addressed n (by omega)).symm)
      exact (memAllocateTimes_steps c _).handed.subset hmem
    · exact ih hnext (by omega) (by omega) (by omega)

/-- The `int` count of pages is the number of pages a size needs. -/
theorem pageCount_eq {size : Word} (h : (size.toNat + 4095) / 4096 ≤ maxMem) :
    (pageCount size).toInt = ((size.toNat + 4095) / 4096 : Nat) := by
  have hmax := maxMem_lt
  have hdiv : (size / 4096).toNat = size.toNat / 4096 := rfl
  have hmod : (size % 4096).toNat = size.toNat % 4096 := rfl
  have hgt : (size % 4096 > 0) ↔ 0 < size.toNat % 4096 := by
    rw [gt_iff_lt, BitVec.lt_def, hmod]
    rfl
  have hnat : (pageCount size).toNat = (size.toNat + 4095) / 4096 := by
    unfold pageCount
    rw [BitVec.toNat_add, BitVec.toNat_setWidth, hdiv]
    split
    · rename_i hpos
      have := hgt.mp hpos
      have hone : (1 : BitVec 32).toNat = 1 := rfl
      rw [hone]
      omega
    · rename_i hpos
      have := mt hgt.mpr hpos
      have hzero : (0 : BitVec 32).toNat = 0 := rfl
      rw [hzero]
      omega
  rw [BitVec.toInt_eq_toNat_of_lt (by omega), hnat]

/-- With enough frames left `kmalloc` takes the first ones, one after the other. -/
theorem Shape.kmalloc_eq (h : Shape s n) {size : Word} (hpos : 0 < size)
    (hroom : n + (size.toNat + 4095) / 4096 ≤ maxMem) :
    kmalloc s size = (framePtr n, memAllocateTimes ((size.toNat + 4095) / 4096) s) := by
  have hnat : 0 < size.toNat := by
    rw [BitVec.lt_def] at hpos
    exact hpos
  have hcount : ((pageCount size).toInt - 1).toNat + 1 = (size.toNat + 4095) / 4096 := by
    rw [pageCount_eq (by omega)]
    omega
  unfold kmalloc
  rw [if_pos hpos]
  dsimp only
  rw [← hcount, memAllocateTimes, h.allocate_eq (by omega)]
  rfl

end Sbnix.Memory
