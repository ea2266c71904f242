import Sbnix.Memory.Pool
import Sbnix.Memory.Process
import Sbnix.Library.Run

/-! The frame pool over every sequence of calls.

A call is any of the functions that take frames, with any arguments at all: the
pool keeps its shape whatever tables they are pointed at (`run_shape`), so the frames of
one `kmalloc` are always adjacent (`kmalloc_contiguous`). -/
namespace Sbnix.Memory
open Words Library

inductive Call where
  | memAllocate
  | kmalloc (size : Word)
  | pageInsert (pml4e logical physical : Word)
  | kmallocUserSpace (pml4e logical size : Word)
  | allocate (pml4e addr : Word) (len : BitVec 32)
  | sysBrk (pml4e : Word) (heap : HeapMem) (bumpAddr : Word)
  | cowWalkPages (pml4e pml4eChild : Word)
  | pageFault (exitReturns : Bool) (pml4e logical error : Word)

/-- The memory after a call; none if the call does not come back. -/
def perform (s : Mem) : Call → Option Mem
  | .memAllocate => some (memAllocate s).2
  | .kmalloc size => some (kmalloc s size).2
  | .pageInsert pml4e logical physical => some (pageInsert s pml4e logical physical)
  | .kmallocUserSpace pml4e logical size => some (kmallocUserSpace s pml4e logical size)
  | .allocate pml4e addr len => some (allocate s pml4e addr len)
  | .sysBrk pml4e heap bumpAddr => some (sysBrk s pml4e heap bumpAddr).mem
  | .cowWalkPages pml4e pml4eChild => some (returned (cowWalkPages s pml4e pml4eChild))
  | .pageFault exitReturns pml4e logical error => (pageFault exitReturns s pml4e logical error).mem

variable {s t : Mem} {n : Nat}

theorem perform_steps {c : Call} (h : perform s c = some t) : Steps s t := by
  cases c with
  | memAllocate =>
    obtain rfl := Option.some.inj h
    exact memAllocate_steps s
  | kmalloc size =>
    obtain rfl := Option.some.inj h
    exact kmalloc_steps s size
  | pageInsert pml4e logical physical =>
    obtain rfl := Option.some.inj h
    exact pageInsert_steps ..
  | kmallocUserSpace pml4e logical size =>
    obtain rfl := Option.some.inj h
    exact kmallocUserSpace_steps ..
  | allocate pml4e addr len =>
    obtain rfl := Option.some.inj h
    exact allocate_steps ..
  | sysBrk pml4e heap bumpAddr =>
    obtain rfl := Option.some.inj h
    exact sysBrk_steps ..
  | cowWalkPages pml4e pml4eChild =>
    obtain rfl := Option.some.inj h
    exact cowWalkPages_steps ..
  | pageFault exitReturns pml4e logical error => exact pageFault_steps exitReturns s pml4e logical error t h

theorem run_steps {calls : List Call} (h : run perform s calls = some t) : Steps s t :=
  @invariant_all _ _ perform (Steps s) (fun _ _ _ hu hc => hu.trans (perform_steps hc)) _ _ _ Steps.refl h

/-- The number of frames left. -/
def availCount (s : Mem) : Nat := ((List.range maxMem).filter fun i => s.Avail i).length

theorem Shape.availCount_eq (h : Shape s n) : availCount s = maxMem - n := by
  have hfilter : (List.range maxMem).filter (fun i => s.Avail i) = (List.range maxMem).filter (fun i => n ≤ i) := by
    apply List.filter_congr
    intro i hi
    simp only [h.avail i (List.mem_range.mp hi)]
  have hsplit : ∀ m, ((List.range m).filter (fun i => n ≤ i)).length = m - n := by
    intro m
    induction m with
    | zero => simp
    | succ m ih =>
      rw [List.range_succ, List.filter_append, List.length_append, ih]
      by_cases hm : n ≤ m
      · simp [hm]
        omega
      · simp [hm]
        omega
  rw [availCount, hfilter, hsplit]

/-- The frame pool over every run: the available frames are a final stretch of the
table, no frame was handed out twice, and `kmalloc` returns adjacent frames that
nobody else has. -/
theorem kmalloc_contiguous (s₀ : Mem) (hnone : s₀.handed = []) (physfree : Word) (hfree : physfree > initialMem)
    (calls : List Call) (s : Mem) (hrun : run perform (initMemmap s₀ physfree) calls = some s)
    (h0 : 0 ∉ s.handed) :
    ∃ n ≤ maxMem, (∀ i < maxMem, s.Avail i ↔ n ≤ i) ∧ s.handed.Nodup ∧
      ∀ size : Word, 0 < size → ∀ c, c = (size.toNat + 4095) / 4096 → c ≤ availCount s →
        (kmalloc s size).1 = kernMem + BitVec.ofNat 64 (4096 * n) ∧
        (∀ i < maxMem, (s.Avail i ∧ ¬ (kmalloc s size).2.Avail i) ↔ n ≤ i ∧ i < n + c) ∧
        (∀ i, ¬ (n ≤ i ∧ i < n + c) → (kmalloc s size).2.memmap i = s.memmap i) ∧
        (∀ i, n ≤ i → i < n + c → frameAddr i ∉ s.handed ∧ frameAddr i ∈ (kmalloc s size).2.handed) ∧
        0 ∉ (kmalloc s size).2.handed ∧ (kmalloc s size).2.handed.Nodup := by
  have hpos : 0 < physfree.toNat := by
    rw [gt_iff_lt, BitVec.lt_def] at hfree
    omega
  obtain ⟨n, _, hshape⟩ := (run_steps hrun).shape (initMemmap_shape s₀ physfree hpos hnone) h0
  refine ⟨n, hshape.bound, hshape.avail, hshape.nodup, ?_⟩
  intro size hsize c hc hroom
  have hmax := maxMem_lt
  have hbound := hshape.bound
  rw [hshape.availCount_eq] at hroom
  have hkmalloc : kmalloc s size = (framePtr n, memAllocateTimes c s) := by
    rw [hc]
    exact hshape.kmalloc_eq hsize (by omega)
  have hafter : Shape (memAllocateTimes c s) (n + c) := memAllocateTimes_shape c hshape (by omega)
  rw [hkmalloc]
  refine ⟨rfl, fun i hi => ?_, fun i hi => ?_, fun i hlo hhi => ⟨fun hmem => ?_, ?_⟩, hafter.ok, hafter.nodup⟩
  · rw [hshape.avail i hi, hafter.avail i hi]
    omega
  · exact memAllocateTimes_memmap c hshape (by omega) (by omega)
  · obtain ⟨f, _, hf, he⟩ := hshape.below _ hmem
    have := frameAddr_inj (by omega) (by omega) he
    omega
  · exact memAllocateTimes_handed c hshape (by omega) hlo hhi

/-- Two pages after an allocation and another `kmalloc`. -/
theorem kmalloc_contiguous_boot :
    ∃ s n, run perform bootMem [.memAllocate, .kmalloc 8192] = some s ∧
      (kmalloc s 5000).1 = kernMem + BitVec.ofNat 64 (4096 * n) ∧
      ∀ i < maxMem, (s.Avail i ∧ ¬ (kmalloc s 5000).2.Avail i) ↔ n ≤ i ∧ i < n + 2 := by
  have hmax : maxMem = 32510 := rfl
  have hone : Shape (memAllocate bootMem).2 514 := bootMem_shape.allocate (by decide)
  have hsize : ((8192 : Word).toNat + 4095) / 4096 = 2 := by decide
  have hshape : Shape (kmalloc (memAllocate bootMem).2 8192).2 516 := by
    rw [hone.kmalloc_eq (by decide) (by rw [hsize]; decide), hsize]
    exact memAllocateTimes_shape 2 hone (by decide)
  have hrun : run perform bootMem [.memAllocate, .kmalloc 8192] =
      some (kmalloc (memAllocate bootMem).2 8192).2 := by
    simp only [run, perform, Option.bind_some]
  obtain ⟨n, _, _, _, hk⟩ := kmalloc_contiguous ⟨fun _ => ⟨0, .busy, 0, false⟩, fun _ _ => 0, [], false⟩ rfl 0x201000
    (by decide) [.memAllocate, .kmalloc 8192] _ hrun hshape.ok
  obtain ⟨hptr, hbusy, _⟩ := hk 5000 (by decide) 2 (by decide) (by rw [hshape.availCount_eq]; decide)
  exact ⟨_, n, hrun, hptr, hbusy⟩

end Sbnix.Memory
