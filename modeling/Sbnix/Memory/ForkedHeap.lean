import Sbnix.Memory.Heap

/-! The heap a child inherits.

`malloc` hands out `[bump_ptr, bump_ptr + size)` and moves the break behind it, so the
blocks of a process lie one after the other and reach up to its break. `sys_fork` gives
the child the parent's break rounded up by `page_roundoff_4096`, so that the first page
the child adds is none of those it shares. But the helper is made for physical
addresses: it returns zero where the rounded address is not below `END_LIMIT`, and every
heap lies above that. `heap_survives_fork` is the exact condition under which the child
does not hand out its parent's blocks again. -/
namespace Sbnix.Memory
open Words Library

/-- A process calls `malloc`: the block's address, and the process afterwards. -/
def mallocCall (p : Proc) (size : Word) : Word × Proc :=
  let m := malloc p.mem p.task.pml4eAddr p.heap size
  (m.ret, ⟨m.mem, {p.task with heap := m.heap}⟩)

/-- Calls of `malloc` in a row. A block is its address and the size asked for. -/
def mallocs : Proc → List Word → List (Word × Word) × Proc
  | p, [] => ([], p)
  | p, size :: sizes =>
    let m := mallocCall p size
    let rest := mallocs m.2 sizes
    ((m.1, size) :: rest.1, rest.2)

/-- The child of a process that calls `sys_fork`. -/
def forkCall (pml4e : Word) (p : Proc) : Proc :=
  let child := sysFork p.mem pml4e p.task
  ⟨child.2, child.1⟩

/-- The address is one of the block's. -/
def InBlock (v : Word) (b : Word × Word) : Prop := v - b.1 < b.2

def total (sizes : List Word) : Nat := (sizes.map BitVec.toNat).sum

@[simp] theorem total_nil : total [] = 0 := rfl

@[simp] theorem total_cons (size : Word) (sizes : List Word) : total (size :: sizes) = size.toNat + total sizes := by
  simp [total]

/-- The child's break is not below the parent's, and as far as the address space reaches
no block it obtains has an address in common with the given ones. -/
structure Inherits (parent : Proc) (blocks : List (Word × Word)) (child : Proc) : Prop where
  bump : parent.heap.bumpPtr ≤ child.heap.bumpPtr
  disjoint : ∀ sizes, child.heap.bumpPtr.toNat + total sizes ≤ 2 ^ 64 →
    ∀ b ∈ blocks, ∀ c ∈ (mallocs child sizes).1, ∀ v, ¬ (InBlock v b ∧ InBlock v c)

/-- The requests fit into the address space, and the break they lead to is aligned or
can be rounded up below `END_LIMIT`. -/
def Roundable (p : Proc) (sizes : List Word) : Prop :=
  let brk := p.heap.bumpPtr.toNat + total sizes
  brk < 2 ^ 64 ∧ (brk % 4096 = 0 ∨ brk + (4096 - brk % 4096) < endLimit.toNat)

variable {p : Proc} {v : Word}

/-! ### Where the blocks are -/

theorem mallocCall_ret (p : Proc) (size : Word) : (mallocCall p size).1 = p.heap.bumpPtr := rfl

/-- The one case in which the break does not move by the size is that it would move to
zero: then the second `sys_brk` is a question, too. -/
theorem mallocCall_bump (p : Proc) (size : Word) : (mallocCall p size).2.heap.bumpPtr =
    if p.heap.bumpPtr + size = 0 then p.heap.bumpPtr else p.heap.bumpPtr + size := by
  have hheap : (mallocCall p size).2.heap = brkHeap p.heap (p.heap.bumpPtr + size) := sysBrk_heap ..
  have hsize : p.heap.bumpPtr + size - p.heap.bumpPtr = size := by
    rw [BitVec.add_comm, BitVec.add_sub_cancel]
  rw [hheap, brkHeap, hsize]
  by_cases hz : p.heap.bumpPtr + size = 0
  · rw [if_pos hz, if_pos hz]
  · rw [if_neg hz, if_neg hz]
    by_cases hpos : size > 0
    · rw [if_pos hpos]
      split
      · rfl
      · rfl
    · have hnone : size = 0 := by
        apply BitVec.eq_of_toNat_eq
        exact Nat.le_zero.mp (BitVec.not_lt.mp hpos)
      rw [if_neg hpos, hnone]
      exact (BitVec.add_zero _).symm

theorem mallocCall_bump_toNat {size : Word} (h : p.heap.bumpPtr.toNat + size.toNat < 2 ^ 64) :
    (mallocCall p size).2.heap.bumpPtr.toNat = p.heap.bumpPtr.toNat + size.toNat := by
  have hadd : (p.heap.bumpPtr + size).toNat = p.heap.bumpPtr.toNat + size.toNat := by
    rw [BitVec.toNat_add, Nat.mod_eq_of_lt h]
  rw [mallocCall_bump]
  split
  · rename_i hz
    rw [hz] at hadd
    have hzero : (0 : Word).toNat = 0 := rfl
    omega
  · exact hadd

theorem inBlock_iff {b : Word × Word} (h : b.1.toNat + b.2.toNat ≤ 2 ^ 64) :
    InBlock v b ↔ b.1.toNat ≤ v.toNat ∧ v.toNat < b.1.toNat + b.2.toNat := by
  have hv := v.isLt
  have hb := b.1.isLt
  rw [InBlock, BitVec.lt_def, BitVec.toNat_sub]
  omega

/-- The break after calls that fit below the top of the address space. -/
theorem mallocs_bump (p : Proc) (sizes : List Word) (h : p.heap.bumpPtr.toNat + total sizes < 2 ^ 64) :
    (mallocs p sizes).2.heap.bumpPtr.toNat = p.heap.bumpPtr.toNat + total sizes := by
  induction sizes generalizing p with
  | nil => rfl
  | cons size sizes ih =>
    rw [total_cons] at h ⊢
    have hone : (mallocCall p size).2.heap.bumpPtr.toNat = p.heap.bumpPtr.toNat + size.toNat :=
      mallocCall_bump_toNat (by omega)
    show (mallocs (mallocCall p size).2 sizes).2.heap.bumpPtr.toNat = _
    rw [ih _ (by omega)]
    omega

/-- The blocks lie between the first break and the last. -/
theorem mallocs_within (p : Proc) (sizes : List Word) (h : p.heap.bumpPtr.toNat + total sizes ≤ 2 ^ 64)
    {b : Word × Word} (hb : b ∈ (mallocs p sizes).1) :
    p.heap.bumpPtr.toNat ≤ b.1.toNat ∧ b.1.toNat + b.2.toNat ≤ p.heap.bumpPtr.toNat + total sizes := by
  induction sizes generalizing p with
  | nil => cases hb
  | cons size sizes ih =>
    rw [total_cons] at h ⊢
    rcases List.mem_cons.mp hb with rfl | hb
    · rw [mallocCall_ret]
      dsimp only
      omega
    · by_cases htop : p.heap.bumpPtr.toNat + size.toNat < 2 ^ 64
      · have hone := mallocCall_bump_toNat htop
        have := ih (mallocCall p size).2 (by omega) hb
        omega
      · -- the block ends at the top; the rest are empty ones at the same break
        have hzero : p.heap.bumpPtr + size = 0 := by
          apply BitVec.eq_of_toNat_eq
          rw [BitVec.toNat_add]
          show _ = 0
          omega
        have hone := mallocCall_bump p size
        rw [if_pos hzero] at hone
        have := ih (mallocCall p size).2 (by rw [hone]; omega) hb
        rw [hone] at this
        omega

/-- There are no gaps between the blocks. -/
theorem mallocs_cover (p : Proc) (sizes : List Word) (hlo : p.heap.bumpPtr.toNat ≤ v.toNat)
    (hhi : v.toNat < p.heap.bumpPtr.toNat + total sizes) : ∃ b ∈ (mallocs p sizes).1, InBlock v b := by
  induction sizes generalizing p with
  | nil =>
    rw [total_nil] at hhi
    omega
  | cons size sizes ih =>
    have hv := v.isLt
    rw [total_cons] at hhi
    by_cases hin : v.toNat < p.heap.bumpPtr.toNat + size.toNat
    · refine ⟨(p.heap.bumpPtr, size), List.mem_cons_self .., ?_⟩
      rw [InBlock, BitVec.lt_def, BitVec.toNat_sub_of_le hlo]
      dsimp only
      omega
    · have hone : (mallocCall p size).2.heap.bumpPtr.toNat = p.heap.bumpPtr.toNat + size.toNat :=
        mallocCall_bump_toNat (by omega)
      obtain ⟨b, hb, hvb⟩ := ih (mallocCall p size).2 (by omega) (by omega)
      exact ⟨b, List.mem_cons_of_mem _ hb, hvb⟩

/-! ### The child's break -/

theorem forkCall_bump (pml4e : Word) (p : Proc) :
    (forkCall pml4e p).heap.bumpPtr = pageRoundoff4096 p.heap.bumpPtr := rfl

/-- For every process and whatever it has asked `malloc` for before it forks: the child's
heap begins behind the parent's blocks if and only if the requests are roundable. -/
theorem heap_survives_fork (pml4e : Word) (p : Proc) (sizes : List Word) :
    Inherits (mallocs p sizes).2 (mallocs p sizes).1 (forkCall pml4e (mallocs p sizes).2) ↔ Roundable p sizes := by
  have hend : endLimit.toNat = 0x7ffe000 := rfl
  have hchild := forkCall_bump pml4e (mallocs p sizes).2
  have hround := pageRoundoff4096_toNat (mallocs p sizes).2.heap.bumpPtr
  rw [← hchild] at hround
  constructor
  · intro h
    have hfits : p.heap.bumpPtr.toNat + total sizes < 2 ^ 64 := by
      by_contra htop
      -- otherwise both the parent and a greedy child own the last address
      generalize forkCall pml4e (mallocs p sizes).2 = child at h
      have hc := child.heap.bumpPtr.isLt
      have hp := p.heap.bumpPtr.isLt
      have hlast : (BitVec.allOnes 64).toNat = 2 ^ 64 - 1 := BitVec.toNat_allOnes
      have hmost : (BitVec.ofNat 64 (2 ^ 64 - 1 - child.heap.bumpPtr.toNat)).toNat =
          2 ^ 64 - 1 - child.heap.bumpPtr.toNat := by
        rw [BitVec.toNat_ofNat]
        omega
      have hsum : total [BitVec.ofNat 64 (2 ^ 64 - 1 - child.heap.bumpPtr.toNat), 1] =
          2 ^ 64 - child.heap.bumpPtr.toNat := by
        rw [total_cons, total_cons, total_nil, hmost]
        show _ + (1 + 0) = _
        omega
      obtain ⟨b, hb, hvb⟩ := mallocs_cover (v := BitVec.allOnes 64) p sizes (by omega) (by omega)
      obtain ⟨c, hc, hvc⟩ := mallocs_cover (v := BitVec.allOnes 64) child _ (by omega) (by rw [hsum]; omega)
      exact h.disjoint _ (by rw [hsum]; omega) b hb c hc _ ⟨hvb, hvc⟩
    refine ⟨hfits, ?_⟩
    have hbump := mallocs_bump p sizes hfits
    have hle : (mallocs p sizes).2.heap.bumpPtr.toNat ≤ (forkCall pml4e (mallocs p sizes).2).heap.bumpPtr.toNat := h.bump
    rw [hbump] at hround hle
    by_contra hnot
    rw [not_or] at hnot
    rw [if_neg hnot.1, if_neg hnot.2] at hround
    omega
  · intro h
    obtain ⟨hfits, hr⟩ := h
    have hbump := mallocs_bump p sizes hfits
    have hle : (mallocs p sizes).2.heap.bumpPtr.toNat ≤ (forkCall pml4e (mallocs p sizes).2).heap.bumpPtr.toNat := by
      rw [hround, hbump]
      split
      · exact Nat.le_refl _
      · split
        · omega
        · omega
    refine ⟨hle, fun sizes' hfits' b hb c hc v hv => ?_⟩
    have hbw := mallocs_within p sizes (by omega) hb
    have hcw := mallocs_within _ sizes' hfits' hc
    have hvb := (inBlock_iff (by omega)).mp hv.1
    have hvc := (inBlock_iff (by omega)).mp hv.2
    omega

/-- The first process asks for one byte and forks: the child's heap begins at zero. -/
theorem forked_break_zero :
    ∃ task s, createProcess bootMem (framePtr 1) [] = some (task, s) ∧
      (forkCall (framePtr 1) (mallocs ⟨s, task⟩ [1]).2).heap.bumpPtr = 0 ∧
      ¬ Inherits (mallocs ⟨s, task⟩ [1]).2 (mallocs ⟨s, task⟩ [1]).1 (forkCall (framePtr 1) (mallocs ⟨s, task⟩ [1]).2) := by
  obtain ⟨task, s, hcreate, hheap, _⟩ := createProcess_nil bootMem (framePtr 1)
  have hp : (⟨s, task⟩ : Proc).heap.bumpPtr = bumpStart := by
    show task.heap.bumpPtr = _
    rw [hheap]
  have hparent : (mallocs ⟨s, task⟩ [1]).2.heap.bumpPtr = bumpStart + 1 := by
    show (mallocCall ⟨s, task⟩ 1).2.heap.bumpPtr = _
    rw [mallocCall_bump, hp]
    decide
  have hchild : (forkCall (framePtr 1) (mallocs ⟨s, task⟩ [1]).2).heap.bumpPtr = 0 := by
    rw [forkCall_bump, hparent]
    decide
  refine ⟨task, s, hcreate, hchild, fun h => ?_⟩
  have hle := h.bump
  rw [hchild, hparent] at hle
  exact absurd hle (by decide)

end Sbnix.Memory
