import Sbnix.Memory.Calls
import Sbnix.Memory.Loading

/-! What processes cost.

`sys_exit` takes a task off its queue and gives nothing of it back, and `mem_free`, in the three places
that call it, is handed an entry of a page table, which is the address of no frame. So a frame that has
been handed out is lost to the pool, whatever becomes of its process, and the number of processes that a
system can have in all its life is bounded by the memory it starts with (`processes_bounded`). -/
namespace Sbnix.Memory
open Words Library

/-- What the running task asks the kernel for. -/
inductive Act where
  /-- Any of the functions that take frames, and page faults. -/
  | call (c : Call)
  | fork (pml4e : Word) (pproc : Task)
  /-- `sys_execve`: `create_process` and `sys_exit`. -/
  | execve (pml4e : Word) (segments : List Segment)
  /-- `sys_exit` touches no frame. -/
  | exit

def live (s : Mem) : Act → Option Mem
  | .call c => perform s c
  | .fork pml4e pproc => some (sysFork s pml4e pproc).2
  | .execve pml4e segments => (createProcess s pml4e segments).map Prod.snd
  | .exit => some s

/-- The frames of the `task_struct`, of the root and of `mm`. -/
def taskFrames : Nat := 12

def Act.makesTask : Act → Bool
  | .fork _ _ | .execve _ _ => true
  | _ => false

/-- The tasks made, and replaced. -/
def tasksMade (acts : List Act) : Nat := acts.countP Act.makesTask

variable {s t : Mem} {n : Nat} {a : Act} {acts : List Act}

/-! ### The pool only shrinks -/

/-- The boundary moves by one for every frame handed out, and by nothing else. -/
theorem Steps.boundary (hst : Steps s t) (h : Shape s n) (h0 : 0 ∉ t.handed) :
    Shape t (n + (t.handed.length - s.handed.length)) := by
  induction hst with
  | refl =>
    rw [Nat.sub_self]
    exact h
  | @allocate t hst ih =>
    have hle := hst.handed.length_le
    have ht := ih ((memAllocate_steps t).ok h0)
    rw [memAllocate_length, show t.handed.length + 1 - s.handed.length = t.handed.length - s.handed.length + 1 by omega,
      ← Nat.add_assoc]
    exact ht.allocate (ht.exhausted h0)
  | store p w _ ih => exact (ih h0).congr (fun _ _ => rfl) rfl
  | free he _ ih =>
    rw [memFree_handed] at h0 ⊢
    have ht := ih h0
    exact ht.congr (memFree_entry ht.addressed he) (memFree_handed _ _)
  | count i c f _ ih => exact (ih h0).count i c f

theorem Steps.length_le (h : Steps s t) : s.handed.length ≤ t.handed.length := h.handed.length_le

/-! ### One act -/

theorem sysFork_steps (s : Mem) (pml4e : Word) (pproc : Task) :
    Steps s (sysFork s pml4e pproc).2 ∧ s.handed.length + taskFrames ≤ (sysFork s pml4e pproc).2.handed.length := by
  have hcow := (cowWalkPages_steps (newRoot (newTask s) pml4e).2 pproc.pml4eAddr
    (kernMem + (newRoot (newTask s) pml4e).1)).length_le
  have hroot := newRoot_length (newTask s) pml4e
  have htask := newTask_length s
  have hmm := newMm_length (forkSpace (newTask s) pml4e pproc.pml4eAddr).2
  have hspace : (newRoot (newTask s) pml4e).2.handed.length ≤
      (forkSpace (newTask s) pml4e pproc.pml4eAddr).2.handed.length := hcow
  have hsteps : Steps s (newMm (forkSpace (newTask s) pml4e pproc.pml4eAddr).2) :=
    ((newTask_steps s).trans (forkSpace_steps _ _ _)).trans (newMm_steps _)
  unfold sysFork taskFrames
  dsimp only
  split
  · exact ⟨hsteps, by omega⟩
  · refine ⟨hsteps.allocate, ?_⟩
    rw [memAllocate_length]
    omega

theorem createProcess_length {pml4e : Word} {segs : List Segment} {task : Task}
    (h : createProcess s pml4e segs = some (task, t)) : s.handed.length + taskFrames ≤ t.handed.length := by
  unfold createProcess at h
  dsimp only at h
  obtain ⟨t', ht, he⟩ := Option.map_eq_some_iff.mp h
  obtain rfl : t' = t := (Prod.mk.inj he).2
  have hload := (elfLoad_steps _ _ _ _ _ _ t' ht).length_le
  have hstack := (kmallocUserSpace_steps (newMm (newRoot (newTask s) pml4e).2)
    ((newRoot (newTask s) pml4e).1 + kernMem) (stackMemTop - 4096) 4096).length_le
  rw [newMm_length, newRoot_length, newTask_length] at hstack
  unfold taskFrames
  omega

/-- Frames are taken, and for a new task at least those of its `task_struct`. -/
theorem live_steps (h : live s a = some t) :
    Steps s t ∧ s.handed.length + (if a.makesTask then taskFrames else 0) ≤ t.handed.length := by
  cases a with
  | call c =>
    have hsteps := perform_steps h
    exact ⟨hsteps, hsteps.length_le⟩
  | fork pml4e pproc =>
    obtain rfl := Option.some.inj h
    exact sysFork_steps s pml4e pproc
  | execve pml4e segments =>
    obtain ⟨⟨task, t'⟩, hcreate, rfl⟩ := Option.map_eq_some_iff.mp h
    exact ⟨createProcess_steps hcreate, createProcess_length hcreate⟩
  | exit =>
    obtain rfl := Option.some.inj h
    exact ⟨.refl, Nat.le_refl _⟩

theorem live_run (h : run live s acts = some t) :
    Steps s t ∧ s.handed.length + taskFrames * tasksMade acts ≤ t.handed.length := by
  induction acts generalizing s with
  | nil =>
    obtain rfl := Option.some.inj h
    exact ⟨.refl, Nat.le_refl _⟩
  | cons a rest ih =>
    obtain ⟨s₁, hs, hrest⟩ := run_cons_some h
    obtain ⟨hsteps, hlen⟩ := live_steps hs
    obtain ⟨hsteps', hlen'⟩ := ih hrest
    refine ⟨hsteps.trans hsteps', ?_⟩
    have hmade : tasksMade (a :: rest) = tasksMade rest + if a.makesTask then 1 else 0 := List.countP_cons
    rw [hmade, Nat.mul_add]
    split at hlen
    · rename_i ha
      rw [if_pos ha, Nat.mul_one]
      omega
    · rename_i ha
      rw [if_neg ha, Nat.mul_zero]
      omega

/-- In every run of the system, in which processes are made, replaced and end, and take memory, as long as
no allocation has failed: the frames left and those ever handed out are the frames there were at boot, so
none has come back; and all processes ever made have cost at least twelve frames each. -/
theorem processes_bounded (s₀ : Mem) (hnone : s₀.handed = []) (physfree : Word) (hfree : physfree > initialMem)
    (acts : List Act) (s : Mem) (hrun : run live (initMemmap s₀ physfree) acts = some s) (h0 : 0 ∉ s.handed) :
    availCount s + s.handed.length = availCount (initMemmap s₀ physfree) ∧
      taskFrames * tasksMade acts ≤ s.handed.length ∧
      tasksMade acts ≤ availCount (initMemmap s₀ physfree) / taskFrames := by
  have hpos : 0 < physfree.toNat := by
    rw [gt_iff_lt, BitVec.lt_def] at hfree
    omega
  have hshape := initMemmap_shape s₀ physfree hpos hnone
  have hempty : (initMemmap s₀ physfree).handed = [] := hnone
  obtain ⟨hsteps, hlen⟩ := live_run hrun
  have hend := hsteps.boundary hshape h0
  rw [hempty, List.length_nil] at hend hlen
  have hbound := hend.bound
  have htotal : availCount s + s.handed.length = availCount (initMemmap s₀ physfree) := by
    rw [hend.availCount_eq, hshape.availCount_eq]
    omega
  refine ⟨htotal, by omega, ?_⟩
  rw [Nat.le_div_iff_mul_le (by decide), Nat.mul_comm]
  omega

/-- A program is replaced by an empty one, which exits. -/
theorem processes_bounded_execve :
    ∃ s, run live bootMem [.execve 0 [], .exit] = some s ∧ availCount s + s.handed.length = availCount bootMem ∧
      taskFrames * 1 ≤ s.handed.length ∧ 1 ≤ availCount bootMem / taskFrames := by
  obtain ⟨task, t, hcreate, _, hlen⟩ := createProcess_nil bootMem 0
  have hempty : bootMem.handed = [] := rfl
  rw [hempty, List.length_nil] at hlen
  have hrun : run live bootMem [.execve 0 [], .exit] = some t := by
    simp only [run, live, hcreate, Option.map_some, Option.bind_some]
  have hmade : tasksMade [.execve 0 [], .exit] = 1 := rfl
  have hall := processes_bounded ⟨fun _ => ⟨0, .busy, 0, false⟩, fun _ _ => 0, [], false⟩ rfl 0x201000 (by decide)
    [.execve 0 [], .exit] t hrun (bootMem_enough (createProcess_steps hcreate) (by omega))
  rw [hmade, ← bootMem] at hall
  exact ⟨t, hrun, hall⟩

end Sbnix.Memory
