import Sbnix.Memory.Mmu

/-! Processes: their creation, their copy and their heap (`sys/process.c`,
`sys/fork.c`, `sys/elf.c`, `sys/malloc.c`, `libc/malloc.c`).

Of a task the memory code uses the root of its tables, the heap record and the number
of its areas. The list of areas (`vma`) has one frame, and `allocate_vma` puts each area
right behind the one before it, with no bound: 73 fit. A load that needs more has no
result here. No function reads what is in an area but to copy it, and `sys_fork`, which
copies no more of them than there are, appears with the frame of its list only. -/
namespace Sbnix.Memory
open Words Library

/-- `BUMP_PTR`, where heaps start. -/
def bumpStart : Word := 0xffffff0f80000000
def stackMemTop : Word := 0xf0000000

/-- `struct heap_mem`; `end_addr` is never used. -/
structure HeapMem where
  bumpPtr : Word
  remSize : Word
  deriving DecidableEq

structure Task where
  cr3Address : Word
  pml4eAddr : Word
  heap : HeapMem
  /-- The length of `mm->vma_addr`. -/
  areas : Nat

/-! ### `sys_brk` and `malloc` -/

/-- The loop of `sys_brk`: `n` pages from `logical` on, each adding to `rem_size`. -/
def brkPages (pml4e : Word) : Nat → Word → Word → Mem → Word × Mem
  | 0, _, remSize, s => (remSize, s)
  | n + 1, logical, remSize, s =>
    let page := memAllocate s
    let pte := walkPages page.2 pml4e logical
    let s := (freePresent pte.2 pte.1).store pte.1 (page.1 ||| pagePerm)
    brkPages pml4e n (logical + 4096) (remSize + 4096) s

/-- The number of pages `sys_brk` adds for a request of `size` bytes. The test is on
the whole request, not on what is missing of it. -/
def blkCnt (heap : HeapMem) (size : Word) : Word :=
  (size - heap.remSize) / 4096 + (if size % 4096 > 0 then 1 else 0)

structure Brk where
  ret : Word
  heap : HeapMem
  mem : Mem

def sysBrk (s : Mem) (pml4e : Word) (heap : HeapMem) (bumpAddr : Word) : Brk :=
  if bumpAddr = 0 then ⟨heap.bumpPtr, heap, s⟩
  else
    let size := bumpAddr - heap.bumpPtr
    if size > 0 then
      if heap.remSize > size then
        ⟨heap.bumpPtr, ⟨heap.bumpPtr + size, heap.remSize - size⟩, s⟩
      else
        let added := brkPages pml4e (blkCnt heap size).toNat (heap.bumpPtr + heap.remSize) heap.remSize s
        ⟨heap.bumpPtr, ⟨heap.bumpPtr + size, added.1 - size⟩, added.2⟩
    else ⟨0, heap, s⟩

/-- `malloc`: ask for the break, then move it. -/
def malloc (s : Mem) (pml4e : Word) (heap : HeapMem) (size : Word) : Brk :=
  let start := sysBrk s pml4e heap 0
  let moved := sysBrk start.mem pml4e start.heap (start.ret + size)
  ⟨start.ret, moved.heap, moved.mem⟩

/-! ### `create_process` -/

/-- `memset(p, 0, 4096*n)`. -/
def clearPages : Nat → Word → Mem → Mem
  | 0, _, s => s
  | n + 1, p, s => clearPages n (p + 4096) (clearPage p s)

/-- `mm->cnt=0; mm->vma_addr=NULL;`: a 16-bit field in the second word, a pointer in
the first. -/
def initMm (mm : Word) (s : Mem) : Mem :=
  let s := s.store (nth mm 1) (s.load (nth mm 1) &&& ~~~0xFFFF)
  s.store (nth mm 0) 0

/-- The frames of a new `task_struct`: `kmalloc(10*4096)` and `memset`. -/
def newTask (s : Mem) : Mem :=
  let process := kmalloc s 40960
  clearPages 10 process.1 process.2

/-- The frame of a new `mm_struct`. -/
def newMm (s : Mem) : Mem :=
  let mm := memAllocate s
  initMm (kernMem + mm.1) mm.2

/-- A loadable program header: where it goes, its size in memory, the address of the file and
where the segment is in it, and the bytes the file has for it. -/
structure Segment where
  vaddr : Word
  memsz : Word
  file : Word
  offset : Word
  data : List Byte

/-- Areas of seven words that fit in a frame. -/
def maxVmas : Nat := 73

/-- `allocate_vma`, with the first area and how many there are. The first one takes a frame; any other is linked
to the last, whose end of the list is its sixth word. The 74th would be in the frame behind, whatever that is. -/
def allocateVma (head : Word) (n : Nat) (s : Mem) : Option (Word × Mem) :=
  if n = 0 then
    let page := memAllocate s
    some (kernMem + page.1, page.2)
  else if n < maxVmas then some (head, s.store (nth head (7 * (n - 1) + 5)) (nth head (7 * n)))
  else none

/-- `vm_start`, `vm_end`, `vm_mmsz`, `vm_next`, `vm_file` and `vm_offset` of the `n`-th area. -/
def fillVma (head : Word) (n : Nat) (seg : Segment) (s : Mem) : Mem :=
  let s := s.store (nth head (7 * n)) seg.vaddr
  let s := s.store (nth head (7 * n + 1)) (seg.vaddr + seg.memsz)
  let s := s.store (nth head (7 * n + 2)) seg.memsz
  let s := s.store (nth head (7 * n + 5)) 0
  let s := s.store (nth head (7 * n + 3)) seg.file
  s.store (nth head (7 * n + 4)) seg.offset

/-- The kernel writes bytes through the tables of the new process. It has no handler
for a page that is not there. -/
def storeBytes (cr3 : Word) : Word → List Byte → Mem → Option Mem
  | _, [], s => some s
  | v, b :: bs, s =>
    match translate s cr3 v true with
    | .ok f => storeBytes cr3 (v + 1) bs (setFrameByte s f v b)
    | .error _ => none

/-- The loop of `elf_load`, with the list of areas so far. -/
def elfLoad (pml4e cr3 : Word) : List Segment → Word → Nat → Mem → Option Mem
  | [], _, _, s => some s
  | seg :: segs, head, n, s =>
    let s := allocate s pml4e seg.vaddr (seg.memsz.setWidth 32)
    (storeBytes cr3 seg.vaddr (List.replicate seg.memsz.toNat 0) s).bind fun s =>
      (storeBytes cr3 seg.vaddr seg.data s).bind fun s =>
        (allocateVma head n s).bind fun vm => elfLoad pml4e cr3 segs vm.1 (n + 1) (fillVma vm.1 n seg vm.2)

/-- The memory part of `create_process`; `none` if the kernel faults on the way. -/
def createProcess (s : Mem) (pml4e : Word) (segments : List Segment) : Option (Task × Mem) :=
  let root := newRoot (newTask s) pml4e
  let pml4ePr := root.1 + kernMem
  let s := kmallocUserSpace (newMm root.2) pml4ePr (stackMemTop - 4096) 4096
  (elfLoad pml4ePr root.1 segments 0 0 s).map fun s =>
    (⟨root.1, pml4ePr, ⟨bumpStart, 0⟩, segments.length⟩, s)

/-! ### `sys_fork` -/

/-- The memory part of `sys_fork`. The pointer `kmalloc` returns is a kernel address,
so the test for `NULL` succeeds. The first area copied takes a frame. -/
def sysFork (s : Mem) (pml4e : Word) (pproc : Task) : Task × Mem :=
  let space := forkSpace (newTask s) pml4e pproc.pml4eAddr
  let s := newMm space.2
  let s := if pproc.areas = 0 then s else (memAllocate s).2
  (⟨space.1, kernMem + space.1, ⟨pageRoundoff4096 pproc.heap.bumpPtr, 0⟩, pproc.areas⟩, s)

/-! ### Each function as primitive steps -/

theorem brkPages_steps (pml4e : Word) (n : Nat) (logical remSize : Word) (s : Mem) :
    Steps s (brkPages pml4e n logical remSize s).2 := by
  induction n generalizing logical remSize s with
  | zero => exact .refl
  | succ n ih =>
    unfold brkPages
    exact ((((memAllocate_steps s).trans (walkPages_steps _ _ _)).trans (freePresent_steps _ _)).store _ _).trans
      (ih _ _ _)

theorem sysBrk_steps (s : Mem) (pml4e : Word) (heap : HeapMem) (bumpAddr : Word) :
    Steps s (sysBrk s pml4e heap bumpAddr).mem := by
  unfold sysBrk
  dsimp only
  split
  · exact .refl
  · split
    · split
      · exact .refl
      · exact brkPages_steps ..
    · exact .refl

theorem clearPages_steps (n : Nat) (p : Word) (s : Mem) : Steps s (clearPages n p s) := by
  induction n generalizing p s with
  | zero => exact .refl
  | succ n ih =>
    rw [clearPages]
    exact (clearPage_steps p s).trans (ih _ _)

theorem newTask_steps (s : Mem) : Steps s (newTask s) := by
  unfold newTask
  exact (kmalloc_steps s 40960).trans (clearPages_steps 10 _ _)

theorem newMm_steps (s : Mem) : Steps s (newMm s) := by
  unfold newMm initMm
  exact ((memAllocate_steps s).store _ _).store _ _

theorem storeBytes_steps (cr3 v : Word) (bs : List Byte) (s : Mem) : ∀ t ∈ storeBytes cr3 v bs s, Steps s t := by
  induction bs generalizing v s with
  | nil =>
    intro t ht
    obtain rfl := Option.mem_some.mp ht
    exact .refl
  | cons b bs ih =>
    intro t ht
    unfold storeBytes at ht
    split at ht
    · rename_i f hf
      exact (setFrameByte_steps s (translate_lt hf) v b).trans (ih _ _ t ht)
    · cases ht

theorem allocateVma_steps {head : Word} {n : Nat} {s : Mem} {vm : Word × Mem} (h : allocateVma head n s = some vm) :
    Steps s vm.2 := by
  unfold allocateVma at h
  split_ifs at h
  · obtain rfl := Option.some.inj h
    exact memAllocate_steps s
  · obtain rfl := Option.some.inj h
    exact Steps.refl.store _ _

theorem fillVma_steps (head : Word) (n : Nat) (seg : Segment) (s : Mem) : Steps s (fillVma head n seg s) := by
  unfold fillVma
  exact (((((Steps.refl.store _ _).store _ _).store _ _).store _ _).store _ _).store _ _

theorem elfLoad_steps (pml4e cr3 : Word) (segs : List Segment) (head : Word) (n : Nat) (s : Mem) :
    ∀ t ∈ elfLoad pml4e cr3 segs head n s, Steps s t := by
  induction segs generalizing head n s with
  | nil =>
    intro t ht
    obtain rfl := Option.mem_some.mp ht
    exact .refl
  | cons seg segs ih =>
    intro t ht
    unfold elfLoad at ht
    dsimp only at ht
    obtain ⟨s₁, h₁, ht⟩ := Option.bind_eq_some_iff.mp ht
    obtain ⟨s₂, h₂, ht⟩ := Option.bind_eq_some_iff.mp ht
    obtain ⟨vm, hvm, ht⟩ := Option.bind_eq_some_iff.mp ht
    have hdata : Steps s s₂ := ((allocate_steps s _ _ _).trans (storeBytes_steps _ _ _ _ s₁ h₁)).trans
      (storeBytes_steps _ _ _ _ s₂ h₂)
    exact ((hdata.trans (allocateVma_steps hvm)).trans (fillVma_steps _ _ _ _)).trans (ih _ _ _ t ht)

/-! ### How many frames each function takes -/

theorem memAllocateTimes_length (n : Nat) (s : Mem) :
    (memAllocateTimes n s).handed.length = s.handed.length + n := by
  induction n generalizing s with
  | zero => rfl
  | succ n ih =>
    rw [memAllocateTimes, ih, memAllocate_length]
    omega

theorem clearPages_handed (n : Nat) (p : Word) (s : Mem) : (clearPages n p s).handed = s.handed := by
  induction n generalizing p s with
  | zero => rfl
  | succ n ih => rw [clearPages, ih, clearPage_handed]

theorem newTask_length (s : Mem) : (newTask s).handed.length = s.handed.length + 10 := by
  have hcount : ((pageCount 40960).toInt - 1).toNat = 9 := by decide
  have hpos : (40960 : Word) > 0 := by decide
  unfold newTask kmalloc
  dsimp only
  rw [clearPages_handed, if_pos hpos, hcount, memAllocateTimes_length, memAllocate_length]

theorem newMm_length (s : Mem) : (newMm s).handed.length = s.handed.length + 1 := by
  unfold newMm initMm
  dsimp only
  rw [store_handed, store_handed, memAllocate_length]

theorem userPages_length (pml4e logical : Word) (k n : Nat) (s : Mem) :
    (userPages pml4e logical k n s).handed.length ≤ s.handed.length + 4 * n := by
  induction n generalizing k s with
  | zero => exact Nat.le_refl _
  | succ n ih =>
    unfold userPages
    dsimp only
    have hrest := ih (k + 1)
      (pageInsert (memAllocate s).2 pml4e (logical + BitVec.ofNat 64 (4096 * k)) (memAllocate s).1)
    have hone := pageInsert_length (memAllocate s).2 pml4e (logical + BitVec.ofNat 64 (4096 * k)) (memAllocate s).1
    rw [memAllocate_length] at hone
    omega

/-- A process with nothing to load is created from sixteen frames. -/
theorem createProcess_nil (s : Mem) (pml4e : Word) :
    ∃ task t, createProcess s pml4e [] = some (task, t) ∧ task.heap = ⟨bumpStart, 0⟩ ∧
      t.handed.length ≤ s.handed.length + 16 := by
  refine ⟨_, _, rfl, rfl, ?_⟩
  have hone : (pageCount 4096).toInt.toNat = 1 := by decide
  unfold kmallocUserSpace
  rw [hone]
  have hstack := userPages_length ((newRoot (newTask s) pml4e).1 + kernMem) (stackMemTop - 4096) 0 1
    (newMm (newRoot (newTask s) pml4e).2)
  rw [newMm_length, newRoot_length, newTask_length] at hstack
  omega

end Sbnix.Memory
