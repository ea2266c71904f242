import Sbnix.Memory.Loading
import Sbnix.Library.Run

/-! The heap of a process.

`rem_size` is what is left of the pages behind `bump_ptr`, so the heap ends at
`bump_ptr + rem_size` (`limit`). `sys_brk` adds pages for what a request exceeds
`rem_size` by, and rounds up when the *request* is not a multiple of the page size.
That is one page short when the request is a multiple and `rem_size` is not: then
`rem_size` goes below zero. `brk_accounting` says that this is the only way the
books go wrong. -/
namespace Sbnix.Memory
open Words Library

structure Proc where
  mem : Mem
  task : Task

def Proc.heap (p : Proc) : HeapMem := p.task.heap

/-- A process calls `sys_brk`. -/
def brkCall (p : Proc) (bumpAddr : Word) : Proc :=
  let b := sysBrk p.mem p.task.pml4eAddr p.heap bumpAddr
  ⟨b.mem, {p.task with heap := b.heap}⟩

def brks (p : Proc) : List Word → Proc
  | [] => p
  | a :: as => brks (brkCall p a) as

/-- The same calls as steps. -/
def brkStep (p : Proc) (a : Word) : Option Proc := some (brkCall p a)

/-- Where the heap ends. `bump_ptr` is never below `BUMP_PTR`, so if `rem_size` has gone
below zero this is beyond the top of the address space. -/
def limit (h : HeapMem) : Nat := h.bumpPtr.toNat + h.remSize.toNat

/-- The address has a present entry. -/
def Present (s : Mem) (pml4e v : Word) : Prop :=
  ∃ pte, lookPages s pml4e v = some pte ∧ s.load pte &&& pagePresent ≠ 0

/-- The call does not move the break down. -/
def Forward (p : Proc) (a : Word) : Prop := p.heap.bumpPtr ≤ a

/-- The state after the call is accounted for. -/
structure Accounted (p : Proc) (a : Word) : Prop where
  bump : (brkCall p a).heap.bumpPtr = a
  noWrap : limit (brkCall p a).heap < 2 ^ 64
  aligned : 4096 ∣ limit (brkCall p a).heap
  present : ∀ v : Word, bumpStart.toNat ≤ v.toNat → v.toNat < limit (brkCall p a).heap →
    Present (brkCall p a).mem (brkCall p a).task.pml4eAddr v

/-- The request fits into what is left, or the rounding sees that a page is missing. -/
def Covered (p : Proc) (a : Word) : Prop :=
  ¬ (p.heap.remSize ≤ a - p.heap.bumpPtr ∧ (a - p.heap.bumpPtr).toNat % 4096 = 0 ∧
    p.heap.remSize.toNat % 4096 ≠ 0)

/-! ### The pages `sys_brk` adds -/

variable {s : Mem} {loc : TableMap} {pg : PageMap} {r n : Nat}

theorem brkPages_remSize (pml4e : Word) (c : Nat) (logical remSize : Word) (s : Mem) :
    (brkPages pml4e c logical remSize s).1 = remSize + BitVec.ofNat 64 (4096 * c) := by
  induction c generalizing logical remSize s with
  | zero => simp [brkPages]
  | succ c ih =>
    rw [brkPages, ih]
    apply BitVec.eq_of_toNat_eq
    have h4096 : (4096 : Word).toNat = 4096 := rfl
    rw [BitVec.toNat_add, BitVec.toNat_add, BitVec.toNat_add, BitVec.toNat_ofNat, BitVec.toNat_ofNat, h4096]
    omega

/-- As far as frames reach, the heap stays below the kernel's slot. -/
theorem userAddr_heap {v : Word} (hlo : bumpStart.toNat ≤ v.toNat)
    (hhi : v.toNat ≤ bumpStart.toNat + 4096 * maxMem) : UserAddr v := by
  have hb : bumpStart.toNat = 0xffffff0f80000000 := rfl
  have hm : maxMem = 32510 := rfl
  have hslot : (slot v .pml4e).val = v.toNat / 2 ^ 39 % 512 := addrRes_toNat v .pml4e
  intro h
  rw [hslot] at h
  omega

theorem brkPages_spec (c : Nat) (logical remSize : Word) (hs : Spaces s loc pg) (hr : loc r [] = some r)
    (hshape : Shape s n) (hlo : bumpStart.toNat ≤ logical.toNat) (halign : logical.toNat % 4096 = 0)
    (hbound : logical.toNat ≤ bumpStart.toNat + 4096 * s.handed.length)
    (hcover : ∀ v : Word, bumpStart.toNat ≤ v.toNat → v.toNat < logical.toNat → pg (r, pagePath v) ≠ none)
    (h0 : 0 ∉ (brkPages (framePtr r) c logical remSize s).2.handed) :
    ∃ loc' pg', Spaces (brkPages (framePtr r) c logical remSize s).2 loc' pg' ∧ loc' r [] = some r ∧
      logical.toNat + 4096 * c ≤
        bumpStart.toNat + 4096 * (brkPages (framePtr r) c logical remSize s).2.handed.length ∧
      ∀ v : Word, bumpStart.toNat ≤ v.toNat → v.toNat < logical.toNat + 4096 * c → pg' (r, pagePath v) ≠ none := by
  induction c generalizing logical remSize s loc pg n with
  | zero => exact ⟨loc, pg, hs, hr, by simpa [brkPages] using hbound, by simpa using hcover⟩
  | succ c ih =>
    have hb : bumpStart.toNat = 0xffffff0f80000000 := rfl
    have hm : maxMem = 32510 := rfl
    have hlen := hshape.length_le
    -- one round is a `page_insert` of a frame just allocated
    have hround : brkPages (framePtr r) (c + 1) logical remSize s =
        brkPages (framePtr r) c (logical + 4096) (remSize + 4096)
          (pageInsert (memAllocate s).2 (framePtr r) logical (memAllocate s).1) := by
      rw [brkPages]
      rfl
    rw [hround] at h0 ⊢
    have h0' := (brkPages_steps ..).ok h0
    obtain ⟨loc', g, hs', hroots, _⟩ :=
      pageInsert_fresh hs hr (userAddr_heap hlo (by omega) : userSlot r (slot logical .pml4e)) h0'
    have hsteps : Steps (memAllocate s).2 (pageInsert (memAllocate s).2 (framePtr r) logical (memAllocate s).1) :=
      pageInsert_steps ..
    have hgrow := hsteps.handed.length_le
    rw [memAllocate_length] at hgrow
    obtain ⟨n', _, hshape'⟩ := ((memAllocate_steps s).trans hsteps).shape hshape h0'
    generalize pageInsert (memAllocate s).2 (framePtr r) logical (memAllocate s).1 = t at *
    have hnext : (logical + 4096).toNat = logical.toNat + 4096 := by
      have h4096 : (4096 : Word).toNat = 4096 := rfl
      rw [BitVec.toNat_add, h4096]
      omega
    have hcover' : ∀ v : Word, bumpStart.toNat ≤ v.toNat → v.toNat < (logical + 4096).toNat →
        Function.update pg (r, pagePath logical) (some ⟨g, true⟩) (r, pagePath v) ≠ none := by
      intro v hv hv'
      by_cases hsame : pagePath v = pagePath logical
      · rw [hsame, Function.update_self]
        simp
      · rw [Function.update_of_ne (fun hc => hsame (Prod.mk.inj hc).2)]
        refine hcover v hv ?_
        by_contra hge
        apply hsame
        rw [pagePath_eq_iff, addr, addr]
        omega
    obtain ⟨loc₂, pg₂, hs₂, hr₂, hb₂, hc₂⟩ := ih (logical + 4096) (remSize + 4096) hs' (hroots hr) hshape'
      (by omega) (by omega) (by omega) hcover' h0
    refine ⟨loc₂, pg₂, hs₂, hr₂, by omega, fun v hv hv' => hc₂ v hv (by omega)⟩

/-! ### One call -/

structure HeapInv (p : Proc) (r : Nat) : Prop where
  pages : ∃ loc pg, Spaces p.mem loc pg ∧ loc r [] = some r ∧
    ∀ v : Word, bumpStart.toNat ≤ v.toNat → v.toNat < limit p.heap → pg (r, pagePath v) ≠ none
  shape : ∃ n, Shape p.mem n
  pml4e : p.task.pml4eAddr = framePtr r
  low : bumpStart.toNat ≤ p.heap.bumpPtr.toNat
  aligned : limit p.heap % 4096 = 0
  bound : limit p.heap ≤ bumpStart.toNat + 4096 * p.mem.handed.length

variable {p : Proc} {a : Word}

theorem brkCall_steps (p : Proc) (a : Word) : Steps p.mem (brkCall p a).mem := sysBrk_steps ..

theorem HeapInv.limit_le (h : HeapInv p r) : limit p.heap ≤ bumpStart.toNat + 4096 * maxMem := by
  obtain ⟨n, hshape⟩ := h.shape
  have := hshape.length_le
  have := h.bound
  omega

/-- The size of a request that does not move the break down. -/
theorem Forward.size (hf : Forward p a) : (a - p.heap.bumpPtr).toNat = a.toNat - p.heap.bumpPtr.toNat :=
  BitVec.toNat_sub_of_le hf

/-- What is in the books is in the page table. -/
theorem HeapInv.accounted (h : HeapInv (brkCall p a) r) (hbump : (brkCall p a).heap.bumpPtr = a) : Accounted p a where
  bump := hbump
  noWrap := by
    have hb : bumpStart.toNat = 0xffffff0f80000000 := rfl
    have hm : maxMem = 32510 := rfl
    have := h.limit_le
    omega
  aligned := Nat.dvd_of_mod_eq_zero h.aligned
  present := fun v hlo hhi => by
    obtain ⟨loc, pg, hs, hr, hpages⟩ := h.pages
    have huser : UserAddr v := userAddr_heap hlo (by have := h.limit_le; omega)
    cases hp : pg (r, pagePath v) with
    | none => exact absurd hp (hpages v hlo hhi)
    | some page =>
      obtain ⟨f, _, hlook, hload⟩ := hs.lookPages_page hr huser hp
      rw [h.pml4e]
      exact ⟨_, hlook, by rw [hload]; exact pageEntry_present page⟩

/-- The three ways a forward call goes. -/
theorem brkCall_eq (h : HeapInv p r) (hf : Forward p a) :
    (a = p.heap.bumpPtr ∧ brkCall p a = p) ∨
    (p.heap.bumpPtr < a ∧ a - p.heap.bumpPtr < p.heap.remSize ∧
      brkCall p a = ⟨p.mem, {p.task with heap := ⟨a, p.heap.remSize - (a - p.heap.bumpPtr)⟩}⟩) ∨
    (p.heap.bumpPtr < a ∧ p.heap.remSize ≤ a - p.heap.bumpPtr ∧
      brkCall p a = ⟨(brkPages p.task.pml4eAddr (blkCnt p.heap (a - p.heap.bumpPtr)).toNat
          (p.heap.bumpPtr + p.heap.remSize) p.heap.remSize p.mem).2,
        {p.task with heap := ⟨a, p.heap.remSize +
          BitVec.ofNat 64 (4096 * (blkCnt p.heap (a - p.heap.bumpPtr)).toNat) - (a - p.heap.bumpPtr)⟩}⟩) := by
  have hb : bumpStart.toNat = 0xffffff0f80000000 := rfl
  have hlow := h.low
  have hle : p.heap.bumpPtr.toNat ≤ a.toNat := hf
  have hne : a ≠ 0 := fun he => by
    rw [he] at hle
    simp only [BitVec.ofNat_eq_ofNat, BitVec.toNat_ofNat, Nat.zero_mod] at hle
    omega
  have hsum : p.heap.bumpPtr + (a - p.heap.bumpPtr) = a := by
    rw [BitVec.add_comm, BitVec.sub_add_cancel]
  have hsize := hf.size
  unfold brkCall sysBrk
  dsimp only
  rw [if_neg hne, hsum, brkPages_remSize]
  by_cases hz : a = p.heap.bumpPtr
  · left
    refine ⟨hz, ?_⟩
    rw [if_neg (by rw [hz]; simp)]
    rfl
  · right
    have hlt : p.heap.bumpPtr < a := by
      rw [BitVec.lt_def]
      have : a.toNat ≠ p.heap.bumpPtr.toNat := fun he => hz (BitVec.eq_of_toNat_eq he)
      omega
    have hpos : a - p.heap.bumpPtr > 0 := by
      rw [gt_iff_lt, BitVec.lt_def, hsize]
      rw [BitVec.lt_def] at hlt
      show 0 < _
      omega
    rw [if_pos hpos]
    by_cases hfast : p.heap.remSize > a - p.heap.bumpPtr
    · left
      exact ⟨hlt, hfast, by rw [if_pos hfast]⟩
    · right
      exact ⟨hlt, BitVec.not_lt.mp hfast, by rw [if_neg hfast]⟩

theorem blkCnt_toNat {heap : HeapMem} {size : Word} (h : heap.remSize ≤ size) :
    (blkCnt heap size).toNat =
      (size.toNat - heap.remSize.toNat) / 4096 + (if size.toNat % 4096 = 0 then 0 else 1) := by
  have hless : (size - heap.remSize).toNat = size.toNat - heap.remSize.toNat := BitVec.toNat_sub_of_le h
  have hdiv : ((size - heap.remSize) / 4096).toNat = (size - heap.remSize).toNat / 4096 := rfl
  have hgt : (size % 4096 > 0) ↔ 0 < size.toNat % 4096 := by
    rw [gt_iff_lt, BitVec.lt_def]
    exact Iff.rfl
  have hlt := size.isLt
  unfold blkCnt
  rw [BitVec.toNat_add, hdiv, hless]
  by_cases hz : size.toNat % 4096 = 0
  · rw [if_neg (by rw [hgt]; omega), if_pos hz]
    show ((size.toNat - heap.remSize.toNat) / 4096 + 0) % 2 ^ 64 = _
    omega
  · rw [if_pos (hgt.mpr (by omega)), if_neg hz]
    show ((size.toNat - heap.remSize.toNat) / 4096 + 1) % 2 ^ 64 = _
    omega

/-- Moving the break to `a` after `c` pages were added moves the end of the heap by those pages. -/
theorem limit_moved {heap : HeapMem} {c : Nat} (hle : heap.bumpPtr.toNat ≤ a.toNat)
    (hsize : (a - heap.bumpPtr).toNat = a.toNat - heap.bumpPtr.toNat)
    (henough : (a - heap.bumpPtr).toNat ≤ heap.remSize.toNat + 4096 * c)
    (hroom : heap.remSize.toNat + 4096 * c < 2 ^ 64) :
    limit ⟨a, heap.remSize + BitVec.ofNat 64 (4096 * c) - (a - heap.bumpPtr)⟩ = limit heap + 4096 * c := by
  have hadd : (heap.remSize + BitVec.ofNat 64 (4096 * c)).toNat = heap.remSize.toNat + 4096 * c := by
    rw [BitVec.toNat_add, BitVec.toNat_ofNat]
    omega
  have hrem : (heap.remSize + BitVec.ofNat 64 (4096 * c) - (a - heap.bumpPtr)).toNat =
      heap.remSize.toNat + 4096 * c - (a - heap.bumpPtr).toNat := by
    rw [BitVec.toNat_sub_of_le (by rw [BitVec.le_def, hadd]; exact henough), hadd]
  unfold limit
  dsimp only
  rw [hrem]
  omega

/-- A covered call keeps the books. -/
theorem HeapInv.step (h : HeapInv p r) (hf : Forward p a) (hc : Covered p a) (h0 : 0 ∉ (brkCall p a).mem.handed) :
    HeapInv (brkCall p a) r ∧ (brkCall p a).heap.bumpPtr = a := by
  have hb : bumpStart.toNat = 0xffffff0f80000000 := rfl
  have hm : maxMem = 32510 := rfl
  have hlow := h.low
  have hlimit := h.limit_le
  have hsize := hf.size
  have hle : p.heap.bumpPtr.toNat ≤ a.toNat := hf
  rcases brkCall_eq h hf with ⟨hz, heq⟩ | ⟨hlt, hfast, heq⟩ | ⟨hlt, hslow, heq⟩
  · rw [heq]
    exact ⟨h, hz.symm⟩
  · have hlim : limit ⟨a, p.heap.remSize - (a - p.heap.bumpPtr)⟩ = limit p.heap := by
      have hrem := p.heap.remSize.isLt
      rw [BitVec.lt_def] at hfast
      have hmoved := limit_moved (c := 0) hle hsize (by omega) (by omega)
      simpa using hmoved
    rw [heq]
    refine ⟨⟨?_, h.shape, h.pml4e, by show bumpStart.toNat ≤ a.toNat; omega, ?_, ?_⟩, rfl⟩
    · show ∃ loc pg, Spaces p.mem loc pg ∧ loc r [] = some r ∧ ∀ v : Word, bumpStart.toNat ≤ v.toNat →
        v.toNat < limit ⟨a, p.heap.remSize - (a - p.heap.bumpPtr)⟩ → pg (r, pagePath v) ≠ none
      rw [hlim]
      exact h.pages
    · show limit ⟨a, p.heap.remSize - (a - p.heap.bumpPtr)⟩ % 4096 = 0
      rw [hlim]
      exact h.aligned
    · show limit ⟨a, p.heap.remSize - (a - p.heap.bumpPtr)⟩ ≤ _
      rw [hlim]
      exact h.bound
  · have hcount := blkCnt_toNat hslow
    have hmod := h.aligned
    rw [heq, h.pml4e] at h0 ⊢
    dsimp only at h0
    generalize (blkCnt p.heap (a - p.heap.bumpPtr)).toNat = c at hcount h0 ⊢
    have hlogical : (p.heap.bumpPtr + p.heap.remSize).toNat = limit p.heap := by
      rw [BitVec.toNat_add]
      unfold limit at hlimit ⊢
      omega
    obtain ⟨loc, pg, hs, hr, hcover⟩ := h.pages
    obtain ⟨n, hshape⟩ := h.shape
    obtain ⟨n', _, hshape'⟩ := (brkPages_steps ..).shape hshape h0
    obtain ⟨loc', pg', hs', hr', hbound', hcover'⟩ := brkPages_spec c _ p.heap.remSize hs hr hshape
      (by rw [hlogical]; unfold limit; omega) (by rw [hlogical]; exact hmod) (by rw [hlogical]; exact h.bound)
      (by rw [hlogical]; exact hcover) h0
    have hlen := hshape'.length_le
    rw [hlogical] at hbound' hcover'
    -- the pages added make up for what was missing
    have henough : (a - p.heap.bumpPtr).toNat ≤ p.heap.remSize.toNat + 4096 * c := by
      have hle' : p.heap.remSize.toNat ≤ (a - p.heap.bumpPtr).toNat := hslow
      have hc' : ¬ ((a - p.heap.bumpPtr).toNat % 4096 = 0 ∧ p.heap.remSize.toNat % 4096 ≠ 0) :=
        fun hbad => hc ⟨hslow, hbad.1, hbad.2⟩
      split at hcount
      · omega
      · omega
    have hlim := limit_moved hle hsize henough (by unfold limit at hbound'; omega)
    refine ⟨⟨?_, ⟨n', hshape'⟩, h.pml4e.symm ▸ rfl, by show bumpStart.toNat ≤ a.toNat; omega, ?_, ?_⟩, rfl⟩
    · refine ⟨loc', pg', hs', hr', fun v hlo hhi => hcover' v hlo ?_⟩
      rwa [← hlim]
    · show limit ⟨a, p.heap.remSize + BitVec.ofNat 64 (4096 * c) - (a - p.heap.bumpPtr)⟩ % 4096 = 0
      rw [hlim]
      omega
    · show limit ⟨a, p.heap.remSize + BitVec.ofNat 64 (4096 * c) - (a - p.heap.bumpPtr)⟩ ≤ _
      rw [hlim]
      exact hbound'

/-- A call that is not covered drives `rem_size` below zero. -/
theorem HeapInv.step_wraps (h : HeapInv p r) (hf : Forward p a) (hc : ¬ Covered p a) : ¬ Accounted p a := by
  have hb : bumpStart.toNat = 0xffffff0f80000000 := rfl
  have hlow := h.low
  have hsize := hf.size
  have hle : p.heap.bumpPtr.toNat ≤ a.toNat := hf
  have hbad := Classical.not_not.mp hc
  have hslow' : p.heap.remSize.toNat ≤ (a - p.heap.bumpPtr).toNat := hbad.1
  intro hacc
  have hlim := hacc.noWrap
  rcases brkCall_eq h hf with ⟨hz, _⟩ | ⟨_, hfast, _⟩ | ⟨_, hslow, heq⟩
  · have hsame : a.toNat = p.heap.bumpPtr.toNat := by rw [hz]
    have := hbad.2.2
    omega
  · rw [BitVec.lt_def] at hfast
    omega
  · have hcount := blkCnt_toNat hslow
    rw [if_pos hbad.2.1] at hcount
    rw [heq] at hlim
    have hshort : (p.heap.remSize + BitVec.ofNat 64 (4096 * (blkCnt p.heap (a - p.heap.bumpPtr)).toNat) -
        (a - p.heap.bumpPtr)).toNat = 2 ^ 64 - ((a - p.heap.bumpPtr).toNat - p.heap.remSize.toNat) % 4096 := by
      have hlt := (a - p.heap.bumpPtr).isLt
      have := hbad.2.1
      have := hbad.2.2
      rw [BitVec.toNat_sub, BitVec.toNat_add, BitVec.toNat_ofNat, hcount]
      omega
    have hsum : a.toNat + (p.heap.remSize + BitVec.ofNat 64 (4096 * (blkCnt p.heap (a - p.heap.bumpPtr)).toNat) -
        (a - p.heap.bumpPtr)).toNat < 2 ^ 64 := hlim
    omega

/-! ### Runs of calls -/

theorem along_brk_cons {P : Proc → Word → Prop} {as : List Word} :
    Along brkStep P p (a :: as) ↔ P p a ∧ Along brkStep P (brkCall p a) as := by
  constructor
  · intro h
    exact ⟨h.1, h.2 _ rfl⟩
  · intro h
    refine ⟨h.1, fun q hq => ?_⟩
    obtain rfl := Option.some.inj hq
    exact h.2

theorem brks_steps (p : Proc) (as : List Word) : Steps p.mem (brks p as).mem := by
  induction as generalizing p with
  | nil => exact .refl
  | cons a as ih => exact (brkCall_steps p a).trans (ih _)

/-- As long as no allocation fails, the books are right after every call exactly if
every call is covered. -/
theorem HeapInv.along_iff (h : HeapInv p r) {as : List Word} (hf : Along brkStep Forward p as)
    (h0 : 0 ∉ (brks p as).mem.handed) : Along brkStep Accounted p as ↔ Along brkStep Covered p as := by
  induction as generalizing p with
  | nil => exact Iff.rfl
  | cons a as ih =>
    rw [along_brk_cons] at hf ⊢
    rw [along_brk_cons]
    have hone : Covered p a → HeapInv (brkCall p a) r ∧ (brkCall p a).heap.bumpPtr = a :=
      fun hc => h.step hf.1 hc ((brks_steps _ as).ok h0)
    constructor
    · intro hacc
      have hc : Covered p a := by
        by_contra hc
        exact h.step_wraps hf.1 hc hacc.1
      exact ⟨hc, (ih (hone hc).1 hf.2 h0).mp hacc.2⟩
    · intro hc
      exact ⟨(hone hc.1).1.accounted (hone hc.1).2, (ih (hone hc.1).1 hf.2 h0).mpr hc.2⟩

/-- What a call does to the heap record does not depend on the memory. -/
def brkHeap (heap : HeapMem) (a : Word) : HeapMem :=
  let size := a - heap.bumpPtr
  if a = 0 then heap
  else if size > 0 then
    if heap.remSize > size then ⟨heap.bumpPtr + size, heap.remSize - size⟩
    else ⟨heap.bumpPtr + size, heap.remSize + BitVec.ofNat 64 (4096 * (blkCnt heap size).toNat) - size⟩
  else heap

theorem sysBrk_heap (s : Mem) (pml4e : Word) (heap : HeapMem) (a : Word) :
    (sysBrk s pml4e heap a).heap = brkHeap heap a := by
  unfold sysBrk brkHeap
  dsimp only
  rw [brkPages_remSize]
  split
  · rfl
  · split
    · split
      · rfl
      · rfl
    · rfl

end Sbnix.Memory
