import Sbnix.Memory.Loading
import Sbnix.Memory.EagerCopy
import Sbnix.Library.Bytes

/-! The image `elf_load` builds.

An image says which addresses of the lower half are mapped and what byte each reads.
`Imaged` connects it with memory: one lemma for the pages `allocate` maps, one for the
bytes `memset` and `memcpy` write, and one for a whole segment (`loadSegment_image`).
What is left is a question about images only, `Image.load`: a segment zeroes the pages
it is given before it is filled, so it wipes what an earlier one has on them, and above
`END_LIMIT` an end inside a page makes `allocate` map nothing. The areas of up to 73
segments are in a frame of their own; those of more run out of it. -/
namespace Sbnix.Memory
open Words Library

/-! ### The file -/

/-- A file in memory: where it begins, and its bytes by their distance from there. -/
structure ElfFile where
  base : Word
  byte : Word → Byte

instance : CoeFun ElfFile fun _ => Word → Byte := ⟨ElfFile.byte⟩

/-- A field of `n` bytes. -/
def ElfFile.field (elf : ElfFile) (o : Word) (n : Nat) : Nat :=
  ofLE ((List.range n).map fun i => elf (o + BitVec.ofNat 64 i))

/-- Of `pheader`, the fields `elf_load` uses. -/
structure Pheader where
  pType : Nat
  pOffset : Word
  pVaddr : Word
  pFilesz : Word
  pMemsz : Word
  deriving DecidableEq

def ElfFile.pheader (elf : ElfFile) (o : Word) : Pheader where
  pType := elf.field o 4
  pOffset := BitVec.ofNat 64 (elf.field (o + 8) 8)
  pVaddr := BitVec.ofNat 64 (elf.field (o + 16) 8)
  pFilesz := BitVec.ofNat 64 (elf.field (o + 32) 8)
  pMemsz := BitVec.ofNat 64 (elf.field (o + 40) 8)

/-- The program headers with `p_type==1`: there are `e_phnum` from `e_phoff` on, of 56 bytes
each. -/
def ElfFile.loadable (elf : ElfFile) : List Pheader :=
  ((List.range (elf.field 56 2)).map fun i =>
    elf.pheader (BitVec.ofNat 64 (elf.field 32 8) + BitVec.ofNat 64 (56 * i))).filter (·.pType = 1)

/-- What the loop does with a header; the size of `memcpy` is a `uint32_t`. -/
def Pheader.segment (elf : ElfFile) (ph : Pheader) : Segment where
  vaddr := ph.pVaddr
  memsz := ph.pMemsz
  file := elf.base
  offset := ph.pOffset
  data := (List.range (ph.pFilesz.setWidth 32).toNat).map fun k => elf (ph.pOffset + BitVec.ofNat 64 k)

def ElfFile.segments (elf : ElfFile) : List Segment := elf.loadable.map (·.segment elf)

/-! ### Segments -/

namespace Segment

def first (seg : Segment) : Nat := seg.vaddr.toNat
def last (seg : Segment) : Nat := seg.first + seg.memsz.toNat

/-- The address is one of the segment's. -/
def Covers (seg : Segment) (x : Nat) : Prop := seg.first ≤ x ∧ x < seg.last

/-- The byte the file wants at a distance from the first one. -/
def byte (seg : Segment) (k : Nat) : Byte := seg.data.getD k 0

/-- An end of a segment for which `page_roundoff_4096` returns the end of the page. -/
def Rounds (x : Nat) : Prop := x % 4096 = 0 ∨ (x / 4096 + 1) * 4096 < endLimit.toNat

def Reached (seg : Segment) : Prop := Rounds seg.first ∧ Rounds seg.last

/-- The page is one of those mapped for the segment. -/
def OnPages (seg : Segment) (p : Nat) : Prop :=
  seg.Reached ∧ seg.first / 4096 ≤ p ∧ p < (seg.last + 4095) / 4096

/-- The sizes the loader is made for, in the lower half. -/
structure Fits (seg : Segment) : Prop where
  data : seg.data.length ≤ seg.memsz.toNat
  memsz : seg.memsz.toNat < 2 ^ 31
  lower : seg.last ≤ 2 ^ 47

end Segment

/-! ### Images -/

abbrev Image := Nat → Option Byte

namespace Image

/-- Write bytes one after the other. -/
def write (I : Image) : Nat → List Byte → Image
  | _, [] => I
  | x, b :: bs => write (Function.update I x (some b)) (x + 1) bs

/-- Map `n` zeroed pages from page `p` on. -/
def fresh (I : Image) (p n : Nat) : Image := fun x => if p ≤ x / 4096 ∧ x / 4096 < p + n then some 0 else I x

open Classical in
/-- The image with a segment loaded. -/
noncomputable def segment (I : Image) (seg : Segment) : Image := fun x =>
  if seg.Covers x then some (seg.byte (x - seg.first)) else if seg.OnPages (x / 4096) then some 0 else I x

/-- The segment can be filled: each of its bytes is mapped. -/
def Fills (I : Image) (seg : Segment) : Prop := ∀ x, seg.Covers x → seg.OnPages (x / 4096) ∨ (I x).isSome

open Classical in
/-- Loading segments, as far as the image goes; the kernel faults on a segment that it cannot
fill. -/
noncomputable def load (I : Image) : List Segment → Option Image
  | [] => some I
  | seg :: segs => if I.Fills seg then load (I.segment seg) segs else none

end Image

variable {s t : Mem} {loc : TableMap} {pg : PageMap} {r n : Nat} {areas : Word × Nat} {I : Image} {seg : Segment}

/-! ### Which pages `allocate` maps -/

theorem pageRoundoff4096_rounds {v : Word} (hv : v.toNat ≤ 2 ^ 47) :
    (Segment.Rounds v.toNat → (pageRoundoff4096 v).toNat = (v.toNat + 4095) / 4096 * 4096) ∧
      (¬ Segment.Rounds v.toNat → (pageRoundoff4096 v).toNat = 0) := by
  have hend : endLimit.toNat = 0x7ffe000 := rfl
  unfold Segment.Rounds
  rw [pageRoundoff4096_toNat]
  by_cases hz : v.toNat % 4096 = 0
  · rw [if_pos hz]
    refine ⟨fun _ => by omega, fun h => absurd (Or.inl hz) h⟩
  · rw [if_neg hz]
    refine ⟨fun h => ?_, fun h => ?_⟩
    · have hlt := h.resolve_left hz
      rw [if_pos (by omega)]
      omega
    · rw [if_neg (by omega)]

theorem Segment.Fits.last_toNat (h : seg.Fits) :
    (seg.vaddr + (seg.memsz.setWidth 32).signExtend 64).toNat = seg.last := by
  have hmem := h.memsz
  have hlower := h.lower
  have hwidth : (seg.memsz.setWidth 32).toNat = seg.memsz.toNat := by
    rw [BitVec.toNat_setWidth]
    omega
  have hmsb : (seg.memsz.setWidth 32).msb = false := by
    rw [BitVec.msb_eq_false_iff_two_mul_lt, hwidth]
    omega
  unfold Segment.last Segment.first at hlower ⊢
  rw [BitVec.signExtend_eq_setWidth_of_msb_false hmsb, BitVec.toNat_add, BitVec.toNat_setWidth, hwidth]
  omega

theorem Segment.Fits.first_le (h : seg.Fits) : seg.first ≤ 2 ^ 47 := by
  have hlower := h.lower
  unfold Segment.last at hlower
  omega

theorem allocateStart_toNat (h : seg.Fits) :
    (Segment.Rounds seg.first → (allocateStart seg.vaddr).toNat = seg.first / 4096 * 4096) ∧
      (¬ Segment.Rounds seg.first → (allocateStart seg.vaddr).toNat = 2 ^ 64 - 4096) := by
  have hfirst := h.first_le
  have hround := pageRoundoff4096_rounds (v := seg.vaddr) hfirst
  have hmod : (seg.vaddr % 4096).toNat = seg.first % 4096 := rfl
  have h4096 : (4096 : Word).toNat = 4096 := rfl
  unfold allocateStart
  by_cases hz : seg.first % 4096 = 0
  · have hzero : seg.vaddr % 4096 = 0 := BitVec.eq_of_toNat_eq (hmod.trans hz)
    rw [if_neg (not_not.mpr hzero)]
    refine ⟨fun _ => ?_, fun hc => absurd (Or.inl hz) hc⟩
    show seg.first = _
    omega
  · have hne : seg.vaddr % 4096 ≠ 0 := fun hc => hz (by rw [← hmod, hc]; rfl)
    rw [if_pos hne, BitVec.toNat_sub, h4096]
    refine ⟨fun hr => ?_, fun hr => ?_⟩
    · rw [hround.1 hr]
      unfold Segment.first at hfirst hz ⊢
      omega
    · rw [hround.2 hr]
      rfl

/-- Nothing is mapped for a segment one of whose ends does not round. -/
theorem allocateCount_unreached (h : seg.Fits) (hr : ¬ seg.Reached) :
    allocateCount seg.vaddr (seg.memsz.setWidth 32) = 0 := by
  have hlower := h.lower
  have hlast := h.last_toNat
  have hend := pageRoundoff4096_rounds (v := seg.vaddr + (seg.memsz.setWidth 32).signExtend 64) (by omega)
  have hstart := allocateStart_toNat h
  rw [hlast] at hend
  unfold allocateCount
  by_cases hlo : Segment.Rounds seg.first
  · rw [hend.2 (fun hhi => hr ⟨hlo, hhi⟩)]
    omega
  · have hbound : (pageRoundoff4096 (seg.vaddr + (seg.memsz.setWidth 32).signExtend 64)).toNat ≤ 2 ^ 47 := by
      by_cases hhi : Segment.Rounds seg.last
      · rw [hend.1 hhi]
        omega
      · rw [hend.2 hhi]
        omega
    rw [hstart.2 hlo]
    omega

theorem allocateCount_reached (h : seg.Fits) (hr : seg.Reached) :
    seg.first / 4096 + allocateCount seg.vaddr (seg.memsz.setWidth 32) = (seg.last + 4095) / 4096 := by
  have hlower := h.lower
  have hlast := h.last_toNat
  have hend := pageRoundoff4096_rounds (v := seg.vaddr + (seg.memsz.setWidth 32).signExtend 64) (by omega)
  rw [hlast] at hend
  have hle : seg.first ≤ seg.last := Nat.le_add_right ..
  unfold allocateCount
  rw [hend.1 hr.2, (allocateStart_toNat h).1 hr.1]
  omega

/-! ### Memory and its image -/

/-- What a read of the process sees at an address, if the page is there. -/
def byteAt (s : Mem) (cr3 v : Word) : Option Byte :=
  match translate s cr3 v false with
  | .ok f => some (pageByte (s.phys f) v)
  | .error _ => none

/-- The lower half of the process with root `r` is as the image says, and may be written; its list of areas, the
first one and their number, is apart. -/
def Imaged (s : Mem) (r : Nat) (areas : Word × Nat) (I : Image) : Prop :=
  ∃ loc pg, Spaces s loc pg ∧ loc r [] = some r ∧ Listed s loc pg areas.1 areas.2 ∧
    (∀ {σ p}, pg (r, σ) = some p → p.writable = true) ∧
    ∀ v : Word, v.toNat < 2 ^ 47 → byteAt s (frameAddr r) v = I v.toNat

theorem userAddr_lower {v : Word} (hv : v.toNat < 2 ^ 47) : UserAddr v := by
  have hslot : (slot v .pml4e).val = v.toNat / 2 ^ 39 % 512 := addrRes_toNat v .pml4e
  unfold UserAddr
  omega

theorem addr_lower {v : Word} (hv : v.toNat < 2 ^ 47) : addr v = v.toNat := by
  unfold addr
  omega

theorem byteAt_eq (hs : Spaces s loc pg) (hr : loc r [] = some r) {v : Word} (hv : v.toNat < 2 ^ 47) :
    byteAt s (frameAddr r) v = (pg (r, pagePath v)).map fun _ => pageByte (pageAt s pg (r, pagePath v)) v := by
  unfold byteAt pageAt
  rw [hs.translate_eq hr v false (userAddr_lower hv)]
  cases pg (r, pagePath v) with
  | none => rfl
  | some p => rfl

/-- The bytes depend on the pages only. -/
theorem byteAt_congr (hs : Spaces s loc pg) (ht : Spaces t loc pg) (hr : loc r [] = some r)
    (hpages : ∀ k, pageAt t pg k = pageAt s pg k) {v : Word} (hv : v.toNat < 2 ^ 47) :
    byteAt t (frameAddr r) v = byteAt s (frameAddr r) v := by
  rw [byteAt_eq ht hr hv, byteAt_eq hs hr hv, hpages]

/-- One area more. -/
theorem Imaged.area (h : Imaged s r areas I) {vm : Word × Mem} (hvm : allocateVma areas.1 areas.2 s = some vm)
    (h0 : 0 ∉ vm.2.handed) (seg : Segment) :
    Imaged (fillVma vm.1 areas.2 seg vm.2) r (vm.1, areas.2 + 1) I := by
  obtain ⟨loc, pg, hs, hr, hlist, hw, hI⟩ := h
  obtain ⟨hs', hlist', hpages⟩ := hlist.append hs hvm h0 seg
  exact ⟨loc, pg, hs', hr, hlist', hw, fun v hv => (byteAt_congr hs hs' hr hpages hv).trans (hI v hv)⟩

/-- Mapping a page makes its bytes zero. -/
theorem Imaged.pageInsert (h : Imaged s r areas I) {v : Word} (hv : v.toNat < 2 ^ 47)
    (h0 : 0 ∉ (pageInsert (memAllocate s).2 (framePtr r) v (memAllocate s).1).handed) :
    Imaged (pageInsert (memAllocate s).2 (framePtr r) v (memAllocate s).1) r areas (I.fresh (v.toNat / 4096) 1) := by
  obtain ⟨loc, pg, hs, hr, hlist, hw, hI⟩ := h
  obtain ⟨loc', g, hs', hroots, hpages, hk⟩ := pageInsert_fresh hs hr (userAddr_lower hv) h0
  refine ⟨loc', _, hs', hroots hr, hlist.kept hk, ?_, fun w hw' => ?_⟩
  · intro σ p hp
    obtain ⟨_, rfl⟩ | ⟨_, hp⟩ := update_cases hp
    · rfl
    · exact hw hp
  · rw [byteAt_eq hs' (hroots hr) hw', hpages]
    unfold Image.fresh
    by_cases hsame : pagePath w = pagePath v
    · have hpage := (pagePath_eq_iff w v).mp hsame
      rw [addr_lower hw', addr_lower hv] at hpage
      rw [if_pos (by rw [hsame]), if_pos (by omega), hsame, Function.update_self]
      exact congrArg some (byteOf_zero _)
    · have hpage : w.toNat / 4096 ≠ v.toNat / 4096 := fun hc =>
        hsame ((pagePath_eq_iff w v).mpr (by rw [addr_lower hw', addr_lower hv, hc]))
      have hk : (r, pagePath w) ≠ (r, pagePath v) := fun hc => hsame (Prod.mk.inj hc).2
      rw [if_neg hk, if_neg (by omega), Function.update_of_ne hk, ← hI w hw', byteAt_eq hs hr hw']

theorem Image.fresh_fresh (I : Image) (p n m : Nat) : (I.fresh p n).fresh (p + n) m = I.fresh p (n + m) := by
  funext x
  unfold fresh
  by_cases hlo : p ≤ x / 4096 ∧ x / 4096 < p + n
  · rw [if_neg (by omega), if_pos hlo, if_pos (by omega)]
  · by_cases hhi : p + n ≤ x / 4096 ∧ x / 4096 < p + n + m
    · rw [if_pos hhi, if_pos (by omega)]
    · rw [if_neg hhi, if_neg hlo, if_neg (by omega)]

theorem Image.fresh_zero (I : Image) (p : Nat) : I.fresh p 0 = I := by
  funext x
  exact if_neg (by omega)

/-- The loop of `allocate` maps its pages, one after the other. -/
theorem Imaged.allocatePages (start : Word) (c k : Nat) (h : Imaged s r areas I)
    (hv : start.toNat + 4096 * (k + c) ≤ 2 ^ 47)
    (h0 : 0 ∉ (allocatePages (framePtr r) start k c s).handed) :
    Imaged (allocatePages (framePtr r) start k c s) r areas (I.fresh (start.toNat / 4096 + k) c) := by
  induction c generalizing k s I with
  | zero =>
    rw [Image.fresh_zero]
    exact h
  | succ c ih =>
    have haddr : (start + BitVec.ofNat 64 (4096 * k)).toNat = start.toNat + 4096 * k := by
      rw [BitVec.toNat_add, BitVec.toNat_ofNat]
      omega
    rw [Memory.allocatePages] at h0 ⊢
    by_cases hz : (memAllocate s).1 = 0
    · rw [if_pos hz] at h0
      obtain ⟨loc, pg, hs, _⟩ := h
      obtain ⟨g, hpos, hav, _, heq⟩ := memAllocate_ok hs.tables.addressed h0
      rw [heq] at hz
      have hmax := maxMem_lt
      have hlt := hav.1
      have := (frameAddr_eq_zero (by omega)).mp hz
      omega
    · rw [if_neg hz] at h0 ⊢
      have hone := h.pageInsert (v := start + BitVec.ofNat 64 (4096 * k)) (by omega)
        ((allocatePages_steps ..).ok h0)
      have hrest := ih (k + 1) hone (by omega) h0
      have hpage : (start.toNat + 4096 * k) / 4096 = start.toNat / 4096 + k := by omega
      rwa [haddr, hpage, ← Nat.add_assoc, Image.fresh_fresh, Nat.add_comm 1] at hrest

/-- Writing a byte that is mapped. -/
theorem Imaged.setFrameByte (h : Imaged s r areas I) {v : Word} (hv : v.toNat < 2 ^ 47) (hmapped : (I v.toNat).isSome)
    (b : Byte) : ∃ f, translate s (frameAddr r) v true = .ok f ∧
      Imaged (setFrameByte s f v b) r areas (Function.update I v.toNat (some b)) := by
  obtain ⟨loc, pg, hs, hr, hlist, hw, hI⟩ := h
  rw [← hI v hv, byteAt_eq hs hr hv, Option.isSome_map] at hmapped
  obtain ⟨p, hp⟩ := Option.isSome_iff_exists.mp hmapped
  obtain ⟨hs', hother, hself⟩ := hs.setFrameByte hp (hw hp) v b
  have hlist' : Listed (Memory.setFrameByte s p.frame v b) loc pg areas.1 areas.2 := fun hc =>
    (hlist hc).imp fun g hg => ⟨hg.1, hg.2.of_memmap rfl⟩
  refine ⟨p.frame, ?_, loc, pg, hs', hr, hlist', hw, fun w hw' => ?_⟩
  · rw [hs.translate_eq hr v true (userAddr_lower hv), hp]
    dsimp only
    rw [hw hp, Bool.or_true, if_pos rfl]
  · rw [byteAt_eq hs' hr hw']
    by_cases hsame : pagePath w = pagePath v
    · have hpage := (pagePath_eq_iff w v).mp hsame
      rw [addr_lower hw', addr_lower hv] at hpage
      rw [hsame, hself, pageByte_update, hp]
      by_cases hoff : w.toNat % 4096 = v.toNat % 4096
      · have he : w.toNat = v.toNat := by omega
        rw [if_pos hoff, he, Function.update_self]
        rfl
      · have hne : w.toNat ≠ v.toNat := fun he => hoff (by rw [he])
        rw [if_neg hoff, Function.update_of_ne hne, ← hI w hw', byteAt_eq hs hr hw', hsame, hp]
    · have hne : w.toNat ≠ v.toNat := fun he => hsame (by rw [BitVec.eq_of_toNat_eq he])
      rw [hother _ (fun hc => hsame (Prod.mk.inj hc).2), Function.update_of_ne hne, ← hI w hw', byteAt_eq hs hr hw']

/-- A byte of a page that is not there. -/
theorem Imaged.unmapped (h : Imaged s r areas I) {v : Word} (hv : v.toNat < 2 ^ 47) (hnone : I v.toNat = none) :
    ∃ e, translate s (frameAddr r) v true = .error e := by
  obtain ⟨loc, pg, hs, hr, _, _, hI⟩ := h
  rw [← hI v hv, byteAt_eq hs hr hv, Option.map_eq_none_iff] at hnone
  refine ⟨faultCode false true, ?_⟩
  rw [hs.translate_eq hr v true (userAddr_lower hv), hnone]

theorem Image.write_apply (I : Image) (x : Nat) (bs : List Byte) (y : Nat) :
    I.write x bs y = if x ≤ y ∧ y < x + bs.length then bs[y - x]? else I y := by
  induction bs generalizing I x with
  | nil =>
    rw [List.length_nil, if_neg (by omega)]
    rfl
  | cons b bs ih =>
    rw [write, ih, List.length_cons]
    by_cases hin : x + 1 ≤ y ∧ y < x + 1 + bs.length
    · have hsub : y - x = y - (x + 1) + 1 := by omega
      rw [if_pos hin, if_pos (by omega), hsub, List.getElem?_cons_succ]
    · rw [if_neg hin]
      by_cases hx : y = x
      · subst hx
        rw [if_pos (by omega), Function.update_self, Nat.sub_self]
        rfl
      · rw [if_neg (by omega), Function.update_of_ne hx]

/-- Bytes that are all mapped are written. -/
theorem Imaged.storeBytes (bs : List Byte) (v : Word) (h : Imaged s r areas I) (hv : v.toNat + bs.length ≤ 2 ^ 47)
    (hmapped : ∀ k < bs.length, (I (v.toNat + k)).isSome) :
    ∃ t, storeBytes (frameAddr r) v bs s = some t ∧ Imaged t r areas (I.write v.toNat bs) ∧ t.handed = s.handed := by
  induction bs generalizing v s I with
  | nil => exact ⟨s, rfl, h, rfl⟩
  | cons b bs ih =>
    rw [List.length_cons] at hv hmapped
    have hnext : (v + 1).toNat = v.toNat + 1 := by
      have hone : (1 : Word).toNat = 1 := rfl
      rw [BitVec.toNat_add, hone]
      omega
    obtain ⟨f, htrans, hset⟩ := h.setFrameByte (by omega) (hmapped 0 (by omega)) b
    have hrest : ∀ k < bs.length, (Function.update I v.toNat (some b) ((v + 1).toNat + k)).isSome := by
      intro k hk
      rw [Function.update_of_ne (by omega), hnext, Nat.add_assoc, Nat.add_comm 1]
      exact hmapped (k + 1) (by omega)
    obtain ⟨t, ht, himage, hhanded⟩ := ih (v + 1) hset (by omega) hrest
    refine ⟨t, ?_, ?_, hhanded⟩
    · rw [Memory.storeBytes, htrans]
      exact ht
    · rw [hnext] at himage
      exact himage

/-- A byte that is not mapped stops the kernel. -/
theorem Imaged.storeBytes_fault (bs : List Byte) (v : Word) (h : Imaged s r areas I) (hv : v.toNat + bs.length ≤ 2 ^ 47)
    {k : Nat} (hk : k < bs.length) (hnone : I (v.toNat + k) = none) : Memory.storeBytes (frameAddr r) v bs s = none := by
  induction bs generalizing v s I k with
  | nil => cases hk
  | cons b bs ih =>
    rw [List.length_cons] at hv hk
    have hnext : (v + 1).toNat = v.toNat + 1 := by
      have hone : (1 : Word).toNat = 1 := rfl
      rw [BitVec.toNat_add, hone]
      omega
    rw [Memory.storeBytes]
    cases hfirst : I v.toNat with
    | none =>
      obtain ⟨e, he⟩ := h.unmapped (v := v) (by omega) hfirst
      rw [he]
    | some c =>
      obtain ⟨f, htrans, hset⟩ := h.setFrameByte (v := v) (by omega) (by rw [hfirst]; rfl) b
      have hpos : k ≠ 0 := by
        rintro rfl
        rw [Nat.add_zero, hfirst] at hnone
        cases hnone
      rw [htrans]
      refine ih (v + 1) hset (by omega) (k := k - 1) (by omega) ?_
      have hsame : (v + 1).toNat + (k - 1) = v.toNat + k := by omega
      rw [hsame, Function.update_of_ne (by omega)]
      exact hnone

/-! ### A segment -/

theorem allocatePages_length (pml4e start : Word) (k c : Nat) (s : Mem) :
    (allocatePages pml4e start k c s).handed.length ≤ s.handed.length + 4 * c := by
  induction c generalizing k s with
  | zero => exact Nat.le_refl _
  | succ c ih =>
    unfold allocatePages
    dsimp only
    split
    · rw [memAllocate_length]
      omega
    · have hrest := ih (k + 1)
        (pageInsert (memAllocate s).2 pml4e (start + BitVec.ofNat 64 (4096 * k)) (memAllocate s).1)
      have hone := pageInsert_length (memAllocate s).2 pml4e (start + BitVec.ofNat 64 (4096 * k)) (memAllocate s).1
      rw [memAllocate_length] at hone
      omega

/-- The pages `allocate` maps for a segment. -/
def Segment.count (seg : Segment) : Nat := allocateCount seg.vaddr (seg.memsz.setWidth 32)

theorem allocate_shape (hshape : Shape s n) (hroom : n + 4 * seg.count ≤ maxMem) (pml4e : Word) :
    ∃ m ≤ n + 4 * seg.count, Shape (allocate s pml4e seg.vaddr (seg.memsz.setWidth 32)) m := by
  have hlen := allocatePages_length pml4e (allocateStart seg.vaddr) 0 seg.count s
  have henough := (allocate_steps s pml4e seg.vaddr (seg.memsz.setWidth 32)).enough hshape
    (Nat.le_trans (Nat.add_le_add_left hlen n) (by omega))
  refine ⟨_, ?_, henough⟩
  unfold allocate
  change _ + (allocatePages pml4e (allocateStart seg.vaddr) 0 seg.count s).handed.length - _ ≤ _
  omega

open Classical in
/-- After `allocate` the pages of the segment read as zero. -/
theorem Imaged.allocate (h : Imaged s r areas I) (hfit : seg.Fits)
    (h0 : 0 ∉ (allocate s (framePtr r) seg.vaddr (seg.memsz.setWidth 32)).handed) :
    Imaged (allocate s (framePtr r) seg.vaddr (seg.memsz.setWidth 32)) r areas
      (fun x => if seg.OnPages (x / 4096) then some 0 else I x) := by
  unfold Memory.allocate at h0 ⊢
  by_cases hreach : seg.Reached
  · have hlower := hfit.lower
    have hcount := allocateCount_reached hfit hreach
    have hstart := (allocateStart_toNat hfit).1 hreach.1
    have hpages := h.allocatePages (allocateStart seg.vaddr) _ 0 (by omega) h0
    have himage : I.fresh ((allocateStart seg.vaddr).toNat / 4096 + 0) (allocateCount seg.vaddr (seg.memsz.setWidth 32)) =
        fun x => if seg.OnPages (x / 4096) then some 0 else I x := by
      funext x
      unfold Image.fresh Segment.OnPages
      have hpage : (allocateStart seg.vaddr).toNat / 4096 = seg.first / 4096 := by omega
      simp only [hreach, true_and, hpage, Nat.add_zero, hcount]
    rwa [himage] at hpages
  · have hnone : (fun x => if seg.OnPages (x / 4096) then some 0 else I x) = I := by
      funext x
      exact if_neg (fun hc => hreach hc.1)
    rw [allocateCount_unreached hfit hreach, hnone]
    exact h

/-- Filling the pages of a segment gives the image with the segment. -/
theorem Image.write_segment (I : Image) (hfit : seg.Fits) {J : Image}
    (hJ : ∀ x, ¬ seg.Covers x → J x = (I.segment seg) x) :
    (J.write seg.first (List.replicate seg.memsz.toNat 0)).write seg.first seg.data = I.segment seg := by
  have hdata := hfit.data
  funext x
  rw [write_apply, write_apply, List.length_replicate]
  by_cases hx : seg.Covers x
  · have hcovers : seg.first ≤ x ∧ x < seg.first + seg.memsz.toNat := hx
    have himage : I.segment seg x = some (seg.byte (x - seg.first)) := if_pos hx
    rw [himage]
    unfold Segment.byte
    by_cases hin : x < seg.first + seg.data.length
    · rw [if_pos ⟨hx.1, hin⟩, List.getD_eq_getElem?_getD, List.getElem?_eq_getElem (by omega)]
      rfl
    · rw [if_neg (by omega), if_pos hcovers, List.getElem?_replicate, if_pos (by omega),
        List.getD_eq_default _ _ (by omega)]
  · have hcovers : ¬ (seg.first ≤ x ∧ x < seg.first + seg.memsz.toNat) := hx
    rw [if_neg (by omega), if_neg hcovers, hJ x hx]

/-- Loading a segment: it is filled if its bytes are mapped, else the kernel faults. -/
theorem Imaged.loadSegment (h : Imaged s r areas I) (hfit : seg.Fits) (hshape : Shape s n)
    (hroom : n + 4 * seg.count ≤ maxMem) :
    (I.Fills seg → ∃ s₁ s₂ m,
      Memory.storeBytes (frameAddr r) seg.vaddr (List.replicate seg.memsz.toNat 0)
        (Memory.allocate s (framePtr r) seg.vaddr (seg.memsz.setWidth 32)) = some s₁ ∧
      Memory.storeBytes (frameAddr r) seg.vaddr seg.data s₁ = some s₂ ∧
      Imaged s₂ r areas (I.segment seg) ∧ m ≤ n + 4 * seg.count ∧ Shape s₂ m) ∧
    (¬ I.Fills seg → Memory.storeBytes (frameAddr r) seg.vaddr (List.replicate seg.memsz.toNat 0)
      (Memory.allocate s (framePtr r) seg.vaddr (seg.memsz.setWidth 32)) = none) := by
  classical
  have hlower := hfit.lower
  have hdata := hfit.data
  have hlast : seg.last = seg.vaddr.toNat + seg.memsz.toNat := rfl
  obtain ⟨m, hm, hshape'⟩ := allocate_shape hshape hroom (framePtr r)
  have halloc := h.allocate hfit hshape'.ok
  have hlen : (List.replicate seg.memsz.toNat (0 : Byte)).length = seg.memsz.toNat := List.length_replicate
  constructor
  · intro hfills
    have hmapped : ∀ k < (List.replicate seg.memsz.toNat (0 : Byte)).length,
        (if seg.OnPages ((seg.vaddr.toNat + k) / 4096) then some 0 else I (seg.vaddr.toNat + k)).isSome := by
      intro k hk
      rw [hlen] at hk
      have hcovers : seg.Covers (seg.vaddr.toNat + k) := ⟨Nat.le_add_right .., by omega⟩
      split
      · rfl
      · rename_i hno
        exact (hfills _ hcovers).resolve_left hno
    obtain ⟨s₁, h₁, himage₁, hhanded₁⟩ := halloc.storeBytes _ seg.vaddr (by rw [hlen]; omega) hmapped
    have hmapped₁ : ∀ k < seg.data.length,
        ((Image.write (fun x => if seg.OnPages (x / 4096) then some 0 else I x) seg.vaddr.toNat
          (List.replicate seg.memsz.toNat 0)) (seg.vaddr.toNat + k)).isSome := by
      intro k hk
      rw [Image.write_apply, hlen, if_pos (by omega), List.getElem?_replicate, if_pos (by omega)]
      rfl
    obtain ⟨s₂, h₂, himage₂, hhanded₂⟩ := himage₁.storeBytes _ seg.vaddr (by omega) hmapped₁
    refine ⟨s₁, s₂, m, h₁, h₂, ?_, hm, ?_⟩
    · have himage := Image.write_segment I hfit (J := fun x => if seg.OnPages (x / 4096) then some 0 else I x)
        (fun x hx => (if_neg hx).symm)
      rw [← himage]
      exact himage₂
    · have hsteps := (storeBytes_steps _ _ _ _ s₁ h₁).trans (storeBytes_steps _ _ _ _ s₂ h₂)
      have hsame : s₂.handed = (Memory.allocate s (framePtr r) seg.vaddr (seg.memsz.setWidth 32)).handed :=
        hhanded₂.trans hhanded₁
      have henough := hsteps.enough hshape' (by rw [hsame]; exact Nat.add_le_add_right hshape'.bound _)
      rwa [hsame, Nat.add_sub_cancel] at henough
  · intro hno
    obtain ⟨x, hx⟩ := not_forall.mp hno
    obtain ⟨hcovers, hx⟩ := Classical.not_imp.mp hx
    obtain ⟨hpage, hnone⟩ := not_or.mp hx
    have hcov : seg.vaddr.toNat ≤ x ∧ x < seg.vaddr.toNat + seg.memsz.toNat := hcovers
    have hsum : seg.vaddr.toNat + (x - seg.vaddr.toNat) = x := by omega
    refine halloc.storeBytes_fault _ seg.vaddr (by rw [hlen]; omega) (k := x - seg.vaddr.toNat) (by rw [hlen]; omega) ?_
    rw [hsum, if_neg hpage]
    exact Option.not_isSome_iff_eq_none.mp hnone

/-- Whether there is an area for a segment depends on the number of those there are. -/
theorem allocateVma_isSome (head : Word) (c : Nat) (s : Mem) : (allocateVma head c s).isSome ↔ c < maxVmas := by
  have hmax : maxVmas = 73 := rfl
  unfold allocateVma
  split_ifs with hfirst hroom
  · exact iff_of_true rfl (by omega)
  · exact iff_of_true rfl hroom
  · exact iff_of_false Bool.false_ne_true hroom

/-- An area takes a frame if it is the first. -/
theorem allocateVma_shape {head : Word} {c : Nat} {vm : Word × Mem} (hvm : allocateVma head c s = some vm) (hshape : Shape s n)
    (hroom : n + (if c = 0 then 1 else 0) ≤ maxMem) (seg : Segment) :
    Shape (fillVma vm.1 c seg vm.2) (n + if c = 0 then 1 else 0) := by
  have hfill : ∀ {t : Mem} {m : Nat}, Shape t m → Shape (fillVma vm.1 c seg t) m := fun ht =>
    ht.congr (fun _ _ => rfl) rfl
  unfold allocateVma at hvm
  split_ifs at hvm with hfirst
  · obtain rfl := Option.some.inj hvm
    rw [if_pos hfirst] at hroom ⊢
    exact hfill (hshape.allocate (by omega))
  · obtain rfl := Option.some.inj hvm
    rw [if_neg hfirst]
    exact hfill (hshape.congr (fun _ _ => rfl) rfl)

/-- The whole loop: memory follows the image, or both stop; or there are too many areas. -/
theorem Imaged.elfLoad (segs : List Segment) (h : Imaged s r areas I) (hfit : ∀ seg ∈ segs, seg.Fits)
    (hshape : Shape s n) (hroom : n + 4 * (segs.map Segment.count).sum + (if areas.2 = 0 then 1 else 0) ≤ maxMem)
    (hfull : areas.2 ≤ maxVmas) :
    (∀ J, I.load segs = some J → areas.2 + segs.length ≤ maxVmas → ∃ t areas',
      Memory.elfLoad (framePtr r) (frameAddr r) segs areas.1 areas.2 s = some t ∧ Imaged t r areas' J) ∧
    (I.load segs = none ∨ maxVmas < areas.2 + segs.length →
      Memory.elfLoad (framePtr r) (frameAddr r) segs areas.1 areas.2 s = none) := by
  induction segs generalizing s I n areas with
  | nil =>
    refine ⟨fun J hJ _ => ⟨s, areas, rfl, Option.some.inj hJ ▸ h⟩, fun hc => ?_⟩
    obtain hc | hc := hc
    · cases hc
    · exact absurd hc (Nat.not_lt.mpr hfull)
  | cons seg segs ih =>
    rw [List.map_cons, List.sum_cons] at hroom
    rw [List.length_cons]
    obtain ⟨hfilled, hfault⟩ := h.loadSegment (hfit seg (List.mem_cons_self ..)) hshape (by omega)
    by_cases hfills : I.Fills seg
    · obtain ⟨s₁, s₂, m, h₁, h₂, himage, hm, hshape₂⟩ := hfilled hfills
      have hload : I.load (seg :: segs) = (I.segment seg).load segs := if_pos hfills
      have helf : Memory.elfLoad (framePtr r) (frameAddr r) (seg :: segs) areas.1 areas.2 s =
          (allocateVma areas.1 areas.2 s₂).bind fun vm =>
            Memory.elfLoad (framePtr r) (frameAddr r) segs vm.1 (areas.2 + 1) (fillVma vm.1 areas.2 seg vm.2) := by
        rw [Memory.elfLoad, h₁, Option.bind_some, h₂, Option.bind_some]
      rw [hload, helf]
      cases hvm : allocateVma areas.1 areas.2 s₂ with
      | none =>
        have hno := mt (allocateVma_isSome areas.1 areas.2 s₂).mpr (by rw [hvm]; exact Bool.false_ne_true)
        exact ⟨fun J _ hle => absurd hle (by omega), fun _ => rfl⟩
      | some vm =>
        have hlt := (allocateVma_isSome areas.1 areas.2 s₂).mp (by rw [hvm]; rfl)
        have hshape' := allocateVma_shape hvm hshape₂ (by omega) seg
        have h0 : 0 ∉ vm.2.handed := (fillVma_steps vm.1 areas.2 seg vm.2).ok hshape'.ok
        have hrest := ih (himage.area hvm h0 seg) (fun seg' hmem => hfit seg' (List.mem_cons_of_mem _ hmem)) hshape'
          (by rw [if_neg (Nat.succ_ne_zero _)]; omega) (by show areas.2 + 1 ≤ _; omega)
        rw [show areas.2 + 1 + segs.length = areas.2 + (segs.length + 1) by omega] at hrest
        exact hrest
    · have hload : I.load (seg :: segs) = none := if_neg hfills
      have helf : Memory.elfLoad (framePtr r) (frameAddr r) (seg :: segs) areas.1 areas.2 s = none := by
        rw [Memory.elfLoad, hfault hfills, Option.bind_none]
      rw [hload, helf]
      exact ⟨fun J hJ => (by cases hJ), fun _ => rfl⟩

/-! ### Loading on images -/

/-- No address belongs to both. -/
def Segment.Apart (a b : Segment) : Prop := ∀ x, a.Covers x → ¬ b.Covers x

/-- The bytes of the first that lie on pages mapped for the second are zero anyway. -/
def Segment.Spared (a b : Segment) : Prop := ∀ x, a.Covers x → b.OnPages (x / 4096) → a.byte (x - a.first) = 0

/-- Every segment has been loaded as the file wants it. -/
def Image.Shows (J : Image) (segs : List Segment) : Prop :=
  ∀ seg ∈ segs, ∀ x, seg.Covers x → J x = some (seg.byte (x - seg.first))

namespace Segment

/-- A page that a segment shares with its neighbour ends below `END_LIMIT`. -/
theorem OnPages.low {x : Nat} (h : seg.OnPages (x / 4096)) (hx : ¬ seg.Covers x) :
    (x / 4096 + 1) * 4096 < endLimit.toNat := by
  obtain ⟨⟨hfirst, hlast⟩, hlo, hhi⟩ := h
  have hle : seg.first ≤ seg.last := Nat.le_add_right ..
  by_cases hbelow : x < seg.first
  · obtain hz | hlt := hfirst
    · omega
    · have : x / 4096 = seg.first / 4096 := by omega
      rwa [this]
  · have habove : seg.last ≤ x := by
      by_contra hc
      exact hx ⟨by omega, by omega⟩
    obtain hz | hlt := hlast
    · omega
    · have : x / 4096 = seg.last / 4096 := by omega
      rwa [this]

end Segment

namespace Image

end Image

/-! ### `elf_load` -/

/-- The address lies in the range of the header. -/
def Pheader.Covers (ph : Pheader) (x : Nat) : Prop :=
  ph.pVaddr.toNat ≤ x ∧ x < ph.pVaddr.toNat + ph.pMemsz.toNat

/-- A file with sizes as they should be and ranges apart from each other, an empty address
space, and enough frames: one for the list of areas and at most four for each page. -/
structure Loader (elf : ElfFile) (s : Mem) (r : Nat) : Prop where
  sizes : ∀ ph ∈ elf.loadable, ph.pFilesz.toNat ≤ ph.pMemsz.toNat ∧ ph.pMemsz.toNat < 2 ^ 31
  lower : ∀ ph ∈ elf.loadable, ph.pVaddr.toNat + ph.pMemsz.toNat ≤ 2 ^ 47
  apart : elf.loadable.Pairwise fun a b => ∀ x, a.Covers x → ¬ b.Covers x
  space : ∃ loc pg, Spaces s loc pg ∧ loc r [] = some r ∧ ∀ σ, pg (r, σ) = none
  enough : ∃ n, Shape s n ∧ n + 4 * (elf.segments.map Segment.count).sum + 1 ≤ maxMem

variable {elf : ElfFile}

theorem Loader.fits (h : Loader elf s r) {ph : Pheader} (hph : ph ∈ elf.loadable) : (ph.segment elf).Fits where
  data := by
    obtain ⟨hle, hlt⟩ := h.sizes ph hph
    show ((List.range _).map _).length ≤ _
    rw [List.length_map, List.length_range, BitVec.toNat_setWidth]
    exact Nat.le_trans (Nat.mod_le _ _) hle
  memsz := (h.sizes ph hph).2
  lower := h.lower ph hph

end Sbnix.Memory
