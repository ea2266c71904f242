import Sbnix.Memory.Process
import Sbnix.Memory.Direct

/-! The memory calls when no frame is left.

`mem_allocate` then returns zero, and zero is also the address of the frame 0.
`allocate` looks at what `mem_allocate` returns; `sys_brk`, `page_fault` and
`kmalloc_user_space` do not, and store `0 | PAGE_PERM` where the walk ends.

`walk_pages` goes on with zero too: an absent entry leads it to the table at
`KERN_MEM`, that is frame 0, which `mem_init` does not map. The processor raises a
page fault there, inside the call, and `page_fault` stores `0 | PAGE_PERM` for the
page at `KERN_MEM` in the kernel's tables, which all processes share. The functions
below are those of the memory code with this said of every address they use
(`reach`): where the processor finds no page, they stop (`Stop.touches`), and
`Passes` runs the fault. They also stop where `mem_free` halts the system. Up to a
stop they are the functions of the other modules (`insertsRun_done`,
`faultRun_done`, `cowRun_done`). -/
namespace Sbnix.Memory
open Words Library

/-- No frame is left. -/
def Exhausted (s : Mem) : Prop := ∀ f, ¬ s.Avail f

/-- The processor finds a page at the address. -/
def resident (s : Mem) (cr3 v : Word) : Bool :=
  match translate s cr3 v false with
  | .ok _ => true
  | .error code => code &&& pagePresent != 0

/-- Why a function did not get to its end: an address without a page, with the memory
at that point, or an exception that halts the system. -/
inductive Stop where
  | touches (q : Word) (s : Mem)
  | halts

/-- The kernel uses the address. -/
def reach (s : Mem) (cr3 q : Word) : Except Stop Unit :=
  if resident s cr3 q then .ok () else .error (.touches q s)

/-! ### The functions, up to a stop -/

/-- `walkLevel`, which uses one entry of the table. -/
def walkLevelRun (cr3 : Word) (absent : Word → Bool) (s : Mem) (table i : Word) : Except Stop (Word × Mem) :=
  (reach s cr3 (index table i)).map fun _ => walkLevel absent s table i

/-- `walk_pages`. -/
def walkRun (s : Mem) (cr3 pml4e logical : Word) : Except Stop (Word × Mem) :=
  (walkLevelRun cr3 pml4Absent s pml4e (addrRes logical .pml4e)).bind fun pdpe =>
  (walkLevelRun cr3 (· == 0) pdpe.2 pdpe.1 (addrRes logical .pdpe)).bind fun pde =>
  (walkLevelRun cr3 (· == 0) pde.2 pde.1 (addrRes logical .pde)).map fun pte =>
  (index pte.1 (addrRes logical .pte), pte.2)

/-- `page_insert`, and the round of `sys_brk` that does the same. -/
def insertRun (s : Mem) (cr3 pml4e logical physical : Word) : Except Stop Mem :=
  (walkRun s cr3 pml4e logical).bind fun pte =>
  (reach pte.2 cr3 pte.1).bind fun _ =>
  if (freePresent pte.2 pte.1).overrun then .error .halts
  else .ok ((freePresent pte.2 pte.1).store pte.1 (physical ||| pagePerm))

/-- Pages inserted one after the other, each with what `mem_allocate` returns: the
memory after each page, and how it ended if not in the usual way. -/
def insertsRun (cr3 pml4e : Word) : List Word → Mem → List Mem × Option Stop
  | [], _ => ([], none)
  | v :: vs, s =>
    match insertRun (memAllocate s).2 cr3 pml4e v (memAllocate s).1 with
    | .ok t => (t :: (insertsRun cr3 pml4e vs t).1, (insertsRun cr3 pml4e vs t).2)
    | .error e => ([], some e)

/-- `page_fault` on an absent page. -/
def faultRun (s : Mem) (cr3 pml4e logical : Word) : Except Stop Mem :=
  if logical < initialMem then .ok s
  else
    (walkRun s cr3 pml4e logical).bind fun pte =>
    (reach (memAllocate pte.2).2 cr3 pte.1).map fun _ =>
    (memAllocate pte.2).2.store pte.1 ((memAllocate pte.2).1 ||| pagePerm)

/-- `map_kernel` for one page. -/
def mapPageRun (s : Mem) (cr3 pml4e logical physical : Word) : Except Stop Mem :=
  if pageRoundless4096 logical ≠ 0 then
    (walkRun s cr3 pml4e (pageRoundless4096 logical)).bind fun pte =>
    (reach pte.2 cr3 pte.1).map fun _ => pte.2.store pte.1 (pageRoundless4096 physical ||| pagePerm)
  else .ok s

/-- `page_fault` on a write to a page marked copy-on-write, with the entry of the page
at `pte` and that of its frame at index `i` of `memmap`. The copy loop uses the page
it reads first, then the one it writes. -/
def cowRun (s : Mem) (cr3 pml4e logical pte : Word) (i : Nat) : Except Stop Mem :=
  let physical := s.load pte &&& pageMask
  if (s.memmap i).refCnt = 1 then .ok (s.store pte (physical ||| pagePerm))
  else
    let page := memAllocate (s.count i ((s.memmap i).refCnt - 1) (s.memmap i).cowFlag)
    (reach page.2 cr3 (physical + kernMem)).bind fun _ =>
    (reach page.2 cr3 (page.1 + kernMem)).bind fun _ =>
    mapPageRun (copyPage (physical + kernMem) (page.1 + kernMem) page.2) cr3 pml4e logical page.1

/-- The memories gone through: the one at the end, or those of the fault on the
address that has no page. -/
inductive Passes (cr3 pml4e : Word) : Except Stop Mem → Mem → Prop where
  | done (t : Mem) : Passes cr3 pml4e (.ok t) t
  | fault {q : Word} {u t : Mem} : Passes cr3 pml4e (faultRun u cr3 pml4e q) t →
      Passes cr3 pml4e (.error (.touches q u)) t

section
variable {s t u : Mem} {cr3 pml4e v q : Word}

theorem bind_ok {ε α β : Type} {x : Except ε α} {f : α → Except ε β} {b : β} (h : x.bind f = .ok b) :
    ∃ a, x = .ok a ∧ f a = .ok b := by
  cases x with
  | error e => cases h
  | ok a => exact ⟨a, rfl, h⟩

theorem map_ok {ε α β : Type} {x : Except ε α} {f : α → β} {b : β} (h : x.map f = .ok b) :
    ∃ a, x = .ok a ∧ f a = b := by
  cases x with
  | error e => cases h
  | ok a => exact ⟨a, rfl, Except.ok.inj h⟩

theorem walkRun_done {pte : Word × Mem} (h : walkRun s cr3 pml4e v = .ok pte) : pte = walkPages s pml4e v := by
  obtain ⟨pdpe, h1, h⟩ := bind_ok h
  obtain ⟨pde, h2, h⟩ := bind_ok h
  obtain ⟨pt, h3, rfl⟩ := map_ok h
  obtain ⟨_, _, rfl⟩ := map_ok h1
  obtain ⟨_, _, rfl⟩ := map_ok h2
  obtain ⟨_, _, rfl⟩ := map_ok h3
  rfl

theorem insertRun_done {physical : Word} (h : insertRun s cr3 pml4e v physical = .ok t) :
    t = pageInsert s pml4e v physical := by
  obtain ⟨pte, hwalk, h⟩ := bind_ok h
  obtain ⟨_, _, h⟩ := bind_ok h
  obtain rfl := walkRun_done hwalk
  split at h
  · cases h
  · exact (Except.ok.inj h).symm

/-- Pages inserted one after the other, whatever is mapped. -/
def insertPages (pml4e : Word) : List Word → Mem → Mem
  | [], s => s
  | v :: vs, s => insertPages pml4e vs (pageInsert (memAllocate s).2 pml4e v (memAllocate s).1)

/-- If nothing stops them, the last memory is the one the functions return. -/
theorem insertsRun_done (vs : List Word) (s : Mem) (h : (insertsRun cr3 pml4e vs s).2 = none) :
    ((insertsRun cr3 pml4e vs s).1.getLast?).getD s = insertPages pml4e vs s := by
  induction vs generalizing s with
  | nil => rfl
  | cons v vs ih =>
    rw [insertsRun] at h ⊢
    cases hone : insertRun (memAllocate s).2 cr3 pml4e v (memAllocate s).1 with
    | error e =>
      rw [hone] at h
      cases h
    | ok t =>
      rw [hone] at h
      obtain rfl := insertRun_done hone
      rw [insertPages, ← ih _ h, List.getLast?_cons, Option.getD_some]

theorem faultRun_done (exitReturns : Bool) {error : Word} (herror : error &&& pagePresent = 0)
    (h : faultRun s cr3 pml4e v = .ok t) : (pageFault exitReturns s pml4e v error).mem = some t := by
  have hcode : ¬ error &&& pagePresent ≠ 0 := fun hc => hc herror
  rw [pageFault, if_neg hcode]
  unfold faultRun at h
  by_cases hv : v < initialMem
  · rw [if_pos hv] at h ⊢
    obtain rfl := Except.ok.inj h
    cases exitReturns <;> rfl
  · rw [if_neg hv] at h ⊢
    obtain ⟨pte, hwalk, h⟩ := bind_ok h
    obtain ⟨_, _, rfl⟩ := map_ok h
    obtain rfl := walkRun_done hwalk
    rfl

theorem mapPageRun_done {physical : Word} (h : mapPageRun s cr3 pml4e v physical = .ok t) :
    t = mapKernel s pml4e v physical 4096 := by
  have hsize : (pageRoundoff4096 4096).toNat / 4096 = 1 := by decide
  have hzero : ∀ w : Word, w + BitVec.ofNat 64 (4096 * 0) = w := fun w => by simp
  unfold mapPageRun at h
  unfold mapKernel
  dsimp only
  split at h
  · rename_i hv
    obtain ⟨pte, hwalk, h⟩ := bind_ok h
    obtain ⟨_, _, rfl⟩ := map_ok h
    obtain rfl := walkRun_done hwalk
    rw [if_pos hv, hsize, mapPages, mapPages]
    simp only [hzero]
  · rename_i hv
    rw [if_neg hv]
    exact (Except.ok.inj h).symm

theorem cowRun_done (exitReturns : Bool) {error pte : Word} {i : Nat} (hpresent : error &&& pagePresent ≠ 0)
    (hwrite : error &&& pageWrite ≠ 0) (hlook : lookPages s pml4e v = some pte)
    (hentry : getPhysicalMemmap s (s.load pte &&& pageMask) = some i) (hcow : (s.memmap i).cowFlag = true)
    (h : cowRun s cr3 pml4e v pte i = .ok t) : (pageFault exitReturns s pml4e v error).mem = some t := by
  rw [pageFault, if_pos hpresent, if_pos hwrite, writeFault, hlook]
  dsimp only
  rw [hentry]
  dsimp only
  rw [if_pos hcow]
  unfold cowRun at h
  by_cases hone : (s.memmap i).refCnt = 1
  · rw [if_pos hone] at h ⊢
    obtain rfl := Except.ok.inj h
    rfl
  · rw [if_neg hone] at h ⊢
    obtain ⟨_, _, h⟩ := bind_ok h
    obtain ⟨_, _, h⟩ := bind_ok h
    obtain rfl := mapPageRun_done h
    rfl

end

/-! ### The entries of an address space -/

/-- The last-level entry of an address under the root `r`, through entries that are
present, as the processor goes. -/
def entryAt (s : Mem) (r : Nat) (v : Word) : Word :=
  let pml4e := s.phys r (slot v .pml4e)
  if pml4e &&& pagePresent = 0 then 0
  else
    let pdpe := s.phys (entryFrame pml4e) (slot v .pdpe)
    if pdpe &&& pagePresent = 0 then 0
    else
      let pde := s.phys (entryFrame pdpe) (slot v .pde)
      if pde &&& pagePresent = 0 then 0 else s.phys (entryFrame pde) (slot v .pte)

/-- The tables under the root `r`, by their levels, the kernel's among them. They are
in frames of the pool, and the kernel's direct map has them. -/
structure AddressSpace (s : Mem) (lev : Levels) (r : Nat) : Prop where
  root : lev r = some 4
  pool : ∀ {f k : Nat}, lev f = some k → 0 < f ∧ f < maxMem
  links : ∀ {f k : Nat} (i : Fin 512), lev f = some (k + 2) →
    s.phys f i = 0 ∨ ∃ g, lev g = some (k + 1) ∧ s.phys f i = tableEntry (some g)
  direct : ∀ {f k : Nat}, lev f = some (k + 1) → resident s (frameAddr r) (framePtr f) = true

/-- The page at `KERN_MEM` has its last-level table, that of the video memory, and is
not mapped: as `mem_init` leaves it. -/
structure LowPage (s : Mem) (r : Nat) : Prop where
  table : ∃ f, Reaches s r kernMem f
  absent : entryAt s r kernMem &&& pagePresent = 0

section
variable {s t u : Mem} {lev : Levels} {r f g k : Nat} {v w q : Word} {roots : Set Nat}

theorem entryAt_phys (h : t.phys = s.phys) : entryAt t r v = entryAt s r v := by
  unfold entryAt
  rw [h]

/-- All addresses of a page have its entry. -/
theorem entryAt_page (h : SamePage v w) : entryAt s r v = entryAt s r w := by
  obtain ⟨htable, hslot⟩ := (path_eq_iff v w).mpr h
  obtain ⟨h1, htable⟩ := List.cons.inj htable
  obtain ⟨h2, htable⟩ := List.cons.inj htable
  obtain ⟨h3, _⟩ := List.cons.inj htable
  unfold entryAt
  rw [h1, h2, h3, hslot]

theorem resident_iff (hr : r < maxMem) : resident s (frameAddr r) v = true ↔ entryAt s r v &&& pagePresent ≠ 0 := by
  have habsent : ¬ (faultCode false false &&& pagePresent != 0) = true := by decide
  have hpresent : (faultCode true false &&& pagePresent != 0) = true := by decide
  have hzero : ¬ (0 : Word) &&& pagePresent ≠ 0 := by decide
  unfold resident translate entryAt
  rw [entryFrame_frameAddr hr]
  dsimp only
  split_ifs with h1 h2 h3 h4
  · exact iff_of_false habsent hzero
  · exact iff_of_false habsent hzero
  · exact iff_of_false habsent hzero
  · exact iff_of_false habsent (not_not.mpr h4)
  · exact iff_of_true rfl h4
  · exact iff_of_true hpresent h4

theorem resident_phys (h : t.phys = s.phys) (cr3 v : Word) : resident t cr3 v = resident s cr3 v := by
  unfold resident translate
  rw [h]

theorem AddressSpace.lt (h : AddressSpace s lev r) (hf : lev f = some k) : f < 2 ^ 15 := (h.pool hf).2.trans maxMem_lt

/-- What matters is what is in the frames. -/
theorem AddressSpace.congr (h : AddressSpace s lev r) (hp : t.phys = s.phys) : AddressSpace t lev r where
  root := h.root
  pool := h.pool
  links := by
    rw [hp]
    exact h.links
  direct := fun hf => by
    rw [resident_phys hp]
    exact h.direct hf

theorem LowPage.congr (h : LowPage s r) (hp : t.phys = s.phys) : LowPage t r where
  table := by
    unfold Reaches Links
    rw [hp]
    exact h.table
  absent := by
    rw [entryAt_phys hp]
    exact h.absent

theorem index_framePtr_toNat {i : Word} (hf : f < 2 ^ 15) (hi : i.toNat < 512) :
    (index (framePtr f) i).toNat = 0xffffffff80000000 + 4096 * f + 8 * i.toNat := by
  have hk : kernMem.toNat = 0xffffffff80000000 := rfl
  have h8 : (8 : Word).toNat = 8 := rfl
  rw [index, framePtr, BitVec.toNat_add, BitVec.toNat_add, BitVec.toNat_mul, frameAddr_toNat (by omega), hk, h8]
  omega

/-- The words of a table are in its page. -/
theorem samePage_index {i : Word} (hf : f < 2 ^ 15) (hi : i.toNat < 512) :
    SamePage (index (framePtr f) i) (framePtr f) := by
  have hk : kernMem.toNat = 0xffffffff80000000 := rfl
  have hptr : (framePtr f).toNat = 0xffffffff80000000 + 4096 * f := by
    rw [framePtr, BitVec.toNat_add, frameAddr_toNat (by omega), hk]
    omega
  rw [SamePage, index_framePtr_toNat hf hi, hptr]
  omega

/-- The tables can be used. -/
theorem AddressSpace.reach_table (h : AddressSpace s lev r) (hf : lev f = some (k + 1)) {i : Word} (hi : i.toNat < 512)
    (hp : t.phys = s.phys) : reach t (frameAddr r) (index (framePtr f) i) = .ok () := by
  have hr := (h.pool h.root).2
  have hdirect := h.direct hf
  have hin : resident t (frameAddr r) (index (framePtr f) i) = true := by
    rw [resident_phys hp, resident_iff hr, entryAt_page (samePage_index (h.lt hf) hi), ← resident_iff hr]
    exact hdirect
  rw [reach, hin]
  rfl

/-- Frame 0 cannot. -/
theorem LowPage.reach_zero (h : LowPage s r) (hr : r < maxMem) {i : Word} (hi : i.toNat < 512) (hp : t.phys = s.phys) :
    reach t (frameAddr r) (index (framePtr 0) i) = .error (.touches (index (framePtr 0) i) t) := by
  have hnot : ¬ resident t (frameAddr r) (index (framePtr 0) i) = true := by
    rw [resident_phys hp, resident_iff hr, entryAt_page (samePage_index (by decide) hi)]
    exact not_not.mpr h.absent
  rw [reach, if_neg hnot]

/-! ### Walking -/

theorem memAllocate_exhausted (h : Exhausted s) : memAllocate s = (0, {s with handed := 0 :: s.handed}) := by
  obtain ⟨f, hav, _, _⟩ | ⟨_, heq⟩ := memAllocate_cases s
  · exact absurd hav (h f)
  · exact heq

/-- The same frames, and no more of them in the pool. -/
structure Failed (s t : Mem) : Prop where
  avail : ∀ f, t.Avail f → s.Avail f
  phys : t.phys = s.phys
  overrun : t.overrun = s.overrun

theorem Failed.refl (s : Mem) : Failed s s := ⟨fun _ => id, rfl, rfl⟩

theorem Failed.trans {a b c : Mem} (h : Failed a b) (h' : Failed b c) : Failed a c :=
  ⟨fun f ha => h.avail f (h'.avail f ha), h'.phys.trans h.phys, h'.overrun.trans h.overrun⟩

theorem Failed.exhausted (h : Failed s t) (hx : Exhausted s) : Exhausted t := fun f hav => hx f (h.avail f hav)

theorem allocate_failed (hx : Exhausted s) : (memAllocate s).1 = 0 ∧ Failed s (memAllocate s).2 := by
  rw [memAllocate_exhausted hx]
  exact ⟨rfl, fun _ => id, rfl, rfl⟩

/-- One level: the table the entry names, or frame 0. -/
theorem walkLevel_failed (hx : Exhausted s) (absent : Word → Bool) (hf : f < 2 ^ 52) {i : Word} (hi : i.toNat < 512) :
    ∃ u, walkLevel absent s (framePtr f) i = (framePtr ((s.phys f ⟨i.toNat, hi⟩).toNat / 4096), u) ∧ Failed s u := by
  cases habs : absent (s.load (index (framePtr f) i)) with
  | true =>
    refine ⟨(memAllocate s).2, ?_, (allocate_failed hx).2⟩
    rw [walkLevel, habs]
    simp only [if_true, (allocate_failed hx).1, ne_eq, not_true, if_false]
    rw [load_index _ hf hi, nextTable_frame, (allocate_failed hx).2.phys]
  | false =>
    refine ⟨s, ?_, .refl s⟩
    rw [walkLevel, habs]
    simp only [Bool.false_eq_true, if_false]
    rw [← nextTable_frame, ← load_index s hf hi]

theorem table_frame (hg : g < 2 ^ 15) : (tableEntry (some g)).toNat / 4096 = g := by
  rw [tableEntry, entry_toNat (by omega)]
  omega

theorem AddressSpace.next (h : AddressSpace s lev r) (hf : lev f = some (k + 2)) {i : Fin 512} (hl : Links s f i g) :
    lev g = some (k + 1) ∧ s.phys f i = tableEntry (some g) := by
  obtain hzero | ⟨g', hg, hentry⟩ := h.links i hf
  · exact absurd hzero hl.1
  · have hsame : g = g' := by rw [← hl.2, hentry, table_frame (h.lt hg)]
    rw [hsame]
    exact ⟨hg, hentry⟩

theorem AddressSpace.last (h : AddressSpace s lev r) (hre : Reaches s r v f) : lev f = some 1 := by
  obtain ⟨a, b, ha, hb, hf⟩ := hre
  exact (h.next (h.next (h.next h.root ha).1 hb).1 hf).1

/-- In a table of the address space, an entry leads to the next table or to frame 0. -/
theorem AddressSpace.level (h : AddressSpace s lev r) (hx : Exhausted s) (absent : Word → Bool)
    (hf : lev f = some (k + 2)) (v : Word) (l : Level) (hu : Failed s u) :
    ∃ t, Failed s t ∧
      ((∃ g, lev g = some (k + 1) ∧ Links s f (slot v l) g ∧
        walkLevelRun (frameAddr r) absent u (framePtr f) (addrRes v l) = .ok (framePtr g, t)) ∨
      (s.phys f (slot v l) = 0 ∧
        walkLevelRun (frameAddr r) absent u (framePtr f) (addrRes v l) = .ok (framePtr 0, t))) := by
  have hlt := h.lt hf
  obtain ⟨t, hwalk, ht⟩ := walkLevel_failed (hu.exhausted hx) absent (f := f) (by omega) (addrRes_lt v l)
  rw [hu.phys, show (⟨_, addrRes_lt v l⟩ : Fin 512) = slot v l from rfl] at hwalk
  have hrun : walkLevelRun (frameAddr r) absent u (framePtr f) (addrRes v l) =
      .ok (framePtr ((s.phys f (slot v l)).toNat / 4096), t) := by
    rw [walkLevelRun, h.reach_table hf (addrRes_lt v l) hu.phys, hwalk]
    rfl
  refine ⟨t, hu.trans ht, ?_⟩
  obtain hzero | ⟨g, hg, hentry⟩ := h.links (slot v l) hf
  · rw [hzero] at hrun
    exact Or.inr ⟨hzero, hrun⟩
  · rw [hentry, table_frame (h.lt hg)] at hrun
    refine Or.inl ⟨g, hg, ⟨?_, ?_⟩, hrun⟩
    · rw [hentry]
      exact entry_ne_zero _
    · rw [hentry, table_frame (h.lt hg)]

/-- A walk that goes to frame 0: it stops there, or ends with a pointer to it. -/
def Strays (s u : Mem) (r : Nat) (v : Word) : Prop :=
  ∃ t i, Failed s t ∧ i.toNat < 512 ∧
    (walkRun u (frameAddr r) (framePtr r) v = .error (.touches (index (framePtr 0) i) t) ∨
      walkRun u (frameAddr r) (framePtr r) v = .ok (index (framePtr 0) i, t))

/-- A walk ends in the last-level table if it is there, and goes to frame 0 if not. -/
theorem AddressSpace.walk (h : AddressSpace s lev r) (hx : Exhausted s) (v : Word) (hu : Failed s u) :
    (∃ f t, Reaches s r v f ∧ Failed s t ∧
      walkRun u (frameAddr r) (framePtr r) v = .ok (index (framePtr f) (addrRes v .pte), t)) ∨
    ((∀ f, ¬ Reaches s r v f) ∧ (LowPage s r → Strays s u r v)) := by
  have hr := (h.pool h.root).2
  have hstop : ∀ {absent : Word → Bool} {t : Mem} (l : Level), LowPage s r → Failed s t →
      walkLevelRun (frameAddr r) absent t (framePtr 0) (addrRes v l) =
        .error (.touches (index (framePtr 0) (addrRes v l)) t) := by
    intro absent t l hlow ht
    rw [walkLevelRun, hlow.reach_zero hr (addrRes_lt v l) ht.phys]
    rfl
  unfold Strays walkRun
  obtain ⟨t1, ht1, ⟨a, ha, hla, hrun1⟩ | ⟨hzero, hrun1⟩⟩ := h.level hx pml4Absent h.root v .pml4e hu
  · obtain ⟨t2, ht2, ⟨b, hb, hlb, hrun2⟩ | ⟨hzero, hrun2⟩⟩ := h.level hx (· == 0) ha v .pdpe ht1
    · obtain ⟨t3, ht3, ⟨f, hf, hlf, hrun3⟩ | ⟨hzero, hrun3⟩⟩ := h.level hx (· == 0) hb v .pde ht2
      · refine Or.inl ⟨f, t3, ⟨a, b, hla, hlb, hlf⟩, ht3, ?_⟩
        rw [hrun1, Except.bind, hrun2, Except.bind, hrun3]
        rfl
      · refine Or.inr ⟨fun f hre => ?_, fun hlow => ⟨t3, addrRes v .pte, ht3, addrRes_lt v .pte, Or.inr ?_⟩⟩
        · obtain ⟨a', b', ha', hb', hf'⟩ := hre
          obtain rfl : a' = a := ha'.2.symm.trans hla.2
          obtain rfl : b' = b := hb'.2.symm.trans hlb.2
          exact hf'.1 hzero
        · rw [hrun1, Except.bind, hrun2, Except.bind, hrun3]
          rfl
    · refine Or.inr ⟨fun f hre => ?_, fun hlow => ⟨t2, addrRes v .pde, ht2, addrRes_lt v .pde, Or.inl ?_⟩⟩
      · obtain ⟨a', b', ha', hb', _⟩ := hre
        obtain rfl : a' = a := ha'.2.symm.trans hla.2
        exact hb'.1 hzero
      · rw [hrun1, Except.bind, hrun2, Except.bind, hstop .pde hlow ht2]
        rfl
  · refine Or.inr ⟨fun f hre => ?_, fun hlow => ⟨t1, addrRes v .pdpe, ht1, addrRes_lt v .pdpe, Or.inl ?_⟩⟩
    · obtain ⟨a', _, ha', _⟩ := hre
      exact ha'.1 hzero
    · rw [hrun1, Except.bind, hstop .pdpe hlow ht1]
      rfl

/-! ### The entry an address has -/

/-- The entry is the one in its last-level table, also when last-level tables were
stored into. -/
theorem AddressSpace.entry_eq (h : AddressSpace s lev r) (hre : Reaches s r v f)
    (hsame : ∀ {g k}, lev g = some (k + 2) → t.phys g = s.phys g) : entryAt t r v = t.phys f (slot v .pte) := by
  obtain ⟨a, b, ha, hb, hf⟩ := hre
  obtain ⟨hla, hea⟩ := h.next h.root ha
  obtain ⟨hlb, heb⟩ := h.next hla hb
  obtain ⟨hlf, hef⟩ := h.next hlb hf
  have hpresent : ∀ g, ¬ tableEntry (some g) &&& pagePresent = 0 := fun g => entry_present _
  unfold entryAt
  dsimp only
  rw [hsame h.root, hea, if_neg (hpresent a), entryFrame_table (h.lt hla), hsame hla, heb, if_neg (hpresent b),
    entryFrame_table (h.lt hlb), hsame hlb, hef, if_neg (hpresent f), entryFrame_table (h.lt hlf)]

/-- An address with a page has a last-level table. -/
theorem AddressSpace.table (h : AddressSpace s lev r) (hp : entryAt s r v &&& pagePresent ≠ 0) :
    ∃ f, Reaches s r v f := by
  have hzero : ¬ (0 : Word) &&& pagePresent ≠ 0 := by decide
  have hlink : ∀ {f k : Nat} {i : Fin 512}, lev f = some (k + 2) → ¬ s.phys f i &&& pagePresent = 0 →
      ∃ g, lev g = some (k + 1) ∧ Links s f i g ∧ entryFrame (s.phys f i) = g := by
    intro f k i hf hpresent
    obtain he | ⟨g, hg, he⟩ := h.links i hf
    · rw [he] at hpresent
      exact absurd rfl hpresent
    · refine ⟨g, hg, ⟨?_, ?_⟩, ?_⟩
      · rw [he]
        exact entry_ne_zero _
      · rw [he, table_frame (h.lt hg)]
      · rw [he, entryFrame_table (h.lt hg)]
  unfold entryAt at hp
  dsimp only at hp
  split_ifs at hp with h1 h2 h3
  · exact absurd hp hzero
  · exact absurd hp hzero
  · exact absurd hp hzero
  · obtain ⟨a, hla, ha, he1⟩ := hlink h.root h1
    rw [he1] at h2 h3
    obtain ⟨b, hlb, hb, he2⟩ := hlink hla h2
    rw [he2] at h3
    obtain ⟨f, _, hf, _⟩ := hlink hlb h3
    exact ⟨f, a, b, ha, hb, hf⟩

theorem Reaches.unique (h : Reaches s r v f) (h' : Reaches s r v g) : f = g := by
  obtain ⟨a, b, ha, hb, hf⟩ := h
  obtain ⟨a', b', ha', hb', hf'⟩ := h'
  obtain rfl : a = a' := ha.2.symm.trans ha'.2
  obtain rfl : b = b' := hb.2.symm.trans hb'.2
  exact hf.2.symm.trans hf'.2

theorem Reaches.page (h : Reaches s r v f) (hp : SamePage w v) : Reaches s r w f := by
  obtain ⟨a, b, ha, hb, hf⟩ := h
  obtain ⟨htable, _⟩ := (path_eq_iff w v).mpr hp
  obtain ⟨h1, htable⟩ := List.cons.inj htable
  obtain ⟨h2, htable⟩ := List.cons.inj htable
  obtain ⟨h3, _⟩ := List.cons.inj htable
  exact ⟨a, b, by rwa [h1], by rwa [h2], by rwa [h3]⟩

/-! ### Storing the zero frame -/

theorem zero_perm : (0 : Word) ||| pagePerm = pagePerm := by decide

theorem AddressSpace.store (h : AddressSpace s lev r) (hre : Reaches s r v f) (hu : Failed s u) (w : Word) :
    (u.store (index (framePtr f) (addrRes v .pte)) w).phys = writeEntry s.phys f (slot v .pte) w := by
  have hlt := h.lt (h.last hre)
  rw [store_index u (by omega) (addrRes_lt v .pte), ← hu.phys]
  rfl

/-- With a last-level table, the fault installs frame 0. -/
theorem AddressSpace.fault (h : AddressSpace s lev r) (hx : Exhausted s) (hu : Failed s u) (hq : ¬ q < initialMem)
    (hre : Reaches s r q f) :
    ∃ t, faultRun u (frameAddr r) (framePtr r) q = .ok t ∧ t.phys = writeEntry s.phys f (slot q .pte) pagePerm := by
  obtain ⟨f', t, hre', ht, hwalk⟩ | ⟨hnone, _⟩ := h.walk hx q hu
  · obtain ⟨hzero, hfail⟩ := allocate_failed (ht.exhausted hx)
    have hall := ht.trans hfail
    have hf := h.last hre'
    obtain rfl := hre'.unique hre
    refine ⟨(memAllocate t).2.store (index (framePtr f') (addrRes q .pte)) pagePerm, ?_, h.store hre hall pagePerm⟩
    rw [faultRun, if_neg hq, hwalk, Except.bind, h.reach_table hf (addrRes_lt q .pte) hall.phys, hzero, zero_perm]
    rfl
  · exact absurd hre (hnone f)

/-- With a last-level table, an insertion halts the system or installs frame 0. -/
theorem AddressSpace.insert (h : AddressSpace s lev r) (hx : Exhausted s) (ho : s.overrun = false) (hu : Failed s u)
    (hre : Reaches s r v f) :
    (entryAt s r v &&& pagePresent ≠ 0 ∧ ¬ InMemmap (entryAt s r v)) ∧
        insertRun u (frameAddr r) (framePtr r) v 0 = .error .halts ∨
      ¬ (entryAt s r v &&& pagePresent ≠ 0 ∧ ¬ InMemmap (entryAt s r v)) ∧
        ∃ t, insertRun u (frameAddr r) (framePtr r) v 0 = .ok t ∧
          t.phys = writeEntry s.phys f (slot v .pte) pagePerm := by
  obtain ⟨f', t, hre', ht, hwalk⟩ | ⟨hnone, _⟩ := h.walk hx v hu
  · obtain rfl := hre'.unique hre
    have hf := h.last hre
    have hlt := h.lt hf
    have hload : t.load (index (framePtr f') (addrRes v .pte)) = entryAt s r v := by
      rw [load_index t (by omega) (addrRes_lt v .pte), ht.phys, h.entry_eq (t := s) hre fun _ => rfl]
      rfl
    have hover := freePresent_overrun t (index (framePtr f') (addrRes v .pte))
    rw [hload, ht.overrun, ho, Bool.false_or] at hover
    have hrun : insertRun u (frameAddr r) (framePtr r) v 0 =
        if (freePresent t (index (framePtr f') (addrRes v .pte))).overrun then .error .halts
        else .ok ((freePresent t (index (framePtr f') (addrRes v .pte))).store
          (index (framePtr f') (addrRes v .pte)) pagePerm) := by
      rw [insertRun, hwalk, Except.bind, h.reach_table hf (addrRes_lt v .pte) ht.phys, Except.bind, zero_perm]
    by_cases hhalt : entryAt s r v &&& pagePresent ≠ 0 ∧ ¬ InMemmap (entryAt s r v)
    · rw [decide_eq_true hhalt] at hover
      rw [hrun, if_pos hover]
      exact Or.inl ⟨hhalt, rfl⟩
    · rw [decide_eq_false hhalt] at hover
      rw [hrun, if_neg (by rw [hover]; exact Bool.false_ne_true)]
      refine Or.inr ⟨hhalt, _, rfl, ?_⟩
      rw [store_index _ (by omega) (addrRes_lt v .pte), freePresent_phys, ht.phys]
      rfl
  · exact absurd hre (hnone f)

end

/-! ### The calls as insertions -/

end Sbnix.Memory
