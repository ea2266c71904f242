import Sbnix.Memory.Levels

/-! The kernel's direct map (`mem_init`, `sys/memory.c`, lines 208 to 222).

`mem_init` builds the kernel's own table: it maps physical memory from `physbase`
up to `END_LIMIT` at `KERN_MEM`, and the two pages of video memory. The tables
come out of the pool that is being mapped. While it runs, `pml4e` is the physical
address of the root, which the boot loader's tables map to itself; the model
reaches the root at its kernel address throughout.

All of it lies below one entry of the root and one entry of the next level, so
the tables are the root, two tables and at most 64 last-level tables. `Laid` says
which they are and what they map, one page more for each round of the loop
(`Laid.page`). A process has the kernel's tables in its last slot; `Carried` says
that the processes leave them alone, whatever the order of the steps
(`step_carried`).

`walk_pages` does not clear the frames it makes tables of. All of this rests on their
being zero when they are taken: for the kernel's tables, in the entries that are
looked at (`ClearTables`), and for those of the processes (`ClearRun`). With other
words there it fails (`stale_direct_map`). -/
namespace Sbnix.Memory
open Words Library

/-- `mem_init`: the root in `cr3_addr`, and memory. -/
def memInit (s : Mem) (physbase physfree : Word) : Word × Mem :=
  let root := memAllocate (initMemmap s physfree)
  let pml4e := kernMem + root.1
  let s := clearPage pml4e root.2
  let s := mapKernel s pml4e (kernMem + physbase) physbase (endLimit - physbase)
  (root.1, mapKernel s pml4e (kernMem + videoMem) videoMem 8192)

theorem memInit_steps (s : Mem) (physbase physfree : Word) :
    Steps (memAllocate (initMemmap s physfree)).2 (memInit s physbase physfree).2 := by
  unfold memInit
  dsimp only
  exact ((clearPage_steps _ _).trans (mapKernel_steps _ _ _ _ _)).trans (mapKernel_steps _ _ _ _ _)

/-! ### Addresses of the direct map -/

/-- The kernel address of a page number below `END_LIMIT`. -/
theorem kernAddr_toNat {p : Word} (h : p.toNat < 2 ^ 27) : (kernMem + p).toNat = 0xffffffff80000000 + p.toNat := by
  have hk : kernMem.toNat = 0xffffffff80000000 := rfl
  rw [BitVec.toNat_add, hk]
  omega

theorem addrRes_kern {p : Word} (h : p.toNat < 2 ^ 27) :
    (addrRes (kernMem + p) .pml4e).toNat = 511 ∧ (addrRes (kernMem + p) .pdpe).toNat = 510 ∧
      (addrRes (kernMem + p) .pde).toNat = p.toNat / 4096 / 512 ∧
      (addrRes (kernMem + p) .pte).toNat = p.toNat / 4096 % 512 := by
  simp only [addrRes_toNat, kernAddr_toNat h]
  omega

theorem slot_kern {p : Word} (h : p.toNat < 2 ^ 27) :
    slot (kernMem + p) .pml4e = 511 ∧ slot (kernMem + p) .pdpe = 510 ∧
      (slot (kernMem + p) .pde).val = p.toNat / 4096 / 512 ∧
      (slot (kernMem + p) .pte).val = p.toNat / 4096 % 512 := by
  obtain ⟨h1, h2, h3, h4⟩ := addrRes_kern h
  exact ⟨Fin.ext h1, Fin.ext h2, h3, h4⟩

/-! ### One level of the walk -/

section
variable {s : Mem} {absent : Word → Bool} {f g m : Nat} {i : Word}

/-- The frame at the boundary of the pool becomes the table. -/
theorem walkLevel_absent (habs : ∀ e, absent e = (e == 0)) (hf : f < 2 ^ 15) (hi : i.toNat < 512)
    (hs : Shape s m) (hm : m < maxMem) (h : s.phys f ⟨i.toNat, hi⟩ = 0) :
    walkLevel absent s (framePtr f) i =
      (framePtr m, withTable s f ⟨i.toNat, hi⟩ m) := by
  have hmax := maxMem_lt
  have hload : s.load (index (framePtr f) i) = 0 := by rw [load_index s (by omega) hi, h]
  have habsent : absent 0 = true := by rw [habs]; rfl
  have hne : frameAddr m ≠ 0 := fun he => by
    have := (frameAddr_eq_zero (by omega)).mp he
    have := hs.pos
    omega
  rw [walkLevel, hload, habsent]
  simp only [if_true, hs.allocate_eq hm]
  rw [if_pos hne, store_index _ (by omega) hi, load_index _ (by omega) hi]
  dsimp only
  rw [writeEntry_same, nextTable_entry (by omega)]
  rfl

/-- If that did not fail, there was a frame. -/
theorem walkLevel_room (habs : ∀ e, absent e = (e == 0)) (hf : f < 2 ^ 15) (hi : i.toNat < 512) (hs : Shape s m)
    (h : s.phys f ⟨i.toNat, hi⟩ = 0) (h0 : 0 ∉ (walkLevel absent s (framePtr f) i).2.handed) : m < maxMem := by
  have hload : s.load (index (framePtr f) i) = 0 := by rw [load_index s (by omega) hi, h]
  have habsent : absent 0 = true := by rw [habs]; rfl
  rw [walkLevel, hload, habsent] at h0
  simp only [if_true] at h0
  split at h0
  · exact hs.exhausted h0
  · exact hs.exhausted h0

/-- The pool has the frames for all tables of the direct map, or at least has never
failed up to `s`. -/
def Room (n : Nat) (s : Mem) : Prop := n + 67 ≤ maxMem ∨ 0 ∉ s.handed

theorem Room.before {s t : Mem} {n : Nat} (h : Room n t) (hst : Steps s t) : Room n s := h.imp_right hst.ok

end

/-! ### The tables of the direct map -/

/-- The number of last-level tables. -/
def tableCount (t : Nat → Option Nat) : Nat := ((List.range 64).filter fun j => (t j).isSome).length

theorem tableCount_lt {t : Nat → Option Nat} {j : Nat} (hj : j < 64) (h : t j = none) : tableCount t < 64 := by
  have hmem : j ∈ List.range 64 := List.mem_range.mpr hj
  have hlt := List.length_filter_lt_length_iff_exists (l := List.range 64) (p := fun j => (t j).isSome)
  rw [List.length_range] at hlt
  exact hlt.mpr ⟨j, hmem, by simp [h]⟩

theorem tableCount_update {t : Nat → Option Nat} {j f : Nat} (hj : j < 64) (h : t j = none) :
    tableCount (Function.update t j (some f)) = tableCount t + 1 := by
  have hsplit : ∀ n, ((List.range n).filter fun i => (Function.update t j (some f) i).isSome).length =
      ((List.range n).filter fun i => (t i).isSome).length + (if j < n then 1 else 0) := by
    intro n
    induction n with
    | zero => rfl
    | succ n ih =>
      rw [List.range_succ, List.filter_append, List.filter_append, List.length_append, List.length_append, ih]
      by_cases hn : n = j
      · subst hn
        simp [h]
      · have hother : Function.update t j (some f) n = t n := Function.update_of_ne hn _ _
        simp only [List.filter_cons, List.filter_nil, hother]
        split_ifs <;> simp_all <;> omega
  rw [tableCount, hsplit, if_pos hj]
  rfl

/-- The last-level tables that are looked at: those from `lo` on, which `physbase` lies
in, and the first one for the video memory. -/
def Ranged (lo j : Nat) : Prop := j < 64 ∧ (j = 0 ∨ lo ≤ j)

/-- The root `n`, the two tables after it, and the last-level tables `t`, which map
the pages of `M`. The pool is used up to the frame `m`, and is as it was in `s₀`
from there on. -/
structure Laid (s₀ s : Mem) (n lo : Nat) (t : Nat → Option Nat) (m : Nat) (M : Set Nat) : Prop where
  shape : Shape s m
  count : m = n + 3 + tableCount t
  root : s.phys n 511 = tableEntry (some (n + 1))
  pdpe : s.phys (n + 1) 510 = tableEntry (some (n + 2))
  pde : ∀ (i : Fin 512), Ranged lo i → s.phys (n + 2) i = tableEntry (t i)
  own : ∀ {j f}, t j = some f → n + 3 ≤ f ∧ f < m
  inj : ∀ {i j f}, t i = some f → t j = some f → i = j
  pages : ∀ x ∈ M, ∃ f, t (x / 512) = some f ∧
    ∀ i : Fin 512, i.val = x % 512 → s.phys f i = tableEntry (some x)
  rest : ∀ f, m ≤ f → s.phys f = s₀.phys f ∧ s.memmap f = s₀.memmap f

section
variable {s₀ s : Mem} {n m lo : Nat} {t : Nat → Option Nat} {M : Set Nat} {p : Word}

/-- With the two upper tables in place, a walk only looks at the third. -/
theorem Laid.walk_upper (h : Laid s₀ s n lo t m M) (hp : p.toNat < 2 ^ 27) :
    walkPages s (framePtr n) (kernMem + p) =
      let pte := walkLevel (· == 0) s (framePtr (n + 2)) (addrRes (kernMem + p) .pde)
      (index pte.1 (addrRes (kernMem + p) .pte), pte.2) := by
  have hmax := maxMem_lt
  have hbound := h.shape.bound
  have hcount := h.count
  obtain ⟨h1, h2, _, _⟩ := slot_kern hp
  have hroot : walkLevel pml4Absent s (framePtr n) (addrRes (kernMem + p) .pml4e) = (framePtr (n + 1), s) :=
    walkLevel_present pml4Absent_iff (by omega) (addrRes_lt _ _) (by omega)
      (by rw [show (⟨_, addrRes_lt (kernMem + p) .pml4e⟩ : Fin 512) = 511 from h1]; exact h.root)
  have hpdpe : walkLevel (· == 0) s (framePtr (n + 1)) (addrRes (kernMem + p) .pdpe) = (framePtr (n + 2), s) :=
    walkLevel_present (fun _ => rfl) (by omega) (addrRes_lt _ _) (by omega)
      (by rw [show (⟨_, addrRes_lt (kernMem + p) .pdpe⟩ : Fin 512) = 510 from h2]; exact h.pdpe)
  rw [walkPages, hroot]
  dsimp only
  rw [hpdpe]

/-- A last-level table is linked where there was none. -/
theorem Laid.link (h : Laid s₀ s n lo t m M) (hm : m < maxMem) {i : Fin 512} (hi : Ranged lo i) (hnone : t i = none) :
    Laid s₀ (withTable s (n + 2) i m) n lo (Function.update t i (some m)) (m + 1) M where
  shape := (h.shape.take hm).congr (fun _ _ => rfl) rfl
  count := by
    rw [tableCount_update hi.1 hnone, h.count]
    omega
  root := by
    rw [withTable_other (by omega)]
    exact h.root
  pdpe := by
    rw [withTable_other (by omega)]
    exact h.pdpe
  pde := by
    intro j hj
    by_cases hij : j = i
    · subst hij
      rw [withTable_same, Function.update_self]
    · have hval : j.val ≠ i.val := fun hv => hij (Fin.ext hv)
      rw [withTable_other (fun hc => hij hc.2), Function.update_of_ne hval]
      exact h.pde j hj
  own := by
    intro j f hf
    have hcount := h.count
    obtain ⟨_, rfl⟩ | ⟨_, hf⟩ := update_cases hf
    · omega
    · have := h.own hf
      omega
  inj := update_inj h.inj fun j hj => Nat.lt_irrefl m (h.own hj).2
  pages := by
    intro x hx
    obtain ⟨f, hf, hentry⟩ := h.pages x hx
    refine ⟨f, update_keeps hnone hf, fun k hk => ?_⟩
    have := (h.own hf).1
    rw [withTable_other (by omega)]
    exact hentry k hk
  rest := by
    intro f hf
    have hcount := h.count
    obtain ⟨hphys, hmem⟩ := h.rest f (by omega)
    refine ⟨?_, (withTable_memmap (by omega)).trans hmem⟩
    rw [← hphys]
    funext j
    exact withTable_other (by omega)

/-- An entry of a last-level table is written. -/
theorem Laid.write (h : Laid s₀ s n lo t m M) {x f : Nat} (hf : t (x / 512) = some f) {i : Fin 512}
    (hi : i.val = x % 512) :
    Laid s₀ {s with phys := writeEntry s.phys f i (tableEntry (some x))} n lo t m (insert x M) where
  shape := h.shape.congr (fun _ _ => rfl) rfl
  count := h.count
  root := by
    have := (h.own hf).1
    dsimp only
    rw [writeEntry_other _ _ (by omega)]
    exact h.root
  pdpe := by
    have := (h.own hf).1
    dsimp only
    rw [writeEntry_other _ _ (by omega)]
    exact h.pdpe
  pde := by
    intro j hj
    have := (h.own hf).1
    dsimp only
    rw [writeEntry_other _ _ (by omega)]
    exact h.pde j hj
  own := h.own
  inj := h.inj
  pages := by
    intro y hy
    dsimp only
    by_cases hyx : y = x
    · subst hyx
      refine ⟨f, hf, fun k hk => ?_⟩
      obtain rfl : k = i := Fin.ext (by omega)
      exact writeEntry_same ..
    · obtain ⟨f', hf', hentry⟩ := h.pages y (Set.mem_of_mem_insert_of_ne hy hyx)
      refine ⟨f', hf', fun k hk => ?_⟩
      have hother : ¬ (f' = f ∧ k = i) := by
        intro hc
        have hsame := h.inj hf' (hc.1 ▸ hf)
        have hval := congrArg Fin.val hc.2
        omega
      rw [writeEntry_other _ _ hother]
      exact hentry k hk
  rest := by
    intro g hg
    have hown := (h.own hf).2
    obtain ⟨hphys, hmem⟩ := h.rest g hg
    refine ⟨?_, hmem⟩
    rw [← hphys]
    funext j
    exact writeEntry_other _ _ (by omega)

/-- One round of the loop: the page `x` is mapped, with a new table if it is the
first of its range. -/
theorem Laid.page (h : Laid s₀ s n lo t m M) {x : Nat} (hx : x < 2 ^ 15) (hlo : Ranged lo (x / 512))
    (hroom : Room n (walkPages s (framePtr n) (kernMem + frameAddr x)).2) :
    ∃ t' m', Laid s₀ ((walkPages s (framePtr n) (kernMem + frameAddr x)).2.store
      (walkPages s (framePtr n) (kernMem + frameAddr x)).1 (frameAddr x ||| pagePerm)) n lo t' m' (insert x M) := by
  have hmax := maxMem_lt
  have hbound := h.shape.bound
  have hcount := h.count
  have haddr : (frameAddr x).toNat = 4096 * x := frameAddr_toNat (by omega)
  have hp : (frameAddr x).toNat < 2 ^ 27 := by omega
  obtain ⟨_, _, hpde, hpte⟩ := slot_kern hp
  have hpage : (frameAddr x).toNat / 4096 = x := by omega
  rw [hpage] at hpde hpte
  have hsmall : Ranged lo (slot (kernMem + frameAddr x) .pde).val := by rwa [hpde]
  have hentry := h.pde (slot (kernMem + frameAddr x) .pde) hsmall
  have hstore : ∀ (u : Mem) (f : Nat), f < 2 ^ 15 →
      u.store (index (framePtr f) (addrRes (kernMem + frameAddr x) .pte)) (frameAddr x ||| pagePerm) =
        {u with phys := writeEntry u.phys f (slot (kernMem + frameAddr x) .pte) (tableEntry (some x))} := by
    intro u f hf
    rw [store_index u (by omega) (addrRes_lt _ _)]
    rfl
  rw [h.walk_upper hp] at hroom ⊢
  dsimp only at hroom ⊢
  cases hl : t (slot (kernMem + frameAddr x) .pde).val with
  | some f =>
    have hown := h.own hl
    rw [hl] at hentry
    rw [walkLevel_present (fun _ => rfl) (by omega) (addrRes_lt _ _) (by omega) hentry, hstore s f (by omega)]
    rw [hpde] at hl
    exact ⟨t, m, h.write hl hpte⟩
  | none =>
    rw [hl] at hentry
    have hm : m < maxMem := by
      obtain hroom | h0 := hroom
      · have hless := tableCount_lt hsmall.1 hl
        omega
      · exact walkLevel_room (fun _ => rfl) (by omega) (addrRes_lt _ _) h.shape hentry h0
    rw [walkLevel_absent (fun _ => rfl) (by omega) (addrRes_lt _ _) h.shape (by omega) hentry,
      hstore _ m (by omega)]
    have hlinked := h.link (by omega) hsmall hl
    have hnew : Function.update t (slot (kernMem + frameAddr x) .pde).val (some m) (x / 512) = some m := by
      rw [← hpde, Function.update_self]
    exact ⟨_, _, hlinked.write hnew hpte⟩

theorem frameAddr_add (a k : Nat) : frameAddr a + BitVec.ofNat 64 (4096 * k) = frameAddr (a + k) := by
  have hmul : 4096 * (a + k) = 4096 * a + 4096 * k := by ring
  rw [frameAddr, frameAddr, hmul, BitVec.ofNat_add]

/-- The loop of `map_kernel` over consecutive pages. -/
theorem Laid.pages_mapped (h : Laid s₀ s n lo t m M) {a : Nat} (c k : Nat) (hx : a + k + c ≤ 2 ^ 15)
    (hlo : ∀ x, a + k ≤ x → x < a + k + c → Ranged lo (x / 512))
    (hroom : Room n (mapPages (framePtr n) (kernMem + frameAddr a) (frameAddr a) k c s)) :
    ∃ t' m', Laid s₀ (mapPages (framePtr n) (kernMem + frameAddr a) (frameAddr a) k c s) n lo t' m'
      (M ∪ {x | a + k ≤ x ∧ x < a + k + c}) := by
  induction c generalizing s t m M k with
  | zero =>
    have hnone : {x | a + k ≤ x ∧ x < a + k + 0} = (∅ : Set Nat) :=
      Set.eq_empty_of_forall_notMem fun x hx => by
        have := hx.1
        have := hx.2
        omega
    rw [hnone, Set.union_empty]
    exact ⟨t, m, h⟩
  | succ c ih =>
    rw [mapPages, BitVec.add_assoc, frameAddr_add] at hroom ⊢
    obtain ⟨t', m', hstep⟩ := h.page (x := a + k) (by omega) (hlo (a + k) (by omega) (by omega))
      (hroom.before ((Steps.refl.store _ _).trans (mapPages_steps _ _ _ _ _ _)))
    have hunion : M ∪ {x | a + k ≤ x ∧ x < a + k + (c + 1)} =
        insert (a + k) M ∪ {x | a + (k + 1) ≤ x ∧ x < a + (k + 1) + c} := by
      ext x
      have hsplit : (a + k ≤ x ∧ x < a + k + (c + 1)) ↔
          x = a + k ∨ (a + (k + 1) ≤ x ∧ x < a + (k + 1) + c) := by omega
      show x ∈ M ∨ _ ↔ (x = a + k ∨ x ∈ M) ∨ _
      rw [Set.mem_ofPred_eq, Set.mem_ofPred_eq, hsplit]
      tauto
    rw [hunion]
    exact ih hstep (k + 1) (by omega) (fun x hlo' hhi => hlo x (by omega) (by omega)) hroom

/-! ### The two upper tables -/

/-- The state in which they have just been linked. -/
def upperTables (s : Mem) (n : Nat) : Mem := withTable (withTable s n 511 (n + 1)) (n + 1) 510 (n + 2)

theorem withTable_shape (hs : Shape s m) (hm : m < maxMem) (f : Nat) (i : Fin 512) : Shape (withTable s f i m) (m + 1) :=
  (hs.take hm).congr (fun _ _ => rfl) rfl

theorem upperTables_laid (hs : Shape s (n + 1)) (hn : n + 2 < maxMem)
    (hpde : ∀ i : Fin 512, Ranged lo i → s.phys (n + 2) i = 0)
    (hrest : ∀ f, n + 1 ≤ f → s.phys f = s₀.phys f ∧ s.memmap f = s₀.memmap f) :
    Laid s₀ (upperTables s n) n lo (fun _ => none) (n + 3) ∅ where
  shape := withTable_shape (withTable_shape hs (by omega) _ _) hn _ _
  count := rfl
  root := by rw [upperTables, withTable_other (by omega), withTable_same]
  pdpe := withTable_same
  pde := by
    intro i hi
    rw [upperTables, withTable_other (by omega), withTable_other (by omega), hpde i hi]
    rfl
  own := fun hf => nomatch hf
  inj := fun hf => nomatch hf
  pages := fun x hx => absurd hx (Set.notMem_empty x)
  rest := by
    intro f hf
    obtain ⟨hphys, hmem⟩ := hrest f (by omega)
    rw [upperTables, withTable_memmap (by omega), withTable_memmap (by omega), ← hphys]
    refine ⟨?_, hmem⟩
    funext j
    rw [withTable_other (by omega), withTable_other (by omega)]

/-- The frame after the root becomes the second table. -/
theorem walk_root (hs : Shape s (n + 1)) (hp : p.toNat < 2 ^ 27) (hroot : s.phys n 511 = 0)
    (hroom : Room n (walkLevel pml4Absent s (framePtr n) (addrRes (kernMem + p) .pml4e)).2) :
    n + 1 < maxMem ∧ ∀ p' : Word, p'.toNat < 2 ^ 27 →
      walkLevel pml4Absent s (framePtr n) (addrRes (kernMem + p') .pml4e) = (framePtr (n + 1), withTable s n 511 (n + 1)) := by
  have hmax := maxMem_lt
  have hbound := hs.bound
  have hslot : ∀ {p : Word}, p.toNat < 2 ^ 27 → (⟨_, addrRes_lt (kernMem + p) .pml4e⟩ : Fin 512) = 511 :=
    fun hp => (slot_kern hp).1
  have hn : n + 1 < maxMem := by
    obtain hroom | h0 := hroom
    · omega
    · exact walkLevel_room pml4Absent_iff (by omega) (addrRes_lt _ _) hs (by rw [hslot hp]; exact hroot) h0
  refine ⟨hn, fun p' hp' => ?_⟩
  rw [walkLevel_absent pml4Absent_iff (by omega) (addrRes_lt _ _) hs hn (by rw [hslot hp']; exact hroot), hslot hp']

/-- The frame after that becomes the third one. -/
theorem walk_pdpe (hs : Shape s (n + 2)) (hp : p.toNat < 2 ^ 27) (hpdpe : s.phys (n + 1) 510 = 0)
    (hroom : Room n (walkLevel (· == 0) s (framePtr (n + 1)) (addrRes (kernMem + p) .pdpe)).2) :
    n + 2 < maxMem ∧ ∀ p' : Word, p'.toNat < 2 ^ 27 →
      walkLevel (· == 0) s (framePtr (n + 1)) (addrRes (kernMem + p') .pdpe) =
        (framePtr (n + 2), withTable s (n + 1) 510 (n + 2)) := by
  have hmax := maxMem_lt
  have hbound := hs.bound
  have hslot : ∀ {p : Word}, p.toNat < 2 ^ 27 → (⟨_, addrRes_lt (kernMem + p) .pdpe⟩ : Fin 512) = 510 :=
    fun hp => (slot_kern hp).2.1
  have hn : n + 2 < maxMem := by
    obtain hroom | h0 := hroom
    · omega
    · exact walkLevel_room (fun _ => rfl) (by omega) (addrRes_lt _ _) hs (by rw [hslot hp]; exact hpdpe) h0
  refine ⟨hn, fun p' hp' => ?_⟩
  rw [walkLevel_absent (fun _ => rfl) (by omega) (addrRes_lt _ _) hs hn (by rw [hslot hp']; exact hpdpe), hslot hp']

/-- The first walk makes the two upper tables; afterwards it is the walk of a state
that has them. -/
theorem first_walk (hs : Shape s (n + 1)) {p₀ : Word} (hp₀ : p₀.toNat < 2 ^ 27)
    (hroom : Room n (walkPages s (framePtr n) (kernMem + p₀)).2)
    (hroot : s.phys n 511 = 0) (hpdpe : n + 1 < maxMem → s.phys (n + 1) 510 = 0)
    (hpde : n + 2 < maxMem → ∀ i : Fin 512, Ranged lo i → s.phys (n + 2) i = 0)
    (hrest : ∀ f, n + 1 ≤ f → s.phys f = s₀.phys f ∧ s.memmap f = s₀.memmap f) :
    Laid s₀ (upperTables s n) n lo (fun _ => none) (n + 3) ∅ ∧ ∀ p : Word, p.toNat < 2 ^ 27 →
      walkPages s (framePtr n) (kernMem + p) = walkPages (upperTables s n) (framePtr n) (kernMem + p) := by
  unfold walkPages at hroom
  dsimp only at hroom
  have hroom2 := hroom.before (walkLevel_steps _ _ _ _)
  obtain ⟨hn1, hfirst⟩ := walk_root hs hp₀ hroot (hroom2.before (walkLevel_steps _ _ _ _))
  have hzero : (withTable s n 511 (n + 1)).phys (n + 1) 510 = 0 := by
    rw [withTable_other (by omega)]
    exact hpdpe hn1
  rw [hfirst p₀ hp₀] at hroom2
  obtain ⟨hn2, hsecond⟩ := walk_pdpe (withTable_shape hs hn1 _ _) hp₀ hzero hroom2
  have hlaid := upperTables_laid hs hn2 (hpde hn2) hrest
  refine ⟨hlaid, fun p hp => ?_⟩
  rw [hlaid.walk_upper hp, walkPages, hfirst p hp]
  dsimp only
  rw [hsecond p hp]
  rfl

/-- The first page of a run of the loop. -/
theorem mapPages_succ (n a c : Nat) (u : Mem) :
    mapPages (framePtr n) (kernMem + frameAddr a) (frameAddr a) 0 (c + 1) u =
      mapPages (framePtr n) (kernMem + frameAddr a) (frameAddr a) 1 c
        ((walkPages u (framePtr n) (kernMem + frameAddr a)).2.store (walkPages u (framePtr n) (kernMem + frameAddr a)).1
          (frameAddr a ||| pagePerm)) := by
  rw [mapPages, BitVec.add_assoc, frameAddr_add]
  rfl

/-- A run of the loop from a cleared root on. -/
theorem first_pages_mapped (hs : Shape s (n + 1)) {a c : Nat} (hx : a + (c + 1) ≤ 2 ^ 15)
    (hlo : ∀ x, a ≤ x → x < a + (c + 1) → Ranged lo (x / 512))
    (hroom : Room n (mapPages (framePtr n) (kernMem + frameAddr a) (frameAddr a) 0 (c + 1) s))
    (hroot : s.phys n 511 = 0) (hpdpe : n + 1 < maxMem → s.phys (n + 1) 510 = 0)
    (hpde : n + 2 < maxMem → ∀ i : Fin 512, Ranged lo i → s.phys (n + 2) i = 0)
    (hrest : ∀ f, n + 1 ≤ f → s.phys f = s₀.phys f ∧ s.memmap f = s₀.memmap f) :
    ∃ t m, Laid s₀ (mapPages (framePtr n) (kernMem + frameAddr a) (frameAddr a) 0 (c + 1) s) n lo t m
      {x | a ≤ x ∧ x < a + (c + 1)} := by
  have haddr : (frameAddr a).toNat < 2 ^ 27 := by
    rw [frameAddr_toNat (by omega)]
    omega
  have hroom0 := hroom
  rw [mapPages_succ] at hroom0
  obtain ⟨hlaid, hwalk⟩ := first_walk hs haddr
    (hroom0.before ((Steps.refl.store _ _).trans (mapPages_steps _ _ _ _ _ _))) hroot hpdpe hpde hrest
  have hmap : mapPages (framePtr n) (kernMem + frameAddr a) (frameAddr a) 0 (c + 1) s =
      mapPages (framePtr n) (kernMem + frameAddr a) (frameAddr a) 0 (c + 1) (upperTables s n) := by
    rw [mapPages_succ, mapPages_succ, hwalk _ haddr]
  rw [hmap] at hroom ⊢
  have := hlaid.pages_mapped (a := a) (c + 1) 0 (by omega) (fun x hlo' hhi => hlo x (by omega) (by omega)) hroom
  rwa [Set.empty_union] at this

/-- Any root whose last entry is the kernel's translates the kernel addresses, as long
as the tables are as they were laid. -/
theorem Laid.translate (h : Laid s₀ s n lo t m M) {s' : Mem} (hsame : ∀ f, n < f → f < m → s'.phys f = s.phys f)
    {r : Nat} (hr : r < maxMem) (hslot : s'.phys r 511 = tableEntry (some (n + 1))) (hp : p.toNat < 2 ^ 27)
    (hlo : Ranged lo (p.toNat / 4096 / 512)) (hM : p.toNat / 4096 ∈ M) :
    translate s' (frameAddr r) (kernMem + p) true = .ok (p.toNat / 4096) := by
  have hmax := maxMem_lt
  have hbound := h.shape.bound
  have hcount := h.count
  obtain ⟨h1, h2, hpde, hpte⟩ := slot_kern hp
  obtain ⟨f, hf, hpage⟩ := h.pages _ hM
  have hown := h.own hf
  have hlink := h.pde (slot (kernMem + p) .pde) (by rwa [hpde])
  rw [hpde, hf] at hlink
  have hpresent : ∀ g, tableEntry (some g) &&& pagePresent ≠ 0 := fun g => entry_present _
  rw [Memory.translate]
  dsimp only
  rw [entryFrame_frameAddr hr, h1, hslot, if_neg (hpresent _), entryFrame_table (by omega), h2,
    hsame (n + 1) (by omega) (by omega), h.pdpe, if_neg (hpresent _), entryFrame_table (by omega),
    hsame (n + 2) (by omega) (by omega), hlink, if_neg (hpresent _), entryFrame_table (by omega),
    hsame f (by omega) hown.2, hpage _ hpte, if_neg (hpresent _), allows_table, allows_table, allows_table,
    allows_table, entryFrame_table (by omega)]
  rfl

end

/-! ### `mem_init` -/

/-- The entries of the first two tables that the direct map and the video memory go
through are zero in the frames of the pool they are made of, which nothing clears. -/
def ClearTables (s : Mem) (n : Nat) (physbase : Word) : Prop :=
  (n + 1 < maxMem → s.phys (n + 1) 510 = 0) ∧
    (n + 2 < maxMem → ∀ i : Fin 512, Ranged (physbase.toNat / 4096 / 512) i → s.phys (n + 2) i = 0)

theorem mapKernel_frames (s : Mem) {r a : Nat} {sz : Word} (ha : a < 2 ^ 15) (hsz : sz.toNat % 4096 = 0) :
    mapKernel s (framePtr r) (kernMem + frameAddr a) (frameAddr a) sz =
      mapPages (framePtr r) (kernMem + frameAddr a) (frameAddr a) 0 (sz.toNat / 4096) s := by
  have haddr : (frameAddr a).toNat = 4096 * a := frameAddr_toNat (by omega)
  have h4096 : (4096 : Word).toNat = 4096 := rfl
  have hzero : (0 : Word).toNat = 0 := rfl
  have hvir : (kernMem + frameAddr a) % 4096 = 0 := by
    apply BitVec.eq_of_toNat_eq
    rw [BitVec.toNat_umod, kernAddr_toNat (by omega), haddr, h4096, hzero]
    omega
  have hphys : frameAddr a % 4096 = 0 := by
    apply BitVec.eq_of_toNat_eq
    rw [BitVec.toNat_umod, haddr, h4096, hzero]
    omega
  have hsize : sz % 4096 = 0 := by
    apply BitVec.eq_of_toNat_eq
    rw [BitVec.toNat_umod, h4096, hzero, hsz]
  have hne : kernMem + frameAddr a ≠ 0 := fun he => by
    have := congrArg BitVec.toNat he
    rw [kernAddr_toNat (by omega)] at this
    omega
  rw [mapKernel, pageRoundless4096, if_pos hvir, pageRoundless4096, if_pos hphys, pageRoundoff4096, if_pos hsize]
  exact if_pos hne

section
variable {s : Mem} {physbase physfree : Word}

/-- The root of the kernel's tables, taken from the pool and cleared. -/
theorem clearedRoot {u : Mem} {n : Nat} (h : Shape u n) (hn : n < maxMem) :
    Shape (clearPage (framePtr n) (u.take n)) (n + 1) ∧
      (∀ f, f ≠ n → (clearPage (framePtr n) (u.take n)).phys f = u.phys f) ∧
      (∀ i, (clearPage (framePtr n) (u.take n)).phys n i = 0) ∧
      ∀ f, f ≠ n → (clearPage (framePtr n) (u.take n)).memmap f = u.memmap f := by
  have hmax := maxMem_lt
  rw [clearPage_eq (by omega)]
  refine ⟨(h.take hn).congr (fun _ _ => rfl) rfl, fun f hf => ?_, fun i => ?_, fun f hf => ?_⟩
  · exact Function.update_of_ne hf _ _
  · dsimp only
    rw [Function.update_self]
  · exact take_refCnt_other _ hf

theorem firstFree_eq (h : firstFree physfree < maxMem) : firstFree physfree = (physfree.toNat + 4095) / 4096 := by
  have hmin := Nat.min_le_left maxMem ((physfree.toNat + 4095) / 4096)
  rw [firstFree] at h ⊢
  omega

/-- Two runs of the loop, from a cleared root on. -/
theorem memInit_eq {a n : Nat} (ha : a < 0x7ffe) (hshape : Shape (initMemmap s physfree) n) (hn : n < maxMem) :
    memInit s (frameAddr a) physfree = (frameAddr n,
      mapPages (framePtr n) (kernMem + frameAddr 0xb8) (frameAddr 0xb8) 0 2
        (mapPages (framePtr n) (kernMem + frameAddr a) (frameAddr a) 0 (0x7ffe - a)
          (clearPage (framePtr n) ((initMemmap s physfree).take n)))) := by
  have hend : endLimit.toNat = 0x7ffe000 := rfl
  have haddr : (frameAddr a).toNat = 4096 * a := frameAddr_toNat (by omega)
  have hsize : (endLimit - frameAddr a).toNat = 4096 * (0x7ffe - a) := by
    rw [BitVec.toNat_sub_of_le (by rw [BitVec.le_def]; omega), hend]
    omega
  have hdirect : ∀ u, mapKernel u (framePtr n) (kernMem + frameAddr a) (frameAddr a) (endLimit - frameAddr a) =
      mapPages (framePtr n) (kernMem + frameAddr a) (frameAddr a) 0 (0x7ffe - a) u := by
    intro u
    have hcount : 4096 * (0x7ffe - a) / 4096 = 0x7ffe - a := by omega
    rw [mapKernel_frames u (by omega) (by rw [hsize]; omega), hsize, hcount]
  have hvideo : videoMem = frameAddr 0xb8 := rfl
  rw [memInit, hshape.allocate_eq hn]
  dsimp only
  rw [show kernMem + frameAddr n = framePtr n from rfl, hdirect, hvideo, mapKernel_frames _ (by decide) (by decide)]
  rfl

theorem memInit_laid (hnone : s.handed = []) (halign : physbase.toNat % 4096 = 0)
    (hbase : 0xb9fff < physbase.toNat) (hfree : physbase ≤ physfree)
    (hroom : Room (firstFree physfree) (memInit s physbase physfree).2)
    (hclear : ClearTables s (firstFree physfree) physbase) :
    ∃ t m M, (memInit s physbase physfree).1 = frameAddr (firstFree physfree) ∧
      Laid (initMemmap s physfree) (memInit s physbase physfree).2 (firstFree physfree) (physbase.toNat / 4096 / 512)
        t m M ∧
      ∀ x, physbase.toNat / 4096 ≤ x → x < 0x7ffe → x ∈ M := by
  have hmax : maxMem = 32510 := rfl
  have hfree' : physbase.toNat ≤ physfree.toNat := hfree
  have hshape := initMemmap_shape s physfree (by omega) hnone
  have hless : firstFree physfree < maxMem := by
    obtain hroom | h0 := hroom.before (memInit_steps s physbase physfree)
    · omega
    · exact hshape.exhausted h0
  have hn := firstFree_eq hless
  generalize firstFree physfree = n at hroom hclear hshape hless hn ⊢
  obtain ⟨a, ha⟩ : ∃ a, a = physbase.toNat / 4096 := ⟨_, rfl⟩
  obtain rfl : physbase = frameAddr a := by
    apply BitVec.eq_of_toNat_eq
    rw [frameAddr_toNat (by omega)]
    omega
  obtain ⟨c, hc⟩ : ∃ c, 0x7ffe - a = c + 1 := ⟨0x7ffe - a - 1, by omega⟩
  obtain ⟨hs, hphys, hroot, hmem⟩ := clearedRoot hshape hless
  rw [memInit_eq (by omega) hshape hless, hc] at hroom ⊢
  dsimp only at hroom ⊢
  have hranged : ∀ x, a ≤ x → x < a + (c + 1) → Ranged ((frameAddr a).toNat / 4096 / 512) (x / 512) :=
    fun x hlo hhi => ⟨by omega, by omega⟩
  obtain ⟨t, m, hlaid⟩ := first_pages_mapped hs (by omega) hranged (hroom.before (mapPages_steps _ _ _ _ _ _)) (hroot 511)
    (fun hlt => by rw [hphys _ (by omega)]; exact hclear.1 hlt)
    (fun hlt i hi => by rw [hphys _ (by omega)]; exact hclear.2 hlt i hi)
    (fun f hf => ⟨hphys f (by omega), hmem f (by omega)⟩)
  obtain ⟨t', m', hlaid'⟩ := hlaid.pages_mapped (a := 0xb8) 2 0 (by omega) (fun x hlo hhi => ⟨by omega, by omega⟩) hroom
  exact ⟨t', m', _, rfl, hlaid', fun x hlo hhi => Or.inl ⟨by omega, by omega⟩⟩

end

/-! ### What can be allocated later -/

/-- Whatever happens after `mem_init`, the frames come from above `physfree` and from
below `END_LIMIT`. -/
theorem allocated_range {s t : Mem} {physbase physfree : Word} (hfree : physbase ≤ physfree)
    (hst : Steps (memInit s physbase physfree).2 t) (hne : (memAllocate t).1 ≠ 0) :
    physbase ≤ (memAllocate t).1 ∧ (memAllocate t).1 < endLimit := by
  have hmax : maxMem = 32510 := rfl
  have hend : endLimit.toNat = 0x7ffe000 := rfl
  have hall : Steps (initMemmap s physfree) t :=
    ((memAllocate_steps _).trans (memInit_steps s physbase physfree)).trans hst
  obtain ⟨haddr, hav⟩ := hall.avail (initMemmap_addressed s physfree)
  obtain ⟨f, hf, _, heq⟩ | ⟨_, heq⟩ := memAllocate_cases t
  · have hlt := hf.1
    have hfirst := (hav hf).2
    have hword : (BitVec.ofNat 64 (4096 * f)).toNat = 4096 * f := frameAddr_toNat (by omega)
    rw [initMemmap] at hfirst
    dsimp only at hfirst
    rw [if_pos hlt] at hfirst
    have habove : ¬ BitVec.ofNat 64 (4096 * f) < physfree := by
      intro hc
      rw [if_pos hc] at hfirst
      cases hfirst
    rw [BitVec.lt_def, hword] at habove
    rw [heq, haddr f hlt, BitVec.le_def, BitVec.lt_def, frameAddr_toNat (by omega), hend]
    rw [BitVec.le_def] at hfree
    omega
  · rw [heq] at hne
    exact absurd rfl hne

/-! ### The address spaces of the processes -/

/-- Every frame that `walk_pages` or `cow_walk_pages` takes for a table in the step
holds zeros. An access takes one only if it faults. -/
def Op.Clear (pml4e : Word) (w : World) : Op → Prop
  | .create => True
  | .insert p v => ∀ cr3 ∈ w.procs[p]?,
    ClearTaken (memAllocate w.mem).2 (walkPages (memAllocate w.mem).2 (kernMem + cr3) v).2
  | .fork p => ∀ cr3 ∈ w.procs[p]?,
    ClearTaken (newRoot w.mem pml4e).2 (forkSpace w.mem pml4e (kernMem + cr3)).2
  | .read p v => ∀ cr3 ∈ w.procs[p]?, ClearTaken w.mem (walkPages w.mem (kernMem + cr3) v).2
  | .write p v _ => ∀ cr3 ∈ w.procs[p]?, ClearTaken w.mem (walkPages w.mem (kernMem + cr3) v).2

/-- In every step of the run. -/
def ClearRun (exitReturns : Bool) (pml4e : Word) (w : World) : List Op → Prop
  | [] => True
  | op :: ops => op.Clear pml4e w ∧ ClearRun exitReturns pml4e (step exitReturns pml4e w op).2 ops

/-- The frames from `n` to `m` are as `mem_init` left them, no address space uses
them, and every process has the kernel's tables in its last slot. -/
structure Carried (s₀ : Mem) (n m : Nat) (w : World) (lev : Levels) (roots : List Nat) : Prop where
  leveled : Leveled w.mem lev
  procs : w.procs = roots.map frameAddr
  root : ∀ r ∈ roots, lev r = some 4
  kernel : ∀ r ∈ roots, w.mem.phys r 511 = s₀.phys n 511
  apart : ∀ f, n ≤ f → f < m → ¬ w.mem.Avail f ∧ lev f = none
  same : ∀ f, n ≤ f → f < m → w.mem.phys f = s₀.phys f

section
variable {s₀ s' : Mem} {n m : Nat} {w : World} {lev lev' : Levels} {roots : List Nat}

/-- A step that stays in the frames that have a level, with the processes it was. -/
theorem Carried.extend (h : Carried s₀ n m w lev roots) (he : Extends w.mem lev s' lev') :
    Carried s₀ n m ⟨s', w.procs⟩ lev' roots := by
  have hnone : ∀ f, n ≤ f → f < m → lev' f = none := by
    intro f hlo hhi
    obtain ⟨hav, hl⟩ := h.apart f hlo hhi
    by_contra hsome
    exact (he.fresh hsome).elim (fun hc => hc hl) hav
  exact
    { leveled := he.leveled
      procs := h.procs
      root := fun r hr => he.keeps (h.root r hr)
      kernel := fun r hr => (he.kernel (h.root r hr)).trans (h.kernel r hr)
      apart := fun f hlo hhi => ⟨fun ha => (h.apart f hlo hhi).1 (he.avail ha), hnone f hlo hhi⟩
      same := fun f hlo hhi => (he.phys (hnone f hlo hhi)).trans (h.same f hlo hhi) }

/-- A new process with the kernel's entry. -/
theorem Carried.add (h : Carried s₀ n m w lev roots) {c : Nat} (hc : lev c = some 4)
    (hkernel : w.mem.phys c 511 = s₀.phys n 511) :
    Carried s₀ n m ⟨w.mem, w.procs ++ [frameAddr c]⟩ lev (roots ++ [c]) where
  leveled := h.leveled
  procs := by
    dsimp only
    rw [h.procs, List.map_append]
    rfl
  root := by
    intro r hr
    obtain hr | hr := List.mem_append.mp hr
    · exact h.root r hr
    · rw [List.mem_singleton.mp hr]
      exact hc
  kernel := by
    intro r hr
    obtain hr | hr := List.mem_append.mp hr
    · exact h.kernel r hr
    · rw [List.mem_singleton.mp hr]
      exact hkernel
  apart := h.apart
  same := h.same

/-- The root of a process, or no such process. -/
theorem Carried.lookup (h : Carried s₀ n m w lev roots) (p : Nat) :
    w.procs[p]? = none ∨ ∃ r, w.procs[p]? = some (frameAddr r) ∧ lev r = some 4 := by
  rw [h.procs, List.getElem?_map]
  cases hp : roots[p]? with
  | none => exact Or.inl rfl
  | some r => exact Or.inr ⟨r, rfl, h.root r (List.mem_of_getElem? hp)⟩

/-- The new root of a process takes the kernel's entry from the kernel's root. -/
theorem Carried.fresh_root (h : Carried s₀ n m w lev roots) (hn : n < m) (hlt : n < 2 ^ 15) {c : Nat} (ha : w.mem.Avail c)
    (hkernel : ∀ k, framePtr n = framePtr k → k < 2 ^ 15 → k ≠ c → s'.phys c 511 = w.mem.phys k 511) :
    s'.phys c 511 = s₀.phys n 511 := by
  have hne : n ≠ c := fun he => (h.apart n (Nat.le_refl n) hn).1 (he ▸ ha)
  rw [hkernel n rfl hlt hne, h.same n (Nat.le_refl n) hn]

theorem slot_user {v : Word} (h : (slot v .pml4e).val ≠ 511) : slot v .pml4e ≠ 511 := fun he => h (congrArg Fin.val he)

theorem insert_carried (exitReturns : Bool) (h : Carried s₀ n m w lev roots) (p : Nat) {v : Word}
    (hvalid : (Op.insert p v).Valid) (hclear : (Op.insert p v).Clear (framePtr n) w)
    (h0 : 0 ∉ (step exitReturns (framePtr n) w (.insert p v)).2.mem.handed) :
    ∃ lev' roots', Carried s₀ n m (step exitReturns (framePtr n) w (.insert p v)).2 lev' roots' := by
  obtain hp | ⟨r, hp, hr⟩ := h.lookup p
  · rw [step, hp]
    exact ⟨lev, roots, h⟩
  · have htables := hclear _ hp
    rw [step, hp] at h0 ⊢
    dsimp only at h0 ⊢
    obtain ⟨g, hg, ha, hpage⟩ := h.leveled.allocate ((pageInsert_steps _ _ _ _).ok h0)
    rw [pageInsert, store_handed, freePresent_handed] at h0
    rw [hg]
    obtain ⟨lev', hins⟩ := pageInsert_extends hpage.leveled (hpage.keeps hr) (slot_user hvalid) ha.1
      (Function.update_self ..) h0 htables
    exact ⟨lev', roots, h.extend (hpage.trans hins)⟩

theorem fork_carried (exitReturns : Bool) (hn : n < m) (hlt : n < 2 ^ 15) (h : Carried s₀ n m w lev roots) (p : Nat)
    (hclear : (Op.fork p).Clear (framePtr n) w)
    (h0 : 0 ∉ (step exitReturns (framePtr n) w (.fork p)).2.mem.handed) :
    ∃ lev' roots', Carried s₀ n m (step exitReturns (framePtr n) w (.fork p)).2 lev' roots' := by
  obtain hp | ⟨r, hp, hr⟩ := h.lookup p
  · rw [step, hp]
    exact ⟨lev, roots, h⟩
  · have htables := hclear _ hp
    rw [step, hp] at h0 ⊢
    dsimp only at h0 ⊢
    obtain ⟨c, lev', hroot, ha, hc, hext, hkernel⟩ := forkSpace_extends h.leveled hr (framePtr n) h0 htables
    rw [show kernMem + frameAddr r = framePtr r from rfl, hroot]
    exact ⟨lev', roots ++ [c], (h.extend hext).add hc (h.fresh_root hn hlt ha hkernel)⟩

theorem read_carried (exitReturns : Bool) (h : Carried s₀ n m w lev roots) (p : Nat) {v : Word}
    (hvalid : (Op.read p v).Valid) (hclear : (Op.read p v).Clear (framePtr n) w)
    (h0 : 0 ∉ (step exitReturns (framePtr n) w (.read p v)).2.mem.handed) :
    ∃ lev' roots', Carried s₀ n m (step exitReturns (framePtr n) w (.read p v)).2 lev' roots' := by
  obtain hp | ⟨r, hp, hr⟩ := h.lookup p
  · rw [step, hp]
    exact ⟨lev, roots, h⟩
  · have htables := hclear _ hp
    have hmem : (step exitReturns (framePtr n) w (.read p v)).2 =
        ⟨(access exitReturns w.mem (frameAddr r) (framePtr r) v false).2, w.procs⟩ := by
      rw [step, hp]
      dsimp only
      split
      · rfl
      · rfl
    rw [hmem] at h0 ⊢
    obtain ⟨lev', hext, _⟩ :=
      access_extends h.leveled hr (slot_user hvalid.2) hvalid.1 exitReturns false htables h0
    exact ⟨lev', roots, h.extend hext⟩

theorem write_carried (exitReturns : Bool) (h : Carried s₀ n m w lev roots) (p : Nat) {v : Word} (b : Byte)
    (hvalid : (Op.write p v b).Valid) (hclear : (Op.write p v b).Clear (framePtr n) w)
    (h0 : 0 ∉ (step exitReturns (framePtr n) w (.write p v b)).2.mem.handed) :
    ∃ lev' roots', Carried s₀ n m (step exitReturns (framePtr n) w (.write p v b)).2 lev' roots' := by
  obtain hp | ⟨r, hp, hr⟩ := h.lookup p
  · rw [step, hp]
    exact ⟨lev, roots, h⟩
  · have htables := hclear _ hp
    rw [step, hp] at h0 ⊢
    dsimp only at h0 ⊢
    have hacc : 0 ∉ (access exitReturns w.mem (frameAddr r) (framePtr r) v true).2.handed := by
      split at h0
      · exact h0
      · exact h0
    obtain ⟨lev', hext, hpage⟩ :=
      access_extends h.leveled hr (slot_user hvalid.2) hvalid.1 exitReturns true htables hacc
    rw [show kernMem + frameAddr r = framePtr r from rfl]
    cases hfound : (access exitReturns w.mem (frameAddr r) (framePtr r) v true).1 with
    | none => exact ⟨lev', roots, h.extend hext⟩
    | some f =>
      -- the byte goes into a page
      have hbyte := hext.leveled.write (i := wordOf v)
        (w := setByte ((access exitReturns w.mem (frameAddr r) (framePtr r) v true).2.phys f (wordOf v)) (v.toNat % 8) b)
        (hpage f hfound) (fun hc => by omega) fun l hl => by omega
      exact ⟨lev', roots, h.extend (hext.trans hbyte)⟩

theorem step_carried (exitReturns : Bool) (hn : n < m) (hlt : n < 2 ^ 15) (h : Carried s₀ n m w lev roots) (op : Op)
    (hvalid : op.Valid) (hclear : op.Clear (framePtr n) w) (h0 : 0 ∉ (step exitReturns (framePtr n) w op).2.mem.handed) :
    ∃ lev' roots', Carried s₀ n m (step exitReturns (framePtr n) w op).2 lev' roots' := by
  cases op with
  | create =>
    rw [step] at h0 ⊢
    obtain ⟨c, lev', hroot, ha, hc, hext, hkernel⟩ := newRoot_extends h.leveled (framePtr n) h0
    dsimp only
    rw [hroot]
    exact ⟨lev', roots ++ [c], (h.extend hext).add hc (h.fresh_root hn hlt ha hkernel)⟩
  | insert p v => exact insert_carried exitReturns h p hvalid hclear h0
  | fork p => exact fork_carried exitReturns hn hlt h p hclear h0
  | read p v => exact read_carried exitReturns h p hvalid hclear h0
  | write p v b => exact write_carried exitReturns h p b hvalid hclear h0

theorem runOps_carried (exitReturns : Bool) (hn : n < m) (hlt : n < 2 ^ 15) (h : Carried s₀ n m w lev roots)
    (ops : List Op) (hvalid : ∀ op ∈ ops, op.Valid) (hclear : ClearRun exitReturns (framePtr n) w ops)
    (h0 : 0 ∉ (runOps exitReturns (framePtr n) w ops).2.mem.handed) :
    ∃ lev' roots', Carried s₀ n m (runOps exitReturns (framePtr n) w ops).2 lev' roots' := by
  induction ops generalizing w lev roots with
  | nil => exact ⟨lev, roots, h⟩
  | cons op ops ih =>
    have h0' := (runOps_steps exitReturns (framePtr n) _ ops).ok h0
    obtain ⟨lev', roots', hnext⟩ := step_carried exitReturns hn hlt h op (hvalid op List.mem_cons_self) hclear.1 h0'
    exact ih hnext (fun op' hop => hvalid op' (List.mem_cons_of_mem _ hop)) hclear.2 h0

end

/-! ### The direct map -/

section
variable {s : Mem} {physbase physfree : Word}

/-- No process has been made yet, and the kernel's frames are not in the pool. -/
theorem Laid.carried {n m lo : Nat} {t : Nat → Option Nat} {M : Set Nat}
    (h : Laid (initMemmap s physfree) (memInit s physbase physfree).2 n lo t m M) :
    Carried (memInit s physbase physfree).2 n m ⟨(memInit s physbase physfree).2, []⟩ (fun _ => none) [] where
  leveled := ⟨h.shape.addressed, fun hf => (by cases hf), fun hf => (by cases hf)⟩
  procs := rfl
  root := fun r hr => by cases hr
  kernel := fun r hr => by cases hr
  apart := fun f hlo hhi => ⟨fun ha => by
    have := (h.shape.avail f ha.1).mp ha
    omega, rfl⟩
  same := fun _ _ _ => rfl

/-- The kernel's direct map. With zeros in the entries of the first two tables that
it goes through, the kernel's tables map `KERN_MEM + p` to `p`, present and writable.
Every frame allocated later lies in the range mapped. Every process that is made has
the same map, whatever the processes do in their own slots, as long as the frames
that become their tables hold zeros then. -/
theorem kernel_direct_map (s : Mem) (physbase physfree : Word) (hnone : s.handed = [])
    (halign : physbase.toNat % 4096 = 0) (hbase : 0xb9fff < physbase.toNat) (hfree : physbase ≤ physfree)
    (henough : 0 ∉ (memInit s physbase physfree).2.handed) :
    (ClearTables s (firstFree physfree) physbase → ∀ p, physbase ≤ p → p < endLimit →
      translate (memInit s physbase physfree).2 (memInit s physbase physfree).1 (kernMem + p) true =
        .ok (p.toNat / 4096)) ∧
    (∀ t, Steps (memInit s physbase physfree).2 t → (memAllocate t).1 ≠ 0 →
      physbase ≤ (memAllocate t).1 ∧ (memAllocate t).1 < endLimit) ∧
    (ClearTables s (firstFree physfree) physbase → ∀ exitReturns ops, (∀ op ∈ ops, op.Valid) →
      let pml4e := kernMem + (memInit s physbase physfree).1
      let boot : World := ⟨(memInit s physbase physfree).2, []⟩
      let w := (runOps exitReturns pml4e boot ops).2
      ClearRun exitReturns pml4e boot ops → 0 ∉ w.mem.handed → ∀ cr3 ∈ w.procs, ∀ p, physbase ≤ p → p < endLimit →
        translate w.mem cr3 (kernMem + p) true = .ok (p.toNat / 4096)) := by
  have hmax := maxMem_lt
  have hend : endLimit.toNat = 0x7ffe000 := rfl
  have hrange : ∀ p : Word, physbase ≤ p → p < endLimit →
      p.toNat < 2 ^ 27 ∧ physbase.toNat / 4096 ≤ p.toNat / 4096 ∧ p.toNat / 4096 < 0x7ffe := by
    intro p hlo hhi
    rw [BitVec.le_def] at hlo
    rw [BitVec.lt_def, hend] at hhi
    omega
  have hranged : ∀ p : Word, physbase ≤ p → p < endLimit →
      Ranged (physbase.toNat / 4096 / 512) (p.toNat / 4096 / 512) := by
    intro p hlo hhi
    obtain ⟨_, hplo, hphi⟩ := hrange p hlo hhi
    exact ⟨by omega, Or.inr (Nat.div_le_div_right hplo)⟩
  refine ⟨fun hclear p hlo hhi => ?_, fun t hst hne => allocated_range hfree hst hne, ?_⟩
  · obtain ⟨t, m, M, hcr3, hlaid, hM⟩ := memInit_laid hnone halign hbase hfree (Or.inr henough) hclear
    obtain ⟨hp, hplo, hphi⟩ := hrange p hlo hhi
    have hbound := hlaid.shape.bound
    have hcount := hlaid.count
    rw [hcr3]
    exact hlaid.translate (fun _ _ _ => rfl) (by omega) hlaid.root hp (hranged p hlo hhi) (hM _ hplo hphi)
  · intro hclear exitReturns ops hvalid pml4e boot w hrun h0 cr3 hmem p hlo hhi
    obtain ⟨t, m, M, hcr3, hlaid, hM⟩ := memInit_laid hnone halign hbase hfree (Or.inr henough) hclear
    obtain ⟨hp, hplo, hphi⟩ := hrange p hlo hhi
    have hbound := hlaid.shape.bound
    have hcount := hlaid.count
    have hpml4e : pml4e = framePtr (firstFree physfree) := by rw [framePtr, ← hcr3]
    have hw : w = (runOps exitReturns (framePtr (firstFree physfree)) boot ops).2 := by rw [← hpml4e]
    obtain ⟨lev, roots, hcarried⟩ := runOps_carried exitReturns (by omega) (by omega) hlaid.carried ops hvalid
      (by rw [← hpml4e]; exact hrun) (by rw [← hpml4e]; exact h0)
    rw [← hw] at hcarried
    rw [hcarried.procs] at hmem
    obtain ⟨r, hr, rfl⟩ := List.mem_map.mp hmem
    have hlt := (hcarried.leveled.taken (hcarried.root r hr)).1
    exact hlaid.translate (fun f hlo hhi => hcarried.same f (by omega) hhi) hlt
      (by rw [hcarried.kernel r hr, hlaid.root]) hp (hranged p hlo hhi) (hM _ hplo hphi)

end

/-- Memory that holds no zero but in the entries of the kernel's first two tables that
are looked at, before `init_memmap`. -/
def dirtyMem : Mem :=
  ⟨fun _ => ⟨0, .busy, 0, false⟩,
    fun f i => if f = 1538 ∧ i = 510 ∨ f = 1539 ∧ i.val < 64 ∧ (i.val = 0 ∨ 3 ≤ i.val) then 0 else 0xdead, [], false⟩

theorem dirtyMem_tables : ClearTables dirtyMem (firstFree 0x601000) 0x600000 := by
  have hfirst : firstFree 0x601000 = 1537 := by decide
  have hlo : (0x600000 : Word).toNat / 4096 / 512 = 3 := by decide
  rw [hfirst, ClearTables, hlo]
  refine ⟨fun _ => rfl, fun _ i hi => ?_⟩
  have hcond : 1537 + 2 = 1538 ∧ i = 510 ∨ 1537 + 2 = 1539 ∧ i.val < 64 ∧ (i.val = 0 ∨ 3 ≤ i.val) := Or.inr ⟨rfl, hi⟩
  exact if_pos hcond

/-- There are frames for the kernel's tables and for a root more. -/
theorem dirtyMem_enough (exitReturns : Bool) (pml4e : Word) :
    0 ∉ (runOps exitReturns pml4e ⟨(memInit dirtyMem 0x600000 0x601000).2, []⟩ [.create]).2.mem.handed := by
  have halign : (0x600000 : Word).toNat % 4096 = 0 := by decide
  have hfree : (0x600000 : Word) ≤ 0x601000 := by decide
  have hfirst : firstFree 0x601000 = 1537 := by decide
  have hmax : maxMem = 32510 := rfl
  obtain ⟨t, m, _, _, hlaid, _⟩ := memInit_laid (s := dirtyMem) rfl halign (by decide) hfree (Or.inl (by decide))
    dirtyMem_tables
  have hcount := hlaid.count
  have htables : tableCount t ≤ 64 := (List.length_filter_le _ _).trans_eq (List.length_range ..)
  rw [hfirst] at hcount
  have hlen := newRoot_length (memInit dirtyMem 0x600000 0x601000).2 pml4e
  exact ((newRoot_steps _ pml4e).enough hlaid.shape (by omega)).ok

theorem dirtyMem_boot : 0 ∉ (memInit dirtyMem 0x600000 0x601000).2.handed :=
  (runOps_steps false 0 ⟨(memInit dirtyMem 0x600000 0x601000).2, []⟩ [.create]).ok (dirtyMem_enough false 0)

/-- A kernel of one page below 8 MiB: its map, and that of a process. -/
theorem kernel_direct_map_dirty :
    translate (memInit dirtyMem 0x600000 0x601000).2 (memInit dirtyMem 0x600000 0x601000).1 (kernMem + 0x745678) true =
        .ok 0x745 ∧
      let pml4e := kernMem + (memInit dirtyMem 0x600000 0x601000).1
      let w := (runOps false pml4e ⟨(memInit dirtyMem 0x600000 0x601000).2, []⟩ [.create]).2
      ∀ cr3 ∈ w.procs, translate w.mem cr3 (kernMem + 0x745678) true = .ok 0x745 := by
  have hmap := kernel_direct_map dirtyMem 0x600000 0x601000 rfl (by decide) (by decide) (by decide) dirtyMem_boot
  refine ⟨hmap.1 dirtyMem_tables 0x745678 (by decide) (by decide), fun cr3 hcr3 => ?_⟩
  exact hmap.2.2 dirtyMem_tables false [.create] (by decide) ⟨trivial, trivial⟩ (dirtyMem_enough false _) cr3 hcr3 0x745678
    (by decide) (by decide)

/-! ### A pool that is not clear -/

section
variable {s : Mem} {n g h : Nat} {e e' : Word}

/-- What the upper entries of the kernel's addresses lead to, all tables there. -/
theorem walkPages_stale (hn : n + 1 < maxMem) (hroot : s.phys n 511 = tableEntry (some (n + 1)))
    (hpdpe : s.phys (n + 1) 510 = e) (he : e ≠ 0) (hg : e.toNat / 4096 = g) (hpde : ∀ i, s.phys g i = e') (he' : e' ≠ 0)
    (hh : e'.toNat / 4096 = h) {p : Word} (hp : p.toNat < 2 ^ 27) :
    walkPages s (framePtr n) (kernMem + p) = (index (framePtr h) (addrRes (kernMem + p) .pte), s) := by
  have hmax := maxMem_lt
  obtain ⟨h1, h2, _, _⟩ := slot_kern hp
  have hnext : ∀ {f d : Nat} {w : Word} (l : Level), f < 2 ^ 52 → s.phys f (slot (kernMem + p) l) = w → w ≠ 0 →
      w.toNat / 4096 = d → walkLevel (· == 0) s (framePtr f) (addrRes (kernMem + p) l) = (framePtr d, s) := by
    intro f d w l hf hw hne hd
    have hload : s.load (index (framePtr f) (addrRes (kernMem + p) l)) = w := by
      rw [load_index s hf (addrRes_lt _ l)]
      exact hw
    rw [walkLevel, hload, beq_eq_false_iff_ne.mpr hne]
    simp only [Bool.false_eq_true, if_false, hload]
    rw [nextTable_frame, hd]
  have hlt := e.isLt
  have hfirst : walkLevel pml4Absent s (framePtr n) (addrRes (kernMem + p) .pml4e) = (framePtr (n + 1), s) :=
    walkLevel_present pml4Absent_iff (by omega) (addrRes_lt _ _) (by omega)
      (by rw [show (⟨_, addrRes_lt (kernMem + p) .pml4e⟩ : Fin 512) = 511 from h1]; exact hroot)
  rw [walkPages, hfirst]
  dsimp only
  rw [hnext .pdpe (by omega) (by rw [h2]; exact hpdpe) he hg]
  dsimp only
  rw [hnext .pde (by omega) (hpde _) he' hh]

/-- Then the loop stores into the one frame the walks end in. -/
theorem mapPages_stale (hn : n + 1 < maxMem) (he : e ≠ 0) (hg : e.toNat / 4096 = g) (he' : e' ≠ 0)
    (hh : e'.toNat / 4096 = h) (hne : h ≠ n ∧ h ≠ n + 1 ∧ h ≠ g) {a : Nat} (c k : Nat) (hc : a + k + c ≤ 2 ^ 15)
    (hroot : s.phys n 511 = tableEntry (some (n + 1))) (hpdpe : s.phys (n + 1) 510 = e) (hpde : ∀ i, s.phys g i = e') :
    (∀ f, f ≠ h → (mapPages (framePtr n) (kernMem + frameAddr a) (frameAddr a) k c s).phys f = s.phys f) ∧
      (mapPages (framePtr n) (kernMem + frameAddr a) (frameAddr a) k c s).handed = s.handed := by
  induction c generalizing k s with
  | zero => exact ⟨fun _ _ => rfl, rfl⟩
  | succ c ih =>
    have hlt := e'.isLt
    have hp : (frameAddr (a + k)).toNat < 2 ^ 27 := by
      rw [frameAddr_toNat (by omega)]
      omega
    rw [mapPages, BitVec.add_assoc, frameAddr_add, walkPages_stale hn hroot hpdpe he hg hpde he' hh hp]
    dsimp only
    have hstore := store_index s (f := h) (by omega) (addrRes_lt (kernMem + frameAddr (a + k)) .pte)
      (frameAddr (a + k) ||| pagePerm)
    generalize s.store (index (framePtr h) (addrRes (kernMem + frameAddr (a + k)) .pte)) (frameAddr (a + k) ||| pagePerm) =
      u at hstore ⊢
    have hother : ∀ {f : Nat}, f ≠ h → u.phys f = s.phys f := fun hf => by
      rw [hstore]
      exact writeEntry_frame _ _ _ _ hf
    obtain ⟨hphys, hhanded⟩ := ih (k + 1) (by omega) (by rw [hother hne.1.symm]; exact hroot)
      (by rw [hother hne.2.1.symm]; exact hpdpe) (fun i => by rw [hother hne.2.2.symm]; exact hpde i)
    exact ⟨fun f hf => (hphys f hf).trans (hother hf), by rw [hhanded, hstore]⟩

end

/-- Words left over in the frame 514 lead to frame 1, and the words there to frame 2. -/
def staleMem : Mem :=
  ⟨fun _ => ⟨0, .busy, 0, false⟩, fun f _ => if f = 514 then 0x1000 else if f = 1 then 0x2000 else 0, [], false⟩

/-- With the second table there, the loop is run from it on. -/
theorem mapPages_root {s : Mem} {n a c : Nat} (hs : Shape s (n + 1)) (hn : n + 1 < maxMem) (ha : a < 2 ^ 15)
    (hroot : s.phys n 511 = 0) :
    mapPages (framePtr n) (kernMem + frameAddr a) (frameAddr a) 0 (c + 1) s =
      mapPages (framePtr n) (kernMem + frameAddr a) (frameAddr a) 0 (c + 1) (withTable s n 511 (n + 1)) := by
  have hmax := maxMem_lt
  have hp : (frameAddr a).toNat < 2 ^ 27 := by
    rw [frameAddr_toNat (by omega)]
    omega
  have hslot : (⟨_, addrRes_lt (kernMem + frameAddr a) .pml4e⟩ : Fin 512) = 511 := (slot_kern hp).1
  have hfirst : walkLevel pml4Absent s (framePtr n) (addrRes (kernMem + frameAddr a) .pml4e) =
      (framePtr (n + 1), withTable s n 511 (n + 1)) := by
    rw [walkLevel_absent pml4Absent_iff (by omega) (addrRes_lt _ _) hs hn (by rw [hslot]; exact hroot), hslot]
  have hagain : walkLevel pml4Absent (withTable s n 511 (n + 1)) (framePtr n) (addrRes (kernMem + frameAddr a) .pml4e) =
      (framePtr (n + 1), withTable s n 511 (n + 1)) :=
    walkLevel_present pml4Absent_iff (by omega) (addrRes_lt _ _) (by omega) (by rw [hslot]; exact withTable_same)
  rw [mapPages_succ, mapPages_succ, walkPages, walkPages, hfirst, hagain]

/-- The kernel's second table is what was left in the frame 514 when the first page is mapped. -/
theorem stale_tables : ∃ u : Mem,
    memInit staleMem 0x200000 0x201000 = (frameAddr 513,
      mapPages (framePtr 513) (kernMem + frameAddr 0xb8) (frameAddr 0xb8) 0 2
        (mapPages (framePtr 513) (kernMem + frameAddr 0x200) (frameAddr 0x200) 0 0x7dfe u)) ∧
    u.phys 513 511 = tableEntry (some 514) ∧ u.phys 514 510 = 0x1000 ∧ (∀ i, u.phys 1 i = 0x2000) ∧ 0 ∉ u.handed := by
  have hfirst : firstFree 0x201000 = 513 := by decide
  have hshape := initMemmap_shape staleMem 0x201000 (by decide) rfl
  rw [hfirst] at hshape
  obtain ⟨hs, hphys, hroot, _⟩ := clearedRoot hshape (by decide)
  have hinit : memInit staleMem 0x200000 0x201000 = (frameAddr 513, _) :=
    memInit_eq (a := 0x200) (by decide) hshape (by decide)
  have hother : ∀ f, f ≠ 513 → (withTable (clearPage (framePtr 513) ((initMemmap staleMem 0x201000).take 513)) 513 511
      514).phys f = staleMem.phys f := by
    intro f hf
    rw [← show (initMemmap staleMem 0x201000).phys f = staleMem.phys f from rfl, ← hphys f hf]
    exact writeEntry_frame _ _ _ f hf
  refine ⟨withTable (clearPage (framePtr 513) ((initMemmap staleMem 0x201000).take 513)) 513 511 514, ?_, withTable_same,
    ?_, fun i => ?_, (withTable_shape hs (by decide) _ _).ok⟩
  · rw [← mapPages_root hs (by decide) (by decide) (hroot 511)]
    exact hinit
  · rw [hother 514 (by decide)]
    rfl
  · rw [hother 1 (by decide)]
    rfl

/-- No allocation fails, but the frame 514 becomes the kernel's second table as it is,
and the first page of the kernel is not mapped. -/
theorem stale_direct_map :
    0 ∉ (memInit staleMem 0x200000 0x201000).2.handed ∧ (memInit staleMem 0x200000 0x201000).1 = frameAddr 513 ∧
      translate (memInit staleMem 0x200000 0x201000).2 (frameAddr 513) (kernMem + 0x200000) true =
        .error (faultCode false true) := by
  obtain ⟨u, hinit, hroot, hpdpe, hpde, hok⟩ := stale_tables
  have hpde_ne : (0x2000 : Word) ≠ 0 := by decide
  obtain ⟨hfirst1, hhanded1⟩ := mapPages_stale (s := u) (n := 513) (g := 1) (h := 2) (e := 0x1000)
    (by decide) (by decide) (by decide) hpde_ne (by decide) (by decide) (a := 0x200) 0x7dfe 0 (by decide) hroot hpdpe hpde
  rw [hinit]
  generalize mapPages (framePtr 513) (kernMem + frameAddr 0x200) (frameAddr 0x200) 0 0x7dfe u = v at hfirst1 hhanded1
  have hroot' : v.phys 513 511 = tableEntry (some 514) := by rw [hfirst1 513 (by decide), hroot]
  have hpdpe' : v.phys 514 510 = 0x1000 := by rw [hfirst1 514 (by decide), hpdpe]
  obtain ⟨hfirst2, hhanded2⟩ := mapPages_stale (s := v) (n := 513) (g := 1) (h := 2) (e := 0x1000)
    (by decide) (by decide) (by decide) hpde_ne (by decide) (by decide) (a := 0xb8) 2 0 (by decide) hroot' hpdpe'
    (fun i => by rw [hfirst1 1 (by decide), hpde])
  generalize mapPages (framePtr 513) (kernMem + frameAddr 0xb8) (frameAddr 0xb8) 0 2 v = w at hfirst2 hhanded2
  refine ⟨?_, rfl, ?_⟩
  · rw [hhanded2, hhanded1]
    exact hok
  · obtain ⟨h1, h2, _, _⟩ := slot_kern (p := 0x200000) (by decide)
    have hpresent : ¬ tableEntry (some 514) &&& pagePresent = 0 := by decide
    have habsent : (0x1000 : Word) &&& pagePresent = 0 := by decide
    rw [translate]
    dsimp only
    rw [entryFrame_frameAddr (by decide), h1, hfirst2 513 (by decide), hroot', if_neg hpresent,
      entryFrame_table (by decide), h2, hfirst2 514 (by decide), hpdpe', if_pos habsent]

end Sbnix.Memory
