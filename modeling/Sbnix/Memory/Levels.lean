import Sbnix.Memory.EagerCopy

/-! The levels of the frames in use.

A frame in use is a root (level 4), a table (levels 3 to 1) or a page (level 0), and
an entry of a table is empty or names a frame one level down. The last slot of a root
is the kernel's and is left out. `Leveled` does not say that the tables form a tree,
nor what is in a page; it is enough to know that the memory code stores into frames
that have a level, and that no root loses its last entry (`Extends`).

A frame becomes a table with the words that are in it. `ClearTaken` asks for zeros in
the frames taken between two memories, and of no other frame. -/
namespace Sbnix.Memory
open Words Library

/-- The level of each frame in use. -/
abbrev Levels := Nat → Option Nat

/-- The entry is empty, or names a frame of the level. -/
def Names (lev : Levels) (k : Nat) (e : Word) : Prop := e = 0 ∨ lev (e.toNat / 4096) = some k

structure Leveled (s : Mem) (lev : Levels) : Prop where
  addressed : Addressed s
  taken : ∀ {f k : Nat}, lev f = some k → f < maxMem ∧ ¬ s.Avail f
  entries : ∀ {f k : Nat} {i : Fin 512}, lev f = some (k + 1) → (k = 3 → i ≠ 511) → Names lev k (s.phys f i)

/-- More frames of the pool have a level. What has none is as it was, and so is the
last entry of every root. -/
structure Extends (s : Mem) (lev : Levels) (s' : Mem) (lev' : Levels) : Prop where
  leveled : Leveled s' lev'
  keeps : ∀ {f k : Nat}, lev f = some k → lev' f = some k
  fresh : ∀ {f : Nat}, lev' f ≠ none → lev f ≠ none ∨ s.Avail f
  avail : ∀ {f : Nat}, s'.Avail f → s.Avail f
  phys : ∀ {f : Nat}, lev' f = none → s'.phys f = s.phys f
  kernel : ∀ {f : Nat}, lev f = some 4 → s'.phys f 511 = s.phys f 511

/-- The frames taken between `s` and `t` held zeros. -/
def ClearTaken (s t : Mem) : Prop := ∀ f, s.Avail f → ¬ t.Avail f → ∀ i, s.phys f i = 0

section
variable {s s' t u : Mem} {lev lev' : Levels} {f g k r : Nat} {i : Fin 512} {v w : Word}

theorem Leveled.lt (h : Leveled s lev) (hf : lev f = some k) : f < 2 ^ 15 := (h.taken hf).1.trans maxMem_lt

theorem Leveled.none_of_avail (h : Leveled s lev) (ha : s.Avail f) : lev f = none := by
  cases hf : lev f with
  | none => rfl
  | some k => exact absurd ha (h.taken hf).2

theorem Extends.refl (h : Leveled s lev) : Extends s lev s lev :=
  ⟨h, id, Or.inl, id, fun _ => rfl, fun _ => rfl⟩

theorem Extends.none (h : Extends s lev s' lev') (hf : lev' f = none) : lev f = none := by
  cases hl : lev f with
  | none => rfl
  | some k =>
    rw [h.keeps hl] at hf
    cases hf

theorem Extends.trans {s₁ : Mem} {lev₁ : Levels} (h : Extends s lev s₁ lev₁) (h' : Extends s₁ lev₁ s' lev') :
    Extends s lev s' lev' where
  leveled := h'.leveled
  keeps := fun hf => h'.keeps (h.keeps hf)
  fresh := fun hf => by
    obtain hf | ha := h'.fresh hf
    · exact h.fresh hf
    · exact Or.inr (h.avail ha)
  avail := fun ha => h.avail (h'.avail ha)
  phys := fun hf => (h'.phys hf).trans (h.phys (h'.none hf))
  kernel := fun hf => (h'.kernel (h.keeps hf)).trans (h.kernel hf)

/-- A level that some memory would take for its own was there before. -/
theorem Extends.level (h : Extends s lev s lev') (hf : lev' f = some k) : lev f = some k := by
  cases hl : lev f with
  | some l => rw [← hf, h.keeps hl]
  | none =>
    obtain hne | ha := h.fresh (f := f) (by rw [hf]; exact Option.some_ne_none k)
    · exact absurd hl hne
    · exact absurd ha (h.leveled.taken hf).2

/-! ### Frames taken -/

/-- Frames do not come back. -/
theorem Steps.avail {s t : Mem} (hst : Steps s t) (hs : Addressed s) :
    Addressed t ∧ ∀ {f}, t.Avail f → s.Avail f := by
  induction hst with
  | refl => exact ⟨hs, id⟩
  | @allocate u _ ih =>
    obtain ⟨haddr, hav⟩ := ih
    refine ⟨memAllocate_addressed haddr, fun {f} ha => hav ?_⟩
    obtain ⟨g, _, _, heq⟩ | ⟨_, heq⟩ := memAllocate_cases u
    · rw [heq] at ha
      exact ((take_avail u g f).mp ha).1
    · rw [heq] at ha
      exact ha
  | store p w _ ih => exact ⟨ih.1.of_memmap rfl, ih.2⟩
  | @free u e he _ ih =>
    have hsame := memFree_entry ih.1 he
    refine ⟨fun i hi => by rw [hsame i hi]; exact ih.1 i hi, fun {f} ha => ih.2 ?_⟩
    rw [Mem.Avail, hsame f ha.1] at ha
    exact ha
  | @count u i c b _ ih =>
    refine ⟨fun j hj => ?_, fun {f} ha => ih.2 ((count_avail u i c b f).mp ha)⟩
    rw [(count_other u i c b j).1]
    exact ih.1 j hj

theorem ClearTaken.before (h : ClearTaken s u) (hs : Addressed s) (hst : Steps s t) (htu : Steps t u) : ClearTaken s t := by
  intro f ha hn
  exact h f ha fun hu => hn ((htu.avail (hst.avail hs).1).2 hu)

theorem ClearTaken.after (h : ClearTaken s u) (he : Extends s lev t lev') : ClearTaken t u := by
  intro f ha hn i
  rw [he.phys (he.leveled.none_of_avail ha)]
  exact h f (he.avail ha) hn i

/-! ### The single steps -/

theorem Names.update (h : Names lev k w) (hg : lev g = none) (l : Nat) :
    Names (Function.update lev g (some l)) k w := by
  obtain h | h := h
  · exact Or.inl h
  · have hne : w.toNat / 4096 ≠ g := fun he => by
      rw [he, hg] at h
      cases h
    exact Or.inr ((Function.update_of_ne hne _ _).trans h)

/-- The entry of a frame of the level. -/
theorem names_entry (hg : g < maxMem) (hl : lev g = some k) : Names lev k (frameAddr g ||| pagePerm) := by
  have hmax := maxMem_lt
  have hfrom : (frameAddr g ||| pagePerm).toNat / 4096 = g := by
    rw [entry_toNat (by omega)]
    omega
  exact Or.inr (by rw [hfrom, hl])

theorem Leveled.congr (h : Leveled s lev)
    (hm : ∀ i < maxMem, (s'.memmap i).addr = (s.memmap i).addr ∧ (s'.memmap i).resFlag = (s.memmap i).resFlag)
    (hp : s'.phys = s.phys) : Extends s lev s' lev := by
  have hav : ∀ {i}, s'.Avail i → s.Avail i := fun ha => ⟨ha.1, by rw [← (hm _ ha.1).2]; exact ha.2⟩
  exact
    { leveled :=
        { addressed := fun i hi => by rw [(hm i hi).1]; exact h.addressed i hi
          taken := fun hf => ⟨(h.taken hf).1, fun ha => (h.taken hf).2 (hav ha)⟩
          entries := fun hf hi => by rw [hp]; exact h.entries hf hi }
      keeps := id
      fresh := Or.inl
      avail := hav
      phys := fun _ => by rw [hp]
      kernel := fun _ => by rw [hp] }

theorem Leveled.count (h : Leveled s lev) (i : Nat) (refCnt : Int) (cowFlag : Bool) :
    Extends s lev (s.count i refCnt cowFlag) lev :=
  h.congr (fun j _ => count_other s i refCnt cowFlag j) rfl

theorem Leveled.freePresent (h : Leveled s lev) (pte : Word) : Extends s lev (freePresent s pte) lev :=
  h.congr (fun i hi => by rw [freePresent_memmap h.addressed pte i hi]; exact ⟨rfl, rfl⟩) (freePresent_phys s pte)

/-- A word stored in a page, or an entry in a table. -/
theorem Leveled.write (h : Leveled s lev) (hf : lev f = some k) (hlast : k = 4 → i ≠ 511)
    (hw : ∀ l, k = l + 1 → Names lev l w) : Extends s lev {s with phys := writeEntry s.phys f i w} lev where
  leveled :=
    { addressed := h.addressed
      taken := h.taken
      entries := by
        intro f' l i' hf' hi'
        dsimp only
        by_cases hc : f' = f ∧ i' = i
        · obtain ⟨rfl, rfl⟩ := hc
          rw [writeEntry_same]
          exact hw l (Option.some.inj (hf.symm.trans hf'))
        · rw [writeEntry_other _ _ hc]
          exact h.entries hf' hi' }
  keeps := id
  fresh := Or.inl
  avail := id
  phys := fun {f'} hf' => by
    have hne : f' ≠ f := fun he => by
      rw [he, hf] at hf'
      cases hf'
    exact writeEntry_frame _ _ _ f' hne
  kernel := fun {f'} hf' => by
    refine writeEntry_other _ _ fun hc => ?_
    obtain ⟨rfl, hi⟩ := hc
    exact hlast (Option.some.inj (hf.symm.trans hf')) hi.symm

/-- A frame of the pool comes into use. -/
theorem Leveled.take (h : Leveled s lev) (ha : s.Avail g) (k : Nat) (hm : s'.memmap = (s.take g).memmap)
    (hother : ∀ f, f ≠ g → s'.phys f = s.phys f)
    (hclear : ∀ l, k = l + 1 → ∀ i, (l = 3 → i ≠ 511) → s'.phys g i = 0) :
    Extends s lev s' (Function.update lev g (some k)) := by
  have hnone := h.none_of_avail ha
  have hav : ∀ {f}, s'.Avail f ↔ s.Avail f ∧ f ≠ g := fun {f} => by
    rw [← take_avail, Mem.Avail, hm]
    rfl
  have hold : ∀ {f l}, lev f = some l → f ≠ g := fun hf he => by
    rw [he, hnone] at hf
    cases hf
  refine
    { leveled :=
        { addressed := (take_addressed h.addressed g).of_memmap hm
          taken := fun {f l} hf => ?_
          entries := fun {f l i} hf hi => ?_ }
      keeps := update_keeps hnone
      fresh := fun {f} hf => ?_
      avail := fun hf => (hav.mp hf).1
      phys := fun {f} hf => hother f fun he => ?_
      kernel := fun hf => by rw [hother _ (hold hf)] }
  · obtain ⟨rfl, _⟩ | ⟨_, hf⟩ := update_cases hf
    · exact ⟨ha.1, fun hc => (hav.mp hc).2 rfl⟩
    · exact ⟨(h.taken hf).1, fun hc => (h.taken hf).2 (hav.mp hc).1⟩
  · obtain ⟨rfl, hl⟩ | ⟨hne, hf⟩ := update_cases hf
    · exact Or.inl (hclear l hl.symm i hi)
    · rw [hother f hne]
      exact (h.entries hf hi).update hnone k
  · by_cases hfg : f = g
    · exact Or.inr (hfg ▸ ha)
    · rw [Function.update_of_ne hfg] at hf
      exact Or.inl hf
  · rw [he, Function.update_self] at hf
    cases hf

/-- A new page, whatever is in it. -/
theorem Leveled.allocate (h : Leveled s lev) (h0 : 0 ∉ (memAllocate s).2.handed) :
    ∃ g, (memAllocate s).1 = frameAddr g ∧ s.Avail g ∧
      Extends s lev (memAllocate s).2 (Function.update lev g (some 0)) := by
  obtain ⟨g, _, ha, _, heq⟩ := memAllocate_ok h.addressed h0
  rw [heq]
  exact ⟨g, rfl, ha, h.take ha 0 rfl (fun _ _ => rfl) fun l hl => by omega⟩

/-! ### Walking -/

/-- One level of a walk ends one level down. -/
theorem walkLevel_extends (h : Leveled s lev) (hf : lev f = some (k + 2)) {i : Word} (hi : i.toNat < 512)
    (hlast : k = 2 → (⟨i.toNat, hi⟩ : Fin 512) ≠ 511) {absent : Word → Bool} (habs : ∀ e, absent e = (e == 0))
    (h0 : 0 ∉ (walkLevel absent s (framePtr f) i).2.handed)
    (hclear : ClearTaken s (walkLevel absent s (framePtr f) i).2) :
    ∃ g lev', (walkLevel absent s (framePtr f) i).1 = framePtr g ∧ lev' g = some (k + 1) ∧
      Extends s lev (walkLevel absent s (framePtr f) i).2 lev' := by
  have hlt := h.lt hf
  have hload := load_index s (f := f) (by omega) hi
  have hentry := h.entries hf (i := ⟨i.toNat, hi⟩) (fun hk => hlast (by omega))
  by_cases hzero : s.phys f ⟨i.toNat, hi⟩ = 0
  · have habsent : absent (s.load (index (framePtr f) i)) = true := by
      rw [habs, hload, hzero]
      rfl
    unfold walkLevel at h0 hclear ⊢
    rw [habsent] at h0 hclear ⊢
    simp only [if_true] at h0 hclear ⊢
    have h0' : 0 ∉ (memAllocate s).2.handed := by
      split at h0
      · exact h0
      · exact h0
    obtain ⟨g, hpos, ha, _, halloc⟩ := memAllocate_ok h.addressed h0'
    have hmax := maxMem_lt
    have hg := ha.1
    have hne : frameAddr g ≠ 0 := fun he => by
      have := (frameAddr_eq_zero (by omega)).mp he
      omega
    rw [halloc, if_pos hne, store_index _ (by omega) hi] at hclear ⊢
    rw [load_index _ (by omega) hi]
    dsimp only at hclear ⊢
    rw [writeEntry_same, nextTable_entry (by omega)]
    have hzeros : ∀ j, s.phys g j = 0 := hclear g ha fun hc => ((take_avail s g g).mp hc).2 rfl
    have htaken : Extends s lev (s.take g) (Function.update lev g (some (k + 1))) :=
      h.take ha (k + 1) rfl (fun _ _ => rfl) fun _ _ j _ => hzeros j
    refine ⟨g, Function.update lev g (some (k + 1)), rfl, Function.update_self .., htaken.trans ?_⟩
    refine htaken.leveled.write (htaken.keeps hf) (fun hk => hlast (by omega)) fun l hl => ?_
    obtain rfl : l = k + 1 := by omega
    exact names_entry hg (Function.update_self ..)
  · have hpresent : absent (s.load (index (framePtr f) i)) = false := by
      rw [habs, hload]
      exact beq_false_of_ne hzero
    unfold walkLevel
    rw [hpresent]
    simp only [Bool.false_eq_true, if_false]
    rw [hload, nextTable_frame]
    exact ⟨_, lev, rfl, hentry.resolve_left hzero, .refl h⟩

theorem walkPages_extends (h : Leveled s lev) (hr : lev r = some 4) (hv : slot v .pml4e ≠ 511)
    (h0 : 0 ∉ (walkPages s (framePtr r) v).2.handed) (hclear : ClearTaken s (walkPages s (framePtr r) v).2) :
    ∃ g lev', (walkPages s (framePtr r) v).1 = index (framePtr g) (addrRes v .pte) ∧ lev' g = some 1 ∧
      Extends s lev (walkPages s (framePtr r) v).2 lev' := by
  unfold walkPages at h0 hclear ⊢
  dsimp only at h0 hclear ⊢
  have h0₂ := (walkLevel_steps _ _ _ _).ok h0
  have h0₁ := (walkLevel_steps _ _ _ _).ok h0₂
  have hclear₂ := hclear.before h.addressed ((walkLevel_steps _ _ _ _).trans (walkLevel_steps _ _ _ _))
    (walkLevel_steps _ _ _ _)
  have hclear₁ := hclear₂.before h.addressed (walkLevel_steps _ _ _ _) (walkLevel_steps _ _ _ _)
  obtain ⟨g₁, lev₁, hp₁, hl₁, he₁⟩ :=
    walkLevel_extends h hr (addrRes_lt v .pml4e) (fun _ => hv) pml4Absent_iff h0₁ hclear₁
  rw [hp₁] at h0 h0₂ hclear hclear₂ ⊢
  obtain ⟨g₂, lev₂, hp₂, hl₂, he₂⟩ :=
    walkLevel_extends he₁.leveled hl₁ (addrRes_lt v .pdpe) (fun hc => by omega) (fun _ => rfl) h0₂ (hclear₂.after he₁)
  rw [hp₂] at h0 hclear ⊢
  obtain ⟨g₃, lev₃, hp₃, hl₃, he₃⟩ :=
    walkLevel_extends he₂.leveled hl₂ (addrRes_lt v .pde) (fun hc => by omega) (fun _ => rfl) h0
      ((hclear.after he₁).after he₂)
  rw [hp₃]
  exact ⟨g₃, lev₃, rfl, hl₃, (he₁.trans he₂).trans he₃⟩

theorem pageInsert_extends (h : Leveled s lev) (hr : lev r = some 4) (hv : slot v .pml4e ≠ 511) (hg : g < maxMem)
    (hpage : lev g = some 0) (h0 : 0 ∉ (walkPages s (framePtr r) v).2.handed)
    (hclear : ClearTaken s (walkPages s (framePtr r) v).2) :
    ∃ lev', Extends s lev (pageInsert s (framePtr r) v (frameAddr g)) lev' := by
  obtain ⟨f, lev', hptr, hf, hwalk⟩ := walkPages_extends h hr hv h0 hclear
  have hlt := hwalk.leveled.lt hf
  have hfreed := hwalk.leveled.freePresent (walkPages s (framePtr r) v).1
  rw [pageInsert]
  generalize freePresent (walkPages s (framePtr r) v).2 (walkPages s (framePtr r) v).1 = t at hfreed ⊢
  rw [hptr, store_index t (by omega) (addrRes_lt v .pte)]
  refine ⟨lev', (hwalk.trans hfreed).trans (hfreed.leveled.write hf (fun hc => by omega) fun l hl => ?_)⟩
  obtain rfl : l = 0 := by omega
  exact names_entry hg (hwalk.keeps hpage)

/-! ### Tables that are there -/

/-- The entry `i` of `f` is not empty and leads to `g`. -/
def Links (s : Mem) (f : Nat) (i : Fin 512) (g : Nat) : Prop := s.phys f i ≠ 0 ∧ (s.phys f i).toNat / 4096 = g

/-- The three upper entries of the address lead to `f`. -/
def Reaches (s : Mem) (r : Nat) (v : Word) (f : Nat) : Prop :=
  ∃ a b, Links s r (slot v .pml4e) a ∧ Links s a (slot v .pdpe) b ∧ Links s b (slot v .pde) f

theorem Links.lt (h : Links s f i g) : g < 2 ^ 52 := by
  have hlt := (s.phys f i).isLt
  have := h.2
  omega

theorem Links.level (hl : Links s f i g) (h : Leveled s lev) (hf : lev f = some (k + 1)) (hi : k = 3 → i ≠ 511) :
    lev g = some k := by
  rw [← hl.2]
  exact (h.entries hf hi).resolve_left hl.1

theorem Reaches.levels (hre : Reaches s r v f) (h : Leveled s lev) (hr : lev r = some 4) (hv : slot v .pml4e ≠ 511) :
    lev f = some 1 := by
  obtain ⟨a, b, ha, hb, hf⟩ := hre
  have hla := ha.level h hr fun _ => hv
  have hlb := hb.level h hla fun hc => by omega
  exact hf.level h hlb fun hc => by omega

/-- Only the tables on the way matter. -/
theorem Reaches.congr (hre : Reaches s r v f) (h : Leveled s lev) (hr : lev r = some 4) (hv : slot v .pml4e ≠ 511)
    (hp : ∀ {f k}, lev f = some k → s'.phys f = s.phys f) (hw : tablePath w = tablePath v) : Reaches s' r w f := by
  obtain ⟨a, b, ha, hb, hf⟩ := hre
  have hla := ha.level h hr fun _ => hv
  have hlb := hb.level h hla fun hc => by omega
  obtain ⟨hw1, hw2⟩ := List.cons.inj hw
  obtain ⟨hw2, hw3⟩ := List.cons.inj hw2
  obtain ⟨hw3, _⟩ := List.cons.inj hw3
  refine ⟨a, b, ?_, ?_, ?_⟩
  · rw [Links, hp hr, hw1]
    exact ha
  · rw [Links, hp hla, hw2]
    exact hb
  · rw [Links, hp hlb, hw3]
    exact hf

/-- Then a walk takes no frame. -/
theorem Reaches.walk (hre : Reaches s r v f) (hr : r < 2 ^ 52) :
    walkPages s (framePtr r) v = (index (framePtr f) (addrRes v .pte), s) := by
  have hlevel : ∀ {absent : Word → Bool} {f g : Nat} (l : Level), (∀ e, absent e = (e == 0)) → f < 2 ^ 52 →
      Links s f (slot v l) g → walkLevel absent s (framePtr f) (addrRes v l) = (framePtr g, s) := by
    intro absent f g l habs hf hl
    have hload : s.load (index (framePtr f) (addrRes v l)) = s.phys f (slot v l) := load_index s hf (addrRes_lt v l)
    rw [walkLevel, habs, hload, beq_false_of_ne hl.1]
    simp only [Bool.false_eq_true, if_false]
    rw [hload, nextTable_frame, hl.2]
  obtain ⟨a, b, ha, hb, hf⟩ := hre
  rw [walkPages, hlevel .pml4e pml4Absent_iff hr ha]
  dsimp only
  rw [hlevel .pdpe (fun _ => rfl) ha.lt hb]
  dsimp only
  rw [hlevel .pde (fun _ => rfl) hb.lt hf]

/-- What `look_pages` finds. -/
theorem lookPages_reaches {pte : Word} (hr : r < 2 ^ 52) (hlook : lookPages s (framePtr r) v = some pte) :
    ∃ f, Reaches s r v f ∧ pte = index (framePtr f) (addrRes v .pte) ∧ s.load pte ≠ 0 := by
  have hload : ∀ {f : Nat} (l : Level), f < 2 ^ 52 →
      s.load (index (framePtr f) (addrRes v l)) = s.phys f (slot v l) := fun l hf => load_index s hf (addrRes_lt v l)
  have hnext : ∀ e : Word, e.toNat / 4096 < 2 ^ 52 := fun e => by
    have := e.isLt
    omega
  unfold lookPages at hlook
  rw [hload .pml4e hr] at hlook
  dsimp only at hlook
  rw [nextTable_frame, hload .pdpe (hnext _), nextTable_frame, hload .pde (hnext _), nextTable_frame] at hlook
  split_ifs at hlook with hpml4 hpdp hpd hpte
  obtain rfl := Option.some.inj hlook
  have hroot : s.phys r (slot v .pml4e) ≠ 0 := fun he => by
    rw [he] at hpml4
    exact hpml4 rfl
  exact ⟨_, ⟨_, _, ⟨hroot, rfl⟩, ⟨hpdp, rfl⟩, ⟨hpd, rfl⟩⟩, rfl, hpte⟩

theorem entryFrame_of_level (h : Leveled s lev) {e : Word} (he : lev (e.toNat / 4096) = some k) :
    entryFrame e = e.toNat / 4096 := by
  have hlt := h.lt he
  rw [entryFrame]
  omega

/-- The processor ends in a page. -/
theorem translate_page {write : Bool} (h : Leveled s lev) (hr : lev r = some 4) (hv : slot v .pml4e ≠ 511)
    (htrans : translate s (frameAddr r) v write = .ok f) : lev f = some 0 := by
  have hnext : ∀ {f k : Nat} {i : Fin 512}, lev f = some (k + 1) → (k = 3 → i ≠ 511) →
      ¬ s.phys f i &&& pagePresent = 0 → lev (entryFrame (s.phys f i)) = some k := by
    intro f k i hf hi hpresent
    have hne : s.phys f i ≠ 0 := fun he => by
      rw [he] at hpresent
      exact hpresent rfl
    have hl := (h.entries hf hi).resolve_left hne
    rw [entryFrame_of_level h hl, hl]
  unfold translate at htrans
  rw [entryFrame_frameAddr (h.taken hr).1] at htrans
  dsimp only at htrans
  split_ifs at htrans with h1 h2 h3 h4
  obtain rfl := Except.ok.inj htrans
  have hl1 := hnext hr (fun _ => hv) h1
  have hl2 := hnext hl1 (fun hc => by omega) h2
  have hl3 := hnext hl2 (fun hc => by omega) h3
  exact hnext hl3 (fun hc => by omega) h4

/-! ### Faults -/

/-- The frame of the page an entry names. -/
theorem masked_frame (e : Word) : e &&& pageMask = frameAddr (e.toNat / 4096) := by
  have hlt := e.isLt
  apply BitVec.eq_of_toNat_eq
  rw [toNat_and_pageMask, frameAddr_toNat (by omega)]
  omega

/-- A copy of a page, in a new frame. -/
theorem copyPage_extends (h : Leveled s lev) (hf : lev f = some 0) (ha : s.Avail g) :
    Extends s lev (copyPage (frameAddr f + kernMem) (frameAddr g + kernMem) (s.take g)) (Function.update lev g (some 0)) ∧
      ∀ f', f' ≠ g → (copyPage (frameAddr f + kernMem) (frameAddr g + kernMem) (s.take g)).phys f' = s.phys f' := by
  have hmax := maxMem_lt
  have hlt := h.lt hf
  have hga := ha.1
  have hne : f ≠ g := fun he => (h.taken hf).2 (he ▸ ha)
  rw [copyPage_eq hne (by omega) (by omega)]
  have hother : ∀ f', f' ≠ g → Function.update s.phys g (s.phys f) f' = s.phys f' :=
    fun _ hne => Function.update_of_ne hne _ _
  exact ⟨h.take ha 0 rfl hother fun l hl => by omega, hother⟩

theorem freeFault_extends (h : Leveled s lev) (hr : lev r = some 4) (hv : slot v .pml4e ≠ 511) (exitReturns : Bool)
    (hclear : ClearTaken s (walkPages s (framePtr r) v).2) :
    ∀ t ∈ (freeFault exitReturns (framePtr r) v s).mem, 0 ∉ t.handed → ∃ lev', Extends s lev t lev' := by
  intro t ht h0
  unfold freeFault at ht
  split at ht
  · obtain rfl := Option.mem_some.mp ht
    rw [freePresent_handed] at h0
    obtain ⟨_, lev', _, _, hwalk⟩ := walkPages_extends h hr hv h0 hclear
    exact ⟨lev', hwalk.trans (hwalk.leveled.freePresent _)⟩
  · obtain rfl := Option.mem_some.mp ht
    exact ⟨lev, .refl h⟩

/-- A page that is shared gets a copy, in a table that is there. -/
theorem writeFault_extends (h : Leveled s lev) (hr : lev r = some 4) (hv : slot v .pml4e ≠ 511) (hlow : 4096 ≤ v.toNat)
    {segfault : Mem → Fault} (hseg : ∀ t ∈ (segfault s).mem, 0 ∉ t.handed → ∃ lev', Extends s lev t lev') :
    ∀ t ∈ (writeFault s (framePtr r) v segfault).mem, 0 ∉ t.handed → ∃ lev', Extends s lev t lev' := by
  intro t ht h0
  have hrlt := h.lt hr
  unfold writeFault at ht
  cases hlook : lookPages s (framePtr r) v with
  | none =>
    rw [hlook] at ht
    cases ht
  | some pte =>
    obtain ⟨f, hre, hpte, hne⟩ := lookPages_reaches (by omega) hlook
    have hf := hre.levels h hr hv
    have hflt := h.lt hf
    rw [hlook] at ht
    dsimp only at ht
    rw [hpte, load_index s (by omega) (addrRes_lt v .pte)] at hne
    rw [hpte, load_index s (by omega) (addrRes_lt v .pte), masked_frame] at ht
    have hpage := (h.entries hf (i := slot v .pte) fun hc => by omega).resolve_left hne
    rw [show (⟨_, addrRes_lt v .pte⟩ : Fin 512) = slot v .pte from rfl] at ht
    generalize (s.phys f (slot v .pte)).toNat / 4096 = p at hpage ht
    have hplt := (h.taken hpage).1
    split at ht
    · cases ht
    · rename_i i _
      split at ht
      · split at ht
        · -- the last user
          obtain rfl := Option.mem_some.mp ht
          rw [store_index s (by omega) (addrRes_lt v .pte)]
          refine ⟨lev, h.write hf (fun hc => by omega) fun l hl => ?_⟩
          obtain rfl : l = 0 := by omega
          exact names_entry hplt hpage
        · obtain rfl := Option.mem_some.mp ht
          have hcount := h.count i ((s.memmap i).refCnt - 1) (s.memmap i).cowFlag
          have hphys : (s.count i ((s.memmap i).refCnt - 1) (s.memmap i).cowFlag).phys = s.phys := rfl
          generalize s.count i ((s.memmap i).refCnt - 1) (s.memmap i).cowFlag = u at hcount hphys h0 ⊢
          have h0' : 0 ∉ (memAllocate u).2.handed := by
            have := (mapKernel_steps _ _ _ _ _).ok h0
            rwa [copyPage_handed] at this
          obtain ⟨g, _, ha, _, heq⟩ := memAllocate_ok hcount.leveled.addressed h0'
          obtain ⟨hcopy, hother⟩ := copyPage_extends hcount.leveled hpage ha
          rw [heq] at h0 ⊢
          dsimp only at h0 ⊢
          generalize copyPage (frameAddr p + kernMem) (frameAddr g + kernMem) (u.take g) = w at hcopy hother h0 ⊢
          have hboth := hcount.trans hcopy
          -- the tables are the ones `look_pages` went through
          obtain ⟨htable, _⟩ := (path_eq_iff _ _).mpr (samePage_roundless v)
          have hsame : ∀ {f k}, lev f = some k → w.phys f = s.phys f := by
            intro f k hf
            have hne : f ≠ g := fun he => (hcount.leveled.taken hf).2 (he ▸ ha)
            rw [hother f hne, hphys]
          have hreach : Reaches w r (pageRoundless4096 v) f := hre.congr h hr hv hsame htable
          rw [mapKernel_page _ _ hlow, hreach.walk (by omega), pageRoundless4096_frameAddr ha.1,
            store_index _ (by omega) (addrRes_lt _ .pte)]
          refine ⟨_, hboth.trans (hboth.leveled.write (hboth.keeps hf) (fun hc => by omega) fun l hl => ?_)⟩
          obtain rfl : l = 0 := by omega
          exact names_entry ha.1 (Function.update_self ..)
      · exact hseg t ht h0

theorem pageFault_extends (h : Leveled s lev) (hr : lev r = some 4) (hv : slot v .pml4e ≠ 511) (hinit : ¬ v < initialMem)
    (exitReturns : Bool) (error : Word) (hclear : ClearTaken s (walkPages s (framePtr r) v).2) :
    ∀ t ∈ (pageFault exitReturns s (framePtr r) v error).mem, 0 ∉ t.handed → ∃ lev', Extends s lev t lev' := by
  have hlow : 4096 ≤ v.toNat := by
    have hval : initialMem.toNat = 100000 := rfl
    rw [BitVec.lt_def] at hinit
    omega
  have hfree := freeFault_extends h hr hv exitReturns hclear
  unfold pageFault
  dsimp only
  split
  · split
    · exact writeFault_extends h hr hv hlow hfree
    · exact hfree
  · intro t ht h0
    obtain rfl := Option.mem_some.mp ht
    rw [store_handed] at h0
    obtain ⟨f, lev', hptr, hf, hwalk⟩ := walkPages_extends h hr hv ((memAllocate_steps _).ok h0) hclear
    obtain ⟨g, hg, ha, hpage⟩ := hwalk.leveled.allocate h0
    have hlt := hwalk.leveled.lt hf
    rw [hptr, hg, store_index _ (by omega) (addrRes_lt v .pte)]
    refine ⟨_, (hwalk.trans hpage).trans (hpage.leveled.write (hpage.keeps hf) (fun hc => by omega) fun l hl => ?_)⟩
    obtain rfl : l = 0 := by omega
    exact names_entry ha.1 (Function.update_self ..)

theorem access_extends (h : Leveled s lev) (hr : lev r = some 4) (hv : slot v .pml4e ≠ 511) (hinit : ¬ v < initialMem)
    (exitReturns write : Bool) (hclear : ClearTaken s (walkPages s (framePtr r) v).2)
    (h0 : 0 ∉ (access exitReturns s (frameAddr r) (framePtr r) v write).2.handed) :
    ∃ lev', Extends s lev (access exitReturns s (frameAddr r) (framePtr r) v write).2 lev' ∧
      ∀ f ∈ (access exitReturns s (frameAddr r) (framePtr r) v write).1, lev' f = some 0 := by
  unfold access at h0 ⊢
  cases htrans : translate s (frameAddr r) v write with
  | ok g =>
    refine ⟨lev, .refl h, fun f hf => ?_⟩
    obtain rfl := Option.some.inj hf
    exact translate_page h hr hv htrans
  | error code =>
    have hfault := pageFault_extends h hr hv hinit exitReturns code hclear
    rw [htrans] at h0
    dsimp only at h0 ⊢
    cases hrun : pageFault exitReturns s (framePtr r) v code with
    | resolved n t =>
      rw [hrun] at hfault h0
      obtain ⟨lev', hext⟩ := hfault t rfl h0
      refine ⟨lev', hext, fun f hf => ?_⟩
      dsimp only at hf
      cases htrans' : translate t (frameAddr r) v write with
      | ok g =>
        rw [htrans'] at hf
        obtain rfl := Option.some.inj hf
        exact translate_page hext.leveled (hext.keeps hr) hv htrans'
      | error code =>
        rw [htrans'] at hf
        cases hf
    | killed t =>
      rw [hrun] at hfault h0
      obtain ⟨lev', hext⟩ := hfault t rfl h0
      exact ⟨lev', hext, fun f hf => by cases hf⟩
    | crashed => exact ⟨lev, .refl h, fun f hf => by cases hf⟩

/-! ### Copying an address space -/

/-- Copying two tables of the level. -/
def KeepsLevels (l : Nat) (copy : Word → Word → Mem → Except Mem Mem) : Prop :=
  ∀ {s : Mem} {lev : Levels} {f c : Nat}, Leveled s lev → lev f = some l → lev c = some l →
    0 ∉ (returned (copy (framePtr f) (framePtr c) s)).handed →
    ClearTaken s (returned (copy (framePtr f) (framePtr c) s)) →
    ∃ lev', Extends s lev (returned (copy (framePtr f) (framePtr c) s)) lev'

theorem frame_of_protected (e : Word) : (e &&& ~~~pageWrite).toNat / 4096 = e.toNat / 4096 := by
  have h := congrArg BitVec.toNat (protected_mask e)
  rw [toNat_and_pageMask, toNat_and_pageMask] at h
  omega

theorem sharePage_extends (h : Leveled s lev) {c : Nat} (hf : lev f = some 1) (hc : lev c = some 1) (i : Fin 512) :
    Extends s lev (returned (sharePage (framePtr f) (framePtr c) i s)) lev := by
  have hflt := h.lt hf
  have hclt := h.lt hc
  by_cases hpresent : s.phys f i &&& pagePresent = 0
  · rw [sharePage_absent (by omega) hpresent]
    exact .refl h
  · have hne : s.phys f i ≠ 0 := fun he => by
      rw [he] at hpresent
      exact hpresent rfl
    have hpage := (h.entries hf (i := i) fun hc => by omega).resolve_left hne
    have hnames : ∀ {l}, l + 1 = 1 → Names lev l (s.phys f i &&& ~~~pageWrite) := fun {l} hl => by
      obtain rfl : l = 0 := by omega
      exact Or.inr (by rw [frame_of_protected, hpage])
    have hfirst : Extends s lev {s with phys := writeEntry s.phys f i (s.phys f i &&& ~~~pageWrite)} lev :=
      h.write hf (fun hc => by omega) fun l hl => hnames (by omega)
    have hboth : Extends s lev (withEntries s f c i (s.phys f i)) lev :=
      hfirst.trans (hfirst.leveled.write hc (fun hc => by omega) fun l hl => hnames (by omega))
    rw [sharePage_present (by omega) (by omega) hpresent]
    split
    · exact hboth
    · exact hboth.trans (hboth.leveled.count _ _ _)

/-- A loop over entries of two tables. -/
theorem forEntries_extends {body : Nat → Mem → Except Mem Mem} {N l f c : Nat}
    (hsteps : ∀ i s, Steps s (returned (body i s)))
    (hbody : ∀ i < N, ∀ {s : Mem} {lev : Levels}, Leveled s lev → lev f = some l → lev c = some l →
      0 ∉ (returned (body i s)).handed → ClearTaken s (returned (body i s)) →
        ∃ lev', Extends s lev (returned (body i s)) lev')
    (n k : Nat) (hk : k + n ≤ N) (h : Leveled s lev) (hf : lev f = some l) (hc : lev c = some l)
    (h0 : 0 ∉ (returned (forEntries body k n s)).handed) (hclear : ClearTaken s (returned (forEntries body k n s))) :
    ∃ lev', Extends s lev (returned (forEntries body k n s)) lev' := by
  induction n generalizing k s lev with
  | zero => exact ⟨lev, .refl h⟩
  | succ n ih =>
    have hone := hbody k (by omega) h hf hc
    have hstep := hsteps k s
    rw [forEntries] at h0 hclear ⊢
    cases hrun : body k s with
    | error t =>
      rw [hrun] at hone h0 hclear
      exact hone h0 hclear
    | ok t =>
      rw [hrun] at hone hstep h0 hclear
      have hrest : Steps t (returned (forEntries body (k + 1) n t)) := forEntries_steps hsteps (k + 1) n t
      obtain ⟨lev₁, hext⟩ := hone (hrest.ok h0) (hclear.before h.addressed hstep hrest)
      obtain ⟨lev₂, hext'⟩ := ih (k + 1) (by omega) hext.leveled (hext.keeps hf) (hext.keeps hc) h0 (hclear.after hext)
      exact ⟨lev₂, hext.trans hext'⟩

theorem sharePages_levels : KeepsLevels 1 sharePages := by
  intro s lev f c h hf hc h0 hclear
  exact forEntries_extends (sharePage_steps _ _) (fun i hi _ _ h hf hc _ _ => ⟨_, sharePage_extends h hf hc ⟨i, hi⟩⟩)
    512 0 (Nat.le_refl _) h hf hc h0 hclear

/-- A table of the child for a table of the parent, and what is below them. -/
theorem copyTable_extends {below : Word → Word → Mem → Except Mem Mem} {l i c : Nat}
    (hsteps : ∀ table child s, Steps s (returned (below table child s))) (hbelow : KeepsLevels (l + 1) below) (hi : i < 512)
    (hlast : l = 2 → i ≠ 511) (h : Leveled s lev) (hf : lev f = some (l + 2)) (hc : lev c = some (l + 2))
    (h0 : 0 ∉ (returned (copyTable below (framePtr f) (framePtr c) i s)).handed)
    (hclear : ClearTaken s (returned (copyTable below (framePtr f) (framePtr c) i s))) :
    ∃ lev', Extends s lev (returned (copyTable below (framePtr f) (framePtr c) i s)) lev' := by
  have hflt := h.lt hf
  have hclt := h.lt hc
  have hslot : l + 1 = 3 → (⟨i, hi⟩ : Fin 512) ≠ 511 := fun hl he => hlast (by omega) (congrArg Fin.val he)
  by_cases hpresent : s.phys f ⟨i, hi⟩ &&& pagePresent = 0
  · have hrun : copyTable below (framePtr f) (framePtr c) i s = .ok s :=
      copyTable_absent (i := ⟨i, hi⟩) (by omega) hpresent
    rw [hrun]
    exact ⟨lev, .refl h⟩
  · obtain ⟨g, ha, hlink, hrun⟩ := copyTable_taken (i := ⟨i, hi⟩) hsteps h.addressed (by omega) (by omega) hpresent h0
    dsimp only at hrun
    rw [hrun] at h0 hclear ⊢
    have hgone : ¬ (withTable s c ⟨i, hi⟩ g).Avail g := fun hav => ((take_avail s g g).mp hav).2 rfl
    have hzeros := hclear.before h.addressed hlink (hsteps _ _ _) g ha hgone
    have htaken : Extends s lev (s.take g) (Function.update lev g (some (l + 1))) :=
      h.take ha (l + 1) rfl (fun _ _ => rfl) fun _ _ j _ => hzeros j
    have hlinked : Extends s lev (withTable s c ⟨i, hi⟩ g) (Function.update lev g (some (l + 1))) := by
      refine htaken.trans (htaken.leveled.write (htaken.keeps hc) (fun hl => hslot (by omega)) fun l' hl => ?_)
      obtain rfl : l' = l + 1 := by omega
      exact names_entry ha.1 (Function.update_self ..)
    -- the child's entry leads to the new table, the parent's to the one it named
    have hentry : (withTable s c ⟨i, hi⟩ g).phys f ⟨i, hi⟩ ≠ 0 := fun he => by
      by_cases hfc : f = c
      · rw [hfc, withTable_same] at he
        exact entry_ne_zero _ he
      · rw [withTable_other (fun hc => hfc hc.1)] at he
        rw [he] at hpresent
        exact hpresent rfl
    have hnext := (hlinked.leveled.entries (hlinked.keeps hf) hslot).resolve_left hentry
    obtain ⟨lev', hext⟩ := hbelow hlinked.leveled hnext (Function.update_self ..) h0 (hclear.after hlinked)
    exact ⟨lev', hlinked.trans hext⟩

theorem copyPde_levels : KeepsLevels 2 copyPde := by
  intro s lev f c h hf hc h0 hclear
  exact forEntries_extends (copyTable_steps sharePages_steps _ _)
    (fun i hi _ _ h hf hc h0 hclear => copyTable_extends sharePages_steps sharePages_levels hi (fun hl => by omega)
      h hf hc h0 hclear) 512 0 (Nat.le_refl _) h hf hc h0 hclear

theorem copyPdpe_levels : KeepsLevels 3 copyPdpe := by
  intro s lev f c h hf hc h0 hclear
  exact forEntries_extends (copyTable_steps copyPde_steps _ _)
    (fun i hi _ _ h hf hc h0 hclear => copyTable_extends copyPde_steps copyPde_levels hi (fun hl => by omega)
      h hf hc h0 hclear) 512 0 (Nat.le_refl _) h hf hc h0 hclear

/-- The last slot of the roots is left out. -/
theorem cowWalkPages_levels : KeepsLevels 4 fun table child s => cowWalkPages s table child := by
  intro s lev f c h hf hc h0 hclear
  exact forEntries_extends (copyTable_steps copyPdpe_steps _ _)
    (fun i hi _ _ h hf hc h0 hclear => copyTable_extends copyPdpe_steps copyPdpe_levels (by omega) (fun _ => by omega)
      h hf hc h0 hclear) 511 0 (Nat.le_refl _) h hf hc h0 hclear

/-- A new root has the kernel's entry. -/
theorem newRoot_extends (h : Leveled s lev) (pml4e : Word) (h0 : 0 ∉ (newRoot s pml4e).2.handed) :
    ∃ c lev', (newRoot s pml4e).1 = frameAddr c ∧ s.Avail c ∧ lev' c = some 4 ∧ Extends s lev (newRoot s pml4e).2 lev' ∧
      ∀ n, pml4e = framePtr n → n < 2 ^ 15 → n ≠ c → (newRoot s pml4e).2.phys c 511 = s.phys n 511 := by
  obtain ⟨c, e, ha, hrun, hkernel⟩ := newRoot_eq h.addressed pml4e h0
  rw [hrun]
  refine ⟨c, Function.update lev c (some 4), rfl, ha, Function.update_self .., h.take ha 4 rfl (fun f hf => ?_)
    (fun l hl i hi => ?_), fun n hn hlt hne => ?_⟩
  · funext i
    dsimp only
    rw [writeEntry_other _ _ (fun hc => hf hc.1), Function.update_of_ne hf]
  · dsimp only
    rw [writeEntry_other _ _ (fun hc => hi (by omega) hc.2), Function.update_self]
  · dsimp only
    rw [writeEntry_same, hkernel n hn hlt hne]

theorem forkSpace_extends (h : Leveled s lev) (hr : lev r = some 4) (pml4e : Word)
    (h0 : 0 ∉ (forkSpace s pml4e (framePtr r)).2.handed)
    (hclear : ClearTaken (newRoot s pml4e).2 (forkSpace s pml4e (framePtr r)).2) :
    ∃ c lev', (forkSpace s pml4e (framePtr r)).1 = frameAddr c ∧ s.Avail c ∧ lev' c = some 4 ∧
      Extends s lev (forkSpace s pml4e (framePtr r)).2 lev' ∧
      ∀ n, pml4e = framePtr n → n < 2 ^ 15 → n ≠ c → (forkSpace s pml4e (framePtr r)).2.phys c 511 = s.phys n 511 := by
  unfold forkSpace at h0 hclear ⊢
  dsimp only at h0 hclear ⊢
  obtain ⟨c, lev₁, hroot, ha, hc, hext, hkernel⟩ := newRoot_extends h pml4e ((cowWalkPages_steps _ _ _).ok h0)
  rw [hroot] at h0 hclear ⊢
  obtain ⟨lev₂, hcopy⟩ := cowWalkPages_levels hext.leveled (hext.keeps hr) hc h0 hclear
  refine ⟨c, lev₂, rfl, ha, hcopy.keeps hc, hext.trans hcopy, fun n hn hlt hne => ?_⟩
  rw [← hkernel n hn hlt hne]
  exact hcopy.kernel hc

end

end Sbnix.Memory
