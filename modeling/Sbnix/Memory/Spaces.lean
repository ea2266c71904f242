import Sbnix.Memory.Tables
import Sbnix.Memory.Cow
import Sbnix.Library.Sharing

/-! Address spaces that share pages.

The users of the sharing discipline are the last-level entries: a root and the
path of four indices below it. `Mapped` says that the last-level entries are what
a page map `pg` says, and that no page is a table or available; `Spaces` adds the
discipline itself. The slot of the kernel, which all roots have in common, is left
out. -/
namespace Sbnix.Memory
open Words Library

/-- The slots a process has for itself. -/
def userSlot : Own := fun _ i => i.val ≠ 511

/-- `PAGE_PERM & ~PAGE_WRITE`. -/
def readPerm : Word := 5

/-- The entry for a page. -/
def pageEntry : Option (Page Nat) → Word
  | none => 0
  | some p => frameAddr p.frame ||| (if p.writable then pagePerm else readPerm)

/-- The page behind each last-level entry. -/
abbrev PageMap := Nat × List (Fin 512) → Option (Page Nat)

structure Mapped (s : Mem) (loc : TableMap) (pg : PageMap) : Prop where
  tables : Tables userSlot s loc
  entries : ∀ (r : Nat) {π : List (Fin 512)} (i : Fin 512), π.length = 3 →
    entryOf s loc r π i = pageEntry (pg (r, π ++ [i]))
  paths : ∀ {r : Nat} {σ : List (Fin 512)} {p : Page Nat}, pg (r, σ) = some p → σ.length = 4
  busy : ∀ {k : Nat × List (Fin 512)} {p : Page Nat}, pg k = some p →
    p.frame < maxMem ∧ ¬ s.Avail p.frame ∧ ∀ r π, loc r π ≠ some p.frame

structure Spaces (s : Mem) (loc : TableMap) (pg : PageMap) : Prop extends Mapped s loc pg where
  shared : Shared pg (fun f => (s.memmap f).refCnt) (fun f => (s.memmap f).cowFlag)
  spare : ∀ {f : Nat}, s.Avail f → 0 ≤ (s.memmap f).refCnt

/-- What a last-level entry leads to; absent pages read as zero. -/
def pageAt (s : Mem) (pg : PageMap) (k : Nat × List (Fin 512)) : Fin 512 → Word :=
  match pg k with
  | some p => s.phys p.frame
  | none => fun _ => 0

variable {s s' : Mem} {loc loc' : TableMap} {pg pg' : PageMap} {r c f g : Nat} {π σ : List (Fin 512)}
  {p : Page Nat} {i : Fin 512}

/-! ### Entries and the code's tests on them -/

private theorem entry_toNat_low {f : Nat} (hf : f < maxMem) {x : Word} (hx : x.toNat < 4096) :
    (frameAddr f ||| x).toNat = 4096 * f + x.toNat := by
  have hmax := maxMem_lt
  have h := toNat_or_low (frameAddr f) x (k := 12)
    (by rw [frameAddr_toNat (by omega)]; exact ⟨f, rfl⟩) hx
  rw [h, frameAddr_toNat (by omega)]

theorem pageEntry_mask (hp : p.frame < maxMem) : pageEntry (some p) &&& pageMask = frameAddr p.frame := by
  have hmax := maxMem_lt
  apply BitVec.eq_of_toNat_eq
  have hperm : (if p.writable then pagePerm else readPerm).toNat < 4096 := by
    split
    · decide
    · decide
  rw [toNat_and_pageMask, pageEntry, entry_toNat_low hp hperm, frameAddr_toNat (by omega)]
  omega

theorem frameAddr_mask (hf : f < maxMem) : frameAddr f &&& pageMask = frameAddr f := by
  have hmax := maxMem_lt
  apply BitVec.eq_of_toNat_eq
  rw [toNat_and_pageMask, frameAddr_toNat (by omega)]
  omega

theorem pageEntry_present (p : Page Nat) : pageEntry (some p) &&& pagePresent ≠ 0 := by
  intro h
  have := congrArg (fun w : Word => w.getLsbD 0) h
  cases p with
  | mk f w => cases w <;> simp [pageEntry, pagePerm, readPerm, pagePresent] at this

theorem pageEntry_eq_zero {o : Option (Page Nat)} : pageEntry o = 0 ↔ o = none := by
  cases o with
  | none => simp [pageEntry]
  | some p =>
    have hne : pageEntry (some p) ≠ 0 := fun h => pageEntry_present p (by rw [h]; rfl)
    simpa using hne

theorem pageEntry_absent : pageEntry none &&& pagePresent = 0 := rfl

/-- Clearing the write bit. -/
theorem pageEntry_protect (hp : p.frame < maxMem) :
    pageEntry (some p) &&& ~~~pageWrite = pageEntry (some p.protect) := by
  have hmax := maxMem_lt
  have hbit : (frameAddr p.frame).getLsbD 1 = false := by
    rw [BitVec.getLsbD, frameAddr_toNat (by omega), Nat.testBit_eq_decide_div_mod_eq]
    simp only [pow_one, decide_eq_false_iff_not]
    omega
  apply BitVec.eq_of_getLsbD_eq
  intro i hi
  by_cases hone : i = 1
  · subst hone
    simpa [pageEntry, pageWrite, readPerm] using hbit
  · have hw : pageWrite.getLsbD i = false := by
      rw [show pageWrite = BitVec.twoPow 64 1 from rfl, BitVec.getLsbD_twoPow]
      simp [Ne.symm hone]
    have hperm : (if p.writable then pagePerm else readPerm).getLsbD i = readPerm.getLsbD i := by
      split
      · rw [show pagePerm = readPerm ||| pageWrite from rfl, BitVec.getLsbD_or, hw, Bool.or_false]
      · rfl
    simp only [pageEntry, BitVec.getLsbD_and, BitVec.getLsbD_or, BitVec.getLsbD_not, hw, hperm]
    simp [hi]

/-! ### Filling a frame -/

private theorem storeWords_eq (hg : g < 2 ^ 52) {val : Nat → Mem → Word} (w : Fin 512 → Word)
    (hval : ∀ (j : Fin 512) (t : Mem), (∀ h, h ≠ g → t.phys h = s.phys h) → val j t = w j) (n j : Nat)
    (hj : j + n = 512) (t : Mem) (ht : ∀ h, h ≠ g → t.phys h = s.phys h) :
    storeWords (framePtr g) val j n t =
      {t with phys := fun h i => if h = g ∧ j ≤ i.val then w i else t.phys h i} := by
  induction n generalizing j t with
  | zero =>
    have hnone : ∀ h (i : Fin 512), ¬ (h = g ∧ j ≤ i.val) := fun h i hc => by omega
    simp only [storeWords, hnone, if_false]
  | succ n ih =>
    have hlt : j < 512 := by omega
    rw [storeWords, hval ⟨j, hlt⟩ t ht, store_nth t hg ⟨j, hlt⟩, ih (j + 1) (by omega)]
    · congr 1
      funext h i
      dsimp only
      by_cases hh : h = g
      · subst hh
        by_cases hi : i = ⟨j, hlt⟩
        · subst hi
          simp
        · have hval : i.val ≠ j := fun hc => hi (Fin.ext hc)
          have hiff : (j + 1 ≤ i.val) ↔ (j ≤ i.val) := by omega
          rw [writeEntry_other _ _ (fun hc => hi hc.2)]
          simp only [true_and, hiff]
      · rw [if_neg (fun hc => hh hc.1), if_neg (fun hc => hh hc.1), writeEntry_other _ _ (fun hc => hh hc.1)]
    · intro h hh
      funext i
      show writeEntry t.phys g ⟨j, hlt⟩ (w ⟨j, hlt⟩) h i = s.phys h i
      rw [writeEntry_other _ _ (fun hc => hh hc.1), ht h hh]

/-- A loop over the words of a frame whose values do not depend on that frame. -/
theorem storeWords_page (hg : g < 2 ^ 52) {val : Nat → Mem → Word} (w : Fin 512 → Word)
    (hval : ∀ (j : Fin 512) (t : Mem), (∀ h, h ≠ g → t.phys h = s.phys h) → val j t = w j) :
    storeWords (framePtr g) val 0 512 s = {s with phys := Function.update s.phys g w} := by
  rw [storeWords_eq hg w hval 512 0 rfl s (fun _ _ => rfl)]
  congr 1
  funext h
  by_cases hh : h = g
  · subst hh
    simp
  · simp [hh]

theorem clearPage_eq (hg : g < 2 ^ 52) (s : Mem) :
    clearPage (framePtr g) s = {s with phys := Function.update s.phys g (fun _ => 0)} := by
  unfold clearPage
  exact storeWords_page hg (fun _ => 0) (fun _ _ _ => rfl)

/-! ### Steps that keep the spaces -/

/-- A page hangs below a table, and so below a root. -/
theorem Mapped.table (h : Mapped s loc pg) (hp : pg (r, π ++ [i]) = some p) : ∃ f, loc r π = some f := by
  have hπ : π.length = 3 := by simpa using h.paths hp
  cases hl : loc r π with
  | some f => exact ⟨f, rfl⟩
  | none =>
    have hentry := h.entries r i hπ
    rw [entryOf, leaf_none hl, hp] at hentry
    exact absurd (pageEntry_eq_zero.mp hentry.symm) (by simp)

theorem Mapped.rooted (h : Mapped s loc pg) (hp : pg (r, σ) = some p) : loc r [] = some r := by
  have hσ := h.paths hp
  obtain ⟨π, i, rfl⟩ : ∃ π i, σ = π ++ [i] := by
    rcases List.eq_nil_or_concat σ with rfl | ⟨π, i, he⟩
    · simp at hσ
    · exact ⟨π, i, by simpa using he⟩
  obtain ⟨f, hf⟩ := h.table hp
  exact h.tables.root hf

/-- New tables change no page. -/
theorem Mapped.grown (h : Mapped s loc pg) (hg : Grown userSlot s loc s' loc') : Mapped s' loc' pg where
  tables := hg.tables
  entries := fun r _ i hπ => (hg.entries r i hπ).trans (h.entries r i hπ)
  paths := h.paths
  busy := fun hp => by
    obtain ⟨hlt, hav, htab⟩ := h.busy hp
    refine ⟨hlt, fun ha => hav (hg.avail ha), ?_⟩
    intro r π hl
    rcases hg.fresh hl with hold | ha
    · exact htab r π hold
    · exact hav ha

theorem Spaces.grown (h : Spaces s loc pg) (hg : Grown userSlot s loc s' loc') : Spaces s' loc' pg where
  toMapped := h.toMapped.grown hg
  shared := by
    have hsame : ∀ {k p}, pg k = some p → s'.memmap p.frame = s.memmap p.frame := fun hp =>
      hg.memmap (h.busy hp).1 (h.busy hp).2.1
    exact h.shared.congr (fun hp => by rw [hsame hp]) (fun hp => by rw [hsame hp])
  spare := fun ha => by
    rw [hg.spare ha]
    exact h.spare (hg.avail ha)

/-- The contents of pages stay when the frames that are neither tables nor
available do. -/
theorem Mapped.pageAt_eq (h : Mapped s loc pg)
    (hphys : ∀ {f}, ¬ s.Avail f → (∀ r π, loc r π ≠ some f) → s'.phys f = s.phys f)
    (k : Nat × List (Fin 512)) : pageAt s' pg k = pageAt s pg k := by
  unfold pageAt
  cases hp : pg k with
  | none => rfl
  | some p => exact hphys (h.busy hp).2.1 (h.busy hp).2.2

theorem count_refCnt (s : Mem) (i : Nat) (n : Int) (b : Bool) :
    (fun f => ((s.count i n b).memmap f).refCnt) = Function.update (fun f => (s.memmap f).refCnt) i n := by
  funext f
  by_cases he : f = i
  · subst he
    simp [Mem.count, Mem.setEntry]
  · simp [Mem.count, Mem.setEntry, Function.update_of_ne he]

theorem count_cowFlag (s : Mem) (i : Nat) (n : Int) (b : Bool) :
    (fun f => ((s.count i n b).memmap f).cowFlag) = Function.update (fun f => (s.memmap f).cowFlag) i b := by
  funext f
  by_cases he : f = i
  · subst he
    simp [Mem.count, Mem.setEntry]
  · simp [Mem.count, Mem.setEntry, Function.update_of_ne he]

/-- Counts and flags are not part of the map. -/
theorem Mapped.count (h : Mapped s loc pg) (i : Nat) (n : Int) (b : Bool) : Mapped (s.count i n b) loc pg where
  tables := h.tables.congr (fun j _ => count_other s i n b j) (fun _ => rfl)
  entries := h.entries
  paths := h.paths
  busy := fun hp => by
    rw [count_avail]
    exact h.busy hp

/-- Storing the entry of a page. -/
theorem Mapped.setPage (h : Mapped s loc pg) (hf : loc r π = some f) (hπ : π.length = 3) (i : Fin 512)
    (hp : p.frame < maxMem ∧ ¬ s.Avail p.frame ∧ ∀ r π, loc r π ≠ some p.frame) :
    Mapped {s with phys := writeEntry s.phys f i (pageEntry (some p))} loc
      (Function.update pg (r, π ++ [i]) (some p)) where
  tables := h.tables.setEntry hf hπ i _
  entries := by
    intro r' π' i' hπ'
    rw [entryOf_setEntry h.tables hf]
    by_cases he : r' = r ∧ π' = π ∧ i' = i
    · rw [if_pos he, he.1, he.2.1, he.2.2, Function.update_self]
    · have hne : (r', π' ++ [i']) ≠ (r, π ++ [i]) := fun hc => by
        obtain ⟨hr, hσ⟩ := Prod.mk.inj hc
        obtain ⟨hππ, hii⟩ := List.append_inj' hσ rfl
        exact he ⟨hr, hππ, by simpa using hii⟩
      rw [if_neg he, Function.update_of_ne hne]
      exact h.entries r' i' hπ'
  paths := by
    intro r' σ p' hp'
    obtain ⟨hk, _⟩ | ⟨_, hp'⟩ := update_cases hp'
    · rw [(Prod.mk.inj hk).2]
      simp [hπ]
    · exact h.paths hp'
  busy := by
    intro k p' hp'
    obtain ⟨_, rfl⟩ | ⟨_, hp'⟩ := update_cases hp'
    · exact hp
    · exact h.busy hp'

/-- A frame nobody has becomes a page. -/
theorem Spaces.map (h : Spaces s loc pg) (hf : loc r π = some f) (hπ : π.length = 3) (i : Fin 512)
    (hg : g < maxMem ∧ ¬ s.Avail g ∧ ∀ r π, loc r π ≠ some g) (hunused : ∀ {k p}, pg k = some p → p.frame ≠ g)
    (hcnt : 1 ≤ (s.memmap g).refCnt) :
    Spaces {s with phys := writeEntry s.phys f i (frameAddr g ||| pagePerm)} loc
      (Function.update pg (r, π ++ [i]) (some ⟨g, true⟩)) where
  toMapped := h.toMapped.setPage (p := ⟨g, true⟩) hf hπ i hg
  shared := h.shared.fresh _ hunused hcnt
  spare := h.spare

/-- Changing a frame that is neither a table nor available. -/
theorem Mapped.content (h : Mapped s loc pg) (hav : ¬ s.Avail f) (htab : ∀ r π, loc r π ≠ some f)
    (hphys : ∀ g, g ≠ f → s'.phys g = s.phys g) (hm : s'.memmap = s.memmap) : Mapped s' loc pg := by
  have hsame : ∀ {g}, (s.Avail g ∨ ∃ r π, loc r π = some g) → s'.phys g = s.phys g := by
    intro g hg
    apply hphys
    intro he
    subst he
    rcases hg with ha | ⟨r, π, hl⟩
    · exact hav ha
    · exact htab r π hl
  refine ⟨h.tables.congr (fun i _ => by rw [hm]; exact ⟨rfl, rfl⟩) hsame, ?_, h.paths, ?_⟩
  · intro r π i hπ
    rw [← h.entries r i hπ]
    exact leaf_frame (fun r π g hl => hsame (Or.inr ⟨r, π, hl⟩)) r π i
  · intro k p hp
    rw [Mem.Avail, hm]
    exact h.busy hp

theorem Spaces.content (h : Spaces s loc pg) (hav : ¬ s.Avail f) (htab : ∀ r π, loc r π ≠ some f)
    (hphys : ∀ g, g ≠ f → s'.phys g = s.phys g) (hm : s'.memmap = s.memmap) : Spaces s' loc pg where
  toMapped := h.toMapped.content hav htab hphys hm
  shared := by
    rw [hm]
    exact h.shared
  spare := fun {g} ha => by
    rw [Mem.Avail, hm] at ha
    rw [hm]
    exact h.spare ha

/-- Only the entries of `memmap` inside the table matter. -/
theorem Spaces.congr (h : Spaces s loc pg) (hm : ∀ i < maxMem, s'.memmap i = s.memmap i) (hp : s'.phys = s.phys) :
    Spaces s' loc pg := by
  have hav : ∀ i, s'.Avail i ↔ s.Avail i := fun i => and_congr_right fun hi => by rw [hm i hi]
  refine ⟨⟨h.tables.congr (fun i hi => by rw [hm i hi]; exact ⟨rfl, rfl⟩) (fun _ => by rw [hp]), ?_, h.paths, ?_⟩,
    h.shared.congr ?_ ?_, ?_⟩
  · intro r π i hπ
    rw [← h.entries r i hπ, entryOf, entryOf, hp]
  · intro k p hk
    rw [hav]
    exact h.busy hk
  · intro k p hk
    rw [hm _ (h.busy hk).1]
  · intro k p hk
    rw [hm _ (h.busy hk).1]
  · intro f ha
    rw [hm f ha.1]
    exact h.spare ((hav f).mp ha)

/-- A frame that is available has no tables below it as a root. -/
theorem Tables.no_root {own : Own} (h : Tables own s loc) (hav : s.Avail c) (π : List (Fin 512)) : loc c π = none := by
  cases hl : loc c π with
  | none => rfl
  | some f => exact absurd hav (h.taken (h.root hl)).2

/-- A new root: an available frame, emptied but for the slot of the kernel. -/
theorem Spaces.plant (h : Spaces s loc pg) (hav : s.Avail c) (hm : s'.memmap = (s.take c).memmap)
    (hphys : ∀ g, g ≠ c → s'.phys g = s.phys g) (hempty : ∀ j, userSlot c j → s'.phys c j = 0) :
    Spaces s' (place loc c [] c) pg := by
  have hused : ¬ (s.take c).Avail c := fun ha => ((take_avail s c c).mp ha).2 rfl
  have hs : Spaces s' loc pg :=
    (h.grown (Grown.take h.tables hav)).content hused (h.tables.not_avail hav) hphys hm
  have hcases : ∀ {r π f}, place loc c [] c r π = some f → loc r π = some f ∨ f = c := by
    intro r π f hl
    by_cases hp : r = c ∧ π = []
    · rw [hp.1, hp.2, place_same] at hl
      exact Or.inr (Option.some.inj hl).symm
    · rw [place_other _ _ hp] at hl
      exact Or.inl hl
  have hkeep : ∀ r, loc r [] = some r → place loc c [] c r [] = some r := by
    intro r hr
    by_cases hp : r = c
    · rw [hp, place_same]
    · rw [place_other _ _ (fun hc => hp hc.1)]
      exact hr
  refine ⟨⟨⟨hs.tables.addressed, ?_, ?_, ?_, hs.tables.zeroed⟩, ?_, hs.paths, ?_⟩, hs.shared, hs.spare⟩
  · exact hs.tables.forest.plant (h.tables.no_root hav) (h.tables.not_avail hav) hempty
  · intro r f π hl
    by_cases hp : r = c ∧ π = []
    · rw [hp.1, place_same]
    · rw [place_other _ _ hp] at hl
      exact hkeep r (hs.tables.root hl)
  · intro r π f hl
    rcases hcases hl with hl | rfl
    · exact hs.tables.taken hl
    · refine ⟨hav.1, fun ha => hused ?_⟩
      rwa [Mem.Avail, hm] at ha
  · intro r π i hπ
    rw [← hs.entries r i hπ]
    exact leaf_plant r (fun he => by simp [he] at hπ) i
  · intro k p hp
    refine ⟨(hs.busy hp).1, (hs.busy hp).2.1, fun r π hl => ?_⟩
    rcases hcases hl with hl | he
    · exact (hs.busy hp).2.2 r π hl
    · exact (h.busy hp).2.1 (he ▸ hav)

/-! ### What the spaces leave alone -/

/-- The frames of the spaces come out of the pool; every other frame keeps its
content, and every root the word in the slot of the kernel. -/
structure Kept (s : Mem) (loc : TableMap) (pg : PageMap) (s' : Mem) (loc' : TableMap) (pg' : PageMap) : Prop where
  tables : ∀ {q : Nat} {π : List (Fin 512)} {f : Nat}, loc' q π = some f → (∃ q π, loc q π = some f) ∨ s.Avail f
  pages : ∀ {k : Nat × List (Fin 512)} {p : Page Nat}, pg' k = some p →
    (∃ k' p', pg k' = some p' ∧ p'.frame = p.frame) ∨ s.Avail p.frame
  avail : ∀ {f : Nat}, s'.Avail f → s.Avail f
  roots : ∀ {q : Nat}, loc q [] = some q → loc' q [] = some q
  phys : ∀ {f : Nat}, ¬ s.Avail f → (∀ q π, loc q π ≠ some f) → (∀ k p, pg k = some p → p.frame ≠ f) →
    s'.phys f = s.phys f
  kernel : ∀ {q : Nat}, loc q [] = some q → s'.phys q 511 = s.phys q 511

theorem Kept.trans {s₁ : Mem} {loc₁ : TableMap} {pg₁ : PageMap} (h : Kept s loc pg s₁ loc₁ pg₁)
    (h' : Kept s₁ loc₁ pg₁ s' loc' pg') : Kept s loc pg s' loc' pg' where
  tables := fun hl => by
    obtain ⟨q, π, hl⟩ | ha := h'.tables hl
    · exact h.tables hl
    · exact Or.inr (h.avail ha)
  pages := fun hp => by
    obtain ⟨k, p', hp', he⟩ | ha := h'.pages hp
    · rw [← he]
      exact h.pages hp'
    · exact Or.inr (h.avail ha)
  avail := fun ha => h.avail (h'.avail ha)
  roots := fun hq => h'.roots (h.roots hq)
  phys := fun {f} ha htab hpage => by
    have htab₁ : ∀ q π, loc₁ q π ≠ some f := fun q π hl =>
      (h.tables hl).elim (fun ⟨q, π, hl⟩ => htab q π hl) ha
    have hpage₁ : ∀ k p, pg₁ k = some p → p.frame ≠ f := by
      intro k p hp he
      obtain ⟨k', p', hp', hf⟩ | hav := h.pages hp
      · exact hpage k' p' hp' (hf.trans he)
      · exact ha (he ▸ hav)
    rw [h'.phys (fun hc => ha (h.avail hc)) htab₁ hpage₁, h.phys ha htab hpage]
  kernel := fun hq => (h'.kernel (h.roots hq)).trans (h.kernel hq)

theorem Kept.refl : Kept s loc pg s loc pg where
  tables := fun hl => Or.inl ⟨_, _, hl⟩
  pages := fun hp => Or.inl ⟨_, _, hp, rfl⟩
  avail := id
  roots := id
  phys := fun _ _ _ => rfl
  kernel := fun _ => rfl

theorem Grown.kept (h : Grown userSlot s loc s' loc') (pg : PageMap) : Kept s loc pg s' loc' pg where
  tables := fun hl => (h.fresh hl).imp (fun hl => ⟨_, _, hl⟩) id
  pages := fun hp => Or.inl ⟨_, _, hp, rfl⟩
  avail := h.avail
  roots := h.keeps
  phys := fun ha htab _ => h.phys ha htab
  kernel := fun hq => h.unowned hq (fun ho => ho rfl)

/-- A step that writes one frame, of the pool or a page or a table below a root. -/
theorem Kept.write (hav : ∀ {f}, s'.Avail f → s.Avail f) (hphys : ∀ h, h ≠ f → s'.phys h = s.phys h)
    (hf : s.Avail f ∨ (∃ k p, pg k = some p ∧ p.frame = f) ∨ ∃ r π, loc r π = some f)
    (hroot : ∀ {q}, loc q [] = some q → q ≠ f)
    (hpages : ∀ {k p}, pg' k = some p → (∃ k' p', pg k' = some p' ∧ p'.frame = p.frame) ∨ s.Avail p.frame) :
    Kept s loc pg s' loc pg' where
  tables := fun hl => Or.inl ⟨_, _, hl⟩
  pages := hpages
  avail := hav
  roots := id
  phys := fun {g} ha htab hpage => by
    apply hphys
    intro he
    subst he
    obtain hc | ⟨k, p, hp, he⟩ | ⟨r, π, hl⟩ := hf
    · exact ha hc
    · exact hpage k p hp he
    · exact htab r π hl
  kernel := fun hq => by rw [hphys _ (hroot hq)]

theorem Tables.below_root {own : Own} (h : Tables own s loc) (hl : loc r π = some f) (hπ : π ≠ []) {q : Nat}
    (hq : loc q [] = some q) : q ≠ f := by
  rintro rfl
  exact hπ (h.forest.inj hl hq).2

/-- The page map after one entry got a frame that was a page or in the pool. -/
theorem pages_update (k : Nat × List (Fin 512)) (hg : (∃ k' p', pg k' = some p' ∧ p'.frame = p.frame) ∨ s.Avail p.frame)
    {k' : Nat × List (Fin 512)} {p' : Page Nat} (hp' : Function.update pg k (some p) k' = some p') :
    (∃ k' p'', pg k' = some p'' ∧ p''.frame = p'.frame) ∨ s.Avail p'.frame := by
  obtain ⟨_, rfl⟩ | ⟨_, hp'⟩ := update_cases hp'
  · exact hg
  · exact Or.inl ⟨k', p', hp', rfl⟩

/-! ### Before the first process -/

/-- A pool of zeroed frames nobody uses. -/
structure ZeroedPool (s : Mem) : Prop where
  addressed : Addressed s
  zeroed : ∀ {f : Nat}, s.Avail f → ∀ i, s.phys f i = 0
  unused : ∀ {f : Nat}, s.Avail f → (s.memmap f).refCnt = 0

theorem ZeroedPool.mapped {s : Mem} (h : ZeroedPool s) : Spaces s (fun _ _ => none) (fun _ => none) where
  tables :=
    { addressed := h.addressed
      forest := ⟨fun hf => (nomatch hf), fun hf => (nomatch hf), fun _ _ => rfl⟩
      root := fun hf => nomatch hf
      taken := fun hf => nomatch hf
      zeroed := h.zeroed }
  entries := fun _ _ _ _ => rfl
  paths := fun hp => nomatch hp
  busy := fun hp => nomatch hp
  shared := ⟨fun hp => (nomatch hp), fun hp => (nomatch hp), fun hp => (nomatch hp)⟩
  spare := fun ha => by rw [h.unused ha]

theorem bootMem_zeroedPool : ZeroedPool bootMem where
  addressed := bootMem_shape.addressed
  zeroed := fun _ _ => rfl
  unused := fun {f} ha => by
    have hlt := ha.1
    have hav := ha.2
    unfold bootMem initMemmap at hav ⊢
    dsimp only at hav ⊢
    rw [if_pos hlt] at hav ⊢
    split at hav
    · cases hav
    · rename_i hfree
      rw [if_neg hfree]

end Sbnix.Memory
