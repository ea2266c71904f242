import Mathlib.Data.Set.Finite.List
import Sbnix.Memory.Fork

/-! The exact effect of `cow_walk_pages`, on any tree of tables.

Here a parent is a root in memory and what can be read from it. Its entries may have any
flags, its pages any counts, and it need not be a process of the kernel. `Done D s C` says
of the walk that it has come to memory `s` with the entries at the paths in `D` behind it,
and that the tables of the child are `C` by then: one for each of the parent's tables met,
taken from the pool, and the entries of the pages met are in both, without their write
bit. Each piece of the walk adds its paths (`Extends`). -/
namespace Sbnix.Memory.CowWalk
open Words Library

/-! ### The tables below a root -/

def present (e : Word) : Bool := e &&& pagePresent ≠ 0

/-- The frame an entry names. -/
def frame (e : Word) : Nat := e.toNat / 4096

/-- The table or page that a path of indices leads to. -/
def descend (s : Mem) : Nat → List (Fin 512) → Option Nat
  | f, [] => some f
  | f, j :: π => if present (s.phys f j) then descend s (frame (s.phys f j)) π else none

/-- Not in the slot of the kernel. -/
def isUser (π : List (Fin 512)) : Bool := π.head?.all fun j => j.val != 511

/-- The tables of the address space with root `r`, in the slots 0 to 510. -/
def tableAt (s : Mem) (r : Nat) (π : List (Fin 512)) : Option Nat :=
  if π.length ≤ 3 ∧ isUser π then descend s r π else none

/-- The entry of a page that is present. -/
def leafEntry (s : Mem) (r : Nat) (π : List (Fin 512)) (l : Fin 512) : Option Word :=
  match tableAt s r π with
  | some f => if π.length = 3 ∧ present (s.phys f l) then some (s.phys f l) else none
  | none => none

/-- The paths to the entries that map the frame `x`. -/
def mappings (s : Mem) (r x : Nat) : Set (List (Fin 512)) :=
  {σ | ∃ π l e, σ = π ++ [l] ∧ leafEntry s r π l = some e ∧ frame e = x}

/-- The tables are a tree: no two paths lead to one of them. -/
def IsTree (s : Mem) (r : Nat) : Prop := ∀ π ρ f, tableAt s r π = some f → tableAt s r ρ = some f → π = ρ

abbrev Paths := List (Fin 512) → Option Nat

/-- What `tableAt` finds, told by its links. -/
structure Linked (s : Mem) (r : Nat) (P : Paths) : Prop where
  root : P [] = some r
  short : ∀ {π f}, P π = some f → π.length ≤ 3 ∧ isUser π = true
  link : ∀ {π f j}, P π = some f → π.length < 3 → isUser (π ++ [j]) = true →
    P (π ++ [j]) = if present (s.phys f j) then some (frame (s.phys f j)) else none
  above : ∀ {π j}, P π = none → P (π ++ [j]) = none

variable {s s' s₀ : Mem} {r c f g x : Nat} {P C : Paths} {π ρ σ : List (Fin 512)} {j l : Fin 512}

theorem descend_append (s : Mem) (f : Nat) (π : List (Fin 512)) (j : Fin 512) :
    descend s f (π ++ [j]) =
      (descend s f π).bind fun g => if present (s.phys g j) then some (frame (s.phys g j)) else none := by
  induction π generalizing f with
  | nil => rfl
  | cons i π ih =>
    rw [List.cons_append, descend, descend]
    split
    · exact ih _
    · rfl

theorem isUser_of_append (hπ : isUser (π ++ [j]) = true) : isUser π = true := by
  cases π with
  | nil => rfl
  | cons i π => exact hπ

theorem linked_tableAt (s : Mem) (r : Nat) : Linked s r (tableAt s r) where
  root := rfl
  short := fun {π f} h => by
    unfold tableAt at h
    split at h
    · assumption
    · cases h
  link := fun {π f j} h hlen hhead => by
    have hok : (π ++ [j]).length ≤ 3 ∧ isUser (π ++ [j]) = true := by
      rw [List.length_append]
      exact ⟨hlen, hhead⟩
    have hdesc : descend s r π = some f := by
      rw [tableAt, if_pos ⟨Nat.le_of_lt hlen, isUser_of_append hhead⟩] at h
      exact h
    rw [tableAt, if_pos hok, descend_append, hdesc]
    rfl
  above := fun {π j} h => by
    unfold tableAt at h ⊢
    split
    · rename_i hok
      have hok' : π.length ≤ 3 ∧ isUser π = true := by
        rw [List.length_append] at hok
        exact ⟨Nat.le_of_succ_le hok.1, isUser_of_append hok.2⟩
      rw [if_pos hok'] at h
      rw [descend_append, h]
      rfl
    · rfl

/-- The links determine the tables. -/
theorem Linked.eq_tableAt (h : Linked s r P) : P = tableAt s r := by
  funext π
  have ht := linked_tableAt s r
  induction π using List.reverseRecOn with
  | nil => rw [h.root, ht.root]
  | append_singleton π j ih =>
    cases hP : P π with
    | none =>
      rw [h.above hP, ht.above (ih ▸ hP)]
    | some f =>
      have hT : tableAt s r π = some f := ih ▸ hP
      by_cases hok : π.length < 3 ∧ isUser (π ++ [j]) = true
      · rw [h.link hP hok.1 hok.2, ht.link hT hok.1 hok.2]
      · have hnone : ∀ {Q : Paths}, Linked s r Q → Q (π ++ [j]) = none := fun hQ =>
          Option.eq_none_iff_forall_ne_some.mpr fun f' hf' => hok (by
            have := hQ.short hf'
            rw [List.length_append] at this
            exact this)
        rw [hnone h, hnone ht]

/-! ### Where the walk starts, and what it has done -/

/-- A parent with root `r` in memory `s`, a cleared root `c` for the child, and enough
frames in the pool. A frame that is mapped or holds a table is not in the pool; neither
is the one at address 0, which `mem_allocate` could not be seen to return. -/
structure Start (s : Mem) (r c : Nat) : Prop where
  addressed : Addressed s
  tree : IsTree s r
  tables : ∀ {π f}, tableAt s r π = some f → ¬ s.Avail f
  pages : ∀ {x}, (mappings s r x).Nonempty → x < maxMem ∧ ¬ s.Avail x
  parent : r < 2 ^ 52
  child : c < 2 ^ 52 ∧ ¬ s.Avail c ∧ ∀ π, tableAt s r π ≠ some c
  cleared : ∀ j : Fin 512, j.val ≠ 511 → s.phys c j = 0
  zeroed : ∀ {f}, s.Avail f → ∀ j, s.phys f j = 0
  first : ¬ s.Avail 0
  enough : {π | π ≠ [] ∧ (tableAt s r π).isSome = true}.ncard ≤ {f | s.Avail f}.ncard

def protect (e : Word) : Word := e &&& ~~~pageWrite

/-- The entry of a frame that has been given `n` more users. -/
def share (m : MemoryMap) (n : Nat) : MemoryMap :=
  if n = 0 then m else {m with refCnt := m.refCnt + n, cowFlag := true}

open Classical in
/-- The entry `e`, in the parent or in the child, if the walk has come by, and else what was
there. -/
noncomputable def settled (D : Set (List (Fin 512))) (σ : List (Fin 512)) (e before : Word) : Word :=
  if σ ∈ D ∧ present e = true then protect e else before

/-- From `s₀` to `s`: the entries at the paths in `D` have been copied, and the child has the
tables `C`. -/
structure Done (s₀ : Mem) (r c : Nat) (D : Set (List (Fin 512))) (s : Mem) (C : Paths) : Prop where
  root : C [] = some c
  domain : ∀ π, (C π).isSome = true ↔ π = [] ∨ (π ∈ D ∧ (tableAt s₀ r π).isSome = true)
  inj : ∀ {π ρ g}, C π = some g → C ρ = some g → π = ρ
  fresh : ∀ {π g}, C π = some g → π ≠ [] → s₀.Avail g
  /-- Every frame but the last-level tables of the parent and the tables of the child. -/
  others : ∀ {f}, (∀ π, tableAt s₀ r π = some f → π.length ≠ 3) → (∀ π, C π ≠ some f) → s.phys f = s₀.phys f
  parent : ∀ {π f}, tableAt s₀ r π = some f → π.length = 3 → ∀ l,
    s.phys f l = settled D (π ++ [l]) (s₀.phys f l) (s₀.phys f l)
  links : ∀ {π g j}, C π = some g → π.length < 3 → isUser (π ++ [j]) = true → s.phys g j = tableEntry (C (π ++ [j]))
  leaves : ∀ {π f g}, tableAt s₀ r π = some f → C π = some g → π.length = 3 → ∀ l,
    s.phys g l = settled D (π ++ [l]) (s₀.phys f l) 0
  kernel : ∀ j : Fin 512, j.val = 511 → s.phys c j = s₀.phys c j
  shared : ∀ {x}, (∀ π, π ≠ [] → C π ≠ some x) → s.memmap x = share (s₀.memmap x) (D ∩ mappings s₀ r x).ncard
  taken : ∀ {x π}, C π = some x → π ≠ [] →
    s.memmap x = {s₀.memmap x with refCnt := (s₀.memmap x).refCnt + 1, resFlag := .busy}
  /-- No frame has been asked for but for the child's tables. -/
  handed : s.handed.length = s₀.handed.length + {π | π ≠ [] ∧ (C π).isSome = true}.ncard

variable {D D' : Set (List (Fin 512))} {e before : Word}

theorem settled_in (hσ : σ ∈ D) (he : present e = true) : settled D σ e before = protect e := if_pos ⟨hσ, he⟩

theorem settled_out (hσ : σ ∉ D) : settled D σ e before = before := if_neg fun hc => hσ hc.1

theorem settled_absent (he : present e = false) : settled D σ e before = before :=
  if_neg fun hc => Bool.false_ne_true (he.symm.trans hc.2)

theorem settled_congr (h : present e = true → (σ ∈ D ↔ σ ∈ D')) : settled D σ e before = settled D' σ e before := by
  by_cases he : present e = true
  · by_cases hσ : σ ∈ D
    · rw [settled_in hσ he, settled_in ((h he).mp hσ) he]
    · rw [settled_out hσ, settled_out fun hσ' => hσ ((h he).mpr hσ')]
  · rw [Bool.not_eq_true] at he
    rw [settled_absent he, settled_absent he]

theorem share_fields (m : MemoryMap) (n : Nat) : (share m n).addr = m.addr ∧ (share m n).resFlag = m.resFlag := by
  unfold share
  split
  · exact ⟨rfl, rfl⟩
  · exact ⟨rfl, rfl⟩

/-- One more user. -/
theorem share_succ (m : MemoryMap) (n : Nat) :
    {share m n with refCnt := (share m n).refCnt + 1, cowFlag := true} = share m (n + 1) := by
  unfold share
  rw [if_neg (Nat.succ_ne_zero n)]
  split
  · rename_i hn
    rw [hn]
    rfl
  · dsimp only
    congr 1
    push_cast
    ring

theorem Start.begin (h : Start s₀ r c) : Done s₀ r c ∅ s₀ (fun π => if π = [] then some c else none) where
  root := rfl
  domain := fun π => by
    by_cases hπ : π = []
    · simp [hπ]
    · simp [hπ]
  inj := fun {π ρ g} hπ hρ => by
    by_cases hπ' : π = []
    · by_cases hρ' : ρ = []
      · rw [hπ', hρ']
      · rw [if_neg hρ'] at hρ
        cases hρ
    · rw [if_neg hπ'] at hπ
      cases hπ
  fresh := fun {π g} hπ hne => by
    rw [if_neg hne] at hπ
    cases hπ
  others := fun _ _ => rfl
  parent := fun _ _ l => (settled_out (Set.notMem_empty _)).symm
  links := fun {π g j} hπ _ huser => by
    by_cases hπ' : π = []
    · subst hπ'
      rw [if_pos rfl] at hπ
      obtain rfl := Option.some.inj hπ
      have hj : j.val ≠ 511 := by simpa [isUser] using huser
      rw [if_neg (by simp)]
      exact h.cleared j hj
    · rw [if_neg hπ'] at hπ
      cases hπ
  leaves := fun {π f g} _ hπ hlen l => by
    have hne : π ≠ [] := fun he => by rw [he] at hlen; cases hlen
    rw [if_neg hne] at hπ
    cases hπ
  kernel := fun _ _ => rfl
  shared := fun {x} _ => by
    rw [Set.empty_inter, Set.ncard_empty]
    rfl
  taken := fun {x π} hπ hne => by
    rw [if_neg hne] at hπ
    cases hπ
  handed := by
    have hnone : {π : List (Fin 512) | π ≠ [] ∧ (if π = [] then some c else none).isSome = true} = ∅ :=
      Set.eq_empty_iff_forall_notMem.mpr fun π hπ => by
        have hsome := hπ.2
        rw [if_neg hπ.1] at hsome
        cases hsome
    rw [hnone, Set.ncard_empty]
    rfl

/-! ### What follows from it -/

namespace Done

theorem apart (h : Done s₀ r c D s C) (h₀ : Start s₀ r c) (hf : tableAt s₀ r π = some f) : ∀ ρ, C ρ ≠ some f := by
  intro ρ hρ
  by_cases hne : ρ = []
  · rw [hne, h.root] at hρ
    exact h₀.child.2.2 π (hf.trans hρ.symm)
  · exact h₀.tables hf (h.fresh hρ hne)

/-- The upper tables of the parent are as they were. -/
theorem upper (h : Done s₀ r c D s C) (h₀ : Start s₀ r c) (hf : tableAt s₀ r π = some f) (hlen : π.length < 3) :
    s.phys f = s₀.phys f := by
  refine h.others (fun ρ hρ => ?_) (h.apart h₀ hf)
  rw [h₀.tree ρ π f hρ hf]
  exact Nat.ne_of_lt hlen

theorem addressed (h : Done s₀ r c D s C) (h₀ : Start s₀ r c) : Addressed s := by
  intro i hi
  rw [← h₀.addressed i hi]
  by_cases hC : ∃ π, π ≠ [] ∧ C π = some i
  · obtain ⟨π, hne, hπ⟩ := hC
    rw [h.taken hπ hne]
  · rw [h.shared (fun π hne hπ => hC ⟨π, hne, hπ⟩)]
    exact (share_fields _ _).1

theorem avail_iff (h : Done s₀ r c D s C) (h₀ : Start s₀ r c) : s.Avail x ↔ s₀.Avail x ∧ ∀ π, C π ≠ some x := by
  unfold Mem.Avail
  by_cases hC : ∃ π, π ≠ [] ∧ C π = some x
  · obtain ⟨π, hne, hπ⟩ := hC
    rw [h.taken hπ hne]
    constructor
    · intro ha
      cases ha.2
    · intro ha
      exact absurd hπ (ha.2 π)
  · have hshared := h.shared (fun π hne hπ => hC ⟨π, hne, hπ⟩)
    rw [hshared, (share_fields _ _).2]
    refine ⟨fun ha => ⟨ha, fun π hπ => ?_⟩, fun ha => ha.1⟩
    by_cases hne : π = []
    · rw [hne, h.root] at hπ
      exact h₀.child.2.1 (Option.some.inj hπ ▸ ha)
    · exact hC ⟨π, hne, hπ⟩

theorem lt (h : Done s₀ r c D s C) (h₀ : Start s₀ r c) (hg : C π = some g) : g < 2 ^ 52 := by
  by_cases hne : π = []
  · rw [hne, h.root] at hg
    rw [← Option.some.inj hg]
    exact h₀.child.1
  · have := (h.fresh hg hne).1
    have := maxMem_lt
    omega

end Done

theorem frame_lt (e : Word) : frame e < 2 ^ 52 := by
  have := e.isLt
  unfold frame
  omega

theorem Start.lt (h : Start s r c) (hf : tableAt s r π = some f) : f < 2 ^ 52 := by
  have ht := linked_tableAt s r
  obtain rfl | ⟨ρ, j, rfl⟩ := List.eq_nil_or_concat' π
  · rw [ht.root] at hf
    rw [← Option.some.inj hf]
    exact h.parent
  · have hok := ht.short hf
    cases hρ : tableAt s r ρ with
    | none =>
      rw [ht.above hρ] at hf
      cases hf
    | some f' =>
      rw [List.length_append] at hok
      rw [ht.link hρ (Nat.lt_of_succ_le hok.1) hok.2] at hf
      split at hf
      · rw [← Option.some.inj hf]
        exact frame_lt _
      · cases hf

/-! ### One entry of the last level -/

/-- A part of the walk that goes through the paths in `D`, with the child's table at `π` in
frame `g`. -/
def Extends (s₀ : Mem) (r c : Nat) (π : List (Fin 512)) (g : Nat) (D : Set (List (Fin 512)))
    (code : Mem → Except Mem Mem) : Prop :=
  ∀ ⦃D₀ : Set (List (Fin 512))⦄ ⦃s : Mem⦄ ⦃C : Paths⦄, Done s₀ r c D₀ s C → C π = some g → (∀ σ ∈ D, σ ∉ D₀) →
    ∃ s' C', code s = .ok s' ∧ Done s₀ r c (D₀ ∪ D) s' C' ∧ ∀ {ρ h}, C ρ = some h → C' ρ = some h

theorem mappings_length (hσ : σ ∈ mappings s r x) : σ.length = 4 := by
  obtain ⟨π, l, e, rfl, hleaf, _⟩ := hσ
  unfold leafEntry at hleaf
  split at hleaf
  · split at hleaf
    · rename_i hok
      rw [List.length_append, hok.1]
      rfl
    · cases hleaf
  · cases hleaf

theorem mem_mappings (hf : tableAt s r π = some f) (hlen : π.length = 3) :
    π ++ [l] ∈ mappings s r x ↔ present (s.phys f l) = true ∧ frame (s.phys f l) = x := by
  constructor
  · rintro ⟨ρ, l', e, heq, hleaf, hframe⟩
    obtain ⟨rfl, hl⟩ := List.append_inj' heq rfl
    obtain rfl : l = l' := by simpa using hl
    rw [leafEntry, hf] at hleaf
    dsimp only at hleaf
    split at hleaf
    · rename_i hok
      obtain rfl := Option.some.inj hleaf
      exact ⟨hok.2, hframe⟩
    · cases hleaf
  · rintro ⟨hpresent, hframe⟩
    refine ⟨π, l, s.phys f l, rfl, ?_, hframe⟩
    rw [leafEntry, hf]
    exact if_pos ⟨hlen, hpresent⟩

theorem mappings_finite (s : Mem) (r x : Nat) (D : Set (List (Fin 512))) : (D ∩ mappings s r x).Finite :=
  (List.finite_length_eq (Fin 512) 4).subset fun _ hσ => mappings_length hσ.2

/-- Of the paths through an entry of a last-level table only the one to the entry itself is
the path of anything. -/
theorem under_leaf (hlen : π.length = 3) (hσ : σ ∈ under π l) (hshort : σ.length ≤ 4) : σ = π ++ [l] :=
  (List.IsPrefix.eq_of_length_le hσ (by rw [List.length_append, hlen]; exact hshort)).symm

theorem mappings_under (hlen : π.length = 3) (hσ : σ ∈ under π l) (hmap : σ ∈ mappings s r x) : σ = π ++ [l] :=
  under_leaf hlen hσ (Nat.le_of_eq (mappings_length hmap))

theorem frameAddr_frame (e : Word) : e &&& pageMask = frameAddr (frame e) := by
  apply BitVec.eq_of_toNat_eq
  rw [toNat_and_pageMask, frameAddr_toNat (frame_lt e), frame, Nat.mul_comm]

/-- Both entries lose the write bit, and the frame has one user more. -/
theorem sharePage_leaf (hs : Addressed s) (hf : f < 2 ^ 52) (hg : g < 2 ^ 52) (hyes : present (s.phys f l) = true)
    (hx : frame (s.phys f l) < maxMem) :
    sharePage (framePtr f) (framePtr g) l s = .ok ((withEntries s f g l (s.phys f l)).count (frame (s.phys f l))
      ((s.memmap (frame (s.phys f l))).refCnt + 1) true) := by
  have hfind : getPhysicalMemmap (withEntries s f g l (s.phys f l)) (s.phys f l &&& pageMask) =
      some (frame (s.phys f l)) := by
    refine getPhysicalMemmap_eq (hs.of_memmap rfl) hx ?_
    rw [BitVec.and_assoc, BitVec.and_self, frameAddr_frame]
  rw [sharePage_present hf hg (of_decide_eq_true hyes), hfind]

/-- Paths to nothing come for free. -/
theorem Done.widen (h : Done s₀ r c D s C) (hD : D ⊆ D')
    (hnew : ∀ σ ∈ D', σ ∉ D → tableAt s₀ r σ = none ∧ ∀ x, σ ∉ mappings s₀ r x) : Done s₀ r c D' s C := by
  have hsame : ∀ {π f l}, tableAt s₀ r π = some f → π.length = 3 → present (s₀.phys f l) = true →
      (π ++ [l] ∈ D ↔ π ++ [l] ∈ D') := fun hf hlen hp => by
    refine ⟨fun hσ => hD hσ, fun hσ => ?_⟩
    by_contra hno
    exact (hnew _ hσ hno).2 _ ((mem_mappings hf hlen).mpr ⟨hp, rfl⟩)
  refine ⟨h.root, fun π => ?_, h.inj, h.fresh, h.others, fun {π f} hf hlen l => ?_, h.links, fun {π f g} hf hg hlen l => ?_,
    h.kernel, fun {x} hx => ?_, h.taken, h.handed⟩
  · rw [h.domain]
    refine or_congr_right ⟨fun hπ => ⟨hD hπ.1, hπ.2⟩, fun hπ => ⟨?_, hπ.2⟩⟩
    by_contra hno
    rw [(hnew π hπ.1 hno).1] at hπ
    cases hπ.2
  · rw [h.parent hf hlen]
    exact settled_congr (hsame hf hlen)
  · rw [h.leaves hf hg hlen]
    exact settled_congr (hsame hf hlen)
  · have hsame : D' ∩ mappings s₀ r x = D ∩ mappings s₀ r x := by
      ext σ
      refine ⟨fun hσ => ⟨?_, hσ.2⟩, fun hσ => ⟨hD hσ.1, hσ.2⟩⟩
      by_contra hno
      exact (hnew σ hσ.1 hno).2 x hσ.2
    rw [h.shared hx, hsame]

theorem tableAt_under (hlen : π.length = 3) (hσ : σ ∈ under π l) : tableAt s r σ = none := by
  refine Option.eq_none_iff_forall_ne_some.mpr fun f hf => ?_
  have hshort := ((linked_tableAt s r).short hf).1
  have hlong := List.IsPrefix.length_le hσ
  rw [List.length_append, hlen, List.length_singleton] at hlong
  exact absurd (hlong.trans hshort) (by decide)

theorem leaf_mem_under (hlen : π.length = 3) (hρ : ρ.length = 3) : ρ ++ [j] ∈ under π l ↔ ρ = π ∧ j = l := by
  constructor
  · intro hσ
    have heq := under_leaf hlen hσ (by rw [List.length_append, hρ]; exact Nat.le_refl _)
    obtain ⟨hρπ, hj⟩ := List.append_inj' heq rfl
    exact ⟨hρπ, by simpa using hj⟩
  · rintro ⟨rfl, rfl⟩
    exact List.prefix_refl _

/-- An entry that has been copied is one of the mappings of its frame, and of no other. -/
theorem mappings_insert (hf : tableAt s r π = some f) (hlen : π.length = 3) (hyes : present (s.phys f l) = true) :
    (D ∪ under π l) ∩ mappings s r (frame (s.phys f l)) = insert (π ++ [l]) (D ∩ mappings s r (frame (s.phys f l))) := by
  ext σ
  constructor
  · rintro ⟨hσ | hσ, hm⟩
    · exact Or.inr ⟨hσ, hm⟩
    · exact Or.inl (mappings_under hlen hσ hm)
  · rintro (rfl | hσ)
    · exact ⟨Or.inr (List.prefix_refl _), (mem_mappings hf hlen).mpr ⟨hyes, rfl⟩⟩
    · exact ⟨Or.inl hσ.1, hσ.2⟩

theorem mappings_other (hf : tableAt s r π = some f) (hlen : π.length = 3) (hx : x ≠ frame (s.phys f l)) :
    (D ∪ under π l) ∩ mappings s r x = D ∩ mappings s r x := by
  ext σ
  refine ⟨fun hσ => ⟨hσ.1.resolve_right fun hu => ?_, hσ.2⟩, fun hσ => ⟨Or.inl hσ.1, hσ.2⟩⟩
  have hm := hσ.2
  rw [mappings_under hlen hu hm] at hm
  exact hx ((mem_mappings hf hlen).mp hm).2.symm

/-- The entry `e` without its write bit in both tables, and one user more for its frame. -/
def withShared (s : Mem) (f g : Nat) (l : Fin 512) (e : Word) : Mem :=
  (withEntries s f g l e).count (frame e) ((s.memmap (frame e)).refCnt + 1) true

theorem withShared_other {y : Fin 512} (hf : ¬ (x = f ∧ y = l)) (hg : ¬ (x = g ∧ y = l)) :
    (withShared s f g l e).phys x y = s.phys x y := by
  show writeEntry (writeEntry s.phys f l (protect e)) g l (protect e) x y = s.phys x y
  rw [writeEntry_other _ _ hg, writeEntry_other _ _ hf]

theorem withShared_parent (hfg : f ≠ g) : (withShared s f g l e).phys f l = protect e := by
  show writeEntry (writeEntry s.phys f l (protect e)) g l (protect e) f l = protect e
  rw [writeEntry_other _ _ (fun hc => hfg hc.1), writeEntry_same]

theorem withShared_child : (withShared s f g l e).phys g l = protect e := writeEntry_same ..

theorem withShared_memmap (hx : x ≠ frame e) : (withShared s f g l e).memmap x = s.memmap x :=
  Function.update_of_ne hx _ _

theorem settled_leaf (hyes : present e = true) : settled (D ∪ under π l) (π ++ [l]) e before = protect e :=
  settled_in (Or.inr (List.prefix_refl _)) hyes

/-- The entry at another path is as settled as before. -/
theorem settled_stays (hlen : π.length = 3) (hρ : ρ.length = 3) (hne : ¬ (ρ = π ∧ j = l)) :
    settled D (ρ ++ [j]) e before = settled (D ∪ under π l) (ρ ++ [j]) e before :=
  settled_congr fun _ => (or_iff_left fun hu => hne ((leaf_mem_under hlen hρ).mp hu)).symm

namespace Done

theorem shareLeaf_parent (h : Done s₀ r c D s C) (h₀ : Start s₀ r c) (hf : tableAt s₀ r π = some f) (hg : C π = some g)
    (hlen : π.length = 3) (hyes : present (s₀.phys f l) = true) (hx : tableAt s₀ r ρ = some x) (hρ : ρ.length = 3)
    (j : Fin 512) : (withShared s f g l (s₀.phys f l)).phys x j =
      settled (D ∪ under π l) (ρ ++ [j]) (s₀.phys x j) (s₀.phys x j) := by
  by_cases hj : x = f ∧ j = l
  · obtain ⟨rfl, rfl⟩ := hj
    obtain rfl := h₀.tree ρ π x hx hf
    have hxg : x ≠ g := fun he => h.apart h₀ hf ρ (he ▸ hg)
    rw [withShared_parent hxg, settled_leaf hyes]
  · have hxg : x ≠ g := fun he => h.apart h₀ hx π (he ▸ hg)
    rw [withShared_other hj (fun hc => hxg hc.1), h.parent hx hρ]
    refine settled_stays hlen hρ fun hc => hj ⟨?_, hc.2⟩
    rw [hc.1, hf] at hx
    exact (Option.some.inj hx).symm

theorem shareLeaf_leaves (h : Done s₀ r c D s C) (h₀ : Start s₀ r c) (hf : tableAt s₀ r π = some f) (hg : C π = some g)
    (hlen : π.length = 3) (hyes : present (s₀.phys f l) = true) {y : Nat} (hx : tableAt s₀ r ρ = some x)
    (hy : C ρ = some y) (hρ : ρ.length = 3) (j : Fin 512) :
    (withShared s f g l (s₀.phys f l)).phys y j = settled (D ∪ under π l) (ρ ++ [j]) (s₀.phys x j) 0 := by
  by_cases hj : y = g ∧ j = l
  · obtain ⟨rfl, rfl⟩ := hj
    obtain rfl := h.inj hy hg
    obtain rfl := Option.some.inj (hf.symm.trans hx)
    rw [withShared_child, settled_leaf hyes]
  · have hyf : y ≠ f := fun he => h.apart h₀ hf ρ (he ▸ hy)
    rw [withShared_other (fun hc => hyf hc.1) hj, h.leaves hx hy hρ]
    refine settled_stays hlen hρ fun hc => hj ⟨?_, hc.2⟩
    rw [hc.1, hg] at hy
    exact (Option.some.inj hy).symm

theorem shareLeaf_shared (h : Done s₀ r c D s C) (hf : tableAt s₀ r π = some f) (hlen : π.length = 3)
    (hnew : π ++ [l] ∉ D) (hyes : present (s₀.phys f l) = true) (hx : ∀ ρ, ρ ≠ [] → C ρ ≠ some x) :
    (withShared s f g l (s₀.phys f l)).memmap x =
      share (s₀.memmap x) ((D ∪ under π l) ∩ mappings s₀ r x).ncard := by
  by_cases hxe : x = frame (s₀.phys f l)
  · subst hxe
    rw [mappings_insert hf hlen hyes, Set.ncard_insert_of_notMem (fun hc => hnew hc.1) (mappings_finite ..),
      ← share_succ, ← h.shared hx]
    exact Function.update_self ..
  · rw [mappings_other hf hlen hxe, ← h.shared hx]
    exact withShared_memmap hxe

/-- The step of one present entry. -/
theorem shareLeaf (h : Done s₀ r c D s C) (h₀ : Start s₀ r c) (hf : tableAt s₀ r π = some f) (hg : C π = some g)
    (hlen : π.length = 3) (hnew : π ++ [l] ∉ D) (hyes : present (s₀.phys f l) = true) :
    Done s₀ r c (D ∪ under π l) (withShared s f g l (s₀.phys f l)) C where
  root := h.root
  inj := h.inj
  fresh := h.fresh
  domain := fun ρ => by
    rw [h.domain]
    refine or_congr_right ⟨fun hρ => ⟨Or.inl hρ.1, hρ.2⟩, fun hρ => ⟨hρ.1.resolve_right fun hu => ?_, hρ.2⟩⟩
    rw [tableAt_under hlen hu] at hρ
    cases hρ.2
  others := fun {x} hx hC => by
    have hxf : x ≠ f := fun he => hx π (he ▸ hf) hlen
    have hxg : x ≠ g := fun he => hC π (he ▸ hg)
    rw [← h.others hx hC]
    funext i
    exact withShared_other (fun hc => hxf hc.1) (fun hc => hxg hc.1)
  parent := fun hx hρ j => h.shareLeaf_parent h₀ hf hg hlen hyes hx hρ j
  links := fun {ρ x j} hx hρ hu => by
    have hxf : x ≠ f := fun he => h.apart h₀ hf ρ (he ▸ hx)
    have hxg : x ≠ g := fun he => by
      have := h.inj hx (he ▸ hg)
      rw [this, hlen] at hρ
      exact absurd hρ (by decide)
    rw [withShared_other (fun hc => hxf hc.1) (fun hc => hxg hc.1), h.links hx hρ hu]
  leaves := fun hx hy hρ j => h.shareLeaf_leaves h₀ hf hg hlen hyes hx hy hρ j
  kernel := fun j hj => by
    have hcf : c ≠ f := fun he => h₀.child.2.2 π (he ▸ hf)
    have hcg : c ≠ g := fun he => by
      have := h.inj (he ▸ h.root) hg
      rw [← this] at hlen
      cases hlen
    rw [withShared_other (fun hc => hcf hc.1) (fun hc => hcg hc.1), h.kernel j hj]
  shared := fun hx => h.shareLeaf_shared hf hlen hnew hyes hx
  taken := fun {x ρ} hρ hne => by
    -- the frame is not one that a table of the child has been put in
    have hxe : x ≠ frame (s₀.phys f l) := fun he =>
      (h₀.pages ⟨_, (mem_mappings hf hlen).mpr ⟨hyes, he.symm⟩⟩).2 (h.fresh hρ hne)
    rw [withShared_memmap hxe, h.taken hρ hne]
  handed := h.handed

end Done

theorem sharePage_extends (h₀ : Start s₀ r c) (hf : tableAt s₀ r π = some f) (hlen : π.length = 3) (l : Fin 512) :
    Extends s₀ r c π g (under π l) (sharePage (framePtr f) (framePtr g) l) := by
  intro D₀ s C h hg hout
  have hself : π ++ [l] ∈ under π l := List.prefix_refl _
  have hold : s.phys f l = s₀.phys f l := by
    rw [h.parent hf hlen, settled_out (hout _ hself)]
  cases hp : present (s₀.phys f l) with
  | false =>
    have hno : s₀.phys f l &&& pagePresent = 0 := Decidable.not_not.mp (of_decide_eq_false hp)
    refine ⟨s, C, sharePage_absent (h₀.lt hf) (by rw [hold]; exact hno), h.widen Set.subset_union_left ?_, id⟩
    intro σ hσ hno
    have hu : σ ∈ under π l := hσ.resolve_left hno
    refine ⟨tableAt_under hlen hu, fun x hm => ?_⟩
    rw [mappings_under hlen hu hm, mem_mappings hf hlen, hp] at hm
    cases hm.1
  | true =>
    have hx := (h₀.pages ⟨_, (mem_mappings hf hlen).mpr ⟨hp, rfl⟩⟩).1
    have hrun := sharePage_leaf (l := l) (h.addressed h₀) (h₀.lt hf) (h.lt h₀ hg) (by rw [hold]; exact hp)
      (by rw [hold]; exact hx)
    rw [hold] at hrun
    exact ⟨_, C, hrun, h.shareLeaf h₀ hf hg hlen (hout _ hself) hp, id⟩

/-! ### One entry of a level above -/

theorem tables_finite (s : Mem) (r : Nat) : {π | π ≠ [] ∧ (tableAt s r π).isSome = true}.Finite := by
  refine (List.finite_length_le (Fin 512) 3).subset fun π hπ => ?_
  obtain ⟨f, hf⟩ := Option.isSome_iff_exists.mp hπ.2
  exact ((linked_tableAt s r).short hf).1

theorem Done.subset (h : Done s₀ r c D s C) :
    {π | π ≠ [] ∧ (C π).isSome = true} ⊆ {π | π ≠ [] ∧ (tableAt s₀ r π).isSome = true} :=
  fun π hπ => ⟨hπ.1, (((h.domain π).mp hπ.2).resolve_left hπ.1).2⟩

theorem Done.finite (h : Done s₀ r c D s C) : {π | π ≠ [] ∧ (C π).isSome = true}.Finite :=
  (tables_finite s₀ r).subset h.subset

/-- As long as a table of the parent has none beside it, there is a frame left for one. -/
theorem Done.spare (h : Done s₀ r c D s C) (h₀ : Start s₀ r c) (hσ : σ ≠ []) (hP : (tableAt s₀ r σ).isSome = true)
    (hC : C σ = none) : ∃ g, s.Avail g := by
  by_contra hnone
  have hdom : {π | π ≠ [] ∧ (C π).isSome = true} ⊂ {π | π ≠ [] ∧ (tableAt s₀ r π).isSome = true} := by
    refine ⟨h.subset, fun hsub => ?_⟩
    have hin := (hsub ⟨hσ, hP⟩).2
    rw [hC] at hin
    cases hin
  -- every frame of the pool would hold a table of the child by now
  have hall : {f | s₀.Avail f} ⊆ (fun π => (C π).getD 0) '' {π | π ≠ [] ∧ (C π).isSome = true} := by
    intro f hf
    by_contra hno
    refine hnone ⟨f, (h.avail_iff h₀).mpr ⟨hf, fun π hπ => hno ⟨π, ⟨fun he => ?_, ?_⟩, ?_⟩⟩⟩
    · rw [he, h.root] at hπ
      exact h₀.child.2.1 (Option.some.inj hπ ▸ hf)
    · rw [hπ]
      rfl
    · show (C π).getD 0 = f
      rw [hπ]
      rfl
  have hlt := Set.ncard_lt_ncard hdom (tables_finite s₀ r)
  have hle := (Set.ncard_le_ncard hall (h.finite.image _)).trans (Set.ncard_image_le h.finite)
  have := h₀.enough
  omega

/-- `mem_allocate` gives out a frame that can be told from a failure. -/
theorem Done.memAllocate (h : Done s₀ r c D s C) (h₀ : Start s₀ r c) (hg : s.Avail g) :
    ∃ g', s.Avail g' ∧ 0 < g' ∧ Memory.memAllocate s = (frameAddr g', s.take g') := by
  rcases memAllocate_cases s with ⟨g', hav, _, heq⟩ | ⟨hnone, _⟩
  · refine ⟨g', hav, Nat.pos_of_ne_zero ?_, ?_⟩
    · rintro rfl
      exact h₀.first ((h.avail_iff h₀).mp hav).1
    · rw [heq, h.addressed h₀ g' hav.1]
  · exact absurd hg (hnone g)

/-- The path of a table is not that of a page. -/
theorem mappings_table (hσ : σ.length < 4) : (D ∪ {σ}) ∩ mappings s r x = D ∩ mappings s r x := by
  ext τ
  refine ⟨fun hτ => ⟨hτ.1.resolve_right fun hu => ?_, hτ.2⟩, fun hτ => ⟨Or.inl hτ.1, hτ.2⟩⟩
  have hfour := mappings_length hτ.2
  rw [Set.mem_singleton_iff.mp hu] at hfour
  omega

/-- Below an entry that the walk has not come to the child has no tables. -/
theorem Done.none_below (h : Done s₀ r c D s C) (hout : ∀ σ ∈ under π j, σ ∉ D) (hσ : σ ∈ under π j) : C σ = none := by
  refine Option.not_isSome_iff_eq_none.mp ((h.domain σ).not.mpr (not_or.mpr ⟨fun he => ?_, fun hc => hout σ hσ hc.1⟩))
  rw [he] at hσ
  exact absurd (List.prefix_nil.mp hσ) (by simp)

/-- A frame of the pool is as it was: cleared, and with no user. -/
theorem Done.untouched (h : Done s₀ r c D s C) (h₀ : Start s₀ r c) (hav : s.Avail g) :
    (∀ i, s.phys g i = 0) ∧ s.memmap g = s₀.memmap g := by
  obtain ⟨hav₀, hnot⟩ := (h.avail_iff h₀).mp hav
  constructor
  · intro i
    rw [h.others (fun ρ hρ => absurd hav₀ (h₀.tables hρ)) hnot]
    exact h₀.zeroed hav₀ i
  · have hnomap : D ∩ mappings s₀ r g = ∅ :=
      Set.eq_empty_iff_forall_notMem.mpr fun σ hσ => (h₀.pages ⟨σ, hσ.2⟩).2 hav₀
    rw [h.shared (fun ρ _ hρ => hnot ρ hρ), hnomap, Set.ncard_empty]
    rfl

/-- The path to a table settles no entry of the last level. -/
theorem settled_table (hlen : π.length < 3) (hρ : ρ.length = 3) :
    settled D (ρ ++ [l]) e before = settled (D ∪ {π ++ [j]}) (ρ ++ [l]) e before :=
  settled_congr fun _ => (or_iff_left fun he => by
    obtain ⟨rfl, _⟩ := List.append_inj' (Set.mem_singleton_iff.mp he) rfl
    omega).symm

theorem extend_ncard {g' : Nat} (hσ : σ ≠ []) (hnone : C σ = none)
    (hfin : {ρ | ρ ≠ [] ∧ (C ρ).isSome = true}.Finite) :
    {ρ | ρ ≠ [] ∧ (Function.update C σ (some g') ρ).isSome = true}.ncard =
      {ρ | ρ ≠ [] ∧ (C ρ).isSome = true}.ncard + 1 := by
  have hinsert : {ρ | ρ ≠ [] ∧ (Function.update C σ (some g') ρ).isSome = true} =
      insert σ {ρ | ρ ≠ [] ∧ (C ρ).isSome = true} := by
    ext ρ
    by_cases hρ : ρ = σ
    · subst hρ
      simp [hσ]
    · simp [hρ]
  have hnew : σ ∉ {ρ | ρ ≠ [] ∧ (C ρ).isSome = true} := fun hc => by
    have hsome := hc.2
    rw [hnone] at hsome
    cases hsome
  rw [hinsert, Set.ncard_insert_of_notMem hnew hfin]

namespace Done

theorem linkTable_links (h : Done s₀ r c D s C) (h₀ : Start s₀ r c) (hg : C π = some g) (hout : ∀ σ ∈ under π j, σ ∉ D)
    {g' : Nat} (hav : s.Avail g') {i : Fin 512} (hx : Function.update C (π ++ [j]) (some g') ρ = some x)
    (hρ : ρ.length < 3) (hu : isUser (ρ ++ [i]) = true) :
    (withTable s g j g').phys x i = tableEntry (Function.update C (π ++ [j]) (some g') (ρ ++ [i])) := by
  obtain ⟨rfl, rfl⟩ | ⟨_, hC⟩ := update_cases hx
  · -- the new table is empty
    have hxg : x ≠ g := fun he => ((h.avail_iff h₀).mp hav).2 π (he ▸ hg)
    rw [Function.update_of_ne (by simp), h.none_below hout (List.prefix_append _ _),
      withTable_other (fun hc => hxg hc.1), (h.untouched h₀ hav).1]
    rfl
  · by_cases hi : x = g ∧ i = j
    · obtain ⟨rfl, rfl⟩ := hi
      obtain rfl := h.inj hC hg
      rw [Function.update_self]
      exact writeEntry_same ..
    · have hσ : ρ ++ [i] ≠ π ++ [j] := fun hc => hi (by
        obtain ⟨rfl, hij⟩ := List.append_inj' hc rfl
        exact ⟨Option.some.inj (hC.symm.trans hg), by simpa using hij⟩)
      rw [Function.update_of_ne hσ, withTable_other hi, h.links hC hρ hu]

theorem linkTable_leaves (h : Done s₀ r c D s C) (h₀ : Start s₀ r c) (hg : C π = some g) (hlen : π.length < 3)
    (hout : ∀ σ ∈ under π j, σ ∉ D) {g' : Nat} (hav : s.Avail g') {y : Nat} (hx : tableAt s₀ r ρ = some x)
    (hy : Function.update C (π ++ [j]) (some g') ρ = some y) (hρ : ρ.length = 3) (l : Fin 512) :
    (withTable s g j g').phys y l = settled (D ∪ {π ++ [j]}) (ρ ++ [l]) (s₀.phys x l) 0 := by
  rw [← settled_table hlen hρ]
  obtain ⟨rfl, rfl⟩ | ⟨_, hC⟩ := update_cases hy
  · have hyg : y ≠ g := fun he => ((h.avail_iff h₀).mp hav).2 π (he ▸ hg)
    rw [settled_out (hout _ (List.prefix_append _ _)), withTable_other (fun hc => hyg hc.1), (h.untouched h₀ hav).1]
  · have hyg : y ≠ g := fun hc => by
      rw [h.inj hC (hc ▸ hg)] at hρ
      omega
    rw [withTable_other (fun hc => hyg hc.1), h.leaves hx hC hρ]

theorem linkTable_memmap (h : Done s₀ r c D s C) (h₀ : Start s₀ r c) (hout : ∀ σ ∈ under π j, σ ∉ D)
    (hlen : π.length < 3) {g' : Nat} (hav : s.Avail g') :
    ((∀ ρ, ρ ≠ [] → Function.update C (π ++ [j]) (some g') ρ ≠ some x) →
      (withTable s g j g').memmap x = share (s₀.memmap x) ((D ∪ {π ++ [j]}) ∩ mappings s₀ r x).ncard) ∧
    (Function.update C (π ++ [j]) (some g') ρ = some x → ρ ≠ [] →
      (withTable s g j g').memmap x = {s₀.memmap x with refCnt := (s₀.memmap x).refCnt + 1, resFlag := .busy}) := by
  have hnone : C (π ++ [j]) = none := h.none_below hout (List.prefix_refl _)
  constructor
  · intro hx
    have hxg : x ≠ g' := fun he => hx (π ++ [j]) (by simp) (by rw [he, Function.update_self])
    have hshort : (π ++ [j]).length < 4 := by
      rw [List.length_append, List.length_singleton]
      omega
    rw [mappings_table hshort, ← h.shared (fun ρ hρne hρ => hx ρ hρne (update_keeps hnone hρ))]
    exact withTable_memmap hxg
  · intro hρ hρne
    obtain ⟨_, rfl⟩ | ⟨_, hC⟩ := update_cases hρ
    · rw [← (h.untouched h₀ hav).2]
      exact Function.update_self ..
    · have hxg : x ≠ g' := fun hc => ((h.avail_iff h₀).mp hav).2 ρ (hc ▸ hC)
      rw [withTable_memmap hxg, h.taken hC hρne]

/-- A new table of the child. -/
theorem linkTable (h : Done s₀ r c D s C) (h₀ : Start s₀ r c) (hg : C π = some g) (hlen : π.length < 3)
    (huser : isUser (π ++ [j]) = true) (hout : ∀ σ ∈ under π j, σ ∉ D) (hP : (tableAt s₀ r (π ++ [j])).isSome = true)
    {g' : Nat} (hav : s.Avail g') :
    Done s₀ r c (D ∪ {π ++ [j]}) (withTable s g j g') (Function.update C (π ++ [j]) (some g')) := by
  have hnone : C (π ++ [j]) = none := h.none_below hout (List.prefix_refl _)
  have hkeep : ∀ {ρ x}, C ρ = some x → Function.update C (π ++ [j]) (some g') ρ = some x := fun hρ => update_keeps hnone hρ
  obtain ⟨hav₀, hnot⟩ := (h.avail_iff h₀).mp hav
  exact {
    root := hkeep h.root
    domain := fun ρ => by
      by_cases hρ : ρ = π ++ [j]
      · subst hρ
        rw [Function.update_self]
        exact ⟨fun _ => Or.inr ⟨Or.inr rfl, hP⟩, fun _ => rfl⟩
      · rw [Function.update_of_ne hρ, h.domain]
        exact or_congr_right (and_congr_left' (or_iff_left hρ).symm)
    inj := update_inj h.inj hnot
    fresh := fun {ρ x} hρ hρne => by
      obtain ⟨_, rfl⟩ | ⟨_, hC⟩ := update_cases hρ
      · exact hav₀
      · exact h.fresh hC hρne
    others := fun {x} hx hC => by
      have hC' : ∀ ρ, C ρ ≠ some x := fun ρ hρ => hC ρ (hkeep hρ)
      have hxg : x ≠ g := fun he => hC' π (he ▸ hg)
      rw [← h.others hx hC']
      funext i
      exact withTable_other (fun hc => hxg hc.1)
    parent := fun {ρ x} hx hρ l => by
      have hxg : x ≠ g := fun he => h.apart h₀ hx π (he ▸ hg)
      rw [withTable_other (fun hc => hxg hc.1), h.parent hx hρ, settled_table hlen hρ]
    links := fun hx hρ hu => h.linkTable_links h₀ hg hout hav hx hρ hu
    leaves := fun hx hy hρ l => h.linkTable_leaves h₀ hg hlen hout hav hx hy hρ l
    kernel := fun i hi => by
      have hcg : ¬ (c = g ∧ i = j) := fun hc => by
        obtain rfl := h.inj (hc.1 ▸ h.root) hg
        have hj : j.val ≠ 511 := by simpa [isUser] using huser
        exact hj (hc.2 ▸ hi)
      rw [withTable_other hcg, h.kernel i hi]
    shared := fun hx => (h.linkTable_memmap h₀ hout hlen hav (ρ := [])).1 hx
    taken := fun hρ hρne => (h.linkTable_memmap h₀ hout hlen hav).2 hρ hρne
    handed := by
      rw [extend_ncard (by simp) hnone h.finite]
      show s.handed.length + 1 = _
      rw [h.handed, Nat.add_assoc] }

end Done

/-- Below a table that the parent does not have there is nothing. -/
theorem tableAt_none (hlen : π.length < 3) (hnone : tableAt s r (π ++ [j]) = none) (hσ : σ ∈ under π j) :
    tableAt s r σ = none ∧ ∀ x, σ ∉ mappings s r x := by
  have habove : ∀ τ, tableAt s r (π ++ [j] ++ τ) = none := fun τ => by
    induction τ using List.reverseRecOn with
    | nil =>
      rw [List.append_nil]
      exact hnone
    | append_singleton τ i ih =>
      rw [← List.append_assoc]
      exact (linked_tableAt s r).above ih
  obtain ⟨τ, rfl⟩ := hσ
  refine ⟨habove τ, fun x hm => ?_⟩
  have hfour := mappings_length hm
  obtain ⟨ρ, l, e, heq, hleaf, _⟩ := hm
  obtain rfl | ⟨τ', i, rfl⟩ := List.eq_nil_or_concat' τ
  · rw [List.append_nil, List.length_append, List.length_singleton] at hfour
    omega
  · rw [← List.append_assoc] at heq
    obtain ⟨rfl, _⟩ := List.append_inj' heq rfl
    rw [leafEntry, habove τ'] at hleaf
    cases hleaf

/-- An entry is copied with the table it links, if the level below copies that. -/
theorem copyTable_extends {below : Word → Word → Mem → Except Mem Mem} (h₀ : Start s₀ r c)
    (hf : tableAt s₀ r π = some f) (hlen : π.length < 3) (huser : isUser (π ++ [j]) = true)
    (hbelow : ∀ f' g', tableAt s₀ r (π ++ [j]) = some f' →
      Extends s₀ r c (π ++ [j]) g' (between (π ++ [j]) 0 512) (below (framePtr f') (framePtr g'))) :
    Extends s₀ r c π g (under π j) (copyTable below (framePtr f) (framePtr g) j) := by
  intro D₀ s C h hg hout
  have hflt := h₀.lt hf
  have hglt := h.lt h₀ hg
  have hupper : s.phys f j = s₀.phys f j := by rw [h.upper h₀ hf hlen]
  have hlink := (linked_tableAt s₀ r).link hf hlen huser
  cases hp : present (s₀.phys f j) with
  | false =>
    have hrun : copyTable below (framePtr f) (framePtr g) j s = .ok s :=
      copyTable_absent hflt (by rw [hupper]; exact Decidable.not_not.mp (of_decide_eq_false hp))
    rw [hp] at hlink
    refine ⟨s, C, hrun, h.widen Set.subset_union_left fun σ hσ hno => ?_, id⟩
    exact tableAt_none hlen hlink (hσ.resolve_left hno)
  | true =>
    rw [hp, if_pos rfl] at hlink
    have hP : (tableAt s₀ r (π ++ [j])).isSome = true := by
      rw [hlink]
      rfl
    have hself : π ++ [j] ∈ under π j := List.prefix_refl _
    have hnone : C (π ++ [j]) = none := h.none_below hout hself
    obtain ⟨_, hspare⟩ := h.spare h₀ (by simp) hP hnone
    obtain ⟨g', hav, hpos, heq⟩ := h.memAllocate h₀ hspare
    have hnew := h.linkTable h₀ hg hlen huser hout hP hav
    have hfg : f ≠ g := fun he => h.apart h₀ hf π (he ▸ hg)
    have hrun : copyTable below (framePtr f) (framePtr g) j s =
        below (framePtr (frame (s₀.phys f j))) (framePtr g') (withTable s g j g') := by
      rw [copyTable_present hflt hglt ⟨hpos, hav.1.trans maxMem_lt⟩ heq (by rw [hupper]; exact of_decide_eq_true hp),
        withTable_other (fun hc => hfg hc.1), hupper]
      rfl
    have hkeep : ∀ {ρ x}, C ρ = some x → Function.update C (π ++ [j]) (some g') ρ = some x := fun hρ =>
      update_keeps hnone hρ
    have hout' : ∀ σ ∈ between (π ++ [j]) 0 512, σ ∉ D₀ ∪ {π ++ [j]} := by
      rintro σ hσ (hD | hone)
      · refine hout σ ?_ hD
        rw [under_eq]
        exact Or.inr hσ
      · obtain ⟨i, _, _, hu⟩ := hσ
        rw [Set.mem_singleton_iff.mp hone] at hu
        exact notMem_under _ _ hu
    obtain ⟨s', C', hs', hdone, hgrow⟩ := hbelow _ g' hlink hnew (Function.update_self ..) hout'
    refine ⟨s', C', by rw [hrun, hs'], ?_, fun hρ => hgrow (hkeep hρ)⟩
    rw [under_eq, ← Set.union_assoc]
    exact hdone

/-! ### The loops -/

theorem forEntries_extends {body : Nat → Mem → Except Mem Mem} {m : Nat} (hm : m ≤ 512)
    (hbody : ∀ j : Fin 512, j.val < m → Extends s₀ r c π g (under π j) (body j)) (k n : Nat) (hkn : k + n ≤ m) :
    Extends s₀ r c π g (between π k n) (forEntries body k n) := by
  induction n generalizing k with
  | zero =>
    intro D₀ s C h _ _
    have hempty : between π k 0 = ∅ := by
      refine Set.eq_empty_iff_forall_notMem.mpr fun σ hσ => ?_
      obtain ⟨j, hlo, hhi, _⟩ := hσ
      omega
    rw [hempty, Set.union_empty]
    exact ⟨s, C, rfl, h, id⟩
  | succ n ih =>
    intro D₀ s C h hg hout
    have hk : k < 512 := by omega
    rw [between_succ π n hk] at hout ⊢
    obtain ⟨s₁, C₁, hrun₁, h₁, hgrow₁⟩ := hbody ⟨k, hk⟩ (by simp only; omega) h hg (fun σ hσ => hout σ (Or.inl hσ))
    have hout₁ : ∀ σ ∈ between π (k + 1) n, σ ∉ D₀ ∪ under π ⟨k, hk⟩ := by
      rintro σ hσ (hD | hu)
      · exact hout σ (Or.inr hσ) hD
      · obtain ⟨j, hlo, _, hj⟩ := hσ
        obtain rfl := under_disjoint hu hj
        exact absurd hlo (by simp)
    obtain ⟨s₂, C₂, hrun₂, h₂, hgrow₂⟩ := ih (k + 1) (by omega) h₁ (hgrow₁ hg) hout₁
    refine ⟨s₂, C₂, ?_, ?_, fun hρ => hgrow₂ (hgrow₁ hρ)⟩
    · rw [forEntries, hrun₁]
      exact hrun₂
    · rw [← Set.union_assoc]
      exact h₂

theorem isUser_append (hπ : isUser π = true) (hne : π ≠ []) : isUser (π ++ [j]) = true := by
  cases π with
  | nil => exact absurd rfl hne
  | cons i π => exact hπ

theorem cowWalkPages_extends (h₀ : Start s₀ r c) :
    Extends s₀ r c [] c (between [] 0 511) (fun s => cowWalkPages s (framePtr r) (framePtr c)) := by
  have hpte : ∀ {π f g}, tableAt s₀ r π = some f → π.length = 3 →
      Extends s₀ r c π g (between π 0 512) (sharePages (framePtr f) (framePtr g)) := fun hf hlen =>
    forEntries_extends (Nat.le_refl 512) (fun l _ => sharePage_extends h₀ hf hlen l) 0 512 (by omega)
  have hpde : ∀ {π f g}, tableAt s₀ r π = some f → π.length = 2 →
      Extends s₀ r c π g (between π 0 512) (copyPde (framePtr f) (framePtr g)) := fun {π f g} hf hlen => by
    have huser := ((linked_tableAt s₀ r).short hf).2
    have hne : π ≠ [] := fun he => by simp [he] at hlen
    refine forEntries_extends (Nat.le_refl 512) (fun j _ => ?_) 0 512 (by omega)
    exact copyTable_extends h₀ hf (by omega) (isUser_append huser hne) fun f' g' hf' => hpte hf' (by simp [hlen])
  have hpdpe : ∀ {π f g}, tableAt s₀ r π = some f → π.length = 1 →
      Extends s₀ r c π g (between π 0 512) (copyPdpe (framePtr f) (framePtr g)) := fun {π f g} hf hlen => by
    have huser := ((linked_tableAt s₀ r).short hf).2
    have hne : π ≠ [] := fun he => by simp [he] at hlen
    refine forEntries_extends (Nat.le_refl 512) (fun j _ => ?_) 0 512 (by omega)
    exact copyTable_extends h₀ hf (by omega) (isUser_append huser hne) fun f' g' hf' => hpde hf' (by simp [hlen])
  -- the loop stops before the slot of the kernel
  refine forEntries_extends (by decide : 511 ≤ 512) (fun j hj => ?_) 0 511 (by omega)
  have huser : isUser ([] ++ [j]) = true := by
    simp only [isUser, List.nil_append, List.head?_cons, Option.all_some, bne_iff_ne]
    omega
  exact copyTable_extends h₀ (linked_tableAt s₀ r).root (by decide) huser fun f' g' hf' => hpdpe hf' rfl

/-! ### The result -/

/-- From `s` to `s'` the address space of the root `r` has been copied to the root `c`. -/
structure Copied (s : Mem) (r c : Nat) (s' : Mem) : Prop where
  /-- Parent and child have the entries that the parent had, without the write bit. -/
  parentEntries : ∀ π l, leafEntry s' r π l = (leafEntry s r π l).map protect
  childEntries : ∀ π l, leafEntry s' c π l = (leafEntry s r π l).map protect
  parentTables : tableAt s' r = tableAt s r
  childTables : ∀ π, (tableAt s' c π).isSome = (tableAt s r π).isSome
  /-- A table of the child is in a frame of its own, which was in the pool. -/
  fresh : ∀ {π g}, tableAt s' c π = some g → π ≠ [] → s.Avail g ∧ ¬ s'.Avail g ∧
    s'.memmap g = {s.memmap g with refCnt := (s.memmap g).refCnt + 1, resFlag := .busy}
  apart : ∀ {π ρ g}, tableAt s' c π = some g → tableAt s r ρ ≠ some g
  childTree : IsTree s' c
  /-- Every frame that is mapped has as many users more as there are entries that map it. -/
  counts : ∀ {x}, (mappings s r x).Nonempty →
    s'.memmap x = {s.memmap x with refCnt := (s.memmap x).refCnt + (mappings s r x).ncard, cowFlag := true}
  /-- Nothing else is changed. -/
  otherEntries : ∀ {π f l}, tableAt s r π = some f → leafEntry s r π l = none → s'.phys f l = s.phys f l
  otherFrames : ∀ {f}, (∀ π, tableAt s r π ≠ some f) → (∀ π, tableAt s' c π ≠ some f) → s'.phys f = s.phys f
  kernel : ∀ j : Fin 512, j.val = 511 → s'.phys c j = s.phys c j
  otherCounts : ∀ {x}, mappings s r x = ∅ → (∀ π, π ≠ [] → tableAt s' c π ≠ some x) → s'.memmap x = s.memmap x

theorem present_protect (e : Word) : present (protect e) = present e := by
  have hbit : protect e &&& pagePresent = e &&& pagePresent := by
    rw [protect, BitVec.and_assoc]
    rfl
  rw [present, present, hbit]

theorem present_tableEntry (x : Option Nat) : present (tableEntry x) = x.isSome := by
  cases x with
  | none => rfl
  | some g => exact decide_eq_true (entry_present _)

theorem frame_tableEntry (hg : g < 2 ^ 40) : frame (tableEntry (some g)) = g := by
  rw [frame, tableEntry, entry_toNat hg]
  omega

/-- Every path but the empty one, less those in the slot of the kernel. -/
theorem mem_between (hπ : isUser π = true) (hne : π ≠ []) : π ∈ between [] 0 511 := by
  cases π with
  | nil => exact absurd rfl hne
  | cons i π =>
    have hi : i.val ≠ 511 := by simpa [isUser] using hπ
    exact ⟨i, Nat.zero_le _, by omega, π, rfl⟩

theorem leaf_mem_between (hf : tableAt s r π = some f) (hlen : π.length = 3) : π ++ [l] ∈ between [] 0 511 := by
  have hne : π ≠ [] := fun he => by rw [he] at hlen; cases hlen
  exact mem_between (isUser_append ((linked_tableAt s r).short hf).2 hne) (by simp)

theorem mappings_between (s : Mem) (r x : Nat) : between [] 0 511 ∩ mappings s r x = mappings s r x := by
  refine Set.inter_eq_right.mpr ?_
  rintro σ ⟨π, l, e, rfl, hleaf, _⟩
  unfold leafEntry at hleaf
  split at hleaf
  · rename_i f hf
    split at hleaf
    · rename_i hok
      exact leaf_mem_between hf hok.1
    · cases hleaf
  · cases hleaf

/-- An entry that was there, in either table once the walk has come by. -/
theorem settled_entry (hσ : σ ∈ D) (hbefore : present before = false ∨ before = e) :
    (if present (settled D σ e before) = true then some (settled D σ e before) else none) =
      (if present e = true then some e else none).map protect := by
  cases hp : present e with
  | true =>
    rw [settled_in hσ hp, present_protect, hp]
    rfl
  | false =>
    have hno : present before = false := hbefore.elim id fun he => he ▸ hp
    rw [settled_absent hp, hno]
    rfl

namespace Done

theorem parent_tables (h : Done s₀ r c D s C) (h₀ : Start s₀ r c) : tableAt s r = tableAt s₀ r := by
  have ht := linked_tableAt s₀ r
  refine (Linked.eq_tableAt ⟨ht.root, ht.short, fun {π f j} hf hlen hu => ?_, ht.above⟩).symm
  rw [h.upper h₀ hf hlen]
  exact ht.link hf hlen hu

/-- At the end the child has a table for each of the parent's. -/
theorem domain_all (h : Done s₀ r c (between [] 0 511) s C) (π : List (Fin 512)) :
    (C π).isSome = (tableAt s₀ r π).isSome := by
  rw [Bool.eq_iff_iff, h.domain]
  constructor
  · rintro (rfl | hπ)
    · rfl
    · exact hπ.2
  · intro hπ
    by_cases hne : π = []
    · exact Or.inl hne
    · obtain ⟨f, hf⟩ := Option.isSome_iff_exists.mp hπ
      exact Or.inr ⟨mem_between ((linked_tableAt s₀ r).short hf).2 hne, hπ⟩

theorem none_iff (h : Done s₀ r c (between [] 0 511) s C) : C π = none ↔ tableAt s₀ r π = none := by
  rw [← Option.not_isSome_iff_eq_none, h.domain_all, Option.not_isSome_iff_eq_none]

theorem child_tables (h : Done s₀ r c (between [] 0 511) s C) : tableAt s c = C := by
  have ht := linked_tableAt s₀ r
  refine (Linked.eq_tableAt ⟨h.root, fun {π g} hg => ?_, fun {π g j} hg hlen hu => ?_, fun {π j} hπ => ?_⟩).symm
  · obtain ⟨f, hf⟩ := Option.isSome_iff_exists.mp ((h.domain_all π).symm.trans (by rw [hg]; rfl))
    exact ht.short hf
  · rw [h.links hg hlen hu, present_tableEntry]
    cases hC : C (π ++ [j]) with
    | none => rfl
    | some g' =>
      have hlt := (h.fresh hC (by simp)).1
      have := maxMem_lt
      rw [frame_tableEntry (by omega)]
      rfl
  · exact h.none_iff.mpr (ht.above (h.none_iff.mp hπ))

theorem copied (h : Done s₀ r c (between [] 0 511) s C) (h₀ : Start s₀ r c) : Copied s₀ r c s := by
  have hchild := h.child_tables
  refine ⟨fun π l => ?_, fun π l => ?_, h.parent_tables h₀, fun π => ?_, fun {π g} hg hne => ?_, fun {π ρ g} hg => ?_,
    fun π ρ g hπ hρ => ?_, fun {x} hx => ?_, fun {π f l} hf hno => ?_, fun {f} hf hC => ?_, h.kernel, fun {x} hx hC => ?_⟩
  · unfold leafEntry
    rw [h.parent_tables h₀]
    cases hf : tableAt s₀ r π with
    | none => rfl
    | some f =>
      by_cases hlen : π.length = 3
      · simp only [hlen, true_and]
        rw [h.parent hf hlen]
        exact settled_entry (leaf_mem_between hf hlen) (Or.inr rfl)
      · simp only [hlen, false_and, if_false]
        rfl
  · unfold leafEntry
    rw [hchild]
    cases hf : tableAt s₀ r π with
    | none =>
      rw [h.none_iff.mpr hf]
      rfl
    | some f =>
      obtain ⟨g, hg⟩ := Option.isSome_iff_exists.mp ((h.domain_all π).trans (by rw [hf]; rfl))
      rw [hg]
      by_cases hlen : π.length = 3
      · simp only [hlen, true_and]
        rw [h.leaves hf hg hlen]
        exact settled_entry (leaf_mem_between hf hlen) (Or.inl rfl)
      · simp only [hlen, false_and, if_false]
        rfl
  · rw [hchild]
    exact h.domain_all π
  · rw [hchild] at hg
    exact ⟨h.fresh hg hne, fun ha => ((h.avail_iff h₀).mp ha).2 π hg, h.taken hg hne⟩
  · rw [hchild] at hg
    exact fun hρ => h.apart h₀ hρ π hg
  · rw [hchild] at hπ hρ
    exact h.inj hπ hρ
  · have hfin : (mappings s₀ r x).Finite := by
      rw [← mappings_between s₀ r x]
      exact mappings_finite ..
    have hpos : (mappings s₀ r x).ncard ≠ 0 := (Set.ncard_pos hfin).mpr hx |>.ne'
    rw [h.shared (fun π hne hπ => (h₀.pages hx).2 (h.fresh hπ hne)), mappings_between, share, if_neg hpos]
  · by_cases hlen : π.length = 3
    · have hp : present (s₀.phys f l) = false := by
        rw [leafEntry, hf] at hno
        rw [← Bool.not_eq_true]
        intro hp
        dsimp only at hno
        rw [if_pos ⟨hlen, hp⟩] at hno
        cases hno
      rw [h.parent hf hlen, settled_absent hp]
    · have hshort := ((linked_tableAt s₀ r).short hf).1
      rw [h.upper h₀ hf (by omega)]
  · rw [hchild] at hC
    exact h.others (fun π hπ => absurd hπ (hf π)) hC
  · rw [hchild] at hC
    rw [h.shared hC, mappings_between, hx, Set.ncard_empty]
    rfl

end Done

/-- `cow_walk_pages` returns 0, and its effect is that of `Copied`, for every tree of tables
of the parent with pages in `memmap`, and every cleared root of the child, if there are as
many frames in the pool as the parent has tables. -/
theorem cow_walk_exact (s : Mem) (r c : Nat) (h : Start s r c) :
    ∃ s', cowWalkPages s (framePtr r) (framePtr c) = .ok s' ∧ Copied s r c s' := by
  obtain ⟨s', C, hrun, hdone, _⟩ := cowWalkPages_extends h h.begin rfl (fun σ _ => Set.notMem_empty σ)
  rw [Set.empty_union] at hdone
  exact ⟨s', hrun, hdone.copied h⟩

/-! A parent with one page: its tables are in the frames 1 to 4, the page is in frame 5. The
root of the child is frame 6. -/

def onePage : Mem where
  memmap := fun i => ⟨frameAddr i, if i < 7 then .busy else .avail, 1, false⟩
  phys := fun f j => if j.val = 0 ∧ 1 ≤ f ∧ f ≤ 4 then tableEntry (some (f + 1)) else 0
  handed := []
  overrun := false

/-- The tables of the one page. -/
def onePath (π : List (Fin 512)) : Option Nat :=
  if π.length ≤ 3 ∧ ∀ j ∈ π, j.val = 0 then some (π.length + 1) else none

theorem onePath_some : onePath π = some f ↔ (π.length ≤ 3 ∧ ∀ j ∈ π, j.val = 0) ∧ π.length + 1 = f := by
  unfold onePath
  split
  · rename_i hok
    rw [Option.some_inj]
    exact (and_iff_right hok).symm
  · rename_i hok
    constructor
    · intro h
      cases h
    · intro h
      exact absurd h.1 hok

theorem onePage_entry (hf : 1 ≤ f ∧ f ≤ 4) (j : Fin 512) :
    present (onePage.phys f j) = decide (j.val = 0) ∧ (j.val = 0 → frame (onePage.phys f j) = f + 1) := by
  show present (if j.val = 0 ∧ 1 ≤ f ∧ f ≤ 4 then tableEntry (some (f + 1)) else 0) = _ ∧
    (_ → frame (if j.val = 0 ∧ 1 ≤ f ∧ f ≤ 4 then tableEntry (some (f + 1)) else 0) = _)
  by_cases hj : j.val = 0
  · rw [if_pos ⟨hj, hf⟩, present_tableEntry, decide_eq_true hj]
    exact ⟨rfl, fun _ => frame_tableEntry (by omega)⟩
  · rw [if_neg fun hc => hj hc.1, decide_eq_false hj]
    exact ⟨rfl, fun hc => absurd hc hj⟩

theorem onePage_tables : tableAt onePage 1 = onePath := by
  have hroot : onePath [] = some 1 := onePath_some.mpr (by simp)
  refine (Linked.eq_tableAt ⟨hroot, fun {π f} hf => ?_, fun {π f j} hf hlen _ => ?_, fun {π j} hπ => ?_⟩).symm
  · obtain ⟨⟨hlen, hzero⟩, _⟩ := onePath_some.mp hf
    refine ⟨hlen, ?_⟩
    cases π with
    | nil => rfl
    | cons i π =>
      have hi := hzero i (List.mem_cons_self ..)
      simp [isUser, hi]
  · obtain ⟨⟨_, hzero⟩, rfl⟩ := onePath_some.mp hf
    obtain ⟨hpresent, hframe⟩ := onePage_entry (f := π.length + 1) (by omega) j
    rw [hpresent]
    unfold onePath
    by_cases hj : j.val = 0
    · have hall : (π ++ [j]).length ≤ 3 ∧ ∀ i ∈ π ++ [j], i.val = 0 := by
        simp only [List.length_append, List.length_singleton, List.forall_mem_append, List.forall_mem_singleton]
        exact ⟨by omega, hzero, hj⟩
      rw [if_pos hall, hframe hj, if_pos (decide_eq_true hj), List.length_append]
      rfl
    · rw [if_neg fun hc => hj (hc.2 j (by simp)), if_neg (by simpa using hj)]
  · unfold onePath at hπ ⊢
    split at hπ
    · cases hπ
    · rename_i hno
      rw [if_neg]
      simp only [List.length_append, List.length_singleton, List.forall_mem_append]
      exact fun hc => hno ⟨by omega, hc.2.1⟩

/-- The one entry of a page. -/
theorem onePage_leaf {e : Word} (he : leafEntry onePage 1 π l = some e) : frame e = 5 := by
  unfold leafEntry at he
  rw [onePage_tables] at he
  split at he
  · rename_i f hf
    obtain ⟨_, rfl⟩ := onePath_some.mp hf
    split at he
    · rename_i hok
      obtain ⟨hpresent, hframe⟩ := onePage_entry (f := π.length + 1) (by omega) l
      have hl : l.val = 0 := by
        have hp := hok.2
        rw [hpresent] at hp
        exact of_decide_eq_true hp
      rw [← Option.some.inj he, hframe hl, hok.1]
    · cases he
  · cases he

theorem onePage_avail : onePage.Avail x ↔ 7 ≤ x ∧ x < maxMem := by
  show x < maxMem ∧ (if x < 7 then ResFlag.busy else .avail) = .avail ↔ _
  by_cases hx : x < 7
  · rw [if_pos hx]
    constructor
    · intro hc
      cases hc.2
    · intro hc
      exact absurd hx (Nat.not_lt.mpr hc.1)
  · rw [if_neg hx]
    exact ⟨fun hc => ⟨Nat.le_of_not_lt hx, hc.1⟩, fun hc => ⟨hc.2, rfl⟩⟩

theorem onePage_start : Start onePage 1 6 where
  addressed := fun _ _ => rfl
  tree := fun π ρ f hπ hρ => by
    rw [onePage_tables, onePath_some] at hπ hρ
    have hlen : π.length = ρ.length := by omega
    refine List.ext_getElem hlen fun i hi hi' => Fin.ext ?_
    rw [hπ.1.2 _ (List.getElem_mem hi), hρ.1.2 _ (List.getElem_mem hi')]
  tables := fun {π f} hf => by
    rw [onePage_tables, onePath_some] at hf
    rw [onePage_avail]
    omega
  pages := fun {x} hx => by
    obtain ⟨_, _, _, _, _, hleaf, rfl⟩ := hx
    rw [onePage_leaf hleaf, onePage_avail]
    exact ⟨by decide, by decide⟩
  parent := by decide
  child := by
    refine ⟨by decide, by decide, fun π hπ => ?_⟩
    rw [onePage_tables, onePath_some] at hπ
    omega
  cleared := fun j _ => if_neg fun hc => absurd hc.2.2 (by decide)
  zeroed := fun {f} hf j => if_neg fun hc => by
    have := (onePage_avail.mp hf).1
    omega
  first := by decide
  enough := by
    have hfew : {π | π ≠ [] ∧ (tableAt onePage 1 π).isSome = true} ⊆
        (fun n => List.replicate n ⟨0, by decide⟩) '' {n | 1 ≤ n ∧ n ≤ 3} := by
      rintro π ⟨hne, hsome⟩
      obtain ⟨f, hf⟩ := Option.isSome_iff_exists.mp hsome
      rw [onePage_tables, onePath_some] at hf
      refine ⟨π.length, ⟨List.length_pos_of_ne_nil hne, hf.1.1⟩, ?_⟩
      exact (List.eq_replicate_of_mem fun j hj => Fin.ext (hf.1.2 j hj)).symm
    have hthree : {n : Nat | 1 ≤ n ∧ n ≤ 3} = ↑(Finset.Icc 1 3) := by
      ext n
      simp
    have hmany : ↑(Finset.Icc 7 9) ⊆ {f | onePage.Avail f} := by
      intro f hf
      have : maxMem = 32510 := rfl
      rw [Finset.mem_coe, Finset.mem_Icc] at hf
      exact onePage_avail.mpr ⟨hf.1, by omega⟩
    have hfin : {f | onePage.Avail f}.Finite := (Set.finite_Iio maxMem).subset fun _ hf => hf.1
    calc {π | π ≠ [] ∧ (tableAt onePage 1 π).isSome = true}.ncard
        ≤ ((fun n => List.replicate n (⟨0, by decide⟩ : Fin 512)) '' {n | 1 ≤ n ∧ n ≤ 3}).ncard :=
          Set.ncard_le_ncard hfew (by rw [hthree]; exact (Finset.finite_toSet _).image _)
      _ ≤ {n : Nat | 1 ≤ n ∧ n ≤ 3}.ncard := Set.ncard_image_le (by rw [hthree]; exact Finset.finite_toSet _)
      _ = 3 := by rw [hthree, Set.ncard_coe_finset]; rfl
      _ = (↑(Finset.Icc 7 9) : Set Nat).ncard := by rw [Set.ncard_coe_finset]; rfl
      _ ≤ {f | onePage.Avail f}.ncard := Set.ncard_le_ncard hmany hfin

/-- The walk over one page. -/
theorem cow_walk_exact_one :
    ∃ s', cowWalkPages onePage (framePtr 1) (framePtr 6) = .ok s' ∧ Copied onePage 1 6 s' :=
  cow_walk_exact onePage 1 6 onePage_start

/-! ### The processes of the kernel

What the map of the tables says of a process makes it a parent here. A fork takes a frame
for the root and one for each table, so it cannot fail while half of the pool is left. -/

variable {loc : TableMap} {pg : PageMap} {n : Nat}

theorem owned_of_isUser (hπ : isUser π = true) : Owned userSlot r π := by
  cases π with
  | nil => exact fun _ ha => nomatch ha
  | cons i π => simpa [isUser, Owned, userSlot] using hπ

theorem tableAt_process (h : Tables userSlot s loc) (hr : loc r [] = some r) :
    tableAt s r = fun π => if π.length ≤ 3 ∧ isUser π = true then loc r π else none := by
  symm
  refine Linked.eq_tableAt ⟨hr, fun {π f} hf => ?_, fun {π f j} hf hlen hu => ?_, fun {π j} hπ => ?_⟩
  · split at hf
    · assumption
    · cases hf
  · rw [if_pos ⟨Nat.le_of_lt hlen, isUser_of_append hu⟩] at hf
    rw [if_pos ⟨by rw [List.length_append]; exact hlen, hu⟩, h.forest.links hf hlen (owned_of_isUser hu),
      present_tableEntry]
    cases hl : loc r (π ++ [j]) with
    | none => rfl
    | some g =>
      have hlt := h.lt hl
      rw [frame_tableEntry (by omega)]
      rfl
  · split
    · rename_i hok
      rw [List.length_append] at hok
      rw [if_pos ⟨Nat.le_of_succ_le hok.1, isUser_of_append hok.2⟩] at hπ
      refine h.forest.closed (fun he => ?_) hπ
      rw [he, hr] at hπ
      cases hπ
    · rfl

theorem table_process (h : Tables userSlot s loc) (hr : loc r [] = some r) (hf : tableAt s r π = some f) :
    loc r π = some f := by
  rw [tableAt_process h hr] at hf
  dsimp only at hf
  split at hf
  · exact hf
  · cases hf

/-- The frames that are taken are those below `n`, and the tables are among them. -/
theorem tables_ncard (h : Tables userSlot s loc) (hr : loc r [] = some r) (hshape : Shape s n) :
    {π | π ≠ [] ∧ (tableAt s r π).isSome = true}.ncard ≤ n := by
  have hmaps : ∀ π ∈ {π | π ≠ [] ∧ (tableAt s r π).isSome = true},
      (tableAt s r π).getD 0 ∈ (↑(Finset.range n) : Set Nat) := by
    intro π hπ
    obtain ⟨f, hf⟩ := Option.isSome_iff_exists.mp hπ.2
    have htaken := h.taken (table_process h hr hf)
    have := (hshape.avail f htaken.1).not.mp htaken.2
    rw [hf, Finset.mem_coe, Finset.mem_range]
    show f < n
    omega
  have hinj : Set.InjOn (fun π => (tableAt s r π).getD 0) {π | π ≠ [] ∧ (tableAt s r π).isSome = true} := by
    intro π hπ ρ hρ he
    obtain ⟨f, hf⟩ := Option.isSome_iff_exists.mp hπ.2
    obtain ⟨g, hg⟩ := Option.isSome_iff_exists.mp hρ.2
    obtain rfl : f = g := by simpa [hf, hg] using he
    exact (h.forest.inj (table_process h hr hf) (table_process h hr hg)).2
  have hle := Set.ncard_le_ncard_of_injOn _ hmaps hinj (Finset.finite_toSet _)
  rwa [Set.ncard_coe_finset, Finset.card_range] at hle

theorem avail_ncard (hshape : Shape s n) : {f | s.Avail f}.ncard = maxMem - n := by
  have hset : {f | s.Avail f} = (↑(Finset.Ico n maxMem) : Set Nat) := by
    ext f
    rw [Finset.mem_coe, Finset.mem_Ico]
    constructor
    · intro hav
      exact ⟨(hshape.avail f hav.1).mp hav, hav.1⟩
    · intro hf
      exact (hshape.avail f hf.2).mpr hf.1
  rw [hset, Set.ncard_coe_finset, Nat.card_Ico]

/-- What a last-level entry maps is a page of the process. -/
theorem leaf_process (hs : Mapped s loc pg) (hr : loc r [] = some r) (hx : (mappings s r x).Nonempty) :
    ∃ k p, pg k = some p ∧ p.frame = x := by
  obtain ⟨_, π, l, e, rfl, hleaf, rfl⟩ := hx
  unfold leafEntry at hleaf
  split at hleaf
  · rename_i f hf
    split at hleaf
    · rename_i hok
      obtain rfl := Option.some.inj hleaf
      have hentry := hs.entries r l hok.1
      rw [entryOf, leaf_some (table_process hs.tables hr hf)] at hentry
      cases hp : pg (r, π ++ [l]) with
      | none =>
        rw [hentry, hp] at hok
        cases hok.2
      | some p =>
        refine ⟨_, p, hp, ?_⟩
        have hlt := (hs.busy hp).1
        have hmax := maxMem_lt
        have hframe := frameAddr_frame (s.phys f l)
        rw [hentry, hp, pageEntry_mask hlt] at hframe
        rw [hentry, hp]
        exact frameAddr_inj (by omega) (frame_lt _) hframe
    · cases hleaf
  · cases hleaf

/-- A process, and a new root for its child. -/
theorem start_process (hs : Spaces s loc pg) (hshape : Shape s n) (hroom : 2 * n ≤ maxMem) (hr : loc r [] = some r)
    (hc : loc c [] = some c) (hrc : r ≠ c) (hempty : ∀ j, loc c [j] = none) : Start s r c where
  addressed := hs.tables.addressed
  tree := fun π ρ f hπ hρ => (hs.tables.forest.inj (table_process hs.tables hr hπ) (table_process hs.tables hr hρ)).2
  tables := fun hf => (hs.tables.taken (table_process hs.tables hr hf)).2
  pages := fun hx => by
    obtain ⟨k, p, hp, rfl⟩ := leaf_process hs.toMapped hr hx
    exact ⟨(hs.busy hp).1, (hs.busy hp).2.1⟩
  parent := (hs.tables.lt hr).trans (by decide)
  child := ⟨(hs.tables.lt hc).trans (by decide), (hs.tables.taken hc).2,
    fun π hπ => hrc (hs.tables.forest.inj (table_process hs.tables hr hπ) hc).1⟩
  cleared := fun j hj => by
    have hu : isUser ([] ++ [j]) = true := by simpa [isUser] using hj
    rw [hs.tables.forest.links hc (by decide) (owned_of_isUser hu), List.nil_append, hempty]
    rfl
  zeroed := hs.tables.zeroed
  first := fun hav => by
    have := (hshape.avail 0 hav.1).mp hav
    have := hshape.pos
    omega
  enough := by
    have := tables_ncard hs.tables hr hshape
    rw [avail_ncard hshape]
    omega

/-- The frames a fork takes: one for the root, and no more for the tables than were gone. -/
theorem forkSpace_length (hs : Spaces s loc pg) (hshape : Shape s n) (hroom : 2 * n + 2 ≤ maxMem)
    (hr : loc r [] = some r) (pml4e : Word) :
    (forkSpace s pml4e (framePtr r)).2.handed.length ≤ s.handed.length + n + 2 := by
  have hlen := newRoot_length s pml4e
  have hshape₁ : Shape (newRoot s pml4e).2 (n + 1) := by
    have := (newRoot_steps s pml4e).enough hshape (by omega)
    rwa [hlen, show n + (s.handed.length + 1) - s.handed.length = n + 1 by omega] at this
  obtain ⟨c, s₁, hroot, hav, hs₁, _⟩ := newRoot_spec hs pml4e hshape₁.ok
  have hrun : forkSpace s pml4e (framePtr r) =
      (frameAddr c, returned (cowWalkPages s₁ (framePtr r) (framePtr c))) := by
    unfold forkSpace
    rw [hroot]
    rfl
  have hrc : r ≠ c := fun he => (hs.tables.taken hr).2 (he ▸ hav)
  have hr₁ : place loc c [] c r [] = some r := by
    rw [place_other _ _ (fun hc => hrc hc.1)]
    exact hr
  rw [hroot] at hlen hshape₁
  have h₀ : Start s₁ r c := start_process hs₁ hshape₁ (by omega) hr₁ (place_same ..) hrc fun j => by
    rw [place_other _ _ (by simp)]
    exact hs.tables.no_root hav [j]
  obtain ⟨s₂, C, hwalk, hdone, _⟩ := cowWalkPages_extends h₀ h₀.begin rfl fun σ _ => Set.notMem_empty σ
  dsimp only at hwalk hlen
  have htables := (Set.ncard_le_ncard hdone.subset (tables_finite s₁ r)).trans (tables_ncard hs₁.tables hr₁ hshape₁)
  rw [hrun, hwalk]
  show s₂.handed.length ≤ _
  rw [hdone.handed]
  omega

end Sbnix.Memory.CowWalk
