import Mathlib.Tactic

/-! Circular doubly linked lists, as pointers.

A node is any value of a type `α`; a heap of links gives each node a successor
and a predecessor. `Ring l h xs` says that from the head `h` the successors run
through `xs` and back to `h`, that the predecessors run the other way, and that
no node is met twice. Splicing a node in (`splice`) and bridging a node out
(`bridge`) are the two ways such a structure is edited; each is one lemma, by
induction along the segment before the edited place, and each leaves every ring
it does not touch as it was (`Ring.congr`). A bounded search along the
successors finds what a search of `xs` finds (`Ring.search_eq`), and a bounded walk
meets `xs` (`Ring.walk_eq`). -/
namespace Sbnix.Library

/-- A successor and a predecessor for every node. -/
structure Links (α : Type*) where
  next : α → α
  prev : α → α

namespace Links
variable {α : Type*} [DecidableEq α]

def setNext (l : Links α) (a b : α) : Links α := {l with next := Function.update l.next a b}
def setPrev (l : Links α) (a b : α) : Links α := {l with prev := Function.update l.prev a b}

/-- Put `new` between the consecutive nodes `p` and `n`. -/
def splice (l : Links α) (new p n : α) : Links α :=
  (((l.setPrev n new).setNext new n).setPrev new p).setNext p new

/-- Make `p` and `n` point at each other. -/
def bridge (l : Links α) (p n : α) : Links α := (l.setPrev n p).setNext p n

@[simp] theorem splice_next (l : Links α) (new p n a : α) :
    (l.splice new p n).next a = if a = p then new else if a = new then n else l.next a := by
  simp [splice, setNext, setPrev, Function.update_apply]

@[simp] theorem splice_prev (l : Links α) (new p n a : α) :
    (l.splice new p n).prev a = if a = new then p else if a = n then new else l.prev a := by
  simp [splice, setNext, setPrev, Function.update_apply]

@[simp] theorem bridge_next (l : Links α) (p n a : α) :
    (l.bridge p n).next a = if a = p then n else l.next a := by
  simp [bridge, setNext, setPrev, Function.update_apply]

@[simp] theorem bridge_prev (l : Links α) (p n a : α) :
    (l.bridge p n).prev a = if a = n then p else l.prev a := by
  simp [bridge, setNext, setPrev, Function.update_apply]

end Links

variable {α : Type*} {l l' : Links α} {a b h x : α} {xs ys : List α}

/-! ### Segments -/

/-- From `a` through `xs` to `b`, and back. -/
def Segment (l : Links α) : α → List α → α → Prop
  | a, [], b => l.next a = b ∧ l.prev b = a
  | a, x :: xs, b => l.next a = x ∧ l.prev x = a ∧ Segment l x xs b

theorem Segment.next_eq (hs : Segment l a xs b) : l.next a = xs.headD b := by
  cases xs with
  | nil => exact hs.1
  | cons x xs => exact hs.1

theorem Segment.prev_eq (hs : Segment l a xs b) : l.prev b = xs.getLastD a := by
  induction xs generalizing a with
  | nil => exact hs.2
  | cons x xs ih => rw [List.getLastD_cons]; exact ih hs.2.2

theorem Segment.prev_next (hs : Segment l a xs b) : l.prev (l.next a) = a := by
  cases xs with
  | nil => rw [hs.1, hs.2]
  | cons x xs => rw [hs.1, hs.2.1]

theorem Segment.next_prev (hs : Segment l a xs b) : l.next (l.prev b) = b := by
  induction xs generalizing a with
  | nil => rw [hs.2, hs.1]
  | cons x xs ih => exact ih hs.2.2

theorem segment_append : Segment l a (xs ++ x :: ys) b ↔ Segment l a xs x ∧ Segment l x ys b := by
  induction xs generalizing a with
  | nil => simp [Segment, and_assoc]
  | cons c xs ih => simp [Segment, ih, and_assoc]

/-- A segment only depends on the successors of all its nodes but the last and on
the predecessors of all but the first. -/
theorem Segment.congr (hs : Segment l a xs b) (hn : ∀ c ∈ a :: xs, l'.next c = l.next c)
    (hp : ∀ c ∈ xs ++ [b], l'.prev c = l.prev c) : Segment l' a xs b := by
  induction xs generalizing a with
  | nil => exact ⟨(hn a (by simp)).trans hs.1, (hp b (by simp)).trans hs.2⟩
  | cons x xs ih =>
    refine ⟨(hn a (by simp)).trans hs.1, (hp x (by simp)).trans hs.2.1, ih hs.2.2 ?_ ?_⟩
    · intro c hc
      exact hn c (List.mem_cons_of_mem a hc)
    · intro c hc
      exact hp c (List.mem_cons_of_mem x hc)

variable [DecidableEq α]

/-- Splicing between the end of `xs` and the start of `ys`. The end points may be
one node, the head of a ring. -/
theorem Segment.splice {new : α} (hs : Segment l a (xs ++ ys) b) (hnd : (a :: xs ++ ys).Nodup)
    (hb : b ∉ xs ++ ys) (hnew : new ∉ a :: xs ++ ys) (hnb : new ≠ b) :
    Segment (l.splice new (xs.getLastD a) (ys.headD b)) a (xs ++ new :: ys) b := by
  induction xs generalizing a with
  | nil =>
    have hna : new ≠ a := fun he => hnew (by simp [he])
    cases ys with
    | nil => simp [Segment, hna, hnb.symm]
    | cons y ys =>
      have hny : new ≠ y := fun he => hnew (by simp [he])
      have hmem : a ∉ y :: ys := (List.nodup_cons.mp hnd).1
      have hnd' : (y :: ys).Nodup := (List.nodup_cons.mp hnd).2
      refine ⟨by simp, by simp, by simp [hna], by simp [hny.symm], hs.2.2.congr ?_ ?_⟩
      · intro c hc
        have h1 : c ≠ a := fun he => hmem (he ▸ hc)
        have h2 : c ≠ new := fun he => hnew (by simp [← he, List.mem_cons.mp hc])
        simp [h1, h2]
      · intro c hc
        rcases List.mem_append.mp hc with hc | hc
        · have h1 : c ≠ new := fun he => hnew (by simp [← he, hc])
          have h2 : c ≠ y := fun he => (List.nodup_cons.mp hnd').1 (he ▸ hc)
          simp [h1, h2]
        · obtain rfl : c = b := by simpa using hc
          have h2 : c ≠ y := fun he => hb (by simp [he])
          simp [hnb.symm, h2]
  | cons x xs ih =>
    have hax : a ∉ x :: xs ++ ys := (List.nodup_cons.mp hnd).1
    have hnd' : (x :: xs ++ ys).Nodup := (List.nodup_cons.mp hnd).2
    have hxnew : x ≠ new := fun he => hnew (by simp [he])
    have hanew : a ≠ new := fun he => hnew (by simp [he])
    have hlast : xs.getLastD x ∈ x :: xs := List.getLastD_mem_cons ..
    have hane : a ≠ xs.getLastD x := fun he => hax (List.mem_append_left ys (he ▸ hlast))
    have hxne : x ≠ ys.headD b := by
      cases ys with
      | nil => exact fun he => hb (by simp at he; simp [he])
      | cons y ys =>
        intro he
        have : x = y := by simpa using he
        exact (List.nodup_cons.mp hnd').1 (by simp [this])
    have hrest := ih hs.2.2 hnd' (fun hm => hb (List.mem_cons_of_mem x hm))
      (fun hm => hnew (List.mem_cons_of_mem a hm))
    rw [List.getLastD_cons]
    refine ⟨?_, ?_, hrest⟩
    · simp only [Links.splice_next, if_neg hane, if_neg hanew]
      exact hs.1
    · simp only [Links.splice_prev, if_neg hxnew, if_neg hxne]
      exact hs.2.1

/-- Bridging the node `x` out of a segment. -/
theorem Segment.bridge (hs : Segment l a (xs ++ x :: ys) b) (hnd : (a :: xs ++ x :: ys).Nodup)
    (hb : b ∉ xs ++ x :: ys) : Segment (l.bridge (l.prev x) (l.next x)) a (xs ++ ys) b := by
  induction xs generalizing a with
  | nil =>
    obtain ⟨hax, hxa, hrest⟩ := hs
    have hmem : a ∉ x :: ys := (List.nodup_cons.mp hnd).1
    cases ys with
    | nil => simp [Segment, hxa, hrest.1]
    | cons y ys =>
      have hnd' : (y :: ys).Nodup := (List.nodup_cons.mp (List.nodup_cons.mp hnd).2).2
      rw [hxa, hrest.1]
      refine ⟨by simp, by simp, hrest.2.2.congr ?_ ?_⟩
      · intro c hc
        have h1 : c ≠ a := fun he => hmem (List.mem_cons_of_mem x (he ▸ hc))
        simp [h1]
      · intro c hc
        have h1 : c ≠ y := by
          rcases List.mem_append.mp hc with hc | hc
          · exact fun he => (List.nodup_cons.mp hnd').1 (he ▸ hc)
          · exact fun he => hb (by simp at hc; simp [← hc, he])
        simp [h1]
  | cons c xs ih =>
    have hac : a ∉ c :: xs ++ x :: ys := (List.nodup_cons.mp hnd).1
    have hnd' : (c :: xs ++ x :: ys).Nodup := (List.nodup_cons.mp hnd).2
    obtain ⟨hseg, hseg'⟩ := segment_append.mp hs.2.2
    have hprev : l.prev x ∈ c :: xs := by
      rw [hseg.prev_eq]
      exact List.getLastD_mem_cons ..
    have hane : a ≠ l.prev x :=
      fun he => hac (List.mem_append_left (x :: ys) (he ▸ hprev))
    have hcne : c ≠ l.next x := by
      rw [hseg'.next_eq]
      cases ys with
      | nil => exact fun he => hb (by simp at he; simp [he])
      | cons y ys =>
        intro he
        have : c = y := by simpa using he
        exact (List.nodup_cons.mp hnd').1 (by simp [this])
    refine ⟨?_, ?_, ih hs.2.2 hnd' (fun hm => hb (List.mem_cons_of_mem c hm))⟩
    · simp only [Links.bridge_next, if_neg hane]
      exact hs.1
    · simp only [Links.bridge_prev, if_neg hcne]
      exact hs.2.1

/-! ### Rings -/

/-- A circular list with head `h` and entries `xs`, in order. -/
structure Ring (l : Links α) (h : α) (xs : List α) : Prop where
  nodup : (h :: xs).Nodup
  segment : Segment l h xs h

namespace Ring

omit [DecidableEq α] in
theorem next_head (r : Ring l h xs) : l.next h = xs.headD h := r.segment.next_eq

omit [DecidableEq α] in
theorem prev_head (r : Ring l h xs) : l.prev h = xs.getLastD h := r.segment.prev_eq

omit [DecidableEq α] in
theorem head_notMem (r : Ring l h xs) : h ∉ xs := (List.nodup_cons.mp r.nodup).1

omit [DecidableEq α] in
theorem next_head_eq_head (r : Ring l h xs) : l.next h = h ↔ xs = [] := by
  rw [r.next_head]
  cases xs with
  | nil => simp
  | cons x xs =>
    have : x ≠ h := fun he => r.head_notMem (by simp [he])
    simp [this]

omit [DecidableEq α] in
/-- A ring is unchanged by edits of other nodes. -/
theorem congr (r : Ring l h xs) (hn : ∀ c ∈ h :: xs, l'.next c = l.next c)
    (hp : ∀ c ∈ h :: xs, l'.prev c = l.prev c) : Ring l' h xs :=
  ⟨r.nodup, r.segment.congr hn (fun c hc => hp c (by
    rcases List.mem_append.mp hc with hc | hc
    · exact List.mem_cons_of_mem h hc
    · exact List.mem_cons.mpr (Or.inl (by simpa using hc))))⟩

omit [DecidableEq α] in
/-- Successors and predecessors are inverse on a ring. -/
theorem inverse (r : Ring l h xs) :
    ∀ c ∈ h :: xs, l.prev (l.next c) = c ∧ l.next (l.prev c) = c := by
  intro c hc
  rcases List.mem_cons.mp hc with rfl | hc
  · exact ⟨r.segment.prev_next, r.segment.next_prev⟩
  · obtain ⟨us, vs, rfl⟩ := List.append_of_mem hc
    obtain ⟨hu, hv⟩ := segment_append.mp r.segment
    exact ⟨hv.prev_next, hu.next_prev⟩

/-- A new node spliced in after the head. -/
theorem push (r : Ring l h xs) {new : α} (hnew : new ∉ h :: xs) :
    Ring (l.splice new h (l.next h)) h (new :: xs) := by
  have hne : new ≠ h := fun he => hnew (by simp [he])
  refine ⟨?_, ?_⟩
  · have hh := r.head_notMem
    have := (List.nodup_cons.mp r.nodup).2
    simp only [List.mem_cons, not_or] at hnew
    simp [hh, this, hnew.2, hne.symm]
  · have hs : Segment l h ([] ++ xs) h := r.segment
    rw [r.next_head]
    exact hs.splice r.nodup r.head_notMem hnew hne

/-- A new node spliced in before the head. -/
theorem pushBack (r : Ring l h xs) {new : α} (hnew : new ∉ h :: xs) :
    Ring (l.splice new (l.prev h) h) h (xs ++ [new]) := by
  have hne : new ≠ h := fun he => hnew (by simp [he])
  refine ⟨?_, ?_⟩
  · have hnd := r.nodup
    simp only [List.nodup_cons] at hnd ⊢
    simp only [List.mem_cons, not_or] at hnew
    refine ⟨?_, ?_⟩
    · simp [hnd.1, hne.symm]
    · rw [List.nodup_append]
      refine ⟨hnd.2, by simp, ?_⟩
      intro c hc d hd
      have : d = new := by simpa using hd
      exact fun he => hnew.2 (this ▸ he ▸ hc)
  · have hs : Segment l h (xs ++ []) h := by simpa using r.segment
    rw [r.prev_head]
    exact hs.splice (by simpa using r.nodup) (by simpa using r.head_notMem) (by simpa using hnew) hne

/-- A node bridged out. -/
theorem remove (r : Ring l h (xs ++ x :: ys)) :
    Ring (l.bridge (l.prev x) (l.next x)) h (xs ++ ys) := by
  refine ⟨?_, Segment.bridge r.segment r.nodup r.head_notMem⟩
  have hsub : (xs ++ ys).Sublist (xs ++ x :: ys) :=
    List.Sublist.append_left (List.sublist_cons_self x ys) xs
  exact r.nodup.sublist (hsub.cons_cons h)

/-- The same, wherever the node is. -/
theorem erase (r : Ring l h xs) (hx : x ∈ xs) : Ring (l.bridge (l.prev x) (l.next x)) h (xs.erase x) := by
  obtain ⟨us, vs, rfl⟩ := List.append_of_mem hx
  have hnd := (List.nodup_cons.mp r.nodup).2
  have hus : x ∉ us := fun hu => (List.nodup_append.mp hnd).2.2 x hu x (List.mem_cons_self ..) rfl
  rw [List.erase_append_right _ hus, List.erase_cons_head]
  exact r.remove

omit [DecidableEq α] in
/-- The neighbours of a node of a ring are nodes of the ring. -/
theorem neighbours (r : Ring l h xs) (hx : x ∈ xs) : l.prev x ∈ h :: xs ∧ l.next x ∈ h :: xs := by
  obtain ⟨us, vs, rfl⟩ := List.append_of_mem hx
  obtain ⟨hu, hv⟩ := segment_append.mp r.segment
  constructor
  · rw [hu.prev_eq]
    have := List.getLastD_mem_cons (l := us) (a := h)
    simp only [List.mem_cons, List.mem_append] at this ⊢
    tauto
  · rw [hv.next_eq]
    cases vs with
    | nil => simp
    | cons v vs => simp

/-- Splicing elsewhere leaves a ring alone. -/
theorem splice_other (r : Ring l h xs) {new p n : α} (hnew : new ∉ h :: xs) (hp : p ∉ h :: xs) (hn : n ∉ h :: xs) :
    Ring (l.splice new p n) h xs := by
  refine r.congr (fun c hc => ?_) (fun c hc => ?_)
  · rw [Links.splice_next, if_neg (ne_of_mem_of_not_mem hc hp), if_neg (ne_of_mem_of_not_mem hc hnew)]
  · rw [Links.splice_prev, if_neg (ne_of_mem_of_not_mem hc hnew), if_neg (ne_of_mem_of_not_mem hc hn)]

/-- So does bridging. -/
theorem bridge_other (r : Ring l h xs) {p n : α} (hp : p ∉ h :: xs) (hn : n ∉ h :: xs) :
    Ring (l.bridge p n) h xs := by
  refine r.congr (fun c hc => ?_) (fun c hc => ?_)
  · rw [Links.bridge_next, if_neg (ne_of_mem_of_not_mem hc hp)]
  · rw [Links.bridge_prev, if_neg (ne_of_mem_of_not_mem hc hn)]

end Ring

/-! ### Searching a ring -/

/-- Follow the successors from `a` to the first node that satisfies `p`, or to
`h`; the outer `none` is running out of fuel. -/
def search (l : Links α) (h : α) (p : α → Bool) : Nat → α → Option (Option α)
  | 0, _ => none
  | n + 1, a => if a = h then some none else if p a then some (some a) else search l h p n (l.next a)

theorem Segment.search_eq {p : α → Bool} {n : Nat} (hs : Segment l a xs h) (hh : h ∉ xs)
    (hn : xs.length < n) : search l h p n (l.next a) = some (xs.find? p) := by
  induction xs generalizing a n with
  | nil =>
    obtain ⟨m, rfl⟩ : ∃ m, n = m + 1 := ⟨n - 1, by simp at hn; omega⟩
    simp [search, hs.1]
  | cons x xs ih =>
    obtain ⟨m, rfl⟩ : ∃ m, n = m + 1 := ⟨n - 1, by simp at hn; omega⟩
    have hx : x ≠ h := fun he => hh (by simp [he])
    have hrest := ih hs.2.2 (fun hm => hh (List.mem_cons_of_mem x hm)) (n := m) (by simp at hn; omega)
    rw [search, hs.1, if_neg hx, List.find?_cons]
    cases p x with
    | true => simp
    | false => simpa using hrest

theorem Ring.search_eq {p : α → Bool} {n : Nat} (r : Ring l h xs) (hn : xs.length < n) :
    search l h p n (l.next h) = some (xs.find? p) :=
  r.segment.search_eq r.head_notMem hn

/-- The nodes met along the successors from `a` to `h`. -/
def walk (l : Links α) (h : α) : Nat → α → List α
  | 0, _ => []
  | n + 1, a => if a = h then [] else a :: walk l h n (l.next a)

theorem Segment.walk_eq {n : Nat} (hs : Segment l a xs h) (hh : h ∉ xs) (hn : xs.length ≤ n) :
    walk l h n (l.next a) = xs := by
  induction xs generalizing a n with
  | nil =>
    cases n with
    | zero => rfl
    | succ n => rw [walk, if_pos hs.1]
  | cons x xs ih =>
    cases n with
    | zero => cases hn
    | succ n =>
      have hx : x ≠ h := fun he => hh (he ▸ List.mem_cons_self ..)
      rw [walk, hs.1, if_neg hx, ih hs.2.2 (fun hm => hh (List.mem_cons_of_mem x hm)) (Nat.le_of_succ_le_succ hn)]

theorem Ring.walk_eq {n : Nat} (r : Ring l h xs) (hn : xs.length ≤ n) : walk l h n (l.next h) = xs :=
  r.segment.walk_eq r.head_notMem hn

end Sbnix.Library
