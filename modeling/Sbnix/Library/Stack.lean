import Mathlib.Tactic

/-! A stack that grows down.

The words of a stack are indexed by naturals, and the stack pointer is the index of the
last word pushed. `pushAll` pushes a list of words and `popAll` pops words into named
places. Popping names in the opposite order to that in which they were pushed gives each
its word back (`popAll_pushAll`); what lies above the stack pointer is not touched by
pushing, and what lies outside the words popped does not matter to popping. -/
namespace Sbnix.Library

variable {α ρ : Type*} [DecidableEq ρ]

/-- Push words, the first of the list first. -/
def pushAll : (Nat → α) → Nat → List α → (Nat → α) × Nat
  | k, sp, [] => (k, sp)
  | k, sp, x :: xs => pushAll (Function.update k (sp - 1) x) (sp - 1) xs

/-- Pop a word into each of the places. -/
def popAll (k : Nat → α) : Nat → (ρ → α) → List ρ → (ρ → α) × Nat
  | sp, g, [] => (g, sp)
  | sp, g, r :: rs => popAll k (sp + 1) (Function.update g r (k sp)) rs

variable {k k' : Nat → α} {sp : Nat} {g f : ρ → α} {rs ts : List ρ}

theorem pushAll_sp (xs : List α) : (pushAll k sp xs).2 = sp - xs.length := by
  induction xs generalizing k sp with
  | nil => rfl
  | cons x xs ih =>
    rw [pushAll, ih, List.length_cons]
    omega

theorem pushAll_append (xs ys : List α) :
    pushAll k sp (xs ++ ys) = pushAll (pushAll k sp xs).1 (pushAll k sp xs).2 ys := by
  induction xs generalizing k sp with
  | nil => rfl
  | cons x xs ih => exact ih

theorem pushAll_above (xs : List α) (hlen : xs.length ≤ sp) {i : Nat} (hi : sp ≤ i) : (pushAll k sp xs).1 i = k i := by
  induction xs generalizing k sp with
  | nil => rfl
  | cons x xs ih =>
    rw [List.length_cons] at hlen
    rw [pushAll, ih (by omega) (by omega), Function.update_of_ne (by omega)]

/-- What has been pushed on two stacks is the same if they were the same above. -/
theorem pushAll_congr (xs : List α) (h : ∀ i, sp ≤ i → k i = k' i) {i : Nat} (hi : sp - xs.length ≤ i) :
    (pushAll k sp xs).1 i = (pushAll k' sp xs).1 i := by
  induction xs generalizing k k' sp with
  | nil => exact h i hi
  | cons x xs ih =>
    rw [List.length_cons] at hi
    refine ih (fun j hj => ?_) (by omega)
    by_cases hlast : j = sp - 1
    · rw [hlast, Function.update_self, Function.update_self]
    · rw [Function.update_of_ne hlast, Function.update_of_ne hlast, h j (by omega)]

/-- The two words pushed last are at the stack pointer. -/
theorem pushAll_last (xs : List α) (x y : α) (hlen : xs.length + 2 ≤ sp) :
    (pushAll k sp (xs ++ [x, y])).1 (pushAll k sp (xs ++ [x, y])).2 = y ∧
      (pushAll k sp (xs ++ [x, y])).1 ((pushAll k sp (xs ++ [x, y])).2 + 1) = x := by
  have hx : sp - xs.length - 1 - 1 + 1 = sp - xs.length - 1 := by omega
  rw [pushAll_append, pushAll_sp, pushAll, pushAll, pushAll]
  dsimp only
  rw [Function.update_self, hx, Function.update_of_ne (by omega), Function.update_self]
  exact ⟨rfl, rfl⟩

theorem popAll_append : popAll k sp g (rs ++ ts) = popAll k (popAll k sp g rs).2 (popAll k sp g rs).1 ts := by
  induction rs generalizing sp g with
  | nil => rfl
  | cons r rs ih => exact ih

theorem popAll_congr (h : ∀ i, sp ≤ i → i < sp + rs.length → k' i = k i) : popAll k' sp g rs = popAll k sp g rs := by
  induction rs generalizing sp g with
  | nil => rfl
  | cons r rs ih =>
    rw [List.length_cons] at h
    rw [popAll, popAll, h sp (by omega) (by omega)]
    exact ih (fun i hlo hhi => h i (by omega) (by omega))

theorem popAll_pushAll (rs : List ρ) (hlen : rs.length ≤ sp) :
    popAll (pushAll k sp (rs.map f)).1 (sp - rs.length) g rs.reverse = (fun r => if r ∈ rs then f r else g r, sp) := by
  induction rs generalizing k sp with
  | nil => simp [popAll]
  | cons r rs ih =>
    rw [List.length_cons] at hlen
    have hsp : sp - (r :: rs).length = sp - 1 - rs.length := by
      rw [List.length_cons]
      omega
    -- the word of the first name lies above all the others
    have htop : (pushAll (Function.update k (sp - 1) (f r)) (sp - 1) (rs.map f)).1 (sp - 1) = f r := by
      rw [pushAll_above _ (by rw [List.length_map]; omega) (Nat.le_refl _), Function.update_self]
    rw [List.reverse_cons, List.map_cons, pushAll, hsp, popAll_append, ih (by omega), popAll, htop, popAll]
    ext1
    · funext x
      dsimp only
      rw [Function.update_apply]
      by_cases hx : x = r
      · rw [if_pos hx, if_pos (by rw [hx]; exact List.mem_cons_self ..), hx]
      · simp [hx]
    · show sp - 1 + 1 = sp
      omega

end Sbnix.Library
