import Mathlib.Tactic

/-! Partial maps with one value more, or one less.

Whatever is said of the values of a map is said after `Function.update` by the same split:
the value is the new one, or it was there before, at another place (`update_cases`,
`update_none`). -/
namespace Sbnix.Library

variable {α β : Type*} [DecidableEq α] {C : α → Option β} {a b b' : α} {g x : β}

theorem update_cases (h : Function.update C a (some g) b = some x) : (b = a ∧ x = g) ∨ (b ≠ a ∧ C b = some x) := by
  by_cases he : b = a
  · rw [he, Function.update_self] at h
    exact Or.inl ⟨he, (Option.some.inj h).symm⟩
  · rw [Function.update_of_ne he] at h
    exact Or.inr ⟨he, h⟩

theorem update_none (h : Function.update C a none b = some x) : b ≠ a ∧ C b = some x := by
  by_cases he : b = a
  · rw [he, Function.update_self] at h
    cases h
  · rw [Function.update_of_ne he] at h
    exact ⟨he, h⟩

/-- At a place that had none the new value takes nothing away. -/
theorem update_keeps (ha : C a = none) (h : C b = some x) : Function.update C a (some g) b = some x := by
  rw [Function.update_of_ne, h]
  rintro rfl
  rw [ha] at h
  cases h

/-- A value that was at no place is at one. -/
theorem update_inj (hinj : ∀ {b b' x}, C b = some x → C b' = some x → b = b') (hnew : ∀ b, C b ≠ some g)
    (h : Function.update C a (some g) b = some x) (h' : Function.update C a (some g) b' = some x) : b = b' := by
  obtain ⟨rfl, rfl⟩ | ⟨_, hC⟩ := update_cases h
  · obtain ⟨rfl, _⟩ | ⟨_, hC'⟩ := update_cases h'
    · rfl
    · exact absurd hC' (hnew b')
  · obtain ⟨rfl, rfl⟩ | ⟨_, hC'⟩ := update_cases h'
    · exact absurd hC (hnew b)
    · exact hinj hC hC'

end Sbnix.Library
