import Sbnix.Library.Update

/-! Copy-on-write sharing of frames.

Users `k` hold pages: a frame, and whether they may write it. Each frame carries a
count and a flag. `Shared` is the discipline that makes copying on a write enough:
a frame somebody may write has no other user, a frame somebody may only read is
flagged, and the count of a frame is no less than the number of its users. A count
may be too large (users that go away need not give theirs back), never too small.

The rules follow what a kernel does: two users come to share a page (`share`), a
user gets a frame nobody has (`fresh`), the last user of a page may write it again
(`reclaim`), and a user gives a shared page up (`leave`). -/
namespace Sbnix.Library

variable {K F : Type*}

structure Page (F : Type*) where
  frame : F
  writable : Bool
  deriving DecidableEq

/-- The page without the right to write it. -/
def Page.protect (p : Page F) : Page F := {p with writable := false}

@[simp] theorem Page.protect_frame (p : Page F) : p.protect.frame = p.frame := rfl
@[simp] theorem Page.protect_writable (p : Page F) : p.protect.writable = false := rfl

structure Shared (pg : K → Option (Page F)) (cnt : F → Int) (cow : F → Bool) : Prop where
  exclusive : ∀ {k k' : K} {p p' : Page F}, pg k = some p → p.writable = true → pg k' = some p' →
    p'.frame = p.frame → k' = k
  flagged : ∀ {k : K} {p : Page F}, pg k = some p → p.writable = false → cow p.frame = true
  counted : ∀ {k : K} {p : Page F}, pg k = some p → ∃ users : Finset K,
    (∀ {k' : K} {p' : Page F}, pg k' = some p' → p'.frame = p.frame → k' ∈ users) ∧
      (users.card : Int) ≤ cnt p.frame

namespace Shared

variable {pg : K → Option (Page F)} {cnt cnt' : F → Int} {cow cow' : F → Bool} {k k' : K} {p p' : Page F}

/-- Only the counts and flags of frames in use matter. -/
theorem congr (h : Shared pg cnt cow) (hc : ∀ {k p}, pg k = some p → cnt' p.frame = cnt p.frame)
    (hf : ∀ {k p}, pg k = some p → cow' p.frame = cow p.frame) : Shared pg cnt' cow' where
  exclusive := h.exclusive
  flagged := fun hk hw => by
    rw [hf hk]
    exact h.flagged hk hw
  counted := fun hk => by
    rw [hc hk]
    exact h.counted hk

/-- With a count of one there is one user. -/
theorem sole (h : Shared pg cnt cow) (hk : pg k = some p) (hone : cnt p.frame = 1)
    (hk' : pg k' = some p') (hf : p'.frame = p.frame) : k' = k := by
  obtain ⟨users, hmem, hcard⟩ := h.counted hk
  have hle : users.card ≤ 1 := by omega
  exact Finset.card_le_one.mp hle _ (hmem hk' hf) _ (hmem hk rfl)

variable [DecidableEq K] [DecidableEq F]

/-- A second user comes in: both may only read. -/
theorem share (h : Shared pg cnt cow) (hk : pg k = some p) (k' : K) :
    Shared (Function.update (Function.update pg k (some p.protect)) k' (some p.protect))
      (Function.update cnt p.frame (cnt p.frame + 1)) (Function.update cow p.frame true) := by
  -- a user of the new state is one of the two, or was there before
  have hcases : ∀ {k₁ : K} {p₁ : Page F},
      Function.update (Function.update pg k (some p.protect)) k' (some p.protect) k₁ = some p₁ →
      ((k₁ = k ∨ k₁ = k') ∧ p₁ = p.protect) ∨ (k₁ ≠ k ∧ k₁ ≠ k' ∧ pg k₁ = some p₁) := by
    intro k₁ p₁ h₁
    rcases update_cases h₁ with ⟨he, hp⟩ | ⟨hn', h₁⟩
    · exact Or.inl ⟨Or.inr he, hp⟩
    · rcases update_cases h₁ with ⟨he, hp⟩ | ⟨hn, h₁⟩
      · exact Or.inl ⟨Or.inl he, hp⟩
      · exact Or.inr ⟨hn, hn', h₁⟩
  refine ⟨?_, ?_, ?_⟩
  · intro k₁ k₂ p₁ p₂ h₁ hw h₂ hf
    rcases hcases h₁ with ⟨_, rfl⟩ | ⟨hn, _, h₁⟩
    · cases hw
    · rcases hcases h₂ with ⟨_, rfl⟩ | ⟨_, _, h₂⟩
      · exact absurd (h.exclusive h₁ hw hk hf) hn.symm
      · exact h.exclusive h₁ hw h₂ hf
  · intro k₁ p₁ h₁ hw
    rcases hcases h₁ with ⟨_, rfl⟩ | ⟨_, _, h₁⟩
    · simp
    · by_cases hf : p₁.frame = p.frame
      · rw [hf]
        simp
      · rw [Function.update_of_ne hf]
        exact h.flagged h₁ hw
  · intro k₁ p₁ h₁
    by_cases hf : p₁.frame = p.frame
    · obtain ⟨users, hmem, hcard⟩ := h.counted hk
      refine ⟨insert k' users, ?_, ?_⟩
      · intro k₂ p₂ h₂ hf₂
        rcases hcases h₂ with ⟨rfl | rfl, _⟩ | ⟨_, _, h₂⟩
        · exact Finset.mem_insert_of_mem (hmem hk rfl)
        · exact Finset.mem_insert_self _ _
        · exact Finset.mem_insert_of_mem (hmem h₂ (hf₂.trans hf))
      · have hle := Finset.card_insert_le k' users
        rw [hf, Function.update_self]
        omega
    · rcases hcases h₁ with ⟨_, rfl⟩ | ⟨_, _, h₁⟩
      · exact absurd rfl hf
      · obtain ⟨users, hmem, hcard⟩ := h.counted h₁
        refine ⟨users, ?_, by rwa [Function.update_of_ne hf]⟩
        intro k₂ p₂ h₂ hf₂
        rcases hcases h₂ with ⟨_, rfl⟩ | ⟨_, _, h₂⟩
        · exact absurd hf₂.symm hf
        · exact hmem h₂ hf₂

omit [DecidableEq F] in
/-- A user gets a frame that nobody has, in place of what it had. -/
theorem fresh (h : Shared pg cnt cow) (k : K) {g : F} (hg : ∀ {k p}, pg k = some p → p.frame ≠ g)
    (hcnt : 1 ≤ cnt g) : Shared (Function.update pg k (some ⟨g, true⟩)) cnt cow where
  exclusive := by
    intro k₁ k₂ p₁ p₂ h₁ hw h₂ hf
    rcases update_cases h₁ with ⟨rfl, rfl⟩ | ⟨_, h₁⟩
    · rcases update_cases h₂ with ⟨rfl, _⟩ | ⟨_, h₂⟩
      · rfl
      · exact absurd hf (hg h₂)
    · rcases update_cases h₂ with ⟨_, rfl⟩ | ⟨_, h₂⟩
      · exact absurd hf.symm (hg h₁)
      · exact h.exclusive h₁ hw h₂ hf
  flagged := by
    intro k₁ p₁ h₁ hw
    rcases update_cases h₁ with ⟨_, rfl⟩ | ⟨_, h₁⟩
    · cases hw
    · exact h.flagged h₁ hw
  counted := by
    intro k₁ p₁ h₁
    rcases update_cases h₁ with ⟨rfl, rfl⟩ | ⟨_, h₁⟩
    · refine ⟨{k₁}, ?_, by simpa using hcnt⟩
      intro k₂ p₂ h₂ hf
      rcases update_cases h₂ with ⟨rfl, _⟩ | ⟨_, h₂⟩
      · exact Finset.mem_singleton_self _
      · exact absurd hf (hg h₂)
    · obtain ⟨users, hmem, hcard⟩ := h.counted h₁
      refine ⟨users, ?_, hcard⟩
      intro k₂ p₂ h₂ hf
      rcases update_cases h₂ with ⟨_, rfl⟩ | ⟨_, h₂⟩
      · exact absurd hf.symm (hg h₁)
      · exact hmem h₂ hf

omit [DecidableEq F] in
/-- The last user may write again. -/
theorem reclaim (h : Shared pg cnt cow) (hk : pg k = some p) (hone : cnt p.frame = 1) :
    Shared (Function.update pg k (some ⟨p.frame, true⟩)) cnt cow := by
  have hback : ∀ {k₁ : K} {p₁ : Page F}, Function.update pg k (some ⟨p.frame, true⟩) k₁ = some p₁ →
      ∃ p₀, pg k₁ = some p₀ ∧ p₀.frame = p₁.frame := by
    intro k₁ p₁ h₁
    rcases update_cases h₁ with ⟨rfl, rfl⟩ | ⟨_, h₁⟩
    · exact ⟨p, hk, rfl⟩
    · exact ⟨p₁, h₁, rfl⟩
  refine ⟨?_, ?_, ?_⟩
  · intro k₁ k₂ p₁ p₂ h₁ hw h₂ hf
    obtain ⟨q₂, hq₂, hf₂⟩ := hback h₂
    rcases update_cases h₁ with ⟨rfl, rfl⟩ | ⟨_, h₁⟩
    · exact h.sole hk hone hq₂ (hf₂.trans hf)
    · exact h.exclusive h₁ hw hq₂ (hf₂.trans hf)
  · intro k₁ p₁ h₁ hw
    rcases update_cases h₁ with ⟨_, rfl⟩ | ⟨_, h₁⟩
    · cases hw
    · exact h.flagged h₁ hw
  · intro k₁ p₁ h₁
    obtain ⟨q₁, hq₁, hf₁⟩ := hback h₁
    obtain ⟨users, hmem, hcard⟩ := h.counted hq₁
    rw [hf₁] at hcard
    refine ⟨users, ?_, hcard⟩
    intro k₂ p₂ h₂ hf
    obtain ⟨q₂, hq₂, hf₂⟩ := hback h₂
    exact hmem hq₂ (hf₂.trans (hf.trans hf₁.symm))

/-- A user gives its page up, and the count with it. -/
theorem leave (h : Shared pg cnt cow) (hk : pg k = some p) :
    Shared (Function.update pg k none) (Function.update cnt p.frame (cnt p.frame - 1)) cow := by
  refine ⟨?_, ?_, ?_⟩
  · intro k₁ k₂ p₁ p₂ h₁ hw h₂ hf
    exact h.exclusive (update_none h₁).2 hw (update_none h₂).2 hf
  · intro k₁ p₁ h₁ hw
    exact h.flagged (update_none h₁).2 hw
  · intro k₁ p₁ h₁
    by_cases hf : p₁.frame = p.frame
    · obtain ⟨users, hmem, hcard⟩ := h.counted hk
      have hin : k ∈ users := hmem hk rfl
      refine ⟨users.erase k, ?_, ?_⟩
      · intro k₂ p₂ h₂ hf₂
        exact Finset.mem_erase.mpr ⟨(update_none h₂).1, hmem (update_none h₂).2 (hf₂.trans hf)⟩
      · have herase := Finset.card_erase_add_one hin
        rw [hf, Function.update_self]
        omega
    · obtain ⟨users, hmem, hcard⟩ := h.counted (update_none h₁).2
      refine ⟨users, ?_, by rwa [Function.update_of_ne hf]⟩
      intro k₂ p₂ h₂ hf₂
      exact hmem (update_none h₂).2 hf₂

end Shared

end Sbnix.Library
