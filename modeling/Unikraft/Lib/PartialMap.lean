import Mathlib.Logic.Function.Basic

/-!
# Unikraft.Lib.PartialMap

What a map to `Option` has after the value at one key has been changed.
-/

namespace Unikraft.Lib

open Function

variable {K V : Type*} [DecidableEq K] {f : K → Option V} {a b : K} {v w : V}

/-- A value is the new one, or that of another key. -/
theorem update_some (h : update f a (some v) b = some w) :
    b = a ∧ w = v ∨ b ≠ a ∧ f b = some w := by
  by_cases hb : b = a
  · rw [hb, update_self] at h
    exact .inl ⟨hb, (Option.some.inj h).symm⟩
  rw [update_of_ne hb] at h
  exact .inr ⟨hb, h⟩

/-- What holds of the new value and of those of the other keys holds of every value. -/
theorem forall_update {P : K → V → Prop} (hnew : P a v)
    (hold : ∀ b w, b ≠ a → f b = some w → P b w) :
    ∀ b w, update f a (some v) b = some w → P b w := by
  intro b w h
  rcases update_some h with ⟨rfl, rfl⟩ | ⟨hb, h⟩
  · exact hnew
  · exact hold b w hb h

theorem update_none (h : update f a none b = some w) : b ≠ a ∧ f b = some w := by
  have hb : b ≠ a := by
    rintro rfl
    rw [update_self] at h
    cases h
  rw [update_of_ne hb] at h
  exact ⟨hb, h⟩

end Unikraft.Lib
