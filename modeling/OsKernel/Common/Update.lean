import Mathlib

/-!
# A function changed at one place
-/

namespace OsKernel

open Function

variable {α β : Type*} {f g : α → β} {a x y : α} {v b c : β}

/-- Two places with different values are different. -/
theorem ne_of_values (hx : f x = b) (hy : f y = c) (hbc : b ≠ c) : x ≠ y := by
  rintro rfl
  exact hbc (hx.symm.trans hy)

variable [DecidableEq α]

/-- A value after the change is the new one, or was there before. -/
theorem update_eq_cases (h : update f a v x = b) : x = a ∧ v = b ∨ x ≠ a ∧ f x = b := by
  by_cases hx : x = a
  · rw [hx, update_self] at h
    exact Or.inl ⟨hx, h⟩
  · rw [update_of_ne hx] at h
    exact Or.inr ⟨hx, h⟩

/-- A value that is not the new one was there before. -/
theorem of_update_eq (h : update f a v x = b) (hv : v ≠ b) : x ≠ a ∧ f x = b :=
  (update_eq_cases h).resolve_left fun hx => hv hx.2

theorem of_update_or (h : update f a v x = b ∨ update f a v x = c) (hb : v ≠ b) (hc : v ≠ c) :
    f x = b ∨ f x = c :=
  h.imp (fun h => (of_update_eq h hb).2) fun h => (of_update_eq h hc).2

/-- A value that is not the one replaced is still there. -/
theorem update_eq_of_ne (ha : f a ≠ b) (h : f x = b) : update f a v x = b := by
  rw [update_of_ne, h]
  rintro rfl
  exact ha h

theorem update_congr_of_ne (h : x ≠ a → f x = g x) : update f a v x = update g a v x := by
  rw [update_apply, update_apply]
  split
  · rfl
  · exact h ‹_›

end OsKernel
