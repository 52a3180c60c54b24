import Mathlib

/-!
# Holders

`held : H → Option R` says which resource each holder holds, if any. The
number of holders of a resource is what a reference count stands for, and
`ncard_holders_update` says how it changes with one entry of the table. Where
a holder may hold a resource more than once, the count is a sum over the
holders, and `sum_change` says the same of it.
-/

namespace OsKernel

open Function

variable {H R : Type*} {held : H → Option R} {f : R} {x : H} {v : Option R}

/-- The holders of a resource. -/
def holders (held : H → Option R) (f : R) : Set H := {x | held x = some f}

@[simp] theorem mem_holders : x ∈ holders held f ↔ held x = some f := Iff.rfl

variable [DecidableEq H]

theorem holders_update_some (held : H → Option R) (x : H) (f : R) :
    holders (update held x (some f)) f = insert x (holders held f) := by
  ext y
  by_cases hy : y = x
  · subst hy
    simp
  · simp [hy]

theorem holders_update_of_ne (held : H → Option R) (x : H) (hv : v ≠ some f) :
    holders (update held x v) f = holders held f \ {x} := by
  ext y
  by_cases hy : y = x
  · subst hy
    simp [hv]
  · simp [hy]

theorem finite_holders_update (x : H) (v : Option R) (h : (holders held f).Finite) :
    (holders (update held x v) f).Finite := by
  by_cases hv : v = some f
  · subst hv
    rw [holders_update_some]
    exact h.insert x
  · rw [holders_update_of_ne held x hv]
    exact h.sdiff

/-- **One entry of the table changes.** -/
theorem ncard_holders_update [DecidableEq R] (x : H) (v : Option R) (h : (holders held f).Finite) :
    (holders (update held x v) f).ncard + (if held x = some f then 1 else 0) =
      (holders held f).ncard + if v = some f then 1 else 0 := by
  have hmem : x ∈ holders held f ↔ held x = some f := Iff.rfl
  by_cases hv : v = some f
  · subst hv
    rw [holders_update_some, if_pos rfl]
    by_cases hx : held x = some f
    · rw [if_pos hx, Set.insert_eq_of_mem (hmem.2 hx)]
    · rw [if_neg hx, Set.ncard_insert_of_notMem (mt hmem.1 hx) h, Nat.add_zero]
  · rw [holders_update_of_ne held x hv, if_neg hv]
    by_cases hx : held x = some f
    · rw [if_pos hx, Set.ncard_sdiff_singleton_add_one (hmem.2 hx) h]
      omega
    · rw [if_neg hx, Set.sdiff_singleton_eq_self (mt hmem.1 hx)]

/-- Giving up an entry makes nothing more held. -/
theorem ncard_holders_update_none_le (x : H) (h : (holders held f).Finite) :
    (holders (update held x none) f).ncard ≤ (holders held f).ncard := by
  rw [holders_update_of_ne held x (by simp)]
  exact Set.ncard_le_ncard Set.sdiff_subset h

/-- **One term of a sum changes.** -/
theorem sum_change {ι : Type*} [DecidableEq ι] {t : Finset ι} {g g' : ι → ℕ} {a : ι} (ha : a ∈ t)
    (h : ∀ b ∈ t, b ≠ a → g' b = g b) : ∑ b ∈ t, g' b + g a = ∑ b ∈ t, g b + g' a := by
  have hrest : ∑ b ∈ t.erase a, g' b = ∑ b ∈ t.erase a, g b :=
    Finset.sum_congr rfl fun b hb => h b (Finset.mem_of_mem_erase hb) (Finset.ne_of_mem_erase hb)
  have h₁ := Finset.add_sum_erase t g ha
  have h₂ := Finset.add_sum_erase t g' ha
  omega

/-- Two terms of a sum are part of it. -/
theorem add_le_sum {ι : Type*} [DecidableEq ι] {t : Finset ι} {g : ι → ℕ} {a b : ι} (ha : a ∈ t)
    (hb : b ∈ t) (hab : a ≠ b) : g a + g b ≤ ∑ c ∈ t, g c := by
  have h₁ := Finset.add_sum_erase t g ha
  have h₂ := Finset.single_le_sum (f := g) (fun _ _ => Nat.zero_le _)
    (Finset.mem_erase.2 ⟨hab.symm, hb⟩)
  omega

end OsKernel
