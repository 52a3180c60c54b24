import Mathlib

/-!
# Locks

`Excludes inside holder` says that exactly the holder of a lock is inside
the code that the lock protects, where `inside` reads it off the program
counters. An acquisition and a release change one entry of `inside` and
the holder together.
-/

namespace OsKernel

open Function

variable {K : Type*} {inside : K → Bool} {holder : Option K} {k k' : K}

/-- Exactly the holder is inside. -/
def Excludes (inside : K → Bool) (holder : Option K) : Prop :=
  ∀ k, inside k = true ↔ holder = some k

namespace Excludes

theorem none_iff : Excludes inside none ↔ ∀ k, inside k = false := by
  simp [Excludes]

theorem of_inside (h : Excludes inside holder) (hk : inside k = true) : holder = some k := (h k).1 hk

/-- Who is not the holder is outside. -/
theorem outside (h : Excludes inside (some k)) (hne : k' ≠ k) : inside k' = false := by
  rw [Bool.eq_false_iff]
  intro hk
  exact hne (Option.some.inj (h.of_inside hk)).symm

/-- Two that are inside are the same. -/
theorem eq_of_inside (h : Excludes inside holder) (hk : inside k = true) (hk' : inside k' = true) :
    k = k' :=
  Option.some.inj ((h.of_inside hk).symm.trans (h.of_inside hk'))

variable [DecidableEq K]

/-- An acquisition. -/
theorem acquire (h : Excludes inside none) (k : K) :
    Excludes (update inside k true) (some k) := by
  intro k'
  by_cases hk : k' = k
  · subst hk
    simp
  · simp [hk, none_iff.1 h k', Ne.symm hk]

/-- A release. -/
theorem release (h : Excludes inside (some k)) : Excludes (update inside k false) none := by
  rw [none_iff]
  intro k'
  by_cases hk : k' = k
  · subst hk
    simp
  · simp [hk, h.outside hk]

/-- A move that neither enters nor leaves. -/
theorem stay {v : Bool} (h : Excludes inside holder) (hk : inside k = v) :
    Excludes (update inside k v) holder := by
  rw [← hk, update_eq_self]
  exact h

end Excludes

end OsKernel
