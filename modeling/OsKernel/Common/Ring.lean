import Mathlib

/-!
# Rings

A ring of `size` cells between a reading and a writing position. The
positions only grow; the cell of a position is its remainder by the size,
so that positions may also be kept modulo any multiple of it.
-/

namespace OsKernel.Ring

open Function

variable {α : Type*} {size lo len M : ℕ} {data : ℕ → α}

/-- What lies in the `len` cells from position `lo` on. -/
def contents (size : ℕ) (data : ℕ → α) (lo len : ℕ) : List α :=
  (List.range len).map fun k => data ((lo + k) % size)

@[simp] theorem length_contents : (contents size data lo len).length = len := by
  simp [contents]

/-- Storing behind the last cell. -/
theorem contents_push (h : len < size) (b : α) :
    contents size (update data ((lo + len) % size) b) lo (len + 1) =
      contents size data lo len ++ [b] := by
  unfold contents
  rw [List.range_succ, List.map_append, List.map_singleton, update_self]
  congr 1
  refine List.map_congr_left fun k hk => update_of_ne (fun heq => ?_) _ _
  -- two positions less than `size` apart lie in different cells
  have hk := List.mem_range.1 hk
  have hmod : Nat.ModEq size (lo + k) (lo + len) := heq
  have hdvd := (Nat.modEq_iff_dvd' (by omega)).1 hmod
  rw [Nat.add_sub_add_left] at hdvd
  exact absurd (Nat.le_of_dvd (by omega) hdvd) (by omega)

/-- Taking the first cell. -/
theorem contents_pop :
    contents size data lo (len + 1) = data (lo % size) :: contents size data (lo + 1) len := by
  unfold contents
  rw [List.range_succ_eq_map, List.map_cons, List.map_map, Nat.add_zero]
  congr 1
  refine List.map_congr_left fun k _ => ?_
  simp only [Function.comp_apply, Nat.succ_eq_add_one]
  congr 2
  omega

/-- The cells are those up to a position and those from there on. -/
theorem contents_add (size : ℕ) (data : ℕ → α) (lo len len' : ℕ) :
    contents size data lo (len + len') =
      contents size data lo len ++ contents size data (lo + len) len' := by
  unfold contents
  rw [List.range_add, List.map_append, List.map_map]
  congr 1
  refine List.map_congr_left fun k _ => ?_
  simp only [Function.comp_apply, Nat.add_assoc]

/-- A position may be kept modulo a multiple of the size. -/
theorem contents_mod (h : size ∣ M) :
    contents size data (lo % M) len = contents size data lo len := by
  unfold contents
  refine List.map_congr_left fun k _ => ?_
  congr 1
  rw [Nat.add_mod, Nat.mod_mod_of_dvd lo h, ← Nat.add_mod]

end OsKernel.Ring
