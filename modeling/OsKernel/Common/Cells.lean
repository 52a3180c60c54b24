import OsKernel.Common.Bitmap

/-!
# Bitmaps in an array of cells

An array of 64-bit cells, read as an array of bits. The operations are those of
`common/bitmap.h`; `get_set` and `get_clear` say that each of them touches the
one bit it names.
-/

namespace OsKernel

open Function

/-- An array of 64-bit cells. -/
abbrev Cells := ℕ → BitVec 64

namespace Cells

/-- `bitmap_get`. -/
def get (b : Cells) (index : ℕ) : Bool := (b (index / 64)).getLsbD (index % 64)

/-- `bitmap[idx] = v`. -/
def setCell (b : Cells) (idx : ℕ) (v : BitVec 64) : Cells := update b idx v

/-- `bitmap_set`. -/
def set (b : Cells) (index : ℕ) : Cells :=
  b.setCell (index / 64) (b (index / 64) ||| BitVec.twoPow 64 (index % 64))

/-- A cell without a bit. -/
def without (v : BitVec 64) (index : ℕ) : BitVec 64 := v &&& ~~~(BitVec.twoPow 64 (index % 64))

/-- `bitmap_clear`. -/
def clear (b : Cells) (index : ℕ) : Cells :=
  b.setCell (index / 64) (without (b (index / 64)) index)

/-- All bits are clear. -/
def empty : Cells := fun _ => 0

variable {b : Cells} {i j : ℕ}

theorem get_empty (i : ℕ) : empty.get i = false := BitVec.getLsbD_zero

theorem get_setCell (v : BitVec 64) : (b.setCell (i / 64) v).get j =
    if j / 64 = i / 64 then v.getLsbD (j % 64) else b.get j := by
  unfold get setCell
  split_ifs with hc
  · rw [hc, update_self]
  · rw [update_of_ne hc]

theorem get_set (b : Cells) (i j : ℕ) : (b.set i).get j = (b.get j || decide (j = i)) := by
  rw [set, get_setCell]
  split_ifs with hc
  · rw [Bytes.getLsbD_with hc, get, hc]
  · have hne : j ≠ i := fun hji => hc (by rw [hji])
    simp [hne]

theorem get_clear (b : Cells) (i j : ℕ) : (b.clear i).get j = (b.get j && !decide (j = i)) := by
  rw [clear, get_setCell]
  split_ifs with hc
  · rw [without, Bytes.getLsbD_without hc, get, hc]
  · have hne : j ≠ i := fun hji => hc (by rw [hji])
    simp [hne]

/-- Two bitmaps with the same bits are the same. -/
theorem ext_get {b' : Cells} (h : ∀ j, b.get j = b'.get j) : b = b' := by
  funext c
  refine BitVec.eq_of_getLsbD_eq fun k hk => ?_
  have hj := h (64 * c + k)
  have hdiv : (64 * c + k) / 64 = c := by omega
  have hmod : (64 * c + k) % 64 = k := by omega
  rwa [get, get, hdiv, hmod] at hj

/-- A clear bit that is set and cleared. -/
theorem clear_set (h : b.get i = false) : (b.set i).clear i = b := by
  refine ext_get fun j => ?_
  rw [get_clear, get_set]
  by_cases hj : j = i
  · subst hj
    simp [h]
  · simp [hj]

end Cells

end OsKernel
