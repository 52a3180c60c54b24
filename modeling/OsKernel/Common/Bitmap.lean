import OsKernel.Common.Bytes

/-!
# Bitmaps in a buffer

An array of 64-bit cells that lies in a buffer of bytes, least significant
byte first, read as an array of bits. The three operations are those of
`common/bitmap.h`; `bitmapGet_bitmapSet` and `bitmapGet_bitmapClear` say
that each of them touches the one bit it names, and `bitmapGet_eq_testBit`
where that bit lies in the bytes.
-/

namespace OsKernel.Bytes

variable {n : ℕ}
variable {b : Bytes n} {i : ℕ}

/-- `BITMAP_BITS_PER_CELL`. -/
abbrev bitsPerCell : ℕ := 64

/-- `bitmap[idx]`. -/
def cell (b : Bytes n) (idx : ℕ) : BitVec 64 := BitVec.ofNat 64 (b.readLE (8 * idx) 8)

/-- The assignment `bitmap[idx] = v`. -/
def setCell (b : Bytes n) (idx : ℕ) (v : BitVec 64) : Bytes n := b.writeLE (8 * idx) 8 v.toNat

/-- `bitmap_get`. -/
def bitmapGet (b : Bytes n) (index : ℕ) : Bool :=
  (b.cell (index / bitsPerCell)).getLsbD (index % bitsPerCell)

/-- `bitmap_set`. -/
def bitmapSet (b : Bytes n) (index : ℕ) : Bytes n :=
  b.setCell (index / bitsPerCell)
    (b.cell (index / bitsPerCell) ||| BitVec.twoPow 64 (index % bitsPerCell))

/-- `bitmap_clear`. -/
def bitmapClear (b : Bytes n) (index : ℕ) : Bytes n :=
  b.setCell (index / bitsPerCell)
    (b.cell (index / bitsPerCell) &&& ~~~(BitVec.twoPow 64 (index % bitsPerCell)))

theorem cell_setCell_self {idx : ℕ} {v : BitVec 64} (h : 8 * idx + 8 ≤ n) :
    (b.setCell idx v).cell idx = v := by
  have hv : v.toNat < 256 ^ 8 := by
    have := v.isLt
    norm_num at this ⊢
    exact this
  rw [cell, setCell, readLE_writeLE h, Nat.mod_eq_of_lt hv, BitVec.ofNat_toNat,
    BitVec.setWidth_eq]

theorem cell_setCell_of_ne {idx idx' : ℕ} {v : BitVec 64} (h : idx' ≠ idx) :
    (b.setCell idx v).cell idx' = b.cell idx' := by
  rw [cell, setCell, readLE_writeLE_of_disjoint (by omega), cell]

/-- Indices of one cell are told apart by their bits. -/
theorem eq_iff_mod {j : ℕ} (h : j / bitsPerCell = i / bitsPerCell) :
    j = i ↔ j % bitsPerCell = i % bitsPerCell := by
  simp only [bitsPerCell] at *
  omega

/-- A cell with the bit of index `i`. -/
theorem getLsbD_with {j : ℕ} (h : j / bitsPerCell = i / bitsPerCell) (v : BitVec 64) :
    (v ||| BitVec.twoPow 64 (i % bitsPerCell)).getLsbD (j % bitsPerCell) =
      (v.getLsbD (j % bitsPerCell) || decide (j = i)) := by
  have hlt : i % bitsPerCell < 64 := Nat.mod_lt _ (by decide)
  rw [BitVec.getLsbD_or, BitVec.getLsbD_twoPow]
  simp only [eq_iff_mod h, hlt, decide_true, Bool.true_and, eq_comm]

/-- A cell without the bit of index `i`. -/
theorem getLsbD_without {j : ℕ} (h : j / bitsPerCell = i / bitsPerCell) (v : BitVec 64) :
    (v &&& ~~~(BitVec.twoPow 64 (i % bitsPerCell))).getLsbD (j % bitsPerCell) =
      (v.getLsbD (j % bitsPerCell) && !decide (j = i)) := by
  have hlt : i % bitsPerCell < 64 := Nat.mod_lt _ (by decide)
  have hlt' : j % bitsPerCell < 64 := Nat.mod_lt _ (by decide)
  rw [BitVec.getLsbD_and, BitVec.getLsbD_not, BitVec.getLsbD_twoPow]
  simp only [eq_iff_mod h, hlt, hlt', decide_true, Bool.true_and, eq_comm]

theorem bitmapGet_setCell (hi : i / 8 < n) (hn : n % 8 = 0) (v : BitVec 64) (j : ℕ) :
    (b.setCell (i / bitsPerCell) v).bitmapGet j =
      if j / bitsPerCell = i / bitsPerCell then v.getLsbD (j % bitsPerCell)
      else b.bitmapGet j := by
  have hfit : 8 * (i / bitsPerCell) + 8 ≤ n := by simp only [bitsPerCell]; omega
  unfold bitmapGet
  split_ifs with hc
  · rw [hc, cell_setCell_self hfit]
  · rw [cell_setCell_of_ne hc]

theorem bitmapGet_bitmapSet (hi : i / 8 < n) (hn : n % 8 = 0) (j : ℕ) :
    (b.bitmapSet i).bitmapGet j = (b.bitmapGet j || decide (j = i)) := by
  rw [bitmapSet, bitmapGet_setCell hi hn]
  split_ifs with hc
  · rw [getLsbD_with hc, bitmapGet, hc]
  · have hne : j ≠ i := fun he => hc (by rw [he])
    simp [hne]

theorem bitmapGet_bitmapClear (hi : i / 8 < n) (hn : n % 8 = 0) (j : ℕ) :
    (b.bitmapClear i).bitmapGet j = (b.bitmapGet j && !decide (j = i)) := by
  rw [bitmapClear, bitmapGet_setCell hi hn]
  split_ifs with hc
  · rw [getLsbD_without hc, bitmapGet, hc]
  · have hne : j ≠ i := fun he => hc (by rw [he])
    simp [hne]

theorem testBit_readLE (b : Bytes n) (off : ℕ) : ∀ {w t : ℕ}, t < 8 * w →
    (b.readLE off w).testBit t = (b.get (off + t / 8)).toNat.testBit (t % 8) := by
  intro w
  induction w with
  | zero => intro t ht; omega
  | succ w ih =>
    intro t ht
    have hlt : b.readLE off w < 2 ^ (8 * w) := by
      have := readLE_lt b off w
      rwa [show (256 : ℕ) = 2 ^ 8 by norm_num, ← pow_mul] at this
    have hsum : b.readLE off (w + 1) =
        2 ^ (8 * w) * (b.get (off + w)).toNat + b.readLE off w := by
      rw [readLE, pow_mul]
      norm_num
      ring
    rw [hsum, Nat.testBit_two_pow_mul_add _ hlt]
    by_cases hlow : t < 8 * w
    · rw [if_pos hlow, ih hlow]
    · rw [if_neg hlow, show t / 8 = w by omega, show t % 8 = t - 8 * w by omega]

theorem bitmapGet_eq_testBit (b : Bytes n) (i : ℕ) :
    b.bitmapGet i = (b.get (i / 8)).toNat.testBit (i % 8) := by
  have hlt : i % bitsPerCell < 64 := Nat.mod_lt _ (by decide)
  rw [bitmapGet, cell, BitVec.getLsbD_ofNat, testBit_readLE b _ (by omega)]
  simp only [hlt, decide_true, Bool.true_and, bitsPerCell]
  rw [show 8 * (i / 64) + i % 64 / 8 = i / 8 by omega, show i % 64 % 8 = i % 8 by omega]

end OsKernel.Bytes
