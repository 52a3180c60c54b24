import Mathlib

/-!
# Buffers of bytes

A buffer of `n` bytes, the copy of a range into it (`splice`, what
`memmove` and `memset` do to their destination) and little-endian numbers
of any width stored in it.

A record that lies in a buffer is read with `readLE` at its fields'
offsets and written with `writeLE`; the two lemmas a codec needs are
`readLE_writeLE`, that a number is read back as it was written, and
`readLE_splice_of_disjoint`, that a copy elsewhere does not touch it.
-/

namespace OsKernel

/-- A buffer of `n` bytes. -/
def Bytes (n : ℕ) : Type := Fin n → UInt8

namespace Bytes

variable {n : ℕ}
variable {b : Bytes n} {off : ℕ}

instance : DecidableEq (Bytes n) := inferInstanceAs (DecidableEq (Fin n → UInt8))

/-- The byte at index `i`, or `0` past the end. -/
def get (b : Bytes n) (i : ℕ) : UInt8 := if h : i < n then b ⟨i, h⟩ else 0

/-- The buffer whose byte at `i` is `f i`. -/
def ofFn (f : ℕ → UInt8) : Bytes n := fun i => f i

/-- The buffer that `memset` with zero leaves. -/
def zero : Bytes n := ofFn fun _ => 0

@[simp] theorem get_ofFn {f : ℕ → UInt8} {i : ℕ} (h : i < n) :
    (ofFn f : Bytes n).get i = f i := by
  simp [get, ofFn, h]

@[simp] theorem get_zero (i : ℕ) : (zero : Bytes n).get i = 0 := by
  by_cases h : i < n
  · simp [zero, h]
  · simp [get, h]

/-- Two buffers with the same bytes are equal. -/
theorem ext_get {a : Bytes n} (h : ∀ i < n, a.get i = b.get i) : a = b := by
  funext i
  have := h i i.isLt
  simpa [get] using this

/-- `b` with the `len` bytes from `off` on replaced by `src 0, src 1, …`. -/
def splice (b : Bytes n) (off len : ℕ) (src : ℕ → UInt8) : Bytes n :=
  ofFn fun i => if off ≤ i ∧ i < off + len then src (i - off) else b.get i

theorem get_splice_of_mem {len i : ℕ} {src : ℕ → UInt8} (hi : i < n) (h : off ≤ i ∧ i < off + len) :
    (b.splice off len src).get i = src (i - off) := by
  rw [splice, get_ofFn hi, if_pos h]

theorem get_splice_of_not_mem {len i : ℕ} {src : ℕ → UInt8} (h : ¬ (off ≤ i ∧ i < off + len)) :
    (b.splice off len src).get i = b.get i := by
  by_cases hi : i < n
  · rw [splice, get_ofFn hi, if_neg h]
  · simp [get, hi]

/-! ## Little-endian numbers -/

/-- The number stored in the `w` bytes from `off` on, the least
significant byte first. -/
def readLE (b : Bytes n) (off : ℕ) : ℕ → ℕ
  | 0 => 0
  | w + 1 => readLE b off w + (b.get (off + w)).toNat * 256 ^ w

/-- Byte `t` of the little-endian form of `v`. -/
def leByte (v t : ℕ) : UInt8 := UInt8.ofNat (v / 256 ^ t)

/-- `b` with `v` stored in the `w` bytes from `off` on. -/
def writeLE (b : Bytes n) (off w v : ℕ) : Bytes n := b.splice off w (leByte v)

/-- A number reads the bytes it is stored in and no others. -/
theorem readLE_congr {a : Bytes n} {m : ℕ} {b : Bytes m} {off' w : ℕ}
    (h : ∀ t < w, a.get (off + t) = b.get (off' + t)) : readLE a off w = readLE b off' w := by
  induction w with
  | zero => rfl
  | succ w ih =>
    rw [readLE, readLE, ih fun t ht => h t (by omega), h w (by omega)]

theorem readLE_lt (b : Bytes n) (off w : ℕ) : readLE b off w < 256 ^ w := by
  induction w with
  | zero => simp [readLE]
  | succ w ih =>
    have hb : (b.get (off + w)).toNat < 256 := (b.get (off + w)).toNat_lt
    have hm : (b.get (off + w)).toNat * 256 ^ w ≤ 255 * 256 ^ w :=
      Nat.mul_le_mul_right _ (by omega)
    rw [readLE, pow_succ]
    omega

/-- **Bytes that spell a number read as that number.** -/
theorem readLE_of_leByte {w v : ℕ} (h : ∀ t < w, b.get (off + t) = leByte v t) :
    readLE b off w = v % 256 ^ w := by
  induction w with
  | zero => simp [readLE, Nat.mod_one]
  | succ w ih =>
    have hbyte : (leByte v w).toNat = v / 256 ^ w % 256 := UInt8.toNat_ofNat'
    rw [readLE, ih fun t ht => h t (by omega), h w (by omega), hbyte, Nat.mod_pow_succ,
      Nat.mul_comm (256 ^ w)]

/-- **A number is read back as it was written**, up to its width. -/
theorem readLE_writeLE {w v : ℕ} (h : off + w ≤ n) :
    readLE (b.writeLE off w v) off w = v % 256 ^ w := by
  refine readLE_of_leByte fun t ht => ?_
  rw [writeLE, get_splice_of_mem (by omega) (by omega), Nat.add_sub_cancel_left]

/-- **A copy elsewhere leaves a stored number alone.** -/
theorem readLE_splice_of_disjoint {len off' w : ℕ} {src : ℕ → UInt8}
    (h : off' + w ≤ off ∨ off + len ≤ off') :
    readLE (b.splice off len src) off' w = readLE b off' w :=
  readLE_congr fun t ht => get_splice_of_not_mem (by omega)

/-- The same, for a number stored elsewhere. -/
theorem readLE_writeLE_of_disjoint {w v off' w' : ℕ} (h : off' + w' ≤ off ∨ off + w ≤ off') :
    readLE (b.writeLE off w v) off' w' = readLE b off' w' :=
  readLE_splice_of_disjoint h

@[simp] theorem readLE_zero (off w : ℕ) : readLE (zero : Bytes n) off w = 0 := by
  induction w with
  | zero => rfl
  | succ w ih => simp [readLE, ih]

end Bytes

end OsKernel
