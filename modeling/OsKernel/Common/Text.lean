import OsKernel.Common.Update

/-!
# Moved bytes and printed numbers

`memmove` of `common/string.c` and `_print_int` of `common/format.c`. Where its
ranges overlap, `memmove` copies in the direction that reads each byte before it
is overwritten.
-/

namespace OsKernel

open Function

/-! ## `memmove` -/

/-- `while (n-- > 0) *--d = *--s`, from the ends of the ranges. -/
def copyDown (d s : ℕ) : ℕ → (ℕ → UInt8) → ℕ → UInt8
  | 0, m => m
  | n + 1, m => copyDown d s n (update m (d + n) (m (s + n)))

/-- `while (n-- > 0) *d++ = *s++`. -/
def copyUp : (d s n : ℕ) → (ℕ → UInt8) → ℕ → UInt8
  | _, _, 0, m => m
  | d, s, n + 1, m => copyUp (d + 1) (s + 1) n (update m d (m s))

/-- `memmove(d, s, n)`. -/
def memmove (d s n : ℕ) (m : ℕ → UInt8) : ℕ → UInt8 :=
  if s < d ∧ d - s < n then copyDown d s n m else copyUp d s n m

variable {d s a : ℕ}

theorem copyDown_apply (hlt : s < d) (n : ℕ) (m : ℕ → UInt8) :
    copyDown d s n m a = if d ≤ a ∧ a < d + n then m (s + (a - d)) else m a := by
  induction n generalizing m with
  | zero => rw [copyDown, if_neg (by omega)]
  | succ n ih =>
    -- the byte just stored lies above all that are still to be read
    rw [copyDown, ih, update_apply, update_apply]
    grind

theorem copyUp_apply (n : ℕ) (m : ℕ → UInt8) (hds : d ≤ s ∨ s + n ≤ d) :
    copyUp d s n m a = if d ≤ a ∧ a < d + n then m (s + (a - d)) else m a := by
  induction n generalizing d s m with
  | zero => rw [copyUp, if_neg (by omega)]
  | succ n ih =>
    rw [copyUp, ih _ (by omega), update_apply, update_apply]
    grind

/-- **`memmove` copies what was there before**, and leaves the rest. -/
theorem memmove_copies (d s n : ℕ) (m : ℕ → UInt8) (a : ℕ) :
    memmove d s n m a = if d ≤ a ∧ a < d + n then m (s + (a - d)) else m a := by
  by_cases hover : s < d ∧ d - s < n
  · rw [memmove, if_pos hover, copyDown_apply hover.1]
  · rw [memmove, if_neg hover, copyUp_apply n m (by omega)]

/-! ## `_print_int` -/

/-- `*pos++ = digit[v % base]` until `v /= base` is zero, with room for `k`
characters in `buf`. -/
def fillDigits (base : ℕ) : (k v : ℕ) → (buf : List Char) → Option (List Char)
  | 0, _, _ => none
  | k + 1, v, buf =>
    let buf := Nat.digitChar (v % base) :: buf
    if v / base = 0 then some buf else fillDigits base k (v / base) buf

/-- `_print_int`: the characters in the order in which they are put. -/
def printInt (u : ℤ) (base : ℕ) (isSigned : Bool) : Option (List Char) :=
  let v := (u % 2 ^ 64).toNat
  if isSigned ∧ u < 0 then (fillDigits base 64 ((2 ^ 64 - v) % 2 ^ 64) []).map ('-' :: ·)
  else fillDigits base 64 v []

theorem fillDigits_eq {base k v : ℕ} {buf : List Char} (hb : 1 < base) (hk : 0 < k)
    (hv : v < base ^ k) : fillDigits base k v buf = some (Nat.toDigits base v ++ buf) := by
  induction k generalizing v buf with
  | zero => cases hk
  | succ k ih =>
    rw [fillDigits, Nat.toDigits_eq_if hb]
    by_cases hlt : v < base
    · simp [hlt, Nat.div_eq_of_lt, Nat.mod_eq_of_lt]
    · have hk : 0 < k := Nat.pos_of_ne_zero (by rintro rfl; simp at hv; omega)
      have hdiv : v / base < base ^ k := Nat.div_lt_of_lt_mul (by rwa [← Nat.pow_succ'])
      simp [hlt, ih hk hdiv, Nat.div_eq_zero_iff, show base ≠ 0 by omega]

/-- **Printed numbers can be read back**, and `buf` is long enough for them:
`%lld` gives the numeral of `u`, the least one included, and the formats without
a sign give the digits of `u` as a `u64`. -/
theorem printInt_exact {u : ℤ} (hlo : -2 ^ 63 ≤ u) (hhi : u < 2 ^ 63) :
    (∃ str, (printInt u 10 true).map String.ofList = some str ∧ str.toInt? = some u) ∧
    ∀ base, 1 < base → base ≤ 16 →
      printInt u base false = some (Nat.toDigits base (u % 2 ^ 64).toNat) := by
  have hfill : ∀ base, 1 < base → ∀ v < 2 ^ 64,
      fillDigits base 64 v [] = some (Nat.toDigits base v) := fun base hb v hv => by
    rw [fillDigits_eq hb (by decide) (hv.trans_le (Nat.pow_le_pow_left hb 64)), List.append_nil]
  refine ⟨⟨u.repr, ?_, Int.toInt?_repr u⟩, fun base hb _ => ?_⟩
  · rw [Int.repr_eq_if, Nat.repr_eq_ofList_toDigits, Nat.repr_eq_ofList_toDigits]
    by_cases hneg : u < 0
    · have habs : (2 ^ 64 - (u % 2 ^ 64).toNat) % 2 ^ 64 = (-u).toNat := by omega
      rw [printInt, if_pos ⟨rfl, hneg⟩, habs, hfill 10 (by decide) _ (by omega), if_neg (by omega)]
      simp [String.ofList_cons]
    · have habs : (u % 2 ^ 64).toNat = u.toNat := by omega
      rw [printInt, if_neg (by omega), habs, hfill 10 (by decide) _ (by omega), if_pos (by omega)]
      rfl
  · rw [printInt, if_neg (by simp), hfill base hb _ (by omega)]

/-- The least `i64`. -/
theorem printInt_exact_least : ∃ str, (printInt (-2 ^ 63) 10 true).map String.ofList = some str ∧
    str.toInt? = some (-2 ^ 63) :=
  (printInt_exact (by decide) (by decide)).1

end OsKernel
