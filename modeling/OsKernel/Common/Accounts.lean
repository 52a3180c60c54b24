import Mathlib

/-!
# Accounts

Two ways to keep the account of a quantity that many parties draw from.
`Consecutive a l b` says that the ranges of `l` follow one another from
`a` to `b`, so that they are disjoint and their lengths sum to the
distance. `tally l k` is what the entries of `l` with key `k` sum to, and
two lists with the same tallies have the same sum (`sum_eq_of_tally`).
-/

namespace OsKernel

/-! ## Ranges that follow one another -/

/-- The ranges `(start, length)` of the list follow one another, from `a`
to `b`. -/
def Consecutive : ℕ → List (ℕ × ℕ) → ℕ → Prop
  | a, [], b => a = b
  | a, r :: l, b => r.1 = a ∧ Consecutive (a + r.2) l b

/-- The positions of a range. -/
def span (r : ℕ × ℕ) : Finset ℕ := Finset.Ico r.1 (r.1 + r.2)

namespace Consecutive

variable {a b n : ℕ} {r : ℕ × ℕ} {l : List (ℕ × ℕ)}

/-- One more range, at the end. -/
theorem snoc (h : Consecutive a l b) (n : ℕ) : Consecutive a (l ++ [(b, n)]) (b + n) := by
  induction l generalizing a with
  | nil =>
    obtain rfl : a = b := h
    exact ⟨rfl, rfl⟩
  | cons r l ih => exact ⟨h.1, ih h.2⟩

/-- The lengths sum to the distance. -/
theorem add_sum (h : Consecutive a l b) : a + (l.map Prod.snd).sum = b := by
  induction l generalizing a with
  | nil => exact h
  | cons r l ih =>
    rw [List.map_cons, List.sum_cons, ← Nat.add_assoc]
    exact ih h.2

/-- Each range lies between the ends. -/
theorem between (h : Consecutive a l b) (hr : r ∈ l) : a ≤ r.1 ∧ r.1 + r.2 ≤ b := by
  induction l generalizing a with
  | nil => cases hr
  | cons r' l ih =>
    obtain ⟨rfl, h⟩ := h
    have hsum := h.add_sum
    rcases List.mem_cons.1 hr with rfl | hr
    · omega
    · obtain ⟨h₁, h₂⟩ := ih h hr
      omega

/-- **No two of the ranges overlap.** -/
theorem pairwise_disjoint (h : Consecutive a l b) :
    l.Pairwise fun r r' => Disjoint (span r) (span r') := by
  induction l generalizing a with
  | nil => exact List.Pairwise.nil
  | cons r l ih =>
    obtain ⟨rfl, h⟩ := h
    refine List.Pairwise.cons (fun r' hr' => Finset.disjoint_left.2 fun x hx hx' => ?_) (ih h)
    have := (h.between hr').1
    simp only [span, Finset.mem_Ico] at hx hx'
    omega

end Consecutive

/-! ## Sums by key -/

section Tally

variable {K : Type*} [DecidableEq K] {l l' : List (K × ℕ)}

/-- What the entries with key `k` sum to. -/
def tally (l : List (K × ℕ)) (k : K) : ℕ := ((l.filter (·.1 = k)).map Prod.snd).sum

@[simp] theorem tally_nil (k : K) : tally [] k = 0 := rfl

theorem tally_cons (x : K × ℕ) (l : List (K × ℕ)) (k : K) :
    tally (x :: l) k = (if x.1 = k then x.2 else 0) + tally l k := by
  by_cases h : x.1 = k <;> simp [tally, h]

@[simp] theorem tally_append (l l' : List (K × ℕ)) (k : K) :
    tally (l ++ l') k = tally l k + tally l' k := by
  simp [tally]

theorem tally_singleton (k k' : K) (n : ℕ) : tally [(k, n)] k' = if k' = k then n else 0 := by
  rw [tally_cons, tally_nil, Nat.add_zero]
  exact if_congr eq_comm rfl rfl

/-- The tallies of all keys make up the sum. -/
theorem sum_tally {S : Finset K} (h : ∀ x ∈ l, x.1 ∈ S) :
    ∑ k ∈ S, tally l k = (l.map Prod.snd).sum := by
  induction l with
  | nil => simp
  | cons x l ih =>
    have hx : x.1 ∈ S := h x List.mem_cons_self
    simp only [tally_cons, Finset.sum_add_distrib, Finset.sum_ite_eq, if_pos hx,
      List.map_cons, List.sum_cons]
    rw [ih fun y hy => h y (List.mem_cons_of_mem _ hy)]

/-- **Equal tallies, equal sums.** -/
theorem sum_eq_of_tally (h : ∀ k, tally l k = tally l' k) :
    (l.map Prod.snd).sum = (l'.map Prod.snd).sum := by
  have hmem : ∀ {l₁ : List (K × ℕ)} {x}, x ∈ l₁ → x.1 ∈ (l₁.map Prod.fst).toFinset := by
    intro l₁ x hx
    exact List.mem_toFinset.2 (List.mem_map_of_mem hx)
  let S := (l.map Prod.fst).toFinset ∪ (l'.map Prod.fst).toFinset
  calc (l.map Prod.snd).sum
      = ∑ k ∈ S, tally l k := (sum_tally fun _ hx => Finset.mem_union_left _ (hmem hx)).symm
    _ = ∑ k ∈ S, tally l' k := Finset.sum_congr rfl fun k _ => h k
    _ = (l'.map Prod.snd).sum := sum_tally fun _ hx => Finset.mem_union_right _ (hmem hx)

end Tally

end OsKernel
