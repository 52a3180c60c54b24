import Mathlib

/-!
# Tables with free slots

A table is a list of slots, each of which is free or binds a key to a
value. A key is looked for from the front, a new key gets the first free
slot or one more at the end, and removing a key leaves its slot free. As
long as no key has two slots (`Unique`), this is a map from keys to slots
and values (`Unique.find_put`, `Unique.find_clear`), and an operation on one
key leaves the slots of all others as they are.

`values` are the values that are bound, slot after slot; how many of them have
some property changes by one with each operation (`countP_values_put`,
`countP_values_clear`).
-/

namespace OsKernel

/-- Slots that are free or bind a key to a value. -/
abbrev SlotTable (K V : Type*) : Type _ := List (Option (K × V))

namespace SlotTable

variable {K V : Type*} {k k' : K} {v w : V} {i j : ℕ}

/-- The first free slot, or the end of the table, counted from `i`. -/
def freeFrom : ℕ → SlotTable K V → ℕ
  | i, [] => i
  | i, none :: _ => i
  | i, some _ :: l => freeFrom (i + 1) l

/-- Changes slot `i`, which may be one more at the end. -/
def put (l : SlotTable K V) (i : ℕ) (x : Option (K × V)) : SlotTable K V :=
  if i < l.length then l.set i x else l ++ [x]

/-- No key has two slots. -/
def Unique (l : SlotTable K V) : Prop :=
  ∀ (i j : ℕ) (k : K) (v w : V), l[i]? = some (some (k, v)) → l[j]? = some (some (k, w)) → i = j

variable {l : SlotTable K V} {x : Option (K × V)}

theorem getElem?_put (h : i ≤ l.length) : (l.put i x)[j]? = if j = i then some x else l[j]? := by
  unfold put
  split_ifs with hi hj hj
  · rw [hj, List.getElem?_set_self hi]
  · rw [List.getElem?_set_ne (Ne.symm hj)]
  · obtain rfl : i = l.length := by omega
    rw [hj, List.getElem?_concat_length]
  · obtain rfl : i = l.length := by omega
    rcases Nat.lt_or_ge j l.length with hlt | hge
    · rw [List.getElem?_append_left hlt]
    · rw [List.getElem?_eq_none (by simp; omega), List.getElem?_eq_none hge]

/-- The free slot is in the table, or the next one. -/
theorem freeFrom_le : ∀ (i : ℕ) (l : SlotTable K V), i ≤ freeFrom i l ∧ freeFrom i l ≤ i + l.length
  | i, [] => ⟨Nat.le_refl i, Nat.le_refl i⟩
  | i, none :: l => ⟨Nat.le_refl i, by simp [freeFrom]⟩
  | i, some _ :: l => by
    have ih := freeFrom_le (i + 1) l
    simp only [freeFrom, List.length_cons]
    omega

/-- Nothing is bound in the free slot. -/
theorem getElem?_freeFrom : ∀ (i : ℕ) (l : SlotTable K V),
    l[freeFrom i l - i]? = none ∨ l[freeFrom i l - i]? = some none
  | i, [] => Or.inl rfl
  | i, none :: l => Or.inr (by simp [freeFrom])
  | i, some _ :: l => by
    have hle := (freeFrom_le (i + 1) l).1
    have heq : freeFrom (i + 1) l - i = (freeFrom (i + 1) l - (i + 1)) + 1 := by omega
    simp only [freeFrom, heq, List.getElem?_cons_succ]
    exact getElem?_freeFrom (i + 1) l

theorem freeFrom_eq_add : ∀ (i : ℕ) (l : SlotTable K V), freeFrom i l = i + freeFrom 0 l
  | _, [] => rfl
  | _, none :: _ => rfl
  | i, some _ :: l => by
    rw [freeFrom, freeFrom, freeFrom_eq_add (i + 1) l, freeFrom_eq_add (0 + 1) l]
    omega

theorem put_cons_succ (y : Option (K × V)) : put (y :: l) (i + 1) x = y :: put l i x := by
  unfold put
  simp only [List.length_cons, Nat.add_lt_add_iff_right]
  split_ifs <;> rfl

/-- What is bound after a slot is made free was bound before. -/
theorem getElem?_of_clear (h : (l.put i none)[j]? = some (some (k, v))) :
    l[j]? = some (some (k, v)) := by
  unfold put at h
  split_ifs at h
  · rw [List.getElem?_set] at h
    split_ifs at h <;> simp_all
  · rcases Nat.lt_or_ge j l.length with hlt | hge
    · rwa [List.getElem?_append_left hlt] at h
    · rw [List.getElem?_append_right hge, List.getElem?_singleton] at h
      split_ifs at h
      cases h

/-! ## The values that are bound -/

/-- The values that are bound, slot after slot. -/
def values (l : SlotTable K V) : List V := l.filterMap (Option.map Prod.snd)

@[simp] theorem values_cons_none : values (none :: l) = values l := rfl

@[simp] theorem values_cons_some : values (some (k, v) :: l) = v :: values l := rfl

theorem mem_values : v ∈ values l ↔ ∃ (i : ℕ) (k : K), l[i]? = some (some (k, v)) := by
  simp only [values, List.mem_filterMap, Option.map_eq_some_iff]
  constructor
  · rintro ⟨a, ha, ⟨k, w⟩, rfl, rfl⟩
    obtain ⟨i, hi⟩ := List.mem_iff_getElem?.1 ha
    exact ⟨i, k, hi⟩
  · rintro ⟨i, k, hi⟩
    exact ⟨some (k, v), List.mem_of_getElem? hi, (k, v), rfl, rfl⟩

/-- **A new value** in the first free slot. -/
theorem countP_values_put (q : V → Bool) (k : K) (v : V) : ∀ l : SlotTable K V,
    (values (l.put (freeFrom 0 l) (some (k, v)))).countP q =
      (values l).countP q + if q v then 1 else 0
  | [] => by simp [freeFrom, put, List.countP_cons]
  | none :: l => by simp [freeFrom, put, List.countP_cons]
  | some (k', w) :: l => by
    have ih := countP_values_put q k v l
    rw [freeFrom, freeFrom_eq_add, Nat.zero_add, Nat.add_comm 1, put_cons_succ, values_cons_some,
      values_cons_some, List.countP_cons, List.countP_cons, ih]
    omega

/-- **A value is removed** with its slot. -/
theorem countP_values_clear (q : V → Bool) : ∀ {l : SlotTable K V} {i : ℕ},
    l[i]? = some (some (k, v)) →
    (values (l.put i none)).countP q + (if q v then 1 else 0) = (values l).countP q
  | y :: l, 0, h => by
    obtain rfl : y = some (k, v) := by simpa using h
    simp [put, List.countP_cons]
  | y :: l, i + 1, h => by
    have ih := countP_values_clear q (l := l) (i := i) (by simpa using h)
    rw [put_cons_succ]
    cases y with
    | none => exact ih
    | some y =>
      rw [values_cons_some, values_cons_some, List.countP_cons, List.countP_cons, ← ih]
      omega

section Find

variable [DecidableEq K]

/-- The first slot that binds `k`, counted from `i`, and its value. -/
def findFrom (k : K) : ℕ → SlotTable K V → Option (ℕ × V)
  | _, [] => none
  | i, none :: l => findFrom k (i + 1) l
  | i, some (k', v) :: l => if k' = k then some (i, v) else findFrom k (i + 1) l

/-- The slot that binds `k`, and its value. -/
def find (l : SlotTable K V) (k : K) : Option (ℕ × V) := findFrom k 0 l

theorem findFrom_eq_some : ∀ {i : ℕ} {l : SlotTable K V}, findFrom k i l = some (j, v) →
    i ≤ j ∧ l[j - i]? = some (some (k, v))
  | i, none :: l, h => by
    obtain ⟨hle, hget⟩ := findFrom_eq_some (i := i + 1) (l := l) h
    have heq : j - i = (j - (i + 1)) + 1 := by omega
    exact ⟨by omega, by rw [heq, List.getElem?_cons_succ]; exact hget⟩
  | i, some (k', v') :: l, h => by
    rw [findFrom] at h
    split_ifs at h with hk
    · obtain ⟨rfl, rfl⟩ : i = j ∧ v' = v := by simpa using h
      exact ⟨Nat.le_refl i, by simp [hk]⟩
    · obtain ⟨hle, hget⟩ := findFrom_eq_some h
      have heq : j - i = (j - (i + 1)) + 1 := by omega
      exact ⟨by omega, by rw [heq, List.getElem?_cons_succ]; exact hget⟩

theorem ne_of_findFrom_eq_none : ∀ {i : ℕ} {l : SlotTable K V}, findFrom k i l = none →
    ∀ (j : ℕ) (v : V), l[j]? ≠ some (some (k, v))
  | _, [], _, _, _ => by simp
  | i, none :: l, h, j, v => by
    cases j with
    | zero => simp
    | succ j =>
      rw [List.getElem?_cons_succ]
      exact ne_of_findFrom_eq_none (i := i + 1) (l := l) h j v
  | i, some (k', v') :: l, h, j, v => by
    rw [findFrom] at h
    split_ifs at h with hk
    cases j with
    | zero => simp [hk]
    | succ j =>
      rw [List.getElem?_cons_succ]
      exact ne_of_findFrom_eq_none h j v

theorem find_eq_some (h : l.find k = some (i, v)) : l[i]? = some (some (k, v)) :=
  (findFrom_eq_some h).2

theorem find_eq_none_iff : l.find k = none ↔ ∀ (j : ℕ) (v : V), l[j]? ≠ some (some (k, v)) := by
  refine ⟨fun h => ne_of_findFrom_eq_none h, fun h => ?_⟩
  cases hf : l.find k with
  | none => rfl
  | some r => exact absurd (find_eq_some hf) (h r.1 r.2)

/-- **Where no key has two slots, the slot found is the one that binds the
key.** -/
theorem Unique.find_eq_some_iff (h : l.Unique) :
    l.find k = some (i, v) ↔ l[i]? = some (some (k, v)) := by
  refine ⟨find_eq_some, fun hi => ?_⟩
  cases hf : l.find k with
  | none => exact absurd hi (find_eq_none_iff.1 hf i v)
  | some r =>
    have hr := find_eq_some (i := r.1) (v := r.2) hf
    obtain hij := h r.1 i k r.2 v hr hi
    rw [hij, hi] at hr
    have hv : v = r.2 := by simpa using hr
    rw [hv, ← hij]

/-- What is bound in two tables is the same if they have the same slots for
the key. -/
theorem Unique.find_congr {l' : SlotTable K V} (h : l.Unique) (h' : l'.Unique)
    (hget : ∀ (i : ℕ) (v : V), l'[i]? = some (some (k, v)) ↔ l[i]? = some (some (k, v))) :
    l'.find k = l.find k := by
  cases hf : l.find k with
  | none =>
    rw [find_eq_none_iff] at hf ⊢
    exact fun j v hj => hf j v ((hget j v).1 hj)
  | some r =>
    exact h'.find_eq_some_iff.2 ((hget r.1 r.2).2 (h.find_eq_some_iff.1 hf))

/-- A slot where nothing is bound. -/
def Free (l : SlotTable K V) (i : ℕ) : Prop := i ≤ l.length ∧ ∀ k v, l[i]? ≠ some (some (k, v))

omit [DecidableEq K] in
theorem free_freeFrom (l : SlotTable K V) : l.Free (freeFrom 0 l) := by
  have hle := (freeFrom_le 0 l).2
  refine ⟨by omega, fun k v hkv => ?_⟩
  rcases getElem?_freeFrom 0 l with hn | hn <;> rw [Nat.sub_zero, hkv] at hn <;> simp at hn

/-- **A key that has no slot gets a free one.** -/
theorem Unique.put (h : l.Unique) (hi : l.Free i) (hk : l.find k = none) :
    (l.put i (some (k, v))).Unique := by
  have hnone := find_eq_none_iff.1 hk
  intro a b c u w ha hb
  rw [getElem?_put hi.1] at ha hb
  split_ifs at ha hb with hai hbi
  · rw [hai, hbi]
  · obtain rfl : k = c := (by simpa using ha : k = c ∧ v = u).1
    exact absurd hb (hnone b w)
  · rename_i hbi
    obtain rfl : k = c := (by simpa using hb : k = c ∧ v = w).1
    exact absurd ha (hnone a u)
  · exact h a b c u w ha hb

theorem Unique.find_put (h : l.Unique) (hi : l.Free i) (hk : l.find k = none) (k' : K) :
    (l.put i (some (k, v))).find k' = if k' = k then some (i, v) else l.find k' := by
  have hu := h.put (v := v) hi hk
  split_ifs with hkk
  · rw [hkk, hu.find_eq_some_iff, getElem?_put hi.1, if_pos rfl]
  · refine h.find_congr hu fun j w => ?_
    rw [getElem?_put hi.1]
    split_ifs with hj
    · refine ⟨fun he => ?_, fun he => absurd he (hj ▸ hi.2 k' w)⟩
      exact absurd (by simpa using he : k = k' ∧ v = w).1.symm hkk
    · rfl

section

omit [DecidableEq K]

/-- What is bound after a slot is made free. -/
theorem getElem?_clear (hi : i ≤ l.length) :
    (l.put i none)[j]? = some (some (k, v)) ↔ j ≠ i ∧ l[j]? = some (some (k, v)) := by
  rw [getElem?_put hi]
  split_ifs with hj
  · simp [hj]
  · simp [hj]

/-- **A slot is made free.** -/
theorem Unique.clear (h : l.Unique) (hi : i ≤ l.length) : (l.put i none).Unique := by
  intro a b c u w ha hb
  exact h a b c u w ((getElem?_clear hi).1 ha).2 ((getElem?_clear hi).1 hb).2

end

theorem Unique.find_clear (h : l.Unique) (hk : l[i]? = some (some (k, v))) (k' : K) :
    (l.put i none).find k' = if k' = k then none else l.find k' := by
  have hi : i ≤ l.length := by
    obtain ⟨hlt, -⟩ := List.getElem?_eq_some_iff.1 hk
    omega
  split_ifs with hkk
  · rw [hkk, find_eq_none_iff]
    intro j w hj
    obtain ⟨hji, hj⟩ := (getElem?_clear hi).1 hj
    exact hji (h j i k w v hj hk)
  · refine h.find_congr (h.clear hi) fun j w => ?_
    rw [getElem?_clear hi]
    refine ⟨And.right, fun hj => ⟨?_, hj⟩⟩
    rintro rfl
    rw [hk] at hj
    exact hkk (by simpa using hj : k = k' ∧ v = w).1.symm

end Find

end SlotTable

end OsKernel
