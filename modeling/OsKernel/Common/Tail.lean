import Mathlib

/-!
# Lists with the elements of a kind at the end

`TailOf p l` says that the elements of `l` with `p` form a suffix of it, in
the form that the operations on lists keep: nothing without `p` comes after
something with it.
-/

namespace OsKernel

variable {α : Type*} {p p' : α → Bool} {l l' : List α} {a : α}

/-- The elements with `p` form a suffix. -/
def TailOf (p : α → Bool) (l : List α) : Prop := l.Pairwise fun a b => p a = true → p b = true

namespace TailOf

/-- The suffix itself. -/
theorem exists_append (h : TailOf p l) :
    ∃ l₁ l₂, l = l₁ ++ l₂ ∧ (∀ a ∈ l₁, p a = false) ∧ ∀ a ∈ l₂, p a = true := by
  induction l with
  | nil => exact ⟨[], [], rfl, by simp, by simp⟩
  | cons a l ih =>
    obtain ⟨hhead, htail⟩ := List.pairwise_cons.1 h
    cases hp : p a with
    | true =>
      refine ⟨[], a :: l, rfl, by simp, fun b hb => ?_⟩
      rcases List.mem_cons.1 hb with rfl | hb
      · exact hp
      · exact hhead b hb hp
    | false =>
      obtain ⟨l₁, l₂, rfl, hfalse, htrue⟩ := ih htail
      refine ⟨a :: l₁, l₂, rfl, fun b hb => ?_, htrue⟩
      rcases List.mem_cons.1 hb with rfl | hb
      · exact hp
      · exact hfalse b hb

theorem nil : TailOf p [] := List.Pairwise.nil

theorem of_sublist (h : TailOf p l) (hl : List.Sublist l' l) : TailOf p l' := List.Pairwise.sublist hl h

theorem congr (h : TailOf p l) (hp : ∀ a ∈ l, p' a = p a) : TailOf p' l := by
  refine List.Pairwise.imp_of_mem (fun {a b} ha hb hab => ?_) h
  rw [hp a ha, hp b hb]
  exact hab

/-- More elements without `p` at the front and with `p` at the end. -/
theorem extend {l₁ l₂ : List α} (h : TailOf p l) (h₁ : ∀ a ∈ l₁, p a = false)
    (h₂ : ∀ a ∈ l₂, p a = true) : TailOf p (l₁ ++ l ++ l₂) := by
  have hnone : ∀ a ∈ l₁, ∀ b : α, p a = true → p b = true := by
    intro a ha b hpa
    rw [h₁ a ha] at hpa
    cases hpa
  refine List.pairwise_append.2 ⟨List.pairwise_append.2 ⟨?_, h, fun a ha b _ => hnone a ha b⟩, ?_,
    fun a _ b hb _ => h₂ b hb⟩
  · exact List.pairwise_of_forall_mem_list fun a ha b _ => hnone a ha b
  · exact List.pairwise_of_forall_mem_list fun a _ b hb _ => h₂ b hb

theorem cons (h : TailOf p l) (ha : p a = false) : TailOf p (a :: l) := by
  refine List.pairwise_cons.2 ⟨fun b _ hpa => ?_, h⟩
  rw [ha] at hpa
  cases hpa

theorem append_singleton (h : TailOf p l) (ha : p a = true) : TailOf p (l ++ [a]) :=
  List.pairwise_append.2 ⟨h, List.pairwise_singleton _ _, fun b _ c hc _ => by
    rw [List.mem_singleton.1 hc, ha]⟩

/-- If there is an element with `p` then the last one has it. -/
theorem getLast (h : TailOf p l) (hpos : 0 < l.countP p) : ∃ a, l.getLast? = some a ∧ p a = true := by
  obtain ⟨a, ha, hpa⟩ := List.countP_pos_iff.1 hpos
  obtain ⟨b, hb⟩ := Option.isSome_iff_exists.1 (List.getLast?_isSome.2 (List.ne_nil_of_mem ha))
  refine ⟨b, hb, ?_⟩
  obtain ⟨l', rfl⟩ := List.getLast?_eq_some_iff.1 hb
  rcases List.mem_append.1 ha with ha | ha
  · exact (List.pairwise_append.1 h).2.2 a ha b (List.mem_singleton_self b) hpa
  · rwa [← List.mem_singleton.1 ha]

end TailOf

end OsKernel
