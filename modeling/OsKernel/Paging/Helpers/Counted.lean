import OsKernel.Common.Holders
import OsKernel.Common.Update
import OsKernel.Paging.Model.Frames

/-!
# Helpers — reference counts

`Counted` says that `ref` has the number of holders of a frame, as far as
its eight bits go, and that nobody holds a free frame. One lemma for each
operation on the frames; only `kfree_page` needs the number of holders to
be small enough (`Counted.drop`).
-/

namespace OsKernel.Paging

open Function

variable {H : Type} {L : Layout} {s : Frames} {held : H → Option ℕ} {f : ℕ} {x : H}

/-- The counts are right. The holders are page table entries. -/
structure Counted (L : Layout) (s : Frames) (held : H → Option ℕ) : Prop where
  finite : ∀ f, L.fixed f = false → (holders held f).Finite
  nodup : s.pages.Nodup
  free : ∀ f ∈ s.pages, L.fixed f = false ∧ holders held f = ∅
  ref : ∀ f ∉ s.pages, L.fixed f = false → s.ref f = i8 (holders held f).ncard

/-- A frame that is free or held: one that is neither is the kernel's, or
lost. -/
def Accounted (s : Frames) (held : H → Option ℕ) (f : ℕ) : Prop :=
  f ∈ s.pages ∨ ∃ x, held x = some f

/-- No frame has more than 128 holders. -/
def FewHolders (L : Layout) (held : H → Option ℕ) : Prop :=
  ∀ f, L.fixed f = false → (holders held f).ncard ≤ 128

theorem i8_add_one (n : ℕ) : i8 (i8 n + 1) = i8 ((n + 1 : ℕ) : ℤ) := by
  simp only [i8]
  omega

theorem i8_sub_one (n : ℕ) : i8 (i8 ((n + 1 : ℕ) : ℤ) - 1) = i8 n := by
  simp only [i8]
  omega

/-- With less than 129 holders, the count says whether there is one left. -/
theorem i8_nonpos {n : ℕ} (h : n < 128) : i8 n ≤ 0 ↔ n = 0 := by
  simp only [i8]
  omega

/-- `kfree_page` frees the page, whose first bytes are lost, or not. -/
theorem Frames.kfreePage_cases (L : Layout) (s : Frames) (f : ℕ) :
    ((s.kfreePage L f).pages = s.pages ∧ (s.kfreePage L f).data = s.data) ∨
    (L.fixed f = false ∧ (s.kfreePage L f).pages = f :: s.pages ∧
      ∀ g ≠ f, (s.kfreePage L f).data g = s.data g) := by
  rw [Frames.kfreePage]
  split_ifs with hfix
  · exact Or.inl ⟨rfl, rfl⟩
  · simp only
    split
    · exact Or.inr ⟨by simpa using hfix, rfl, fun g hg => update_of_ne hg _ _⟩
    · exact Or.inl ⟨rfl, rfl⟩

namespace Counted

variable (h : Counted L s held)

include h

/-- What nobody holds is held by no one. -/
theorem not_held (hf : f ∈ s.pages) (x : H) : held x ≠ some f := by
  intro hx
  have hmem : x ∈ holders held f := hx
  rw [(h.free f hf).2] at hmem
  exact hmem

theorem not_mem_of_held (hx : held x = some f) : f ∉ s.pages :=
  fun hf => h.not_held hf x hx

theorem congr {held' : H → Option ℕ} (heq : ∀ x, held x = held' x) : Counted L s held' :=
  (funext heq : held = held') ▸ h

/-- The counts do not depend on what is in the pages. -/
theorem setData (data : ℕ → Page) : Counted L { s with data := data } held :=
  ⟨h.finite, h.nodup, h.free, h.ref⟩

/-- `kalloc_page` gives a frame that nobody holds. -/
theorem alloc {s' : Frames} (hs : s.kallocPage = some (f, s')) :
    Counted L s' held ∧ s'.ref f = 0 ∧ s'.data = s.data ∧ f ∈ s.pages ∧ f ∉ s'.pages ∧
      s'.pages.Sublist s.pages := by
  rw [Frames.kallocPage] at hs
  split at hs
  · cases hs
  · rename_i g rest hpages
    obtain ⟨rfl, rfl⟩ := Prod.mk.inj (Option.some.inj hs)
    have hnodup := h.nodup
    rw [hpages, List.nodup_cons] at hnodup
    have hg : g ∈ s.pages := by simp [hpages]
    refine ⟨⟨h.finite, hnodup.2, fun f hf => h.free f (by simp [hpages, hf]), fun f hf hfix => ?_⟩,
      update_self _ _ _, rfl, hg, hnodup.1, ?_⟩
    · by_cases hfg : f = g
      · subst hfg
        simp only [update_self]
        rw [(h.free f hg).2, Set.ncard_empty]
        rfl
      · simp only [update_of_ne hfg]
        refine h.ref f ?_ hfix
        rw [hpages, List.mem_cons]
        exact fun hmem => hmem.elim hfg hf
    · rw [hpages]
      exact List.sublist_cons_self _ _

variable [DecidableEq H]

/-- `increment_ref` for a new holder. -/
theorem share (hx : held x = none) (hf : f ∉ s.pages) :
    Counted L (s.incrementRef f) (update held x (some f)) := by
  refine ⟨fun g hg => finite_holders_update x _ (h.finite g hg), h.nodup, fun g hg => ?_,
    fun g hg hfix => ?_⟩
  · have hgf : some f ≠ some g := fun heq => hf (Option.some.inj heq ▸ hg)
    obtain ⟨hfix, hempty⟩ := h.free g hg
    refine ⟨hfix, ?_⟩
    rw [holders_update_of_ne held x hgf, hempty, Set.empty_sdiff]
  · have hcount := ncard_holders_update x (some f) (h.finite g hfix)
    rw [hx, if_neg (by simp)] at hcount
    by_cases hgf : g = f
    · subst hgf
      rw [if_pos rfl] at hcount
      simp only [Frames.incrementRef, update_self]
      rw [h.ref g hg hfix, i8_add_one, ← hcount]
      rfl
    · rw [if_neg fun heq => hgf (Option.some.inj heq).symm, Nat.add_zero, Nat.add_zero] at hcount
      simp only [Frames.incrementRef, update_of_ne hgf]
      rw [h.ref g hg hfix, hcount]

/-- **`kfree_page` by a holder**: the frame is freed if there is no other. -/
theorem drop (hx : held x = some f) (hfix : L.fixed f = false) (hfew : (holders held f).ncard ≤ 128) :
    Counted L (s.kfreePage L f) (update held x none) ∧
      ((s.kfreePage L f).pages = if holders (update held x none) f = ∅ then f :: s.pages
        else s.pages) := by
  have hf := h.not_mem_of_held hx
  have hfin' : (holders (update held x none) f).Finite :=
    finite_holders_update x none (h.finite f hfix)
  have hcount : (holders (update held x none) f).ncard + 1 = (holders held f).ncard := by
    have hupdate := ncard_holders_update x none (h.finite f hfix)
    rw [if_pos hx, if_neg (by simp)] at hupdate
    exact hupdate
  -- the new value of the counter, and what the test of its sign says
  have href : i8 (s.ref f - 1) = i8 (holders (update held x none) f).ncard := by
    rw [h.ref f hf hfix, ← hcount, i8_sub_one]
  have hempty : i8 (s.ref f - 1) ≤ 0 ↔ holders (update held x none) f = ∅ := by
    rw [href, i8_nonpos (by omega), Set.ncard_eq_zero hfin']
  have hother : ∀ g, g ≠ f → holders (update held x none) g = holders held g := by
    intro g hgf
    rw [holders_update_of_ne held x (by simp), Set.sdiff_singleton_eq_self]
    intro hmem
    exact hgf (Option.mem_unique hmem hx)
  simp only [Frames.kfreePage, hfix, update_self, Bool.false_eq_true, if_false]
  by_cases hle : i8 (s.ref f - 1) ≤ 0
  · rw [if_pos hle, if_pos (hempty.1 hle)]
    refine ⟨⟨fun g hg => finite_holders_update x none (h.finite g hg),
      List.nodup_cons.2 ⟨hf, h.nodup⟩, fun g hg => ?_, fun g hg hgfix => ?_⟩, rfl⟩
    · rcases List.mem_cons.1 hg with rfl | hg
      · exact ⟨hfix, hempty.1 hle⟩
      · obtain ⟨hgfix, hnone⟩ := h.free g hg
        refine ⟨hgfix, ?_⟩
        rw [hother g fun heq => hf (heq ▸ hg), hnone]
    · have hgf : g ≠ f := fun heq => hg (by simp [heq])
      simp only [update_of_ne hgf]
      rw [hother g hgf]
      exact h.ref g (fun hmem => hg (List.mem_cons_of_mem f hmem)) hgfix
  · rw [if_neg hle, if_neg (mt hempty.2 hle)]
    refine ⟨⟨fun g hg => finite_holders_update x none (h.finite g hg), h.nodup, fun g hg => ?_,
      fun g hg hgfix => ?_⟩, rfl⟩
    · obtain ⟨hgfix, hnone⟩ := h.free g hg
      refine ⟨hgfix, ?_⟩
      rw [hother g fun heq => hf (heq ▸ hg), hnone]
    · by_cases hgf : g = f
      · subst hgf
        simp only [update_self]
        exact href
      · simp only [update_of_ne hgf]
        rw [hother g hgf]
        exact h.ref g hg hgfix

/-- The same for any frame: what is never freed is not counted. -/
theorem give (hx : held x = some f)
    (hfew : L.fixed f = false → (holders held f).ncard ≤ 128) :
    Counted L (s.kfreePage L f) (update held x none) := by
  cases hfix : L.fixed f with
  | false => exact (h.drop hx hfix (hfew hfix)).1
  | true =>
    have hsame : s.kfreePage L f = s := by simp [Frames.kfreePage, hfix]
    have hother : ∀ g, L.fixed g = false →
        holders (update held x none) g = holders held g := by
      intro g hg
      rw [holders_update_of_ne held x (by simp), Set.sdiff_singleton_eq_self]
      intro hmem
      rw [Option.mem_unique hx hmem, hg] at hfix
      cases hfix
    rw [hsame]
    refine ⟨fun g hg => finite_holders_update x none (h.finite g hg), h.nodup, fun g hg => ?_,
      fun g hg hgfix => ?_⟩
    · obtain ⟨hgfix, hnone⟩ := h.free g hg
      exact ⟨hgfix, (hother g hgfix).trans hnone⟩
    · rw [hother g hgfix]
      exact h.ref g hg hgfix

omit [DecidableEq H] in
/-- `kfree_page` on a page of the kernel's own, which no entry maps. -/
theorem release (hfix : L.fixed f = false) (hf : f ∉ s.pages) (hnone : holders held f = ∅) :
    Counted L (s.kfreePage L f) held ∧ (s.kfreePage L f).pages = f :: s.pages := by
  have hle : i8 (s.ref f - 1) ≤ 0 := by
    rw [h.ref f hf hfix, hnone, Set.ncard_empty]
    decide
  simp only [Frames.kfreePage, hfix, update_self, Bool.false_eq_true, if_false, if_pos hle]
  refine ⟨⟨h.finite, List.nodup_cons.2 ⟨hf, h.nodup⟩, fun g hg => ?_, fun g hg hgfix => ?_⟩, trivial⟩
  · rcases List.mem_cons.1 hg with rfl | hg
    · exact ⟨hfix, hnone⟩
    · exact h.free g hg
  · have hgf : g ≠ f := fun heq => hg (by simp [heq])
    simp only [update_of_ne hgf]
    exact h.ref g (fun hmem => hg (List.mem_cons_of_mem f hmem)) hgfix

end Counted

end OsKernel.Paging
