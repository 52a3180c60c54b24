import OsKernel.Paging.Helpers.Counted
import OsKernel.Paging.Model.Memory

/-!
# Helpers — the loops over the pages

What `fork`, `swapin` and `free_sections` do to the page tables and to the
counts. The counts are kept for an arbitrary table `held` that agrees with
the page table where the loop goes, so that entries given up already, or
about to be, can be left out of it.
-/

namespace OsKernel.Paging

open Function

variable {P : Type} [DecidableEq P] {E : Env} {s s' : Memory P} {p np q : P} {f v w : ℕ}
variable {held : P × ℕ → Option ℕ} {l : List ℕ}

/-! ## Entries -/

/-- The entry with `PTE_RO`. -/
def Pte.readOnly : Pte → Pte
  | .page _ f => .page true f
  | e => e

/-- The entry that `fork` makes for the child. -/
def Pte.forked : Pte → Pte
  | .page _ f => .page true f
  | _ => .null

theorem Pte.frame_eq_some {e : Pte} : e.frame = some f ↔ ∃ ro, e = .page ro f := by
  cases e <;> simp [Pte.frame]

@[simp] theorem Pte.frame_readOnly (e : Pte) : e.readOnly.frame = e.frame := by cases e <;> rfl

@[simp] theorem Pte.frame_forked (e : Pte) : e.forked.frame = e.frame := by cases e <;> rfl

@[simp] theorem Pte.readOnly_readOnly (e : Pte) : e.readOnly.readOnly = e.readOnly := by
  cases e <;> rfl

@[simp] theorem Pte.forked_readOnly (e : Pte) : e.readOnly.forked = e.forked := by cases e <;> rfl

namespace Memory

theorem setPte_pt (s : Memory P) (p q : P) (v w : ℕ) (e : Pte) :
    (s.setPte p v e).pt q w = if q = p ∧ w = v then e else s.pt q w := by
  by_cases hq : q = p
  · subst hq
    by_cases hw : w = v
    · subst hw
      simp [setPte]
    · simp [setPte, hw]
  · simp [setPte, hq]

/-! ## The loop of `fork` -/

/-- One page of `fork`: the parent's entry gets `PTE_RO`, and so does the
child's copy of it. -/
theorem forkPage_pt
    (hchild : s.pt np v = .null ∨ s.pt np v = (s.pt p v).forked) :
    (forkPage p np s v).pt q w =
      if w = v then if q = p then (s.pt p v).readOnly else if q = np then (s.pt p v).forked
        else s.pt q w
      else s.pt q w := by
  by_cases hw : w = v
  · subst hw
    rw [if_pos rfl]
    cases he : s.pt p w with
    | page ro f =>
      simp only [forkPage, he, setPte_pt, vmmap, Pte.readOnly, Pte.forked]
      by_cases hq : q = p <;> simp [hq]
    | null | disk _ =>
      simp only [he, Pte.forked, or_self] at hchild
      simp only [forkPage, he, Pte.readOnly, Pte.forked]
      split
      · rename_i hq
        rw [hq, he]
      · split_ifs with hq
        · rw [hq, hchild]
        · rfl
  · rw [if_neg hw]
    cases he : s.pt p v with
    | page ro f => simp [forkPage, he, setPte_pt, vmmap, hw]
    | null | disk _ => simp only [forkPage, he]

/-- The parent maps what it mapped. -/
theorem forkPage_frame (hnp : p ≠ np) :
    ((forkPage p np s v).pt p w).frame = (s.pt p w).frame := by
  cases he : s.pt p v with
  | page ro f =>
    simp only [forkPage, he, setPte_pt, vmmap]
    split_ifs <;> simp_all [Pte.frame]
  | null | disk _ => simp only [forkPage, he]

/-- What `fork` leaves alone. -/
theorem forkLoop_frame (p np : P) (l : List ℕ) (s : Memory P) :
    (l.foldl (forkPage p np) s).sections = s.sections ∧
      (l.foldl (forkPage p np) s).live = s.live ∧ (l.foldl (forkPage p np) s).fault = s.fault ∧
      (l.foldl (forkPage p np) s).kernel = s.kernel ∧
      (l.foldl (forkPage p np) s).frames.pages = s.frames.pages ∧
      (l.foldl (forkPage p np) s).frames.data = s.frames.data := by
  induction l generalizing s with
  | nil => exact ⟨rfl, rfl, rfl, rfl, rfl, rfl⟩
  | cons v l ih =>
    obtain ⟨h₁, h₂, h₃, h₄, h₅, h₆⟩ := ih (forkPage p np s v)
    rw [List.foldl_cons, h₁, h₂, h₃, h₄, h₅, h₆]
    cases he : s.pt p v <;> simp [forkPage, he, setPte, vmmap, Frames.incrementRef]

/-- **The page tables after the loop of `fork`.** -/
theorem forkLoop_pt (hnp : p ≠ np)
    (hchild : ∀ w, s.pt np w = .null ∨ s.pt np w = (s.pt p w).forked) :
    (l.foldl (forkPage p np) s).pt q w =
      if w ∈ l then if q = p then (s.pt p w).readOnly else if q = np then (s.pt p w).forked
        else s.pt q w
      else s.pt q w := by
  induction l generalizing s with
  | nil => simp
  | cons v l ih =>
    have hparent : (forkPage p np s v).pt p w =
        if w = v then (s.pt p v).readOnly else s.pt p w := by
      rw [forkPage_pt (hchild v), if_pos rfl]
    rw [List.foldl_cons, ih fun u => ?_, hparent, forkPage_pt (hchild v)]
    · by_cases hw : w = v
      · subst hw
        by_cases hq : q = p
        · simp [hq]
        · by_cases hn : q = np <;> simp [hq, hn]
      · simp [hw]
    · -- the child has a copy of the parent's entry, or none
      rw [forkPage_pt (hchild v), forkPage_pt (hchild v), if_neg (Ne.symm hnp),
        if_pos rfl, if_pos rfl]
      by_cases hu : u = v
      · simp [hu]
      · simpa [hu] using hchild u

/-- **The counts after the loop of `fork`**, where no page is visited
twice. -/
theorem forkLoop_counted (hnp : p ≠ np) (h : Counted E.layout s.frames held) (hl : l.Nodup)
    (hchild : ∀ v ∈ l, held (np, v) = none ∧ s.pt np v = .null)
    (hfree : ∀ v ∈ l, ∀ f, (s.pt p v).frame = some f → f ∉ s.frames.pages) :
    Counted E.layout (l.foldl (forkPage p np) s).frames
      fun x => if x.1 = np ∧ x.2 ∈ l then (s.pt p x.2).frame else held x := by
  induction l generalizing s held with
  | nil => simpa using h
  | cons v l ih =>
    obtain ⟨hv, hl⟩ := List.nodup_cons.1 hl
    have hpt := fun q w => forkPage_pt (p := p) (q := q) (w := w) (Or.inl (hchild v (by simp)).2)
    -- the first page is one entry of the child
    have hfirst : Counted E.layout (forkPage p np s v).frames
        (update held (np, v) (s.pt p v).frame) := by
      cases he : s.pt p v with
      | page ro f =>
        simp only [forkPage, he]
        exact h.share (hchild v (by simp)).1 (hfree v (by simp) f (by rw [he]; rfl))
      | null | disk _ =>
        simp only [forkPage, he, Pte.frame]
        rw [← (hchild v (by simp)).1, update_eq_self]
        exact h
    have hrest := ih hfirst hl (fun w hw => ?_) fun w hw f hf => ?_
    · rw [List.foldl_cons]
      refine hrest.congr fun x => ?_
      obtain ⟨q, w⟩ := x
      rw [hpt, if_pos rfl]
      by_cases hq : q = np
      · subst hq
        by_cases hw : w = v
        · subst hw
          simp [hv]
        · simp [hw]
      · simp [hq]
    · have hwv : w ≠ v := fun heq => hv (heq ▸ hw)
      rw [hpt, if_neg hwv, update_of_ne (by simp [hwv])]
      exact hchild w (by simp [hw])
    · have hwv : w ≠ v := fun heq => hv (heq ▸ hw)
      rw [hpt, if_neg hwv] at hf
      have hpages := (forkLoop_frame p np [v] s).2.2.2.2.1
      rw [List.foldl_cons, List.foldl_nil] at hpages
      rw [hpages]
      exact hfree w (by simp [hw]) f hf

/-! ## The loop of `free_sections` -/

section

omit [DecidableEq P]

/-- The loop touches nothing but the frames. -/
theorem freeLoop_eq (E : Env) (p : P) (l : List ℕ) (s : Memory P) :
    l.foldl (freePage E p) s = { s with frames := (l.foldl (freePage E p) s).frames } := by
  induction l generalizing s with
  | nil => rfl
  | cons v l ih =>
    rw [List.foldl_cons, ih]
    cases he : s.pt p v <;> simp [freePage, he, kfreePage]

/-- What the loop frees was mapped by the process; any other page keeps its
contents. -/
theorem freeLoop_pages (E : Env) (p : P) (l : List ℕ) (s : Memory P) :
    (∀ g ∈ s.frames.pages, g ∈ (l.foldl (freePage E p) s).frames.pages) ∧
    (∀ g ∈ (l.foldl (freePage E p) s).frames.pages, g ∈ s.frames.pages ∨
      (E.layout.fixed g = false ∧ ∃ v ∈ l, (s.pt p v).frame = some g)) ∧
    ∀ g ∉ (l.foldl (freePage E p) s).frames.pages,
      (l.foldl (freePage E p) s).frames.data g = s.frames.data g := by
  induction l generalizing s with
  | nil => exact ⟨fun _ hg => hg, fun _ hg => Or.inl hg, fun _ _ => rfl⟩
  | cons v l ih =>
    obtain ⟨hmono, hnew, hdata⟩ := ih (freePage E p s v)
    rw [List.foldl_cons]
    cases he : s.pt p v with
    | page ro f =>
      have hstep : freePage E p s v = s.kfreePage E f := by simp only [freePage, he]
      rw [hstep] at hmono hnew hdata ⊢
      rcases s.frames.kfreePage_cases E.layout f with ⟨hpages, hsame⟩ | ⟨hfix, hpages, hother⟩
      · refine ⟨fun g hg => hmono g (hpages ▸ hg), fun g hg => ?_, fun g hg => ?_⟩
        · rcases hnew g hg with hg | ⟨hfix, w, hw, hg⟩
          · exact Or.inl (hpages ▸ hg)
          · exact Or.inr ⟨hfix, w, by simp [hw], hg⟩
        · rw [hdata g hg]
          exact congrFun hsame g
      · refine ⟨fun g hg => hmono g (hpages ▸ List.mem_cons_of_mem f hg), fun g hg => ?_,
          fun g hg => ?_⟩
        · rcases hnew g hg with hg | ⟨hfix, w, hw, hg⟩
          · have hg' : g ∈ f :: s.frames.pages := hpages ▸ hg
            rcases List.mem_cons.1 hg' with rfl | hg
            · exact Or.inr ⟨hfix, v, by simp, by rw [he]; rfl⟩
            · exact Or.inl hg
          · exact Or.inr ⟨hfix, w, by simp [hw], hg⟩
        · rw [hdata g hg]
          refine hother g fun heq => hg (hmono g ?_)
          have hmem : g ∈ f :: s.frames.pages := by simp [heq]
          exact hpages ▸ hmem
    | null | disk _ =>
      have hstep : freePage E p s v = s := by simp only [freePage, he]
      rw [hstep] at hmono hnew hdata ⊢
      refine ⟨hmono, fun g hg => ?_, hdata⟩
      rcases hnew g hg with hg | ⟨hfix, w, hw, hg⟩
      · exact Or.inl hg
      · exact Or.inr ⟨hfix, w, by simp [hw], hg⟩

end

/-- The entries of `p` in `l` hold nothing. -/
def without (p : P) (l : List ℕ) (held : P × ℕ → Option ℕ) (x : P × ℕ) : Option ℕ :=
  if x.1 = p ∧ x.2 ∈ l then none else held x

theorem without_nil (p : P) (held : P × ℕ → Option ℕ) : without p [] held = held := by
  funext x
  simp [without]

/-- **The counts after the loop of `free_sections`**, where no page is
visited twice and no frame has more than 128 holders. -/
theorem freeLoop_counted (h : Counted E.layout s.frames held) (hl : l.Nodup)
    (hheld : ∀ v ∈ l, held (p, v) = (s.pt p v).frame)
    (hfew : FewHolders E.layout held) :
    Counted E.layout (l.foldl (freePage E p) s).frames (without p l held) := by
  induction l generalizing s held with
  | nil =>
    rw [without_nil]
    exact h
  | cons v l ih =>
    obtain ⟨hv, hl⟩ := List.nodup_cons.1 hl
    have hfirst : Counted E.layout (freePage E p s v).frames (update held (p, v) none) ∧
        (freePage E p s v).pt = s.pt := by
      have hheld := hheld v (by simp)
      cases he : s.pt p v with
      | page ro f =>
        simp only [freePage, he]
        rw [he] at hheld
        exact ⟨h.give hheld (hfew f), rfl⟩
      | null | disk _ =>
        have hnone : held (p, v) = none := by rw [hheld, he]; rfl
        rw [← hnone, update_eq_self]
        simp only [freePage, he]
        exact ⟨h, trivial⟩
    have hrest := ih hfirst.1 hl (fun w hw => ?_) fun f hfix => ?_
    · have htable : without p l (update held (p, v) none) = without p (v :: l) held := by
        funext ⟨q, w⟩
        unfold without
        by_cases hq : q = p
        · subst hq
          by_cases hw : w = v
          · subst hw
            simp
          · simp [hw]
        · simp [hq]
      rw [htable] at hrest
      exact hrest
    · have hwv : w ≠ v := fun heq => hv (heq ▸ hw)
      rw [hfirst.2, update_of_ne (by simp [hwv])]
      exact hheld w (by simp [hw])
    · exact (ncard_holders_update_none_le (p, v) (h.finite f hfix)).trans (hfew f hfix)

/-! ## `swapin` -/

/-- What a loop over pages of `p` leaves alone. -/
structure Elsewhere (p : P) (l : List ℕ) (s s' : Memory P) : Prop where
  pt : ∀ q v, ¬(q = p ∧ v ∈ l) → s'.pt q v = s.pt q v
  live : s'.live = s.live
  fault : s'.fault = s.fault
  kernel : s'.kernel = s.kernel

omit [DecidableEq P] in
theorem Elsewhere.trans {l' : List ℕ} {s'' : Memory P} (h : Elsewhere p l s s')
    (h' : Elsewhere p l' s' s'') (hsub : ∀ v ∈ l', v ∈ l) : Elsewhere p l s s'' where
  pt := fun q v hv => (h'.pt q v fun hmem => hv ⟨hmem.1, hsub v hmem.2⟩).trans (h.pt q v hv)
  live := h'.live.trans h.live
  fault := h'.fault.trans h.fault
  kernel := h'.kernel.trans h.kernel

end Memory

/-! ## The sections -/

theorem Section.nodup_freePages (st : Section) : st.freePages.Nodup := List.nodup_range'

theorem Section.nodup_swapPages (st : Section) : st.swapPages.Nodup := List.nodup_range'

theorem Section.freePages_subset (st : Section) : ∀ v ∈ st.freePages, v ∈ st.forkPages := by
  intro v hv
  simp only [forkPages, freePages, List.mem_range'_1, pageSize] at hv ⊢
  omega

namespace Memory

/-- Without a section that is swapped out, `free_sections` is one loop over
the pages. -/
theorem freeSections_eq (hswap : ∀ st ∈ s.sections p, st.swap = false) :
    s.freeSections E p =
      some (((s.sections p).flatMap Section.freePages).foldl (freePage E p) s) := by
  have hloop : ∀ (l l' : List Section) (s : Memory P), s.sections p = l' ++ l →
      (∀ st ∈ l, st.swap = false) → (List.range' l'.length l.length).foldlM (freeSection E p) s =
        some ((l.flatMap Section.freePages).foldl (freePage E p) s) := by
    intro l
    induction l with
    | nil => exact fun _ _ _ _ => rfl
    | cons st l ih =>
      intro l' s hsections hswap
      have hfirst : s.freeSection E p l'.length = some (st.freePages.foldl (freePage E p) s) := by
        simp [freeSection, hsections, hswap st (by simp)]
      rw [List.length_cons, List.range'_succ, List.foldlM_cons, hfirst, List.flatMap_cons,
        List.foldl_append]
      simpa using ih (l' ++ [st]) _ (by rw [freeLoop_eq]; simpa using hsections) fun st' hst =>
        hswap st' (by simp [hst])
  rw [freeSections, List.range_eq_range']
  exact hloop _ [] s rfl hswap

end Memory

end OsKernel.Paging
