import OsKernel.Paging.Fork

/-!
# The counts through `fork` and `free_sections`

Both go through the pages of the sections, and a page may be one of several
sections: `fork` takes the page of the end of a section for one of it. The
counts stay right as long as a valid entry is visited once.
-/

namespace OsKernel.Paging

open Function

theorem Section.swapPages_subset (st : Section) : ∀ v ∈ st.swapPages, v ∈ st.freePages := by
  intro v hv
  simp only [swapPages, freePages, List.mem_range'_1, pageSize] at hv ⊢
  omega

theorem i8_of_le {n : ℕ} (h : n ≤ 127) : i8 n = n := by
  simp only [i8]
  omega

theorem i8_le (x : ℤ) : i8 x ≤ 127 := by
  simp only [i8]
  omega

/-! ## What is due

Of each frame, a number of references is due: the entries that others have,
and the visits of `free_sections` that are still to come. While the count is
this number, `kfree_page` frees the frame at the last visit. -/

namespace Frames

variable {L : Layout} {s s' s'' : Frames} {d d' d'' : ℕ → ℕ} {C C' : Prop}

/-- A frame has the references that are due, or it is free, once. -/
def Balanced (s : Frames) (f n : ℕ) : Prop :=
  s.pages.count f = 0 ∧ s.ref f = n ∨ s.pages.count f = 1 ∧ n = 0

/-- What holds of a count that is wrong, too: a frame that is put on the free
list too early is put there again. -/
def Credible (s : Frames) (f n : ℕ) : Prop :=
  (s.pages.count f = 0 → 0 ≤ s.ref f ∧ s.ref f ≤ 127 ∧ (s.ref f = 0 → n = 0)) ∧
  (s.pages.count f = 1 → 0 < n → 0 ≤ s.ref f ∧ s.ref f ≤ 1)

/-- A frame that is not lost. -/
def Known (s : Frames) (f n : ℕ) : Prop := 0 < s.pages.count f + n

/-- **A part of `free_sections`**, after which `d'` is due where `d` was. The
frames are balanced afterwards if and only if they were so before and `C`
holds, and then none is lost. -/
def Passes (L : Layout) (s s' : Frames) (d d' : ℕ → ℕ) (C : Prop) : Prop :=
  (∀ f ∈ s.pages, L.fixed f = false) → (∀ f, L.fixed f = false → s.Credible f (d f)) →
    (∀ f ∈ s'.pages, L.fixed f = false) ∧ (∀ f, L.fixed f = false → s'.Credible f (d' f)) ∧
    ((∀ f, L.fixed f = false → s'.Balanced f (d' f)) ↔
      (∀ f, L.fixed f = false → s.Balanced f (d f)) ∧ C) ∧
    ((∀ f, L.fixed f = false → s'.Balanced f (d' f)) →
      ∀ f, L.fixed f = false → s.Known f (d f) → s'.Known f (d' f))

theorem Passes.refl (L : Layout) (s : Frames) (d : ℕ → ℕ) : Passes L s s d d True :=
  fun hfixed h => ⟨hfixed, h, by simp, fun _ _ _ hf => hf⟩

theorem Passes.trans (h : Passes L s s' d d' C) (h' : Passes L s' s'' d' d'' C') :
    Passes L s s'' d d'' (C ∧ C') := by
  intro hfixed hcredible
  obtain ⟨hfixed₁, hcredible₁, hiff₁, hknown₁⟩ := h hfixed hcredible
  obtain ⟨hfixed₂, hcredible₂, hiff₂, hknown₂⟩ := h' hfixed₁ hcredible₁
  refine ⟨hfixed₂, hcredible₂, by rw [hiff₂, hiff₁, and_assoc], fun hall f hf hk => ?_⟩
  exact hknown₂ hall f hf (hknown₁ (hiff₂.1 hall).1 f hf hk)

theorem Passes.congr (h : Passes L s s' d d' C) (hiff : C ↔ C') : Passes L s s' d d' C' :=
  propext hiff ▸ h

/-- Frame by frame. -/
theorem passes_of_frames {C : ℕ → Prop} (hfixed : ∀ f ∈ s'.pages, f ∈ s.pages ∨ L.fixed f = false)
    (h : ∀ f, L.fixed f = false → s.Credible f (d f) →
      s'.Credible f (d' f) ∧ (s'.Balanced f (d' f) ↔ s.Balanced f (d f) ∧ C f) ∧
      (s.Balanced f (d f) → s.Known f (d f) → s'.Known f (d' f))) :
    Passes L s s' d d' (∀ f, L.fixed f = false → C f) := by
  intro hfree hcredible
  have h := fun f hf => h f hf (hcredible f hf)
  refine ⟨fun f hf => (hfixed f hf).elim (hfree f) id, fun f hf => (h f hf).1, ?_, fun hall f hf =>
    (h f hf).2.2 ((h f hf).2.1.1 (hall f hf)).1⟩
  rw [← forall₂_and]
  exact forall₂_congr fun f hf => (h f hf).2.1

/-- A reference is given up. -/
theorem passes_kfreePage (g : ℕ)
    (hd : ∀ f, L.fixed f = false → d f = d' f + if f = g then 1 else 0) :
    Passes L s (s.kfreePage L g) d d' True := by
  refine (passes_of_frames (C := fun _ => True) (fun f hf => ?_) fun f hf h => ?_).congr (by simp)
  · rcases s.kfreePage_cases L g with ⟨hpages, -⟩ | ⟨hfix, hpages, -⟩ <;> rw [hpages] at hf
    · exact Or.inl hf
    · exact (List.mem_cons.1 hf).elim (fun heq => Or.inr (heq ▸ hfix)) Or.inl
  · have hdue := hd f hf
    unfold Credible Balanced Known at *
    by_cases hfg : f = g
    · subst hfg
      simp only [kfreePage, hf, update_self, Bool.false_eq_true, if_false, if_true, and_true] at hdue ⊢
      split_ifs with hle
      all_goals
        simp only [update_self, List.count_cons_self, i8] at hle ⊢
        omega
    · have hsame : (s.kfreePage L g).ref f = s.ref f ∧
          (s.kfreePage L g).pages.count f = s.pages.count f := by
        unfold kfreePage
        split
        · exact ⟨rfl, rfl⟩
        · dsimp only
          split <;> simp [hfg, Ne.symm hfg]
      rw [hsame.1, hsame.2, show d' f = d f by rw [hdue, if_neg hfg, Nat.add_zero]]
      exact ⟨h, by simp, fun _ => id⟩

/-- A frame is taken, with one reference, and `k` are due. -/
theorem passes_take {g k : ℕ} (hpages : s.pages = g :: s'.pages) (href : s'.ref = update s.ref g 1)
    (hd : ∀ f, d' f = d f + if f = g then k else 0) (hk : 0 < k) :
    Passes L s s' d d' (k = 1) := by
  refine fun hfree => ((passes_of_frames (C := fun f => f = g → k = 1) (fun f hf => Or.inl ?_)
    fun f _ h => ?_).congr ?_) hfree
  · rw [hpages]
    exact List.mem_cons_of_mem _ hf
  · have hdue := hd f
    unfold Credible Balanced Known at *
    rw [href]
    by_cases hfg : f = g
    · subst hfg
      simp only [hpages, List.count_cons_self, update_self, if_true, true_implies] at h hdue ⊢
      omega
    · rw [hpages, List.count_cons_of_ne (Ne.symm hfg), hdue, if_neg hfg, update_of_ne hfg] at *
      exact ⟨h, by simp [hfg], fun _ => id⟩
  · exact ⟨fun h => h g (hfree g (by simp [hpages])) rfl, fun h _ _ _ => h⟩

end Frames

namespace Memory

open Frames

variable {P : Type} [DecidableEq P] {E : Env} {s s' : Memory P} {p np q : P} {f v w : ℕ}
variable {l : List ℕ} {n : ℕ → ℕ}

/-- **`ref` is the number of valid entries** that map the frame, over all
processes, for each frame that is neither free nor fixed; what is free is
free once, and no entry maps it. -/
structure Exact (E : Env) (s : Memory P) : Prop where
  finite : ∀ f, E.layout.fixed f = false → (holders s.mapped f).Finite
  freed : ∀ f ∈ s.frames.pages, E.layout.fixed f = false
  ref : ∀ f, E.layout.fixed f = false → s.frames.Balanced f (holders s.mapped f).ncard

/-- The pages of a list that `p` maps to `f`. -/
def visits (s : Memory P) (p : P) (l : List ℕ) (f : ℕ) : List ℕ :=
  l.filter fun v => (s.pt p v).frame = some f

/-- The number of valid entries of `p` that map `f`. -/
noncomputable def entries (s : Memory P) (p : P) (f : ℕ) : ℕ :=
  {x ∈ holders s.mapped f | x.1 = p}.ncard

/-- The pages that `free_sections` visits. -/
def freeList (s : Memory P) (p : P) : List ℕ := (s.sections p).flatMap Section.freePages

/-- What is due: the entries of the others, of which there are `n f`, and the
visits to the pages of a list. -/
def due (s : Memory P) (q : P) (n : ℕ → ℕ) (l : List ℕ) (f : ℕ) : ℕ :=
  n f + (s.visits q l f).length

/-! ## The way through `free_sections` -/

section

omit [DecidableEq P]

theorem passes_freeLoop (l l' : List ℕ) (s : Memory P) :
    Passes E.layout s.frames (l.foldl (freePage E q) s).frames (s.due q n (l ++ l')) (s.due q n l')
      True := by
  induction l generalizing s with
  | nil => exact .refl E.layout s.frames _
  | cons v l ih =>
    rw [List.foldl_cons]
    cases he : s.pt q v with
    | page ro g =>
      have hstep : freePage E q s v = s.kfreePage E g := by simp only [freePage, he]
      have hframe : (s.pt q v).frame = some g := by rw [he]; rfl
      rw [hstep]
      refine ((passes_kfreePage g fun f _ => ?_).trans (ih (s.kfreePage E g))).congr and_self_iff
      change s.due q n (v :: l ++ l') f = s.due q n (l ++ l') f + _
      by_cases hf : f = g
      · simp [due, visits, hframe, hf, Nat.add_assoc]
      · simp [due, visits, hframe, hf, Ne.symm hf]
    | null | disk _ =>
      have hstep : freePage E q s v = s := by simp only [freePage, he]
      have hsame : s.due q n (v :: l ++ l') = s.due q n (l ++ l') := by
        funext f
        simp [due, visits, he, Pte.frame]
      rw [hstep, hsame]
      exact ih s

/-- The visits to a page that gets an entry are visits to its frame. -/
theorem due_of_entry {g : ℕ} (hv : (s.pt q v).frame = none)
    (hpt : ∀ w, (s'.pt q w).frame = if w = v then some g else (s.pt q w).frame) :
    s'.due q n l f = s.due q n l f + if f = g then l.count v else 0 := by
  induction l with
  | nil => simp [due, visits]
  | cons w l ih =>
    simp only [due, visits, List.filter_cons, List.count_cons, hpt w] at ih ⊢
    by_cases hw : w = v
    · subst hw
      by_cases hf : f = g
      · simp [hv, hf] at ih ⊢
        omega
      · simpa [hv, hf, Ne.symm hf] using ih
    · by_cases hf : (s.pt q w).frame = some f <;> simp [hw, hf] <;> omega

end

/-- A page that is read in for the visits to it. -/
theorem passes_swapinPage (hv : v ∈ l) (hs : swapinPage q s v = some s') :
    Passes E.layout s.frames s'.frames (s.due q n l) (s'.due q n l)
        (∀ slot, s.pt q v = .disk slot → l.count v = 1) ∧ s'.sections = s.sections ∧
      ∀ r w, (r = q ∧ w = v → ∀ slot, s.pt q v ≠ .disk slot) → s'.pt r w = s.pt r w := by
  cases he : s.pt q v with
  | null =>
    simp only [swapinPage, he, Option.some.injEq] at hs
    subst hs
    exact ⟨(Passes.refl E.layout s.frames _).congr (by simp), rfl, fun _ _ _ => rfl⟩
  | page ro f => simp only [swapinPage, he, reduceCtorEq] at hs
  | disk slot =>
    simp only [swapinPage, he, allocPageForUser, Option.map_map, Frames.kallocPage] at hs
    cases hpages : s.frames.pages with
    | nil => simp [hpages] at hs
    | cons ka rest =>
      simp only [hpages, Option.map_some, Option.some.injEq, Function.comp_apply] at hs
      have hpt : ∀ r w, s'.pt r w = if r = q ∧ w = v then .page false ka else s.pt r w := by
        subst hs
        exact fun r w => setPte_pt _ q r v w _
      have hframes : s'.frames.pages = rest ∧ s'.frames.ref = update s.frames.ref ka 1 := by
        subst hs
        simp [vmmap, setPte, fill, Frames.incrementRef, i8]
      refine ⟨(passes_take (by rw [hpages, hframes.1]) hframes.2 (fun f => due_of_entry (v := v)
        (by rw [he]; rfl) fun w => ?_) (List.count_pos_iff.2 hv)).congr (by simp), by subst hs; rfl,
        fun r w hne => by rw [hpt, if_neg fun hrw => hne hrw slot rfl]⟩
      rw [hpt]
      by_cases hw : w = v <;> simp [hw, Pte.frame]

/-- The loop of `swapin`. -/
theorem passes_swapinLoop {ws : List ℕ} (hws : ∀ v ∈ ws, v ∈ l) (hnodup : ws.Nodup)
    (hs : ws.foldlM (swapinPage q) s = some s') :
    Passes E.layout s.frames s'.frames (s.due q n l) (s'.due q n l)
        (∀ v ∈ ws, ∀ slot, s.pt q v = .disk slot → l.count v = 1) ∧ s'.sections = s.sections ∧
      ∀ r w, (r = q ∧ w ∈ ws → ∀ slot, s.pt q w ≠ .disk slot) → s'.pt r w = s.pt r w := by
  induction ws generalizing s with
  | nil =>
    obtain rfl := Option.some.inj hs
    exact ⟨(Passes.refl E.layout s.frames _).congr (by simp), rfl, fun _ _ _ => rfl⟩
  | cons v ws ih =>
    obtain ⟨hv, hnodup⟩ := List.nodup_cons.1 hnodup
    rw [List.foldlM_cons] at hs
    obtain ⟨s₁, hs₁, hs⟩ := Option.bind_eq_some_iff.1 hs
    obtain ⟨hfirst, hsections₁, hpt₁⟩ := passes_swapinPage (E := E) (n := n) (hws v (by simp)) hs₁
    obtain ⟨hrest, hsections, hpt⟩ := ih (fun w hw => hws w (by simp [hw])) hnodup hs
    have hsame : ∀ w ∈ ws, s₁.pt q w = s.pt q w := fun w hw =>
      hpt₁ q w fun hwv => absurd hw (hwv.2 ▸ hv)
    refine ⟨(hfirst.trans hrest).congr ?_, hsections.trans hsections₁, fun r w hne => ?_⟩
    · rw [List.forall_mem_cons]
      exact and_congr_right fun _ => forall₂_congr fun w hw => by rw [hsame w hw]
    · have hfree : s₁.pt r w = s.pt r w := hpt₁ r w fun hrw => hrw.2 ▸ hne ⟨hrw.1, by simp [hrw.2]⟩
      rw [hpt r w fun hrw => ?_, hfree]
      rw [hsame w hrw.2]
      exact hne ⟨hrw.1, by simp [hrw.2]⟩

/-- The pages that `swapin` reads in are visited right after it, and not
again. -/
def ReadOnce (s : Memory P) (q : P) (st st' : Section) : Prop :=
  st.swap = true → ∀ v ∈ st.swapPages, v ∈ st'.freePages → ∀ slot, s.pt q v ≠ .disk slot

/-- **The sections from a place on**, where `a` is what is before it. -/
theorem passes_freeSections {a b : List Section} (hsections : s.sections q = a ++ b)
    (hs : (List.range' a.length b.length).foldlM (freeSection E q) s = some s') :
    Passes E.layout s.frames s'.frames (s.due q n (b.flatMap Section.freePages)) n
      (b.Pairwise (s.ReadOnce q)) ∧ ∀ r ≠ q, s'.pt r = s.pt r := by
  induction b generalizing s a with
  | nil =>
    obtain rfl := Option.some.inj hs
    exact ⟨(Passes.refl E.layout s.frames n).congr (by simp), fun _ _ => rfl⟩
  | cons st b ih =>
    rw [List.length_cons, List.range'_succ, List.foldlM_cons] at hs
    obtain ⟨s₁, hs₁, hs⟩ := Option.bind_eq_some_iff.1 hs
    have hst : (s.sections q)[a.length]? = some st := by simp [hsections]
    rw [freeSection, hst, Option.bind_some] at hs₁
    obtain ⟨s₂, hs₂, rfl⟩ := Option.map_eq_some_iff.1 hs₁
    set l := st.freePages ++ b.flatMap Section.freePages with hl
    -- the section is read in if need be
    obtain ⟨hfirst, ⟨st', hsections₂⟩, hpt₂⟩ :
        Passes E.layout s.frames s₂.frames (s.due q n l) (s₂.due q n l)
          (st.swap = true → ∀ v ∈ st.swapPages, ∀ slot, s.pt q v = .disk slot → l.count v = 1) ∧
        (∃ st', s₂.sections q = a ++ st' :: b) ∧
        ∀ r w, (r = q ∧ w ∈ st.swapPages → st.swap = true → ∀ slot, s.pt q w ≠ .disk slot) →
          s₂.pt r w = s.pt r w := by
      cases hswap : st.swap with
      | false =>
        simp only [hswap, Bool.false_eq_true, if_false, Option.some.injEq] at hs₂
        subst hs₂
        exact ⟨(Passes.refl E.layout s.frames _).congr (by simp), ⟨st, hsections⟩, fun _ _ _ => rfl⟩
      | true =>
        rw [if_pos hswap, swapin, hst, Option.bind_some, if_pos hswap] at hs₂
        obtain ⟨s₃, hs₃, rfl⟩ := Option.map_eq_some_iff.1 hs₂
        obtain ⟨hloop, hsections₃, hpt₃⟩ := passes_swapinLoop (E := E) (n := n) (l := l)
          (fun v hv => List.mem_append_left _ (st.swapPages_subset v hv)) st.nodup_swapPages hs₃
        refine ⟨hloop.congr (by simp), ⟨{ st with swap := false }, ?_⟩, fun r w hne =>
          hpt₃ r w fun hrw => hne hrw rfl⟩
        simp [hsections₃, hsections]
    have hpt₁ : (st.freePages.foldl (freePage E q) s₂).pt = s₂.pt := by rw [freeLoop_eq]
    obtain ⟨hrest, hothers⟩ := ih (s := st.freePages.foldl (freePage E q) s₂)
      (a := a ++ [st']) (by rw [freeLoop_eq]; simpa using hsections₂) (by simpa using hs)
    have hdue : (st.freePages.foldl (freePage E q) s₂).due q n (b.flatMap Section.freePages) =
        s₂.due q n (b.flatMap Section.freePages) := by
      funext f
      simp only [due, visits, hpt₁]
    rw [hdue] at hrest
    refine ⟨((hfirst.trans (passes_freeLoop st.freePages _ s₂)).trans hrest).congr ?_,
      fun r hr => funext fun w => ?_⟩
    · have hcount : ∀ v ∈ st.swapPages, (l.count v = 1 ↔ v ∉ b.flatMap Section.freePages) := by
        intro v hv
        rw [hl, List.count_append, ← List.count_eq_zero,
          List.count_eq_one_of_mem st.nodup_freePages (st.swapPages_subset v hv)]
        omega
      have hhead : (st.swap = true → ∀ v ∈ st.swapPages, ∀ slot, s.pt q v = .disk slot →
          l.count v = 1) ↔ ∀ st' ∈ b, s.ReadOnce q st st' := by
        refine ⟨fun h c hc hswap v hv hvc slot hdisk => ?_, fun h hswap v hv slot hdisk => ?_⟩
        · exact (hcount v hv).1 (h hswap v hv slot hdisk) (List.mem_flatMap.2 ⟨c, hc, hvc⟩)
        · refine (hcount v hv).2 fun hmem => ?_
          obtain ⟨c, hc, hvc⟩ := List.mem_flatMap.1 hmem
          exact h c hc hswap v hv hvc slot hdisk
      rw [List.pairwise_cons, and_true, hhead]
      refine and_congr_right fun honce => List.Pairwise.iff_of_mem fun {c _} hc _ => ?_
      -- what was read in for this section is not a page of the others
      have hsame : ∀ v ∈ c.swapPages, s₂.pt q v = s.pt q v := fun v hv =>
        hpt₂ q v fun hmem hswap => honce c hc hswap v hmem.2 (c.swapPages_subset v hv)
      rw [ReadOnce, hpt₁]
      exact forall_congr' fun _ => forall₂_congr fun v hv => by rw [hsame v hv]
    · rw [hothers r hr, hpt₁]
      exact hpt₂ r w fun hrw => absurd hrw.1 hr

/-! ## The end of a process -/

/-- The entries that are left when `q` has lost its page table. -/
def withoutTable (s : Memory P) (q : P) (x : P × ℕ) : Option ℕ :=
  if x.1 = q then none else s.mapped x

theorem holders_withoutTable (s : Memory P) (q : P) (f : ℕ) :
    holders (s.withoutTable q) f = holders s.mapped f \ {x | x.1 = q} := by
  ext x
  by_cases hx : x.1 = q <;> simp [withoutTable, hx]

theorem ncard_withoutTable (hfin : (holders s.mapped f).Finite) :
    (holders (s.withoutTable q) f).ncard + s.entries q f = (holders s.mapped f).ncard := by
  rw [holders_withoutTable, Nat.add_comm]
  exact Set.ncard_inter_add_ncard_sdiff_eq_ncard _ _ hfin

omit [DecidableEq P] in
/-- An entry that is visited is an entry. -/
theorem length_visits_of_entries (hfin : (holders s.mapped f).Finite) (h : s.entries q f = 0)
    (l : List ℕ) : (s.visits q l f).length = 0 := by
  have hempty := (Set.ncard_eq_zero (hfin.subset (Set.sep_subset _ _))).1 h
  refine List.length_eq_zero_iff.2 (List.filter_eq_nil_iff.2 fun v _ hv => ?_)
  have hframe : (s.pt q v).frame = some f := of_decide_eq_true hv
  have hmem : (q, v) ∈ {x ∈ holders s.mapped f | x.1 = q} := ⟨hframe, rfl⟩
  rw [hempty] at hmem
  exact hmem

/-- What `free_sections` finds. -/
theorem Exact.start (h : s.Exact E) (hfix : E.layout.fixed f = false)
    (hfew : (holders s.mapped f).ncard ≤ 127) (l : List ℕ) :
    let n := fun f => (holders (s.withoutTable q) f).ncard
    s.frames.Credible f (s.due q n l f) ∧
      (s.frames.Balanced f (s.due q n l f) ↔ (s.visits q l f).length = s.entries q f) ∧
      (Accounted s.frames s.mapped f → (s.visits q l f).length = s.entries q f →
        s.frames.Known f (s.due q n l f)) := by
  intro n
  have hsum : n f + s.entries q f = _ := ncard_withoutTable (h.finite f hfix)
  have hnone := fun he => length_visits_of_entries (q := q) (h.finite f hfix) he l
  have hacc : Accounted s.frames s.mapped f →
      0 < s.frames.pages.count f ∨ 0 < (holders s.mapped f).ncard :=
    Or.imp List.count_pos_iff.2 (Set.ncard_pos (h.finite f hfix)).2
  have href := h.ref f hfix
  unfold Credible Known due
  unfold Frames.Balanced at href ⊢
  refine ⟨by omega, by omega, fun hf _ => ?_⟩
  have := hacc hf
  omega

/-- **The counts when `q` has freed its page table** are right if and only if
the visits to the entries of a frame are as many as these entries, and a page
that is read in is visited once. No frame gets lost then. -/
theorem freePgdir_exact_iff (h : s.Exact E)
    (hfew : ∀ f, E.layout.fixed f = false → (holders s.mapped f).ncard ≤ 127)
    (hs : s.freePgdir E q = some s') :
    (s'.Exact E ↔ (∀ f, E.layout.fixed f = false →
        (s.visits q (s.freeList q) f).length = s.entries q f) ∧
      (s.sections q).Pairwise (s.ReadOnce q)) ∧
    (s'.Exact E → ∀ f, E.layout.fixed f = false → Accounted s.frames s.mapped f →
      Accounted s'.frames s'.mapped f) := by
  obtain ⟨s₁, hs₁, hs'⟩ := Option.map_eq_some_iff.1 hs
  rw [freeSections, List.range_eq_range'] at hs₁
  obtain ⟨hpass, hothers⟩ := passes_freeSections (a := []) rfl hs₁
  have hstart := fun f hfix => h.start (q := q) hfix (hfew f hfix) (s.freeList q)
  obtain ⟨hfixed, -, hiff, hknown⟩ := hpass h.freed fun f hf => (hstart f hf).1
  have hframes : s'.frames = s₁.frames := by rw [← hs']
  have hmapped : s'.mapped = s.withoutTable q := by
    funext x
    rw [← hs']
    by_cases hx : x.1 = q
    · simp [mapped, withoutTable, hx, Pte.frame]
    · simp [mapped, withoutTable, hx, hothers x.1 hx]
  have hfinite : ∀ f, E.layout.fixed f = false → (holders s'.mapped f).Finite := fun f hfix => by
    rw [hmapped, holders_withoutTable]
    exact (h.finite f hfix).sdiff
  rw [← hframes, ← hmapped] at hiff hknown
  rw [← hframes] at hfixed
  have hend : s'.Exact E ↔ ∀ f, E.layout.fixed f = false →
      s'.frames.Balanced f (holders s'.mapped f).ncard :=
    ⟨fun h' => h'.ref, fun h' => ⟨hfinite, hfixed, h'⟩⟩
  rw [hend, hiff, hmapped]
  refine ⟨and_congr_left fun _ => forall₂_congr fun f hf => (hstart f hf).2.1,
    fun hall f hfix hacc => ?_⟩
  obtain ⟨-, hbalanced, hfound⟩ := hstart f hfix
  have hleft := hknown (hiff.2 (hmapped ▸ hall)) f hfix
    (hmapped ▸ hfound hacc (hbalanced.1 (hall.1 f hfix)))
  rw [Known, Nat.add_pos_iff_pos_or_pos, List.count_pos_iff, Set.ncard_pos (hfinite f hfix)] at hleft
  exact hmapped ▸ hleft

/-! ## Parent and child -/

/-- Each visit of `fork` to an entry of a frame is counted. -/
theorem forkLoop_ref (hnp : p ≠ np) {m : ℕ} (hm : s.frames.ref f = i8 m) :
    (l.foldl (forkPage p np) s).frames.ref f = i8 ((m + (s.visits p l f).length : ℕ) : ℤ) := by
  induction l generalizing s m with
  | nil => simpa [visits] using hm
  | cons v l ih =>
    have hsame : (forkPage p np s v).visits p l f = s.visits p l f := by
      simp only [visits, forkPage_frame hnp]
    by_cases hv : (s.pt p v).frame = some f
    · obtain ⟨ro, he⟩ := Pte.frame_eq_some.1 hv
      have hstep : (forkPage p np s v).frames.ref f = i8 ((m + 1 : ℕ) : ℤ) := by
        rw [← i8_add_one, ← hm]
        simp [forkPage, he, setPte, vmmap, Frames.incrementRef]
      rw [List.foldl_cons, ih hstep, hsame, visits, visits, List.filter_cons_of_pos (by simpa using hv),
        List.length_cons, Nat.add_assoc, Nat.add_comm 1]
    · have hstep : (forkPage p np s v).frames.ref f = i8 m := by
        rw [← hm]
        cases he : s.pt p v with
        | page ro g =>
          have hfg : f ≠ g := fun heq => hv (by rw [he, heq]; rfl)
          simp [forkPage, he, setPte, vmmap, Frames.incrementRef, hfg]
        | null | disk _ => simp only [forkPage, he]
      rw [List.foldl_cons, ih hstep, hsame, visits, visits, List.filter_cons_of_neg (by simpa using hv)]

theorem fork_ref (hnp : p ≠ np) {m : ℕ} (hm : s.frames.ref f = i8 m) :
    (s.fork p np).frames.ref f = i8 ((m + (s.visits p (s.forkList p) f).length : ℕ) : ℤ) := by
  rw [fork_eq]
  exact forkLoop_ref hnp hm

/-- The counts are right after `fork` if each frame's count, in its eight
bits, has gone up by the number of new entries. -/
def Counts (E : Env) (s : Memory P) (p : P) : Prop :=
  ∀ f, E.layout.fixed f = false →
    i8 ((holders s.mapped f).ncard + (s.visits p (s.forkList p) f).length : ℕ) =
      ((holders s.mapped f).ncard + (s.visits p (s.forkList p) f).toFinset.card : ℕ)

/-- The counts are right in `s'`, and no frame has got lost since `s`. -/
def Keeps (E : Env) (s s' : Memory P) : Prop :=
  s'.Exact E ∧ ∀ f, E.layout.fixed f = false → Accounted s.frames s.mapped f →
    Accounted s'.frames s'.mapped f

section

variable (hnp : p ≠ np) (hfresh : ∀ v, s.pt np v = .null)

include hnp hfresh

/-- The entries that the child gets. -/
theorem holders_fork (f : ℕ) : holders (s.fork p np).mapped f = holders s.mapped f ∪
    Prod.mk np '' ((s.visits p (s.forkList p) f).toFinset : Set ℕ) := by
  ext ⟨q, v⟩
  rw [mem_holders, fork_mapped hnp hfresh, Set.mem_union, mem_holders]
  simp only [visits, Set.mem_image, List.coe_toFinset, List.mem_filter, Set.mem_ofPred_eq,
    decide_eq_true_eq, Prod.mk.injEq]
  by_cases hq : q = np
  · subst hq
    by_cases hv : v ∈ s.forkList p <;> simp [hv, mapped, hfresh, Pte.frame]
  · simp [hq, Ne.symm hq]

theorem entries_fork (f : ℕ) : (s.fork p np).entries p f = s.entries p f ∧
    (s.fork p np).entries np f = (s.visits p (s.forkList p) f).toFinset.card := by
  have hchild : {x ∈ holders (s.fork p np).mapped f | x.1 = np} =
      Prod.mk np '' ((s.visits p (s.forkList p) f).toFinset : Set ℕ) := by
    ext ⟨q, v⟩
    rw [holders_fork hnp hfresh]
    by_cases hq : q = np
    · subst hq
      simp [mapped, hfresh, Pte.frame]
    · simp [hq, Ne.symm hq]
  constructor
  · rw [entries, holders_fork hnp hfresh]
    congr 1
    ext ⟨q, v⟩
    by_cases hq : q = p
    · simp [hq, Ne.symm hnp]
    · simp [hq]
  · rw [entries, hchild, Set.ncard_image_of_injective _ (Prod.mk_right_injective np),
      Set.ncard_coe_finset]

theorem ncard_fork (hfin : (holders s.mapped f).Finite) :
    (holders (s.fork p np).mapped f).Finite ∧ (holders (s.fork p np).mapped f).ncard =
      (holders s.mapped f).ncard + (s.visits p (s.forkList p) f).toFinset.card := by
  have hfin' : (holders (s.fork p np).mapped f).Finite := by
    rw [holders_fork hnp hfresh]
    exact hfin.union ((Finset.finite_toSet _).image _)
  refine ⟨hfin', ?_⟩
  rw [← ncard_withoutTable hfin', (entries_fork hnp hfresh f).2, holders_withoutTable,
    holders_fork hnp hfresh]
  congr 2
  ext ⟨q, v⟩
  by_cases hq : q = np
  · simp [hq, mapped, hfresh, Pte.frame]
  · simp [hq, Ne.symm hq]

theorem fork_exact_iff (hexact : s.Exact E) (hrange : ∀ f, s.frames.ref f ≤ 127) :
    (s.fork p np).Exact E ↔ s.Counts E p := by
  have hframe : ∀ f, E.layout.fixed f = false →
      ((s.fork p np).frames.Balanced f (holders (s.fork p np).mapped f).ncard ↔
        i8 ((holders s.mapped f).ncard + (s.visits p (s.forkList p) f).length : ℕ) =
          ((holders s.mapped f).ncard + (s.visits p (s.forkList p) f).toFinset.card : ℕ)) := by
    intro f hfix
    have hfin := hexact.finite f hfix
    rw [Frames.Balanced, fork_pages, (ncard_fork hnp hfresh hfin).2]
    rcases hexact.ref f hfix with ⟨hcount, href⟩ | ⟨hcount, hnone⟩
    · have hle := hrange f
      rw [fork_ref hnp (href.trans (i8_of_le (by omega)).symm), hcount]
      simp
    · have hsum := ncard_withoutTable (q := p) hfin
      have hvisits := length_visits_of_entries hfin (by omega : s.entries p f = 0) (s.forkList p)
      rw [hcount, hnone, hvisits, List.length_eq_zero_iff.1 hvisits]
      simp [i8]
  refine ⟨fun h f hfix => (hframe f hfix).1 (h.ref f hfix), fun h => ⟨fun f hfix =>
    (ncard_fork hnp hfresh (hexact.finite f hfix)).1, by rw [fork_pages]; exact hexact.freed,
    fun f hfix => (hframe f hfix).2 (h f hfix)⟩⟩

/-- The child's sections are visited like the parent's. -/
theorem length_visits_fork (hq : q = p ∨ q = np) :
    ((s.fork p np).visits q ((s.fork p np).freeList q) f).length =
      (s.visits p (s.freeList p) f).length := by
  have hperm : ((s.fork p np).freeList q).Perm (s.freeList p) := by
    rw [freeList, fork_sections]
    rcases hq with rfl | rfl
    · rw [update_of_ne hnp]
      rfl
    · rw [update_self]
      exact (List.reverse_perm _).flatMap_right _
  refine (hperm.filter _).length_eq.trans (congrArg List.length (List.filter_congr fun v hv => ?_))
  obtain ⟨st, hst, hmem⟩ := List.mem_flatMap.1 hv
  have hv : v ∈ s.forkList p := List.mem_flatMap.2 ⟨st, hst, st.freePages_subset v hmem⟩
  have hframe : ((s.fork p np).pt q v).frame = (s.pt p v).frame := by
    rw [fork_pt hnp hfresh, if_pos hv]
    rcases hq with rfl | rfl
    · rw [if_pos rfl, Pte.frame_readOnly]
    · rw [if_neg (Ne.symm hnp), if_pos rfl, Pte.frame_forked]
  rw [hframe]

theorem readOnce_fork :
    (((s.fork p np).sections p).Pairwise ((s.fork p np).ReadOnce p) ↔
      (s.sections p).Pairwise (s.ReadOnce p)) ∧
    ((s.fork p np).sections np).Pairwise ((s.fork p np).ReadOnce np) := by
  have hparent : ∀ v slot, (s.fork p np).pt p v = .disk slot ↔ s.pt p v = .disk slot := by
    intro v slot
    rw [fork_pt hnp hfresh]
    cases he : s.pt p v <;> split_ifs <;> simp [Pte.readOnly]
  have hchild : ∀ v slot, (s.fork p np).pt np v ≠ .disk slot := by
    intro v slot
    rw [fork_pt hnp hfresh, if_neg hnp.symm, hfresh]
    cases he : s.pt p v <;> split_ifs <;> simp [Pte.forked]
  constructor
  · rw [fork_sections, update_of_ne hnp]
    exact List.Pairwise.iff fun a b => by simp only [ReadOnce, ne_eq, hparent]
  · exact List.pairwise_of_forall fun _ _ _ v _ _ => hchild v

/-- **The counts through `fork` and `free_sections`.** Let `ref` be the
number of valid entries before `fork`. It is so after `fork` if and only if
the visits of `fork` to the entries of a frame are, in the eight bits of
the count, as many as the entries it visits. It is so again when the parent
or the child has freed its sections and with them its page table, and then
no frame is lost, if and only if moreover `free_sections` makes as many
visits to the entries of a frame as the parent has, and as the child got,
and visits a page that it has read in once. -/
theorem counts_exact (hexact : s.Exact E) (hrange : ∀ f, s.frames.ref f ≤ 127) :
    ((s.fork p np).Exact E ↔ s.Counts E p) ∧
    ((∀ st ∈ s.sections p, st.swap = false) → ∀ q, q = p ∨ q = np →
      ∃ s', (s.fork p np).freePgdir E q = some s') ∧
    ∀ s₁ s₂, (s.fork p np).freePgdir E p = some s₁ → (s.fork p np).freePgdir E np = some s₂ →
      ((s.fork p np).Exact E ∧ s.Keeps E s₁ ∧ s.Keeps E s₂ ↔
        s.Counts E p ∧ (∀ f, E.layout.fixed f = false →
          (s.visits p (s.freeList p) f).length = s.entries p f ∧
          (s.visits p (s.freeList p) f).length = (s.visits p (s.forkList p) f).toFinset.card) ∧
        (s.sections p).Pairwise (s.ReadOnce p)) := by
  have hfork := fork_exact_iff hnp hfresh hexact hrange
  refine ⟨hfork, fun hswap q hq => ?_, fun s₁ s₂ hs₁ hs₂ => ?_⟩
  · rw [freePgdir, freeSections_eq fun st hst => hswap st ((mem_fork_sections hnp hq).1 hst)]
    exact ⟨_, rfl⟩
  rw [← hfork]
  refine and_congr_right fun h => ?_
  have hfew : ∀ f, E.layout.fixed f = false → (holders (s.fork p np).mapped f).ncard ≤ 127 := by
    intro f hfix
    have hcount := hfork.1 h f hfix
    rw [(ncard_fork hnp hfresh (hexact.finite f hfix)).2]
    have hle := i8_le ((holders s.mapped f).ncard + (s.visits p (s.forkList p) f).length : ℕ)
    omega
  -- a frame of the parent is one after `fork`
  have hfound : ∀ f, Accounted s.frames s.mapped f →
      Accounted (s.fork p np).frames (s.fork p np).mapped f := by
    rintro f (hf | ⟨x, hx⟩)
    · exact Or.inl (by rw [fork_pages]; exact hf)
    · have hmem : x ∈ holders (s.fork p np).mapped f := by
        rw [holders_fork hnp hfresh]
        exact Or.inl hx
      exact Or.inr ⟨x, hmem⟩
  have hkeeps : ∀ {q s'}, (s.fork p np).freePgdir E q = some s' → (s.Keeps E s' ↔ s'.Exact E) :=
    fun hs' => and_iff_left_of_imp fun h' f hfix hf =>
      (freePgdir_exact_iff h hfew hs').2 h' f hfix (hfound f hf)
  obtain ⟨hparent, hchild⟩ := readOnce_fork hnp hfresh
  rw [hkeeps hs₁, hkeeps hs₂, (freePgdir_exact_iff h hfew hs₁).1, (freePgdir_exact_iff h hfew hs₂).1,
    hparent, and_iff_left hchild, and_right_comm, ← forall₂_and]
  refine and_congr_left fun _ => forall₂_congr fun f hfix => ?_
  obtain ⟨hp, hc⟩ := entries_fork hnp hfresh f
  rw [length_visits_fork hnp hfresh (Or.inl rfl), length_visits_fork hnp hfresh (Or.inr rfl), hp, hc]

end

/-- Process 0 with one page mapped. -/
def onePage (sections : List Section) (v : ℕ) : Memory ℕ :=
  { oneProcess 0 sections with
    frames := { ref := fun f => if f = 200 then 1 else 0, pages := [201, 202], data := fun _ _ => 0 }
    pt := fun p w => if p = 0 ∧ w = v then .page false 200 else .null }

theorem onePage_frame (sections : List Section) (v p w : ℕ) :
    ((onePage sections v).pt p w).frame = if p = 0 ∧ w = v then some 200 else none := by
  simp only [onePage]
  split <;> rfl

theorem onePage_holders (sections : List Section) (v f : ℕ) :
    holders (onePage sections v).mapped f = if f = 200 then {(0, v)} else ∅ := by
  ext ⟨p, w⟩
  rw [mem_holders, mapped, onePage_frame]
  by_cases hf : f = 200
  · simp [hf]
  · simp [hf, Ne.symm hf]

theorem onePage_visits (sections : List Section) (l : List ℕ) (v f : ℕ) :
    (onePage sections v).visits 0 l f = if f = 200 then l.filter (· = v) else [] := by
  by_cases hf : f = 200
  · simp [visits, onePage_frame, hf]
  · simp [visits, onePage_frame, hf, Ne.symm hf]

theorem onePage_exact (sections : List Section) (v : ℕ) :
    (onePage sections v).Exact plainEnv := by
  have hpages : (onePage sections v).frames.pages = [201, 202] := rfl
  refine ⟨fun f _ => ?_, by rw [hpages]; decide, fun f _ => ?_⟩
  · rw [onePage_holders]
    split
    · exact Set.finite_singleton _
    · exact Set.finite_empty
  · rw [onePage_holders, Frames.Balanced, hpages]
    by_cases hf : f = 200
    · simp [hf, onePage]
    · simp only [hf, onePage, List.count_cons, List.count_nil, if_false, Set.ncard_empty]
      grind

/-- Two sections that meet at 0x5000, where only the page before is mapped:
`fork` visits the page after it twice, and finds no valid entry. -/
theorem counts_exact_adjacent :
    let s := onePage [heapSection 0x4000 0x5000, heapSection 0x5000 0x6000] 4
    (s.fork 0 1).Exact plainEnv ∧ ∀ q, q = 0 ∨ q = 1 →
      ∃ s', (s.fork 0 1).freePgdir plainEnv q = some s' ∧ s'.Exact plainEnv := by
  intro s
  have hentries : ∀ f, s.entries 0 f = if f = 200 then 1 else 0 := by
    intro f
    rw [entries, onePage_holders, Set.sep_eq_self_iff_mem_true.2 (by split <;> simp)]
    split <;> simp
  have hrange : ∀ f, s.frames.ref f ≤ 127 := by
    intro f
    simp only [s, onePage]
    split <;> omega
  have hcounts : s.Counts plainEnv 0 := by
    intro f _
    rw [onePage_visits, onePage_holders]
    by_cases hf : f = 200
    · simp only [hf, if_true, Set.ncard_singleton]
      decide
    · simp [hf, i8]
  obtain ⟨-, hreturns, hiff⟩ := counts_exact (E := plainEnv) (by decide : (0 : ℕ) ≠ 1)
    (fun v => by simp [onePage]) (onePage_exact _ _) hrange
  obtain ⟨s₁, hs₁⟩ := hreturns (by decide) 0 (Or.inl rfl)
  obtain ⟨s₂, hs₂⟩ := hreturns (by decide) 1 (Or.inr rfl)
  have hkept := (hiff s₁ s₂ hs₁ hs₂).2 ⟨hcounts, fun f _ => ?_,
    List.pairwise_pair.2 fun hswap => by cases hswap⟩
  · refine ⟨hkept.1, fun q hq => ?_⟩
    rcases hq with rfl | rfl
    · exact ⟨s₁, hs₁, hkept.2.1.1⟩
    · exact ⟨s₂, hs₂, hkept.2.2.1⟩
  · rw [onePage_visits, onePage_visits, hentries]
    by_cases hf : f = 200
    · simp only [hf, if_true]
      decide
    · simp [hf]

/-- **Adjacent sections break the counts.** Process 0 has two sections that
meet at 0x5000, and the page from there on is mapped. `fork` visits it for
either section: three references for two entries. When both processes have
freed their sections, nobody maps the frame, and it is not free. -/
theorem counts_broken : ∃ s : Memory ℕ, s.Exact plainEnv ∧ s.sections 0 =
      [heapSection 0x4000 0x5000, heapSection 0x5000 0x6000] ∧ (∀ v, s.pt 1 v = .null) ∧
    (s.fork 0 1).frames.ref 200 = 3 ∧ (holders (s.fork 0 1).mapped 200).ncard = 2 ∧
    ∃ s₁ s₂, (s.fork 0 1).freePgdir plainEnv 0 = some s₁ ∧ s₁.freePgdir plainEnv 1 = some s₂ ∧
      s₂.frames.ref 200 = 1 ∧ 200 ∉ s₂.frames.pages ∧
      s₂.pt 0 5 = .null ∧ s₂.pt 1 5 = .null := by
  have hfree : (((onePage [heapSection 0x4000 0x5000, heapSection 0x5000 0x6000] 5).fork 0 1).freePgdir
      plainEnv 0).bind (fun s₁ => (s₁.freePgdir plainEnv 1).map fun s₂ =>
        decide (s₂.frames.ref 200 = 1 ∧ 200 ∉ s₂.frames.pages ∧ s₂.pt 0 5 = .null ∧
          s₂.pt 1 5 = .null)) = some true := by decide +kernel
  obtain ⟨s₁, hs₁, hfree⟩ := Option.bind_eq_some_iff.1 hfree
  obtain ⟨s₂, hs₂, hfree⟩ := Option.map_eq_some_iff.1 hfree
  have hexact := onePage_exact [heapSection 0x4000 0x5000, heapSection 0x5000 0x6000] 5
  refine ⟨onePage [heapSection 0x4000 0x5000, heapSection 0x5000 0x6000] 5, hexact, rfl,
    fun v => by simp [onePage], by decide +kernel, ?_, s₁, s₂, hs₁, hs₂, of_decide_eq_true hfree⟩
  rw [(ncard_fork (by decide) (fun v => by simp [onePage]) (hexact.finite 200 rfl)).2,
    onePage_holders, onePage_visits, if_pos rfl, Set.ncard_singleton, if_pos rfl]
  decide

end Memory

end OsKernel.Paging
