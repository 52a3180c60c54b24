import OsKernel.Paging.Helpers.Loops

/-!
# What `fork` duplicates

The child has the pages that the parent has in memory, under `PTE_RO`
(`fork_pt`). Pages that are swapped out have no valid entry, and `fork`
passes over them.
-/

namespace OsKernel.Paging

open Function

/-- No page is visited by `fork` for both sections. -/
def Section.Apart (a b : Section) : Prop :=
  a.endVa / pageSize < b.beginVa / pageSize ∨ b.endVa / pageSize < a.beginVa / pageSize

theorem Section.mem_forkPages {st : Section} {va : ℕ} (hbegin : st.beginVa ≤ va)
    (hend : va < st.endVa) : va / pageSize ∈ st.forkPages := by
  simp only [forkPages, List.mem_range'_1, pageSize]
  omega

/-- Sections that are apart have no page twice. -/
theorem nodup_flatMap_forkPages {l : List Section} (h : l.Pairwise Section.Apart) :
    (l.flatMap Section.forkPages).Nodup := by
  refine List.nodup_flatMap.2 ⟨fun st _ => List.nodup_range', h.imp fun {a b} hab v ha hb => ?_⟩
  simp only [Section.forkPages, List.mem_range'_1] at ha hb
  simp only [Section.Apart] at hab
  omega

theorem nodup_flatMap_freePages {l : List Section} (h : l.Pairwise Section.Apart) :
    (l.flatMap Section.freePages).Nodup := by
  refine List.nodup_flatMap.2 ⟨fun st _ => st.nodup_freePages, h.imp fun {a b} hab v ha hb => ?_⟩
  replace ha := a.freePages_subset v ha
  replace hb := b.freePages_subset v hb
  simp only [Section.forkPages, List.mem_range'_1] at ha hb
  simp only [Section.Apart] at hab
  omega

namespace Memory

variable {P : Type} [DecidableEq P] {E : Env} {s s' : Memory P} {p np q : P} {f v w va : ℕ}

/-! ## The page tables after `fork` -/

/-- The pages that `fork` visits. -/
def forkList (s : Memory P) (p : P) : List ℕ := (s.sections p).flatMap Section.forkPages

theorem fork_eq (s : Memory P) (p np : P) :
    s.fork p np = (s.forkList p).foldl (forkPage p np)
      { s with
        live := update s.live np true
        sections := update s.sections np (copySections (s.sections p)) } := by
  rw [fork, forkList, List.foldl_flatMap]

/-- **The page tables after `fork`.** -/
theorem fork_pt (hnp : p ≠ np) (hfresh : ∀ v, s.pt np v = .null) (q : P) (w : ℕ) :
    (s.fork p np).pt q w =
      if w ∈ s.forkList p then if q = p then (s.pt p w).readOnly
        else if q = np then (s.pt p w).forked else s.pt q w
      else s.pt q w := by
  rw [fork_eq]
  exact forkLoop_pt hnp fun w => Or.inl (hfresh w)

theorem fork_data (s : Memory P) (p np : P) : (s.fork p np).frames.data = s.frames.data := by
  rw [fork_eq]
  exact (forkLoop_frame p np _ _).2.2.2.2.2

theorem fork_pages (s : Memory P) (p np : P) : (s.fork p np).frames.pages = s.frames.pages := by
  rw [fork_eq]
  exact (forkLoop_frame p np _ _).2.2.2.2.1

theorem fork_sections (s : Memory P) (p np : P) : (s.fork p np).sections =
    update s.sections np (copySections (s.sections p)) := by
  rw [fork_eq]
  exact (forkLoop_frame p np _ _).1

/-- Parent and child have the same sections after `fork`. -/
theorem mem_fork_sections (hnp : p ≠ np) (hq : q = p ∨ q = np) {st : Section} :
    st ∈ (s.fork p np).sections q ↔ st ∈ s.sections p := by
  rw [fork_sections]
  rcases hq with rfl | rfl
  · rw [update_of_ne hnp]
  · rw [update_self, copySections, List.mem_reverse]

theorem read_of_page {ro : Bool} (h : s.pt p (va / pageSize) = .page ro f) :
    s.read E p va = some (s.frames.data f (va % pageSize), s) := by
  simp only [read, h]

/-- The byte that `p` has at an address: in its page, or where the page was
swapped out to. -/
def value (s : Memory P) (p : P) (va : ℕ) : Option UInt8 :=
  match s.pt p (va / pageSize) with
  | .null => none
  | .page _ f => some (s.frames.data f (va % pageSize))
  | .disk slot => some (s.disk slot (va % pageSize))

/-- The same address spaces, with something else in the pages and in the
swap area. -/
def withContents (s : Memory P) (data disk : ℕ → Page) : Memory P :=
  { s with frames := { s.frames with data := data }, disk := disk }

/-- The child reads what the parent had at the time of `fork`, and the
parent still does. -/
def Duplicates (E : Env) (s : Memory P) (p np : P) (va : ℕ) : Prop :=
  ∃ b, s.value p va = some b ∧ ((s.fork p np).read E np va).map Prod.fst = some b ∧
    ((s.fork p np).read E p va).map Prod.fst = some b

omit [DecidableEq P] in
theorem sectionOf_eq_some {i : ℕ} (h : s.sectionOf p va = some i) :
    ∃ st, (s.sections p)[i]? = some st ∧ st.beginVa ≤ va ∧ va < st.endVa := by
  obtain ⟨hi, hin, -⟩ := List.findIdx?_eq_some_iff_getElem.1 h
  exact ⟨_, List.getElem?_eq_getElem hi, by simpa using hin⟩

/-- A process that has nothing swapped out reads nothing in. -/
theorem swapin_data {i : ℕ} (hdisk : ∀ v slot, s.pt p v ≠ .disk slot)
    (hs : s.swapin p i = some s') : s'.frames = s.frames ∧ s'.pt = s.pt := by
  obtain ⟨st, -, hs⟩ := Option.bind_eq_some_iff.1 hs
  obtain ⟨-, hs⟩ := of_guarded hs
  obtain ⟨s₁, hs₁, rfl⟩ := Option.map_eq_some_iff.1 hs
  have hloop : ∀ l : List ℕ, l.foldlM (swapinPage p) s = some s₁ → s₁ = s := by
    intro l
    induction l with
    | nil => exact fun h => (Option.some.inj h).symm
    | cons v l ih =>
      intro h
      rw [List.foldlM_cons] at h
      obtain ⟨s₂, hs₂, h⟩ := Option.bind_eq_some_iff.1 h
      cases he : s.pt p v with
      | null =>
        simp only [swapinPage, he, Option.some.injEq] at hs₂
        exact ih (hs₂ ▸ h)
      | page ro f => simp only [swapinPage, he, reduceCtorEq] at hs₂
      | disk slot => exact absurd he (hdisk v slot)
  rw [hloop _ hs₁]
  exact ⟨rfl, rfl⟩

/-- A `pgfault` at an address without an entry, outside of the files, takes
a page as it is. -/
theorem pgfault_data (hnull : s.pt p (va / pageSize) = .null)
    (hdisk : ∀ v slot, s.pt p v ≠ .disk slot)
    (hanon : ∀ st ∈ s.sections p, st.beginVa ≤ va → va < st.endVa → st.file = false)
    (hs : s.pgfault E p va = some s') : s'.frames.data = s.frames.data := by
  obtain ⟨s₁, hs₁, hs⟩ := Option.bind_eq_some_iff.1 hs
  obtain ⟨i, hi, hs₁⟩ := Option.bind_eq_some_iff.1 hs₁
  obtain ⟨st, hst, hbegin, hend⟩ := sectionOf_eq_some hi
  simp only [hst, Option.bind_some, hnull, hanon st (List.mem_of_getElem? hst) hbegin hend,
    Bool.false_eq_true, if_false] at hs₁
  obtain ⟨s₂, hs₂, hs₁⟩ := Option.bind_eq_some_iff.1 hs₁
  have hsame : s₂.frames = s.frames ∧ s₂.pt = s.pt := by
    split_ifs at hs₂
    · exact swapin_data hdisk hs₂
    · rw [Option.some.inj hs₂]
      exact ⟨rfl, rfl⟩
  rw [if_pos (by rw [hsame.2, hnull]), allocPageForUser, Option.map_map] at hs₁
  obtain ⟨⟨ka, frames⟩, halloc, rfl⟩ := Option.map_eq_some_iff.1 hs₁
  have hdata : frames.data = s₂.frames.data := by
    unfold Frames.kallocPage at halloc
    split at halloc
    · cases halloc
    · obtain ⟨-, rfl⟩ := pair_inj halloc
      rfl
  simp only [Function.comp_apply, update_self, if_true, Option.bind_some, faultMap,
    Option.some.injEq] at hs
  subst hs
  exact hdata.trans (congrArg Frames.data hsame.1)

/-- **What `fork` duplicates.** An address at which the parent has a byte is
read with that byte by the child and by the parent after `fork`, whatever
is in the pages and in the swap area, if and only if `fork` visits its page
and the page is in memory. What is swapped out is not in a section of a
file. -/
theorem fork_duplicates (hnp : p ≠ np) (hfresh : ∀ v, s.pt np v = .null)
    (hhas : s.pt p (va / pageSize) ≠ .null)
    (hanon : ∀ slot, s.pt p (va / pageSize) = .disk slot →
      ∀ st ∈ s.sections p, st.beginVa ≤ va → va < st.endVa → st.file = false) :
    (∀ data disk, (s.withContents data disk).Duplicates E p np va) ↔
      va / pageSize ∈ s.forkList p ∧ (s.pt p (va / pageSize)).frame.isSome := by
  have hpt : ∀ data disk q w, ((s.withContents data disk).fork p np).pt q w =
      if w ∈ s.forkList p then if q = p then (s.pt p w).readOnly
        else if q = np then (s.pt p w).forked else s.pt q w
      else s.pt q w := fun data disk => fork_pt hnp hfresh
  constructor
  · intro hall
    by_contra hnot
    have hnull : ∀ data disk, ((s.withContents data disk).fork p np).pt np (va / pageSize) =
        .null := by
      intro data disk
      rw [hpt, if_neg (Ne.symm hnp), if_pos rfl, hfresh, ite_eq_right_iff]
      intro hmem
      cases he : s.pt p (va / pageSize) with
      | page ro f => exact absurd ⟨hmem, by rw [he]; rfl⟩ hnot
      | null | disk _ => rfl
    -- other bytes in the pages than in the swap area
    obtain ⟨b, hvalue, hchild, -⟩ := hall (fun _ _ => 0) fun _ _ => 1
    simp only [read, hnull] at hchild
    obtain ⟨⟨_, s₁⟩, hread, rfl⟩ := Option.map_eq_some_iff.1 hchild
    obtain ⟨s₂, hfault, hload⟩ := Option.bind_eq_some_iff.1 hread
    have hsections : ∀ st ∈ ((s.withContents (fun _ _ => 0) fun _ _ => 1).fork p np).sections np,
      st ∈ s.sections p := fun st => (mem_fork_sections hnp (Or.inr rfl)).1
    have hmem : va / pageSize ∈ s.forkList p := by
      obtain ⟨s₃, hbegin, -⟩ := Option.bind_eq_some_iff.1 hfault
      obtain ⟨i, hi, -⟩ := Option.bind_eq_some_iff.1 hbegin
      obtain ⟨st, hst, hin⟩ := sectionOf_eq_some hi
      exact List.mem_flatMap.2 ⟨st, hsections st (List.mem_of_getElem? hst),
        Section.mem_forkPages hin.1 hin.2⟩
    cases he : s.pt p (va / pageSize) with
    | null => exact hhas he
    | page ro f => exact hnot ⟨hmem, by rw [he]; rfl⟩
    | disk slot =>
      have hpte : (s.withContents (fun _ _ => 0) fun _ _ => 1).pt p (va / pageSize) =
        .disk slot := he
      simp only [value, hpte, Option.some.injEq] at hvalue
      have hdata := pgfault_data (hnull (fun _ _ => 0) fun _ _ => 1) (fun w slot' => ?_) (fun st hst =>
        hanon slot he st (hsections st hst)) hfault
      · obtain ⟨_, hload, hb⟩ := Option.map_eq_some_iff.1 hload
        obtain ⟨f, -, hf⟩ := Option.map_eq_some_iff.1 hload
        rw [hdata, fork_data] at hf
        rw [← (Prod.mk.inj hb).1, ← hf] at hvalue
        exact absurd hvalue (by decide : (1 : UInt8) ≠ 0)
      · rw [hpt, if_neg (Ne.symm hnp), if_pos rfl, hfresh]
        cases s.pt p w <;> simp [Pte.forked, ite_eq_iff]
  · rintro ⟨hmem, hsome⟩ data disk
    obtain ⟨f, hf⟩ := Option.isSome_iff_exists.1 hsome
    obtain ⟨ro, he⟩ := Pte.frame_eq_some.1 hf
    have hbefore : (s.withContents data disk).pt p (va / pageSize) = .page ro f := he
    have hafter : ∀ q, q = p ∨ q = np →
        ((s.withContents data disk).fork p np).pt q (va / pageSize) = .page true f := by
      intro q hq
      rw [hpt, if_pos hmem, he]
      rcases hq with rfl | rfl
      · rw [if_pos rfl]
        rfl
      · rw [if_neg (Ne.symm hnp), if_pos rfl]
        rfl
    refine ⟨data f (va % pageSize), ?_, ?_, ?_⟩
    · simp only [value, hbefore]
      rfl
    · rw [read_of_page (hafter np (Or.inr rfl)), fork_data]
      rfl
    · rw [read_of_page (hafter p (Or.inl rfl)), fork_data]
      rfl

/-! A process with a heap of one page, on a machine with three free pages. -/

/-- No files, and the kernel image up to page 100. -/
def plainEnv : Env where
  layout := ⟨100, 100⟩
  swapSize := 25
  readInode := fun _ _ => none

/-- An anonymous section. -/
def heapSection (beginVa endVa : ℕ) : Section where
  file := false
  swap := false
  ro := false
  heap := true
  beginVa := beginVa
  endVa := endVa
  ip := 0
  offset := 0

/-- A process with these sections, and no page mapped yet. -/
def oneProcess (root : P) (sections : List Section) : Memory P where
  frames := { ref := fun _ => 0, pages := [200, 201, 202], data := fun _ _ => 0 }
  slots := fun _ => false
  disk := fun _ _ => 0
  live := fun p => p = root
  sections := fun p => if p = root then sections else []
  pt := fun _ _ => .null
  fault := fun _ => none
  kernel := []

/-- Process 0 writes 7 to the end of the page of its heap, which is shorter
than the page, and forks. -/
theorem fork_duplicates_written : ∃ tr s,
    Run (Memory.step plainEnv) (oneProcess 0 [heapSection 0x4000 0x4800]) tr s ∧
    (∀ data disk, (s.withContents data disk).Duplicates plainEnv 0 1 0x4900) := by
  obtain ⟨s, hs, hpte, hsections, hfresh⟩ : ∃ s,
      exec (Memory.step plainEnv) (oneProcess 0 [heapSection 0x4000 0x4800])
        [.fault 0 0x4000, .faultMap 0, .store 0 0x4900 7] = some s ∧
      s.pt 0 (0x4900 / pageSize) = .page false 200 ∧ s.sections 0 = [heapSection 0x4000 0x4800] ∧
      ∀ v, s.pt 1 v = .null := ⟨_, rfl, rfl, rfl, fun _ => rfl⟩
  refine ⟨_, s, Run.of_exec hs, (fork_duplicates (by decide) hfresh ?_ ?_).2 ⟨?_, ?_⟩⟩
  · simp [hpte]
  · simp [hpte]
  · rw [forkList, hsections]
    decide
  · simp [hpte, Pte.frame]

/-- **`fork` does not duplicate what is swapped out.** Process 0 writes 7 to
its heap, the heap is swapped out, and process 0 forks. It still reads 7,
but the child finds nothing to read in and gets a new page. -/
theorem fork_loses_swapped : ∃ tr s s',
    Run (Memory.step plainEnv) (oneProcess 0 [heapSection 0x4000 0x5000]) tr s ∧
    s.step plainEnv (.fork 0 1) = some s' ∧
    (s.read plainEnv 0 0x4000).map Prod.fst = some 7 ∧
    (s'.read plainEnv 0 0x4000).map Prod.fst = some 7 ∧
    (s'.read plainEnv 1 0x4000).map Prod.fst = some 0 := by
  obtain ⟨s, hs, s', hs', hbefore, hparent, hchild⟩ : ∃ s,
      exec (Memory.step plainEnv) (oneProcess 0 [heapSection 0x4000 0x5000])
        [.fault 0 0x4000, .faultMap 0, .store 0 0x4000 7, .swapout 0 0] = some s ∧
      ∃ s', s.step plainEnv (.fork 0 1) = some s' ∧
      (s.read plainEnv 0 0x4000).map Prod.fst = some 7 ∧
      (s'.read plainEnv 0 0x4000).map Prod.fst = some 7 ∧
      (s'.read plainEnv 1 0x4000).map Prod.fst = some 0 :=
    ⟨_, rfl, _, rfl, by decide +kernel, by decide +kernel, by decide +kernel⟩
  exact ⟨_, s, s', Run.of_exec hs, hs', hbefore, hparent, hchild⟩

/-! ## The valid entries -/

/-- The frame that an entry maps. -/
def mapped (s : Memory P) (x : P × ℕ) : Option ℕ := (s.pt x.1 x.2).frame

/-- The valid entries after `fork`. -/
theorem fork_mapped (hnp : p ≠ np) (hfresh : ∀ v, s.pt np v = .null) (x : P × ℕ) :
    (s.fork p np).mapped x =
      if x.1 = np ∧ x.2 ∈ s.forkList p then (s.pt p x.2).frame else s.mapped x := by
  rw [mapped, fork_pt hnp hfresh]
  by_cases hx : x.2 ∈ s.forkList p
  · by_cases hp : x.1 = p
    · rw [if_pos hx, if_pos hp, if_neg fun hmem => hnp (hp.symm.trans hmem.1), mapped, hp,
        Pte.frame_readOnly]
    · by_cases hn : x.1 = np
      · rw [if_pos hx, if_neg hp, if_pos hn, if_pos ⟨hn, hx⟩, Pte.frame_forked]
      · rw [if_pos hx, if_neg hp, if_neg hn, if_neg fun hmem => hn hmem.1, mapped]
  · rw [if_neg hx, if_neg fun hmem => hx hmem.2, mapped]

end Memory

end OsKernel.Paging
