import OsKernel.Common.Chain
import OsKernel.Common.Run
import OsKernel.Paging.Model.Frames

/-!
# The count of the free pages

`kalloc_page` and `kfree_page` of `kernel/mem.c` with the linked list of the
free pages, `alloc_page_cnt` and the indices into `page_ref`, by kernel
addresses. `kalloc_page` decrements the count before it looks at the list, and
takes the index of whatever it gets: with a page it keeps the count and stays
inside of the array, and with `NULL` it does neither. `kfree_page` links the
page whether or not it is in the list already.
-/

namespace OsKernel.Mem

open Paging

/-! ## Model -/

/-- `KSPACE_MASK`. -/
def kspaceMask : ℕ := 0xffff000000000000

/-- `PHYSTOP`. -/
def phystop : ℕ := 0x3f000000

/-- `K2P(p) / PAGE_SIZE`. -/
def pageIndex (p : ℕ) : ℕ := (p + (2 ^ 64 - kspaceMask)) % 2 ^ 64 / pageSize

/-- The free list, by the kernel addresses of the pages, the count and the
references. -/
structure PageState where
  /-- `pages`, the first free page. -/
  head : Option ℕ
  /-- `next` of a page as a `QueueNode`. -/
  next : ℕ → Option ℕ
  /-- `alloc_page_cnt.count`. -/
  cnt : ℤ
  /-- `page_ref[i].ref`. -/
  ref : ℕ → ℤ
  zeroPage : ℕ

/-- What can happen next. -/
inductive PageAct where
  | kalloc
  | kfree (p : ℕ)
  /-- The initialiser of `zero_page`. -/
  | initZero

namespace PageState

/-- `_increment_rc(&alloc_page_cnt)` and `add_to_queue(&pages, p)`. -/
def push (s : PageState) (p : ℕ) : PageState :=
  { s with head := some p, next := Function.update s.next p s.head, cnt := s.cnt + 1 }

/-- The initialiser of `pages`, for a kernel image whose last page is at
`base`. -/
def init (base : ℕ) : PageState :=
  (List.range' (base + pageSize) ((kspaceMask + phystop - base - 1) / pageSize) pageSize).foldl push
    ⟨none, fun _ => none, 0, fun _ => 0, 0⟩

/-- `kalloc_page`: what it returns, and the new state. -/
def kallocPage (s : PageState) : ℕ × PageState :=
  let p := s.head.getD 0
  (p, { s with
    head := s.head.bind s.next
    cnt := s.cnt - 1
    ref := Function.update s.ref (pageIndex p) 0 })

/-- Does `kfree_page` leave the page alone? -/
def keeps (s : PageState) (base p : ℕ) : Bool := p = s.zeroPage ∨ p < base

/-- `kfree_page`. -/
def kfreePage (s : PageState) (base p : ℕ) : PageState :=
  if s.keeps base p then s
  else
    let ref := i8 (s.ref (pageIndex p) - 1)
    let s := { s with ref := Function.update s.ref (pageIndex p) ref }
    if ref ≤ 0 then s.push p else s

/-- A call. -/
def step (base : ℕ) (s : PageState) : PageAct → Option PageState
  | .kalloc => some s.kallocPage.2
  | .kfree p => some (s.kfreePage base p)
  | .initZero => some { s.kallocPage.2 with zeroPage := s.kallocPage.1 }

/-- The index into `page_ref` that a call uses. -/
def index (base : ℕ) (s : PageState) : PageAct → Option ℕ
  | .kalloc | .initZero => some (pageIndex s.kallocPage.1)
  | .kfree p => if s.keeps base p then none else some (pageIndex p)

end PageState

open PageState

variable {base p : ℕ} {s s' : PageState} {a : PageAct} {l : List ℕ}

/-- The kernel address of a byte of memory. -/
def InMemory (p : ℕ) : Prop := kspaceMask ≤ p ∧ p < kspaceMask + phystop

theorem pageIndex_lt (h : InMemory p) : pageIndex p < phystop / pageSize := by
  obtain ⟨hlo, hhi⟩ := h
  simp only [pageIndex, kspaceMask, phystop, pageSize] at *
  omega

namespace PageState

/-- The pages `l` are those on the free list. -/
def OnList (s : PageState) (l : List ℕ) : Prop := Chain s.next s.head l

/-- The list is linked and has pages of memory, and the count is right. -/
structure Inv (s : PageState) (l : List ℕ) : Prop where
  list : s.OnList l
  cnt : s.cnt = l.length
  pages : ∀ p ∈ l, InMemory p

theorem Inv.push (h : s.Inv l) (hp : InMemory p) (hl : p ∉ l) : (s.push p).Inv (p :: l) where
  list := (h.list.update hl s.head).push (Function.update_self ..)
  cnt := by
    simp only [PageState.push, List.length_cons, h.cnt]
    omega
  pages := List.forall_mem_cons.2 ⟨hp, h.pages⟩

theorem Inv.pushes {ps : List ℕ} (h : s.Inv l) (hps : ∀ p ∈ ps, InMemory p)
    (hnodup : (ps ++ l).Nodup) : ∃ l', (ps.foldl PageState.push s).Inv l' := by
  induction ps generalizing s l with
  | nil => exact ⟨l, h⟩
  | cons p ps ih =>
    have hperm : (ps ++ p :: l).Nodup := List.perm_middle.nodup_iff.2 hnodup
    have hp : p ∉ l := fun hp => List.disjoint_of_nodup_append hnodup (by simp) hp
    exact ih (h.push (hps p (by simp)) hp) (fun q hq => hps q (by simp [hq])) hperm

theorem Inv.init (hbase : kspaceMask ≤ base) : ∃ l, (init base).Inv l := by
  refine Inv.pushes (l := []) ⟨.nil, rfl, by simp⟩ (fun p hp => ?_) ?_
  · obtain ⟨i, hi, rfl⟩ := List.mem_range'.1 hp
    simp only [InMemory, kspaceMask, phystop, pageSize] at *
    omega
  · rw [List.append_nil]
    exact List.nodup_range' pageSize (by decide)

/-- With a page in the list, `kalloc_page` takes it. -/
theorem Inv.kalloc (h : s.Inv l) (hne : s.head ≠ none) :
    (∃ l', s.kallocPage.2.Inv l') ∧ InMemory s.kallocPage.1 := by
  obtain ⟨q, hq⟩ := Option.ne_none_iff_exists'.1 hne
  have hlist := h.list
  rw [OnList, hq] at hlist
  obtain ⟨t, rfl, ht⟩ := hlist.pop
  have hcnt := h.cnt
  have hpages := List.forall_mem_cons.1 h.pages
  simp only [kallocPage, hq, Option.getD_some, Option.bind_some]
  refine ⟨⟨t, ht, ?_, hpages.2⟩, hpages.1⟩
  simp only [List.length_cons] at hcnt
  simp only
  omega

/-- The calls that keep the list: `kfree_page` is given a page of memory that is
not on the list, and `kalloc_page` finds one. -/
def Proper (s : PageState) (a : PageAct) : Prop :=
  (∀ p, a = .kfree p → InMemory p ∧ ∀ l, s.OnList l → p ∉ l) ∧
    ((∀ p, a ≠ .kfree p) → s.head ≠ none)

/-- **Every such call keeps the invariant** and uses an index of the array. -/
theorem Inv.step (h : s.Inv l) (hs : s.step base a = some s') (ha : s.Proper a) :
    (∃ l', s'.Inv l') ∧ ∀ i, s.index base a = some i → i < phystop / pageSize := by
  cases a with
  | kalloc =>
    obtain rfl := Option.some.inj hs
    obtain ⟨hinv, hmem⟩ := h.kalloc (ha.2 (by simp))
    refine ⟨hinv, ?_⟩
    rintro i ⟨⟩
    exact pageIndex_lt hmem
  | initZero =>
    obtain rfl := Option.some.inj hs
    obtain ⟨⟨l', hinv⟩, hmem⟩ := h.kalloc (ha.2 (by simp))
    refine ⟨⟨l', hinv.list, hinv.cnt, hinv.pages⟩, ?_⟩
    rintro i ⟨⟩
    exact pageIndex_lt hmem
  | kfree p =>
    obtain rfl := Option.some.inj hs
    obtain ⟨hp, hnew⟩ := ha.1 p rfl
    simp only [index, kfreePage]
    split_ifs
    · exact ⟨⟨l, h⟩, by simp⟩
    · refine ⟨⟨_, Inv.push ⟨h.list, h.cnt, h.pages⟩ hp (hnew l h.list)⟩, ?_⟩
      rintro i ⟨⟩
      exact pageIndex_lt hp
    · refine ⟨⟨l, h.list, h.cnt, h.pages⟩, ?_⟩
      rintro i ⟨⟩
      exact pageIndex_lt hp

end PageState

/-- **The count is that of the free pages, while `kalloc_page` is not called
with none left** and no page is freed that is free. Then every index into
`page_ref` is inside of the array. -/
theorem page_count_exact {tr : List (PageState × PageAct)} (hbase : kspaceMask ≤ base)
    (hrun : Run (PageState.step base) (init base) tr s) (hok : ∀ x ∈ tr, x.1.Proper x.2) :
    (∃ l, s.OnList l ∧ s.cnt = l.length) ∧
      ∀ x ∈ tr, ∀ i, x.1.index base x.2 = some i → i < phystop / pageSize := by
  have hinv : ∀ {tr' : List (PageState × PageAct)} {t : PageState},
      Run (PageState.step base) (init base) tr' t → tr' <+: tr → ∃ l, t.Inv l := by
    intro tr' t hrun' hpre
    refine hrun'.invariantOf (K := Proper) (I := fun t => ∃ l, t.Inv l)
      (fun x hx => hok x (hpre.subset hx)) (Inv.init hbase) ?_
    rintro t a t' ⟨l, h⟩ hk hs
    exact (h.step hs hk).1
  refine ⟨?_, fun x hx => ?_⟩
  · obtain ⟨l, h⟩ := hinv hrun (List.prefix_refl tr)
    exact ⟨l, h.list, h.cnt⟩
  · obtain ⟨tr', t, hrun', hs, hpre⟩ := hrun.of_mem hx
    obtain ⟨l, h⟩ := hinv hrun' hpre
    exact (h.step hs (hok x hx)).2

/-- The kernel image ends before the last three pages. -/
def lastBase : ℕ := kspaceMask + phystop - 4 * pageSize

/-- The last page is the zero page, and the one below it comes back and is
taken again. -/
def reused : List PageAct :=
  [.initZero, .kalloc, .kfree (lastBase + 2 * pageSize), .kalloc]

theorem page_count_exact_reused : ∃ s,
    exec (PageState.step lastBase) (init lastBase) reused = some s ∧
    s.head = some (lastBase + pageSize) ∧ ∃ l, s.OnList l ∧ s.cnt = l.length := by
  refine ⟨_, rfl, by decide +kernel, (page_count_exact (by decide : kspaceMask ≤ lastBase)
    (Run.of_exec (rfl : exec _ _ reused = _)) fun x hx => ?_).1⟩
  -- the page is freed while the lowest page is the only one in the list
  have hall : ((execTrace (PageState.step lastBase) (init lastBase) reused).all fun x =>
      match x.2 with
      | .kfree p => p = lastBase + 2 * pageSize ∧ x.1.head = some (lastBase + pageSize) ∧
          x.1.next (lastBase + pageSize) = none
      | _ => x.1.head ≠ none) = true := by
    decide +kernel
  obtain ⟨t, a⟩ := x
  have ha := List.all_eq_true.1 hall _ hx
  cases a with
  | kfree p =>
    obtain ⟨rfl, hhead, hnext⟩ := of_decide_eq_true ha
    refine ⟨?_, fun hne => absurd rfl (hne _)⟩
    rintro _ ⟨⟩
    refine ⟨⟨by decide, by decide⟩, fun l hl => ?_⟩
    rw [OnList, hhead] at hl
    obtain ⟨rest, rfl, hrest⟩ := hl.pop
    rw [hnext] at hrest
    cases hrest
    decide
  | kalloc => exact ⟨by simp, fun _ => of_decide_eq_true ha⟩
  | initZero => exact ⟨by simp, fun _ => of_decide_eq_true ha⟩

/-- **With no page left `kalloc_page` returns `NULL`**, but it has
decremented the count, and has written `page_ref[2^36]`. -/
theorem page_count_empty :
    let s : PageState := ⟨none, fun _ => none, 0, fun _ => 0, 0⟩
    s.kallocPage.1 = 0 ∧ s.kallocPage.2.cnt = -1 ∧ s.index 0 .kalloc = some (2 ^ 36) ∧
      phystop / pageSize < 2 ^ 36 := by
  decide

end OsKernel.Mem
