import OsKernel.Paging.Helpers.Cow

/-!
# Copy-on-write isolation

Each process of a tree of forks has a memory of its own: what it has
written since it was forked, on top of what its parent had at that time
(`view`). Whatever the processes do, and in whatever order, a read gives
what is in that memory.
-/

namespace OsKernel.Paging

open Function

namespace Memory

variable {P : Type} [DecidableEq P] {E : Env} {s s' s₀ : Memory P} {p np q root : P} {f v w va : ℕ}
variable {a : Act P} {tr : List (Memory P × Act P)}

/-! ## The memory of a process -/

/-- **The memory that an action leaves to each process**: `fork` copies the
memory of the parent, and a write is to the memory of the process alone. -/
def viewStep (m : P → ℕ → Option UInt8) : Act P → P → ℕ → Option UInt8
  | .fork p np => update m np (m p)
  | .store p va b => update m p (update (m p) va (some b))
  | .exit p => update m p fun _ => none
  | _ => m

/-- The memory of each process after a run from `s₀`. What no process has
written, and was not there in the beginning, is not specified. -/
def view (s₀ : Memory P) (tr : List (Memory P × Act P)) : P → ℕ → Option UInt8 :=
  (tr.map Prod.snd).foldl viewStep s₀.load

/-- **One process, as `execve` leaves it**: its pages are its own, but for
those of `zero_page` and of the kernel image, which it cannot write. -/
structure Start (E : Env) (root : P) (s : Memory P) : Prop where
  live : ∀ q, s.live q = true ↔ q = root
  fault : ∀ q, s.fault q = none
  others : ∀ q, q ≠ root → s.sections q = [] ∧ ∀ v, s.pt q v = .null
  apart : (s.sections root).Pairwise Section.Apart
  noswap : ∀ st ∈ s.sections root, st.swap = false
  inside : ∀ v, s.pt root v ≠ .null → ∃ st ∈ s.sections root, v ∈ st.freePages
  nodisk : ∀ v slot, s.pt root v ≠ .disk slot
  pages : s.frames.pages.Nodup ∧ ∀ f ∈ s.frames.pages, E.layout.fixed f = false
  kernel : s.kernel.Nodup ∧ ∀ f ∈ s.kernel, E.layout.fixed f = false ∧ f ∉ s.frames.pages ∧
    ∀ v, (s.pt root v).frame ≠ some f
  /-- An entry is the only one of its frame, or it is under `PTE_RO`. -/
  entry : ∀ v ro f, s.pt root v = .page ro f → f ∉ s.frames.pages ∧
    (E.layout.fixed f = true → ro = true) ∧ (E.layout.fixed f = false → s.frames.ref f = 1 ∧
      ∀ w, (s.pt root w).frame = some f → w = v)
  idle : ∀ f, E.layout.fixed f = false → f ∉ s.frames.pages →
    (∀ v, (s.pt root v).frame ≠ some f) → s.frames.ref f = 0

theorem Start.held (h : Start E root s) (x : P × ℕ) :
    s.held x = if x.1 = root then (s.pt root x.2).frame else none := by
  obtain ⟨q, w⟩ := x
  rw [held_of_fault_none (h.fault q)]
  by_cases hq : q = root
  · rw [if_pos hq, hq]
  · rw [if_neg hq, (h.others q hq).2]
    rfl

theorem Start.frame (h : Start E root s) {x : P × ℕ} (hx : s.held x = some f) :
    x.1 = root ∧ ∃ ro, s.pt root x.2 = .page ro f := by
  rw [h.held] at hx
  split_ifs at hx with hroot
  exact ⟨hroot, Pte.frame_eq_some.1 hx⟩

/-- In the beginning a frame has one holder or none. -/
theorem Start.holders (h : Start E root s) (hf : E.layout.fixed f = false) :
    (∃ v ro, s.pt root v = .page ro f ∧ OsKernel.holders s.held f = {(root, v)}) ∨
      ((∀ v, (s.pt root v).frame ≠ some f) ∧ OsKernel.holders s.held f = ∅) := by
  by_cases hex : ∃ v, (s.pt root v).frame = some f
  · obtain ⟨v, hv⟩ := hex
    obtain ⟨ro, hro⟩ := Pte.frame_eq_some.1 hv
    refine Or.inl ⟨v, ro, hro, Set.eq_singleton_iff_unique_mem.2 ⟨?_, fun x hx => ?_⟩⟩
    · rw [mem_holders, h.held, if_pos rfl]
      exact hv
    · obtain ⟨hroot, ro', hro'⟩ := h.frame hx
      exact Prod.ext hroot (((h.entry v ro f hro).2.2 hf).2 x.2 (Pte.frame_eq_some.2 ⟨ro', hro'⟩))
  · have hnone : ∀ v, (s.pt root v).frame ≠ some f := fun v hv => hex ⟨v, hv⟩
    refine Or.inr ⟨hnone, Set.eq_empty_iff_forall_notMem.2 fun x hx => ?_⟩
    obtain ⟨-, ro, hro⟩ := h.frame hx
    exact hnone x.2 (Pte.frame_eq_some.2 ⟨ro, hro⟩)

theorem Start.counted (h : Start E root s) : Counted E.layout s.frames s.held := by
  refine ⟨fun f hf => ?_, h.pages.1, fun f hf => ⟨h.pages.2 f hf, ?_⟩, fun f hf hfix => ?_⟩
  · rcases h.holders hf with ⟨v, ro, -, heq⟩ | ⟨-, heq⟩ <;> rw [heq]
    · exact Set.finite_singleton _
    · exact Set.finite_empty
  · refine Set.eq_empty_iff_forall_notMem.2 fun x hx => ?_
    obtain ⟨-, ro, hro⟩ := h.frame hx
    exact (h.entry x.2 ro f hro).1 hf
  · rcases h.holders hfix with ⟨v, ro, hro, heq⟩ | ⟨hnone, heq⟩ <;> rw [heq]
    · rw [((h.entry v ro f hro).2.2 hfix).1, Set.ncard_singleton]
      rfl
    · rw [h.idle f hfix hf hnone, Set.ncard_empty]
      rfl

theorem Start.cow (h : Start E root s) : Cow E s where
  counted := h.counted
  nodup := h.kernel.1
  kernel := fun f hf => by
    obtain ⟨hfix, hfree, hnone⟩ := h.kernel.2 f hf
    refine ⟨hfix, hfree, fun x hx => ?_⟩
    obtain ⟨-, ro, hro⟩ := h.frame hx
    exact hnone x.2 (Pte.frame_eq_some.2 ⟨ro, hro⟩)
  fresh := fun p flt hp => by rw [h.fault] at hp; cases hp
  distinct := fun p q a b hp => by rw [h.fault] at hp; cases hp
  space := fun p => by
    rw [h.fault]
    by_cases hp : p = root
    · subst hp
      rw [(h.live p).2 rfl]
      exact .idle h.apart h.noswap h.inside h.nodisk fun hdead => by cases hdead
    · rw [(h.others p hp).1, show s.pt p = fun _ => .null from funext (h.others p hp).2]
      exact .empty _
  writable := fun p v f hp => by
    have hroot : p = root := by
      by_contra hne
      rw [(h.others p hne).2] at hp
      cases hp
    subst hroot
    obtain ⟨-, hro, hone⟩ := h.entry v false f hp
    have hfix : E.layout.fixed f = false := by
      cases hfix : E.layout.fixed f with
      | false => rfl
      | true => exact absurd (hro hfix) nofun
    refine ⟨hfix, fun x hx => ?_⟩
    obtain ⟨hx₁, ro, hx₂⟩ := h.frame hx
    exact Prod.ext hx₁ ((hone hfix).2 x.2 (Pte.frame_eq_some.2 ⟨ro, hx₂⟩))
  same := fun x y f hf hx hy => by
    obtain ⟨-, ro, hx⟩ := h.frame hx
    obtain ⟨-, ro', hy⟩ := h.frame hy
    exact ((h.entry y.2 ro' f hy).2.2 hf).2 x.2 (Pte.frame_eq_some.2 ⟨ro, hx⟩)

section

omit [DecidableEq P]

theorem Start.shows (h : Start E root s) {b : UInt8} (hb : s.load p va = some b) :
    Shows s p va b := by
  obtain ⟨f, hf, hb⟩ := Option.map_eq_some_iff.1 hb
  obtain ⟨ro, hro⟩ := Pte.frame_eq_some.1 hf
  exact ⟨ro, f, hro, fun _ => hb, fun flt hflt => by rw [h.fault] at hflt; cases hflt⟩

/-! ## A step -/

theorem sectionOf_mem {i : ℕ} {st : Section} (hi : s.sectionOf p va = some i)
    (hst : (s.sections p)[i]? = some st) :
    st ∈ s.sections p ∧ va / pageSize ∈ st.freePages := by
  obtain ⟨hlt, hin, -⟩ := List.findIdx?_eq_some_iff_getElem.1 hi
  rw [List.getElem?_eq_getElem hlt] at hst
  obtain rfl := Option.some.inj hst
  refine ⟨List.getElem_mem hlt, ?_⟩
  simp only [decide_eq_true_eq] at hin
  simp only [Section.freePages, List.mem_range'_1, pageSize]
  omega

end

/-- **`pgfault`, up to its new page.** -/
theorem Cow.fault (h : Cow E s) (hlive : s.live p = true) (hfault : s.fault p = none)
    (hs : s.faultBegin E p va = some s') :
    Cow E s' ∧ (∀ q va b, Shows s q va b → Shows s' q va b) ∧
      ∀ g, E.layout.fixed g = true → s'.frames.data g = s.frames.data g := by
  obtain ⟨i, hi, hs⟩ := Option.bind_eq_some_iff.1 hs
  obtain ⟨st, hst, hs⟩ := Option.bind_eq_some_iff.1 hs
  obtain ⟨hmem, hpages⟩ := sectionOf_mem hi hst
  cases he : s.pt p (va / pageSize) with
  | page ro f =>
    cases ro with
    | true =>
      simp only [he, allocPageForUser, Option.map_map] at hs
      obtain ⟨⟨ka, frames⟩, halloc, hs⟩ := Option.map_eq_some_iff.1 hs
      have hdata : frames.data = s.frames.data := (h.counted.alloc halloc).2.2.1
      exact h.faultBegin halloc hlive hfault ⟨st, hmem, hpages⟩
        (Or.inr ⟨f, he, rfl, rfl⟩) (by rw [← hs, ← hdata]; rfl)
    | false => simp [he] at hs
  | disk slot => exact absurd he ((h.space p).nodisk _ slot)
  | null =>
    simp only [he, allocPageForUser] at hs
    split at hs
    · -- a page of a file
      obtain ⟨⟨ka, s₁⟩, hmap, hs⟩ := Option.bind_eq_some_iff.1 hs
      obtain ⟨⟨ka', frames⟩, halloc, heq⟩ := Option.map_eq_some_iff.1 hmap
      obtain ⟨rfl, rfl⟩ := Prod.mk.inj heq
      obtain ⟨bytes, -, rfl⟩ := Option.map_eq_some_iff.1 hs
      exact h.faultBegin halloc hlive hfault ⟨st, hmem, hpages⟩ (Or.inl ⟨rfl, he⟩) rfl
    · rw [(h.space p).noswap st hmem] at hs
      simp only [Bool.false_eq_true, if_false, Option.bind_some, he, if_true, Option.map_map] at hs
      obtain ⟨⟨ka, frames⟩, halloc, rfl⟩ := Option.map_eq_some_iff.1 hs
      -- the page is left as it is
      have hsame : ({ s with
          frames := frames
          fault := update s.fault p (some ⟨va / pageSize, ka, false, none⟩) } : Memory P) =
          { s with
            frames := { frames with data := update frames.data ka (frames.data ka) }
            fault := update s.fault p (some ⟨va / pageSize, ka, false, none⟩) } := by
        rw [update_eq_self]
      exact h.faultBegin halloc hlive hfault ⟨st, hmem, hpages⟩ (Or.inl ⟨rfl, he⟩) hsame

/-- **Every action leaves each process its memory.** -/
theorem Cow.step (h : Cow E s) (hs : s.step E a = some s') (hnoswap : ∀ p i, a ≠ .swapout p i)
    (hfew : ∀ f, E.layout.fixed f = false → {q | ∃ v, s.held (q, v) = some f}.ncard < 128)
    {m : P → ℕ → Option UInt8} (hm : ∀ p va b, m p va = some b → Shows s p va b) :
    Cow E s' ∧ (∀ p va b, viewStep m a p va = some b → Shows s' p va b) ∧
      ∀ f, E.layout.fixed f = true → s'.frames.data f = s.frames.data f := by
  cases a with
  | kalloc =>
    obtain ⟨⟨f, frames⟩, halloc, rfl⟩ := Option.map_eq_some_iff.1 hs
    obtain ⟨hcow, hdata⟩ := h.kalloc halloc
    refine ⟨hcow, fun p va b hb => ?_, fun f _ => congrFun hdata f⟩
    exact (hm p va b hb).frame rfl rfl fun g _ => congrFun hdata g
  | kfree f =>
    obtain ⟨hf, rfl⟩ := of_guard hs
    obtain ⟨hcow, hdata⟩ := h.kfree hf
    refine ⟨hcow, fun p va b hb => ?_, fun g hg => hdata g ?_⟩
    · exact (hm p va b hb).frame rfl rfl fun g hg =>
        hdata g fun heq => h.kernel_not_inUse hf p (heq ▸ hg)
    · rintro rfl
      rw [(h.kernel g hf).fixed] at hg
      cases hg
  | fork p np =>
    obtain ⟨hguard, rfl⟩ := of_guard hs
    obtain ⟨hlive, hfault, hdead⟩ := hguard
    obtain ⟨hcow, hsame, hchild⟩ := h.fork hlive hfault hdead
    refine ⟨hcow, fun q va b hb => ?_, fun f _ => by rw [fork_data]⟩
    simp only [viewStep, update_apply] at hb
    split_ifs at hb with hq
    · exact hq ▸ hchild va b (hm p va b hb)
    · exact hsame q va b (hm q va b hb)
  | fault p va =>
    obtain ⟨hguard, hs⟩ := of_guarded hs
    obtain ⟨hcow, hsame, hdata⟩ := h.fault hguard.1 hguard.2 hs
    exact ⟨hcow, fun q va b hb => hsame q va b (hm q va b hb), hdata⟩
  | faultFree p =>
    obtain ⟨flt, hflt, hs⟩ := Option.bind_eq_some_iff.1 hs
    obtain ⟨f, hf, hs⟩ := Option.map_eq_some_iff.1 hs
    obtain ⟨hcow, hsame, hdata⟩ := h.faultFree hflt hf (hfew f) hs.symm
    exact ⟨hcow, fun q va b hb => hsame q va b (hm q va b hb), hdata⟩
  | faultMap p =>
    obtain ⟨flt, hflt, hs⟩ := Option.bind_eq_some_iff.1 hs
    split_ifs at hs with hold
    have heq := (Option.some.inj hs).symm
    obtain ⟨hcow, hsame⟩ := h.faultMap hflt hold heq
    refine ⟨hcow, fun q va b hb => hsame q va b (hm q va b hb), fun f _ => ?_⟩
    rw [heq]
    rfl
  | store p va b =>
    simp only [Memory.step] at hs
    split at hs
    · simp only [Memory.store] at hs
      split at hs
      · rename_i f hpage
        obtain ⟨hcow, hself, hsame, hdata⟩ := h.store hpage (Option.some.inj hs).symm
        refine ⟨hcow, fun q va' b' hb => ?_, hdata⟩
        by_cases hq : q = p
        · subst hq
          simp only [viewStep, update_self, update_apply] at hb
          split_ifs at hb with hva
          · obtain rfl := Option.some.inj hb
            exact hva ▸ hself
          · exact hsame q va' b' (fun _ => hva) (hm q va' b' hb)
        · simp only [viewStep, update_of_ne hq] at hb
          exact hsame q va' b' (fun heq => absurd heq hq) (hm q va' b' hb)
      · cases hs
    · cases hs
  | exit p =>
    obtain ⟨hguard, hs⟩ := of_guarded hs
    obtain ⟨s₁, hs₁, hs⟩ := Option.map_eq_some_iff.1 hs
    obtain ⟨hcow, hsame, hdata⟩ := h.exit hguard.2 hfew hs₁ hs.symm
    refine ⟨hcow, fun q va b hb => ?_, hdata⟩
    simp only [viewStep, update_apply] at hb
    split_ifs at hb with hq
    exact hsame q va b hq (hm q va b hb)
  | swapout p i => exact absurd rfl (hnoswap p i)

/-! ## A run -/

/-- **Copy-on-write isolation.** From one process on, through any `fork`,
page fault, write and `exit`, in any order, with no section swapped out and
less than 128 processes holding a page: a read of an address by a process
gives what the process has written there last since it was forked, or else
what its parent had there at that time; and `zero_page` and the kernel
image stay as they are. -/
theorem cow_isolation (hstart : Start E root s₀) (hrun : Run (Memory.step E) s₀ tr s)
    (hnoswap : ∀ x ∈ tr, ∀ p i, x.2 ≠ .swapout p i)
    (hfew : ∀ x ∈ tr, ∀ f, E.layout.fixed f = false →
      {q | ∃ v, x.1.held (q, v) = some f}.ncard < 128) :
    (∀ p va b, view s₀ tr p va = some b → s.fault p = none → s.read E p va = some (b, s)) ∧
    ∀ f, E.layout.fixed f = true → s.frames.data f = s₀.frames.data f := by
  have hinv : Cow E s ∧ (∀ p va b, view s₀ tr p va = some b → Shows s p va b) ∧
      ∀ f, E.layout.fixed f = true → s.frames.data f = s₀.frames.data f := by
    refine hrun.traceInvariantOf
      (K := fun s a => (∀ p i, a ≠ .swapout p i) ∧ ∀ f, E.layout.fixed f = false →
        {q | ∃ v, s.held (q, v) = some f}.ncard < 128)
      (I := fun tr s => Cow E s ∧ (∀ p va b, view s₀ tr p va = some b → Shows s p va b) ∧
        ∀ f, E.layout.fixed f = true → s.frames.data f = s₀.frames.data f)
      (fun x hx => ⟨hnoswap x hx, hfew x hx⟩)
      ⟨hstart.cow, fun p va b hb => hstart.shows hb, fun _ _ => rfl⟩ ?_
    rintro tr s a t ⟨hcow, hshows, hfixed⟩ ⟨hno, hfew⟩ hs
    obtain ⟨hcow', hshows', hfixed'⟩ := hcow.step hs hno hfew hshows
    refine ⟨hcow', fun p va b hb => hshows' p va b ?_, fun f hf => (hfixed' f hf).trans (hfixed f hf)⟩
    rw [view, List.map_append, List.foldl_append] at hb
    exact hb
  refine ⟨fun p va b hb hfault => ?_, hinv.2.2⟩
  obtain ⟨ro, f, hpage, hbyte, -⟩ := hinv.2.1 p va b hb
  rw [read_of_page hpage, hbyte]
  rw [held_of_fault_none hfault, hpage]
  rfl

theorem start_oneProcess {sections : List Section} (hapart : sections.Pairwise Section.Apart)
    (hnoswap : ∀ st ∈ sections, st.swap = false) :
    Start plainEnv root (oneProcess root sections) where
  live := fun q => by simp [oneProcess]
  fault := fun _ => rfl
  others := fun q hq => by simp [oneProcess, hq]
  apart := by simpa [oneProcess] using hapart
  noswap := by simpa [oneProcess] using hnoswap
  inside := fun v hv => absurd rfl hv
  nodisk := fun v slot => nofun
  pages := by
    have hpages : (oneProcess root sections).frames.pages = [200, 201, 202] := rfl
    rw [hpages]
    exact ⟨by decide, by decide⟩
  kernel := ⟨List.nodup_nil, fun f hf => absurd hf List.not_mem_nil⟩
  entry := fun v ro f hv => by cases hv
  idle := fun f _ _ _ => rfl

/-- A write before `fork`, and one after it by the child: each reads its
own. -/
def forkAndWrite : List (Act Bool) :=
  [.fault false 0x4000, .faultMap false, .store false 0x4000 7, .fork false true,
    .fault true 0x4000, .faultFree true, .faultMap true, .store true 0x4000 9]

theorem cow_isolation_forkAndWrite : ∃ tr s,
    Run (Memory.step plainEnv) (oneProcess false [heapSection 0x4000 0x5000]) tr s ∧
    s.read plainEnv false 0x4000 = some (7, s) ∧ s.read plainEnv true 0x4000 = some (9, s) := by
  obtain ⟨s, hs, hfault, hfault'⟩ : ∃ s, exec (Memory.step plainEnv)
      (oneProcess false [heapSection 0x4000 0x5000]) forkAndWrite = some s ∧
      s.fault false = none ∧ s.fault true = none := ⟨_, rfl, rfl, rfl⟩
  have hacts := map_snd_execTrace hs
  have hstart : Start plainEnv false (oneProcess false [heapSection 0x4000 0x5000]) :=
    start_oneProcess (List.pairwise_singleton _ _) (by decide)
  have hnoswap : ∀ a ∈ forkAndWrite, ∀ p i, a ≠ .swapout p i := by simp [forkAndWrite]
  have htwo : ∀ S : Set Bool, S.ncard < 128 := by
    intro S
    have hle := Set.ncard_le_ncard (Set.subset_univ S)
    rw [Set.ncard_univ, Nat.card_eq_fintype_card, Fintype.card_bool] at hle
    omega
  obtain ⟨hread, -⟩ := cow_isolation hstart (Run.of_exec hs) (forall_execTrace hs hnoswap)
    fun x _ f _ => htwo _
  refine ⟨_, s, Run.of_exec hs, hread false 0x4000 7 ?_ hfault, hread true 0x4000 9 ?_ hfault'⟩
  · rw [view, hacts]
    rfl
  · rw [view, hacts]
    rfl

end Memory

end OsKernel.Paging
