import OsKernel.Paging.Fork

/-!
# The last holder of a frame

Processes take frames and share them. A holder is a page table entry, the
page `v` of the process `p`. Whether `kfree_page` frees the frame is read
off an `i8`, so it is right as long as no more than 128 entries map it, no
entry is counted twice and none is given up twice or not at all.

`fork` is a run of `share`, and `free_pgdir` one of `drop` and `clear`
(`exec_fork`, `exec_freePgdir`): a page that two sections have in common is
shared, or given up, once for each of them.
-/

namespace OsKernel.Paging

open Function

/-- The frames, the entries that map them, and the pages that the kernel
has taken for itself. `kfree_page` is called before the entry is gone. -/
structure Sharing (P : Type) where
  frames : Frames
  /-- The entries whose frame has not been given up. -/
  held : P × ℕ → Option ℕ
  /-- The entries that are left over from a frame that was given up. -/
  stale : P × ℕ → Option ℕ
  kernel : List ℕ

/-- What happens to a frame. -/
inductive FrameAct (P : Type) where
  /-- `kalloc_page` for the kernel itself: a stack, a page table, a slab. -/
  | kalloc
  /-- `kfree_page` of such a page. -/
  | kfree (f : ℕ)
  /-- `kalloc_page` and `vmmap`, as in `pgfault`. -/
  | map (x : P × ℕ)
  /-- `vmmap` of the frame of an entry, as in `fork`. -/
  | share (x y : P × ℕ)
  /-- `kfree_page` of the frame of an entry, as in `free_sections`. -/
  | drop (x : P × ℕ)
  /-- The page table of a process is freed, as in `free_pgdir`. -/
  | clear (p : P)

namespace Sharing

variable {P : Type} [DecidableEq P] {L : Layout} {s s' : Sharing P} {f : ℕ} {x : P × ℕ}
variable {a : FrameAct P} {tr : List (Sharing P × FrameAct P)}

def step (L : Layout) (s : Sharing P) : FrameAct P → Option (Sharing P)
  | .kalloc => s.frames.kallocPage.map fun r => { s with frames := r.2, kernel := r.1 :: s.kernel }
  | .kfree f =>
    if f ∈ s.kernel
    then some { s with frames := s.frames.kfreePage L f, kernel := s.kernel.erase f } else none
  | .map x => s.frames.kallocPage.map fun r =>
    { s with
      frames := r.2.incrementRef r.1
      held := update s.held x (some r.1)
      stale := update s.stale x none }
  | .share x y => (s.held x).map fun f =>
    { s with
      frames := s.frames.incrementRef f
      held := update s.held y (some f)
      stale := update s.stale y none }
  | .drop x => ((s.held x).or (s.stale x)).map fun f =>
    { s with
      frames := s.frames.kfreePage L f
      held := update s.held x none
      stale := update s.stale x (some f) }
  | .clear p => some { s with
    held := fun x => if x.1 = p then none else s.held x
    stale := fun x => if x.1 = p then none else s.stale x }

/-- Every frame free, nothing mapped. -/
def init (pages : List ℕ) : Sharing P where
  frames := { ref := fun _ => 0, pages := pages, data := fun _ _ => 0 }
  held := fun _ => none
  stale := fun _ => none
  kernel := []

/-- **The condition on a step.** An entry is written where none is valid;
a frame is given up by an entry that has not given it up before, and that
is one of at most 128; a page table is freed when its entries have given up
their frames. -/
def Orderly (s : Sharing P) : FrameAct P → Prop
  | .map x => s.held x = none
  | .share _ y => s.held y = none
  | .drop x => ∃ f, s.held x = some f ∧ (holders s.held f).ncard ≤ 128
  | .clear p => ∀ v, s.held (p, v) = none
  | _ => True

/-- The counts are right, and the pages of the kernel are nobody else's. -/
structure Inv (L : Layout) (s : Sharing P) : Prop where
  counted : Counted L s.frames s.held
  nodup : s.kernel.Nodup
  kernel : ∀ f ∈ s.kernel, L.fixed f = false ∧ f ∉ s.frames.pages ∧ holders s.held f = ∅
  held : ∀ x f, s.held x = some f → L.fixed f = false

omit [DecidableEq P] in
theorem inv_init {pages : List ℕ} (hnodup : pages.Nodup) (hfix : ∀ f ∈ pages, L.fixed f = false) :
    Inv L (init pages : Sharing P) where
  counted :=
    { finite := fun f _ => by simp [init, holders]
      nodup := hnodup
      free := fun f hf => ⟨hfix f hf, by simp [init, holders]⟩
      ref := fun f _ _ => by simp [init, holders, i8] }
  nodup := List.nodup_nil
  kernel := fun f hf => absurd hf List.not_mem_nil
  held := fun x f hx => by cases hx

/-- A table whose frames have been given up is freed. -/
theorem Orderly.clear {p : P} (hok : s.Orderly (.clear p)) :
    (fun x => if x.1 = p then none else s.held x) = s.held := by
  funext ⟨q, v⟩
  by_cases hq : q = p
  · subst hq
    simp [hok v]
  · simp [hq]

/-- One entry is written: none maps a page of the kernel. -/
theorem Inv.entry (h : Inv L s) {frames : Frames} {v : Option ℕ} {stale : P × ℕ → Option ℕ}
    (hcounted : Counted L frames (update s.held x v)) (hfree : ∀ g ∈ s.kernel, g ∉ frames.pages)
    (hv : ∀ g, v = some g → L.fixed g = false ∧ g ∉ s.kernel) :
    Inv L { s with frames := frames, held := update s.held x v, stale := stale } := by
  refine ⟨hcounted, h.nodup, fun g hg => ⟨(h.kernel g hg).1, hfree g hg, ?_⟩, fun y g hy => ?_⟩
  · rw [holders_update_of_ne s.held x fun heq => (hv g heq).2 hg, (h.kernel g hg).2.2,
      Set.empty_sdiff]
  · simp only [update_apply] at hy
    split at hy
    · exact (hv g hy).1
    · exact h.held y g hy

omit [DecidableEq P] in
theorem Inv.not_kernel (h : Inv L s) (hx : s.held x = some f) : f ∉ s.kernel := by
  intro hf
  have hmem : x ∈ holders s.held f := hx
  rw [(h.kernel f hf).2.2] at hmem
  exact hmem

/-- **Every action keeps the counts right**, under the condition on it; a
frame that is given up is freed by its last holder. -/
theorem Inv.step (h : Inv L s) (hs : s.step L a = some s') (hok : s.Orderly a) :
    Inv L s' ∧ ∀ x f, a = .drop x → s.held x = some f → s'.frames.pages =
      if holders s'.held f = ∅ then f :: s.frames.pages else s.frames.pages := by
  cases a with
  | kalloc =>
    obtain ⟨⟨f, frames⟩, halloc, hs⟩ := Option.map_eq_some_iff.1 hs
    subst hs
    obtain ⟨hcounted, -, -, hmem, hnot, hsub⟩ := h.counted.alloc halloc
    refine ⟨⟨hcounted, List.nodup_cons.2 ⟨fun hf => (h.kernel f hf).2.1 hmem, h.nodup⟩,
      fun g hg => ?_, h.held⟩, fun _ _ ha => by cases ha⟩
    rcases List.mem_cons.1 hg with rfl | hg
    · exact ⟨(h.counted.free g hmem).1, hnot, (h.counted.free g hmem).2⟩
    · obtain ⟨hfix, hfree, hnone⟩ := h.kernel g hg
      exact ⟨hfix, fun hin => hfree (hsub.subset hin), hnone⟩
  | kfree f =>
    obtain ⟨hf, rfl⟩ := of_guard hs
    obtain ⟨hfix, hfree, hnone⟩ := h.kernel f hf
    obtain ⟨hcounted, hpages⟩ := h.counted.release hfix hfree hnone
    refine ⟨⟨hcounted, h.nodup.erase f, fun g hg => ?_, h.held⟩, fun _ _ ha => by cases ha⟩
    obtain ⟨hgf, hg⟩ := h.nodup.mem_erase_iff.1 hg
    obtain ⟨hgfix, hgfree, hgnone⟩ := h.kernel g hg
    refine ⟨hgfix, ?_, hgnone⟩
    rw [hpages, List.mem_cons]
    exact fun hin => hin.elim hgf hgfree
  | map x =>
    obtain ⟨⟨f, frames⟩, halloc, hs⟩ := Option.map_eq_some_iff.1 hs
    subst hs
    obtain ⟨hcounted, -, -, hmem, hnot, hsub⟩ := h.counted.alloc halloc
    refine ⟨h.entry (hcounted.share hok hnot) (fun g hg hin => (h.kernel g hg).2.1 (hsub.subset hin))
      ?_, fun _ _ ha => by cases ha⟩
    rintro g ⟨⟩
    exact ⟨(h.counted.free f hmem).1, fun hf => (h.kernel f hf).2.1 hmem⟩
  | share x y =>
    obtain ⟨f, hx, hs⟩ := Option.map_eq_some_iff.1 hs
    subst hs
    refine ⟨h.entry (h.counted.share hok (h.counted.not_mem_of_held hx))
      (fun g hg => (h.kernel g hg).2.1) ?_, fun _ _ ha => by cases ha⟩
    rintro g ⟨⟩
    exact ⟨h.held x f hx, h.not_kernel hx⟩
  | drop x =>
    obtain ⟨f, hx, hfew⟩ := hok
    simp only [Sharing.step, hx, Option.some_or, Option.map_some, Option.some.injEq] at hs
    subst hs
    have hfix := h.held x f hx
    obtain ⟨hcounted, hpages⟩ := h.counted.drop hx hfix hfew
    refine ⟨h.entry hcounted (fun g hg => ?_) (fun g hv => by cases hv), fun y g hy hg => ?_⟩
    · rw [hpages]
      split
      · exact fun hin => (List.mem_cons.1 hin).elim (fun heq => h.not_kernel hx (heq ▸ hg))
          (h.kernel g hg).2.1
      · exact (h.kernel g hg).2.1
    · cases hy
      obtain rfl := Option.mem_unique hx hg
      exact hpages
  | clear p =>
    simp only [Sharing.step, hok.clear, Option.some.injEq] at hs
    subst hs
    exact ⟨⟨h.counted, h.nodup, h.kernel, h.held⟩, fun _ _ ha => by cases ha⟩

/-- Under the condition on a step, an entry is lost by `drop` only. -/
theorem held_of_step (hs : s.step L a = some s') (hok : s.Orderly a) (hx : s.held x = some f)
    (ha : a ≠ .drop x) : s'.held x = some f := by
  cases a with
  | kalloc =>
    obtain ⟨r, -, rfl⟩ := Option.map_eq_some_iff.1 hs
    exact hx
  | kfree g =>
    obtain ⟨-, rfl⟩ := of_guard hs
    exact hx
  | map y =>
    obtain ⟨r, -, rfl⟩ := Option.map_eq_some_iff.1 hs
    exact (update_of_ne (ne_of_values hx hok (by simp)) _ _).trans hx
  | share z y =>
    obtain ⟨r, -, rfl⟩ := Option.map_eq_some_iff.1 hs
    exact (update_of_ne (ne_of_values hx hok (by simp)) _ _).trans hx
  | drop y =>
    obtain ⟨r, -, rfl⟩ := Option.map_eq_some_iff.1 hs
    have hxy : x ≠ y := fun heq => ha (heq ▸ rfl)
    exact (update_of_ne hxy _ _).trans hx
  | clear p =>
    simp only [Sharing.step, hok.clear, Option.some.injEq] at hs
    subst hs
    exact hx

/-- **A frame is freed by its last holder**, whoever the processes are and
in whatever order they map, share and give up frames, under the condition
on the steps: `kfree_page` puts a frame back on the list of free pages if
and only if no entry maps it any more, no other action takes an entry away,
and no entry maps a page of that list. -/
theorem freed_by_last_holder {pages : List ℕ} (hnodup : pages.Nodup)
    (hfix : ∀ f ∈ pages, L.fixed f = false) (hrun : Run (Sharing.step L) (init pages) tr s)
    (hok : ∀ y ∈ tr, y.1.Orderly y.2) :
    (∀ f ∈ s.frames.pages, ∀ x, s.held x ≠ some f) ∧
    ∀ y ∈ tr, ∀ x f t, y.1.held x = some f → y.1.step L y.2 = some t →
      (y.2 = .drop x → t.frames.pages =
        if holders t.held f = ∅ then f :: y.1.frames.pages else y.1.frames.pages) ∧
      (y.2 ≠ .drop x → t.held x = some f) := by
  have hinv : ∀ {tr : List (Sharing P × FrameAct P)} {s : Sharing P},
      Run (Sharing.step L) (init pages) tr s → (∀ y ∈ tr, y.1.Orderly y.2) → Inv L s := by
    intro tr s hrun hok
    exact hrun.invariantOf hok (inv_init hnodup hfix) fun s a t hI ha hs => (hI.step hs ha).1
  refine ⟨fun f hf x => (hinv hrun hok).counted.not_held hf x, fun y hy x f t hx ht =>
    ⟨fun ha => ?_, held_of_step ht (hok y hy) hx⟩⟩
  obtain ⟨tr', -, hrun', -, hpre⟩ := hrun.of_mem hy
  exact ((hinv hrun' fun z hz => hok z (hpre.subset hz)).step ht (hok y hy)).2 x f ha hx

/-- There are no more holders than places where to look for them. -/
theorem ncard_holders_le (l : List (P × ℕ)) (h : ∀ x ∉ l, s.held x = none) (f : ℕ) :
    (holders s.held f).ncard ≤ l.length := by
  have hsub : holders s.held f ⊆ l.toFinset := by
    intro x hx
    by_contra hmem
    rw [mem_holders, h x fun hl => hmem (by simpa using hl)] at hx
    cases hx
  calc (holders s.held f).ncard ≤ (l.toFinset : Set (P × ℕ)).ncard :=
        Set.ncard_le_ncard hsub (Finset.finite_toSet _)
    _ ≤ l.length := by
        rw [Set.ncard_coe_finset]
        exact l.toFinset_card_le

/-- A page is shared; process 0 writes to it and gets another one, and then
process 1 gives it up and ends. -/
theorem freed_by_last_holder_two : ∃ tr s,
    Run (Sharing.step ⟨0, 0⟩) (init [7, 8] : Sharing ℕ) tr s ∧ s.frames.pages = [7] ∧
    s.held (0, 0) = some 8 ∧ ∀ f ∈ s.frames.pages, ∀ x, s.held x ≠ some f := by
  obtain ⟨s, hs, hpages, hheld⟩ : ∃ s, exec (Sharing.step ⟨0, 0⟩) (init [7, 8] : Sharing ℕ)
      [.map (0, 0), .share (0, 0) (1, 0), .drop (0, 0), .map (0, 0), .drop (1, 0), .clear 1] =
        some s ∧ s.frames.pages = [7] ∧ s.held (0, 0) = some 8 := ⟨_, rfl, by decide, by decide⟩
  have hrun := Run.of_exec hs
  refine ⟨_, s, hrun, hpages, hheld, (freed_by_last_holder (by decide) (by decide) hrun ?_).1⟩
  -- the two entries are the only ones, so the counts are small
  have hfew : ∀ (t : Sharing ℕ) f, (∀ x ∉ [((0 : ℕ), (0 : ℕ)), (1, 0)], t.held x = none) →
      (holders t.held f).ncard ≤ 128 :=
    fun t f ht => (ncard_holders_le _ ht f).trans (by decide)
  change ∀ y ∈ [(_, _), (_, _), (_, _), (_, _), (_, _), (_, _)], _
  simp only [List.forall_mem_cons]
  refine ⟨rfl, rfl, ⟨7, rfl, hfew _ _ fun x hx => ?_⟩, rfl, ⟨7, rfl, hfew _ _ fun x hx => ?_⟩,
    fun v => ?_, by simp⟩
  · obtain ⟨h₀, h₁⟩ : x ≠ (0, 0) ∧ x ≠ (1, 0) := by simpa using hx
    exact (update_of_ne h₁ _ _).trans (update_of_ne h₀ _ _)
  · obtain ⟨h₀, h₁⟩ : x ≠ (0, 0) ∧ x ≠ (1, 0) := by simpa using hx
    exact (update_of_ne h₀ _ _).trans ((update_of_ne h₀ _ _).trans
      ((update_of_ne h₁ _ _).trans (update_of_ne h₀ _ _)))
  · rcases eq_or_ne v 0 with rfl | hv
    · rfl
    · have h₀ : ((1 : ℕ), v) ≠ (0, 0) := by simp
      have h₁ : ((1 : ℕ), v) ≠ (1, 0) := by simpa using hv
      exact (update_of_ne h₁ _ _).trans ((update_of_ne h₀ _ _).trans
        ((update_of_ne h₀ _ _).trans ((update_of_ne h₁ _ _).trans (update_of_ne h₀ _ _))))

/-- Process 0 maps a page, and 128 forks share it. -/
def manyForks : List (FrameAct (Fin 256)) :=
  .map (0, 0) :: (List.range 128).map fun i => .share (0, 0) (Fin.ofNat 256 (i + 1), 0)

/-- Process 0 and the `n` processes after it map the frame 7. -/
def sharedBy (n : ℕ) : Sharing (Fin 256) where
  frames := { ref := update (fun _ => 0) 7 (i8 (n + 1)), pages := [8], data := fun _ _ => 0 }
  held := fun x => if x.1.val ≤ n ∧ x.2 = 0 then some 7 else none
  stale := fun _ => none
  kernel := []

theorem step_sharedBy {n : ℕ} (hn : n < 255) :
    (sharedBy n).step ⟨0, 0⟩ (.share (0, 0) (Fin.ofNat 256 (n + 1), 0)) =
      some (sharedBy (n + 1)) := by
  have hval : (Fin.ofNat 256 (n + 1)).val = n + 1 := Nat.mod_eq_of_lt (by omega)
  have hheld : (sharedBy n).held (0, 0) = some 7 := by simp [sharedBy]
  have href : i8 (i8 (n + 1) + 1) = i8 ((n + 1 : ℕ) + 1) := by
    unfold i8
    omega
  rw [Sharing.step, hheld, Option.map_some]
  simp only [sharedBy, Frames.incrementRef, update_self, update_idem, href, Option.some_inj,
    Sharing.mk.injEq, true_and, and_true, update_eq_self_iff]
  funext x
  rw [update_apply]
  simp only [Prod.ext_iff, Fin.ext_iff, hval]
  split_ifs <;> first | rfl | omega

theorem exec_sharedBy (k : ℕ) : ∀ n, n + k ≤ 255 →
    exec (Sharing.step ⟨0, 0⟩) (sharedBy n) ((List.range' n k).map fun i =>
      .share (0, 0) (Fin.ofNat 256 (i + 1), 0)) = some (sharedBy (n + k)) := by
  induction k with
  | zero => exact fun n _ => rfl
  | succ k ih =>
    intro n hn
    rw [List.range'_succ, List.map_cons, exec, step_sharedBy (by omega), Option.bind_some,
      ih (n + 1) (by omega), Nat.add_right_comm, Nat.add_assoc]

/-- **With 129 holders the frame is freed by the first of them** that gives
it up, while the other 128 map it: `ref` has wrapped around to -127. -/
theorem freed_while_mapped : ∃ tr s t,
    Run (Sharing.step ⟨0, 0⟩) (init [7, 8] : Sharing (Fin 256)) tr s ∧
    s.frames.ref 7 = -127 ∧ s.held (0, 0) = some 7 ∧
    s.step ⟨0, 0⟩ (.drop (0, 0)) = some t ∧ 7 ∈ t.frames.pages ∧
    ∀ p : Fin 256, 0 < p → p < 129 → t.held (p, 0) = some 7 := by
  have hmap : (init [7, 8] : Sharing (Fin 256)).step ⟨0, 0⟩ (.map (0, 0)) = some (sharedBy 0) := by
    simp only [Sharing.step, init, Frames.kallocPage, Option.map_some, Frames.incrementRef,
      update_idem, update_self, sharedBy, Option.some_inj, Sharing.mk.injEq, and_true,
      update_eq_self_iff]
    refine ⟨rfl, funext fun x => ?_⟩
    rw [update_apply]
    simp only [Prod.ext_iff, Fin.ext_iff]
    split_ifs <;> first | rfl | omega
  have hexec : exec (Sharing.step ⟨0, 0⟩) (init [7, 8] : Sharing (Fin 256)) manyForks =
      some (sharedBy 128) := by
    rw [manyForks, exec, hmap, Option.bind_some, List.range_eq_range', exec_sharedBy 128 0 (by decide)]
  refine ⟨_, sharedBy 128, _, Run.of_exec hexec, by decide, by decide, rfl, by decide, ?_⟩
  intro p h0 hp
  have hne : (p, 0) ≠ ((0, 0) : Fin 256 × ℕ) := fun heq => h0.ne' (Prod.mk.inj heq).1
  exact (update_of_ne hne _ _).trans (if_pos ⟨Nat.lt_succ_iff.1 hp, rfl⟩)

end Sharing

/-! ## `fork` and `free_pgdir` -/

namespace Memory

variable {P : Type} [DecidableEq P] {E : Env} {s s' : Memory P} {p np q : P} {v w : ℕ}

/-- The frames, and the entries that map them. -/
def sharing (s : Memory P) : Sharing P := ⟨s.frames, s.mapped, fun _ => none, s.kernel⟩

theorem sharing_forkPage {ro : Bool} {f : ℕ} (he : s.pt p v = .page ro f) :
    s.sharing.step E.layout (.share (p, v) (np, v)) = some (forkPage p np s v).sharing := by
  have hheld : s.sharing.held (p, v) = some f := by
    change (s.pt p v).frame = some f
    rw [he]
    rfl
  have htable : (forkPage p np s v).mapped = update s.mapped (np, v) (some f) := by
    funext ⟨q, w⟩
    simp only [mapped, forkPage, he, setPte_pt, vmmap, update_apply, Prod.mk.injEq]
    split_ifs <;> simp_all [Pte.frame]
  rw [Sharing.step, hheld, Option.map_some]
  simp only [sharing, htable, Option.some.injEq, Sharing.mk.injEq, update_eq_self_iff, true_and]
  simp [forkPage, he, setPte, vmmap]

/-- The pages that `fork` shares, in its order. -/
def shared (s : Memory P) (p : P) : List ℕ :=
  (s.forkList p).filter fun v => (s.pt p v).frame.isSome

/-- **`fork` shares the pages with a valid entry**, each time that it visits
them. -/
theorem exec_fork (E : Env) (s : Memory P) (hnp : p ≠ np) :
    exec (Sharing.step E.layout) s.sharing
      ((s.shared p).map fun v => .share (p, v) (np, v)) = some (s.fork p np).sharing := by
  have hloop : ∀ (l : List ℕ) (s : Memory P), exec (Sharing.step E.layout) s.sharing
      ((l.filter fun v => (s.pt p v).frame.isSome).map fun v => .share (p, v) (np, v)) =
        some (l.foldl (forkPage p np) s).sharing := by
    intro l
    induction l with
    | nil => exact fun _ => rfl
    | cons v l ih =>
      intro s
      have hsame : ∀ w, ((forkPage p np s v).pt p w).frame = (s.pt p w).frame :=
        fun w => forkPage_frame hnp
      have ih := ih (forkPage p np s v)
      simp only [hsame] at ih
      cases he : s.pt p v with
      | page ro f =>
        rw [List.filter_cons_of_pos (by simp [he, Pte.frame]), List.map_cons, exec,
          sharing_forkPage he, Option.bind_some, ih, List.foldl_cons]
      | null | disk _ =>
        have hstay : forkPage p np s v = s := by simp only [forkPage, he]
        rw [List.filter_cons_of_neg (by simp [he, Pte.frame]), List.foldl_cons, ← ih, hstay]
  rw [fork_eq]
  exact hloop (s.forkList p) { s with
    live := update s.live np true
    sections := update s.sections np (copySections (s.sections p)) }

/-- The pages that `free_sections` gives up, in its order. -/
def givenUp (s : Memory P) (p : P) : List ℕ :=
  ((s.sections p).flatMap Section.freePages).filter fun v => (s.pt p v).frame.isSome

/-- The entries that are given up are still there for the next visit, until
the table is gone. -/
theorem exec_freeLoop (l : List ℕ) (σ : Sharing P) (hframes : σ.frames = s.frames)
    (hheld : ∀ v, (σ.held (p, v)).or (σ.stale (p, v)) = (s.pt p v).frame) :
    exec (Sharing.step E.layout) σ
      ((l.filter fun v => (s.pt p v).frame.isSome).map (fun v => .drop (p, v)) ++ [.clear p]) =
    some ⟨(l.foldl (freePage E p) s).frames, fun x => if x.1 = p then none else σ.held x,
      fun x => if x.1 = p then none else σ.stale x, σ.kernel⟩ := by
  induction l generalizing s σ with
  | nil =>
    rw [List.foldl_nil, ← hframes]
    rfl
  | cons v l ih =>
    cases he : s.pt p v with
    | page ro f =>
      have hstep : freePage E p s v = s.kfreePage E f := by simp only [freePage, he]
      have hv : (σ.held (p, v)).or (σ.stale (p, v)) = some f := by rw [hheld, he]; rfl
      rw [List.filter_cons_of_pos (by simp [he, Pte.frame]), List.map_cons, List.cons_append, exec,
        Sharing.step, hv, Option.map_some, Option.bind_some, List.foldl_cons, hstep]
      have hrest := ih (s := s.kfreePage E f) { σ with
        frames := σ.frames.kfreePage E.layout f
        held := update σ.held (p, v) none
        stale := update σ.stale (p, v) (some f) } (by rw [hframes]; rfl) fun w => ?_
      · refine hrest.trans ?_
        congr 2 <;> funext x <;> split_ifs with hx <;>
          first | rfl | exact update_of_ne (fun heq => hx (by rw [heq])) _ _
      · change (update σ.held (p, v) none (p, w)).or (update σ.stale (p, v) (some f) (p, w)) =
          (s.pt p w).frame
        by_cases hw : w = v
        · subst hw
          simpa using hv.symm.trans (hheld w)
        · have hne : (p, w) ≠ (p, v) := by simpa using hw
          rw [update_of_ne hne, update_of_ne hne]
          exact hheld w
    | null | disk _ =>
      have hstep : freePage E p s v = s := by simp only [freePage, he]
      rw [List.filter_cons_of_neg (by simp [he, Pte.frame]), List.foldl_cons, hstep]
      exact ih σ hframes hheld

/-- **`free_pgdir` gives up the pages with a valid entry**, each time that
it visits them, and then the table is gone. -/
theorem exec_freePgdir (hswap : ∀ st ∈ s.sections p, st.swap = false) :
    ∃ s', s.freePgdir E p = some s' ∧ exec (Sharing.step E.layout) s.sharing
      ((s.givenUp p).map (fun v => .drop (p, v)) ++ [.clear p]) = some s'.sharing := by
  rw [freePgdir, freeSections_eq hswap, Option.map_some]
  refine ⟨_, rfl, ?_⟩
  rw [givenUp, exec_freeLoop _ s.sharing rfl fun v => Option.or_none, freeLoop_eq]
  simp only [sharing, ite_self, Option.some.injEq, Sharing.mk.injEq, true_and, and_true]
  funext ⟨q, v⟩
  by_cases hq : q = p <;> simp [mapped, hq, Pte.frame]

end Memory

end OsKernel.Paging
