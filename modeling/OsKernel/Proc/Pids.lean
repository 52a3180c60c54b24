import OsKernel.Proc.Helpers.PidTables
import OsKernel.Proc.Reaping

/-!
# Pids and processes

The pid tables agree with the processes that have not been reaped. For the global
pids this holds in every run (`Pids.GlobalInv`). For the local pids it holds as
long as no `start_proc` and no `wait` are between the read and the write of a cell
of the bitmap of one container at the same time (`NoOverlap`): the two are under
different locks, and the later write would undo the earlier one.
-/

namespace OsKernel.Proc

open Function

variable {P C : Type} [DecidableEq P] [DecidableEq C]

/-! ## What the actions of the tree do to the processes -/

namespace Tree

variable {s s' : Tree P C} {root p : P} {rootC : C} {a : Act P C}

/-- The processes, containers and root processes are as they were. -/
structure Same (s s' : Tree P C) : Prop where
  life : s'.life = s.life
  container : s'.container = s.container
  rootproc : s'.rootproc = s.rootproc

/-- What an action does to the lives and the containers. -/
def Changes (rootC : C) (s : Tree P C) : Act P C → Tree P C → Prop
  | .createProc _ p, s' => s.life p = .absent ∧ s'.life = update s.life p .unused ∧
      s'.container = update s.container p rootC ∧ s'.rootproc = s.rootproc
  | .createContainer _ c p, s' => s.life p = .absent ∧ s.rootproc c = none ∧
      s'.life = update s.life p .unused ∧
      s'.container = update s.container p c ∧
      s'.rootproc = update s.rootproc c (some p)
  | .setContainerToThis t p, s' => s.life t = .alive ∧ s.life p = .unused ∧ s'.life = s.life ∧
      s'.container = update s.container p (s.container t) ∧ s'.rootproc = s.rootproc
  | .startActivate _ p, s' => s.life p = .unused ∧ s'.life = update s.life p .alive ∧
      s'.container = s.container ∧ s'.rootproc = s.rootproc
  | .exitSched t, s' => s.life t = .alive ∧ s'.life = update s.life t .zombie ∧
      s'.container = s.container ∧ s'.rootproc = s.rootproc
  | .waitTree t, s' => ∃ z, (s.children t).getLast? = some z ∧ s.life z = .zombie ∧
      s'.life = update s.life z .reaped ∧ s'.container = s.container ∧
      s'.rootproc = s.rootproc
  | _, s' => Same s s'

/-- Every step changes the processes as its action says. -/
theorem Inv.changes (h : Inv root rootC s) (hs : s.step root rootC a = some s') :
    s.Changes rootC a s' := by
  cases a with
  | createProc t p =>
    obtain ⟨hok, rfl⟩ := of_guard hs
    exact ⟨hok.2, rfl, rfl, rfl⟩
  | setParentToThis t p | startParent t p =>
    obtain ⟨-, rfl⟩ := of_guard hs
    exact ⟨rfl, rfl, rfl⟩
  | setContainerToThis t p =>
    obtain ⟨hok, rfl⟩ := of_guard hs
    exact ⟨(running_iff.1 hok.1).1, hok.2.1, rfl, rfl, rfl⟩
  | createContainer t c p =>
    obtain ⟨hok, rfl⟩ := of_guard hs
    exact ⟨hok.2.1, hok.2.2, rfl, update_idem _ _ _, rfl⟩
  | startActivate t p =>
    obtain ⟨hok, rfl⟩ := of_guard hs
    exact ⟨hok.2.1, rfl, rfl, rfl⟩
  | exitTree t code =>
    obtain ⟨hok, hs⟩ := of_guarded hs
    obtain ⟨r, hr, hs⟩ := Option.bind_eq_some_iff.1 hs
    split_ifs at hs with hrt
    obtain ⟨q, sem, sem', -, heq, -, -⟩ := h.exitTree code hok.1 hok.2 hr hrt
    rw [heq] at hs
    obtain rfl := Option.some.inj hs
    exact ⟨rfl, rfl, rfl⟩
  | exitSched t =>
    obtain ⟨hsched, rfl⟩ := of_guard hs
    exact ⟨h.counts.leaving t hsched, rfl, rfl, rfl⟩
  | waitCheck t =>
    simp only [Tree.step] at hs
    split_ifs at hs
    · obtain rfl := Option.some.inj hs
      exact ⟨rfl, rfl, rfl⟩
    · obtain rfl := Option.some.inj hs
      exact ⟨rfl, rfl, rfl⟩
  | waitSem t =>
    simp only [Tree.step] at hs
    split at hs
    · obtain rfl := Option.some.inj hs
      exact ⟨rfl, rfl, rfl⟩
    · cases hs
  | waitResume t =>
    simp only [Tree.step] at hs
    split_ifs at hs
    · obtain ⟨sem, -, rfl⟩ := Option.map_eq_some_iff.1 hs
      exact ⟨rfl, rfl, rfl⟩
    · obtain rfl := Option.some.inj hs
      exact ⟨rfl, rfl, rfl⟩
  | waitTree t =>
    obtain ⟨hok, hs⟩ := of_guarded hs
    obtain ⟨z, hlast, hz, heq, -, -⟩ := h.waitTree hok.1 hok.2
    rw [heq] at hs
    obtain rfl := Option.some.inj hs
    exact ⟨z, hlast, hz, rfl, rfl, rfl⟩

/-- **Who exists stays in its container**, but for `set_container_to_this`. -/
theorem Changes.container_eq (h : s.Changes rootC a s') (ha : ∀ t, a ≠ .setContainerToThis t p)
    (hp : s.life p ≠ .absent) : s'.container p = s.container p := by
  have hne : ∀ {z : P}, s.life z = .absent → p ≠ z := by
    rintro z hz rfl
    exact hp hz
  cases a with
  | createProc t z =>
    obtain ⟨hz, -, hcont, -⟩ := h
    rw [hcont, update_of_ne (hne hz)]
  | createContainer t c z =>
    obtain ⟨hz, -, -, hcont, -⟩ := h
    rw [hcont, update_of_ne (hne hz)]
  | startActivate t z => rw [h.2.2.1]
  | exitSched t => rw [h.2.2.1]
  | waitTree t =>
    obtain ⟨z, -, -, -, hcont, -⟩ := h
    rw [hcont]
  | setContainerToThis t z =>
    rw [h.2.2.2.1, update_of_ne]
    rintro rfl
    exact ha t rfl
  | setParentToThis | startParent | exitTree | waitCheck | waitSem | waitResume =>
    rw [h.container]

/-- Who is not started stays so until `activate_proc`. -/
theorem Changes.life_unused (h : s.Changes rootC a s') (ha : ∀ t, a ≠ .startActivate t p)
    (hp : s.life p = .unused) : s'.life p = .unused := by
  have hupdate : ∀ {z : P} {l : Life}, s'.life = update s.life z l → s.life z ≠ .unused →
      s'.life p = .unused := by
    intro z l hlife hz
    rw [hlife, update_of_ne, hp]
    rintro rfl
    exact hz hp
  cases a with
  | createProc t z => exact hupdate h.2.1 (by simp [h.1])
  | exitSched t => exact hupdate h.2.1 (by simp [h.1])
  | createContainer t c z => exact hupdate h.2.2.1 (by simp [h.1])
  | waitTree t =>
    obtain ⟨z, -, hz, hlife, -⟩ := h
    exact hupdate hlife (by simp [hz])
  | startActivate t z =>
    rw [h.2.1, update_of_ne, hp]
    rintro rfl
    exact ha t rfl
  | setContainerToThis t z =>
    rw [h.2.2.1]
    exact hp
  | setParentToThis | startParent | exitTree | waitCheck | waitSem | waitResume =>
    rw [h.life]
    exact hp

end Tree

namespace Pids

variable {s s' : Pids P C} {root p q z t : P} {rootC : C} {a : PidAct P C}
variable {tr : List (Pids P C × PidAct P C)}

/-! ## Lives -/

/-- Who has a local pid. -/
def Has (s : Pids P C) (p : P) : Prop := s.Live p ∧ s.started p = true

omit [DecidableEq P] [DecidableEq C] in
theorem live_of_life {l : Life} (h : s.tree.life p = l) (hl : l ≠ .absent ∧ l ≠ .reaped) :
    s.Live p := by
  unfold Live
  rwa [h]

section

omit [DecidableEq C]

/-- A process becomes live. -/
theorem live_create (h : s'.tree.life = update s.tree.life p .unused) (q : P) :
    s'.Live q ↔ s.Live q ∨ q = p := by
  unfold Live
  rw [h, update_apply]
  split_ifs with hq
  · simp [hq]
  · simp [hq]

/-- A live process stays one. -/
theorem live_go {l : Life} (h : s'.tree.life = update s.tree.life p l) (hp : s.Live p)
    (hl : l ≠ .absent ∧ l ≠ .reaped) (q : P) : s'.Live q ↔ s.Live q := by
  unfold Live at hp ⊢
  rw [h, update_apply]
  split_ifs with hq
  · rw [hq]
    exact iff_of_true hl hp
  · exact Iff.rfl

/-- A process is reaped. -/
theorem live_reap (h : s'.tree.life = update s.tree.life z .reaped) (q : P) :
    s'.Live q ↔ s.Live q ∧ q ≠ z := by
  unfold Live
  rw [h, update_apply]
  split_ifs with hq
  · simp [hq]
  · simp [hq]

/-! ## The global pids -/

/-- **The global tables agree with the live processes.** -/
structure GlobalInv (root : P) (rootC : C) (s : Pids P C) : Prop where
  tree : s.tree.Inv root rootC
  tables : GlobalOk s.Live s.pid s.hashpid s.globalpidmap s.bullet

/-- What an allocation in `init_proc` gives. -/
theorem initPid_eq (hok : s.globalpidmap.Ok) (hs : s.initPid p = some s') :
    ∃ i : ℕ, i < 256 ∧ s.globalpidmap.bitmap.get i = false ∧
      s' = { s with
        pid := update s.pid p i
        globalpidmap := ⟨s.globalpidmap.bitmap.set i, i⟩
        hashpid := update s.hashpid p i
        bullet := (HashMap.insert s.bullet (hash i) p).2
        started := update s.started p false } := by
  unfold initPid at hs
  rcases s.globalpidmap.allocPid_cases hok with ⟨-, heq⟩ | ⟨i, hi, hfirst, heq⟩
  · have hneg : hash (-1) < 0 := by decide
    simp only [heq, if_pos hneg, reduceCtorEq] at hs
  · simp only [heq] at hs
    split_ifs at hs
    exact ⟨i, hi, hfirst.1, (Option.some.inj hs).symm⟩

/-- What `wait` does to the tables: the node that is found is that of the child. -/
theorem reapPid_eq (hz : HashMap.lookup s.bullet (hash (s.pid z)) s.hashpid (s.pid z) = some z)
    (hs : s.reapPid t z = some s') : s' = { s with
      globalpidmap := s.globalpidmap.freePid (s.pid z)
      bullet := HashMap.erase s.bullet (hash (s.hashpid z)) z
      freeing := some ⟨t, s.tree.container z, (s.localpid z).toNat,
        (s.pidmap (s.tree.container z)).bitmap ((s.localpid z).toNat / 64)⟩ } := by
  unfold reapPid at hs
  rw [hz, Option.bind_some] at hs
  exact (of_guard_not hs).2.symm

end

/-- A step of the tree, with what it does to the tables. -/
theorem step_tree {a : Act P C} (hs : s.step root rootC (.tree a) = some s') :
    s.mayRun a.actor a.locksTree = true ∧ ∃ tree s₁, s.tree.step root rootC a = some tree ∧
      s.tables a = some s₁ ∧ s' = s₁.setTree tree := by
  obtain ⟨hrun, hs⟩ := of_guarded hs
  obtain ⟨tree, htree, hs⟩ := Option.bind_eq_some_iff.1 hs
  obtain ⟨s₁, hs₁, rfl⟩ := Option.map_eq_some_iff.1 hs
  exact ⟨hrun, tree, s₁, htree, hs₁, rfl⟩

/-- **Every step keeps the global tables.** -/
theorem GlobalInv.step (h : GlobalInv root rootC s) (hs : s.step root rootC a = some s') :
    GlobalInv root rootC s' := by
  cases a with
  | loadPid t p =>
    obtain ⟨-, rfl⟩ := of_guard hs
    exact ⟨h.tree, h.tables⟩
  | startPid t p | freeLocal t =>
    simp only [Pids.step] at hs
    obtain ⟨f, -, hs⟩ := Option.bind_eq_some_iff.1 hs
    obtain ⟨-, rfl⟩ := of_guard hs
    exact ⟨h.tree, h.tables⟩
  | tree a =>
    obtain ⟨-, tree, s₁, htree, hs₁, rfl⟩ := step_tree hs
    have hinv := (h.tree.step htree).1
    have hch := h.tree.changes htree
    cases a with
    | createProc t p =>
      obtain ⟨hp, hlife, -, -⟩ := hch
      obtain ⟨i, hi, hclear, rfl⟩ := initPid_eq h.tables.ok hs₁
      have hnot : ¬s.Live p := fun hlive => hlive.1 hp
      exact ⟨hinv, (h.tables.create hnot hi hclear).congr (live_create hlife)⟩
    | createContainer t c p =>
      obtain ⟨hp, -, hlife, -, -⟩ := hch
      obtain ⟨i, hi, hclear, rfl⟩ := initPid_eq (s := s.initContainer c) h.tables.ok hs₁
      have hnot : ¬s.Live p := fun hlive => hlive.1 hp
      exact ⟨hinv, (h.tables.create hnot hi hclear).congr (live_create hlife)⟩
    | setContainerToThis t p =>
      obtain ⟨-, -, hlife, -, -⟩ := hch
      obtain ⟨-, rfl⟩ := of_guard_not hs₁
      exact ⟨hinv, h.tables.congr fun q => by
        change (tree.life q ≠ _ ∧ tree.life q ≠ _) ↔ _
        rw [hlife]
        exact Iff.rfl⟩
    | startActivate t p =>
      obtain ⟨hp, hlife, -, -⟩ := hch
      obtain ⟨-, rfl⟩ := of_guard hs₁
      exact ⟨hinv, h.tables.congr
        (live_go hlife (live_of_life hp (by decide)) (by decide))⟩
    | exitSched t =>
      obtain ⟨ht, hlife, -, -⟩ := hch
      obtain rfl := Option.some.inj hs₁
      exact ⟨hinv, h.tables.congr
        (live_go hlife (live_of_life ht (by decide)) (by decide))⟩
    | waitTree t =>
      obtain ⟨z, hlast, hz, hlife, -, -⟩ := hch
      simp only [Pids.tables, hlast, if_pos hz] at hs₁
      have hlive : s.Live z := live_of_life hz (by decide)
      obtain rfl := reapPid_eq (h.tables.lookup_of_live hlive) hs₁
      exact ⟨hinv, (h.tables.reap hlive).congr (live_reap hlife)⟩
    | setParentToThis | startParent | exitTree | waitCheck | waitSem | waitResume =>
      obtain rfl := Option.some.inj hs₁
      exact ⟨hinv, h.tables.congr fun q => by
        change (tree.life q ≠ _ ∧ tree.life q ≠ _) ↔ _
        rw [hch.life]
        exact Iff.rfl⟩

/-- A process is made whose global tables agree with nobody but the root process. -/
theorem GlobalInv.init (root : P) (rootC : C) : GlobalInv root rootC (init root rootC) := by
  have hlive : ∀ p, (Pids.init root rootC).Live p ↔ False ∨ p = root := by
    intro p
    change ((if p = root then Life.alive else .absent) ≠ .absent ∧
      (if p = root then Life.alive else .absent) ≠ .reaped) ↔ _
    split_ifs with hp <;> simp [hp]
  have hempty : GlobalOk (fun _ : P => False) (fun _ => 0) (fun _ => 0) PidMap.init fun _ => [] := by
    refine ⟨PidMap.ok_init, nofun, nofun, fun i _ => ?_, nofun, HashMap.Holds.empty _ nofun⟩
    refine iff_of_false ?_ fun ⟨_, hp, _⟩ => hp
    rw [show PidMap.init.bitmap.get i = false from Cells.get_empty i]
    exact nofun
  have hroot := hempty.create (p := root) id (by decide : 0 < 256) (Cells.get_empty 0)
  have hpid : update (fun _ : P => (0 : ℤ)) root ((0 : ℕ) : ℤ) = fun _ => 0 :=
    update_eq_self _ _
  have hbullet : (HashMap.insert (fun _ : ℤ => ([] : List P)) (hash ((0 : ℕ) : ℤ)) root).2 =
      (Pids.init root rootC).bullet := by
    funext b
    change update (fun _ : ℤ => ([] : List P)) 0 [root] b = _
    rw [update_apply]
    rfl
  rw [hpid, hbullet] at hroot
  exact ⟨Tree.inv_init root rootC, hroot.congr hlive⟩

/-- **The global tables agree with the live processes in every run.** -/
theorem globalInv_of_run (hrun : Run (step root rootC) (init root rootC) tr s) :
    GlobalInv root rootC s :=
  hrun.invariant (GlobalInv.init root rootC) fun _ _ _ h hs => h.step hs

/-! ## What the code does -/

/-- The bitmap that a creation or a start allocates from has a clear bit. -/
def PidLeft (s : Pids P C) : PidAct P C → Prop
  | .tree (.createProc _ _) | .tree (.createContainer _ _ _) => ¬s.globalpidmap.Full
  | .loadPid _ p => ¬(s.pidmap (s.tree.container p)).Full
  | _ => True

omit [DecidableEq P] [DecidableEq C] in
/-- The last bits of all bitmaps are clear. -/
theorem pidLeft_of_clear (hglobal : s.globalpidmap.bitmap.get 255 = false)
    (hlocal : ∀ c, (s.pidmap c).bitmap.get 255 = false) : PidLeft s a := by
  cases a with
  | loadPid t p => exact PidMap.not_full_of_clear (by decide) (hlocal _)
  | startPid | freeLocal => trivial
  | tree a =>
    cases a with
    | createProc t p | createContainer t c p => exact PidMap.not_full_of_clear (by decide) hglobal
    | _ => trivial

omit [DecidableEq C] in
/-- `init_proc` that goes on where it may. -/
theorem initPid_eq_ite (s : Pids P C) (p : P) :
    s.initPid p = if hash s.globalpidmap.allocPid.1 < 0 then none else some (s.initPidAny p) := rfl

theorem tablesAny_of_tables {a : Act P C} (hs : s.tables a = some s') :
    s.tablesAny a = some s' := by
  cases a with
  | createProc t p | createContainer t c p =>
    rw [Pids.tables, initPid_eq_ite] at hs
    split_ifs at hs
    exact hs
  | _ => exact hs

/-- What `Pids.step` does, the code does. -/
theorem stepAny_of_step (hs : s.step root rootC a = some s') :
    s.stepAny root rootC a = some s' := by
  cases a with
  | loadPid | startPid | freeLocal => exact hs
  | tree a =>
    obtain ⟨hrun, tree, s₁, htree, hs₁, rfl⟩ := step_tree hs
    rw [stepAny, if_pos hrun, htree, Option.bind_some, tablesAny_of_tables hs₁, Option.map_some]

theorem stepAny_of_run (hrun : Run (step root rootC) (init root rootC) tr s) :
    Run (stepAny root rootC) (init root rootC) tr s :=
  hrun.traceInvariant (I := fun tr s => Run (stepAny root rootC) (init root rootC) tr s) Run.nil
    fun _ _ _ _ h hs => h.snoc (stepAny_of_step hs)

/-- What an action of the tree leaves of the local tables: a new container has new
ones, and `wait` reads a cell. -/
structure Kept (s : Pids P C) (a : Act P C) (s' : Pids P C) : Prop where
  localpid : s'.localpid = s.localpid
  started : ∀ p, s'.started p = true → s.started p = true
  maps : ∀ d, s'.pidmap d = s.pidmap d ∧ s'.loading d = s.loading d ∨
    s'.pidmap d = .init ∧ s'.loading d = none
  freeing : ∀ f ∈ s'.freeing, f ∈ s.freeing ∨ ∃ t z, a = .waitTree t ∧
    (s.tree.children t).getLast? = some z ∧ s.tree.life z = .zombie ∧
    f.container = s.tree.container z

omit [DecidableEq P] [DecidableEq C] in
theorem Kept.refl (s : Pids P C) (a : Act P C) : Kept s a s :=
  ⟨rfl, fun _ h => h, fun _ => .inl ⟨rfl, rfl⟩, fun _ h => .inl h⟩

theorem tablesAny_kept {a : Act P C} (hs : s.tablesAny a = some s') : Kept s a s' := by
  -- a new process is not started
  have hinit : ∀ {p q : P}, update s.started p false q = true → s.started q = true := by
    intro p q hq
    rw [update_apply] at hq
    split_ifs at hq
    exact hq
  cases a with
  | createProc t p =>
    obtain rfl := Option.some.inj hs
    exact ⟨rfl, fun q hq => hinit hq, fun _ => .inl ⟨rfl, rfl⟩, fun _ h => .inl h⟩
  | createContainer t c p =>
    obtain rfl := Option.some.inj hs
    refine ⟨rfl, fun q hq => hinit hq, fun d => ?_, fun _ h => .inl h⟩
    simp only [initPidAny, initContainer, update_apply]
    split_ifs
    · exact .inr ⟨rfl, rfl⟩
    · exact .inl ⟨rfl, rfl⟩
  | setContainerToThis t p | startActivate t p =>
    simp only [tablesAny, tables] at hs
    split_ifs at hs
    obtain rfl := Option.some.inj hs
    exact Kept.refl s _
  | waitTree t =>
    simp only [tablesAny, tables] at hs
    split at hs
    case h_1 z hlast =>
      split_ifs at hs with hz
      · obtain ⟨node, -, hs⟩ := Option.bind_eq_some_iff.1 hs
        obtain ⟨-, rfl⟩ := of_guard_not hs
        refine ⟨rfl, fun _ hq => hq, fun _ => .inl ⟨rfl, rfl⟩, ?_⟩
        rintro f ⟨⟩
        exact .inr ⟨t, z, rfl, hlast, hz, rfl⟩
      · obtain rfl := Option.some.inj hs
        exact Kept.refl s _
    case h_2 =>
      obtain rfl := Option.some.inj hs
      exact Kept.refl s _
  | setParentToThis | startParent | exitTree | exitSched | waitCheck | waitSem | waitResume =>
    obtain rfl := Option.some.inj hs
    exact Kept.refl s _

/-- **What a step does** to the tree and to the local pids. -/
theorem stepAny_cases (hs : s.stepAny root rootC a = some s') :
    (∃ b, a = .tree b ∧ s.tree.step root rootC b = some s'.tree ∧ Kept s b s') ∨
    (∃ t p, a = .loadPid t p ∧ s.tree.life p = .unused ∧ s' = s.loadPid p) ∨
    (∃ t p l, a = .startPid t p ∧ s.loading (s.tree.container p) = some l ∧ l.proc = p ∧
      s' = s.startPid l) ∨
    ∃ t f, a = .freeLocal t ∧ s' = s.freeLocal f := by
  cases a with
  | loadPid t p =>
    obtain ⟨hok, rfl⟩ := of_guard hs
    exact .inr (.inl ⟨t, p, rfl, hok.2.2.1, rfl⟩)
  | startPid t p =>
    obtain ⟨l, hl, hs⟩ := Option.bind_eq_some_iff.1 hs
    obtain ⟨hok, rfl⟩ := of_guard hs
    exact .inr (.inr (.inl ⟨t, p, l, rfl, hl, hok.2.2, rfl⟩))
  | freeLocal t =>
    obtain ⟨f, -, hs⟩ := Option.bind_eq_some_iff.1 hs
    obtain ⟨-, rfl⟩ := of_guard hs
    exact .inr (.inr (.inr ⟨t, f, rfl, rfl⟩))
  | tree b =>
    obtain ⟨-, hs⟩ := of_guarded hs
    obtain ⟨tree, htree, hs⟩ := Option.bind_eq_some_iff.1 hs
    obtain ⟨s₁, hs₁, rfl⟩ := Option.map_eq_some_iff.1 hs
    have hkept := tablesAny_kept hs₁
    exact .inl ⟨b, rfl, htree, hkept.localpid, hkept.started, hkept.maps, hkept.freeing⟩

/-- `last_pid` of every container is in range, and so is what is being allocated. -/
structure MapsOk (s : Pids P C) : Prop where
  maps : ∀ d, (s.pidmap d).Ok
  loading : ∀ d, ∀ l ∈ s.loading d, -1 ≤ l.pid ∧ l.pid < 256

/-- **Every step keeps them in range.** -/
theorem MapsOk.step (h : s.MapsOk) (hs : s.stepAny root rootC a = some s') : s'.MapsOk := by
  rcases stepAny_cases hs with ⟨b, -, -, hkept⟩ | ⟨t, p, -, -, rfl⟩ | ⟨t, p, l, -, hl, rfl, rfl⟩ |
    ⟨t, f, -, rfl⟩
  · refine ⟨fun d => ?_, fun d l hl => ?_⟩
    · rcases hkept.maps d with ⟨hd, -⟩ | ⟨hd, -⟩
      · rw [hd]
        exact h.maps d
      · rw [hd]
        exact PidMap.ok_init
    · rcases hkept.maps d with ⟨-, hd⟩ | ⟨-, hd⟩
      · exact h.loading d l (hd ▸ hl)
      · rw [hd] at hl
        cases hl
  · refine ⟨h.maps, fun d l hl => ?_⟩
    simp only [Pids.loadPid, update_apply] at hl
    split_ifs at hl
    · obtain rfl := Option.some.inj hl
      rcases PidMap.allocPid_cases (h.maps (s.tree.container p)) with ⟨-, heq⟩ | ⟨i, hi, -, heq⟩
      · rw [heq]
        exact ⟨le_rfl, by simp only; omega⟩
      · rw [heq]
        exact ⟨by simp only; omega, by simp only; omega⟩
    · exact h.loading d l hl
  · obtain ⟨-, hlt⟩ := h.loading _ l hl
    refine ⟨fun d => ?_, fun d l' hl' => ?_⟩
    · simp only [Pids.startPid]
      split_ifs with hneg
      · exact h.maps d
      · rw [update_apply]
        split_ifs
        · change -1 ≤ l.pid ∧ l.pid < 256
          omega
        · exact h.maps d
    · simp only [Pids.startPid, update_apply] at hl'
      split_ifs at hl'
      · cases hl'
      · exact h.loading d l' hl'
  · -- only bits change
    refine ⟨fun d => ?_, h.loading⟩
    simp only [Pids.freeLocal, update_apply]
    split_ifs
    · exact h.maps f.container
    · exact h.maps d

theorem MapsOk.init (root : P) (rootC : C) : (init root rootC).MapsOk := by
  refine ⟨fun d => ?_, by rintro _ _ ⟨⟩⟩
  change (if d = rootC then PidMap.init.allocPid.2 else .init).Ok
  split_ifs
  · exact PidMap.ok_init.allocPid
  · exact PidMap.ok_init

/-- `last_pid` of every container is in range in every run. -/
theorem mapsOk_of_run (hrun : Run (stepAny root rootC) (init root rootC) tr s) : s.MapsOk :=
  hrun.invariant (MapsOk.init root rootC) fun _ _ _ h hs => h.step hs

section

omit [DecidableEq C]

/-- **At most `MAX_CONTAINER_PID` processes are live.** -/
theorem GlobalInv.length_le (h : GlobalInv root rootC s) {l : List P} (hnodup : l.Nodup)
    (hlive : ∀ p ∈ l, s.Live p) : l.length ≤ 256 := by
  -- their pids are different numbers below the bound
  have hmap : (l.map fun p => (s.pid p).toNat).Nodup := by
    refine List.Nodup.map_on (fun p hp q hq heq => ?_) hnodup
    obtain ⟨i, -, hpi⟩ := h.tables.range p (hlive p hp)
    obtain ⟨j, -, hqj⟩ := h.tables.range q (hlive q hq)
    refine h.tables.inj p q (hlive p hp) (hlive q hq) ?_
    rw [hpi, hqj, Int.toNat_natCast, Int.toNat_natCast] at heq
    rw [hpi, hqj, heq]
  have hsub : (l.map fun p => (s.pid p).toNat) ⊆ List.range 256 := by
    intro i hi
    obtain ⟨p, hp, rfl⟩ := List.mem_map.1 hi
    obtain ⟨j, hj, hpj⟩ := h.tables.range p (hlive p hp)
    rw [hpj, Int.toNat_natCast]
    exact List.mem_range.2 hj
  have hle := (hmap.subperm hsub).length_le
  rwa [List.length_map, List.length_range] at hle

/-! ## The local pids -/

/-- No `start_proc` reads a cell of the bitmap of a container while a `wait` has read
one of it that it has not written, nor the other way around. -/
def NoOverlap (s : Pids P C) : PidAct P C → Prop
  | .loadPid _ p => ∀ f ∈ s.freeing, f.container ≠ s.tree.container p
  | .tree (.waitTree t) => ∀ z ∈ (s.tree.children t).getLast?, s.tree.life z = .zombie →
      (s.loading (s.tree.container z)).isNone
  | _ => True

/-- **An allocation under way**: its process is not started, nothing is being freed in
the container, and the cell is as it was read. -/
structure LoadOk (s : Pids P C) (c : C) (l : Loading P) : Prop where
  home : s.tree.container l.proc = c
  life : s.tree.life l.proc = .unused
  started : s.started l.proc = false
  quiet : ∀ f ∈ s.freeing, f.container ≠ c
  pid : ∃ i < 256, l.pid = (i : ℕ) ∧ (s.pidmap c).bitmap.get i = false ∧
    l.cell = (s.pidmap c).bitmap (i / 64)

/-- **All tables agree with the live processes.** -/
structure Inv (root : P) (rootC : C) (s : Pids P C) : Prop where
  global : GlobalInv root rootC s
  home : ∀ p, s.Live p → s.tree.rootproc (s.tree.container p) ≠ none
  started : ∀ p, s.tree.life p = .alive ∨ s.tree.life p = .zombie → s.started p = true
  tables : LocalOk s.Has s.tree.container s.localpid s.pidmap s.freeing

/-- Who takes `tree_lock` finds no `free_pid` under way. -/
theorem freeing_eq_none (h : s.mayRun t true = true) : s.freeing = none := by
  cases hf : s.freeing with
  | none => rfl
  | some f =>
    rw [mayRun, hf] at h
    cases h

end

section

variable (h : Inv root rootC s)

include h

section

omit [DecidableEq C]

/-- **A container has a pid left for a process that is not started.** All its bits
would be those of other live processes. -/
theorem Inv.not_full (hp : s.Live p) (hstarted : s.started p = false)
    (hoverlap : ∀ f ∈ s.freeing, f.container ≠ s.tree.container p) :
    ¬(s.pidmap (s.tree.container p)).Full := by
  intro hfull
  have hholder : ∀ i : ℕ, ∃ q, i < 256 → s.Has q ∧ s.localpid q = i := by
    intro i
    by_cases hi : i < 256
    · rcases (h.tables.bit _ i hi).1 (hfull i hi) with ⟨q, hq, -, hqi⟩ | ⟨f, hf, hfc, -⟩
      · exact ⟨q, fun _ => ⟨hq, hqi⟩⟩
      · exact absurd hfc (hoverlap f hf)
    · exact ⟨p, fun hlt => absurd hlt hi⟩
  choose holder hholder using hholder
  have hrange : ∀ {i}, i ∈ List.range 256 → s.Has (holder i) ∧ s.localpid (holder i) = i :=
    fun hi => hholder _ (List.mem_range.1 hi)
  have hnodup : (p :: (List.range 256).map holder).Nodup := by
    refine List.nodup_cons.2 ⟨fun hmem => ?_, List.Nodup.map_on (fun i hi j hj heq => ?_)
      List.nodup_range⟩
    · obtain ⟨i, hi, rfl⟩ := List.mem_map.1 hmem
      rw [(hrange hi).1.2] at hstarted
      cases hstarted
    · have hij := (hrange hi).2.symm.trans (heq ▸ (hrange hj).2)
      exact_mod_cast hij
  have hle := h.global.length_le hnodup fun q hq => by
    rcases List.mem_cons.1 hq with rfl | hq
    · exact hp
    · obtain ⟨i, hi, rfl⟩ := List.mem_map.1 hq
      exact (hrange hi).1.1
  rw [List.length_cons, List.length_map, List.length_range] at hle
  omega

/-- The processes with a local pid are as before, in the same containers. -/
theorem Inv.same {tree : Tree P C} {s₁ : Pids P C}
    (hglobal : GlobalInv root rootC (s₁.setTree tree)) (hrootproc : tree.rootproc = s.tree.rootproc)
    (hlive : ∀ q, (s₁.setTree tree).Live q ↔ s.Live q) (hcont : tree.container = s.tree.container)
    (hstarted : s₁.started = s.started)
    (hlife : ∀ q, tree.life q = .alive ∨ tree.life q = .zombie → s.started q = true)
    (hlocal : s₁.localpid = s.localpid) (hpidmap : s₁.pidmap = s.pidmap)
    (hfreeing : s₁.freeing = s.freeing) : Inv root rootC (s₁.setTree tree) := by
  refine ⟨hglobal, fun q hq => ?_, fun q hq => ?_, ?_⟩
  · change tree.rootproc (tree.container q) ≠ none
    rw [hrootproc, hcont]
    exact h.home q ((hlive q).1 hq)
  · exact (congrFun hstarted q).trans (hlife q hq)
  · change LocalOk _ tree.container s₁.localpid s₁.pidmap s₁.freeing
    rw [hcont, hlocal, hpidmap, hfreeing]
    refine h.tables.congr (fun q => ?_) fun _ _ => rfl
    change (s₁.setTree tree).Live q ∧ s₁.started q = true ↔ _
    rw [hlive, hstarted]
    exact Iff.rfl

end

/-- **A process is started.** -/
theorem Inv.startPid {c : C} {l : Loading P} (hl : LoadOk s c l) :
    Inv root rootC (s.startPid l) := by
  obtain ⟨rfl, hlife, hstarted, hquiet, i, hi, hpid, hclear, hcell⟩ := hl
  have hlive : s.Live l.proc := live_of_life hlife ⟨nofun, nofun⟩
  have hnot : ¬s.Has l.proc := fun hhas => by
    rw [hhas.2] at hstarted
    cases hstarted
  have hhas : ∀ q, (s.startPid l).Has q ↔ s.Has q ∨ q = l.proc := by
    intro q
    change s.Live q ∧ update s.started l.proc true q = true ↔ _
    rw [update_apply]
    by_cases hq : q = l.proc
    · simp [hq, hlive]
    · rw [if_neg hq]
      simp only [hq, or_false]
      exact Iff.rfl
  refine ⟨⟨h.global.tree, h.global.tables⟩, h.home, fun q hq => ?_, ?_⟩
  · change update s.started l.proc true q = true
    rw [update_apply]
    split_ifs
    · rfl
    · exact h.started q hq
  · -- the cell has not changed since it was read
    have htables := h.tables.start hnot hi hclear hquiet
    have hneg : ¬(i : ℤ) < 0 := by omega
    change LocalOk _ s.tree.container (update s.localpid l.proc l.pid)
      (if l.pid < 0 then s.pidmap else _) s.freeing
    rw [hpid, if_neg hneg, hcell, Int.toNat_natCast]
    exact htables.congr hhas fun _ _ => rfl

section

omit [DecidableEq C]

/-- **A process is created**, in a container that has a root process by then. -/
theorem Inv.created {tree : Tree P C} {s₁ : Pids P C} {c : C}
    (hglobal : GlobalInv root rootC (s₁.setTree tree)) (hp : s.tree.life p = .absent)
    (hlife : tree.life = update s.tree.life p .unused)
    (hcont : tree.container = update s.tree.container p c)
    (hrootproc : ∀ d, s.tree.rootproc d ≠ none ∨ d = c → tree.rootproc d ≠ none)
    (hstarted : s₁.started = update s.started p false)
    (htables : LocalOk s.Has s.tree.container s₁.localpid s₁.pidmap s₁.freeing) :
    Inv root rootC (s₁.setTree tree) := by
  have hlive : ∀ q, (s₁.setTree tree).Live q ↔ s.Live q ∨ q = p := live_create hlife
  have hne : ∀ {q}, s.Live q → q ≠ p := by
    rintro q hq rfl
    exact hq.1 hp
  refine ⟨hglobal, fun q hq => ?_, fun q hq => ?_, ?_⟩
  · change tree.rootproc (tree.container q) ≠ none
    rw [hcont]
    rcases (hlive q).1 hq with hq | rfl
    · rw [update_of_ne (hne hq)]
      exact hrootproc _ (.inl (h.home q hq))
    · rw [update_self]
      exact hrootproc c (.inr rfl)
  · change tree.life q = _ ∨ tree.life q = _ at hq
    change s₁.started q = true
    rw [hlife] at hq
    rw [hstarted]
    by_cases hqp : q = p
    · subst hqp
      rw [update_self] at hq
      rcases hq with hq | hq <;> cases hq
    · rw [update_of_ne hqp] at hq ⊢
      exact h.started q hq
  · refine htables.congr (fun q => ?_) fun q hq => ?_
    · change (s₁.setTree tree).Live q ∧ s₁.started q = true ↔ s.Live q ∧ s.started q = true
      rw [hlive, hstarted]
      by_cases hqp : q = p
      · subst hqp
        rw [update_self]
        exact iff_of_false (fun hq => Bool.false_ne_true hq.2) fun hq => hne hq.1 rfl
      · rw [update_of_ne hqp]
        simp only [hqp, or_false]
    · change tree.container q = _
      rw [hcont, update_of_ne (hne hq.1)]

/-- **A process is reaped.** -/
theorem Inv.reaped {tree : Tree P C} {s₁ : Pids P C}
    (hglobal : GlobalInv root rootC (s₁.setTree tree)) (hz : s.tree.life z = .zombie)
    (hfreeing : s.freeing = none) (hs₁ : s.reapPid t z = some s₁)
    (hlife : tree.life = update s.tree.life z .reaped) (hcont : tree.container = s.tree.container)
    (hrootproc : tree.rootproc = s.tree.rootproc) : Inv root rootC (s₁.setTree tree) := by
  have hlivez : s.Live z := live_of_life hz ⟨nofun, nofun⟩
  have hhasz : s.Has z := ⟨hlivez, h.started z (.inr hz)⟩
  have hlive : ∀ q, (s₁.setTree tree).Live q ↔ s.Live q ∧ q ≠ z := live_reap hlife
  obtain rfl := reapPid_eq (h.global.tables.lookup_of_live hlivez) hs₁
  obtain ⟨i, hi, hzi⟩ := h.tables.range z hhasz
  refine ⟨hglobal, fun q hq => ?_, fun q hq => ?_, ?_⟩
  · change tree.rootproc (tree.container q) ≠ none
    rw [hrootproc, hcont]
    exact h.home q ((hlive q).1 hq).1
  · change tree.life q = _ ∨ tree.life q = _ at hq
    rw [hlife] at hq
    by_cases hqz : q = z
    · rw [hqz]
      exact hhasz.2
    · rw [update_of_ne hqz] at hq
      exact h.started q hq
  · have htables := h.tables
    rw [hfreeing] at htables
    have hreap := htables.reap hhasz hi hzi t
    change LocalOk _ tree.container s.localpid s.pidmap (some _)
    rw [hcont, hzi, Int.toNat_natCast]
    exact hreap.congr (fun q => (and_congr_left' (hlive q)).trans and_right_comm) fun _ _ => rfl

end

/-- **Every step keeps all tables**, if the allocations under way are in order. -/
theorem Inv.step (hload : ∀ c, ∀ l ∈ s.loading c, LoadOk s c l)
    (hs : s.step root rootC a = some s') : Inv root rootC s' := by
  have hglobal := h.global.step hs
  cases a with
  | loadPid t p =>
    obtain ⟨-, rfl⟩ := of_guard hs
    exact ⟨hglobal, h.home, h.started, h.tables⟩
  | startPid t p =>
    obtain ⟨l, hl, hs⟩ := Option.bind_eq_some_iff.1 hs
    obtain ⟨-, rfl⟩ := of_guard hs
    exact h.startPid (hload _ l hl)
  | freeLocal t =>
    simp only [Pids.step] at hs
    obtain ⟨f, hf, hs⟩ := Option.bind_eq_some_iff.1 hs
    obtain ⟨-, rfl⟩ := of_guard hs
    have htables := h.tables
    rw [hf] at htables
    exact ⟨hglobal, h.home, h.started, htables.write⟩
  | tree a =>
    obtain ⟨hrun, tree, s₁, htree, hs₁, rfl⟩ := step_tree hs
    have hch := h.global.tree.changes htree
    cases a with
    | createProc t p =>
      obtain ⟨hp, hlife, hcont, hrootproc⟩ := hch
      obtain ⟨i, -, -, rfl⟩ := initPid_eq h.global.tables.ok hs₁
      refine h.created hglobal hp hlife hcont (fun d hd => ?_) rfl h.tables
      rw [hrootproc]
      rcases hd with hd | rfl
      · exact hd
      · rw [h.global.tree.homes.root_home.1]
        exact nofun
    | createContainer t c p =>
      obtain ⟨hp, hc, hlife, hcont, hrootproc⟩ := hch
      obtain ⟨i, -, -, rfl⟩ := initPid_eq (s := s.initContainer c) h.global.tables.ok hs₁
      have hnone := freeing_eq_none hrun
      refine h.created hglobal hp hlife hcont (fun d hd => ?_) rfl
        (h.tables.newContainer (fun q hq hqc => h.home q hq.1 (hqc ▸ hc)) fun f hf => ?_)
      · rw [hrootproc, update_apply]
        split_ifs with hdc
        · exact nofun
        · exact hd.resolve_right hdc
      · rw [hnone] at hf
        cases hf
    | setContainerToThis t p =>
      obtain ⟨ht, hp, hlife, hcont, hrootproc⟩ := hch
      obtain ⟨hstarted, rfl⟩ := of_guard_not hs₁
      have hlive : ∀ q, (s.setTree tree).Live q ↔ s.Live q := fun q => by
        change (tree.life q ≠ _ ∧ tree.life q ≠ _) ↔ _
        rw [hlife]
        exact Iff.rfl
      refine ⟨hglobal, fun q hq => ?_, fun q hq => h.started q (hlife ▸ hq), ?_⟩
      · change tree.rootproc (tree.container q) ≠ none
        rw [hrootproc, hcont, update_apply]
        split_ifs
        · exact h.home t (live_of_life ht ⟨nofun, nofun⟩)
        · exact h.home q ((hlive q).1 hq)
      · refine h.tables.congr (fun q => and_congr_left' (hlive q)) fun q hq => ?_
        change tree.container q = _
        rw [hcont, update_of_ne]
        rintro rfl
        exact hstarted (by rw [hq.2, Bool.true_or])
    | startActivate t p =>
      obtain ⟨hp, hlife, hcont, hrootproc⟩ := hch
      obtain ⟨hstarted, rfl⟩ := of_guard hs₁
      refine h.same hglobal hrootproc
        (live_go hlife (live_of_life hp ⟨nofun, nofun⟩) ⟨nofun, nofun⟩) hcont rfl (fun q hq => ?_)
        rfl rfl rfl
      by_cases hqp : q = p
      · rw [hqp]
        exact hstarted
      · rw [hlife, update_of_ne hqp] at hq
        exact h.started q hq
    | exitSched t =>
      obtain ⟨ht, hlife, hcont, hrootproc⟩ := hch
      obtain rfl := Option.some.inj hs₁
      refine h.same hglobal hrootproc
        (live_go hlife (live_of_life ht ⟨nofun, nofun⟩) ⟨nofun, nofun⟩) hcont rfl (fun q hq => ?_)
        rfl rfl rfl
      by_cases hqt : q = t
      · rw [hqt]
        exact h.started t (.inl ht)
      · rw [hlife, update_of_ne hqt] at hq
        exact h.started q hq
    | waitTree t =>
      obtain ⟨z, hlast, hz, hlife, hcont, hrootproc⟩ := hch
      simp only [Pids.tables, hlast, if_pos hz] at hs₁
      exact h.reaped hglobal hz (freeing_eq_none hrun) hs₁ hlife hcont hrootproc
    | setParentToThis | startParent | exitTree | waitCheck | waitSem | waitResume =>
      obtain rfl := Option.some.inj hs₁
      refine h.same hglobal hch.rootproc (fun q => ?_) hch.container rfl
        (fun q hq => h.started q (hch.life ▸ hq)) rfl rfl rfl
      change (tree.life q ≠ _ ∧ tree.life q ≠ _) ↔ _
      rw [hch.life]
      exact Iff.rfl

omit h in
/-- **An allocation under way stays in order** in a step of the tree. -/
theorem LoadOk.tree {a : Act P C} {tree : Tree P C} {s₁ : Pids P C} {c : C} {l : Loading P}
    (hl : LoadOk s c l) (hmem : l ∈ s.loading c) (hoverlap : NoOverlap s (.tree a))
    (hch : s.tree.Changes rootC a tree) (hs₁ : s.tables a = some s₁) (hkept : Kept s a s₁)
    (hmem' : l ∈ s₁.loading c) : LoadOk (s₁.setTree tree) c l := by
  have hmap : s₁.pidmap c = s.pidmap c := by
    rcases hkept.maps c with ⟨hmap, -⟩ | ⟨-, hnone⟩
    · exact hmap
    · rw [hnone] at hmem'
      cases hmem'
  refine ⟨(hch.container_eq (fun t ha => ?_) (by simp [hl.life])).trans hl.home,
    hch.life_unused (fun t ha => ?_) hl.life, Bool.eq_false_iff.2 fun hst => ?_, fun f hf => ?_, ?_⟩
  · -- `set_container_to_this` comes before `start_proc`
    subst ha
    refine (of_guard_not hs₁).1 ?_
    rw [hl.home, hmem, Option.any_some, decide_eq_true rfl, Bool.or_true]
  · -- and `activate_proc` after the allocation
    subst ha
    have hst := (of_guarded hs₁).1
    rw [hl.started] at hst
    cases hst
  · have hold := hkept.started _ hst
    rw [hl.started] at hold
    cases hold
  · rcases hkept.freeing f hf with hf | ⟨t, z, rfl, hlast, hz, hfc⟩
    · exact hl.quiet f hf
    · rintro rfl
      have hnone := hoverlap z hlast hz
      rw [← hfc, hmem] at hnone
      cases hnone
  · change ∃ i < 256, l.pid = (i : ℕ) ∧ (s₁.pidmap c).bitmap.get i = false ∧
      l.cell = (s₁.pidmap c).bitmap (i / 64)
    rw [hmap]
    exact hl.pid

/-- **Every step keeps the allocations in order**, if none overlaps a `free_pid`. -/
theorem Inv.loadOk_step (hload : ∀ c, ∀ l ∈ s.loading c, LoadOk s c l) (hoverlap : NoOverlap s a)
    (hs : s.step root rootC a = some s') : ∀ c, ∀ l ∈ s'.loading c, LoadOk s' c l := by
  intro c l hl
  cases a with
  | loadPid t p =>
    obtain ⟨hok, rfl⟩ := of_guard hs
    simp only [Pids.loadPid, update_apply] at hl
    split_ifs at hl with hc
    · obtain rfl := Option.some.inj hl
      obtain rfl := hc
      have hlive : s.Live p := live_of_life hok.2.2.1 ⟨nofun, nofun⟩
      rcases (s.pidmap (s.tree.container p)).allocPid_cases (h.tables.ok _) with
        ⟨hfull, -⟩ | ⟨i, hi, hfirst, heq⟩
      · exact absurd hfull (h.not_full hlive hok.2.2.2.2.1 hoverlap)
      · refine ⟨rfl, hok.2.2.1, hok.2.2.2.2.1, hoverlap, i, hi, ?_, hfirst.1, ?_⟩
        · rw [heq]
        · simp only [heq, Int.toNat_natCast]
          rfl
    · exact ⟨(hload c l hl).1, (hload c l hl).2, (hload c l hl).3, (hload c l hl).4,
        (hload c l hl).5⟩
  | startPid t p =>
    obtain ⟨l', hl', hs⟩ := Option.bind_eq_some_iff.1 hs
    obtain ⟨⟨-, -, rfl⟩, rfl⟩ := of_guard hs
    simp only [Pids.startPid, update_apply] at hl
    split_ifs at hl with hc
    · cases hl
    · -- another container
      obtain ⟨hhome, hlife, hstarted, hquiet, hpid⟩ := hload c l hl
      have hne : l.proc ≠ l'.proc := fun he => hc (by rw [← hhome, he])
      refine ⟨hhome, hlife, (update_of_ne hne _ _).trans hstarted, hquiet, ?_⟩
      have hmap : (s.startPid l').pidmap c = s.pidmap c := by
        simp only [Pids.startPid]
        split_ifs
        · rfl
        · exact update_of_ne hc _ _
      rwa [hmap]
  | freeLocal t =>
    obtain ⟨f, hf, hs⟩ := Option.bind_eq_some_iff.1 hs
    obtain ⟨-, rfl⟩ := of_guard hs
    obtain ⟨hhome, hlife, hstarted, hquiet, hpid⟩ := hload c l hl
    refine ⟨hhome, hlife, hstarted, by rintro _ ⟨⟩, ?_⟩
    have hmap : (s.freeLocal f).pidmap c = s.pidmap c := update_of_ne (hquiet f hf).symm _ _
    rwa [hmap]
  | tree a =>
    obtain ⟨-, tree, s₁, htree, hs₁, rfl⟩ := step_tree hs
    have hkept := tablesAny_kept (tablesAny_of_tables hs₁)
    have hmem : l ∈ s.loading c := by
      rcases hkept.maps c with ⟨-, heq⟩ | ⟨-, hnone⟩
      · exact heq ▸ hl
      · rw [show (s₁.setTree tree).loading c = none from hnone] at hl
        cases hl
    exact (hload c l hmem).tree hmem hoverlap (h.global.tree.changes htree) hs₁ hkept hl

end

theorem Inv.init (root : P) (rootC : C) : Inv root rootC (init root rootC) := by
  have hglobal := GlobalInv.init root rootC
  have hlife : ∀ p, (Pids.init root rootC).Live p → p = root := fun p hp => by
    rcases Tree.init_life root rootC p with ⟨rfl, -⟩ | habsent
    · rfl
    · exact absurd habsent.2 hp.1
  have hempty : LocalOk (fun _ : P => False) (fun _ => rootC) (fun _ => 0) (fun _ : C => PidMap.init)
      none := by
    refine ⟨fun _ => PidMap.ok_init, nofun, nofun, fun c i _ => ?_, nofun⟩
    refine iff_of_false ?_ ?_
    · rw [show PidMap.init.bitmap.get i = false from Cells.get_empty i]
      exact nofun
    · rintro (⟨p, hp, -⟩ | ⟨f, hf, -⟩)
      · exact hp
      · cases hf
  have hroot := hempty.start (p := root) id (by decide : 0 < 256) (Cells.get_empty 0) nofun
  have hlocal : update (fun _ : P => (0 : ℤ)) root ((0 : ℕ) : ℤ) = fun _ => 0 :=
    update_eq_self _ _
  have hpidmap : update (fun _ : C => PidMap.init) rootC ⟨PidMap.init.bitmap.set 0, (0 : ℕ)⟩ =
      (Pids.init root rootC).pidmap := by
    funext c
    rw [update_apply]
    rfl
  rw [hlocal, hpidmap] at hroot
  refine ⟨hglobal, fun p _ => ?_, fun p hp => ?_, hroot.congr (fun p => ?_) fun _ _ => rfl⟩
  · change (Pids.init root rootC).tree.rootproc rootC ≠ none
    rw [hglobal.tree.homes.root_home.1]
    exact nofun
  · obtain rfl := hlife p (hp.elim (fun h => live_of_life h ⟨nofun, nofun⟩)
      fun h => live_of_life h ⟨nofun, nofun⟩)
    exact decide_eq_true rfl
  · constructor
    · rintro ⟨hlive, -⟩
      exact .inr (hlife p hlive)
    · rintro (hfalse | rfl)
      · exact hfalse.elim
      · exact ⟨live_of_life hglobal.tree.homes.root_home.2 ⟨nofun, nofun⟩, decide_eq_true rfl⟩

/-! ## The tables -/

/-- `_hashmap_lookup` with a pid. -/
def lookup (s : Pids P C) (pid : ℤ) : Option P :=
  HashMap.lookup s.bullet (hash pid) s.hashpid pid

/-- **The pid tables agree with the live processes.** In every run in which no
allocation of a local pid overlaps a `free_pid` in the same container, live
processes have different pids, and those of one container that are started have
different local pids; a bit of `globalpidmap` is set exactly when it is the pid of
a live process; the hash table has one node for each live process, so that a
lookup returns the process with the pid, or `NULL` when there is none; at most
`MAX_CONTAINER_PID` processes are live; and `alloc_pid`, on each of the bitmaps,
fails exactly when all bits are set and otherwise returns the first clear bit,
cyclically from `last_pid + 1` on. -/
theorem pid_tables_agree {tr : List (Pids P C × PidAct P C)}
    (hrun : Run (step root rootC) (init root rootC) tr s) (hok : ∀ x ∈ tr, NoOverlap x.1 x.2) :
    (∀ p q, s.Live p → s.Live q → s.pid p = s.pid q → p = q) ∧
    (∀ p q, s.Live p → s.Live q → s.started p = true → s.started q = true →
      s.tree.container p = s.tree.container q → s.localpid p = s.localpid q → p = q) ∧
    (∀ i : ℕ, i < 256 → (s.globalpidmap.bitmap.get i = true ↔ ∃ p, s.Live p ∧ s.pid p = i)) ∧
    ((∀ b, (s.bullet b).Nodup) ∧
      (∀ b p, p ∈ s.bullet b ↔ s.Live p ∧ hash (s.hashpid p) = b) ∧
      (∀ p, s.Live p → s.lookup (s.pid p) = some p) ∧
      ∀ k, (∀ p, s.Live p → s.pid p ≠ k) → s.lookup k = none) ∧
    (∀ l : List P, l.Nodup → (∀ p ∈ l, s.Live p) → l.length ≤ 256) ∧
    ∀ m, m = s.globalpidmap ∨ (∃ c, m = s.pidmap c) →
      (m.allocPid.1 = -1 ↔ m.Full) ∧
      ∀ i, m.allocPid.1 = i → i ≠ -1 → ∃ j < 256, i = (j : ℕ) ∧ m.FirstClear j ∧
        m.allocPid.2 = ⟨m.bitmap.set j, j⟩ := by
  obtain ⟨h, -⟩ : Inv root rootC s ∧ ∀ c, ∀ l ∈ s.loading c, LoadOk s c l :=
    hrun.invariantOf (K := NoOverlap)
      (I := fun s => Inv root rootC s ∧ ∀ c, ∀ l ∈ s.loading c, LoadOk s c l) hok
      ⟨Inv.init root rootC, by rintro _ _ ⟨⟩⟩
      fun _ _ _ h hK hs => ⟨h.1.step h.2 hs, h.1.loadOk_step h.2 hK hs⟩
  have hglobal := h.global.tables
  refine ⟨hglobal.inj, fun p q hp hq hps hqs => h.tables.inj p q ⟨hp, hps⟩ ⟨hq, hqs⟩, hglobal.bit,
    ⟨hglobal.holds.nodup, hglobal.holds.mem_iff, fun p hp => hglobal.lookup_of_live hp,
      fun k hk => hglobal.lookup_eq_none hk⟩,
    fun l hnodup hlive => h.global.length_le hnodup hlive, fun m hm => ?_⟩
  have hmok : m.Ok := by
    rcases hm with rfl | ⟨c, rfl⟩
    · exact hglobal.ok
    · exact h.tables.ok c
  rcases m.allocPid_cases hmok with ⟨hfull, heq⟩ | ⟨j, hj, hfirst, heq⟩
  · rw [heq]
    exact ⟨iff_of_true rfl hfull, fun i hi hne => absurd hi.symm hne⟩
  · rw [heq]
    refine ⟨iff_of_false ?_ (hfirst.not_full hj), fun i hi _ => ⟨j, hj, hi.symm, hfirst, rfl⟩⟩
    omega

end Pids

end OsKernel.Proc
