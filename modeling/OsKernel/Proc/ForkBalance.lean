import OsKernel.Fs.BlockOwnership
import OsKernel.Fs.ForkTable
import OsKernel.Proc.Model.Resources
import OsKernel.Proc.Pids

/-!
# What `fork` acquires and `exit` and `wait` give back

A process forks, its child exits and it waits for it. Then the files, the
bitmaps of the pids, the hash table and the list of its children are as they
were before the `fork` (`fork_exit_wait`). The reference to the working
directory is not: `fork` takes one for the child, and neither `exit` nor
`wait` gives it back, so that the inode has one reference more each time
(`cwd_reference_leaks`).
-/

namespace OsKernel.Proc

open Function

open Cache
open Fs
open Fs.FileSys (count count_nonneg count_succ)

variable {P C : Type} [DecidableEq P] [DecidableEq C]

/-! ## Files -/

/-- **The loop of `exit`** puts no inode where each file has more references
than the table has descriptors for it. -/
theorem closeFiles_eq {sb : SuperBlock} {fp : ℕ → Option ℕ} {file : ℕ → File} {fs : FS} {n : ℕ}
    (h : ∀ g, count fp n g = 0 ∨ count fp n g < (file g).ref) :
    closeFiles sb fp n (file, fs) = some (eachOpen fileclose fp n file, fs) := by
  induction n with
  | zero => rfl
  | succ n ih =>
    have hlt : ∀ g, count fp n g = 0 ∨ count fp n g < (file g).ref := by
      intro g
      have hnn := count_nonneg fp n g
      have hsucc := count_succ fp n g
      have hg := h g
      split_ifs at hsucc <;> omega
    rw [closeFiles, ih hlt, Option.bind_some, eachOpen]
    cases hfp : fp n with
    | none => rfl
    | some f =>
      have hsucc := count_succ fp n f
      rw [hfp, if_pos rfl] at hsucc
      have hnn := count_nonneg fp n f
      have hf := h f
      have hlast : (eachOpen fileclose fp n file f).ref - 1 ≠ 0 := by
        rw [Fs.FileSys.eachOpen_ref Fs.FileSys.fileclose_ref]
        omega
      exact if_neg fun hput => hlast hput.1

/-! ## Pids -/

omit [DecidableEq C] in
/-- The list of the parent after an `exit` without children. -/
theorem Tree.children_left {s : Tree P C} {t r q : P} {code : ℤ} {sem sem' : Semaphore P}
    (hnone : s.children t = []) (hq : q ≠ t) :
    (s.left t r q code sem sem').children q = (s.children q).erase t ++ [t] := by
  simp [Tree.left, Tree.handed, hnone, hq]

namespace Pids

variable {s s' : Pids P C} {root p c r : P} {rootC : C} {i j : ℕ} {code : ℤ} {l : List P}

omit [DecidableEq C] in
theorem mayRun_of_none (h : s.freeing = none) (t : P) (locks : Bool) :
    s.mayRun t locks = true := by
  rw [mayRun, h]
  rfl

/-- A step of the tree that leaves the tables alone. -/
theorem step_of_tree {a : Act P C} {tree : Tree P C} (hfree : s.freeing = none)
    (htree : s.tree.step root rootC a = some tree) (htables : s.tables a = some s') :
    s.step root rootC (.tree a) = some (s'.setTree tree) := by
  rw [step, if_pos (mayRun_of_none hfree _ _), htree, Option.bind_some, htables, Option.map_some]

/-- What `create_proc` in `fork` leaves, with the pid `i`. -/
def created (rootC : C) (s : Pids P C) (c : P) (i : ℕ) : Pids P C :=
  { s with
    tree := s.tree.initProc rootC c
    pid := update s.pid c i
    globalpidmap := ⟨s.globalpidmap.bitmap.set i, i⟩
    hashpid := update s.hashpid c i
    bullet := (HashMap.insert s.bullet (hash i) c).2
    started := update s.started c false }

/-- What `fork` leaves, with the pid `i` and the local pid `j`. -/
def forked (rootC : C) (s : Pids P C) (p c : P) (i j : ℕ) : Pids P C :=
  { s.created rootC c i with
    tree := { (s.tree.initProc rootC c).adopt p c with
      life := update (update s.tree.life c .unused) c .alive }
    localpid := update s.localpid c j
    pidmap := update s.pidmap rootC ⟨(s.pidmap rootC).bitmap.set j, j⟩
    started := update (update s.started c false) c true }

/-- The start of a process in container `d`, whose `pidlock` is free. -/
theorem startPid_eq {d : C} (hd : s.tree.container p = d) (hlock : s.loading d = none) :
    (s.loadPid p).startPid ⟨p, j, (s.pidmap d).bitmap (j / 64)⟩ = { s with
      localpid := update s.localpid p j
      pidmap := update s.pidmap d ⟨(s.pidmap d).bitmap.set j, j⟩
      started := update s.started p true } := by
  subst hd
  have hneg : ¬(j : ℤ) < 0 := by omega
  have hloading : update s.loading (s.tree.container p) none = s.loading := by
    rw [← hlock, update_eq_self]
  simp only [startPid, loadPid, if_neg hneg, Int.toNat_natCast, update_idem, hloading]
  rfl

/-- `create_proc` with a pid left. -/
theorem step_createProc_eq (root : P) (rootC : C) (hfree : s.freeing = none)
    (hp : s.tree.running p = true) (hc : s.tree.life c = .absent) (hok : s.globalpidmap.Ok) (hleft : ¬s.globalpidmap.Full) :
    ∃ i < 256, s.globalpidmap.bitmap.get i = false ∧
      s.step root rootC (.tree (.createProc p c)) = some (s.created rootC c i) := by
  rcases s.globalpidmap.allocPid_cases hok with ⟨hfull, -⟩ | ⟨i, hi, hfirst, heq⟩
  · exact absurd hfull hleft
  · refine ⟨i, hi, hfirst.1, ?_⟩
    have hinit : s.initPid c = some { s with
        pid := update s.pid c i
        globalpidmap := ⟨s.globalpidmap.bitmap.set i, i⟩
        hashpid := update s.hashpid c i
        bullet := (HashMap.insert s.bullet (hash i) c).2
        started := update s.started c false } := by
      have hnn : ¬hash (i : ℤ) < 0 := by
        have : (0 : ℤ) ≤ Int.tmod i 128 := Int.tmod_nonneg _ (Int.natCast_nonneg i)
        exact not_lt.2 this
      simp only [initPid, heq, if_neg hnn]
    have htree : s.tree.step root rootC (.createProc p c) = some (s.tree.initProc rootC c) :=
      if_pos ⟨hp, hc⟩
    exact step_of_tree hfree htree hinit

/-- The rest of `fork`, with a local pid left. -/
theorem exec_link (root : P) (hfree : s.freeing = none) (hsched : s.tree.sched = none)
    (hlock : s.loading rootC = none) (hp : s.tree.running p = true) (hpc : p ≠ c)
    (hok : (s.pidmap rootC).Ok) (hleft : ¬(s.pidmap rootC).Full) (i : ℕ) :
    ∃ j < 256, (s.pidmap rootC).bitmap.get j = false ∧
      exec (step root rootC) (s.created rootC c i)
        [.tree (.setParentToThis p c), .loadPid p c, .startPid p c, .tree (.startActivate p c)] =
          some (s.forked rootC p c i j) := by
  rcases (s.pidmap rootC).allocPid_cases hok with ⟨hfull, -⟩ | ⟨j, hj, hfirst, heq⟩
  · exact absurd hfull hleft
  · refine ⟨j, hj, hfirst.1, ?_⟩
    set t₁ := s.tree.initProc rootC c
    set t₂ := t₁.adopt p c
    obtain ⟨halive, hbody, -⟩ := Tree.running_iff.1 hp
    have hsched₁ : t₁.sched = none := hsched
    have hunused : t₁.life c = .unused := update_self _ _ _
    have horphan : t₁.parent c = none := update_self _ _ _
    have hrun : t₁.running p = true := by
      refine Tree.running_iff.2 ⟨?_, ?_, by rw [hsched₁]; exact nofun⟩
      · exact (update_of_ne hpc _ _).trans halive
      · exact (update_of_ne hpc _ _).trans hbody
    have hparent : t₂.parent c = some p := update_self _ _ _
    -- `set_parent_to_this`
    have htree₂ : t₁.step root rootC (.setParentToThis p c) = some t₂ :=
      if_pos ⟨hrun, hunused, horphan⟩
    have hstep₁ : (s.created rootC c i).step root rootC (.tree (.setParentToThis p c)) =
        some ((s.created rootC c i).setTree t₂) := step_of_tree hfree htree₂ rfl
    -- the section under `pidlock`
    have hcont : t₂.container c = rootC := update_self _ _ _
    set s₂ := (s.created rootC c i).setTree t₂
    set l : Loading P := ⟨c, j, (s₂.pidmap rootC).bitmap (j / 64)⟩ with hl
    have hlock₂ : s₂.loading rootC = none := hlock
    have hstep₂ : s₂.step root rootC (.loadPid p c) = some (s₂.loadPid c) := by
      refine if_pos ⟨mayRun_of_none hfree _ _, hrun, hunused, ?_, update_self _ _ _, ?_⟩
      · change t₂.parent c ≠ none
        rw [hparent]
        exact nofun
      · change (s₂.loading (t₂.container c)).isNone = true
        rw [hcont, hlock₂]
        rfl
    have hloading : (s₂.loadPid c).loading ((s₂.loadPid c).tree.container c) = some l := by
      have hhome : s₂.tree.container c = rootC := hcont
      have halloc : (s₂.pidmap rootC).allocPid.1 = j := congrArg Prod.fst heq
      simp only [loadPid, hhome, update_self, halloc, Int.toNat_natCast, hl]
    have hstep₃ : (s₂.loadPid c).step root rootC (.startPid p c) =
        some ((s₂.loadPid c).startPid l) := by
      rw [step, hloading, Option.bind_some]
      exact if_pos ⟨mayRun_of_none hfree _ _, hrun, rfl⟩
    have hstart := startPid_eq (s := s₂) (j := j) hcont hlock₂
    -- `activate_proc`
    have htree₃ : t₂.step root rootC (.startActivate p c) =
        some { t₂ with life := update t₂.life c .alive } :=
      if_pos ⟨hrun, hunused, by rw [hparent]; exact nofun, hsched₁⟩
    have hstep₄ : ((s₂.loadPid c).startPid l).step root rootC (.tree (.startActivate p c)) =
        some (((s₂.loadPid c).startPid l).setTree { t₂ with life := update t₂.life c .alive }) := by
      refine step_of_tree hfree htree₃ (if_pos ?_)
      exact update_self _ _ _
    simp only [exec, hstep₁, hstep₂, hstep₃, hstep₄, Option.bind_some]
    rw [hl, hstart]
    rfl

/-! ### `exit` -/

/-- **The child exits.** Only the tree changes: it goes to the end of the list of its
parent and is a zombie. -/
theorem exec_exit (h : s.tree.Inv root rootC) (hfree : s.freeing = none)
    (hsched : s.tree.sched = none) (hc : s.tree.running c = true)
    (hr : s.tree.rootproc (s.tree.container c) = some r) (hrc : r ≠ c)
    (hnone : s.tree.children c = []) (hparent : s.tree.parent c = some p) (hpc : p ≠ c)
    (hlist : s.tree.children p = c :: l) (code : ℤ) :
    ∃ tree, exec (step root rootC) s [.tree (.exitTree c code), .tree (.exitSched c)] =
        some (s.setTree tree) ∧ tree.Inv root rootC ∧
      tree.life = update s.tree.life c .zombie ∧ tree.children p = l ++ [c] ∧
      tree.place = s.tree.place ∧ tree.container = s.tree.container ∧ tree.sched = none ∧
      tree.parent c = some p := by
  obtain ⟨q, sem, sem', hq, heq, hinv, -⟩ := h.exitTree code hc hsched hr hrc
  obtain rfl : p = q := Option.mem_unique hparent hq
  set t₁ := s.tree.left c r p code sem sem' with ht₁
  have htree₁ : s.tree.step root rootC (.exitTree c code) = some t₁ := by
    rw [Tree.step, if_pos ⟨hc, hsched⟩, hr, Option.bind_some, if_neg hrc]
    exact heq
  have hstep₁ : s.step root rootC (.tree (.exitTree c code)) = some (s.setTree t₁) :=
    step_of_tree hfree htree₁ rfl
  have htree₂ : t₁.step root rootC (.exitSched c) =
      some { t₁ with life := update t₁.life c .zombie, sched := none } := if_pos rfl
  have hstep₂ : (s.setTree t₁).step root rootC (.tree (.exitSched c)) =
      some ((s.setTree t₁).setTree
        { t₁ with life := update t₁.life c .zombie, sched := none }) :=
    step_of_tree hfree htree₂ rfl
  refine ⟨_, by simp only [exec, hstep₁, hstep₂, Option.bind_some]; rfl,
    (hinv.step htree₂).1, rfl, ?_, rfl, rfl, rfl, ?_⟩
  · rw [ht₁, Tree.children_left hnone hpc, hlist, List.erase_cons_head]
  · change (if c ∈ s.tree.children c then some r else s.tree.parent c) = some p
    rw [hnone, if_neg List.not_mem_nil, hparent]

/-! ### `wait` -/

/-- **The parent waits**, and reaps the zombie at the end of its list. -/
theorem exec_wait (h : GlobalInv root rootC s) (hfree : s.freeing = none)
    (hsched : s.tree.sched = none) (hp : s.tree.running p = true)
    (hparent : s.tree.parent c = some p) (hc : s.tree.life c = .zombie)
    (hlist : s.tree.children p = l ++ [c]) (hl : c ∉ l) (hlocal : s.localpid c = (j : ℕ)) :
    ∃ s', exec (step root rootC) s
        [.tree (.waitCheck p), .tree (.waitSem p), .tree (.waitTree p), .freeLocal p] = some s' ∧
      s'.tree.children p = l ∧ s'.globalpidmap = s.globalpidmap.freePid (s.pid c) ∧
      s'.bullet = HashMap.erase s.bullet (hash (s.hashpid c)) c ∧
      ∀ d, (s'.pidmap d).bitmap = if d = s.tree.container c
        then (s.pidmap d).bitmap.clear j else (s.pidmap d).bitmap := by
  obtain ⟨halive, hbody, -⟩ := Tree.running_iff.1 hp
  -- the child has posted `childexit`
  have hval : 0 < (s.tree.childexit p).val := by
    obtain ⟨q, hq, -, -, hpos⟩ := h.tree.exists_parent (Tree.exited_iff.2 (.inl hc))
    obtain rfl : p = q := Option.mem_unique hparent hq
    exact hpos hbody
  set t₁ : Tree P C := { s.tree with place := update s.tree.place p .wantSem }
  set t₂ : Tree P C := { t₁ with
    childexit := update t₁.childexit p ((t₁.childexit p).waitSem p)
    place := update t₁.place p
      (if 0 ≤ (t₁.childexit p).val - 1 then .gotSem else .asleep) } with ht₂
  have htree₁ : s.tree.step root rootC (.waitCheck p) = some t₁ := by
    have hne : s.tree.children p ≠ [] := by simp [hlist]
    rw [Tree.step, if_pos hp, if_neg hne]
  have htree₂ : t₁.step root rootC (.waitSem p) = some t₂ :=
    if_pos ⟨update_self _ _ _, hsched⟩
  have hgot : t₂.place p = .gotSem := by
    rw [ht₂]
    simp only [update_self]
    exact if_pos (show 0 ≤ (s.tree.childexit p).val - 1 by omega)
  have hstep₁ : s.step root rootC (.tree (.waitCheck p)) = some (s.setTree t₁) :=
    step_of_tree hfree htree₁ rfl
  have hstep₂ : (s.setTree t₁).step root rootC (.tree (.waitSem p)) =
      some ((s.setTree t₁).setTree t₂) := step_of_tree hfree htree₂ rfl
  have hinv₂ : GlobalInv root rootC ((s.setTree t₁).setTree t₂) := (h.step hstep₁).step hstep₂
  have hlast : (t₂.children p).getLast? = some c := by
    rw [hlist, List.getLast?_concat]
  have hlive : ((s.setTree t₁).setTree t₂).Live c :=
    live_of_life (s := (s.setTree t₁).setTree t₂) hc ⟨by simp, by simp⟩
  -- the tables give up what the child had
  have hnn : ¬(((s.setTree t₁).setTree t₂).pid c < 0 ∨
      ((s.setTree t₁).setTree t₂).localpid c < 0) := by
    obtain ⟨i, -, hi⟩ := hinv₂.tables.range c hlive
    change ¬(_ ∨ s.localpid c < 0)
    omega
  set s₃ : Pids P C := { (s.setTree t₁).setTree t₂ with
    globalpidmap := s.globalpidmap.freePid (s.pid c)
    bullet := HashMap.erase s.bullet (hash (s.hashpid c)) c
    freeing := some ⟨p, s.tree.container c, (s.localpid c).toNat,
      (s.pidmap (s.tree.container c)).bitmap ((s.localpid c).toNat / 64)⟩ } with hs₃
  have htables : ((s.setTree t₁).setTree t₂).tables (.waitTree p) = some s₃ := by
    have hreap : ((s.setTree t₁).setTree t₂).reapPid p c = some s₃ := by
      rw [reapPid, hinv₂.tables.lookup_of_live hlive, Option.bind_some, if_neg hnn]
      rfl
    have hzombie : ((s.setTree t₁).setTree t₂).tree.life c = .zombie := hc
    have hlast' : (((s.setTree t₁).setTree t₂).tree.children p).getLast? = some c := hlast
    simp only [tables, hlast', if_pos hzombie, hreap]
  obtain ⟨z, hz, -, hreap, -⟩ := hinv₂.tree.waitTree (t := p) hgot hsched
  obtain rfl : z = c := Option.mem_unique hz hlast
  have htree₃ : t₂.step root rootC (.waitTree p) = some (t₂.waited p z) := by
    rw [Tree.step, if_pos ⟨hgot, hsched⟩]
    exact hreap
  have hstep₃ : ((s.setTree t₁).setTree t₂).step root rootC (.tree (.waitTree p)) =
      some (s₃.setTree (t₂.waited p z)) := step_of_tree hfree htree₃ htables
  have hstep₄ : (s₃.setTree (t₂.waited p z)).step root rootC (.freeLocal p) =
      some ((s₃.setTree (t₂.waited p z)).freeLocal ⟨p, s.tree.container z, (s.localpid z).toNat,
        (s.pidmap (s.tree.container z)).bitmap ((s.localpid z).toNat / 64)⟩) := if_pos rfl
  have hexec : exec (step root rootC) s
      [.tree (.waitCheck p), .tree (.waitSem p), .tree (.waitTree p), .freeLocal p] =
        some ((s₃.setTree (t₂.waited p z)).freeLocal ⟨p, s.tree.container z, (s.localpid z).toNat,
          (s.pidmap (s.tree.container z)).bitmap ((s.localpid z).toNat / 64)⟩) := by
    simp only [exec, hstep₁, hstep₂, hstep₃, hstep₄, Option.bind_some]
  refine ⟨_, hexec, ?_, rfl, rfl, fun d => ?_⟩
  · change update s.tree.children p ((s.tree.children p).erase z) p = l
    rw [update_self, hlist, List.erase_append_right _ hl, List.erase_cons_head,
      List.append_nil]
  · change (update s.pidmap (s.tree.container z) _ d).bitmap = _
    rw [update_apply]
    split_ifs with hd
    · rw [hd, hlocal, Int.toNat_natCast]
      rfl
    · rfl

/-- **The pids come back.** From every state of a run, with a pid and a local pid left: a
`fork` of `p`, the `exit` of its child and the `wait` of `p` succeed, and leave the bits of
the bitmaps, the chains of the hash table and the children of `p` as they were. -/
theorem exec_fork_exit_wait {tr : List (Pids P C × PidAct P C)}
    (hrun : Run (step root rootC) (init root rootC) tr s) (hfree : s.freeing = none)
    (hsched : s.tree.sched = none) (hlock : s.loading rootC = none)
    (hp : s.tree.running p = true) (hc : s.tree.life c = .absent) (hleft : ¬s.globalpidmap.Full)
    (hleft' : ¬(s.pidmap rootC).Full) (code : ℤ) :
    ∃ s₀ s₁ s₂ s₃, s.step root rootC (.tree (.createProc p c)) = some s₀ ∧
      exec (step root rootC) s₀
        [.tree (.setParentToThis p c), .loadPid p c, .startPid p c, .tree (.startActivate p c)] =
          some s₁ ∧
      exec (step root rootC) s₁ [.tree (.exitTree c code), .tree (.exitSched c)] = some s₂ ∧
      exec (step root rootC) s₂
        [.tree (.waitCheck p), .tree (.waitSem p), .tree (.waitTree p), .freeLocal p] =
          some s₃ ∧
      s₃.globalpidmap.bitmap = s.globalpidmap.bitmap ∧
      (∀ d, (s₃.pidmap d).bitmap = (s.pidmap d).bitmap) ∧ s₃.bullet = s.bullet ∧
      s₃.tree.children p = s.tree.children p := by
  have hinv := globalInv_of_run hrun
  obtain ⟨halive, hbody, -⟩ := Tree.running_iff.1 hp
  have hpc : p ≠ c := ne_of_values halive hc nofun
  have hroot : root ≠ c := ne_of_values hinv.tree.links.root_alive.1 hc nofun
  -- the child is in no list yet
  have hnew : c ∉ s.tree.children p := by
    intro hmem
    have hparent := ((hinv.tree.links.mem_iff p c).1 hmem).1
    rw [hinv.tree.links.gone c (.inl hc)] at hparent
    cases hparent
  have hnode : ∀ b, c ∉ s.bullet b := fun b hmem =>
    ((hinv.tables.holds.mem_iff b c).1 hmem).1.1 hc
  obtain ⟨i, -, hi, hcreate⟩ := step_createProc_eq root rootC hfree hp hc hinv.tables.ok hleft
  obtain ⟨j, -, hj, hlink⟩ := exec_link root hfree hsched hlock hp hpc
    ((mapsOk_of_run (stepAny_of_run hrun)).maps rootC) hleft' i
  have hrun₁ := (hrun.snoc hcreate).append (Run.of_exec hlink)
  set s₁ := s.forked rootC p c i j with hs₁
  have hinv₁ : GlobalInv root rootC s₁ := globalInv_of_run hrun₁
  -- the child exits
  have hcont : s₁.tree.container c = rootC := update_self _ _ _
  have hparent : s₁.tree.parent c = some p := update_self _ _ _
  have hrunning : s₁.tree.running c = true := by
    refine Tree.running_iff.2 ⟨update_self _ _ _, update_self _ _ _, ?_⟩
    rw [show s₁.tree.sched = none from hsched]
    exact nofun
  have hnone : s₁.tree.children c = [] := by
    change update (update s.tree.children c []) p _ c = []
    rw [update_of_ne hpc.symm, update_self]
  have hlist : s₁.tree.children p = c :: s.tree.children p := by
    change update (update s.tree.children c []) p
      (c :: update s.tree.children c [] p) p = _
    rw [update_self, update_of_ne hpc]
  have hhome : s₁.tree.rootproc (s₁.tree.container c) = some root := by
    rw [hcont]
    exact hinv.tree.homes.root_home.1
  obtain ⟨tree, hexit, -, hlife, hlist₂, hplace, hcont₂, hsched₂, hparent₂⟩ :=
    exec_exit hinv₁.tree hfree hsched hrunning hhome hroot hnone hparent hpc hlist code
  have hinv₂ := globalInv_of_run (hrun₁.append (Run.of_exec hexit))
  -- the parent reaps it
  have hrunning₂ : tree.running p = true := by
    refine Tree.running_iff.2 ⟨?_, ?_, by rw [hsched₂]; exact nofun⟩
    · rw [hlife, update_of_ne hpc]
      change update (update s.tree.life c .unused) c .alive p = .alive
      rw [update_of_ne hpc, update_of_ne hpc, halive]
    · rw [hplace]
      exact (update_of_ne hpc _ _).trans hbody
  have hzombie : tree.life c = .zombie := by rw [hlife, update_self]
  have hlocal : s₁.localpid c = (j : ℕ) := update_self _ _ _
  have hpid : s₁.pid c = (i : ℕ) := update_self _ _ _
  have hkey : s₁.hashpid c = (i : ℕ) := update_self _ _ _
  obtain ⟨s₃, hwait, hlist₃, hglobal, hbullet, hmaps⟩ := exec_wait (s := s₁.setTree tree) hinv₂
    hfree hsched₂ hrunning₂ hparent₂ hzombie hlist₂ hnew hlocal
  refine ⟨_, s₁, _, s₃, hcreate, hlink, hexit, hwait, ?_, fun d => ?_, ?_, hlist₃⟩
  · rw [hglobal]
    change (s.globalpidmap.bitmap.set i).clear (s₁.pid c).toNat = _
    rw [hpid, Int.toNat_natCast, Cells.clear_set hi]
  · rw [hmaps d]
    change (if d = tree.container c then (s₁.pidmap d).bitmap.clear j else _) = _
    rw [hcont₂, hcont]
    change (if d = rootC then (update s.pidmap rootC _ d).bitmap.clear j
      else (update s.pidmap rootC _ d).bitmap) = _
    split_ifs with hd
    · subst hd
      rw [update_self]
      exact Cells.clear_set hj
    · rw [update_of_ne hd]
  · rw [hbullet]
    change HashMap.erase (HashMap.insert s.bullet (hash i) c).2 (hash (s₁.hashpid c)) c = _
    rw [hkey, HashMap.erase_insert (hnode _)]

end Pids

/-! ## All resources -/

namespace Resources

variable {s : Resources P C} {sb : SuperBlock} {root p c : P} {rootC : C}

/-- **`fork`, `exit` and `wait`**, from every state of the processes with a pid and a local
pid left, for every parent whose open files have references and whose working directory is
in memory: all three succeed. Afterwards the files, the bits of both bitmaps, the chains of
the hash table, the children of the parent and all inodes in memory but one are as before.
The inode of the working directory has one reference more. -/
theorem fork_exit_wait {tr : List (Pids P C × PidAct P C)} {ino : Fs.Inode}
    (hrun : Run (Pids.step root rootC) (Pids.init root rootC) tr s.pids)
    (hfree : s.pids.freeing = none) (hsched : s.pids.tree.sched = none)
    (hlock : s.pids.loading rootC = none) (hp : s.pids.tree.running p = true) (hc : s.pids.tree.life c = .absent)
    (hleft : ¬s.pids.globalpidmap.Full) (hleft' : ¬(s.pids.pidmap rootC).Full)
    (hlive : p ∈ s.files.live) (hnew : c ∉ s.files.live)
    (hopen : ∀ fd < nofile, ∀ f, s.files.oftable p fd = some f → 1 ≤ (s.files.file f).ref)
    (hcwd : s.fs.icache (s.cwd p) = some ino) (code : ℤ) :
    ∃ s₁ s₂ s₃, s.fork root rootC p c = some s₁ ∧ s₁.exit sb root rootC c code = some s₂ ∧
      s₂.wait root rootC p = some s₃ ∧
      s₃.files.file = s.files.file ∧
      (∀ i, i ≠ s.cwd p → s₃.fs.icache i = s.fs.icache i) ∧
      s₃.fs.icache (s.cwd p) = some { ino with rc := ino.rc + 1 } ∧
      s₃.pids.globalpidmap.bitmap = s.pids.globalpidmap.bitmap ∧
      (∀ d, (s₃.pids.pidmap d).bitmap = (s.pids.pidmap d).bitmap) ∧
      s₃.pids.bullet = s.pids.bullet ∧
      s₃.pids.tree.children p = s.pids.tree.children p := by
  obtain ⟨pids₀, pids₁, pids₂, pids₃, hcreate, hlink, hexit, hwait, hglobal, hlocal, hbullet,
    hchildren⟩ := Pids.exec_fork_exit_wait hrun hfree hsched hlock hp hc hleft hleft' code
  -- the table of the child is that of its parent
  set files₁ : FileSys P := { s.files with
    file := eachOpen Fs.filedup (s.files.oftable p) nofile s.files.file
    live := insert c s.files.live
    oftable := update s.files.oftable c fun fd =>
      if s.files.oftable p fd = none then none else s.files.oftable p fd
    sections := update s.files.sections c (s.files.sections p).reverse } with hfiles₁
  have hfork : s.files.step (.fork p c fun _ => none) = some files₁ := if_pos ⟨hlive, hnew⟩
  have hcount : ∀ g, count (files₁.oftable c) nofile g = count (s.files.oftable p) nofile g := by
    refine Fs.FileSys.count_congr fun fd hfd => ?_
    rw [hfiles₁]
    simp only [update_self]
    exact Fs.FileSys.forkTable_eq (fun _ _ _ => rfl) hfd
  set fs₁ : FS := s.fs.set (s.cwd p) s.fs.blocks (some { ino with rc := ino.rc + 1 })
  have hshare : s.fs.inodeShare (s.cwd p) = some fs₁ := by
    rw [FS.inodeShare, hcwd, Option.map_some]
  have hclose : ∀ fs, closeFiles sb (files₁.oftable c) nofile (files₁.file, fs) =
      some (s.files.file, fs) := by
    intro fs
    rw [closeFiles_eq (Fs.FileSys.count_lt_ref_dup hcount hopen), hfiles₁,
      Fs.FileSys.dup_close hcount hopen]
  set cwd₁ := update s.cwd c (s.cwd p)
  set files₂ := leaveFiles files₁ c s.files.file
  refine ⟨⟨pids₁, files₁, fs₁, cwd₁⟩, ⟨pids₂, files₂, fs₁, cwd₁⟩, ⟨pids₃, files₂, fs₁, cwd₁⟩,
    ?_, ?_, ?_, rfl, fun i hi => ?_, ?_, hglobal, hlocal, hbullet, hchildren⟩
  · simp only [fork, hcreate, hfork, hshare, hlink, Option.bind_eq_bind, Option.bind_some]
    rfl
  · simp only [exit, hclose, hexit, Option.bind_eq_bind, Option.bind_some]
    rfl
  · simp only [wait, hwait, Option.map_some]
  · exact update_of_ne hi _ _
  · exact update_self _ _ _

/-- The root process alone, with a file open and a working directory. -/
def oneProcess : Resources ℕ Unit where
  pids := Pids.init 0 ()
  files :=
    { file := fun f => if f = 0 then ⟨.inode, 1, 1⟩ else ⟨.none, 0, 0⟩
      live := {0}
      oftable := fun _ fd => if fd = 0 then some 0 else none
      sections := fun _ => [] }
  fs := Fs.oneFile 12
  cwd := fun _ => 1

/-- The root process forks and waits for its child. -/
theorem fork_exit_wait_once : ∃ s₁ s₂ s₃ : Resources ℕ Unit,
    oneProcess.fork 0 () 0 1 = some s₁ ∧ s₁.exit Cache.mkfsLayout 0 () 1 7 = some s₂ ∧
      s₂.wait 0 () 0 = some s₃ ∧ s₃.files.file = oneProcess.files.file ∧
      s₃.pids.bullet = oneProcess.pids.bullet ∧ s₃.pids.tree.children 0 = [] := by
  have hclear : ∀ {m : PidMap}, m.bitmap.get 255 = false → ¬m.Full :=
    PidMap.not_full_of_clear (by decide)
  have hopen : ∀ fd < nofile, ∀ f, oneProcess.files.oftable 0 fd = some f →
      1 ≤ (oneProcess.files.file f).ref := by
    intro fd _ f hf
    obtain ⟨-, rfl⟩ := of_guard hf
    decide
  obtain ⟨s₁, s₂, s₃, hfork, hexit, hwait, hfile, -, -, -, -, hbullet, hchildren⟩ :=
    @fork_exit_wait ℕ Unit _ _ oneProcess Cache.mkfsLayout 0 0 1 () [] _ Run.nil rfl rfl rfl
      (by decide) (by decide) (hclear (by decide)) (hclear (by decide)) (by decide) (by decide)
      hopen rfl 7
  exact ⟨s₁, s₂, s₃, hfork, hexit, hwait, hfile, hbullet, hchildren⟩

/-- **The working directory has one reference more** after a `fork`, the `exit` of the child
and the `wait` of the parent. -/
theorem cwd_reference_leaks : ∃ s₁ s₂ s₃ : Resources ℕ Unit,
    oneProcess.fork 0 () 0 1 = some s₁ ∧ s₁.exit Cache.mkfsLayout 0 () 1 0 = some s₂ ∧
      s₂.wait 0 () 0 = some s₃ ∧
      (oneProcess.fs.icache (oneProcess.cwd 0)).map Fs.Inode.rc = some 1 ∧
      (s₃.fs.icache (oneProcess.cwd 0)).map Fs.Inode.rc = some 2 := by
  have hkey : ((oneProcess.fork 0 () 0 1).bind fun s₁ =>
      (s₁.exit Cache.mkfsLayout 0 () 1 0).bind fun s₂ => (s₂.wait 0 () 0).map fun s₃ =>
        decide ((s₃.fs.icache (oneProcess.cwd 0)).map Fs.Inode.rc = some 2)) = some true := by
    decide +kernel
  obtain ⟨s₁, hfork, hkey⟩ := Option.bind_eq_some_iff.1 hkey
  obtain ⟨s₂, hexit, hkey⟩ := Option.bind_eq_some_iff.1 hkey
  obtain ⟨s₃, hwait, hend⟩ := Option.map_eq_some_iff.1 hkey
  exact ⟨s₁, s₂, s₃, hfork, hexit, hwait, rfl, of_decide_eq_true hend⟩

end Resources

end OsKernel.Proc
