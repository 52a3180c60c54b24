import OsKernel.Proc.Pids

/-!
# Two processes with one local pid

A `start_proc` that allocates between the read and the write of a `free_pid` in
the same container has its bit undone by the write, and the pid is allocated
again when the search comes around. The run begins with the root process starting
as many processes as there are pids (`run_filled`).
-/

namespace OsKernel.Proc

open Function

namespace Pids

instance (s : Pids ℕ Unit) (a : PidAct ℕ Unit) : Decidable (NoOverlap s a) :=
  match a with
  | .loadPid _ p =>
    inferInstanceAs (Decidable (∀ f ∈ s.freeing, f.container ≠ s.tree.container p))
  | .tree (.waitTree t) => inferInstanceAs (Decidable (∀ z ∈ (s.tree.children t).getLast?,
      s.tree.life z = .zombie → (s.loading (s.tree.container z)).isNone))
  | .tree (.createProc _ _) | .tree (.setParentToThis _ _) | .tree (.setContainerToThis _ _)
  | .tree (.createContainer _ _ _) | .tree (.startParent _ _) | .tree (.startActivate _ _)
  | .tree (.exitTree _ _) | .tree (.exitSched _) | .tree (.waitCheck _) | .tree (.waitSem _)
  | .tree (.waitResume _) | .startPid _ _ | .freeLocal _ => isTrue trivial

/-- `create_proc`, `set_parent_to_this` and `start_proc`. -/
def spawn (t p : ℕ) : List (PidAct ℕ Unit) :=
  [.tree (.createProc t p), .tree (.setParentToThis t p), .loadPid t p, .startPid t p,
    .tree (.startActivate t p)]

/-- `exit` of a child of the root process, and `wait` of the root process up to the
read of `free_pid`. -/
def exitAndReap (p : ℕ) : List (PidAct ℕ Unit) :=
  [.tree (.exitTree p 0), .tree (.exitSched p), .tree (.waitCheck 0), .tree (.waitSem 0),
    .tree (.waitTree 0)]

/-- Process 1 is started, exits and is reaped, and process 2 gets the next pids. -/
theorem pid_tables_agree_two : ∃ tr s, Run (step 0 ()) (init 0 () : Pids ℕ Unit) tr s ∧
    s.Live 2 ∧ s.pid 2 = 2 ∧ s.localpid 2 = 2 ∧ s.lookup (s.pid 2) = some 2 ∧
    s.globalpidmap.bitmap.get 1 = false := by
  have hend : (exec (step 0 ()) (init 0 () : Pids ℕ Unit)
      (spawn 0 1 ++ exitAndReap 1 ++ [.freeLocal 0] ++ spawn 0 2)).any (fun s =>
        decide (s.Live 2 ∧ s.pid 2 = 2 ∧ s.localpid 2 = 2 ∧
          s.globalpidmap.bitmap.get 1 = false)) = true := by decide +kernel
  have htr : (execTrace (step 0 ()) (init 0 () : Pids ℕ Unit)
      (spawn 0 1 ++ exitAndReap 1 ++ [.freeLocal 0] ++ spawn 0 2)).all (fun x =>
        decide (NoOverlap x.1 x.2)) = true := by decide +kernel
  obtain ⟨s, hs, hend⟩ := (Option.any_eq_true _ _).1 hend
  obtain ⟨hlive, hpid, hlocal, hclear⟩ := of_decide_eq_true hend
  have hagree := pid_tables_agree (Run.of_exec hs) fun x hx =>
    of_decide_eq_true (List.all_eq_true.1 htr x hx)
  exact ⟨_, s, Run.of_exec hs, hlive, hpid, hlocal, hagree.2.2.2.1.2.2.1 2 hlive, hclear⟩

/-! ## As many processes as pids -/

/-- The bits up to `n` are set. -/
def bits : ℕ → Cells
  | 0 => Cells.empty.set 0
  | n + 1 => (bits n).set (n + 1)

theorem get_bits (n j : ℕ) : (bits n).get j = decide (j ≤ n) := by
  induction n with
  | zero =>
    rw [bits, Cells.get_set, Cells.get_empty]
    simp
  | succ n ih =>
    rw [bits, Cells.get_set, ih, Bool.eq_iff_iff]
    simp only [Bool.or_eq_true, decide_eq_true_iff]
    omega

/-- Every pid is in use. -/
theorem bits_full : bits 255 = fun c => if c < 4 then BitVec.allOnes 64 else 0 := by
  refine Cells.ext_get fun j => ?_
  have hmod : j % 64 < 64 := Nat.mod_lt _ (by decide)
  rw [get_bits, Cells.get]
  split_ifs with hj
  · rw [BitVec.getLsbD_allOnes, decide_eq_decide]
    omega
  · have hlt : ¬ j ≤ 255 := by omega
    simp [hlt]

/-- The root process has started `n` processes, and all are alive. -/
def filled (n : ℕ) : Pids ℕ Unit where
  tree :=
    { life := fun p => if p ≤ n then .alive else .absent
      parent := fun p => if p ≤ n then some 0 else none
      children := fun p => if p = 0 then (List.range' 1 n).reverse else []
      childexit := fun _ => Semaphore.initSem 0
      exitcode := fun _ => 0
      container := fun _ => ()
      rootproc := fun _ => some 0
      place := fun _ => .body
      sched := none }
  pid := fun p => if p ≤ n then p else 0
  localpid := fun p => if p ≤ n then p else 0
  globalpidmap := ⟨bits n, n⟩
  pidmap := fun _ => ⟨bits n, n⟩
  bullet := fun b => (List.range (n + 1)).filter fun p => hash p = b
  hashpid := fun p => if p ≤ n then p else 0
  started := fun p => p ≤ n
  freeing := none
  loading := fun _ => none

theorem update_le {α : Type} (f g : ℕ → α) (n : ℕ) :
    update (fun p => if p ≤ n then f p else g p) (n + 1) (f (n + 1)) =
      fun p => if p ≤ n + 1 then f p else g p := by
  funext p
  rw [update_apply]
  by_cases hp : p = n + 1
  · rw [if_pos hp, if_pos hp.le, hp]
  · rw [if_neg hp]
    exact if_congr (by omega) rfl rfl

theorem update_const {α : Type} (a : α) (n : ℕ) :
    update (fun _ : ℕ => a) n a = fun _ => a :=
  update_eq_self n _

/-- The next pid is the first that is clear. -/
theorem allocPid_filled {n : ℕ} (hn : n < 255) :
    PidMap.allocPid ⟨bits n, n⟩ = (((n + 1 : ℕ) : ℤ), ⟨bits (n + 1), (n + 1 : ℕ)⟩) := by
  have hcand : PidMap.candidate ⟨bits n, n⟩ = n + 1 := by
    have hstart : ((n : ℤ) + 1).toNat = n + 1 := by omega
    obtain ⟨k, hk⟩ : ∃ k, maxContainerPid - (n + 1) = k + 1 := ⟨254 - n, by
      change 256 - (n + 1) = _
      omega⟩
    have hclear : (bits n).get (n + 1) = false := by
      rw [get_bits]
      simp
    have hscan : PidMap.scan (bits n) (maxContainerPid - (n + 1)) (n + 1) = n + 1 := by
      rw [hk, PidMap.scan, hclear]
      rfl
    have hne : n + 1 ≠ maxContainerPid := by
      change n + 1 ≠ 256
      omega
    simp only [PidMap.candidate, hstart, hscan, if_neg hne]
  rw [PidMap.allocPid, hcand, if_pos]
  · rfl
  · refine ⟨?_, ?_⟩
    · change 256 ≠ n + 1
      omega
    · change (bits n).get (n + 1) = false
      rw [get_bits]
      simp

/-- The new node goes to the end of its bucket. -/
theorem insert_filled (n : ℕ) :
    (HashMap.insert (filled n).bullet (hash ((n + 1 : ℕ) : ℤ)) (n + 1)).2 =
      (filled (n + 1)).bullet := by
  funext b
  change update (filled n).bullet _ _ b =
    (List.range (n + 1 + 1)).filter fun p : ℕ => decide (hash (p : ℤ) = b)
  rw [update_apply, List.range_succ, List.filter_append]
  split_ifs with hb
  · subst hb
    congr 1
    simp
  · have hne : ¬hash ((n + 1 : ℕ) : ℤ) = b := fun heq => hb heq.symm
    rw [List.filter_cons_of_neg (by simpa using hne), List.filter_nil, List.append_nil]
    rfl

/-- The next process, as `create_proc` leaves it. -/
def withNew (n : ℕ) : Pids ℕ Unit :=
  { filled n with
    tree := (filled n).tree.initProc () (n + 1)
    pid := update (filled n).pid (n + 1) ((n + 1 : ℕ) : ℤ)
    globalpidmap := ⟨bits (n + 1), ((n + 1 : ℕ) : ℤ)⟩
    hashpid := update (filled n).hashpid (n + 1) ((n + 1 : ℕ) : ℤ)
    bullet := (filled (n + 1)).bullet
    started := update (filled n).started (n + 1) false }

theorem step_createProc_filled {n : ℕ} (hn : n < 255) :
    step 0 () (filled n) (.tree (.createProc 0 (n + 1))) = some (withNew n) := by
  have hhash : ¬hash ((n + 1 : ℕ) : ℤ) < 0 := not_lt.2 (Int.tmod_nonneg _ (by omega))
  have htree : (filled n).tree.step 0 () (.createProc 0 (n + 1)) =
      some ((filled n).tree.initProc () (n + 1)) := by
    simp [Tree.step, Tree.running, filled]
  have htables : (filled n).tables (.createProc 0 (n + 1)) =
      some { withNew n with tree := (filled n).tree } := by
    have halloc : (filled n).globalpidmap.allocPid = _ := allocPid_filled hn
    simp only [tables, initPid, halloc, if_neg hhash, insert_filled]
    rfl
  have hrun : (filled n).mayRun 0 true = true := rfl
  simp only [step, Act.actor, Act.locksTree, hrun, if_true, htree, htables, Option.bind_some,
    Option.map_some]
  rfl

/-- The next process, in `start_proc`. -/
def withLoaded (n : ℕ) : Pids ℕ Unit :=
  ((withNew n).setTree ((withNew n).tree.adopt 0 (n + 1))).loadPid (n + 1)

/-- The next process, as `start_proc` leaves it before it is activated. -/
def withStarted (n : ℕ) : Pids ℕ Unit :=
  (withLoaded n).startPid ⟨n + 1, (n + 1 : ℕ), bits n ((n + 1) / 64)⟩

/-- The next process is activated. -/
theorem activated_eq (n : ℕ) :
    (withStarted n).setTree { (withStarted n).tree with
      life := update (withStarted n).tree.life (n + 1) .alive } = filled (n + 1) := by
  have hchildren : update (update (filled n).tree.children (n + 1) []) 0
      ((n + 1) :: update (filled n).tree.children (n + 1) [] 0) =
        (filled (n + 1)).tree.children := by
    funext p
    rw [update_apply, update_apply, update_apply]
    by_cases hp : p = 0
    · simp [hp, filled, List.range'_concat, Nat.add_comm]
    · by_cases hp' : p = n + 1
      · simp [hp', filled]
      · simp [hp, hp', filled]
  have hlife := update_le (fun _ => Life.alive) (fun _ => Life.absent) n
  have hparent := update_le (fun _ => some 0) (fun _ => (none : Option ℕ)) n
  have hpid := update_le (fun p : ℕ => (p : ℤ)) (fun _ => 0) n
  have hstarted : update (fun p : ℕ => decide (p ≤ n)) (n + 1) true =
      fun p => decide (p ≤ n + 1) := by
    funext p
    rw [update_apply]
    split_ifs with hp
    · simp [hp]
    · exact decide_eq_decide.2 (by omega)
  have hneg : ¬((n + 1 : ℕ) : ℤ) < 0 := by omega
  simp only [withStarted, withLoaded, withNew, setTree, startPid, loadPid, Tree.adopt,
    Tree.initProc, hchildren, update_idem, if_neg hneg, Int.toNat_natCast]
  simp only [filled, hlife, hparent, hpid, hstarted, update_const]
  congr 1

/-- **The root process starts one more.** -/
theorem exec_spawn {n : ℕ} (hn : n < 255) :
    exec (step 0 ()) (filled n) (spawn 0 (n + 1)) = some (filled (n + 1)) := by
  have h₂ : step 0 () (withNew n) (.tree (.setParentToThis 0 (n + 1))) =
      some ((withNew n).setTree ((withNew n).tree.adopt 0 (n + 1))) := by
    simp [step, mayRun, withNew, tables, Tree.step, Tree.running, Tree.initProc, filled]
  have h₃ : step 0 () ((withNew n).setTree ((withNew n).tree.adopt 0 (n + 1)))
      (.loadPid 0 (n + 1)) = some (withLoaded n) := by
    simp [step, mayRun, withLoaded, withNew, setTree, Tree.running, Tree.adopt, Tree.initProc,
      filled]
  have hloading : (withLoaded n).loading () = some ⟨n + 1, (n + 1 : ℕ), bits n ((n + 1) / 64)⟩ := by
    have halloc : ((filled n).pidmap ()).allocPid = _ := allocPid_filled hn
    simp only [withLoaded, loadPid, withNew, setTree, halloc, update_self, Int.toNat_natCast]
    rfl
  have h₄ : step 0 () (withLoaded n) (.startPid 0 (n + 1)) = some (withStarted n) := by
    rw [step, hloading, Option.bind_some]
    simp [mayRun, withStarted, withLoaded, loadPid, withNew, setTree, Tree.running, Tree.adopt,
      Tree.initProc, filled]
  have h₅ : step 0 () (withStarted n) (.tree (.startActivate 0 (n + 1))) =
      some ((withStarted n).setTree { (withStarted n).tree with
        life := update (withStarted n).tree.life (n + 1) .alive }) := by
    simp [step, mayRun, tables, withStarted, startPid, withLoaded, loadPid, withNew, setTree,
      Tree.step, Tree.running, Tree.adopt, Tree.initProc, filled]
  simp only [spawn, exec, step_createProc_filled hn, h₂, h₃, h₄, h₅, Option.bind_some,
    activated_eq]

theorem init_eq_filled : (init 0 () : Pids ℕ Unit) = filled 0 := by
  have hle : ∀ p : ℕ, p = 0 ↔ p ≤ 0 := fun p => Nat.le_zero.symm
  have hbullet : (fun b : ℤ => if b = 0 then [0] else []) = (filled 0).bullet := by
    funext b
    change _ = [0].filter fun p : ℕ => decide (hash (p : ℤ) = b)
    by_cases hb : b = 0
    · subst hb
      rfl
    · have hne : ¬hash ((0 : ℕ) : ℤ) = b := fun heq => hb heq.symm
      rw [if_neg hb, List.filter_cons_of_neg (by simpa using hne), List.filter_nil]
  have hpid : (fun p : ℕ => if p ≤ 0 then (p : ℤ) else 0) = fun _ => 0 := by
    funext p
    split_ifs with hp
    · rw [Nat.le_zero.1 hp]
      rfl
    · rfl
  have hchildren : (fun p : ℕ => if p ≤ 0 then (List.range' 1 0).reverse else []) = fun _ => [] := by
    funext p
    exact ite_self _
  simp only [init, Tree.init, hbullet]
  simp only [filled, hle, hpid, hchildren, if_true]
  congr 1

/-- **The root process starts `n` processes.** -/
theorem run_filled {n : ℕ} (hn : n ≤ 255) :
    ∃ tr, Run (step 0 ()) (init 0 () : Pids ℕ Unit) tr (filled n) := by
  induction n with
  | zero => exact ⟨[], init_eq_filled ▸ Run.nil⟩
  | succ n ih =>
    obtain ⟨tr, hrun⟩ := ih (by omega)
    exact ⟨_, hrun.append (Run.of_exec (exec_spawn hn))⟩

/-! ## The race -/

/-- When all pids are in use, process 2 exits and is reaped, and process 3 creates
256. Process 1 exits, and the root process has read the cell of its local pid when
process 3 starts 256; then the cell is written. Process 3 starts 257, process 4 is
reaped, and process 3 starts 258. -/
def raceRun : List (PidAct ℕ Unit) :=
  exitAndReap 2 ++ [.freeLocal 0] ++
  [.tree (.createProc 3 256), .tree (.setParentToThis 3 256)] ++ exitAndReap 1 ++
  [.loadPid 3 256, .startPid 3 256, .freeLocal 0, .tree (.startActivate 3 256)] ++ spawn 3 257 ++
  exitAndReap 4 ++ [.freeLocal 0] ++ spawn 3 258

/-- **Two live processes of one container have one local pid**, with no more than
`MAX_CONTAINER_PID` live processes at any time. -/
theorem local_pid_twice : ∃ tr s, Run (step 0 ()) (init 0 () : Pids ℕ Unit) tr s ∧
    (∀ x ∈ tr, ∀ l : List ℕ, l.Nodup → (∀ p ∈ l, x.1.Live p) → l.length ≤ 256) ∧
    (∀ l : List ℕ, l.Nodup → (∀ p ∈ l, s.Live p) → l.length ≤ 256) ∧
    s.Live 256 ∧ s.Live 258 ∧ s.started 256 = true ∧ s.started 258 = true ∧
    s.tree.container 256 = s.tree.container 258 ∧ s.localpid 256 = s.localpid 258 := by
  have hend : (exec (step 0 ()) (filled 255) raceRun).any (fun s =>
      decide (s.Live 256 ∧ s.Live 258 ∧ s.started 256 = true ∧ s.started 258 = true ∧
        s.localpid 256 = s.localpid 258)) = true := by
    rw [filled, bits_full]
    decide +kernel
  obtain ⟨s, hs, hend⟩ := (Option.any_eq_true _ _).1 hend
  obtain ⟨hlive, hlive', hstarted, hstarted', hlocal⟩ := of_decide_eq_true hend
  obtain ⟨tr, hrun⟩ := run_filled le_rfl
  have hrun' := hrun.append (Run.of_exec hs)
  refine ⟨_, s, hrun', fun x hx l hnodup hl => ?_,
    fun l hnodup hl => (globalInv_of_run hrun').length_le hnodup hl, hlive, hlive', hstarted,
    hstarted', rfl, hlocal⟩
  obtain ⟨_, _, hbefore, -, -⟩ := hrun'.of_mem hx
  exact (globalInv_of_run hbefore).length_le hnodup hl

end Pids

end OsKernel.Proc
