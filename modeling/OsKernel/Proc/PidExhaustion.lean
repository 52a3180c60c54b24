import OsKernel.Proc.PidRace

/-!
# Running out of pids

`alloc_pid` returns `-1` when all bits of its bitmap are set, and none of
its callers looks at it. `init_proc` stores the `-1` and hashes it, and
`start_proc` stores it as the local pid; this is `Pids.stepAny`.

With a pid left at every creation and at every start (`PidLeft`), the two
are the same, and all pids and buckets are in range (`pids_in_range`).
With 256 live processes the next creation gets the pid `-1` and the bucket
`-1` (`pid_minus_one_hashed`).
-/

namespace OsKernel.Proc

open Function

namespace Pids

variable {P C : Type} [DecidableEq P] [DecidableEq C]

/-! ## With a pid left -/

variable {s s' : Pids P C} {root p : P} {rootC : C} {a : PidAct P C}

theorem hash_natCast (i : ℕ) : hash i = ((i % 128 : ℕ) : ℤ) := by
  rw [hash, Int.tmod_eq_emod_of_nonneg (Int.natCast_nonneg i)]
  norm_cast

omit [DecidableEq C] in
/-- A pid that is left is found. -/
theorem initPid_eq_some (hok : s.globalpidmap.Ok) (hleft : ¬s.globalpidmap.Full) :
    s.initPid p = some (s.initPidAny p) := by
  rw [initPid_eq_ite, if_neg]
  rcases s.globalpidmap.allocPid_cases hok with ⟨hfull, -⟩ | ⟨i, -, -, heq⟩
  · exact absurd hfull hleft
  · rw [heq, hash_natCast]
    omega

/-- **With a pid left, the code does what `Pids.step` does.** -/
theorem step_of_stepAny (hok : s.globalpidmap.Ok) (hleft : PidLeft s a)
    (hs : s.stepAny root rootC a = some s') : s.step root rootC a = some s' := by
  cases a with
  | loadPid | startPid | freeLocal => exact hs
  | tree a =>
    have htables : s.tables a = s.tablesAny a := by
      cases a with
      | createProc t p => exact initPid_eq_some hok hleft
      | createContainer t c p => exact initPid_eq_some (s := s.initContainer c) hok hleft
      | _ => rfl
    rw [Pids.step, htables]
    exact hs

/-- All numbers in the tables are pids. -/
structure InRange (s : Pids P C) : Prop where
  pid : ∀ p, ∃ i < 256, s.pid p = (i : ℕ)
  hashpid : ∀ p, ∃ i < 256, s.hashpid p = (i : ℕ)
  localpid : ∀ p, ∃ i < 256, s.localpid p = (i : ℕ)
  loading : ∀ d, ∀ l ∈ s.loading d, ∃ i < 256, l.pid = (i : ℕ)

section

omit [DecidableEq C]

/-- One number changes. -/
theorem exists_update {f : P → ℤ} (hf : ∀ q, ∃ i < 256, f q = (i : ℕ)) {j : ℕ} (hj : j < 256)
    (p q : P) : ∃ i < 256, update f p (j : ℤ) q = (i : ℕ) := by
  rw [update_apply]
  split_ifs
  · exact ⟨j, hj, rfl⟩
  · exact hf q

/-- A creation stores a pid. -/
theorem InRange.initPid (h : s.InRange) (hok : s.globalpidmap.Ok) (hs : s.initPid p = some s') :
    s'.InRange := by
  obtain ⟨i, hi, -, rfl⟩ := initPid_eq hok hs
  exact ⟨exists_update h.pid hi p, exists_update h.hashpid hi p, h.localpid, h.loading⟩

end

omit [DecidableEq P] in
/-- A start allocates a local pid. -/
theorem InRange.loadPid (h : s.InRange) (hmaps : s.MapsOk)
    (hleft : ¬(s.pidmap (s.tree.container p)).Full) : (s.loadPid p).InRange := by
  rcases (s.pidmap (s.tree.container p)).allocPid_cases (hmaps.maps _) with
    ⟨hfull, -⟩ | ⟨i, hi, -, heq⟩
  · exact absurd hfull hleft
  · refine ⟨h.pid, h.hashpid, h.localpid, fun d l hl => ?_⟩
    simp only [Pids.loadPid, update_apply] at hl
    split_ifs at hl
    · obtain rfl := Option.some.inj hl
      exact ⟨i, hi, by rw [heq]⟩
    · exact h.loading d l hl

/-- And it is stored. -/
theorem InRange.startPid {l : Loading P} {d : C} (h : s.InRange) (hl : s.loading d = some l) :
    (s.startPid l).InRange := by
  obtain ⟨i, hi, hpid⟩ := h.loading d l hl
  refine ⟨h.pid, h.hashpid, fun q => ?_, fun d' l' hl' => ?_⟩
  · simp only [Pids.startPid, hpid]
    exact exists_update h.localpid hi l.proc q
  · simp only [Pids.startPid, update_apply] at hl'
    split_ifs at hl'
    · cases hl'
    · exact h.loading d' l' hl'

/-- **Every step with a pid left keeps the numbers in range.** -/
theorem InRange.step (h : s.InRange) (hinv : GlobalInv root rootC s) (hmaps : s.MapsOk)
    (hleft : PidLeft s a) (hs : s.step root rootC a = some s') : s'.InRange := by
  cases a with
  | loadPid t p =>
    obtain ⟨-, rfl⟩ := of_guard hs
    exact h.loadPid hmaps hleft
  | startPid t p =>
    obtain ⟨l, hl, hs⟩ := Option.bind_eq_some_iff.1 hs
    obtain ⟨-, rfl⟩ := of_guard hs
    exact h.startPid hl
  | freeLocal t =>
    obtain ⟨f, -, hs⟩ := Option.bind_eq_some_iff.1 hs
    obtain ⟨-, rfl⟩ := of_guard hs
    exact ⟨h.pid, h.hashpid, h.localpid, h.loading⟩
  | tree a =>
    obtain ⟨-, tree, s₁, htree, hs₁, rfl⟩ := step_tree hs
    -- the tree holds none of the numbers
    suffices hrange : s₁.InRange from
      ⟨hrange.pid, hrange.hashpid, hrange.localpid, hrange.loading⟩
    cases a with
    | createProc t p => exact h.initPid hinv.tables.ok hs₁
    | createContainer t c p =>
      refine InRange.initPid (s := s.initContainer c)
        ⟨h.pid, h.hashpid, h.localpid, fun d l hl => ?_⟩ hinv.tables.ok hs₁
      simp only [initContainer, update_apply] at hl
      split_ifs at hl
      · cases hl
      · exact h.loading d l hl
    | setContainerToThis t p | startActivate t p =>
      simp only [Pids.tables] at hs₁
      split_ifs at hs₁
      obtain rfl := Option.some.inj hs₁
      exact h
    | waitTree t =>
      obtain ⟨z, hlast, hz, -⟩ := hinv.tree.changes htree
      simp only [Pids.tables, hlast, if_pos hz] at hs₁
      obtain rfl := reapPid_eq
        (hinv.tables.lookup_of_live (live_of_life hz ⟨by simp, by simp⟩)) hs₁
      exact ⟨h.pid, h.hashpid, h.localpid, h.loading⟩
    | setParentToThis | startParent | exitTree | exitSched | waitCheck | waitSem | waitResume =>
      obtain rfl := Option.some.inj hs₁
      exact h

theorem InRange.init (root : P) (rootC : C) : (init root rootC).InRange := by
  have hzero : ∀ _ : P, ∃ i < 256, (0 : ℤ) = (i : ℕ) := fun _ => ⟨0, by decide, rfl⟩
  exact ⟨hzero, hzero, hzero, by rintro _ _ ⟨⟩⟩

omit [DecidableEq C] in
/-- A pid is left where fewer than `MAX_CONTAINER_PID` processes are live. -/
theorem GlobalInv.not_full {l : List P} (h : GlobalInv root rootC s) (hl : ∀ p, s.Live p → p ∈ l)
    (hlen : l.length < 256) : ¬s.globalpidmap.Full := by
  intro hfull
  have hholder : ∀ i : ℕ, i < 256 → ∃ q, q ∈ l ∧ s.pid q = i := by
    intro i hi
    obtain ⟨q, hq, hqi⟩ := (h.tables.bit i hi).1 (hfull i hi)
    exact ⟨q, hl q hq, hqi⟩
  -- every pid is that of a member of the list
  have hsub : List.range 256 ⊆ l.map fun p => (s.pid p).toNat := by
    intro i hi
    obtain ⟨q, hq, hqi⟩ := hholder i (List.mem_range.1 hi)
    exact List.mem_map.2 ⟨q, hq, by rw [hqi, Int.toNat_natCast]⟩
  have hle := (List.nodup_range.subperm hsub).length_le
  rw [List.length_range, List.length_map] at hle
  omega

/-- **Pids and buckets are in range.** In every run in which each creation
and each start finds a clear bit in its bitmap: the pids, the local pids and
the pids in the hash table are in `[0, MAX_CONTAINER_PID)`; only the buckets
in `[0, HASHSIZE)` are used, and each process is hashed to one of them; and
the tables agree with the live processes, so that a creation has a pid as
long as fewer than `MAX_CONTAINER_PID` processes are live. -/
theorem pids_in_range {tr : List (Pids P C × PidAct P C)}
    (hrun : Run (stepAny root rootC) (init root rootC) tr s)
    (hleft : ∀ x ∈ tr, PidLeft x.1 x.2) :
    (∀ p, (0 ≤ s.pid p ∧ s.pid p < maxContainerPid) ∧
      (0 ≤ s.localpid p ∧ s.localpid p < maxContainerPid) ∧
      (0 ≤ s.hashpid p ∧ s.hashpid p < maxContainerPid) ∧
      (0 ≤ hash (s.pid p) ∧ hash (s.pid p) < 128) ∧
      (0 ≤ hash (s.hashpid p) ∧ hash (s.hashpid p) < 128)) ∧
    (∀ b, s.bullet b ≠ [] → 0 ≤ b ∧ b < 128) ∧
    (∀ b p, p ∈ s.bullet b ↔ s.Live p ∧ hash (s.pid p) = b) ∧
    ∀ l : List P, (∀ p, s.Live p → p ∈ l) → l.length < maxContainerPid →
      ¬s.globalpidmap.Full := by
  have hall : Run (step root rootC) (init root rootC) tr s ∧ s.InRange := by
    refine hrun.traceInvariantOf (K := PidLeft)
      (I := fun tr s => Run (step root rootC) (init root rootC) tr s ∧ s.InRange) hleft
      ⟨Run.nil, InRange.init root rootC⟩ ?_
    rintro tr s a t ⟨hbefore, hrange⟩ hpid hs
    have hinv := globalInv_of_run hbefore
    have hs' := step_of_stepAny hinv.tables.ok hpid hs
    exact ⟨hbefore.snoc hs',
      hrange.step hinv (mapsOk_of_run (stepAny_of_run hbefore)) hpid hs'⟩
  obtain ⟨hrun', hrange⟩ := hall
  have hinv := globalInv_of_run hrun'
  have hbounds : ∀ {n : ℤ}, (∃ i < 256, n = (i : ℕ)) →
      (0 ≤ n ∧ n < maxContainerPid) ∧ 0 ≤ hash n ∧ hash n < 128 := by
    rintro n ⟨i, hi, rfl⟩
    have hlt : ((i : ℕ) : ℤ) < 256 := by omega
    rw [hash_natCast]
    exact ⟨⟨by omega, hlt⟩, by omega, by omega⟩
  have hmem := hinv.tables.holds.mem_iff
  refine ⟨fun p => ?_, fun b hb => ?_, fun b p => ?_, fun l hl hlen => hinv.not_full hl hlen⟩
  · obtain ⟨h₁, h₂⟩ := hbounds (hrange.pid p)
    obtain ⟨h₃, h₄⟩ := hbounds (hrange.hashpid p)
    exact ⟨h₁, (hbounds (hrange.localpid p)).1, h₃, h₂, h₄⟩
  · obtain ⟨p, hp⟩ := List.exists_mem_of_ne_nil _ hb
    obtain rfl := ((hmem b p).1 hp).2
    exact (hbounds (hrange.hashpid p)).2
  · rw [hmem]
    refine and_congr_right fun hp => ?_
    rw [hinv.tables.key p hp]

/-- Process 1 is started, exits and is reaped, and process 2 is started. -/
theorem pids_in_range_two : ∃ tr s, Run (stepAny 0 ()) (init 0 () : Pids ℕ Unit) tr s ∧
    s.Live 2 ∧ s.pid 2 = 2 ∧ 2 ∈ s.bullet 2 ∧ 0 ≤ hash (s.pid 2) ∧ hash (s.pid 2) < 128 := by
  have hend : (exec (stepAny 0 ()) (init 0 () : Pids ℕ Unit)
      (spawn 0 1 ++ exitAndReap 1 ++ [.freeLocal 0] ++ spawn 0 2)).any (fun s =>
        decide (s.Live 2 ∧ s.pid 2 = 2)) = true := by decide +kernel
  have htr : (execTrace (stepAny 0 ()) (init 0 () : Pids ℕ Unit)
      (spawn 0 1 ++ exitAndReap 1 ++ [.freeLocal 0] ++ spawn 0 2)).all (fun x =>
        decide (x.1.globalpidmap.bitmap.get 255 = false ∧
          (x.1.pidmap ()).bitmap.get 255 = false)) = true := by decide +kernel
  obtain ⟨s, hs, hend⟩ := (Option.any_eq_true _ _).1 hend
  obtain ⟨hlive, hpid⟩ := of_decide_eq_true hend
  have hleft : ∀ x ∈ execTrace (stepAny 0 ()) (init 0 () : Pids ℕ Unit)
      (spawn 0 1 ++ exitAndReap 1 ++ [.freeLocal 0] ++ spawn 0 2), PidLeft x.1 x.2 := by
    intro x hx
    obtain ⟨hglobal, hlocal⟩ := of_decide_eq_true (List.all_eq_true.1 htr x hx)
    exact pidLeft_of_clear hglobal fun _ => hlocal
  obtain ⟨hrange, -, hmem, -⟩ := pids_in_range (Run.of_exec hs) hleft
  refine ⟨_, s, Run.of_exec hs, hlive, hpid, (hmem 2 2).2 ⟨hlive, ?_⟩, (hrange 2).2.2.2.1⟩
  rw [hpid]
  rfl

/-! ## With no pid left -/

/-- All bits are set when the root process has started 255 others. -/
theorem full_filled : (filled 255).globalpidmap.Full := by
  intro i hi
  change (bits 255).get i = true
  rw [get_bits]
  exact decide_eq_true (by omega)

/-- The creation that follows a failed `alloc_pid`. -/
theorem stepAny_createProc_filled {n : ℕ}
    (halloc : (filled n).globalpidmap.allocPid = (-1, (filled n).globalpidmap)) :
    ∃ s', (filled n).stepAny 0 () (.tree (.createProc 0 (n + 1))) = some s' ∧
      s'.tree.life (n + 1) = .unused ∧ s'.pid (n + 1) = -1 ∧ s'.bullet (-1) = [n + 1] := by
  refine ⟨((filled n).initPidAny (n + 1)).setTree ((filled n).tree.initProc () (n + 1)), ?_,
    update_self _ _ _, ?_, ?_⟩
  · simp [stepAny, mayRun, tablesAny, Tree.step, Tree.running, filled]
  · simp only [setTree, initPidAny, halloc, update_self]
  · -- no process has a pid below zero, so the bucket was empty
    have hbucket : (filled n).bullet (-1) = [] := by
      refine List.filter_eq_nil_iff.2 fun p _ => ?_
      rw [hash_natCast, decide_eq_true_iff]
      omega
    have hhash : hash (-1) = -1 := by decide
    simp only [setTree, initPidAny, halloc, hhash, HashMap.insert, hbucket, update_self,
      List.nil_append]

/-- **The process after the last pid is created all the same.** With 256
live processes, `create_proc` leaves the bitmap as it is and gives the new
process the pid `-1`, which is hashed to the bucket `-1`. -/
theorem pid_minus_one_hashed : ∃ tr s s',
    Run (stepAny 0 ()) (init 0 () : Pids ℕ Unit) tr s ∧ s.globalpidmap.Full ∧
    s.stepAny 0 () (.tree (.createProc 0 256)) = some s' ∧ s'.tree.life 256 = .unused ∧
    s'.pid 256 = -1 ∧ hash (s'.pid 256) = -1 ∧ s'.bullet (-1) = [256] := by
  obtain ⟨tr, hrun⟩ := run_filled le_rfl
  have hok : (filled 255).globalpidmap.Ok := (globalInv_of_run hrun).tables.ok
  have halloc : (filled 255).globalpidmap.allocPid = (-1, (filled 255).globalpidmap) := by
    rcases (filled 255).globalpidmap.allocPid_cases hok with ⟨-, heq⟩ | ⟨i, hi, hfirst, -⟩
    · exact heq
    · exact absurd full_filled (hfirst.not_full hi)
  obtain ⟨s', hstep, hlife, hpid, hbullet⟩ := stepAny_createProc_filled halloc
  exact ⟨tr, filled 255, s', stepAny_of_run hrun, full_filled, hstep, hlife, hpid,
    by rw [hpid]; decide, hbullet⟩

end Pids

end OsKernel.Proc
