import OsKernel.Proc.PidExhaustion

/-!
# kill

`kill` of `kernel/proc.c` with `alert_proc` of `kernel/sched.c`: the
process is looked up in the hash table of the pids under `tree_lock`,
marked, and woken if it sleeps.

A process that is created and not started is in the hash table as well.
For its pid the call returns with `tree_lock` held. A process that has got
no pid has the pid `-1`, and is not looked up. A zombie is in the table
until its parent waits for it, and is killed like a process that runs.

The tables are those of `Proc.Model.Pids`, in any state that the calls on
them reach, with pids left or not. Of `_activate_proc` the state of the process is modelled, and
not the run queue.
-/

namespace OsKernel.Proc

open Function

/-! ## Model -/

/-- `enum procstate`. -/
inductive ProcState where
  | unused
  | runnable
  | running
  | sleeping
  | deepsleeping
  | zombie
deriving DecidableEq

/-- What `kill` reads and writes beside the tables of the pids. -/
structure Killing (P : Type) where
  /-- Is `tree_lock` held? -/
  treeLock : Bool
  killed : P → Bool
  state : P → ProcState

variable {P C : Type} [DecidableEq P] [DecidableEq C]

/-- `_activate_proc`. -/
def Killing.activateProc (k : Killing P) (p : P) (onalert : Bool) : Bool × Killing P :=
  match k.state p with
  | .running | .runnable | .zombie => (false, k)
  | .deepsleeping =>
    if onalert then (false, k) else (true, { k with state := update k.state p .runnable })
  | .sleeping | .unused => (true, { k with state := update k.state p .runnable })

/-- `kill`; `none` where it waits for `tree_lock`. -/
def kill (s : Pids P C) (k : Killing P) (pid : ℤ) : Option (ℤ × Killing P) :=
  if pid < 0 then some (-1, k)
  else if k.treeLock then none
  else
    match HashMap.lookup s.bullet (hash pid) s.hashpid pid with
    | some p =>
      -- the lock is not released here
      if k.state p = .unused then some (-1, { k with treeLock := true })
      else some (0, (Killing.activateProc { k with killed := update k.killed p true } p true).2)
    | none => some (-1, k)

/-! ## The processes that have got a pid -/

namespace Pids

variable {s s' : Pids P C} {root p : P} {rootC : C} {a : PidAct P C}

/-- A live process that has got a pid. -/
def HasPid (s : Pids P C) (p : P) : Prop := s.Live p ∧ 0 ≤ s.pid p

/-- The buckets, without the word in front of the table. -/
def table (bullet : ℤ → List P) (b : ℤ) : List P := if b < 0 then [] else bullet b

/-- **The table has the processes that have got a pid.** -/
structure Known (root : P) (rootC : C) (s : Pids P C) : Prop where
  tree : s.tree.Inv root rootC
  tables : GlobalOk s.HasPid s.pid s.hashpid s.globalpidmap (table s.bullet)

omit [DecidableEq P] in
theorem table_update (bullet : ℤ → List P) (i : ℕ) (l : List P) :
    table (update bullet (hash i) l) = update (table bullet) (hash i) l := by
  have hnn : ¬hash (i : ℤ) < 0 := by
    rw [hash_natCast]
    omega
  funext b
  by_cases hb : b = hash i
  · subst hb
    rw [table, if_neg hnn, update_self, update_self]
  · rw [table, update_of_ne hb, update_of_ne hb, table]

omit [DecidableEq P] in
theorem table_natCast (bullet : ℤ → List P) (i : ℕ) : table bullet (hash i) = bullet (hash i) := by
  rw [table, hash_natCast, if_neg (by omega)]

section

variable (h : Known root rootC s)

include h

omit [DecidableEq C]

/-- A process that has got a pid is found by it. -/
theorem Known.lookup (hp : s.HasPid p) :
    HashMap.lookup s.bullet (hash (s.pid p)) s.hashpid (s.pid p) = some p := by
  obtain ⟨i, -, hi⟩ := h.tables.range p hp
  have hfind := h.tables.lookup_of_live hp
  rw [hi] at hfind ⊢
  rwa [HashMap.lookup, table_natCast] at hfind

/-- `init_proc`, with a pid left or not. -/
theorem Known.initPidAny {tree : Tree P C} (htree : tree.Inv root rootC)
    (hp : s.tree.life p = .absent) (hlife : tree.life = update s.tree.life p .unused) :
    Known root rootC ((s.initPidAny p).setTree tree) := by
  have hlive : ∀ q, ((s.initPidAny p).setTree tree).Live q ↔ s.Live q ∨ q = p := live_create hlife
  have hnot : ∀ {q}, s.Live q → q ≠ p := by
    rintro q hq rfl
    exact hq.1 hp
  refine ⟨htree, ?_⟩
  rcases s.globalpidmap.allocPid_cases h.tables.ok with ⟨-, heq⟩ | ⟨i, hi, hfirst, heq⟩
  · -- the new process has the pid `-1`, and is put in front of the table
    have hhas : ∀ q, ((s.initPidAny p).setTree tree).HasPid q ↔ s.HasPid q := by
      intro q
      change _ ∧ 0 ≤ update s.pid p s.globalpidmap.allocPid.1 q ↔ _
      rw [hlive, heq, HasPid]
      by_cases hq : q = p
      · subst hq
        rw [update_self]
        exact iff_of_false (by omega) fun hhas => hnot hhas.1 rfl
      · rw [update_of_ne hq, or_iff_left hq]
    have htable : table ((s.initPidAny p).setTree tree).bullet = table s.bullet := by
      funext b
      simp only [table, setTree, Pids.initPidAny, heq, HashMap.insert]
      split_ifs with hb
      · rfl
      · rw [update_of_ne]
        rintro rfl
        exact hb (by decide)
    rw [htable]
    simp only [setTree, Pids.initPidAny, heq] at hhas ⊢
    exact h.tables.congr_pid hhas (fun q hq => update_of_ne (hnot hq.1) _ _)
      fun q hq => update_of_ne (hnot hq.1) _ _
  · have hcreate := h.tables.create (fun hhas => hnot hhas.1 rfl) hi hfirst.1
    have hhas : ∀ q, ((s.initPidAny p).setTree tree).HasPid q ↔ s.HasPid q ∨ q = p := by
      intro q
      change _ ∧ 0 ≤ update s.pid p s.globalpidmap.allocPid.1 q ↔ _
      rw [hlive, heq, HasPid]
      by_cases hq : q = p
      · subst hq
        simp
      · simp [hq]
    rw [HashMap.insert, table_natCast, ← table_update] at hcreate
    simp only [setTree, Pids.initPidAny, heq, HashMap.insert] at hhas ⊢
    exact hcreate.congr hhas

end

/-- **Every step keeps the table.** -/
theorem Known.step (h : Known root rootC s) (hs : s.stepAny root rootC a = some s') :
    Known root rootC s' := by
  cases a with
  | loadPid t p =>
    obtain ⟨-, rfl⟩ := of_guard hs
    exact ⟨h.tree, h.tables⟩
  | startPid t p | freeLocal t =>
    obtain ⟨l, -, hs⟩ := Option.bind_eq_some_iff.1 hs
    obtain ⟨-, rfl⟩ := of_guard hs
    exact ⟨h.tree, h.tables⟩
  | tree a =>
    obtain ⟨-, hs⟩ := of_guarded hs
    obtain ⟨tree, htree, hs⟩ := Option.bind_eq_some_iff.1 hs
    obtain ⟨s₁, hs₁, rfl⟩ := Option.map_eq_some_iff.1 hs
    have hinv := (h.tree.step htree).1
    have hch := h.tree.changes htree
    -- who lives goes on living, with the same tables
    have hsame : (∀ q, (s.setTree tree).Live q ↔ s.Live q) → s₁ = s →
        Known root rootC (s₁.setTree tree) := by
      rintro hlive rfl
      exact ⟨hinv, h.tables.congr fun q => and_congr_left' (hlive q)⟩
    have hlife : tree.life = s.tree.life → ∀ q, (s.setTree tree).Live q ↔ s.Live q := by
      intro heq q
      simp only [Live, setTree, heq]
    cases a with
    | createProc t p =>
      obtain rfl := Option.some.inj hs₁
      exact h.initPidAny hinv hch.1 hch.2.1
    | createContainer t c p =>
      obtain rfl := Option.some.inj hs₁
      exact Known.initPidAny (s := s.initContainer c) ⟨h.tree, h.tables⟩ hinv hch.1 hch.2.2.1
    | setContainerToThis t p =>
      exact hsame (hlife hch.2.2.1) (of_guard_not hs₁).2.symm
    | startActivate t p =>
      exact hsame (live_go hch.2.1 (live_of_life hch.1 ⟨by simp, by simp⟩) ⟨by simp, by simp⟩)
        (of_guard hs₁).2.symm
    | exitSched t =>
      exact hsame (live_go hch.2.1 (live_of_life hch.1 ⟨by simp, by simp⟩) ⟨by simp, by simp⟩)
        (Option.some.inj hs₁).symm
    | waitTree t =>
      obtain ⟨z, hlast, hz, hreap, -⟩ := hch
      simp only [Pids.tablesAny, Pids.tables, hlast, if_pos hz] at hs₁
      obtain ⟨node, -, hguard⟩ := Option.bind_eq_some_iff.1 hs₁
      have hpid : 0 ≤ s.pid z := not_lt.1 fun hneg => (of_guard_not hguard).1 (.inl hneg)
      have hhas : s.HasPid z := ⟨live_of_life hz ⟨by simp, by simp⟩, hpid⟩
      obtain rfl := reapPid_eq (h.lookup hhas) hs₁
      have htable : table (HashMap.erase s.bullet (hash (s.hashpid z)) z) =
          HashMap.erase (table s.bullet) (hash (s.hashpid z)) z := by
        obtain ⟨i, -, hi⟩ := h.tables.range z hhas
        rw [HashMap.erase, HashMap.erase, h.tables.key z hhas, hi, table_update, table_natCast]
      have htables := h.tables.reap hhas
      rw [← htable] at htables
      refine ⟨hinv, htables.congr fun q => ?_⟩
      exact (and_congr_left' (live_reap hreap q)).trans and_right_comm
    | setParentToThis | startParent | exitTree | waitCheck | waitSem | waitResume =>
      exact hsame (hlife hch.life) (Option.some.inj hs₁).symm

/-- **The table has the processes that have got a pid, in every run.** -/
theorem known_of_run {tr : List (Pids P C × PidAct P C)}
    (hrun : Run (stepAny root rootC) (init root rootC) tr s) : Known root rootC s := by
  refine hrun.invariant ⟨Tree.inv_init root rootC, ?_⟩ fun _ _ _ h hs => h.step hs
  have h := GlobalInv.init root rootC
  have htable : table (init root rootC).bullet = (init root rootC).bullet := by
    funext b
    rw [table]
    split_ifs with hb
    · exact (if_neg hb.ne).symm
    · rfl
  rw [htable]
  exact h.tables.congr fun q => and_iff_left (le_refl (0 : ℤ))

end Pids

/-! ## Processes that have started -/

variable {s : Pids P C} {k : Killing P} {p : P} {pid : ℤ}

section

omit [DecidableEq C]

/-- An alert wakes a process that sleeps and no other one. -/
theorem activateProc_alert (h : k.state p ≠ .unused) :
    (k.activateProc p true).2 =
      { k with state := update k.state p (if k.state p = .sleeping then .runnable else k.state p) } := by
  have hsame : { k with state := update k.state p (k.state p) } = k := by rw [update_eq_self]
  unfold Killing.activateProc
  cases hst : k.state p with
  | unused => exact absurd hst h
  | sleeping => simp
  | runnable | running | deepsleeping | zombie =>
    rw [hst] at hsame
    simp [hsame]

/-- A live process that has started, by its pid. -/
def Started (s : Pids P C) (k : Killing P) (pid : ℤ) (p : P) : Prop :=
  s.Live p ∧ s.pid p = pid ∧ k.state p ≠ .unused

/-- The call for a process in the table. -/
theorem kill_of_lookup (hlock : k.treeLock = false) (hpid : 0 ≤ pid)
    (hp : HashMap.lookup s.bullet (hash pid) s.hashpid pid = some p) :
    kill s k pid = if k.state p = .unused then some (-1, { k with treeLock := true }) else
      some (0, { k with
        killed := update k.killed p true
        state := update k.state p (if k.state p = .sleeping then .runnable else k.state p) }) := by
  rw [kill, if_neg (not_lt.2 hpid), if_neg (by simp [hlock]), hp]
  by_cases hst : k.state p = .unused
  · rw [if_pos hst]
    exact if_pos hst
  · rw [if_neg hst, ← activateProc_alert (k := { k with killed := update k.killed p true }) hst]
    exact if_neg hst

end

/-- **kill is exact**, in a state that the processes reach, just when the live
processes that have the pid have started, or have no pid and have not: it
returns 0 if and only if a live process that has started has the pid, that
process is marked and woken if it sleeps, nothing else changes, and
`tree_lock` is free. -/
theorem kill_exact {root : P} {rootC : C} {tr : List (Pids P C × PidAct P C)}
    (hrun : Run (Pids.stepAny root rootC) (Pids.init root rootC) tr s)
    (hlock : k.treeLock = false) :
    (∃ ret k', kill s k pid = some (ret, k') ∧ k'.treeLock = false ∧
      (ret = 0 ↔ ∃ p, Started s k pid p) ∧
      (∀ p, Started s k pid p → k'.killed = update k.killed p true ∧
        k'.state = update k.state p (if k.state p = .sleeping then .runnable else k.state p)) ∧
      (ret ≠ 0 → ret = -1 ∧ k' = k)) ↔
    ∀ p, s.Live p → s.pid p = pid → (k.state p = .unused ↔ pid < 0) := by
  have h := Pids.known_of_run hrun
  rcases lt_or_ge pid 0 with hneg | hpid
  · -- no lookup
    have hkill : kill s k pid = some (-1, k) := if_pos hneg
    constructor
    · rintro ⟨ret, k', hret, -, hiff, -, -⟩ p hp hpp
      obtain ⟨rfl, rfl⟩ : -1 = ret ∧ k = k' := by simpa [hkill] using hret
      refine iff_of_true (by_contra fun hst => ?_) hneg
      exact absurd (hiff.2 ⟨p, hp, hpp, hst⟩) (by decide)
    · intro hall
      have hnone : ∀ p, ¬Started s k pid p := fun p hp => hp.2.2 ((hall p hp.1 hp.2.1).2 hneg)
      exact ⟨-1, k, hkill, hlock, iff_of_false (by decide) (by simpa using hnone),
        fun p hp => absurd hp (hnone p), fun _ => ⟨rfl, rfl⟩⟩
  · by_cases hex : ∃ p, s.Live p ∧ s.pid p = pid
    · obtain ⟨p, hp, rfl⟩ := hex
      have hkill := kill_of_lookup hlock hpid (h.lookup ⟨hp, hpid⟩)
      have honly : ∀ q, s.Live q → s.pid q = s.pid p → q = p := fun q hq hqp =>
        h.tables.inj q p ⟨hq, hqp ▸ hpid⟩ ⟨hp, hpid⟩ hqp
      constructor
      · rintro ⟨ret, k', hret, hfree, -⟩ q hq hqp
        obtain rfl := honly q hq hqp
        refine iff_of_false (fun hst => ?_) (not_lt.2 hpid)
        rw [hkill, if_pos hst] at hret
        obtain ⟨-, rfl⟩ := by simpa using hret
        cases hfree
      · intro hall
        have hst : k.state p ≠ .unused := fun hst => not_lt.2 hpid ((hall p hp rfl).1 hst)
        refine ⟨0, _, hkill.trans (if_neg hst), hlock, iff_of_true rfl ⟨p, hp, rfl, hst⟩,
          fun q hq => ?_, fun hne => absurd rfl hne⟩
        obtain rfl := honly q hq.1 hq.2.1
        exact ⟨rfl, rfl⟩
    · have hnone : ∀ p, s.Live p → s.pid p ≠ pid := fun p hp he => hex ⟨p, hp, he⟩
      have hlookup : HashMap.lookup s.bullet (hash pid) s.hashpid pid = none := by
        obtain ⟨i, rfl⟩ := Int.eq_ofNat_of_zero_le hpid
        have hfind := h.tables.lookup_eq_none fun p hp => hnone p hp.1
        rwa [HashMap.lookup, Pids.table_natCast] at hfind
      have hkill : kill s k pid = some (-1, k) := by
        rw [kill, hlookup, hlock]
        simp
      refine iff_of_true ⟨-1, k, hkill, hlock, iff_of_false (by decide) ?_,
        fun p hp => absurd hp.2.1 (hnone p hp.1), fun _ => ⟨rfl, rfl⟩⟩
        fun p hp hpp => absurd hpp (hnone p hp)
      rintro ⟨p, hp, hpp, -⟩
      exact hnone p hp hpp

/-- Process 1 sleeps, and process 2 has exited. -/
def someStates : Killing ℕ := ⟨false, fun _ => false, fun p =>
  if p = 0 then .running else if p = 1 then .sleeping else if p = 2 then .zombie else .unused⟩

/-- Process 1 is killed and woken, and process 2 can be killed until it is
waited for. -/
theorem kill_exact_two : ∃ tr s k', Run (Pids.stepAny 0 ()) (Pids.init 0 ()) tr s ∧
    kill s someStates (s.pid 1) = some (0, k') ∧ k'.state 1 = .runnable ∧
    k'.killed = update (fun _ => false) 1 true ∧
    ∃ k'', kill s someStates (s.pid 2) = some (0, k'') ∧ k''.state = someStates.state := by
  have hend : (exec (Pids.stepAny 0 ()) (Pids.init 0 ()) (Pids.spawn 0 1 ++ Pids.spawn 0 2 ++
      [.tree (.exitTree 2 0), .tree (.exitSched 2)])).any (fun s =>
        decide (s.Live 1 ∧ s.Live 2 ∧ 0 ≤ s.pid 1 ∧ 0 ≤ s.pid 2)) = true := by decide +kernel
  obtain ⟨s, hs, hend⟩ := (Option.any_eq_true _ _).1 hend
  obtain ⟨hone, htwo, hpid₁, hpid₂⟩ := of_decide_eq_true hend
  have hrun := Run.of_exec hs
  have hinj := (Pids.known_of_run hrun).tables.inj
  have hkill : ∀ p, s.Live p → 0 ≤ s.pid p → someStates.state p ≠ .unused → ∃ k',
      kill s someStates (s.pid p) = some (0, k') ∧ k'.killed = update (fun _ => false) p true ∧
      k'.state = update someStates.state p
        (if someStates.state p = .sleeping then .runnable else someStates.state p) := by
    intro p hp hpid hst
    obtain ⟨ret, k', hret, -, hiff, heff, -⟩ := (kill_exact hrun rfl).2
      fun q hq (hqp : s.pid q = s.pid p) => by
        obtain rfl := hinj q p ⟨hq, hqp ▸ hpid⟩ ⟨hp, hpid⟩ hqp
        exact iff_of_false hst (not_lt.2 hpid)
    obtain rfl := hiff.2 ⟨p, hp, rfl, hst⟩
    exact ⟨k', hret, heff p ⟨hp, rfl, hst⟩⟩
  obtain ⟨k', hret, hkilled, hstate⟩ := hkill 1 hone hpid₁ (by decide)
  obtain ⟨k'', hret', -, hstate'⟩ := hkill 2 htwo hpid₂ (by decide)
  exact ⟨_, s, k', hrun, hret, by rw [hstate]; rfl, hkilled, k'', hret',
    by rw [hstate']; exact update_eq_self _ _⟩

/-- The first process runs, and all others are as they are created. -/
def bootStates : Killing ℕ := ⟨false, fun _ => false, fun p => if p = 0 then .sleeping else .unused⟩

/-- A process that is created and not started: the call fails and keeps
`tree_lock`. -/
theorem kill_unused_keeps_lock :
    ((exec (Pids.step 0 0) (Pids.init 0 0) [.tree (.createProc 0 1)]).bind fun s =>
      (kill s bootStates (s.pid 1)).map fun r => (s.tree.life 1, r.1, r.2.treeLock)) =
        some (.unused, -1, true) := by
  decide +kernel

end OsKernel.Proc
