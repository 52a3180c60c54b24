import OsKernel.Cache.Helpers.Contents
import OsKernel.Common.GroupStore

/-!
# The block cache — crash atomicity

The log refines the store with group commit of `Common/GroupStore.lean`.
Every run of the system, with crashes anywhere and any number of
recoveries that are themselves cut, is matched event by event by a run of
the abstract store, and whatever the disk holds at its end, running
`init_bcache` to completion brings back the stable contents. The write of
the log header in `cache_end_op` is the moment of a group commit.
-/

namespace OsKernel.Cache

variable {sb : SuperBlock} {s t : Sys} {a : Act}

/-- The contents of blocks, with operations named by their context. -/
abbrev Contents : Type := GroupStore ℕ BlockData ℕ

/-- The event of the abstract store that a step of the system is, if it
is one. -/
def observe (x : Sys × Act) : List (GroupStore.Ev ℕ BlockData ℕ) :=
  match x.2 with
  | .beginOp c => if x.1.HasRoom then [.begin c] else []
  | .sync c n => [.write c n (x.1.store.value n)]
  | .endOp c => [.finish c]
  | .commit c => if commitPoint x.1 (.commit c) then [.commit] else []
  | .crash => [.crash]
  | _ => []

/-- The abstract store runs the operations that have begun and not
ended. -/
def Matches (s : Sys) (m : Contents) : Prop :=
  ∀ c, c ∈ m.running ↔ ∃ rm, (s.phase c).role = .running rm

/-- **The simulation relation.** In a running system the contents are
those of the abstract store; while `init_bcache` runs, the disk recovers
to its stable contents. -/
def Refines (sb : SuperBlock) (s : Sys) (m : Contents) : Prop :=
  match s.boot with
  | none => (∃ S, Ctl sb s S) ∧ DataAt sb s m.current m.stable ∧ Matches s m
  | some i => m = GroupStore.rest m.stable ∧ s.log = initLog sb ∧ (∀ c, s.phase c = .idle) ∧
      (s.unsynced = fun _ => false) ∧
      ∃ d, LogOk sb d ∧ s.header = readHeader sb d ∧ i ≤ s.header.numBlocks ∧
        BootOk sb d i s.store ∧ ∀ n, ¬ sb.InLog n → recovered sb d n = m.stable n

/-- A system that starts on a disk refines the contents it recovers to. -/
theorem refines_bootSys {d : Disk} {m : ℕ → BlockData} (hd : LogOk sb d)
    (hm : ∀ n, ¬ sb.InLog n → recovered sb d n = m n) :
    Refines sb (bootSys sb d) (GroupStore.rest m) :=
  ⟨rfl, rfl, fun _ => rfl, rfl, d, hd, rfl, Nat.zero_le _, BootOk.init, hm⟩

/-- **Whatever the disk holds, it recovers to the stable contents.** -/
theorem Refines.recovered {m : Contents} (hlog : 0 < sb.numLogBlocks) (h : Refines sb s m) :
    LogOk sb s.store.disk ∧ ∀ n, ¬ sb.InLog n → recovered sb s.store.disk n = m.stable n := by
  unfold Refines at h
  cases hboot : s.boot with
  | none =>
    simp only [hboot] at h
    obtain ⟨⟨S, hctl⟩, ⟨g, -, hdata⟩, -⟩ := h
    exact hdata.recovered_eq (hctl.fits hlog)
  | some i =>
    simp only [hboot] at h
    obtain ⟨-, -, -, -, d, hd, -, -, hok, hm⟩ := h
    exact ⟨hok.logOk hd, fun n hn => (hok.recovered hd n).trans (hm n hn)⟩

/-- A step that starts and ends no operation. -/
theorem Matches.congr {m m' : Contents} (h : Matches s m) (hm : m'.running = m.running)
    (hrole : ∀ c, (t.phase c).role = (s.phase c).role) : Matches t m' := by
  intro c
  rw [hm, hrole]
  exact h c

/-- One thread moves from a phase that does not run to another. -/
theorem Matches.move {m : Contents} {c : ℕ} {p : Phase} (h : Matches s m)
    (hp : ∀ rm, (s.phase c).role ≠ .running rm) (hq : ∀ rm, p.role ≠ .running rm) :
    Matches (s.setPhase c p) m := by
  intro c'
  by_cases hc : c' = c
  · subst hc
    simp [h c', hp, hq]
  · rw [setPhase_of_ne hc]
    exact h c'

/-- **Each step of the running system is its event of the abstract
store**, as far as the running operations and the written contents go. -/
theorem abstract_step {S : Finset ℕ} {m : Contents} (hctl : Ctl sb s S) (h : Matches s m)
    (hstep : upStep sb s a = some t) :
    ∃ evs m', Run GroupStore.step m evs m' ∧ evs.flatMap (fun x => [x.2]) = observe (s, a) ∧
      m'.current = afterStep s a m.current ∧ m'.stable = stableAfter s a m.current m.stable ∧
      Matches t m' := by
  -- most steps are no event
  have stay : observe (s, a) = [] → afterStep s a m.current = m.current →
      commitPoint s a = false → Matches t m →
      ∃ evs m', Run GroupStore.step m evs m' ∧ evs.flatMap (fun x => [x.2]) = observe (s, a) ∧
        m'.current = afterStep s a m.current ∧ m'.stable = stableAfter s a m.current m.stable ∧
        Matches t m' := fun hobs hafter hpoint hm =>
    ⟨[], m, Run.nil, hobs.symm, hafter.symm, (stableAfter_of_not hpoint).symm, hm⟩
  cases a with
  | acquire n =>
    obtain ⟨-, st, -, rfl⟩ := acquire_cases hstep
    exact stay rfl rfl rfl h
  | modify n d =>
    obtain ⟨b, -, -, rfl⟩ := modify_cases hstep
    exact stay rfl rfl rfl h
  | release n =>
    obtain ⟨b, -, -, rfl⟩ := release_cases hstep
    exact stay rfl rfl rfl h
  | beginOp c =>
    obtain ⟨-, hp, ⟨hroom, -, rfl⟩ | ⟨hroom, rfl⟩⟩ := beginOp_cases hstep
    all_goals
      have hrole : (s.phase c).role = .quiet := by rcases hp with hp | ⟨hp, -⟩ <;> rw [hp] <;> rfl
    · refine stay (by simp [observe, hroom]) rfl rfl ?_
      exact Matches.move (s := { s with log := _ }) h (by simp [hrole]) (by simp [Phase.role])
    · have hc : c ∉ m.running := by simp [h c, hrole]
      refine ⟨_, { m with running := insert c m.running },
        Run.single (a := .begin c) (by simp [GroupStore.step, hc]), by simp [observe, hroom], rfl,
        (stableAfter_of_not rfl).symm, fun c' => ?_⟩
      by_cases hcc : c' = c
      · subst hcc
        simp [Phase.role]
      · rw [setPhase_of_ne hcc, Finset.mem_insert]
        simpa [hcc] using h c'
  | waitBegin c =>
    obtain ⟨hp, rfl⟩ := waitBegin_cases hstep
    exact stay rfl rfl rfl (h.congr rfl (role_setPhase (by rw [hp]; rfl)))
  | sync c n =>
    obtain ⟨rm, b, hp, -, -, -, hcase⟩ := sync_cases hstep
    have hc : c ∈ m.running := (h c).2 ⟨rm, by rw [hp]; rfl⟩
    refine ⟨_, { m with current := Function.update m.current n (s.store.value n) },
      Run.single (a := .write c n (s.store.value n)) (by simp [GroupStore.step, hc]), rfl, rfl,
      (stableAfter_of_not rfl).symm, fun c' => ?_⟩
    rcases hcase with ⟨-, -, rfl⟩ | ⟨-, rfl⟩
    · by_cases hcc : c' = c
      · subst hcc
        simpa [Phase.role] using hc
      · rw [setPhase_of_ne hcc]
        exact h c'
    · exact h c'
  | syncNull n =>
    obtain ⟨b, -, -, rfl⟩ := syncNull_cases hstep
    exact stay rfl rfl rfl h
  | endOp c =>
    obtain ⟨rm, hp, -, hcase⟩ := endOp_cases hstep
    have hc : c ∈ m.running := (h c).2 ⟨rm, by rw [hp]; rfl⟩
    refine ⟨_, { m with running := m.running.erase c },
      Run.single (a := .finish c) (by simp [GroupStore.step, hc]), rfl, rfl,
      (stableAfter_of_not rfl).symm, fun c' => ?_⟩
    rw [Finset.mem_erase]
    rcases hcase with ⟨-, rfl⟩ | ⟨-, -, r, -, rfl⟩
    all_goals
      by_cases hcc : c' = c
      · subst hcc
        simp [Phase.role]
      · rw [setPhase_of_ne hcc]
        simpa [hcc] using h c'
  | waitEnd c =>
    obtain ⟨hp, rfl⟩ := waitEnd_cases hstep
    exact stay rfl rfl rfl (h.congr rfl (role_setPhase (by rw [hp]; rfl)))
  | returnEnd c =>
    obtain ⟨hp, -, -, rfl⟩ := returnEnd_cases hstep
    exact stay rfl rfl rfl (h.congr rfl (role_setPhase (by rw [hp]; rfl)))
  | commit c =>
    have hcommit : (s.phase c).role.isCommit = true ∧ Matches t m := by
      obtain ⟨i, st, hp, -, -, rfl⟩ | ⟨i, hp, -, rfl⟩ | ⟨i, st, hp, -, -, rfl⟩ | ⟨i, hp, -, rfl⟩ :=
        commit_cases hstep
      all_goals
        refine ⟨by rw [hp]; rfl, ?_⟩
        exact Matches.move (s := { s with store := _, header := _, log := _ }) h
          (by simp [hp, Phase.role]) (by simp [Phase.role])
    cases hpoint : commitPoint s (.commit c) with
    | false => exact stay (by simp [observe, hpoint]) rfl hpoint hcommit.2
    | true =>
      have hempty : m.running = ∅ := by
        refine Finset.eq_empty_of_forall_notMem fun c' hc' => ?_
        obtain ⟨rm, hrm⟩ := (h c').1 hc'
        obtain ⟨-, hS, -, -⟩ := hctl.of_commit hcommit.1
        have := (hctl.running c').2 ⟨rm, hrm⟩
        rw [hS] at this
        exact absurd this (Finset.notMem_empty c')
      exact ⟨_, { m with stable := m.current },
        Run.single (a := .commit) (by simp [GroupStore.step, hempty]), by simp [observe, hpoint],
        rfl, by simp [stableAfter, hpoint], hcommit.2⟩
  | clearCommitting c =>
    obtain ⟨hp, rfl⟩ := clearCommitting_cases hstep
    exact stay rfl rfl rfl (Matches.move (s := { s with log := _ }) h (by simp [hp, Phase.role])
      (by simp [Phase.role]))
  | postEnd c =>
    obtain ⟨hp, -, r, -, rfl⟩ := postEnd_cases hstep
    exact stay rfl rfl rfl (h.congr rfl (role_setPhase (by rw [hp]; rfl)))
  | postBegin c =>
    obtain ⟨hp, r, -, rfl⟩ := postBegin_cases hstep
    exact stay rfl rfl rfl (h.congr rfl (role_setPhase (by rw [hp]; rfl)))
  | crash => cases hstep
  | recover => cases hstep

/-- A stretch of `init_bcache` is no event. -/
theorem Refines.recover {m : Contents} {i : ℕ} (h : Refines sb s m) (hboot : s.boot = some i)
    (hstep : s.recover sb i = some t) : Refines sb t m := by
  simp only [Refines, hboot] at h
  obtain ⟨hm, hlog, hphase, hu, d, hd, hheader, hi, hok, hrec⟩ := h
  rcases recover_cases hstep with ⟨hlt, st, hst, rfl⟩ | ⟨hge, rfl⟩
  · rw [hheader] at hlt hst
    refine ⟨hm, hlog, hphase, hu, d, hd, hheader, ?_, hok.step hd hlt hst, hrec⟩
    rw [hheader]
    exact hlt
  · have hend : i = (readHeader sb d).numBlocks := by rw [← hheader]; omega
    rw [hend] at hok
    refine ⟨⟨∅, Ctl.init hlog hphase rfl⟩,
      ⟨.idle, ⟨fun c => Or.inl (by rw [hphase c]; rfl), Or.inl rfl⟩, ?_⟩, fun c => ?_⟩
    · rw [hm, hheader, hu]
      exact Data.of_boot hd hok hrec
    · rw [hm]
      simp [GroupStore.rest, hphase, Phase.role]

/-- **Every step is matched by the abstract store.** -/
theorem Refines.step {m : Contents} (hlog : 0 < sb.numLogBlocks) (h : Refines sb s m)
    (hdis : Disciplined sb s a) (hstep : Cache.step sb s a = some t) :
    ∃ evs m', Run GroupStore.step m evs m' ∧ Refines sb t m' ∧
      evs.flatMap (fun x => [x.2]) = observe (s, a) := by
  rcases step_cases hstep with ⟨rfl, rfl⟩ | ⟨rfl, i, hboot, hrec⟩ | ⟨hboot, hup⟩
  · obtain ⟨hok, hrec⟩ := h.recovered hlog
    exact ⟨_, GroupStore.rest m.stable, Run.single (a := .crash) rfl, refines_bootSys hok hrec, rfl⟩
  · exact ⟨[], m, Run.nil, h.recover hboot hrec, rfl⟩
  · simp only [Refines, hboot] at h
    obtain ⟨⟨S, hctl⟩, hdata, hmatch⟩ := h
    obtain ⟨evs, m', hrun, hobs, hcur, hstab, hmatch'⟩ := abstract_step hctl hmatch hup
    refine ⟨evs, m', hrun, ?_, hobs⟩
    have ht : t.boot = none := (upStep_boot hup).trans hboot
    simp only [Refines, ht]
    refine ⟨hctl.upStep hup, ?_, hmatch'⟩
    rw [hcur, hstab]
    exact hdata.upStep hctl hlog hdis hup

/-- **`init_bcache` runs to completion** on a disk this code can leave
behind, and leaves what the disk recovers to. -/
theorem initBcache_spec {d : Disk} (hd : LogOk sb d) :
    ∃ s, initBcache sb d = some s ∧ (readHeader sb s.store.disk).numBlocks = 0 ∧
      ∀ n, ¬ sb.InLog n → s.store.disk n = recovered sb d n := by
  have hlog : 0 < sb.numLogBlocks := by have := hd.lt_log; omega
  obtain ⟨st, hok, hinit⟩ := initStore_spec hd
  refine ⟨_, congrArg (Option.map _) hinit, numBlocks_writeHeader_zero, fun n hn => ?_⟩
  exact (writeHeader_of_ne (ne_logStart hlog hn)).trans (hok.disk_eq n)

/-- **Crash atomicity of the log.** Take any run of overlapping operations
on a disk this code can leave behind, with crashes and recoveries cut
anywhere, and any state it reaches. It is matched, event by event, by a
run of the store with group commit, and `init_bcache` on the disk of that
state runs to completion, clears the log header, and leaves every block
outside of the logging area with its stable content. -/
theorem crash_atomicity {d : Disk} {tr : List (Sys × Act)} (hd : LogOk sb d)
    (hrun : Run (step sb) (bootSys sb d) tr s)
    (hdis : ∀ x ∈ tr, Disciplined sb x.1 x.2) :
    ∃ evs m s', Run GroupStore.step (GroupStore.rest (recovered sb d)) evs m ∧
      evs.map Prod.snd = tr.flatMap observe ∧
      initBcache sb s.store.disk = some s' ∧
      (∀ n, ¬ sb.InLog n → s'.store.disk n = m.stable n) ∧
      (readHeader sb s'.store.disk).numBlocks = 0 := by
  have hlog : 0 < sb.numLogBlocks := by have := hd.lt_log; omega
  have hsim : ∃ evs m, Run GroupStore.step (GroupStore.rest (recovered sb d)) evs m ∧
      Refines sb s m ∧ evs.flatMap (fun x => [x.2]) = tr.flatMap observe := by
    refine hrun.simulate (R := Refines sb) (K := Disciplined sb) hdis ?_ ?_
    · exact refines_bootSys hd fun _ _ => rfl
    · exact fun s a t m hR hK hs => hR.step hlog hK hs
  obtain ⟨evs, m, habs, hR, hobs⟩ := hsim
  obtain ⟨hok, hrec⟩ := hR.recovered hlog
  obtain ⟨s', hs', hnum, hdisk⟩ := initBcache_spec hok
  refine ⟨evs, m, s', habs, ?_, hs', fun n hn => (hdisk n hn).trans (hrec n hn), hnum⟩
  rw [← hobs, List.map_eq_flatMap]

/-- A commit cut after the header is written, and a recovery cut after the
block is back home. -/
def cutCommit : List Act :=
  [.recover, .beginOp 0, .acquire 100, .modify 100 (Bytes.ofFn fun _ => 7), .sync 0 100,
    .release 100, .endOp 0, .commit 0, .commit 0, .crash, .recover, .crash]

/-- The group of `cutCommit` is installed. -/
theorem crash_atomicity_cutCommit :
    ∃ tr s evs m s', Run (step mkfsLayout) (bootSys mkfsLayout zeroDisk) tr s ∧
      Run GroupStore.step (GroupStore.rest (recovered mkfsLayout zeroDisk)) evs m ∧
      evs.map Prod.snd = tr.flatMap observe ∧
      initBcache mkfsLayout s.store.disk = some s' ∧ s'.store.disk 100 = m.stable 100 := by
  have hsome : (exec (step mkfsLayout) (bootSys mkfsLayout zeroDisk) cutCommit).isSome = true := by
    decide +kernel
  obtain ⟨s, hs⟩ := Option.isSome_iff_exists.1 hsome
  have hdis : ∀ x ∈ execTrace (step mkfsLayout) (bootSys mkfsLayout zeroDisk) cutCommit,
      Disciplined mkfsLayout x.1 x.2 := by decide +kernel
  obtain ⟨evs, m, s', habs, hobs, hinit, hstable, -⟩ :=
    crash_atomicity logOk_zeroDisk (Run.of_exec hs) hdis
  exact ⟨_, s, evs, m, s', Run.of_exec hs, habs, hobs, hinit, hstable 100 (by decide)⟩

end OsKernel.Cache
