import OsKernel.Cache.Helpers.Contents

/-!
# The block cache — a map from block numbers to contents

While the system runs, the cache with its disk behaves as one map: the
content each block was last synced with, or had when the system came up.
Acquiring a block outside of the logging area reads the map, dropping a
block that is neither pinned nor acquired loses nothing, and at rest the
disk is the map.

The logging area is written behind the callers' back. A log block read
through the cache shows what the last commit copied there, and a cached
header block is left behind by `write_header`, which does not go through
the cache.
-/

namespace OsKernel.Cache

variable {sb : SuperBlock} {s s₀ t : Sys} {d : Disk} {tr : List (Sys × Act)}

/-- The content each block was last synced with, from the contents `m₀`
on. -/
def lastSynced (m₀ : ℕ → BlockData) (tr : List (Sys × Act)) : ℕ → BlockData :=
  tr.foldl (fun m x => afterStep x.1 x.2 m) m₀

theorem lastSynced_snoc (m₀ : ℕ → BlockData) (tr : List (Sys × Act)) (x : Sys × Act) :
    lastSynced m₀ (tr ++ [x]) = afterStep x.1 x.2 (lastSynced m₀ tr) := by
  simp [lastSynced]

/-- Is the action a power cut? -/
def Act.isCrash : Act → Bool
  | .crash => true
  | _ => false

/-- An action of callers that keep their promises, in a system that stays
up. -/
def Served (sb : SuperBlock) (s : Sys) (a : Act) : Prop := Disciplined sb s a ∧ a.isCrash = false

instance (sb : SuperBlock) (s : Sys) (a : Act) : Decidable (Served sb s a) :=
  inferInstanceAs (Decidable (_ ∧ _))

/-- The system is up, its counters are right, and the synced contents are
`cur`. -/
def Up (sb : SuperBlock) (s : Sys) (cur : ℕ → BlockData) : Prop :=
  s.boot = none ∧ (∃ S, Ctl sb s S) ∧ ∃ stab, DataAt sb s cur stab

/-- `init_bcache` brings the system up, with the contents of its disk. -/
theorem up_of_initBcache (hd : LogOk sb d) (h : initBcache sb d = some s₀) :
    Up sb s₀ s₀.store.disk := by
  have hlog : 0 < sb.numLogBlocks := by have := hd.lt_log; omega
  obtain ⟨st, hok, hinit⟩ := initStore_spec hd
  rw [initBcache, hinit, Option.map_some] at h
  obtain rfl := Option.some.inj h
  refine ⟨rfl, ⟨∅, Ctl.init rfl (fun _ => rfl) rfl⟩,
    writeHeader sb { readHeader sb d with numBlocks := 0 } st.disk, .idle,
    ⟨fun _ => Or.inl rfl, Or.inl rfl⟩, Data.of_boot hd hok fun n hn => ?_⟩
  exact ((writeHeader_of_ne (ne_logStart hlog hn)).trans (hok.disk_eq n)).symm

theorem Up.step {cur : ℕ → BlockData} {a : Act} (hlog : 0 < sb.numLogBlocks) (h : Up sb s cur)
    (hserved : Served sb s a) (hstep : Cache.step sb s a = some t) :
    Up sb t (afterStep s a cur) := by
  obtain ⟨hboot, ⟨S, hctl⟩, stab, hdata⟩ := h
  rcases step_cases hstep with ⟨rfl, -⟩ | ⟨-, i, hboot', -⟩ | ⟨-, hup⟩
  · cases hserved.2
  · rw [hboot] at hboot'
    cases hboot'
  · exact ⟨(upStep_boot hup).trans hboot, hctl.upStep hup, _,
      hdata.upStep hctl hlog hserved.1 hup⟩

/-- **The contents along a run** are those last synced. -/
theorem up_of_run (hd : LogOk sb d) (hinit : initBcache sb d = some s₀)
    (hrun : Run (step sb) s₀ tr s) (hserved : ∀ x ∈ tr, Served sb x.1 x.2) :
    Up sb s (lastSynced s₀.store.disk tr) := by
  have hlog : 0 < sb.numLogBlocks := by have := hd.lt_log; omega
  refine hrun.traceInvariantOf (K := Served sb)
    (I := fun tr s => Up sb s (lastSynced s₀.store.disk tr)) hserved
    (up_of_initBcache hd hinit) fun tr s a t hI hK hs => ?_
  rw [lastSynced_snoc]
  exact hI.step hlog hK hs

/-- **The block cache refines a map.** In every state of a run by callers
that keep their promises: acquiring a block outside of the logging area
returns the content last synced; a cached block other than the log
header that is neither pinned nor acquired equals the disk; and with no
operation outstanding and no commit under way the disk equals the map
outside of the logging area. -/
theorem cache_refines_map (hd : LogOk sb d) (hinit : initBcache sb d = some s₀)
    (hrun : Run (step sb) s₀ tr s) (hserved : ∀ x ∈ tr, Served sb x.1 x.2) :
    (∀ n t, ¬ sb.InLog n → step sb s (.acquire n) = some t →
      ∃ b, t.store.get n = some b ∧ b.acquired = true ∧
        b.data = lastSynced s₀.store.disk tr n) ∧
    (∀ n b, n ≠ sb.logStart → s.store.get n = some b → b.pinned = false → b.acquired = false →
      b.data = s.store.disk n) ∧
    (s.log.outstanding = 0 → s.log.committing = false → ∀ n, ¬ sb.InLog n →
      s.store.disk n = lastSynced s₀.store.disk tr n) := by
  obtain ⟨hboot, ⟨S, hctl⟩, stab, g, hg, hdata⟩ := up_of_run hd hinit hrun hserved
  refine ⟨fun n t hn hstep => ?_, fun n b hns hb hp ha => ?_, fun hout hcom n hn => ?_⟩
  · have hup : upStep sb s (.acquire n) = some t := by
      rcases step_cases hstep with ⟨he, -⟩ | ⟨he, -⟩ | ⟨-, hup⟩
      · cases he
      · cases he
      · exact hup
    obtain ⟨hlt, st, hst, rfl⟩ := acquire_cases hup
    obtain ⟨b, hb, hacq, -, -⟩ := (acquired_of_cacheAcquire hdata.wf hst).block
    have hfree := (acquired_of_cacheAcquire hdata.wf hst).free
    exact ⟨b, hb, hacq,
      (hdata.acquire hlt hst).clean n b hb hn (hdata.synced_of_free hfree)⟩
  · have hu : s.unsynced n = false := hdata.synced_of_free fun b' hb' => by
      obtain rfl := Option.mem_unique hb hb'
      exact ha
    by_cases hn : sb.InLog n
    · exact hdata.mirror n b hb hn hns hu
    · have hnp : n ∉ pend s.header g := by
        intro hmem
        rw [(hdata.pinned_iff hb).2 hmem] at hp
        cases hp
      rw [hdata.clean n b hb hn hu, hdata.home n hn hnp]
  · have hempty : S = ∅ := Finset.card_eq_zero.1 (hctl.outstanding.symm.trans hout)
    have hnil := LogHeader.entries_eq_nil (hctl.rest hcom hempty)
    refine hdata.home n hn fun hmem => ?_
    have : n ∈ s.header.entries := by
      cases g with
      | installing i => exact List.mem_of_mem_drop hmem
      | idle | copying | installed => exact hmem
    rw [hnil] at this
    cases this

/-- The system that has just come up on an empty disk. -/
def freshSys : Sys := (initBcache mkfsLayout zeroDisk).get (by decide +kernel)

theorem initBcache_zeroDisk : initBcache mkfsLayout zeroDisk = some freshSys :=
  (Option.some_get _).symm

/-- One whole operation on block 100, after a look at the header block. -/
def peekAndCommit : List Act :=
  [.acquire 2, .release 2, .beginOp 0, .acquire 100, .modify 100 (Bytes.ofFn fun _ => 7),
    .sync 0 100, .release 100, .endOp 0, .commit 0, .commit 0, .commit 0, .commit 0,
    .clearCommitting 0, .postEnd 0, .postBegin 0]

/-- **The logging area is no part of the map.** After `peekAndCommit`,
acquiring the first log block, which nobody ever synced, does not return
its initial content, and the cached header block, neither pinned nor
acquired, differs from the disk. -/
theorem cache_refines_map_not_log :
    ∃ tr s t b h, Run (step mkfsLayout) freshSys tr s ∧
      (∀ x ∈ tr, Served mkfsLayout x.1 x.2) ∧
      step mkfsLayout s (.acquire 3) = some t ∧ t.store.get 3 = some b ∧
      b.data ≠ lastSynced freshSys.store.disk tr 3 ∧
      s.store.get 2 = some h ∧ h.pinned = false ∧ h.acquired = false ∧
      h.data ≠ s.store.disk 2 := by
  have hserved : ∀ x ∈ execTrace (step mkfsLayout) freshSys peekAndCommit,
      Served mkfsLayout x.1 x.2 := by decide +kernel
  have hlast : (lastSynced freshSys.store.disk
      (execTrace (step mkfsLayout) freshSys peekAndCommit) 3).get 0 = 0 := by decide +kernel
  have hlogBlock : ((exec (step mkfsLayout) freshSys peekAndCommit).bind fun s =>
      (step mkfsLayout s (.acquire 3)).bind fun t =>
        (t.store.get 3).map fun b => b.data.get 0) = some 7 := by decide +kernel
  have hheader : ((exec (step mkfsLayout) freshSys peekAndCommit).bind fun s =>
      (s.store.get 2).map fun h =>
        (h.pinned, h.acquired, h.data.get 8, (s.store.disk 2).get 8)) =
      some (false, false, 0, 100) := by decide +kernel
  obtain ⟨s, hs, hlogBlock⟩ := Option.bind_eq_some_iff.1 hlogBlock
  obtain ⟨t, ht, hlogBlock⟩ := Option.bind_eq_some_iff.1 hlogBlock
  obtain ⟨b, hb, hb7⟩ := Option.map_eq_some_iff.1 hlogBlock
  rw [hs, Option.bind_some] at hheader
  obtain ⟨h, hh, hflags⟩ := Option.map_eq_some_iff.1 hheader
  simp only [Prod.mk.injEq] at hflags
  obtain ⟨hp, ha, hh0, hd⟩ := hflags
  refine ⟨_, s, t, b, h, Run.of_exec hs, hserved, ht, hb, ?_, hh, hp, ha, ?_⟩
  · intro he
    rw [he, hlast] at hb7
    cases hb7
  · intro he
    rw [he, hd] at hh0
    cases hh0

/-- After `peekAndCommit` the disk has for block 100 the content synced to
it. -/
theorem cache_refines_map_peekAndCommit :
    ∃ tr s, Run (step mkfsLayout) freshSys tr s ∧
      s.store.disk 100 = lastSynced freshSys.store.disk tr 100 := by
  have hrun : ((exec (step mkfsLayout) freshSys peekAndCommit).map fun s =>
      (s.log.outstanding, s.log.committing)) = some (0, false) := by decide +kernel
  have hserved : ∀ x ∈ execTrace (step mkfsLayout) freshSys peekAndCommit,
      Served mkfsLayout x.1 x.2 := by decide +kernel
  obtain ⟨s, hs, hrest⟩ := Option.map_eq_some_iff.1 hrun
  simp only [Prod.mk.injEq] at hrest
  have hmap := cache_refines_map logOk_zeroDisk initBcache_zeroDisk
    (Run.of_exec hs) hserved
  exact ⟨_, s, Run.of_exec hs, hmap.2.2 hrest.1 hrest.2 100 (by decide)⟩

end OsKernel.Cache
