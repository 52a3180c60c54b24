import OsKernel.Cache.MapRefinement

/-!
# The block cache — durability when `cache_end_op` returns

An operation that is not the last one to end waits on `log.end` for the
commit that covers it. `cache_end_op` clears `log.committing` without the
log's lock and before it posts `log.end`; an operation that begins and
ends in between goes to sleep in time to be woken by the commit before
its own, and returns with its blocks not on disk.

Apart from that window the wait is sound: where no operation goes to
sleep between the two statements, every block synced under a context is
at home, with that content or a later one, when its `cache_end_op`
returns.
-/

namespace OsKernel.Cache

open Function

variable {sb : SuperBlock} {s s₀ t : Sys} {d : Disk} {tr : List (Sys × Act)} {a : Act}
variable {m₀ : ℕ → BlockData} {n k c : ℕ}

/-- **No operation goes to sleep in the window** between the assignment
`log.committing = false` and the post of `log.end`. -/
def Prompt (s : Sys) : Act → Prop
  | .endOp _ => s.log.outstanding = 1 ∨ ∀ c, s.phase c ≠ .committed
  | _ => True

/-- The disk has the content that block `n` was synced with at position
`k` of the trace, or at a later one. -/
def Persisted (tr : List (Sys × Act)) (n k : ℕ) (d : Disk) : Prop :=
  ∃ k' x c, k ≤ k' ∧ tr[k']? = some (x, .sync c n) ∧ d n = x.store.value n

theorem Persisted.mono (h : Persisted tr n k d) (x : Sys × Act) : Persisted (tr ++ [x]) n k d := by
  obtain ⟨k', y, c, hk, hget, hd⟩ := h
  refine ⟨k', y, c, hk, ?_, hd⟩
  rw [List.getElem?_append_left (List.getElem?_eq_some_iff.1 hget).1]
  exact hget

/-- An entry of a longer trace is an old one or the new one. -/
theorem getElem?_snoc {x y : Sys × Act} (h : (tr ++ [x])[k]? = some y) :
    tr[k]? = some y ∨ (k = tr.length ∧ y = x) := by
  rcases lt_trichotomy k tr.length with hlt | heq | hgt
  · rw [List.getElem?_append_left hlt] at h
    exact Or.inl h
  · subst heq
    simp only [List.getElem?_concat_length, Option.some_inj] at h
    exact Or.inr ⟨rfl, h.symm⟩
  · rw [List.getElem?_eq_none (by simp; omega)] at h
    cases h

/-- **The map holds the content of a sync no earlier than any given
one.** -/
theorem lastSynced_of_sync (m₀ : ℕ → BlockData) {x : Sys} (h : tr[k]? = some (x, .sync c n)) :
    ∃ k' y c', k ≤ k' ∧ tr[k']? = some (y, .sync c' n) ∧
      lastSynced m₀ tr n = y.store.value n := by
  induction tr using List.reverseRecOn generalizing k c x with
  | nil => simp at h
  | append_singleton tr z ih =>
    obtain ⟨z, a⟩ := z
    rw [lastSynced_snoc]
    -- either the last action syncs `n`, or the map has the same content for it as before
    by_cases hz : ∃ c', a = .sync c' n
    · obtain ⟨c', rfl⟩ := hz
      refine ⟨tr.length, z, c', ?_, by simp, by simp [afterStep]⟩
      have := (List.getElem?_eq_some_iff.1 h).1
      simp only [List.length_append, List.length_singleton] at this
      omega
    · have hafter : afterStep z a (lastSynced m₀ tr) n = lastSynced m₀ tr n := by
        cases a with
        | sync c' n' =>
          have hne : n ≠ n' := by
            rintro rfl
            exact hz ⟨c', rfl⟩
          simp [afterStep, hne]
        | _ => rfl
      have hold : tr[k]? = some (x, .sync c n) := by
        rcases getElem?_snoc h with h | ⟨-, heq⟩
        · exact h
        · cases heq
          exact absurd ⟨c, rfl⟩ hz
      obtain ⟨k', y, c', hk, hget, hval⟩ := ih hold
      refine ⟨k', y, c', hk, ?_, hafter.trans hval⟩
      rw [List.getElem?_append_left (List.getElem?_eq_some_iff.1 hget).1]
      exact hget

/-! ## The disk along a run -/

/-- A block that has its last synced content on disk is persisted. -/
theorem persisted_of_disk_eq {x : Sys} (h : tr[k]? = some (x, .sync c n))
    (hdisk : d n = lastSynced m₀ tr n) : Persisted tr n k d := by
  obtain ⟨k', y, c', hk, hget, hval⟩ := lastSynced_of_sync m₀ h
  exact ⟨k', y, c', hk, hget, hdisk.trans hval⟩

/-- **A step changes a home block only to its last synced content.** -/
theorem disk_step {cur : ℕ → BlockData} (hlog : 0 < sb.numLogBlocks) (h : Up sb s cur)
    (hstep : upStep sb s a = some t) (hdis : Disciplined sb s a) (hn : ¬ sb.InLog n) :
    t.store.disk n = s.store.disk n ∨ t.store.disk n = cur n := by
  obtain ⟨-, ⟨S, hctl⟩, stab, g, hg, hdata⟩ := h
  have hfits := hctl.fits hlog
  by_cases ha : a.quiet = true
  · rw [(upStep_quiet hstep ha).1]
    exact Or.inl rfl
  cases a with
  | acquire m =>
    obtain ⟨-, st, hst, rfl⟩ := acquire_cases hstep
    exact Or.inl (congrFun (acquired_of_cacheAcquire hdata.wf hst).disk n)
  | modify m v =>
    obtain ⟨b, -, -, rfl⟩ := modify_cases hstep
    exact Or.inl rfl
  | release m =>
    obtain ⟨b, -, -, rfl⟩ := release_cases hstep
    exact Or.inl rfl
  | sync c m =>
    obtain ⟨rm, b, -, -, -, -, ⟨-, -, rfl⟩ | ⟨-, rfl⟩⟩ := sync_cases hstep <;> exact Or.inl rfl
  | syncNull m => exact absurd hdis id
  | commit c =>
    obtain ⟨i, st, hp, hi, hst, rfl⟩ | ⟨i, -, -, rfl⟩ | ⟨i, st, hp, hi, hst, rfl⟩ |
      ⟨i, -, -, rfl⟩ := commit_cases hstep
    · -- the copy goes to a block of the logging area
      obtain rfl := hg.eq_of_phase (c := c) (by rw [hp]; simp [Phase.stage])
      rw [hp] at hdata
      obtain ⟨b, hb, hpin⟩ := hdata.cached _ (LogHeader.blockNo_mem hi)
      have hdisk := (copyToLog_spec hdata.wf (hdata.logBlock_ne hfits hi) hb hpin hst).1
      have hne : n ≠ sb.logBlock i := by
        rintro rfl
        exact hn (inLog_logBlock (by have := hfits.lt_log; omega))
      exact Or.inl ((congrFun hdisk n).trans (update_of_ne hne _ _))
    · exact Or.inl (writeHeader_of_ne (ne_logStart hlog hn))
    · -- the installed block is no longer pending
      obtain rfl := hg.eq_of_phase (c := c) (by rw [hp]; simp [Phase.stage])
      rw [hp] at hdata
      by_cases hni : n = s.header.blockNo i
      · refine Or.inr ((hdata.install hfits hi hst).home n hn fun hmem => ?_)
        exact ((Data.mem_drop hfits hi).1 hmem).2 hni
      · have hdisk := (installHome_spec hdata.wf (hdata.logBlock_ne hfits hi) hst).1
        exact Or.inl ((congrFun hdisk n).trans (update_of_ne hni _ _))
    · exact Or.inl (writeHeader_of_ne (ne_logStart hlog hn))
  | crash | recover => cases hstep
  | _ => exact absurd rfl ha

/-- What was persisted stays so. -/
theorem Persisted.step {x : Sys} (hlog : 0 < sb.numLogBlocks) (hup : Up sb s (lastSynced m₀ tr))
    (hstep : upStep sb s a = some t) (hdis : Disciplined sb s a) (hn : ¬ sb.InLog n)
    (hx : tr[k]? = some (x, .sync c n)) (h : Persisted tr n k s.store.disk) :
    Persisted (tr ++ [(s, a)]) n k t.store.disk := by
  refine Persisted.mono ?_ (s, a)
  rcases disk_step hlog hup hstep hdis hn with hsame | hcur
  · obtain ⟨k', y, c', hk, hget, hval⟩ := h
    exact ⟨k', y, c', hk, hget, hsame.trans hval⟩
  · exact persisted_of_disk_eq hx hcur

/-- **A finished commit has everything at home.** -/
theorem Up.persisted_of_installed {c' : ℕ} {x : Sys} (hup : Up sb s (lastSynced m₀ tr))
    (hp : s.phase c' = .installed) (hn : ¬ sb.InLog n) (hx : tr[k]? = some (x, .sync c n)) :
    Persisted tr n k s.store.disk := by
  obtain ⟨-, ⟨S, hctl⟩, stab, g, hg, hdata⟩ := hup
  obtain ⟨-, -, -, hspace⟩ := hctl.of_commit (c := c') (by rw [hp]; rfl)
  rw [hp] at hspace
  obtain rfl := hg.eq_of_phase (c := c') (by rw [hp]; simp [Phase.stage])
  rw [hp] at hdata
  refine persisted_of_disk_eq hx (hdata.home n hn ?_)
  simp [pend, Phase.stage, LogHeader.entries_eq_nil hspace.2]

/-! ## Threads that are due -/

/-- The syncs of thread `c` are persisted: it is outside of its
operation, past its own commit, or woken from its wait, or a commit has
ended since it went to sleep. -/
def Settled (s : Sys) (c : ℕ) : Prop :=
  match s.phase c with
  | .running _ | .copying _ | .installing _ | .installed => False
  | .endLocked => ∃ c', s.phase c' = .committed
  | .endWait => c ∉ s.log.endSem.sleeplist ∨ ∃ c', s.phase c' = .committed
  | _ => True

/-- A thread moves to another phase, and the sleepers stay asleep. -/
theorem settled_move {c₀ : ℕ} {p : Phase} (h : Settled t c) (hphase : t.phase = update s.phase c₀ p)
    (hp : p ≠ .committed) (hsleep : ∀ c, c ∈ s.log.endSem.sleeplist → c ∈ t.log.endSem.sleeplist)
    (hself : Settled t c₀ → Settled s c₀) : Settled s c := by
  by_cases hc : c = c₀
  · subst hc
    exact hself h
  · have hpc : t.phase c = s.phase c := by rw [hphase, update_of_ne hc]
    have hwindow : (∃ c', t.phase c' = .committed) → ∃ c', s.phase c' = .committed := by
      rintro ⟨c', hc'⟩
      have hne : c' ≠ c₀ := by
        rintro rfl
        rw [hphase, update_self] at hc'
        exact hp hc'
      exact ⟨c', by rwa [hphase, update_of_ne hne] at hc'⟩
    unfold Settled at h ⊢
    rw [hpc] at h
    split <;> simp_all only
    rcases h with h | h
    · exact Or.inl fun hmem => h (hsleep c hmem)
    · exact Or.inr (hwindow h)

/-- `log.end` has no spare units, so whoever waits on it sleeps. -/
def EndOk (s : Sys) : Prop := s.log.endSem.Wf ∧ s.log.endSem.val ≤ 0

theorem EndOk.postAll {r : Semaphore ℕ × List ℕ} (h : EndOk s)
    (hr : s.log.endSem.postAllSem = some r) : r.1 = ⟨none, 0, []⟩ := by
  rw [Semaphore.postAllSem_eq h.1 h.2 (Semaphore.lock_of_postAllSem hr)] at hr
  rw [← Option.some.inj hr]

theorem EndOk.step (h : EndOk s) (hstep : upStep sb s a = some t) : EndOk t := by
  cases a with
  | acquire n => obtain ⟨-, st, -, rfl⟩ := acquire_cases hstep; exact h
  | modify n d => obtain ⟨b, -, -, rfl⟩ := modify_cases hstep; exact h
  | release n => obtain ⟨b, -, -, rfl⟩ := release_cases hstep; exact h
  | beginOp c => obtain ⟨-, -, ⟨-, -, rfl⟩ | ⟨-, rfl⟩⟩ := beginOp_cases hstep <;> exact h
  | waitBegin c => obtain ⟨-, rfl⟩ := waitBegin_cases hstep; exact h
  | sync c n =>
    obtain ⟨rm, b, -, -, -, -, ⟨-, -, rfl⟩ | ⟨-, rfl⟩⟩ := sync_cases hstep <;> exact h
  | syncNull n => obtain ⟨b, -, -, rfl⟩ := syncNull_cases hstep; exact h
  | endOp c => obtain ⟨rm, -, -, ⟨-, rfl⟩ | ⟨-, -, r, -, rfl⟩⟩ := endOp_cases hstep <;> exact h
  | waitEnd c =>
    obtain ⟨-, rfl⟩ := waitEnd_cases hstep
    refine ⟨Semaphore.wf_waitSem h.1, ?_⟩
    have := h.2
    simp only [setPhase_log, Semaphore.waitSem]
    split <;> simp only <;> omega
  | returnEnd c => obtain ⟨-, -, -, rfl⟩ := returnEnd_cases hstep; exact h
  | commit c =>
    obtain ⟨i, st, -, -, -, rfl⟩ | ⟨i, -, -, rfl⟩ | ⟨i, st, -, -, -, rfl⟩ | ⟨i, -, -, rfl⟩ :=
      commit_cases hstep <;> exact h
  | clearCommitting c => obtain ⟨-, rfl⟩ := clearCommitting_cases hstep; exact h
  | postEnd c =>
    obtain ⟨-, -, r, hr, rfl⟩ := postEnd_cases hstep
    simp [EndOk, h.postAll hr, Semaphore.Wf]
  | postBegin c => obtain ⟨-, r, -, rfl⟩ := postBegin_cases hstep; exact h
  | crash => cases hstep
  | recover => cases hstep

/-- **Who becomes settled.** A thread settled after a step was so before,
or the step is the end of a commit. -/
theorem settled_step (hend : EndOk s) (hprompt : Prompt s a)
    (hstep : upStep sb s a = some t) (c : ℕ) (h : Settled t c) :
    Settled s c ∨ ∃ c', s.phase c' = .installed := by
  cases a with
  | acquire n => obtain ⟨-, st, -, rfl⟩ := acquire_cases hstep; exact Or.inl h
  | modify n d => obtain ⟨b, -, -, rfl⟩ := modify_cases hstep; exact Or.inl h
  | release n => obtain ⟨b, -, -, rfl⟩ := release_cases hstep; exact Or.inl h
  | beginOp c₀ =>
    obtain ⟨-, hp, ⟨-, -, rfl⟩ | ⟨-, rfl⟩⟩ := beginOp_cases hstep
    all_goals
      have hself : Settled s c₀ := by
        rcases hp with hp | ⟨hp, -⟩ <;> simp [Settled, hp]
      exact Or.inl (settled_move h rfl (by simp) (fun _ h => h) fun _ => hself)
  | waitBegin c₀ =>
    obtain ⟨hp, rfl⟩ := waitBegin_cases hstep
    exact Or.inl (settled_move h rfl (by simp) (fun _ h => h) fun _ => by simp [Settled, hp])
  | sync c₀ n =>
    obtain ⟨rm, b, hp, -, -, -, ⟨-, -, rfl⟩ | ⟨-, rfl⟩⟩ := sync_cases hstep
    · refine Or.inl (settled_move h rfl (by simp) (fun _ h => h) fun hs => ?_)
      simp [Settled] at hs
    · exact Or.inl h
  | syncNull n => obtain ⟨b, -, -, rfl⟩ := syncNull_cases hstep; exact Or.inl h
  | endOp c₀ =>
    obtain ⟨rm, hp, -, ⟨-, rfl⟩ | ⟨hne, -, r, -, rfl⟩⟩ := endOp_cases hstep
    · refine Or.inl (settled_move h rfl (by simp) (fun _ h => h) fun hs => ?_)
      simp [Settled] at hs
    · -- the thread goes to sleep outside of the window, so nobody is about to wake it
      refine Or.inl (settled_move h rfl (by simp) (fun _ h => h) fun hs => ?_)
      have hnone : ∀ c', s.phase c' ≠ .committed := by
        refine hprompt.resolve_left fun hone => hne ?_
        rw [hone]
        rfl
      obtain ⟨c', hc'⟩ : ∃ c', _ = Phase.committed := by simpa [Settled] using hs
      by_cases hcc : c' = c₀
      · subst hcc
        simp at hc'
      · rw [setPhase_of_ne hcc] at hc'
        exact absurd hc' (hnone c')
  | waitEnd c₀ =>
    obtain ⟨hp, rfl⟩ := waitEnd_cases hstep
    have hsleep : (s.log.endSem.waitSem c₀).sleeplist = c₀ :: s.log.endSem.sleeplist := by
      have := hend.2
      rw [Semaphore.waitSem, if_neg (by omega)]
    refine Or.inl (settled_move h rfl (by simp) (fun c' hc' => ?_) fun hs => ?_)
    · simp [hsleep, hc']
    · simp only [Settled, setPhase_self, setPhase_log, hsleep, List.mem_cons, true_or,
        not_true_eq_false, false_or] at hs
      obtain ⟨c', hc'⟩ := hs
      by_cases hcc : c' = c₀
      · subst hcc
        simp at hc'
      · rw [setPhase_of_ne hcc] at hc'
        simp only [Settled, hp]
        exact ⟨c', hc'⟩
  | returnEnd c₀ =>
    obtain ⟨hp, -, hns, rfl⟩ := returnEnd_cases hstep
    exact Or.inl (settled_move h rfl (by simp) (fun _ h => h)
      fun _ => by simp [Settled, hp, hns])
  | commit c₀ =>
    obtain ⟨i, st, -, -, -, rfl⟩ | ⟨i, -, -, rfl⟩ | ⟨i, st, -, -, -, rfl⟩ | ⟨i, -, -, rfl⟩ :=
      commit_cases hstep
    all_goals
      refine Or.inl (settled_move h rfl (by simp) (fun _ h => h) fun hs => ?_)
      simp [Settled] at hs
  | clearCommitting c₀ =>
    obtain ⟨hp, rfl⟩ := clearCommitting_cases hstep
    exact Or.inr ⟨c₀, hp⟩
  | postEnd c₀ =>
    obtain ⟨hp, -, r, -, rfl⟩ := postEnd_cases hstep
    -- the window is open, so every waiting thread is settled already
    left
    by_cases hcc : c = c₀
    · subst hcc
      simp [Settled, hp]
    · simp only [Settled, setPhase_of_ne hcc] at h ⊢
      split <;> simp_all only
      · exact ⟨c₀, hp⟩
      · exact Or.inr ⟨c₀, hp⟩
  | postBegin c₀ =>
    obtain ⟨hp, r, -, rfl⟩ := postBegin_cases hstep
    exact Or.inl (settled_move h rfl (by simp) (fun _ h => h) fun _ => by simp [Settled, hp])
  | crash => cases hstep
  | recover => cases hstep

/-! ## Durability -/

/-- **The invariant of the waits**: what a settled thread has synced is on
disk. -/
structure Durable (sb : SuperBlock) (m₀ : ℕ → BlockData) (tr : List (Sys × Act)) (s : Sys) :
    Prop where
  up : Up sb s (lastSynced m₀ tr)
  endOk : EndOk s
  not_log : ∀ (k : ℕ) x c n, tr[k]? = some (x, Act.sync c n) → ¬ sb.InLog n
  due : ∀ (k : ℕ) x c n, tr[k]? = some (x, Act.sync c n) → Settled s c →
    Persisted tr n k s.store.disk

theorem Durable.step (hlog : 0 < sb.numLogBlocks) (h : Durable sb m₀ tr s) (hserved : Served sb s a)
    (hprompt : Prompt s a) (hstep : Cache.step sb s a = some t) :
    Durable sb m₀ (tr ++ [(s, a)]) t := by
  have hup : upStep sb s a = some t := by
    rcases step_cases hstep with ⟨rfl, -⟩ | ⟨-, i, hboot, -⟩ | ⟨-, hup⟩
    · cases hserved.2
    · rw [h.up.1] at hboot
      cases hboot
    · exact hup
  refine ⟨?_, h.endOk.step hup, fun k x c n hx => ?_, fun k x c n hx hset => ?_⟩
  · rw [lastSynced_snoc]
    exact h.up.step hlog hserved hstep
  · rcases getElem?_snoc hx with hx | ⟨-, heq⟩
    · exact h.not_log k x c n hx
    · cases heq
      exact hserved.1
  · rcases getElem?_snoc hx with hx | ⟨-, heq⟩
    · have hn := h.not_log k x c n hx
      refine Persisted.step hlog h.up hup hserved.1 hn hx ?_
      rcases settled_step h.endOk hprompt hup c hset with hset | ⟨c', hc'⟩
      · exact h.due k x c n hx hset
      · exact h.up.persisted_of_installed hc' hn hx
    · -- the thread that has just synced still runs
      cases heq
      obtain ⟨rm, b, hp, -, -, -, ⟨-, -, rfl⟩ | ⟨-, rfl⟩⟩ := sync_cases hup
      · simp [Settled] at hset
      · simp [Settled, hp] at hset

theorem durable_of_run (hd : LogOk sb d) (hinit : initBcache sb d = some s₀)
    (hrun : Run (step sb) s₀ tr s)
    (hok : ∀ x ∈ tr, Served sb x.1 x.2 ∧ Prompt x.1 x.2) :
    Durable sb s₀.store.disk tr s := by
  have hlog : 0 < sb.numLogBlocks := by have := hd.lt_log; omega
  have hend : EndOk s₀ := by
    obtain ⟨r, -, rfl⟩ := Option.map_eq_some_iff.1 hinit
    exact ⟨Semaphore.wf_initSem le_rfl, le_rfl⟩
  refine hrun.traceInvariantOf (K := fun s a => Served sb s a ∧ Prompt s a)
    (I := Durable sb s₀.store.disk) hok
    ⟨up_of_initBcache hd hinit, hend, by simp, by simp⟩ fun tr s a t hI hK hs => ?_
  exact hI.step hlog hK.1 hK.2 hs

/-- **Durability at return**, for runs in which no operation goes to sleep
in the window: when `cache_end_op` returns to thread `c`, which waited or
committed itself, every block synced under `c` is at home with the
content of that sync or a later one. -/
theorem durability_at_return (hd : LogOk sb d) (hinit : initBcache sb d = some s₀)
    (hrun : Run (step sb) s₀ tr s)
    (hok : ∀ x ∈ tr, Served sb x.1 x.2 ∧ Prompt x.1 x.2) {c : ℕ}
    (hret : step sb s (.returnEnd c) = some t ∨ step sb s (.postBegin c) = some t)
    {k n : ℕ} {x : Sys} (hsync : tr[k]? = some (x, .sync c n)) :
    Persisted tr n k t.store.disk := by
  have h := durable_of_run hd hinit hrun hok
  have hup : upStep sb s (.returnEnd c) = some t ∨ upStep sb s (.postBegin c) = some t := by
    rcases hret with hret | hret
    all_goals
      rcases step_cases hret with ⟨he, -⟩ | ⟨he, -⟩ | ⟨-, hup⟩
      · cases he
      · cases he
    · exact Or.inl hup
    · exact Or.inr hup
  rcases hup with hup | hup
  · obtain ⟨hp, -, hns, rfl⟩ := returnEnd_cases hup
    exact h.due k x c n hsync (by simp [Settled, hp, hns])
  · obtain ⟨hp, r, -, rfl⟩ := postBegin_cases hup
    exact h.due k x c n hsync (by simp [Settled, hp])

/-- Operation 0 waits for operation 1, which commits for both. -/
def waitForLast : List Act :=
  [.beginOp 0, .beginOp 1, .acquire 100, .modify 100 (Bytes.ofFn fun _ => 7), .sync 0 100,
    .release 100, .endOp 0, .waitEnd 0, .endOp 1, .commit 1, .commit 1, .commit 1, .commit 1,
    .clearCommitting 1, .postEnd 1]

/-- In `waitForLast`, no thread is in the window when operation 0 goes to
sleep, and operation 1 is the last. -/
theorem prompt_waitForLast :
    ∀ x ∈ execTrace (step mkfsLayout) freshSys waitForLast, Prompt x.1 x.2 := by
  rw [← List.forall_iff_forall_mem]
  refine ⟨trivial, trivial, trivial, trivial, trivial, trivial, Or.inr ?_, trivial, Or.inl rfl,
    trivial, trivial, trivial, trivial, trivial, trivial⟩
  intro c
  match c with
  | 0 | 1 => decide +kernel
  | c + 2 => exact (by decide : Phase.idle ≠ .committed)

/-- When operation 0 of `waitForLast` returns, its block is on disk. -/
theorem durability_at_return_waitForLast :
    ∃ tr s t x, Run (step mkfsLayout) freshSys tr s ∧
      step mkfsLayout s (.returnEnd 0) = some t ∧ tr[4]? = some (x, .sync 0 100) ∧
      Persisted tr 100 4 t.store.disk := by
  have hrun : ((exec (step mkfsLayout) freshSys waitForLast).bind fun s =>
      step mkfsLayout s (.returnEnd 0)).isSome = true := by decide +kernel
  have hsync : (execTrace (step mkfsLayout) freshSys waitForLast)[4]?.map Prod.snd =
      some (.sync 0 100) := by rfl
  have hserved : ∀ x ∈ execTrace (step mkfsLayout) freshSys waitForLast,
      Served mkfsLayout x.1 x.2 := by decide +kernel
  obtain ⟨t, ht⟩ := Option.isSome_iff_exists.1 hrun
  obtain ⟨s, hs, ht⟩ := Option.bind_eq_some_iff.1 ht
  obtain ⟨⟨x, a⟩, hx, rfl⟩ := Option.map_eq_some_iff.1 hsync
  exact ⟨_, s, t, x, Run.of_exec hs, ht, hx,
    durability_at_return logOk_zeroDisk initBcache_zeroDisk
      (Run.of_exec hs) (fun x hx => ⟨hserved x hx, prompt_waitForLast x hx⟩) (Or.inl ht) hx⟩

/-- Operation 0 has committed and is about to post `log.end` when
operation 1 ends, with operation 2 still running. -/
def endInWindow : List Act :=
  [.beginOp 0, .acquire 100, .modify 100 (Bytes.ofFn fun _ => 7), .sync 0 100, .release 100,
    .endOp 0, .commit 0, .commit 0, .commit 0, .commit 0, .clearCommitting 0,
    .beginOp 1, .beginOp 2, .acquire 101, .modify 101 (Bytes.ofFn fun _ => 7), .sync 1 101,
    .release 101, .endOp 1, .waitEnd 1, .postEnd 0]

/-- **A premature return.** After `endInWindow` the `cache_end_op` of
operation 1 returns although block 101 has not been written: every sync
of it had a 7 in its first byte, and the disk has a 0. -/
theorem premature_return :
    ∃ tr s t x, Run (step mkfsLayout) freshSys tr s ∧
      (∀ x ∈ tr, Served mkfsLayout x.1 x.2) ∧
      step mkfsLayout s (.returnEnd 1) = some t ∧ tr[15]? = some (x, .sync 1 101) ∧
      ¬ Persisted tr 101 15 t.store.disk := by
  have hrun : ((exec (step mkfsLayout) freshSys endInWindow).bind fun s =>
      (step mkfsLayout s (.returnEnd 1)).map fun t => (t.store.disk 101).get 0) = some 0 := by
    decide +kernel
  have hsync : (execTrace (step mkfsLayout) freshSys endInWindow)[15]?.map Prod.snd =
      some (.sync 1 101) := by rfl
  have hserved : ∀ x ∈ execTrace (step mkfsLayout) freshSys endInWindow,
      Served mkfsLayout x.1 x.2 := by decide +kernel
  have hcontent : ∀ x ∈ execTrace (step mkfsLayout) freshSys endInWindow,
      (afterStep x.1 x.2 (fun _ => Bytes.ofFn fun _ => 7) 101).get 0 = 7 := by decide +kernel
  obtain ⟨s, hs, hrun⟩ := Option.bind_eq_some_iff.1 hrun
  obtain ⟨t, ht, hdisk⟩ := Option.map_eq_some_iff.1 hrun
  obtain ⟨⟨x, a⟩, hx, rfl⟩ := Option.map_eq_some_iff.1 hsync
  refine ⟨_, s, t, x, Run.of_exec hs, hserved, ht, hx, ?_⟩
  rintro ⟨k', y, c, -, hy, hval⟩
  have h7 := hcontent _ (List.mem_of_getElem? hy)
  rw [afterStep, update_self, ← hval, hdisk] at h7
  cases h7

end OsKernel.Cache
