import OsKernel.Cache.Helpers.Data

/-!
# Helpers — the contents along a run

The invariant `Data` of the store, carried through the steps of the
system: `DataAt` reads store, header and stage off a state. A sync is
the only step that changes the map `cur` (`afterStep`), and a commit has
one moment at which the stable contents become the current ones.
-/

namespace OsKernel.Cache

variable {sb : SuperBlock} {s t : Sys} {S : Finset ℕ} {cur stab : ℕ → BlockData} {a : Act}

/-- The contents of a running system. -/
def DataAt (sb : SuperBlock) (s : Sys) (cur stab : ℕ → BlockData) : Prop :=
  ∃ g, s.AtStage g ∧ Data sb s.store s.header s.unsynced g cur stab

/-- The synced contents after an action taken in state `s`. -/
def afterStep (s : Sys) (a : Act) (cur : ℕ → BlockData) : ℕ → BlockData :=
  match a with
  | .sync _ n => Function.update cur n (s.store.value n)
  | _ => cur

/-- Does the action write the header of a commit? -/
def commitPoint (s : Sys) : Act → Bool
  | .commit c =>
    match s.phase c with
    | .copying i => decide (s.header.numBlocks ≤ i)
    | _ => false
  | _ => false

/-- The stable contents after an action taken in state `s`. -/
def stableAfter (s : Sys) (a : Act) (cur stab : ℕ → BlockData) : ℕ → BlockData :=
  if commitPoint s a then cur else stab

theorem stableAfter_of_not {s : Sys} {a : Act} {cur stab : ℕ → BlockData}
    (h : commitPoint s a = false) : stableAfter s a cur stab = stab := by
  simp [stableAfter, h]

/-- The header of a running system fits the logging area. -/
theorem Ctl.fits (h : Ctl sb s S) (hlog : 0 < sb.numLogBlocks) : Data.Fits sb s.header := by
  have hle := h.num_le
  have hmax := logSize_le_max sb
  have hsize : (initLog sb).logSize ≤ sb.numLogBlocks - 1 := logSize_le_log hlog
  rw [h.size] at hle
  exact ⟨hle.trans hmax, by omega, h.nodup⟩

namespace DataAt

/-- A step that only moves a thread between phases outside of a commit. -/
theorem move {p : Phase} {c : ℕ} {l : Log} (h : DataAt sb s cur stab)
    (hp : p.stage = (s.phase c).stage) :
    DataAt sb ({ s with log := l }.setPhase c p) cur stab := by
  obtain ⟨g, hg, hdata⟩ := h
  exact ⟨g, hg.congr (Sys.AtStage.stage_setPhase (s := s) hp), hdata⟩

/-- `cache_sync`. -/
theorem sync {c n : ℕ} (hctl : Ctl sb s S) (h : DataAt sb s cur stab) (hn : ¬ sb.InLog n)
    (hstep : s.sync c n = some t) :
    DataAt sb t (Function.update cur n (s.store.value n)) stab := by
  obtain ⟨g, hg, hdata⟩ := h
  obtain ⟨rm, b, hp, hb, -, hacq, hcase⟩ := sync_cases hstep
  obtain rfl := hg.idle_of_running hctl hp
  rw [Store.value_of_get hb]
  rcases hcase with ⟨hmem, -, rfl⟩ | ⟨hmem, rfl⟩
  · refine ⟨.idle, hg.congr (Sys.AtStage.stage_setPhase (s := s) (by rw [hp]; rfl)), ?_⟩
    have hget : (s.store.modify n (Block.setPinned true)).get n = some (b.setPinned true) := by
      rw [Store.get_modify_self (Block.blockNo_setPinned true), hb, Option.map_some]
    refine hdata.sync hn hb (Store.wf_modify (Block.blockNo_setPinned true) hdata.wf) rfl
      (fun m hm => Store.get_modify_of_ne (Block.blockNo_setPinned true) hm) hget rfl rfl
      (fun m => ?_)
    simp
  · refine ⟨.idle, hg, hdata.sync hn hb hdata.wf rfl (fun _ _ => rfl) hb rfl
      ((hdata.pinned_iff hb).2 hmem) (fun m => ⟨Or.inl, ?_⟩)⟩
    rintro (hm | rfl)
    · exact hm
    · exact hmem

/-- The stretches of a commit. Only the one that writes the header changes
what is stable. -/
theorem commit {c : ℕ} (hctl : Ctl sb s S) (hlog : 0 < sb.numLogBlocks)
    (h : DataAt sb s cur stab) (hstep : s.commit sb c = some t) :
    DataAt sb t cur (stableAfter s (.commit c) cur stab) := by
  obtain ⟨g, hg, hdata⟩ := h
  have hfits := hctl.fits hlog
  have hothers : (s.phase c).role.isCommit = true →
      ∀ c', c' ≠ c → (s.phase c').stage = .idle := by
    intro hr c' hc
    obtain ⟨-, -, hquiet, -⟩ := hctl.of_commit hr
    exact Sys.AtStage.stage_of_quiet (by rw [hquiet c' hc]; rfl)
  obtain ⟨i, st, hp, hi, hst, rfl⟩ | ⟨i, hp, hi, rfl⟩ | ⟨i, st, hp, hi, hst, rfl⟩ |
    ⟨i, hp, hi, rfl⟩ := commit_cases hstep
  all_goals
    have hidle := hothers (by rw [hp]; rfl)
    obtain rfl := hg.eq_of_phase (c := c) (by rw [hp]; simp [Phase.stage])
    rw [hp] at hdata
  · rw [stableAfter_of_not (by simpa [commitPoint, hp] using hi)]
    exact ⟨_, Sys.AtStage.of_setPhase hidle, hdata.copy hfits hi hst⟩
  · have hpoint : commitPoint s (.commit c) = true := by simpa [commitPoint, hp] using hi
    rw [stableAfter, if_pos hpoint]
    exact ⟨_, Sys.AtStage.of_setPhase hidle, hdata.commitPoint hfits hi⟩
  · rw [stableAfter_of_not (by simp [Cache.commitPoint, hp])]
    exact ⟨_, Sys.AtStage.of_setPhase hidle, hdata.install hfits hi hst⟩
  · rw [stableAfter_of_not (by simp [Cache.commitPoint, hp])]
    exact ⟨_, Sys.AtStage.of_setPhase hidle, hdata.clear hfits hi⟩

/-- **A step of the running system keeps the contents.** -/
theorem upStep (hctl : Ctl sb s S) (hlog : 0 < sb.numLogBlocks) (h : DataAt sb s cur stab)
    (hdis : Disciplined sb s a) (hstep : Cache.upStep sb s a = some t) :
    DataAt sb t (afterStep s a cur) (stableAfter s a cur stab) := by
  cases a with
  | acquire n =>
    obtain ⟨hn, st, hst, rfl⟩ := acquire_cases hstep
    obtain ⟨g, hg, hdata⟩ := h
    exact ⟨g, hg, hdata.acquire hn hst⟩
  | modify n d =>
    obtain ⟨b, hb, hacq, rfl⟩ := modify_cases hstep
    obtain ⟨g, hg, hdata⟩ := h
    exact ⟨g, hg, hdata.modify hb hacq⟩
  | release n =>
    obtain ⟨b, hb, -, rfl⟩ := release_cases hstep
    obtain ⟨g, hg, hdata⟩ := h
    exact ⟨g, hg, hdata.release hb hdis⟩
  | beginOp c =>
    obtain ⟨-, hp, ⟨-, -, rfl⟩ | ⟨-, rfl⟩⟩ := beginOp_cases hstep
    all_goals
      have hstage : (s.phase c).stage = .idle := by rcases hp with hp | ⟨hp, -⟩ <;> rw [hp] <;> rfl
      exact h.move (by rw [hstage]; rfl)
  | waitBegin c =>
    obtain ⟨hp, rfl⟩ := waitBegin_cases hstep
    exact h.move (by rw [hp]; rfl)
  | sync c n => exact h.sync hctl hdis hstep
  | syncNull n => exact absurd hdis id
  | endOp c =>
    obtain ⟨rm, hp, -, ⟨hout, rfl⟩ | ⟨-, -, r, -, rfl⟩⟩ := endOp_cases hstep
    · obtain ⟨g, hg, hdata⟩ := h
      obtain rfl := hg.idle_of_running hctl hp
      have hidle : ∀ c', c' ≠ c → (s.phase c').stage = .idle := fun c' _ => by
        simpa using hg.1 c'
      refine ⟨.copying 0, Sys.AtStage.of_setPhase hidle, ?_⟩
      exact { hdata with onDisk := ⟨hdata.onDisk, fun j hj => absurd hj (Nat.not_lt_zero j)⟩ }
    · exact h.move (by rw [hp]; rfl)
  | waitEnd c =>
    obtain ⟨hp, rfl⟩ := waitEnd_cases hstep
    exact h.move (by rw [hp]; rfl)
  | returnEnd c =>
    obtain ⟨hp, -, -, rfl⟩ := returnEnd_cases hstep
    exact h.move (l := s.log) (by rw [hp]; rfl)
  | commit c => exact h.commit hctl hlog hstep
  | clearCommitting c =>
    obtain ⟨hp, rfl⟩ := clearCommitting_cases hstep
    obtain ⟨g, hg, hdata⟩ := h
    obtain ⟨-, -, hquiet, -⟩ := hctl.of_commit (c := c) (by rw [hp]; rfl)
    obtain rfl := hg.eq_of_phase (c := c) (by rw [hp]; simp [Phase.stage])
    rw [hp] at hdata
    have hidle : ∀ c', c' ≠ c → (s.phase c').stage = .idle := fun c' hc =>
      Sys.AtStage.stage_of_quiet (by rw [hquiet c' hc]; rfl)
    exact ⟨.idle, Sys.AtStage.of_setPhase hidle, { hdata with }⟩
  | postEnd c =>
    obtain ⟨hp, -, r, -, rfl⟩ := postEnd_cases hstep
    exact h.move (by rw [hp]; rfl)
  | postBegin c =>
    obtain ⟨hp, r, -, rfl⟩ := postBegin_cases hstep
    exact h.move (by rw [hp]; rfl)
  | crash => cases hstep
  | recover => cases hstep

end DataAt

end OsKernel.Cache
