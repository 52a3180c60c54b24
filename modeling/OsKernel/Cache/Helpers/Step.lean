import OsKernel.Cache.Model.Log
import OsKernel.Cache.Helpers.Header

/-!
# Helpers — what each step of the log does

One inversion lemma for each action of `Model/Log.lean`: the conditions
under which it is enabled and the state it leads to. Every invariant of
the log is proved from these and unfolds no step function.
-/

namespace OsKernel.Cache

open Function

variable {sb : SuperBlock} {s t : Sys} {c n : ℕ}

@[simp] theorem setPhase_self (s : Sys) (c : ℕ) (p : Phase) : (s.setPhase c p).phase c = p := by
  simp [Sys.setPhase]

theorem setPhase_of_ne {c c' : ℕ} (h : c' ≠ c) (s : Sys) (p : Phase) :
    (s.setPhase c p).phase c' = s.phase c' := by
  simp [Sys.setPhase, h]

@[simp] theorem setPhase_log (s : Sys) (c : ℕ) (p : Phase) : (s.setPhase c p).log = s.log := rfl

@[simp] theorem setPhase_header (s : Sys) (c : ℕ) (p : Phase) :
    (s.setPhase c p).header = s.header := rfl

theorem acquire_cases (h : s.acquire n = some t) :
    n < 2 ^ 64 ∧ ∃ st, cacheAcquire n s.store = some st ∧ t = { s with store := st } := by
  unfold Sys.acquire at h
  split_ifs at h with hn
  obtain ⟨st, hst, rfl⟩ := Option.map_eq_some_iff.1 h
  exact ⟨hn, st, hst, rfl⟩

theorem modify_cases {d : BlockData} (h : s.modify n d = some t) :
    ∃ b, s.store.get n = some b ∧ b.acquired = true ∧
      t = { s with
        store := s.store.modify n (Block.setData d)
        unsynced := update s.unsynced n true } := by
  unfold Sys.modify at h
  split at h
  · rename_i b hb
    split_ifs at h with ha
    exact ⟨b, hb, ha, (Option.some.inj h).symm⟩
  · cases h

theorem release_cases (h : s.release n = some t) :
    ∃ b, s.store.get n = some b ∧ b.acquired = true ∧
      t = { s with store := cacheRelease n s.store } := by
  unfold Sys.release at h
  split at h
  · rename_i b hb
    split_ifs at h with ha
    exact ⟨b, hb, ha, (Option.some.inj h).symm⟩
  · cases h

/-- The condition on which `cache_begin_op` lets an operation start. -/
def Sys.HasRoom (s : Sys) : Prop :=
  addU32 s.log.logUsed opMaxNumBlocks ≤ s.log.logSize ∧ s.log.committing = false

instance (s : Sys) : Decidable s.HasRoom := inferInstanceAs (Decidable (_ ∧ _))

theorem beginOp_cases (h : s.beginOp c = some t) :
    s.log.lock = none ∧ (s.phase c = .idle ∨ (s.phase c = .beginWait ∧
      s.log.beginSem.lock = none ∧ c ∉ s.log.beginSem.sleeplist)) ∧
    ((¬ s.HasRoom ∧ s.log.beginSem.lock = none ∧ t = { s with log := { s.log with
        beginSem := { s.log.beginSem with lock := some c } } }.setPhase c .beginLocked) ∨
     (s.HasRoom ∧ t = { s with log := { s.log with
        logUsed := addU32 s.log.logUsed opMaxNumBlocks
        outstanding := addU32 s.log.outstanding 1 } }.setPhase c (.running opMaxNumBlocks))) := by
  unfold Sys.beginOp at h
  split at h
  · rename_i hguard
    refine ⟨hguard.1, hguard.2, ?_⟩
    split_ifs at h with hcond
    · left
      have hroom : ¬ s.HasRoom := by
        rintro ⟨hle, hcom⟩
        rcases hcond with hlt | hbusy
        · exact absurd hle (not_le.2 hlt)
        · rw [hcom] at hbusy
          cases hbusy
      obtain ⟨sem, hsem, rfl⟩ := Option.map_eq_some_iff.1 h
      unfold Semaphore.lockSem at hsem
      split_ifs at hsem with hlock
      obtain rfl := Option.some.inj hsem
      exact ⟨hroom, hlock, rfl⟩
    · right
      rw [not_or, Bool.not_eq_true, not_lt] at hcond
      exact ⟨hcond, (Option.some.inj h).symm⟩
  · cases h

theorem waitBegin_cases (h : s.waitBegin c = some t) :
    s.phase c = .beginLocked ∧ t = { s with log := { s.log with
      beginSem := s.log.beginSem.waitSem c } }.setPhase c .beginWait := by
  unfold Sys.waitBegin at h
  split_ifs at h with hp
  exact ⟨hp, (Option.some.inj h).symm⟩

/-- The header with block `n` as its new last entry. -/
def LogHeader.push (h : LogHeader) (n : ℕ) : LogHeader where
  numBlocks := h.numBlocks + 1
  blockNo := update h.blockNo h.numBlocks n

@[simp] theorem LogHeader.numBlocks_push (h : LogHeader) (n : ℕ) :
    (h.push n).numBlocks = h.numBlocks + 1 := rfl

@[simp] theorem LogHeader.entries_push (h : LogHeader) (n : ℕ) :
    (h.push n).entries = h.entries ++ [n] := by
  simp only [LogHeader.entries, LogHeader.push, List.range_succ, List.map_append, List.map_cons,
    List.map_nil, update_self]
  congr 1
  refine List.map_congr_left fun j hj => ?_
  exact update_of_ne (List.mem_range.1 hj).ne _ _

theorem syncIndex_eq_iff (h : LogHeader) (n : ℕ) :
    syncIndex h n = h.numBlocks ↔ n ∉ h.entries := by
  rw [syncIndex, ← LogHeader.length_entries, List.idxOf_eq_length_iff]

/-- The entry `cache_sync` finds already holds the block. -/
theorem blockNo_syncIndex {h : LogHeader} (hn : n ∈ h.entries) :
    h.blockNo (syncIndex h n) = n := by
  have hlt : h.entries.idxOf n < h.entries.length := List.idxOf_lt_length_of_mem hn
  have hget : h.entries[h.entries.idxOf n]? = some n := by
    rw [List.getElem?_eq_getElem hlt, List.getElem_idxOf]
  rw [LogHeader.entries_getElem? (by simpa using hlt)] at hget
  exact Option.some.inj hget

/-- `cache_sync` absorbs a block that the header lists, or appends it at
the cost of one unit of the operation's budget. -/
theorem sync_cases (h : s.sync c n = some t) :
    ∃ rm b, s.phase c = .running rm ∧ s.store.get n = some b ∧ s.log.lock = none ∧
      b.acquired = true ∧
      ((n ∉ s.header.entries ∧ 0 < rm ∧
        t = { s with
          header := s.header.push n
          store := s.store.modify n (Block.setPinned true)
          unsynced := update s.unsynced n false }.setPhase c (.running (rm - 1))) ∨
       (n ∈ s.header.entries ∧ t = { s with unsynced := update s.unsynced n false })) := by
  unfold Sys.sync at h
  split at h
  · rename_i rm b hp hb
    split at h
    · rename_i hguard
      simp only at h
      refine ⟨rm, b, hp, hb, hguard.1, hguard.2, ?_⟩
      split at h
      · rename_i hi
        split_ifs at h with hrm
        rw [hi] at h
        exact Or.inl ⟨(syncIndex_eq_iff _ _).1 hi, Nat.pos_of_ne_zero hrm,
          (Option.some.inj h).symm⟩
      · rename_i hi
        have hmem : n ∈ s.header.entries := by
          by_contra hn
          exact hi ((syncIndex_eq_iff _ _).2 hn)
        have hself : update s.header.blockNo (syncIndex s.header n) n =
            s.header.blockNo := by
          rw [update_eq_self_iff]
          exact (blockNo_syncIndex hmem).symm
        rw [hself] at h
        exact Or.inr ⟨hmem, (Option.some.inj h).symm⟩
    · cases h
  · cases h

theorem syncNull_cases (h : s.syncNull n = some t) :
    ∃ b, s.store.get n = some b ∧ b.acquired = true ∧
      t = { s with
        store := deviceWrite n s.store
        unsynced := update s.unsynced n false } := by
  unfold Sys.syncNull at h
  split at h
  · rename_i b hb
    split_ifs at h with ha
    exact ⟨b, hb, ha, (Option.some.inj h).symm⟩
  · cases h

theorem endOp_cases (h : s.endOp c = some t) :
    ∃ rm, s.phase c = .running rm ∧ s.log.lock = none ∧
      ((subU32 s.log.outstanding 1 = 0 ∧
        t = { s with log := { s.log with
          logUsed := subU32 s.log.logUsed rm
          outstanding := subU32 s.log.outstanding 1
          committing := true } }.setPhase c (.copying 0)) ∨
       (subU32 s.log.outstanding 1 ≠ 0 ∧ s.log.endSem.lock = none ∧
        ∃ r, s.log.beginSem.postAllSem = some r ∧
        t = { s with log := { s.log with
          logUsed := subU32 s.log.logUsed rm
          outstanding := subU32 s.log.outstanding 1
          beginSem := r.1
          endSem := { s.log.endSem with lock := some c } } }.setPhase c .endLocked)) := by
  unfold Sys.endOp at h
  split at h
  · rename_i rm hp
    split_ifs at h with hlock
    simp only at h
    refine ⟨rm, hp, hlock, ?_⟩
    split_ifs at h with hout
    · exact Or.inl ⟨hout, (Option.some.inj h).symm⟩
    · simp only [Option.bind_eq_bind, Option.bind_eq_some_iff] at h
      obtain ⟨r, hr, sem, hsem, ht⟩ := h
      unfold Semaphore.lockSem at hsem
      split_ifs at hsem with hel
      obtain rfl := Option.some.inj hsem
      exact Or.inr ⟨hout, hel, r, hr, (Option.some.inj ht).symm⟩
  · cases h

theorem waitEnd_cases (h : s.waitEnd c = some t) :
    s.phase c = .endLocked ∧ t = { s with log := { s.log with
      endSem := s.log.endSem.waitSem c } }.setPhase c .endWait := by
  unfold Sys.waitEnd at h
  split_ifs at h with hp
  exact ⟨hp, (Option.some.inj h).symm⟩

theorem returnEnd_cases (h : s.returnEnd c = some t) :
    s.phase c = .endWait ∧ s.log.endSem.lock = none ∧ c ∉ s.log.endSem.sleeplist ∧
      t = s.setPhase c .idle := by
  unfold Sys.returnEnd at h
  split_ifs at h with hg
  exact ⟨hg.1, hg.2.1, hg.2.2, (Option.some.inj h).symm⟩

/-- The four kinds of stretches of a commit, each around one device
write. -/
theorem commit_cases (h : s.commit sb c = some t) :
    (∃ i st, s.phase c = .copying i ∧ i < s.header.numBlocks ∧
      copyToLog sb s.header i s.store = some st ∧
      t = { s with store := st }.setPhase c (.copying (i + 1))) ∨
    (∃ i, s.phase c = .copying i ∧ s.header.numBlocks ≤ i ∧
      t = { s with
        store := { s.store with disk := writeHeader sb s.header s.store.disk }
        log := { s.log with logUsed := subU32 s.log.logUsed s.header.numBlocks }
        }.setPhase c (.installing 0)) ∨
    (∃ i st, s.phase c = .installing i ∧ i < s.header.numBlocks ∧
      installHome sb s.header i s.store = some st ∧
      t = { s with store := st }.setPhase c (.installing (i + 1))) ∨
    (∃ i, s.phase c = .installing i ∧ s.header.numBlocks ≤ i ∧
      t = { s with
        header := { s.header with numBlocks := 0 }
        store := { s.store with
          disk := writeHeader sb { s.header with numBlocks := 0 } s.store.disk }
        }.setPhase c .installed) := by
  unfold Sys.commit at h
  split at h
  · rename_i i hp
    split_ifs at h with hi
    · obtain ⟨st, hst, rfl⟩ := Option.map_eq_some_iff.1 h
      exact Or.inl ⟨i, st, hp, hi, hst, rfl⟩
    · exact Or.inr (Or.inl ⟨i, hp, not_lt.1 hi, (Option.some.inj h).symm⟩)
  · rename_i i hp
    split_ifs at h with hi
    · obtain ⟨st, hst, rfl⟩ := Option.map_eq_some_iff.1 h
      exact Or.inr (Or.inr (Or.inl ⟨i, st, hp, hi, hst, rfl⟩))
    · exact Or.inr (Or.inr (Or.inr ⟨i, hp, not_lt.1 hi, (Option.some.inj h).symm⟩))
  · cases h

theorem clearCommitting_cases (h : s.clearCommitting c = some t) :
    s.phase c = .installed ∧
      t = { s with log := { s.log with committing := false } }.setPhase c .committed := by
  unfold Sys.clearCommitting at h
  split_ifs at h with hp
  exact ⟨hp, (Option.some.inj h).symm⟩

theorem postEnd_cases (h : s.postEnd c = some t) :
    s.phase c = .committed ∧ s.log.lock = none ∧ ∃ r, s.log.endSem.postAllSem = some r ∧
      t = { s with log := { s.log with lock := some c, endSem := r.1 } }.setPhase c .posted := by
  unfold Sys.postEnd at h
  split_ifs at h with hg
  obtain ⟨r, hr, rfl⟩ := Option.map_eq_some_iff.1 h
  exact ⟨hg.1, hg.2, r, hr, rfl⟩

theorem postBegin_cases (h : s.postBegin c = some t) :
    s.phase c = .posted ∧ ∃ r, s.log.beginSem.postAllSem = some r ∧
      t = { s with log := { s.log with lock := none, beginSem := r.1 } }.setPhase c .idle := by
  unfold Sys.postBegin at h
  split_ifs at h with hp
  obtain ⟨r, hr, rfl⟩ := Option.map_eq_some_iff.1 h
  exact ⟨hp, r, hr, rfl⟩

theorem recover_cases {i : ℕ} (h : s.recover sb i = some t) :
    (i < s.header.numBlocks ∧ ∃ st, installHome sb s.header i s.store = some st ∧
      t = { s with store := st, boot := some (i + 1) }) ∨
    (s.header.numBlocks ≤ i ∧
      t = { s with
        header := { s.header with numBlocks := 0 }
        store := { s.store with
          disk := writeHeader sb { s.header with numBlocks := 0 } s.store.disk }
        boot := none }) := by
  unfold Sys.recover at h
  split_ifs at h with hi
  · obtain ⟨st, hst, rfl⟩ := Option.map_eq_some_iff.1 h
    exact Or.inl ⟨hi, st, hst, rfl⟩
  · exact Or.inr ⟨not_lt.1 hi, (Option.some.inj h).symm⟩

/-- **The three kinds of steps**: a crash, a stretch of recovery, and a
step of the running system. -/
theorem step_cases {a : Act} (h : step sb s a = some t) :
    (a = .crash ∧ t = bootSys sb s.store.disk) ∨
    (a = .recover ∧ ∃ i, s.boot = some i ∧ s.recover sb i = some t) ∨
    (s.boot = none ∧ upStep sb s a = some t) := by
  cases hboot : s.boot with
  | none =>
    cases a <;> simp only [step, hboot] at h
    case crash => exact Or.inl ⟨rfl, (Option.some.inj h).symm⟩
    case recover => cases h
    all_goals exact Or.inr (Or.inr ⟨rfl, h⟩)
  | some i =>
    cases a <;> simp only [step, hboot] at h
    case crash => exact Or.inl ⟨rfl, (Option.some.inj h).symm⟩
    case recover => exact Or.inr (Or.inl ⟨rfl, i, rfl, h⟩)
    all_goals cases h

/-- The steps that are about the log and the threads alone. -/
def Act.quiet : Act → Bool
  | .beginOp _ | .waitBegin _ | .endOp _ | .waitEnd _ | .returnEnd _ | .clearCommitting _
  | .postEnd _ | .postBegin _ => true
  | _ => false

/-- They leave the blocks and the header. -/
theorem upStep_quiet {a : Act} (h : upStep sb s a = some t) (ha : a.quiet = true) :
    t.store = s.store ∧ t.header = s.header ∧ t.boot = s.boot := by
  cases a with
  | beginOp c =>
    obtain ⟨-, -, ⟨-, -, rfl⟩ | ⟨-, rfl⟩⟩ := beginOp_cases h <;> exact ⟨rfl, rfl, rfl⟩
  | waitBegin c => obtain ⟨-, rfl⟩ := waitBegin_cases h; exact ⟨rfl, rfl, rfl⟩
  | endOp c =>
    obtain ⟨rm, -, -, ⟨-, rfl⟩ | ⟨-, -, r, -, rfl⟩⟩ := endOp_cases h <;> exact ⟨rfl, rfl, rfl⟩
  | waitEnd c => obtain ⟨-, rfl⟩ := waitEnd_cases h; exact ⟨rfl, rfl, rfl⟩
  | returnEnd c => obtain ⟨-, -, -, rfl⟩ := returnEnd_cases h; exact ⟨rfl, rfl, rfl⟩
  | clearCommitting c => obtain ⟨-, rfl⟩ := clearCommitting_cases h; exact ⟨rfl, rfl, rfl⟩
  | postEnd c => obtain ⟨-, -, r, -, rfl⟩ := postEnd_cases h; exact ⟨rfl, rfl, rfl⟩
  | postBegin c => obtain ⟨-, r, -, rfl⟩ := postBegin_cases h; exact ⟨rfl, rfl, rfl⟩
  | _ => cases ha

/-- A step of the running system does not boot. -/
theorem upStep_boot {a : Act} (h : upStep sb s a = some t) : t.boot = s.boot := by
  by_cases ha : a.quiet = true
  · exact (upStep_quiet h ha).2.2
  · cases a with
    | acquire n => obtain ⟨-, st, -, rfl⟩ := acquire_cases h; rfl
    | modify n d => obtain ⟨b, -, -, rfl⟩ := modify_cases h; rfl
    | release n => obtain ⟨b, -, -, rfl⟩ := release_cases h; rfl
    | sync c n =>
      obtain ⟨rm, b, -, -, -, -, ⟨-, -, rfl⟩ | ⟨-, rfl⟩⟩ := sync_cases h <;> rfl
    | syncNull n => obtain ⟨b, -, -, rfl⟩ := syncNull_cases h; rfl
    | commit c =>
      obtain ⟨i, st, -, -, -, rfl⟩ | ⟨i, -, -, rfl⟩ | ⟨i, st, -, -, -, rfl⟩ | ⟨i, -, -, rfl⟩ :=
        commit_cases h <;> rfl
    | crash | recover => cases h
    | _ => exact absurd rfl ha

end OsKernel.Cache
