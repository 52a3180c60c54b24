import OsKernel.Cache.Helpers.Control

/-!
# The block cache — space accounting of the log

Between any two steps of any number of threads the log knows how much of
it is in use: the entries of the header and what the operations that run
have still to spend. It never hands out more than it has, so an entry
that `cache_sync` stores lies within the header block and has a log block
of its own, and no subtraction of the code wraps.
-/

namespace OsKernel.Cache

variable {sb : SuperBlock} {s t : Sys} {S : Finset ℕ}

/-- An entry that `cache_sync` stores lies below the size of the log. -/
theorem syncIndex_lt {c n : ℕ} (h : Ctl sb s S) (hsync : s.sync c n = some t) :
    syncIndex s.header n < s.log.logSize := by
  obtain ⟨rm, b, hp, -, -, -, ⟨hn, hrm, -⟩ | ⟨hn, -⟩⟩ := sync_cases hsync
  · have hidx := (syncIndex_eq_iff s.header n).2 hn
    have hused := (h.free (h.not_committing hp)).2
    have hle : rm ≤ ∑ c ∈ S, (s.phase c).rm := by
      have := Finset.add_sum_erase S (fun c => (s.phase c).rm) (h.mem_of_running hp)
      simp only [hp, Phase.rm_running] at this
      omega
    have := h.used_le
    omega
  · have hlt : s.header.entries.idxOf n < s.header.entries.length := List.idxOf_lt_length_of_mem hn
    rw [LogHeader.length_entries] at hlt
    exact hlt.trans_le h.num_le

/-- **Log space accounting**, in every reachable state of any
interleaving. `S` are the contexts that have begun and not ended; the
last two parts are the two subtractions from `log_used`, in
`cache_end_op` and after its header write. -/
theorem log_accounting {d : Disk} {tr : List (Sys × Act)}
    (hrun : Run (step sb) (bootSys sb d) tr s) (hup : s.boot = none) :
    ∃ S : Finset ℕ, (∀ c, c ∈ S ↔ ∃ rm, s.phase c = .running rm) ∧
      s.log.outstanding = S.card ∧
      (s.log.committing = false →
        s.log.logUsed = s.header.numBlocks + ∑ c ∈ S, (s.phase c).rm) ∧
      s.log.logUsed ≤ s.log.logSize ∧ s.log.logSize ≤ logMaxSize ∧
      (1 ≤ sb.numLogBlocks → s.log.logSize ≤ sb.numLogBlocks - 1) ∧
      s.header.entries.Nodup ∧
      (s.log.committing = true → s.log.outstanding = 0) ∧
      (∀ c n t, s.sync c n = some t → syncIndex s.header n < logMaxSize ∧
        (1 ≤ sb.numLogBlocks → syncIndex s.header n < sb.numLogBlocks - 1)) ∧
      (∀ c rm, s.phase c = .running rm → rm ≤ s.log.logUsed) ∧
      (∀ c i, s.phase c = .copying i → s.header.numBlocks ≤ s.log.logUsed) := by
  obtain ⟨S, h⟩ := ctl_of_run hrun hup
  have hmax : s.log.logSize ≤ logMaxSize := by rw [h.size]; exact logSize_le_max sb
  have hlog : 1 ≤ sb.numLogBlocks → s.log.logSize ≤ sb.numLogBlocks - 1 := by
    rw [h.size]; exact logSize_le_log
  refine ⟨S, fun c => ?_, h.outstanding, fun hcom => (h.free hcom).2, h.used_le, hmax, hlog,
    h.nodup, fun hcom => ?_, fun c n t hsync => ?_, fun c rm hp => h.rm_le_used hp,
    fun c i hp => ?_⟩
  · simpa only [Phase.role_running] using h.running c
  · rw [h.outstanding, h.eq_empty hcom, Finset.card_empty]
  · have hlt := syncIndex_lt h hsync
    exact ⟨hlt.trans_le hmax, fun hpos => hlt.trans_le (hlog hpos)⟩
  · obtain ⟨-, -, -, hspace⟩ := h.of_commit (c := c) (by rw [hp]; rfl)
    rw [hp] at hspace
    exact hspace.ge

/-- Two operations that share a block, one of them ended. -/
def overlapping : List Act :=
  [.recover, .beginOp 0, .beginOp 1, .acquire 100, .sync 0 100, .sync 1 100, .release 100,
    .acquire 101, .sync 1 101, .release 101, .endOp 0]

/-- The run of `overlapping` exists, and in the state it reaches 11 units
of the log are in use: two entries, and the nine that one operation may
still spend. -/
theorem log_accounting_overlapping :
    ∃ tr s, Run (step mkfsLayout) (bootSys mkfsLayout zeroDisk) tr s ∧
      s.log.logUsed = 11 ∧ s.header.numBlocks = 2 ∧ s.log.outstanding = 1 ∧
      s.log.logUsed ≤ s.log.logSize := by
  have hsome : (exec (step mkfsLayout) (bootSys mkfsLayout zeroDisk)
      overlapping).isSome = true := by decide +kernel
  obtain ⟨s, hs⟩ := Option.isSome_iff_exists.1 hsome
  have hval : (exec (step mkfsLayout) (bootSys mkfsLayout zeroDisk)
      overlapping).map (fun s => (s.boot, s.log.logUsed, s.header.numBlocks, s.log.outstanding)) =
      some (none, 11, 2, 1) := by decide +kernel
  rw [hs] at hval
  obtain ⟨hboot, hused, hnum, hout⟩ : s.boot = none ∧ s.log.logUsed = 11 ∧
      s.header.numBlocks = 2 ∧ s.log.outstanding = 1 := by simpa using hval
  obtain ⟨S, -, -, -, hle, -⟩ := log_accounting (Run.of_exec hs) hboot
  exact ⟨_, s, Run.of_exec hs, hused, hnum, hout, hle⟩

end OsKernel.Cache
