import OsKernel.Proc.Model.Pids

/-!
# Allocating a pid

`alloc_pid` looks at the bits from `last_pid + 1` up to the end and then from the
beginning up to `last_pid`, each once. It fails when all are set, and otherwise
takes the first that is clear (`PidMap.allocPid_cases`).
-/

namespace OsKernel.Proc.PidMap

variable {m : PidMap} {b : Cells} {i n pid : ℕ}

/-- `last_pid` is a pid, or `-1`. -/
def Ok (m : PidMap) : Prop := -1 ≤ m.lastPid ∧ m.lastPid < 256

theorem ok_init : init.Ok := ⟨le_rfl, by decide⟩

/-- Where the search begins. -/
def start (m : PidMap) : ℕ := (m.lastPid + 1).toNat

theorem Ok.start_le (h : m.Ok) : m.start ≤ 256 := by
  obtain ⟨hlo, hhi⟩ := h
  unfold start
  omega

/-- The bit is clear, and all bits before it are set, cyclically from
`last_pid + 1` on. -/
def FirstClear (m : PidMap) (i : ℕ) : Prop :=
  m.bitmap.get i = false ∧ ∃ d < 256, i = (m.start + d) % 256 ∧
    ∀ e < d, m.bitmap.get ((m.start + e) % 256) = true

/-- All bits are set. -/
def Full (m : PidMap) : Prop := ∀ i < 256, m.bitmap.get i = true

theorem not_full_of_clear (hi : i < 256) (h : m.bitmap.get i = false) : ¬m.Full := fun hfull =>
  Bool.false_ne_true (h.symm.trans (hfull i hi))

/-- **The loop** stops at the first clear bit, or at its bound. -/
theorem scan_spec (b : Cells) (n pid : ℕ) :
    pid ≤ scan b n pid ∧ scan b n pid ≤ pid + n ∧
      (∀ j, pid ≤ j → j < scan b n pid → b.get j = true) ∧
      (scan b n pid < pid + n → b.get (scan b n pid) = false) := by
  induction n generalizing pid with
  | zero => exact ⟨le_rfl, le_rfl, fun j hle hlt => absurd hlt (not_lt.2 hle),
      fun hlt => absurd hlt (lt_irrefl _)⟩
  | succ n ih =>
    unfold scan
    by_cases hget : b.get pid = true
    · rw [if_pos hget]
      obtain ⟨hle, hub, hset, hclear⟩ := ih (pid + 1)
      refine ⟨by omega, by omega, fun j hj hlt => ?_, fun hlt => hclear (by omega)⟩
      rcases eq_or_lt_of_le hj with rfl | hj
      · exact hget
      · exact hset j hj hlt
    · rw [if_neg hget]
      exact ⟨le_rfl, by omega, fun j hle hlt => absurd hlt (not_lt.2 hle),
        fun _ => Bool.eq_false_iff.2 hget⟩

/-- Where the loops stop: at the first clear bit, or there is none. -/
theorem candidate_cases (h : m.Ok) :
    (m.candidate < 256 ∧ m.FirstClear m.candidate) ∨
      m.Full ∧ (m.candidate = 256 ∨ m.bitmap.get m.candidate = true) := by
  have hstart := h.start_le
  obtain ⟨hle, hub, hset, hclear⟩ := scan_spec m.bitmap (256 - m.start) m.start
  obtain ⟨-, hub', hset', hclear'⟩ := scan_spec m.bitmap m.start 0
  rw [Nat.zero_add] at hub' hclear'
  have hcand : m.candidate = if scan m.bitmap (256 - m.start) m.start = 256
      then scan m.bitmap m.start 0 else scan m.bitmap (256 - m.start) m.start := rfl
  by_cases hend : scan m.bitmap (256 - m.start) m.start = 256
  · rw [if_pos hend] at hcand
    rw [hcand]
    -- the bits from the start of the search to the end are set
    have hhigh : ∀ j, m.start ≤ j → j < 256 → m.bitmap.get j = true :=
      fun j hj hlt => hset j hj (by omega)
    by_cases hall : scan m.bitmap m.start 0 = m.start
    · refine .inr ⟨fun i hi => ?_, ?_⟩
      · rcases Nat.lt_or_ge i m.start with hlt | hge
        · exact hset' i (Nat.zero_le _) (by omega)
        · exact hhigh i hge hi
      · rw [hall]
        rcases eq_or_lt_of_le hstart with heq | hlt
        · exact .inl heq
        · exact .inr (hhigh _ le_rfl hlt)
    · refine .inl ⟨by omega, hclear' (by omega), 256 - m.start + scan m.bitmap m.start 0,
        by omega, by omega, fun e he => ?_⟩
      rcases Nat.lt_or_ge (m.start + e) 256 with hlt | hge
      · rw [Nat.mod_eq_of_lt hlt]
        exact hhigh _ (Nat.le_add_right _ _) hlt
      · exact hset' _ (Nat.zero_le _) (by omega)
  · rw [if_neg hend] at hcand
    rw [hcand]
    refine .inl ⟨by omega, hclear (by omega), scan m.bitmap (256 - m.start) m.start - m.start,
      by omega, by omega, fun e he => ?_⟩
    rw [Nat.mod_eq_of_lt (by omega)]
    exact hset _ (Nat.le_add_right _ _) (by omega)

/-- **`alloc_pid` fails when all bits are set, and otherwise takes the first clear
one.** -/
theorem allocPid_cases (h : m.Ok) :
    (m.Full ∧ m.allocPid = (-1, m)) ∨
      ∃ i < 256, m.FirstClear i ∧ m.allocPid = ((i : ℤ), ⟨m.bitmap.set i, i⟩) := by
  rcases candidate_cases h with ⟨hlt, hfirst⟩ | ⟨hfull, hstop⟩
  · refine .inr ⟨m.candidate, hlt, hfirst, if_pos ⟨?_, hfirst.1⟩⟩
    exact fun heq => hlt.ne heq.symm
  · refine .inl ⟨hfull, if_neg ?_⟩
    rintro ⟨hne, hclear⟩
    rcases hstop with heq | hget
    · exact hne heq.symm
    · rw [hclear] at hget
      cases hget

theorem FirstClear.not_full (h : m.FirstClear i) (hi : i < 256) : ¬m.Full := fun hfull => by
  have hset := hfull i hi
  rw [h.1] at hset
  cases hset

theorem ok_of_lt (hi : i < 256) (b : Cells) : Ok ⟨b, i⟩ := by
  change -1 ≤ (i : ℤ) ∧ (i : ℤ) < 256
  omega

/-- `alloc_pid` leaves a `last_pid` that is in range. -/
theorem Ok.allocPid (h : m.Ok) : m.allocPid.2.Ok := by
  rcases allocPid_cases h with ⟨-, heq⟩ | ⟨i, hi, -, heq⟩
  · rw [heq]
    exact h
  · rw [heq]
    exact ok_of_lt hi _

end OsKernel.Proc.PidMap
