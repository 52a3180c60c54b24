import OsKernel.Cache.Helpers.Step
import OsKernel.Common.Run

/-!
# Helpers — the counters of the log

`Ctl` is the invariant of the counters in `struct LOG`: the space in use
is the space reserved by the operations that run plus the entries of the
header, and a commit runs alone. It reads of a thread's phase only its
`Role`, so that a step which changes no role, no counter and no entry
keeps it by `Ctl.congr`; the other steps have a lemma each.
-/

namespace OsKernel.Cache

/-! ## Arithmetic of the counters -/

theorem addU32_eq {a b : ℕ} (h : a + b < 2 ^ 32) : addU32 a b = a + b := Nat.mod_eq_of_lt h

theorem subU32_eq {a b : ℕ} (hb : b ≤ a) (ha : a < 2 ^ 32) : subU32 a b = a - b := by
  unfold subU32
  omega

theorem logSize_le_max (sb : SuperBlock) : (initLog sb).logSize ≤ logMaxSize := min_le_left _ _

theorem logSize_le_log {sb : SuperBlock} (h : 1 ≤ sb.numLogBlocks) :
    (initLog sb).logSize ≤ sb.numLogBlocks - 1 := by
  refine (min_le_right _ _).trans ?_
  unfold subU32
  omega

/-! ## Roles -/

/-- What the counters of the log see of a thread. -/
inductive Role where
  | quiet
  | running (rm : ℕ)
  /-- Committing, before the header is written. -/
  | early
  /-- Committing, after the header is written. -/
  | late
  /-- Committing, after the header is cleared. -/
  | done

/-- The space in use while a thread of this role commits, where the
header has `num` entries. -/
def Role.Commits : Role → (used num : ℕ) → Prop
  | .early, used, num => used = num
  | .late, used, _ => used = 0
  | .done, used, num => used = 0 ∧ num = 0
  | _, _, _ => False

/-- Does a thread of this role commit? -/
def Role.isCommit : Role → Bool
  | .early | .late | .done => true
  | _ => false

/-- The role of a phase. -/
def Phase.role : Phase → Role
  | .running rm => .running rm
  | .copying _ => .early
  | .installing _ => .late
  | .installed => .done
  | _ => .quiet

/-- `ctx->rm` of an operation that has begun and not ended. -/
def Phase.rm : Phase → ℕ
  | .running rm => rm
  | _ => 0

@[simp] theorem Phase.rm_running (rm : ℕ) : (Phase.running rm).rm = rm := rfl

variable {rm : ℕ} {p : Phase}

theorem Phase.rm_congr {q : Phase} (h : p.role = q.role) : p.rm = q.rm := by
  cases p <;> cases q <;> simp_all [Phase.role, Phase.rm]

theorem Phase.role_running : p.role = .running rm ↔ p = .running rm := by
  cases p <;> simp [Phase.role]

/-- Every thread keeps its role when one moves between phases of the same
role. -/
theorem role_setPhase {s : Sys} {c : ℕ} (h : p.role = (s.phase c).role) (c' : ℕ) :
    ((s.setPhase c p).phase c').role = (s.phase c').role := by
  by_cases hc : c' = c
  · rw [hc, setPhase_self, h]
  · rw [setPhase_of_ne hc]

/-! ## The invariant -/

/-- **The counters of the log.** `S` are the operations begun and not yet
ended. -/
structure Ctl (sb : SuperBlock) (s : Sys) (S : Finset ℕ) : Prop where
  running : ∀ c, c ∈ S ↔ ∃ rm, (s.phase c).role = .running rm
  outstanding : s.log.outstanding = S.card
  size : s.log.logSize = (initLog sb).logSize
  nodup : s.header.entries.Nodup
  rm_le : ∀ c, (s.phase c).rm ≤ opMaxNumBlocks
  /-- Each operation has reserved its share. -/
  reserved : opMaxNumBlocks * S.card ≤ s.log.logUsed
  used_le : s.log.logUsed ≤ s.log.logSize
  num_le : s.header.numBlocks ≤ s.log.logSize
  /-- Outside of a commit nobody commits, and the space is accounted for. -/
  free : s.log.committing = false →
    (∀ c, (s.phase c).role.isCommit = false) ∧
    s.log.logUsed = s.header.numBlocks + ∑ c ∈ S, (s.phase c).rm
  /-- What the last operation leaves is committed. -/
  rest : s.log.committing = false → S = ∅ → s.header.numBlocks = 0
  /-- A commit runs alone, and gives the space of the entries back when
  it writes the header. -/
  busy : s.log.committing = true → ∃ c, (∀ c', c' ≠ c → (s.phase c').role = .quiet) ∧
    (s.phase c).role.Commits s.log.logUsed s.header.numBlocks

namespace Ctl

variable {sb : SuperBlock} {s t : Sys} {S : Finset ℕ} {c n : ℕ}

/-- A step that changes no role, no counter and no entry keeps the
invariant. -/
theorem congr (h : Ctl sb s S) (hrole : ∀ c, (t.phase c).role = (s.phase c).role)
    (hheader : t.header = s.header) (hout : t.log.outstanding = s.log.outstanding)
    (hsize : t.log.logSize = s.log.logSize) (hused : t.log.logUsed = s.log.logUsed)
    (hcom : t.log.committing = s.log.committing) : Ctl sb t S := by
  have hrm : ∀ c, (t.phase c).rm = (s.phase c).rm := fun c => Phase.rm_congr (hrole c)
  constructor
  · simpa only [hrole] using h.running
  · rw [hout, h.outstanding]
  · rw [hsize, h.size]
  · rw [hheader]; exact h.nodup
  · simpa only [hrm] using h.rm_le
  · rw [hused]; exact h.reserved
  · rw [hused, hsize]; exact h.used_le
  · rw [hheader, hsize]; exact h.num_le
  · simpa only [hcom, hused, hheader, hrole, hrm] using h.free
  · simpa only [hcom, hheader] using h.rest
  · simpa only [hcom, hused, hheader, hrole] using h.busy

/-- The log is too small for the counters to wrap. -/
theorem used_lt (h : Ctl sb s S) : s.log.logUsed ≤ logMaxSize := by
  refine h.used_le.trans ?_
  rw [h.size]
  exact logSize_le_max sb

theorem card_le (h : Ctl sb s S) : S.card ≤ s.log.logUsed := by
  have := h.reserved
  simp only [opMaxNumBlocks] at this
  omega

theorem mem_of_running (h : Ctl sb s S) (hp : s.phase c = .running rm) : c ∈ S :=
  (h.running c).2 ⟨rm, by rw [hp]; rfl⟩

/-- An operation that runs keeps every commit away. -/
theorem not_committing (h : Ctl sb s S) (hp : s.phase c = .running rm) :
    s.log.committing = false := by
  by_contra hcom
  obtain ⟨c', hquiet, hc'⟩ := h.busy (by simpa using hcom)
  have hrole : (s.phase c).role = .running rm := by rw [hp]; rfl
  by_cases hne : c = c'
  · subst hne
    rw [hrole] at hc'
    exact hc'
  · rw [hquiet c hne] at hrole
    cases hrole

/-- While a commit runs no operation does. -/
theorem eq_empty (h : Ctl sb s S) (hcom : s.log.committing = true) : S = ∅ := by
  refine Finset.eq_empty_of_forall_notMem fun c hc => ?_
  obtain ⟨rm, hrm⟩ := (h.running c).1 hc
  rw [h.not_committing (Phase.role_running.1 hrm)] at hcom
  cases hcom

/-- The thread that commits, and the space in use then. -/
theorem of_commit (h : Ctl sb s S) (hr : (s.phase c).role.isCommit = true) :
    s.log.committing = true ∧ S = ∅ ∧ (∀ c', c' ≠ c → (s.phase c').role = .quiet) ∧
      (s.phase c).role.Commits s.log.logUsed s.header.numBlocks := by
  have hcom : s.log.committing = true := by
    by_contra hcom
    rw [(h.free (by simpa using hcom)).1 c] at hr
    cases hr
  obtain ⟨c', hquiet, hc'⟩ := h.busy hcom
  obtain rfl : c = c' := by
    by_contra hne
    rw [hquiet c hne] at hr
    cases hr
  exact ⟨hcom, h.eq_empty hcom, hquiet, hc'⟩

/-! ## The steps that change a role -/

theorem sum_setPhase_of_notMem (p : Phase) (hc : c ∉ S) :
    ∑ c' ∈ S, ((s.setPhase c p).phase c').rm = ∑ c' ∈ S, (s.phase c').rm := by
  refine Finset.sum_congr rfl fun c' hc' => ?_
  rw [setPhase_of_ne (ne_of_mem_of_not_mem hc' hc)]

section

variable (h : Ctl sb s S)

include h

/-- An idle or woken thread starts its operation. -/
theorem begin (hrole : (s.phase c).role = .quiet)
    (hsize : addU32 s.log.logUsed opMaxNumBlocks ≤ s.log.logSize) (hcom : s.log.committing = false) :
    Ctl sb ({ s with log := { s.log with
      logUsed := addU32 s.log.logUsed opMaxNumBlocks
      outstanding := addU32 s.log.outstanding 1 } }.setPhase c (.running opMaxNumBlocks))
      (insert c S) := by
  have hused := h.used_lt
  have hcard := h.card_le
  have hcS : c ∉ S := by
    intro hc
    obtain ⟨rm, hrm⟩ := (h.running c).1 hc
    rw [hrole] at hrm
    cases hrm
  have hadd : addU32 s.log.logUsed opMaxNumBlocks = s.log.logUsed + opMaxNumBlocks :=
    addU32_eq (by simp only [logMaxSize, opMaxNumBlocks] at *; omega)
  have hout : addU32 s.log.outstanding 1 = s.log.outstanding + 1 :=
    addU32_eq (by rw [h.outstanding]; simp only [logMaxSize] at *; omega)
  rw [hadd] at hsize ⊢
  rw [hout]
  constructor
  · intro c'
    by_cases hc : c' = c
    · subst hc
      simp [Phase.role]
    · rw [setPhase_of_ne hc, Finset.mem_insert]
      simpa [hc] using h.running c'
  · simp [h.outstanding, Finset.card_insert_of_notMem hcS]
  · exact h.size
  · exact h.nodup
  · intro c'
    by_cases hc : c' = c
    · subst hc
      simp [Phase.rm]
    · rw [setPhase_of_ne hc]
      exact h.rm_le c'
  · have := h.reserved
    simp only [setPhase_log, Finset.card_insert_of_notMem hcS, opMaxNumBlocks] at *
    omega
  · exact hsize
  · exact h.num_le
  · intro _
    obtain ⟨hnone, heq⟩ := h.free hcom
    refine ⟨fun c' => ?_, ?_⟩
    · by_cases hc : c' = c
      · subst hc
        simp [Phase.role, Role.isCommit]
      · rw [setPhase_of_ne hc]
        exact hnone c'
    · rw [Finset.sum_insert hcS, sum_setPhase_of_notMem _ hcS, setPhase_self]
      simp only [setPhase_log, setPhase_header, Phase.rm_running]
      omega
  · intro _ hempty
    exact absurd hempty (Finset.insert_ne_empty c S)
  · intro hbusy
    rw [setPhase_log, hcom] at hbusy
    cases hbusy

/-- A sync appends an entry out of the operation's own budget. -/
theorem append {st : Store} {u : ℕ → Bool} (hp : s.phase c = .running rm) (hrm : 0 < rm)
    (hn : n ∉ s.header.entries) :
    Ctl sb ({ s with header := s.header.push n, store := st, unsynced := u
      }.setPhase c (.running (rm - 1))) S := by
  have hcS := h.mem_of_running hp
  obtain ⟨hnone, heq⟩ := h.free (h.not_committing hp)
  have hsplit := Finset.add_sum_erase S (fun c => (s.phase c).rm) hcS
  have hrmp : (s.phase c).rm = rm := by rw [hp]; rfl
  constructor
  · intro c'
    by_cases hc : c' = c
    · subst hc
      simp [Phase.role, hcS]
    · rw [setPhase_of_ne hc]
      exact h.running c'
  · exact h.outstanding
  · exact h.size
  · simp only [setPhase_header, LogHeader.entries_push]
    exact List.nodup_append'.2 ⟨h.nodup, List.nodup_singleton n, by simpa using hn⟩
  · intro c'
    by_cases hc : c' = c
    · subst hc
      have := h.rm_le c'
      rw [hrmp] at this
      rw [setPhase_self, Phase.rm_running]
      omega
    · rw [setPhase_of_ne hc]
      exact h.rm_le c'
  · exact h.reserved
  · exact h.used_le
  · have := h.used_le
    simp only [setPhase_header, LogHeader.numBlocks_push, setPhase_log] at *
    omega
  · intro _
    refine ⟨fun c' => ?_, ?_⟩
    · by_cases hc : c' = c
      · subst hc
        simp [Phase.role, Role.isCommit]
      · rw [setPhase_of_ne hc]
        exact hnone c'
    · rw [← Finset.add_sum_erase S _ hcS, sum_setPhase_of_notMem _ (Finset.notMem_erase c S),
        setPhase_self]
      simp only [setPhase_header, LogHeader.numBlocks_push, setPhase_log, Phase.rm_running] at *
      omega
  · intro _ hempty
    rw [hempty] at hcS
    exact absurd hcS (Finset.notMem_empty c)
  · intro hbusy
    rw [setPhase_log, h.not_committing hp] at hbusy
    cases hbusy

/-- The budget of an operation is part of the space in use. -/
theorem rm_le_used (hp : s.phase c = .running rm) : rm ≤ s.log.logUsed := by
  have hsplit := Finset.add_sum_erase S (fun c => (s.phase c).rm) (h.mem_of_running hp)
  have := (h.free (h.not_committing hp)).2
  have hrmp : (s.phase c).rm = rm := by rw [hp]; rfl
  simp only [hrmp] at hsplit
  omega

/-- What `cache_end_op` gives back, as subtractions that do not wrap. -/
theorem refund (hp : s.phase c = .running rm) :
    subU32 s.log.logUsed rm = s.log.logUsed - rm ∧
      subU32 s.log.outstanding 1 = (S.erase c).card ∧
      opMaxNumBlocks * (S.erase c).card ≤ s.log.logUsed - rm ∧
      s.log.logUsed - rm = s.header.numBlocks + ∑ c' ∈ S.erase c, (s.phase c').rm := by
  have hcS := h.mem_of_running hp
  have hused := h.used_lt
  have hpos : 0 < S.card := Finset.card_pos.2 ⟨c, hcS⟩
  have hsplit := Finset.add_sum_erase S (fun c => (s.phase c).rm) hcS
  have hrmp : (s.phase c).rm = rm := by rw [hp]; rfl
  have hrm := h.rm_le c
  have hres := h.reserved
  have hfree := (h.free (h.not_committing hp)).2
  simp only [hrmp, logMaxSize, opMaxNumBlocks] at *
  refine ⟨subU32_eq (by omega) (by omega), ?_, ?_, ?_⟩
  · rw [Finset.card_erase_of_mem hcS, h.outstanding, subU32_eq (by omega) (by omega)]
  · rw [Finset.card_erase_of_mem hcS]
    omega
  · omega

/-- The threads left running when one stops. -/
theorem running_erase (hp : ∀ rm, p.role ≠ .running rm) (c' : ℕ) :
    c' ∈ S.erase c ↔ ∃ rm, ((s.setPhase c p).phase c').role = .running rm := by
  rw [Finset.mem_erase]
  by_cases hc : c' = c
  · subst hc
    simp [hp]
  · rw [setPhase_of_ne hc]
    simpa [hc] using h.running c'

theorem rm_le_setPhase (hp : p.rm ≤ opMaxNumBlocks) (c' : ℕ) :
    ((s.setPhase c p).phase c').rm ≤ opMaxNumBlocks := by
  by_cases hc : c' = c
  · subst hc
    rw [setPhase_self]
    exact hp
  · rw [setPhase_of_ne hc]
    exact h.rm_le c'

/-- The last operation ends and goes on to commit. -/
theorem endLast (hp : s.phase c = .running rm) (hout : subU32 s.log.outstanding 1 = 0) :
    Ctl sb ({ s with log := { s.log with
      logUsed := subU32 s.log.logUsed rm
      outstanding := subU32 s.log.outstanding 1
      committing := true } }.setPhase c (.copying 0)) ∅ := by
  obtain ⟨hused, hcard, -, heq⟩ := h.refund hp
  rw [hout] at hcard
  have hempty : S.erase c = ∅ := Finset.card_eq_zero.1 hcard.symm
  have hle := h.used_le
  rw [hempty, Finset.sum_empty, Nat.add_zero] at heq
  rw [hused, hout]
  constructor
  · have := h.running_erase (c := c) (p := .copying 0) (by simp [Phase.role])
    rwa [hempty] at this
  · rfl
  · exact h.size
  · exact h.nodup
  · exact h.rm_le_setPhase (Nat.zero_le _)
  · simp
  · simp only [setPhase_log]
    omega
  · exact h.num_le
  · intro hcom
    cases hcom
  · intro hcom
    cases hcom
  · intro _
    refine ⟨c, fun c' hc => ?_, by simpa [Phase.role, Role.Commits] using heq⟩
    rw [setPhase_of_ne hc]
    have hnot : c' ∉ S := by
      intro hmem
      have : c' ∈ S.erase c := Finset.mem_erase.2 ⟨hc, hmem⟩
      rw [hempty] at this
      cases this
    have hcommit := (h.free (h.not_committing hp)).1 c'
    cases hr : (s.phase c').role with
    | quiet => rfl
    | running r => exact absurd ((h.running c').2 ⟨r, hr⟩) hnot
    | early | late | done => rw [hr] at hcommit; cases hcommit

/-- An operation ends while others run, and goes on to wait. -/
theorem endWait {b e : Semaphore ℕ} (hp : s.phase c = .running rm)
    (hout : subU32 s.log.outstanding 1 ≠ 0) :
    Ctl sb ({ s with log := { s.log with
      logUsed := subU32 s.log.logUsed rm
      outstanding := subU32 s.log.outstanding 1
      beginSem := b
      endSem := e } }.setPhase c .endLocked) (S.erase c) := by
  obtain ⟨hused, hcard, hres, heq⟩ := h.refund hp
  have hle := h.used_le
  rw [hcard] at hout
  rw [hused, hcard]
  constructor
  · exact h.running_erase (by simp [Phase.role])
  · rfl
  · exact h.size
  · exact h.nodup
  · exact h.rm_le_setPhase (Nat.zero_le _)
  · exact hres
  · simp only [setPhase_log]
    omega
  · exact h.num_le
  · intro _
    refine ⟨fun c' => ?_, ?_⟩
    · by_cases hc : c' = c
      · subst hc
        simp [Phase.role, Role.isCommit]
      · rw [setPhase_of_ne hc]
        exact (h.free (h.not_committing hp)).1 c'
    · rw [sum_setPhase_of_notMem _ (Finset.notMem_erase c S)]
      exact heq
  · intro _ hempty
    rw [hempty] at hout
    exact absurd Finset.card_empty hout
  · intro hcom
    rw [setPhase_log, h.not_committing hp] at hcom
    cases hcom

/-- A commit goes on after a write of the header, with no space in
use. -/
theorem commitStep {hd : LogHeader} {st : Store} (hcom : s.log.committing = true)
    (hquiet : ∀ c', c' ≠ c → (s.phase c').role = .quiet) (hnd : hd.entries.Nodup)
    (hnum : hd.numBlocks ≤ s.log.logSize) (hp : p.role.Commits 0 hd.numBlocks) (hrm : p.rm = 0) :
    Ctl sb ({ s with
      header := hd, store := st, log := { s.log with logUsed := 0 } }.setPhase c p) S := by
  obtain rfl := h.eq_empty hcom
  constructor
  · intro c'
    by_cases hc : c' = c
    · subst hc
      rw [setPhase_self]
      refine ⟨fun hmem => absurd hmem (Finset.notMem_empty _), ?_⟩
      rintro ⟨rm, hrole⟩
      rw [hrole] at hp
      exact absurd hp id
    · rw [setPhase_of_ne hc]
      exact h.running c'
  · exact h.outstanding
  · exact h.size
  · exact hnd
  · exact h.rm_le_setPhase (by rw [hrm]; exact Nat.zero_le _)
  · simp
  · exact Nat.zero_le _
  · exact hnum
  · intro hfree
    rw [setPhase_log, hcom] at hfree
    cases hfree
  · intro hfree
    rw [setPhase_log, hcom] at hfree
    cases hfree
  · intro _
    refine ⟨c, fun c' hc => ?_, by rw [setPhase_self]; exact hp⟩
    rw [setPhase_of_ne hc]
    exact hquiet c' hc

/-- The commit is over: the header is empty and so is the log. -/
theorem clear (hp : (s.phase c).role = .done) :
    Ctl sb ({ s with log := { s.log with committing := false } }.setPhase c .committed) S := by
  obtain ⟨-, rfl, hquiet, hspace⟩ := h.of_commit (by rw [hp]; rfl)
  rw [hp] at hspace
  constructor
  · intro c'
    by_cases hc : c' = c
    · subst hc
      simp [Phase.role]
    · rw [setPhase_of_ne hc]
      exact h.running c'
  · exact h.outstanding
  · exact h.size
  · exact h.nodup
  · exact h.rm_le_setPhase (Nat.zero_le _)
  · simp
  · exact h.used_le
  · exact h.num_le
  · intro _
    refine ⟨fun c' => ?_, by simp [hspace.1, hspace.2]⟩
    by_cases hc : c' = c
    · subst hc
      simp [Phase.role, Role.isCommit]
    · rw [setPhase_of_ne hc, hquiet c' hc]
      rfl
  · intro _ _
    exact hspace.2
  · intro hcom
    cases hcom

/-- **A step of the running system keeps the counters.** -/
theorem upStep {a : Act} (hstep : Cache.upStep sb s a = some t) : ∃ S', Ctl sb t S' := by
  cases a with
  | acquire n =>
    obtain ⟨-, st, -, rfl⟩ := acquire_cases hstep
    exact ⟨S, h.congr (fun _ => rfl) rfl rfl rfl rfl rfl⟩
  | modify n d =>
    obtain ⟨b, -, -, rfl⟩ := modify_cases hstep
    exact ⟨S, h.congr (fun _ => rfl) rfl rfl rfl rfl rfl⟩
  | release n =>
    obtain ⟨b, -, -, rfl⟩ := release_cases hstep
    exact ⟨S, h.congr (fun _ => rfl) rfl rfl rfl rfl rfl⟩
  | beginOp c =>
    obtain ⟨-, hp, ⟨-, -, rfl⟩ | ⟨⟨hsize, hcom⟩, rfl⟩⟩ := beginOp_cases hstep
    all_goals
      have hrole : (s.phase c).role = .quiet := by rcases hp with hp | ⟨hp, -⟩ <;> rw [hp] <;> rfl
    · exact ⟨S, h.congr (role_setPhase (by rw [hrole]; rfl)) rfl rfl rfl rfl rfl⟩
    · exact ⟨_, h.begin hrole hsize hcom⟩
  | waitBegin c =>
    obtain ⟨hp, rfl⟩ := waitBegin_cases hstep
    exact ⟨S, h.congr (role_setPhase (by rw [hp]; rfl)) rfl rfl rfl rfl rfl⟩
  | sync c n =>
    obtain ⟨rm, b, hp, -, -, -, ⟨hn, hrm, rfl⟩ | ⟨-, rfl⟩⟩ := sync_cases hstep
    · exact ⟨S, h.append hp hrm hn⟩
    · exact ⟨S, h.congr (fun _ => rfl) rfl rfl rfl rfl rfl⟩
  | syncNull n =>
    obtain ⟨b, -, -, rfl⟩ := syncNull_cases hstep
    exact ⟨S, h.congr (fun _ => rfl) rfl rfl rfl rfl rfl⟩
  | endOp c =>
    obtain ⟨rm, hp, -, ⟨hout, rfl⟩ | ⟨hout, -, r, -, rfl⟩⟩ := endOp_cases hstep
    · exact ⟨_, h.endLast hp hout⟩
    · exact ⟨_, h.endWait hp hout⟩
  | waitEnd c =>
    obtain ⟨hp, rfl⟩ := waitEnd_cases hstep
    exact ⟨S, h.congr (role_setPhase (by rw [hp]; rfl)) rfl rfl rfl rfl rfl⟩
  | returnEnd c =>
    obtain ⟨hp, -, -, rfl⟩ := returnEnd_cases hstep
    exact ⟨S, h.congr (role_setPhase (by rw [hp]; rfl)) rfl rfl rfl rfl rfl⟩
  | commit c =>
    obtain ⟨i, st, hp, -, -, rfl⟩ | ⟨i, hp, -, rfl⟩ | ⟨i, st, hp, -, -, rfl⟩ | ⟨i, hp, -, rfl⟩ :=
      commit_cases hstep
    · exact ⟨S, h.congr (role_setPhase (by rw [hp]; rfl)) rfl rfl rfl rfl rfl⟩
    · obtain ⟨hcom, -, hquiet, hspace⟩ := h.of_commit (c := c) (by rw [hp]; rfl)
      have hused : s.log.logUsed = s.header.numBlocks := by rwa [hp] at hspace
      have hsub : subU32 s.log.logUsed s.header.numBlocks = 0 := by
        have := h.used_lt
        rw [← hused, subU32_eq le_rfl (by simp only [logMaxSize] at this; omega), Nat.sub_self]
      rw [hsub]
      exact ⟨S, h.commitStep hcom hquiet h.nodup h.num_le rfl rfl⟩
    · exact ⟨S, h.congr (role_setPhase (by rw [hp]; rfl)) rfl rfl rfl rfl rfl⟩
    · obtain ⟨hcom, -, hquiet, hspace⟩ := h.of_commit (c := c) (by rw [hp]; rfl)
      have hused : s.log.logUsed = 0 := by rwa [hp] at hspace
      have hlog : s.log = { s.log with logUsed := 0 } := by rw [← hused]
      have hnil : ({ s.header with numBlocks := 0 } : LogHeader).entries = [] :=
        LogHeader.entries_eq_nil rfl
      rw [hlog]
      exact ⟨S, h.commitStep hcom hquiet (by rw [hnil]; exact List.nodup_nil) (Nat.zero_le _)
        ⟨rfl, rfl⟩ rfl⟩
  | clearCommitting c =>
    obtain ⟨hp, rfl⟩ := clearCommitting_cases hstep
    exact ⟨S, h.clear (by rw [hp]; rfl)⟩
  | postEnd c =>
    obtain ⟨hp, -, r, -, rfl⟩ := postEnd_cases hstep
    exact ⟨S, h.congr (role_setPhase (by rw [hp]; rfl)) rfl rfl rfl rfl rfl⟩
  | postBegin c =>
    obtain ⟨hp, r, -, rfl⟩ := postBegin_cases hstep
    exact ⟨S, h.congr (role_setPhase (by rw [hp]; rfl)) rfl rfl rfl rfl rfl⟩
  | crash => cases hstep
  | recover => cases hstep

end

/-- The counters `init_bcache` sets up. -/
theorem init (hlog : s.log = initLog sb) (hphase : ∀ c, s.phase c = .idle)
    (hnum : s.header.numBlocks = 0) : Ctl sb s ∅ := by
  constructor
  · simp [hphase, Phase.role]
  · simp [hlog, initLog]
  · rw [hlog]
  · rw [LogHeader.entries_eq_nil hnum]
    exact List.nodup_nil
  · simp [hphase, Phase.rm]
  · simp
  · simp [hlog, initLog]
  · simp [hnum]
  · intro _
    simp [hphase, Phase.role, Role.isCommit, hlog, initLog, hnum]
  · intro _ _
    exact hnum
  · intro hcom
    rw [hlog] at hcom
    cases hcom

end Ctl

/-! ## Runs -/

/-- The counters of a system that may still be in `init_bcache`. -/
def Accounted (sb : SuperBlock) (s : Sys) : Prop :=
  match s.boot with
  | none => ∃ S, Ctl sb s S
  | some _ => s.log = initLog sb ∧ ∀ c, s.phase c = .idle

theorem Accounted.step {sb : SuperBlock} {s t : Sys} {a : Act} (h : Accounted sb s)
    (hstep : Cache.step sb s a = some t) : Accounted sb t := by
  unfold Accounted at h
  rcases step_cases hstep with ⟨-, rfl⟩ | ⟨-, i, hboot, hrec⟩ | ⟨hboot, hup⟩
  · exact ⟨rfl, fun _ => rfl⟩
  · rw [hboot] at h
    rcases recover_cases hrec with ⟨-, st, -, rfl⟩ | ⟨-, rfl⟩
    · exact h
    · exact ⟨∅, Ctl.init h.1 h.2 rfl⟩
  · rw [hboot] at h
    obtain ⟨S, hS⟩ := h
    have ht : t.boot = none := (upStep_boot hup).trans hboot
    simp only [Accounted, ht]
    exact hS.upStep hup

/-- **The counters are right in every reachable state.** -/
theorem accounted_of_run {sb : SuperBlock} {d : Disk} {tr : List (Sys × Act)} {s : Sys}
    (h : Run (step sb) (bootSys sb d) tr s) : Accounted sb s :=
  h.invariant (I := Accounted sb) ⟨rfl, fun _ => rfl⟩ fun _ _ _ hI hs => hI.step hs

/-- And once `init_bcache` has returned there are counters. -/
theorem ctl_of_run {sb : SuperBlock} {d : Disk} {tr : List (Sys × Act)} {s : Sys}
    (h : Run (step sb) (bootSys sb d) tr s) (hup : s.boot = none) : ∃ S, Ctl sb s S := by
  have := accounted_of_run h
  rwa [Accounted, hup] at this

end OsKernel.Cache
