import OsKernel.Pipe.Fifo

/-!
# The locks of the two semaphores of a pipe

A call that can make no progress locks its own semaphore, releases
`pi->lock` and then locks the other one. A writer and a reader that are
both between the two locks wait for each other for ever (`Crossed`).

They get there: the writer finds the buffer full and releases `pi->lock`;
before it comes to the second lock, the reader takes all of the buffer and
asks for more (`locks_cross`). With one call on an end at a time, none of
them for more bytes than the buffer holds, they do not: a call that has
emptied or filled the whole buffer has nothing more to ask for
(`locks_uncrossed`).
-/

namespace OsKernel.Pipe

open Function

/-- How many bytes a call asks for. -/
def Job.size : Job → ℕ
  | .write src _ => src.length
  | .read n _ => n
  | .close _ => 0

/-- How many of them it has moved. -/
def Job.progress : Job → ℕ
  | .write _ i => i
  | .read _ dst => dst.length
  | .close _ => 0

/-- The places with the own semaphore locked before the lock of the other
one. -/
def At.isCrossing : At → Bool
  | .locked | .notify => true
  | _ => false

/-- The places of `_wait_sem`. -/
def At.isWaiting : At → Bool
  | .sleepy | .asleep | .waking => true
  | _ => false

theorem Job.progress_lt_of_wants {job : Job} (h : job.Wants) : job.progress < job.size := by
  cases job with
  | write | read => exact h
  | close => cases h

namespace State

variable {T : Type} {s s' : State T} {t u w r : T} {job : Job} {pc : At} {σ τ : Side}
variable {tr : List (State T × Act T)}
variable {j : Job}

/-- A read or a write is in progress on the end `σ`. -/
def Call (s : State T) (σ : Side) (t : T) (job : Job) (pc : At) : Prop :=
  s.thread t = some (job, pc) ∧ job.isClose = false ∧ job.side = σ

/-- **A writer holds the lock of `wlock` and waits for that of `rlock`, and
a reader holds the lock of `rlock` and waits for that of `wlock`.** -/
def Crossed (s : State T) : Prop :=
  ∃ w r src i n dst, s.thread w = some (.write src i, .notify) ∧
    (s.sem .write).lock = some w ∧ s.thread r = some (.read n dst, .notify) ∧
    (s.sem .read).lock = some r

/-- How many bytes the calls on an end can move before they block. -/
def avail (s : State T) : Side → ℕ
  | .read => s.count
  | .write => pipeSize - s.count

theorem avail_flip (h : s.count ≤ pipeSize) (σ : Side) :
    s.avail σ.flip = pipeSize - s.avail σ ∧ s.avail σ ≤ pipeSize := by
  cases σ with
  | read => exact ⟨rfl, h⟩
  | write => exact ⟨(Nat.sub_sub_self h).symm, Nat.sub_le _ _⟩

theorem avail_of_blocked (h : s.blocked σ = true) : s.avail σ = 0 := by
  cases σ with
  | read => exact blocked_read_iff.1 h
  | write =>
    rw [avail, blocked_write_iff.1 h]
    exact Nat.sub_self _

theorem avail_congr (hr : s'.nread = s.nread) (hw : s'.nwrite = s.nwrite) :
    s'.avail σ = s.avail σ := by
  cases σ <;> simp only [avail, count, hr, hw]

/-- One call on an end at a time, for at most as many bytes as the buffer
holds. -/
def Small (s : State T) (a : Act T) : Prop :=
  ∀ t job, a.starts = some (t, job) → job.isClose = false →
    job.size ≤ pipeSize ∧ ∀ u j p, ¬ s.Call job.side u j p

/-- What a call on the other end has left to the end `τ`: all of the
buffer, but for what the call on `τ` has already moved. -/
structure Room (s : State T) (τ : Side) : Prop where
  calls : ∀ r job pc, s.Call τ r job pc → pc.isCrossing = false ∧
    pipeSize ≤ s.avail τ + job.progress ∧ (pc.isWaiting = true → s.avail τ = pipeSize)
  idle : (∀ r job pc, ¬ s.Call τ r job pc) → s.avail τ = pipeSize

/-- **The invariant of the locks.** -/
structure Ordered (s : State T) : Prop where
  base : Base s
  count_le : s.count ≤ pipeSize
  single : ∀ σ t job pc u job' pc', s.Call σ t job pc → s.Call σ u job' pc' → t = u
  sized : ∀ σ t job pc, s.Call σ t job pc → job.size ≤ pipeSize
  room : ∀ σ t job pc, s.Call σ t job pc → pc.isCrossing = true → s.Room σ.flip

theorem ordered_init : Ordered (init : State T) where
  base := base_init
  count_le := by
    rw [count_init]
    exact Nat.zero_le _
  single := fun _ _ _ _ _ _ _ h => by cases h.1
  sized := fun _ _ _ _ h => by cases h.1
  room := fun _ _ _ _ h => by cases h.1

theorem Call.of_thread_eq (h : s'.Call σ u job pc) (hthread : s'.thread u = s.thread u) :
    s.Call σ u job pc := ⟨by rw [← hthread, h.1], h.2⟩

/-- A crossing call excludes one on the other end that waits to lock, or
has locked, this end's semaphore. -/
theorem Ordered.not_crossing (h : Ordered s) (hw : s.Call σ w job pc) (hpc : pc.isCrossing = true)
    {p : At} (hr : s.Call σ.flip r j p) : p.isCrossing = false ∧ p.hasOther = false := by
  refine ⟨((h.room σ w job pc hw hpc).calls r j p hr).1, ?_⟩
  by_contra hp
  have hown := h.base.own w job pc hw.1 (by cases pc <;> first | rfl | cases hpc)
  have hother := h.base.other r j p hr.1 (by simpa using hp)
  rw [hw.2.2] at hown
  rw [hr.2.2, Side.flip_flip, hown] at hother
  obtain rfl := Option.some.inj hother
  have hjob := hw.1.symm.trans hr.1
  obtain ⟨rfl, -⟩ := pair_inj hjob
  exact Side.flip_ne σ (hr.2.2.symm.trans hw.2.2)

/-- **A call that begins to cross.** It has found the end blocked, so the
other end has all of the buffer; and no call there is crossing, as this one
would then have nothing to ask for. -/
theorem Ordered.room_lockOwn (h : Ordered s) (ht : s.Call σ t job .inside) (hwants : job.Wants)
    (hblocked : s.blocked σ = true) : s.Room σ.flip := by
  have hzero := avail_of_blocked hblocked
  have hfull : s.avail σ.flip = pipeSize := by
    rw [(avail_flip h.count_le σ).1, hzero]
    exact Nat.sub_zero _
  refine ⟨fun r j p hr => ⟨?_, by omega, fun _ => hfull⟩, fun _ => hfull⟩
  by_contra hp
  have hroom := h.room _ r j p hr (by simpa using hp)
  rw [Side.flip_flip] at hroom
  have hle := (hroom.calls t job .inside ht).2.1
  have hlt := Job.progress_lt_of_wants hwants
  have hsize := h.sized σ t job .inside ht
  omega

theorem Room.congr (h : s.Room τ) (havail : s'.avail τ = s.avail τ)
    (hcall : ∀ r j p, s'.Call τ r j p ↔ s.Call τ r j p) : s'.Room τ where
  calls := fun r j p hr => by
    rw [havail]
    exact h.calls r j p ((hcall r j p).1 hr)
  idle := fun hnone => by
    rw [havail]
    exact h.idle fun r j p hr => hnone r j p ((hcall r j p).2 hr)

/-- What the rounds of the loop of `t` leave alone. -/
structure Frame (s : State T) (t : T) (s' : State T) : Prop where
  lock : s'.lock = s.lock
  sem : s'.sem = s.sem
  isOpen : s'.isOpen = s.isOpen
  freed : s'.freed = s.freed
  thread : ∀ u, u ≠ t → s'.thread u = s.thread u

theorem Frame.refl (s : State T) (t : T) : Frame s t s := ⟨rfl, rfl, rfl, rfl, fun _ _ => rfl⟩

theorem Frame.trans {s'' : State T} (h : Frame s t s') (h' : Frame s' t s'') : Frame s t s'' where
  lock := h'.lock.trans h.lock
  sem := h'.sem.trans h.sem
  isOpen := h'.isOpen.trans h.isOpen
  freed := h'.freed.trans h.freed
  thread := fun u hu => (h'.thread u hu).trans (h.thread u hu)

variable [DecidableEq T]

/-! ## One step -/

/-- A step of a call on `σ` keeps the sum of what it has moved and of what
it can move before it blocks. -/
theorem Move.conserves (hm : Move s t job pc s') (hle : s.count ≤ pipeSize) :
    s'.count ≤ pipeSize ∧
    (∀ j p, s'.thread t = some (j, p) →
      s'.avail job.side + j.progress = s.avail job.side + job.progress ∧ j.size = job.size) ∧
    (s'.thread t = none → ∀ τ, s'.avail τ = s.avail τ) := by
  rcases hm.quiet_or with hq | ⟨src, i, rfl, -, hi, hroom, hs⟩ | ⟨n, dst, rfl, -, hn, hdata, hs⟩
  · refine ⟨?_, fun j p hp => ?_, fun _ τ => avail_congr hq.nread hq.nwrite⟩
    · rw [count, hq.nread, hq.nwrite]
      exact hle
    · rw [hq.same j p hp, avail_congr hq.nread hq.nwrite]
      exact ⟨rfl, rfl⟩
  · have hne : s.count ≠ pipeSize := by
      rw [ne_eq, ← blocked_write_iff, hroom]
      simp
    have hcount : s'.count = s.count + 1 :=
      count_store (lt_of_le_of_ne hle hne) (by rw [hs]; rfl) (by rw [hs]; rfl)
    refine ⟨by omega, fun j p hp => ?_, fun hnone => ?_⟩
    · rw [hs] at hp
      obtain ⟨rfl, -⟩ := goto_inv hp
      refine ⟨?_, rfl⟩
      simp only [Job.side, avail, Job.progress]
      omega
    · rw [hs, goto_thread_self] at hnone
      cases hnone
  · have hne : s.count ≠ 0 := by
      rw [ne_eq, ← blocked_read_iff, hdata]
      simp
    have hcount : s'.count + 1 = s.count := count_take hne (by rw [hs]; rfl) (by rw [hs]; rfl)
    refine ⟨by omega, fun j p hp => ?_, fun hnone => ?_⟩
    · rw [hs] at hp
      obtain ⟨rfl, -⟩ := goto_inv hp
      refine ⟨?_, rfl⟩
      simp only [Job.side, avail, Job.progress, List.length_append, List.length_singleton]
      omega
    · rw [hs, goto_thread_self] at hnone
      cases hnone

/-- **A step of the call on the other end of a crossing one.** It has had
the whole buffer to itself, so it is not blocked; and it cannot pass the
lock of the other semaphore. -/
theorem Ordered.room_step (h : Ordered s) (hw : s.Call σ w job pc) (hpc : pc.isCrossing = true)
    {p : At} (hr : s.Call σ.flip r j p) (hm : Move s r j p s') :
    (∀ j' p', s'.thread r = some (j', p') → p'.isCrossing = false ∧
      pipeSize ≤ s'.avail σ.flip + j'.progress ∧
      (p'.isWaiting = true → s'.avail σ.flip = pipeSize)) ∧
    (s'.thread r = none → s'.avail σ.flip = pipeSize) := by
  obtain ⟨hnot, hle, hwait⟩ := (h.room σ w job pc hw hpc).calls r j p hr
  obtain ⟨-, hother⟩ := h.not_crossing hw hpc hr
  obtain ⟨-, hgoes, hends⟩ := hm.conserves h.count_le
  have hside := hr.2.2
  have hsize := h.sized _ r j p hr
  -- the call is not blocked while it asks for more
  have hfree : j.Wants → s.blocked j.side ≠ true := by
    intro hwants hblocked
    have hlt := Job.progress_lt_of_wants hwants
    have hzero := avail_of_blocked hblocked
    rw [hside] at hzero
    omega
  -- so it is enough to look at the place it goes to
  have hgoto : ∀ {s₁ : State T} {j₁ : Job} {p₁ : At}, s' = s₁.goto r j₁ p₁ →
      p₁.isCrossing = false → (p₁.isWaiting = true → p.isWaiting = true ∧ j₁ = j) →
      (∀ j' p', s'.thread r = some (j', p') → p'.isCrossing = false ∧
        pipeSize ≤ s'.avail σ.flip + j'.progress ∧
        (p'.isWaiting = true → s'.avail σ.flip = pipeSize)) ∧
      (s'.thread r = none → s'.avail σ.flip = pipeSize) := by
    intro s₁ j₁ p₁ hs hcross hwaiting
    refine ⟨fun j' p' hp => ?_, fun hnone => ?_⟩
    · have hsum := (hgoes j' p' hp).1
      rw [hside] at hsum
      rw [hs] at hp
      obtain ⟨rfl, rfl⟩ := goto_inv hp
      refine ⟨hcross, by omega, fun hp' => ?_⟩
      obtain ⟨hpw, rfl⟩ := hwaiting hp'
      have hfull := hwait hpw
      omega
    · rw [hs, goto_thread_self] at hnone
      cases hnone
  cases hm with
  | lockOwn hwants hblocked | giveUp hwants hblocked => exact absurd hblocked (hfree hwants)
  | release => cases hnot
  | post hpc' =>
    rcases pair_mem_two hpc' with ⟨rfl, -⟩ | ⟨rfl, -⟩ <;> cases hother
  | postLast => cases hother
  | lockOther hpc' =>
    rcases pair_mem_three hpc' with ⟨rfl, rfl⟩ | ⟨rfl, rfl⟩ | ⟨rfl, rfl⟩
    · cases hnot
    · exact hgoto rfl rfl (by rintro ⟨⟩)
    · exact hgoto rfl rfl (by rintro ⟨⟩)
  | sleep =>
    refine hgoto rfl ?_ fun _ => ⟨rfl, rfl⟩
    split <;> rfl
  | wake => exact hgoto rfl rfl fun _ => ⟨rfl, rfl⟩
  | cancel =>
    refine ⟨fun j' p' hp => ?_, fun hnone => ?_⟩
    · rw [ret_thread_self] at hp
      cases hp
    · rw [hends hnone, hwait rfl]
  | closeFree | closeEnd =>
    have hfits := h.base.fits r j _ hr.1
    rw [Job.Fits, hr.2.1] at hfits
    rcases hfits with hfits | hfits <;> cases hfits
  | mark => cases hr.2.1
  | store => exact hgoto rfl rfl (by rintro ⟨⟩)
  | take =>
    refine hgoto rfl ?_ fun hp => ?_
    · split <;> rfl
    · split at hp <;> cases hp
  | acquire | finish | broke | woken => exact hgoto rfl rfl (by rintro ⟨⟩)

/-- A step of a call leaves the calls of the others alone. -/
theorem Move.call_of_ne (hm : Move s t job pc s') {p : At} (hu : u ≠ t) (h : s'.Call σ u j p) :
    s.Call σ u j p := h.of_thread_eq (hm.thread_of_ne hu)

/-- A call after a step of its thread was in progress before. -/
theorem Move.call_self (hm : Move s t job pc s') {p : At} (ht : s.thread t = some (job, pc))
    (h : s'.Call σ t j p) : s.Call σ t job pc := by
  obtain ⟨hside, hclose⟩ := hm.same_side h.1
  exact ⟨ht, by rw [← hclose, h.2.1], by rw [← hside, h.2.2]⟩

/-- A step of a thread that is not in a call on `τ` leaves the calls on `τ`
alone. -/
theorem Move.call_iff (hm : Move s t job pc s') (ht : s.thread t = some (job, pc))
    (hjob : job.isClose = true ∨ job.side ≠ τ) (r : T) (j : Job) (p : At) :
    s'.Call τ r j p ↔ s.Call τ r j p := by
  by_cases hrt : r = t
  · subst hrt
    have hnot : ¬ s.Call τ r job pc := by
      intro hcall
      rcases hjob with hjob | hjob
      · rw [hcall.2.1] at hjob
        cases hjob
      · exact hjob hcall.2.2
    refine ⟨fun hcall => absurd (hm.call_self ht hcall) hnot, fun hcall => ?_⟩
    obtain ⟨rfl, rfl⟩ := pair_inj (hcall.1.symm.trans ht)
    exact absurd hcall hnot
  · exact ⟨hm.call_of_ne hrt, fun hcall => hcall.of_thread_eq (hm.thread_of_ne hrt).symm⟩

/-- A thread that is closing an end, or is not in the loop, leaves the
counters alone. -/
theorem Move.avail_eq (hm : Move s t job pc s') (h : job.isClose = true ∨ pc ≠ .inside) :
    s'.avail τ = s.avail τ := by
  rcases hm.quiet_or with hq | ⟨src, i, rfl, rfl, -⟩ | ⟨n, dst, rfl, rfl, -⟩
  · exact avail_congr hq.nread hq.nwrite
  · rcases h with h | h
    · cases h
    · exact absurd rfl h
  · rcases h with h | h
    · cases h
    · exact absurd rfl h

section

variable (h : Ordered s) (ht : s.thread t = some (job, pc)) (hm : Move s t job pc s')

include h ht hm

theorem Ordered.room_self {p : At} (hw : s'.Call σ t j p) (hp : p.isCrossing = true) :
    s'.Room σ.flip := by
  have hcall := hm.call_self ht hw
  have hiff := hm.call_iff (τ := σ.flip) ht (Or.inr (by rw [hcall.2.2]; exact (Side.flip_ne σ).symm))
  by_cases hpc : pc.isCrossing = true
  · refine (h.room σ t job pc hcall hpc).congr (hm.avail_eq (Or.inr ?_)) hiff
    rintro rfl
    cases hpc
  · -- the place is new: the call has just locked its semaphore
    cases hm with
    | lockOwn hwants hblocked =>
      rw [hcall.2.2] at hblocked
      exact (h.room_lockOwn hcall hwants hblocked).congr rfl hiff
    | release => exact absurd rfl hpc
    | take | sleep =>
      obtain ⟨-, rfl⟩ := goto_inv hw.1
      split at hp <;> cases hp
    | lockOther hpc' =>
      obtain ⟨-, rfl⟩ := goto_inv hw.1
      rcases pair_mem_three hpc' with ⟨-, rfl⟩ | ⟨-, rfl⟩ | ⟨-, rfl⟩ <;> cases hp
    | post hpc' =>
      obtain ⟨-, rfl⟩ := goto_inv hw.1
      rcases pair_mem_two hpc' with ⟨-, rfl⟩ | ⟨-, rfl⟩ <;> cases hp
    | giveUp | postLast | cancel | closeFree | closeEnd =>
      have hthread := hw.1
      rw [ret_thread_self] at hthread
      cases hthread
    | _ =>
      obtain ⟨-, rfl⟩ := goto_inv hw.1
      cases hp

theorem Ordered.room_other (hwt : w ≠ t) {p : At} (hw : s.Call σ w j p) (hp : p.isCrossing = true) :
    s'.Room σ.flip := by
  cases hclose : job.isClose with
  | true =>
    exact (h.room σ w j p hw hp).congr (hm.avail_eq (Or.inl hclose))
      (hm.call_iff ht (Or.inl hclose))
  | false =>
    have hside : job.side = σ.flip := by
      refine Side.eq_flip_of_ne fun hside => hwt ?_
      exact h.single σ w j p t job pc hw ⟨ht, hclose, hside⟩
    have hcall : s.Call σ.flip t job pc := ⟨ht, hclose, hside⟩
    obtain ⟨hgoes, hends⟩ := h.room_step hw hp hcall hm
    refine ⟨fun r j' p' hr => ?_, fun hnone => ?_⟩
    · by_cases hrt : r = t
      · subst hrt
        exact hgoes j' p' hr.1
      · exact absurd (h.single _ r j' p' t job pc (hm.call_of_ne hrt hr) hcall) hrt
    · refine hends ?_
      by_contra hsome
      obtain ⟨⟨j', p'⟩, hp'⟩ := Option.ne_none_iff_exists'.1 hsome
      obtain ⟨hs, hc⟩ := hm.same_side hp'
      exact hnone t j' p' ⟨hp', by rw [hc, hclose], by rw [hs, hside]⟩

/-- **A step of a call keeps the locks ordered.** -/
theorem Ordered.move : Ordered s' := by
  obtain ⟨hcount, hgoes, -⟩ := hm.conserves h.count_le
  -- a call after the step was in progress before, in some place
  have hbefore : ∀ {τ u j p}, s'.Call τ u j p → ∃ j₀ p₀, s.Call τ u j₀ p₀ ∧ j.size = j₀.size := by
    intro τ u j p hu
    by_cases hut : u = t
    · subst hut
      exact ⟨job, pc, hm.call_self ht hu, (hgoes j p hu.1).2⟩
    · exact ⟨j, p, hm.call_of_ne hut hu, rfl⟩
  refine ⟨h.base.move ht hm, hcount, fun τ u j p u' j' p' hu hu' => ?_, fun τ u j p hu => ?_,
    fun τ w j p hw hp => ?_⟩
  · obtain ⟨_, _, hu, -⟩ := hbefore hu
    obtain ⟨_, _, hu', -⟩ := hbefore hu'
    exact h.single τ u _ _ u' _ _ hu hu'
  · obtain ⟨_, _, hu, hsize⟩ := hbefore hu
    rw [hsize]
    exact h.sized τ u _ _ hu
  · by_cases hwt : w = t
    · subst hwt
      exact h.room_self ht hm hw hp
    · exact h.room_other ht hm hwt (hm.call_of_ne hwt hw) hp

end

/-- **A call that begins keeps the locks ordered.** -/
theorem Ordered.call {a : Act T} (h : Ordered s) (hsmall : Small s a)
    (hidle : s.thread t = none) (ha : a.starts = some (t, job)) :
    Ordered (s.goto t job .enter) := by
  have hcases : ∀ {τ u j p}, (s.goto t job .enter).Call τ u j p →
      (u ≠ t ∧ s.Call τ u j p) ∨
        (u = t ∧ j = job ∧ p = .enter ∧ job.isClose = false ∧ job.side = τ) := by
    intro τ u j p hu
    by_cases hut : u = t
    · subst hut
      obtain ⟨rfl, rfl⟩ := goto_inv hu.1
      exact Or.inr ⟨rfl, rfl, rfl, hu.2⟩
    · exact Or.inl ⟨hut, hu.of_thread_eq (goto_thread_of_ne hut)⟩
  refine ⟨h.base.call hidle, h.count_le, fun τ u j p u' j' p' hu hu' => ?_,
    fun τ u j p hu => ?_, fun τ w j p hw hp => ?_⟩
  · rcases hcases hu with ⟨-, hold⟩ | ⟨rfl, -, -, hc, rfl⟩
    · rcases hcases hu' with ⟨-, hold'⟩ | ⟨rfl, -, -, hc, rfl⟩
      · exact h.single τ u j p u' j' p' hold hold'
      · exact absurd hold ((hsmall u' job ha hc).2 u j p)
    · rcases hcases hu' with ⟨-, hu'⟩ | ⟨rfl, -⟩
      · exact absurd hu' ((hsmall u job ha hc).2 u' j' p')
      · rfl
  · rcases hcases hu with ⟨-, hu⟩ | ⟨rfl, rfl, -, hc, -⟩
    · exact h.sized τ u j p hu
    · exact (hsmall u j ha hc).1
  · rcases hcases hw with ⟨-, hw⟩ | ⟨-, -, rfl, -⟩
    · have hroom := h.room τ w j p hw hp
      by_cases hnew : job.isClose = false ∧ job.side = τ.flip
      · -- the call finds the other end with all of the buffer
        have hnone := (hsmall t job ha hnew.1).2
        rw [hnew.2] at hnone
        have hfull := hroom.idle hnone
        refine ⟨fun r j' p' hr => ?_, fun hno => ?_⟩
        · rcases hcases hr with ⟨-, hr⟩ | ⟨-, -, rfl, -⟩
          · exact absurd hr (hnone r j' p')
          · exact ⟨rfl, hfull ▸ Nat.le_add_right _ _, nofun⟩
        · exact absurd ⟨goto_thread_self _ _ _ _, hnew⟩ (hno t job .enter)
      · refine hroom.congr rfl fun r j' p' => ⟨fun hr => ?_, fun hr => ?_⟩
        · rcases hcases hr with ⟨-, hr⟩ | ⟨-, -, -, hc⟩
          · exact hr
          · exact absurd hc hnew
        · refine hr.of_thread_eq (goto_thread_of_ne ?_).symm
          rintro rfl
          rw [hr.1] at hidle
          cases hidle
    · cases hp

theorem Ordered.next {a : Act T} (h : Ordered s) (hsmall : Small s a) (hs : Next s a s') :
    Ordered s' := by
  cases hs with
  | call hidle ha => exact h.call hsmall hidle ha
  | refuse => exact h
  | run ht hm => exact h.move ht hm
  | kill =>
    exact ⟨h.base.next Next.kill, h.count_le, h.single, h.sized, fun σ t j p ht hp =>
      (h.room σ t j p ht hp).congr rfl fun _ _ _ => Iff.rfl⟩

/-- **The locks do not cross**, in runs with one call on an end at a time,
none of them for more bytes than the buffer holds. -/
theorem locks_uncrossed (hrun : Run step init tr s) (hsmall : ∀ x ∈ tr, Small x.1 x.2) :
    ¬ s.Crossed := by
  have h : Ordered s := hrun.invariantOf hsmall ordered_init fun _ _ _ hI hk hs =>
    hI.next hk (next_of_step hs)
  rintro ⟨w, r, src, i, n, dst, hw, -, hr, -⟩
  have hnot := (h.not_crossing (σ := .write) ⟨hw, rfl, rfl⟩ rfl (r := r) ⟨hr, rfl, rfl⟩).1
  cases hnot

/-- A reader is between its two locks when a writer begins. -/
theorem locks_uncrossed_readerLocked : ∃ tr s, Run step (init : State Bool) tr s ∧
    (∀ x ∈ tr, Small x.1 x.2) ∧ s.thread false = some (.read 1 [], .notify) ∧
    s.thread true = some (.write [65] 0, .enter) ∧ ¬ s.Crossed := by
  have hread : step (init : State Bool) (.callRead false 1) =
    some (init.goto false (.read 1 []) .enter) := rfl
  have hexec : (exec step ((init : State Bool).goto false (.read 1 []) .enter)
      (List.replicate 3 (.run false))).map (fun s => (s.thread false, s.thread true, s.freed,
        s.isOpen .write)) = some (some (.read 1 [], .notify), none, false, true) := by decide
  obtain ⟨s₁, hs₁, hfound⟩ := Option.map_eq_some_iff.1 hexec
  simp only [Prod.mk.injEq] at hfound
  obtain ⟨hfalse, htrue, hfreed, hopen⟩ := hfound
  have hwrite : step s₁ (.callWrite true [65]) = some (s₁.goto true (.write [65] 0) .enter) := by
    simp [step, hfreed, htrue, hopen]
  have hrun := ((Run.single hread).append (Run.of_exec hs₁)).append (Run.single hwrite)
  have hsmall : ∀ x ∈ [((init : State Bool), Act.callRead false 1)] ++
      execTrace step (init.goto false (.read 1 []) .enter) (List.replicate 3 (.run false)) ++
      [(s₁, Act.callWrite true [65])], Small x.1 x.2 := by
    simp only [List.forall_mem_append, List.forall_mem_singleton]
    refine ⟨⟨?_, fun x hx => ?_⟩, ?_⟩
    · intro t job ha _
      obtain ⟨-, rfl⟩ := pair_inj ha
      exact ⟨by decide, fun u j p hu => by cases hu.1⟩
    · have hstarts := forall_execTrace hs₁ (P := fun a => a.starts = none) (by simp [Act.starts]) x hx
      intro t job ha
      rw [hstarts] at ha
      cases ha
    · intro t job ha _
      obtain ⟨-, rfl⟩ := pair_inj ha
      refine ⟨by decide, fun u j p hu => ?_⟩
      have hthread := hu.1
      cases u with
      | false =>
        rw [hfalse] at hthread
        obtain ⟨rfl, -⟩ := pair_inj hthread
        cases hu.2.2
      | true =>
        rw [htrue] at hthread
        cases hthread
  refine ⟨_, _, hrun, hsmall, ?_, goto_thread_self _ _ _ _, locks_uncrossed hrun hsmall⟩
  rw [goto_thread_of_ne (show false ≠ true from (by simp)), hfalse]

/-! ## How the locks cross -/

/-- A pipe that `t` can begin a call on, without newlines in the buffer. -/
structure Ready (s : State T) (t : T) : Prop where
  freed : s.freed = false
  lock : s.lock = none
  isOpen : ∀ σ, s.isOpen σ = true
  idle : s.thread t = none
  data : ∀ n, s.data n ≠ newline

theorem step_run (ht : s.thread t = some (job, pc)) (hfreed : s.freed = false) :
    s.step (.run t) = s.runStep t job pc := by
  simp [step, hfreed, ht]

/-- A writer stores `k` bytes while there is room. -/
theorem run_stores {src : List UInt8} (hsrc : ∀ b ∈ src, b ≠ newline) (k : ℕ) :
    ∀ {s : State T} {i : ℕ}, s.freed = false → s.thread t = some (.write src i, .inside) →
      s.count + k ≤ pipeSize → i + k ≤ src.length → (∀ n, s.data n ≠ newline) →
      ∃ tr s', Run step s tr s' ∧ Frame s t s' ∧
        s'.thread t = some (.write src (i + k), .inside) ∧ s'.count = s.count + k ∧
        ∀ n, s'.data n ≠ newline := by
  induction k with
  | zero => exact fun _ ht _ _ hdata => ⟨[], _, Run.nil, Frame.refl _ _, ht, rfl, hdata⟩
  | succ k ih =>
    intro s i hfreed ht hk hlen hdata
    have hi : i < src.length := by omega
    have hlt : s.count < pipeSize := by omega
    have hroom : ¬ s.blocked .write = true := by
      rw [blocked_write_iff]
      omega
    obtain ⟨s₁, hs₁⟩ : ∃ s₁, s₁ = { s with
      data := update s.data (s.nwrite.toNat % pipeSize) (src.getD i 0)
      nwrite := s.nwrite + 1 }.goto t (.write src (i + 1)) .inside := ⟨_, rfl⟩
    have hstep : s.step (.run t) = some s₁ := by
      rw [step_run ht hfreed, hs₁]
      simp only [runStep, writeRound, if_pos hi, if_neg hroom]
    have hcount : s₁.count = s.count + 1 := count_store hlt (by rw [hs₁]; rfl) (by rw [hs₁]; rfl)
    have hframe : Frame s t s₁ := by
      rw [hs₁]
      exact ⟨rfl, rfl, rfl, rfl, fun u hu => goto_thread_of_ne hu⟩
    have hdata₁ : ∀ n, s₁.data n ≠ newline := by
      intro n
      have hupdate : s₁.data = update s.data (s.nwrite.toNat % pipeSize)
          (src.getD i 0) := by rw [hs₁]; rfl
      rw [hupdate]
      by_cases hn : n = s.nwrite.toNat % pipeSize
      · rw [hn, update_self, List.getD_eq_getElem?_getD, List.getElem?_eq_getElem hi]
        exact hsrc _ (List.getElem_mem hi)
      · rw [update_of_ne hn]
        exact hdata n
    obtain ⟨tr, s', hrun, hframe', hthread, hcount', hdata'⟩ := ih (s := s₁) (i := i + 1)
      (by rw [hframe.freed, hfreed]) (by rw [hs₁, goto_thread_self]) (by omega) (by omega) hdata₁
    refine ⟨_, s', (Run.single hstep).append hrun, hframe.trans hframe', ?_, by omega, hdata'⟩
    rw [hthread, Nat.add_assoc, Nat.add_comm 1 k]

/-- A reader takes `k` bytes of a buffer without newlines. -/
theorem run_takes {n : ℕ} (k : ℕ) :
    ∀ {s : State T} {dst : List UInt8}, s.freed = false →
      s.thread t = some (.read n dst, .inside) → k ≤ s.count → dst.length + k ≤ n →
      (∀ m, s.data m ≠ newline) →
      ∃ tr s' dst', Run step s tr s' ∧ Frame s t s' ∧
        s'.thread t = some (.read n dst', .inside) ∧ dst'.length = dst.length + k ∧
        s'.count + k = s.count := by
  induction k with
  | zero => exact fun _ ht _ _ _ => ⟨[], _, _, Run.nil, Frame.refl _ _, ht, rfl, rfl⟩
  | succ k ih =>
    intro s dst hfreed ht hk hlen hdata
    have hn : dst.length < n := by omega
    have hne : s.count ≠ 0 := by omega
    have hsome : ¬ s.blocked .read = true := by
      rwa [blocked_read_iff]
    obtain ⟨s₁, hs₁⟩ : ∃ s₁, s₁ = { s with nread := s.nread + 1 }.goto t
      (.read n (dst ++ [s.data (s.nread.toNat % pipeSize)])) .inside := ⟨_, rfl⟩
    have hstep : s.step (.run t) = some s₁ := by
      rw [step_run ht hfreed, hs₁]
      simp only [runStep, readRound, if_pos hn, if_neg hsome, if_neg (hdata _)]
    have hcount : s₁.count + 1 = s.count := count_take hne (by rw [hs₁]; rfl) (by rw [hs₁]; rfl)
    have hframe : Frame s t s₁ := by
      rw [hs₁]
      exact ⟨rfl, rfl, rfl, rfl, fun u hu => goto_thread_of_ne hu⟩
    obtain ⟨tr, s', dst', hrun, hframe', hthread, hlength, hcount'⟩ := ih (s := s₁)
      (by rw [hframe.freed, hfreed]) (by rw [hs₁, goto_thread_self]) (by omega)
      (by rw [List.length_append, List.length_singleton]; omega)
      (by rw [hs₁]; exact hdata)
    refine ⟨_, s', dst', (Run.single hstep).append hrun, hframe.trans hframe', hthread, ?_,
      by omega⟩
    rw [hlength, List.length_append, List.length_singleton]
    omega

/-- A call that is blocked locks its semaphore and releases `pi->lock`. -/
theorem run_crossing (hfreed : s.freed = false) (ht : s.thread t = some (job, .inside))
    (hwants : job.Wants) (hblocked : s.blocked job.side = true)
    (hopen : s.isOpen job.side.flip = true) (hlock : (s.sem job.side).lock = none) :
    ∃ tr s', Run step s tr s' ∧ s'.thread t = some (job, .notify) ∧
      (s'.sem job.side).lock = some t ∧ s'.sem job.side.flip = s.sem job.side.flip ∧
      s'.count = s.count ∧ s'.data = s.data ∧ s'.lock = none ∧ s'.isOpen = s.isOpen ∧
      s'.freed = false ∧ ∀ u, u ≠ t → s'.thread u = s.thread u := by
  have hstuck : s.runStep t job .inside = s.stuck t job := by
    cases job with
    | write src i =>
      have hi : i < src.length := hwants
      have hfull : s.blocked .write = true := hblocked
      simp only [runStep, writeRound, if_pos hi, if_pos hfull]
    | read n dst =>
      have hn : dst.length < n := hwants
      have hempty : s.blocked .read = true := hblocked
      simp only [runStep, readRound, if_pos hn, if_pos hempty]
    | close => cases hwants
  have hfirst : s.step (.run t) =
      some ((s.setSem job.side { s.sem job.side with lock := some t }).goto t job .locked) := by
    rw [step_run ht hfreed, hstuck, stuck, if_neg (by rw [hopen]; simp), lockThen,
      Semaphore.lockSem, if_pos hlock]
    rfl
  refine ⟨_, { (s.setSem job.side { s.sem job.side with lock := some t }).goto t job .locked with
      lock := none }.goto t job .notify, Run.snoc (Run.single hfirst) (a := .run t) ?_,
    goto_thread_self _ _ _ _, ?_, ?_, rfl, rfl, rfl, rfl, hfreed, fun u hu => ?_⟩
  · rw [step_run (goto_thread_self _ t job .locked)]
    · simp only [runStep]
    · exact hfreed
  · rw [goto_sem]
    exact congrArg Semaphore.lock (setSem_sem_self s job.side _)
  · rw [goto_sem]
    exact setSem_sem_of_ne (Side.flip_ne _) _
  · rw [goto_thread_of_ne hu]
    exact goto_thread_of_ne hu

/-- A thread calls and acquires `pi->lock`. -/
theorem run_call {a : Act T} (ha : a.starts = some (t, job)) (hjob : job.isClose = false)
    (h : Ready s t) :
    ∃ tr s', Run step s tr s' ∧ Frame { s with lock := some t } t s' ∧
      s'.thread t = some (job, .inside) ∧ s'.count = s.count ∧ s'.data = s.data := by
  have hcall : s.step a = some (s.goto t job .enter) := by
    have hopen := h.isOpen job.side
    cases a <;> cases ha <;>
      first | (simp only [step, h.freed, h.idle, and_self, if_true]; exact if_pos hopen) | cases hjob
  refine ⟨_, { s.goto t job .enter with lock := some t }.goto t job .inside,
    Run.snoc (Run.single hcall) (a := .run t) ?_, ⟨rfl, rfl, rfl, rfl, fun u hu => ?_⟩,
    goto_thread_self _ _ _ _, rfl, rfl⟩
  · rw [step_run (goto_thread_self _ t job .enter)]
    · cases job with
      | write | read => exact if_pos h.lock
      | close => cases hjob
    · exact h.freed
  · rw [goto_thread_of_ne hu]
    exact goto_thread_of_ne hu

/-- A writer of one byte more than the buffer holds fills it and comes to
the lock of `rlock`. -/
theorem writer_crosses (h : Ready s t) (hsem : (s.sem .write).lock = none) (hcount : s.count = 0) :
    ∃ tr s' src i, Run step s tr s' ∧ s'.thread t = some (.write src i, .notify) ∧
      (s'.sem .write).lock = some t ∧ s'.sem .read = s.sem .read ∧ s'.count = pipeSize ∧
      ∀ u, u ≠ t → s.thread u = none → Ready s' u := by
  obtain ⟨src, hsrc⟩ : ∃ src : List UInt8, src = List.replicate (pipeSize + 1) 65 := ⟨_, rfl⟩
  have hlength : src.length = pipeSize + 1 := by rw [hsrc, List.length_replicate]
  have hbytes : ∀ b ∈ src, b ≠ newline := by
    intro b hb
    rw [hsrc] at hb
    rw [List.eq_of_mem_replicate hb]
    decide
  obtain ⟨tr₁, s₁, hrun₁, hframe₁, ht₁, hcount₁, hdata₁⟩ :=
    run_call (show (Act.callWrite t src).starts = some (t, .write src 0) from rfl) rfl h
  obtain ⟨tr₂, s₂, hrun₂, hframe₂, ht₂, hcount₂, hdata₂⟩ := run_stores hbytes pipeSize
    (hframe₁.freed.trans h.freed) ht₁ (by omega) (by omega) (by rw [hdata₁]; exact h.data)
  have hframe := hframe₁.trans hframe₂
  have hfull : s₂.blocked .write = true := by
    rw [blocked_write_iff]
    omega
  obtain ⟨tr₃, s₃, hrun₃, ht₃, hlock, hother, hcount₃, hdata₃, hfree, hopen, hfreed, hthread⟩ :=
    run_crossing (hframe.freed.trans h.freed) ht₂ (show 0 + pipeSize < src.length by omega) hfull
      (by rw [hframe.isOpen]; exact h.isOpen _) (by rw [hframe.sem]; exact hsem)
  refine ⟨_, s₃, src, _, (hrun₁.append hrun₂).append hrun₃, ht₃, hlock, ?_, by omega,
    fun u hu hnone => ⟨hfreed, hfree, ?_, ?_, by rw [hdata₃]; exact hdata₂⟩⟩
  · exact hother.trans (congrFun hframe.sem _)
  · rw [hopen, hframe.isOpen]
    exact h.isOpen
  · rw [hthread u hu, hframe.thread u hu]
    exact hnone

/-- A reader of one byte more than the buffer holds empties it and comes to
the lock of `wlock`. -/
theorem reader_crosses (h : Ready s t) (hsem : (s.sem .read).lock = none)
    (hcount : s.count = pipeSize) :
    ∃ tr s' n dst, Run step s tr s' ∧ s'.thread t = some (.read n dst, .notify) ∧
      (s'.sem .read).lock = some t ∧ s'.sem .write = s.sem .write ∧ s'.freed = false ∧
      ∀ u, u ≠ t → s'.thread u = s.thread u := by
  obtain ⟨tr₁, s₁, hrun₁, hframe₁, ht₁, hcount₁, hdata₁⟩ := run_call
    (show (Act.callRead t (pipeSize + 1)).starts = some (t, .read (pipeSize + 1) []) from rfl) rfl h
  obtain ⟨tr₂, s₂, dst, hrun₂, hframe₂, ht₂, hlength₂, hcount₂⟩ := run_takes pipeSize
    (hframe₁.freed.trans h.freed) ht₁ (by omega) (by rw [List.length_nil]; omega)
    (by rw [hdata₁]; exact h.data)
  rw [List.length_nil] at hlength₂
  have hframe := hframe₁.trans hframe₂
  have hempty : s₂.blocked .read = true := by
    rw [blocked_read_iff]
    omega
  obtain ⟨tr₃, s₃, hrun₃, ht₃, hlock, hother, -, -, -, -, hfreed, hthread⟩ :=
    run_crossing (hframe.freed.trans h.freed) ht₂ (show dst.length < pipeSize + 1 by omega) hempty
      (by rw [hframe.isOpen]; exact h.isOpen _) (by rw [hframe.sem]; exact hsem)
  refine ⟨_, s₃, _, dst, (hrun₁.append hrun₂).append hrun₃, ht₃, hlock, ?_, hfreed, fun u hu => ?_⟩
  · exact hother.trans (congrFun hframe.sem _)
  · rw [hthread u hu, hframe.thread u hu]

/-- A thread at its second lock waits while another one has it. -/
theorem step_notify_of_lock (ht : s.thread t = some (job, .notify)) (hfreed : s.freed = false)
    (hlock : (s.sem job.side.flip).lock = some u) : s.step (.run t) = none := by
  have hrun : s.runStep t job .notify = s.lockThen t job job.side.flip .notifying := by
    simp only [runStep]
  rw [step_run ht hfreed, hrun, lockThen, Semaphore.lockSem, if_neg (by rw [hlock]; simp)]
  rfl

/-- **The locks cross.** The writer fills the buffer; before it comes to
the lock of `rlock`, the reader takes all of the buffer and finds it empty.
Neither of the two can take another step. -/
theorem locks_cross : ∃ tr s, Run step (init : State Bool) tr s ∧ s.Crossed ∧
    s.step (.run true) = none ∧ s.step (.run false) = none := by
  have hready : Ready (init : State Bool) true := ⟨rfl, rfl, fun _ => rfl, rfl, fun _ => nofun⟩
  obtain ⟨tr₁, s₁, src, i, hrun₁, hwriter, hwlock, hsem₁, hcount₁, hready₁⟩ :=
    writer_crosses hready rfl count_init
  obtain ⟨tr₂, s₂, n, dst, hrun₂, hreader, hrlock, hsem₂, hfreed₂, hthread₂⟩ :=
    reader_crosses (hready₁ false nofun rfl) (by rw [hsem₁]; rfl) hcount₁
  have hwriter₂ : s₂.thread true = some (.write src i, .notify) := by
    rw [hthread₂ true nofun, hwriter]
  rw [← hsem₂] at hwlock
  exact ⟨_, s₂, hrun₁.append hrun₂, ⟨true, false, src, i, n, dst, hwriter₂, hwlock, hreader, hrlock⟩,
    step_notify_of_lock hwriter₂ hfreed₂ hrlock, step_notify_of_lock hreader hfreed₂ hwlock⟩

end State

end OsKernel.Pipe
