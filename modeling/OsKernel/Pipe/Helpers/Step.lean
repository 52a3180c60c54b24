import OsKernel.Pipe.Model

/-!
# Helpers — what a step of a pipe can do

`Move` lists the steps of a thread that is in a call, with what each of
them has found and what it changes (`move_of_runStep`). `Base` is what
holds of the two semaphores in every state of a pipe: who has them locked
and who sleeps on them.
-/

namespace OsKernel.Pipe

open Function

variable {T : Type}

@[simp] theorem Side.flip_flip (σ : Side) : σ.flip.flip = σ := by
  cases σ <;> rfl

theorem Side.flip_ne (σ : Side) : σ.flip ≠ σ := by
  cases σ <;> decide

theorem Side.eq_flip_of_ne {σ τ : Side} (h : τ ≠ σ) : τ = σ.flip := by
  cases σ <;> cases τ <;> first | rfl | exact absurd rfl h

/-- The loop of the call goes on. -/
def Job.Wants : Job → Prop
  | .write src i => i < src.length
  | .read n dst => dst.length < n
  | .close _ => False

/-- The places at which a thread has its own semaphore locked. -/
def At.hasOwn : At → Bool
  | .locked | .notify | .notifying | .sleepy | .waking => true
  | _ => false

/-- The places at which a thread has the other semaphore locked. -/
def At.hasOther : At → Bool
  | .notifying | .leaving | .closePosting => true
  | _ => false

/-- The places at which a thread has `pi->lock`. -/
def At.hasPi : At → Bool
  | .inside | .locked | .broke | .closing | .closePosting | .closeLast => true
  | _ => false

def Job.isClose : Job → Bool
  | .close _ => true
  | _ => false

/-- The places of `pipeClose` with `pi->lock`. -/
def At.isClose : At → Bool
  | .closing | .closePosting | .closeLast => true
  | _ => false

/-- The places that a call can be at. -/
def Job.Fits (job : Job) (pc : At) : Prop := pc = .enter ∨ pc.isClose = job.isClose

/-- The call that an action starts. -/
def Act.starts : Act T → Option (T × Job)
  | .callWrite t src => some (t, .write src 0)
  | .callRead t n => some (t, .read n [])
  | .callClose t side => some (t, .close side)
  | .run _ | .kill _ => none

namespace State

variable {s s' : State T} {t u : T} {job : Job} {pc : At} {σ : Side}

/-! ## The semaphores -/

/-- **The semaphores of a pipe.** -/
structure Base (s : State T) : Prop where
  wf : ∀ σ, (s.sem σ).Wf
  /-- The semaphores never have a unit to take. -/
  val_le : ∀ σ, (s.sem σ).val ≤ 0
  nodup : ∀ σ, (s.sem σ).sleeplist.Nodup
  fits : ∀ t job pc, s.thread t = some (job, pc) → job.Fits pc
  own : ∀ t job pc, s.thread t = some (job, pc) → pc.hasOwn = true →
    (s.sem job.side).lock = some t
  other : ∀ t job pc, s.thread t = some (job, pc) → pc.hasOther = true →
    (s.sem job.side.flip).lock = some t
  asleep : ∀ σ, ∀ t ∈ (s.sem σ).sleeplist, ∃ job pc, s.thread t = some (job, pc) ∧
    job.side = σ ∧ (pc = .asleep ∨ pc = .waking)

theorem base_init : Base (init : State T) where
  wf := fun _ => Semaphore.wf_initSem (le_refl 0)
  val_le := fun _ => le_refl 0
  nodup := fun _ => List.nodup_nil
  fits := nofun
  own := nofun
  other := nofun
  asleep := nofun

section

variable (h : Base s) (hthread : ∀ u, u ≠ t → s'.thread u = s.thread u)
  (hself : ∀ job pc, s'.thread t = some (job, pc) → job.Fits pc ∧
    (pc.hasOwn = true → (s'.sem job.side).lock = some t) ∧
    (pc.hasOther = true → (s'.sem job.side.flip).lock = some t))
  (hasleep : ∀ σ, ∀ u ∈ (s'.sem σ).sleeplist, (u ≠ t ∧ u ∈ (s.sem σ).sleeplist) ∨
    (u = t ∧ ∃ job pc, s'.thread t = some (job, pc) ∧ job.side = σ ∧
      (pc = .asleep ∨ pc = .waking)))

include h hthread hself hasleep

/-- **What a thread `t` that takes a step has to see to.** -/
theorem Base.of_step (hsem : ∀ σ, (s'.sem σ).Wf ∧ (s'.sem σ).val ≤ 0 ∧ (s'.sem σ).sleeplist.Nodup)
    (hlock : ∀ σ u, u ≠ t → (s.sem σ).lock = some u → (s'.sem σ).lock = some u) : Base s' := by
  refine ⟨fun σ => (hsem σ).1, fun σ => (hsem σ).2.1, fun σ => (hsem σ).2.2,
    fun u job pc hu => ?_, fun u job pc hu hpc => ?_, fun u job pc hu hpc => ?_, fun σ u hu => ?_⟩
  · by_cases hut : u = t
    · subst hut
      exact (hself job pc hu).1
    · exact h.fits u job pc (by rw [← hthread u hut, hu])
  · by_cases hut : u = t
    · subst hut
      exact (hself job pc hu).2.1 hpc
    · exact hlock _ u hut (h.own u job pc (by rw [← hthread u hut, hu]) hpc)
  · by_cases hut : u = t
    · subst hut
      exact (hself job pc hu).2.2 hpc
    · exact hlock _ u hut (h.other u job pc (by rw [← hthread u hut, hu]) hpc)
  · rcases hasleep σ u hu with ⟨hut, hmem⟩ | ⟨rfl, job, pc, hpc⟩
    · obtain ⟨job, pc, hpc, hside⟩ := h.asleep σ u hmem
      exact ⟨job, pc, by rw [hthread u hut, hpc], hside⟩
    · exact ⟨job, pc, hpc⟩

/-- A step that changes the semaphore of `σ`. -/
theorem Base.of_setSem {sem : Semaphore T} (hsem : s'.sem = update s.sem σ sem)
    (hwf : sem.Wf ∧ sem.val ≤ 0 ∧ sem.sleeplist.Nodup)
    (hlock : ∀ u, u ≠ t → (s.sem σ).lock = some u → sem.lock = some u) : Base s' := by
  refine h.of_step hthread hself hasleep (fun τ => ?_) fun τ u hu hl => ?_
  · rw [hsem]
    by_cases hτ : τ = σ
    · subst hτ
      rw [update_self]
      exact hwf
    · rw [update_of_ne hτ]
      exact ⟨h.wf τ, h.val_le τ, h.nodup τ⟩
  · rw [hsem]
    by_cases hτ : τ = σ
    · subst hτ
      rw [update_self]
      exact hlock u hu hl
    · rwa [update_of_ne hτ]

end

/-! ## The counters -/

/-- How many bytes the buffer holds, in the arithmetic of the counters. -/
def count (s : State T) : ℕ := (s.nwrite - s.nread).toNat

theorem count_eq : s.count = (2 ^ 32 - s.nread.toNat + s.nwrite.toNat) % 2 ^ 32 :=
  UInt32.toNat_sub _ _

theorem blocked_read_iff : s.blocked .read = true ↔ s.count = 0 := by
  have hr := s.nread.toNat_lt
  have hw := s.nwrite.toNat_lt
  rw [count_eq]
  simp only [blocked, decide_eq_true_eq, ← UInt32.toNat_inj]
  omega

theorem blocked_write_iff : s.blocked .write = true ↔ s.count = pipeSize := by
  have hr := s.nread.toNat_lt
  have hw := s.nwrite.toNat_lt
  have hsize : (UInt32.ofNat pipeSize).toNat = 512 := rfl
  rw [count_eq]
  simp only [blocked, decide_eq_true_eq, ← UInt32.toNat_inj, UInt32.toNat_add, hsize, pipeSize]
  omega

theorem blocked_congr (hr : s'.nread = s.nread) (hw : s'.nwrite = s.nwrite) :
    s'.blocked σ = s.blocked σ := by
  cases σ <;> simp only [blocked, hr, hw]

/-- The counters after a byte is stored. -/
theorem count_store (h : s.count < pipeSize) (hw : s'.nwrite = s.nwrite + 1)
    (hr : s'.nread = s.nread) : s'.count = s.count + 1 := by
  have hone : (1 : UInt32).toNat = 1 := rfl
  rw [count_eq] at h ⊢
  rw [hw, hr, UInt32.toNat_add, hone, count_eq]
  simp only [pipeSize] at h
  omega

/-- The counters after a byte is taken. -/
theorem count_take (h : s.count ≠ 0) (hr : s'.nread = s.nread + 1)
    (hw : s'.nwrite = s.nwrite) : s'.count + 1 = s.count := by
  have h₁ := s.nread.toNat_lt
  have hone : (1 : UInt32).toNat = 1 := rfl
  rw [count_eq] at h
  rw [count_eq, count_eq, hw, hr, UInt32.toNat_add, hone]
  omega

/-- Where the next byte is stored. -/
theorem nwrite_eq : s.nwrite.toNat = (s.nread.toNat + s.count) % 2 ^ 32 := by
  have h₁ := s.nread.toNat_lt
  have h₂ := s.nwrite.toNat_lt
  rw [count_eq]
  omega

/-! ## Changes of the semaphores -/

@[simp] theorem setSem_sem_self (s : State T) (σ : Side) (sem : Semaphore T) :
    (s.setSem σ sem).sem σ = sem := update_self _ _ _

theorem setSem_sem_of_ne {τ : Side} (h : τ ≠ σ) (sem : Semaphore T) :
    (s.setSem σ sem).sem τ = s.sem τ := update_of_ne h _ _

/-- A change of a semaphore that puts `u` to sleep nowhere. -/
theorem mem_sleeplist_setSem {sem : Semaphore T} {τ : Side}
    (hu : u ∈ ((s.setSem σ sem).sem τ).sleeplist)
    (hsub : u ∈ sem.sleeplist → u ∈ (s.sem σ).sleeplist) : u ∈ (s.sem τ).sleeplist := by
  by_cases hτ : τ = σ
  · subst hτ
    rw [setSem_sem_self] at hu
    exact hsub hu
  · rwa [setSem_sem_of_ne hτ] at hu

/-- A thread that is not in `_wait_sem` sleeps nowhere. -/
theorem Base.not_mem (h : Base s) (ht : s.thread t = some (job, pc)) (hpc : pc ≠ .asleep)
    (hpc' : pc ≠ .waking) (σ : Side) : t ∉ (s.sem σ).sleeplist := by
  intro hmem
  obtain ⟨job', pc', hthread, -, hcase⟩ := h.asleep σ t hmem
  rw [ht] at hthread
  obtain ⟨-, rfl⟩ := pair_inj hthread
  exact hcase.elim hpc hpc'

/-- A thread sleeps on no semaphore but its own. -/
theorem Base.not_mem_flip (h : Base s) (ht : s.thread t = some (job, pc)) :
    t ∉ (s.sem job.side.flip).sleeplist := by
  intro hmem
  obtain ⟨job', pc', hthread, hside, -⟩ := h.asleep _ t hmem
  rw [ht] at hthread
  obtain ⟨rfl, -⟩ := pair_inj hthread
  exact (Side.flip_ne _).symm hside

/-- The semaphore that `post_all_sem` leaves. -/
theorem wf_empty : (⟨none, 0, []⟩ : Semaphore T).Wf ∧ (0 : ℤ) ≤ 0 ∧ ([] : List T).Nodup :=
  ⟨Semaphore.wf_initSem (le_refl 0), le_refl 0, List.nodup_nil⟩

/-- `post_all_sem` on a semaphore of a pipe wakes everybody. -/
theorem Base.postAll_eq (h : Base s) (σ : Side) :
    s.postAll σ = some (s.setSem σ ⟨none, 0, []⟩) := by
  rw [postAll, Semaphore.postAllLoop_of_wf (h.wf σ) (h.val_le σ)]
  rfl

/-- A step that leaves the semaphores alone. -/
theorem Base.of_sem_eq (h : Base s) (ht : s.thread t = some (job, pc)) (hpc : pc ≠ .asleep)
    (hpc' : pc ≠ .waking) (hsem : s'.sem = s.sem)
    (hthread : ∀ u, u ≠ t → s'.thread u = s.thread u)
    (hself : ∀ j p, s'.thread t = some (j, p) → j.Fits p ∧
      (p.hasOwn = true → (s.sem j.side).lock = some t) ∧ p.hasOther = false) : Base s' := by
  refine h.of_step hthread (fun j p hp => ?_) (fun σ u hu => ?_) (fun σ => ?_) fun σ u _ hu => ?_
  · obtain ⟨hfits, hown, hother⟩ := hself j p hp
    refine ⟨hfits, fun hc => by rw [hsem]; exact hown hc, fun hc => ?_⟩
    rw [hother] at hc
    cases hc
  · rw [hsem] at hu
    refine Or.inl ⟨?_, hu⟩
    rintro rfl
    exact h.not_mem ht hpc hpc' σ hu
  · rw [hsem]
    exact ⟨h.wf σ, h.val_le σ, h.nodup σ⟩
  · rwa [hsem]

/-- A thread unlocks the semaphore of `σ` and goes on without sleeping on
it. -/
theorem Base.unlock {sem : Semaphore T} (h : Base s) (hheld : (s.sem σ).lock = some t)
    (hsem : s'.sem = update s.sem σ sem)
    (hwf : sem.Wf ∧ sem.val ≤ 0 ∧ sem.sleeplist.Nodup)
    (hthread : ∀ u, u ≠ t → s'.thread u = s.thread u)
    (hself : ∀ j p, s'.thread t = some (j, p) → j.Fits p ∧
      (p.hasOwn = true → j.side ≠ σ ∧ (s.sem j.side).lock = some t) ∧ p.hasOther = false)
    (hsub : ∀ u ∈ sem.sleeplist, u ≠ t ∧ u ∈ (s.sem σ).sleeplist)
    (hnot : t ∉ (s.sem σ.flip).sleeplist) : Base s' := by
  refine h.of_setSem hthread (fun j p hp => ?_) (fun τ u hu => ?_) hsem hwf fun u hu hl => ?_
  · obtain ⟨hfits, hown, hother⟩ := hself j p hp
    refine ⟨hfits, fun hc => ?_, fun hc => ?_⟩
    · rw [hsem, update_of_ne (hown hc).1]
      exact (hown hc).2
    · rw [hother] at hc
      cases hc
  · rw [hsem] at hu
    by_cases hτ : τ = σ
    · subst hτ
      rw [update_self] at hu
      exact Or.inl (hsub u hu)
    · rw [update_of_ne hτ] at hu
      refine Or.inl ⟨?_, hu⟩
      rintro rfl
      rw [Side.eq_flip_of_ne hτ] at hu
      exact hnot hu
  · rw [hheld] at hl
    exact absurd (Option.some.inj hl).symm hu

/-! ## The steps -/

variable [DecidableEq T]

@[simp] theorem goto_thread_self (s : State T) (t : T) (job : Job) (pc : At) :
    (s.goto t job pc).thread t = some (job, pc) := update_self _ _ _

@[simp] theorem goto_sem (s : State T) (t : T) (job : Job) (pc : At) :
    (s.goto t job pc).sem = s.sem := rfl

@[simp] theorem ret_sem (s : State T) (t : T) : (s.ret t).sem = s.sem := rfl

theorem goto_inv {j : Job} {p : At} (h : (s.goto t job pc).thread t = some (j, p)) :
    j = job ∧ p = pc := by
  rw [goto_thread_self] at h
  exact pair_inj h.symm

theorem goto_thread_of_ne (h : u ≠ t) : (s.goto t job pc).thread u = s.thread u :=
  update_of_ne h _ _

@[simp] theorem ret_thread_self (s : State T) (t : T) : (s.ret t).thread t = none :=
  update_self _ _ _

theorem ret_thread_of_ne (h : u ≠ t) : (s.ret t).thread u = s.thread u :=
  update_of_ne h _ _

section Pairs

variable {α β : Type*} {x a b c : α} {y a' b' c' : β}

theorem pair_mem_two (h : (x, y) ∈ [(a, a'), (b, b')]) : x = a ∧ y = a' ∨ x = b ∧ y = b' := by
  simpa using h

theorem pair_mem_three (h : (x, y) ∈ [(a, a'), (b, b'), (c, c')]) :
    x = a ∧ y = a' ∨ x = b ∧ y = b' ∨ x = c ∧ y = c' := by
  simpa using h

end Pairs

/-- **The steps of a thread in a call.** -/
inductive Move (s : State T) (t : T) : Job → At → State T → Prop
  | acquire {job : Job} (hjob : job.isClose = false) (hfree : s.lock = none) :
      Move s t job .enter ({ s with lock := some t }.goto t job .inside)
  | mark {σ : Side} (hfree : s.lock = none) :
      Move s t (.close σ) .enter ({ s with
        lock := some t, isOpen := update s.isOpen σ false }.goto t (.close σ) .closing)
  | store {src : List UInt8} {i : ℕ} (hi : i < src.length) (hroom : s.blocked .write = false) :
      Move s t (.write src i) .inside ({ s with
        data := update s.data (s.nwrite.toNat % pipeSize) (src.getD i 0)
        nwrite := s.nwrite + 1 }.goto t (.write src (i + 1)) .inside)
  | take {n : ℕ} {dst : List UInt8} {b : UInt8} (hn : dst.length < n)
      (hdata : s.blocked .read = false) (hb : b = s.data (s.nread.toNat % pipeSize)) :
      Move s t (.read n dst) .inside ({ s with nread := s.nread + 1 }.goto t (.read n (dst ++ [b]))
        (if b = newline then .broke else .inside))
  | giveUp {job : Job} (hwants : job.Wants) (hblocked : s.blocked job.side = true)
      (hclosed : s.isOpen job.side.flip = false) :
      Move s t job .inside ({ s with lock := none }.ret t)
  | lockOwn {job : Job} (hwants : job.Wants) (hblocked : s.blocked job.side = true)
      (hopen : s.isOpen job.side.flip = true) (hlock : (s.sem job.side).lock = none) :
      Move s t job .inside
        ((s.setSem job.side { s.sem job.side with lock := some t }).goto t job .locked)
  | finish {job : Job} (hjob : job.isClose = false) (hdone : ¬ job.Wants) :
      Move s t job .inside ({ s with lock := none }.goto t job .leave)
  | broke {job : Job} : Move s t job .broke ({ s with lock := none }.goto t job .leave)
  | release {job : Job} : Move s t job .locked ({ s with lock := none }.goto t job .notify)
  | lockOther {job : Job} {pc pc' : At}
      (hpc : (pc, pc') ∈ [(At.notify, At.notifying), (.leave, .leaving), (.closing, .closePosting)])
      (hlock : (s.sem job.side.flip).lock = none) :
      Move s t job pc
        ((s.setSem job.side.flip { s.sem job.side.flip with lock := some t }).goto t job pc')
  | post {job : Job} {pc pc' : At} {s₁ : State T}
      (hpc : (pc, pc') ∈ [(At.notifying, At.sleepy), (.closePosting, .closeLast)])
      (hpost : s.postAll job.side.flip = some s₁) : Move s t job pc (s₁.goto t job pc')
  | postLast {job : Job} {s₁ : State T} (hpost : s.postAll job.side.flip = some s₁) :
      Move s t job .leaving (s₁.ret t)
  | sleep {job : Job} :
      Move s t job .sleepy ((s.setSem job.side ((s.sem job.side).waitSem t)).goto t job
        (if 0 ≤ (s.sem job.side).val - 1 then .enter else .asleep))
  | wake {job : Job} (hwoken : t ∉ (s.sem job.side).sleeplist ∨ s.killed t = true)
      (hlock : (s.sem job.side).lock = none) :
      Move s t job .asleep
        ((s.setSem job.side { s.sem job.side with lock := some t }).goto t job .waking)
  | cancel {job : Job} {sem : Semaphore T} (hmem : t ∈ (s.sem job.side).sleeplist)
      (hcancel : (s.sem job.side).cancelWait t = some sem) :
      Move s t job .waking ((s.setSem job.side { sem with lock := none }).ret t)
  | woken {job : Job} (hmem : t ∉ (s.sem job.side).sleeplist) :
      Move s t job .waking
        ((s.setSem job.side { s.sem job.side with lock := none }).goto t job .enter)
  | closeFree {job : Job} (hclosed : s.isOpen .read = false ∧ s.isOpen .write = false) :
      Move s t job .closeLast ({ s with freed := true }.ret t)
  | closeEnd {job : Job} : Move s t job .closeLast ({ s with lock := none }.ret t)

theorem lockThen_eq_some {pc : At} (h : s.lockThen t job σ pc = some s') :
    (s.sem σ).lock = none ∧
      s' = (s.setSem σ { s.sem σ with lock := some t }).goto t job pc := by
  obtain ⟨sem, hsem, rfl⟩ := Option.map_eq_some_iff.1 h
  obtain ⟨hlock, rfl⟩ := of_guard hsem
  exact ⟨hlock, rfl⟩

theorem move_of_stuck (hwants : job.Wants) (hblocked : s.blocked job.side = true)
    (h : s.stuck t job = some s') : Move s t job .inside s' := by
  unfold stuck at h
  split at h
  · rename_i hclosed
    obtain rfl := Option.some.inj h
    exact Move.giveUp hwants hblocked hclosed
  · rename_i hopen
    obtain ⟨hlock, rfl⟩ := lockThen_eq_some h
    exact Move.lockOwn hwants hblocked (by simpa using hopen) hlock

/-- **A step of a thread in a call is one of the list.** -/
theorem move_of_runStep (h : s.runStep t job pc = some s') : Move s t job pc s' := by
  cases pc with
  | enter =>
    cases job with
    | close side =>
      obtain ⟨hfree, rfl⟩ := of_guard h
      exact Move.mark hfree
    | write src i | read n dst =>
      obtain ⟨hfree, rfl⟩ := of_guard h
      exact Move.acquire rfl hfree
  | inside =>
    cases job with
    | close side => cases h
    | write src i =>
      simp only [runStep, writeRound] at h
      split at h
      · rename_i hi
        split at h
        · rename_i hblocked
          exact move_of_stuck hi hblocked h
        · rename_i hroom
          obtain rfl := Option.some.inj h
          exact Move.store hi (by simpa using hroom)
      · rename_i hi
        obtain rfl := Option.some.inj h
        exact Move.finish rfl hi
    | read n dst =>
      simp only [runStep, readRound] at h
      split at h
      · rename_i hn
        split at h
        · rename_i hblocked
          exact move_of_stuck hn hblocked h
        · rename_i hdata
          obtain rfl := Option.some.inj h
          exact Move.take hn (by simpa using hdata) rfl
      · rename_i hn
        obtain rfl := Option.some.inj h
        exact Move.finish rfl hn
  | locked =>
    obtain rfl : _ = s' := by simpa [runStep] using h
    exact Move.release
  | notify | leave | closing =>
    obtain ⟨hlock, rfl⟩ := lockThen_eq_some (by simpa [runStep] using h)
    exact Move.lockOther (by simp) hlock
  | notifying | closePosting =>
    obtain ⟨s₁, hpost, rfl⟩ := Option.map_eq_some_iff.1 (by simpa [runStep] using h)
    exact Move.post (by simp) hpost
  | sleepy =>
    obtain rfl := Option.some.inj (show some _ = some s' by simpa only [runStep] using h)
    exact Move.sleep
  | asleep =>
    have h : (if t ∉ (s.sem job.side).sleeplist ∨ s.killed t = true
      then s.lockThen t job job.side .waking else none) = some s' := by simpa only [runStep] using h
    split at h
    · rename_i hwoken
      obtain ⟨hlock, rfl⟩ := lockThen_eq_some h
      exact Move.wake hwoken hlock
    · cases h
  | waking =>
    have h : (if t ∈ (s.sem job.side).sleeplist then
        ((s.sem job.side).cancelWait t).map fun sem =>
          (s.setSem job.side { sem with lock := none }).ret t
      else some ((s.setSem job.side { s.sem job.side with lock := none }).goto t job .enter)) =
        some s' := by simpa only [runStep] using h
    split at h
    · rename_i hmem
      obtain ⟨sem, hcancel, rfl⟩ := Option.map_eq_some_iff.1 h
      exact Move.cancel hmem hcancel
    · rename_i hmem
      obtain rfl := Option.some.inj h
      exact Move.woken hmem
  | broke =>
    obtain rfl : _ = s' := by simpa [runStep] using h
    exact Move.broke
  | leaving =>
    obtain ⟨s₁, hpost, rfl⟩ := Option.map_eq_some_iff.1 (by simpa [runStep] using h)
    exact Move.postLast hpost
  | closeLast =>
    have h : (if s.isOpen .read = false ∧ s.isOpen .write = false
        then some ({ s with freed := true }.ret t) else some ({ s with lock := none }.ret t)) =
        some s' := by simpa only [runStep] using h
    split at h
    · rename_i hclosed
      obtain rfl := Option.some.inj h
      exact Move.closeFree hclosed
    · obtain rfl := Option.some.inj h
      exact Move.closeEnd

/-- A step moves nobody but the thread that takes it. -/
theorem Move.thread_of_ne (h : Move s t job pc s') (hu : u ≠ t) : s'.thread u = s.thread u := by
  cases h with
  | post _ hpost =>
    obtain ⟨r, -, rfl⟩ := Option.map_eq_some_iff.1 hpost
    exact goto_thread_of_ne hu
  | postLast hpost =>
    obtain ⟨r, -, rfl⟩ := Option.map_eq_some_iff.1 hpost
    exact ret_thread_of_ne hu
  | giveUp | cancel | closeFree | closeEnd => exact ret_thread_of_ne hu
  | _ => exact goto_thread_of_ne hu

/-- A thread locks a semaphore. -/
theorem Base.lock {pc' : At} (h : Base s) (ht : s.thread t = some (job, pc))
    (hlock : (s.sem σ).lock = none) (hfits : job.Fits pc')
    (hown : pc'.hasOwn = true → job.side = σ ∨ (s.sem job.side).lock = some t)
    (hother : pc'.hasOther = true → job.side.flip = σ ∨ (s.sem job.side.flip).lock = some t)
    (hpc : pc = .asleep ∨ pc = .waking → pc' = .waking) :
    Base ((s.setSem σ { s.sem σ with lock := some t }).goto t job pc') := by
  -- a semaphore that `t` had locked is not `σ`
  have hkept : ∀ τ, τ = σ ∨ (s.sem τ).lock = some t →
      ((s.setSem σ { s.sem σ with lock := some t }).sem τ).lock = some t := by
    intro τ hτ
    by_cases hne : τ = σ
    · subst hne
      rw [setSem_sem_self]
    · rw [setSem_sem_of_ne hne]
      exact hτ.resolve_left hne
  have hsleep : ∀ τ, ((s.setSem σ { s.sem σ with lock := some t }).sem τ).sleeplist =
      (s.sem τ).sleeplist := by
    intro τ
    by_cases hne : τ = σ
    · subst hne
      rw [setSem_sem_self]
    · rw [setSem_sem_of_ne hne]
  refine h.of_setSem (fun u hu => goto_thread_of_ne hu) (fun j p hp => ?_) (fun τ u hu => ?_) rfl
    ⟨h.wf σ, h.val_le σ, h.nodup σ⟩ fun u _ hu => ?_
  · obtain ⟨rfl, rfl⟩ := goto_inv hp
    exact ⟨hfits, fun hc => hkept _ (hown hc), fun hc => hkept _ (hother hc)⟩
  · have hmem : u ∈ (s.sem τ).sleeplist := by
      rw [← hsleep τ]
      exact hu
    by_cases hut : u = t
    · subst hut
      obtain ⟨job', pc'', hthread, hside, hcase⟩ := h.asleep τ u hmem
      rw [ht] at hthread
      obtain ⟨rfl, rfl⟩ := pair_inj hthread
      exact Or.inr ⟨rfl, job, pc', goto_thread_self _ _ _ _, hside, Or.inr (hpc hcase)⟩
    · exact Or.inl ⟨hut, hmem⟩
  · rw [hlock] at hu
    cases hu

/-- **A step keeps the semaphores in order.** -/
theorem Base.move (h : Base s) (ht : s.thread t = some (job, pc)) (hm : Move s t job pc s') :
    Base s' := by
  have hthread := fun u (hu : u ≠ t) => hm.thread_of_ne hu
  have hfits := h.fits t job pc ht
  have hown := h.own t job pc ht
  have hother := h.other t job pc ht
  cases hm with
  | acquire hjob | finish hjob =>
    refine h.of_sem_eq ht (by simp) (by simp) rfl hthread fun j p hp => ?_
    obtain ⟨rfl, rfl⟩ := goto_inv hp
    exact ⟨Or.inr hjob.symm, by rintro ⟨⟩, rfl⟩
  | mark | store =>
    refine h.of_sem_eq ht (by simp) (by simp) rfl hthread fun j p hp => ?_
    obtain ⟨rfl, rfl⟩ := goto_inv hp
    exact ⟨Or.inr rfl, by rintro ⟨⟩, rfl⟩
  | broke =>
    refine h.of_sem_eq ht (by simp) (by simp) rfl hthread fun j p hp => ?_
    obtain ⟨rfl, rfl⟩ := goto_inv hp
    exact ⟨by simpa [Job.Fits, At.isClose] using hfits, by rintro ⟨⟩, rfl⟩
  | take =>
    refine h.of_sem_eq ht (by simp) (by simp) rfl hthread fun j p hp => ?_
    obtain ⟨rfl, rfl⟩ := goto_inv hp
    split <;> exact ⟨Or.inr rfl, by rintro ⟨⟩, rfl⟩
  | release =>
    refine h.of_sem_eq ht (by simp) (by simp) rfl hthread fun j p hp => ?_
    obtain ⟨rfl, rfl⟩ := goto_inv hp
    exact ⟨by simpa [Job.Fits, At.isClose] using hfits, fun _ => hown rfl, rfl⟩
  | giveUp | closeFree | closeEnd =>
    refine h.of_sem_eq ht (by simp) (by simp) rfl hthread fun j p hp => ?_
    rw [ret_thread_self] at hp
    cases hp
  | lockOwn _ _ _ hlock =>
    exact h.lock ht hlock (by simpa [Job.Fits, At.isClose] using hfits) (fun _ => Or.inl rfl)
      (by rintro ⟨⟩)
      (by simp)
  | lockOther hpc hlock =>
    rcases pair_mem_three hpc with ⟨rfl, rfl⟩ | ⟨rfl, rfl⟩ | ⟨rfl, rfl⟩
    · exact h.lock ht hlock (by simpa [Job.Fits, At.isClose] using hfits) (fun _ => Or.inr (hown rfl))
        (fun _ => Or.inl rfl) (by simp)
    · exact h.lock ht hlock (by simpa [Job.Fits, At.isClose] using hfits) (by rintro ⟨⟩)
        (fun _ => Or.inl rfl) (by simp)
    · exact h.lock ht hlock (by simpa [Job.Fits, At.isClose] using hfits) (by rintro ⟨⟩)
        (fun _ => Or.inl rfl) (by simp)
  | post hpc hpost =>
    rw [h.postAll_eq] at hpost
    obtain rfl := Option.some.inj hpost
    rcases pair_mem_two hpc with ⟨rfl, rfl⟩ | ⟨rfl, rfl⟩
    · refine h.unlock (hother rfl) rfl wf_empty hthread (fun j p hp => ?_) (by simp)
        (h.not_mem ht (by simp) (by simp) _)
      obtain ⟨rfl, rfl⟩ := goto_inv hp
      exact ⟨by simpa [Job.Fits, At.isClose] using hfits,
        fun _ => ⟨(Side.flip_ne j.side).symm, hown rfl⟩, rfl⟩
    · refine h.unlock (hother rfl) rfl wf_empty hthread (fun j p hp => ?_) (by simp)
        (h.not_mem ht (by simp) (by simp) _)
      obtain ⟨rfl, rfl⟩ := goto_inv hp
      exact ⟨by simpa [Job.Fits, At.isClose] using hfits, by rintro ⟨⟩, rfl⟩
  | postLast hpost =>
    rw [h.postAll_eq] at hpost
    obtain rfl := Option.some.inj hpost
    refine h.unlock (hother rfl) rfl wf_empty hthread (fun j p hp => ?_) (by simp)
      (h.not_mem ht (by simp) (by simp) _)
    rw [ret_thread_self] at hp
    cases hp
  | sleep =>
    -- there is never a unit to take, so the thread is put on the list
    have hval := h.val_le job.side
    have hne : ¬ 0 ≤ (s.sem job.side).val - 1 := by omega
    have hsem : (s.sem job.side).waitSem t =
        ⟨none, (s.sem job.side).val - 1, t :: (s.sem job.side).sleeplist⟩ := by
      rw [Semaphore.waitSem, if_neg hne]
    have hwf := Semaphore.wf_waitSem (t := t) (h.wf job.side)
    rw [if_neg hne, hsem] at hthread ⊢
    rw [hsem] at hwf
    refine h.of_setSem hthread (fun j p hp => ?_) (fun τ u hu => ?_) rfl
      ⟨hwf, by simp only; omega, ?_⟩ fun u hu hl => ?_
    · obtain ⟨rfl, rfl⟩ := goto_inv hp
      exact ⟨by simpa [Job.Fits, At.isClose] using hfits, by rintro ⟨⟩, by rintro ⟨⟩⟩
    · rw [goto_sem] at hu
      by_cases hτ : τ = job.side
      · subst hτ
        rw [setSem_sem_self] at hu
        by_cases hut : u = t
        · subst hut
          exact Or.inr ⟨rfl, job, .asleep, goto_thread_self _ _ _ _, rfl, Or.inl rfl⟩
        · exact Or.inl ⟨hut, (List.mem_cons.1 hu).resolve_left hut⟩
      · rw [setSem_sem_of_ne hτ] at hu
        refine Or.inl ⟨?_, hu⟩
        rintro rfl
        exact h.not_mem ht (by simp) (by simp) τ hu
    · exact List.nodup_cons.2 ⟨h.not_mem ht (by simp) (by simp) _, h.nodup _⟩
    · rw [hown rfl] at hl
      exact absurd (Option.some.inj hl).symm hu
  | wake hwoken hlock =>
    exact h.lock ht hlock (by simpa [Job.Fits, At.isClose] using hfits) (fun _ => Or.inl rfl)
      (by rintro ⟨⟩)
      fun _ => rfl
  | cancel hmem hcancel =>
    have hval := (Semaphore.cancelWait_of_mem (h.wf job.side) hmem).1
    have hwf := Semaphore.wf_cancelWait (h.wf job.side) hmem hcancel
    rw [(Semaphore.cancelWait_of_mem (h.wf job.side) hmem).2] at hcancel
    obtain rfl := Option.some.inj hcancel
    have hnodup := h.nodup job.side
    refine h.unlock (hown rfl) rfl ⟨hwf, by simp only; omega, hnodup.erase t⟩ hthread
      (fun j p hp => ?_) (fun u hu => ⟨?_, List.mem_of_mem_erase hu⟩) (h.not_mem_flip ht)
    · rw [ret_thread_self] at hp
      cases hp
    · rintro rfl
      exact hnodup.not_mem_erase hu
  | woken hmem =>
    refine h.unlock (hown rfl) rfl ⟨h.wf job.side, h.val_le job.side, h.nodup job.side⟩ hthread
      (fun j p hp => ?_) (fun u hu => ⟨?_, hu⟩) (h.not_mem_flip ht)
    · obtain ⟨rfl, rfl⟩ := goto_inv hp
      exact ⟨Or.inl rfl, by rintro ⟨⟩, rfl⟩
    · rintro rfl
      exact hmem hu

/-! ## What a step leaves alone -/

theorem Move.killed_eq (h : Move s t job pc s') : s'.killed = s.killed := by
  cases h with
  | post _ hpost | postLast hpost =>
    obtain ⟨r, -, rfl⟩ := Option.map_eq_some_iff.1 hpost
    rfl
  | _ => rfl

/-- A step puts nobody else to sleep. -/
theorem Move.sleeplist_sub (h : Move s t job pc s') (hb : Base s) (hut : u ≠ t)
    (hu : u ∈ (s'.sem σ).sleeplist) : u ∈ (s.sem σ).sleeplist := by
  cases h with
  | lockOwn | lockOther | wake | woken => exact mem_sleeplist_setSem hu id
  | post _ hpost | postLast hpost =>
    rw [hb.postAll_eq] at hpost
    obtain rfl := Option.some.inj hpost
    exact mem_sleeplist_setSem hu (absurd · List.not_mem_nil)
  | sleep =>
    refine mem_sleeplist_setSem hu fun hmem => ?_
    unfold Semaphore.waitSem at hmem
    split at hmem
    · exact hmem
    · exact (List.mem_cons.1 hmem).resolve_left hut
  | cancel hmem hcancel =>
    rw [(Semaphore.cancelWait_of_mem (hb.wf _) hmem).2] at hcancel
    obtain rfl := Option.some.inj hcancel
    exact mem_sleeplist_setSem hu List.mem_of_mem_erase
  | _ => exact hu

/-! ## The actions -/

/-- What an action does. -/
inductive Next (s : State T) : Act T → State T → Prop
  | call {a : Act T} {t : T} {job : Job} (hidle : s.thread t = none)
      (ha : a.starts = some (t, job)) (hopen : job.isClose = false → s.isOpen job.side = true) :
      Next s a (s.goto t job .enter)
  /-- A call on a closed end returns at once. -/
  | refuse {a : Act T} {t : T} {job : Job} (hidle : s.thread t = none)
      (ha : a.starts = some (t, job)) (hclosed : s.isOpen job.side = false) : Next s a s
  | run {t : T} {job : Job} {pc : At} {s' : State T} (ht : s.thread t = some (job, pc))
      (hm : Move s t job pc s') : Next s (.run t) s'
  | kill {t : T} : Next s (.kill t) { s with killed := update s.killed t true }

/-- **An action does one of these.** -/
theorem next_of_step {a : Act T} (h : s.step a = some s') : Next s a s' := by
  cases a with
  | callWrite t src | callRead t n =>
    simp only [step] at h
    split at h
    · rename_i hidle
      split at h
      · rename_i hopen
        obtain rfl := Option.some.inj h
        exact Next.call hidle.2 rfl fun _ => hopen
      · rename_i hclosed
        obtain rfl := Option.some.inj h
        exact Next.refuse hidle.2 rfl (Bool.eq_false_iff.2 hclosed)
    · cases h
  | callClose t side =>
    obtain ⟨hidle, rfl⟩ := of_guard h
    exact Next.call hidle.2 rfl nofun
  | run t =>
    simp only [step] at h
    split at h
    · cases h
    · obtain ⟨⟨job, pc⟩, ht, hs⟩ := Option.bind_eq_some_iff.1 h
      exact Next.run ht (move_of_runStep hs)
  | kill t =>
    obtain rfl := Option.some.inj h
    exact Next.kill

/-- A thread enters a call. -/
theorem Base.call (h : Base s) (hidle : s.thread t = none) : Base (s.goto t job .enter) := by
  refine h.of_step (fun u hu => goto_thread_of_ne hu) (fun j p hp => ?_)
    (fun σ u hu => Or.inl ⟨?_, hu⟩) (fun σ => ⟨h.wf σ, h.val_le σ, h.nodup σ⟩) fun _ _ _ hl => hl
  · obtain ⟨rfl, rfl⟩ := goto_inv hp
    exact ⟨Or.inl rfl, nofun, nofun⟩
  · rintro rfl
    obtain ⟨j, p, hp, -⟩ := h.asleep σ u hu
    rw [hidle] at hp
    cases hp

theorem Base.next {a : Act T} (h : Base s) (hs : Next s a s') : Base s' := by
  cases hs with
  | call hidle => exact h.call hidle
  | refuse => exact h
  | run ht hm => exact h.move ht hm
  | kill => exact ⟨h.wf, h.val_le, h.nodup, h.fits, h.own, h.other, h.asleep⟩

/-- **The actions keep the semaphores in order.** -/
theorem base_of_run {tr : List (State T × Act T)} (h : Run step init tr s) : Base s :=
  h.invariant base_init fun _ _ _ hI hs => hI.next (next_of_step hs)

/-! ## The lock of the pipe -/

/-- The threads in a critical section of `pi->lock` have it. -/
def Exclusive (s : State T) : Prop :=
  ∀ t job pc, s.thread t = some (job, pc) → pc.hasPi = true → s.lock = some t

/-- A step of `t` that keeps the lock, or that takes or releases it. -/
theorem Exclusive.of_step (h : Exclusive s) (ht : s.thread t = some (job, pc))
    (hthread : ∀ u, u ≠ t → s'.thread u = s.thread u)
    (hlock : s'.lock = s.lock ∨ s.lock = none ∨ pc.hasPi = true)
    (hself : ∀ j p, s'.thread t = some (j, p) → p.hasPi = true →
      s'.lock = some t ∨ (s'.lock = s.lock ∧ pc.hasPi = true)) : Exclusive s' := by
  intro u j p hu hp
  by_cases hut : u = t
  · subst hut
    rcases hself j p hu hp with hl | ⟨hl, hpc⟩
    · exact hl
    · rw [hl]
      exact h u job pc ht hpc
  · have hlu := h u j p (by rw [← hthread u hut, hu]) hp
    rcases hlock with hl | hl | hl
    · rw [hl, hlu]
    · rw [hlu] at hl
      cases hl
    · rw [h t job pc ht hl] at hlu
      exact absurd (Option.some.inj hlu).symm hut

theorem Exclusive.move (h : Exclusive s) (ht : s.thread t = some (job, pc))
    (hm : Move s t job pc s') : Exclusive s' := by
  have hthread := fun u (hu : u ≠ t) => hm.thread_of_ne hu
  cases hm with
  | acquire _ hfree | mark hfree =>
    exact h.of_step ht hthread (Or.inr (Or.inl hfree)) fun j p _ _ => Or.inl rfl
  | store | take | lockOwn =>
    exact h.of_step ht hthread (Or.inl rfl) fun j p _ _ => Or.inr ⟨rfl, rfl⟩
  | finish | broke | release =>
    refine h.of_step ht hthread (Or.inr (Or.inr rfl)) fun j p hp hpi => ?_
    obtain ⟨rfl, rfl⟩ := goto_inv hp
    cases hpi
  | giveUp | closeEnd =>
    refine h.of_step ht hthread (Or.inr (Or.inr rfl)) fun j p hp _ => ?_
    rw [ret_thread_self] at hp
    cases hp
  | closeFree | cancel =>
    refine h.of_step ht hthread (Or.inl rfl) fun j p hp _ => ?_
    rw [ret_thread_self] at hp
    cases hp
  | sleep | wake | woken =>
    refine h.of_step ht hthread (Or.inl rfl) fun j p hp hpi => ?_
    obtain ⟨rfl, rfl⟩ := goto_inv hp
    first | cases hpi | (split at hpi <;> cases hpi)
  | lockOther hpc =>
    refine h.of_step ht hthread (Or.inl rfl) fun j p hp hpi => Or.inr ⟨rfl, ?_⟩
    obtain ⟨rfl, rfl⟩ := goto_inv hp
    rcases pair_mem_three hpc with ⟨rfl, rfl⟩ | ⟨rfl, rfl⟩ | ⟨rfl, rfl⟩ <;> first | rfl | cases hpi
  | post hpc hpost =>
    obtain ⟨r, -, rfl⟩ := Option.map_eq_some_iff.1 hpost
    refine h.of_step ht hthread (Or.inl rfl) fun j p hp hpi => Or.inr ⟨rfl, ?_⟩
    obtain ⟨rfl, rfl⟩ := goto_inv hp
    rcases pair_mem_two hpc with ⟨rfl, rfl⟩ | ⟨rfl, rfl⟩ <;> first | rfl | cases hpi
  | postLast hpost =>
    obtain ⟨r, -, rfl⟩ := Option.map_eq_some_iff.1 hpost
    refine h.of_step ht hthread (Or.inl rfl) fun j p hp _ => ?_
    rw [ret_thread_self] at hp
    cases hp

/-- **At most one thread is in a critical section of `pi->lock`.** -/
theorem exclusive_of_run {tr : List (State T × Act T)} (h : Run step init tr s) :
    Exclusive s := by
  refine h.invariant nofun fun s a s' hI hs => ?_
  cases next_of_step hs with
  | @call _ t job hidle =>
    intro u j p hu hp
    by_cases hut : u = t
    · subst hut
      obtain ⟨rfl, rfl⟩ := goto_inv hu
      cases hp
    · rw [goto_thread_of_ne hut] at hu
      exact hI u j p hu hp
  | refuse => exact hI
  | run ht hm => exact hI.move ht hm
  | kill => exact hI

end State

end OsKernel.Pipe
