import OsKernel.Pipe.Fifo

/-!
# No wake-up of a pipe is lost

A thread that has found the pipe blocked is committed to sleep from the
moment it locks its semaphore until it is woken. As it keeps the semaphore
locked until it is on the list, no `post_all_sem` can run in between, and
whoever changes what it has found still has its `post_all_sem` to do
(`Alive.pending`).

An end is closed while no call on it is in progress, and no call starts on
it from then on (`Disciplined`); that is what the count of references of
the file of an end is for.
-/

namespace OsKernel.Pipe

open Function

/-- The places between the decision to sleep and the sleep. -/
def At.isCommitted : At → Bool
  | .locked | .notify | .notifying | .sleepy => true
  | _ => false

/-- The places from which a call comes to a `post_all_sem`, whatever it
finds. -/
def At.willPost : At → Bool
  | .locked | .notify | .notifying | .broke | .leave | .leaving | .closing | .closePosting => true
  | _ => false

namespace State

variable {T : Type} {s s' : State T} {t u r : T} {job : Job} {pc : At} {σ : Side}
variable {tr : List (State T × Act T)}

/-- **Thread `u` has still to execute a `post_all_sem` on the semaphore of
`σ` in its call.** From inside the loop it comes to one unless it finds
`σ` closed. -/
def WillPost (s : State T) (σ : Side) (u : T) : Prop :=
  ∃ job pc, s.thread u = some (job, pc) ∧ job.side = σ.flip ∧
    (pc.willPost = true ∨ (pc = .inside ∧ s.isOpen σ = true))

/-- Thread `r` sleeps on the semaphore of `σ` or is about to. -/
def Committed (s : State T) (σ : Side) (r : T) : Prop :=
  (∃ job pc, s.thread r = some (job, pc) ∧ job.side = σ ∧ pc.isCommitted = true) ∨
    r ∈ (s.sem σ).sleeplist

/-- **How the ends are used**: two calls on one end overlap only if neither
of them closes it. -/
def Disciplined (s : State T) (a : Act T) : Prop :=
  ∀ t job, a.starts = some (t, job) → ∀ u j p, s.thread u = some (j, p) → j.side = job.side →
    j.isClose = false ∧ job.isClose = false

theorem disciplined_of_starts {a : Act T} (h : a.starts = none) : Disciplined s a := by
  intro t job ha
  rw [h] at ha
  cases ha

/-- An end with a read or a write in progress is open, and nobody is
closing it. -/
def Busy (s : State T) : Prop :=
  ∀ t job pc, s.thread t = some (job, pc) → job.isClose = false →
    s.isOpen job.side = true ∧ ∀ u p, s.thread u ≠ some (.close job.side, p)

/-- The invariant of the sleepers. -/
structure Alive (s : State T) : Prop where
  base : Base s
  busy : Busy s
  /-- Who sleeps with something to do will be woken. -/
  pending : ∀ σ r, s.Committed σ r → s.blocked σ = false ∨ s.isOpen σ.flip = false →
    ∃ u, s.WillPost σ u

theorem alive_init : Alive (init : State T) where
  base := base_init
  busy := nofun
  pending := fun σ r hr => by
    rcases hr with ⟨_, _, hthread, -⟩ | hmem
    · cases hthread
    · cases hmem

/-- The end of a sleeper is open. -/
theorem Busy.isOpen_of_committed (h : Busy s) (hb : Base s) (hr : s.Committed σ r) :
    s.isOpen σ = true := by
  rcases hr with ⟨job, pc, ht, rfl, hpc⟩ | hmem
  · refine (h r job pc ht ?_).1
    rcases hb.fits r job pc ht with rfl | hfits
    · cases hpc
    · rw [← hfits]
      cases pc <;> first | rfl | cases hpc
  · obtain ⟨job, pc, ht, rfl, hpc⟩ := hb.asleep σ r hmem
    refine (h r job pc ht ?_).1
    rcases hb.fits r job pc ht with rfl | hfits
    · rcases hpc with hpc | hpc <;> cases hpc
    · rw [← hfits]
      rcases hpc with rfl | rfl <;> rfl

variable [DecidableEq T]

/-! ## One step -/

/-- Only `pipeClose` changes which ends are open. -/
theorem Move.isOpen_eq (hm : Move s t job pc s') :
    s'.isOpen = s.isOpen ∨ ∃ σ, job = .close σ ∧ s'.isOpen = update s.isOpen σ false ∧
      s'.thread t = some (.close σ, .closing) := by
  cases hm with
  | mark => exact Or.inr ⟨_, rfl, rfl, goto_thread_self _ _ _ _⟩
  | post _ hpost | postLast hpost =>
    obtain ⟨r, -, rfl⟩ := Option.map_eq_some_iff.1 hpost
    exact Or.inl rfl
  | _ => exact Or.inl rfl

section

variable (ht : s.thread t = some (job, pc)) (hm : Move s t job pc s')

include ht hm

/-- **A step of a thread that has a post to do does it or has it to do
still.** -/
theorem WillPost.move (hw : s.WillPost σ t) (hb : Base s) :
    s'.WillPost σ t ∨ ((s'.sem σ).sleeplist = [] ∧ (s.sem σ).lock = some t) := by
  obtain ⟨job', pc', ht', hside, hpc⟩ := hw
  rw [ht] at ht'
  obtain ⟨rfl, rfl⟩ := pair_inj ht'
  have hflip : job.side.flip = σ := by rw [hside, Side.flip_flip]
  -- the places of the loop and after it, up to the lock of the other semaphore
  have hgoto : ∀ {s₁ : State T} {j : Job} {p : At}, j.side = job.side → p.willPost = true →
      (s₁.goto t j p).WillPost σ t :=
    fun hj hp => ⟨_, _, goto_thread_self _ _ _ _, hj.trans hside, Or.inl hp⟩
  cases hm with
  | acquire | mark | sleep | wake | cancel | woken | closeFree | closeEnd =>
    rcases hpc with hpc | ⟨hpc, -⟩ <;> cases hpc
  | store =>
    rcases hpc with hpc | ⟨-, hopen⟩
    · cases hpc
    · exact Or.inl ⟨_, _, goto_thread_self _ _ _ _, hside, Or.inr ⟨rfl, hopen⟩⟩
  | take =>
    rcases hpc with hpc | ⟨-, hopen⟩
    · cases hpc
    · refine Or.inl ⟨_, _, goto_thread_self _ _ _ _, hside, ?_⟩
      split
      · exact Or.inl rfl
      · exact Or.inr ⟨rfl, hopen⟩
  | giveUp _ _ hclosed =>
    rcases hpc with hpc | ⟨-, hopen⟩
    · cases hpc
    · rw [hflip, hopen] at hclosed
      cases hclosed
  | lockOwn | finish | broke | release => exact Or.inl (hgoto rfl rfl)
  | lockOther hpc' =>
    rcases pair_mem_three hpc' with ⟨-, rfl⟩ | ⟨-, rfl⟩ | ⟨-, rfl⟩ <;> exact Or.inl (hgoto rfl rfl)
  | post hpc' hpost =>
    rw [hb.postAll_eq] at hpost
    obtain rfl := Option.some.inj hpost
    refine Or.inr ⟨?_, ?_⟩
    · rw [goto_sem, hflip, setSem_sem_self]
    · rw [← hflip]
      refine hb.other t job _ ht ?_
      rcases pair_mem_two hpc' with ⟨rfl, -⟩ | ⟨rfl, -⟩ <;> rfl
  | postLast hpost =>
    rw [hb.postAll_eq] at hpost
    obtain rfl := Option.some.inj hpost
    refine Or.inr ⟨?_, ?_⟩
    · rw [ret_sem, hflip, setSem_sem_self]
    · rw [← hflip]
      exact hb.other t job _ ht rfl

/-- A thread on its way to sleep was so before, or has just found the pipe
blocked and the other end open. -/
theorem Move.committed_place {j : Job} {p : At} (hp : s'.thread t = some (j, p))
    (hcommitted : p.isCommitted = true) :
    (j = job ∧ pc.isCommitted = true) ∨
      (s'.blocked j.side = true ∧ s'.isOpen j.side.flip = true) := by
  cases hm with
  | lockOwn _ hblocked hopen =>
    obtain ⟨rfl, rfl⟩ := goto_inv hp
    refine Or.inr ⟨?_, hopen⟩
    rwa [blocked_congr rfl rfl]
  | release => exact Or.inl ⟨(goto_inv hp).1, rfl⟩
  | lockOther hpc =>
    obtain ⟨rfl, rfl⟩ := goto_inv hp
    rcases pair_mem_three hpc with ⟨rfl, rfl⟩ | ⟨rfl, rfl⟩ | ⟨rfl, rfl⟩
    · exact Or.inl ⟨rfl, rfl⟩
    · cases hcommitted
    · cases hcommitted
  | post hpc =>
    obtain ⟨rfl, rfl⟩ := goto_inv hp
    rcases pair_mem_two hpc with ⟨rfl, rfl⟩ | ⟨rfl, rfl⟩
    · exact Or.inl ⟨rfl, rfl⟩
    · cases hcommitted
  | take | sleep =>
    obtain ⟨-, rfl⟩ := goto_inv hp
    split at hcommitted <;> cases hcommitted
  | giveUp | postLast | cancel | closeFree | closeEnd =>
    rw [ret_thread_self] at hp
    cases hp
  | _ =>
    obtain ⟨-, rfl⟩ := goto_inv hp
    cases hcommitted

/-- A thread that has come to sleep was on its way. -/
theorem Move.committed_sleep (hb : Base s) (hmem : t ∈ (s'.sem σ).sleeplist) : s.Committed σ t := by
  cases hm with
  | sleep =>
    by_cases hσ : σ = job.side
    · exact Or.inl ⟨job, .sleepy, ht, hσ.symm, rfl⟩
    · rw [goto_sem, setSem_sem_of_ne hσ] at hmem
      exact Or.inr hmem
  | lockOwn | lockOther | wake | woken => exact Or.inr (mem_sleeplist_setSem hmem id)
  | post _ hpost | postLast hpost =>
    rw [hb.postAll_eq] at hpost
    obtain rfl := Option.some.inj hpost
    exact Or.inr (mem_sleeplist_setSem hmem (absurd · List.not_mem_nil))
  | cancel hin hcancel =>
    rw [(Semaphore.cancelWait_of_mem (hb.wf _) hin).2] at hcancel
    obtain rfl := Option.some.inj hcancel
    exact Or.inr (mem_sleeplist_setSem hmem List.mem_of_mem_erase)
  | _ => exact Or.inr hmem

/-- **A thread commits itself to sleep only where it finds the pipe blocked
and the other end open.** -/
theorem Move.committed (hb : Base s) (hr : s'.Committed σ r) :
    s.Committed σ r ∨ (s'.blocked σ = true ∧ s'.isOpen σ.flip = true) := by
  by_cases hrt : r = t
  · subst hrt
    rcases hr with ⟨j, p, hp, rfl, hcommitted⟩ | hmem
    · rcases hm.committed_place ht hp hcommitted with ⟨rfl, hpc⟩ | hfound
      · exact Or.inl (Or.inl ⟨j, pc, ht, rfl, hpc⟩)
      · exact Or.inr hfound
    · exact Or.inl (hm.committed_sleep ht hb hmem)
  · refine Or.inl ?_
    rcases hr with ⟨j, p, hp, hrest⟩ | hmem
    · exact Or.inl ⟨j, p, by rw [← hm.thread_of_ne hrt, hp], hrest⟩
    · exact Or.inr (hm.sleeplist_sub hb hrt hmem)

/-- **Whoever unblocks a sleeper has a post to do.** -/
theorem Move.unblocks (hblocked : s.blocked σ = true) (hopen : s.isOpen σ.flip = true)
    (hnow : s'.blocked σ = false ∨ s'.isOpen σ.flip = false) (hσ : s'.isOpen σ = true) :
    s'.WillPost σ t := by
  rcases hnow with hnow | hnow
  · -- a byte was moved, and at the other end, as this one was blocked
    rcases hm.quiet_or with hq | ⟨src, i, rfl, -, -, hroom, rfl⟩ | ⟨n, dst, rfl, -, -, hdata, rfl⟩
    · rw [blocked_congr hq.nread hq.nwrite, hblocked] at hnow
      cases hnow
    · cases σ with
      | write =>
        rw [hroom] at hblocked
        cases hblocked
      | read => exact ⟨_, _, goto_thread_self _ _ _ _, rfl, Or.inr ⟨rfl, hσ⟩⟩
    · cases σ with
      | read =>
        rw [hdata] at hblocked
        cases hblocked
      | write =>
        refine ⟨_, _, goto_thread_self _ _ _ _, rfl, ?_⟩
        split
        · exact Or.inl rfl
        · exact Or.inr ⟨rfl, hσ⟩
  · rcases hm.isOpen_eq with heq | ⟨τ, rfl, heq, hp⟩
    · rw [heq, hopen] at hnow
      cases hnow
    · have hτ : σ.flip = τ := by
        by_contra hne
        rw [heq, update_of_ne hne, hopen] at hnow
        cases hnow
      exact ⟨_, _, hp, hτ.symm, Or.inl rfl⟩

/-! ## Runs -/

/-- A step keeps the use of the ends. -/
theorem Busy.move (h : Busy s) : Busy s' := by
  intro u j p hu hj
  -- the call was in progress before the step
  obtain ⟨j₀, p₀, hu₀, hside, hclose⟩ :
      ∃ j₀ p₀, s.thread u = some (j₀, p₀) ∧ j.side = j₀.side ∧ j.isClose = j₀.isClose := by
    by_cases hut : u = t
    · subst hut
      exact ⟨job, pc, ht, hm.same_side hu⟩
    · exact ⟨j, p, by rw [← hm.thread_of_ne hut, hu], rfl, rfl⟩
  obtain ⟨hopen, hnone⟩ := h u j₀ p₀ hu₀ (by rw [← hclose, hj])
  rw [hside]
  refine ⟨?_, fun w q hw => ?_⟩
  · rcases hm.isOpen_eq with heq | ⟨τ, rfl, heq, -⟩
    · rw [heq, hopen]
    · rw [heq, update_of_ne ?_, hopen]
      rintro rfl
      exact hnone t pc ht
  · by_cases hwt : w = t
    · subst hwt
      obtain ⟨hs, hc⟩ := hm.same_side hw
      cases job with
      | close τ =>
        obtain rfl : j₀.side = τ := hs
        exact hnone w pc ht
      | write | read => cases hc
    · exact hnone w q (by rw [← hm.thread_of_ne hwt, hw])

/-- After a post nobody is committed to sleep: the poster had the semaphore
locked, and the list is empty now. -/
theorem Move.not_committed_of_post (hb : Base s) (hw : s.WillPost σ t)
    (hempty : (s'.sem σ).sleeplist = []) (hlock : (s.sem σ).lock = some t) :
    ¬ s'.Committed σ r := by
  rintro (⟨j, p, hp, rfl, hcommitted⟩ | hmem)
  · by_cases hrt : r = t
    · subst hrt
      obtain ⟨job', pc', ht', hside, -⟩ := hw
      rw [ht] at ht'
      obtain ⟨rfl, -⟩ := pair_inj ht'
      rw [← (hm.same_side hp).1] at hside
      exact Side.flip_ne _ hside.symm
    · rw [hm.thread_of_ne hrt] at hp
      have hown := hb.own r j p hp (by cases p <;> first | rfl | cases hcommitted)
      rw [hlock] at hown
      exact hrt (Option.some.inj hown).symm
  · rw [hempty] at hmem
    cases hmem

/-- **A step of a call keeps the sleepers alive.** -/
theorem Alive.move (h : Alive s) : Alive s' := by
  have hbase := h.base.move ht hm
  have hbusy := h.busy.move ht hm
  refine ⟨hbase, hbusy, fun σ r hr hnow => ?_⟩
  have hσ := hbusy.isOpen_of_committed hbase hr
  rcases hm.committed ht h.base hr with hr₀ | ⟨hblocked, hopen⟩
  · by_cases hwas : s.blocked σ = false ∨ s.isOpen σ.flip = false
    · obtain ⟨u, hu⟩ := h.pending σ r hr₀ hwas
      by_cases hut : u = t
      · subst hut
        rcases hu.move ht hm h.base with hw | ⟨hempty, hlock⟩
        · exact ⟨u, hw⟩
        · exact absurd hr (hm.not_committed_of_post ht h.base hu hempty hlock)
      · obtain ⟨j, p, hj, hside, hp⟩ := hu
        refine ⟨u, j, p, by rw [hm.thread_of_ne hut, hj], hside, hp.imp_right fun hp => ?_⟩
        exact ⟨hp.1, hσ⟩
    · rw [not_or, Bool.not_eq_false, Bool.not_eq_false] at hwas
      exact ⟨t, hm.unblocks ht hwas.1 hwas.2 hnow hσ⟩
  · rw [hblocked, hopen] at hnow
    rcases hnow with hnow | hnow <;> cases hnow

end

/-- **A call that begins keeps the sleepers alive.** -/
theorem Alive.call {a : Act T} (h : Alive s) (hdisc : Disciplined s a)
    (hidle : s.thread t = none) (ha : a.starts = some (t, job))
    (hopen : job.isClose = false → s.isOpen job.side = true) :
    Alive (s.goto t job .enter) := by
  have hold : ∀ {u : T} {j : Job} {p : At}, s.thread u = some (j, p) →
      (s.goto t job .enter).thread u = some (j, p) := by
    intro u j p hu
    rw [goto_thread_of_ne, hu]
    rintro rfl
    rw [hidle] at hu
    cases hu
  refine ⟨h.base.call hidle, fun u j p hu hj => ?_, fun σ r hr hnow => ?_⟩
  · by_cases hut : u = t
    · subst hut
      obtain ⟨rfl, rfl⟩ := goto_inv hu
      refine ⟨hopen hj, fun w q hw => ?_⟩
      by_cases hwu : w = u
      · subst hwu
        rw [← (goto_inv hw).1] at hj
        cases hj
      · rw [goto_thread_of_ne hwu] at hw
        cases (hdisc u j ha w _ q hw rfl).1
    · rw [goto_thread_of_ne hut] at hu
      obtain ⟨ho, hnone⟩ := h.busy u j p hu hj
      refine ⟨ho, fun w q hw => ?_⟩
      by_cases hwt : w = t
      · subst hwt
        obtain ⟨rfl, -⟩ := goto_inv hw
        cases (hdisc w _ ha u j p hu rfl).2
      · rw [goto_thread_of_ne hwt] at hw
        exact hnone w q hw
  · have hr₀ : s.Committed σ r := by
      rcases hr with ⟨j, p, hp, hside, hcommitted⟩ | hmem
      · refine Or.inl ⟨j, p, ?_, hside, hcommitted⟩
        rw [← hp, goto_thread_of_ne]
        rintro rfl
        obtain ⟨-, rfl⟩ := goto_inv hp
        cases hcommitted
      · exact Or.inr hmem
    obtain ⟨u, j, p, hu, hside, hp⟩ := h.pending σ r hr₀ hnow
    exact ⟨u, j, p, hold hu, hside, hp⟩

/-- **Every action keeps the sleepers alive.** -/
theorem Alive.next {a : Act T} (h : Alive s) (hdisc : Disciplined s a) (hs : Next s a s') :
    Alive s' := by
  cases hs with
  | call hidle ha hopen => exact h.call hdisc hidle ha hopen
  | refuse => exact h
  | run ht hm => exact h.move ht hm
  | kill => exact ⟨h.base.next Next.kill, h.busy, h.pending⟩

/-- **No wake-up is lost.** In every run in which an end is closed only
while no call on it is in progress: if a thread sleeps on the semaphore of
an end whose calls are not blocked, or whose other end is closed, then some
thread has still to execute a `post_all_sem` on that semaphore in its call;
and a thread that has one to execute does so at its next step or still has
it to execute then. -/
theorem no_lost_wakeup (hrun : Run step init tr s) (hdisc : ∀ x ∈ tr, Disciplined x.1 x.2) :
    (∀ r ∈ (s.sem .read).sleeplist, s.nread ≠ s.nwrite ∨ s.isOpen .write = false →
      ∃ u, s.WillPost .read u) ∧
    (∀ r ∈ (s.sem .write).sleeplist,
      s.nread + UInt32.ofNat pipeSize ≠ s.nwrite ∨ s.isOpen .read = false →
      ∃ u, s.WillPost .write u) ∧
    ∀ σ u s', s.WillPost σ u → s.step (.run u) = some s' →
      s'.WillPost σ u ∨ (s'.sem σ).sleeplist = [] := by
  have h : Alive s := hrun.invariantOf hdisc alive_init fun _ _ _ hI hd hs =>
    hI.next hd (next_of_step hs)
  refine ⟨fun r hr hnow => h.pending .read r (Or.inr hr) ?_,
    fun r hr hnow => h.pending .write r (Or.inr hr) ?_, fun σ u s' hw hs => ?_⟩
  · exact hnow.imp_left fun hne => by rw [blocked, decide_eq_false_iff_not]; exact hne
  · exact hnow.imp_left fun hne => by rw [blocked, decide_eq_false_iff_not]; exact hne
  · cases next_of_step hs with
    | call _ ha => cases ha
    | refuse _ ha => cases ha
    | run ht hm => exact (hw.move ht hm h.base).imp_right And.left

/-- A reader sleeps on the empty pipe; a writer has stored a byte and is
still in its loop. -/
theorem no_lost_wakeup_readerAsleep : ∃ tr s, Run step (init : State Bool) tr s ∧
    (∀ x ∈ tr, Disciplined x.1 x.2) ∧ false ∈ (s.sem .read).sleeplist ∧ s.nread ≠ s.nwrite ∧
    ∃ u, s.WillPost .read u := by
  -- the reader goes to sleep
  have hread : step (init : State Bool) (.callRead false 1) =
    some (init.goto false (.read 1 []) .enter) := rfl
  have hexec : (exec step ((init : State Bool).goto false (.read 1 []) .enter)
      (List.replicate 6 (.run false))).map (fun s => (s.thread false, s.thread true)) =
      some (some (.read 1 [], .asleep), none) := by decide
  obtain ⟨s₁, hs₁, hthread⟩ := Option.map_eq_some_iff.1 hexec
  obtain ⟨hfalse, htrue⟩ := Prod.mk.inj hthread
  -- the writer stores its byte
  have hexec₂ : ((exec step ((init : State Bool).goto false (.read 1 []) .enter)
      (List.replicate 6 (.run false))).bind fun s =>
        exec step s [.callWrite true [65], .run true, .run true]).map (fun s =>
          (decide (false ∈ (s.sem .read).sleeplist), decide (s.nread ≠ s.nwrite))) =
      some (true, true) := by decide
  rw [hs₁, Option.bind_some] at hexec₂
  obtain ⟨s₂, hs₂, hfound⟩ := Option.map_eq_some_iff.1 hexec₂
  obtain ⟨hmem, hne⟩ := Prod.mk.inj hfound
  obtain ⟨s₃, hwrite, hs₃⟩ := Option.bind_eq_some_iff.1 hs₂
  have hrun := (((Run.single hread).append (Run.of_exec hs₁)).append (Run.single hwrite)).append
    (Run.of_exec hs₃)
  have hdisc : ∀ x ∈ [((init : State Bool), Act.callRead false 1)] ++
      execTrace step (init.goto false (.read 1 []) .enter) (List.replicate 6 (.run false)) ++
      [(s₁, Act.callWrite true [65])] ++ execTrace step s₃ [.run true, .run true],
      Disciplined x.1 x.2 := by
    simp only [List.forall_mem_append, List.forall_mem_singleton]
    refine ⟨⟨⟨?_, fun x hx => ?_⟩, ?_⟩, fun x hx => ?_⟩
    · intro t job _ u j p hu
      cases hu
    · exact disciplined_of_starts (forall_execTrace hs₁ (P := fun a => a.starts = none)
        (by simp [Act.starts]) x hx)
    · intro t job ha u j p hu hside
      obtain ⟨-, rfl⟩ := pair_inj ha
      cases u with
      | false =>
        rw [hfalse] at hu
        obtain ⟨rfl, -⟩ := pair_inj hu
        exact ⟨rfl, rfl⟩
      | true =>
        rw [htrue] at hu
        cases hu
    · exact disciplined_of_starts (forall_execTrace hs₃ (P := fun a => a.starts = none)
        (by simp [Act.starts]) x hx)
  exact ⟨_, s₂, hrun, hdisc, of_decide_eq_true hmem, of_decide_eq_true hne,
    (no_lost_wakeup hrun hdisc).1 false (of_decide_eq_true hmem) (Or.inl (of_decide_eq_true hne))⟩

end State

end OsKernel.Pipe
