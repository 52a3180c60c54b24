import OsKernel.Sem.Guard

/-!
# The block cache — who holds a block

One block that stays in the cache, and any number of threads that acquire
and release it. The parts of `cache_acquire` and `cache_release` under the
lock of the cache are one step each. A thread that finds the block
acquired leaves that lock and waits on `block->lock`, which is a step of
its own, and goes back to `start` after it: the wait is not alertable, so
it ends with a unit.

The flag `acquired` decides who holds the block; the semaphore only says
who is to look again. A unit that `get_sem` does not find is not missed,
and a thread that has used a unit up may find the block acquired again
(`block_held_by_one`).
-/

namespace OsKernel.Cache

open Function

/-- Where a thread is with respect to the block. -/
inductive Place where
  /-- In neither function, without the block. -/
  | out
  /-- Has found the block acquired and left the lock of the cache. -/
  | waiting
  /-- Sleeps on `block->lock`, or was woken and has not run yet. -/
  | asleep
  /-- Is through with the wait and goes back to `start`. -/
  | retry
  | holding
deriving DecidableEq

/-- A block and the threads that use it. -/
structure BlockSys (T : Type) where
  acquired : Bool
  lock : Semaphore T
  place : T → Place

/-- The steps of the threads. -/
inductive BlockAct (T : Type) where
  | acquire (t : T)
  | wait (t : T)
  | resume (t : T)
  | release (t : T)

namespace BlockSys

variable {T : Type} [DecidableEq T]

/-- A block as `cache_acquire` by `t` leaves it where it has put the block
into the cache. -/
def created (t : T) : BlockSys T where
  acquired := true
  lock := (Semaphore.initSem 1).waitSem t
  place := update (fun _ => .out) t .holding

/-- Moves thread `t`. -/
def move (s : BlockSys T) (t : T) (p : Place) : BlockSys T :=
  { s with place := update s.place t p }

/-- The steps, or `none` where a thread cannot take one. -/
def step (s : BlockSys T) : BlockAct T → Option (BlockSys T)
  | .acquire t =>
    if s.place t = .out ∨ s.place t = .retry then
      if s.acquired then some (s.move t .waiting)
      else some ({ s with acquired := true, lock := s.lock.getSem.1 }.move t .holding)
    else none
  | .wait t =>
    if s.place t = .waiting then
      some ({ s with lock := s.lock.waitSem t }.move t
        (if 0 ≤ s.lock.val - 1 then .retry else .asleep))
    else none
  | .resume t =>
    if s.place t = .asleep ∧ t ∉ s.lock.sleeplist then some (s.move t .retry) else none
  | .release t =>
    if s.place t = .holding then
      s.lock.postSem.map fun r => { s with acquired := false, lock := r.1 }.move t .out
    else none

variable {s s' : BlockSys T} {t t₀ u : T}

/-- Thread `u` has been woken, or has passed the wait, and will look at the
block again. -/
def Coming (s : BlockSys T) (u : T) : Prop :=
  s.place u = .retry ∨ (s.place u = .asleep ∧ u ∉ s.lock.sleeplist)

/-- **The invariant of a block.** -/
structure Inv (s : BlockSys T) : Prop where
  guards : s.lock.Guards s.acquired (fun t => s.place t = .asleep) fun t => s.place t = .retry
  unique : ∀ t u, s.place t = .holding → s.place u = .holding → t = u
  held : s.acquired = true ↔ ∃ t, s.place t = .holding

theorem move_place_self (s : BlockSys T) (t : T) (p : Place) : (s.move t p).place t = p :=
  update_self _ _ _

theorem move_place_of_ne (h : u ≠ t) (p : Place) : (s.move t p).place u = s.place u :=
  update_of_ne h _ _

/-- One thread holds the block, and it did not before. -/
theorem unique_of_move (h : ∀ u, s.place u ≠ .holding) {u w : T}
    (hu : (s.move t .holding).place u = .holding) (hw : (s.move t .holding).place w = .holding) :
    u = w := by
  have hself : ∀ x, (s.move t .holding).place x = .holding → x = t := by
    intro x hx
    by_contra hne
    rw [move_place_of_ne hne] at hx
    exact h x hx
  rw [hself u hu, hself w hw]

theorem inv_created (t : T) : Inv (created t) where
  guards := .made t
  unique := fun _ _ => unique_of_move (s := ⟨true, Semaphore.initSem 1, fun _ => .out⟩) (by simp)
  held := ⟨fun _ => ⟨t, by simp only [created, update_self]⟩, fun _ => rfl⟩

/-! ## The steps -/

/-- Who holds the block is not changed by a move between two places without
it. -/
theorem holding_move_iff {p : Place} (ht : s.place t ≠ .holding) (hp : p ≠ .holding) :
    (s.move t p).place u = .holding ↔ s.place u = .holding := by
  by_cases hu : u = t
  · subst hu
    rw [move_place_self]
    exact ⟨fun he => absurd he hp, fun he => absurd he ht⟩
  · rw [move_place_of_ne hu]

/-- Such a move, with what it does to the semaphore. -/
theorem Inv.move (h : Inv s) {p : Place} {lock : Semaphore T} (ht : s.place t ≠ .holding)
    (hp : p ≠ .holding) (hguards : lock.Guards s.acquired
      (fun u => (s.move t p).place u = .asleep) fun u => (s.move t p).place u = .retry) :
    Inv ({ s with lock := lock }.move t p) := by
  have hhold : ∀ u, (s.move t p).place u = .holding ↔ s.place u = .holding :=
    fun u => holding_move_iff ht hp
  exact ⟨hguards, fun u w hu hw => h.unique u w ((hhold u).1 hu) ((hhold w).1 hw),
    h.held.trans (exists_congr fun u => (hhold u).symm)⟩

/-- A thread that is not in the list leaves it as it is. -/
theorem move_asleep {p : Place} (ht : t ∉ s.lock.sleeplist) :
    ∀ u ∈ s.lock.sleeplist, s.place u = .asleep → (s.move t p).place u = .asleep := by
  intro u hu hsleep
  rwa [move_place_of_ne (ne_of_mem_of_not_mem hu ht)]

omit [DecidableEq T] in
theorem Inv.not_mem (h : Inv s) (ht : s.place t ≠ .asleep) : t ∉ s.lock.sleeplist :=
  fun hmem => ht (h.guards.sleeper t hmem)

theorem Inv.acquire (h : Inv s) (hs : s.step (.acquire t) = some s') : Inv s' := by
  rw [step] at hs
  split at hs
  · rename_i hplace
    have hnot : t ∉ s.lock.sleeplist := h.not_mem (by rcases hplace with hp | hp <;> simp [hp])
    split_ifs at hs with hacq
    · obtain rfl := Option.some.inj hs
      refine h.move (by rcases hplace with hp | hp <;> simp [hp]) (by decide)
        (h.guards.mono (move_asleep hnot) fun hfree => ?_)
      rw [hacq] at hfree
      cases hfree
    · obtain rfl := Option.some.inj hs
      have hfree : s.acquired = false := by simpa using hacq
      have hguards := h.guards
      rw [hfree] at hguards
      have hkeep : s.lock.getSem.1.sleeplist = s.lock.sleeplist := by
        unfold Semaphore.getSem
        split <;> rfl
      refine ⟨hguards.take.mono (hkeep ▸ move_asleep hnot) (by simp [BlockSys.move]),
        fun u w => ?_, ⟨fun _ => ⟨t, move_place_self s t .holding⟩, fun _ => rfl⟩⟩
      exact unique_of_move fun x hx => hacq (h.held.2 ⟨x, hx⟩)
  · cases hs

theorem Inv.wait (h : Inv s) (hs : s.step (.wait t) = some s') : Inv s' := by
  obtain ⟨hplace, rfl⟩ := of_guard hs
  refine h.move (by simp [hplace]) (by split <;> simp) (h.guards.wait (by simp [hplace])
    (fun u hu => ?_) ?_)
  · rw [move_place_of_ne hu]
    exact ⟨id, id⟩
  · simp only [move_place_self]
    split <;> rfl

theorem Inv.resume (h : Inv s) (hs : s.step (.resume t) = some s') : Inv s' := by
  obtain ⟨hok, rfl⟩ := of_guard hs
  refine h.move (by simp [hok.1]) (by decide) (h.guards.mono (move_asleep hok.2) fun _ u _ hu => ?_)
  by_cases hut : u = t
  · exact Or.inr (hut ▸ move_place_self s t .retry)
  · rwa [move_place_of_ne hut]

theorem Inv.release (h : Inv s) (hs : s.step (.release t) = some s') : Inv s' := by
  rw [step] at hs
  split_ifs at hs with hplace
  obtain ⟨⟨lock, w⟩, hpost, rfl⟩ := Option.map_eq_some_iff.1 hs
  have hguards := h.guards
  rw [h.held.2 ⟨t, hplace⟩] at hguards
  have hnobody : ∀ u, (s.move t .out).place u ≠ .holding := by
    intro u hu
    by_cases hut : u = t
    · subst hut
      rw [move_place_self] at hu
      cases hu
    · rw [move_place_of_ne hut] at hu
      exact hut (h.unique u t hu hplace)
  obtain ⟨hguards, hsub⟩ := hguards.post hpost
  refine ⟨hguards.mono (fun u hu => ?_) fun _ u _ hu => ?_,
    fun x y hx _ => absurd hx (hnobody x), ⟨by simp [BlockSys.move], fun ⟨x, hx⟩ => absurd hx (hnobody x)⟩⟩
  · exact move_asleep (h.not_mem (by simp [hplace])) u (hsub.subset hu)
  · have hut : u ≠ t := by
      rintro rfl
      simp [hplace] at hu
    rwa [move_place_of_ne hut]

/-- **A block is held by one thread, and nobody sleeps for nothing.** In
every run of acquires and releases of a block in the cache at most one
thread holds the block, the flag says whether one does, the semaphore has
at most one unit, and while a thread sleeps on a block that nobody holds,
another one has been woken or has passed the wait and will look again. -/
theorem block_held_by_one {tr : List (BlockSys T × BlockAct T)}
    (hrun : Run step (created t₀) tr s) :
    (∀ t u, s.place t = .holding → s.place u = .holding → t = u) ∧
    (s.acquired = true ↔ ∃ t, s.place t = .holding) ∧
    s.lock.val ≤ 1 ∧
    (s.acquired = false → ∀ t ∈ s.lock.sleeplist, ∃ u, u ≠ t ∧ s.Coming u) := by
  have h : Inv s := hrun.invariant (I := Inv) (inv_created t₀) fun s a s' hI hs => by
    cases a with
    | acquire t => exact hI.acquire hs
    | wait t => exact hI.wait hs
    | resume t => exact hI.resume hs
    | release t => exact hI.release hs
  refine ⟨h.unique, h.held, ?_, fun hno t ht => ?_⟩
  · have := h.guards.val_le
    split at this <;> omega
  · obtain ⟨u, hu, hmem⟩ := (h.guards.coming hno).resolve_left (h.guards.val_of_mem ht)
    exact ⟨u, fun heq => hmem (heq ▸ ht), hu.symm.imp_right fun hsleep => ⟨hsleep, hmem⟩⟩

/-- A thread waits for the block, is woken by the release, and loses the
block to a newcomer. -/
theorem block_held_by_one_newcomer : ∃ tr s, Run step (created 1 : BlockSys ℕ) tr s ∧
    tr.length = 6 ∧ (s.acquired = true ↔ ∃ t, s.place t = .holding) := by
  obtain ⟨s, hs⟩ := Option.isSome_iff_exists.1 (show (exec step (created 1 : BlockSys ℕ)
    [.acquire 2, .wait 2, .release 1, .acquire 3, .resume 2, .acquire 2]).isSome by decide)
  have hrun := Run.of_exec hs
  refine ⟨_, s, hrun, ?_, (block_held_by_one hrun).2.1⟩
  rw [← List.length_map Prod.snd, map_snd_execTrace hs]
  rfl

end BlockSys

end OsKernel.Cache
