import Mathlib

/-!
# Semaphores

The counting semaphore of `common/sem.c`, as the state its lock protects:
the holder of `sem->lock`, the counter, and the sleepers. A sleeper is
put at the front of `sleeplist` and `_post_sem` wakes the one at the
back, so the list is the latest sleeper first.

`_wait_sem` is cut where the caller sleeps: `waitSem` is the part under
`sem->lock` up to the call of `sched`, and a sleeper has been woken by a
post (`wait->up`) exactly when it is no longer in `sleeplist`.
-/

namespace OsKernel

/-- The state of a semaphore, with `T` the threads. -/
structure Semaphore (T : Type) where
  /-- The holder of `sem->lock`. -/
  lock : Option T
  val : ℤ
  sleeplist : List T
deriving DecidableEq, Repr

namespace Semaphore

variable {T : Type}

/-- `init_sem`. -/
def initSem (val : ℤ) : Semaphore T := ⟨none, val, []⟩

/-- `_lock_sem`, which spins while another thread holds the lock. -/
def lockSem (t : T) (s : Semaphore T) : Option (Semaphore T) :=
  if s.lock = none then some { s with lock := some t } else none

/-- `_get_sem`: take a unit if there is one. -/
def getSem (s : Semaphore T) : Semaphore T × Bool :=
  if 0 < s.val then ({ s with val := s.val - 1 }, true) else (s, false)

/-- `_post_sem`: add a unit and wake the earliest sleeper, if any sleeps;
the woken thread is returned. `none` is the failed `ASSERT` on an empty
`sleeplist`. -/
def postSem (s : Semaphore T) : Option (Semaphore T × Option T) :=
  if s.val + 1 ≤ 0 then
    match s.sleeplist.getLast? with
    | none => none
    | some t => some ({ s with val := s.val + 1, sleeplist := s.sleeplist.dropLast }, some t)
  else some ({ s with val := s.val + 1 }, none)

/-- The loop of `post_all_sem`, with the threads woken so far. -/
def postAllLoop : ℕ → Semaphore T → List T → Option (Semaphore T × List T)
  | 0, _, _ => none
  | fuel + 1, s, woken =>
    match postSem s with
    | none => none
    | some (s', w) =>
      match getSem s' with
      | (s'', true) => some (s'', woken ++ w.toList)
      | (s'', false) => postAllLoop fuel s'' (woken ++ w.toList)

/-- `post_all_sem`, under its own `_lock_sem` and `_unlock_sem`. Each turn
of the loop raises the counter by one until it is positive, which bounds
the number of turns. -/
def postAllSem (s : Semaphore T) : Option (Semaphore T × List T) :=
  if s.lock = none then postAllLoop ((-s.val).toNat + 1) s [] else none

/-- `_wait_sem` by `t`, which holds the lock, up to where it returns or
sleeps; the lock is released. -/
def waitSem (t : T) (s : Semaphore T) : Semaphore T :=
  if 0 ≤ s.val - 1 then { s with lock := none, val := s.val - 1 }
  else { lock := none, val := s.val - 1, sleeplist := t :: s.sleeplist }

/-- The end of `_wait_sem` for a thread woken by another source: it gives
its unit back and leaves the list. `none` is the failed `ASSERT`. -/
def cancelWait [DecidableEq T] (t : T) (s : Semaphore T) : Option (Semaphore T) :=
  if s.val + 1 ≤ 0 then
    some { s with val := s.val + 1, sleeplist := s.sleeplist.erase t }
  else none

/-- **The representation invariant**: the threads asleep are the units
the counter is short of. -/
def Wf (s : Semaphore T) : Prop := (s.sleeplist.length : ℤ) = max 0 (-s.val)

theorem wf_initSem {v : ℤ} (h : 0 ≤ v) : (initSem v : Semaphore T).Wf := by
  simp only [Wf, initSem, List.length_nil]
  omega

theorem wf_waitSem {t : T} {s : Semaphore T} (h : s.Wf) : (waitSem t s).Wf := by
  simp only [Wf] at h
  unfold waitSem
  split <;> simp only [Wf, List.length_cons] <;> omega

/-- The loop of `post_all_sem` on a semaphore with `n` sleepers and no
unit wakes all of them, the earliest first. -/
theorem postAllLoop_eq (l : Option T) : ∀ (n : ℕ) (ts woken : List T), ts.length = n →
    postAllLoop (n + 1) ⟨l, -n, ts⟩ woken = some (⟨l, 0, []⟩, woken ++ ts.reverse) := by
  intro n
  induction n with
  | zero =>
    intro ts woken hlen
    obtain rfl : ts = [] := List.length_eq_zero_iff.1 hlen
    simp [postAllLoop, postSem, getSem]
  | succ n ih =>
    intro ts woken hlen
    obtain ⟨ts, t, rfl⟩ : ∃ ts' t, ts = ts' ++ [t] :=
      ⟨_, _, (List.dropLast_concat_getLast (List.ne_nil_of_length_eq_add_one hlen)).symm⟩
    have hpost : postSem (⟨l, -((n + 1 : ℕ) : ℤ), ts ++ [t]⟩ : Semaphore T) =
        some (⟨l, -(n : ℤ), ts⟩, some t) := by
      have hv : -((n + 1 : ℕ) : ℤ) + 1 = -(n : ℤ) := by omega
      simp only [postSem, hv]
      rw [if_pos (by omega)]
      simp
    have hget : getSem (⟨l, -(n : ℤ), ts⟩ : Semaphore T) = (⟨l, -(n : ℤ), ts⟩, false) := by
      simp [getSem]
    rw [postAllLoop, hpost]
    simp only [hget]
    rw [ih ts (woken ++ (some t).toList) (by simpa using hlen)]
    simp

/-- The loop on a well-formed semaphore without spare units, whoever has it
locked. -/
theorem postAllLoop_of_wf {s : Semaphore T} (hwf : s.Wf) (hval : s.val ≤ 0) :
    postAllLoop ((-s.val).toNat + 1) s [] = some (⟨s.lock, 0, []⟩, s.sleeplist.reverse) := by
  obtain ⟨l, v, ts⟩ := s
  simp only [Wf] at hwf hval
  have hv : v = -(ts.length : ℤ) := by omega
  subst hv
  have := postAllLoop_eq l ts.length ts [] rfl
  simpa using this

theorem lock_of_postAllSem {s : Semaphore T} {r : Semaphore T × List T}
    (h : postAllSem s = some r) : s.lock = none := by
  unfold postAllSem at h
  split at h
  · assumption
  · cases h

/-- **`post_all_sem` wakes every sleeper and leaves nothing behind**, on a
semaphore without spare units. -/
theorem postAllSem_eq {s : Semaphore T} (hwf : s.Wf) (hval : s.val ≤ 0) (hlock : s.lock = none) :
    postAllSem s = some (⟨none, 0, []⟩, s.sleeplist.reverse) := by
  rw [postAllSem, if_pos hlock, postAllLoop_of_wf hwf hval, hlock]

end Semaphore

end OsKernel
