import OsKernel.Common.Run
import OsKernel.Sem.Semaphore

/-!
# Semaphores — the units of a semaphore

Threads that use one semaphore in any order, at the granularity of
`sem->lock`. What a thread does between `_lock_sem` and `_unlock_sem` are
steps of their own; `get_all_sem` and `post_all_sem` take the lock
themselves and are one step, and so is the end of a `_wait_sem` that has
slept (`resume`), which is reached by a post, by an alert, or without
having slept at all.

The counter is an `int`. Where it does not overflow, the functions are
those of `Sem.Semaphore`: the sleepers are as many as the counter is short
of, so no `ASSERT` fails; posts wake the sleepers in the order in which
they went to sleep; and every unit that was there or was posted is still
there, or was taken by a wait that returns `true` or by a get
(`sem_units`). A post to the largest `int` fails (`post_overflows`).
-/

namespace OsKernel

namespace Semaphore

variable {T : Type}

/-- `get_all_sem`, under its own lock. -/
def getAllSem (s : Semaphore T) : Semaphore T × ℤ :=
  if 0 < s.val then ({ s with val := 0 }, s.val) else (s, 0)

/-! ## The counter in 32 bits -/

/-- An `int`, which wraps around at `2 ^ 31`. -/
def i32 (n : ℤ) : ℤ := (n + 2 ^ 31) % 2 ^ 32 - 2 ^ 31

/-- `_post_sem`. -/
def postSem32 (s : Semaphore T) : Option (Semaphore T × Option T) :=
  if i32 (s.val + 1) ≤ 0 then
    s.sleeplist.getLast?.map fun t =>
      ({ s with val := i32 (s.val + 1), sleeplist := s.sleeplist.dropLast }, some t)
  else some ({ s with val := i32 (s.val + 1) }, none)

/-- The loop of `post_all_sem`, with the threads woken and the number `ret` so
far. -/
def postAllLoop32 : ℕ → Semaphore T → List T → ℤ → Option (Semaphore T × List T × ℤ)
  | 0, _, _, _ => none
  | fuel + 1, s, woken, ret =>
    match postSem32 s with
    | none => none
    | some (s', w) =>
      match getSem s' with
      | (s'', true) => some (s'', woken ++ w.toList, ret + 1)
      | (s'', false) => postAllLoop32 fuel s'' (woken ++ w.toList) (ret + 1)

/-- `post_all_sem`. The counter goes up once in each turn, until it is
positive. -/
def postAllSem32 (s : Semaphore T) : Option (Semaphore T × List T × ℤ) :=
  if s.lock = none then postAllLoop32 ((-s.val).toNat + 1) s [] (-1) else none

/-- `_wait_sem` up to where the caller returns or sleeps. -/
def waitSem32 (t : T) (s : Semaphore T) : Semaphore T :=
  if 0 ≤ i32 (s.val - 1) then { s with lock := none, val := i32 (s.val - 1) }
  else { lock := none, val := i32 (s.val - 1), sleeplist := t :: s.sleeplist }

/-- The end of `_wait_sem` for a thread woken by another source. -/
def cancelWait32 [DecidableEq T] (t : T) (s : Semaphore T) : Option (Semaphore T) :=
  if i32 (s.val + 1) ≤ 0 then
    some { s with val := i32 (s.val + 1), sleeplist := s.sleeplist.erase t }
  else none

theorem i32_of_range {n : ℤ} (hlow : -2 ^ 31 ≤ n) (hhigh : n < 2 ^ 31) : i32 n = n := by
  unfold i32
  omega

/-- The counter is an `int`. -/
def InRange (s : Semaphore T) : Prop := -2 ^ 31 ≤ s.val ∧ s.val < 2 ^ 31

theorem postSem32_eq {s : Semaphore T} (h : s.InRange) (hmax : s.val ≠ 2 ^ 31 - 1) :
    postSem32 s = postSem s := by
  have hval := i32_of_range (n := s.val + 1) (by have := h.1; omega) (by have := h.2; omega)
  simp only [postSem32, postSem, hval]
  cases s.sleeplist.getLast? <;> rfl

theorem waitSem32_eq {s : Semaphore T} (h : s.InRange) (hmin : s.val ≠ -2 ^ 31) (t : T) :
    waitSem32 t s = waitSem t s := by
  have hval := i32_of_range (n := s.val - 1) (by have := h.1; omega) (by have := h.2; omega)
  simp only [waitSem32, waitSem, hval]

theorem cancelWait32_eq [DecidableEq T] {s : Semaphore T} (h : s.InRange) (hneg : s.val < 0) (t : T) :
    cancelWait32 t s = cancelWait t s := by
  have hval := i32_of_range (n := s.val + 1) (by have := h.1; omega) (by omega)
  simp only [cancelWait32, cancelWait, hval]

/-! ## The functions on a well-formed semaphore -/

theorem postSem_of_sleeper {s : Semaphore T} {ts : List T} {t : T}
    (h : s.sleeplist = ts ++ [t]) (hval : s.val + 1 ≤ 0) :
    postSem s = some ({ s with val := s.val + 1, sleeplist := ts }, some t) := by
  rw [postSem, if_pos hval, h]
  simp

theorem postSem_of_nobody {s : Semaphore T} (hval : ¬ s.val + 1 ≤ 0) :
    postSem s = some ({ s with val := s.val + 1 }, none) := by
  rw [postSem, if_neg hval]

/-- **The two ways a post can go**, and that its `ASSERT` holds. -/
theorem postSem_cases {s : Semaphore T} (hwf : s.Wf) :
    (∃ ts t, s.sleeplist = ts ++ [t] ∧ s.val < 0 ∧
      postSem s = some ({ s with val := s.val + 1, sleeplist := ts }, some t)) ∨
    (s.sleeplist = [] ∧ 0 ≤ s.val ∧ postSem s = some ({ s with val := s.val + 1 }, none)) := by
  unfold Wf at hwf
  by_cases hval : s.val + 1 ≤ 0
  · have hne : s.sleeplist ≠ [] := by
      intro he
      rw [he, List.length_nil] at hwf
      omega
    have hsplit := (List.dropLast_concat_getLast hne).symm
    exact Or.inl ⟨_, _, hsplit, by omega, postSem_of_sleeper hsplit hval⟩
  · have hlen : s.sleeplist.length = 0 := by omega
    exact Or.inr ⟨List.length_eq_zero_iff.1 hlen, by omega, postSem_of_nobody hval⟩

theorem wf_postSem {s s' : Semaphore T} {w : Option T} (hwf : s.Wf)
    (h : postSem s = some (s', w)) : s'.Wf := by
  rcases postSem_cases hwf with ⟨ts, t, hts, hval, hpost⟩ | ⟨hts, hval, hpost⟩
  · rw [hpost] at h
    obtain ⟨rfl, rfl⟩ := by simpa using h
    simp only [Wf, hts, List.length_append, List.length_singleton] at hwf ⊢
    omega
  · rw [hpost] at h
    obtain ⟨rfl, rfl⟩ := by simpa using h
    simp only [Wf, hts, List.length_nil] at hwf ⊢
    omega

theorem wf_getSem {s : Semaphore T} (hwf : s.Wf) : (getSem s).1.Wf := by
  unfold getSem
  split
  · simp only [Wf] at hwf ⊢
    omega
  · exact hwf

theorem wf_getAllSem {s : Semaphore T} (hwf : s.Wf) : (getAllSem s).1.Wf := by
  unfold getAllSem
  split
  · simp only [Wf] at hwf ⊢
    omega
  · exact hwf

/-- A sleeper that was not woken by a post finds its `ASSERT` to hold. -/
theorem cancelWait_of_mem [DecidableEq T] {s : Semaphore T} {t : T} (hwf : s.Wf)
    (ht : t ∈ s.sleeplist) :
    s.val < 0 ∧
      cancelWait t s = some { s with val := s.val + 1, sleeplist := s.sleeplist.erase t } := by
  have hpos := List.length_pos_of_mem ht
  unfold Wf at hwf
  refine ⟨by omega, ?_⟩
  rw [cancelWait, if_pos (by omega)]

theorem wf_cancelWait [DecidableEq T] {s s' : Semaphore T} {t : T} (hwf : s.Wf)
    (ht : t ∈ s.sleeplist) (h : cancelWait t s = some s') : s'.Wf := by
  rw [(cancelWait_of_mem hwf ht).2] at h
  obtain rfl := Option.some.inj h
  have hpos := List.length_pos_of_mem ht
  simp only [Wf, List.length_erase_of_mem ht] at hwf ⊢
  omega

/-- The loop of `post_all_sem`, with `n` sleepers, on any counter but the
largest one. -/
theorem postAllLoop32_eq : ∀ {n : ℕ} {s : Semaphore T} (woken : List T) (ret : ℤ), s.Wf →
    s.InRange → s.val ≠ 2 ^ 31 - 1 → (-s.val).toNat = n →
    postAllLoop32 (n + 1) s woken ret =
      some (⟨s.lock, max 0 s.val, []⟩, woken ++ s.sleeplist.reverse,
        ret + 1 + s.sleeplist.length) := by
  intro n
  -- on the number of sleepers
  induction n with
  | zero =>
    intro s woken ret hwf hrange hmax hn
    rcases postSem_cases hwf with ⟨ts, t, -, hval, -⟩ | ⟨hts, hval, hpost⟩
    · omega
    · simp only [postAllLoop32, postSem32_eq hrange hmax, hpost, getSem]
      rw [if_pos (by omega), hts, max_eq_right hval]
      simp
  | succ n ih =>
    intro s woken ret hwf hrange hmax hn
    rcases postSem_cases hwf with ⟨ts, t, hts, hval, hpost⟩ | ⟨hts, hval, hpost⟩
    · have hget : getSem ({ s with val := s.val + 1, sleeplist := ts } : Semaphore T) =
          ({ s with val := s.val + 1, sleeplist := ts }, false) := by
        rw [getSem, if_neg (by simp only; omega)]
      have hlow := hrange.1
      rw [postAllLoop32, postSem32_eq hrange hmax, hpost]
      simp only [hget]
      rw [ih _ _ (wf_postSem hwf hpost) (And.intro (by simp only; omega) (by simp only; omega))
        (by simp only; omega) (by simp only; omega), hts]
      simp only [Option.toList_some, List.reverse_append, List.reverse_singleton,
        List.append_assoc, List.length_append, List.length_singleton]
      rw [max_eq_left hval.le, max_eq_left (by omega)]
      congr 3
      omega
    · omega

/-- **`post_all_sem` wakes every sleeper, returns their number and keeps the
spare units.** -/
theorem postAllSem32_eq {s : Semaphore T} (hwf : s.Wf) (hrange : s.InRange)
    (hmax : s.val ≠ 2 ^ 31 - 1) (hlock : s.lock = none) :
    postAllSem32 s =
      some (⟨none, max 0 s.val, []⟩, s.sleeplist.reverse, (s.sleeplist.length : ℤ)) := by
  rw [postAllSem32, if_pos hlock, postAllLoop32_eq [] (-1) hwf hrange hmax rfl, hlock]
  simp

end Semaphore

/-! ## Threads that share a semaphore -/

/-- A semaphore with the threads that a post has woken (`wait->up`) and
that have not returned from `_wait_sem` yet. -/
structure SemSys (T : Type) where
  sem : Semaphore T
  up : List T
deriving DecidableEq

/-- The steps of threads. -/
inductive SemAct (T : Type) where
  | lock (t : T)
  | unlock (t : T)
  | get (t : T)
  | post (t : T)
  | wait (t : T)
  | getAll (t : T)
  | postAll (t : T)
  | resume (t : T)

namespace SemSys

variable {T : Type} [DecidableEq T]

/-- Thread `t` is not inside a `_wait_sem`. -/
def Awake (s : SemSys T) (t : T) : Prop := t ∉ s.sem.sleeplist ∧ t ∉ s.up

instance (s : SemSys T) (t : T) : Decidable (s.Awake t) := inferInstanceAs (Decidable (_ ∧ _))

/-- `init_sem`. -/
def init (v : ℤ) : SemSys T := ⟨Semaphore.initSem v, []⟩

/-- The end of a `_wait_sem` that has slept. -/
def resume (s : SemSys T) (t : T) : Option (SemSys T) :=
  if t ∈ s.up then some { s with up := s.up.erase t }
  else if t ∈ s.sem.sleeplist then (s.sem.cancelWait32 t).map fun sem => { s with sem := sem }
  else none

/-- The steps that a thread can take. -/
def step (s : SemSys T) : SemAct T → Option (SemSys T)
  | .lock t => if s.Awake t then (s.sem.lockSem t).map fun sem => { s with sem := sem } else none
  | .unlock t =>
    if s.sem.lock = some t then some { s with sem := { s.sem with lock := none } } else none
  | .get t => if s.sem.lock = some t then some { s with sem := s.sem.getSem.1 } else none
  | .post t =>
    if s.sem.lock = some t then s.sem.postSem32.map fun r => ⟨r.1, s.up ++ r.2.toList⟩ else none
  | .wait t => if s.sem.lock = some t then some { s with sem := s.sem.waitSem32 t } else none
  | .getAll t =>
    if s.Awake t ∧ s.sem.lock = none then some { s with sem := s.sem.getAllSem.1 } else none
  | .postAll t =>
    if s.Awake t then s.sem.postAllSem32.map fun r => ⟨r.1, s.up ++ r.2.1⟩ else none
  | .resume t => if s.sem.lock = none then s.resume t else none

/-! ## What a run has done -/

/-- The posts of a step. The loop of `post_all_sem` posts once more than it
returns. -/
def posts : SemSys T × SemAct T → ℤ
  | (_, .post _) => 1
  | (s, .postAll _) => (s.sem.postAllSem32.map fun r => r.2.2 + 1).getD 0
  | _ => 0

/-- The units that gets take in a step. The loop of `post_all_sem` ends
with a get that takes one. -/
def gets : SemSys T × SemAct T → ℤ
  | (s, .get _) => if s.sem.getSem.2 then 1 else 0
  | (s, .getAll _) => s.sem.getAllSem.2
  | (_, .postAll _) => 1
  | _ => 0

/-- The waits that return `true` in a step. -/
def waits : SemSys T × SemAct T → ℤ
  | (s, .wait _) => if 0 ≤ Semaphore.i32 (s.sem.val - 1) then 1 else 0
  | (s, .resume t) => if t ∈ s.up then 1 else 0
  | _ => 0

/-- Does thread `t` go to sleep in a step? -/
def sleepsAt (x : SemSys T × SemAct T) (t : T) : Bool :=
  match x.2 with
  | .wait u => decide (u = t ∧ ¬ 0 ≤ Semaphore.i32 (x.1.sem.val - 1))
  | _ => false

/-- The place in the trace, given the latest step first, of the last step
in which `t` went to sleep. -/
def lastSleepRev : List (SemSys T × SemAct T) → T → ℕ
  | [], _ => 0
  | x :: tr, t => if sleepsAt x t then tr.length + 1 else lastSleepRev tr t

/-- When `t` last went to sleep, as a place in the trace. -/
def lastSleep (tr : List (SemSys T × SemAct T)) (t : T) : ℕ := lastSleepRev tr.reverse t

variable {s s' : SemSys T} {tr : List (SemSys T × SemAct T)} {x : SemSys T × SemAct T} {t u : T}

theorem lastSleep_snoc : lastSleep (tr ++ [x]) t =
    if sleepsAt x t then tr.length + 1 else lastSleep tr t := by
  simp [lastSleep, lastSleepRev]

theorem lastSleep_le : lastSleep tr t ≤ tr.length := by
  unfold lastSleep
  rw [← List.length_reverse]
  generalize tr.reverse = l
  induction l with
  | nil => exact Nat.le_refl 0
  | cons x l ih =>
    rw [lastSleepRev, List.length_cons]
    split <;> omega

/-! ## The invariant -/

/-- The step does not take the counter out of the range of an `int`. -/
def NoOverflow (s : SemSys T) : SemAct T → Prop
  | .post _ | .postAll _ => s.sem.val ≠ 2 ^ 31 - 1
  | .wait _ => s.sem.val ≠ -2 ^ 31
  | _ => True

/-- **The units and the sleepers of a run** from a semaphore with `v`
units. -/
structure Inv (v : ℤ) (tr : List (SemSys T × SemAct T)) (s : SemSys T) : Prop where
  wf : s.sem.Wf
  range : s.sem.InRange
  holder : ∀ t, s.sem.lock = some t → s.Awake t
  /-- The list has the latest sleeper first. -/
  sorted : s.sem.sleeplist.Pairwise fun x y => lastSleep tr y < lastSleep tr x
  units : v + (tr.map posts).sum =
    max 0 s.sem.val + (tr.map waits).sum + s.up.length + (tr.map gets).sum

theorem inv_init {v : ℤ} (hv : 0 ≤ v) (hmax : v < 2 ^ 31) : Inv v [] (init v : SemSys T) where
  wf := Semaphore.wf_initSem hv
  range := ⟨by simp only [init, Semaphore.initSem]; omega, hmax⟩
  holder := fun t h => absurd h (by simp [init, Semaphore.initSem])
  sorted := List.Pairwise.nil
  units := by
    simp only [init, Semaphore.initSem, List.map_nil, List.sum_nil, List.length_nil]
    omega

section

variable {v : ℤ} (h : Inv v tr s)

include h

/-- A step in which nobody goes to sleep keeps the order of the sleepers
that are left. -/
theorem Inv.sorted_of_sublist {l : List T} (hx : ∀ t, sleepsAt x t = false)
    (hl : l.Sublist s.sem.sleeplist) :
    l.Pairwise fun y z => lastSleep (tr ++ [x]) z < lastSleep (tr ++ [x]) y := by
  have := h.sorted.sublist hl
  simpa only [lastSleep_snoc, hx, Bool.false_eq_true, if_false] using this

/-- The units after a step, from what the step does to them. -/
theorem Inv.units_snoc (hx : max 0 s'.sem.val + waits x + s'.up.length + gets x =
      max 0 s.sem.val + s.up.length + posts x) :
    v + ((tr ++ [x]).map posts).sum = max 0 s'.sem.val + ((tr ++ [x]).map waits).sum +
      s'.up.length + ((tr ++ [x]).map gets).sum := by
  have := h.units
  simp only [List.map_append, List.map_cons, List.map_nil, List.sum_append, List.sum_cons,
    List.sum_nil]
  omega

theorem Inv.lock (hs : s.step (.lock t) = some s') : Inv v (tr ++ [(s, .lock t)]) s' := by
  rw [step] at hs
  split_ifs at hs with hawake
  obtain ⟨sem, hlock, rfl⟩ := Option.map_eq_some_iff.1 hs
  unfold Semaphore.lockSem at hlock
  split at hlock
  · obtain rfl := Option.some.inj hlock
    refine ⟨h.wf, h.range, fun u hu => ?_,
      h.sorted_of_sublist (fun _ => rfl) (List.Sublist.refl _), h.units_snoc (by simp [posts, waits, gets])⟩
    obtain rfl := Option.some.inj hu
    exact hawake
  · cases hlock

theorem Inv.unlock (hs : s.step (.unlock t) = some s') :
    Inv v (tr ++ [(s, .unlock t)]) s' := by
  rw [step] at hs
  split at hs
  · obtain rfl := Option.some.inj hs
    refine ⟨h.wf, h.range, fun u hu => ?_,
      h.sorted_of_sublist (fun _ => rfl) (List.Sublist.refl _), h.units_snoc (by simp [posts, waits, gets])⟩
    cases hu
  · cases hs

theorem Inv.get (hs : s.step (.get t) = some s') : Inv v (tr ++ [(s, .get t)]) s' := by
  rw [step] at hs
  split at hs
  · obtain rfl := Option.some.inj hs
    have hkeep : s.sem.getSem.1.lock = s.sem.lock ∧
        s.sem.getSem.1.sleeplist = s.sem.sleeplist := by
      unfold Semaphore.getSem
      split <;> exact ⟨rfl, rfl⟩
    refine ⟨Semaphore.wf_getSem h.wf, ?_, fun u hu => ?_, ?_, h.units_snoc ?_⟩
    · have hrange := h.range
      unfold Semaphore.InRange Semaphore.getSem at *
      split <;> simp only <;> omega
    · have := h.holder u (hkeep.1 ▸ hu)
      simpa only [Awake, hkeep.2] using this
    · exact h.sorted_of_sublist (fun _ => rfl) (by rw [hkeep.2])
    · simp only [posts, waits, gets, Semaphore.getSem]
      split <;> simp only [if_true, Bool.false_eq_true, if_false] <;> omega
  · cases hs

theorem Inv.post (hmax : s.sem.val ≠ 2 ^ 31 - 1) (hs : s.step (.post t) = some s') :
    Inv v (tr ++ [(s, .post t)]) s' := by
  rw [step] at hs
  split_ifs at hs with hlock
  obtain ⟨⟨sem, w⟩, hpost, rfl⟩ := Option.map_eq_some_iff.1 hs
  rw [Semaphore.postSem32_eq h.range hmax] at hpost
  have hlow := h.range.1
  have hhigh := h.range.2
  have hwf := Semaphore.wf_postSem h.wf hpost
  have hhold := h.holder t hlock
  rcases Semaphore.postSem_cases h.wf with ⟨ts, u, hts, hval, heq⟩ | ⟨hts, hval, heq⟩
  · rw [heq] at hpost
    obtain ⟨rfl, rfl⟩ := by simpa using hpost
    refine ⟨hwf, ⟨by simp only; omega, by simp only; omega⟩, fun t' ht' => ?_, ?_,
      h.units_snoc ?_⟩
    · obtain rfl : t = t' := Option.mem_unique hlock ht'
      rw [Awake, hts] at hhold
      simp only [List.mem_append, List.mem_singleton, not_or] at hhold
      refine ⟨hhold.1.1, ?_⟩
      simp only [Option.toList_some, List.mem_append, List.mem_singleton, not_or]
      exact ⟨hhold.2, hhold.1.2⟩
    · refine h.sorted_of_sublist (fun _ => rfl) ?_
      rw [hts]
      exact List.sublist_append_left _ _
    · simp only [posts, waits, gets, Option.toList_some, List.length_append,
        List.length_singleton]
      omega
  · rw [heq] at hpost
    obtain ⟨rfl, rfl⟩ := by simpa using hpost
    refine ⟨hwf, ⟨by simp only; omega, by simp only; omega⟩, fun t' ht' => ?_,
      h.sorted_of_sublist (fun _ => rfl) (List.Sublist.refl _), h.units_snoc ?_⟩
    · simpa [Awake] using h.holder t' ht'
    · simp only [posts, waits, gets, Option.toList_none, List.append_nil]
      omega

theorem Inv.wait (hmin : s.sem.val ≠ -2 ^ 31) (hs : s.step (.wait t) = some s') :
    Inv v (tr ++ [(s, .wait t)]) s' := by
  obtain ⟨hlock, rfl⟩ := of_guard hs
  have hlow := h.range.1
  have hhigh := h.range.2
  have hint : Semaphore.i32 (s.sem.val - 1) = s.sem.val - 1 :=
    Semaphore.i32_of_range (by omega) (by omega)
  rw [Semaphore.waitSem32_eq h.range hmin]
  have hfresh := (h.holder t hlock).1
  refine ⟨Semaphore.wf_waitSem h.wf, ?_, fun u hu => ?_, ?_, h.units_snoc ?_⟩
  · unfold Semaphore.InRange Semaphore.waitSem
    split <;> simp only <;> omega
  · simp only [Semaphore.waitSem] at hu
    split at hu <;> cases hu
  · by_cases hval : 0 ≤ s.sem.val - 1
    · rw [Semaphore.waitSem, if_pos hval]
      exact h.sorted_of_sublist (fun u => decide_eq_false fun hu => hu.2 (by rwa [hint]))
        (List.Sublist.refl _)
    · -- the new sleeper is the latest, and was not asleep before
      have hself : sleepsAt (s, .wait t) t = true := decide_eq_true ⟨rfl, by rwa [hint]⟩
      have hother : ∀ u ∈ s.sem.sleeplist,
          lastSleep (tr ++ [(s, .wait t)]) u = lastSleep tr u := by
        intro u hu
        have hne : sleepsAt (s, .wait t) u = false :=
          decide_eq_false fun he => hfresh (he.1 ▸ hu)
        simp only [lastSleep_snoc, hne, Bool.false_eq_true, if_false]
      rw [Semaphore.waitSem, if_neg hval]
      refine List.Pairwise.cons (fun u hu => ?_) ?_
      · rw [hother u hu, lastSleep_snoc, if_pos hself]
        exact Nat.lt_succ_of_le lastSleep_le
      · refine h.sorted.imp_of_mem fun {y z} hy hz hlt => ?_
        rwa [hother y hy, hother z hz]
  · simp only [posts, waits, gets, hint, Semaphore.waitSem]
    split <;> simp only <;> omega

theorem Inv.getAll (hs : s.step (.getAll t) = some s') :
    Inv v (tr ++ [(s, .getAll t)]) s' := by
  obtain ⟨hok, rfl⟩ := of_guard hs
  have hkeep : s.sem.getAllSem.1.lock = s.sem.lock ∧
      s.sem.getAllSem.1.sleeplist = s.sem.sleeplist := by
    unfold Semaphore.getAllSem
    split <;> exact ⟨rfl, rfl⟩
  refine ⟨Semaphore.wf_getAllSem h.wf, ?_, fun u hu => ?_, ?_, h.units_snoc ?_⟩
  · have hrange := h.range
    unfold Semaphore.InRange Semaphore.getAllSem at *
    split <;> simp only <;> omega
  · have := h.holder u (hkeep.1 ▸ hu)
    simpa only [Awake, hkeep.2] using this
  · exact h.sorted_of_sublist (fun _ => rfl) (by rw [hkeep.2])
  · simp only [posts, waits, gets, Semaphore.getAllSem]
    split <;> simp only <;> omega

theorem Inv.postAll (hmax : s.sem.val ≠ 2 ^ 31 - 1) (hs : s.step (.postAll t) = some s') :
    Inv v (tr ++ [(s, .postAll t)]) s' := by
  rw [step] at hs
  split at hs
  · obtain ⟨r, hpost, rfl⟩ := Option.map_eq_some_iff.1 hs
    have hlock := (of_guarded hpost).1
    have heq := Semaphore.postAllSem32_eq h.wf h.range hmax hlock
    rw [heq] at hpost
    obtain rfl := Option.some.inj hpost
    have hhigh := h.range.2
    refine ⟨?_, ⟨by simp only; omega, by simp only; omega⟩, fun u hu => ?_, List.Pairwise.nil,
      h.units_snoc ?_⟩
    · simp only [Semaphore.Wf, List.length_nil]
      omega
    · cases hu
    · simp only [posts, waits, gets, heq, Option.map_some, Option.getD_some, List.length_append,
        List.length_reverse]
      omega
  · cases hs

theorem Inv.resume (hs : s.step (.resume t) = some s') :
    Inv v (tr ++ [(s, .resume t)]) s' := by
  rw [step] at hs
  split_ifs at hs with hlock
  unfold SemSys.resume at hs
  split at hs
  · rename_i hup
    obtain rfl := Option.some.inj hs
    refine ⟨h.wf, h.range, fun u hu => ?_,
      h.sorted_of_sublist (fun _ => rfl) (List.Sublist.refl _), h.units_snoc ?_⟩
    · simp only [hlock] at hu
      cases hu
    · have hpos := List.length_pos_of_mem hup
      simp only [posts, waits, gets, if_pos hup, List.length_erase_of_mem hup]
      omega
  · rename_i hup
    split_ifs at hs with hmem
    obtain ⟨sem, hcancel, rfl⟩ := Option.map_eq_some_iff.1 hs
    obtain ⟨hval, heq⟩ := Semaphore.cancelWait_of_mem h.wf hmem
    rw [Semaphore.cancelWait32_eq h.range hval] at hcancel
    have hwf := Semaphore.wf_cancelWait h.wf hmem hcancel
    rw [heq] at hcancel
    obtain rfl := Option.some.inj hcancel
    have hlow := h.range.1
    refine ⟨hwf, ⟨by simp only; omega, by simp only; omega⟩, fun u hu => ?_,
      h.sorted_of_sublist (fun _ => rfl) List.erase_sublist, h.units_snoc ?_⟩
    · simp only [hlock] at hu
      cases hu
    · simp only [posts, waits, gets, if_neg hup]
      omega

/-- **Every step keeps the invariant.** -/
theorem Inv.step {a : SemAct T} (hok : NoOverflow s a) (hs : s.step a = some s') :
    Inv v (tr ++ [(s, a)]) s' := by
  cases a with
  | lock t => exact h.lock hs
  | unlock t => exact h.unlock hs
  | get t => exact h.get hs
  | post t => exact h.post hok hs
  | wait t => exact h.wait hok hs
  | getAll t => exact h.getAll hs
  | postAll t => exact h.postAll hok hs
  | resume t => exact h.resume hs

end

/-- **The units and the sleepers of a semaphore**, in every run from
`init_sem` with a counter that is not negative, and without an overflow:

* the sleepers are as many as the counter is short of;
* the `ASSERT` of `_wait_sem` holds, and that of `_post_sem`, where the
  counter can go up;
* a post wakes the sleeper that has slept longest;
* what was there and what was posted is still there or was taken, by a
  wait that has returned `true` or will, or by a get;
* `post_all_sem` ends, wakes all the sleepers, the earliest first, returns
  their number and keeps the spare units. -/
theorem sem_units {v : ℤ} (hv : 0 ≤ v) (hmax : v < 2 ^ 31) (hrun : Run step (init v) tr s)
    (hok : ∀ x ∈ tr, NoOverflow x.1 x.2) :
    (s.sem.sleeplist.length : ℤ) = max 0 (-s.sem.val) ∧
    (∀ t ∈ s.sem.sleeplist, (s.sem.cancelWait32 t).isSome) ∧
    v + (tr.map posts).sum =
      max 0 s.sem.val + ((tr.map waits).sum + s.up.length) + (tr.map gets).sum ∧
    (s.sem.val ≠ 2 ^ 31 - 1 → s.sem.postSem32.isSome ∧
      (∀ sem t, s.sem.postSem32 = some (sem, some t) → t ∈ s.sem.sleeplist ∧
        ∀ u ∈ s.sem.sleeplist, u ≠ t → lastSleep tr t < lastSleep tr u) ∧
      (s.sem.lock = none → s.sem.postAllSem32 =
        some (⟨none, max 0 s.sem.val, []⟩, s.sem.sleeplist.reverse,
          (s.sem.sleeplist.length : ℤ)))) := by
  have h : Inv v tr s := hrun.traceInvariantOf (I := Inv v) hok (inv_init hv hmax)
    fun _ _ _ _ hI ho hs => hI.step ho hs
  refine ⟨h.wf, fun t ht => ?_, ?_, fun hmax => ⟨?_, fun sem t hpost => ?_,
    Semaphore.postAllSem32_eq h.wf h.range hmax⟩⟩
  · obtain ⟨hneg, heq⟩ := Semaphore.cancelWait_of_mem h.wf ht
    rw [Semaphore.cancelWait32_eq h.range hneg, heq]
    rfl
  · have := h.units
    omega
  · rw [Semaphore.postSem32_eq h.range hmax]
    rcases Semaphore.postSem_cases h.wf with ⟨_, _, -, -, heq⟩ | ⟨-, -, heq⟩ <;> rw [heq] <;> rfl
  · rw [Semaphore.postSem32_eq h.range hmax] at hpost
    rcases Semaphore.postSem_cases h.wf with ⟨ts, u, hts, -, heq⟩ | ⟨-, -, heq⟩
    · rw [heq] at hpost
      obtain ⟨-, rfl⟩ := by simpa using hpost
      have hsorted := h.sorted
      rw [hts] at hsorted ⊢
      refine ⟨by simp, fun w hw hne => ?_⟩
      have hw : w ∈ ts := by simpa [hne] using hw
      exact (List.pairwise_append.1 hsorted).2.2 w hw u (List.mem_singleton_self u)
    · rw [heq] at hpost
      simp at hpost

instance (s : SemSys T) : (a : SemAct T) → Decidable (NoOverflow s a)
  | .post _ | .postAll _ | .wait _ => inferInstanceAs (Decidable (_ ≠ _))
  | .lock _ | .unlock _ | .get _ | .getAll _ | .resume _ => inferInstanceAs (Decidable True)

/-- Two threads sleep; the first is woken by a post, the second by an
alert. -/
theorem sem_units_postAndAlert : ∃ tr s, Run step (init 0 : SemSys ℕ) tr s ∧ tr.length = 9 ∧
    (s.sem.sleeplist.length : ℤ) = max 0 (-s.sem.val) := by
  have hexec : exec step (init 0 : SemSys ℕ) [.lock 1, .wait 1, .lock 2, .wait 2, .lock 3,
      .post 3, .unlock 3, .resume 2, .resume 1] = some ⟨⟨none, 0, []⟩, []⟩ := by
    decide
  have hrun := Run.of_exec hexec
  exact ⟨_, _, hrun, by decide, (sem_units (le_refl 0) (by decide) hrun (by decide)).1⟩

/-- **A post to a counter of `INT_MAX` fails its `ASSERT`**: the counter becomes
negative, and nobody sleeps. -/
theorem post_overflows : ∃ tr s, Run step (init (2 ^ 31 - 1) : SemSys ℕ) tr s ∧
    s.sem.lock = some 0 ∧ s.sem.postSem32 = none :=
  ⟨_, _, Run.single (a := .lock 0) rfl, rfl, by decide⟩

end SemSys

end OsKernel
