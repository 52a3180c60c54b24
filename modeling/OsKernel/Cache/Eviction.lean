import OsKernel.Cache.Model.Store
import OsKernel.Sem.Guard

/-!
# The block cache — eviction and the threads that wait

The whole block list with the sleep locks of its blocks, and any number
of threads in `cache_acquire` and `cache_release`. A `Block` is known by
its address, which `kalloc` may hand out again once the block is freed.
The parts under the lock of the cache are one step each, as in
`BlockSys`; the content of the blocks plays no part.

The eviction loop looks at `pinned` and `acquired` only. A thread that
sleeps on a block is safe: as long as nobody has been woken from the
block, the block is acquired. What is not safe is a thread on its way,
which has left the lock of the cache and not slept yet, or was woken and
has not looked again (`evicted_while_woken`).
-/

namespace OsKernel.Cache

open Function

/-- A `Block` and its sleep lock. -/
structure LockedBlock (T : Type) where
  blockNo : ℕ
  acquired : Bool
  pinned : Bool
  lock : Semaphore T

/-- Where a thread is in `cache_acquire`; `b` is the block it has found,
`n` the number it looks for. -/
inductive LookStage where
  /-- Not in `cache_acquire`, or before its first look. -/
  | out
  /-- Has found the block acquired and left the lock of the cache. -/
  | waiting (b n : ℕ)
  /-- Sleeps on the lock of the block, or was woken and has not run yet. -/
  | asleep (b n : ℕ)
  /-- Is through with the wait and goes back to `start`. -/
  | retry (b n : ℕ)
deriving DecidableEq

/-- The block that a thread has found acquired. -/
def LookStage.block : LookStage → Option ℕ
  | .out => none
  | .waiting b _ | .asleep b _ | .retry b _ => some b

/-- The block list, the most recently acquired block first, and the
threads. -/
structure CacheSys (T : Type) where
  list : List ℕ
  blk : ℕ → LockedBlock T
  /-- The blocks a thread has acquired and not released. -/
  held : T → List ℕ
  stage : T → LookStage

/-- The steps of the threads. -/
inductive CacheAct (T : Type) where
  /-- A look at the list for block `n`; `b` is where `kalloc` would put a new
  block. -/
  | acquire (t : T) (n b : ℕ)
  | wait (t : T)
  | resume (t : T)
  | release (t : T) (b : ℕ)
  /-- The holder pins the block in `cache_sync` or unpins it in `log_wb`. -/
  | setPinned (t : T) (b : ℕ) (pinned : Bool)

namespace CacheSys

variable {T : Type} [DecidableEq T]

/-- The empty cache. -/
def empty : CacheSys T where
  list := []
  blk := fun _ => ⟨0, false, false, Semaphore.initSem 1⟩
  held := fun _ => []
  stage := fun _ => .out

/-- The eviction loop over the addresses from the tail of the list, with
`cnum` blocks in the cache. -/
def evictLoop (blk : ℕ → LockedBlock T) : List ℕ → ℕ → List ℕ
  | [], _ => []
  | b :: bs, cnum =>
    if evictionThreshold ≤ cnum then
      if !(blk b).pinned && !(blk b).acquired then evictLoop blk bs (cnum - 1)
      else b :: evictLoop blk bs cnum
    else b :: bs

/-- The list that the eviction loop leaves. -/
def evict (s : CacheSys T) : List ℕ := (evictLoop s.blk s.list.reverse s.list.length).reverse

/-- The block with number `n` in the list. -/
def find (s : CacheSys T) (n : ℕ) : Option ℕ := s.list.find? fun b => (s.blk b).blockNo = n

/-- May `t` look at the list for block `n`? -/
def looks (s : CacheSys T) (t : T) (n : ℕ) : Bool :=
  match s.stage t with
  | .out => true
  | .retry _ m => m = n
  | _ => false

/-- Moves thread `t` to another stage. -/
def move (s : CacheSys T) (t : T) (p : LookStage) : CacheSys T :=
  { s with stage := update s.stage t p }

/-- Sets the sleep lock of block `b`. -/
def setLock (s : CacheSys T) (b : ℕ) (lock : Semaphore T) : CacheSys T :=
  { s with blk := update s.blk b { s.blk b with lock := lock } }

/-- The section of `cache_acquire` under the lock of the cache. -/
def acquire (s : CacheSys T) (t : T) (n b : ℕ) : Option (CacheSys T) :=
  match s.find n with
  | some a =>
    if (s.blk a).acquired then some (s.move t (.waiting a n))
    else some ({ s with
      list := a :: s.list.erase a
      blk := update s.blk a
        { s.blk a with acquired := true, lock := (s.blk a).lock.getSem.1 }
      held := update s.held t (a :: s.held t) }.move t .out)
  | none =>
    if b ∈ s.evict then none
    else some ({ s with
      list := b :: s.evict
      blk := update s.blk b ⟨n, true, false, (Semaphore.initSem 1).waitSem t⟩
      held := update s.held t (b :: s.held t) }.move t .out)

/-- The steps, or `none` where a thread cannot take one. -/
def step (s : CacheSys T) : CacheAct T → Option (CacheSys T)
  | .acquire t n b => if s.looks t n then s.acquire t n b else none
  | .wait t =>
    match s.stage t with
    | .waiting b n =>
      if b ∈ s.list then
        some ((s.setLock b ((s.blk b).lock.waitSem t)).move t
          (if 0 ≤ (s.blk b).lock.val - 1 then .retry b n else .asleep b n))
      else none
    | _ => none
  | .resume t =>
    match s.stage t with
    | .asleep b n =>
      if b ∈ s.list ∧ t ∉ (s.blk b).lock.sleeplist then some (s.move t (.retry b n)) else none
    | _ => none
  | .release t b =>
    if b ∈ s.held t ∧ s.stage t = .out then
      (s.blk b).lock.postSem.map fun r =>
        { s with
          blk := update s.blk b { s.blk b with acquired := false, lock := r.1 }
          held := update s.held t ((s.held t).erase b) }
    else none
  | .setPinned t b v =>
    if b ∈ s.held t then
      some { s with blk := update s.blk b { s.blk b with pinned := v } }
    else none

/-- The blocks that a step takes out of the list. -/
def evicted (s : CacheSys T) : CacheAct T → List ℕ
  | .acquire _ n _ =>
    match s.find n with
    | some _ => []
    | none => s.list.filter (· ∉ s.evict)
  | _ => []

/-- Thread `t` has found block `b` acquired and has not looked again. -/
def Waits (s : CacheSys T) (t : T) (b : ℕ) : Prop :=
  ∃ n, s.stage t = .waiting b n ∨ s.stage t = .asleep b n ∨ s.stage t = .retry b n

/-- Thread `t` waits for `b` and is not in its `sleeplist`: it is about to
sleep, or was woken. -/
def OnItsWay (s : CacheSys T) (t : T) (b : ℕ) : Prop :=
  s.Waits t b ∧ t ∉ (s.blk b).lock.sleeplist

/-- What the eviction loop relies on: no thread is on its way to or from a
block that a look drops. -/
def Settled (s : CacheSys T) : CacheAct T → Prop
  | .acquire _ n _ => s.find n = none → ∀ t, ∀ b ∈ s.list, b ∉ s.evict → ¬s.OnItsWay t b
  | _ => True

variable {s s' : CacheSys T} {t u : T} {a b n : ℕ}

/-! ## The eviction loop -/

section

omit [DecidableEq T]

theorem evictLoop_subset {blk : ℕ → LockedBlock T} : ∀ {bs : List ℕ} {cnum : ℕ},
    (evictLoop blk bs cnum).Sublist bs := by
  intro bs
  induction bs with
  | nil => exact fun {_} => List.Sublist.refl _
  | cons b bs ih =>
    intro cnum
    rw [evictLoop]
    split
    · split
      · exact ih.cons b
      · exact ih.cons_cons b
    · exact List.Sublist.refl _

/-- What the loop drops is neither pinned nor acquired, and it drops
nothing where the cache is not full. -/
theorem of_dropped {blk : ℕ → LockedBlock T} : ∀ {bs : List ℕ} {cnum : ℕ}, bs.Nodup →
    b ∈ bs → b ∉ evictLoop blk bs cnum →
    evictionThreshold ≤ cnum ∧ (blk b).pinned = false ∧ (blk b).acquired = false := by
  intro bs
  induction bs with
  | nil => exact fun {_} _ hb => by cases hb
  | cons c bs ih =>
    intro cnum hnd hb hout
    rw [evictLoop] at hout
    split at hout
    · rename_i hfull
      refine ⟨hfull, ?_⟩
      split_ifs at hout with hfree
      · rcases List.mem_cons.1 hb with rfl | hb
        · simpa using hfree
        · exact (ih hnd.of_cons hb hout).2
      · rcases List.mem_cons.1 hb with rfl | hb
        · exact absurd (List.mem_cons_self ..) hout
        · exact (ih hnd.of_cons hb fun h => hout (List.mem_cons_of_mem _ h)).2
    · exact absurd hb hout

theorem evict_sublist (s : CacheSys T) : s.evict.Sublist s.list := by
  have h : (evictLoop s.blk s.list.reverse s.list.length).Sublist s.list.reverse :=
    evictLoop_subset
  have := h.reverse
  rwa [List.reverse_reverse] at this

theorem of_not_mem_evict (hnd : s.list.Nodup) (hb : b ∈ s.list) (hout : b ∉ s.evict) :
    evictionThreshold ≤ s.list.length ∧ (s.blk b).pinned = false ∧ (s.blk b).acquired = false :=
  of_dropped (List.nodup_reverse.2 hnd) (List.mem_reverse.2 hb) fun h =>
    hout (List.mem_reverse.2 h)

theorem mem_list_of_find (h : s.find n = some a) : a ∈ s.list ∧ (s.blk a).blockNo = n :=
  ⟨List.mem_of_find?_eq_some h, by simpa using List.find?_some h⟩

end

/-! ## The invariant -/

/-- **The invariant of a cached block**, for the threads that wait for it. -/
def Sound (s : CacheSys T) (b : ℕ) : Prop :=
  (s.blk b).lock.Guards (s.blk b).acquired (fun t => ∃ n, s.stage t = .asleep b n)
    fun t => ∃ n, s.stage t = .retry b n

/-- **The invariant of the cache.** -/
structure Inv (s : CacheSys T) : Prop where
  nodup : s.list.Nodup
  blockNo : ∀ a ∈ s.list, ∀ b ∈ s.list, (s.blk a).blockNo = (s.blk b).blockNo → a = b
  sound : ∀ b ∈ s.list, s.Sound b
  waits : ∀ t b n, s.stage t = .waiting b n ∨ s.stage t = .asleep b n ∨ s.stage t = .retry b n →
    b ∈ s.list ∧ (s.blk b).blockNo = n
  held : ∀ t, ∀ b ∈ s.held t, b ∈ s.list ∧ (s.blk b).acquired = true
  held_nodup : ∀ t, (s.held t).Nodup
  holder : ∀ t u b, b ∈ s.held t → b ∈ s.held u → t = u

section

omit [DecidableEq T]

theorem waits_of_coming (h : (∃ n, s.stage t = .asleep b n) ∨ ∃ n, s.stage t = .retry b n) :
    s.Waits t b := by
  obtain ⟨n, hn⟩ := exists_or.2 h
  exact ⟨n, Or.inr hn⟩

/-- A block that a thread sleeps on is acquired, or another thread is on
its way. -/
theorem Sound.acquired_of_asleep (h : s.Sound b) (ht : t ∈ (s.blk b).lock.sleeplist) :
    (s.blk b).acquired = true ∨ ∃ u, s.OnItsWay u b := by
  by_cases hacq : (s.blk b).acquired = true
  · exact Or.inl hacq
  · obtain ⟨u, hu, hmem⟩ := (h.coming (by simpa using hacq)).resolve_left (h.val_of_mem ht)
    exact Or.inr ⟨u, waits_of_coming hu, hmem⟩

end

/-- **Nobody waits for a block that is dropped.** -/
theorem Inv.not_waits_of_dropped (h : Inv s) {c : ℕ} (hset : s.Settled (.acquire u n c))
    (hfind : s.find n = none) (hb : b ∈ s.list) (hout : b ∉ s.evict) (t : T) : ¬ s.Waits t b := by
  intro hw
  have hacq := (of_not_mem_evict h.nodup hb hout).2.2
  -- somebody is on its way: `t` itself, or what keeps `t` asleep
  have hway : ∃ w, s.OnItsWay w b := by
    by_cases ht : t ∈ (s.blk b).lock.sleeplist
    · refine ((h.sound b hb).acquired_of_asleep ht).resolve_left ?_
      rw [hacq]
      decide
    · exact ⟨t, hw, ht⟩
  obtain ⟨w, hway⟩ := hway
  exact hset hfind w b hb hout hway

section

omit [DecidableEq T]

theorem inv_empty : Inv (empty : CacheSys T) where
  nodup := List.nodup_nil
  blockNo := fun _ ha => by cases ha
  sound := fun _ hb => by cases hb
  waits := fun t b n h => by rcases h with h | h | h <;> cases h
  held := fun _ _ hb => by cases hb
  held_nodup := fun _ => List.nodup_nil
  holder := fun _ _ _ hb => by cases hb

/-! ## The steps -/

/-- A block that a step does not touch stays sound, if no thread that was
to look at it again has left it. -/
theorem Sound.frame (h : s.Sound b) (hblk : s'.blk b = s.blk b)
    (hstage : ∀ t ∈ (s.blk b).lock.sleeplist, s'.stage t = s.stage t)
    (hway : (s.blk b).acquired = false → ∀ t, s.Waits t b → s'.stage t = s.stage t) :
    s'.Sound b := by
  unfold Sound
  rw [hblk]
  refine h.mono (fun t ht hsleep => by rwa [hstage t ht]) fun hfree t _ ht => ?_
  rwa [hway hfree t (waits_of_coming ht)]

end

theorem move_stage_self (s : CacheSys T) (t : T) (p : LookStage) : (s.move t p).stage t = p :=
  update_self _ _ _

theorem move_stage_of_ne (h : u ≠ t) (p : LookStage) : (s.move t p).stage u = s.stage u :=
  update_of_ne h _ _

section

omit [DecidableEq T]

theorem looks_cases (h : s.looks t n = true) : s.stage t = .out ∨ ∃ b, s.stage t = .retry b n := by
  unfold looks at h
  split at h
  · exact Or.inl ‹_›
  · rename_i b m hst
    obtain rfl : m = n := by simpa using h
    exact Or.inr ⟨b, hst⟩
  · cases h

/-- A thread that looks for block `n` is in no `sleeplist`. -/
theorem Inv.not_asleep_of_looks (h : Inv s) (hl : s.looks t n = true) (hb : b ∈ s.list) :
    t ∉ (s.blk b).lock.sleeplist := by
  intro hmem
  obtain ⟨m, hm⟩ := (h.sound b hb).sleeper t hmem
  rcases looks_cases hl with ho | ⟨c, hc⟩
  · rw [hm] at ho
    cases ho
  · rw [hm] at hc
    cases hc

/-- A thread that looks for block `n` waits for no other block. -/
theorem Inv.eq_of_looks_of_waits (h : Inv s) (hl : s.looks t n = true) (hw : s.Waits t b) :
    b ∈ s.list ∧ (s.blk b).blockNo = n := by
  obtain ⟨m, hm⟩ := hw
  rcases looks_cases hl with ho | ⟨c, hc⟩
  · rcases hm with hm | hm | hm <;> rw [hm] at ho <;> cases ho
  · rcases hm with hm | hm | hm <;> rw [hm] at hc <;> cases hc
    exact h.waits t b n (Or.inr (Or.inr hm))

/-- What a thread other than `t` waits for does not depend on `t`. -/
theorem Inv.waits_of_ne (h : Inv s) {stage : T → LookStage} (hst : ∀ u, u ≠ t → stage u = s.stage u)
    (ht : ∀ b n, stage t = .waiting b n ∨ stage t = .asleep b n ∨ stage t = .retry b n →
      b ∈ s.list ∧ (s.blk b).blockNo = n) :
    ∀ u b n, stage u = .waiting b n ∨ stage u = .asleep b n ∨ stage u = .retry b n →
      b ∈ s.list ∧ (s.blk b).blockNo = n := by
  intro u b n hu
  by_cases hut : u = t
  · subst hut
    exact ht b n hu
  · rw [hst u hut] at hu
    exact h.waits u b n hu

end

/-- A look that finds the block acquired. -/
theorem Inv.busy (h : Inv s) (hl : s.looks t n = true) (hfind : s.find n = some a)
    (hacq : (s.blk a).acquired = true) : Inv (s.move t (.waiting a n)) := by
  obtain ⟨ha, hno⟩ := mem_list_of_find hfind
  refine ⟨h.nodup, h.blockNo, fun b hb => ?_, ?_, h.held, h.held_nodup, h.holder⟩
  · refine (h.sound b hb).frame rfl (fun u hu => move_stage_of_ne ?_ _)
      fun hfree u hu => move_stage_of_ne ?_ _
    · rintro rfl
      exact h.not_asleep_of_looks hl hb hu
    · -- `t` came for this block, which would then be the one it has found acquired
      rintro rfl
      have hb' := h.eq_of_looks_of_waits hl hu
      obtain rfl := h.blockNo a ha b hb (hno.trans hb'.2.symm)
      rw [hacq] at hfree
      cases hfree
  · refine h.waits_of_ne (fun u hu => move_stage_of_ne hu _) fun b m hm => ?_
    rw [move_stage_self] at hm
    rcases hm with hm | hm | hm <;> cases hm
    exact ⟨ha, hno⟩

/-- A look that puts block `a` in front of the blocks that stay. What is left
to prove is that `a` is sound. -/
theorem Inv.take {l : List ℕ} {k : LockedBlock T} (h : Inv s) (hl : s.looks t n = true)
    (hsub : l.Sublist s.list) (ha : a ∉ l) (hnum : ∀ c ∈ l, (s.blk c).blockNo ≠ n)
    (hwaits : ∀ u, ∀ c ∉ l, s.Waits u c → c = a ∧ (s.blk c).blockNo = n)
    (hkeep : ∀ u, ∀ c ∈ s.held u, c ∈ l)
    (hs' : s' = { s with
      list := a :: l
      blk := update s.blk a k
      held := update s.held t (a :: s.held t) }.move t .out)
    (hno : k.blockNo = n) (hacq : k.acquired = true)
    (hsound : s'.blk a = k →
      (∀ c ∈ s.list, ∀ u ∈ (s.blk c).lock.sleeplist, s'.stage u = s.stage u) → s'.Sound a) :
    Inv s' := by
  have hlist : s'.list = a :: l := by rw [hs']; rfl
  have hself : s'.blk a = k := by rw [hs']; exact update_self _ _ _
  have hother : ∀ c ∈ l, s'.blk c = s.blk c := fun c hc => by
    rw [hs']; exact update_of_ne (ne_of_mem_of_not_mem hc ha) _ _
  have hstage : ∀ u, u ≠ t → s'.stage u = s.stage u := fun u hu => by
    rw [hs']; exact move_stage_of_ne hu _
  have hheld : ∀ u, s'.held u = if u = t then a :: s.held t else s.held u := fun u => by
    rw [hs']; exact update_apply _ _ _ _
  have hmem : ∀ {u c}, c ∈ s'.held u → c = a ∧ u = t ∨ c ∈ s.held u := fun {u c} hc => by
    rw [hheld] at hc
    split_ifs at hc with hut
    · rw [hut]
      exact (List.mem_cons.1 hc).imp_left fun hca => ⟨hca, rfl⟩
    · exact Or.inr hc
  have hnot : ∀ u, a ∉ s.held u := fun u hu => ha (hkeep u a hu)
  have hasleep : ∀ c ∈ s.list, ∀ u ∈ (s.blk c).lock.sleeplist, s'.stage u = s.stage u :=
    fun c hc u hu => hstage u fun he => h.not_asleep_of_looks hl hc (he ▸ hu)
  refine ⟨?_, ?_, ?_, fun u c m hu => ?_, fun u c hc => ?_, fun u => ?_, fun u w c hu hw => ?_⟩
  · rw [hlist]
    exact List.nodup_cons.2 ⟨ha, hsub.nodup h.nodup⟩
  · rw [hlist]
    intro c hc d hd hcd
    rcases List.mem_cons.1 hc with hca | hc <;> rcases List.mem_cons.1 hd with hda | hd
    · rw [hca, hda]
    · rw [hca, hself, hno, hother d hd] at hcd
      exact absurd hcd.symm (hnum d hd)
    · rw [hda, hself, hno, hother c hc] at hcd
      exact absurd hcd (hnum c hc)
    · rw [hother c hc, hother d hd] at hcd
      exact h.blockNo c (hsub.subset hc) d (hsub.subset hd) hcd
  · rw [hlist]
    intro c hc
    rcases List.mem_cons.1 hc with rfl | hc
    · exact hsound hself hasleep
    · refine (h.sound c (hsub.subset hc)).frame (hother c hc) (hasleep c (hsub.subset hc))
        fun _ u hu => hstage u ?_
      -- a thread that comes back for block `n` does not come for this one
      rintro rfl
      exact hnum c hc (h.eq_of_looks_of_waits hl hu).2
  · have hut : u ≠ t := by
      rintro rfl
      have hout : s'.stage u = .out := by rw [hs']; exact move_stage_self _ _ _
      rw [hout] at hu
      rcases hu with hu | hu | hu <;> cases hu
    rw [hstage u hut] at hu
    obtain ⟨-, rfl⟩ := h.waits u c m hu
    rw [hlist]
    by_cases hc : c ∈ l
    · exact ⟨List.mem_cons_of_mem _ hc, by rw [hother c hc]⟩
    · obtain ⟨rfl, hm⟩ := hwaits u c hc ⟨_, hu⟩
      exact ⟨List.mem_cons_self .., by rw [hself, hno, hm]⟩
  · rw [hlist]
    rcases hmem hc with ⟨rfl, -⟩ | hc
    · exact ⟨List.mem_cons_self .., by rw [hself]; exact hacq⟩
    · rw [hother c (hkeep u c hc)]
      exact ⟨List.mem_cons_of_mem _ (hkeep u c hc), (h.held u c hc).2⟩
  · rw [hheld]
    split
    · exact List.nodup_cons.2 ⟨hnot t, h.held_nodup t⟩
    · exact h.held_nodup u
  · rcases hmem hu with ⟨rfl, rfl⟩ | hu <;> rcases hmem hw with ⟨hca, hwt⟩ | hw
    · exact hwt.symm
    · exact absurd hw (hnot w)
    · exact absurd (hca ▸ hu) (hnot u)
    · exact h.holder u w c hu hw

/-- A look that takes a block of the cache. -/
theorem Inv.hit (h : Inv s) (hl : s.looks t n = true) (hfind : s.find n = some a)
    (hacq : (s.blk a).acquired = false)
    (hs' : s' = { s with
      list := a :: s.list.erase a
      blk := update s.blk a
        { s.blk a with acquired := true, lock := (s.blk a).lock.getSem.1 }
      held := update s.held t (a :: s.held t) }.move t .out) : Inv s' := by
  obtain ⟨ha, hno⟩ := mem_list_of_find hfind
  have herase : ∀ {c}, c ∈ s.list.erase a ↔ c ≠ a ∧ c ∈ s.list := h.nodup.mem_erase_iff
  refine h.take hl List.erase_sublist (fun hc => (herase.1 hc).1 rfl) (fun c hc hcn => ?_)
    (fun u c hc hu => ?_) (fun u c hc => herase.2 ⟨?_, (h.held u c hc).1⟩) hs' hno rfl
    fun hself hasleep => ?_
  · obtain ⟨hca, hc⟩ := herase.1 hc
    exact hca (h.blockNo c hc a ha (hcn.trans hno.symm))
  · obtain ⟨m, hm⟩ := hu
    by_contra hne
    refine hc (herase.2 ⟨fun hca => hne ⟨hca, hca ▸ hno⟩, (h.waits u c m hm).1⟩)
  · rintro rfl
    have hheld := (h.held u c hc).2
    rw [hacq] at hheld
    cases hheld
  · have hsound := h.sound a ha
    unfold Sound at hsound ⊢
    rw [hacq] at hsound
    have hkeep : (s.blk a).lock.getSem.1.sleeplist = (s.blk a).lock.sleeplist := by
      unfold Semaphore.getSem
      split <;> rfl
    rw [hself]
    refine hsound.take.mono (fun u hu hsleep => ?_) (by simp)
    rwa [hasleep a ha u (hkeep ▸ hu)]

/-- A look that finds no block, and evicts to put a new one into the
cache. -/
theorem Inv.miss (h : Inv s) (hl : s.looks t n = true) (hfind : s.find n = none)
    (hset : s.Settled (.acquire t n b)) (hb : b ∉ s.evict)
    (hs' : s' = { s with
      list := b :: s.evict
      blk := update s.blk b ⟨n, true, false, (Semaphore.initSem 1).waitSem t⟩
      held := update s.held t (b :: s.held t) }.move t .out) : Inv s' := by
  have hnone : ∀ c ∈ s.list, (s.blk c).blockNo ≠ n := by
    simpa [find] using hfind
  have hsub := s.evict_sublist
  refine h.take hl hsub hb (fun c hc => hnone c (hsub.subset hc)) (fun u c hc hu => ?_)
    (fun u c hc => ?_) hs' rfl rfl fun hself _ => ?_
  · obtain ⟨m, hm⟩ := hu
    exact absurd ⟨m, hm⟩ (h.not_waits_of_dropped hset hfind (h.waits u c m hm).1 hc u)
  · obtain ⟨hin, hacq⟩ := h.held u c hc
    by_contra hgone
    have hfree := (of_not_mem_evict h.nodup hin hgone).2.2
    rw [hacq] at hfree
    cases hfree
  · unfold Sound
    rw [hself]
    exact .made t

section

omit [DecidableEq T]

/-- A step on a block that stays in the list: what is left to prove is that
the blocks are sound and that what is still held is acquired. -/
theorem Inv.touch (h : Inv s) (hlist : s'.list = s.list)
    (hno : ∀ c, (s'.blk c).blockNo = (s.blk c).blockNo) (hsound : ∀ c ∈ s.list, s'.Sound c)
    (hwaits : ∀ u c m, s'.stage u = .waiting c m ∨ s'.stage u = .asleep c m ∨
        s'.stage u = .retry c m →
      s.stage u = .waiting c m ∨ s.stage u = .asleep c m ∨ s.stage u = .retry c m)
    (hheld : ∀ u, (s'.held u).Sublist (s.held u))
    (hacq : ∀ u, ∀ c ∈ s'.held u, (s'.blk c).acquired = true) : Inv s' where
  nodup := by rw [hlist]; exact h.nodup
  blockNo := fun c hc d hd hcd => by
    rw [hlist] at hc hd
    rw [hno, hno] at hcd
    exact h.blockNo c hc d hd hcd
  sound := by rw [hlist]; exact hsound
  waits := fun u c m hu => by
    rw [hlist, hno]
    exact h.waits u c m (hwaits u c m hu)
  held := fun u c hc => by
    rw [hlist]
    exact ⟨(h.held u c ((hheld u).subset hc)).1, hacq u c hc⟩
  held_nodup := fun u => (hheld u).nodup (h.held_nodup u)
  holder := fun u w c hu hw => h.holder u w c ((hheld u).subset hu) ((hheld w).subset hw)

theorem setLock_blk (s : CacheSys T) (b : ℕ) (lock : Semaphore T) (c : ℕ) :
    (s.setLock b lock).blk c =
      { s.blk c with lock := if c = b then lock else (s.blk c).lock } := by
  unfold setLock
  by_cases hc : c = b
  · subst hc
    simp
  · simp [hc]

end

/-- The wait on the lock of a block. -/
theorem Inv.wait (h : Inv s) (hst : s.stage t = .waiting b n)
    (hs' : s' = (s.setLock b ((s.blk b).lock.waitSem t)).move t
      (if 0 ≤ (s.blk b).lock.val - 1 then .retry b n else .asleep b n)) : Inv s' := by
  have hb : b ∈ s.list := (h.waits t b n (Or.inl hst)).1
  have hsound := h.sound b hb
  have hblk : ∀ c, s'.blk c = { s.blk c with
      lock := if c = b then (s.blk b).lock.waitSem t else (s.blk c).lock } := fun c => by
    rw [hs']; exact setLock_blk s b _ c
  have hother : ∀ c, c ≠ b → s'.blk c = s.blk c := fun c hc => by
    rw [hblk, if_neg hc]
  have hlock : (s'.blk b).lock = (s.blk b).lock.waitSem t := by rw [hblk, if_pos rfl]
  have hacq : ∀ c, (s'.blk c).acquired = (s.blk c).acquired := fun c => by rw [hblk]
  have hstage : ∀ u, u ≠ t → s'.stage u = s.stage u := fun u hu => by
    rw [hs']; exact move_stage_of_ne hu _
  have ht : s'.stage t = if 0 ≤ (s.blk b).lock.val - 1 then .retry b n else .asleep b n := by
    rw [hs']; exact move_stage_self _ _ _
  have hawake : ∀ c ∈ s.list, t ∉ (s.blk c).lock.sleeplist := fun c hc hmem => by
    obtain ⟨m, hm⟩ := (h.sound c hc).sleeper t hmem
    rw [hst] at hm
    cases hm
  have hasleep : ∀ c ∈ s.list, ∀ u ∈ (s.blk c).lock.sleeplist, s'.stage u = s.stage u :=
    fun c hc u hu => hstage u fun he => hawake c hc (he ▸ hu)
  refine h.touch (by rw [hs']; rfl) (fun c => by rw [hblk]) (fun c hc => ?_) (fun u c m hu => ?_)
    (fun u => by rw [hs']; exact List.Sublist.refl _) fun u c hc => ?_
  · by_cases hcb : c = b
    · subst hcb
      unfold Sound
      rw [hlock, hacq]
      refine hsound.wait (by simp [hst]) (fun u hu => by rw [hstage u hu]; exact ⟨id, id⟩) ?_
      rw [ht]
      split <;> exact ⟨n, rfl⟩
    · refine (h.sound c hc).frame (hother c hcb) (hasleep c hc) fun _ u hu => hstage u ?_
      rintro rfl
      obtain ⟨m, hm⟩ := hu
      rw [hst] at hm
      rcases hm with hm | hm | hm <;> cases hm
      exact hcb rfl
  · by_cases hut : u = t
    · subst hut
      rw [ht] at hu
      rw [hst]
      split at hu <;> rcases hu with hu | hu | hu <;> cases hu <;> exact Or.inl rfl
    · rwa [hstage u hut] at hu
  · rw [hacq]
    rw [show s'.held = s.held by rw [hs']; rfl] at hc
    exact (h.held u c hc).2

/-- A woken thread returns from its wait. -/
theorem Inv.resume (h : Inv s) (hst : s.stage t = .asleep b n)
    (hawake : t ∉ (s.blk b).lock.sleeplist) : Inv (s.move t (.retry b n)) := by
  refine h.touch rfl (fun c => rfl) (fun c hc => ?_) (fun u c m hu => ?_)
    (fun u => List.Sublist.refl _) fun u c hc => (h.held u c hc).2
  · refine (h.sound c hc).mono (fun u hu hsleep => ?_) fun _ u _ hu => ?_
    · have hut : u ≠ t := by
        rintro rfl
        rw [hst] at hsleep
        obtain ⟨m, hm⟩ := hsleep
        cases hm
        exact hawake hu
      rwa [move_stage_of_ne hut]
    · by_cases hut : u = t
      · subst hut
        simp only [hst, LookStage.asleep.injEq, reduceCtorEq, exists_const, or_false] at hu
        obtain ⟨m, rfl, -⟩ := hu
        exact Or.inr ⟨n, move_stage_self _ _ _⟩
      · rwa [move_stage_of_ne hut]
  · by_cases hut : u = t
    · subst hut
      rw [move_stage_self] at hu
      rcases hu with hu | hu | hu <;> cases hu
      exact Or.inr (Or.inl hst)
    · rwa [move_stage_of_ne hut] at hu

/-- `cache_release`. -/
theorem Inv.release (h : Inv s) (hb : b ∈ s.held t) {r : Semaphore T × Option T}
    (hpost : (s.blk b).lock.postSem = some r)
    (hs' : s' = { s with
      blk := update s.blk b { s.blk b with acquired := false, lock := r.1 }
      held := update s.held t ((s.held t).erase b) }) : Inv s' := by
  obtain ⟨hin, hacq⟩ := h.held t b hb
  have hsound := h.sound b hin
  have hself : s'.blk b = { s.blk b with acquired := false, lock := r.1 } := by
    rw [hs']; exact update_self _ _ _
  have hother : ∀ c, c ≠ b → s'.blk c = s.blk c := fun c hc => by
    rw [hs']; exact update_of_ne hc _ _
  have hstage : s'.stage = s.stage := by rw [hs']
  have hheld : ∀ u, s'.held u = if u = t then (s.held t).erase b else s.held u := fun u => by
    rw [hs']; exact update_apply _ _ _ _
  refine h.touch (by rw [hs']) (fun c => ?_) (fun c hc => ?_) (fun u c m hu => by rwa [hstage] at hu)
    (fun u => ?_) fun u c hc => ?_
  · by_cases hcb : c = b
    · rw [hcb, hself]
    · rw [hother c hcb]
  · by_cases hcb : c = b
    · subst hcb
      unfold Sound at hsound ⊢
      rw [hacq] at hsound
      rw [hself, hstage]
      exact (hsound.post hpost).1
    · exact (h.sound c hc).frame (hother c hcb) (fun u _ => by rw [hstage])
        fun _ u _ => by rw [hstage]
  · rw [hheld]
    split_ifs with hut
    · rw [hut]
      exact List.erase_sublist
    · exact List.Sublist.refl _
  · rw [hheld] at hc
    have hcu : c ∈ s.held u := by
      split_ifs at hc with hut
      · rw [hut]
        exact List.mem_of_mem_erase hc
      · exact hc
    have hcb : c ≠ b := by
      rintro rfl
      obtain rfl := h.holder u t c hcu hb
      rw [if_pos rfl] at hc
      exact (h.held_nodup u).not_mem_erase hc
    rw [hother c hcb]
    exact (h.held u c hcu).2

omit [DecidableEq T] in
/-- The holder changes `pinned`. -/
theorem Inv.setPinned (h : Inv s) (v : Bool)
    (hs' : s' = { s with blk := update s.blk b { s.blk b with pinned := v } }) :
    Inv s' := by
  have hblk : ∀ c, (s'.blk c).blockNo = (s.blk c).blockNo ∧
      (s'.blk c).acquired = (s.blk c).acquired ∧ (s'.blk c).lock = (s.blk c).lock := fun c => by
    rw [hs']
    by_cases hcb : c = b
    · subst hcb
      simp
    · simp [hcb]
  have hstage : s'.stage = s.stage := by rw [hs']
  have hheld : s'.held = s.held := by rw [hs']
  refine h.touch (by rw [hs']) (fun c => (hblk c).1) (fun c hc => ?_)
    (fun u c m hu => by rwa [hstage] at hu) (fun u => by rw [hheld]) fun u c hc => ?_
  · have hsound := h.sound c hc
    obtain ⟨-, hacq, hlock⟩ := hblk c
    unfold Sound
    rw [hlock, hacq, hstage]
    exact hsound
  · rw [(hblk c).2.1]
    rw [hheld] at hc
    exact (h.held u c hc).2

/-- **Every step keeps the invariant**, if the eviction loop finds what it
relies on. -/
theorem Inv.step (h : Inv s) {a : CacheAct T} (hset : s.Settled a) (hs : s.step a = some s') :
    Inv s' := by
  cases a with
  | acquire t n b =>
    rw [CacheSys.step] at hs
    split_ifs at hs with hl
    unfold acquire at hs
    split at hs
    · rename_i a hfind
      split_ifs at hs with hacq
      · obtain rfl := Option.some.inj hs
        exact h.busy hl hfind hacq
      · exact h.hit hl hfind (by simpa using hacq) (Option.some.inj hs).symm
    · rename_i hfind
      split_ifs at hs with hb
      exact h.miss hl hfind hset hb (Option.some.inj hs).symm
  | wait t =>
    simp only [CacheSys.step] at hs
    split at hs
    · rename_i b n hst
      split at hs
      · exact h.wait hst (Option.some.inj hs).symm
      · cases hs
    · cases hs
  | resume t =>
    simp only [CacheSys.step] at hs
    split at hs
    · rename_i b n hst
      obtain ⟨hok, rfl⟩ := of_guard hs
      exact h.resume hst hok.2
    · cases hs
  | release t b =>
    rw [CacheSys.step] at hs
    split_ifs at hs with hok
    obtain ⟨r, hpost, hs⟩ := Option.map_eq_some_iff.1 hs
    exact h.release hok.1 hpost hs.symm
  | setPinned t b v =>
    rw [CacheSys.step] at hs
    split at hs
    · exact h.setPinned v (Option.some.inj hs).symm
    · cases hs

/-- **No block is evicted while a thread waits for it**, in every run in
which no thread is on its way to or from a block that a look drops: nobody
sleeps on a block that the loop drops, is about to wait on it, or was woken from it and has not
looked again. -/
theorem waited_not_evicted {tr : List (CacheSys T × CacheAct T)} (hrun : Run step empty tr s)
    (hset : ∀ x ∈ tr, x.1.Settled x.2) :
    ∀ x ∈ tr, ∀ b ∈ x.1.evicted x.2, ∀ t, ¬ x.1.Waits t b := by
  intro x hx b hb t
  obtain ⟨tr', s₁, hrun', -, hpre⟩ := hrun.of_mem hx
  have hinv : Inv x.1 :=
    hrun'.invariantOf (K := fun s a => s.Settled a) (fun y hy => hset y (hpre.subset hy)) inv_empty
      fun s a s' hI hK hs => hI.step hK hs
  obtain ⟨s, a⟩ := x
  cases a with
  | acquire u n c =>
    simp only [evicted] at hb
    split at hb
    · cases hb
    · rename_i hfind
      rw [List.mem_filter] at hb
      exact hinv.not_waits_of_dropped (hset _ hx) hfind hb.1 (by simpa using hb.2) t
  | _ => cases hb

/-! ## Two runs of a full cache -/

omit [DecidableEq T] in
theorem block_eq_some_iff : (s.stage t).block = some b ↔ s.Waits t b := by
  unfold Waits
  cases s.stage t <;> simp [LookStage.block]

instance (s : CacheSys T) (t : T) (b : ℕ) : Decidable (s.Waits t b) :=
  decidable_of_iff _ block_eq_some_iff

instance (s : CacheSys T) (t : T) (b : ℕ) : Decidable (s.OnItsWay t b) :=
  inferInstanceAs (Decidable (_ ∧ _))

instance [Fintype T] (s : CacheSys T) (a : CacheAct T) : Decidable (s.Settled a) :=
  match a with
  | .acquire _ n _ => inferInstanceAs (Decidable (s.find n = none →
      ∀ t, ∀ b ∈ s.list, b ∉ s.evict → ¬s.OnItsWay t b))
  | .wait _ | .resume _ | .release _ _ | .setPinned _ _ _ => inferInstanceAs (Decidable True)

/-- Thread 0 acquires block 0 and thread 1 finds it acquired; thread 2 fills
the cache with 19 other blocks. -/
def fillCache : List (CacheAct (Fin 3)) :=
  [.acquire 0 0 0, .acquire 1 0 0, .wait 1] ++
    (List.range' 1 19).flatMap fun n => [.acquire 2 n n, .release 2 n]

/-- A thread sleeps on an acquired block while the cache evicts another. -/
theorem waited_not_evicted_asleep : ∃ tr s, Run step (empty : CacheSys (Fin 3)) tr s ∧
    ∃ x ∈ tr, x.1.evicted x.2 = [1] ∧ x.1.Waits 1 0 ∧ ∀ t, ¬ x.1.Waits t 1 := by
  obtain ⟨s, hs⟩ := Option.isSome_iff_exists.1 (show (exec step (empty : CacheSys (Fin 3))
    (fillCache ++ [.acquire 2 20 20])).isSome by decide +kernel)
  have hrun := Run.of_exec hs
  have hset : ∀ x ∈ execTrace step (empty : CacheSys (Fin 3)) (fillCache ++ [.acquire 2 20 20]),
      x.1.Settled x.2 := by
    decide +kernel
  have hlast : ∃ x ∈ execTrace step (empty : CacheSys (Fin 3)) (fillCache ++ [.acquire 2 20 20]),
      x.1.evicted x.2 = [1] ∧ x.1.Waits 1 0 := by
    decide +kernel
  obtain ⟨x, hx, hev, hw⟩ := hlast
  exact ⟨_, s, hrun, x, hx, hev, hw,
    waited_not_evicted hrun hset x hx 1 (by rw [hev]; exact List.mem_singleton_self 1)⟩

/-- **A woken thread loses its block.** Thread 0 releases block 0, which
wakes thread 1; before that runs, thread 2 misses another block in the full
cache and block 0 is freed. -/
theorem evicted_while_woken : ∃ tr s, Run step (empty : CacheSys (Fin 3)) tr s ∧
    ∃ x ∈ tr, 0 ∈ x.1.evicted x.2 ∧ x.1.stage 1 = .asleep 0 0 ∧
      1 ∉ (x.1.blk 0).lock.sleeplist := by
  obtain ⟨s, hs⟩ := Option.isSome_iff_exists.1 (show (exec step (empty : CacheSys (Fin 3))
    (fillCache ++ [.release 0 0, .acquire 2 20 20])).isSome by decide +kernel)
  exact ⟨_, s, Run.of_exec hs, by decide +kernel⟩

end CacheSys

end OsKernel.Cache
