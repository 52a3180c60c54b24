import OsKernel.Cache.Model.Store

/-!
# Helpers — the store

What the functions of `Model/Store.lean` do, in terms of `Store.get`: the
block list is read as a partial map from block numbers to blocks, which it
is as long as no number occurs twice (`Store.Wf`). `Acquired` says what
`cache_acquire` may do, eviction included; the two loop bodies of the log
follow from it.
-/

namespace OsKernel.Cache

open Function

namespace Store

/-- No block number is cached twice. -/
def Wf (s : Store) : Prop := (s.cache.map Block.blockNo).Nodup

variable {s : Store} {n m : ℕ} {b : Block}

theorem get_blockNo (h : s.get n = some b) : b.blockNo = n := by
  have := List.find?_some h
  simpa using this

theorem mem_of_get (h : s.get n = some b) : b ∈ s.cache := List.mem_of_find?_eq_some h

/-- A list without repeated numbers finds its members. -/
theorem find?_of_mem {l : List Block} (hnd : (l.map Block.blockNo).Nodup) (hb : b ∈ l) :
    l.find? (fun b' => b'.blockNo = b.blockNo) = some b := by
  induction l with
  | nil => simp at hb
  | cons a l ih =>
    rw [List.map_cons, List.nodup_cons] at hnd
    rcases List.mem_cons.1 hb with rfl | hb
    · simp
    · have hne : a.blockNo ≠ b.blockNo := by
        intro he
        exact hnd.1 (he ▸ List.mem_map_of_mem hb)
      rw [List.find?_cons_of_neg (by simpa using hne)]
      exact ih hnd.2 hb

theorem get_of_mem (hwf : s.Wf) (hb : b ∈ s.cache) : s.get b.blockNo = some b :=
  find?_of_mem hwf hb

/-! ## Updates in place -/

end Store

namespace Block

@[simp] theorem blockNo_setAcquired (a : Bool) (b : Block) :
    (setAcquired a b).blockNo = b.blockNo := rfl

@[simp] theorem blockNo_setPinned (p : Bool) (b : Block) :
    (setPinned p b).blockNo = b.blockNo := rfl

@[simp] theorem blockNo_setData (d : BlockData) (b : Block) :
    (setData d b).blockNo = b.blockNo := rfl

/-- Releasing a free block that was acquired leaves it as it was. -/
theorem setAcquired_setAcquired {b : Block} (h : b.acquired = false) :
    setAcquired false (setAcquired true b) = b := by
  cases b
  simp only at h
  subst h
  rfl

end Block

namespace Store

variable {s : Store} {n m : ℕ}

variable {f : Block → Block}

@[simp] theorem modify_disk : (s.modify n f).disk = s.disk := rfl

section

variable (hf : ∀ b, (f b).blockNo = b.blockNo)

include hf

theorem map_blockNo_modify :
    (s.modify n f).cache.map Block.blockNo = s.cache.map Block.blockNo := by
  simp only [modify, List.map_map]
  refine List.map_congr_left fun b _ => ?_
  simp only [Function.comp_apply]
  split
  · exact hf b
  · rfl

theorem wf_modify (hwf : s.Wf) : (s.modify n f).Wf := by
  rw [Wf, map_blockNo_modify hf]
  exact hwf

theorem get_modify_self : (s.modify n f).get n = (s.get n).map f := by
  simp only [get, modify]
  induction s.cache with
  | nil => rfl
  | cons a l ih =>
    by_cases ha : a.blockNo = n
    · have hfa : (f a).blockNo = n := by rw [hf, ha]
      simp [ha, hfa]
    · simpa [ha] using ih

theorem get_modify_of_ne (hm : m ≠ n) : (s.modify n f).get m = s.get m := by
  simp only [get, modify]
  induction s.cache with
  | nil => rfl
  | cons a l ih =>
    by_cases ha : a.blockNo = n
    · have hfa : (f a).blockNo ≠ m := by rw [hf, ha]; exact Ne.symm hm
      simpa [ha, hfa, Ne.symm hm] using ih
    · by_cases ham : a.blockNo = m
      · simp [ham, hm]
      · simpa [ha, ham] using ih

end

end Store

/-! ## Eviction -/

theorem evictLoop_sublist : ∀ (bs : List Block) (cnum : ℕ), (evictLoop bs cnum).Sublist bs := by
  intro bs
  induction bs with
  | nil => intro cnum; simp [evictLoop]
  | cons b bs ih =>
    intro cnum
    rw [evictLoop]
    split
    · split
      · exact (ih _).trans (List.sublist_cons_self _ _)
      · exact (ih _).cons_cons b
    · exact List.Sublist.refl _

/-- The loop keeps every block that is pinned or acquired. -/
theorem mem_evictLoop {b : Block} (hb : b.pinned = true ∨ b.acquired = true) :
    ∀ (bs : List Block) (cnum : ℕ), b ∈ bs → b ∈ evictLoop bs cnum := by
  intro bs
  induction bs with
  | nil => intro _ h; simp at h
  | cons a bs ih =>
    intro cnum hmem
    rw [evictLoop]
    split
    · split_ifs with hdrop
      · rcases List.mem_cons.1 hmem with rfl | hmem
        · simp only [Bool.and_eq_true, Bool.not_eq_true'] at hdrop
          rcases hb with hb | hb
          · rw [hdrop.1] at hb; cases hb
          · rw [hdrop.2] at hb; cases hb
        · exact ih _ hmem
      · rcases List.mem_cons.1 hmem with rfl | hmem
        · exact List.mem_cons_self
        · exact List.mem_cons_of_mem _ (ih _ hmem)
    · exact hmem

theorem evict_sublist (bs : List Block) : (evict bs).Sublist bs := by
  have h := (evictLoop_sublist bs.reverse bs.length).reverse
  rwa [List.reverse_reverse] at h

theorem mem_evict {bs : List Block} {b : Block} (hb : b.pinned = true ∨ b.acquired = true)
    (hmem : b ∈ bs) : b ∈ evict bs := by
  rw [evict, List.mem_reverse]
  exact mem_evictLoop hb _ _ (List.mem_reverse.2 hmem)

/-! ## Acquiring a block -/

/-- Block `m` is cached as before, or was neither pinned nor acquired and
has been evicted. -/
def Kept (s s' : Store) (m : ℕ) : Prop :=
  s'.get m = s.get m ∨
    (s'.get m = none ∧ ∃ b, s.get m = some b ∧ b.pinned = false ∧ b.acquired = false)

theorem Kept.trans {s s' s'' : Store} {m : ℕ} (h : Kept s s' m) (h' : Kept s' s'' m) :
    Kept s s'' m := by
  rcases h' with h' | ⟨hnone, b, hb, hp, ha⟩
  · rcases h with h | ⟨hnone, hb⟩
    · exact Or.inl (h'.trans h)
    · exact Or.inr ⟨h'.trans hnone, hb⟩
  · rcases h with h | ⟨hnone', -⟩
    · exact Or.inr ⟨hnone, b, by rw [← h]; exact hb, hp, ha⟩
    · rw [hnone'] at hb
      cases hb

/-- What is still cached was cached before, and is unchanged. -/
theorem Kept.get_of_some {s s' : Store} {m : ℕ} {b : Block} (h : Kept s s' m)
    (hb : s'.get m = some b) : s.get m = some b := by
  rcases h with h | ⟨hnone, -⟩
  · rw [← h]; exact hb
  · rw [hnone] at hb
    cases hb

/-- A pinned or acquired block stays cached. -/
theorem Kept.get_of_held {s s' : Store} {m : ℕ} {b : Block} (h : Kept s s' m)
    (hb : s.get m = some b) (hheld : b.pinned = true ∨ b.acquired = true) :
    s'.get m = some b := by
  rcases h with h | ⟨-, b', hb', hp, ha⟩
  · rw [h]; exact hb
  · obtain rfl := Option.mem_unique hb hb'
    rcases hheld with hh | hh
    · rw [hp] at hh; cases hh
    · rw [ha] at hh; cases hh

/-- **What `cache_acquire` does**, as far as `Store.get` can tell: the
block was free and is now held, with its cached content or else the
content on disk; any other block is as it was, or was neither pinned nor
acquired and has been evicted. -/
structure Acquired (n : ℕ) (s s' : Store) : Prop where
  disk : s'.disk = s.disk
  wf : s'.Wf
  free : ∀ b, s.get n = some b → b.acquired = false
  hit : ∀ b, s.get n = some b → s'.get n = some (b.setAcquired true)
  miss : s.get n = none → s'.get n = some ⟨n, true, false, true, s.disk n⟩
  other : ∀ m, m ≠ n → Kept s s' m

theorem acquired_of_hit {n : ℕ} {s : Store} {b : Block} (hwf : s.Wf) (hb : s.get n = some b)
    (hfree : b.acquired = false) :
    Acquired n s { s with
      cache := b.setAcquired true :: s.cache.eraseP fun b => b.blockNo = n } := by
  have hbn := Store.get_blockNo hb
  have hsub : (s.cache.eraseP fun b => b.blockNo = n).Sublist s.cache := List.eraseP_sublist
  have hnot : n ∉ (s.cache.eraseP fun b => b.blockNo = n).map Block.blockNo := by
    intro hmem
    obtain ⟨a, ha, han⟩ := List.mem_map.1 hmem
    have hperm : (b :: s.cache.eraseP fun b => b.blockNo = n).Perm s.cache := by
      obtain ⟨a', l₁, l₂, hl₁, ha', hcache, herase⟩ :=
        List.exists_of_eraseP (p := fun b => b.blockNo = n) (Store.mem_of_get hb) (by simpa using hbn)
      have hab : a' = b := by
        have hfind : s.get n = some a' := by
          rw [Store.get, hcache, List.find?_append, List.find?_eq_none.2 (by simpa using hl₁),
            Option.none_or]
          exact List.find?_cons_of_pos (p := fun b : Block => decide (b.blockNo = n)) ha'
        rw [hb] at hfind
        exact (Option.some.inj hfind).symm
      rw [herase, hcache, hab]
      exact List.perm_middle.symm
    have hnd := (hperm.map Block.blockNo).nodup_iff.2 hwf
    rw [List.map_cons, List.nodup_cons] at hnd
    exact hnd.1 (by rw [hbn]; exact hmem)
  have hother : ∀ m, m ≠ n →
      (s.cache.eraseP fun b => b.blockNo = n).find? (fun b => b.blockNo = m) = s.get m := by
    intro m hm
    simp only [Store.get]
    induction s.cache with
    | nil => rfl
    | cons a l ih =>
      by_cases ha : a.blockNo = n
      · have ham : ¬ n = m := Ne.symm hm
        simp [ha, ham]
      · by_cases ham : a.blockNo = m
        · simp [ham, hm]
        · simpa [ha, ham] using ih
  refine ⟨rfl, ?_, ?_, ?_, ?_, fun m hm => Or.inl ?_⟩
  · rw [Store.Wf, List.map_cons, List.nodup_cons]
    refine ⟨by rw [Block.blockNo_setAcquired, hbn]; exact hnot, ?_⟩
    exact hwf.sublist (hsub.map _)
  · intro b' hb'
    rw [hb] at hb'
    exact Option.some.inj hb' ▸ hfree
  · intro b' hb'
    obtain rfl := Option.mem_unique hb hb'
    simp [Store.get, hbn]
  · intro hnone
    rw [hb] at hnone
    cases hnone
  · have hne : ¬ (b.setAcquired true).blockNo = m := by
      rw [Block.blockNo_setAcquired, hbn]
      exact Ne.symm hm
    rw [Store.get, List.find?_cons_of_neg (by simp only [hne, decide_false]; simp)]
    exact hother m hm

theorem acquired_of_miss {n : ℕ} {s : Store} (hwf : s.Wf) (hn : s.get n = none) :
    Acquired n s { s with cache := ⟨n, true, false, true, s.disk n⟩ :: evict s.cache } := by
  have hsub := evict_sublist s.cache
  have hnot : n ∉ (evict s.cache).map Block.blockNo := by
    intro hmem
    obtain ⟨a, ha, han⟩ := List.mem_map.1 hmem
    have := Store.get_of_mem hwf (hsub.subset ha)
    rw [han, hn] at this
    cases this
  have hndup : ((evict s.cache).map Block.blockNo).Nodup := hwf.sublist (hsub.map _)
  refine ⟨rfl, ?_, ?_, ?_, fun _ => by simp [Store.get], fun m hm => ?_⟩
  · rw [Store.Wf, List.map_cons, List.nodup_cons]
    exact ⟨hnot, hndup⟩
  · intro b hb
    rw [hn] at hb
    cases hb
  · intro b hb
    rw [hn] at hb
    cases hb
  · have hget : Store.get { s with cache := ⟨n, true, false, true, s.disk n⟩ :: evict s.cache } m =
        (evict s.cache).find? fun b => b.blockNo = m := by
      rw [Store.get, List.find?_cons_of_neg (by simpa using Ne.symm hm)]
    rw [Kept, hget]
    cases hm' : s.get m with
    | none =>
      left
      rw [List.find?_eq_none]
      intro a ha
      have := List.find?_eq_none.1 hm' a (hsub.subset ha)
      simpa using this
    | some b =>
      have hbm := Store.get_blockNo hm'
      by_cases hkeep : b ∈ evict s.cache
      · left
        have := Store.find?_of_mem hndup hkeep
        rwa [hbm] at this
      · right
        refine ⟨?_, b, rfl, ?_, ?_⟩
        · rw [List.find?_eq_none]
          intro a ha ham
          have hfind := Store.get_of_mem hwf (hsub.subset ha)
          rw [of_decide_eq_true ham, hm'] at hfind
          exact hkeep (Option.some.inj hfind ▸ ha)
        · by_contra hp
          exact hkeep (mem_evict (Or.inl (by simpa using hp)) (Store.mem_of_get hm'))
        · by_contra hp
          exact hkeep (mem_evict (Or.inr (by simpa using hp)) (Store.mem_of_get hm'))

/-- **`cache_acquire` does what `Acquired` says.** -/
theorem acquired_of_cacheAcquire {n : ℕ} {s s' : Store} (hwf : s.Wf)
    (h : cacheAcquire n s = some s') : Acquired n s s' := by
  unfold cacheAcquire at h
  cases hn : s.get n with
  | none =>
    rw [hn] at h
    obtain rfl := Option.some.inj h
    exact acquired_of_miss hwf hn
  | some b =>
    rw [hn] at h
    cases hb : b.acquired with
    | true => simp [hb] at h
    | false =>
      simp only [hb, Bool.false_eq_true, if_false, Option.some.injEq] at h
      subst h
      exact acquired_of_hit hwf hn hb

/-- The content `cache_acquire` would hand out. -/
def Store.value (s : Store) (n : ℕ) : BlockData :=
  match s.get n with
  | some b => b.data
  | none => s.disk n

theorem Store.value_of_get {s : Store} {n : ℕ} {b : Block} (h : s.get n = some b) :
    s.value n = b.data := by
  simp [Store.value, h]

theorem Store.value_of_none {s : Store} {n : ℕ} (h : s.get n = none) : s.value n = s.disk n := by
  simp [Store.value, h]

/-- The acquired block has the content the store had for it; it is pinned
only if it was. -/
theorem Acquired.block {n : ℕ} {s s' : Store} (h : Acquired n s s') :
    ∃ b, s'.get n = some b ∧ b.acquired = true ∧ b.data = s.value n ∧
      (b.pinned = true → ∃ b', s.get n = some b' ∧ b'.pinned = true) := by
  cases hn : s.get n with
  | none =>
    refine ⟨_, h.miss hn, rfl, (Store.value_of_none hn).symm, fun hp => ?_⟩
    cases hp
  | some b =>
    exact ⟨_, h.hit b hn, rfl, (Store.value_of_get hn).symm, fun hp => ⟨b, rfl, hp⟩⟩

/-- A block nobody holds can be acquired. -/
theorem cacheAcquire_isSome {n : ℕ} {s : Store}
    (h : ∀ b, s.get n = some b → b.acquired = false) : (cacheAcquire n s).isSome := by
  unfold cacheAcquire
  cases hn : s.get n with
  | none => simp
  | some b => simp [h b hn]

/-! ## Device writes, copies and releases -/

section Ops

variable {s : Store} {n m dst src : ℕ}

@[simp] theorem get_deviceWrite : (deviceWrite n s).get m = s.get m := by
  unfold deviceWrite
  cases s.get n <;> rfl

theorem wf_deviceWrite (h : s.Wf) : (deviceWrite n s).Wf := by
  unfold deviceWrite
  cases s.get n <;> exact h

theorem disk_deviceWrite {b : Block} (h : s.get n = some b) :
    (deviceWrite n s).disk = update s.disk n b.data := by
  simp [deviceWrite, h]

@[simp] theorem disk_cacheRelease : (cacheRelease n s).disk = s.disk := rfl

theorem wf_cacheRelease (h : s.Wf) : (cacheRelease n s).Wf :=
  Store.wf_modify (Block.blockNo_setAcquired false) h

theorem get_cacheRelease_self :
    (cacheRelease n s).get n = (s.get n).map (Block.setAcquired false) :=
  Store.get_modify_self (Block.blockNo_setAcquired false)

theorem get_cacheRelease_of_ne (h : m ≠ n) : (cacheRelease n s).get m = s.get m :=
  Store.get_modify_of_ne (Block.blockNo_setAcquired false) h

theorem moveData_eq {b : Block} (h : s.get src = some b) :
    moveData dst src s = s.modify dst (Block.setData b.data) := by
  simp [moveData, h]

end Ops

/-! ## What leaves a block alone -/

/-- Block `m` is as it was on disk, and in the cache unless it has been
evicted. -/
def Untouched (m : ℕ) (s s' : Store) : Prop := s'.disk m = s.disk m ∧ Kept s s' m

section Frame

variable {s s' s'' : Store} {m n : ℕ} {f : Block → Block}

theorem Untouched.refl (m : ℕ) (s : Store) : Untouched m s s := ⟨rfl, Or.inl rfl⟩

theorem Untouched.trans (h : Untouched m s s') (h' : Untouched m s' s'') : Untouched m s s'' :=
  ⟨h'.1.trans h.1, h.2.trans h'.2⟩

theorem untouched_acquire (hwf : s.Wf) (h : cacheAcquire n s = some s') (hm : m ≠ n) :
    Untouched m s s' := by
  have ha := acquired_of_cacheAcquire hwf h
  exact ⟨by rw [ha.disk], ha.other m hm⟩

theorem untouched_modify (hf : ∀ b, (f b).blockNo = b.blockNo) (hm : m ≠ n) :
    Untouched m s (s.modify n f) :=
  ⟨rfl, Or.inl (Store.get_modify_of_ne hf hm)⟩

theorem untouched_deviceWrite (hm : m ≠ n) : Untouched m s (deviceWrite n s) := by
  refine ⟨?_, Or.inl get_deviceWrite⟩
  unfold deviceWrite
  cases s.get n with
  | none => rfl
  | some b => exact update_of_ne hm _ _

theorem untouched_release (hm : m ≠ n) : Untouched m s (cacheRelease n s) :=
  untouched_modify (Block.blockNo_setAcquired false) hm

theorem untouched_moveData {src : ℕ} (hm : m ≠ n) : Untouched m s (moveData n src s) := by
  unfold moveData
  cases s.get src with
  | none => exact Untouched.refl m s
  | some b => exact untouched_modify (Block.blockNo_setData _) hm

theorem wf_moveData {src : ℕ} (h : s.Wf) : (moveData n src s).Wf := by
  unfold moveData
  cases s.get src with
  | none => exact h
  | some b => exact Store.wf_modify (Block.blockNo_setData _) h

end Frame

/-! ## The two loop bodies of the log -/

/-- Two acquisitions in a row, of different blocks: the first block is still
held, and the disk is as it was. -/
theorem Acquired.pair {n m : ℕ} {s s₁ s₂ : Store} (hne : n ≠ m) (h₁ : Acquired n s s₁)
    (h₂ : Acquired m s₁ s₂) : s₂.disk = s.disk ∧ s₂.get n = s₁.get n := by
  refine ⟨h₂.disk.trans h₁.disk, ?_⟩
  obtain ⟨b, hb, ha, -, -⟩ := h₁.block
  rw [(h₂.other n hne).get_of_held hb (Or.inr ha), hb]

section Bodies

variable {sb : SuperBlock} {h : LogHeader} {i : ℕ} {s s' : Store}

/-- Copying an entry to the log concerns its two blocks. -/
theorem copyToLog_untouched (hwf : s.Wf)
    (hstep : copyToLog sb h i s = some s') :
    s'.Wf ∧ ∀ m, m ≠ sb.logBlock i → m ≠ h.blockNo i → Untouched m s s' := by
  simp only [copyToLog, Option.bind_eq_bind, Option.bind_eq_some_iff, Option.pure_def,
    Option.some.injEq] at hstep
  obtain ⟨s₁, h₁, s₂, h₂, rfl⟩ := hstep
  have hwf₁ := (acquired_of_cacheAcquire hwf h₁).wf
  have hwf₂ := (acquired_of_cacheAcquire hwf₁ h₂).wf
  refine ⟨wf_cacheRelease (wf_cacheRelease (wf_deviceWrite (wf_moveData hwf₂))),
    fun m hL hN => ?_⟩
  exact (untouched_acquire hwf h₁ hL).trans <| (untouched_acquire hwf₁ h₂ hN).trans <|
    (untouched_moveData hL).trans <| (untouched_deviceWrite hL).trans <|
    (untouched_release hL).trans (untouched_release hN)

/-- Installing an entry concerns its two blocks. -/
theorem installHome_untouched (hwf : s.Wf)
    (hstep : installHome sb h i s = some s') :
    s'.Wf ∧ ∀ m, m ≠ sb.logBlock i → m ≠ h.blockNo i → Untouched m s s' := by
  simp only [installHome, Option.bind_eq_bind, Option.bind_eq_some_iff, Option.pure_def,
    Option.some.injEq] at hstep
  obtain ⟨s₁, h₁, s₂, h₂, rfl⟩ := hstep
  have hwf₁ := (acquired_of_cacheAcquire hwf h₁).wf
  have hwf₂ := (acquired_of_cacheAcquire hwf₁ h₂).wf
  refine ⟨wf_cacheRelease (wf_cacheRelease (Store.wf_modify (Block.blockNo_setPinned false)
    (wf_deviceWrite (wf_moveData hwf₂)))), fun m hL hN => ?_⟩
  exact (untouched_acquire hwf h₁ hL).trans <| (untouched_acquire hwf₁ h₂ hN).trans <|
    (untouched_moveData hN).trans <| (untouched_deviceWrite hN).trans <|
    (untouched_modify (Block.blockNo_setPinned false) hN).trans <|
    (untouched_release hL).trans (untouched_release hN)

/-- **Copying an entry to the log.** The home block is pinned, so it is
cached; its content is written to the log block and nothing else changes
on disk. -/
theorem copyToLog_spec {b : Block} (hwf : s.Wf) (hne : sb.logBlock i ≠ h.blockNo i)
    (hb : s.get (h.blockNo i) = some b) (hpin : b.pinned = true)
    (hstep : copyToLog sb h i s = some s') :
    s'.disk = update s.disk (sb.logBlock i) b.data ∧ s'.Wf ∧
      s'.get (h.blockNo i) = some b ∧
      (∃ l, s'.get (sb.logBlock i) = some l ∧ l.acquired = false ∧ l.data = b.data ∧
        (l.pinned = true → ∃ l', s.get (sb.logBlock i) = some l' ∧ l'.pinned = true)) ∧
      (∀ l, s.get (sb.logBlock i) = some l → l.acquired = false) ∧ b.acquired = false ∧
      ∀ k, k ≠ sb.logBlock i → k ≠ h.blockNo i → Kept s s' k := by
  obtain ⟨hwf', huntouched⟩ := copyToLog_untouched hwf hstep
  simp only [copyToLog, Option.bind_eq_bind, Option.bind_eq_some_iff, Option.pure_def,
    Option.some.injEq] at hstep
  obtain ⟨s₁, h₁, s₂, h₂, rfl⟩ := hstep
  generalize sb.logBlock i = L at *
  generalize h.blockNo i = N at *
  have a₁ := acquired_of_cacheAcquire hwf h₁
  have a₂ := acquired_of_cacheAcquire a₁.wf h₂
  obtain ⟨hdisk, hL⟩ := a₁.pair hne a₂
  -- the home block is pinned: acquiring the log block cannot evict it
  have hb₁ : s₁.get N = some b := (a₁.other N (Ne.symm hne)).get_of_held hb (Or.inl hpin)
  have hb₂ : s₂.get N = some (b.setAcquired true) := a₂.hit b hb₁
  have hfree : b.acquired = false := a₂.free b hb₁
  obtain ⟨l, hl, -, -, hlp⟩ := a₁.block
  have hl₂ : s₂.get L = some l := hL.trans hl
  have hl₃ : (s₂.modify L (Block.setData b.data)).get L =
      some (l.setData b.data) := by
    rw [Store.get_modify_self (Block.blockNo_setData _), hl₂]
    rfl
  have hmove : moveData L N s₂ = s₂.modify L (Block.setData b.data) := by
    rw [moveData_eq hb₂]
    rfl
  rw [hmove] at hwf' huntouched ⊢
  refine ⟨?_, hwf', ?_, ⟨(l.setData b.data).setAcquired false, ?_, rfl, rfl, hlp⟩,
    a₁.free, hfree, fun k hkL hkN => (huntouched k hkL hkN).2⟩
  · rw [disk_cacheRelease, disk_cacheRelease, disk_deviceWrite hl₃, Store.modify_disk, hdisk]
    rfl
  · rw [get_cacheRelease_self, get_cacheRelease_of_ne (Ne.symm hne), get_deviceWrite,
      Store.get_modify_of_ne (Block.blockNo_setData _) (Ne.symm hne), hb₂, Option.map_some,
      Block.setAcquired_setAcquired hfree]
  · rw [get_cacheRelease_of_ne hne, get_cacheRelease_self, get_deviceWrite, hl₃, Option.map_some]

/-- **Installing an entry.** The content of the log block is written to
the home block, which stays cached with that content and is unpinned. -/
theorem installHome_spec (hwf : s.Wf) (hne : sb.logBlock i ≠ h.blockNo i)
    (hstep : installHome sb h i s = some s') :
    s'.disk = update s.disk (h.blockNo i) (s.value (sb.logBlock i)) ∧ s'.Wf ∧
      (∃ b, s'.get (h.blockNo i) = some b ∧ b.acquired = false ∧ b.pinned = false ∧
        b.data = s.value (sb.logBlock i)) ∧
      (∃ l, s'.get (sb.logBlock i) = some l ∧ l.acquired = false ∧
        l.data = s.value (sb.logBlock i) ∧
        (l.pinned = true → ∃ l', s.get (sb.logBlock i) = some l' ∧ l'.pinned = true)) ∧
      (∀ l, s.get (sb.logBlock i) = some l → l.acquired = false) ∧
      (∀ b, s.get (h.blockNo i) = some b → b.acquired = false) ∧
      ∀ k, k ≠ sb.logBlock i → k ≠ h.blockNo i → Kept s s' k := by
  obtain ⟨hwf', huntouched⟩ := installHome_untouched hwf hstep
  simp only [installHome, Option.bind_eq_bind, Option.bind_eq_some_iff, Option.pure_def,
    Option.some.injEq] at hstep
  obtain ⟨s₁, h₁, s₂, h₂, rfl⟩ := hstep
  generalize sb.logBlock i = L at *
  generalize h.blockNo i = N at *
  have a₁ := acquired_of_cacheAcquire hwf h₁
  have a₂ := acquired_of_cacheAcquire a₁.wf h₂
  obtain ⟨hdisk, hL⟩ := a₁.pair hne a₂
  obtain ⟨l, hl, -, hld, hlp⟩ := a₁.block
  obtain ⟨b, hb₂, -, -, -⟩ := a₂.block
  have hl₂ : s₂.get L = some l := hL.trans hl
  have hb₃ : (s₂.modify N (Block.setData l.data)).get N =
      some (b.setData l.data) := by
    rw [Store.get_modify_self (Block.blockNo_setData _), hb₂]
    rfl
  rw [moveData_eq hl₂] at hwf' huntouched ⊢
  refine ⟨?_, hwf', ⟨((b.setData l.data).setPinned false).setAcquired false, ?_, rfl, rfl, hld⟩,
    ⟨l.setAcquired false, ?_, rfl, hld, hlp⟩, a₁.free, ?_,
    fun k hkL hkN => (huntouched k hkL hkN).2⟩
  · rw [disk_cacheRelease, disk_cacheRelease, Store.modify_disk, disk_deviceWrite hb₃,
      Store.modify_disk, hdisk, ← hld]
    rfl
  · rw [get_cacheRelease_self, get_cacheRelease_of_ne (Ne.symm hne),
      Store.get_modify_self (Block.blockNo_setPinned _), get_deviceWrite, hb₃]
    rfl
  · rw [get_cacheRelease_of_ne hne, get_cacheRelease_self,
      Store.get_modify_of_ne (Block.blockNo_setPinned _) hne, get_deviceWrite,
      Store.get_modify_of_ne (Block.blockNo_setData _) hne, hl₂]
    rfl
  · -- a home block held by another thread would still be cached, and the second acquisition blocked
    intro b' hb'
    by_contra hacq
    rw [Bool.not_eq_false] at hacq
    have hb₁ := (a₁.other N (Ne.symm hne)).get_of_held hb' (Or.inr hacq)
    have := a₂.free b' hb₁
    rw [hacq] at this
    cases this

/-- Where nobody holds the two blocks, the entry can be installed. -/
theorem installHome_isSome (hwf : s.Wf) (hne : sb.logBlock i ≠ h.blockNo i)
    (hfree : ∀ n b, s.get n = some b → b.acquired = false) :
    (installHome sb h i s).isSome := by
  obtain ⟨s₁, h₁⟩ := Option.isSome_iff_exists.1 (cacheAcquire_isSome (hfree (sb.logBlock i)))
  have a₁ := acquired_of_cacheAcquire hwf h₁
  have hfree₁ : ∀ b, s₁.get (h.blockNo i) = some b → b.acquired = false := fun b hb =>
    hfree _ b ((a₁.other _ (Ne.symm hne)).get_of_some hb)
  obtain ⟨s₂, h₂⟩ := Option.isSome_iff_exists.1 (cacheAcquire_isSome hfree₁)
  simp [installHome, h₁, h₂]

end Bodies

end OsKernel.Cache
