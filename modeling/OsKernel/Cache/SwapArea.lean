import OsKernel.Cache.Helpers.Control
import OsKernel.Common.Update
import OsKernel.Fs.Model.Entry

/-!
# The swap area

`find_and_set_8_blocks` and `release_8_blocks` of `fs/cache.c` with
`write_page_to_disk` and `read_page_from_disk` of `kernel/mem.c`, by any
number of threads, over the block cache with its log. A page goes to the
eight blocks of a slot one after the other, each of them acquired, copied,
written through by `cache_sync(NULL, ...)` and released; in between other
threads run. The file system does what it likes with blocks below
`SWAP_START`, and the cache drops blocks of the swap area as any others.

The state keeps the pages that are on disk: a page comes in when
`write_page_to_disk` returns its number, and goes when
`read_page_from_disk` is called with it.
-/

namespace OsKernel.Cache

open Function

open Fs (swapStart)

/-- `SWAP_SIZE`. -/
abbrev swapSize : ℕ := 25

/-- `PAGE_SIZE`. -/
abbrev pageBytes : ℕ := 4096

/-- The bytes of a page. -/
abbrev PageData : Type := Bytes pageBytes

/-- The part of a page that goes to block `i` of its slot. -/
def chunk (p : PageData) (i : ℕ) : BlockData := Bytes.ofFn fun k => p.get (i * blockSize + k)

/-- A block is copied to its place in a page. -/
def setChunk (p : PageData) (i : ℕ) (d : BlockData) : PageData :=
  p.splice (i * blockSize) blockSize d.get

/-- The number that `find_and_set_8_blocks` returns for slot `k`. -/
def slotNo (k : ℕ) : ℕ := swapStart + k * 8

/-- How far a thread is with a block. -/
inductive CopyStage where
  | acquire
  | copy
  | sync
  | release
deriving DecidableEq

/-- Where a thread is. -/
inductive SwapStage where
  | idle
  /-- `write_page_to_disk` of page `p` to slot `k`, at block `i`. -/
  | save (k : ℕ) (p : PageData) (i : ℕ) (c : CopyStage)
  /-- `read_page_from_disk` of slot `k`, at block `i`; `q` is what has been
  read. Not part of the code: `p` is the page that was written. -/
  | load (k : ℕ) (p q : PageData) (i : ℕ) (c : CopyStage)
  /-- All blocks are read, and `release_8_blocks` is next. -/
  | loaded (k : ℕ) (p q : PageData)
deriving DecidableEq

namespace SwapStage

/-- The slot that a thread uses. -/
def slot : SwapStage → Option ℕ
  | .idle => none
  | .save k _ _ _ | .load k _ _ _ _ | .loaded k _ _ => some k

/-- The slot that a thread uses, with the page that is written or was. -/
def page : SwapStage → Option (ℕ × PageData)
  | .idle => none
  | .save k p _ _ | .load k p _ _ _ | .loaded k p _ => some (k, p)

/-- The block of the swap area that a thread has acquired. -/
def holds : SwapStage → Option ℕ
  | .save k _ i c | .load k _ _ i c => if c = .acquire then none else some (slotNo k + i)
  | .idle | .loaded _ _ _ => none

end SwapStage

/-- The block cache, `swap_bitmap`, the threads, and the pages on disk. -/
structure SwapSys (T : Type*) where
  sys : Sys
  bitmap : Bytes 8
  stage : T → SwapStage
  saved : ℕ → Option PageData

/-- What can happen next. -/
inductive SwapAct (T : Type*) where
  /-- A step of the file system. -/
  | fs (a : Act)
  /-- `write_page_to_disk` is called: `find_and_set_8_blocks`. -/
  | save (t : T) (p : PageData)
  /-- `read_page_from_disk` of the block number `bno` is called, to a page
  with the bytes `q`. -/
  | load (t : T) (bno : ℕ) (q : PageData)
  /-- The thread goes on. -/
  | go (t : T)

namespace SwapSys

variable {T : Type*} [DecidableEq T]

/-- A thread goes on. -/
def move (s : SwapSys T) (t : T) (st : SwapStage) : SwapSys T :=
  { s with stage := update s.stage t st }

/-- A thread goes on after a step of the block cache. -/
def moveSys (s : SwapSys T) (t : T) (st : SwapStage) (sys : Sys) : SwapSys T :=
  { s.move t st with sys := sys }

/-- The pages on disk. -/
def setSaved (s : SwapSys T) (k : ℕ) (p : Option PageData) : SwapSys T :=
  { s with saved := update s.saved k p }

/-- `swap_bitmap` is written. -/
def setBitmap (s : SwapSys T) (b : Bytes 8) : SwapSys T := { s with bitmap := b }

/-- The loop of `find_and_set_8_blocks`. -/
def findSlot (s : SwapSys T) : Option ℕ :=
  (List.range swapSize).find? fun i => !s.bitmap.bitmapGet i

/-- A thread goes on. -/
def go (s : SwapSys T) (t : T) : Option (SwapSys T) :=
  match s.stage t with
  | .idle => none
  | .save k p i .acquire => (s.sys.acquire (slotNo k + i)).map (s.moveSys t (.save k p i .copy))
  | .save k p i .copy =>
    (s.sys.modify (slotNo k + i) (chunk p i)).map (s.moveSys t (.save k p i .sync))
  | .save k p i .sync => (s.sys.syncNull (slotNo k + i)).map (s.moveSys t (.save k p i .release))
  | .save k p i .release => (s.sys.release (slotNo k + i)).map fun sys =>
    if i + 1 < 8 then s.moveSys t (.save k p (i + 1) .acquire) sys
    -- `write_page_to_disk` returns the number of the slot
    else (s.moveSys t .idle sys).setSaved k (some p)
  | .load k p q i .acquire =>
    (s.sys.acquire (slotNo k + i)).map (s.moveSys t (.load k p q i .copy))
  | .load k p q i .copy => (s.sys.store.get (slotNo k + i)).map fun b =>
    s.move t (.load k p (setChunk q i b.data) i .release)
  | .load _ _ _ _ .sync => none
  | .load k p q i .release => (s.sys.release (slotNo k + i)).map
    (s.moveSys t (if i + 1 < 8 then .load k p q (i + 1) .acquire else .loaded k p q))
  | .loaded k _ _ => some ((s.move t .idle).setBitmap
    (s.bitmap.bitmapClear ((slotNo k - swapStart) / 8)))

/-- The blocks that a step of the file system names lie below the swap
area, and the power stays on. -/
def Below : Act → Prop
  | .acquire n | .modify n _ | .release n | .sync _ n | .syncNull n => n < swapStart
  | .crash | .recover => False
  | _ => True

instance (a : Act) : Decidable (Below a) :=
  match a with
  | .acquire n | .modify n _ | .release n | .sync _ n | .syncNull n => Nat.decLt n swapStart
  | .crash | .recover => instDecidableFalse
  | .beginOp _ | .waitBegin _ | .endOp _ | .waitEnd _ | .returnEnd _ | .commit _
  | .clearCommitting _ | .postEnd _ | .postBegin _ => instDecidableTrue

/-- The steps. A page is read back by one thread, and once. -/
def step (sb : SuperBlock) (s : SwapSys T) : SwapAct T → Option (SwapSys T)
  | .fs a => if Below a then (Cache.step sb s.sys a).map fun sys => { s with sys := sys } else none
  | .save t p =>
    if s.stage t = .idle then s.findSlot.map fun k =>
      (s.move t (.save k p 0 .acquire)).setBitmap (s.bitmap.bitmapSet k)
    else none
  | .load t bno q =>
    let k := (bno - swapStart) / 8
    if s.stage t = .idle ∧ bno = slotNo k then
      (s.saved k).map fun p => (s.move t (.load k p q 0 .acquire)).setSaved k none
    else none
  | .go t => s.go t

/-- The block cache has come up, and no page is in the swap area. -/
def init (sys : Sys) : SwapSys T where
  sys := sys
  bitmap := Bytes.zero
  stage := fun _ => .idle
  saved := fun _ => none

end SwapSys

/-! ## Pages and their parts -/

theorem chunk_get {p : PageData} {i k : ℕ} (hk : k < blockSize) :
    (chunk p i).get k = p.get (i * blockSize + k) :=
  Bytes.get_ofFn hk

/-- A page is its eight parts. -/
theorem page_ext {p q : PageData} (h : ∀ i < 8, chunk p i = chunk q i) : p = q := by
  refine Bytes.ext_get fun j hj => ?_
  have hk : j % blockSize < blockSize := Nat.mod_lt _ (by decide)
  have hi : j / blockSize < 8 := by simp only [blockSize, pageBytes] at *; omega
  have hj' : j / blockSize * blockSize + j % blockSize = j := Nat.div_add_mod' j blockSize
  have := congrArg (fun b => Bytes.get b (j % blockSize)) (h (j / blockSize) hi)
  simp only [chunk_get hk, hj'] at this
  exact this

/-- What is copied to part `i` is read there, and nowhere else. -/
theorem chunk_setChunk {p : PageData} {i : ℕ} {d : BlockData} (hi : i < 8) (j : ℕ) :
    chunk (setChunk p i d) j = if j = i then d else chunk p j := by
  refine Bytes.ext_get fun k hk => ?_
  rw [chunk_get hk]
  simp only [blockSize] at hk
  split_ifs with hji
  · rw [setChunk, Bytes.get_splice_of_mem (by simp only [pageBytes, blockSize]; omega)
      (by simp only [blockSize]; omega)]
    congr 1
    simp only [blockSize]
    omega
  · rw [setChunk, Bytes.get_splice_of_not_mem (by simp only [blockSize]; omega), chunk_get hk]

/-! ## The file system stays below the swap area -/

/-- The logging area lies below the swap area. -/
structure SwapLayout (sb : SuperBlock) : Prop where
  log : 1 ≤ sb.numLogBlocks
  log_le : sb.logStart + sb.numLogBlocks ≤ swapStart

/-- **The log knows nothing of the swap area.** -/
structure Base (sb : SuperBlock) (s : Sys) : Prop where
  boot : s.boot = none
  ctl : ∃ S, Ctl sb s S
  wf : s.store.Wf
  header : ∀ n ∈ s.header.entries, n < swapStart

namespace Base

variable {sb : SuperBlock} {s t : Sys} {n m i : ℕ}

theorem logBlock_lt (hlay : SwapLayout sb) (h : Base sb s) (hi : i < s.header.numBlocks) :
    sb.logBlock i < swapStart := by
  obtain ⟨S, hctl⟩ := h.ctl
  have hnum := hctl.num_le
  rw [hctl.size] at hnum
  have := logSize_le_log hlay.log
  have := hlay.log_le
  unfold SuperBlock.logBlock
  omega

theorem blockNo_lt (h : Base sb s) (hi : i < s.header.numBlocks) :
    s.header.blockNo i < swapStart :=
  h.header _ (List.mem_map.2 ⟨i, List.mem_range.2 hi, rfl⟩)

/-- A step that leaves the log, the header and the phases alone. -/
theorem setStore {st : Store} {u : ℕ → Bool} (h : Base sb s) (hwf : st.Wf) :
    Base sb { s with store := st, unsynced := u } := by
  obtain ⟨S, hctl⟩ := h.ctl
  exact ⟨h.boot, ⟨S, hctl.congr (fun _ => rfl) rfl rfl rfl rfl rfl⟩, hwf, h.header⟩

/-- **A step of the file system leaves the swap area alone.** -/
theorem fsStep (hlay : SwapLayout sb) (h : Base sb s) {a : Act} (ha : SwapSys.Below a)
    (hs : step sb s a = some t) :
    Base sb t ∧ ∀ m, swapStart ≤ m → Untouched m s.store t.store := by
  have hup : upStep sb s a = some t := by
    rcases step_cases hs with ⟨rfl, -⟩ | ⟨rfl, -⟩ | ⟨-, hup⟩
    · exact ha.elim
    · exact ha.elim
    · exact hup
  obtain ⟨S, hctl⟩ := h.ctl
  have hctl' := hctl.upStep hup
  have hheader : ∀ m, swapStart ≤ m → m ≠ sb.logStart := fun m hm => by
    have := hlay.log
    have := hlay.log_le
    omega
  by_cases hquiet : a.quiet = true
  · obtain ⟨hstore, hhead, hboot⟩ := upStep_quiet hup hquiet
    exact ⟨⟨hboot.trans h.boot, hctl', hstore ▸ h.wf, hhead ▸ h.header⟩, fun m _ =>
      hstore ▸ Untouched.refl m _⟩
  cases a with
  | acquire n =>
    obtain ⟨-, st, hst, rfl⟩ := acquire_cases hup
    exact ⟨⟨h.boot, hctl', (acquired_of_cacheAcquire h.wf hst).wf, h.header⟩,
      fun m hm => untouched_acquire h.wf hst (Nat.ne_of_gt (Nat.lt_of_lt_of_le ha hm))⟩
  | modify n d =>
    obtain ⟨b, -, -, rfl⟩ := modify_cases hup
    exact ⟨⟨h.boot, hctl', Store.wf_modify (Block.blockNo_setData _) h.wf, h.header⟩, fun m hm =>
      untouched_modify (Block.blockNo_setData _) (Nat.ne_of_gt (Nat.lt_of_lt_of_le ha hm))⟩
  | release n =>
    obtain ⟨b, -, -, rfl⟩ := release_cases hup
    exact ⟨⟨h.boot, hctl', wf_cacheRelease h.wf, h.header⟩, fun m hm =>
      untouched_release (Nat.ne_of_gt (Nat.lt_of_lt_of_le ha hm))⟩
  | syncNull n =>
    obtain ⟨b, -, -, rfl⟩ := syncNull_cases hup
    exact ⟨⟨h.boot, hctl', wf_deviceWrite h.wf, h.header⟩, fun m hm =>
      untouched_deviceWrite (Nat.ne_of_gt (Nat.lt_of_lt_of_le ha hm))⟩
  | sync c n =>
    obtain ⟨rm, b, -, -, -, -, ⟨-, -, rfl⟩ | ⟨-, rfl⟩⟩ := sync_cases hup
    · refine ⟨⟨h.boot, hctl', Store.wf_modify (Block.blockNo_setPinned true) h.wf,
        fun k hk => ?_⟩, fun m hm => untouched_modify (Block.blockNo_setPinned true)
          (Nat.ne_of_gt (Nat.lt_of_lt_of_le ha hm))⟩
      have hk' : k ∈ (s.header.push n).entries := hk
      rw [LogHeader.entries_push, List.mem_append] at hk'
      rcases hk' with hk' | hk'
      · exact h.header k hk'
      · rw [List.mem_singleton.1 hk']
        exact ha
    · exact ⟨⟨h.boot, hctl', h.wf, h.header⟩, fun m _ => Untouched.refl m _⟩
  | commit c =>
    obtain ⟨i, st, -, hi, hst, rfl⟩ | ⟨i, -, -, rfl⟩ | ⟨i, st, -, hi, hst, rfl⟩ | ⟨i, -, -, rfl⟩ :=
      commit_cases hup
    · obtain ⟨hwf, hother⟩ := copyToLog_untouched h.wf hst
      have hL := h.logBlock_lt hlay hi
      have hN := h.blockNo_lt hi
      exact ⟨⟨h.boot, hctl', hwf, h.header⟩, fun m hm => hother m (by omega) (by omega)⟩
    · exact ⟨⟨h.boot, hctl', h.wf, h.header⟩, fun m hm =>
        ⟨update_of_ne (hheader m hm) _ _, Or.inl rfl⟩⟩
    · obtain ⟨hwf, hother⟩ := installHome_untouched h.wf hst
      have hL := h.logBlock_lt hlay hi
      have hN := h.blockNo_lt hi
      exact ⟨⟨h.boot, hctl', hwf, h.header⟩, fun m hm => hother m (by omega) (by omega)⟩
    · refine ⟨⟨h.boot, hctl', h.wf, fun n hn => ?_⟩, fun m hm =>
        ⟨update_of_ne (hheader m hm) _ _, Or.inl rfl⟩⟩
      have hn' : n ∈ LogHeader.entries { s.header with numBlocks := 0 } := hn
      simp [LogHeader.entries] at hn'
  | crash | recover => exact ha.elim
  | _ => exact absurd rfl hquiet

end Base

/-! ## The invariant -/

/-- Nobody has the block, and the cache has what the disk has. -/
def Clean (st : Store) (n : ℕ) : Prop :=
  ∀ b, st.get n = some b → b.acquired = false ∧ b.pinned = false ∧ b.data = st.disk n

/-- A thread has the block, with the data `d`. -/
def Held (st : Store) (n : ℕ) (d : BlockData) : Prop :=
  ∃ b, st.get n = some b ∧ b.acquired = true ∧ b.pinned = false ∧ b.data = d

/-- The first `i` blocks of slot `k` have the parts of page `p`. -/
def Written (st : Store) (k : ℕ) (p : PageData) (i : ℕ) : Prop :=
  ∀ j < i, st.disk (slotNo k + j) = chunk p j

/-- **What a thread relies on.** -/
def StageOk (st : Store) : SwapStage → Prop
  | .idle => True
  | .save k p i c => i < 8 ∧ Written st k p i ∧
    match c with
    | .acquire => True
    | .copy => ∃ d, Held st (slotNo k + i) d
    | .sync => Held st (slotNo k + i) (chunk p i)
    | .release => Held st (slotNo k + i) (chunk p i) ∧ st.disk (slotNo k + i) = chunk p i
  | .load k p q i c => i < 8 ∧ Written st k p 8 ∧ (∀ j < i, chunk q j = chunk p j) ∧
    match c with
    | .acquire => True
    | .copy => Held st (slotNo k + i) (chunk p i)
    | .sync => False
    | .release => Held st (slotNo k + i) (chunk p i) ∧ chunk q i = chunk p i
  | .loaded _ p q => q = p

section Local

variable {st st' : Store} {n k i : ℕ} {d : BlockData} {p : PageData} {sg : SwapStage}

theorem swapStart_le_slotNo (k j : ℕ) : swapStart ≤ slotNo k + j := by
  unfold slotNo
  omega

/-- The blocks of different slots are different. -/
theorem slotNo_inj {k k' j j' : ℕ} (hj : j < 8) (hj' : j' < 8)
    (h : slotNo k + j = slotNo k' + j') : k = k' ∧ j = j' := by
  unfold slotNo at h
  omega

theorem Clean.untouched (h : Clean st n) (hu : Untouched n st st') : Clean st' n := by
  intro b hb
  rw [hu.1]
  exact h b (hu.2.get_of_some hb)

theorem Held.untouched (h : Held st n d) (hu : Untouched n st st') : Held st' n d := by
  obtain ⟨b, hb, hacq, hrest⟩ := h
  exact ⟨b, hu.2.get_of_held hb (Or.inr hacq), hacq, hrest⟩

theorem Written.untouched (h : Written st k p i) (hu : ∀ j < i, Untouched (slotNo k + j) st st') :
    Written st' k p i := fun j hj => by
  rw [(hu j hj).1]
  exact h j hj

/-- A thread does not mind what happens elsewhere. -/
theorem StageOk.untouched (h : StageOk st sg)
    (hu : ∀ k, sg.slot = some k → ∀ j < 8, Untouched (slotNo k + j) st st') : StageOk st' sg := by
  cases sg with
  | idle => trivial
  | save k p i c =>
    obtain ⟨hi, hw, hc⟩ := h
    have hslot := hu k rfl
    refine ⟨hi, hw.untouched fun j hj => hslot j (by omega), ?_⟩
    cases c with
    | acquire => trivial
    | copy =>
      obtain ⟨d, hd⟩ := hc
      exact ⟨d, hd.untouched (hslot i hi)⟩
    | sync => exact Held.untouched hc (hslot i hi)
    | release => exact ⟨hc.1.untouched (hslot i hi), by rw [(hslot i hi).1]; exact hc.2⟩
  | load k p q i c =>
    obtain ⟨hi, hw, hq, hc⟩ := h
    have hslot := hu k rfl
    refine ⟨hi, hw.untouched hslot, hq, ?_⟩
    cases c with
    | acquire => trivial
    | copy => exact Held.untouched hc (hslot i hi)
    | sync => exact hc
    | release => exact ⟨hc.1.untouched (hslot i hi), hc.2⟩
  | loaded k p q => exact h

/-- The block that a thread has is one of its slot. -/
theorem SwapStage.holds_eq (h : sg.holds = some n) (hok : StageOk st sg) :
    ∃ k j, sg.slot = some k ∧ j < 8 ∧ n = slotNo k + j := by
  cases sg with
  | idle => cases h
  | save k p i c | load k p q i c =>
    simp only [holds] at h
    split_ifs at h
    exact ⟨k, i, rfl, hok.1, (Option.some.inj h).symm⟩
  | loaded k p q => cases h

end Local

namespace SwapSys

variable {T : Type*} [DecidableEq T] {sb : SuperBlock} {s s' : SwapSys T} {t t' : T}
variable {n k i : ℕ} {p q : PageData} {sg : SwapStage} {sys : Sys}

/-- **The invariant of the swap area.** -/
structure Inv (sb : SuperBlock) (s : SwapSys T) : Prop where
  base : Base sb s.sys
  /-- A slot in use is marked, and it is used once. -/
  slot : ∀ t k, (s.stage t).slot = some k →
    k < swapSize ∧ s.bitmap.bitmapGet k = true ∧ s.saved k = none
  slot_inj : ∀ t t' k, (s.stage t).slot = some k → (s.stage t').slot = some k → t = t'
  saved : ∀ k p, s.saved k = some p →
    k < swapSize ∧ s.bitmap.bitmapGet k = true ∧ Written s.sys.store k p 8
  ok : ∀ t, StageOk s.sys.store (s.stage t)
  clean : ∀ n, swapStart ≤ n → (∀ t, (s.stage t).holds ≠ some n) → Clean s.sys.store n

/-- Nobody uses the slot of a thread that is done. -/
theorem Inv.slot_free (h : Inv sb s) (hk : (s.stage t).slot = some k) (t' : T) :
    (update s.stage t .idle t').slot ≠ some k := by
  intro ht'
  by_cases heq : t' = t
  · rw [heq, update_self] at ht'
    cases ht'
  · rw [update_of_ne heq] at ht'
    exact heq (h.slot_inj t' t k ht' hk)

/-- **A thread goes on with a block of its slot.** -/
theorem Inv.advance (h : Inv sb s) (hk : (s.stage t).slot = some k) (hi : i < 8)
    (hslot : sg.slot = none ∨ sg.slot = some k) (hbase : Base sb sys)
    (hother : ∀ m, swapStart ≤ m → m ≠ slotNo k + i → Untouched m s.sys.store sys.store)
    (hold : (s.stage t).holds = none ∨ (s.stage t).holds = some (slotNo k + i))
    (hnew : sg.holds = some (slotNo k + i) ∨ Clean sys.store (slotNo k + i))
    (hok : StageOk sys.store sg) : Inv sb (s.moveSys t sg sys) := by
  have hself : (s.moveSys t sg sys).stage t = sg := update_self _ _ _
  have hne : ∀ t', t' ≠ t → (s.moveSys t sg sys).stage t' = s.stage t' := fun t' ht' =>
    update_of_ne ht' _ _
  have hmine : ∀ k', sg.slot = some k' → k' = k := fun k' hk' => by
    rcases hslot with hs | hs <;> rw [hs] at hk'
    · cases hk'
    · exact (Option.some.inj hk').symm
  -- the blocks of other slots are not the one of this step
  have hfar : ∀ k', k' ≠ k → ∀ j < 8, Untouched (slotNo k' + j) s.sys.store sys.store :=
    fun k' hk' j hj => hother _ (swapStart_le_slotNo k' j) fun he => hk' (slotNo_inj hj hi he).1
  refine ⟨hbase, fun t' k' hk' => ?_, fun t₁ t₂ k' h₁ h₂ => ?_, fun k' p hp => ?_, fun t' => ?_,
    fun n hn hfree => ?_⟩
  · by_cases ht' : t' = t
    · rw [ht', hself] at hk'
      rw [hmine k' hk']
      exact h.slot t k hk
    · rw [hne t' ht'] at hk'
      exact h.slot t' k' hk'
  · have hold' : ∀ t', ((s.moveSys t sg sys).stage t').slot = some k' →
        (s.stage t').slot = some k' := fun t' ht' => by
      by_cases heq : t' = t
      · rw [heq, hself] at ht'
        rw [heq, hk, hmine k' ht']
      · rwa [hne t' heq] at ht'
    exact h.slot_inj t₁ t₂ k' (hold' t₁ h₁) (hold' t₂ h₂)
  · have hp : s.saved k' = some p := hp
    obtain ⟨hlt, hbit, hw⟩ := h.saved k' p hp
    refine ⟨hlt, hbit, hw.untouched fun j hj => hfar k' ?_ j hj⟩
    rintro rfl
    rw [(h.slot t k' hk).2.2] at hp
    cases hp
  · by_cases ht' : t' = t
    · rw [ht', hself]
      exact hok
    · rw [hne t' ht']
      refine (h.ok t').untouched fun k' hk' => hfar k' ?_
      rintro rfl
      exact ht' (h.slot_inj t' t k' hk' hk)
  · by_cases hnk : n = slotNo k + i
    · rcases hnew with hnew | hnew
      · exact absurd (by rw [hself, hnew, hnk]) (hfree t)
      · rw [hnk]
        exact hnew
    · refine (h.clean n hn fun t' hh => ?_).untouched (hother n hn hnk)
      by_cases ht' : t' = t
      · rcases hold with hold | hold <;> rw [ht', hold] at hh
        · cases hh
        · exact hnk (Option.some.inj hh).symm
      · exact hfree t' (by rw [hne t' ht']; exact hh)

omit [DecidableEq T] in
/-- Nobody has a block of a slot whose user has none. -/
theorem Inv.clean_of_slot (h : Inv sb s) (hk : (s.stage t).slot = some k)
    (hnone : (s.stage t).holds = none) (hi : i < 8) : Clean s.sys.store (slotNo k + i) := by
  refine h.clean _ (swapStart_le_slotNo k i) fun t' hh => ?_
  obtain ⟨k', j, hk', hj, he⟩ := SwapStage.holds_eq hh (h.ok t')
  obtain ⟨rfl, -⟩ := slotNo_inj hi hj he
  rw [h.slot_inj t' t k hk' hk, hnone] at hh
  cases hh

/-- A step on another block leaves what is written. -/
theorem written_of_other {st st' : Store} (hw : Written st k p n) (hn : n ≤ 8) (hi : i < 8)
    (hother : ∀ m, swapStart ≤ m → m ≠ slotNo k + i → Untouched m st st')
    (hself : i < n → st'.disk (slotNo k + i) = st.disk (slotNo k + i)) :
    Written st' k p n := fun j hj => by
  by_cases hji : j = i
  · subst hji
    rw [hself hj]
    exact hw j hj
  · rw [(hother _ (swapStart_le_slotNo k j) fun he => hji (slotNo_inj (by omega) hi he).2).1]
    exact hw j hj

section

omit [DecidableEq T]

/-- `cache_acquire` of a block of the slot. -/
theorem Inv.acquire (h : Inv sb s) (hk : (s.stage t).slot = some k)
    (hnone : (s.stage t).holds = none) (hi : i < 8)
    (hs : s.sys.acquire (slotNo k + i) = some sys) :
    Base sb sys ∧ Held sys.store (slotNo k + i) (s.sys.store.disk (slotNo k + i)) ∧
      sys.store.disk = s.sys.store.disk ∧
      ∀ m, swapStart ≤ m → m ≠ slotNo k + i → Untouched m s.sys.store sys.store := by
  have hclean := h.clean_of_slot hk hnone hi
  obtain ⟨-, st, hst, rfl⟩ := acquire_cases hs
  have hacq := acquired_of_cacheAcquire h.base.wf hst
  obtain ⟨b, hb, ha, hdata, hpin⟩ := hacq.block
  refine ⟨h.base.setStore hacq.wf, ⟨b, hb, ha, ?_, ?_⟩, hacq.disk,
    fun m _ hm => untouched_acquire h.base.wf hst hm⟩
  · cases hp : b.pinned with
    | false => rfl
    | true =>
      obtain ⟨b', hb', hp'⟩ := hpin hp
      rw [(hclean b' hb').2.1] at hp'
      cases hp'
  · rw [hdata]
    cases hget : s.sys.store.get (slotNo k + i) with
    | none => exact Store.value_of_none hget
    | some b' =>
      rw [Store.value_of_get hget]
      exact (hclean b' hget).2.2

/-- `cache_release` of a block whose data is on disk. -/
theorem Inv.release (h : Inv sb s) (hs : s.sys.release n = some sys) {d : BlockData}
    (hheld : Held s.sys.store n d) (hdisk : s.sys.store.disk n = d) :
    Base sb sys ∧ Clean sys.store n ∧ sys.store.disk = s.sys.store.disk ∧
      ∀ m, swapStart ≤ m → m ≠ n → Untouched m s.sys.store sys.store := by
  obtain ⟨b, hb, -, rfl⟩ := release_cases hs
  obtain ⟨b', hb', -, hpin, hdata⟩ := hheld
  obtain rfl := Option.mem_unique hb hb'
  refine ⟨h.base.setStore (wf_cacheRelease h.base.wf), fun c hc => ?_, rfl,
    fun m _ hm => untouched_release hm⟩
  have hget : (cacheRelease n s.sys.store).get n = some (b.setAcquired false) := by
    rw [get_cacheRelease_self, hb]
    rfl
  obtain rfl := Option.mem_unique hget hc
  exact ⟨rfl, hpin, hdata.trans hdisk.symm⟩

/-- A page comes to the disk. -/
theorem Inv.setSaved (h : Inv sb s) (hk : k < swapSize) (hbit : s.bitmap.bitmapGet k = true)
    (hw : Written s.sys.store k p 8) (hfree : ∀ t, (s.stage t).slot ≠ some k) :
    Inv sb (s.setSaved k (some p)) := by
  refine ⟨h.base, fun t k' hk' => ?_, h.slot_inj, fun k' p' hp' => ?_, h.ok, h.clean⟩
  · obtain ⟨hlt, hbit', hnone⟩ := h.slot t k' hk'
    refine ⟨hlt, hbit', (update_of_ne (fun he => ?_) _ _).trans hnone⟩
    rw [he] at hk'
    exact hfree t hk'
  · rcases update_eq_cases hp' with ⟨rfl, hnew⟩ | ⟨-, hp'⟩
    · rw [← Option.some.inj hnew]
      exact ⟨hk, hbit, hw⟩
    · exact h.saved k' p' hp'

end

/-- **A step of `write_page_to_disk`.** -/
theorem Inv.save {c : CopyStage} (h : Inv sb s) (hst : s.stage t = .save k p i c)
    (hs : s.go t = some s') : Inv sb s' := by
  have hk : (s.stage t).slot = some k := by rw [hst]; rfl
  have hok := h.ok t
  rw [hst] at hok
  obtain ⟨hi, hw, hc⟩ := hok
  unfold go at hs
  rw [hst] at hs
  cases c with
  | acquire =>
    obtain ⟨sys, hsys, rfl⟩ := Option.map_eq_some_iff.1 hs
    have hnone : (s.stage t).holds = none := by rw [hst]; rfl
    obtain ⟨hbase, hheld, hdisk, hother⟩ := h.acquire hk hnone hi hsys
    exact h.advance hk hi (Or.inr rfl) hbase hother (Or.inl hnone) (Or.inl rfl)
      ⟨hi, written_of_other hw (by omega) hi hother (fun _ => by rw [hdisk]), _, hheld⟩
  | copy =>
    obtain ⟨sys, hsys, rfl⟩ := Option.map_eq_some_iff.1 hs
    obtain ⟨b, hb, hacq, rfl⟩ := modify_cases hsys
    obtain ⟨d, b', hb', -, hpin, -⟩ := hc
    obtain rfl := Option.mem_unique hb hb'
    have hother : ∀ m, swapStart ≤ m → m ≠ slotNo k + i → Untouched m s.sys.store
        (s.sys.store.modify (slotNo k + i) (Block.setData (chunk p i))) :=
      fun m _ hm => untouched_modify (Block.blockNo_setData _) hm
    refine h.advance hk hi (Or.inr rfl)
      (h.base.setStore (Store.wf_modify (Block.blockNo_setData _) h.base.wf)) hother
      (Or.inr (by rw [hst]; rfl)) (Or.inl rfl)
      ⟨hi, written_of_other hw (by omega) hi hother fun _ => rfl, b.setData (chunk p i), ?_, hacq,
        hpin, rfl⟩
    rw [Store.get_modify_self (Block.blockNo_setData _), hb]
    rfl
  | sync =>
    obtain ⟨sys, hsys, rfl⟩ := Option.map_eq_some_iff.1 hs
    obtain ⟨b, hb, hacq, rfl⟩ := syncNull_cases hsys
    obtain ⟨b', hb', -, hpin, hdata⟩ := hc
    obtain rfl := Option.mem_unique hb hb'
    have hother : ∀ m, swapStart ≤ m → m ≠ slotNo k + i → Untouched m s.sys.store
        (deviceWrite (slotNo k + i) s.sys.store) := fun m _ hm => untouched_deviceWrite hm
    refine h.advance hk hi (Or.inr rfl) (h.base.setStore (wf_deviceWrite h.base.wf)) hother
      (Or.inr (by rw [hst]; rfl)) (Or.inl rfl)
      ⟨hi, written_of_other hw (by omega) hi hother fun hlt => absurd hlt (lt_irrefl i),
        ⟨b, get_deviceWrite.trans hb, hacq, hpin, hdata⟩, ?_⟩
    rw [disk_deviceWrite hb, update_self, hdata]
  | release =>
    obtain ⟨sys, hsys, rfl⟩ := Option.map_eq_some_iff.1 hs
    obtain ⟨hbase, hclean, hdisk, hother⟩ := h.release hsys hc.1 hc.2
    have hold : (s.stage t).holds = some (slotNo k + i) := by rw [hst]; rfl
    have hw' : Written sys.store k p (i + 1) := fun j hj => by
      rw [hdisk]
      rcases Nat.lt_succ_iff_lt_or_eq.1 hj with hlt | rfl
      · exact hw j hlt
      · exact hc.2
    split_ifs with hmore
    · exact h.advance hk hi (Or.inr rfl) hbase hother (Or.inr hold) (Or.inr hclean)
        ⟨hmore, hw', trivial⟩
    · obtain rfl : i = 7 := by omega
      have hidle : Inv sb (s.moveSys t .idle sys) :=
        h.advance hk hi (Or.inl rfl) hbase hother (Or.inr hold) (Or.inr hclean) trivial
      obtain ⟨hlt, hbit, -⟩ := h.slot t k hk
      exact hidle.setSaved hlt hbit hw' (h.slot_free hk)

/-- A thread goes on without a step of the block cache. -/
theorem Inv.moveStage (h : Inv sb s) (hk : (s.stage t).slot = some k)
    (hslot : sg.slot = none ∨ sg.slot = some k) (hi : i < 8)
    (hholds : sg.holds = (s.stage t).holds)
    (hold : (s.stage t).holds = none ∨ (s.stage t).holds = some (slotNo k + i))
    (hok : StageOk s.sys.store sg) : Inv sb (s.move t sg) := by
  refine h.advance hk hi hslot h.base (fun m _ _ => Untouched.refl m _) hold ?_ hok
  rcases hold with hold | hold
  · exact Or.inr (h.clean_of_slot hk hold hi)
  · exact Or.inl (hholds.trans hold)

omit [DecidableEq T] in
/-- A slot is given back. -/
theorem Inv.clearSlot (h : Inv sb s) (hk : k < swapSize) (hsaved : s.saved k = none)
    (hfree : ∀ t, (s.stage t).slot ≠ some k) :
    Inv sb (s.setBitmap (s.bitmap.bitmapClear k)) := by
  have hbit : ∀ k', k' ≠ k → (s.bitmap.bitmapClear k).bitmapGet k' = s.bitmap.bitmapGet k' :=
    fun k' hk' => by
      rw [Bytes.bitmapGet_bitmapClear (by simp only [swapSize] at hk; omega) (by decide)]
      simp [hk']
  refine ⟨h.base, fun t k' hk' => ?_, h.slot_inj, fun k' p' hp' => ?_, h.ok, h.clean⟩
  · obtain ⟨hlt, hbit', hnone⟩ := h.slot t k' hk'
    have hne : k' ≠ k := fun he => hfree t (he ▸ hk')
    exact ⟨hlt, (hbit k' hne).trans hbit', hnone⟩
  · obtain ⟨hlt, hbit', hw⟩ := h.saved k' p' hp'
    have hne : k' ≠ k := by
      rintro rfl
      have hp' : s.saved k' = some p' := hp'
      rw [hsaved] at hp'
      cases hp'
    exact ⟨hlt, (hbit k' hne).trans hbit', hw⟩

/-- **A step of `read_page_from_disk`.** -/
theorem Inv.load {c : CopyStage} (h : Inv sb s) (hst : s.stage t = .load k p q i c)
    (hs : s.go t = some s') : Inv sb s' := by
  have hk : (s.stage t).slot = some k := by rw [hst]; rfl
  have hok := h.ok t
  rw [hst] at hok
  obtain ⟨hi, hw, hq, hc⟩ := hok
  unfold go at hs
  rw [hst] at hs
  cases c with
  | acquire =>
    obtain ⟨sys, hsys, rfl⟩ := Option.map_eq_some_iff.1 hs
    have hnone : (s.stage t).holds = none := by rw [hst]; rfl
    obtain ⟨hbase, hheld, hdisk, hother⟩ := h.acquire hk hnone hi hsys
    rw [hw i hi] at hheld
    exact h.advance hk hi (Or.inr rfl) hbase hother (Or.inl hnone) (Or.inl rfl)
      ⟨hi, fun j hj => by rw [hdisk]; exact hw j hj, hq, hheld⟩
  | copy =>
    obtain ⟨b, hb, rfl⟩ := Option.map_eq_some_iff.1 hs
    have hheld : Held s.sys.store (slotNo k + i) (chunk p i) := hc
    obtain ⟨b', hb', -, -, hdata⟩ := hc
    obtain rfl := Option.mem_unique hb hb'
    refine h.moveStage hk (Or.inr rfl) hi (by rw [hst]; rfl) (Or.inr (by rw [hst]; rfl))
      ⟨hi, hw, fun j hj => ?_, hheld, ?_⟩
    · rw [chunk_setChunk hi, if_neg (by omega)]
      exact hq j hj
    · rw [chunk_setChunk hi, if_pos rfl, hdata]
  | sync => cases hs
  | release =>
    obtain ⟨sys, hsys, rfl⟩ := Option.map_eq_some_iff.1 hs
    obtain ⟨hbase, hclean, hdisk, hother⟩ := h.release hsys hc.1 (hw i hi)
    have hold : (s.stage t).holds = some (slotNo k + i) := by rw [hst]; rfl
    have hq' : ∀ j < i + 1, chunk q j = chunk p j := fun j hj => by
      rcases Nat.lt_succ_iff_lt_or_eq.1 hj with hlt | rfl
      · exact hq j hlt
      · exact hc.2
    split_ifs with hmore
    · exact h.advance hk hi (Or.inr rfl) hbase hother (Or.inr hold) (Or.inr hclean)
        ⟨hmore, fun j hj => by rw [hdisk]; exact hw j hj, hq', trivial⟩
    · obtain rfl : i = 7 := by omega
      exact h.advance hk hi (Or.inr rfl) hbase hother (Or.inr hold) (Or.inr hclean) (page_ext hq')

theorem slotNo_sub (k : ℕ) : (slotNo k - swapStart) / 8 = k := by
  unfold slotNo
  omega

/-- **A thread goes on.** -/
theorem Inv.goOn (h : Inv sb s) (hs : s.go t = some s') : Inv sb s' := by
  cases hst : s.stage t with
  | idle =>
    unfold go at hs
    rw [hst] at hs
    cases hs
  | save k p i c => exact h.save hst hs
  | load k p q i c => exact h.load hst hs
  | loaded k p q =>
    unfold go at hs
    rw [hst] at hs
    obtain rfl := Option.some.inj hs
    have hk : (s.stage t).slot = some k := by rw [hst]; rfl
    have hnone : (s.stage t).holds = none := by rw [hst]; rfl
    have hidle : Inv sb (s.move t .idle) :=
      h.moveStage hk (Or.inl rfl) (show 0 < 8 by decide) (by rw [hnone]; rfl) (Or.inl hnone) trivial
    obtain ⟨hlt, -, hsaved⟩ := h.slot t k hk
    rw [slotNo_sub]
    exact hidle.clearSlot hlt hsaved (h.slot_free hk)

omit [DecidableEq T] in
/-- The slot that `find_and_set_8_blocks` finds is in the area, and free. -/
theorem findSlot_spec (hk : s.findSlot = some k) :
    k < swapSize ∧ s.bitmap.bitmapGet k = false := by
  have hmem := List.mem_of_find?_eq_some hk
  have hbit := List.find?_some hk
  exact ⟨List.mem_range.1 hmem, by simpa using hbit⟩

/-- **A thread begins with a slot** that nobody else uses. -/
theorem Inv.begin (h : Inv sb s) (hst : s.stage t = .idle) (hslot : sg.slot = some k)
    (hstage : s'.stage = update s.stage t sg) (hsys : s'.sys = s.sys)
    (hlt : k < swapSize) (hbit : s'.bitmap.bitmapGet k = true) (hnone : s'.saved k = none)
    (hbits : ∀ k', s.bitmap.bitmapGet k' = true → s'.bitmap.bitmapGet k' = true)
    (hsaved : ∀ k', k' ≠ k → s'.saved k' = s.saved k')
    (hfree : ∀ t, (s.stage t).slot ≠ some k)
    (hok : StageOk s.sys.store sg) : Inv sb s' := by
  have hself : s'.stage t = sg := by rw [hstage]; exact update_self _ _ _
  have hne : ∀ t', t' ≠ t → s'.stage t' = s.stage t' := fun t' ht' => by
    rw [hstage]; exact update_of_ne ht' _ _
  refine ⟨by rw [hsys]; exact h.base, fun t' k' hk' => ?_, fun t₁ t₂ k' h₁ h₂ => ?_,
    fun k' p' hp' => ?_, fun t' => ?_, fun n hn hfree' => ?_⟩
  · by_cases ht' : t' = t
    · rw [ht', hself, hslot] at hk'
      obtain rfl := Option.some.inj hk'
      exact ⟨hlt, hbit, hnone⟩
    · rw [hne t' ht'] at hk'
      obtain ⟨hlt', hbit', hnone'⟩ := h.slot t' k' hk'
      have hkk : k' ≠ k := fun he => hfree t' (he ▸ hk')
      exact ⟨hlt', hbits k' hbit', (hsaved k' hkk).trans hnone'⟩
  · by_cases ht₁ : t₁ = t <;> by_cases ht₂ : t₂ = t
    · rw [ht₁, ht₂]
    · rw [ht₁, hself, hslot] at h₁
      rw [hne t₂ ht₂] at h₂
      exact absurd (h₁ ▸ h₂) (hfree t₂)
    · rw [ht₂, hself, hslot] at h₂
      rw [hne t₁ ht₁] at h₁
      exact absurd (h₂ ▸ h₁) (hfree t₁)
    · rw [hne t₁ ht₁] at h₁
      rw [hne t₂ ht₂] at h₂
      exact h.slot_inj t₁ t₂ k' h₁ h₂
  · have hkk : k' ≠ k := ne_of_values hp' hnone nofun
    rw [hsaved k' hkk] at hp'
    obtain ⟨hlt', hbit', hw⟩ := h.saved k' p' hp'
    rw [hsys]
    exact ⟨hlt', hbits k' hbit', hw⟩
  · rw [hsys]
    by_cases ht' : t' = t
    · rw [ht', hself]
      exact hok
    · rw [hne t' ht']
      exact h.ok t'
  · rw [hsys]
    refine h.clean n hn fun t' hh => ?_
    by_cases ht' : t' = t
    · rw [ht', hst] at hh
      cases hh
    · exact hfree' t' (by rw [hne t' ht']; exact hh)

/-- **Every step keeps the invariant.** -/
theorem Inv.step (hlay : SwapLayout sb) (h : Inv sb s) {a : SwapAct T}
    (hs : s.step sb a = some s') : Inv sb s' := by
  cases a with
  | fs a =>
    obtain ⟨ha, hs⟩ := of_guarded hs
    obtain ⟨sys, hsys, rfl⟩ := Option.map_eq_some_iff.1 hs
    obtain ⟨hbase, hother⟩ := h.base.fsStep hlay ha hsys
    have hslot : ∀ k, ∀ j < 8, Untouched (slotNo k + j) s.sys.store sys.store :=
      fun k j _ => hother _ (swapStart_le_slotNo k j)
    refine ⟨hbase, h.slot, h.slot_inj, fun k p hp => ?_,
      fun t => (h.ok t).untouched fun k _ => hslot k,
      fun n hn hfree => (h.clean n hn hfree).untouched (hother n hn)⟩
    obtain ⟨hlt, hbit, hw⟩ := h.saved k p hp
    exact ⟨hlt, hbit, hw.untouched (hslot k)⟩
  | save t p =>
    obtain ⟨hst, hs⟩ := of_guarded hs
    obtain ⟨k, hk, rfl⟩ := Option.map_eq_some_iff.1 hs
    obtain ⟨hlt, hclear⟩ := findSlot_spec hk
    have hbit : ∀ k', (s.bitmap.bitmapSet k).bitmapGet k' =
        (s.bitmap.bitmapGet k' || decide (k' = k)) := fun k' =>
      Bytes.bitmapGet_bitmapSet (by simp only [swapSize] at hlt; omega) (by decide) k'
    have hnone : s.saved k = none := by
      cases hp : s.saved k with
      | none => rfl
      | some p' =>
        rw [(h.saved k p' hp).2.1] at hclear
        cases hclear
    refine h.begin (t := t) (k := k) hst rfl rfl rfl hlt ?_ hnone (fun k' hk' => ?_) (fun _ _ => rfl)
      (fun t' ht' => ?_) ⟨by decide, fun j hj => absurd hj (Nat.not_lt_zero j), trivial⟩
    · exact (hbit k).trans (by simp)
    · exact (hbit k').trans (by rw [hk']; rfl)
    · rw [(h.slot t' k ht').2.1] at hclear
      cases hclear
  | load t bno q =>
    obtain ⟨hen, hs⟩ := of_guarded hs
    obtain ⟨p, hp, rfl⟩ := Option.map_eq_some_iff.1 hs
    obtain ⟨hlt, hbit, hw⟩ := h.saved _ p hp
    refine h.begin hen.1 rfl rfl rfl hlt hbit (update_self _ _ _) (fun _ hk' => hk')
      (fun k' hk' => update_of_ne hk' _ _) (fun t' ht' => ?_)
      ⟨by decide, hw, fun j hj => absurd hj (Nat.not_lt_zero j), trivial⟩
    rw [(h.slot t' _ ht').2.2] at hp
    cases hp
  | go t => exact h.goOn hs

section

omit [DecidableEq T]

/-- The block cache comes up with nothing of the swap area in use. -/
theorem inv_init {d : Disk} (hlay : SwapLayout sb) (hd : LogOk sb d)
    (hboot : initBcache sb d = some sys) : Inv sb (init sys : SwapSys T) := by
  obtain ⟨st, hok, hinit⟩ := initStore_spec hd
  rw [initBcache, hinit, Option.map_some] at hboot
  obtain rfl := Option.some.inj hboot
  refine ⟨⟨rfl, ⟨∅, Ctl.init rfl (fun _ => rfl) rfl⟩, hok.wf, fun n hn => ?_⟩,
    fun _ _ hk => (nomatch hk), fun _ _ _ hk => (nomatch hk), fun _ _ hp => (nomatch hp),
    fun _ => trivial, fun n hn _ b hb => ?_⟩
  · have hn' : n ∈ LogHeader.entries { readHeader sb d with numBlocks := 0 } := hn
    simp [LogHeader.entries] at hn'
  · obtain ⟨hacq, hpin, hdata⟩ := hok.clean n b hb
    refine ⟨hacq, hpin, hdata.trans (update_of_ne ?_ _ _).symm⟩
    have := hlay.log
    have := hlay.log_le
    omega

/-! ## Calls return -/

/-- The steps that are left with a block. -/
def left : CopyStage → ℕ
  | .acquire => 4
  | .copy => 3
  | .sync => 2
  | .release => 1

end

/-- **A step of a call** leaves the others, keeps its page until it returns,
and gives no slot back before its page is read. -/
theorem go_page (hs : s.go t = some s') :
    (∀ t', s'.stage t' = s.stage t' ∨ t' = t ∧
      ((s'.stage t').page = (s.stage t').page ∨ s'.stage t' = .idle)) ∧
    (∀ k p, s'.saved k = some p → s.saved k = some p ∨ (s.stage t).page = some (k, p)) ∧
    ((∀ k p q, s.stage t ≠ .loaded k p q) ∧ s'.bitmap = s.bitmap ∨
      ∃ k p q, s.stage t = .loaded k p q ∧ s'.bitmap = s.bitmap.bitmapClear k) := by
  have hmove : ∀ (sg : SwapStage), sg.page = (s.stage t).page ∨ sg = .idle → ∀ t',
      (s.move t sg).stage t' = s.stage t' ∨ t' = t ∧
        (((s.move t sg).stage t').page = (s.stage t').page ∨ (s.move t sg).stage t' = .idle) := by
    intro sg hsg t'
    by_cases ht : t' = t
    · subst ht
      have hself : (s.move t' sg).stage t' = sg := update_self _ _ _
      rw [hself]
      exact Or.inr ⟨rfl, hsg⟩
    · exact Or.inl (update_of_ne ht _ _)
  unfold go at hs
  cases hsg : s.stage t with
  | idle =>
    rw [hsg] at hs
    cases hs
  | save k p i c =>
    rw [hsg] at hs hmove
    cases c <;> obtain ⟨sys, -, rfl⟩ := Option.map_eq_some_iff.1 hs
    case release =>
      split_ifs with hmore
      · exact ⟨hmove _ (Or.inl rfl), fun _ _ hp => Or.inl hp, Or.inl ⟨by simp, rfl⟩⟩
      · refine ⟨hmove .idle (Or.inr rfl), fun k' p' hp => ?_, Or.inl ⟨by simp, rfl⟩⟩
        rcases update_eq_cases hp with ⟨rfl, hnew⟩ | ⟨-, hp⟩
        · rw [Option.some.inj hnew]
          exact Or.inr rfl
        · exact Or.inl hp
    all_goals exact ⟨hmove _ (Or.inl rfl), fun _ _ hp => Or.inl hp, Or.inl ⟨by simp, rfl⟩⟩
  | load k p q i c =>
    rw [hsg] at hs hmove
    cases c with
    | sync => cases hs
    | acquire =>
      obtain ⟨sys, -, rfl⟩ := Option.map_eq_some_iff.1 hs
      exact ⟨hmove _ (Or.inl rfl), fun _ _ hp => Or.inl hp, Or.inl ⟨by simp, rfl⟩⟩
    | copy =>
      obtain ⟨b, -, rfl⟩ := Option.map_eq_some_iff.1 hs
      exact ⟨hmove _ (Or.inl rfl), fun _ _ hp => Or.inl hp, Or.inl ⟨by simp, rfl⟩⟩
    | release =>
      obtain ⟨sys, -, rfl⟩ := Option.map_eq_some_iff.1 hs
      refine ⟨hmove _ (Or.inl ?_), fun _ _ hp => Or.inl hp, Or.inl ⟨by simp, rfl⟩⟩
      split_ifs <;> rfl
  | loaded k p q =>
    rw [hsg] at hs hmove
    obtain rfl := Option.some.inj hs
    refine ⟨hmove .idle (Or.inr rfl), fun _ _ hp => Or.inl hp, Or.inr ⟨k, p, q, rfl, ?_⟩⟩
    rw [slotNo_sub]
    rfl

end SwapSys

end OsKernel.Cache
