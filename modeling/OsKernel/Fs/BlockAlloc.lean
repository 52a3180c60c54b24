import OsKernel.Fs.BlockOwnership

/-!
# Blocks are allocated to one operation

`cache_alloc` and `cache_free` of `fs/cache.c` by any number of threads.
Both read and write the bitmap while they have its block by
`cache_acquire`. `cache_alloc` then gives it back, and fills the block it
has found with zeros under the lock of that block, so that calls of other
threads fall in between.

A thread is where it stands in a call (`AllocStage`). The state also has
the blocks in use: those that the image had for files or that a call of
`cache_alloc` has returned, and that `cache_free` has not been called for.
The loop of `cache_alloc` over the blocks of the bitmap has one pass, since
`SWAP_START` is below `BIT_PER_BLOCK`.
-/

namespace OsKernel.Fs

open Function

open Cache

/-- **An image of the file system**: what lies before the data is marked in
the bitmap, and so are the blocks in use. -/
structure Formatted (sb : SuperBlock) where
  blocks : Blocks
  owned : Finset ℕ
  layout : Layout sb
  reserved : ∀ n < dataStart sb, bit sb blocks n = true
  marked : ∀ n ∈ owned, bit sb blocks n = true
  data : ∀ n ∈ owned, InData sb n

/-- Where a thread is. -/
inductive AllocStage where
  | idle
  /-- `cache_alloc` has the block of the bitmap. -/
  | search
  /-- It has set the bit of block `n`. -/
  | marked (n : ℕ)
  /-- It has given the block of the bitmap back. -/
  | taken (n : ℕ)
  /-- It has block `n`. -/
  | filling (n : ℕ)
  /-- It has filled block `n` with zeros. -/
  | filled (n : ℕ)
  /-- It has given block `n` back, and is about to return it. -/
  | ready (n : ℕ)
  /-- `cache_free` is called for block `n`. -/
  | freeing (n : ℕ)
  /-- It has the block of the bitmap. -/
  | clearing (n : ℕ)
  /-- It has cleared the bit. -/
  | cleared (n : ℕ)
deriving DecidableEq

namespace AllocStage

/-- The block of a call that is not at its end, as long as the bit is set. -/
def block : AllocStage → Option ℕ
  | .marked n | .taken n | .filling n | .filled n | .ready n | .freeing n | .clearing n => some n
  | .idle | .search | .cleared _ => none

/-- The block that the thread has by `cache_acquire`. -/
def holds (sb : SuperBlock) : AllocStage → Option ℕ
  | .search | .marked _ => some sb.bitmapStart
  | .filling n | .filled n => some n
  | .clearing n | .cleared n => some (bitmapBlock sb n)
  | .idle | .taken _ | .ready _ | .freeing _ => none

/-- The block that a call of `cache_alloc` is going to return. -/
def pending : AllocStage → List ℕ
  | .marked n | .taken n | .filling n | .filled n | .ready n => [n]
  | _ => []

end AllocStage

/-- The block cache as a map, who has acquired which block, the threads,
and the blocks in use. -/
structure AllocSys (T : Type*) where
  blocks : Blocks
  lock : ℕ → Option T
  stage : T → AllocStage
  owned : Finset ℕ

/-- The steps of the threads. -/
inductive AllocAct (T : Type*) where
  /-- `cache_alloc` acquires the block of the bitmap. -/
  | alloc (t : T)
  /-- It looks for a clear bit and sets it. -/
  | take (t : T)
  | unlock (t : T)
  /-- It acquires the block it has found. -/
  | acquire (t : T)
  | fill (t : T)
  | release (t : T)
  | ret (t : T)
  /-- `cache_free` is called. -/
  | free (t : T) (n : ℕ)
  | lockFree (t : T)
  | clear (t : T)
  | unlockFree (t : T)
  /-- An operation writes a block that is in use. -/
  | write (n : ℕ) (d : BlockData)

namespace AllocSys

variable {T : Type*} [DecidableEq T]

/-- A thread goes on. -/
def move (s : AllocSys T) (t : T) (st : AllocStage) : AllocSys T :=
  { s with stage := update s.stage t st }

/-- `cache_acquire` of a block that is free, or `cache_release`. -/
def setLock (s : AllocSys T) (b : ℕ) (o : Option T) : AllocSys T :=
  { s with lock := update s.lock b o }

/-- The data of block `b` is written. -/
def setBlock (s : AllocSys T) (b : ℕ) (d : BlockData) : AllocSys T :=
  { s with blocks := update s.blocks b d }

/-- The blocks in use. -/
def setOwned (s : AllocSys T) (o : Finset ℕ) : AllocSys T := { s with owned := o }

variable (sb : SuperBlock)

/-- The steps. `none` is a step that cannot be taken, a block that another
thread has among them, and the `PANIC` of `cache_alloc`. -/
def step (s : AllocSys T) : AllocAct T → Option (AllocSys T)
  | .alloc t =>
    if s.stage t = .idle ∧ s.lock sb.bitmapStart = none then
      some ((s.setLock sb.bitmapStart (some t)).move t .search)
    else none
  | .take t =>
    if s.stage t = .search then
      (scanFree sb s.blocks swapStart 0).map fun n =>
        (s.setBlock (bitmapBlock sb n)
          ((s.blocks (bitmapBlock sb n)).bitmapSet (n % bitPerBlock))).move t (.marked n)
    else none
  | .unlock t =>
    match s.stage t with
    | .marked n => some ((s.setLock sb.bitmapStart none).move t (.taken n))
    | _ => none
  | .acquire t =>
    match s.stage t with
    | .taken n =>
      if s.lock n = none then some ((s.setLock n (some t)).move t (.filling n)) else none
    | _ => none
  | .fill t =>
    match s.stage t with
    | .filling n => some ((s.setBlock n Bytes.zero).move t (.filled n))
    | _ => none
  | .release t =>
    match s.stage t with
    | .filled n => some ((s.setLock n none).move t (.ready n))
    | _ => none
  | .ret t =>
    match s.stage t with
    | .ready n => some ((s.setOwned (insert n s.owned)).move t .idle)
    | _ => none
  | .free t n =>
    if s.stage t = .idle ∧ n ∈ s.owned then
      some ((s.setOwned (s.owned.erase n)).move t (.freeing n))
    else none
  | .lockFree t =>
    match s.stage t with
    | .freeing n =>
      if s.lock (bitmapBlock sb n) = none then
        some ((s.setLock (bitmapBlock sb n) (some t)).move t (.clearing n))
      else none
    | _ => none
  | .clear t =>
    match s.stage t with
    | .clearing n =>
      some ((s.setBlock (bitmapBlock sb n)
        ((s.blocks (bitmapBlock sb n)).bitmapClear (n % bitPerBlock))).move t (.cleared n))
    | _ => none
  | .unlockFree t =>
    match s.stage t with
    | .cleared n => some ((s.setLock (bitmapBlock sb n) none).move t .idle)
    | _ => none
  | .write n d =>
    if n ∈ s.owned ∧ s.lock n = none then some (s.setBlock n d) else none

/-- The image, with no call on its way. -/
def init {sb : SuperBlock} (img : Formatted sb) : AllocSys T where
  blocks := img.blocks
  lock := fun _ => none
  stage := fun _ => .idle
  owned := img.owned

variable {sb : SuperBlock} {s s' : AllocSys T} {t t' : T} {n b : ℕ}
variable {st : AllocStage}

/-! ## The bitmap -/

omit [DecidableEq T] in
/-- A write to the data area does not change the bitmap. -/
theorem bit_write_data {m : Blocks} {d : BlockData} {x : ℕ} (hn : dataStart sb ≤ n)
    (hx : bitmapBlock sb x < dataStart sb) : bit sb (update m n d) x = bit sb m x :=
  bit_congr (update_of_ne (by omega) _ _)

/-- The search finds the lowest clear bit. -/
theorem scanFree_lowest {m : Blocks} : ∀ {k x : ℕ}, scanFree sb m k x = some n →
    x ≤ n ∧ ∀ y, x ≤ y → y < n → bit sb m y = true := by
  intro k
  induction k with
  | zero => intro x h; cases h
  | succ k ih =>
    intro x h
    rw [scanFree] at h
    split at h
    case isTrue hx =>
      obtain ⟨hle, hall⟩ := ih h
      refine ⟨by omega, fun y hy hyn => ?_⟩
      rcases Nat.eq_or_lt_of_le hy with rfl | hlt
      · exact hx
      · exact hall y hlt hyn
    case isFalse =>
      obtain rfl := Option.some.inj h
      exact ⟨Nat.le_refl _, fun y hy hyn => by omega⟩

/-! ## The invariant -/

/-- **The invariant of the allocation of blocks.** -/
structure Inv (sb : SuperBlock) (s : AllocSys T) : Prop where
  layout : Layout sb
  reserved : ∀ n < dataStart sb, bit sb s.blocks n = true
  owned : ∀ n ∈ s.owned, bit sb s.blocks n = true ∧ InData sb n
  /-- The block of a call is marked, and nobody else's. -/
  block : ∀ t n, (s.stage t).block = some n →
    bit sb s.blocks n = true ∧ InData sb n ∧ n ∉ s.owned
  block_inj : ∀ t t' n, (s.stage t).block = some n → (s.stage t').block = some n → t = t'
  lock : ∀ b t, s.lock b = some t ↔ (s.stage t).holds sb = some b
  zero : ∀ t n, s.stage t = .filled n ∨ s.stage t = .ready n → s.blocks n = Bytes.zero

omit [DecidableEq T] in
theorem inv_init (img : Formatted sb) : Inv sb (init img : AllocSys T) where
  layout := img.layout
  reserved := img.reserved
  owned := fun n hn => ⟨img.marked n hn, img.data n hn⟩
  block := fun _ _ h => by cases h
  block_inj := fun _ _ _ h => by cases h
  lock := fun _ _ => ⟨(fun h => nomatch h), (fun h => nomatch h)⟩
  zero := fun _ _ h => by rcases h with h | h <;> cases h

section

variable (h : Inv sb s)

include h

/-- **A step of thread `t`**, which is then at `st`. It may write the bitmap
and its own block, clear the bit of its own block only, and put that block
in use. -/
theorem Inv.go (hstage : s'.stage = update s.stage t st)
    (hbits : ∀ x, bitmapBlock sb x < dataStart sb → (s.stage t).block ≠ some x →
      bit sb s.blocks x = true → bit sb s'.blocks x = true)
    (hblock : ∀ n, st.block = some n → bit sb s'.blocks n = true ∧ InData sb n ∧ n ∉ s'.owned ∧
      ∀ t', t' ≠ t → (s.stage t').block ≠ some n)
    (howned : ∀ n ∈ s'.owned, n ∈ s.owned ∨ (s.stage t).block = some n ∧
      bit sb s'.blocks n = true) (hlock : ∀ b, s'.lock b = some t ↔ st.holds sb = some b)
    (hother : ∀ b t', t' ≠ t → (s'.lock b = some t' ↔ s.lock b = some t'))
    (hdata : ∀ t', t' ≠ t → ∀ n, (s.stage t').block = some n → s'.blocks n = s.blocks n)
    (hzero : ∀ n, st = .filled n ∨ st = .ready n → s'.blocks n = Bytes.zero) : Inv sb s' := by
  have hself : s'.stage t = st := by rw [hstage]; exact update_self _ _ _
  have hne : ∀ t', t' ≠ t → s'.stage t' = s.stage t' := fun t' ht' => by
    rw [hstage]; exact update_of_ne ht' _ _
  have hmine : ∀ x, x ∈ s.owned → (s.stage t).block ≠ some x :=
    fun x hx hb => (h.block t x hb).2.2 hx
  refine ⟨h.layout, fun n hn => ?_, fun n hn => ?_, fun t' n hb => ?_, fun t₁ t₂ n h₁ h₂ => ?_,
    fun b t' => ?_, fun t' n hz => ?_⟩
  · refine hbits n (h.layout.bitmapBlock_lt hn) (fun hb => ?_) (h.reserved n hn)
    have := (h.block t n hb).2.1.1
    omega
  · rcases howned n hn with hn | ⟨hb, hbit⟩
    · exact ⟨hbits n (h.owned n hn).2.2 (hmine n hn) (h.owned n hn).1, (h.owned n hn).2⟩
    · exact ⟨hbit, (h.block t n hb).2.1⟩
  · by_cases ht' : t' = t
    · rw [ht', hself] at hb
      obtain ⟨hbit, hin, hout, -⟩ := hblock n hb
      exact ⟨hbit, hin, hout⟩
    · rw [hne t' ht'] at hb
      obtain ⟨hbit, hin, hout⟩ := h.block t' n hb
      have hmy : (s.stage t).block ≠ some n := fun hb' => ht' (h.block_inj t' t n hb hb')
      exact ⟨hbits n hin.2 hmy hbit, hin, fun hn => (howned n hn).elim hout fun hn => hmy hn.1⟩
  · by_cases ht₁ : t₁ = t <;> by_cases ht₂ : t₂ = t
    · rw [ht₁, ht₂]
    · rw [ht₁, hself] at h₁
      rw [hne t₂ ht₂] at h₂
      exact absurd h₂ ((hblock n h₁).2.2.2 t₂ ht₂)
    · rw [ht₂, hself] at h₂
      rw [hne t₁ ht₁] at h₁
      exact absurd h₁ ((hblock n h₂).2.2.2 t₁ ht₁)
    · rw [hne t₁ ht₁] at h₁
      rw [hne t₂ ht₂] at h₂
      exact h.block_inj t₁ t₂ n h₁ h₂
  · by_cases ht' : t' = t
    · rw [ht', hself]
      exact hlock b
    · rw [hne t' ht', hother b t' ht']
      exact h.lock b t'
  · by_cases ht' : t' = t
    · rw [ht', hself] at hz
      exact hzero n hz
    · rw [hne t' ht'] at hz
      have hb : (s.stage t').block = some n := by rcases hz with hz | hz <;> rw [hz] <;> rfl
      rw [hdata t' ht' n hb]
      exact h.zero t' n hz

/-- **A step of thread `t` that writes no block** and goes on with the block
it has. -/
theorem Inv.same (hstage : s'.stage = update s.stage t st) (hblocks : s'.blocks = s.blocks)
    (howned : s'.owned = s.owned) (hblock : ∀ n, st.block = some n → (s.stage t).block = some n)
    (hlock : ∀ b, s'.lock b = some t ↔ st.holds sb = some b)
    (hother : ∀ b t', t' ≠ t → (s'.lock b = some t' ↔ s.lock b = some t'))
    (hzero : ∀ n, st = .filled n ∨ st = .ready n → s.blocks n = Bytes.zero) : Inv sb s' := by
  refine h.go hstage (fun _ _ _ hb => by rw [hblocks]; exact hb) (fun n hn => ?_)
    (fun n hn => Or.inl (by rw [howned] at hn; exact hn)) hlock hother
    (fun _ _ n _ => by rw [hblocks]) fun n hn => by rw [hblocks]; exact hzero n hn
  obtain ⟨hbit, hin, hout⟩ := h.block t n (hblock n hn)
  rw [hblocks, howned]
  exact ⟨hbit, hin, hout, fun t' ht' hb => ht' (h.block_inj t' t n hb (hblock n hn))⟩

/-! ## Locks -/

/-- A thread that has nothing acquires a free block. -/
theorem Inv.acquire (hnone : (s.stage t).holds sb = none) (hfree : s.lock b = none)
    (hst : st.holds sb = some b) (hblock : ∀ n, st.block = some n → (s.stage t).block = some n)
    (hzero : ∀ n, ¬(st = .filled n ∨ st = .ready n)) :
    Inv sb ((s.setLock b (some t)).move t st) := by
  refine h.same rfl rfl rfl hblock (fun c => ?_) (fun c t' ht' => ?_)
    fun n hn => absurd hn (hzero n)
  · show update s.lock b (some t) c = some t ↔ _
    rw [hst]
    by_cases hc : c = b
    · rw [hc, update_self]
      exact ⟨fun _ => rfl, fun _ => rfl⟩
    · rw [update_of_ne hc, h.lock c t, hnone]
      exact ⟨nofun, fun hb => absurd (Option.some.inj hb).symm hc⟩
  · show update s.lock b (some t) c = some t' ↔ _
    by_cases hc : c = b
    · rw [hc, update_self, hfree]
      exact ⟨fun hb => absurd (Option.some.inj hb).symm ht', nofun⟩
    · rw [update_of_ne hc]

/-- A thread gives back what it has. -/
theorem Inv.giveBack (hhold : (s.stage t).holds sb = some b) (hst : st.holds sb = none)
    (hblock : ∀ n, st.block = some n → (s.stage t).block = some n)
    (hzero : ∀ n, st = .filled n ∨ st = .ready n → s.blocks n = Bytes.zero) :
    Inv sb ((s.setLock b none).move t st) := by
  refine h.same rfl rfl rfl hblock (fun c => ?_) (fun c t' ht' => ?_) hzero
  · rw [hst]
    refine ⟨fun hb => ?_, nofun⟩
    obtain ⟨hc, hb⟩ := of_update_eq hb nofun
    rw [h.lock c t, hhold] at hb
    exact absurd (Option.some.inj hb).symm hc
  · show update s.lock b none c = some t' ↔ _
    by_cases hc : c = b
    · rw [hc, update_self, (h.lock b t).2 hhold]
      exact ⟨nofun, fun hb => absurd (Option.some.inj hb).symm ht'⟩
    · rw [update_of_ne hc]

section

omit [DecidableEq T]

theorem Inv.lock_same (hst : (s.stage t).holds sb = st.holds sb) (b : ℕ) :
    s.lock b = some t ↔ st.holds sb = some b := by
  rw [h.lock b t, hst]

/-! ## The steps -/

/-- The bit that `cache_alloc` finds. -/
theorem Inv.found (hscan : scanFree sb s.blocks swapStart 0 = some n) :
    bit sb s.blocks n = false ∧ n < swapStart ∧ InData sb n ∧ n ∉ s.owned ∧
      ∀ t, (s.stage t).block ≠ some n := by
  obtain ⟨hbit, hlt⟩ := scanFree_eq_some hscan
  have hlt : n < swapStart := by omega
  have hclear : ∀ {p : Prop}, bit sb s.blocks n = true → p := fun hb => by
    rw [hbit] at hb
    cases hb
  refine ⟨hbit, hlt, ⟨?_, ?_⟩, fun hn => hclear (h.owned n hn).1,
    fun t hb => hclear (h.block t n hb).1⟩
  · by_contra hlow
    exact hclear (h.reserved n (by omega))
  · rw [bitmapBlock, div_bitPerBlock_of_lt hlt]
    exact h.layout.bitmapStart_lt

end

theorem Inv.take (hst : s.stage t = .search) (hscan : scanFree sb s.blocks swapStart 0 = some n) :
    Inv sb ((s.setBlock (bitmapBlock sb n)
      ((s.blocks (bitmapBlock sb n)).bitmapSet (n % bitPerBlock))).move t (.marked n)) := by
  obtain ⟨-, hlt, hin, hout, hnobody⟩ := h.found hscan
  refine h.go rfl (fun x _ _ hx => ?_) (fun x hx => ?_) (fun x hx => Or.inl hx)
    (h.lock_same (by rw [hst]; rfl)) (fun _ _ _ => Iff.rfl) (fun t' _ x hx => ?_) (by simp)
  · exact (bit_set n x).trans (by rw [hx]; rfl)
  · obtain rfl : n = x := Option.some.inj hx
    exact ⟨(bit_set n n).trans (by simp), hin, hout, fun t' _ => hnobody t'⟩
  · have hdata := (h.block t' x hx).2.1.1
    have := hin.2
    exact update_of_ne (by omega) _ _

theorem Inv.fill (hst : s.stage t = .filling n) :
    Inv sb ((s.setBlock n Bytes.zero).move t (.filled n)) := by
  have hmy : (s.stage t).block = some n := by rw [hst]; rfl
  obtain ⟨hbit, hin, hout⟩ := h.block t n hmy
  refine h.go rfl (fun x hx _ hb => ?_) (fun x hx => ?_) (fun x hx => Or.inl hx)
    (h.lock_same (by rw [hst]; rfl)) (fun _ _ _ => Iff.rfl) (fun t' ht' x hx => ?_) fun x hx => ?_
  · exact (bit_write_data hin.1 hx).trans hb
  · obtain rfl : n = x := Option.some.inj hx
    exact ⟨(bit_write_data hin.1 hin.2).trans hbit, hin, hout,
      fun t' ht' hb => ht' (h.block_inj t' t n hb hmy)⟩
  · refine update_of_ne (fun he => ?_) _ _
    rw [he] at hx
    exact ht' (h.block_inj t' t n hx hmy)
  · obtain rfl : n = x := by
      rcases hx with hx | hx
      · exact AllocStage.filled.inj hx
      · cases hx
    exact update_self _ _ _

theorem Inv.clear (hst : s.stage t = .clearing n) :
    Inv sb ((s.setBlock (bitmapBlock sb n)
      ((s.blocks (bitmapBlock sb n)).bitmapClear (n % bitPerBlock))).move t (.cleared n)) := by
  have hmy : (s.stage t).block = some n := by rw [hst]; rfl
  have hin := (h.block t n hmy).2.1
  refine h.go rfl (fun x _ hne hx => ?_) (fun x hx => nomatch hx) (fun x hx => Or.inl hx)
    (h.lock_same (by rw [hst]; rfl)) (fun _ _ _ => Iff.rfl) (fun t' _ x hx => ?_) (by simp)
  · have hxn : x ≠ n := by
      rintro rfl
      exact hne hmy
    exact (bit_clear n x).trans (by simp [hx, hxn])
  · have hdata := (h.block t' x hx).2.1.1
    have := hin.2
    exact update_of_ne (by omega) _ _

/-- `cache_alloc` returns a block, which is then in use. -/
theorem Inv.ret (hst : s.stage t = .ready n) :
    Inv sb ((s.setOwned (insert n s.owned)).move t .idle) := by
  have hmy : (s.stage t).block = some n := by rw [hst]; rfl
  refine h.go rfl (fun x _ _ hx => hx) (fun x hx => nomatch hx) (fun x hx => ?_)
    (h.lock_same (by rw [hst]; rfl)) (fun _ _ _ => Iff.rfl) (fun _ _ _ _ => rfl) (by simp)
  rcases Finset.mem_insert.1 hx with rfl | hx
  · exact Or.inr ⟨hmy, (h.block t _ hmy).1⟩
  · exact Or.inl hx

/-- `cache_free` is called for a block, which is then not in use. -/
theorem Inv.free (hst : s.stage t = .idle) (hn : n ∈ s.owned) :
    Inv sb ((s.setOwned (s.owned.erase n)).move t (.freeing n)) := by
  obtain ⟨hbit, hin⟩ := h.owned n hn
  refine h.go rfl (fun x _ _ hx => hx) (fun x hx => ?_)
    (fun x hx => Or.inl (Finset.mem_of_mem_erase hx)) (h.lock_same (by rw [hst]; rfl))
    (fun _ _ _ => Iff.rfl) (fun _ _ _ _ => rfl) (by simp)
  obtain rfl : n = x := Option.some.inj hx
  exact ⟨hbit, hin, Finset.notMem_erase n _, fun t' _ hb => (h.block t' n hb).2.2 hn⟩

omit [DecidableEq T] in
theorem Inv.write (hn : n ∈ s.owned) (d : BlockData) : Inv sb (s.setBlock n d) := by
  have hin := (h.owned n hn).2
  have hbits : ∀ x, bitmapBlock sb x < dataStart sb →
      bit sb (s.setBlock n d).blocks x = bit sb s.blocks x := fun x hx => bit_write_data hin.1 hx
  refine ⟨h.layout, fun x hx => ?_, fun x hx => ?_, fun t x hb => ?_, h.block_inj, h.lock,
    fun t x hz => ?_⟩
  · rw [hbits x (h.layout.bitmapBlock_lt hx)]
    exact h.reserved x hx
  · rw [hbits x (h.owned x hx).2.2]
    exact h.owned x hx
  · rw [hbits x (h.block t x hb).2.1.2]
    exact h.block t x hb
  · have hb : (s.stage t).block = some x := by
      rcases hz with hz | hz <;> rw [show s.stage t = _ from hz] <;> rfl
    have hxn : x ≠ n := by
      rintro rfl
      exact (h.block t _ hb).2.2 hn
    exact (update_of_ne hxn _ _).trans (h.zero t x hz)

/-- **Every step keeps the invariant.** -/
theorem Inv.step {x : AllocAct T} (hs : s.step sb x = some s') : Inv sb s' := by
  cases x with
  | alloc t =>
    obtain ⟨hen, rfl⟩ := of_guard hs
    exact h.acquire (by rw [hen.1]; rfl) hen.2 rfl nofun (by simp)
  | take t =>
    obtain ⟨hen, hs⟩ := of_guarded hs
    obtain ⟨n, hscan, rfl⟩ := Option.map_eq_some_iff.1 hs
    exact h.take hen hscan
  | unlock t =>
    simp only [AllocSys.step] at hs
    split at hs
    case h_1 n hst =>
      obtain rfl := Option.some.inj hs
      exact h.giveBack (by rw [hst]; rfl) rfl (fun x hx => by rw [hst]; exact hx) (by simp)
    case h_2 => cases hs
  | acquire t | lockFree t =>
    simp only [AllocSys.step] at hs
    split at hs
    case h_1 n hst =>
      obtain ⟨hfree, rfl⟩ := of_guard hs
      exact h.acquire (by rw [hst]; rfl) hfree rfl (fun x hx => by rw [hst]; exact hx) (by simp)
    case h_2 => cases hs
  | fill t =>
    simp only [AllocSys.step] at hs
    split at hs
    case h_1 n hst =>
      obtain rfl := Option.some.inj hs
      exact h.fill hst
    case h_2 => cases hs
  | release t =>
    simp only [AllocSys.step] at hs
    split at hs
    case h_1 n hst =>
      obtain rfl := Option.some.inj hs
      refine h.giveBack (by rw [hst]; rfl) rfl (fun x hx => by rw [hst]; exact hx) fun x hx => ?_
      obtain rfl : n = x := by
        rcases hx with hx | hx
        · cases hx
        · exact AllocStage.ready.inj hx
      exact h.zero t n (Or.inl hst)
    case h_2 => cases hs
  | ret t =>
    simp only [AllocSys.step] at hs
    split at hs
    case h_1 n hst =>
      obtain rfl := Option.some.inj hs
      exact h.ret hst
    case h_2 => cases hs
  | free t n =>
    obtain ⟨hen, rfl⟩ := of_guard hs
    exact h.free hen.1 hen.2
  | clear t =>
    simp only [AllocSys.step] at hs
    split at hs
    case h_1 n hst =>
      obtain rfl := Option.some.inj hs
      exact h.clear hst
    case h_2 => cases hs
  | unlockFree t =>
    simp only [AllocSys.step] at hs
    split at hs
    case h_1 n hst =>
      obtain rfl := Option.some.inj hs
      exact h.giveBack (by rw [hst]; rfl) rfl nofun (by simp)
    case h_2 => cases hs
  | write n d =>
    obtain ⟨hen, rfl⟩ := of_guard hs
    exact h.write hen.1 d

end

/-! ## What a step does to the bitmap -/

/-- `cache_alloc` sets the lowest clear bit, and no other. -/
theorem take_spec (hs : s.step sb (.take t) = some s') :
    ∃ n, s'.stage t = .marked n ∧ n < swapStart ∧ bit sb s.blocks n = false ∧
      (∀ x < n, bit sb s.blocks x = true) ∧
      ∀ x, bit sb s'.blocks x = (bit sb s.blocks x || decide (x = n)) := by
  obtain ⟨hen, hs⟩ := of_guarded hs
  obtain ⟨n, hscan, rfl⟩ := Option.map_eq_some_iff.1 hs
  obtain ⟨hbit, hlt⟩ := scanFree_eq_some hscan
  exact ⟨n, update_self _ _ _, by omega, hbit,
    fun x hx => (scanFree_lowest hscan).2 x (Nat.zero_le x) hx, bit_set n⟩

/-- `cache_free` clears its bit, and no other. -/
theorem clear_spec (hs : s.step sb (.clear t) = some s') :
    ∃ n, s.stage t = .clearing n ∧
      ∀ x, bit sb s'.blocks x = (bit sb s.blocks x && !decide (x = n)) := by
  simp only [AllocSys.step] at hs
  split at hs
  case h_1 n hst =>
    obtain rfl := Option.some.inj hs
    exact ⟨n, hst, bit_clear n⟩
  case h_2 => cases hs

/-- The other steps leave the bitmap alone. -/
theorem Inv.bits_of_ne (h : Inv sb s) {x : AllocAct T} (hs : s.step sb x = some s')
    (hx : ∀ t, x ≠ .take t ∧ x ≠ .clear t) (hn : bitmapBlock sb n < dataStart sb) :
    bit sb s'.blocks n = bit sb s.blocks n := by
  cases x with
  | take t => exact absurd rfl (hx t).1
  | clear t => exact absurd rfl (hx t).2
  | alloc t | free t m =>
    obtain ⟨hen, rfl⟩ := of_guard hs
    rfl
  | unlock t | release t | ret t | unlockFree t =>
    simp only [AllocSys.step] at hs
    split at hs
    · obtain rfl := Option.some.inj hs
      rfl
    · cases hs
  | acquire t | lockFree t =>
    simp only [AllocSys.step] at hs
    split at hs
    · obtain ⟨-, rfl⟩ := of_guard hs
      rfl
    · cases hs
  | fill t =>
    simp only [AllocSys.step] at hs
    split at hs
    case h_1 m hst =>
      obtain rfl := Option.some.inj hs
      exact bit_write_data (h.block t m (by rw [hst]; rfl)).2.1.1 hn
    case h_2 => cases hs
  | write m d =>
    obtain ⟨hen, rfl⟩ := of_guard hs
    exact bit_write_data (h.owned m hen.1).2.1 hn

/-! ## What a thread has found and returned -/

/-- The block whose bit a step of thread `t` sets. -/
def takes (sb : SuperBlock) (t : T) (x : AllocSys T × AllocAct T) : List ℕ :=
  match x.2 with
  | .take t' => if t' = t then (scanFree sb x.1.blocks swapStart 0).toList else []
  | _ => []

/-- The block that a step of thread `t` returns from `cache_alloc`. -/
def returns (t : T) (x : AllocSys T × AllocAct T) : List ℕ :=
  match x.2 with
  | .ret t' => if t' = t then (x.1.stage t).pending else []
  | _ => []

theorem move_stage_self (s : AllocSys T) (t : T) (st : AllocStage) :
    (s.move t st).stage t = st :=
  update_self _ _ _

theorem move_stage_of_ne (h : t' ≠ t) : (s.move t st).stage t' = s.stage t' :=
  update_of_ne h _ _

/-- A thread goes on with the block that it is going to return. -/
theorem pending_move {u : T} (hstage : s'.stage = update s.stage u st)
    (hst : st.pending = (s.stage u).pending) (t : T) :
    (s'.stage t).pending = (s.stage t).pending := by
  rw [hstage]
  by_cases ht : t = u
  · rw [ht, update_self, hst]
  · rw [update_of_ne ht]

/-- **A step finds a block, returns it or goes on with it.** -/
theorem pending_step {x : AllocAct T} (hs : s.step sb x = some s') (t : T) :
    (s.stage t).pending ++ takes sb t (s, x) = returns t (s, x) ++ (s'.stage t).pending := by
  have hgo : (s'.stage t).pending = (s.stage t).pending → takes sb t (s, x) = [] →
      returns t (s, x) = [] →
      (s.stage t).pending ++ takes sb t (s, x) = returns t (s, x) ++ (s'.stage t).pending :=
    fun hp ht hr => by rw [hp, ht, hr, List.append_nil, List.nil_append]
  cases x with
  | take t' =>
    obtain ⟨hen, hs⟩ := of_guarded hs
    obtain ⟨n, hscan, rfl⟩ := Option.map_eq_some_iff.1 hs
    have htakes : takes sb t (s, .take t') = if t' = t then [n] else [] := by
      simp [takes, hscan]
    have hreturns : returns t (s, .take t') = [] := rfl
    rw [htakes, hreturns]
    by_cases ht : t' = t
    · subst ht
      rw [if_pos rfl, hen, move_stage_self]
      rfl
    · rw [if_neg ht, List.append_nil, move_stage_of_ne (Ne.symm ht)]
      rfl
  | ret t' =>
    simp only [AllocSys.step] at hs
    split at hs
    case h_1 n hst =>
      obtain rfl := Option.some.inj hs
      have htakes : takes sb t (s, .ret t') = [] := rfl
      have hreturns : returns t (s, .ret t') = if t' = t then (s.stage t).pending else [] := rfl
      rw [htakes, hreturns, List.append_nil]
      by_cases ht : t' = t
      · subst ht
        rw [if_pos rfl, move_stage_self]
        exact (List.append_nil _).symm
      · rw [if_neg ht, move_stage_of_ne (Ne.symm ht)]
        rfl
    case h_2 => cases hs
  | alloc t' | free t' m =>
    obtain ⟨hen, rfl⟩ := of_guard hs
    exact hgo (pending_move (u := t') rfl (by rw [hen.1]; rfl) t) rfl rfl
  | unlock t' | release t' | unlockFree t' | fill t' | clear t' =>
    simp only [AllocSys.step] at hs
    split at hs
    case h_1 n hst =>
      obtain rfl := Option.some.inj hs
      exact hgo (pending_move (u := t') rfl (by rw [hst]; rfl) t) rfl rfl
    case h_2 => cases hs
  | acquire t' | lockFree t' =>
    simp only [AllocSys.step] at hs
    split at hs
    case h_1 n hst =>
      obtain ⟨-, rfl⟩ := of_guard hs
      exact hgo (pending_move (u := t') rfl (by rw [hst]; rfl) t) rfl rfl
    case h_2 => cases hs
  | write m d =>
    obtain ⟨-, rfl⟩ := of_guard hs
    exact hgo rfl rfl rfl

/-- **The blocks that a thread has found are those it has returned**, in
order, and the one it is going to return. -/
theorem takes_eq_returns {img : Formatted sb} {tr : List (AllocSys T × AllocAct T)}
    (hrun : Run (step sb) (init img) tr s) (t : T) :
    tr.flatMap (takes sb t) = tr.flatMap (returns t) ++ (s.stage t).pending := by
  refine hrun.traceInvariant (I := fun tr s =>
    tr.flatMap (takes sb t) = tr.flatMap (returns t) ++ (s.stage t).pending) rfl ?_
  intro tr s x s' ih hs
  simp only [List.flatMap_append, List.flatMap_cons, List.flatMap_nil, List.append_nil]
  rw [ih, List.append_assoc, pending_step hs t, List.append_assoc]

/-! ## Every run -/

/-- **Blocks are allocated to one operation.** In every run of calls of
`cache_alloc` and `cache_free` from an image of the file system, with
`cache_free` called for blocks in use only: when a call of `cache_alloc`
returns, its block is not in use, it is no other call's, and it reads as
zeros; what a call returns is the block whose bit it has set, that bit was
the lowest clear one while the call had the block of the bitmap, and
`cache_free` clears the bit of its block; no step changes any other bit. -/
theorem alloc_exclusive {img : Formatted sb} {tr : List (AllocSys T × AllocAct T)}
    (hrun : Run (step sb) (init img) tr s) :
    (∀ t n, s.stage t = .ready n → n ∉ s.owned ∧ s.blocks n = Bytes.zero ∧
      ∀ t', t' ≠ t → (s.stage t').block ≠ some n) ∧
    (∀ t, tr.flatMap (takes sb t) = tr.flatMap (returns t) ++ (s.stage t).pending) ∧
    (∀ t s', s.step sb (.take t) = some s' → ∃ n, s'.stage t = .marked n ∧ n < swapStart ∧
      bit sb s.blocks n = false ∧ (∀ x < n, bit sb s.blocks x = true) ∧
      ∀ x, bit sb s'.blocks x = (bit sb s.blocks x || decide (x = n))) ∧
    (∀ t s', s.step sb (.clear t) = some s' → ∃ n, s.stage t = .clearing n ∧
      ∀ x, bit sb s'.blocks x = (bit sb s.blocks x && !decide (x = n))) ∧
    (∀ a s', s.step sb a = some s' → (∀ t, a ≠ .take t ∧ a ≠ .clear t) →
      ∀ x, bitmapBlock sb x < dataStart sb → bit sb s'.blocks x = bit sb s.blocks x) ∧
    ∀ t t' b, (s.stage t).holds sb = some b → (s.stage t').holds sb = some b → t = t' := by
  have h : Inv sb s := hrun.invariant (inv_init img) fun s x s' hI hs => hI.step hs
  refine ⟨fun t n hst => ?_, takes_eq_returns hrun, fun t s' hs => take_spec hs,
    fun t s' hs => clear_spec hs, fun a s' hs ha x hx => h.bits_of_ne hs ha hx,
    fun t t' b hb hb' => ?_⟩
  · have hmy : (s.stage t).block = some n := by rw [hst]; rfl
    exact ⟨(h.block t n hmy).2.2, h.zero t n (Or.inr hst),
      fun t' ht' hb => ht' (h.block_inj t' t n hb hmy)⟩
  · have := (h.lock b t).2 hb
    rw [(h.lock b t').2 hb'] at this
    exact (Option.some.inj this).symm

/-- The image of `mkfs` with one empty file. -/
def formattedOneFile : Formatted mkfsLayout where
  blocks := (oneFile 12).blocks
  owned := ∅
  layout := layout_mkfsLayout
  reserved := inv_oneFile.owned.reserved
  marked := fun _ hn => absurd hn (Finset.notMem_empty _)
  data := fun _ hn => absurd hn (Finset.notMem_empty _)

/-- Thread 1 looks for a block before thread 0 has filled the one it has
found; both are about to return. -/
theorem alloc_exclusive_race : ∃ tr s,
    Run (step mkfsLayout) (init formattedOneFile : AllocSys ℕ) tr s ∧
    s.stage 0 = .ready 96 ∧ s.stage 1 = .ready 97 ∧ 96 ∉ s.owned ∧ s.blocks 96 = Bytes.zero ∧
    s.blocks 97 = Bytes.zero := by
  have hkey : (exec (step mkfsLayout) (init formattedOneFile : AllocSys ℕ)
      [.alloc 0, .take 0, .unlock 0, .alloc 1, .take 1, .acquire 0, .unlock 1, .fill 0,
        .acquire 1, .fill 1, .release 1, .release 0]).map (fun s => (s.stage 0, s.stage 1)) =
      some (.ready 96, .ready 97) := by
    decide +kernel
  obtain ⟨s, hs, heq⟩ := Option.map_eq_some_iff.1 hkey
  obtain ⟨h0, h1⟩ : s.stage 0 = .ready 96 ∧ s.stage 1 = .ready 97 := by simpa using heq
  have hrun := Run.of_exec hs
  obtain ⟨hready, -⟩ := alloc_exclusive hrun
  exact ⟨_, s, hrun, h0, h1, (hready 0 96 h0).1, (hready 0 96 h0).2.1, (hready 1 97 h1).2.1⟩

end AllocSys

/-! ## The bound of the search

The loops of `cache_alloc` run up to `SWAP_START`, and do not read
`num_blocks`. -/

variable {sb : SuperBlock} {m : Blocks}

/-- `cache_alloc` returns the lowest free block. -/
theorem cacheAlloc_spec {n : ℕ} {m' : Blocks} (h : cacheAlloc sb [] m = some (n, m')) :
    n < swapStart ∧ bit sb m n = false ∧ ∀ x < n, bit sb m x = true := by
  obtain ⟨x, hscan, htake⟩ := Option.bind_eq_some_iff.1 h
  obtain ⟨-, htake⟩ := of_guarded htake
  obtain ⟨rfl, -⟩ := pair_inj htake
  obtain ⟨hfree, hlt⟩ := scanFree_eq_some hscan
  exact ⟨by omega, hfree, fun y => (AllocSys.scanFree_lowest hscan).2 y (Nat.zero_le y)⟩

theorem cacheAlloc_eq_none : cacheAlloc sb [] m = none ↔ ∀ n < swapStart, bit sb m n = true := by
  constructor
  · intro h n hn
    by_contra hbit
    obtain ⟨x, hscan⟩ := Option.isSome_iff_exists.1
      (scanFree_isSome (eq_false_of_ne_true hbit) (Nat.zero_le n) (by omega : n < 0 + swapStart))
    simp [cacheAlloc, hscan, takeBlock] at h
  · intro hall
    cases h : cacheAlloc sb [] m with
    | none => rfl
    | some r =>
      obtain ⟨hlt, hfree, -⟩ := cacheAlloc_spec h
      rw [hall r.1 hlt] at hfree
      cases hfree

/-- **`cache_alloc` returns a free block below `num_blocks`, and panics where
there is none**, just when there is one below `num_blocks` if and only if there
is one below `SWAP_START`. -/
theorem cacheAlloc_within :
    ((∀ n m', cacheAlloc sb [] m = some (n, m') → n < sb.numBlocks ∧ bit sb m n = false) ∧
      (cacheAlloc sb [] m = none ↔ ∀ n < sb.numBlocks, bit sb m n = true)) ↔
    ((∃ n < swapStart, bit sb m n = false) ↔ ∃ n < sb.numBlocks, bit sb m n = false) := by
  have hused : ∀ k, (∃ n < k, bit sb m n = false) ↔ ¬∀ n < k, bit sb m n = true := by simp
  constructor
  · rintro ⟨-, hnone⟩
    rw [hused, hused, ← cacheAlloc_eq_none, ← hnone]
  · intro hbound
    refine ⟨fun n m' halloc => ?_, ?_⟩
    · obtain ⟨hlt, hfree, hlow⟩ := cacheAlloc_spec halloc
      obtain ⟨x, hx, hxfree⟩ := hbound.1 ⟨n, hlt, hfree⟩
      -- the lowest free block is not above that one
      have hle : n ≤ x := by
        by_contra hn
        rw [hlow x (by omega)] at hxfree
        cases hxfree
      exact ⟨by omega, hfree⟩
    · rw [hused, hused, not_iff_not] at hbound
      exact cacheAlloc_eq_none.trans hbound

/-- **A full disk has free blocks, and a small one is left behind**: with the
blocks below `SWAP_START` in use `cache_alloc` panics, although block 900 is
free; and on a disk of 96 blocks, all in use, it returns block 96. -/
theorem cacheAlloc_bound :
    (cacheAlloc mkfsLayout [] (oneFile 100).blocks).isNone ∧
      bit mkfsLayout (oneFile 100).blocks 900 = false ∧ 900 < mkfsLayout.numBlocks ∧
      (cacheAlloc { mkfsLayout with numBlocks := 96 } [] (oneFile 12).blocks).map Prod.fst =
        some 96 := by
  decide +kernel

/-! ## The bitmap of `mkfs` -/

/-- Bit `i % 8` of byte `i / 8`. -/
def byteBit (b : BlockData) (i : ℕ) : Bool := (b.get (i / 8)).toNat.testBit (i % 8)

/-- `buf[i / 8] = buf[i / 8] | (0x1 << (i % 8))`. -/
def markByte (b : BlockData) (i : ℕ) : BlockData :=
  b.splice (i / 8) 1 fun _ => UInt8.ofNat ((b.get (i / 8)).toNat ||| 1 <<< (i % 8))

/-- `balloc` of `user/mkfs/main.c`: the block that it writes. -/
def balloc (used : ℕ) : BlockData := (List.range used).foldl markByte Bytes.zero

theorem byteBit_markByte {i : ℕ} (hi : i < bitPerBlock) (b : BlockData) (j : ℕ) :
    byteBit (markByte b i) j = (byteBit b j || decide (j = i)) := by
  have hlt : i / 8 < blockSize := by simp only [bitPerBlock, blockSize] at *; omega
  unfold byteBit markByte
  by_cases hbyte : j / 8 = i / 8
  · have hbit : i % 8 = j % 8 ↔ j = i := by omega
    have hmod : j % 8 < 8 := Nat.mod_lt j (by decide)
    rw [hbyte, Bytes.get_splice_of_mem hlt (by omega), UInt8.toNat_ofNat',
      Nat.testBit_mod_two_pow, Nat.testBit_or, Nat.one_shiftLeft, Nat.testBit_two_pow]
    simp only [hmod, decide_true, Bool.true_and, hbit]
  · have hne : j ≠ i := fun hji => hbyte (by rw [hji])
    rw [Bytes.get_splice_of_not_mem (by omega)]
    simp [hne]

theorem byteBit_balloc {used : ℕ} (h : used ≤ bitPerBlock) (j : ℕ) :
    byteBit (balloc used) j = decide (j < used) := by
  induction used with
  | zero => simp [balloc, byteBit]
  | succ used ih =>
    have hstep : balloc (used + 1) = markByte (balloc used) used := by
      simp [balloc, List.range_succ]
    rw [hstep, byteBit_markByte h, ih (by omega), ← Bool.decide_or]
    exact decide_eq_decide.2 (by omega)

/-- **The kernel and `mkfs` agree on the bitmap.** A bit of the kernel is the
bit of the byte that `mkfs` writes, `bitmap_set` and `bitmap_clear` change
that bit of that byte only, and after `balloc` the blocks in use are those
below `used`, so that `used` is the block that `cache_alloc` returns first. -/
theorem bitmaps_agree :
    (∀ (b : BlockData), ∀ i < bitPerBlock, b.bitmapGet i = byteBit b i ∧
      ∀ j, byteBit (b.bitmapSet i) j = (byteBit b j || decide (j = i)) ∧
        byteBit (b.bitmapClear i) j = (byteBit b j && !decide (j = i))) ∧
    ∀ (sb : SuperBlock) (m : Blocks) (used : ℕ), used < bitPerBlock →
      m sb.bitmapStart = balloc used →
      (∀ n < bitPerBlock, bit sb m n = decide (n < used)) ∧
      (used < swapStart → (cacheAlloc sb [] m).map Prod.fst = some used) := by
  have hbyte : ∀ (b : BlockData) (i : ℕ), b.bitmapGet i = byteBit b i := Bytes.bitmapGet_eq_testBit
  refine ⟨fun b i hi => ⟨hbyte b i, fun j => ?_⟩, fun sb m used hused hm => ?_⟩
  · have hlt : i / 8 < blockSize := by simp only [bitPerBlock, blockSize] at *; omega
    rw [← hbyte, ← hbyte, ← hbyte]
    exact ⟨Bytes.bitmapGet_bitmapSet hlt (by decide) j, Bytes.bitmapGet_bitmapClear hlt (by decide) j⟩
  · have hbit : ∀ n < bitPerBlock, bit sb m n = decide (n < used) := by
      intro n hn
      rw [bit, bitmapBlock, Nat.div_eq_of_lt hn, Nat.mod_eq_of_lt hn, Nat.add_zero, hm, hbyte,
        byteBit_balloc hused.le]
    refine ⟨hbit, fun hswap => ?_⟩
    have hfree : bit sb m used = false := by simp [hbit used hused]
    obtain ⟨n, hscan⟩ := Option.isSome_iff_exists.1
      (scanFree_isSome hfree (Nat.zero_le used) (by omega : used < 0 + swapStart))
    -- the search stops at the lowest clear bit
    obtain ⟨hn, hlt⟩ := scanFree_eq_some hscan
    have hge : ¬n < used := by
      simpa [hbit n (by simp only [bitPerBlock, blockSize, swapStart] at *; omega)] using hn
    have hle : ¬used < n := by
      intro hlt
      have := (AllocSys.scanFree_lowest hscan).2 used (Nat.zero_le used) hlt
      rw [hfree] at this
      cases this
    obtain rfl : n = used := by omega
    simp [cacheAlloc, hscan, takeBlock]

end OsKernel.Fs
