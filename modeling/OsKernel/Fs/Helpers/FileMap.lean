import OsKernel.Fs.Helpers.Ownership

/-!
# Helpers — mapping a block of a file

`inode_map` on an inode whose first `B` blocks are mapped. A mapped block
is looked up and nothing changes; block `B` is allocated, with the
indirect block before it where it is the first one that needs it. `Grow`
says what the inode being written gains and what everybody else keeps.
-/

namespace OsKernel.Fs

open Function

open Cache

variable {sb : SuperBlock} {m m' m'' : Blocks} {E : ℕ → InodeEntry} {e e' e'' : InodeEntry}
variable {i j k l n : ℕ}

/-- Two entries that differ in their addresses at most. -/
def SameFile (e e' : InodeEntry) : Prop :=
  e'.type = e.type ∧ e'.major = e.major ∧ e'.minor = e.minor ∧ e'.numLinks = e.numLinks ∧
    e'.numBytes = e.numBytes

theorem SameFile.trans (h : SameFile e e') (h' : SameFile e' e'') : SameFile e e'' :=
  ⟨h'.1.trans h.1, h'.2.1.trans h.2.1, h'.2.2.1.trans h.2.2.1, h'.2.2.2.1.trans h.2.2.2.1,
    h'.2.2.2.2.trans h.2.2.2.2⟩

theorem live_update_of_ne (hj : j ≠ i) : Live sb (update E i e) j ↔ Live sb E j := by
  rw [Live, Live, update_of_ne hj]

/-- The allocated inodes depend on the types only. -/
theorem live_update_congr (h : e'.type = e.type) :
    Live sb (update E i e') j ↔ Live sb (update E i e) j := by
  by_cases hj : j = i
  · subst hj
    simp only [Live, update_self, h]
  · rw [live_update_of_ne hj, live_update_of_ne hj]

/-- **What mapping blocks for inode `i` keeps**: the blocks are owned,
with the entry `e'` for `i`; the other inodes keep their addresses; inode
blocks and marked data blocks other than the indirect block of `i` keep
their contents. -/
structure Grow (sb : SuperBlock) (E : ℕ → InodeEntry) (i : ℕ) (m : Blocks) (e : InodeEntry)
    (m' : Blocks) (e' : InodeEntry) : Prop where
  owned : Owned sb m' (update E i e')
  same : SameFile e e'
  other : ∀ j, j ≠ i → Live sb E j → ∀ l, addr m' (E j) l = addr m (E j) l
  inode : ∀ y < sb.bitmapStart, m' y = m y
  data : ∀ y, InData sb y → bit sb m y = true → y ≠ e.indirect.toNat → m' y = m y
  bits : ∀ x, bitmapBlock sb x < dataStart sb → bit sb m x = true → bit sb m' x = true
  indirect : e'.indirect = e.indirect ∨
    (InData sb e'.indirect.toNat ∧ bit sb m e'.indirect.toNat = false)

theorem Grow.refl (h : Owned sb m (update E i e)) : Grow sb E i m e m e where
  owned := h
  same := ⟨rfl, rfl, rfl, rfl, rfl⟩
  other := fun _ _ _ _ => rfl
  inode := fun _ _ => rfl
  data := fun _ _ _ _ => rfl
  bits := fun _ _ h => h
  indirect := Or.inl rfl

theorem Grow.trans (h : Grow sb E i m e m' e') (h' : Grow sb E i m' e' m'' e'') :
    Grow sb E i m e m'' e'' where
  owned := h'.owned
  same := h.same.trans h'.same
  other := fun j hj hl l => (h'.other j hj hl l).trans (h.other j hj hl l)
  inode := fun y hy => (h'.inode y hy).trans (h.inode y hy)
  data := by
    intro y hy hm hne
    have hne' : y ≠ e'.indirect.toNat := by
      rcases h.indirect with he | ⟨-, hfree⟩
      · rwa [he]
      · rintro rfl
        rw [hm] at hfree
        cases hfree
    exact (h'.data y hy (h.bits y hy.2 hm) hne').trans (h.data y hy hm hne)
  bits := fun x hx hm => h'.bits x hx (h.bits x hx hm)
  indirect := by
    rcases h'.indirect with he | ⟨hdata, hfree⟩
    · rw [he]
      exact h.indirect
    · refine Or.inr ⟨hdata, ?_⟩
      by_contra hm
      rw [h.bits _ hdata.2 (by simpa using hm)] at hfree
      cases hfree

/-- **A block is taken and put into slot `k` of inode `i`.** Apart from the
block taken, at most the indirect block of `i` is written. -/
theorem Grow.assign {m₁ : Blocks} (hlay : Layout sb) (hi : Live sb (update E i e) i)
    (h : Owned sb m (update E i e)) (ht : Claimed sb m n m₁) (hsame : SameFile e e')
    (hm : m' = m₁ ∨ (e.indirect ≠ 0 ∧ e'.indirect = e.indirect ∧
      ∀ y, y ≠ e.indirect.toNat → m' y = m₁ y))
    (hind : e'.indirect = e.indirect ∨ e'.indirect.toNat = n)
    (hslot : addr m' e' k = n) (hself : ∀ l, l ≠ k → addr m' e' l = addr m₁ e l) :
    Grow sb E i m e m' e' := by
  have h₁ := h.claimed ht hlay
  have hstart := hlay.bitmapStart_lt
  -- the indirect block that is written is a data block, and nobody else's
  have hwritten : e.indirect ≠ 0 → InData sb e.indirect.toNat := fun he => by
    have := (h.indirect hi (by simpa using he)).1
    simpa using this
  have hm₁ : ∀ y, ¬ (e.indirect ≠ 0 ∧ y = e.indirect.toNat) → m' y = m₁ y := by
    intro y hy
    rcases hm with rfl | ⟨he, -, hframe⟩
    · rfl
    · exact hframe y fun heq => hy ⟨he, heq⟩
  have hbits : ∀ x, bitmapBlock sb x < dataStart sb → bit sb m' x = bit sb m₁ x := by
    intro x hx
    refine bit_congr (hm₁ _ ?_)
    rintro ⟨he, heq⟩
    have := (hwritten he).1
    omega
  have hother : ∀ j, j ≠ i → Live sb E j → ∀ l, addr m' (E j) l = addr m₁ (E j) l := by
    intro j hj hlive l
    refine addr_congr (fun hne => hm₁ _ ?_) l
    rintro ⟨he, heq⟩
    have hslots := h.unique j i indirectSlot indirectSlot ((live_update_of_ne hj).2 hlive) hi
    simp only [addr_indirectSlot, update_of_ne hj, update_self] at hslots
    exact hj (hslots (toNat_ne_zero.2 hne) heq).1
  constructor
  · refine h₁.assign (i := i) (k := k) hlay (fun j => (live_update_congr hsame.1).1) ht.bit_self
      ht.data (fun j l hj => ?_) hbits (by simpa using hslot) (by simpa using hself)
      (fun j hj hlive l => ?_)
    · rw [h.addr_frame hj fun _ hd hm => ht.frame_marked hd hm]
      exact h.fresh ht hlay hj l
    · simp only [update_of_ne hj]
      exact hother j hj ((live_update_of_ne hj).1 hlive) l
  · exact hsame
  · intro j hj hlive l
    rw [hother j hj hlive l]
    have := h.addr_frame ((live_update_of_ne hj).2 hlive)
      (fun _ hd hm => ht.frame_marked hd hm) l
    simpa only [update_of_ne hj] using this
  · intro y hy
    rw [hm₁ y, ht.frame y (by have := ht.data.1; omega) (Or.inl hy)]
    rintro ⟨he, heq⟩
    have := (hwritten he).1
    omega
  · intro y hd hmark hne
    rw [hm₁ y fun hy => hne hy.2]
    exact ht.frame_marked hd hmark
  · intro x hx hmark
    rw [hbits x hx]
    exact ht.bit_mono hx hmark
  · rcases hind with he | hn
    · exact Or.inl he
    · rw [hn]
      exact Or.inr ⟨ht.data, ht.free⟩

/-! ## The free blocks -/

/-- The number of blocks that `cache_alloc` may still hand out. -/
def freeCount (sb : SuperBlock) (m : Blocks) : ℕ :=
  ((Finset.range swapStart).filter fun n => bit sb m n = false).card

theorem bitmapBlock_lt_of_lt_swapStart (hlay : Layout sb) (hn : n < swapStart) :
    bitmapBlock sb n < dataStart sb := by
  rw [bitmapBlock, div_bitPerBlock_of_lt hn]
  exact hlay.bitmapStart_lt

theorem freeCount_congr (hlay : Layout sb)
    (h : ∀ x, bitmapBlock sb x < dataStart sb → bit sb m' x = bit sb m x) :
    freeCount sb m' = freeCount sb m := by
  refine congrArg Finset.card (Finset.filter_congr fun x hx => ?_)
  rw [h x (bitmapBlock_lt_of_lt_swapStart hlay (Finset.mem_range.1 hx))]

/-- Taking a block uses up one. -/
theorem Taken.freeCount (ht : Taken sb m n m') (hlay : Layout sb) :
    freeCount sb m = freeCount sb m' + 1 := by
  have hmem : n ∈ (Finset.range swapStart).filter fun n => bit sb m n = false :=
    Finset.mem_filter.2 ⟨Finset.mem_range.2 ht.lt, ht.free⟩
  have herase : ((Finset.range swapStart).filter fun x => bit sb m' x = false) =
      ((Finset.range swapStart).filter fun x => bit sb m x = false).erase n := by
    ext x
    simp only [Finset.mem_filter, Finset.mem_erase, Finset.mem_range]
    constructor
    · rintro ⟨hx, hbit⟩
      rw [ht.bits x (bitmapBlock_lt_of_lt_swapStart hlay hx)] at hbit
      simp only [Bool.or_eq_false_iff, decide_eq_false_iff_not] at hbit
      exact ⟨hbit.2, hx, hbit.1⟩
    · rintro ⟨hne, hx, hbit⟩
      refine ⟨hx, ?_⟩
      rw [ht.bits x (bitmapBlock_lt_of_lt_swapStart hlay hx)]
      simp [hbit, hne]
  unfold Fs.freeCount
  rw [herase]
  exact (Finset.card_erase_add_one hmem).symm

theorem exists_free_of_freeCount (h : 0 < freeCount sb m) :
    ∃ n < swapStart, bit sb m n = false := by
  obtain ⟨n, hn⟩ := Finset.card_pos.1 h
  obtain ⟨hlt, hbit⟩ := Finset.mem_filter.1 hn
  exact ⟨n, Finset.mem_range.1 hlt, hbit⟩

/-! ## `inode_map` -/

/-- Block `n` is a free block of `m` and all zeros in `m'`. -/
structure Fresh (sb : SuperBlock) (m m' : Blocks) (n : ℕ) : Prop where
  free : bit sb m n = false
  data : InData sb n
  zero : m' n = Bytes.zero

/-- A mapped block is looked up. -/
theorem inodeMap_of_mapped (hk : k < inodeMaxBlocks) (h : addr m e k ≠ 0) :
    inodeMap sb m e k = some (addr m e k, m, e) := by
  unfold inodeMap
  by_cases hd : k < inodeNumDirect
  · rw [addr_direct hd] at h ⊢
    rw [dif_pos hd, if_neg (toNat_ne_zero.1 h)]
  · have hind : e.indirect ≠ 0 := fun he =>
      h (addr_of_indirect_eq_zero (not_lt.1 hd) hk he)
    rw [addr_indirect (not_lt.1 hd) hk hind] at h ⊢
    rw [dif_neg hd, if_pos hk, ensureIndirect, if_neg hind, Option.bind_some, mapIndirect,
      if_neg h]

theorem Claimed.toNat_ofNat (ht : Claimed sb m n m') : (UInt32.ofNat n).toNat = n := by
  rw [UInt32.toNat_ofNat']
  exact Nat.mod_eq_of_lt ht.lt

section

variable (hlay : Layout sb) (hi : Live sb (update E i e) i) (h : Owned sb m (update E i e))

include hlay hi h

/-- A claimed block goes to a direct slot. -/
theorem grow_direct (hk : k < inodeNumDirect) (ht : Claimed sb m n m') :
    Grow sb E i m e m'
      { e with addrs := update e.addrs ⟨k, hk⟩ (UInt32.ofNat n) } ∧
      ∀ l, addr m' { e with addrs := update e.addrs ⟨k, hk⟩ (UInt32.ofNat n) } l =
        if l = k then n else addr m e l := by
  have haddr : ∀ l, addr m' { e with addrs := update e.addrs ⟨k, hk⟩ (UInt32.ofNat n) } l =
      if l = k then n else addr m' e l := by
    intro l
    by_cases hlk : l = k
    · subst hlk
      rw [addr_direct hk, if_pos rfl]
      simp only [update_self]
      exact ht.toNat_ofNat
    · rw [if_neg hlk]
      unfold addr
      split
      · rename_i hl
        have hne : (⟨l, hl⟩ : Fin inodeNumDirect) ≠ ⟨k, hk⟩ := fun he => hlk (Fin.mk.inj he)
        simp only [update_of_ne hne]
      · rfl
  refine ⟨Grow.assign hlay hi h ht ⟨rfl, rfl, rfl, rfl, rfl⟩ (Or.inl rfl) (Or.inl rfl)
    (by rw [haddr, if_pos rfl]) (fun l hl => by rw [haddr, if_neg hl]), fun l => ?_⟩
  rw [haddr]
  have := h.addr_frame hi (fun _ hd hm => ht.frame_marked hd hm) l
  rw [update_self] at this
  rw [this]

/-- A claimed block becomes the indirect block, which has no addresses
yet. -/
theorem grow_newIndirect (hz : e.indirect = 0) (ht : Claimed sb m n m') :
    Grow sb E i m e m' { e with indirect := UInt32.ofNat n } ∧ UInt32.ofNat n ≠ 0 ∧
      ∀ l < inodeMaxBlocks, addr m' { e with indirect := UInt32.ofNat n } l = addr m e l := by
  have hn := ht.toNat_ofNat
  have hne : UInt32.ofNat n ≠ 0 := toNat_ne_zero.1 (by rw [hn]; exact (ht.data.pos hlay).ne')
  have haddr : ∀ l < inodeMaxBlocks,
      addr m' { e with indirect := UInt32.ofNat n } l = addr m' e l := by
    intro l hl
    by_cases hd : l < inodeNumDirect
    · rw [addr_direct hd, addr_direct hd]
    · rw [addr_of_indirect_eq_zero (not_lt.1 hd) hl hz, addr_indirect (not_lt.1 hd) hl hne]
      simp only [hn, ht.zero, addrAt_zero]
  refine ⟨Grow.assign hlay hi h ht ⟨rfl, rfl, rfl, rfl, rfl⟩ (Or.inl rfl) (Or.inr hn)
    (k := indirectSlot) (by rw [addr_indirectSlot]; exact hn) (fun l hl => ?_), hne,
    fun l hl => ?_⟩
  · rcases Nat.lt_or_ge l inodeMaxBlocks with hlt | hge
    · exact haddr l hlt
    · rw [addr_of_ge (lt_of_le_of_ne hge (Ne.symm hl)),
        addr_of_ge (lt_of_le_of_ne hge (Ne.symm hl))]
  · rw [haddr l hl]
    exact addr_congr (fun hne => absurd hz hne) l

/-- The indirect block of inode `i` is there after `ensureIndirect`; a new
one has no addresses. -/
theorem grow_ensureIndirect (hens : ensureIndirect sb m e = some (m', e')) :
    Grow sb E i m e m' e' ∧ e'.indirect ≠ 0 ∧
      (∀ l < inodeMaxBlocks, addr m' e' l = addr m e l) ∧
      freeCount sb m = freeCount sb m' + if e.indirect = 0 then 1 else 0 := by
  unfold ensureIndirect at hens
  split_ifs at hens with hz
  · obtain ⟨⟨n, m₁⟩, halloc, heq⟩ := Option.map_eq_some_iff.1 hens
    obtain ⟨rfl, rfl⟩ := Prod.mk.inj heq
    have ht := (taken_of_cacheAlloc hlay h.reserved halloc).1
    obtain ⟨hgrow, hne, haddr⟩ := grow_newIndirect hlay hi h hz ht.claimed
    exact ⟨hgrow, hne, haddr, by rw [if_pos hz, ht.freeCount hlay]⟩
  · obtain ⟨rfl, rfl⟩ := Prod.mk.inj (Option.some.inj hens)
    exact ⟨Grow.refl h, hz, fun _ _ => rfl, by rw [if_neg hz, Nat.add_zero]⟩

omit hlay in
/-- The indirect block of a live inode is a data block. -/
theorem inData_indirect (hind : e.indirect ≠ 0) :
    InData sb e.indirect.toNat ∧ bit sb m e.indirect.toNat = true := by
  have := h.indirect hi (by simpa using hind)
  simpa using this

omit hlay hi h in
/-- `m` with address `k` of the file, which its indirect block lists, set
to `n`. -/
def setIndirect (m : Blocks) (e : InodeEntry) (k n : ℕ) : Blocks :=
  update m e.indirect.toNat
    ((m e.indirect.toNat).writeLE (4 * (k - inodeNumDirect)) 4 n)

/-- A claimed block goes to a slot of the indirect block. -/
theorem grow_indirect {m₁ : Blocks} (hd : inodeNumDirect ≤ k) (hk : k < inodeMaxBlocks)
    (hind : e.indirect ≠ 0) (ht : Claimed sb m n m₁) :
    Grow sb E i m e (setIndirect m₁ e k n) e ∧ Fresh sb m (setIndirect m₁ e k n) n ∧
      ∀ l, addr (setIndirect m₁ e k n) e l = if l = k then n else addr m e l := by
  have hlt : k - inodeNumDirect < inodeNumIndirect := by
    simp only [inodeMaxBlocks] at hk
    omega
  have hn : n % 2 ^ 32 = n := Nat.mod_eq_of_lt ht.lt
  have hne : n ≠ e.indirect.toNat := by
    rintro rfl
    have := (inData_indirect hi h hind).2
    rw [ht.free] at this
    cases this
  have haddr : ∀ l, addr (setIndirect m₁ e k n) e l = if l = k then n else addr m₁ e l := by
    intro l
    by_cases hl : inodeNumDirect ≤ l ∧ l < inodeMaxBlocks
    · rw [addr_indirect hl.1 hl.2 hind, addr_indirect hl.1 hl.2 hind, setIndirect,
        update_self, addrAt_writeLE hlt, hn]
      refine if_congr ?_ rfl rfl
      omega
    · rw [if_neg (by omega)]
      unfold addr
      split
      · rfl
      · rename_i hnd
        have hge : ¬ l < inodeMaxBlocks := fun hlt => hl ⟨not_lt.1 hnd, hlt⟩
        rw [if_neg hge, if_neg hge]
  refine ⟨Grow.assign hlay hi h ht ⟨rfl, rfl, rfl, rfl, rfl⟩
    (Or.inr ⟨hind, rfl, fun y hy => update_of_ne hy _ _⟩) (Or.inl rfl)
    (by rw [haddr, if_pos rfl]) (fun l hl => by rw [haddr, if_neg hl]),
    ⟨ht.free, ht.data, ?_⟩, fun l => ?_⟩
  · rw [setIndirect, update_of_ne hne]
    exact ht.zero
  · rw [haddr]
    have := h.addr_frame hi (fun _ hd hm => ht.frame_marked hd hm) l
    rw [update_self] at this
    rw [this]

/-- An address that the indirect block does not hold yet is allocated. -/
theorem grow_mapIndirect (hd : inodeNumDirect ≤ k) (hk : k < inodeMaxBlocks)
    (hind : e.indirect ≠ 0) (hz : addr m e k = 0)
    (hmap : mapIndirect sb m e (k - inodeNumDirect) = some (n, m', e')) :
    Grow sb E i m e m' e' ∧ e' = e ∧ Fresh sb m m' n ∧
      (∀ l, addr m' e' l = if l = k then n else addr m e l) ∧
      freeCount sb m = freeCount sb m' + 1 := by
  rw [addr_indirect hd hk hind] at hz
  rw [mapIndirect, if_pos hz] at hmap
  obtain ⟨⟨x, m₁⟩, halloc, heq⟩ := Option.map_eq_some_iff.1 hmap
  have ht := (taken_of_cacheAlloc hlay h.reserved halloc).1
  have hlt : k - inodeNumDirect < inodeNumIndirect := by
    simp only [inodeMaxBlocks] at hk
    omega
  have hx : x % 2 ^ 32 = x := Nat.mod_eq_of_lt ht.claimed.lt
  simp only [update_self, addrAt_writeLE hlt, if_true, hx, Prod.mk.injEq] at heq
  obtain ⟨rfl, rfl, rfl⟩ := heq
  obtain ⟨hgrow, hfresh, haddr⟩ := grow_indirect hlay hi h hd hk hind ht.claimed
  refine ⟨hgrow, rfl, hfresh, haddr, ?_⟩
  rw [ht.freeCount hlay, freeCount_congr hlay fun x hx => ?_]
  refine bit_congr (update_of_ne ?_ _ _).symm
  have := (inData_indirect hi h hind).1.1
  omega

/-- The number of blocks that `inode_map` allocates for a block `k` that is
not mapped. -/
def mapCost (e : InodeEntry) (k : ℕ) : ℕ :=
  if inodeNumDirect ≤ k ∧ e.indirect = 0 then 2 else 1

/-- **A block that is not mapped is allocated**, and it is the only slot of
the file that changes. -/
theorem grow_inodeMap (hz : addr m e k = 0)
    (hmap : inodeMap sb m e k = some (n, m', e')) :
    Grow sb E i m e m' e' ∧ Fresh sb m m' n ∧
      (e'.indirect ≠ 0 ↔ e.indirect ≠ 0 ∨ inodeNumDirect ≤ k) ∧
      (∀ l < inodeMaxBlocks, addr m' e' l = if l = k then n else addr m e l) ∧
      freeCount sb m = freeCount sb m' + mapCost e k := by
  unfold inodeMap at hmap
  split at hmap
  · rename_i hk
    rw [addr_direct hk] at hz
    rw [if_pos (by_contra fun hne => toNat_ne_zero.2 hne hz)] at hmap
    obtain ⟨⟨x, m₁⟩, halloc, heq⟩ := Option.map_eq_some_iff.1 hmap
    have ht := (taken_of_cacheAlloc hlay h.reserved halloc).1
    simp only [ht.claimed.toNat_ofNat, Prod.mk.injEq] at heq
    obtain ⟨rfl, rfl, rfl⟩ := heq
    obtain ⟨hgrow, haddr⟩ := grow_direct hlay hi h hk ht.claimed
    refine ⟨hgrow, ⟨ht.free, ht.data, ht.zero⟩, ?_, fun l _ => haddr l, ?_⟩
    · simp only [not_le.2 hk, or_false]
    · rw [mapCost, if_neg fun hc => absurd hc.1 (not_le.2 hk)]
      exact ht.freeCount hlay
  · rename_i hd
    have hd := not_lt.1 hd
    split_ifs at hmap with hk
    obtain ⟨⟨m₁, e₁⟩, hens, hmap⟩ := Option.bind_eq_some_iff.1 hmap
    obtain ⟨hgrow₁, hind, haddr₁, hcount₁⟩ := grow_ensureIndirect hlay hi h hens
    have hi₁ : Live sb (update E i e₁) i := (live_update_congr hgrow₁.same.1).2 hi
    obtain ⟨hgrow, rfl, hfresh, haddr, hcount⟩ := grow_mapIndirect hlay hi₁ hgrow₁.owned hd hk
      hind ((haddr₁ k hk).trans hz) hmap
    refine ⟨hgrow₁.trans hgrow, ⟨?_, hfresh.data, hfresh.zero⟩, ?_, fun l hl => ?_, ?_⟩
    · by_contra hm
      have := hgrow₁.bits n hfresh.data.2 (by simpa using hm)
      rw [hfresh.free] at this
      cases this
    · simp only [ne_eq, hind, not_false_eq_true, hd, or_true]
    · rw [haddr l, haddr₁ l hl]
    · rw [hcount₁, hcount, mapCost]
      by_cases hz : e.indirect = 0
      · rw [if_pos hz, if_pos ⟨hd, hz⟩]
      · rw [if_neg hz, if_neg fun hc => hz hc.2]

/-- `inode_map` succeeds while there are blocks for it. -/
theorem inodeMap_isSome (hk : k < inodeMaxBlocks)
    (hfree : mapCost e k ≤ freeCount sb m) : ∃ r, inodeMap sb m e k = some r := by
  have hpos : 0 < freeCount sb m := by
    refine lt_of_lt_of_le ?_ hfree
    unfold mapCost
    split <;> decide
  have halloc : ∀ {m : Blocks}, 0 < freeCount sb m → ∃ r, cacheAlloc sb [] m = some r :=
    fun hpos => Option.isSome_iff_exists.1
      (cacheAlloc_isSome hlay (exists_free_of_freeCount hpos) (by simp))
  unfold inodeMap
  by_cases hd : k < inodeNumDirect
  · rw [dif_pos hd]
    obtain ⟨r, hr⟩ := halloc hpos
    rw [hr]
    split <;> exact ⟨_, rfl⟩
  · have hd' := not_lt.1 hd
    rw [dif_neg hd, if_pos hk]
    have hens : ∃ r, ensureIndirect sb m e = some r := by
      obtain ⟨r, hr⟩ := halloc hpos
      unfold ensureIndirect
      rw [hr]
      split <;> exact ⟨_, rfl⟩
    obtain ⟨⟨m₁, e₁⟩, hens⟩ := hens
    obtain ⟨hgrow, hind, haddr, hcount⟩ := grow_ensureIndirect hlay hi h hens
    have hi₁ : Live sb (update E i e₁) i := (live_update_congr hgrow.same.1).2 hi
    have hheld := hgrow.owned.indirect hi₁ (by simpa using hind)
    simp only [update_self] at hheld
    have hpos₁ : 0 < freeCount sb m₁ := by
      unfold mapCost at hfree
      by_cases hz : e.indirect = 0
      · rw [if_pos ⟨hd', hz⟩] at hfree
        rw [if_pos hz] at hcount
        omega
      · rw [if_neg hz] at hcount
        omega
    have hnext : (cacheAlloc sb [e₁.indirect.toNat] m₁).isSome :=
      cacheAlloc_isSome hlay (exists_free_of_freeCount hpos₁)
        (by simpa using ⟨hheld.1.1, hheld.2⟩)
    obtain ⟨r, hr⟩ := Option.isSome_iff_exists.1 hnext
    rw [hens, Option.bind_some, mapIndirect, hr]
    split <;> exact ⟨_, rfl⟩

end

end OsKernel.Fs
