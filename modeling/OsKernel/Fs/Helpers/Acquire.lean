import OsKernel.Fs.BlockOwnership

/-!
# Helpers — the blocks that a file acquires and gives back

`Acquired` says of a part of a write that the bits it sets are those of
blocks the file holds afterwards, and that each block it adds to the file
was free before. Parts compose. In the other direction `inode_clear`
clears the bits of the blocks of the file and no others
(`inodeClear_bits`).
-/

namespace OsKernel.Fs

open Function

open Cache

variable {sb : SuperBlock} {m m' m'' m₁ : Blocks} {E : ℕ → InodeEntry} {e e' e'' : InodeEntry}
variable {i k l n c B o x stop : ℕ} {src : List UInt8} {ino ino' : Inode}

/-- The inode with the entry `e` holds block `x`. -/
def HoldsBlock (m : Blocks) (e : InodeEntry) (x : ℕ) : Prop := ∃ l, addr m e l ≠ 0 ∧ addr m e l = x

/-- **What a file acquires**: the file with the entry `e` on `m` keeps its
blocks, and the ones it gets were free. -/
structure Acquired (sb : SuperBlock) (m : Blocks) (e : InodeEntry) (m' : Blocks)
    (e' : InodeEntry) : Prop where
  bits : ∀ x, bitmapBlock sb x < dataStart sb →
    (bit sb m' x = true ↔ bit sb m x = true ∨ HoldsBlock m' e' x ∧ ¬ HoldsBlock m e x)
  free : ∀ x, HoldsBlock m' e' x → ¬ HoldsBlock m e x → bit sb m x = false ∧ InData sb x
  kept : ∀ x, HoldsBlock m e x → HoldsBlock m' e' x

theorem Acquired.refl (sb : SuperBlock) (m : Blocks) (e : InodeEntry) : Acquired sb m e m e where
  bits := fun _ _ => by tauto
  free := fun _ h h' => absurd h h'
  kept := fun _ h => h

theorem Acquired.trans (h : Acquired sb m e m' e') (h' : Acquired sb m' e' m'' e'') :
    Acquired sb m e m'' e'' where
  bits := by
    intro x hx
    rw [h'.bits x hx, h.bits x hx]
    have := h.kept x
    have := h'.kept x
    tauto
  free := by
    intro x hx hold
    by_cases hmid : HoldsBlock m' e' x
    · exact h.free x hmid hold
    · obtain ⟨hfree, hdata⟩ := h'.free x hx hmid
      refine ⟨?_, hdata⟩
      by_contra hmark
      rw [(h.bits x hdata.2).2 (Or.inl (by simpa using hmark))] at hfree
      cases hfree
  kept := fun x hx => h'.kept x (h.kept x hx)

/-- Writes outside of the bitmap that leave the addresses alone acquire
nothing. -/
theorem Acquired.of_congr (hbits : ∀ x, bitmapBlock sb x < dataStart sb → bit sb m' x = bit sb m x)
    (haddr : ∀ l, addr m' e' l = addr m e l) : Acquired sb m e m' e' := by
  have hholds : ∀ x, HoldsBlock m' e' x ↔ HoldsBlock m e x := fun x =>
    exists_congr fun l => by rw [haddr l]
  constructor
  · intro x hx
    rw [hbits x hx, hholds x]
    tauto
  · intro x hx hold
    exact absurd ((hholds x).1 hx) hold
  · exact fun x hx => (hholds x).2 hx

/-- **A block is taken and put into slot `k`**, which was not set. -/
theorem Acquired.assign (hlay : Layout sb) (ht : Taken sb m n m₁)
    (hbits : ∀ x, bitmapBlock sb x < dataStart sb → bit sb m' x = bit sb m₁ x)
    (hold : ∀ l, addr m e l ≠ n) (hz : addr m e k = 0)
    (haddr : ∀ l, addr m' e' l = if l = k then n else addr m e l) : Acquired sb m e m' e' := by
  have hholds : ∀ x, HoldsBlock m' e' x ↔ x = n ∨ HoldsBlock m e x := by
    intro x
    constructor
    · rintro ⟨l, hne, rfl⟩
      rw [haddr l] at hne ⊢
      split_ifs with hlk
      · exact Or.inl rfl
      · rw [if_neg hlk] at hne
        exact Or.inr ⟨l, hne, rfl⟩
    · rintro (rfl | ⟨l, hne, rfl⟩)
      · exact ⟨k, by rw [haddr, if_pos rfl]; exact (ht.data.pos hlay).ne', by rw [haddr, if_pos rfl]⟩
      · have hlk : l ≠ k := by
          rintro rfl
          exact hne hz
        exact ⟨l, by rwa [haddr, if_neg hlk], by rw [haddr, if_neg hlk]⟩
  have hnew : ¬ HoldsBlock m e n := fun ⟨l, _, heq⟩ => hold l heq
  constructor
  · intro x hx
    rw [hbits x hx, ht.bits x hx, hholds x]
    by_cases hxn : x = n
    · subst hxn
      simp [hnew]
    · simp only [hxn, decide_false, Bool.or_false, false_or]
      tauto
  · intro x hx hno
    rcases (hholds x).1 hx with rfl | hx
    · exact ⟨ht.free, ht.data⟩
    · exact absurd hx hno
  · exact fun x hx => (hholds x).2 (Or.inr hx)

/-! ## `inode_map` -/

/-- A file holds no block that is free. -/
theorem addr_ne_of_free (hi : Live sb (update E i e) i)
    (h : Owned sb m (update E i e)) (ht : Taken sb m n m₁) (hlay : Layout sb) (l : ℕ) :
    addr m e l ≠ n := by
  rintro rfl
  have hmark := h.marked i l hi
  rw [update_self, ht.free] at hmark
  exact absurd (hmark (ht.data.pos hlay).ne') (by decide)

section

variable (hlay : Layout sb) (hi : Live sb (update E i e) i) (h : Owned sb m (update E i e))

include hlay hi h

theorem acquired_ensureIndirect (hens : ensureIndirect sb m e = some (m', e')) :
    Acquired sb m e m' e' := by
  unfold ensureIndirect at hens
  split_ifs at hens with hz
  · obtain ⟨⟨n, m₁⟩, halloc, heq⟩ := Option.map_eq_some_iff.1 hens
    obtain ⟨rfl, rfl⟩ := Prod.mk.inj heq
    have ht := (taken_of_cacheAlloc hlay h.reserved halloc).1
    obtain ⟨-, -, haddr⟩ := grow_newIndirect hlay hi h hz ht.claimed
    refine Acquired.assign (k := indirectSlot) hlay ht (fun _ _ => rfl)
      (addr_ne_of_free hi h ht hlay) (by rw [addr_indirectSlot, hz]; rfl) fun l => ?_
    rcases Nat.lt_trichotomy l inodeMaxBlocks with hlt | rfl | hgt
    · rw [haddr l hlt, if_neg hlt.ne]
    · rw [addr_indirectSlot, if_pos rfl]
      exact ht.claimed.toNat_ofNat
    · rw [addr_of_ge hgt, addr_of_ge hgt, if_neg hgt.ne']
  · obtain ⟨rfl, rfl⟩ := pair_inj hens
    exact Acquired.refl sb m e

theorem acquired_mapIndirect (hd : inodeNumDirect ≤ k) (hk : k < inodeMaxBlocks)
    (hind : e.indirect ≠ 0) (hz : addr m e k = 0)
    (hmap : mapIndirect sb m e (k - inodeNumDirect) = some (n, m', e')) :
    Acquired sb m e m' e' := by
  obtain ⟨-, -, -, haddr, -⟩ := grow_mapIndirect hlay hi h hd hk hind hz hmap
  rw [addr_indirect hd hk hind] at hz
  rw [mapIndirect, if_pos hz] at hmap
  obtain ⟨⟨x, m₁⟩, halloc, heq⟩ := Option.map_eq_some_iff.1 hmap
  have ht := (taken_of_cacheAlloc hlay h.reserved halloc).1
  simp only [Prod.mk.injEq] at heq
  obtain ⟨hn, rfl, rfl⟩ := heq
  have hlt : k - inodeNumDirect < inodeNumIndirect := by
    simp only [inodeMaxBlocks] at hk
    omega
  rw [update_self, addrAt_writeLE hlt, if_pos rfl,
    Nat.mod_eq_of_lt ht.claimed.lt] at hn
  subst hn
  refine Acquired.assign hlay ht (fun y hy => ?_) (addr_ne_of_free hi h ht hlay)
    (by rw [addr_indirect hd hk hind, hz]) haddr
  refine bit_congr (update_of_ne ?_ _ _)
  have := (inData_indirect hi h hind).1.1
  omega

/-- **`inode_map` acquires what it allocates.** -/
theorem acquired_inodeMap (hmap : inodeMap sb m e k = some (n, m', e')) :
    Acquired sb m e m' e' := by
  have hk : k < inodeMaxBlocks := by
    by_contra hk
    have hd : ¬ k < inodeNumDirect := fun hd => hk (Nat.lt_add_right _ hd)
    rw [inodeMap, dif_neg hd, if_neg hk] at hmap
    cases hmap
  by_cases hz : addr m e k = 0
  · by_cases hd : k < inodeNumDirect
    · have hz' := hz
      rw [addr_direct hd] at hz'
      rw [inodeMap, dif_pos hd, if_pos (by_contra fun hne => toNat_ne_zero.2 hne hz')] at hmap
      obtain ⟨⟨x, m₁⟩, halloc, heq⟩ := Option.map_eq_some_iff.1 hmap
      have ht := (taken_of_cacheAlloc hlay h.reserved halloc).1
      simp only [Prod.mk.injEq] at heq
      obtain ⟨-, rfl, rfl⟩ := heq
      exact Acquired.assign hlay ht (fun _ _ => rfl) (addr_ne_of_free hi h ht hlay) hz
        (grow_direct hlay hi h hd ht.claimed).2
    · rw [inodeMap, dif_neg hd, if_pos hk] at hmap
      obtain ⟨⟨m₁, e₁⟩, hens, hmap⟩ := Option.bind_eq_some_iff.1 hmap
      obtain ⟨hgrow, hind, haddr, -⟩ := grow_ensureIndirect hlay hi h hens
      have hi₁ : Live sb (update E i e₁) i := (live_update_congr hgrow.same.1).2 hi
      exact (acquired_ensureIndirect hlay hi h hens).trans
        (acquired_mapIndirect hlay hi₁ hgrow.owned (not_lt.1 hd) hk hind ((haddr k hk).trans hz) hmap)
  · rw [inodeMap_of_mapped hk hz] at hmap
    obtain ⟨rfl, rfl, rfl⟩ := by simpa using hmap
    exact Acquired.refl sb m e

end

/-! ## `inode_write` -/

/-- Writing a data block of the file acquires nothing. -/
theorem acquired_update (h : FileAt sb E i m e B) (hk : k < B) (v : BlockData) :
    Acquired sb m e (update m (addr m e k) v) e := by
  refine Acquired.of_congr (fun x hx => bit_congr (update_of_ne ?_ _ _)) fun l => ?_
  · have := (h.block hk).1.1
    omega
  · have hne := h.mapped_ne_zero hk
    have := h.owned.addr_update h.live h.live (hk.trans_le h.shape.le_max)
      (by rwa [update_self]) v l
    simpa only [update_self] using this

/-- **The write loop acquires what it allocates.** -/
theorem acquired_writeLoop (hlay : Layout sb) (hmax : stop ≤ inodeMaxBytes) :
    ∀ {k l o c : ℕ} {src : List UInt8} {m : Blocks} {e : InodeEntry} {B : ℕ},
      LoopAt k l o stop → FileAt sb E i m e B → o ≤ B * blockSize →
      writeLoop sb k l o stop src m e = some (c, m', e') → Acquired sb m e m' e' := by
  intro k
  -- the rounds are those of `writeLoop_spec`
  induction k with
  | zero =>
    intro l o c src m e B _ _ _ hw
    obtain ⟨rfl, rfl, rfl⟩ := by simpa [writeLoop] using hw
    exact Acquired.refl sb m e
  | succ k ih =>
    intro l o c src m e B hloop hfile ho hw
    rw [writeLoop] at hw
    obtain ⟨⟨b, m₁, e₁⟩, hmap, hw⟩ := Option.bind_eq_some_iff.1 hw
    obtain ⟨⟨c', m₂, e₂⟩, hrest, hw⟩ := Option.bind_eq_some_iff.1 hw
    obtain ⟨rfl, rfl, rfl⟩ := by simpa using hw
    set n := min (stop - o) ((l + 1) * blockSize - o) with hn
    obtain ⟨hl, hblock, hstop, hnext, hend⟩ := hloop.round hn
    obtain ⟨hlB, hlmax⟩ := hloop.block_le hmax ho
    have hspec := inodeMap_spec hlay hfile hlB hlmax hmap
    have hfirst : Written sb E i m e B o n src _ e₁ _ :=
      Written.block hlay hfile hspec hl hlB hblock
    have hwrite := acquired_update hspec.file (show l < max B (l + 1) by omega)
      ((m₁ b).splice (o % blockSize) n fun t => src.getD t 0)
    rw [hspec.block] at hwrite
    exact (acquired_inodeMap hlay hfile.live hfile.owned hmap).trans
      (hwrite.trans (ih hnext hfirst.file hfirst.reach hrest))

/-- **A write acquires what it allocates.** Its inode keeps its count and
its links, and the other entries on disk stay as they are. -/
theorem acquired_inodeWrite (hlay : Layout sb)
    (h : FileAt sb E i m ino.entry (blocksFor ino.entry.numBytes.toNat)) (hvalid : ino.valid = true)
    (hsrc : 0 < src.length) (hlen : src.length < 2 ^ 64)
    (hw : inodeWrite sb m i ino o src = some (c, m', ino')) :
    Acquired sb m ino.entry m' ino'.entry ∧ ino'.rc = ino.rc ∧
      ino'.entry.numLinks = ino.entry.numLinks ∧
      ∀ j, j ≠ i → j < sb.numInodes → diskEntry sb m' j = diskEntry sb m j := by
  by_cases hdev : ino.entry.type = inodeDevice
  · rcases inodeWrite_cases hlay h hvalid hsrc hlen hw with ⟨-, rfl, rfl⟩ | ⟨hne, -⟩
    · exact ⟨Acquired.refl _ _ _, rfl, rfl, fun _ _ _ => rfl⟩
    · exact absurd hdev hne
  · obtain ⟨ho, hmax, m₁, e₁, hloop, hend⟩ := inodeWrite_loop hdev hvalid hsrc hlen hw
    have hstart := LoopAt.start (show o < o + src.length by omega)
    have hreach := ho.trans (le_blocksFor ino.entry.numBytes.toNat)
    have hacq := acquired_writeLoop hlay hmax hstart h hreach hloop
    obtain ⟨-, hwritten⟩ := writeLoop_spec hlay hmax hstart h hreach hloop
    have hfile := hwritten.file
    split at hend
    · obtain ⟨rfl, rfl⟩ := hend
      refine ⟨hacq.trans (Acquired.of_congr (fun x _ => ?_) fun l => ?_), rfl,
        hwritten.same.2.2.2.1, fun j hji hj => ?_⟩
      · exact bit_putEntry (hfile.toBlockNo_lt hlay) _ x
      · have := addr_putEntry hlay hfile.owned (hfile.toBlockNo_lt hlay) hfile.live
          { e₁ with numBytes := UInt32.ofNat (o + src.length) } l
        rw [update_self] at this
        exact (addr_of_fields rfl rfl l).trans this
      · rw [diskEntry_putEntry_of_ne hji]
        exact diskEntry_congr hlay hwritten.inode hj
    · obtain ⟨rfl, rfl⟩ := hend
      exact ⟨hacq, rfl, hwritten.same.2.2.2.1, fun j _ hj =>
        diskEntry_congr hlay hwritten.inode hj⟩

/-! ## `inode_clear` -/

/-- `cache_free` waits for no block that the caller holds. -/
theorem freeAll_isSome {held : List ℕ} : ∀ {ns : List ℕ} {m : Blocks},
    (∀ n ∈ ns, n ≠ 0 → bitmapBlock sb n ∉ held) → ∃ m', freeAll sb held m ns = some m' := by
  intro ns
  induction ns with
  | nil => exact fun _ => ⟨_, rfl⟩
  | cons n ns ih =>
    intro m hns
    have hrest : ∀ k ∈ ns, k ≠ 0 → bitmapBlock sb k ∉ held := fun k hk =>
      hns k (List.mem_cons_of_mem _ hk)
    rw [freeAll]
    split_ifs with hn
    · rw [cacheFree, if_neg (hns n List.mem_cons_self hn), Option.bind_some]
      exact ih hrest
    · exact ih hrest

/-- The blocks that `inode_clear` frees, in its order. -/
def freedBlocks (m : Blocks) (e : InodeEntry) : List ℕ :=
  (List.ofFn fun k => (e.addrs k).toNat) ++
    if e.indirect ≠ 0 then (List.range inodeNumIndirect).map (addrAt (m e.indirect.toNat)) ++
      [e.indirect.toNat] else []

/-- They are the blocks that the inode holds. -/
theorem mem_freedBlocks_iff : x ∈ freedBlocks m e ∧ x ≠ 0 ↔ HoldsBlock m e x := by
  constructor
  · rintro ⟨hx, hne⟩
    rcases List.mem_append.1 hx with hx | hx
    · obtain ⟨k, rfl⟩ := List.mem_ofFn.1 hx
      rw [← addr_direct (m := m) k.isLt] at hne
      exact ⟨k, hne, addr_direct k.isLt⟩
    · split at hx
      · rename_i hind
        rcases List.mem_append.1 hx with hx | hx
        · obtain ⟨j, hj, rfl⟩ := List.mem_map.1 hx
          have haddr : addr m e (inodeNumDirect + j) = addrAt (m e.indirect.toNat) j := by
            rw [addr_indirect (Nat.le_add_right _ _)
              (Nat.add_lt_add_left (List.mem_range.1 hj) _) hind, Nat.add_sub_cancel_left]
          exact ⟨inodeNumDirect + j, by rwa [haddr], haddr⟩
        · rw [List.mem_singleton.1 hx] at hne ⊢
          exact ⟨indirectSlot, by rwa [addr_indirectSlot], addr_indirectSlot⟩
      · cases hx
  · rintro ⟨l, hne, rfl⟩
    refine ⟨?_, hne⟩
    by_cases hd : l < inodeNumDirect
    · rw [addr_direct hd]
      exact List.mem_append_left _ (List.mem_ofFn.2 ⟨⟨l, hd⟩, rfl⟩)
    · have hd := not_lt.1 hd
      refine List.mem_append_right _ ?_
      rcases Nat.lt_trichotomy l inodeMaxBlocks with hlt | rfl | hgt
      · have hind : e.indirect ≠ 0 := fun hz => hne (addr_of_indirect_eq_zero hd hlt hz)
        rw [if_pos hind, addr_indirect hd hlt hind]
        refine List.mem_append_left _ (List.mem_map.2 ⟨_, List.mem_range.2 ?_, rfl⟩)
        simp only [inodeMaxBlocks] at hlt
        omega
      · rw [addr_indirectSlot] at hne ⊢
        rw [if_pos (toNat_ne_zero.1 hne)]
        exact List.mem_append_right _ (List.mem_singleton.2 rfl)
      · exact absurd (addr_of_ge hgt) hne

/-- The blocks of the bitmap that are written to free the blocks of a file
are no data blocks. -/
theorem FileAt.bitmapBlock_lt (h : FileAt sb E i m e B) (hx : HoldsBlock m e x) :
    bitmapBlock sb x < dataStart sb := by
  obtain ⟨l, hne, rfl⟩ := hx
  have := h.owned.data i l h.live
  rw [update_self] at this
  exact (this hne).2

/-- Freeing one block is freeing a list of one. -/
theorem cacheFree_eq_freeAll (held : List ℕ) (m : Blocks) (hn : n ≠ 0) :
    cacheFree sb held m n = freeAll sb held m [n] := by
  rw [freeAll, if_pos hn]
  cases cacheFree sb held m n <;> rfl

/-- The blocks that `inode_clear` frees one after another. -/
theorem freeIndirect_bits (h : FileAt sb E i m e B)
    (hframe : ∀ y, dataStart sb ≤ y → m₁ y = m y) :
    ∃ m₂, freeIndirect sb m₁ e = some m₂ ∧ ∀ x, bit sb m₂ x =
      (bit sb m₁ x && !decide (x ∈ (if e.indirect ≠ 0 then
        (List.range inodeNumIndirect).map (addrAt (m e.indirect.toNat)) ++ [e.indirect.toNat]
        else []) ∧ x ≠ 0)) := by
  by_cases hind : e.indirect = 0
  · refine ⟨m₁, by rw [freeIndirect, if_neg (not_not.2 hind)], fun x => ?_⟩
    simp [hind]
  · have hdata := (inData_indirect h.live h.owned hind).1.1
    set b := e.indirect.toNat
    set ns := (List.range inodeNumIndirect).map (addrAt (m b))
    have hheld : ∀ n ∈ ns, n ≠ 0 → bitmapBlock sb n ∉ [b] := by
      intro n hn hz hmem
      have hholds : HoldsBlock m e n := by
        refine mem_freedBlocks_iff.1 ⟨List.mem_append_right _ ?_, hz⟩
        rw [if_pos hind]
        exact List.mem_append_left _ hn
      have := h.bitmapBlock_lt hholds
      have := List.mem_singleton.1 hmem
      omega
    obtain ⟨m₂, hlist⟩ := freeAll_isSome (m := m₁) hheld
    obtain ⟨m₃, hself⟩ := @freeAll_isSome sb [] [b] m₂ (fun _ _ _ hmem => by cases hmem)
    have hb : b ≠ 0 := toNat_ne_zero.2 hind
    refine ⟨m₃, ?_, fun x => ?_⟩
    · rw [freeIndirect, if_pos hind]
      simp only
      rw [hframe _ hdata, hlist, Option.bind_some, cacheFree_eq_freeAll _ _ hb, hself]
    · rw [(freeAll_spec hself).1 x, (freeAll_spec hlist).1 x, if_pos hind, Bool.and_assoc,
        ← Bool.not_or]
      congr 2
      simp only [List.mem_append, ← Bool.decide_or, decide_eq_decide]
      tauto

/-- **`inode_clear` returns, and clears the bits of the blocks that the
inode holds.** -/
theorem inodeClear_bits (hlay : Layout sb) (h : FileAt sb E i m ino.entry B)
    (hvalid : ino.valid = true) :
    ∃ m', inodeClear sb m i ino = some (m', { ino with entry := ino.entry.cleared }) ∧
      ∀ x, bit sb m' x = true ↔ bit sb m x = true ∧ ¬ HoldsBlock m ino.entry x := by
  set direct := List.ofFn fun k => (ino.entry.addrs k).toNat with hdirect
  obtain ⟨m₁, h₁⟩ := @freeAll_isSome sb [] direct m (fun _ _ _ hmem => by cases hmem)
  obtain ⟨hbits₁, hframe₁⟩ := freeAll_spec h₁
  have hframe : ∀ y, dataStart sb ≤ y → m₁ y = m y := by
    refine fun y hy => hframe₁ y fun n hn hz heq => ?_
    have hholds : HoldsBlock m ino.entry n :=
      mem_freedBlocks_iff.1 ⟨List.mem_append_left _ hn, hz⟩
    have := h.bitmapBlock_lt hholds
    omega
  obtain ⟨m₂, h₂, hbits₂⟩ := freeIndirect_bits h hframe
  refine ⟨putEntry sb m₂ i ino.entry.cleared, ?_, fun x => ?_⟩
  · simp only [inodeClear, ← hdirect, h₁, h₂, Option.bind_eq_bind, Option.bind_some, inodeSync,
      hvalid, Bool.and_true, if_true]
  · rw [bit_putEntry (h.toBlockNo_lt hlay), hbits₂ x, hbits₁ x, ← mem_freedBlocks_iff, freedBlocks,
      List.mem_append, ← hdirect]
    simp only [Bool.and_eq_true, Bool.not_eq_true', decide_eq_false_iff_not]
    tauto

end OsKernel.Fs
