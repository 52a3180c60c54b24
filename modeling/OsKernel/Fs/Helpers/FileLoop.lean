import OsKernel.Fs.Helpers.FileMap

/-!
# Helpers — the loops over the blocks of a file

What a file holds at a position (`fileByte`), and what the loops of
`inode_read` and `inode_write` do to it. `Written` says of a part of the
write loop which bytes of the file it replaces, which blocks it has added
to the file, and what it leaves to the other inodes; parts compose.
-/

namespace OsKernel.Fs

open Function

open Cache

variable {sb : SuperBlock} {m m' m'' : Blocks} {E : ℕ → InodeEntry} {e e' e'' : InodeEntry}
variable {i j k l n c B B' B'' o p len stop : ℕ} {src bytes : List UInt8}

/-- The byte of a file at position `p`. -/
def fileByte (m : Blocks) (e : InodeEntry) (p : ℕ) : UInt8 :=
  (m (addr m e (p / blockSize))).get (p % blockSize)

/-- The blocks that a file of `B` blocks takes to grow to `B'`, with the
indirect block if the growth asks for one. -/
def blockCost (B B' : ℕ) : ℕ :=
  (B' - B) + if B ≤ inodeNumDirect ∧ inodeNumDirect < B' then 1 else 0

theorem blockCost_self (B : ℕ) : blockCost B B = 0 := by
  rw [blockCost, if_neg (by omega)]
  omega

theorem blockCost_add (h : B ≤ B') (h' : B' ≤ B'') :
    blockCost B B'' = blockCost B' B'' + blockCost B B' := by
  unfold blockCost
  split_ifs <;> omega

/-- **A file under way**: inode `i` is allocated, with the entry `e` in
memory, and its first `B` blocks are mapped. -/
structure FileAt (sb : SuperBlock) (E : ℕ → InodeEntry) (i : ℕ) (m : Blocks) (e : InodeEntry)
    (B : ℕ) : Prop where
  owned : Owned sb m (update E i e)
  live : Live sb (update E i e) i
  shape : ShapeAt m e B

theorem FileAt.mapped_ne_zero (h : FileAt sb E i m e B) (hk : k < B) : addr m e k ≠ 0 :=
  (h.shape.mapped k (hk.trans_le h.shape.le_max)).2 hk

/-- A mapped block is a marked data block that is not the indirect block. -/
theorem FileAt.block (h : FileAt sb E i m e B) (hk : k < B) :
    InData sb (addr m e k) ∧ bit sb m (addr m e k) = true ∧
      addr m e k ≠ e.indirect.toNat := by
  have hne := h.mapped_ne_zero hk
  have hd := h.owned.data i k h.live
  have hm := h.owned.marked i k h.live
  have hi := h.owned.indirect_ne h.live h.live (hk.trans_le h.shape.le_max)
  simp only [update_self] at hd hm hi
  exact ⟨hd hne, hm hne, (hi hne).symm⟩

/-- What is read of the mapped part of a file is in its first `B` blocks. -/
theorem div_blockSize_lt (h : p < B * blockSize) : p / blockSize < B :=
  Nat.div_lt_of_lt_mul (by rwa [Nat.mul_comm])

theorem lt_mul_of_div_lt (h : p / blockSize < B) : p < B * blockSize :=
  (Nat.div_lt_iff_lt_mul (by decide)).1 h

/-- The blocks of a file hold its bytes. -/
theorem le_blocksFor (n : ℕ) : n ≤ blocksFor n * blockSize := by
  simp only [blocksFor, blockSize]
  omega

/-- Positions in one block are compared by their offsets in it. -/
theorem mem_span_iff (h : p / blockSize = o / blockSize) :
    o % blockSize ≤ p % blockSize ∧ p % blockSize < o % blockSize + len ↔
      o ≤ p ∧ p < o + len := by
  have hp := Nat.div_add_mod p blockSize
  have ho := Nat.div_add_mod o blockSize
  rw [h] at hp
  omega

theorem mod_sub_mod (h : p / blockSize = o / blockSize) :
    p % blockSize - o % blockSize = p - o := by
  have hp := Nat.div_add_mod p blockSize
  have ho := Nat.div_add_mod o blockSize
  rw [h] at hp
  omega

/-! ## One block -/

/-- **File block `k` is mapped to block `n`**, within the file or at its
end. -/
structure Maps (sb : SuperBlock) (E : ℕ → InodeEntry) (i k : ℕ) (m : Blocks) (e : InodeEntry)
    (B n : ℕ) (m' : Blocks) (e' : InodeEntry) : Prop where
  grow : Grow sb E i m e m' e'
  file : FileAt sb E i m' e' (max B (k + 1))
  block : addr m' e' k = n
  addrs : ∀ l < B, addr m' e' l = addr m e l
  zero : k = B → m' n = Bytes.zero
  keep : k < B → e' = e

/-- A block that is mapped already. -/
theorem Maps.of_mapped (h : FileAt sb E i m e B) (hk : k < B) :
    Maps sb E i k m e B (addr m e k) m e := by
  have hB : max B (k + 1) = B := by omega
  exact ⟨Grow.refl h.owned, by rwa [hB], rfl, fun _ _ => rfl, fun hk => by omega, fun _ => rfl⟩

/-- The block after the last one is mapped to a fresh block. -/
theorem Maps.of_grow (hlay : Layout sb) (h : FileAt sb E i m e k) (hmax : k < inodeMaxBlocks)
    (hgrow : Grow sb E i m e m' e') (hfresh : Fresh sb m m' n)
    (hind : e'.indirect ≠ 0 ↔ e.indirect ≠ 0 ∨ inodeNumDirect ≤ k)
    (haddr : ∀ l < inodeMaxBlocks, addr m' e' l = if l = k then n else addr m e l) :
    Maps sb E i k m e k n m' e' := by
  have hB : max k (k + 1) = k + 1 := by omega
  have hn : n ≠ 0 := (hfresh.data.pos hlay).ne'
  have hshape : ShapeAt m' e' (k + 1) := by
    refine ⟨hmax, fun l hl => ?_, ?_⟩
    · rw [haddr l hl]
      by_cases hlk : l = k
      · simp [hlk, hn]
      · rw [if_neg hlk, h.shape.mapped l hl]
        omega
    · rw [hind, h.shape.indirect]
      omega
  refine ⟨hgrow, ⟨hgrow.owned, (live_update_congr hgrow.same.1).2 h.live, by rwa [hB]⟩,
    by rw [haddr k hmax, if_pos rfl], fun l hl => ?_, fun _ => hfresh.zero,
    fun hk => absurd hk (lt_irrefl k)⟩
  rw [haddr l (hl.trans hmax), if_neg hl.ne]

/-- The block after the last one is not mapped. -/
theorem FileAt.addr_eq_zero (h : FileAt sb E i m e k) (hmax : k < inodeMaxBlocks) :
    addr m e k = 0 := by
  by_contra hne
  exact absurd ((h.shape.mapped k hmax).1 hne) (lt_irrefl k)

/-- There is no indirect block while the blocks need none. -/
theorem FileAt.indirect_eq_zero (h : FileAt sb E i m e B) : e.indirect = 0 ↔ B ≤ inodeNumDirect := by
  have := not_congr h.shape.indirect
  simpa only [ne_eq, not_not, not_lt] using this

/-- What it takes to map the block after the last one. -/
theorem FileAt.mapCost_eq (h : FileAt sb E i m e k) : mapCost e k = blockCost k (max k (k + 1)) := by
  simp only [mapCost, blockCost, h.indirect_eq_zero]
  split_ifs <;> omega

/-- **`inode_map` within a file or at its end**, with the blocks it
takes. -/
structure MapSpec (sb : SuperBlock) (E : ℕ → InodeEntry) (i k : ℕ) (m : Blocks) (e : InodeEntry)
    (B n : ℕ) (m' : Blocks) (e' : InodeEntry) : Prop extends Maps sb E i k m e B n m' e' where
  count : freeCount sb m = freeCount sb m' + blockCost B (max B (k + 1))

theorem inodeMap_spec (hlay : Layout sb) (h : FileAt sb E i m e B) (hk : k ≤ B)
    (hmax : k < inodeMaxBlocks) (hmap : inodeMap sb m e k = some (n, m', e')) :
    MapSpec sb E i k m e B n m' e' := by
  rcases hk.lt_or_eq with hlt | rfl
  · rw [inodeMap_of_mapped hmax (h.mapped_ne_zero hlt)] at hmap
    obtain ⟨rfl, rfl, rfl⟩ := by simpa using hmap
    refine ⟨Maps.of_mapped h hlt, ?_⟩
    rw [show max B (k + 1) = B by omega, blockCost_self, Nat.add_zero]
  · obtain ⟨hgrow, hfresh, hind, haddr, hcount⟩ :=
      grow_inodeMap hlay h.live h.owned (h.addr_eq_zero hmax) hmap
    exact ⟨Maps.of_grow hlay h hmax hgrow hfresh hind haddr, by rw [hcount, h.mapCost_eq]⟩

/-! ## A part of the write loop -/

/-- **A part of a file is written**: the `len` bytes of the file from `o`
on are replaced by those of `src`, and the file goes from `B` to `B'`
blocks with zeros in the rest of the new ones. The other inodes keep their
addresses and the contents of their blocks. -/
structure Wrote (sb : SuperBlock) (E : ℕ → InodeEntry) (i : ℕ) (m : Blocks) (e : InodeEntry)
    (B o len : ℕ) (src : List UInt8) (m' : Blocks) (e' : InodeEntry) (B' : ℕ) : Prop where
  file : FileAt sb E i m' e' B'
  same : SameFile e e'
  le : B ≤ B'
  reach : o + len ≤ B' * blockSize
  bytes : ∀ p < B' * blockSize, fileByte m' e' p =
    if o ≤ p ∧ p < o + len then src.getD (p - o) 0
    else if p < B * blockSize then fileByte m e p else 0
  other : ∀ j, j ≠ i → Live sb E j → ∀ l, addr m' (E j) l = addr m (E j) l
  others : ∀ j, j ≠ i → Live sb E j → ∀ l < inodeMaxBlocks, addr m (E j) l ≠ 0 →
    m' (addr m (E j) l) = m (addr m (E j) l)
  inode : ∀ y < sb.bitmapStart, m' y = m y
  keep : B' = B → e' = e

/-- Nothing is written. -/
theorem Wrote.refl (h : FileAt sb E i m e B) (ho : o ≤ B * blockSize) :
    Wrote sb E i m e B o 0 src m e B := by
  refine ⟨h, ⟨rfl, rfl, rfl, rfl, rfl⟩, le_rfl, ho, fun p hp => ?_, fun _ _ _ _ => rfl,
    fun _ _ _ _ _ _ => rfl, fun _ _ => rfl, fun _ => rfl⟩
  rw [if_neg (by omega), if_pos hp]

theorem Wrote.trans (h : Wrote sb E i m e B o n src m' e' B')
    (h' : Wrote sb E i m' e' B' (o + n) len (src.drop n) m'' e'' B'') :
    Wrote sb E i m e B o (n + len) src m'' e'' B'' where
  file := h'.file
  same := h.same.trans h'.same
  le := h.le.trans h'.le
  reach := by
    have := h'.reach
    omega
  bytes := by
    intro p hp
    rw [h'.bytes p hp]
    have hreach := h.reach
    have hle : B * blockSize ≤ B' * blockSize := Nat.mul_le_mul h.le (le_refl blockSize)
    by_cases hnew : o + n ≤ p ∧ p < o + n + len
    · rw [if_pos hnew, if_pos (by omega), List.getD_eq_getElem?_getD, List.getD_eq_getElem?_getD,
        List.getElem?_drop, show n + (p - (o + n)) = p - o by omega]
    · rw [if_neg hnew]
      by_cases hmid : p < B' * blockSize
      · rw [if_pos hmid, h.bytes p hmid]
        refine if_congr ?_ rfl rfl
        omega
      · have hin : ¬ (o ≤ p ∧ p < o + (n + len)) := by omega
        have hold : ¬ p < B * blockSize := fun hlt => hmid (hlt.trans_le hle)
        rw [if_neg hmid, if_neg hin, if_neg hold]
  other := fun j hj hl l => (h'.other j hj hl l).trans (h.other j hj hl l)
  others := by
    intro j hj hl l hlt hne
    have hsame := h.other j hj hl l
    have := h'.others j hj hl l hlt (by rwa [hsame])
    rw [hsame] at this
    exact this.trans (h.others j hj hl l hlt hne)
  inode := fun y hy => (h'.inode y hy).trans (h.inode y hy)
  keep := by
    intro hB
    have hB' : B' = B := le_antisymm (h'.le.trans hB.le) h.le
    rw [h'.keep (hB.trans hB'.symm), h.keep hB']

/-- **One round of a write**: block `k` is mapped and its part of the bytes
replaced. -/
theorem Wrote.block (hlay : Layout sb) (h : FileAt sb E i m e B)
    (hmap : Maps sb E i k m e B n m' e') (hk : o / blockSize = k) (hle : k ≤ B)
    (hlen : o + len ≤ (k + 1) * blockSize) :
    Wrote sb E i m e B o len src
      (update m' n ((m' n).splice (o % blockSize) len fun t => src.getD t 0))
      e' (max B (k + 1)) := by
  set B' := max B (k + 1)
  have hkB : k < B' := by omega
  have hn : n = addr m' (update E i e' i) k := by
    rw [update_self, hmap.block]
  have hne : addr m' (update E i e' i) k ≠ 0 := by
    rw [update_self]
    exact hmap.file.mapped_ne_zero hkB
  have hmax : k < inodeMaxBlocks := hkB.trans_le hmap.file.shape.le_max
  set v := (m' n).splice (o % blockSize) len fun t => src.getD t 0
  have haddr : ∀ j, Live sb (update E i e') j → ∀ l,
      addr (update m' n v) (update E i e' j) l =
        addr m' (update E i e' j) l := by
    intro j hj l
    rw [hn]
    exact hmap.file.owned.addr_update hmap.file.live hj hmax hne v l
  have hself : ∀ l, addr (update m' n v) e' l = addr m' e' l := by
    intro l
    have := haddr i hmap.file.live l
    rwa [update_self] at this
  have hdata := (hmap.file.block hkB).1
  rw [hmap.block] at hdata
  -- the blocks of the file other than `k` are not block `n`
  have hblock : ∀ l < B', l ≠ k → addr m' e' l ≠ n := by
    intro l hl hlk heq
    have := hmap.file.owned.unique i i l k hmap.file.live hmap.file.live
    simp only [update_self, hmap.block] at this
    exact hlk (this (hmap.file.mapped_ne_zero hl) heq).2
  have hold : ∀ l < B, m' (addr m e l) = m (addr m e l) := fun l hl =>
    hmap.grow.data _ (h.block hl).1 (h.block hl).2.1 (h.block hl).2.2
  constructor
  · refine ⟨?_, hmap.file.live, ⟨hmap.file.shape.le_max, fun l hl => ?_,
      hmap.file.shape.indirect⟩⟩
    · rw [hn]
      exact hmap.file.owned.writeBlock hlay hmap.file.live hmax hne v
    · rw [hself]
      exact hmap.file.shape.mapped l hl
  · exact hmap.grow.same
  · omega
  · exact hlen.trans (Nat.mul_le_mul (by omega) (le_refl blockSize))
  · intro p hp
    have hpB : p / blockSize < B' := div_blockSize_lt hp
    have hmod : p % blockSize < blockSize := Nat.mod_lt _ (by decide)
    rw [fileByte, hself]
    by_cases hpk : p / blockSize = k
    · rw [hpk, hmap.block, update_self]
      have hin : o % blockSize ≤ p % blockSize ∧ p % blockSize < o % blockSize + len ↔
          o ≤ p ∧ p < o + len := mem_span_iff (hpk.trans hk.symm)
      by_cases hmem : o ≤ p ∧ p < o + len
      · rw [if_pos hmem, Bytes.get_splice_of_mem hmod (hin.2 hmem),
          mod_sub_mod (hpk.trans hk.symm)]
      · rw [if_neg hmem, Bytes.get_splice_of_not_mem (fun h => hmem (hin.1 h))]
        rcases hle.lt_or_eq with hlt | heq
        · have hp : p < B * blockSize := lt_mul_of_div_lt (hpk ▸ hlt)
          rw [if_pos hp, ← hmap.block, hmap.addrs k hlt, hold k hlt, fileByte, hpk]
        · have hp : ¬ p < B * blockSize := fun hp => by
            have := div_blockSize_lt hp
            omega
          rw [if_neg hp, hmap.zero heq, Bytes.get_zero]
    · have hpB' : p / blockSize < B := by omega
      have hmem : ¬ (o ≤ p ∧ p < o + len) := by
        rintro ⟨hop, hpl⟩
        have h₁ : o / blockSize ≤ p / blockSize := Nat.div_le_div_right hop
        have h₂ : p / blockSize < k + 1 := div_blockSize_lt (hpl.trans_le hlen)
        omega
      rw [if_neg hmem, if_pos (lt_mul_of_div_lt hpB'),
        update_of_ne (hblock _ hpB hpk), hmap.addrs _ hpB', hold _ hpB', fileByte]
  · intro j hj hl l
    have hj' : Live sb (update E i e') j := (live_update_of_ne hj).2 hl
    have := haddr j hj' l
    rw [update_of_ne hj] at this
    rw [this]
    exact hmap.grow.other j hj hl l
  · intro j hj hl l hlt hne'
    have hj' : Live sb (update E i e) j := (live_update_of_ne hj).2 hl
    have hown := h.owned.data j l hj'
    have hmark := h.owned.marked j l hj'
    have hind := h.owned.indirect_ne hj' h.live hlt
    simp only [update_of_ne hj, update_self] at hown hmark hind
    rw [update_of_ne, hmap.grow.data _ (hown hne') (hmark hne') (hind hne').symm]
    intro heq
    rw [← hmap.grow.other j hj hl l] at hne' heq
    have := hmap.file.owned.unique j i l k ((live_update_of_ne hj).2 hl) hmap.file.live
    simp only [update_of_ne hj, update_self, hmap.block] at this
    exact hj (this hne' heq).1
  · intro y hy
    have := hlay.bitmapStart_lt
    have := hdata.1
    rw [update_of_ne (by omega)]
    exact hmap.grow.inode y hy
  · intro hB
    exact hmap.keep (by omega)

/-- **A part of the write loop**, with the blocks it takes. -/
structure Written (sb : SuperBlock) (E : ℕ → InodeEntry) (i : ℕ) (m : Blocks) (e : InodeEntry)
    (B o len : ℕ) (src : List UInt8) (m' : Blocks) (e' : InodeEntry) (B' : ℕ) : Prop
    extends Wrote sb E i m e B o len src m' e' B' where
  count : freeCount sb m = freeCount sb m' + blockCost B B'

theorem Written.trans (h : Written sb E i m e B o n src m' e' B')
    (h' : Written sb E i m' e' B' (o + n) len (src.drop n) m'' e'' B'') :
    Written sb E i m e B o (n + len) src m'' e'' B'' where
  toWrote := h.toWrote.trans h'.toWrote
  count := by
    rw [h.count, h'.count, blockCost_add h.le h'.le]
    omega

theorem Written.block (hlay : Layout sb) (h : FileAt sb E i m e B)
    (hmap : MapSpec sb E i k m e B n m' e') (hk : o / blockSize = k) (hle : k ≤ B)
    (hlen : o + len ≤ (k + 1) * blockSize) :
    Written sb E i m e B o len src
      (update m' n ((m' n).splice (o % blockSize) len fun t => src.getD t 0))
      e' (max B (k + 1)) where
  toWrote := Wrote.block hlay h hmap.toMaps hk hle hlen
  count := by
    have hdata := (hmap.file.block (show k < max B (k + 1) by omega)).1.1
    rw [hmap.block] at hdata
    rw [hmap.count, freeCount_congr hlay fun x hx => ?_]
    exact (bit_congr (update_of_ne (by omega) _ _)).symm

/-! ## The loops -/

/-- The loop of `inode_read` and `inode_write` is at file block `i` and
position `o`, with `k` rounds left to reach `stop`. -/
def LoopAt (k i o stop : ℕ) : Prop :=
  (k = 0 ∧ o = stop) ∨
    (o < stop ∧ i = o / blockSize ∧ k = (stop - 1) / blockSize + 1 - i)

/-- The loop starts at the block of its first position. -/
theorem LoopAt.start (h : o < stop) :
    LoopAt ((stop - 1) / blockSize + 1 - o / blockSize) (o / blockSize) o stop :=
  Or.inr ⟨h, rfl, rfl⟩

theorem LoopAt.lt (h : LoopAt (k + 1) i o stop) : o < stop := by
  rcases h with ⟨hk, -⟩ | ⟨hlt, -⟩
  · cases hk
  · exact hlt

theorem LoopAt.eq (h : LoopAt 0 i o stop) : o = stop := by
  rcases h with ⟨-, h⟩ | ⟨hlt, rfl, hk⟩
  · exact h
  · have : o / blockSize ≤ (stop - 1) / blockSize := Nat.div_le_div_right (by omega)
    omega

/-- A round ends at the end of its block, or at `stop`. -/
theorem LoopAt.round (h : LoopAt (k + 1) i o stop)
    (hn : n = min (stop - o) ((i + 1) * blockSize - o)) :
    o / blockSize = i ∧ o + n ≤ (i + 1) * blockSize ∧ o + n ≤ stop ∧
      LoopAt k (i + 1) (o + n) stop ∧ (o + n = stop → (stop - 1) / blockSize = i) := by
  have hlt := h.lt
  rcases h with ⟨hk, -⟩ | ⟨-, rfl, hk⟩
  · cases hk
  · have ho : o < (o / blockSize + 1) * blockSize := lt_mul_of_div_lt (Nat.lt_succ_self _)
    refine ⟨rfl, by omega, by omega, ?_⟩
    by_cases hend : stop ≤ (o / blockSize + 1) * blockSize
    · have hstop : o + n = stop := by omega
      have hle : o / blockSize ≤ (stop - 1) / blockSize := Nat.div_le_div_right (by omega)
      have hge : (stop - 1) / blockSize < o / blockSize + 1 := div_blockSize_lt (by omega)
      exact ⟨Or.inl ⟨by omega, hstop⟩, fun _ => by omega⟩
    · have hnext : o + n = (o / blockSize + 1) * blockSize := by omega
      refine ⟨Or.inr ⟨by omega, ?_, by omega⟩, fun heq => by omega⟩
      rw [hnext, Nat.mul_div_cancel _ (by decide)]

/-- A write into a file of `B` blocks leaves no gap. -/
theorem LoopAt.block_le (h : LoopAt (k + 1) i o stop) (hmax : stop ≤ inodeMaxBytes)
    (ho : o ≤ B * blockSize) : i ≤ B ∧ i < inodeMaxBlocks := by
  rw [← (h.round rfl).1]
  exact ⟨(Nat.div_le_div_right ho).trans (Nat.mul_div_cancel B (by decide)).le,
    div_blockSize_lt (h.lt.trans_le hmax)⟩

/-- The blocks of a file of `B` blocks after a write from `o` to `stop`. -/
def reachBlocks (B o stop : ℕ) : ℕ :=
  if o < stop then max B ((stop - 1) / blockSize + 1) else B

/-- The rounds of the loop add the blocks one by one. -/
theorem reachBlocks_round (hlt : o < stop) (hi : o / blockSize = i)
    (hend : o + n = stop → (stop - 1) / blockSize = i) (hle : o + n ≤ stop) :
    reachBlocks (max B (i + 1)) (o + n) stop = reachBlocks B o stop := by
  have hmono : o / blockSize ≤ (stop - 1) / blockSize := Nat.div_le_div_right (by omega)
  rw [reachBlocks, reachBlocks, if_pos hlt]
  by_cases hmore : o + n < stop
  · rw [if_pos hmore]
    omega
  · rw [if_neg hmore, hend (by omega)]

/-- **The write loop** writes what is left of `src`. -/
theorem writeLoop_spec (hlay : Layout sb) (hmax : stop ≤ inodeMaxBytes) :
    ∀ {k l o c : ℕ} {src : List UInt8} {m : Blocks} {e : InodeEntry} {B : ℕ},
      LoopAt k l o stop → FileAt sb E i m e B → o ≤ B * blockSize →
      writeLoop sb k l o stop src m e = some (c, m', e') →
      c = stop - o ∧
        Written sb E i m e B o (stop - o) src m' e' (reachBlocks B o stop) := by
  intro k
  -- on the rounds that are left
  induction k with
  | zero =>
    intro l o c src m e B hloop hfile ho hw
    obtain ⟨rfl, rfl, rfl⟩ := by simpa [writeLoop] using hw
    obtain rfl := hloop.eq
    rw [Nat.sub_self, reachBlocks, if_neg (lt_irrefl o)]
    exact ⟨rfl, Wrote.refl hfile ho, by rw [blockCost_self, Nat.add_zero]⟩
  | succ k ih =>
    intro l o c src m e B hloop hfile ho hw
    rw [writeLoop] at hw
    obtain ⟨⟨b, m₁, e₁⟩, hmap, hw⟩ := Option.bind_eq_some_iff.1 hw
    obtain ⟨⟨c', m₂, e₂⟩, hrest, hw⟩ := Option.bind_eq_some_iff.1 hw
    obtain ⟨rfl, rfl, rfl⟩ := by simpa using hw
    set n := min (stop - o) ((l + 1) * blockSize - o) with hn
    obtain ⟨hl, hblock, hstop, hnext, hend⟩ := hloop.round hn
    have hlt := hloop.lt
    obtain ⟨hlB, hlmax⟩ := hloop.block_le hmax ho
    have hfirst : Written sb E i m e B o n src _ e₁ _ :=
      Written.block hlay hfile (inodeMap_spec hlay hfile hlB hlmax hmap) hl hlB hblock
    obtain ⟨rfl, hsecond⟩ := ih hnext hfirst.file hfirst.reach hrest
    rw [reachBlocks_round hlt hl hend hstop] at hsecond
    have hsum : n + (stop - (o + n)) = stop - o := by omega
    refine ⟨hsum, ?_⟩
    have := hfirst.trans hsecond
    rwa [hsum] at this

/-- The write loop ends while there are blocks for it. -/
theorem writeLoop_isSome (hlay : Layout sb) (hmax : stop ≤ inodeMaxBytes) :
    ∀ {k l o : ℕ} {src : List UInt8} {m : Blocks} {e : InodeEntry} {B : ℕ},
      LoopAt k l o stop → FileAt sb E i m e B → o ≤ B * blockSize →
      blockCost B (reachBlocks B o stop) ≤ freeCount sb m →
      ∃ r, writeLoop sb k l o stop src m e = some r := by
  intro k
  induction k with
  | zero => exact fun _ _ _ _ => ⟨_, rfl⟩
  | succ k ih =>
    intro l o src m e B hloop hfile ho hfree
    set n := min (stop - o) ((l + 1) * blockSize - o) with hn
    obtain ⟨hl, hblock, hstop, hnext, hend⟩ := hloop.round hn
    have hlt := hloop.lt
    obtain ⟨hlB, hlmax⟩ := hloop.block_le hmax ho
    have hreach := reachBlocks_round (B := B) hlt hl hend hstop
    have hle : max B (l + 1) ≤ reachBlocks (max B (l + 1)) (o + n) stop := by
      unfold reachBlocks
      split <;> omega
    have hcost := blockCost_add (le_max_left B (l + 1)) hle
    rw [hreach] at hcost
    have hmap : ∃ r, inodeMap sb m e l = some r := by
      rcases hlB.lt_or_eq with hlt | rfl
      · exact ⟨_, inodeMap_of_mapped hlmax (hfile.mapped_ne_zero hlt)⟩
      · refine inodeMap_isSome hlay hfile.live hfile.owned hlmax ?_
        have := hfile.mapCost_eq
        omega
    obtain ⟨⟨b, m₁, e₁⟩, hmap⟩ := hmap
    have hfirst : Written sb E i m e B o n src _ e₁ _ :=
      Written.block hlay hfile (inodeMap_spec hlay hfile hlB hlmax hmap) hl hlB hblock
    have hcount := hfirst.count
    have hrest : ∃ r, writeLoop sb k (l + 1) (o + n) stop (src.drop n) _ e₁ = some r :=
      ih hnext hfirst.file hfirst.reach (by rw [hreach]; omega)
    obtain ⟨r, hr⟩ := hrest
    refine ⟨(n + r.1, r.2.1, r.2.2), ?_⟩
    rw [writeLoop, hmap]
    simp only [Option.bind_eq_bind, Option.bind_some, ← hn, hr]

/-- **The read loop** returns the bytes of the file and allocates nothing. -/
theorem readLoop_spec (h : ShapeAt m e B) (hstop : stop ≤ B * blockSize) :
    ∀ {k l o : ℕ}, LoopAt k l o stop →
      readLoop sb k l o stop m e =
        some ((List.range (stop - o)).map fun t => fileByte m e (o + t), m, e) := by
  intro k
  induction k with
  | zero =>
    intro l o hloop
    obtain rfl := hloop.eq
    simp [readLoop]
  | succ k ih =>
    intro l o hloop
    set n := min (stop - o) ((l + 1) * blockSize - o) with hn
    obtain ⟨hl, hblock, hle, hnext, -⟩ := hloop.round hn
    have hlB : l < B := hl ▸ div_blockSize_lt (hloop.lt.trans_le hstop)
    have hlmax := hlB.trans_le h.le_max
    rw [readLoop, inodeMap_of_mapped hlmax ((h.mapped l hlmax).2 hlB)]
    simp only [Option.bind_eq_bind, Option.bind_some, ← hn, ih hnext]
    have hsum : stop - o = n + (stop - (o + n)) := by omega
    rw [hsum, List.range_add, List.map_append, List.map_map]
    congr 3
    · refine List.map_congr_left fun t ht => ?_
      have ht := List.mem_range.1 ht
      have hdiv : (o + t) / blockSize = o / blockSize := by
        have h₁ : o / blockSize ≤ (o + t) / blockSize := Nat.div_le_div_right (by omega)
        have h₂ : (o + t) / blockSize < l + 1 := div_blockSize_lt (by omega)
        omega
      have hmod := mod_sub_mod hdiv
      have hin : o % blockSize ≤ (o + t) % blockSize ∧ (o + t) % blockSize < _ + (t + 1) :=
        (mem_span_iff hdiv).2 ⟨by omega, by omega⟩
      rw [fileByte, hdiv, hl]
      congr 1
      omega
    · refine List.map_congr_left fun t _ => ?_
      simp only [Function.comp_apply, Nat.add_assoc]

end OsKernel.Fs
