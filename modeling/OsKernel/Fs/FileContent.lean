import OsKernel.Fs.BlockOwnership

/-!
# A file is an array of bytes

`content` is what a file holds, byte by byte. A write that fits splices
its bytes into the content, a read returns a part of the content, and the
contents of all other files stay as they are (`file_is_byteArray`).

A read whose end does not fit a `usize` is where this ends: the sum of
offset and count wraps, and the read fails its `ASSERT`
(`read_past_usize`).
-/

namespace OsKernel.Fs

open Function

open Cache

variable {sb : SuperBlock} {fs : FS} {m m' : Blocks} {E : ℕ → InodeEntry} {e e' : InodeEntry}
variable {i j c o p B : ℕ} {ino ino' : Inode} {src : List UInt8} {console : ℕ → List UInt8}

/-- The bytes of a file. -/
def content (m : Blocks) (e : InodeEntry) : List UInt8 :=
  (List.range e.numBytes.toNat).map (fileByte m e)

/-- `l` with `src` in place of what stands at offset `o`. -/
def spliced (l : List UInt8) (o : ℕ) (src : List UInt8) : List UInt8 :=
  l.take o ++ src ++ l.drop (o + src.length)

@[simp] theorem length_content (m : Blocks) (e : InodeEntry) :
    (content m e).length = e.numBytes.toNat := by
  simp [content]

theorem getElem?_content (h : p < e.numBytes.toNat) :
    (content m e)[p]? = some (fileByte m e p) := by
  simp [content, h]

theorem length_spliced {l : List UInt8} (h : o ≤ l.length) :
    (spliced l o src).length = max l.length (o + src.length) := by
  simp only [spliced, List.length_append, List.length_take, List.length_drop]
  omega

theorem getElem?_spliced {l : List UInt8} (h : o ≤ l.length) :
    (spliced l o src)[p]? = if o ≤ p ∧ p < o + src.length then src[p - o]? else l[p]? := by
  unfold spliced
  rcases Nat.lt_or_ge p o with hlt | hge
  · rw [if_neg (by omega), List.append_assoc, List.getElem?_append_left (by simp; omega),
      List.getElem?_take, if_pos hlt]
  · rcases Nat.lt_or_ge p (o + src.length) with hlt' | hge'
    · rw [if_pos ⟨hge, hlt'⟩, List.append_assoc, List.getElem?_append_right (by simp; omega),
        List.getElem?_append_left (by simp; omega)]
      congr 1
      simp only [List.length_take]
      omega
    · rw [if_neg (by omega), List.getElem?_append_right (by simp; omega), List.getElem?_drop]
      congr 1
      simp only [List.length_append, List.length_take]
      omega

/-! ## Reading -/

/-- **A read returns a part of the content.** -/
theorem inodeRead_content (h : ShapeAt m e (blocksFor e.numBytes.toNat))
    (hdev : e.type ≠ inodeDevice) (ho : o ≤ e.numBytes.toNat) (hc : o + c < 2 ^ 64) :
    inodeRead sb console m e o c = some (((content m e).drop o).take c, m, e) := by
  rw [inodeRead_eq h hdev ho hc]
  congr 2
  refine List.ext_getElem? fun t => ?_
  rw [List.getElem?_take, List.getElem?_drop]
  by_cases ht : t < min c (e.numBytes.toNat - o)
  · rw [if_pos (by omega), getElem?_content (by omega), List.getElem?_map,
      List.getElem?_range ht, Option.map_some]
  · rw [List.getElem?_eq_none (by simp; omega)]
    split
    · rw [List.getElem?_eq_none (by simp; omega)]
    · rfl

/-! ## Writing -/

/-- **A write that fits returns.** -/
theorem inodeWrite_isSome (hlay : Layout sb)
    (h : FileAt sb E i m ino.entry (blocksFor ino.entry.numBytes.toNat))
    (hdev : ino.entry.type ≠ inodeDevice) (ho : o ≤ ino.entry.numBytes.toNat)
    (hsrc : 0 < src.length) (hmax : o + src.length ≤ inodeMaxBytes)
    (hfree : blockCost (blocksFor ino.entry.numBytes.toNat)
      (blocksFor (max ino.entry.numBytes.toNat (o + src.length))) ≤ freeCount sb m) :
    ∃ r, inodeWrite sb m i ino o src = some r := by
  have hbound : inodeMaxBytes < 2 ^ 64 := by decide
  set nb := ino.entry.numBytes.toNat with hnb
  set stop := o + src.length with hstopdef
  have hstop : stop % 2 ^ 64 = stop := Nat.mod_eq_of_lt (by omega)
  have hlast : (stop + (2 ^ 64 - 1)) % 2 ^ 64 = stop - 1 := by omega
  have hreach : o ≤ blocksFor nb * blockSize := ho.trans (le_blocksFor nb)
  have hblocks : reachBlocks (blocksFor nb) o stop = blocksFor (max nb stop) :=
    reachBlocks_blocksFor (by omega)
  have hsome : ∃ r, writeLoop sb _ _ o stop src m ino.entry = some r :=
    writeLoop_isSome hlay hmax (LoopAt.start (show o < stop by omega)) h hreach
      (by rwa [hblocks])
  obtain ⟨⟨c, m₁, e₁⟩, hloop⟩ := hsome
  simp only [inodeWrite, if_neg hdev, ← hnb, ← hstopdef, hstop, hlast]
  rw [if_pos ⟨ho, hmax, by omega⟩, hloop]
  simp only [Option.bind_eq_bind, Option.bind_some]
  split <;> exact ⟨_, rfl⟩

/-- The content after a write, position by position. -/
theorem Wrote.content_eq {m₁ : Blocks} {e₁ : InodeEntry}
    (h : Wrote sb E i m e (blocksFor e.numBytes.toNat) o src.length src m₁ e₁
      (blocksFor (max e.numBytes.toNat (o + src.length))))
    (ho : o ≤ e.numBytes.toNat) (hsize : e'.numBytes.toNat = max e.numBytes.toNat (o + src.length))
    (hbyte : ∀ p < blocksFor (max e.numBytes.toNat (o + src.length)) * blockSize,
      fileByte m' e' p = fileByte m₁ e₁ p) :
    content m' e' = spliced (content m e) o src := by
  refine List.ext_getElem? fun p => ?_
  rw [getElem?_spliced (by simpa using ho)]
  by_cases hp : p < e'.numBytes.toNat
  · have hreach : p < blocksFor (max e.numBytes.toNat (o + src.length)) * blockSize := by
      rw [hsize] at hp
      exact hp.trans_le (le_blocksFor _)
    rw [getElem?_content hp, hbyte p hreach, h.bytes p hreach]
    by_cases hin : o ≤ p ∧ p < o + src.length
    · rw [if_pos hin, if_pos hin, List.getD_eq_getElem?_getD]
      rw [List.getElem?_eq_getElem (show p - o < src.length by omega)]
      rfl
    · have hold : p < e.numBytes.toNat := by omega
      have hin' : p < blocksFor e.numBytes.toNat * blockSize := hold.trans_le (le_blocksFor _)
      rw [if_neg hin, if_neg hin, if_pos hin', getElem?_content hold]
  · rw [List.getElem?_eq_none (by simpa using hp), if_neg (by omega),
      List.getElem?_eq_none (by simp; omega)]

/-- Writing the entry of an inode leaves the bytes of a file alone. -/
theorem fileByte_putEntry (hlay : Layout sb) (h : FileAt sb E i m e B)
    (hp : p < B * blockSize) (v : InodeEntry) :
    fileByte (putEntry sb m i v) e p = fileByte m e p := by
  have hi := h.toBlockNo_lt hlay
  have hb := hlay.bitmapStart_lt
  have haddr := addr_putEntry hlay h.owned hi h.live v (p / blockSize)
  rw [update_self] at haddr
  have hdata := (h.block (div_blockSize_lt hp)).1.1
  rw [fileByte, haddr, putEntry, update_of_ne (by omega), fileByte]

/-- **The other files are not touched** by a write to file `i`, nor by what
follows it outside of the data area. -/
theorem Wrote.content_other {m₁ : Blocks} {e₁ : InodeEntry} {B' len : ℕ}
    (h : Wrote sb E i m e B o len src m₁ e₁ B') (hfile : FileAt sb E i m e B) (hji : j ≠ i)
    (hj : Live sb E j) (hshape : ShapeAt m (E j) (blocksFor (E j).numBytes.toNat))
    (hframe : ∀ y, dataStart sb ≤ y → m' y = m₁ y) :
    (∀ l, addr m' (E j) l = addr m (E j) l) ∧ content m' (E j) = content m (E j) := by
  have hj' : Live sb (update E i e) j := (live_update_of_ne hji).2 hj
  have haddr : ∀ l, addr m' (E j) l = addr m (E j) l := by
    intro l
    rw [← h.other j hji hj]
    refine addr_congr (fun hind => hframe _ ?_) _
    have := (hfile.owned.indirect hj' (by rwa [update_of_ne hji])).1.1
    rwa [update_of_ne hji] at this
  refine ⟨haddr, List.map_congr_left fun p hp => ?_⟩
  have hp' : p < blocksFor (E j).numBytes.toNat * blockSize :=
    (List.mem_range.1 hp).trans_le (le_blocksFor _)
  have hk := div_blockSize_lt hp'
  have hkmax := hk.trans_le hshape.le_max
  have hne := (hshape.mapped _ hkmax).2 hk
  have hdata := hfile.owned.data j (p / blockSize) hj'
  rw [update_of_ne hji] at hdata
  rw [fileByte, haddr, hframe _ (hdata hne).1, h.others j hji hj _ hkmax hne, fileByte]

/-- What the end of `inode_write` adds to its loop: the entry, if the file
has grown. -/
theorem writeEnd_spec {m₁ : Blocks} {e₁ : InodeEntry} (hlay : Layout sb)
    (hwritten : Written sb E i m ino.entry (blocksFor ino.entry.numBytes.toNat) o src.length src
      m₁ e₁ (blocksFor (max ino.entry.numBytes.toNat (o + src.length))))
    (hmax : o + src.length ≤ inodeMaxBytes)
    (hend : if ino.entry.numBytes.toNat < o + src.length then
        ino' = { ino with entry := { e₁ with numBytes := UInt32.ofNat (o + src.length) } } ∧
          m' = putEntry sb m₁ i ino'.entry
      else ino' = ino ∧ m' = m₁ ∧ e₁ = ino.entry) :
    ino'.entry.numBytes.toNat = max ino.entry.numBytes.toNat (o + src.length) ∧
      ino'.entry.type = ino.entry.type ∧
      (∀ y, dataStart sb ≤ y → m' y = m₁ y) ∧
      (∀ j, j ≠ i → diskEntry sb m' j = diskEntry sb m₁ j) ∧
      ∀ p < blocksFor (max ino.entry.numBytes.toNat (o + src.length)) * blockSize,
        fileByte m' ino'.entry p = fileByte m₁ e₁ p := by
  split_ifs at hend with hgrow
  · obtain ⟨rfl, rfl⟩ := hend
    have hi := hwritten.file.toBlockNo_lt hlay
    have hb := hlay.bitmapStart_lt
    refine ⟨?_, hwritten.same.1, fun y hy => update_of_ne (by omega) _ _,
      fun j hji => diskEntry_putEntry_of_ne hji,
      fun p hp => fileByte_putEntry hlay hwritten.file hp _⟩
    rw [max_eq_right hgrow.le]
    simp only [UInt32.toNat_ofNat']
    refine Nat.mod_eq_of_lt ?_
    have : inodeMaxBytes < 2 ^ 32 := by decide
    omega
  · obtain ⟨rfl, rfl, rfl⟩ := hend
    exact ⟨(max_eq_left (not_lt.1 hgrow)).symm, rfl, fun _ _ => rfl, fun _ _ => rfl,
      fun _ _ => rfl⟩

/-- **What a write leaves**, in a file that is not a device. -/
theorem inodeWrite_content (hlay : Layout sb) (h : Inv sb fs) (hino : fs.icache i = some ino)
    (hdev : ino.entry.type ≠ inodeDevice) (hsrc : 0 < src.length)
    (hw : inodeWrite sb fs.blocks i ino o src = some (c, m', ino')) (hlen : src.length < 2 ^ 64) :
    o ≤ ino.entry.numBytes.toNat ∧ ino'.entry.type = ino.entry.type ∧
      content m' ino'.entry = spliced (content fs.blocks ino.entry) o src := by
  have hvalid := (h.cached i ino hino).1
  rcases inodeWrite_cases hlay (h.fileAt hino) hvalid hsrc hlen hw with
    ⟨hdev', -⟩ | ⟨-, -, ho, hmax, m₁, e₁, hwritten, hend⟩
  · exact absurd hdev' hdev
  · obtain ⟨hsize, htype, -, -, hbyte⟩ := writeEnd_spec hlay hwritten hmax hend
    exact ⟨ho, htype, hwritten.content_eq ho hsize hbyte⟩

/-- **A write that fits**, with what it leaves of this file and of the
others. -/
theorem inodeWrite_regular (hlay : Layout sb) (h : Inv sb fs) (hino : fs.icache i = some ino)
    (hreg : ino.entry.type = inodeRegular) (ho : o ≤ ino.entry.numBytes.toNat)
    (hsrc : 0 < src.length) (hmax : o + src.length ≤ inodeMaxBytes)
    (hfree : blockCost (blocksFor ino.entry.numBytes.toNat)
      (blocksFor (max ino.entry.numBytes.toNat (o + src.length))) ≤ freeCount sb fs.blocks) :
    ∃ m' ino', inodeWrite sb fs.blocks i ino o src = some (src.length, m', ino') ∧
      Inv sb (fs.set i m' (some ino')) ∧ ino'.entry.type = inodeRegular ∧
      ino'.entry.numBytes.toNat = max ino.entry.numBytes.toNat (o + src.length) ∧
      content m' ino'.entry = spliced (content fs.blocks ino.entry) o src ∧
      ∀ j, j ≠ i → Live sb (diskEntry sb fs.blocks) j →
        diskEntry sb m' j = diskEntry sb fs.blocks j ∧
        content m' (diskEntry sb m' j) = content fs.blocks (diskEntry sb fs.blocks j) := by
  have hfile := h.fileAt hino
  have hvalid := (h.cached i ino hino).1
  have hdev : ino.entry.type ≠ inodeDevice := by
    rw [hreg]
    decide
  have hlen : src.length < 2 ^ 64 := by
    have : inodeMaxBytes < 2 ^ 64 := by decide
    omega
  obtain ⟨⟨c, m', ino'⟩, hw⟩ := inodeWrite_isSome hlay hfile hdev ho hsrc hmax hfree
  have hinv : Inv sb (fs.set i m' (some ino')) := h.write hlay hino hsrc hlen hw
  rcases inodeWrite_cases hlay hfile hvalid hsrc hlen hw with
    ⟨hdev', -⟩ | ⟨-, rfl, -, -, m₁, e₁, hwritten, hend⟩
  · exact absurd hdev' hdev
  · obtain ⟨hsize, htype, hframe, hdisk, hbyte⟩ := writeEnd_spec hlay hwritten hmax hend
    refine ⟨m', ino', hw, hinv, htype.trans hreg, hsize, hwritten.content_eq ho hsize hbyte,
      fun j hji hj => ?_⟩
    have hentry : diskEntry sb m' j = diskEntry sb fs.blocks j := by
      rw [hdisk j hji]
      exact diskEntry_congr hlay hwritten.inode hj.2.1
    refine ⟨hentry, ?_⟩
    rw [hentry]
    exact (hwritten.content_other hfile hji hj (h.shape j hj) hframe).2

/-- **A file is an array of bytes.** A write to a regular file that fits
and finds the blocks it needs writes all of `src`; the content is then the
old one with `src` spliced in, a read returns the part of it that was asked
for, and no other file has changed. -/
theorem file_is_byteArray (hlay : Layout sb) (h : Inv sb fs) (hino : fs.icache i = some ino)
    (hreg : ino.entry.type = inodeRegular) (ho : o ≤ ino.entry.numBytes.toNat)
    (hsrc : 0 < src.length) (hmax : o + src.length ≤ inodeMaxBytes)
    (hfree : blockCost (blocksFor ino.entry.numBytes.toNat)
      (blocksFor (max ino.entry.numBytes.toNat (o + src.length))) ≤ freeCount sb fs.blocks) :
    ∃ m' ino', inodeWrite sb fs.blocks i ino o src = some (src.length, m', ino') ∧
      ino'.entry.numBytes.toNat = max ino.entry.numBytes.toNat (o + src.length) ∧
      (∀ o' c, o' ≤ ino'.entry.numBytes.toNat → o' + c < 2 ^ 64 →
        ∃ bytes, inodeRead sb fs.console m' ino'.entry o' c = some (bytes, m', ino'.entry) ∧
          bytes.length = min c (ino'.entry.numBytes.toNat - o') ∧
          bytes = ((spliced (content fs.blocks ino.entry) o src).drop o').take c) ∧
      ∀ j, j ≠ i → Live sb (diskEntry sb fs.blocks) j →
        diskEntry sb m' j = diskEntry sb fs.blocks j ∧
        content m' (diskEntry sb m' j) = content fs.blocks (diskEntry sb fs.blocks j) := by
  obtain ⟨m', ino', hw, hinv, htype, hsize, hcontent, hother⟩ :=
    inodeWrite_regular hlay h hino hreg ho hsrc hmax hfree
  have hino' : (fs.set i m' (some ino')).icache i = some ino' := update_self _ _ _
  have hshape' : ShapeAt m' ino'.entry (blocksFor ino'.entry.numBytes.toNat) :=
    (hinv.fileAt hino').shape
  have hdev' : ino'.entry.type ≠ inodeDevice := by
    rw [htype]
    decide
  refine ⟨m', ino', hw, hsize, fun o' c ho' hc => ?_, hother⟩
  refine ⟨_, inodeRead_content hshape' hdev' ho' hc, ?_, by rw [hcontent]⟩
  rw [List.length_take, List.length_drop, length_content]

/-- Bytes for more than one block. -/
def twoBlocks : List UInt8 := (List.range 514).map UInt8.ofNat

theorem length_twoBlocks : twoBlocks.length = 514 := by simp [twoBlocks]

theorem freeCount_oneFile : 4 ≤ freeCount mkfsLayout (oneFile 12).blocks := by
  have hsub : ({100, 101, 102, 103} : Finset ℕ) ⊆
      (Finset.range swapStart).filter fun n => bit mkfsLayout (oneFile 12).blocks n = false := by
    decide +kernel
  exact Finset.card_le_card hsub

/-- Two blocks are written to an empty file, and bytes of both are read
back. -/
theorem file_is_byteArray_twoBlocks :
    ∃ m' ino', inodeWrite mkfsLayout (oneFile 12).blocks 1 ⟨1, true, emptyFile⟩ 0 twoBlocks =
        some (514, m', ino') ∧
      inodeRead mkfsLayout (oneFile 12).console m' ino'.entry 510 9 =
        some ([254, 255, 0, 1], m', ino'.entry) := by
  have hwrite := @file_is_byteArray mkfsLayout (oneFile 12) 1 0 ⟨1, true, emptyFile⟩ twoBlocks
    layout_mkfsLayout inv_oneFile rfl rfl (by decide)
  rw [length_twoBlocks] at hwrite
  obtain ⟨m', ino', hw, hsize, hread, -⟩ :=
    hwrite (by decide) (by decide) (le_trans (by decide) freeCount_oneFile)
  obtain ⟨bytes, hr, -, hb⟩ := hread 510 9 (hsize ▸ by decide) (by decide)
  refine ⟨m', ino', hw, hr.trans ?_⟩
  rw [hb]
  exact congrArg (fun l => some (l, m', ino'.entry)) (by decide +kernel)

/-- **A read past the last `usize` fails**, also where the offset is in the
file and there is nothing to read. -/
theorem read_past_usize :
    ∃ m' ino', inodeWrite mkfsLayout (oneFile 12).blocks 1 ⟨1, true, emptyFile⟩ 0 [7] =
        some (1, m', ino') ∧
      1 ≤ ino'.entry.numBytes.toNat ∧
      inodeRead mkfsLayout (oneFile 12).console m' ino'.entry 1 (2 ^ 64 - 1) = none := by
  have hkey : (inodeWrite mkfsLayout (oneFile 12).blocks 1 ⟨1, true, emptyFile⟩ 0 [7]).map
      (fun r => (r.1, decide (1 ≤ r.2.2.entry.numBytes.toNat),
        (inodeRead mkfsLayout (oneFile 12).console r.2.1 r.2.2.entry 1 (2 ^ 64 - 1)).isNone)) =
      some (1, true, true) := by
    decide +kernel
  obtain ⟨⟨c, m', ino'⟩, hw, heq⟩ := Option.map_eq_some_iff.1 hkey
  simp only [Prod.mk.injEq, decide_eq_true_eq, Option.isNone_iff_eq_none] at heq
  obtain ⟨rfl, hsize, hread⟩ := heq
  exact ⟨m', ino', hw, hsize, hread⟩

end OsKernel.Fs
