import OsKernel.Fs.FileContent
import OsKernel.Fs.Helpers.Transfer
import OsKernel.Fs.Model.File

/-!
# Writes of no bytes and of many

`inode_write` computes the last index of its loop as `(end - 1) /
BLOCK_SIZE` without a sign. A write of no bytes changes nothing where the
offset is positive; at offset `0` the loop runs through all the blocks that
a file can have and panics at the first after them (`inodeWrite_nil`).

`filewrite` uses one variable for the bytes of the last round and for the
bytes written so far. Up to the size of one round it writes all of its
bytes; above it the loop has no end, as no round makes the variable reach
`n` (`filewrite_all`).
-/

namespace OsKernel.Fs

open Function

open Cache

variable {sb : SuperBlock} {fs fs' : FS} {m m' : Blocks} {e : InodeEntry} {ino ino' : Inode}
variable {i k o t stop fuel : ℕ} {src : List UInt8} {f f' : OpenFile}

/-! ## A write of no bytes -/

/-- The loop of `inode_write` panics where it leaves the blocks that a file
can have. -/
theorem writeLoop_eq_none : ∀ {k i o : ℕ} {src : List UInt8} {m : Blocks} {e : InodeEntry},
    i ≤ inodeMaxBlocks → inodeMaxBlocks < i + k → writeLoop sb k i o stop src m e = none := by
  intro k
  induction k with
  | zero =>
    intro i o src m e hi hk
    omega
  | succ k ih =>
    intro i o src m e hi hk
    rw [writeLoop]
    rcases hi.lt_or_eq with hlt | rfl
    · refine Option.bind_eq_none_iff.2 fun r _ => ?_
      simp only
      rw [ih (by omega) (by omega)]
      rfl
    · have hmap : inodeMap sb m e inodeMaxBlocks = none := by
        rw [inodeMap, dif_neg (by decide), if_neg (by decide)]
      rw [hmap]
      rfl

/-- At offset `0` the last index wraps around. -/
theorem inodeWrite_nil_zero (hdev : ino.entry.type ≠ inodeDevice) :
    inodeWrite sb m i ino 0 [] = none := by
  simp only [inodeWrite, if_neg hdev, List.length_nil, Nat.add_zero, Nat.zero_mod]
  rw [if_pos ⟨Nat.zero_le _, Nat.zero_le _, le_rfl⟩, writeLoop_eq_none (by decide) (by decide)]
  rfl

/-- The index of the last block, where the end is positive. -/
theorem last_of_pos (ho : 0 < o) (hlt : o < 2 ^ 64) : (o + (2 ^ 64 - 1)) % 2 ^ 64 = o - 1 := by
  omega

/-- A round that copies no bytes to a mapped block. -/
theorem writeLoop_round_nil (hmax : i < inodeMaxBlocks) (hmap : addr m e i ≠ 0) :
    writeLoop sb 1 i o o [] m e = some (0, m, e) := by
  have hsplice : ∀ (b : Cache.BlockData) (x : ℕ), (b.splice x 0 fun t => ([] : List UInt8).getD t 0) = b :=
    fun b x => Bytes.ext_get fun t _ => Bytes.get_splice_of_not_mem (by omega)
  simp only [writeLoop, inodeMap_of_mapped hmax hmap, Option.bind_eq_bind, Option.bind_some,
    Nat.sub_self, Nat.zero_min, hsplice, update_eq_self]

/-- **A write of no bytes** changes nothing if and only if the offset is
positive. -/
theorem inodeWrite_nil (h : ShapeAt m ino.entry (blocksFor ino.entry.numBytes.toNat))
    (hdev : ino.entry.type ≠ inodeDevice) (hle : o ≤ ino.entry.numBytes.toNat) :
    inodeWrite sb m i ino o [] = some (0, m, ino) ↔ 0 < o := by
  refine ⟨fun hsome => Nat.pos_of_ne_zero ?_, fun ho => ?_⟩
  · rintro rfl
    rw [inodeWrite_nil_zero hdev] at hsome
    cases hsome
  have hnb := ino.entry.numBytes.toNat_lt
  set nb := ino.entry.numBytes.toNat with hnbdef
  have hmax : o ≤ inodeMaxBytes := by
    have := le_blocksFor nb
    have := Nat.mul_le_mul_right blockSize h.le_max
    simp only [inodeMaxBytes]
    omega
  have hstop : o % 2 ^ 64 = o := Nat.mod_eq_of_lt (by omega)
  have hloop : writeLoop sb ((o - 1) / blockSize + 1 - o / blockSize) (o / blockSize) o o [] m
      ino.entry = some (0, m, ino.entry) := by
    by_cases hal : o % blockSize = 0
    · rw [show (o - 1) / blockSize + 1 - o / blockSize = 0 by simp only [blockSize] at *; omega]
      rfl
    · -- the offset is inside of a block, which the size of the file reaches
      have hlt : o / blockSize < blocksFor nb := by
        simp only [blocksFor, blockSize] at *
        omega
      rw [show (o - 1) / blockSize + 1 - o / blockSize = 1 by simp only [blockSize] at *; omega]
      exact writeLoop_round_nil (hlt.trans_le h.le_max)
        ((h.mapped _ (hlt.trans_le h.le_max)).2 hlt)
  simp only [inodeWrite, if_neg hdev, List.length_nil, Nat.add_zero, ← hnbdef, hstop,
    last_of_pos ho (by omega : o < 2 ^ 64)]
  rw [if_pos ⟨hle, hmax, le_rfl⟩, hloop]
  simp only [Option.bind_eq_bind, Option.bind_some]
  rw [if_neg (by omega)]

/-- A file with one byte. -/
theorem inodeWrite_nil_oneByte : ∃ m' ino',
    inodeWrite mkfsLayout (oneFile 12).blocks 1 ⟨1, true, emptyFile⟩ 0 [7] = some (1, m', ino') ∧
      inodeWrite mkfsLayout m' 1 ino' 1 [] = some (0, m', ino') := by
  have hkey : (inodeWrite mkfsLayout (oneFile 12).blocks 1 ⟨1, true, emptyFile⟩ 0 [7]).map
      (fun r => (r.1, decide (r.2.2.entry.type ≠ inodeDevice),
        decide (1 ≤ r.2.2.entry.numBytes.toNat))) = some (1, true, true) := by
    decide +kernel
  obtain ⟨⟨c, m', ino'⟩, hw, heq⟩ := Option.map_eq_some_iff.1 hkey
  simp only [Prod.mk.injEq, decide_eq_true_eq] at heq
  obtain ⟨rfl, hdev, hsize⟩ := heq
  have hinv := inv_oneFile.write layout_mkfsLayout rfl (by decide) (by decide) hw
  have hshape := (hinv.fileAt (update_self _ _ _)).shape
  exact ⟨m', ino', hw, (inodeWrite_nil hshape hdev hsize).2 (by decide)⟩

/-- **A write of no bytes to an empty file panics.** -/
theorem empty_write_panics :
    ShapeAt (oneFile 12).blocks emptyFile (blocksFor emptyFile.numBytes.toNat) ∧
      inodeWrite mkfsLayout (oneFile 12).blocks 1 ⟨1, true, emptyFile⟩ 0 [] = none :=
  ⟨shapeAt_cleared _ InodeEntry.zero inodeRegular, inodeWrite_nil_zero (by decide)⟩

/-! ## `fileread` -/

namespace OpenFile

section

variable (h : Inv sb fs) (hino : fs.icache f.ip = some ino) (hreg : ino.entry.type = inodeRegular)
variable (hreadable : f.readable = true) (ho : f.off ≤ ino.entry.numBytes.toNat)
include h hino hreg hreadable ho

/-- **`fileread` reads on from the offset**: it returns what is left of the
file, up to `n` bytes, advances the offset by it and changes nothing
else. -/
theorem fileread_regular {n : ℕ} (hn : f.off + n < 2 ^ 64) :
    ∃ bytes, bytes = ((content fs.blocks ino.entry).drop f.off).take n ∧
      fileread sb fs f n =
        some ((bytes.length : ℤ), bytes, fs, { f with off := f.off + bytes.length }) := by
  have hdev : ino.entry.type ≠ inodeDevice := hreg ▸ by decide
  refine ⟨_, rfl, ?_⟩
  set bytes := ((content fs.blocks ino.entry).drop f.off).take n with hbytes
  have hread : inodeRead sb fs.console fs.blocks ino.entry f.off n =
      some (bytes, fs.blocks, ino.entry) := inodeRead_content (h.fileAt hino).shape hdev ho hn
  have hlen : bytes.length ≤ n := by
    rw [hbytes, List.length_take]
    omega
  have harg : ((n : ℤ) % 2 ^ 64).toNat = n := by omega
  have hset : fs.set f.ip fs.blocks (some ino) = fs := by
    rw [FS.set, ← hino, update_eq_self]
  rw [fileread, if_pos hreadable, hino, Option.bind_eq_bind, Option.bind_some, harg, hread]
  simp only [Option.bind_eq_bind, Option.bind_some, hset, advance]
  rw [Nat.mod_eq_of_lt (by omega)]

/-- **Calls of `fileread` read on**: together they return the file from the offset
on, whatever they ask for, and change nothing else. -/
theorem filereads_regular {ns : List ℕ} (hns : f.off + ns.sum < 2 ^ 64) :
    ∃ bytes, bytes = ((content fs.blocks ino.entry).drop f.off).take ns.sum ∧
      filereads sb fs ns f = some (bytes, fs, { f with off := f.off + bytes.length }) := by
  refine ⟨_, rfl, ?_⟩
  induction ns generalizing f with
  | nil => rfl
  | cons n ns ih =>
    rw [List.sum_cons] at hns ⊢
    obtain ⟨bytes, hbytes, hread⟩ := fileread_regular h hino hreg hreadable ho (n := n) (by omega)
    have hlen : bytes.length = min n (ino.entry.numBytes.toNat - f.off) := by simp [hbytes]
    have hrest := @ih { f with off := f.off + bytes.length } hino hreadable (by grind) (by grind)
    have hsplit : bytes ++ ((content fs.blocks ino.entry).drop (f.off + bytes.length)).take ns.sum =
        ((content fs.blocks ino.entry).drop f.off).take (n + ns.sum) := by
      rw [hbytes, ← List.drop_drop]
      ext1
      grind
    simp only [filereads, hread, hrest, Option.bind_eq_bind, Option.bind_some]
    rw [hsplit, Nat.add_assoc, ← List.length_append, hsplit]

end

/-- A file of two blocks is read from its third byte on, by calls that end in
the first block, in the second one and behind the file. -/
theorem filereads_regular_twoBlocks : ∃ fs ino, fs.icache 1 = some ino ∧
    content fs.blocks ino.entry = twoBlocks ∧
    filereads mkfsLayout fs [500, 11, 30] ⟨1, true, false, 2⟩ =
      some (twoBlocks.drop 2, fs, ⟨1, true, false, 514⟩) := by
  have hwrite := @inodeWrite_regular mkfsLayout (oneFile 12) 1 0 ⟨1, true, emptyFile⟩ twoBlocks
    layout_mkfsLayout inv_oneFile rfl rfl (by decide)
  rw [length_twoBlocks] at hwrite
  obtain ⟨m', ino', -, hinv, hreg, hsize, hcontent, -⟩ :=
    hwrite (by decide) (by decide) (le_trans (by decide) freeCount_oneFile)
  have hall : content m' ino'.entry = twoBlocks := hcontent.trans (by decide +kernel)
  have hino : ((oneFile 12).set 1 m' (some ino')).icache 1 = some ino' := by simp [FS.set]
  obtain ⟨bytes, hbytes, hread⟩ := @filereads_regular mkfsLayout ((oneFile 12).set 1 m' (some ino'))
    ino' ⟨1, true, false, 2⟩ hinv hino hreg rfl (hsize ▸ by decide) [500, 11, 30]
    (by decide)
  have hdrop : bytes = twoBlocks.drop 2 := by
    refine hbytes.trans ?_
    change ((content m' ino'.entry).drop 2).take 541 = _
    rw [hall]
    decide +kernel
  rw [hdrop, List.length_drop, length_twoBlocks] at hread
  exact ⟨_, ino', hino, hall, hread⟩

/-! ## `filewrite` -/

/-- What one round of `filewrite` does to a regular file. -/
theorem writeChunk_spec (hino : fs.icache f.ip = some ino) (hreg : ino.Regular)
    (ht : 0 < t) (hle : t ≤ src.length) (hmx : t ≤ maxWrite)
    (h : writeChunk sb fs f src t = some (k, fs', f')) :
    k = t ∧ f'.ip = f.ip ∧ ∃ ino', fs'.icache f.ip = some ino' ∧ ino'.Regular := by
  have hlen : (src.take t).length = t := by
    rw [List.length_take]
    omega
  have hlt : maxWrite < 2 ^ 64 := by decide
  simp only [writeChunk, hino, Option.bind_eq_bind, Option.bind_some] at h
  obtain ⟨⟨c, m', ino'⟩, hwrite, h⟩ := Option.bind_eq_some_iff.1 h
  obtain ⟨rfl, -, hreg'⟩ := inodeWrite_bounds hreg (by omega) (by omega) hwrite
  cases h
  exact ⟨hlen, rfl, ino', update_self _ _ _, hreg'⟩

/-- **No fuel is enough for more bytes than one round takes.** The variable
`t` never exceeds the size of a round. -/
theorem filewriteLoop_eq_none (hn : maxWrite < src.length) :
    ∀ {fuel t : ℕ} {fs : FS} {f : OpenFile} {ino : Inode}, fs.icache f.ip = some ino →
      ino.Regular → t ≤ maxWrite → filewriteLoop sb src fuel fs f t = none := by
  intro fuel
  induction fuel with
  | zero =>
    intro t fs f ino _ _ _
    rfl
  | succ fuel ih =>
    intro t fs f ino hino hreg ht
    have hmx : 0 < maxWrite := by decide
    rw [filewriteLoop, if_pos (by omega)]
    refine Option.bind_eq_none_iff.2 fun ⟨k, fs', f'⟩ hchunk => ?_
    obtain ⟨rfl, hip, ino', hino', hreg'⟩ :=
      writeChunk_spec hino hreg (by omega) (by omega) (by omega) hchunk
    exact ih (hip ▸ hino') hreg' (by omega)

/-- **`filewrite` writes all of its bytes** if and only if one round takes
them. -/
theorem filewrite_all (hlay : Layout sb) (h : Inv sb fs) (hino : fs.icache f.ip = some ino)
    (hreg : ino.entry.type = inodeRegular) (hwritable : f.writable = true)
    (ho : f.off ≤ ino.entry.numBytes.toNat) (hsrc : 0 < src.length)
    (hmax : f.off + src.length ≤ inodeMaxBytes)
    (hfree : blockCost (blocksFor ino.entry.numBytes.toNat)
      (blocksFor (max ino.entry.numBytes.toNat (f.off + src.length))) ≤ freeCount sb fs.blocks) :
    (∃ (k : ℕ) (fs' : FS) (ino' : Inode),
      (∀ fuel ≥ k, filewrite sb fuel fs f src =
        some ((src.length : ℤ), fs', { f with off := f.off + src.length })) ∧
      fs'.icache = update fs.icache f.ip (some ino') ∧
      content fs'.blocks ino'.entry = spliced (content fs.blocks ino.entry) f.off src ∧
      ∀ j, j ≠ f.ip → Live sb (diskEntry sb fs.blocks) j →
        diskEntry sb fs'.blocks j = diskEntry sb fs.blocks j ∧
        content fs'.blocks (diskEntry sb fs'.blocks j) =
          content fs.blocks (diskEntry sb fs.blocks j)) ↔ src.length ≤ maxWrite := by
  refine ⟨fun ⟨k, fs', ino', hall, _⟩ => not_lt.1 fun hn => ?_, fun hn => ?_⟩
  · have hnone := hall k le_rfl
    rw [filewrite, if_pos hwritable, filewriteLoop_eq_none hn hino
      ⟨(h.cached _ _ hino).1, hreg⟩ (Nat.zero_le _)] at hnone
    cases hnone
  obtain ⟨m', ino', hw, -, -, -, hcontent, hother⟩ :=
    inodeWrite_regular hlay h hino hreg ho hsrc hmax hfree
  have hoff : f.advance src.length = { f with off := f.off + src.length } := by
    have hbound : inodeMaxBytes < 2 ^ 64 := by decide
    rw [advance, Nat.mod_eq_of_lt (by omega)]
  have hchunk : writeChunk sb fs f src src.length =
      some (src.length, fs.set f.ip m' (some ino'), { f with off := f.off + src.length }) := by
    simp only [writeChunk, hino, Option.bind_eq_bind, Option.bind_some, List.take_length, hw, hoff]
  refine ⟨2, fs.set f.ip m' (some ino'), ino', fun fuel hfuel => ?_, rfl, hcontent, hother⟩
  -- one round, and the test that ends the loop
  obtain ⟨k, rfl⟩ := Nat.exists_eq_add_of_le' hfuel
  rw [filewrite, if_pos hwritable, filewriteLoop, if_pos hsrc, Nat.sub_zero, min_eq_right hn,
    hchunk]
  simp only [Option.bind_eq_bind, Option.bind_some]
  rw [filewriteLoop, if_neg (lt_irrefl _)]

/-- The file `1` of `oneFile`, opened for writing. -/
def writer : OpenFile := ⟨1, false, true, 0⟩

/-- Two blocks are written to an empty file. -/
theorem filewrite_all_twoBlocks : ∃ (k : ℕ) (fs' : FS) (ino' : Inode),
    (∀ fuel ≥ k, filewrite mkfsLayout fuel (oneFile 12) writer twoBlocks =
      some (514, fs', { writer with off := 514 })) ∧
    content fs'.blocks ino'.entry = twoBlocks := by
  have hall := @filewrite_all mkfsLayout (oneFile 12) ⟨1, true, emptyFile⟩ twoBlocks writer
    layout_mkfsLayout inv_oneFile rfl rfl rfl (by decide)
  rw [length_twoBlocks] at hall
  obtain ⟨k, fs', ino', hwrite, -, hcontent, -⟩ :=
    (hall (by decide) (by decide) (le_trans (by decide) freeCount_oneFile)).2 (by decide)
  exact ⟨k, fs', ino', hwrite, hcontent.trans (by decide +kernel)⟩

/-- **`filewrite` of one byte more than a round takes never returns.** The
file is empty and has the blocks that the bytes need. -/
theorem filewrite_never_returns : Inv mkfsLayout (oneFile 12) ∧
    ∃ src : List UInt8, src.length = maxWrite + 1 ∧ 0 + src.length ≤ inodeMaxBytes ∧
    blockCost (blocksFor emptyFile.numBytes.toNat)
      (blocksFor (max emptyFile.numBytes.toNat (0 + src.length))) ≤
        freeCount mkfsLayout (oneFile 12).blocks ∧
    ∀ fuel, filewrite mkfsLayout fuel (oneFile 12) writer src = none := by
  have hlen : (List.replicate (maxWrite + 1) (7 : UInt8)).length = maxWrite + 1 :=
    List.length_replicate
  refine ⟨inv_oneFile, List.replicate (maxWrite + 1) 7, hlen, ?_, ?_, fun fuel => ?_⟩
  · rw [hlen]
    decide
  · rw [hlen]
    exact freeCount_oneFile
  · have hwritable : writer.writable = true := rfl
    have hino : (oneFile 12).icache writer.ip = some ⟨1, true, emptyFile⟩ := rfl
    rw [filewrite, if_pos hwritable]
    exact filewriteLoop_eq_none (by rw [hlen]; exact Nat.lt_succ_self _) hino ⟨rfl, rfl⟩
      (Nat.zero_le _)

end OpenFile

end OsKernel.Fs
