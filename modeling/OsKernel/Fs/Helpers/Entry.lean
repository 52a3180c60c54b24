import OsKernel.Fs.Model.Ownership

/-!
# Helpers — entries, addresses and bits

An entry is read back as it was written and a write to one record leaves
the others alone: the lemmas by which the rest of the development reads
`diskEntry`, `addrAt` and `bit` after an update of one block.
-/

namespace OsKernel.Fs

open Function

open Cache

/-! ## The codec of an entry -/

namespace InodeEntry

/-- An entry reads its own 64 bytes and no others. -/
theorem decode_congr {a b : BlockData} {off : ℕ}
    (h : ∀ t < 64, a.get (off + t) = b.get (off + t)) : decode a off = decode b off := by
  have hread : ∀ d w, d + w ≤ 64 → a.readLE (off + d) w = b.readLE (off + d) w := by
    intro d w hdw
    refine Bytes.readLE_congr fun t ht => ?_
    rw [Nat.add_assoc]
    exact h (d + t) (by omega)
  have h0 := hread 0 2 (by omega)
  simp only [Nat.add_zero] at h0
  have haddrs : ∀ k : Fin inodeNumDirect,
      a.readLE (off + 12 + 4 * k) 4 = b.readLE (off + 12 + 4 * k) 4 := by
    intro k
    have hk := k.isLt
    rw [Nat.add_assoc]
    exact hread (12 + 4 * k) 4 (by simp only [inodeNumDirect] at hk; omega)
  simp only [decode, h0, hread 2 2 (by omega), hread 4 2 (by omega), hread 6 2 (by omega),
    hread 8 4 (by omega), hread 60 4 (by omega), haddrs]

/-- A field of a written entry, of width `w` at offset `d`. -/
theorem readLE_write {e : InodeEntry} {b : BlockData} {off d w v : ℕ} (hoff : off + 64 ≤ blockSize)
    (hdw : d + w ≤ 64) (hbyte : ∀ t < w, e.byte (d + t) = Bytes.leByte v t) :
    (e.write b off).readLE (off + d) w = v % 256 ^ w := by
  refine Bytes.readLE_of_leByte fun t ht => ?_
  rw [write, Bytes.get_splice_of_mem (by omega) (by omega),
    show off + d + t - off = d + t by omega, hbyte t ht]

/-- **An entry is read back as it was written.** -/
theorem decode_write (e : InodeEntry) (b : BlockData) {off : ℕ} (hoff : off + 64 ≤ blockSize) :
    decode (e.write b off) off = e := by
  have h16 : ∀ x : UInt16, UInt16.ofNat (x.toNat % 256 ^ 2) = x := fun x => by
    rw [Nat.mod_eq_of_lt (by have := x.toNat_lt; omega), UInt16.ofNat_toNat]
  have h32 : ∀ x : UInt32, UInt32.ofNat (x.toNat % 256 ^ 4) = x := fun x => by
    rw [Nat.mod_eq_of_lt (by have := x.toNat_lt; omega), UInt32.ofNat_toNat]
  have htype := readLE_write (e := e) (b := b) (d := 0) (w := 2) (v := e.type.toNat) hoff
    (by omega) fun t ht => by rw [byte, if_pos (by omega), Nat.zero_add]
  have hmajor := readLE_write (e := e) (b := b) (d := 2) (w := 2) (v := e.major.toNat) hoff
    (by omega) fun t ht => by
      rw [byte, if_neg (by omega), if_pos (by omega), show 2 + t - 2 = t by omega]
  have hminor := readLE_write (e := e) (b := b) (d := 4) (w := 2) (v := e.minor.toNat) hoff
    (by omega) fun t ht => by
      rw [byte, if_neg (by omega), if_neg (by omega), if_pos (by omega),
        show 4 + t - 4 = t by omega]
  have hlinks := readLE_write (e := e) (b := b) (d := 6) (w := 2) (v := e.numLinks.toNat) hoff
    (by omega) fun t ht => by
      rw [byte, if_neg (by omega), if_neg (by omega), if_neg (by omega), if_pos (by omega),
        show 6 + t - 6 = t by omega]
  have hbytes := readLE_write (e := e) (b := b) (d := 8) (w := 4) (v := e.numBytes.toNat) hoff
    (by omega) fun t ht => by
      rw [byte, if_neg (by omega), if_neg (by omega), if_neg (by omega), if_neg (by omega),
        if_pos (by omega), show 8 + t - 8 = t by omega]
  have hindirect := readLE_write (e := e) (b := b) (d := 60) (w := 4) (v := e.indirect.toNat) hoff
    (by omega) fun t ht => by
      rw [byte, if_neg (by omega), if_neg (by omega), if_neg (by omega), if_neg (by omega),
        if_neg (by omega), dif_neg (by simp only [inodeNumDirect]; omega),
        show 60 + t - 60 = t by omega]
  have haddrs : ∀ k : Fin inodeNumDirect,
      (e.write b off).readLE (off + 12 + 4 * k) 4 = (e.addrs k).toNat % 256 ^ 4 := by
    intro k
    have hk : (k : ℕ) < 12 := k.isLt
    rw [Nat.add_assoc]
    refine readLE_write hoff (by omega) fun t ht => ?_
    have hdiv : (12 + 4 * (k : ℕ) + t - 12) / 4 = k := by omega
    have hmod : (12 + 4 * (k : ℕ) + t - 12) % 4 = t := by omega
    rw [byte, if_neg (by omega), if_neg (by omega), if_neg (by omega), if_neg (by omega),
      if_neg (by omega), dif_pos (by rw [hdiv]; exact k.isLt)]
    simp only [hdiv, hmod, Fin.eta]
  rw [Nat.add_zero] at htype
  cases e
  simp only [decode, htype, hmajor, hminor, hlinks, hbytes, hindirect, haddrs, h16, h32]

/-- **And leaves the entries beside it alone.** -/
theorem decode_write_of_disjoint {e : InodeEntry} {b : BlockData} {off off' : ℕ}
    (h : off' + 64 ≤ off ∨ off + 64 ≤ off') : decode (e.write b off) off' = decode b off' :=
  decode_congr fun t ht => Bytes.get_splice_of_not_mem (by omega)

end InodeEntry

/-! ## Entries on disk -/

variable {sb : SuperBlock} {m m' : Blocks} {i j n : ℕ}

theorem entryOff_le (i : ℕ) : entryOff i + 64 ≤ blockSize := by
  have := Nat.mod_lt i (show 0 < inodePerBlock by decide)
  simp only [entryOff, blockSize, inodePerBlock] at *
  omega

theorem diskEntry_putEntry_self (sb : SuperBlock) (m : Blocks) (i : ℕ) (e : InodeEntry) :
    diskEntry sb (putEntry sb m i e) i = e := by
  rw [diskEntry, putEntry, update_self]
  exact InodeEntry.decode_write e _ (entryOff_le i)

/-- The entries of two inodes do not overlap. -/
theorem diskEntry_putEntry_of_ne {e : InodeEntry} (h : j ≠ i) :
    diskEntry sb (putEntry sb m i e) j = diskEntry sb m j := by
  unfold diskEntry putEntry
  by_cases hb : toBlockNo sb j = toBlockNo sb i
  · rw [hb, update_self]
    refine InodeEntry.decode_write_of_disjoint ?_
    simp only [toBlockNo, entryOff, inodePerBlock] at *
    omega
  · rw [update_of_ne hb]

/-- The entries on disk after one is written. -/
theorem diskEntry_putEntry (sb : SuperBlock) (m : Blocks) (i : ℕ) (e : InodeEntry) :
    diskEntry sb (putEntry sb m i e) = update (diskEntry sb m) i e := by
  funext j
  by_cases h : j = i
  · subst h
    rw [diskEntry_putEntry_self, update_self]
  · rw [diskEntry_putEntry_of_ne h, update_of_ne h]

/-! ## Addresses of an indirect block -/

theorem addrAt_writeLE {b : BlockData} {k l : ℕ} (hk : k < inodeNumIndirect) (v : ℕ) :
    addrAt (b.writeLE (4 * k) 4 v) l = if l = k then v % 2 ^ 32 else addrAt b l := by
  simp only [addrAt]
  split_ifs with h
  · subst h
    rw [Bytes.readLE_writeLE (by simp only [blockSize, inodeNumIndirect] at *; omega)]
    norm_num
  · exact Bytes.readLE_writeLE_of_disjoint (by omega)

@[simp] theorem addrAt_zero (k : ℕ) : addrAt Bytes.zero k = 0 := Bytes.readLE_zero _ _

/-! ## Bits -/

theorem bit_congr (h : m' (bitmapBlock sb n) = m (bitmapBlock sb n)) :
    bit sb m' n = bit sb m n := by
  rw [bit, bit, h]

/-- Two blocks with the same bit are the same. -/
theorem eq_iff_bit_eq {n n' : ℕ} (hb : bitmapBlock sb n = bitmapBlock sb n') :
    n = n' ↔ n % bitPerBlock = n' % bitPerBlock := by
  simp only [bitmapBlock, bitPerBlock, blockSize] at *
  omega

/-- The bits after the bitmap block of block `n` is written. -/
theorem bit_update (b : BlockData) (n x : ℕ) :
    bit sb (update m (bitmapBlock sb n) b) x =
      if bitmapBlock sb x = bitmapBlock sb n then b.bitmapGet (x % bitPerBlock)
      else bit sb m x := by
  split_ifs with hb
  · rw [bit, hb, update_self]
  · exact bit_congr (update_of_ne hb _ _)

theorem mod_bitPerBlock_lt (n : ℕ) : n % bitPerBlock / 8 < blockSize := by
  have := Nat.mod_lt n (show 0 < bitPerBlock by decide)
  simp only [bitPerBlock, blockSize] at *
  omega

/-- The bits after the bit of block `n` is set. -/
theorem bit_set (n x : ℕ) :
    bit sb (update m (bitmapBlock sb n)
      ((m (bitmapBlock sb n)).bitmapSet (n % bitPerBlock))) x = (bit sb m x || decide (x = n)) := by
  rw [bit_update]
  split_ifs with hb
  · rw [Bytes.bitmapGet_bitmapSet (mod_bitPerBlock_lt n) (by decide), bit, hb,
      decide_eq_decide.2 (eq_iff_bit_eq hb)]
  · have hne : x ≠ n := fun he => hb (by rw [he])
    simp [hne]

/-- The bits after the bit of block `n` is cleared. -/
theorem bit_clear (n x : ℕ) :
    bit sb (update m (bitmapBlock sb n)
      ((m (bitmapBlock sb n)).bitmapClear (n % bitPerBlock))) x =
      (bit sb m x && !decide (x = n)) := by
  rw [bit_update]
  split_ifs with hb
  · rw [Bytes.bitmapGet_bitmapClear (mod_bitPerBlock_lt n) (by decide), bit, hb,
      decide_eq_decide.2 (eq_iff_bit_eq hb)]
  · have hne : x ≠ n := fun he => hb (by rw [he])
    simp [hne]

end OsKernel.Fs
