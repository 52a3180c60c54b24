import OsKernel.Fs.Model.Inode

/-!
# The file system — which inode owns which block

The invariant of an image. `addr` lists the addresses that an entry
holds, directly or through its indirect block; no two slots of allocated
inodes hold the same address, held addresses are marked in the bitmap,
and the blocks of a file are those its size asks for.

`PlainInv` says this and that the inodes in memory agree with the disk.
`Inv` says in addition what keeps the files apart from the rest of the
disk: everything before the data area is marked, addresses lie in the
data area, and the inodes in memory are allocated.
-/

namespace OsKernel.Fs

open Cache

/-- The first data block. -/
def dataStart (sb : SuperBlock) : ℕ := sb.numBlocks - sb.numDataBlocks

/-- The areas for inodes, bitmap and data follow each other, and the
bitmap has at least the bits of what comes before the data. -/
structure Layout (sb : SuperBlock) : Prop where
  inode_lt : ∀ i < sb.numInodes, toBlockNo sb i < sb.bitmapStart
  bitmap_lt : bitmapBlock sb (dataStart sb) < dataStart sb

/-- A data block that the bitmap covers. -/
def InData (sb : SuperBlock) (n : ℕ) : Prop :=
  dataStart sb ≤ n ∧ bitmapBlock sb n < dataStart sb

/-- The slot of an entry that holds the address of the indirect block. -/
abbrev indirectSlot : ℕ := inodeMaxBlocks

/-- The address in slot `k` of an entry. The slots below `inodeMaxBlocks`
are the blocks of the file in order. -/
def addr (m : Blocks) (e : InodeEntry) (k : ℕ) : ℕ :=
  if h : k < inodeNumDirect then (e.addrs ⟨k, h⟩).toNat
  else if k < inodeMaxBlocks then
    if e.indirect = 0 then 0 else addrAt (m e.indirect.toNat) (k - inodeNumDirect)
  else if k = indirectSlot then e.indirect.toNat
  else 0

/-- The first `B` blocks of the file are mapped and no others, and there
is an indirect block if they need one. -/
structure ShapeAt (m : Blocks) (e : InodeEntry) (B : ℕ) : Prop where
  le_max : B ≤ inodeMaxBlocks
  mapped : ∀ k < inodeMaxBlocks, addr m e k ≠ 0 ↔ k < B
  indirect : e.indirect ≠ 0 ↔ inodeNumDirect < B

/-- The inodes that are allocated, by their entries `E`. -/
def Live (sb : SuperBlock) (E : ℕ → InodeEntry) (i : ℕ) : Prop :=
  0 < i ∧ i < sb.numInodes ∧ (E i).type ≠ inodeInvalid

/-- **Ownership of blocks** by inodes with the entries `E`. -/
structure Owned (sb : SuperBlock) (m : Blocks) (E : ℕ → InodeEntry) : Prop where
  reserved : ∀ n < dataStart sb, bit sb m n = true
  unique : ∀ i j k l, Live sb E i → Live sb E j → addr m (E i) k ≠ 0 →
    addr m (E i) k = addr m (E j) l → i = j ∧ k = l
  marked : ∀ i k, Live sb E i → addr m (E i) k ≠ 0 → bit sb m (addr m (E i) k) = true
  data : ∀ i k, Live sb E i → addr m (E i) k ≠ 0 → InData sb (addr m (E i) k)

/-- The three clauses one would ask of an image and its inodes in memory. -/
structure PlainInv (sb : SuperBlock) (fs : FS) : Prop where
  unique : ∀ i j k l, Live sb (diskEntry sb fs.blocks) i → Live sb (diskEntry sb fs.blocks) j →
    addr fs.blocks (diskEntry sb fs.blocks i) k ≠ 0 →
    addr fs.blocks (diskEntry sb fs.blocks i) k = addr fs.blocks (diskEntry sb fs.blocks j) l →
    i = j ∧ k = l
  marked : ∀ i k, Live sb (diskEntry sb fs.blocks) i →
    addr fs.blocks (diskEntry sb fs.blocks i) k ≠ 0 →
    bit sb fs.blocks (addr fs.blocks (diskEntry sb fs.blocks i) k) = true
  shape : ∀ i, Live sb (diskEntry sb fs.blocks) i →
    ShapeAt fs.blocks (diskEntry sb fs.blocks i)
      (blocksFor (diskEntry sb fs.blocks i).numBytes.toNat)
  cached : ∀ i ino, fs.icache i = some ino → ino.valid = true →
    ino.entry = diskEntry sb fs.blocks i

/-- **The invariant of an image and its inodes in memory.** -/
structure Inv (sb : SuperBlock) (fs : FS) : Prop where
  owned : Owned sb fs.blocks (diskEntry sb fs.blocks)
  shape : ∀ i, Live sb (diskEntry sb fs.blocks) i →
    ShapeAt fs.blocks (diskEntry sb fs.blocks i)
      (blocksFor (diskEntry sb fs.blocks i).numBytes.toNat)
  cached : ∀ i ino, fs.icache i = some ino → ino.valid = true ∧
    Live sb (diskEntry sb fs.blocks) i ∧ ino.entry = diskEntry sb fs.blocks i

theorem Inv.plain {sb : SuperBlock} {fs : FS} (h : Inv sb fs) : PlainInv sb fs where
  unique := h.owned.unique
  marked := h.owned.marked
  shape := h.shape
  cached := fun i ino hi _ => (h.cached i ino hi).2.2

end OsKernel.Fs
