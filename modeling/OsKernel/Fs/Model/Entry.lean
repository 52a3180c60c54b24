import OsKernel.Common.Bitmap
import OsKernel.Cache.Model.Store

/-!
# The file system — what lies in a block

The on-disk records of `fs/defines.h`: inode entries, the addresses of an
indirect block, and directory entries. Their fields have the width the
source gives them, and lie in a block at the offsets the C structures
have.
-/

namespace OsKernel.Fs

open Cache

/-- `INODE_NUM_DIRECT`. -/
abbrev inodeNumDirect : ℕ := 12

/-- `INODE_NUM_INDIRECT`. -/
abbrev inodeNumIndirect : ℕ := 128

/-- `INODE_PER_BLOCK`. -/
abbrev inodePerBlock : ℕ := 8

/-- `INODE_MAX_BLOCKS`. -/
abbrev inodeMaxBlocks : ℕ := inodeNumDirect + inodeNumIndirect

/-- `INODE_MAX_BYTES`. -/
abbrev inodeMaxBytes : ℕ := inodeMaxBlocks * blockSize

/-- `BIT_PER_BLOCK`. -/
abbrev bitPerBlock : ℕ := blockSize * 8

/-- `SWAP_START`, the first block kept for swapping. -/
abbrev swapStart : ℕ := 800

/-- `FILE_NAME_MAX_LENGTH`. -/
abbrev fileNameMaxLength : ℕ := 14

/-- `INODE_INVALID`. -/
abbrev inodeInvalid : UInt16 := 0

/-- `INODE_DIRECTORY`. -/
abbrev inodeDirectory : UInt16 := 1

/-- `INODE_REGULAR`. -/
abbrev inodeRegular : UInt16 := 2

/-- `INODE_DEVICE`. -/
abbrev inodeDevice : UInt16 := 3

/-! ## Inode entries -/

/-- `InodeEntry`. -/
structure InodeEntry where
  type : UInt16
  major : UInt16
  minor : UInt16
  numLinks : UInt16
  numBytes : UInt32
  addrs : Fin inodeNumDirect → UInt32
  indirect : UInt32
deriving DecidableEq

namespace InodeEntry

/-- The entry that `memset` with zero leaves. -/
def zero : InodeEntry := ⟨0, 0, 0, 0, 0, fun _ => 0, 0⟩

/-- Byte `k` of the 64 bytes of an entry. -/
def byte (e : InodeEntry) (k : ℕ) : UInt8 :=
  if k < 2 then Bytes.leByte e.type.toNat k
  else if k < 4 then Bytes.leByte e.major.toNat (k - 2)
  else if k < 6 then Bytes.leByte e.minor.toNat (k - 4)
  else if k < 8 then Bytes.leByte e.numLinks.toNat (k - 6)
  else if k < 12 then Bytes.leByte e.numBytes.toNat (k - 8)
  else if h : (k - 12) / 4 < inodeNumDirect then
    Bytes.leByte (e.addrs ⟨(k - 12) / 4, h⟩).toNat ((k - 12) % 4)
  else Bytes.leByte e.indirect.toNat (k - 60)

/-- The entry that lies at offset `off` of a block. -/
def decode (b : BlockData) (off : ℕ) : InodeEntry where
  type := UInt16.ofNat (b.readLE off 2)
  major := UInt16.ofNat (b.readLE (off + 2) 2)
  minor := UInt16.ofNat (b.readLE (off + 4) 2)
  numLinks := UInt16.ofNat (b.readLE (off + 6) 2)
  numBytes := UInt32.ofNat (b.readLE (off + 8) 4)
  addrs := fun k => UInt32.ofNat (b.readLE (off + 12 + 4 * k) 4)
  indirect := UInt32.ofNat (b.readLE (off + 60) 4)

/-- `memmove` of an entry to offset `off` of a block. -/
def write (e : InodeEntry) (b : BlockData) (off : ℕ) : BlockData := b.splice off 64 e.byte

end InodeEntry

/-- The number of blocks that hold `n` bytes. -/
def blocksFor (n : ℕ) : ℕ := (n + (blockSize - 1)) / blockSize

/-- `get_addrs(block)[j]`, an address of an indirect block. -/
def addrAt (b : BlockData) (j : ℕ) : ℕ := b.readLE (4 * j) 4

/-! ## Directory entries -/

/-- `DirEntry`. -/
structure DirEntry where
  inodeNo : UInt16
  name : Bytes fileNameMaxLength

namespace DirEntry

/-- The 16 bytes of a directory entry. -/
def toBytes (d : DirEntry) : List UInt8 :=
  (List.range 16).map fun k =>
    if k < 2 then Bytes.leByte d.inodeNo.toNat k else d.name.get (k - 2)

/-- The directory entry that lies in 16 bytes. -/
def ofBytes (l : List UInt8) : DirEntry where
  inodeNo := UInt16.ofNat ((l.getD 0 0).toNat + (l.getD 1 0).toNat * 256)
  name := Bytes.ofFn fun k => l.getD (k + 2) 0

end DirEntry

/-- `strncmp(a, b, n) == 0`, from index `i` on. -/
def strncmpEq (a b : Bytes fileNameMaxLength) (i : ℕ) : ℕ → Bool
  | 0 => true
  | n + 1 =>
    if a.get i = b.get i then a.get i = 0 || strncmpEq a b (i + 1) n else false

end OsKernel.Fs
