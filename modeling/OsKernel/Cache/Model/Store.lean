import OsKernel.Common.Bytes

/-!
# The block cache — model of the store

The data model of `fs/defines.h` and `fs/cache.h` and the functions of
`fs/cache.c` that move blocks between the disk and the cache. The disk is
a map from block numbers to contents with atomic single-block writes, the
cache is the list that starts at `head`, most recently acquired first.

`cacheAcquire` is `none` where the C code waits for another holder of the
block: it then starts over once the block is free, so a blocked call is a
call not yet made. The sleep lock of a block is left out, since it is
held exactly while `acquired` is set.
-/

namespace OsKernel.Cache

/-- `BLOCK_SIZE`. -/
abbrev blockSize : ℕ := 512

/-- `LOG_MAX_SIZE`, the number of `usize` entries a header block has room
for beside its counter. -/
abbrev logMaxSize : ℕ := 63

/-- `OP_MAX_NUM_BLOCKS`. -/
abbrev opMaxNumBlocks : ℕ := 10

/-- `EVICTION_THRESHOLD`. -/
abbrev evictionThreshold : ℕ := 20

/-- The content of a block. -/
abbrev BlockData : Type := Bytes blockSize

/-- A disk: the content of each block. -/
abbrev Disk : Type := ℕ → BlockData

/-- The super block, which describes the disk layout. -/
structure SuperBlock where
  numBlocks : ℕ
  numDataBlocks : ℕ
  numInodes : ℕ
  /-- The number of blocks for logging, including the log header. -/
  numLogBlocks : ℕ
  logStart : ℕ
  inodeStart : ℕ
  bitmapStart : ℕ
deriving DecidableEq, Repr

/-- The layout that `mkfs` writes. -/
def mkfsLayout : SuperBlock where
  numBlocks := 1000
  numDataBlocks := 908
  numInodes := 200
  numLogBlocks := 63
  logStart := 2
  inodeStart := 65
  bitmapStart := 91

/-- A disk with nothing on it. -/
def zeroDisk : Disk := fun _ => Bytes.zero

/-- The blocks of the logging area, the log header first. -/
def SuperBlock.InLog (sb : SuperBlock) (n : ℕ) : Prop :=
  sb.logStart ≤ n ∧ n < sb.logStart + sb.numLogBlocks

instance (sb : SuperBlock) (n : ℕ) : Decidable (sb.InLog n) :=
  inferInstanceAs (Decidable (_ ∧ _))

/-- The block that holds the logged copy of entry `i`. -/
def SuperBlock.logBlock (sb : SuperBlock) (i : ℕ) : ℕ := sb.logStart + i + 1

/-! ## The log header -/

/-- `LogHeader`. Both fields are `usize`; the array has `logMaxSize`
elements. -/
structure LogHeader where
  numBlocks : ℕ
  blockNo : ℕ → ℕ

namespace LogHeader

/-- The block numbers the header lists. -/
def entries (h : LogHeader) : List ℕ := (List.range h.numBlocks).map h.blockNo

/-- The `usize` words of the header as they lie in memory. -/
def word (h : LogHeader) : ℕ → ℕ
  | 0 => h.numBlocks
  | j + 1 => h.blockNo j

/-- The header as the bytes of a block. -/
def encode (h : LogHeader) : BlockData :=
  Bytes.ofFn fun k => Bytes.leByte (h.word (k / 8)) (k % 8)

/-- The bytes of a block as a header. -/
def decode (b : BlockData) : LogHeader where
  numBlocks := b.readLE 0 8
  blockNo := fun j => b.readLE (8 * (j + 1)) 8

end LogHeader

/-- `read_header`. -/
def readHeader (sb : SuperBlock) (d : Disk) : LogHeader := LogHeader.decode (d sb.logStart)

/-- `write_header`. -/
def writeHeader (sb : SuperBlock) (h : LogHeader) (d : Disk) : Disk :=
  Function.update d sb.logStart h.encode

/-! ## The cached blocks -/

/-- A cached block. -/
structure Block where
  blockNo : ℕ
  /-- Is the block already acquired by some thread? -/
  acquired : Bool
  /-- A pinned block is not evicted. -/
  pinned : Bool
  /-- Is the content of the block loaded from disk? -/
  valid : Bool
  data : BlockData

namespace Block

/-- `b` with `acquired` set to `a`. -/
def setAcquired (a : Bool) (b : Block) : Block := { b with acquired := a }

/-- `b` with `pinned` set to `p`. -/
def setPinned (p : Bool) (b : Block) : Block := { b with pinned := p }

/-- `b` with the content `d`. -/
def setData (d : BlockData) (b : Block) : Block := { b with data := d }

end Block

/-- The disk and the block list. -/
structure Store where
  disk : Disk
  cache : List Block

namespace Store

/-- The cached block with number `n`. -/
def get (s : Store) (n : ℕ) : Option Block := s.cache.find? fun b => b.blockNo = n

/-- Applies `f` to the cached block with number `n`. -/
def modify (s : Store) (n : ℕ) (f : Block → Block) : Store :=
  { s with cache := s.cache.map fun b => if b.blockNo = n then f b else b }

end Store

/-- The eviction loop of `cache_acquire`, over the list from its tail:
as long as `cnum` blocks are too many, a block neither pinned nor
acquired is dropped. -/
def evictLoop : List Block → ℕ → List Block
  | [], _ => []
  | b :: bs, cnum =>
    if evictionThreshold ≤ cnum then
      if !b.pinned && !b.acquired then evictLoop bs (cnum - 1) else b :: evictLoop bs cnum
    else b :: bs

/-- What the eviction loop leaves of the block list. -/
def evict (bs : List Block) : List Block := (evictLoop bs.reverse bs.length).reverse

/-- `cache_acquire`. The acquired block is the first of the list. -/
def cacheAcquire (n : ℕ) (s : Store) : Option Store :=
  match s.get n with
  | some b =>
    if b.acquired then none
    else some { s with
      cache := b.setAcquired true :: s.cache.eraseP fun b => b.blockNo = n }
  | none =>
    some { s with cache := ⟨n, true, false, true, s.disk n⟩ :: evict s.cache }

/-- `cache_release`. -/
def cacheRelease (n : ℕ) (s : Store) : Store :=
  s.modify n (Block.setAcquired false)

/-- `device_write` of the cached block `n`. -/
def deviceWrite (n : ℕ) (s : Store) : Store :=
  match s.get n with
  | some b => { s with disk := Function.update s.disk n b.data }
  | none => s

/-- `memmove` of a whole block, from the cached block `src` to the cached
block `dst`. -/
def moveData (dst src : ℕ) (s : Store) : Store :=
  match s.get src with
  | some b => s.modify dst (Block.setData b.data)
  | none => s

/-- The body of the first loop of `cache_end_op`: entry `i` of the header
is copied to its log block. -/
def copyToLog (sb : SuperBlock) (h : LogHeader) (i : ℕ) (s : Store) : Option Store := do
  let s ← cacheAcquire (sb.logBlock i) s
  let s ← cacheAcquire (h.blockNo i) s
  let s := moveData (sb.logBlock i) (h.blockNo i) s
  let s := deviceWrite (sb.logBlock i) s
  let s := cacheRelease (sb.logBlock i) s
  pure (cacheRelease (h.blockNo i) s)

/-- The body of the loop of `log_wb`: the logged copy of entry `i` is
installed in its home block, which is no longer pinned. -/
def installHome (sb : SuperBlock) (h : LogHeader) (i : ℕ) (s : Store) : Option Store := do
  let s ← cacheAcquire (sb.logBlock i) s
  let s ← cacheAcquire (h.blockNo i) s
  let s := moveData (h.blockNo i) (sb.logBlock i) s
  let s := deviceWrite (h.blockNo i) s
  let s := s.modify (h.blockNo i) (Block.setPinned false)
  let s := cacheRelease (sb.logBlock i) s
  pure (cacheRelease (h.blockNo i) s)

/-- The loop of `log_wb` from entry `i` on, with `k` entries left. -/
def logWbLoop (sb : SuperBlock) (h : LogHeader) : ℕ → ℕ → Store → Option Store
  | 0, _, s => some s
  | k + 1, i, s => (installHome sb h i s).bind (logWbLoop sb h k (i + 1))

/-- `log_wb`: install all entries and clear the log header. -/
def logWb (sb : SuperBlock) (h : LogHeader) (s : Store) : Option (LogHeader × Store) := do
  let s ← logWbLoop sb h h.numBlocks 0 s
  let h := { h with numBlocks := 0 }
  pure (h, { s with disk := writeHeader sb h s.disk })

/-- What `init_bcache` does to the disk and the block list: an empty
cache, the header read from disk, and the log written back. -/
def initStore (sb : SuperBlock) (d : Disk) : Option (LogHeader × Store) :=
  logWb sb (readHeader sb d) ⟨d, []⟩

end OsKernel.Cache
