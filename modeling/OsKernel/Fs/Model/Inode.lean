import OsKernel.Fs.Model.Entry

/-!
# The file system — model of the inode layer

The functions of `fs/inode.c` with `cache_alloc` and `cache_free` of
`fs/cache.c`, over the block cache seen as a map from block numbers to
contents: `acquire` reads the map and `sync` writes it. A function is
`none` where the code panics or fails an `ASSERT`, and where it acquires
a block it holds already, which waits forever.

The functions run one at a time, so the locks of the inodes are left out.
An `Inode` is named by its number, since the list at `head` has one for
each; what the console delivers to a read of a device is part of the
state.
-/

namespace OsKernel.Fs

open Function

open Cache

/-- The block cache as a map. -/
abbrev Blocks : Type := ℕ → BlockData

/-! ## The bitmap of blocks -/

/-- The block of the bitmap that has the bit of block `n`. -/
def bitmapBlock (sb : SuperBlock) (n : ℕ) : ℕ := sb.bitmapStart + n / bitPerBlock

/-- The bit of block `n`. -/
def bit (sb : SuperBlock) (m : Blocks) (n : ℕ) : Bool :=
  (m (bitmapBlock sb n)).bitmapGet (n % bitPerBlock)

/-- The two loops of `cache_alloc`, which run through the blocks below
`SWAP_START` in order, from block `n` on with `k` blocks left. -/
def scanFree (sb : SuperBlock) (m : Blocks) : (k n : ℕ) → Option ℕ
  | 0, _ => none
  | k + 1, n => if bit sb m n then scanFree sb m k (n + 1) else some n

/-- The rest of `cache_alloc` for the free block `n`, which is marked and
filled with zeros. The blocks `held` are those that the caller holds. -/
def takeBlock (sb : SuperBlock) (held : List ℕ) (m : Blocks) (n : ℕ) : Option (ℕ × Blocks) :=
  if (∀ k ≤ n / bitPerBlock, sb.bitmapStart + k ∉ held) ∧ n ∉ held then
    let m := update m (bitmapBlock sb n)
      ((m (bitmapBlock sb n)).bitmapSet (n % bitPerBlock))
    some (n, update m n Bytes.zero)
  else none

/-- `cache_alloc`. -/
def cacheAlloc (sb : SuperBlock) (held : List ℕ) (m : Blocks) : Option (ℕ × Blocks) :=
  (scanFree sb m swapStart 0).bind (takeBlock sb held m)

/-- `cache_free` by a caller that holds the blocks `held`. -/
def cacheFree (sb : SuperBlock) (held : List ℕ) (m : Blocks) (n : ℕ) : Option Blocks :=
  if bitmapBlock sb n ∈ held then none
  else some (update m (bitmapBlock sb n)
    ((m (bitmapBlock sb n)).bitmapClear (n % bitPerBlock)))

/-! ## Entries on disk and in memory -/

/-- `to_block_no`. -/
def toBlockNo (sb : SuperBlock) (i : ℕ) : ℕ := sb.inodeStart + i / inodePerBlock

/-- The offset of `get_entry` in the block of the inode. -/
def entryOff (i : ℕ) : ℕ := 64 * (i % inodePerBlock)

/-- The entry of inode `i` on disk. -/
def diskEntry (sb : SuperBlock) (m : Blocks) (i : ℕ) : InodeEntry :=
  InodeEntry.decode (m (toBlockNo sb i)) (entryOff i)

/-- `memmove` of an entry to its place on disk. -/
def putEntry (sb : SuperBlock) (m : Blocks) (i : ℕ) (e : InodeEntry) : Blocks :=
  update m (toBlockNo sb i) (e.write (m (toBlockNo sb i)) (entryOff i))

/-- `Inode`, an inode in memory. -/
structure Inode where
  rc : ℤ
  /-- Is `entry` loaded? -/
  valid : Bool
  entry : InodeEntry

/-- `inode_sync` of inode `i`. -/
def inodeSync (sb : SuperBlock) (m : Blocks) (i : ℕ) (ino : Inode) (doWrite : Bool) :
    Blocks × Inode :=
  if ino.valid && doWrite then (putEntry sb m i ino.entry, ino)
  else if !ino.valid then (m, { ino with entry := diskEntry sb m i, valid := true })
  else (m, ino)

/-- `inode_alloc`. -/
def inodeAlloc (sb : SuperBlock) (m : Blocks) (type : UInt16) : Option (ℕ × Blocks) :=
  if type = inodeInvalid then none
  else
    match (List.range' 1 (sb.numInodes - 1)).find?
        (fun i => (diskEntry sb m i).type = inodeInvalid) with
    | none => none
    | some i => some (i, putEntry sb m i { InodeEntry.zero with type := type })

/-! ## The blocks of a file -/

/-- The part of `inode_map` that allocates the indirect block where there
is none. -/
def ensureIndirect (sb : SuperBlock) (m : Blocks) (e : InodeEntry) :
    Option (Blocks × InodeEntry) :=
  if e.indirect = 0 then
    (cacheAlloc sb [] m).map fun r => (r.2, { e with indirect := UInt32.ofNat r.1 })
  else some (m, e)

/-- The part of `inode_map` that looks up address `j` of the indirect
block, and allocates it where it is not set. The indirect block is held. -/
def mapIndirect (sb : SuperBlock) (m : Blocks) (e : InodeEntry) (j : ℕ) :
    Option (ℕ × Blocks × InodeEntry) :=
  let b := e.indirect.toNat
  if addrAt (m b) j = 0 then
    (cacheAlloc sb [b] m).map fun r =>
      let m := update r.2 b ((r.2 b).writeLE (4 * j) 4 r.1)
      (addrAt (m b) j, m, e)
  else some (addrAt (m b) j, m, e)

/-- `inode_map` of file block `k`: the block and, where it is allocated,
the updated entry. -/
def inodeMap (sb : SuperBlock) (m : Blocks) (e : InodeEntry) (k : ℕ) :
    Option (ℕ × Blocks × InodeEntry) :=
  if h : k < inodeNumDirect then
    if e.addrs ⟨k, h⟩ = 0 then
      (cacheAlloc sb [] m).map fun r =>
        let addr := UInt32.ofNat r.1
        (addr.toNat, r.2, { e with addrs := update e.addrs ⟨k, h⟩ addr })
    else some ((e.addrs ⟨k, h⟩).toNat, m, e)
  else if k < inodeNumDirect + inodeNumIndirect then
    (ensureIndirect sb m e).bind fun r => mapIndirect sb r.1 r.2 (k - inodeNumDirect)
  else none

/-- The loop of `inode_read` from file block `i` on, with `k` blocks left,
and the bytes it reads. -/
def readLoop (sb : SuperBlock) :
    (k i offset stop : ℕ) → Blocks → InodeEntry → Option (List UInt8 × Blocks × InodeEntry)
  | 0, _, _, _, m, e => some ([], m, e)
  | k + 1, i, offset, stop, m, e => do
    let n := min (stop - offset) ((i + 1) * blockSize - offset)
    let (b, m, e) ← inodeMap sb m e i
    let part := (List.range n).map fun t => (m b).get (offset % blockSize + t)
    let (rest, m, e) ← readLoop sb k (i + 1) (offset + n) stop m e
    some (part ++ rest, m, e)

/-- `inode_read`, with the sums of `usize` values taken modulo `2 ^ 64`. -/
def inodeRead (sb : SuperBlock) (console : ℕ → List UInt8) (m : Blocks) (e : InodeEntry)
    (offset count : ℕ) : Option (List UInt8 × Blocks × InodeEntry) :=
  if e.type = inodeDevice then if e.major = 1 then some (console count, m, e) else none
  else
    let numBytes := e.numBytes.toNat
    let count := if numBytes < (count + offset) % 2 ^ 64
      then (numBytes + (2 ^ 64 - offset)) % 2 ^ 64 else count
    let stop := (offset + count) % 2 ^ 64
    if offset ≤ numBytes ∧ stop ≤ numBytes ∧ offset ≤ stop then
      if count = 0 then some ([], m, e)
      else readLoop sb ((stop - 1) / blockSize + 1 - offset / blockSize) (offset / blockSize)
        offset stop m e
    else none

/-- The loop of `inode_write` from file block `i` on, with `k` blocks
left; the number of bytes written comes first. -/
def writeLoop (sb : SuperBlock) :
    (k i offset stop : ℕ) → List UInt8 → Blocks → InodeEntry → Option (ℕ × Blocks × InodeEntry)
  | 0, _, _, _, _, m, e => some (0, m, e)
  | k + 1, i, offset, stop, src, m, e => do
    let n := min (stop - offset) ((i + 1) * blockSize - offset)
    let (b, m, e) ← inodeMap sb m e i
    let m := update m b
      ((m b).splice (offset % blockSize) n fun t => src.getD t 0)
    let (count, m, e) ← writeLoop sb k (i + 1) (offset + n) stop (src.drop n) m e
    some (n + count, m, e)

/-- `inode_write` of inode `i`. The last index of the loop is `end - 1` as
a `usize`. -/
def inodeWrite (sb : SuperBlock) (m : Blocks) (i : ℕ) (ino : Inode) (offset : ℕ)
    (src : List UInt8) : Option (ℕ × Blocks × Inode) :=
  if ino.entry.type = inodeDevice then
    if ino.entry.major = 1 then some (src.length, m, ino) else none
  else
    let numBytes := ino.entry.numBytes.toNat
    let stop := (offset + src.length) % 2 ^ 64
    if offset ≤ numBytes ∧ stop ≤ inodeMaxBytes ∧ offset ≤ stop then do
      let last := ((stop + (2 ^ 64 - 1)) % 2 ^ 64) / blockSize
      let (count, m, e) ← writeLoop sb (last + 1 - offset / blockSize) (offset / blockSize)
        offset stop src m ino.entry
      if numBytes < stop then
        let (m, ino) := inodeSync sb m i
          { ino with entry := { e with numBytes := UInt32.ofNat stop } } true
        some (count, m, ino)
      else some (count, m, { ino with entry := e })
    else none

/-- The loop of `inode_clear` over a list of addresses: those that are set
are freed. -/
def freeAll (sb : SuperBlock) (held : List ℕ) (m : Blocks) : List ℕ → Option Blocks
  | [] => some m
  | n :: ns =>
    if n ≠ 0 then (cacheFree sb held m n).bind fun m => freeAll sb held m ns
    else freeAll sb held m ns

/-- The part of `inode_clear` that frees the indirect block and what it
lists. -/
def freeIndirect (sb : SuperBlock) (m : Blocks) (e : InodeEntry) : Option Blocks :=
  if e.indirect ≠ 0 then
    let b := e.indirect.toNat
    (freeAll sb [b] m ((List.range inodeNumIndirect).map (addrAt (m b)))).bind fun m =>
      cacheFree sb [] m b
  else some m

/-- The entry that `inode_clear` leaves. -/
def InodeEntry.cleared (e : InodeEntry) : InodeEntry :=
  { e with addrs := fun _ => 0, indirect := 0, numBytes := 0 }

/-- `inode_clear` of inode `i`. -/
def inodeClear (sb : SuperBlock) (m : Blocks) (i : ℕ) (ino : Inode) :
    Option (Blocks × Inode) := do
  let m ← freeAll sb [] m (List.ofFn fun k => (ino.entry.addrs k).toNat)
  let m ← freeIndirect sb m ino.entry
  some (inodeSync sb m i { ino with entry := ino.entry.cleared } true)

/-! ## Directories -/

/-- The bytes of a `DirEntry` after a read into it: what the read does not
reach keeps the old bytes. -/
def overlay (old new : List UInt8) : List UInt8 := new ++ old.drop new.length

/-- The loop of `inode_lookup` from `offset` on, with `k` steps left; `de`
are the bytes of an uninitialised `DirEntry`. The result is the inode
number and the offset found. -/
def lookupLoop (sb : SuperBlock) (console : ℕ → List UInt8) (de : List UInt8)
    (name : Bytes fileNameMaxLength) :
    (k offset : ℕ) → Blocks → InodeEntry → Option ((ℕ × ℕ) × Blocks × InodeEntry)
  | 0, _, m, e => some ((0, 0), m, e)
  | k + 1, offset, m, e =>
    if offset < e.numBytes.toNat then do
      let (l, m, e) ← inodeRead sb console m e offset 16
      let d := DirEntry.ofBytes (overlay de l)
      if d.inodeNo ≠ 0 ∧ strncmpEq name d.name 0 fileNameMaxLength then
        some ((d.inodeNo.toNat, offset), m, e)
      else lookupLoop sb console de name k (offset + 16) m e
    else some ((0, 0), m, e)

/-- `inode_lookup`. -/
def inodeLookup (sb : SuperBlock) (console : ℕ → List UInt8) (de : List UInt8) (m : Blocks)
    (e : InodeEntry) (name : Bytes fileNameMaxLength) :
    Option ((ℕ × ℕ) × Blocks × InodeEntry) :=
  if e.type = inodeDirectory then
    lookupLoop sb console de name (e.numBytes.toNat / 16 + 1) 0 m e
  else none

/-- The loop of `inode_insert` that looks for a free directory entry: the
offset where it stops, and the bytes then in `de`. -/
def freeSlotLoop (sb : SuperBlock) (console : ℕ → List UInt8) :
    (k offset : ℕ) → List UInt8 → Blocks → InodeEntry →
      Option ((ℕ × List UInt8) × Blocks × InodeEntry)
  | 0, offset, de, m, e => some ((offset, de), m, e)
  | k + 1, offset, de, m, e =>
    if offset < e.numBytes.toNat then do
      let (l, m, e) ← inodeRead sb console m e offset 16
      let de := overlay de l
      if (DirEntry.ofBytes de).inodeNo = 0 then some ((offset, de), m, e)
      else freeSlotLoop sb console k (offset + 16) de m e
    else some ((offset, de), m, e)

/-- `inode_insert` into directory `i`; `none` within the result is `-1`,
that the name exists. -/
def inodeInsert (sb : SuperBlock) (console : ℕ → List UInt8) (de : List UInt8) (m : Blocks)
    (i : ℕ) (ino : Inode) (name : Bytes fileNameMaxLength) (inodeNo : ℕ) :
    Option (Option ℕ × Blocks × Inode) :=
  if ino.entry.type = inodeDirectory then do
    let (found, m, e) ← inodeLookup sb console de m ino.entry name
    if found.1 ≠ 0 then some (none, m, { ino with entry := e })
    else do
      let (slot, m, e) ← freeSlotLoop sb console (e.numBytes.toNat / 16 + 1) 0 de m e
      let d : DirEntry := ⟨UInt16.ofNat inodeNo, name⟩
      let (_, m, ino) ← inodeWrite sb m i { ino with entry := e } slot.1 d.toBytes
      some (some slot.1, m, ino)
  else none

/-- `inode_remove`. -/
def inodeRemove (sb : SuperBlock) (m : Blocks) (i : ℕ) (ino : Inode) (index : ℕ) :
    Option (Blocks × Inode) :=
  if index % 16 = 0 then
    if index < ino.entry.numBytes.toNat then do
      let d : DirEntry := ⟨0, Bytes.zero⟩
      let (_, m, ino) ← inodeWrite sb m i ino index d.toBytes
      some (m, ino)
    else some (m, ino)
  else none

/-! ## The inodes in memory -/

/-- The state of the inode layer. -/
structure FS where
  blocks : Blocks
  /-- The list at `head`, by inode number. -/
  icache : ℕ → Option Inode
  console : ℕ → List UInt8

namespace FS

/-- Puts back what an operation on inode `i` returns. -/
def set (fs : FS) (i : ℕ) (m : Blocks) (ino : Option Inode) : FS :=
  { fs with blocks := m, icache := update fs.icache i ino }

/-- `inode_get`. -/
def inodeGet (sb : SuperBlock) (fs : FS) (i : ℕ) : Option FS :=
  if 0 < i ∧ i < sb.numInodes then
    match fs.icache i with
    | some ino => some (fs.set i fs.blocks (some { ino with rc := ino.rc + 1 }))
    | none =>
      let (m, ino) := inodeSync sb fs.blocks i ⟨1, false, InodeEntry.zero⟩ false
      if ino.entry.type = inodeInvalid then none else some (fs.set i m (some ino))
  else none

/-- `inode_share`. -/
def inodeShare (fs : FS) (i : ℕ) : Option FS :=
  (fs.icache i).map fun ino => fs.set i fs.blocks (some { ino with rc := ino.rc + 1 })

/-- `inode_put`. The last reference to an inode without links frees its
blocks and the inode. -/
def inodePut (sb : SuperBlock) (fs : FS) (i : ℕ) : Option FS :=
  match fs.icache i with
  | none => none
  | some ino =>
    if ino.rc = 1 ∧ ino.entry.numLinks = 0 ∧ ino.valid = true then do
      let (m, ino) ← inodeClear sb fs.blocks i ino
      let (m, _) := inodeSync sb m i { ino with entry := { ino.entry with type := inodeInvalid } } true
      some (fs.set i m none)
    else some (fs.set i fs.blocks (some { ino with rc := ino.rc - 1 }))

end FS

/-- The calls of the inode layer. -/
inductive Op where
  | alloc (type : UInt16)
  | get (i : ℕ)
  | share (i : ℕ)
  | read (i offset count : ℕ)
  | write (i offset : ℕ) (src : List UInt8)
  | insert (i : ℕ) (name : Bytes fileNameMaxLength) (inodeNo : ℕ) (de : List UInt8)
  | remove (i index : ℕ)
  | clear (i : ℕ)
  | put (i : ℕ)

/-- A call on the inodes in memory. -/
def step (sb : SuperBlock) (fs : FS) : Op → Option FS
  | .alloc type => (inodeAlloc sb fs.blocks type).map fun r => { fs with blocks := r.2 }
  | .get i => fs.inodeGet sb i
  | .share i => fs.inodeShare i
  | .read i offset count => do
    let ino ← fs.icache i
    let (_, m, e) ← inodeRead sb fs.console fs.blocks ino.entry offset count
    some (fs.set i m (some { ino with entry := e }))
  | .write i offset src => do
    let ino ← fs.icache i
    let (_, m, ino) ← inodeWrite sb fs.blocks i ino offset src
    some (fs.set i m (some ino))
  | .insert i name inodeNo de => do
    let ino ← fs.icache i
    let (_, m, ino) ← inodeInsert sb fs.console de fs.blocks i ino name inodeNo
    some (fs.set i m (some ino))
  | .remove i index => do
    let ino ← fs.icache i
    let (m, ino) ← inodeRemove sb fs.blocks i ino index
    some (fs.set i m (some ino))
  | .clear i => do
    let ino ← fs.icache i
    let (m, ino) ← inodeClear sb fs.blocks i ino
    some (fs.set i m (some ino))
  | .put i => fs.inodePut sb i

end OsKernel.Fs
