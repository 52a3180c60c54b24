import OsKernel.Fs.Model.SharedFile

/-!
# The file system — model of an open file

`fileread` and `filewrite` of `fs/file.c` for a `File` of type `FD_INODE`
that one process uses alone, over the inode layer. Transactions and the
lock of the inode are left out, as nothing runs in between.

The loop of `filewrite` takes fuel. It is `none` where the inode layer
fails an `ASSERT` or panics, and where the fuel does not suffice.
-/

namespace OsKernel.Fs

open Cache

/-- A `File` of type `FD_INODE`. -/
structure OpenFile where
  ip : ℕ
  readable : Bool
  writable : Bool
  off : ℕ
deriving DecidableEq

namespace OpenFile

/-- `f->off += t`. -/
def advance (f : OpenFile) (t : ℕ) : OpenFile := { f with off := (f.off + t) % 2 ^ 64 }

/-- `fileread`: what it returns, with the bytes that it puts at `addr`. The
inode layer takes `n` as a `usize`. -/
def fileread (sb : SuperBlock) (fs : FS) (f : OpenFile) (n : ℤ) :
    Option (ℤ × List UInt8 × FS × OpenFile) :=
  if f.readable then do
    let ino ← fs.icache f.ip
    let (l, m, e) ← inodeRead sb fs.console fs.blocks ino.entry f.off (n % 2 ^ 64).toNat
    some (l.length, l, fs.set f.ip m (some { ino with entry := e }), f.advance l.length)
  else some (-1, [], fs, f)

/-- Calls of `fileread`, one after the other, and all the bytes that they read. -/
def filereads (sb : SuperBlock) (fs : FS) : List ℕ → OpenFile → Option (List UInt8 × FS × OpenFile)
  | [], f => some ([], fs, f)
  | n :: ns, f => do
    let (_, bytes, fs, f) ← fileread sb fs f n
    let (rest, fs, f) ← filereads sb fs ns f
    some (bytes ++ rest, fs, f)

/-- The body of the loop of `filewrite`, which writes `t` bytes. The buffer
is the one that the call was made with. -/
def writeChunk (sb : SuperBlock) (fs : FS) (f : OpenFile) (src : List UInt8) (t : ℕ) :
    Option (ℕ × FS × OpenFile) := do
  let ino ← fs.icache f.ip
  let (t, m, ino) ← inodeWrite sb fs.blocks f.ip ino f.off (src.take t)
  some (t, fs.set f.ip m (some ino), f.advance t)

/-- The loop of `filewrite` of the bytes `src`, from the test on. -/
def filewriteLoop (sb : SuperBlock) (src : List UInt8) :
    (fuel : ℕ) → FS → OpenFile → (t : ℕ) → Option (ℤ × FS × OpenFile)
  | 0, _, _, _ => none
  | fuel + 1, fs, f, t =>
    if t < src.length then do
      let (t, fs, f) ← writeChunk sb fs f src (min maxWrite (src.length - t))
      filewriteLoop sb src fuel fs f t
    else some (t, fs, f)

/-- `filewrite` of the bytes `src`. -/
def filewrite (sb : SuperBlock) (fuel : ℕ) (fs : FS) (f : OpenFile) (src : List UInt8) :
    Option (ℤ × FS × OpenFile) :=
  if f.writable then filewriteLoop sb src fuel fs f 0 else some (-1, fs, f)

end OpenFile

end OsKernel.Fs
