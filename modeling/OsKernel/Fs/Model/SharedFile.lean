import OsKernel.Common.Run
import OsKernel.Fs.Model.Inode

/-!
# The file system — model of a file that processes share

Processes that share one `File`, after a `fork` or a `dup`, share its
offset. `fileread` and `filewrite` of `fs/file.c` read `f->off` for the
call of the inode layer, and read and write it once more for the `+=`,
all of it with the lock of the inode held. Each of these accesses is a
step of its own here, so that the calls interleave in every way the lock
allows.

What a run has done is read off its trace: the transfers of bytes, the
locked sections and the values returned.
-/

namespace OsKernel.Fs

open Cache

/-- `mx` of `filewrite`. -/
abbrev maxWrite : ℕ := (opMaxNumBlocks - 1 - 1 - 2) / 2 * blockSize

/-- A call on the shared file: of `fileread` with its `n`, or of
`filewrite` with the bytes at `addr`. An `n` of `filewrite` below zero
stands for no bytes, as the loop does not run for either. -/
inductive FileCall where
  | read (n : ℤ)
  | write (src : List UInt8)
deriving DecidableEq

/-- Where a process is in its call; `t` is the local of that name (`n` of
`fileread`). -/
inductive FilePc where
  | out
  /-- At the test of the loop of `filewrite`. -/
  | test (src : List UInt8) (t : ℕ)
  /-- Before `inodes.lock`. -/
  | enter (c : FileCall) (t : ℕ)
  | locked (c : FileCall) (t : ℕ)
  /-- In `inodes.read` or `inodes.write`, with the argument `f->off`. -/
  | called (c : FileCall) (t off : ℕ)
  | moved (c : FileCall) (t : ℕ)
  /-- In `f->off += t`, with `f->off` in a register. -/
  | loaded (c : FileCall) (t off : ℕ)
  | stored (c : FileCall) (t : ℕ)
  | done (r : ℤ)
deriving DecidableEq

/-- The shared `File`, which is of type `FD_INODE`, with its file system. -/
structure Shared (P : Type) where
  fs : FS
  ip : ℕ
  readable : Bool
  writable : Bool
  off : ℕ
  /-- The holder of the lock of the inode. -/
  lock : Option P
  pc : P → FilePc

/-- What the processes do: one makes a call, or one takes the next step of
its call. -/
inductive FileStep (P : Type) where
  | call (p : P) (c : FileCall)
  | next (p : P)
deriving DecidableEq

/-- The number of bytes of a call. -/
def FileCall.size : FileCall → ℤ
  | .read n => n
  | .write src => src.length

/-- The call to the inode layer at offset `off`, and the number of bytes it
returns. -/
def FileCall.transfer (sb : SuperBlock) (fs : FS) (i off t : ℕ) : FileCall → Option (ℕ × FS)
  | .read _ => do
    let ino ← fs.icache i
    let (l, m, e) ← inodeRead sb fs.console fs.blocks ino.entry off t
    some (l.length, fs.set i m (some { ino with entry := e }))
  | .write src => do
    let ino ← fs.icache i
    let (count, m, ino) ← inodeWrite sb fs.blocks i ino off (src.take t)
    some (count, fs.set i m (some ino))

/-- The start of a call. `inodes.read` takes `n` as a `usize`. -/
def FileCall.start (readable writable : Bool) : FileCall → FilePc
  | .read n => if readable then .enter (.read n) (n % 2 ^ 64).toNat else .done (-1)
  | .write src => if writable then .test src 0 else .done (-1)

/-- What follows the locked section. -/
def FileCall.after (t : ℕ) : FileCall → FilePc
  | .read _ => .done t
  | .write src => .test src t

namespace Shared

variable {P : Type} [DecidableEq P]

/-- Process `p` goes to `pc`. -/
def goto (s : Shared P) (p : P) (pc : FilePc) : Shared P :=
  { s with pc := Function.update s.pc p pc }

/-- The next step of process `p`. -/
def next (sb : SuperBlock) (s : Shared P) (p : P) : Option (Shared P) :=
  match s.pc p with
  | .out => none
  | .test src t =>
    if t < src.length then some (s.goto p (.enter (.write src) (min maxWrite (src.length - t))))
    else some (s.goto p (.done t))
  | .enter c t =>
    if s.lock = none then some ({ s with lock := some p }.goto p (.locked c t)) else none
  | .locked c t => some (s.goto p (.called c t s.off))
  | .called c t off =>
    (c.transfer sb s.fs s.ip off t).map fun r => { s with fs := r.2 }.goto p (.moved c r.1)
  | .moved c t => some (s.goto p (.loaded c t s.off))
  | .loaded c t off => some ({ s with off := (off + t) % 2 ^ 64 }.goto p (.stored c t))
  | .stored c t => some ({ s with lock := none }.goto p (c.after t))
  | .done _ => some (s.goto p .out)

/-- A step of the processes. -/
def step (sb : SuperBlock) (s : Shared P) : FileStep P → Option (Shared P)
  | .call p c =>
    if s.pc p = .out then some (s.goto p (c.start s.readable s.writable)) else none
  | .next p => s.next sb p

/-- No process is in a call. -/
structure Quiet (s : Shared P) : Prop where
  lock : s.lock = none
  pc : ∀ p, s.pc p = .out

end Shared

/-! ## What a run has done -/

variable {P : Type}

/-- The bytes that a call has moved. -/
structure Transfer (P : Type) where
  proc : P
  call : FileCall
  off : ℕ
  count : ℕ
deriving DecidableEq

namespace Transfer

/-- The positions of the file, as a start and a length. -/
def range (x : Transfer P) : ℕ × ℕ := (x.off, x.count)

/-- What the process moved. -/
def share (x : Transfer P) : P × ℕ := (x.proc, x.count)

end Transfer

/-- The transfer of a step, where it is one. -/
def transferOf (sb : SuperBlock) : Shared P × FileStep P → Option (Transfer P)
  | (s, .next p) =>
    match s.pc p with
    | .called c t off => (c.transfer sb s.fs s.ip off t).map fun r => ⟨p, c, off, r.1⟩
    | _ => none
  | _ => none

/-- The process that a step gives the lock to. -/
def lockerOf : Shared P × FileStep P → Option P
  | (s, .next p) =>
    match s.pc p with
    | .enter _ _ => some p
    | _ => none
  | _ => none

/-- The process and the value that a step returns. -/
def resultOf : Shared P × FileStep P → Option (P × ℤ)
  | (s, .next p) =>
    match s.pc p with
    | .done r => some (p, r)
    | _ => none
  | _ => none

/-- The transfers of a run, in order. -/
def transfers (sb : SuperBlock) (tr : List (Shared P × FileStep P)) : List (Transfer P) :=
  tr.filterMap (transferOf sb)

/-- The locked sections of a run, in order. -/
def lockers (tr : List (Shared P × FileStep P)) : List P := tr.filterMap lockerOf

/-- The returned counts of a run. A call that is refused returns `-1` and
counts for nothing. -/
def counts (tr : List (Shared P × FileStep P)) : List (P × ℕ) :=
  (tr.filterMap resultOf).map fun r => (r.1, r.2.toNat)

/-- Every call is of at most `maxWrite` bytes. -/
def FileStep.Small : FileStep P → Prop
  | .call _ c => c.size ≤ maxWrite
  | .next _ => True

end OsKernel.Fs
