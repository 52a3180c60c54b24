import OsKernel.Cache.Model.Store
import OsKernel.Sem.Semaphore

/-!
# The block cache — model of the log

`cache_begin_op`, `cache_sync`, `cache_end_op` and `init_bcache` of
`fs/cache.c` as the steps of a system with any number of threads, each
running one operation at a time. A thread is named by the `OpContext` it
uses, and its `Phase` says where in `cache_begin_op` … `cache_end_op` it
stands.

A step is a section under `log.lock`, a wait on a semaphore, the unlocked
assignment `log.committing = false`, or the stretch of the commit around
one device write: between two device writes the committing thread only
acquires, copies and releases blocks it holds alone. `crash` cuts the
power between two steps and `recover` is the stretch of `init_bcache`
around its next device write.

A step function is `none` where the step cannot be taken: the thread is
not there, a lock is held, a block is acquired by another thread, or the
code panics.
-/

namespace OsKernel.Cache

open Function

/-- Subtraction of `u32` values. -/
def subU32 (a b : ℕ) : ℕ := (a + (2 ^ 32 - b % 2 ^ 32)) % 2 ^ 32

/-- Addition of `u32` values. -/
def addU32 (a b : ℕ) : ℕ := (a + b) % 2 ^ 32

/-- `struct LOG`. The counters are `u32`. -/
structure Log where
  /-- The holder of `log.lock` between two steps. -/
  lock : Option ℕ
  /-- `log.begin`. -/
  beginSem : Semaphore ℕ
  /-- `log.end`. -/
  endSem : Semaphore ℕ
  logUsed : ℕ
  logSize : ℕ
  outstanding : ℕ
  committing : Bool

/-- Where a thread stands in its operation. -/
inductive Phase where
  /-- Outside of `cache_begin_op` … `cache_end_op`. -/
  | idle
  /-- In `cache_begin_op`, holding the lock of `log.begin`. -/
  | beginLocked
  /-- In `cache_begin_op`, waiting on `log.begin` or woken from it. -/
  | beginWait
  /-- Between `cache_begin_op` and `cache_end_op`, with `ctx->rm`. -/
  | running (rm : ℕ)
  /-- Committing: the log blocks below `i` are written. -/
  | copying (i : ℕ)
  /-- Committing: the header is written, and so are the home blocks below `i`. -/
  | installing (i : ℕ)
  /-- Committing: the header is cleared. -/
  | installed
  /-- `log.committing` is cleared and `log.end` is yet to be posted. -/
  | committed
  /-- `log.end` is posted and `log.begin` is yet to be. -/
  | posted
  /-- In `cache_end_op`, holding the lock of `log.end`. -/
  | endLocked
  /-- In `cache_end_op`, waiting on `log.end` or woken from it. -/
  | endWait
deriving DecidableEq, Repr

/-- The state of the block cache with its disk and its threads. -/
structure Sys where
  store : Store
  /-- The in-memory copy of the log header. -/
  header : LogHeader
  log : Log
  phase : ℕ → Phase
  /-- `some i` while `init_bcache` runs and has replayed the entries below `i`. -/
  boot : Option ℕ
  /-- Not part of the code: the blocks whose holder has modified them and
  has not synced them since. -/
  unsynced : ℕ → Bool

/-- What can happen next. -/
inductive Act where
  | acquire (n : ℕ)
  | modify (n : ℕ) (d : BlockData)
  | release (n : ℕ)
  | beginOp (c : ℕ)
  | waitBegin (c : ℕ)
  | sync (c n : ℕ)
  | syncNull (n : ℕ)
  | endOp (c : ℕ)
  | waitEnd (c : ℕ)
  | returnEnd (c : ℕ)
  | commit (c : ℕ)
  | clearCommitting (c : ℕ)
  | postEnd (c : ℕ)
  | postBegin (c : ℕ)
  | crash
  | recover

/-- The log `init_bcache` sets up. `num_log_blocks - 1` is computed as a `u32`. -/
def initLog (sb : SuperBlock) : Log where
  lock := none
  beginSem := Semaphore.initSem 0
  endSem := Semaphore.initSem 0
  logUsed := 0
  logSize := min logMaxSize (subU32 sb.numLogBlocks 1)
  outstanding := 0
  committing := false

/-- The start of `init_bcache` on a disk, up to `read_header`. -/
def bootSys (sb : SuperBlock) (d : Disk) : Sys where
  store := ⟨d, []⟩
  header := readHeader sb d
  log := initLog sb
  phase := fun _ => .idle
  boot := some 0
  unsynced := fun _ => false

/-- The index `cache_sync` stores block `n` at: the first that already
holds `n`, or the first free one. -/
def syncIndex (h : LogHeader) (n : ℕ) : ℕ := h.entries.idxOf n

namespace Sys

/-- Thread `c` moves to phase `p`. -/
def setPhase (s : Sys) (c : ℕ) (p : Phase) : Sys :=
  { s with phase := update s.phase c p }

/-- `cache_acquire` of block `n`, a `usize`. -/
def acquire (s : Sys) (n : ℕ) : Option Sys :=
  if n < 2 ^ 64 then (cacheAcquire n s.store).map fun st => { s with store := st } else none

/-- The holder of block `n` writes to its `data`. -/
def modify (s : Sys) (n : ℕ) (d : BlockData) : Option Sys :=
  match s.store.get n with
  | some b =>
    if b.acquired then
      some { s with
        store := s.store.modify n (Block.setData d)
        unsynced := update s.unsynced n true }
    else none
  | none => none

/-- `cache_release` by the holder of block `n`. -/
def release (s : Sys) (n : ℕ) : Option Sys :=
  match s.store.get n with
  | some b => if b.acquired then some { s with store := cacheRelease n s.store } else none
  | none => none

/-- The section of `cache_begin_op` under `log.lock`, on entry or after a
wake-up: the operation starts, or the thread goes on to wait. -/
def beginOp (s : Sys) (c : ℕ) : Option Sys :=
  if s.log.lock = none ∧ (s.phase c = .idle ∨ (s.phase c = .beginWait ∧
      s.log.beginSem.lock = none ∧ c ∉ s.log.beginSem.sleeplist)) then
    if s.log.logSize < addU32 s.log.logUsed opMaxNumBlocks ∨ s.log.committing = true then
      (s.log.beginSem.lockSem c).map fun sem =>
        { s with log := { s.log with beginSem := sem } }.setPhase c .beginLocked
    else
      some ({ s with log := { s.log with
        logUsed := addU32 s.log.logUsed opMaxNumBlocks
        outstanding := addU32 s.log.outstanding 1 } }.setPhase c (.running opMaxNumBlocks))
  else none

/-- `_wait_sem(&log.begin, false)`. -/
def waitBegin (s : Sys) (c : ℕ) : Option Sys :=
  if s.phase c = .beginLocked then
    some ({ s with log := { s.log with
      beginSem := s.log.beginSem.waitSem c } }.setPhase c .beginWait)
  else none

/-- `cache_sync(ctx, block)` with a non-null `ctx`, under `log.lock`, by
the holder of the block. -/
def sync (s : Sys) (c n : ℕ) : Option Sys :=
  match s.phase c, s.store.get n with
  | .running rm, some b =>
    if s.log.lock = none ∧ b.acquired = true then
      let i := syncIndex s.header n
      let h := { s.header with blockNo := update s.header.blockNo i n }
      let u := update s.unsynced n false
      if i = s.header.numBlocks then
        -- a new entry is paid for by the operation; without budget the code panics
        if rm = 0 then none
        else some ({ s with
          header := { h with numBlocks := s.header.numBlocks + 1 }
          store := s.store.modify n (Block.setPinned true)
          unsynced := u }.setPhase c (.running (rm - 1)))
      else some { s with header := h, unsynced := u }
    else none
  | _, _ => none

/-- `cache_sync(NULL, block)` by the holder of the block, which writes
through to the disk. -/
def syncNull (s : Sys) (n : ℕ) : Option Sys :=
  match s.store.get n with
  | some b =>
    if b.acquired then
      some { s with
        store := deviceWrite n s.store
        unsynced := update s.unsynced n false }
    else none
  | none => none

/-- The first section of `cache_end_op` under `log.lock`: the last
operation goes on to commit, any other to wait for the commit. -/
def endOp (s : Sys) (c : ℕ) : Option Sys :=
  match s.phase c with
  | .running rm =>
    if s.log.lock = none then
      let log := { s.log with
        logUsed := subU32 s.log.logUsed rm
        outstanding := subU32 s.log.outstanding 1 }
      if log.outstanding = 0 then
        some ({ s with log := { log with committing := true } }.setPhase c (.copying 0))
      else do
        let (beginSem, _) ← log.beginSem.postAllSem
        let endSem ← log.endSem.lockSem c
        some ({ s with log := { log with
          beginSem := beginSem, endSem := endSem } }.setPhase c .endLocked)
    else none
  | _ => none

/-- `_wait_sem(&log.end, false)`. -/
def waitEnd (s : Sys) (c : ℕ) : Option Sys :=
  if s.phase c = .endLocked then
    some ({ s with log := { s.log with
      endSem := s.log.endSem.waitSem c } }.setPhase c .endWait)
  else none

/-- The wait on `log.end` is over and `cache_end_op` returns. -/
def returnEnd (s : Sys) (c : ℕ) : Option Sys :=
  if s.phase c = .endWait ∧ s.log.endSem.lock = none ∧ c ∉ s.log.endSem.sleeplist then
    some (s.setPhase c .idle)
  else none

/-- The commit of `cache_end_op` up to and with its next device write. -/
def commit (sb : SuperBlock) (s : Sys) (c : ℕ) : Option Sys :=
  match s.phase c with
  | .copying i =>
    if i < s.header.numBlocks then
      (copyToLog sb s.header i s.store).map fun st =>
        { s with store := st }.setPhase c (.copying (i + 1))
    else
      some ({ s with
        store := { s.store with disk := writeHeader sb s.header s.store.disk }
        log := { s.log with logUsed := subU32 s.log.logUsed s.header.numBlocks }
        }.setPhase c (.installing 0))
  | .installing i =>
    if i < s.header.numBlocks then
      (installHome sb s.header i s.store).map fun st =>
        { s with store := st }.setPhase c (.installing (i + 1))
    else
      let h := { s.header with numBlocks := 0 }
      some ({ s with
        header := h
        store := { s.store with disk := writeHeader sb h s.store.disk } }.setPhase c .installed)
  | _ => none

/-- The unlocked assignment `log.committing = false`. -/
def clearCommitting (s : Sys) (c : ℕ) : Option Sys :=
  if s.phase c = .installed then
    some ({ s with log := { s.log with committing := false } }.setPhase c .committed)
  else none

/-- `post_all_sem(&log.end)` after taking `log.lock` again. -/
def postEnd (s : Sys) (c : ℕ) : Option Sys :=
  if s.phase c = .committed ∧ s.log.lock = none then
    (s.log.endSem.postAllSem).map fun r =>
      { s with log := { s.log with lock := some c, endSem := r.1 } }.setPhase c .posted
  else none

/-- `post_all_sem(&log.begin)`, the release of `log.lock` and the return
of `cache_end_op`. -/
def postBegin (s : Sys) (c : ℕ) : Option Sys :=
  if s.phase c = .posted then
    (s.log.beginSem.postAllSem).map fun r =>
      { s with log := { s.log with lock := none, beginSem := r.1 } }.setPhase c .idle
  else none

/-- `init_bcache` up to and with its next device write. -/
def recover (sb : SuperBlock) (s : Sys) (i : ℕ) : Option Sys :=
  if i < s.header.numBlocks then
    (installHome sb s.header i s.store).map fun st =>
      { s with store := st, boot := some (i + 1) }
  else
    let h := { s.header with numBlocks := 0 }
    some { s with
      header := h
      store := { s.store with disk := writeHeader sb h s.store.disk }
      boot := none }

end Sys

/-- A step of the running system. -/
def upStep (sb : SuperBlock) (s : Sys) : Act → Option Sys
  | .acquire n => s.acquire n
  | .modify n d => s.modify n d
  | .release n => s.release n
  | .beginOp c => s.beginOp c
  | .waitBegin c => s.waitBegin c
  | .sync c n => s.sync c n
  | .syncNull n => s.syncNull n
  | .endOp c => s.endOp c
  | .waitEnd c => s.waitEnd c
  | .returnEnd c => s.returnEnd c
  | .commit c => s.commit sb c
  | .clearCommitting c => s.clearCommitting c
  | .postEnd c => s.postEnd c
  | .postBegin c => s.postBegin c
  | .crash | .recover => none

/-- **A step of the system.** A crash is possible at any moment; until
`init_bcache` has returned nothing else runs. -/
def step (sb : SuperBlock) (s : Sys) (a : Act) : Option Sys :=
  match a, s.boot with
  | .crash, _ => some (bootSys sb s.store.disk)
  | .recover, some i => s.recover sb i
  | .recover, none => none
  | _, some _ => none
  | a, none => upStep sb s a

/-- **What the callers of the cache promise**: what is synced lies
outside the logging area and belongs to an operation, and what is
modified is synced before its release. -/
def Disciplined (sb : SuperBlock) (s : Sys) : Act → Prop
  | .sync _ n => ¬ sb.InLog n
  | .syncNull _ => False
  | .release n => s.unsynced n = false
  | _ => True

instance (sb : SuperBlock) (s : Sys) (a : Act) : Decidable (Disciplined sb s a) := by
  cases a <;> unfold Disciplined <;> infer_instance

/-- The whole of `init_bcache` on a disk. -/
def initBcache (sb : SuperBlock) (d : Disk) : Option Sys :=
  (initStore sb d).map fun r => { bootSys sb d with header := r.1, store := r.2, boot := none }

end OsKernel.Cache
