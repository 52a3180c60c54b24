import OsKernel.Sem.Representation

/-!
# Pipes — model

`pipeWrite`, `pipeRead` and `pipeClose` of `fs/pipe.c`, by any number of
threads. A step is one acquisition or release of `pi->lock` or of the lock
of one of the two semaphores, or the transfer of one byte under `pi->lock`.

The two ends of a pipe are alike. A call on the end `σ` sleeps on the
semaphore `sem σ` (`rlock` for a read, `wlock` for a write), and posts that
of the other end; a close of an end posts the semaphore of the other one.
So one set of places (`At`) serves all three functions.
-/

namespace OsKernel.Pipe

open Function

/-- `PIPESIZE`. -/
abbrev pipeSize : ℕ := 512

/-- The newline at which a read stops. -/
abbrev newline : UInt8 := 10

/-- The two ends of a pipe. -/
inductive Side where
  | read
  | write
deriving DecidableEq

/-- The other end. -/
def Side.flip : Side → Side
  | .read => .write
  | .write => .read

/-- A call with its arguments and how far it has come. -/
inductive Job where
  /-- `pipeWrite` of the bytes `src`, of which `i` are stored. -/
  | write (src : List UInt8) (i : ℕ)
  /-- `pipeRead` of `n` bytes, with the bytes taken so far. -/
  | read (n : ℕ) (dst : List UInt8)
  /-- `pipeClose` of an end. -/
  | close (side : Side)
deriving DecidableEq

/-- The end that a call works on. -/
def Job.side : Job → Side
  | .write _ _ => .write
  | .read _ _ => .read
  | .close side => side

/-- Where a thread is in its call. -/
inductive At where
  /-- About to acquire `pi->lock`. -/
  | enter
  /-- In the loop, with `pi->lock`. -/
  | inside
  /-- Has locked its own semaphore as well. -/
  | locked
  /-- Has released `pi->lock`, and is about to lock the other semaphore in
  `post_all_sem`. -/
  | notify
  /-- Has both semaphores locked. -/
  | notifying
  /-- About to call `_wait_sem` on its own semaphore, which it has locked. -/
  | sleepy
  /-- In `sched` of `_wait_sem`. -/
  | asleep
  /-- Back from `sched`, with its own semaphore locked. -/
  | waking
  /-- Has left the loop at a newline, with `pi->lock`. -/
  | broke
  /-- Has left the loop and released `pi->lock`, and is about to lock the
  other semaphore. -/
  | leave
  /-- Has the other semaphore locked for the last `post_all_sem`. -/
  | leaving
  /-- `pipeClose` with `pi->lock`, the end marked closed. -/
  | closing
  /-- `pipeClose` with the other semaphore locked. -/
  | closePosting
  /-- `pipeClose` after its `post_all_sem`. -/
  | closeLast
deriving DecidableEq

/-- A pipe and the threads that use it. -/
structure State (T : Type) where
  /-- The holder of `pi->lock`. -/
  lock : Option T
  /-- `rlock` and `wlock`. -/
  sem : Side → Semaphore T
  data : ℕ → UInt8
  nread : UInt32
  nwrite : UInt32
  /-- `readopen` and `writeopen`. -/
  isOpen : Side → Bool
  /-- Has `pi` been given to `kfree`? -/
  freed : Bool
  /-- `proc->killed` of the threads. -/
  killed : T → Bool
  thread : T → Option (Job × At)

/-- What may happen next. -/
inductive Act (T : Type) where
  | callWrite (t : T) (src : List UInt8)
  | callRead (t : T) (n : ℕ)
  | callClose (t : T) (side : Side)
  /-- The next step of a thread that is in a call. -/
  | run (t : T)
  /-- `kill` of a thread, which sets `killed` and alerts it. -/
  | kill (t : T)

namespace State

variable {T : Type} [DecidableEq T]

/-- A pipe as `pipeAlloc` leaves it. -/
def init : State T where
  lock := none
  sem := fun _ => Semaphore.initSem 0
  data := fun _ => 0
  nread := 0
  nwrite := 0
  isOpen := fun _ => true
  freed := false
  killed := fun _ => false
  thread := fun _ => none

/-- Thread `t` goes on with `job` at `pc`. -/
def goto (s : State T) (t : T) (job : Job) (pc : At) : State T :=
  { s with thread := update s.thread t (some (job, pc)) }

/-- Thread `t` returns. -/
def ret (s : State T) (t : T) : State T := { s with thread := update s.thread t none }

def setSem (s : State T) (σ : Side) (sem : Semaphore T) : State T :=
  { s with sem := update s.sem σ sem }

/-- Can a call on the end make no progress? The buffer is empty for a read
and full for a write. -/
def blocked (s : State T) : Side → Bool
  | .read => s.nread = s.nwrite
  | .write => s.nread + UInt32.ofNat pipeSize = s.nwrite

/-- `_lock_sem` of the semaphore of `σ` by `t`, which then goes on at `pc`. -/
def lockThen (s : State T) (t : T) (job : Job) (σ : Side) (pc : At) : Option (State T) :=
  ((s.sem σ).lockSem t).map fun sem => (s.setSem σ sem).goto t job pc

/-- The body of `post_all_sem` on the semaphore of `σ`, and its unlock. -/
def postAll (s : State T) (σ : Side) : Option (State T) :=
  (Semaphore.postAllLoop ((-(s.sem σ).val).toNat + 1) (s.sem σ) []).map fun r =>
    s.setSem σ { r.1 with lock := none }

/-- The loop finds that it can make no progress: it returns if the other
end is closed, and goes to sleep otherwise. -/
def stuck (s : State T) (t : T) (job : Job) : Option (State T) :=
  if s.isOpen job.side.flip = false then some ({ s with lock := none }.ret t)
  else s.lockThen t job job.side .locked

/-- A round of the loop of `pipeWrite`. -/
def writeRound (s : State T) (t : T) (src : List UInt8) (i : ℕ) : Option (State T) :=
  if i < src.length then
    if s.blocked .write then s.stuck t (.write src i)
    else some ({ s with
      data := update s.data (s.nwrite.toNat % pipeSize) (src.getD i 0)
      nwrite := s.nwrite + 1 }.goto t (.write src (i + 1)) .inside)
  else some ({ s with lock := none }.goto t (.write src i) .leave)

/-- A round of the loop of `pipeRead`. -/
def readRound (s : State T) (t : T) (n : ℕ) (dst : List UInt8) : Option (State T) :=
  if dst.length < n then
    if s.blocked .read then s.stuck t (.read n dst)
    else
      let b := s.data (s.nread.toNat % pipeSize)
      some ({ s with nread := s.nread + 1 }.goto t (.read n (dst ++ [b]))
        (if b = newline then .broke else .inside))
  else some ({ s with lock := none }.goto t (.read n dst) .leave)

/-- The next step of thread `t`, which is in a call; `none` where it has to
wait. -/
def runStep (s : State T) (t : T) : Job → At → Option (State T)
  | .close side, .enter =>
    if s.lock = none then
      some ({ s with lock := some t, isOpen := update s.isOpen side false }.goto t
        (.close side) .closing)
    else none
  | job, .enter =>
    if s.lock = none then some ({ s with lock := some t }.goto t job .inside) else none
  | .write src i, .inside => s.writeRound t src i
  | .read n dst, .inside => s.readRound t n dst
  | .close _, .inside => none
  | job, .locked => some ({ s with lock := none }.goto t job .notify)
  | job, .notify => s.lockThen t job job.side.flip .notifying
  | job, .notifying => (s.postAll job.side.flip).map fun s => s.goto t job .sleepy
  | job, .sleepy =>
    some ((s.setSem job.side ((s.sem job.side).waitSem t)).goto t job
      (if 0 ≤ (s.sem job.side).val - 1 then .enter else .asleep))
  | job, .asleep =>
    -- woken by a post, or alerted
    if t ∉ (s.sem job.side).sleeplist ∨ s.killed t = true
    then s.lockThen t job job.side .waking else none
  | job, .waking =>
    if t ∈ (s.sem job.side).sleeplist then
      ((s.sem job.side).cancelWait t).map fun sem =>
        (s.setSem job.side { sem with lock := none }).ret t
    else some ((s.setSem job.side { s.sem job.side with lock := none }).goto t job .enter)
  | job, .broke => some ({ s with lock := none }.goto t job .leave)
  | job, .leave => s.lockThen t job job.side.flip .leaving
  | job, .leaving => (s.postAll job.side.flip).map fun s => s.ret t
  | job, .closing => s.lockThen t job job.side.flip .closePosting
  | job, .closePosting => (s.postAll job.side.flip).map fun s => s.goto t job .closeLast
  | _, .closeLast =>
    if s.isOpen .read = false ∧ s.isOpen .write = false then some ({ s with freed := true }.ret t)
    else some ({ s with lock := none }.ret t)

/-- The steps of a pipe. A call on a closed end returns at once. -/
def step (s : State T) : Act T → Option (State T)
  | .callWrite t src =>
    if s.freed = false ∧ s.thread t = none then
      if s.isOpen .write then some (s.goto t (.write src 0) .enter) else some s
    else none
  | .callRead t n =>
    if s.freed = false ∧ s.thread t = none then
      if s.isOpen .read then some (s.goto t (.read n []) .enter) else some s
    else none
  | .callClose t side =>
    if s.freed = false ∧ s.thread t = none then some (s.goto t (.close side) .enter) else none
  | .run t =>
    if s.freed then none
    else (s.thread t).bind fun c => s.runStep t c.1 c.2
  | .kill t => some { s with killed := update s.killed t true }

end State

end OsKernel.Pipe
