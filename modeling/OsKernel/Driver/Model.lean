import OsKernel.Common.Run
import OsKernel.Sem.Semaphore

/-!
# The SD driver — model

`sdrw`, `sd_start` and `sd_intr` of `driver/sd.c`, with the queue of
`common/buf.c`, by any number of callers and of CPUs that take the
interrupt. A request is one call of `sdrw` with the `buf` of the caller,
so each request is queued at most once.

A step is one acquisition or release of `sdlock`, one operation on the
queue or on a semaphore (each under its own lock), or one exchange with
the device. The device raises one interrupt for each request that
`sd_start` hands to it, in their order, and delivers the block that a read
asked for as it was at the start.
-/

namespace OsKernel.Sd

open Function

/-- `B_VALID`. -/
abbrev bValid : BitVec 32 := 0x2

/-- `B_DIRTY`. -/
abbrev bDirty : BitVec 32 := 0x4

/-- `struct buf` without its list node, with `R` the requests and `D` the
contents of a block. -/
structure Buf (R D : Type) where
  flags : BitVec 32
  blockno : ℕ
  data : D
  bufsem : Semaphore R

/-- `b->flags & B_DIRTY`. -/
def Buf.dirty {R D : Type} (b : Buf R D) : Bool := b.flags &&& bDirty ≠ 0

/-- Where a caller is in `sdrw`. -/
inductive At where
  /-- About to acquire `sdlock`. -/
  | enter
  /-- Has `sdlock`. -/
  | locked
  /-- Has pushed its request; `bufqueue_push` returned `sz`. -/
  | pushed (sz : ℕ)
  /-- Past the call of `sd_start`, with `sdlock`. -/
  | started
  /-- In the loop, about to call `wait_sem`. -/
  | loop
  /-- In `sched` of `wait_sem`. -/
  | asleep
  /-- `wait_sem` returned true. -/
  | check
  | returned
deriving DecidableEq

/-- Has the caller acquired `sdlock`? -/
def At.inside : At → Bool
  | .locked | .pushed _ | .started => true
  | _ => false

/-- Where a CPU is in `sd_intr`. Before the transfer it has the data `v`
that the device delivers. -/
inductive Intr (R D : Type) where
  /-- At the start of the handler. -/
  | begin (v : D)
  /-- `bufqueue_front` returned `b`. -/
  | front (v : D) (b : R)
  /-- The transfer is done and `b->flags` is `B_VALID`. -/
  | done (b : R)
  /-- Has `sdlock`. -/
  | locked (b : R)
  /-- Has popped the queue. -/
  | popped (b : R)
  /-- Has posted the semaphore of `b`. -/
  | posted
  /-- Past the second call of `sd_start`. -/
  | started

/-- Has the handler acquired `sdlock`? -/
def Intr.inside {R D : Type} : Intr R D → Bool
  | .locked _ | .popped _ | .posted | .started => true
  | _ => false

/-- Is the request of the interrupt still in the queue? -/
def Intr.early {R D : Type} : Intr R D → Bool
  | .begin _ | .front _ _ | .done _ | .locked _ => true
  | _ => false

/-- A holder of `sdlock`. -/
inductive Owner (R C : Type) where
  | sdrw (r : R)
  | intr (c : C)
deriving DecidableEq

/-- The driver, its callers, the interrupt handlers and the device. -/
structure State (R C D : Type) where
  sdlock : Option (Owner R C)
  bufQueue : List R
  buf : R → Buf R D
  /-- Where the request is in `sdrw`, once it is called. -/
  thread : R → Option At
  /-- `proc->killed` of the caller. -/
  killed : R → Bool
  handler : C → Option (Intr R D)
  /-- The blocks on the card. -/
  disk : ℕ → D
  /-- The requests handed to the device whose interrupt is still to come,
  with what a read will deliver. -/
  device : List (R × D)

/-- What may happen next. -/
inductive Act (R C D : Type) where
  /-- A call of `sdrw`, with the fields of the `buf`. -/
  | call (r : R) (flags : BitVec 32) (blockno : ℕ) (data : D)
  /-- The next step of a caller. -/
  | run (r : R)
  /-- The device interrupts a CPU. -/
  | irq (c : C)
  /-- The next step of a handler. -/
  | handle (c : C)
  /-- `kill` of the caller, which sets `killed` and alerts it. -/
  | kill (r : R)
deriving DecidableEq

namespace State

variable {R C D : Type} [DecidableEq R] [DecidableEq C]

/-- The driver after `sd_init`, with these blocks on the card. -/
def init (disk : ℕ → D) (d : D) : State R C D where
  sdlock := none
  bufQueue := []
  buf := fun _ => ⟨0, 0, d, Semaphore.initSem 0⟩
  thread := fun _ => none
  killed := fun _ => false
  handler := fun _ => none
  disk := disk
  device := []

def goto (s : State R C D) (r : R) (pc : At) : State R C D :=
  { s with thread := update s.thread r (some pc) }

def gotoIntr (s : State R C D) (c : C) (pc : Option (Intr R D)) : State R C D :=
  { s with handler := update s.handler c pc }

def setLock (s : State R C D) (o : Option (Owner R C)) : State R C D := { s with sdlock := o }

def setBuf (s : State R C D) (r : R) (b : Buf R D) : State R C D :=
  { s with buf := update s.buf r b }

def setQueue (s : State R C D) (q : List R) : State R C D := { s with bufQueue := q }

/-- What the device moves for a request: the data of a write, and the
block of a read. -/
def payload (s : State R C D) (b : R) : D :=
  if (s.buf b).dirty then (s.buf b).data else s.disk (s.buf b).blockno

/-- `sd_start`: a write sends the data to the card. -/
def sdStart (s : State R C D) (b : R) : State R C D :=
  { s with
    disk := if (s.buf b).dirty then update s.disk (s.buf b).blockno (s.buf b).data
      else s.disk
    device := s.device ++ [(b, s.payload b)] }

/-- `wait_sem(&b->bufsem)` up to where it returns or sleeps. -/
def wait (s : State R C D) (r : R) : State R C D :=
  let b := s.buf r
  (s.setBuf r { b with bufsem := Semaphore.waitSem r b.bufsem }).goto r
    (if 0 ≤ b.bufsem.val - 1 then .check else .asleep)

/-- The rest of `wait_sem` for a caller that is back from `sched`: woken
by a post, or because it is killed. In the second case `wait_sem` fails
and `sdrw` leaves its loop. -/
def wake (s : State R C D) (r : R) : Option (State R C D) :=
  if r ∈ (s.buf r).bufsem.sleeplist then
    if s.killed r then
      (Semaphore.cancelWait r (s.buf r).bufsem).map fun sem =>
        (s.setBuf r { s.buf r with bufsem := sem }).goto r .returned
    else none
  else some (s.goto r .check)

/-- The next step of `sdrw`. -/
def sdrw (s : State R C D) (r : R) : At → Option (State R C D)
  | .enter => if s.sdlock = none then some ((s.setLock (some (.sdrw r))).goto r .locked) else none
  | .locked =>
    some ((s.setQueue (s.bufQueue ++ [r])).goto r (.pushed (s.bufQueue.length + 1)))
  | .pushed sz => some ((if sz = 1 then s.sdStart r else s).goto r .started)
  | .started => some ((s.setLock none).goto r .loop)
  | .loop => some (s.wait r)
  | .asleep => s.wake r
  | .check => some (s.goto r (if (s.buf r).flags = bValid then .returned else .loop))
  | .returned => none

/-- The transfer of `sd_intr`: a read takes the data from the device. -/
def transfer (s : State R C D) (b : R) (v : D) : State R C D :=
  s.setBuf b { s.buf b with
    data := if (s.buf b).dirty then (s.buf b).data else v
    flags := bValid }

/-- `post_sem(&b->bufsem)`, where `none` is a failed `ASSERT`. -/
def post (s : State R C D) (b : R) : Option (State R C D) :=
  (Semaphore.postSem (s.buf b).bufsem).map fun x => s.setBuf b { s.buf b with bufsem := x.1 }

/-- The start of the next request, if there is one. -/
def startNext (s : State R C D) : State R C D := s.bufQueue.head?.elim s s.sdStart

section

omit [DecidableEq R] [DecidableEq C]

/-- `sd_start` reads the buffers and the queue, and changes neither. -/
@[simp] theorem startNext_bufQueue (s : State R C D) : s.startNext.bufQueue = s.bufQueue := by
  unfold startNext
  cases s.bufQueue.head? <;> rfl

@[simp] theorem startNext_buf (s : State R C D) : s.startNext.buf = s.buf := by
  unfold startNext
  cases s.bufQueue.head? <;> rfl

@[simp] theorem startNext_sdlock (s : State R C D) : s.startNext.sdlock = s.sdlock := by
  unfold startNext
  cases s.bufQueue.head? <;> rfl

@[simp] theorem startNext_thread (s : State R C D) : s.startNext.thread = s.thread := by
  unfold startNext
  cases s.bufQueue.head? <;> rfl

@[simp] theorem startNext_handler (s : State R C D) : s.startNext.handler = s.handler := by
  unfold startNext
  cases s.bufQueue.head? <;> rfl

/-- The device gets the front of the queue. -/
theorem startNext_device (s : State R C D) :
    s.startNext.device = s.device ++ s.bufQueue.head?.toList.map fun b => (b, s.payload b) := by
  unfold startNext
  cases s.bufQueue.head? <;> simp [sdStart]

end

/-- The next step of `sd_intr`. On an empty queue it would use a null
pointer, and `queue_pop` panics. -/
def sdIntr (s : State R C D) (c : C) : Intr R D → Option (State R C D)
  | .begin v => s.bufQueue.head?.map fun b => s.gotoIntr c (some (.front v b))
  | .front v b => some ((s.transfer b v).gotoIntr c (some (.done b)))
  | .done b =>
    if s.sdlock = none then some ((s.setLock (some (.intr c))).gotoIntr c (some (.locked b)))
    else none
  | .locked b =>
    if s.bufQueue = [] then none
    else some ((s.setQueue s.bufQueue.tail).gotoIntr c (some (.popped b)))
  | .popped b => (s.post b).map fun s => s.gotoIntr c (some .posted)
  | .posted => some (s.startNext.gotoIntr c (some .started))
  | .started => some ((s.setLock none).gotoIntr c none)

/-- A call of `sdrw` on a new `buf`. -/
def call (s : State R C D) (r : R) (flags : BitVec 32) (blockno : ℕ) (data : D) : State R C D :=
  (s.setBuf r ⟨flags, blockno, data, Semaphore.initSem 0⟩).goto r .enter

/-- The interrupt of the next request of the device, with what it
delivers. -/
def interrupt (s : State R C D) (c : C) : Option (State R C D) :=
  match s.device with
  | [] => none
  | (_, v) :: rest => some ({ s with device := rest }.gotoIntr c (some (.begin v)))

/-- One step. -/
def step (s : State R C D) : Act R C D → Option (State R C D)
  | .call r flags blockno data =>
    if s.thread r = none then some (s.call r flags blockno data) else none
  | .run r => (s.thread r).bind (s.sdrw r)
  | .irq c => if (s.handler c).isNone then s.interrupt c else none
  | .handle c => (s.handler c).bind (s.sdIntr c)
  | .kill r => some { s with killed := update s.killed r true }

end State

/-! ## What a run does -/

section Events

variable {R C D : Type} [DecidableEq R] [DecidableEq C]

/-- The request that a step pushes. -/
def queuedBy (x : State R C D × Act R C D) : List R :=
  match x.2 with
  | .run r => if x.1.thread r = some .locked then [r] else []
  | _ => []

/-- The request that a step hands to the device. -/
def startedBy (x : State R C D × Act R C D) : List R :=
  match x.2 with
  | .run r => if x.1.thread r = some (.pushed 1) then [r] else []
  | .handle c =>
    match x.1.handler c with
    | some .posted => x.1.bufQueue.head?.toList
    | _ => []
  | _ => []

/-- The request that a step completes: the one it pops. -/
def completedBy (x : State R C D × Act R C D) : List R :=
  match x.2 with
  | .handle c =>
    match x.1.handler c with
    | some (.locked _) => x.1.bufQueue.head?.toList
    | _ => []
  | _ => []

/-- The request whose semaphore a step posts. -/
def postedBy (x : State R C D × Act R C D) : List R :=
  match x.2 with
  | .handle c =>
    match x.1.handler c with
    | some (.popped b) => [b]
    | _ => []
  | _ => []

variable (tr : List (State R C D × Act R C D))

/-- The requests queued in a run, in their order. -/
def queued : List R := tr.flatMap queuedBy

/-- The requests started in a run, in their order. -/
def started : List R := tr.flatMap startedBy

/-- The requests completed in a run, in their order. -/
def completed : List R := tr.flatMap completedBy

/-- The requests whose semaphore a run has posted, in their order. -/
def posted : List R := tr.flatMap postedBy

end Events

end OsKernel.Sd
