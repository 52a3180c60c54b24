import OsKernel.Sem.Representation

/-!
# The process tree — model

`create_proc`, `set_parent_to_this`, `start_proc`, `exit` and `wait` of
`kernel/proc.c`, with `create_container` and `set_container_to_this` of
`kernel/container.c`, which say where the children of an exiting process
go. A step is a critical section of `tree_lock` or of `schelock`, or an
operation of the semaphore `childexit`.

`exit` is cut in two. It acquires `schelock` before it releases
`tree_lock` and holds it until its state is `ZOMBIE` (`Tree.sched`); the
sections that take `schelock`, be it in `is_zombie`, have to wait for it.

An element of `P` is one `struct proc` from its `kalloc` to its `kfree`,
so that an address used again is another element.
-/

namespace OsKernel.Proc

open Function

/-- The state of a process. `alive` stands for `RUNNABLE`, `RUNNING`,
`SLEEPING` and `DEEPSLEEPING`, which the tree does not tell apart. -/
inductive Life where
  /-- Not allocated yet. -/
  | absent
  | unused
  | alive
  | zombie
  /-- Given back to `kfree` by `wait`. -/
  | reaped
deriving DecidableEq

/-- Where a process is in `wait`. -/
inductive Place where
  /-- Not in `wait`. -/
  | body
  /-- Has found a child, and is about to call `wait_sem`. -/
  | wantSem
  /-- In `sched` of `wait_sem`. -/
  | asleep
  /-- Back from a `wait_sem` that has succeeded. -/
  | gotSem
deriving DecidableEq

/-- The processes, with `C` the containers. -/
structure Tree (P C : Type) where
  life : P → Life
  parent : P → Option P
  /-- From `children.next` to `children.prev`. -/
  children : P → List P
  childexit : P → Semaphore P
  exitcode : P → ℤ
  container : P → C
  rootproc : C → Option P
  place : P → Place
  /-- The process that holds `schelock` on its way to `ZOMBIE`. -/
  sched : Option P

/-- What may happen next; `t` is the process that executes it. -/
inductive Act (P C : Type) where
  | createProc (t p : P)
  | setParentToThis (t p : P)
  | setContainerToThis (t p : P)
  | createContainer (t : P) (c : C) (p : P)
  /-- The section of `start_proc` under `tree_lock`. -/
  | startParent (t p : P)
  /-- `activate_proc` at the end of `start_proc`. -/
  | startActivate (t p : P)
  /-- `exit` up to the release of `tree_lock`. -/
  | exitTree (t : P) (code : ℤ)
  /-- `sched(ZOMBIE)`. -/
  | exitSched (t : P)
  | waitCheck (t : P)
  | waitSem (t : P)
  /-- The end of a `wait_sem` that has slept. -/
  | waitResume (t : P)
  /-- The section of `wait` under `tree_lock`. -/
  | waitTree (t : P)

namespace Tree

variable {P C : Type} [DecidableEq P] [DecidableEq C]

/-- Is `t` executing code outside of `wait` and of the end of `exit`? -/
def running (s : Tree P C) (t : P) : Bool :=
  s.life t = .alive ∧ s.place t = .body ∧ s.sched ≠ some t

/-- `init_proc`, on a structure fresh from `kalloc`. -/
def initProc (rootC : C) (s : Tree P C) (p : P) : Tree P C :=
  { s with
    life := update s.life p .unused
    parent := update s.parent p none
    children := update s.children p []
    childexit := update s.childexit p (Semaphore.initSem 0)
    container := update s.container p rootC
    place := update s.place p .body }

/-- `p` becomes the first child of `t`. -/
def adopt (s : Tree P C) (t p : P) : Tree P C :=
  { s with
    parent := update s.parent p (some t)
    children := update s.children t (p :: s.children t) }

/-- `post_sem` on `childexit` of `q`; `none` is a failed `ASSERT`. -/
def post (s : Tree P C) (q : P) : Option (Tree P C) :=
  (s.childexit q).postSem.map fun r =>
    { s with childexit := update s.childexit q r.1 }

/-- The loop of `exit` over its children: a zombie is put at the end of the
children of `rootproc`, which is posted, any other child at their front. -/
def reparent (rootproc : P) : List P → Tree P C → Option (Tree P C)
  | [], s => some s
  | p :: ps, s =>
    if s.life p = .zombie then
      ({ s with
        parent := update s.parent p (some rootproc)
        children := update s.children rootproc (s.children rootproc ++ [p]) }.post
          rootproc).bind (reparent rootproc ps)
    else reparent rootproc ps (s.adopt rootproc p)

/-- `exit` up to the release of `tree_lock`, by `t` with the root process
`rootproc` of its container. -/
def exitTree (s : Tree P C) (t rootproc : P) (code : ℤ) : Option (Tree P C) :=
  (reparent rootproc (s.children t)
    { s with exitcode := update s.exitcode t code }).bind fun s =>
  let s := { s with children := update s.children t [] }
  (s.parent t).bind fun q =>
    ({ s with
      children := update s.children q ((s.children q).erase t ++ [t])
      sched := some t }.post q)

/-- The section of `wait` under `tree_lock`: the last child is reaped if it
is a zombie. `none` where there is no child: the code would read `children`
itself as a process. -/
def reap (s : Tree P C) (t : P) : Option (Tree P C) :=
  (s.children t).getLast?.map fun p =>
    if s.life p = .zombie then
      { s with
        life := update s.life p .reaped
        parent := update s.parent p none
        children := update s.children t ((s.children t).erase p)
        place := update s.place t .body }
    else { s with place := update s.place t .body }

/-- The steps. A section that takes `schelock` waits for a process on its
way to `ZOMBIE`. -/
def step (root : P) (rootC : C) (s : Tree P C) : Act P C → Option (Tree P C)
  | .createProc t p =>
    if s.running t ∧ s.life p = .absent then some (s.initProc rootC p) else none
  | .setParentToThis t p =>
    if s.running t ∧ s.life p = .unused ∧ s.parent p = none then some (s.adopt t p) else none
  | .setContainerToThis t p =>
    if s.running t ∧ s.life p = .unused ∧ s.rootproc (s.container p) ≠ some p
    then some { s with container := update s.container p (s.container t) } else none
  | .createContainer t c p =>
    -- the container and its root process are nobody else's until they are in the tree
    if s.running t ∧ s.life p = .absent ∧ s.rootproc c = none then
      let s := (s.initProc rootC p).adopt t p
      some { s with
        rootproc := update s.rootproc c (some p)
        container := update s.container p c }
    else none
  | .startParent t p =>
    if s.running t ∧ s.life p = .unused ∧ s.parent p = none then some (s.adopt root p) else none
  | .startActivate t p =>
    if s.running t ∧ s.life p = .unused ∧ s.parent p ≠ none ∧ s.sched = none
    then some { s with life := update s.life p .alive } else none
  | .exitTree t code =>
    -- the root process of a container fails the `ASSERT`
    if s.running t ∧ s.sched = none then
      (s.rootproc (s.container t)).bind fun r => if r = t then none else s.exitTree t r code
    else none
  | .exitSched t =>
    if s.sched = some t
    then some { s with life := update s.life t .zombie, sched := none } else none
  | .waitCheck t =>
    if s.running t then
      if s.children t = [] then some s
      else some { s with place := update s.place t .wantSem }
    else none
  | .waitSem t =>
    if s.place t = .wantSem ∧ s.sched = none then
      some { s with
        childexit := update s.childexit t ((s.childexit t).waitSem t)
        place := update s.place t
          (if 0 ≤ (s.childexit t).val - 1 then .gotSem else .asleep) }
    else none
  | .waitResume t =>
    if s.place t = .asleep then
      if t ∈ (s.childexit t).sleeplist then
        -- alerted: `wait` returns -1
        ((s.childexit t).cancelWait t).map fun sem =>
          { s with
            childexit := update s.childexit t sem
            place := update s.place t .body }
      else some { s with place := update s.place t .gotSem }
    else none
  | .waitTree t => if s.place t = .gotSem ∧ s.sched = none then s.reap t else none

/-- The tree as `define_init(root_proc)` leaves it. -/
def init (root : P) (rootC : C) : Tree P C where
  life := fun p => if p = root then .alive else .absent
  parent := fun p => if p = root then some root else none
  children := fun _ => []
  childexit := fun _ => Semaphore.initSem 0
  exitcode := fun _ => 0
  container := fun _ => rootC
  rootproc := fun c => if c = rootC then some root else none
  place := fun _ => .body
  sched := none

end Tree

end OsKernel.Proc
