import OsKernel.Proc.Model.Pids

/-!
# The system calls — model

`fork`, `create_container`, `exit` and `wait` as the sequences of steps they
take in the process tree and in the pid tables. A process that is in `fork`
or in `create_container` goes on with the process it makes (`Making`), and
does nothing else before it is done.

`fork` makes its process with `create_proc`, so in `root_container`, and
never calls `set_container_to_this`.
-/

namespace OsKernel.Proc

/-- Where a process is in `fork` or in `create_container`, with the process
that it makes. -/
inductive Making (P : Type) where
  | idle
  /-- Back from `create_proc` in `fork`. -/
  | created (p : P)
  /-- About to call `start_proc`. -/
  | linked (p : P)
  /-- In `alloc_pid` of `start_proc`. -/
  | allocating (p : P)
  /-- In `start_proc`, with the local pid allocated. -/
  | numbered (p : P)
deriving DecidableEq

/-- The steps of the system calls, by process `t`. -/
inductive Call (P C : Type) where
  /-- `create_proc` in `fork`. -/
  | fork (t p : P)
  /-- `set_parent_to_this` in `fork`. -/
  | setParentToThis (t : P)
  /-- `create_container` up to `start_proc`. -/
  | createContainer (t : P) (c : C) (p : P)
  | loadPid (t : P)
  | startPid (t : P)
  | startActivate (t : P)
  | exitTree (t : P) (code : ℤ)
  | exitSched (t : P)
  | waitCheck (t : P)
  | waitSem (t : P)
  | waitResume (t : P)
  | waitTree (t : P)
  | freeLocal (t : P)

/-- The system calls, over the processes and their pids. -/
structure Calls (P C : Type) where
  pids : Pids P C
  making : P → Making P
  /-- Not part of the code: who has made the process by `fork`. -/
  forkedBy : P → Option P

namespace Call

variable {P C : Type}

/-- The process that executes a step. -/
def actor : Call P C → P
  | .fork t _ | .setParentToThis t | .createContainer t _ _ | .loadPid t | .startPid t
  | .startActivate t | .exitTree t _ | .exitSched t | .waitCheck t | .waitSem t
  | .waitResume t | .waitTree t | .freeLocal t => t

/-- What a step does, and where the process is then. -/
def act : Call P C → Making P → Option (PidAct P C × Making P)
  | .fork t p, .idle => some (.tree (.createProc t p), .created p)
  | .setParentToThis t, .created p => some (.tree (.setParentToThis t p), .linked p)
  | .createContainer t c p, .idle => some (.tree (.createContainer t c p), .linked p)
  | .loadPid t, .linked p => some (.loadPid t p, .allocating p)
  | .startPid t, .allocating p => some (.startPid t p, .numbered p)
  | .startActivate t, .numbered p => some (.tree (.startActivate t p), .idle)
  | .exitTree t code, .idle => some (.tree (.exitTree t code), .idle)
  | .exitSched t, .idle => some (.tree (.exitSched t), .idle)
  | .waitCheck t, .idle => some (.tree (.waitCheck t), .idle)
  | .waitSem t, .idle => some (.tree (.waitSem t), .idle)
  | .waitResume t, .idle => some (.tree (.waitResume t), .idle)
  | .waitTree t, .idle => some (.tree (.waitTree t), .idle)
  | .freeLocal t, .idle => some (.freeLocal t, .idle)
  | _, _ => none

end Call

namespace Calls

variable {P C : Type} [DecidableEq P] [DecidableEq C]

/-- The record of who has made whom by `fork`. -/
def record (forkedBy : P → Option P) : Call P C → P → Option P
  | .fork t p => Function.update forkedBy p (some t)
  | _ => forkedBy

/-- The steps. -/
def step (root : P) (rootC : C) (s : Calls P C) (c : Call P C) : Option (Calls P C) :=
  (c.act (s.making c.actor)).bind fun r =>
    (s.pids.stepAny root rootC r.1).map fun pids =>
      ⟨pids, Function.update s.making c.actor r.2, record s.forkedBy c⟩

/-- The system as `define_init(root_proc)` leaves it. -/
def init (root : P) (rootC : C) : Calls P C where
  pids := Pids.init root rootC
  making := fun _ => .idle
  forkedBy := fun _ => none

end Calls

end OsKernel.Proc
