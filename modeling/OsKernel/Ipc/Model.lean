import OsKernel.Common.Run

/-!
# Message queues — model

`sys_msgsnd` and `sys_msgrcv` of `common/ipc.c` on one queue, by any number
of processes, without `kill` and without `IPC_RMID`. A step is what a call
does between an acquisition of `msg_ids.lock` and its release.

A process that goes to sleep takes the scheduler's lock before it gives up
`msg_ids.lock`, so it cannot miss its wake-up: a sender is asleep exactly
as long as it is in `q_sender`, and a receiver until `pipeline_send` has
written its `r_msg`.
-/

namespace OsKernel.Ipc

/-- `MAX_MSGNUM`. -/
abbrev maxMsg : ℤ := 256

abbrev EINVAL : ℤ := -5
abbrev EAGAIN : ℤ := -6
abbrev E2BIG : ℤ := -8
abbrev ENOMSG : ℤ := -9

/-- A message that `load_msg` has made, numbered in the order in which the
messages were made. -/
structure Msg where
  id : ℕ
  mtype : ℤ
  size : ℤ
deriving DecidableEq

/-- `msg_receiver`. -/
structure Receiver (T : Type) where
  proc : T
  mtype : ℤ
  size : ℤ

/-- A system call of a process. -/
inductive Call where
  /-- `sys_msgsnd` at `retry`, with `IPC_NOWAIT` or without. -/
  | snd (m : Msg) (nowait : Bool)
  /-- `sys_msgrcv` before it has acquired the lock. -/
  | rcv (msgsz mtype : ℤ) (nowait : Bool)
  /-- `sys_msgrcv` in `_sched`. -/
  | asleep (msgsz : ℤ)
  /-- `sys_msgrcv` with its message. -/
  | got (msgsz : ℤ) (m : Msg)
  /-- The call has returned. -/
  | done (ret : ℤ)
deriving DecidableEq

/-- A message queue and the processes that use it. -/
structure State (T : Type) where
  sumMsg : ℤ
  qMessage : List Msg
  qSender : List T
  qReceiver : List (Receiver T)
  proc : T → Call
  /-- How many messages have been made. -/
  loaded : ℕ

/-- What may happen next. -/
inductive Act (T : Type) where
  | callSnd (t : T) (mtype msgsz : ℤ) (nowait : Bool)
  | callRcv (t : T) (msgsz mtype : ℤ) (nowait : Bool)
  /-- The next step of a process that is in a call. -/
  | run (t : T)
deriving DecidableEq

/-- `testmsg`. -/
def testmsg (rqtype type : ℤ) : Bool :=
  if rqtype = 0 then true
  else if rqtype < 0 then rqtype + type ≤ 0
  else rqtype = type

/-- `pipeline_send`: the receivers that are left and the one that gets the
message. On a matching receiver that is too small the loop would go on from
a node that is linked to itself. -/
def pipelineSend {T : Type} (m : Msg) :
    List (Receiver T) → Option (List (Receiver T) × Option (Receiver T))
  | [] => some ([], none)
  | rc :: rest =>
    if testmsg rc.mtype m.mtype then
      if rc.size < m.size then none else some (rest, some rc)
    else (pipelineSend m rest).map fun x => (rc :: x.1, x.2)

/-- The loop of `sys_msgrcv` over the messages, with the message found so
far. -/
def findLoop (mtype : ℤ) (found : Option Msg) : List Msg → Option Msg
  | [] => found
  | m :: rest =>
    if testmsg mtype m.mtype then
      if mtype < -1 then findLoop (mtype + 1) (some m) rest else some m
    else findLoop mtype found rest

/-- The message that `sys_msgrcv` finds. -/
def findMsg (mtype : ℤ) (l : List Msg) : Option Msg := findLoop mtype none l

namespace State

variable {T : Type} [DecidableEq T]

/-- A queue as `newque` leaves it. -/
def init : State T where
  sumMsg := 0
  qMessage := []
  qSender := []
  qReceiver := []
  proc := fun _ => .done 0
  loaded := 0

def setProc (s : State T) (t : T) (c : Call) : State T :=
  { s with proc := Function.update s.proc t c }

/-- `sys_msgsnd`, up to the loading of the message. -/
def callSnd (s : State T) (t : T) (mtype msgsz : ℤ) (nowait : Bool) : State T :=
  if msgsz < 0 ∨ mtype < 1 then s.setProc t (.done EINVAL)
  else { s with loaded := s.loaded + 1 }.setProc t (.snd ⟨s.loaded, mtype, msgsz⟩ nowait)

/-- `sys_msgsnd` where the queue has room: to a waiting receiver, or into
the queue. -/
def deliver (s : State T) (t : T) (m : Msg) : Option (State T) :=
  (pipelineSend m s.qReceiver).map fun x =>
    match x.2 with
    | some rc =>
      ({ s with qReceiver := x.1 }.setProc rc.proc (.got rc.size m)).setProc t (.done 0)
    | none =>
      { s with qReceiver := x.1, qMessage := s.qMessage ++ [m], sumMsg := s.sumMsg + 1 }.setProc t
        (.done 0)

/-- `sys_msgsnd` from `retry` on. -/
def msgsnd (s : State T) (t : T) (m : Msg) (nowait : Bool) : Option (State T) :=
  if t ∈ s.qSender then none
  else if maxMsg < s.sumMsg + 1 then
    if nowait then some (s.setProc t (.done EAGAIN))
    else some { s with qSender := s.qSender ++ [t] }
  else s.deliver t m

/-- `sys_msgrcv` up to where it has its message or sleeps. A receive from
the queue wakes all senders. -/
def msgrcv (s : State T) (t : T) (msgsz mtype : ℤ) (nowait : Bool) : State T :=
  match findMsg mtype s.qMessage with
  | some m =>
    if msgsz < m.size then s.setProc t (.done E2BIG)
    else
      { s with qMessage := s.qMessage.erase m, sumMsg := s.sumMsg - 1, qSender := [] }.setProc t
        (.got msgsz m)
  | none =>
    if nowait then s.setProc t (.done ENOMSG)
    else
      { s with qReceiver := s.qReceiver ++ [(⟨t, mtype, msgsz⟩ : Receiver T)] }.setProc t
        (.asleep msgsz)

/-- The next step of a call. -/
def run (s : State T) (t : T) : Call → Option (State T)
  | .snd m nowait => s.msgsnd t m nowait
  | .rcv msgsz mtype nowait => some (s.msgrcv t msgsz mtype nowait)
  | .asleep _ => none
  | .got msgsz m => some (s.setProc t (.done (min msgsz m.size)))
  | .done _ => none

/-- One step. -/
def step (s : State T) : Act T → Option (State T)
  | .callSnd t mtype msgsz nowait =>
    match s.proc t with
    | .done _ => some (s.callSnd t mtype msgsz nowait)
    | _ => none
  | .callRcv t msgsz mtype nowait =>
    match s.proc t with
    | .done _ => some (s.setProc t (if msgsz < 0 then .done EINVAL else .rcv msgsz mtype nowait))
    | _ => none
  | .run t => s.run t (s.proc t)

end State

/-! ## What a run does -/

section Events

variable {T : Type} [DecidableEq T]

/-- The message whose `sys_msgsnd` returns 0 in a step. -/
def sentBy (x : State T × Act T) : List Msg :=
  match x.2 with
  | .run t =>
    match x.1.proc t with
    | .snd m _ =>
      match x.1.step x.2 with
      | some s' => if s'.proc t = .done 0 then [m] else []
      | none => []
    | _ => []
  | _ => []

/-- The message that a step hands to a `sys_msgrcv`, and to which. -/
def deliveredBy (x : State T × Act T) : List (T × Msg) :=
  match x.2 with
  | .run t =>
    match x.1.proc t with
    | .snd m _ =>
      if t ∉ x.1.qSender ∧ x.1.sumMsg + 1 ≤ maxMsg then
        match pipelineSend m x.1.qReceiver with
        | some (_, some rc) => [(rc.proc, m)]
        | _ => []
      else []
    | .rcv msgsz mtype _ =>
      match findMsg mtype x.1.qMessage with
      | some m => if msgsz < m.size then [] else [(t, m)]
      | none => []
    | _ => []
  | _ => []

/-- The message with which a `sys_msgrcv` returns in a step. -/
def receivedBy (x : State T × Act T) : List (T × Msg) :=
  match x.2 with
  | .run t =>
    match x.1.proc t with
    | .got _ m => [(t, m)]
    | _ => []
  | _ => []

variable (tr : List (State T × Act T))

/-- The messages sent in a run, in their order. -/
def sent : List Msg := tr.flatMap sentBy

/-- The messages handed to a receiver in a run. -/
def delivered : List (T × Msg) := tr.flatMap deliveredBy

/-- The messages that `sys_msgrcv` has returned in a run. -/
def received : List (T × Msg) := tr.flatMap receivedBy

end Events

end OsKernel.Ipc
