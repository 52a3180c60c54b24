import OsKernel.Common.Cells
import OsKernel.Common.HashMap
import OsKernel.Proc.Model.Tree

/-!
# The pids — model

`alloc_pid`, `free_pid`, `alloc_hashpid` and `free_hashpid` of `kernel/proc.c`,
with the calls that `init_proc`, `start_proc` and `wait` make to them. An action
of the process tree is a step together with what it does to the tables.

`globalpidmap` and the hash table are used under `tree_lock` only. The local pids
are not: `start_proc` allocates one under `pidlock`, and `wait` frees one under
`tree_lock`. So the assignments of `bitmap_set` and `bitmap_clear` are taken
apart. `start_proc` reads the cell in `PidAct.loadPid` and writes it in
`PidAct.startPid`. `wait` reads it in its step of the tree and writes it in
`PidAct.freeLocal`; in between it has `tree_lock`, and what is left of its
section nobody else can see.
-/

namespace OsKernel.Proc

open Function

/-- `MAX_CONTAINER_PID`. -/
def maxContainerPid : ℕ := 256

/-- `pidmap_t`. -/
structure PidMap where
  bitmap : Cells
  lastPid : ℤ

namespace PidMap

/-- A bitmap that is all clear, and `last_pid = -1`. -/
def init : PidMap := ⟨Cells.empty, -1⟩

/-- The loops of `alloc_pid`: up to `n` set bits from `pid` on are passed over. -/
def scan (bitmap : Cells) : ℕ → ℕ → ℕ
  | 0, pid => pid
  | n + 1, pid => if bitmap.get pid then scan bitmap n (pid + 1) else pid

/-- The pid at which the loops of `alloc_pid` stop. -/
def candidate (m : PidMap) : ℕ :=
  let start := (m.lastPid + 1).toNat
  let pid := scan m.bitmap (maxContainerPid - start) start
  if pid = maxContainerPid then scan m.bitmap start 0 else pid

/-- `alloc_pid`. -/
def allocPid (m : PidMap) : ℤ × PidMap :=
  if maxContainerPid ≠ m.candidate ∧ m.bitmap.get m.candidate = false then
    (m.candidate, ⟨m.bitmap.set m.candidate, m.candidate⟩)
  else (-1, m)

/-- `free_pid` of a pid in the bitmap. -/
def freePid (m : PidMap) (pid : ℤ) : PidMap := { m with bitmap := m.bitmap.clear pid.toNat }

end PidMap

/-- `hash`: the remainder has the sign of the pid. -/
def hash (pid : ℤ) : ℤ := pid.tmod 128

/-- A `free_pid` of `wait` that has read the cell and not written it. -/
structure Freeing (P C : Type) where
  waiter : P
  container : C
  pid : ℕ
  cell : BitVec 64

/-- An `alloc_pid` of `start_proc` that has read the cell and not written it. -/
structure Loading (P : Type) where
  proc : P
  /-- What `alloc_pid` returns. -/
  pid : ℤ
  cell : BitVec 64

/-- The processes with their pids. A node of the hash table is named by its
process. -/
structure Pids (P C : Type) where
  tree : Tree P C
  pid : P → ℤ
  localpid : P → ℤ
  globalpidmap : PidMap
  pidmap : C → PidMap
  /-- The buckets of `h`. -/
  bullet : ℤ → List P
  /-- `hashpid->pid`. -/
  hashpid : P → ℤ
  /-- Not part of the code: `start_proc` has allocated the local pid. -/
  started : P → Bool
  freeing : Option (Freeing P C)
  /-- What is done under the `pidlock` of each container. -/
  loading : C → Option (Loading P)

/-- What may happen next. -/
inductive PidAct (P C : Type) where
  | tree (a : Act P C)
  /-- The section of `start_proc` under `pidlock`, up to the read of the cell. -/
  | loadPid (t p : P)
  /-- The rest of it. -/
  | startPid (t p : P)
  /-- The write of `free_pid` on a local pid. -/
  | freeLocal (t : P)

/-- The process that executes an action. -/
def Act.actor {P C : Type} : Act P C → P
  | .createProc t _ | .setParentToThis t _ | .setContainerToThis t _ | .createContainer t _ _
  | .startParent t _ | .startActivate t _ | .exitTree t _ | .exitSched t | .waitCheck t
  | .waitSem t | .waitResume t | .waitTree t => t

/-- Does the action take `tree_lock`? -/
def Act.locksTree {P C : Type} : Act P C → Bool
  | .createProc _ _ | .setParentToThis _ _ | .createContainer _ _ _ | .startParent _ _
  | .exitTree _ _ | .waitTree _ => true
  | _ => false

namespace Pids

variable {P C : Type} [DecidableEq P] [DecidableEq C]

def setTree (s : Pids P C) (tree : Tree P C) : Pids P C := { s with tree := tree }

/-- The section of `init_proc`. `none` where `alloc_pid` fails: the code would
index the table with `-1`. -/
def initPid (s : Pids P C) (p : P) : Option (Pids P C) :=
  let r := s.globalpidmap.allocPid
  if hash r.1 < 0 then none
  else some { s with
    pid := update s.pid p r.1
    globalpidmap := r.2
    hashpid := update s.hashpid p r.1
    bullet := (HashMap.insert s.bullet (hash r.1) p).2
    started := update s.started p false }

/-- `init_container`, as far as pids go. -/
def initContainer (s : Pids P C) (c : C) : Pids P C :=
  { s with pidmap := update s.pidmap c .init, loading := update s.loading c none }

/-- `free_pid`, `free_hashpid` and the read of the second `free_pid` in `wait`, for
the child `z`. `none` is a `NULL` from the lookup, or a pid of `-1`, whose cell is
outside the bitmap. -/
def reapPid (s : Pids P C) (t z : P) : Option (Pids P C) :=
  (HashMap.lookup s.bullet (hash (s.pid z)) s.hashpid (s.pid z)).bind fun node =>
    if s.pid z < 0 ∨ s.localpid z < 0 then none
    else some { s with
      globalpidmap := s.globalpidmap.freePid (s.pid z)
      bullet := HashMap.erase s.bullet (hash (s.hashpid node)) node
      freeing := some ⟨t, s.tree.container z, (s.localpid z).toNat,
        (s.pidmap (s.tree.container z)).bitmap ((s.localpid z).toNat / 64)⟩ }

/-- What an action of the tree does to the tables. -/
def tables (s : Pids P C) : Act P C → Option (Pids P C)
  | .createProc _ p => s.initPid p
  | .createContainer _ c p => (s.initContainer c).initPid p
  | .setContainerToThis _ p =>
    if s.started p || (s.loading (s.tree.container p)).any (·.proc = p) then none else some s
  | .startActivate _ p => if s.started p then some s else none
  | .waitTree t =>
    match (s.tree.children t).getLast? with
    | some z => if s.tree.life z = .zombie then s.reapPid t z else some s
    | none => some s
  | _ => some s

/-- `alloc_pid` in `start_proc`, up to the read of the cell. -/
def loadPid (s : Pids P C) (p : P) : Pids P C :=
  let m := s.pidmap (s.tree.container p)
  { s with
    loading := update s.loading (s.tree.container p)
      (some ⟨p, m.allocPid.1, m.bitmap (m.allocPid.1.toNat / 64)⟩) }

/-- The rest of the section, from the write of the cell on. -/
def startPid (s : Pids P C) (l : Loading P) : Pids P C :=
  let c := s.tree.container l.proc
  { s with
    localpid := update s.localpid l.proc l.pid
    pidmap := if l.pid < 0 then s.pidmap else update s.pidmap c
      ⟨(s.pidmap c).bitmap.setCell (l.pid.toNat / 64)
        (l.cell ||| BitVec.twoPow 64 (l.pid.toNat % 64)), l.pid⟩
    started := update s.started l.proc true
    loading := update s.loading c none }

/-- The write of `free_pid`. -/
def freeLocal (s : Pids P C) (f : Freeing P C) : Pids P C :=
  let m := s.pidmap f.container
  { s with
    pidmap := update s.pidmap f.container
      { m with bitmap := m.bitmap.setCell (f.pid / 64) (Cells.without f.cell f.pid) }
    freeing := none }

/-- May the process go on with an action while `tree_lock` is held? -/
def mayRun (s : Pids P C) (t : P) (locks : Bool) : Bool :=
  s.freeing.all fun f => !locks && decide (f.waiter ≠ t)

/-- The steps. -/
def step (root : P) (rootC : C) (s : Pids P C) : PidAct P C → Option (Pids P C)
  | .tree a =>
    if s.mayRun a.actor a.locksTree then
      (s.tree.step root rootC a).bind fun tree => (s.tables a).map fun s => s.setTree tree
    else none
  | .loadPid t p =>
    if s.mayRun t false ∧ s.tree.running t ∧ s.tree.life p = .unused ∧ s.tree.parent p ≠ none ∧
        s.started p = false ∧ (s.loading (s.tree.container p)).isNone
    then some (s.loadPid p) else none
  | .startPid t p =>
    (s.loading (s.tree.container p)).bind fun l =>
      if s.mayRun t false ∧ s.tree.running t ∧ l.proc = p then some (s.startPid l) else none
  | .freeLocal t =>
    s.freeing.bind fun f => if f.waiter = t then some (s.freeLocal f) else none

/-! ## Without the check

`alloc_pid` returns `-1` when no bit is clear, and `init_proc` goes on. -/

/-- The section of `init_proc`, with whatever `alloc_pid` returns. Bucket
`-1` is the word in front of the table. -/
def initPidAny (s : Pids P C) (p : P) : Pids P C :=
  let r := s.globalpidmap.allocPid
  { s with
    pid := update s.pid p r.1
    globalpidmap := r.2
    hashpid := update s.hashpid p r.1
    bullet := (HashMap.insert s.bullet (hash r.1) p).2
    started := update s.started p false }

/-- What an action of the tree does to the tables, with `initPidAny`. -/
def tablesAny (s : Pids P C) : Act P C → Option (Pids P C)
  | .createProc _ p => some (s.initPidAny p)
  | .createContainer _ c p => some ((s.initContainer c).initPidAny p)
  | a => s.tables a

/-- The steps, with `initPidAny`. -/
def stepAny (root : P) (rootC : C) (s : Pids P C) : PidAct P C → Option (Pids P C)
  | .tree a =>
    if s.mayRun a.actor a.locksTree then
      (s.tree.step root rootC a).bind fun tree => (s.tablesAny a).map fun s => s.setTree tree
    else none
  | a => s.step root rootC a

/-- The pids as `define_init(root_proc)` leaves them. -/
def init (root : P) (rootC : C) : Pids P C where
  tree := Tree.init root rootC
  pid := fun _ => 0
  localpid := fun _ => 0
  globalpidmap := PidMap.init.allocPid.2
  pidmap := fun c => if c = rootC then PidMap.init.allocPid.2 else .init
  bullet := fun b => if b = 0 then [root] else []
  hashpid := fun _ => 0
  started := fun p => p = root
  freeing := none
  loading := fun _ => none

/-- Not yet reaped. -/
def Live (s : Pids P C) (p : P) : Prop := s.tree.life p ≠ .absent ∧ s.tree.life p ≠ .reaped

instance (s : Pids P C) (p : P) : Decidable (s.Live p) := inferInstanceAs (Decidable (_ ∧ _))

end Pids

end OsKernel.Proc
