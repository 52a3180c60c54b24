import OsKernel.Common.Run
import OsKernel.Common.SlotTable
import OsKernel.Fs.Model.Entry

/-!
# The names of files — model

`namex` and `skipelem` of `fs/inode.c`, `create` and the system calls
`openat`, `mkdirat`, `mknodat`, `unlinkat`, `chdir`, `newfstatat` and
`close` of `kernel/sysfile.c`, by any processes at once.

A directory is the table of its slots, which `inode_lookup` searches from the
front and `inode_insert` fills at the first free one. A step of a process is
a section under the lock of an inode, an `inode_get` or an `inode_put`; a
lock that is kept from one step to the next is in `lock`. A step that does
not exist is a wait for a lock, or a failed `ASSERT` or a `PANIC`.

The image is the one that `mkfs` makes for any list of file names.
-/

namespace OsKernel.Fs

open Function

/-! ## Paths -/

/-- A name, up to its NUL or `FILE_NAME_MAX_LENGTH`. -/
abbrev Name : Type := List UInt8

/-- `'/'`. -/
abbrev slash : UInt8 := 47

/-- `"."`. -/
def dot : Name := [46]

/-- `".."`. -/
def dotdot : Name := [46, 46]

/-- `skipelem`: the next element of a path, and the path after it. -/
def skipelem (path : List UInt8) : Option (Name × List UInt8) :=
  match path.dropWhile (· = slash) with
  | [] => none
  | s => some ((s.takeWhile (· ≠ slash)).take fileNameMaxLength,
      (s.dropWhile (· ≠ slash)).dropWhile (· = slash))

/-! ## The volume -/

/-- `type` of an inode that is allocated. -/
inductive FileType where
  | directory
  | regular
  | device
deriving DecidableEq

/-- An inode that is allocated, with the slots of a directory. -/
structure Ino where
  type : FileType
  /-- `num_links`. -/
  links : ℕ
  slots : SlotTable Name ℕ

/-- `num_links++`, of a `u16`. -/
def incr (links : ℕ) : ℕ := (links + 1) % 2 ^ 16

/-- `num_links--`, of a `u16`. -/
def decr (links : ℕ) : ℕ := (links + (2 ^ 16 - 1)) % 2 ^ 16

/-- `ROOT_INODE_NO`. -/
abbrev rootIno : ℕ := 1

/-- `num_inodes`, as `mkfs` sets it. -/
def numInodes : ℕ := 200

/-- `inode_insert`, on the slots. -/
def insertName (l : SlotTable Name ℕ) (name : Name) (n : ℕ) : SlotTable Name ℕ :=
  if (l.find name).isSome then l else l.put (SlotTable.freeFrom 0 l) (some (name, n))

/-- `isdirempty`: no slot after the first two is in use. -/
def Ino.isEmpty (i : Ino) : Bool := (i.slots.drop 2).all Option.isNone

/-- What the processes share. -/
structure Volume (P : Type*) where
  /-- `none` is `INODE_INVALID`. -/
  inodes : ℕ → Option Ino
  /-- `rc.count` of the inode in the list of cached ones, 0 where there is
  none. -/
  rc : ℕ → ℕ
  /-- Who has the lock of an inode between two steps. -/
  lock : ℕ → Option P
  /-- Not part of the code: how often a number has been allocated. -/
  gen : ℕ → ℕ
  /-- Not part of the code: the references that nobody will put. -/
  lost : List ℕ

namespace Volume

variable {P : Type*} (f : Volume P)

/-- The entry of an inode is written. -/
def setIno (n : ℕ) (i : Option Ino) : Volume P := { f with inodes := update f.inodes n i }

/-- `rc.count` of an inode is written. -/
def setRc (n r : ℕ) : Volume P := { f with rc := update f.rc n r }

/-- An inode is locked or unlocked. -/
def setLock (n : ℕ) (o : Option P) : Volume P := { f with lock := update f.lock n o }

/-- `num_links`, 0 for an inode that is not allocated. -/
def linksOf (n : ℕ) : ℕ := (f.inodes n).elim 0 Ino.links

/-- `inode_share`. -/
def inodeShare (n : ℕ) : Volume P := f.setRc n (f.rc n + 1)

/-- `inode_get`; `none` where `ASSERT(entry.type != INODE_INVALID)` fails. -/
def inodeGet (n : ℕ) : Option (Volume P) :=
  if (f.inodes n).isSome then some (f.inodeShare n) else none

/-- `inode_put`: whoever drops the last reference to an inode without links
frees it. -/
def inodePut (n : ℕ) : Volume P :=
  if f.rc n = 1 ∧ f.linksOf n = 0 then (f.setIno n none).setRc n 0 else f.setRc n (f.rc n - 1)

/-- A reference is not put by whoever has it. -/
def lose (n : ℕ) : Volume P := { f with lost := n :: f.lost }

/-- `inode_alloc`: the lowest number that is not in use. -/
def findFree : Option ℕ := (List.range' 1 (numInodes - 1)).find? fun n => (f.inodes n).isNone

/-- `inode_alloc` of `n`, with a fresh entry. -/
def allocate (n : ℕ) (ty : FileType) : Volume P :=
  { f.setIno n (some ⟨ty, 0, []⟩) with gen := update f.gen n (f.gen n + 1) }

/-- The section of `create` under the lock of the directory `i`: a new inode
`n` is allocated and gets a name. -/
def make (dir : ℕ) (i : Ino) (name : Name) (n : ℕ) (ty : FileType) : Volume P :=
  (f.allocate n ty).setIno dir (some { i with
    slots := insertName i.slots name n
    links := if ty = .directory then incr i.links else i.links })

/-- The section of `create` under the lock of the new inode `n`. -/
def initialise (dir n : ℕ) (i : Ino) : Volume P :=
  f.setIno n (some { i with
    links := 1
    slots :=
      if i.type = .directory then insertName (insertName i.slots dot n) dotdot dir else i.slots })

/-- `unlinkat` clears slot `off` of the directory `i`, which names an inode of
the given type. -/
def clearSlot (dir : ℕ) (i : Ino) (off : ℕ) (ty : FileType) : Volume P :=
  f.setIno dir (some { i with
    slots := i.slots.put off none
    links := if ty = .directory then decr i.links else i.links })

end Volume

/-! ## System calls -/

/-- The system calls that take a path. -/
inductive Call where
  /-- With `O_CREAT` or without. -/
  | openat (creat : Bool)
  | mkdirat
  | mknodat
  | unlinkat
  | chdir
  | newfstatat
deriving DecidableEq

/-- The type that a call creates. -/
def Call.newType : Call → Option FileType
  | .openat true => some .regular
  | .mkdirat => some .directory
  | .mknodat => some .device
  | _ => none

/-- Whether a call begins with `nameiparent`. -/
def Call.wantsParent (c : Call) : Bool := c.newType.isSome || c = .unlinkat

/-- Where a process is in a call. `g` is the `gen` of an inode when it was
looked up. -/
inductive Stage where
  | idle
  /-- `namex` at the inode `cur`, with a path to go. -/
  | walk (c : Call) (cur : ℕ) (path : List UInt8)
  /-- `namex` has looked up `n`, and puts `cur`. -/
  | next (c : Call) (cur n g : ℕ) (path : List UInt8)
  /-- `namex` gets `n`. -/
  | fetch (c : Call) (n g : ℕ) (path : List UInt8)
  /-- `namei` has returned `cur`. -/
  | reached (c : Call) (cur : ℕ)
  /-- `chdir` puts the old working directory. -/
  | enter (cur : ℕ)
  /-- `nameiparent` has returned `dir`. -/
  | parent (c : Call) (dir : ℕ) (name : Name)
  /-- `create` has found the name, and puts `dir`. -/
  | found (c : Call) (dir n g : ℕ)
  /-- `create` gets the inode that has the name. -/
  | fetchOld (c : Call) (n g : ℕ)
  /-- `create` looks at the type of that inode. -/
  | old (c : Call) (n : ℕ)
  /-- `create` has given the new inode `n` a name, and puts `dir`. -/
  | created (c : Call) (dir n g : ℕ)
  /-- `create` gets the new inode. -/
  | fetchNew (c : Call) (dir n g : ℕ)
  /-- `create` initialises the new inode. -/
  | fresh (c : Call) (dir n : ℕ)
  /-- `unlinkat` has found the name in slot `off`, and gets the inode; it has
  the lock of `dir`. -/
  | unlinkGet (dir n off g : ℕ)
  /-- `unlinkat` locks the inode. -/
  | unlinkLock (dir n off : ℕ)
  /-- `unlinkat` has found a directory that is not empty, and puts it. -/
  | unlinkBusy (dir n : ℕ)
  /-- `unlinkat` has cleared the slot and puts `dir`; it has the lock of
  `n`. -/
  | unlinkPut (dir n : ℕ)
  /-- `unlinkat` decrements `num_links`. -/
  | unlinkDec (n : ℕ)
  /-- The call puts `n` and returns. -/
  | drop (n : ℕ)
deriving DecidableEq

namespace Stage

/-- The references of a call. -/
def refs : Stage → List ℕ
  | .idle | .fetch _ _ _ _ | .fetchOld _ _ _ | .fetchNew _ _ _ _ => []
  | .walk _ cur _ | .next _ cur _ _ _ | .reached _ cur | .enter cur => [cur]
  | .parent _ dir _ | .found _ dir _ _ | .created _ dir _ _ | .unlinkGet dir _ _ _ => [dir]
  | .old _ n | .fresh _ _ n | .unlinkDec n | .drop n => [n]
  | .unlinkLock dir n _ | .unlinkBusy dir n => [n, dir]
  | .unlinkPut dir n => [dir, n]

/-- The inode that has a name and is not initialised yet, and the directory
that has its name. -/
def birth : Stage → Option (ℕ × ℕ)
  | .created _ dir n _ | .fetchNew _ dir n _ | .fresh _ dir n => some (dir, n)
  | _ => none

/-- The inode that has a name and is not initialised yet. -/
def window (st : Stage) : Option ℕ := st.birth.map Prod.snd

/-- The directory that `unlinkat` has locked, with the inode that it has found
there and its slot. -/
def claim : Stage → Option (ℕ × ℕ × ℕ)
  | .unlinkGet dir n off _ | .unlinkLock dir n off => some (dir, n, off)
  | _ => none

/-- The inode whose lock a call keeps from one step to the next. -/
def owns : Stage → Option ℕ
  | .unlinkGet dir _ _ _ | .unlinkLock dir _ _ | .unlinkBusy dir _ => some dir
  | .unlinkPut _ n | .unlinkDec n => some n
  | _ => none

/-- The inodes that the walk of a path is at, up to the last name of the
path. -/
def cursor : Stage → List ℕ
  | .walk _ cur _ | .reached _ cur | .enter cur => [cur]
  | .next _ cur n _ _ => [cur, n]
  | .fetch _ n _ _ | .found _ _ n _ | .fetchOld _ n _ => [n]
  | .parent _ dir _ => [dir]
  | _ => []

/-- The inode that `chdir` has found to be a directory. -/
def entering : Stage → Option ℕ
  | .enter cur => some cur
  | _ => none

/-- The inode that `unlinkat` puts last, or a call puts and returns. -/
def leaving : Stage → Option ℕ
  | .unlinkPut _ n | .unlinkDec n | .drop n => some n
  | _ => none

/-- The inode that has lost its name and is still to lose a link. -/
def pending : Stage → Option ℕ
  | .unlinkPut _ n | .unlinkDec n => some n
  | _ => none

/-- The inode that the next step gets. -/
def getting : Stage → Option ℕ
  | .fetch _ n _ _ | .fetchOld _ n _ | .fetchNew _ _ n _ | .unlinkGet _ n _ _ => some n
  | _ => none

/-- The inode that is got next, with its `gen` when it was looked up. -/
def target : Stage → Option (ℕ × ℕ)
  | .next _ _ n g _ | .fetch _ n g _ | .found _ _ n g | .fetchOld _ n g | .created _ _ n g |
    .fetchNew _ _ n g | .unlinkGet _ n _ g => some (n, g)
  | _ => none

end Stage

/-- What a process has for itself. -/
structure Task where
  cwd : ℕ
  /-- The inodes of its open files. -/
  files : List ℕ
  stage : Stage

namespace Task

/-- A process goes on. -/
def goto (x : Task) (st : Stage) : Task := { x with stage := st }

/-- The references of a process. -/
def held (x : Task) : List ℕ := x.cwd :: (x.files ++ x.stage.refs)

end Task

/-- The volume and the processes. -/
structure NameSys (P : Type*) where
  vol : Volume P
  task : P → Task

/-- What can happen next. -/
inductive NameAct (P : Type*) where
  | call (p : P) (c : Call) (path : List UInt8)
  /-- `close` of the last descriptor of an open file. -/
  | close (p : P) (n : ℕ)
  /-- The process goes on; `fd` is whether `filealloc` and `fdalloc` find a
  place. -/
  | go (p : P) (fd : Bool)

namespace Task

variable {P : Type*} [DecidableEq P]

/-- The call returns with the inode `n`, which it has unlocked. -/
def finish (x : Task) (c : Call) (n : ℕ) (fd : Bool) : Task :=
  match c with
  | .openat _ => if fd then { x with files := n :: x.files, stage := .idle } else x.goto (.drop n)
  | _ => x.goto (.drop n)

/-- A section under the lock of inode `n`, which must be free. -/
def locked {α : Type*} (f : Volume P) (n : ℕ) (k : Ino → Option α) : Option α :=
  if f.lock n = none then (f.inodes n).bind k else none

/-- The beginning of a call: `namex` up to its loop. `nameiparent` of an empty
path keeps the reference. -/
def begin (f : Volume P) (x : Task) (c : Call) (path : List UInt8) : Volume P × Task :=
  let start := if path.head? = some slash then rootIno else x.cwd
  if c.wantsParent ∧ skipelem path = none then ((f.inodeShare start).lose start, x)
  else (f.inodeShare start, x.goto (.walk c start path))

/-- One turn of the loop of `namex`, under the lock of `cur`. Where the name is
not found, `cur` is not put. -/
def look (f : Volume P) (x : Task) (c : Call) (cur : ℕ) (name : Name) (rest : List UInt8)
    (i : Ino) : Volume P × Task :=
  if i.type ≠ .directory then (f, x.goto (.drop cur))
  else if c.wantsParent ∧ rest = [] then (f, x.goto (.parent c cur name))
  else
    match i.slots.find name with
    | none => (f.lose cur, x.goto .idle)
    | some (_, n) => (f, x.goto (.next c cur n (f.gen n) rest))

/-- `create` under the lock of the directory. -/
def createIn (f : Volume P) (x : Task) (c : Call) (ty : FileType) (dir : ℕ) (name : Name)
    (i : Ino) : Option (Volume P × Task) :=
  match i.slots.find name with
  | some (_, n) => some (f, x.goto (.found c dir n (f.gen n)))
  | none => f.findFree.map fun n =>
    (f.make dir i name n ty, x.goto (.created c dir n (f.gen n + 1)))

/-- `unlinkat` under the lock of the directory. -/
def unlinkIn (f : Volume P) (p : P) (x : Task) (dir : ℕ) (name : Name) (i : Ino) :
    Volume P × Task :=
  if name = dot ∨ name = dotdot then (f, x.goto (.drop dir))
  else
    match i.slots.find name with
    | none => (f, x.goto (.drop dir))
    | some (off, n) => (f.setLock dir (some p), x.goto (.unlinkGet dir n off (f.gen n)))

/-- `unlinkat` under both locks; `none` where `num_links < 1`. -/
def unlinkBoth (f : Volume P) (p : P) (x : Task) (dir n off : ℕ) (i j : Ino) :
    Option (Volume P × Task) :=
  if j.links < 1 then none
  else if j.type = .directory ∧ j.isEmpty = false then some (f, x.goto (.unlinkBusy dir n))
  else some (((f.clearSlot dir i off j.type).setLock dir none).setLock n (some p),
    x.goto (.unlinkPut dir n))

/-- A process goes on with its call. -/
def go (f : Volume P) (p : P) (x : Task) (fd : Bool) : Option (Volume P × Task) :=
  match x.stage with
  | .idle => none
  | .walk c cur path =>
    match skipelem path with
    | none => some (f, x.goto (.reached c cur))
    | some (name, rest) => locked f cur fun i => some (look f x c cur name rest i)
  | .next c cur n g path => some (f.inodePut cur, x.goto (.fetch c n g path))
  | .fetch c n _ path => (f.inodeGet n).map fun f => (f, x.goto (.walk c n path))
  | .reached c cur => locked f cur fun i =>
    if c = .chdir then
      some (f, if i.type = .directory then x.goto (.enter cur) else x.goto (.drop cur))
    else some (f, x.finish c cur fd)
  | .enter cur => some (f.inodePut x.cwd, { x with cwd := cur, stage := .idle })
  | .parent c dir name => locked f dir fun i =>
    -- `inode_lookup` asserts the type
    if i.type ≠ .directory then none
    else match c.newType with
      | some ty => createIn f x c ty dir name i
      | none => some (unlinkIn f p x dir name i)
  | .found c dir n g => some (f.inodePut dir, x.goto (.fetchOld c n g))
  | .fetchOld c n _ => (f.inodeGet n).map fun f => (f, x.goto (.old c n))
  | .old c n => locked f n fun i =>
    some (f, if some i.type = c.newType then x.finish c n fd else x.goto (.drop n))
  | .created c dir n g => some (f.inodePut dir, x.goto (.fetchNew c dir n g))
  | .fetchNew c dir n _ => (f.inodeGet n).map fun f => (f, x.goto (.fresh c dir n))
  | .fresh c dir n => locked f n fun i => some (f.initialise dir n i, x.finish c n fd)
  | .unlinkGet dir n off _ => (f.inodeGet n).map fun f => (f, x.goto (.unlinkLock dir n off))
  | .unlinkLock dir n off => (f.inodes dir).bind fun i => locked f n fun j =>
    unlinkBoth f p x dir n off i j
  | .unlinkBusy dir n => some ((f.inodePut n).setLock dir none, x.goto (.drop dir))
  | .unlinkPut dir n => some (f.inodePut dir, x.goto (.unlinkDec n))
  | .unlinkDec n => (f.inodes n).map fun i =>
    ((f.setIno n (some { i with links := decr i.links })).setLock n none, x.goto (.drop n))
  | .drop n => some (f.inodePut n, x.goto .idle)

end Task

namespace NameSys

variable {P : Type*} [DecidableEq P]

/-- The steps of one process. -/
def act (f : Volume P) (x : Task) : NameAct P → Option (Volume P × Task)
  | .call _ c path => if x.stage = .idle then some (Task.begin f x c path) else none
  | .close _ n =>
    if x.stage = .idle ∧ n ∈ x.files then
      some (f, { x with files := x.files.erase n, stage := .drop n })
    else none
  | .go p fd => Task.go f p x fd

/-- Who acts. -/
def actor : NameAct P → P
  | .call p _ _ | .close p _ | .go p _ => p

/-- The steps. -/
def step (s : NameSys P) (a : NameAct P) : Option (NameSys P) :=
  (act s.vol (s.task (actor a)) a).map fun r =>
    ⟨r.1, update s.task (actor a) r.2⟩

end NameSys

/-! ## The image -/

/-- The files that `mkfs` is given. -/
structure Image where
  names : List Name
  fits : names.length + 2 ≤ numInodes

namespace Image

variable {P : Type*} (img : Image)

/-- The slots of the root directory: its two names, a slot for each file, and
free ones up to the end of the block. -/
def rootSlots : SlotTable Name ℕ :=
  some (dot, rootIno) :: some (dotdot, rootIno) ::
    (img.names.zipIdx 2).map some ++
      List.replicate (((img.names.length + 2) / 32 + 1) * 32 - (img.names.length + 2)) none

/-- The inodes of the image: the root directory, and the files from number 2
on. -/
def inodes (n : ℕ) : Option Ino :=
  if n = rootIno then some ⟨.directory, 1, img.rootSlots⟩
  else if 2 ≤ n ∧ n < img.names.length + 2 then some ⟨.regular, 1, []⟩
  else none

/-- The system has come up on the image, and every process is in the root
directory. `inodes.root` is one more reference to it. -/
def init [Fintype P] : NameSys P where
  vol :=
    { inodes := img.inodes
      rc := fun n => if n = rootIno then Fintype.card P + 1 else 0
      lock := fun _ => none
      gen := fun _ => 0
      lost := [] }
  task := fun _ => ⟨rootIno, [], .idle⟩

end Image

end OsKernel.Fs
