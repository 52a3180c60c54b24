import OsKernel.Fs.FileTable
import OsKernel.Fs.Model.Inode
import OsKernel.Proc.Model.Pids

/-!
# The resources of a process — model

`fork`, `exit` and `wait` of `kernel/proc.c`, each from its call to its
return, with all that they acquire and give back: the pids and the place in
the process tree (`Pids.step`), the descriptors with the references of their
files, the sections, and the reference to the inode of the working
directory. The new `struct proc` is filled with zeros.

`fileclose` of the last reference puts the inode of the file.
-/

namespace OsKernel.Proc

open Cache
open Fs

/-- The processes with what they hold. -/
structure Resources (P C : Type) where
  pids : Pids P C
  files : FileSys P
  fs : FS
  /-- The working directory, as an inode number. -/
  cwd : P → ℕ

/-- `fileclose` of file `f`, with the inode layer. -/
def closeFile (sb : SuperBlock) (f : ℕ) (r : (ℕ → File) × FS) : Option ((ℕ → File) × FS) :=
  if (r.1 f).ref - 1 = 0 ∧ (r.1 f).type = .inode then
    (r.2.inodePut sb (r.1 f).ip).map fun fs => (fileclose r.1 f, fs)
  else some (fileclose r.1 f, r.2)

/-- The loop of `exit` over the first `n` descriptors of a table. -/
def closeFiles (sb : SuperBlock) (fp : ℕ → Option ℕ) :
    ℕ → (ℕ → File) × FS → Option ((ℕ → File) × FS)
  | 0, r => some r
  | n + 1, r => (closeFiles sb fp n r).bind fun r =>
    match fp n with
    | none => some r
    | some f => closeFile sb f r

namespace Resources

variable {P C : Type} [DecidableEq P] [DecidableEq C]

/-- `fork` by `p` of the child `c`. -/
def fork (root : P) (rootC : C) (s : Resources P C) (p c : P) : Option (Resources P C) := do
  let pids ← s.pids.step root rootC (.tree (.createProc p c))
  let files ← s.files.step (.fork p c fun _ => none)
  let fs ← s.fs.inodeShare (s.cwd p)
  let pids ← exec (Pids.step root rootC) pids
    [.tree (.setParentToThis p c), .loadPid p c, .startPid p c, .tree (.startActivate p c)]
  some ⟨pids, files, fs, Function.update s.cwd c (s.cwd p)⟩

/-- The file table after an `exit` of `c` that has left the files as `file`. -/
def leaveFiles (files : FileSys P) (c : P) (file : ℕ → File) : FileSys P :=
  { files with
    file := file
    live := files.live.erase c
    sections := Function.update files.sections c [] }

/-- `exit` of `c`. -/
def exit (sb : SuperBlock) (root : P) (rootC : C) (s : Resources P C) (c : P) (code : ℤ) :
    Option (Resources P C) := do
  let r ← closeFiles sb (s.files.oftable c) nofile (s.files.file, s.fs)
  let pids ← exec (Pids.step root rootC) s.pids [.tree (.exitTree c code), .tree (.exitSched c)]
  some ⟨pids, leaveFiles s.files c r.1, r.2, s.cwd⟩

/-- `wait` of `p` that finds a child that has exited. -/
def wait (root : P) (rootC : C) (s : Resources P C) (p : P) : Option (Resources P C) :=
  (exec (Pids.step root rootC) s.pids
    [.tree (.waitCheck p), .tree (.waitSem p), .tree (.waitTree p), .freeLocal p]).map fun pids =>
      ⟨pids, s.files, s.fs, s.cwd⟩

end Resources

end OsKernel.Proc
