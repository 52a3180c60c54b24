import Mathlib

/-!
# A store with group commit

The abstract view of a write-ahead log. Operations overlap freely and
write to `current`; now and then, at a moment when no operation runs,
all that was written since becomes `stable` at once. A crash loses what
is not stable, and with it every operation that runs.

A store of this kind is atomic by construction: `stable` changes in one
step, from the content after some number of commits to the content after
one more, and never holds a write of an operation that has not finished.
-/

namespace OsKernel

/-- The state: what survives a crash, what a reader sees, and the
operations that have begun and not finished. -/
structure GroupStore (K V T : Type*) where
  stable : K → V
  current : K → V
  running : Finset T

namespace GroupStore

variable {K V T : Type*}

/-- What can happen to the store. -/
inductive Ev (K V T : Type*) where
  | begin (t : T)
  | write (t : T) (k : K) (v : V)
  | finish (t : T)
  /-- Everything written so far becomes stable. -/
  | commit
  | crash

/-- The store with the content `m`, stable and at rest. -/
def rest (m : K → V) : GroupStore K V T := ⟨m, m, ∅⟩

variable [DecidableEq K] [DecidableEq T]

/-- **A step of the store.** Only running operations write, and a commit
waits until none runs. -/
def step (m : GroupStore K V T) : Ev K V T → Option (GroupStore K V T)
  | .begin t => if t ∈ m.running then none else some { m with running := insert t m.running }
  | .write t k v =>
    if t ∈ m.running then some { m with current := Function.update m.current k v } else none
  | .finish t => if t ∈ m.running then some { m with running := m.running.erase t } else none
  | .commit => if m.running = ∅ then some { m with stable := m.current } else none
  | .crash => some (rest m.stable)

end GroupStore

end OsKernel
