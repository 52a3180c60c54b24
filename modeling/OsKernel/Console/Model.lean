import OsKernel.Common.Ring
import OsKernel.Common.Run
import OsKernel.Sem.Semaphore

/-!
# The console — model

`console_read` and `console_intr` of `kernel/console.c`. The indexes are
`usize` and wrap around at `2 ^ 64`; a character is an unsigned `char`.

`console_intr` holds `input.lock` throughout and handles one character in
each turn of its loop, which is a step here. `console_read` holds the lock
from where it enters or wakes to where it returns or sleeps, which is also
one step: it locks the semaphore before it gives up `input.lock`, so
nothing is posted in between. What is echoed on the screen is left out.
-/

namespace OsKernel.Console

open Function

/-- `INPUT_BUF`. -/
abbrev inputBuf : ℕ := 128

/-- `C('D')`. -/
abbrev ctrlD : UInt8 := 4

/-- `C('U')`. -/
abbrev ctrlU : UInt8 := 21

/-- `C('C')`. -/
abbrev ctrlC : UInt8 := 3

/-- The newline. -/
abbrev newline : UInt8 := 10

/-- The carriage return. -/
abbrev carriageReturn : UInt8 := 13

/-- The input of the console, without its lock and semaphore. -/
structure Input where
  buf : ℕ → UInt8
  /-- Read index. -/
  r : ℕ
  /-- Write index. -/
  w : ℕ
  /-- Edit index. -/
  e : ℕ

namespace Input

/-- `input.e--`. -/
def back (s : Input) : Input := { s with e := if s.e = 0 then 2 ^ 64 - 1 else s.e - 1 }

/-- The distance from one index up to another, modulo `2 ^ 64`. -/
def dist (i j : ℕ) : ℕ := if i ≤ j then j - i else j + 2 ^ 64 - i

/-- `while(input.e != input.w) input.e--`. -/
def eraseLine (s : Input) : Input := back^[dist s.w s.e] s

/-- `input.buf[input.e++ % INPUT_BUF] = c`. -/
def put (s : Input) (c : UInt8) : Input :=
  { s with buf := update s.buf (s.e % inputBuf) c, e := (s.e + 1) % 2 ^ 64 }

/-- `input.w = input.e`. -/
def commit (s : Input) : Input := { s with w := s.e }

/-- Is the ring full? -/
def full (s : Input) : Bool := (s.r + inputBuf) % 2 ^ 64 = s.e

/-- `if(c == '\r') c = '\n'`. -/
def crToNl (c : UInt8) : UInt8 := if c = carriageReturn then newline else c

/-- Does the character end a line? -/
def endsLine (c : UInt8) : Bool := c = newline || c = ctrlD

/-- Is the line committed, and `input.read` posted, on this character? -/
def commits (s : Input) (c : UInt8) : Bool :=
  !(c = 127 || c = 8 || c = ctrlU || c = ctrlC) && !s.full && endsLine (crToNl c)

/-- One turn of the loop of `console_intr`. The first two cases fall
through to the third one when there is nothing to erase. -/
def consoleIntr (s : Input) (c : UInt8) : Input :=
  if c = 127 || c = 8 then if s.e = s.w then s.eraseLine else s.back
  else if c = ctrlU then s.eraseLine
  else if c = ctrlC then s
  else if s.full then s
  else if endsLine (crToNl c) then (s.put (crToNl c)).commit
  else s.put (crToNl c)

/-- The character at the read index. -/
def head (s : Input) : UInt8 := s.buf (s.r % inputBuf)

/-- `input.r++`. -/
def advance (s : Input) : Input := { s with r := (s.r + 1) % 2 ^ 64 }

/-- How the loop of `console_read` ends. -/
inductive Stop where
  /-- It leaves the loop with these characters in `dst`. -/
  | leave (s : Input) (dst : List UInt8)
  /-- It has to wait for more. -/
  | wait (s : Input) (dst : List UInt8)

/-- The loop of `console_read`, with `n - i` characters to go. -/
def readLoop : ℕ → Input → List UInt8 → Stop
  | 0, s, dst => .leave s dst
  | k + 1, s, dst =>
    if s.r = s.w then .wait s dst
    else if s.head = ctrlD then .leave s dst
    else if s.head = newline then .leave s.advance (dst ++ [s.head])
    else readLoop k s.advance (dst ++ [s.head])

/-- After the loop: a read that found nothing but `C('D')` takes it. -/
def finish (s : Input) (dst : List UInt8) : Input :=
  if dst = [] && s.head = ctrlD then s.advance else s

/-- The characters committed and not yet read. -/
def pending (s : Input) : List UInt8 := Ring.contents inputBuf s.buf s.r (dist s.r s.w)

/-- The characters of the line being edited. -/
def edited (s : Input) : List UInt8 := Ring.contents inputBuf s.buf s.w (dist s.w s.e)

end Input

/-- A call of `console_read` under way. -/
structure Reader where
  n : ℕ
  /-- The characters stored so far. -/
  dst : List UInt8
  /-- In `sched` of `_wait_sem`. -/
  asleep : Bool

/-- The console and the threads that read it. -/
structure State (T : Type) where
  input : Input
  read : Semaphore T
  reader : T → Option Reader
  killed : T → Bool

/-- What may happen next. -/
inductive Act (T : Type) where
  /-- The interrupt handler takes a character, while `cur` runs on the CPU
  (none if the CPU is idle). -/
  | intr (c : UInt8) (cur : Option T)
  /-- A call of `console_read`. -/
  | call (t : T) (n : ℕ)
  /-- The next step of a reader. -/
  | run (t : T)
  | kill (t : T)

namespace State

variable {T : Type} [DecidableEq T]

def init : State T where
  input := ⟨fun _ => 0, 0, 0, 0⟩
  read := Semaphore.initSem 0
  reader := fun _ => none
  killed := fun _ => false

def setReader (s : State T) (t : T) (rd : Option Reader) : State T :=
  { s with reader := update s.reader t rd }

def kill (s : State T) (t : T) : State T := { s with killed := update s.killed t true }

/-- A character from the interrupt handler: `uart_get_char` returns `0xff`
for none. A commit wakes all readers, and `C('C')` kills the running
process. -/
def intr (s : State T) (c : UInt8) (cur : Option T) : Option (State T) :=
  if c = 0xff then none
  else if s.input.commits c then
    (Semaphore.postAllSem s.read).map fun x =>
      { s with input := s.input.consoleIntr c, read := x.1 }
  else
    some { (if c = ctrlC then cur.elim s s.kill else s) with input := s.input.consoleIntr c }

/-- `_wait_sem` on `input.read`, with `rd` the call under way. -/
def wait (s : State T) (t : T) (rd : Reader) : State T :=
  { s with read := Semaphore.waitSem t s.read }.setReader t
    (some { rd with asleep := !(0 ≤ s.read.val - 1 : Bool) })

/-- The next step of a reader. A failed wait returns -1. -/
def run (s : State T) (t : T) (rd : Reader) : Option (State T) :=
  if rd.asleep then
    if t ∈ s.read.sleeplist then
      if s.killed t then
        (Semaphore.cancelWait t s.read).map fun sem => { s with read := sem }.setReader t none
      else none
    else some (s.setReader t (some { rd with asleep := false }))
  else
    match Input.readLoop (rd.n - rd.dst.length) s.input rd.dst with
    | .leave inp dst => some ({ s with input := inp.finish dst }.setReader t none)
    | .wait inp dst => some ({ s with input := inp }.wait t { rd with dst := dst })

/-- One step. -/
def step (s : State T) : Act T → Option (State T)
  | .intr c cur => s.intr c cur
  | .call t n => if (s.reader t).isNone then some (s.setReader t (some ⟨n, [], false⟩)) else none
  | .run t => (s.reader t).bind (s.run t)
  | .kill t => some (s.kill t)

end State

/-! ## What a run does -/

section Events

variable {T : Type} [DecidableEq T]

/-- What `console_read` returns in a step, where it returns characters:
the first `i` characters of `dst`. -/
def returnedBy (x : State T × Act T) : Option (List UInt8) :=
  match x.2 with
  | .run t =>
    match x.1.reader t with
    | some ⟨n, dst, false⟩ =>
      match Input.readLoop (n - dst.length) x.1.input dst with
      | .leave _ dst => some dst
      | .wait _ _ => none
    | _ => none
  | _ => none

/-- The characters that a step commits: those between the write index
before and after it. -/
def committedBy (x : State T × Act T) : List UInt8 :=
  (x.1.step x.2).elim [] fun t =>
    Ring.contents inputBuf t.input.buf x.1.input.w (Input.dist x.1.input.w t.input.w)

/-- The characters that a step consumes: those between the read index
before and after it. -/
def consumedBy (x : State T × Act T) : List UInt8 :=
  (x.1.step x.2).elim [] fun t =>
    Ring.contents inputBuf x.1.input.buf x.1.input.r (Input.dist x.1.input.r t.input.r)

variable (tr : List (State T × Act T))

/-- Everything that `console_read` returned in a run. -/
def returned : List UInt8 := tr.flatMap fun x => (returnedBy x).getD []

/-- The characters committed in a run. -/
def committed : List UInt8 := tr.flatMap committedBy

/-- The characters consumed in a run. -/
def consumed : List UInt8 := tr.flatMap consumedBy

end Events

end OsKernel.Console
