import OsKernel.Common.Run
import OsKernel.Paging.Model.Frames

/-!
# The address spaces — model

`fork` of `kernel/proc.c`, `pgfault`, `swapin`, `swapout`, `free_sections`
and `copy_sections` of `kernel/paging.c`, `vmmap` and `free_pgdir` of
`kernel/pt.c`, with the swap area of `kernel/mem.c` and `fs/cache.c`.

A page table gives the entry of each page of the process, so `get_pte` is
the entry itself. The pages that hold the tables are taken from the same
list as any other page (`Act.kalloc`).

`pgfault` is cut where it calls into `kernel/mem.c`: the new page is taken
and filled (`faultBegin`), the old one is given up (`faultFree`), and the
entry is written (`faultMap`). In between other processes run. A call of
`swapin` or `swapout` has the sleeplock of the section throughout, and the
other operations work on tables that only they can see.
-/

namespace OsKernel.Paging

open Function

/-- `struct section`, as far as the page tables go. -/
structure Section where
  /-- `ST_FILE`. -/
  file : Bool
  /-- `ST_SWAP`. -/
  swap : Bool
  /-- `ST_RO`. -/
  ro : Bool
  /-- `ST_HEAP`. -/
  heap : Bool
  beginVa : ℕ
  endVa : ℕ
  /-- `fp->ip`. -/
  ip : ℕ
  offset : ℕ
deriving DecidableEq

/-- A page table entry. -/
inductive Pte where
  | null
  /-- `PTE_VALID`, with `PTE_RO` or without. -/
  | page (ro : Bool) (f : ℕ)
  /-- The block number of a page that is swapped out, without `PTE_VALID`. -/
  | disk (slot : ℕ)
deriving DecidableEq

/-- The frame that an entry maps. -/
def Pte.frame : Pte → Option ℕ
  | .page _ f => some f
  | _ => none

/-- A `pgfault` under way. -/
structure Fault where
  page : ℕ
  /-- The new page. -/
  frame : ℕ
  /-- `PTE_RO` of the new entry. -/
  ro : Bool
  /-- The old page, until it is given up. -/
  old : Option ℕ

/-- What the address spaces are built on. -/
structure Env where
  layout : Layout
  /-- `SWAP_SIZE`. -/
  swapSize : ℕ
  /-- `inodes.read` of a page at an offset; `none` is a failed `ASSERT`. -/
  readInode : ℕ → ℕ → Option (List UInt8)

structure Memory (P : Type) where
  frames : Frames
  /-- `swap_bitmap`. -/
  slots : ℕ → Bool
  /-- The contents of the swap area. -/
  disk : ℕ → Page
  live : P → Bool
  sections : P → List Section
  pt : P → ℕ → Pte
  fault : P → Option Fault
  /-- The pages that the kernel has taken for itself. -/
  kernel : List ℕ

namespace Section

/-- The pages that `fork` visits: from `PAGE_BASE(begin)` to
`PAGE_BASE(end)`. -/
def forkPages (st : Section) : List ℕ :=
  List.range' (st.beginVa / pageSize) (st.endVa / pageSize + 1 - st.beginVa / pageSize)

/-- The pages that `free_sections` visits: from `PAGE_BASE(begin)` up to
`end`. -/
def freePages (st : Section) : List ℕ :=
  List.range' (st.beginVa / pageSize)
    ((st.endVa + (pageSize - 1)) / pageSize - st.beginVa / pageSize)

/-- The pages that `swapin` and `swapout` visit: those of `begin`,
`begin + PAGE_SIZE` and so on, up to `end`. -/
def swapPages (st : Section) : List ℕ :=
  List.range' (st.beginVa / pageSize) ((st.endVa - st.beginVa + (pageSize - 1)) / pageSize)

end Section

namespace Memory

variable {P : Type} [DecidableEq P]

/-- An entry is written. -/
def setPte (s : Memory P) (p : P) (v : ℕ) (e : Pte) : Memory P :=
  { s with pt := update s.pt p (update (s.pt p) v e) }

/-- A page is filled. -/
def fill (s : Memory P) (f : ℕ) (page : Page) : Memory P :=
  { s with frames := { s.frames with data := update s.frames.data f page } }

/-- `vmmap`. -/
def vmmap (s : Memory P) (p : P) (v f : ℕ) (ro : Bool) : Memory P :=
  let s := s.setPte p v (.page ro f)
  { s with frames := s.frames.incrementRef f }

/-- `alloc_page_for_user`. What it swaps out beforehand is `Act.swapout`. -/
def allocPageForUser (s : Memory P) : Option (ℕ × Memory P) :=
  s.frames.kallocPage.map fun r => (r.1, { s with frames := r.2 })

/-- `kfree_page`. -/
def kfreePage (E : Env) (s : Memory P) (f : ℕ) : Memory P :=
  { s with frames := s.frames.kfreePage E.layout f }

/-- The loop of `fork`, for one page of the parent `p`. -/
def forkPage (p np : P) (s : Memory P) (v : ℕ) : Memory P :=
  match s.pt p v with
  | .page _ f => (s.vmmap np v f true).setPte p v (.page true f)
  | _ => s

/-- `copy_sections`: each section is inserted at the head of the new list. -/
def copySections (l : List Section) : List Section := l.reverse

/-- `fork`, for the child `np`. -/
def fork (s : Memory P) (p np : P) : Memory P :=
  (s.sections p).foldl (fun s st => st.forkPages.foldl (forkPage p np) s)
    { s with
      live := update s.live np true
      sections := update s.sections np (copySections (s.sections p)) }

/-- `read_page_from_disk` and `vmmap`, for one page of `swapin`. An entry
that maps a page would be read as a block number. -/
def swapinPage (p : P) (s : Memory P) (v : ℕ) : Option (Memory P) :=
  match s.pt p v with
  | .null => some s
  | .disk slot => s.allocPageForUser.map fun (ka, s) =>
    { s.fill ka (s.disk slot) with slots := update s.slots slot false }.vmmap p v ka false
  | .page _ _ => none

/-- `swapin`, of the section with the number `i`. -/
def swapin (s : Memory P) (p : P) (i : ℕ) : Option (Memory P) :=
  ((s.sections p)[i]?).bind fun st =>
  if st.swap then
    (st.swapPages.foldlM (swapinPage p) s).map fun s =>
      { s with
        sections := update s.sections p ((s.sections p).set i { st with swap := false }) }
  else none

/-- `write_page_to_disk`, for one page of `swapout`: the first free slot is
taken. `none` where there is none (`PANIC`). -/
def swapoutPage (E : Env) (p : P) (s : Memory P) (v : ℕ) : Option (Memory P) :=
  match s.pt p v with
  | .null => some s
  | .page _ f => ((List.range E.swapSize).find? fun i => !s.slots i).map fun slot =>
    ({ s with
      slots := update s.slots slot true
      disk := update s.disk slot (s.frames.data f) }.setPte p v (.disk slot)).kfreePage E f
  | .disk _ => none

/-- `swapout`, of the section with the number `i`. -/
def swapout (E : Env) (s : Memory P) (p : P) (i : ℕ) : Option (Memory P) :=
  ((s.sections p)[i]?).bind fun st =>
  if st.swap then none
  else st.swapPages.foldlM (swapoutPage E p)
    { s with
      sections := update s.sections p ((s.sections p).set i { st with swap := true }) }

/-- The number of the section of an address. -/
def sectionOf (s : Memory P) (p : P) (va : ℕ) : Option ℕ :=
  (s.sections p).findIdx? fun st => st.beginVa ≤ va ∧ va < st.endVa

/-- What `inodes.read` leaves in a page. -/
def readPage (bytes : List UInt8) (page : Page) : Page := fun i => bytes.getD i (page i)

/-- `pgfault` of `p` at `va`, up to the point where it has a new page. -/
def faultBegin (E : Env) (s : Memory P) (p : P) (va : ℕ) : Option (Memory P) :=
  (s.sectionOf p va).bind fun i => ((s.sections p)[i]?).bind fun st =>
  let v := va / pageSize
  match s.pt p v with
  | .page true f => s.allocPageForUser.map fun (ka, s) =>
    { s.fill ka (s.frames.data f) with
      fault := update s.fault p (some ⟨v, ka, false, some f⟩) }
  -- the entry is not the cause of a fault: `PANIC`
  | .page false _ => none
  | _ =>
    if st.file then
      s.allocPageForUser.bind fun (ka, s) =>
      (E.readInode st.ip ((st.offset + v * pageSize + (2 ^ 64 - st.beginVa)) % 2 ^ 64)).map
        fun bytes =>
      { s.fill ka (readPage bytes (s.frames.data ka)) with
        fault := update s.fault p (some ⟨v, ka, st.ro, none⟩) }
    else
      (if st.swap then s.swapin p i else some s).bind fun s =>
      if s.pt p v = .null then
        s.allocPageForUser.map fun (ka, s) =>
          { s with fault := update s.fault p (some ⟨v, ka, false, none⟩) }
      else some s

/-- The old page of a `pgfault` is given up. -/
def faultFree (E : Env) (s : Memory P) (p : P) : Option (Memory P) :=
  (s.fault p).bind fun flt => flt.old.map fun f =>
    { s.kfreePage E f with fault := update s.fault p (some { flt with old := none }) }

/-- The new page of a `pgfault` is mapped. -/
def faultMap (s : Memory P) (p : P) : Option (Memory P) :=
  (s.fault p).bind fun flt =>
  if flt.old = none then
    some { s.vmmap p flt.page flt.frame flt.ro with fault := update s.fault p none }
  else none

/-- `pgfault`, in one go. -/
def pgfault (E : Env) (s : Memory P) (p : P) (va : ℕ) : Option (Memory P) :=
  (s.faultBegin E p va).bind fun s =>
  match s.fault p with
  | none => some s
  | some flt => (if flt.old = none then some s else s.faultFree E p).bind fun s => s.faultMap p

/-- The loop of `free_sections`, for one page. -/
def freePage (E : Env) (p : P) (s : Memory P) (v : ℕ) : Memory P :=
  match s.pt p v with
  | .page _ f => s.kfreePage E f
  | _ => s

/-- The loop of `free_sections`, for the section with the number `i`. -/
def freeSection (E : Env) (p : P) (s : Memory P) (i : ℕ) : Option (Memory P) :=
  ((s.sections p)[i]?).bind fun st =>
  (if st.swap then s.swapin p i else some s).map fun s => st.freePages.foldl (freePage E p) s

/-- `free_sections`. -/
def freeSections (E : Env) (s : Memory P) (p : P) : Option (Memory P) :=
  (List.range (s.sections p).length).foldlM (freeSection E p) s

/-- `free_pgdir`. -/
def freePgdir (E : Env) (s : Memory P) (p : P) : Option (Memory P) :=
  (s.freeSections E p).map fun s =>
    { s with
      pt := update s.pt p fun _ => .null
      sections := update s.sections p [] }

/-- A byte as the page table of `p` shows it. -/
def load (s : Memory P) (p : P) (va : ℕ) : Option UInt8 :=
  (s.pt p (va / pageSize)).frame.map fun f => s.frames.data f (va % pageSize)

/-- What a user's read gives, with the `pgfault` that it may need. -/
def read (E : Env) (s : Memory P) (p : P) (va : ℕ) : Option (UInt8 × Memory P) :=
  match s.pt p (va / pageSize) with
  | .page _ f => some (s.frames.data f (va % pageSize), s)
  | _ => (s.pgfault E p va).bind fun s => (s.load p va).map fun b => (b, s)

/-- A user's write to a page that is mapped without `PTE_RO`. -/
def store (s : Memory P) (p : P) (va : ℕ) (b : UInt8) : Option (Memory P) :=
  match s.pt p (va / pageSize) with
  | .page false f => some (s.fill f (update (s.frames.data f) (va % pageSize) b))
  | _ => none

end Memory

/-- What may happen next. -/
inductive Act (P : Type) where
  /-- `kalloc_page` for the kernel itself: a stack, a page table, a slab. -/
  | kalloc
  /-- `kfree_page` of such a page. -/
  | kfree (f : ℕ)
  | fork (p np : P)
  /-- A user's access that the page table does not allow. -/
  | fault (p : P) (va : ℕ)
  | faultFree (p : P)
  | faultMap (p : P)
  | store (p : P) (va : ℕ) (b : UInt8)
  | exit (p : P)
  | swapout (p : P) (i : ℕ)

namespace Memory

variable {P : Type} [DecidableEq P]

/-- The steps. A process acts while it is alive and not in `pgfault`. -/
def step (E : Env) (s : Memory P) : Act P → Option (Memory P)
  | .kalloc => s.frames.kallocPage.map fun r => { s with frames := r.2, kernel := r.1 :: s.kernel }
  | .kfree f =>
    if f ∈ s.kernel then some { s.kfreePage E f with kernel := s.kernel.erase f } else none
  | .fork p np =>
    if s.live p ∧ s.fault p = none ∧ s.live np = false then some (s.fork p np) else none
  | .fault p va => if s.live p ∧ s.fault p = none then s.faultBegin E p va else none
  | .faultFree p => s.faultFree E p
  | .faultMap p => s.faultMap p
  | .store p va b => if s.live p ∧ s.fault p = none then s.store p va b else none
  | .exit p =>
    if s.live p ∧ s.fault p = none then
      (s.freePgdir E p).map fun s => { s with live := update s.live p false }
    else none
  | .swapout p i => if s.live p then s.swapout E p i else none

end Memory

end OsKernel.Paging
