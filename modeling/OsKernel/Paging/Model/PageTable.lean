import OsKernel.Common.Run

/-!
# The page table of a process — model

`get_pte` and `vmmap` of `kernel/pt.c` with the macros of `aarch64/mmu.h`, over
a memory of 64-bit words. The tables are pages of the kernel that `kalloc_page`
returns; an entry of one of the upper three levels has the physical address of
the next table.

The rest of the memory is written at any time, and so are the entries of the
last level, through the pointers that `get_pte` has returned. The reference
counts of `vmmap` are those of `Paging.Frames`.
-/

namespace OsKernel.Mmu

open Function

/-- `u64`. -/
abbrev Word := BitVec 64

/-- `KSPACE_MASK`. -/
def kspaceMask : Word := 0xffff000000000000

/-- `K2P`. -/
def k2p (a : Word) : Word := a - kspaceMask

/-- `P2K`. -/
def p2k (a : Word) : Word := a + kspaceMask

/-- `PTE_VALID`. -/
def pteValid : Word := 0x1

/-- `PTE_TABLE`. -/
def pteTable : Word := 0x3

/-- `PTE_ADDRESS`. -/
def pteAddress (e : Word) : Word := e &&& ~~~0xFFFF000000000FFF

/-- `PTE_FLAGS`. -/
def pteFlags (e : Word) : Word := e &&& 0xFFFF000000000FFF

/-- `VA_PART0`. -/
def vaPart0 (va : Word) : Word := (va &&& 0xFF8000000000) >>> 39

/-- `VA_PART1`. -/
def vaPart1 (va : Word) : Word := (va &&& 0x7FC0000000) >>> 30

/-- `VA_PART2`. -/
def vaPart2 (va : Word) : Word := (va &&& 0x3FE00000) >>> 21

/-- `VA_PART3`. -/
def vaPart3 (va : Word) : Word := (va &&& 0x1FF000) >>> 12

/-- `&pt[i]`. -/
def slot (pt i : Word) : Word := pt + 8 * i

/-- A page table and the memory it is in. -/
structure PageTable where
  /-- The word at an address. -/
  mem : Word → Word
  /-- `pgdir->pt`. -/
  pt : Word
  /-- Not part of the code: the pages that were taken for tables. -/
  tables : List Word

/-- What can happen next; `fresh` is what `kalloc_page` returns meanwhile. -/
inductive PageTableAct where
  /-- `init_pgdir`. -/
  | init (page : Word)
  /-- `get_pte`. -/
  | getPte (va : Word) (alloc : Bool) (fresh : List Word)
  /-- `vmmap`. -/
  | vmmap (va ka flags : Word) (fresh : List Word)
  /-- An entry is written through the pointer that `get_pte` returns. -/
  | store (va v : Word)
  /-- A word of another page is written. -/
  | write (a v : Word)

namespace PageTable

def setMem (s : PageTable) (a v : Word) : PageTable := { s with mem := update s.mem a v }

@[simp]
theorem setMem_mem_self (s : PageTable) (a v : Word) : (s.setMem a v).mem a = v := by
  simp only [setMem, update_self]

theorem setMem_mem_of_ne {a b : Word} (s : PageTable) (v : Word) (h : b ≠ a) :
    (s.setMem a v).mem b = s.mem b := by
  simp only [setMem, update_of_ne h]

def setPt (s : PageTable) (pt : Word) : PageTable := { s with pt := pt }

/-- The address is in the page. -/
def InPage (page a : Word) : Prop := page.toNat ≤ a.toNat ∧ a.toNat < page.toNat + 4096

instance (page a : Word) : Decidable (InPage page a) := inferInstanceAs (Decidable (_ ∧ _))

/-- A page from `kalloc_page`, after `memset(page, 0, PAGE_SIZE)`. -/
def newTable (s : PageTable) (page : Word) : PageTable :=
  { s with mem := fun a => if InPage page a then 0 else s.mem a, tables := page :: s.tables }

/-- The table that entry `i` of `pt` leads to; `NULL` where there is none. -/
def child (s : PageTable) (pt i : Word) : Word :=
  if pt = 0 then 0
  else if s.mem (slot pt i) &&& pteValid = 0 then 0
  else p2k (pteAddress (s.mem (slot pt i)))

/-- A table that was not found is allocated. `none` is a `kalloc_page` that has no
page. -/
def ensure (s : PageTable) (fresh : List Word) (pt : Word)
    (link : Word → PageTable → PageTable) : Option (Word × PageTable × List Word) :=
  if pt ≠ 0 then some (pt, s, fresh)
  else match fresh with
    | [] => none
    | page :: rest => some (page, link page (s.newTable page), rest)

/-- `pt[i] = K2P(page) | PTE_TABLE`. -/
def linkTable (pt i page : Word) (s : PageTable) : PageTable :=
  s.setMem (slot pt i) (k2p page ||| pteTable)

/-- `get_pte`: the pointer that is returned, and the state after. -/
def getPte (s : PageTable) (va : Word) (alloc : Bool) (fresh : List Word) :
    Option (Word × PageTable) :=
  let pt0 := s.pt
  let pt1 := s.child pt0 (vaPart0 va)
  let pt2 := s.child pt1 (vaPart1 va)
  let pt3 := s.child pt2 (vaPart2 va)
  if pt3 ≠ 0 then some (slot pt3 (vaPart3 va), s)
  else if alloc then do
    let (pt0, s, fresh) ← s.ensure fresh pt0 fun page s => s.setPt page
    let (pt1, s, fresh) ← s.ensure fresh pt1 (linkTable pt0 (vaPart0 va))
    let (pt2, s, fresh) ← s.ensure fresh pt2 (linkTable pt1 (vaPart1 va))
    let (pt3, s, _) ← s.ensure fresh pt3 (linkTable pt2 (vaPart2 va))
    some (slot pt3 (vaPart3 va), s)
  else some (0, s)

/-- `vmmap`. -/
def vmmap (s : PageTable) (va ka flags : Word) (fresh : List Word) : Option PageTable :=
  (s.getPte va true fresh).map fun r => r.2.setMem r.1 (k2p (ka ||| flags))

/-- The entry that `get_pte` finds without allocating. -/
def found (s : PageTable) (va : Word) : Option Word :=
  (s.getPte va false []).bind fun r => if r.1 = 0 then none else some (r.2.mem r.1)

/-- The pages are pages of the kernel that are not in use as tables. -/
def Fresh (s : PageTable) (fresh : List Word) : Prop :=
  fresh.Nodup ∧ ∀ page ∈ fresh,
    page.toNat % 4096 = 0 ∧ kspaceMask.toNat ≤ page.toNat ∧ page ∉ s.tables

instance (s : PageTable) (fresh : List Word) : Decidable (s.Fresh fresh) :=
  inferInstanceAs (Decidable (_ ∧ _))

/-- The steps. -/
def step (s : PageTable) : PageTableAct → Option PageTable
  | .init page =>
    if s.pt = 0 ∧ s.Fresh [page] then some ((s.newTable page).setPt page) else none
  | .getPte va alloc fresh =>
    if s.Fresh fresh then (s.getPte va alloc fresh).map Prod.snd else none
  | .vmmap va ka flags fresh => if s.Fresh fresh then s.vmmap va ka flags fresh else none
  | .store va v =>
    (s.getPte va false []).bind fun r => if r.1 = 0 then none else some (s.setMem r.1 v)
  | .write a v => if ∀ page ∈ s.tables, ¬InPage page a then some (s.setMem a v) else none

/-- A `struct pgdir` that has no table yet. -/
def init (mem : Word → Word) : PageTable := ⟨mem, 0, []⟩

end PageTable

end OsKernel.Mmu
