import Mathlib

/-!
# The page frames — model

`kalloc_page`, `kfree_page` and `increment_ref` of `kernel/mem.c`. A frame
is the number of a physical page, as in `page_ref[K2P(p) / PAGE_SIZE]`.

`pages` is the stack of `add_to_queue` and `fetch_from_queue`, whose links
are kept in the free pages themselves: a page that is freed has its first
eight bytes overwritten.
-/

namespace OsKernel.Paging

open Function

/-- The conversion of an `int` to `i8`. -/
def i8 (x : ℤ) : ℤ := (x + 128) % 256 - 128

/-- `PAGE_SIZE`. -/
def pageSize : ℕ := 4096

/-- The bytes of a page, by their offset. -/
abbrev Page := ℕ → UInt8

/-- The frames that are not on loan: `zero_page`, and the kernel image below
`PAGE_BASE(end)`. -/
structure Layout where
  zeroPage : ℕ
  endPage : ℕ

/-- The frames that `kfree_page` leaves alone. -/
def Layout.fixed (L : Layout) (f : ℕ) : Bool := f = L.zeroPage ∨ f < L.endPage

structure Frames where
  /-- `page_ref[f].ref`. -/
  ref : ℕ → ℤ
  pages : List ℕ
  data : ℕ → Page

/-- A page as `add_to_queue` leaves it: `next` is stored in its first eight
bytes. -/
def queueNode (next : Option ℕ) (page : Page) : Page :=
  let ptr := next.elim 0 fun g => 0xffff000000000000 + g * pageSize
  fun i => if i < 8 then UInt8.ofNat (ptr / 256 ^ i) else page i

namespace Frames

/-- `kalloc_page`; with no page left the code would go on with `NULL`. -/
def kallocPage (s : Frames) : Option (ℕ × Frames) :=
  match s.pages with
  | [] => none
  | f :: rest => some (f, { s with ref := update s.ref f 0, pages := rest })

/-- `increment_ref`. -/
def incrementRef (s : Frames) (f : ℕ) : Frames :=
  { s with ref := update s.ref f (i8 (s.ref f + 1)) }

/-- `kfree_page`. -/
def kfreePage (L : Layout) (s : Frames) (f : ℕ) : Frames :=
  if L.fixed f then s
  else
    let s := { s with ref := update s.ref f (i8 (s.ref f - 1)) }
    if s.ref f ≤ 0 then
      { s with
        pages := f :: s.pages
        data := update s.data f (queueNode s.pages.head? (s.data f)) }
    else s

end Frames

end OsKernel.Paging
