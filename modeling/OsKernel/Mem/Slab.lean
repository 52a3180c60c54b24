import OsKernel.Common.Chain
import OsKernel.Common.Run
import OsKernel.Common.Update

/-!
# The allocator of small blocks

`kalloc` and `kfree` of `kernel/mem.c`, over a memory of 8-byte words. A page
has its block size in its first word, and the blocks after it; the free blocks
of size `16 * k` are linked through their first words, from `slab[k]`. `kfree`
finds the size by masking the pointer.

The pages come from `kalloc_page`, which is taken to return fresh pages, and the
memory in use is written by its users at any time. All of the allocator's facts
are one invariant, `Inv`: what is free is linked, and free and allocated blocks
are different blocks of pages with the right header. Two blocks that share an
address are the same (`IsBlock.eq_of_overlap`).
-/

namespace OsKernel.Mem

open Function

/-- `PAGE_BASE`. -/
def pageBase (p : ℕ) : ℕ := p / 4096 * 4096

/-- A pointer as it stands in memory. -/
def ptr (v : ℕ) : Option ℕ := if v = 0 then none else some v

/-- The size of the blocks that a request is served with. -/
def blockSize (size : ℕ) : ℕ := (size + 15) / 16 * 16

/-- The allocator. -/
structure Slab where
  /-- The 8-byte word at an address. -/
  mem : ℕ → ℕ
  /-- The heads of the free lists. -/
  slab : ℕ → ℕ
  /-- Not part of the code: the pages `_add_page` was given. -/
  pages : List ℕ
  /-- Not part of the code: the pointers that `kalloc` has returned and that have
  not been freed, with the sizes asked for. -/
  live : List (ℕ × ℕ)

/-- What can happen next. -/
inductive SlabAct where
  /-- `kalloc(size)`, with the pages that `kalloc_page` returns meanwhile. -/
  | kalloc (size : ℕ) (fresh : List ℕ)
  | kfree (p : ℕ)
  /-- A word that is in use is written. -/
  | write (a v : ℕ)

namespace Slab

/-- `next` of the node at an address. -/
def next (s : Slab) (a : ℕ) : Option ℕ := ptr (s.mem a)

def setMem (s : Slab) (a v : ℕ) : Slab := { s with mem := update s.mem a v }

def setHead (s : Slab) (k v : ℕ) : Slab := { s with slab := update s.slab k v }

def setLive (s : Slab) (live : List (ℕ × ℕ)) : Slab := { s with live := live }

/-- `add_to_queue(&slab[k], node)`. -/
def addToQueue (s : Slab) (k node : ℕ) : Slab := (s.setMem node (s.slab k)).setHead k node

/-- `fetch_from_queue(&slab[k])`. -/
def fetchFromQueue (s : Slab) (k : ℕ) : ℕ × Slab :=
  if s.slab k = 0 then (0, s) else (s.slab k, s.setHead k (s.mem (s.slab k)))

/-- The loop of `_add_page`: the blocks from `it` on are put into the list.
`none` is a loop that goes on for longer than the fuel. -/
def addBlocks (size stop : ℕ) : ℕ → ℕ → Slab → Option Slab
  | 0, _, _ => none
  | fuel + 1, it, s =>
    if it + size < stop then addBlocks size stop fuel (it + size) (s.addToQueue (size / 16) it)
    else some s

/-- `_add_page(size)`, with the page that `kalloc_page` returns. -/
def addPage (s : Slab) (size page : ℕ) : Option Slab :=
  addBlocks size (page + 4096) 4096 (page + 8)
    { s.setMem page size with pages := page :: s.pages }

/-- The loop of `kalloc`. `none` is a loop that asks for more pages than there
are. -/
def kallocLoop (size : ℕ) : List ℕ → Slab → Option (ℕ × Slab)
  | [], s => if s.slab (size / 16) = 0 then none else some (s.fetchFromQueue (size / 16))
  | page :: fresh, s =>
    if s.slab (size / 16) = 0 then (s.addPage size page).bind (kallocLoop size fresh)
    else some (s.fetchFromQueue (size / 16))

/-- `kalloc(size)`. -/
def kalloc (s : Slab) (size : ℕ) (fresh : List ℕ) : Option (ℕ × Slab) :=
  kallocLoop (blockSize size) fresh s

/-- `kfree(p)`. -/
def kfree (s : Slab) (p : ℕ) : Slab :=
  if p = 0 then s else s.addToQueue (s.mem (pageBase p) / 16) p

theorem ptr_of_ne_zero {a : ℕ} (ha : a ≠ 0) : ptr a = some a := if_neg ha

theorem next_setMem (s : Slab) (a v : ℕ) :
    (s.setMem a v).next = update s.next a (ptr v) := by
  funext b
  change ptr (update s.mem a v b) = _
  rw [update_apply, update_apply]
  split_ifs
  · rfl
  · rfl

/-! ## The steps -/

/-- The pages are aligned, and not in use as pages of blocks. -/
def Fresh (s : Slab) (fresh : List ℕ) : Prop :=
  fresh.Nodup ∧ ∀ page ∈ fresh, page % 4096 = 0 ∧ page ∉ s.pages

instance (s : Slab) (fresh : List ℕ) : Decidable (s.Fresh fresh) :=
  inferInstanceAs (Decidable (_ ∧ _))

/-- The word belongs to somebody else, or to a block that is allocated. -/
def InUse (s : Slab) (a : ℕ) : Prop :=
  pageBase a ∉ s.pages ∨ ∃ x ∈ s.live, x.1 ≤ a ∧ a < x.1 + x.2

instance (s : Slab) (a : ℕ) : Decidable (s.InUse a) := inferInstanceAs (Decidable (_ ∨ _))

/-- The steps. -/
def step (s : Slab) : SlabAct → Option Slab
  | .kalloc size fresh =>
    if 1 ≤ size ∧ size ≤ 4080 ∧ s.Fresh fresh then
      (s.kalloc size fresh).map fun r => r.2.setLive ((r.1, size) :: r.2.live)
    else none
  | .kfree p =>
    if p = 0 ∨ p ∈ s.live.map Prod.fst then
      some ((s.kfree p).setLive (s.live.filter fun x => x.1 ≠ p))
    else none
  | .write a v => if s.InUse a then some (s.setMem a v) else none

/-- When the system comes up there are no blocks. -/
def init (mem : ℕ → ℕ) : Slab := ⟨mem, fun _ => 0, [], []⟩

/-! ## Blocks -/

/-- The address is a block of size `16 * k`, of a page whose header says so. -/
structure IsBlock (s : Slab) (k b : ℕ) : Prop where
  page : pageBase b ∈ s.pages
  header : s.mem (pageBase b) = 16 * k
  pos : 0 < k
  place : ∃ i, b = pageBase b + 8 + i * (16 * k)
  inside : b + 16 * k < pageBase b + 4096

variable {s s' : Slab} {free : ℕ → List ℕ} {k k' b b' a p page size fuel it : ℕ}

theorem pageBase_eq (hpage : page % 4096 = 0) (hle : page ≤ a) (hlt : a < page + 4096) :
    pageBase a = page := by
  unfold pageBase
  omega

theorem pageBase_mod (a : ℕ) : pageBase a % 4096 = 0 := by
  unfold pageBase
  omega

namespace IsBlock

section

variable (h : s.IsBlock k b)

include h

/-- A block starts after the header. -/
theorem header_le : pageBase b + 8 ≤ b := by
  obtain ⟨i, hi⟩ := h.place
  exact (Nat.le_add_right _ _).trans hi.ge

theorem ne_zero : b ≠ 0 := by
  have := h.header_le
  omega

/-- Blocks are aligned to 8 bytes. -/
theorem aligned : b % 8 = 0 := by
  obtain ⟨i, hi⟩ := h.place
  have hmod := pageBase_mod b
  have hmul : i * (16 * k) = 16 * (i * k) := Nat.mul_left_comm i 16 k
  omega

/-- The addresses of a block are in its page. -/
theorem pageBase_of_mem (hle : b ≤ a) (hlt : a < b + 16 * k) : pageBase a = pageBase b := by
  have hheader := h.header_le
  have hinside := h.inside
  exact pageBase_eq (pageBase_mod b) (by omega) (by omega)

/-- No address of a block is the start of a page. -/
theorem mod_ne_zero (hle : b ≤ a) (hlt : a < b + 16 * k) : a % 4096 ≠ 0 := by
  have hheader := h.header_le
  have hinside := h.inside
  have hmod := pageBase_mod b
  omega

/-- **Two blocks that share an address are the same.** Their page is the same,
so their size is, and blocks of one size are at multiples of it. -/
theorem eq_of_overlap (h' : s.IsBlock k' b') (hle : b ≤ a) (hlt : a < b + 16 * k) (hle' : b' ≤ a)
    (hlt' : a < b' + 16 * k') : b = b' := by
  have hbase : pageBase b = pageBase b' :=
    (h.pageBase_of_mem hle hlt).symm.trans (h'.pageBase_of_mem hle' hlt')
  have hk : k = k' := by
    have hsize := h.header
    rw [hbase, h'.header] at hsize
    omega
  subst hk
  obtain ⟨i, hi⟩ := h.place
  obtain ⟨j, hj⟩ := h'.place
  have hij : i * (16 * k) < (j + 1) * (16 * k) := by
    rw [Nat.succ_mul j]
    omega
  have hji : j * (16 * k) < (i + 1) * (16 * k) := by
    rw [Nat.succ_mul i]
    omega
  have heq : i = j := le_antisymm (Nat.lt_succ_iff.1 (Nat.lt_of_mul_lt_mul_right hij))
    (Nat.lt_succ_iff.1 (Nat.lt_of_mul_lt_mul_right hji))
  rw [hi, hj, heq, hbase]

/-- Blocks depend on the pages and their headers only. -/
theorem congr (hpages : ∀ q ∈ s.pages, q ∈ s'.pages ∧ s'.mem q = s.mem q) : s'.IsBlock k b := by
  obtain ⟨hpage, hheader⟩ := hpages _ h.page
  exact ⟨hpage, hheader.trans h.header, h.pos, h.place, h.inside⟩

theorem setMem (ha : a ∉ s.pages) (v : ℕ) : (s.setMem a v).IsBlock k b := by
  refine h.congr fun q hq => ⟨hq, update_of_ne ?_ _ _⟩
  rintro rfl
  exact ha hq

theorem setHead (k' v : ℕ) : (s.setHead k' v).IsBlock k b :=
  h.congr fun _ hq => ⟨hq, rfl⟩

theorem setLive (live : List (ℕ × ℕ)) : (s.setLive live).IsBlock k b :=
  h.congr fun _ hq => ⟨hq, rfl⟩

end

end IsBlock

/-! ## The invariant -/

/-- **The allocator is consistent**: the free lists are linked, and free and
allocated blocks are different blocks of pages with the right header. -/
structure Inv (s : Slab) (free : ℕ → List ℕ) : Prop where
  aligned : ∀ page ∈ s.pages, page % 4096 = 0
  chain : ∀ k, Chain s.next (ptr (s.slab k)) (free k)
  nodup : ∀ k, (free k).Nodup
  free_block : ∀ k, ∀ b ∈ free k, s.IsBlock k b
  live_nodup : (s.live.map Prod.fst).Nodup
  live_block : ∀ x ∈ s.live, s.IsBlock (blockSize x.2 / 16) x.1 ∧ x.2 ≤ 16 * (blockSize x.2 / 16)
  live_free : ∀ x ∈ s.live, ∀ k, x.1 ∉ free k

/-- What is in the lists after one of them has got a new head. -/
theorem mem_update_cons {c : ℕ} (hc : c ∈ update free k (b :: free k) k') :
    c ∈ free k' ∨ c = b ∧ k' = k := by
  rw [update_apply] at hc
  split_ifs at hc with hk
  · rcases List.mem_cons.1 hc with rfl | hc
    · exact .inr ⟨rfl, hk⟩
    · exact .inl (hk ▸ hc)
  · exact .inl hc

namespace Inv

theorem init (mem : ℕ → ℕ) : Inv (init mem) fun _ => [] :=
  ⟨nofun, fun _ => .nil, fun _ => List.nodup_nil, nofun, List.nodup_nil, nofun, nofun⟩

section

variable (h : Inv s free)

include h

/-- A word is written that is neither a header nor in a free list. -/
theorem setMem (ha : a ∉ s.pages) (hfree : ∀ k, a ∉ free k) (v : ℕ) :
    Inv (s.setMem a v) free where
  aligned := h.aligned
  chain k := by
    rw [next_setMem]
    exact (h.chain k).update (hfree k) _
  nodup := h.nodup
  free_block k b hb := (h.free_block k b hb).setMem ha v
  live_nodup := h.live_nodup
  live_block x hx := ⟨(h.live_block x hx).1.setMem ha v, (h.live_block x hx).2⟩
  live_free := h.live_free

/-- No address of a block is a header. -/
theorem notMem_pages (hb : s.IsBlock k b) (hle : b ≤ a) (hlt : a < b + 16 * k) : a ∉ s.pages :=
  fun hpage => hb.mod_ne_zero hle hlt (h.aligned a hpage)

/-- **The users of the memory do not disturb the allocator.** -/
theorem write (huse : s.InUse a) (v : ℕ) : Inv (s.setMem a v) free := by
  rcases huse with hout | ⟨x, hx, hle, hlt⟩
  · refine h.setMem (fun hpage => hout ?_) (fun k hfree => hout (h.free_block k a hfree).page) v
    rw [pageBase_eq (h.aligned a hpage) le_rfl (by omega)]
    exact hpage
  · obtain ⟨hblock, hsize⟩ := h.live_block x hx
    have hlt' := lt_of_lt_of_le hlt (Nat.add_le_add_left hsize x.1)
    refine h.setMem (h.notMem_pages hblock hle hlt') (fun k hfree => ?_) v
    -- a free block at an address of an allocated one would be that block
    have hfblock := h.free_block k a hfree
    have hpos := hfblock.pos
    obtain rfl := hblock.eq_of_overlap hfblock hle hlt' le_rfl (by omega)
    exact h.live_free x hx k hfree

/-- A block that is neither free nor allocated is put into its list. -/
theorem push (hb : s.IsBlock k b) (hfree : ∀ k, b ∉ free k) (hlive : b ∉ s.live.map Prod.fst) :
    Inv (s.addToQueue k b) (update free k (b :: free k)) := by
  have hpos := hb.pos
  have hpage := h.notMem_pages hb le_rfl (by omega)
  have hset := h.setMem hpage hfree (s.slab k)
  refine ⟨h.aligned, fun k' => ?_, fun k' => ?_, fun k' c hc => ?_, h.live_nodup,
    fun x hx => ⟨(hset.live_block x hx).1.setHead k b, (hset.live_block x hx).2⟩,
    fun x hx k' hx' => ?_⟩
  · by_cases hk : k' = k
    · subst hk
      have hhead : ptr ((s.addToQueue k' b).slab k') = some b := by
        rw [← ptr_of_ne_zero hb.ne_zero]
        exact congrArg ptr (update_self _ _ _)
      rw [hhead, update_self]
      refine (hset.chain k').push ?_
      exact congrArg ptr (update_self _ _ _)
    · have hhead : (s.addToQueue k b).slab k' = s.slab k' := update_of_ne hk _ _
      rw [hhead, update_of_ne hk]
      exact hset.chain k'
  · rw [update_apply]
    split_ifs
    · exact List.nodup_cons.2 ⟨hfree k, h.nodup k⟩
    · exact h.nodup k'
  · rcases mem_update_cons hc with hc | ⟨rfl, rfl⟩
    · exact (hset.free_block k' c hc).setHead k b
    · exact (hb.setMem hpage _).setHead k' c
  · rcases mem_update_cons hx' with hx' | ⟨rfl, -⟩
    · exact h.live_free x hx k' hx'
    · exact hlive (List.mem_map_of_mem hx)

/-- The first block of a list is taken from it. -/
theorem pop (hne : s.slab k ≠ 0) :
    ∃ rest, Inv (s.setHead k (s.mem (s.slab k))) (update free k rest) ∧
      s.IsBlock k (s.slab k) ∧ (∀ k', s.slab k ∉ update free k rest k') ∧
      s.slab k ∉ s.live.map Prod.fst := by
  have hchain := h.chain k
  rw [ptr_of_ne_zero hne] at hchain
  obtain ⟨rest, hrest, htail⟩ := hchain.pop
  have hin : s.slab k ∈ free k := hrest ▸ List.mem_cons_self
  obtain ⟨hnot, hnodup⟩ := List.nodup_cons.1 (hrest ▸ h.nodup k)
  have hblock := h.free_block k _ hin
  have hsub : ∀ k' c, c ∈ update free k rest k' → c ∈ free k' := by
    intro k' c hc
    rw [update_apply] at hc
    split_ifs at hc with hk
    · rw [hk, hrest]
      exact List.mem_cons_of_mem _ hc
    · exact hc
  refine ⟨rest, ⟨h.aligned, fun k' => ?_, fun k' => ?_, fun k' c hc => ?_, h.live_nodup,
    fun x hx => ⟨(h.live_block x hx).1.setHead k _, (h.live_block x hx).2⟩,
    fun x hx k' hx' => h.live_free x hx k' (hsub k' _ hx')⟩, hblock,
    fun k' hk' => ?_, fun hlive => ?_⟩
  · by_cases hk : k' = k
    · subst hk
      have hhead : (s.setHead k' (s.mem (s.slab k'))).slab k' = s.mem (s.slab k') :=
        update_self _ _ _
      rw [hhead, update_self]
      exact htail
    · have hhead : (s.setHead k (s.mem (s.slab k))).slab k' = s.slab k' :=
        update_of_ne hk _ _
      rw [hhead, update_of_ne hk]
      exact h.chain k'
  · rw [update_apply]
    split_ifs
    · exact hnodup
    · exact h.nodup k'
  · exact (h.free_block k' c (hsub k' c hc)).setHead k _
  · -- the block is in one list only, as its page has one header
    have hb' := h.free_block k' _ (hsub k' _ hk')
    have hkk : k' = k := by
      have := hb'.header.symm.trans hblock.header
      omega
    rw [hkk, update_self] at hk'
    exact hnot hk'
  · obtain ⟨x, hx, hx1⟩ := List.mem_map.1 hlive
    exact h.live_free x hx k (hx1 ▸ hin)

/-- A block is handed out. -/
theorem allocate (hb : s.IsBlock (blockSize size / 16) p) (hfree : ∀ k, p ∉ free k)
    (hlive : p ∉ s.live.map Prod.fst) : Inv (s.setLive ((p, size) :: s.live)) free := by
  refine ⟨h.aligned, h.chain, h.nodup, fun k b hb => (h.free_block k b hb).setLive _,
    List.nodup_cons.2 ⟨hlive, h.live_nodup⟩, fun x hx => ?_, fun x hx => ?_⟩
  · rcases List.mem_cons.1 hx with rfl | hx
    · refine ⟨hb.setLive _, ?_⟩
      unfold blockSize
      omega
    · exact ⟨(h.live_block x hx).1.setLive _, (h.live_block x hx).2⟩
  · rcases List.mem_cons.1 hx with rfl | hx
    · exact hfree
    · exact h.live_free x hx

/-- A pointer is given back. -/
theorem release (p : ℕ) : Inv (s.setLive (s.live.filter fun x => x.1 ≠ p)) free := by
  have hsub : ∀ x ∈ s.live.filter (fun x => x.1 ≠ p), x ∈ s.live :=
    fun x hx => (List.mem_filter.1 hx).1
  refine ⟨h.aligned, h.chain, h.nodup, fun k b hb => (h.free_block k b hb).setLive _,
    h.live_nodup.sublist (List.filter_sublist.map _), fun x hx => ?_,
    fun x hx => h.live_free x (hsub x hx)⟩
  obtain ⟨hb, hsize⟩ := h.live_block x (hsub x hx)
  exact ⟨hb.setLive _, hsize⟩

/-- A page is taken, and gets its header. -/
theorem addHeader (hpage : page % 4096 = 0) (hnew : page ∉ s.pages) (v : ℕ) :
    Inv { s.setMem page v with pages := page :: s.pages } free := by
  have hfree : ∀ k, page ∉ free k := fun k hin => by
    have hb := h.free_block k page hin
    have hpos := hb.pos
    exact hb.mod_ne_zero le_rfl (by omega) hpage
  have hset := h.setMem hnew hfree v
  have hblock : ∀ {k b}, (s.setMem page v).IsBlock k b →
      Slab.IsBlock { s.setMem page v with pages := page :: s.pages } k b :=
    fun hb => hb.congr fun _ hq => ⟨List.mem_cons_of_mem _ hq, rfl⟩
  refine ⟨fun q hq => ?_, hset.chain, hset.nodup, fun k b hb => hblock (hset.free_block k b hb),
    hset.live_nodup, fun x hx => ⟨hblock (hset.live_block x hx).1, (hset.live_block x hx).2⟩,
    hset.live_free⟩
  rcases List.mem_cons.1 hq with rfl | hq
  · exact hpage
  · exact h.aligned q hq

/-- **The loop of `_add_page`** puts blocks of the page into the list that are in
none, and ends. -/
theorem addBlocks (hpage : page ∈ s.pages) (hheader : s.mem page = 16 * k) (hk : 0 < k)
    (hit : ∃ i, it = page + 8 + i * (16 * k))
    (hfree : ∀ k' b, b ∈ free k' → pageBase b = page → b < it)
    (hlive : ∀ x ∈ s.live, pageBase x.1 = page → x.1 < it)
    (hfuel : 0 < fuel ∧ page + 4096 ≤ it + fuel) :
    ∃ s' free', Slab.addBlocks (16 * k) (page + 4096) fuel it s = some s' ∧ Inv s' free' ∧
      s'.live = s.live ∧ s'.pages = s.pages ∧
      (it + 16 * k < page + 4096 ∨ s.slab k ≠ 0 → s'.slab k ≠ 0) := by
  induction fuel generalizing s free it with
  | zero => exact absurd hfuel.1 (lt_irrefl 0)
  | succ fuel ih =>
    unfold Slab.addBlocks
    by_cases hlt : it + 16 * k < page + 4096
    · rw [if_pos hlt, Nat.mul_div_cancel_left k (by decide : 0 < 16)]
      obtain ⟨i, hi⟩ := hit
      have hbase : pageBase it = page :=
        pageBase_eq (h.aligned page hpage) (by omega) (by omega)
      have hb : s.IsBlock k it :=
        ⟨hbase.symm ▸ hpage, hbase.symm ▸ hheader, hk, ⟨i, by rw [hbase, hi]⟩, by omega⟩
      -- all blocks of the page that have an owner or are free come before this one
      have hnext := h.push hb (fun k' hin => lt_irrefl it (hfree k' it hin hbase)) fun hin => by
        obtain ⟨x, hx, hx1⟩ := List.mem_map.1 hin
        exact (hlive x hx (hx1 ▸ hbase)).ne hx1
      have hne : page ≠ it := by omega
      have hplace : it + 16 * k = page + 8 + (i + 1) * (16 * k) := by
        rw [Nat.succ_mul i]
        omega
      obtain ⟨s', free', hs', hinv, hlive', hpages, hslab⟩ := ih hnext hpage
        ((update_of_ne hne _ _).trans hheader) ⟨i + 1, hplace⟩
        (fun k' b hin hpb => by
          rcases mem_update_cons hin with hin | ⟨rfl, -⟩
          · exact (hfree k' b hin hpb).trans (by omega)
          · omega)
        (fun x hx hxb => (hlive x hx hxb).trans (by omega)) (by omega)
      refine ⟨s', free', hs', hinv, hlive', hpages, fun _ => hslab (.inr ?_)⟩
      have hhead : (s.addToQueue k it).slab k = it := update_self _ _ _
      rw [hhead]
      exact hb.ne_zero
    · rw [if_neg hlt]
      exact ⟨s, free, rfl, h, rfl, rfl, fun hor => hor.resolve_left hlt⟩

/-- **`_add_page`** fills the list. -/
theorem addPage (hk : 0 < k) (hle : 16 * k ≤ 4080) (hpage : page % 4096 = 0) (hnew : page ∉ s.pages) :
    ∃ s' free', s.addPage (16 * k) page = some s' ∧ Inv s' free' ∧ s'.live = s.live ∧
      s'.pages = page :: s.pages ∧ s'.slab k ≠ 0 := by
  have hout : ∀ {k b}, s.IsBlock k b → pageBase b ≠ page := fun hb hpb => hnew (hpb ▸ hb.page)
  obtain ⟨s', free', hs', hinv, hlive, hpages, hslab⟩ :=
    (h.addHeader hpage hnew (16 * k)).addBlocks List.mem_cons_self (update_self _ _ _) hk
      ⟨0, by omega⟩ (fun k' b hb hpb => absurd hpb (hout (h.free_block k' b hb)))
      (fun x hx hxb => absurd hxb (hout (h.live_block x hx).1))
      (⟨by decide, by omega⟩ : 0 < 4096 ∧ page + 4096 ≤ page + 8 + 4096)
  exact ⟨s', free', hs', hinv, hlive, hpages, hslab (.inl (by omega))⟩

end

end Inv

/-! ## Allocating and freeing -/

/-- A request is served with a whole number of units of 16 bytes, that fit into a
page. -/
theorem blockSize_spec (hpos : 1 ≤ size) (hle : size ≤ 4080) :
    blockSize size = 16 * (blockSize size / 16) ∧
      0 < blockSize size / 16 ∧ 16 * (blockSize size / 16) ≤ 4080 := by
  unfold blockSize
  omega

theorem kallocLoop_of_ne_zero (fresh : List ℕ) (hne : s.slab (size / 16) ≠ 0) :
    kallocLoop size fresh s =
      some (s.slab (size / 16), s.setHead (size / 16) (s.mem (s.slab (size / 16)))) := by
  cases fresh with
  | nil | cons => rw [kallocLoop, if_neg hne, fetchFromQueue, if_neg hne]

/-- A block that nobody has, ready to be handed out. -/
def Spare (s : Slab) (free : ℕ → List ℕ) (k p : ℕ) : Prop :=
  s.IsBlock k p ∧ (∀ k', p ∉ free k') ∧ p ∉ s.live.map Prod.fst

/-- The loop ends when the list has a block. -/
theorem Inv.kallocLoop_hit {fresh : List ℕ} (h : Inv s free) (hne : s.slab (size / 16) ≠ 0)
    (hs : kallocLoop size fresh s = some (p, s')) :
    ∃ free', Inv s' free' ∧ s'.Spare free' (size / 16) p ∧ s'.live = s.live := by
  rw [kallocLoop_of_ne_zero _ hne] at hs
  obtain ⟨rfl, rfl⟩ := pair_inj hs
  obtain ⟨rest, hinv, hb, hfree, hlive⟩ := h.pop hne
  exact ⟨_, hinv, ⟨hb.setHead _ _, hfree, hlive⟩, rfl⟩

/-- The pages after the first are still fresh when it has been taken. -/
theorem Fresh.tail {fresh : List ℕ} (h : s.Fresh (page :: fresh))
    (hpages : s'.pages = page :: s.pages) : s'.Fresh fresh := by
  obtain ⟨hnot, hnodup⟩ := List.nodup_cons.1 h.1
  refine ⟨hnodup, fun q hq => ?_⟩
  obtain ⟨hq0, hqnew⟩ := h.2 q (List.mem_cons_of_mem _ hq)
  rw [hpages, List.mem_cons, not_or]
  refine ⟨hq0, ?_, hqnew⟩
  rintro rfl
  exact hnot hq

/-- **What the loop of `kalloc` returns** is a block of the right size that was
nobody's. -/
theorem Inv.kallocLoop {fresh : List ℕ} (h : Inv s free) (hk : 0 < k) (hle : 16 * k ≤ 4080)
    (hfresh : s.Fresh fresh) (hs : Slab.kallocLoop (16 * k) fresh s = some (p, s')) :
    ∃ free', Inv s' free' ∧ s'.Spare free' k p ∧ s'.live = s.live := by
  have hdiv : 16 * k / 16 = k := Nat.mul_div_cancel_left k (by decide)
  -- on the pages: each turn that finds the list empty takes one
  induction fresh generalizing s free with
  | nil =>
    by_cases hempty : s.slab (16 * k / 16) = 0
    · rw [Slab.kallocLoop, if_pos hempty] at hs
      cases hs
    · have hhit := h.kallocLoop_hit hempty hs
      rwa [hdiv] at hhit
  | cons page fresh ih =>
    by_cases hempty : s.slab (16 * k / 16) = 0
    · obtain ⟨hpage, hnew⟩ := hfresh.2 page List.mem_cons_self
      obtain ⟨s₁, free₁, hs₁, hinv, hlive, hpages, -⟩ := h.addPage hk hle hpage hnew
      rw [Slab.kallocLoop, if_pos hempty, hs₁] at hs
      obtain ⟨free', hinv', hspare, hlive'⟩ := ih hinv (hfresh.tail hpages) hs
      exact ⟨free', hinv', hspare, hlive'.trans hlive⟩
    · have hhit := h.kallocLoop_hit hempty hs
      rwa [hdiv] at hhit

/-- **`kalloc` returns**, after at most one page. -/
theorem Inv.kalloc_isSome (h : Inv s free) (hpos : 1 ≤ size) (hle : size ≤ 4080)
    (hfresh : s.Fresh [page]) : ∃ r, s.kalloc size [page] = some r := by
  obtain ⟨hpage, hnew⟩ := hfresh.2 page List.mem_cons_self
  obtain ⟨hblock, hk⟩ := blockSize_spec hpos hle
  unfold Slab.kalloc
  by_cases hempty : s.slab (blockSize size / 16) = 0
  · obtain ⟨s₁, -, hs₁, -, -, -, hne⟩ := h.addPage hk.1 hk.2 hpage hnew
    rw [← hblock] at hs₁
    rw [Slab.kallocLoop, if_pos hempty, hs₁]
    exact ⟨_, kallocLoop_of_ne_zero [] hne⟩
  · exact ⟨_, kallocLoop_of_ne_zero [page] hempty⟩

/-- **`kfree` finds the list that the block came from.** -/
theorem Inv.kfree_eq (h : Inv s free) {x : ℕ × ℕ} (hx : x ∈ s.live) :
    s.kfree x.1 = s.addToQueue (blockSize x.2 / 16) x.1 := by
  obtain ⟨hb, -⟩ := h.live_block x hx
  rw [kfree, if_neg hb.ne_zero, hb.header, Nat.mul_div_cancel_left _ (by decide : 0 < 16)]

/-- **Every step keeps the allocator consistent.** -/
theorem Inv.step {a : SlabAct} (h : Inv s free) (hs : s.step a = some s') :
    ∃ free', Inv s' free' := by
  cases a with
  | kalloc size fresh =>
    obtain ⟨hok, hs⟩ := of_guarded hs
    obtain ⟨hpos, hle, hfresh⟩ := hok
    obtain ⟨⟨p, s₁⟩, hr, rfl⟩ := Option.map_eq_some_iff.1 hs
    obtain ⟨hblock, hk⟩ := blockSize_spec hpos hle
    unfold Slab.kalloc at hr
    rw [hblock] at hr
    obtain ⟨free', hinv, ⟨hb, hfree, hnlive⟩, -⟩ := h.kallocLoop hk.1 hk.2 hfresh hr
    exact ⟨free', hinv.allocate hb hfree hnlive⟩
  | kfree p =>
    obtain ⟨hok, rfl⟩ := of_guard hs
    have hrel := h.release p
    by_cases hp : p = 0
    · rw [kfree, if_pos hp]
      exact ⟨free, hrel⟩
    · obtain ⟨x, hx, rfl⟩ := List.mem_map.1 (hok.resolve_left hp)
      rw [h.kfree_eq hx]
      refine ⟨_, hrel.push ((h.live_block x hx).1.setLive _) (h.live_free x hx) fun hin => ?_⟩
      obtain ⟨y, hy, hyx⟩ := List.mem_map.1 hin
      exact of_decide_eq_true (List.mem_filter.1 hy).2 hyx
  | write a v =>
    obtain ⟨huse, rfl⟩ := of_guard hs
    exact ⟨free, h.write huse v⟩

/-! ## Separation -/

/-- Two allocations share no address. -/
def Apart (x y : ℕ × ℕ) : Prop := x.1 + x.2 ≤ y.1 ∨ y.1 + y.2 ≤ x.1

/-- Different allocations are apart. -/
theorem Inv.apart (h : Inv s free) : s.live.Pairwise Apart := by
  refine (List.pairwise_map.1 h.live_nodup).imp_of_mem fun {x y} hx hy hxy => ?_
  obtain ⟨hbx, hsx⟩ := h.live_block x hx
  obtain ⟨hby, hsy⟩ := h.live_block y hy
  have hpx := hbx.pos
  have hpy := hby.pos
  by_contra hnot
  unfold Apart at hnot
  -- the larger of the two pointers is in both
  exact hxy (hbx.eq_of_overlap (a := max x.1 y.1) hby (le_max_left _ _) (by omega)
    (le_max_right _ _) (by omega))

/-- **The allocator keeps its blocks apart.** In every state that allocations, frees
and writes to memory in use lead to: a pointer that was returned is aligned to 8
bytes, its block is inside one page and after the header, and blocks are apart;
the list `slab[k]` has only blocks of pages whose header is `16 * k`; `kfree`
returns a block to the list that `kalloc` takes such blocks from; and `kalloc`
returns. -/
theorem blocks_apart {mem : ℕ → ℕ} {tr : List (Slab × SlabAct)}
    (hrun : Run step (init mem) tr s) :
    (∀ x ∈ s.live, x.1 % 8 = 0 ∧ pageBase x.1 + 8 ≤ x.1 ∧ x.1 + x.2 ≤ pageBase x.1 + 4096) ∧
    s.live.Pairwise Apart ∧
    (∀ k, ∃ l, Chain s.next (ptr (s.slab k)) l ∧ ∀ b ∈ l, s.IsBlock k b) ∧
    (∀ x ∈ s.live, s.kfree x.1 = s.addToQueue (blockSize x.2 / 16) x.1) ∧
    ∀ size page, 1 ≤ size → size ≤ 4080 → s.Fresh [page] →
      ∃ r, s.kalloc size [page] = some r := by
  obtain ⟨free, h⟩ : ∃ free, Inv s free :=
    hrun.invariant (I := fun s => ∃ free, Inv s free) ⟨_, Inv.init mem⟩
      fun _ _ _ ⟨_, h⟩ hs => h.step hs
  refine ⟨fun x hx => ?_, h.apart, fun k => ⟨free k, h.chain k, h.free_block k⟩,
    fun x hx => h.kfree_eq hx, fun size page hpos hle hfresh => h.kalloc_isSome hpos hle hfresh⟩
  obtain ⟨hb, hsize⟩ := h.live_block x hx
  have hinside := hb.inside
  exact ⟨hb.aligned, hb.header_le, by omega⟩

/-- Two blocks of one page, one of which is written and freed, and one of another. -/
theorem blocks_apart_three : ∃ tr s, Run step (init fun _ => 0) tr s ∧
    s.live = [(8200, 4080), (6104, 2000)] ∧ s.slab 125 = 4104 ∧ s.live.Pairwise Apart := by
  have hend : (exec step (init fun _ => 0) [.kalloc 2000 [4096], .kalloc 1999 [],
      .kalloc 4080 [8192], .write 4104 7, .kfree 4104]).any (fun s =>
        decide (s.live = [(8200, 4080), (6104, 2000)] ∧ s.slab 125 = 4104)) = true := by
    decide +kernel
  obtain ⟨s, hs, hlive⟩ := (Option.any_eq_true _ _).1 hend
  obtain ⟨hlive, hslab⟩ := of_decide_eq_true hlive
  exact ⟨_, s, Run.of_exec hs, hlive, hslab, (blocks_apart (Run.of_exec hs)).2.1⟩

end Slab

end OsKernel.Mem
