import OsKernel.Common.Update
import OsKernel.Fs.Helpers.Entry

/-!
# Helpers — ownership of blocks

What `cache_alloc` and `cache_free` do to an image in which the blocks
are owned (`Taken`, `freeAll_spec`), and the rules by which `Owned` passes
from one image to the next: a fresh block is owned by nobody, it may go to
one slot of one inode, a write to a file block or to an inode block moves
no address, and an inode may give all of its blocks up.
-/

namespace OsKernel.Fs

open Function

open Cache

variable {sb : SuperBlock} {m m' : Blocks} {E E' : ℕ → InodeEntry} {e : InodeEntry}
variable {i j k l n : ℕ} {held : List ℕ}

/-! ## Addresses -/

theorem addr_direct (h : k < inodeNumDirect) : addr m e k = (e.addrs ⟨k, h⟩).toNat := by
  rw [addr, dif_pos h]

theorem addr_indirectSlot : addr m e indirectSlot = e.indirect.toNat := by
  rw [addr, dif_neg (by decide), if_neg (by decide), if_pos rfl]

/-- The addresses behind an indirect block. -/
theorem addr_indirect (hk : inodeNumDirect ≤ k) (hlt : k < inodeMaxBlocks) (he : e.indirect ≠ 0) :
    addr m e k = addrAt (m e.indirect.toNat) (k - inodeNumDirect) := by
  rw [addr, dif_neg (by omega), if_pos hlt, if_neg he]

theorem addr_of_indirect_eq_zero (hk : inodeNumDirect ≤ k) (hlt : k < inodeMaxBlocks)
    (he : e.indirect = 0) : addr m e k = 0 := by
  rw [addr, dif_neg (by omega), if_pos hlt, if_pos he]

theorem addr_of_ge (hk : indirectSlot < k) : addr m e k = 0 := by
  have hd : ¬ k < inodeNumDirect :=
    not_lt.2 ((show inodeNumDirect ≤ indirectSlot by decide).trans hk.le)
  rw [addr, dif_neg hd, if_neg (not_lt.2 hk.le), if_neg hk.ne']

theorem toNat_ne_zero {x : UInt32} : x.toNat ≠ 0 ↔ x ≠ 0 := by
  rw [not_iff_not, ← UInt32.toNat_inj]
  rfl

/-- The addresses read the entry and the indirect block. -/
theorem addr_congr (h : e.indirect ≠ 0 → m' e.indirect.toNat = m e.indirect.toNat) (k : ℕ) :
    addr m' e k = addr m e k := by
  unfold addr
  split
  · rfl
  · split
    · split_ifs with he
      · rfl
      · rw [h he]
    · rfl

/-! ## Allocating a block -/

theorem Layout.bitmapStart_lt (h : Layout sb) : sb.bitmapStart < dataStart sb :=
  (Nat.le_add_right _ _).trans_lt h.bitmap_lt

/-- The bits of what comes before the data lie there too. -/
theorem Layout.bitmapBlock_lt (h : Layout sb) (hn : n < dataStart sb) :
    bitmapBlock sb n < dataStart sb := by
  have hle : n / bitPerBlock ≤ dataStart sb / bitPerBlock := Nat.div_le_div_right hn.le
  have := h.bitmap_lt
  unfold bitmapBlock at *
  omega

theorem InData.pos (hlay : Layout sb) (h : InData sb n) : 0 < n := by
  have := hlay.bitmapStart_lt
  have := h.1
  omega

theorem div_bitPerBlock_of_lt (h : n < swapStart) : n / bitPerBlock = 0 :=
  Nat.div_eq_of_lt (h.trans (by decide))

/-- **A block that `cache_alloc` hands out**: it was free, lies in the data
area, is marked and filled with zeros, and nothing else changes outside of
the bitmap. -/
structure Taken (sb : SuperBlock) (m : Blocks) (n : ℕ) (m' : Blocks) : Prop where
  free : bit sb m n = false
  lt : n < swapStart
  data : InData sb n
  zero : m' n = Bytes.zero
  bits : ∀ x, bitmapBlock sb x < dataStart sb → bit sb m' x = (bit sb m x || decide (x = n))
  frame : ∀ y, y ≠ n → (y < sb.bitmapStart ∨ dataStart sb ≤ y) → m' y = m y

/-- **A free data block that is claimed**, by whichever allocator. -/
structure Claimed (sb : SuperBlock) (m : Blocks) (n : ℕ) (m' : Blocks) : Prop where
  free : bit sb m n = false
  lt : n < 2 ^ 32
  data : InData sb n
  zero : m' n = Bytes.zero
  bits : ∀ x, bitmapBlock sb x < dataStart sb → bit sb m' x = (bit sb m x || decide (x = n))
  frame : ∀ y, y ≠ n → (y < sb.bitmapStart ∨ dataStart sb ≤ y) → m' y = m y

theorem Taken.claimed (h : Taken sb m n m') : Claimed sb m n m' :=
  ⟨h.free, h.lt.trans (by decide), h.data, h.zero, h.bits, h.frame⟩

theorem scanFree_eq_some : ∀ {k x : ℕ}, scanFree sb m k x = some n →
    bit sb m n = false ∧ n < x + k := by
  intro k
  induction k with
  | zero => intro x h; cases h
  | succ k ih =>
    intro x h
    rw [scanFree] at h
    split_ifs at h with hx
    · have := ih h
      exact ⟨this.1, by omega⟩
    · obtain rfl := Option.some.inj h
      exact ⟨by simpa using hx, by omega⟩

theorem scanFree_isSome (hfree : bit sb m n = false) :
    ∀ {k x : ℕ}, x ≤ n → n < x + k → (scanFree sb m k x).isSome := by
  intro k
  induction k with
  | zero => intro x hx hn; omega
  | succ k ih =>
    intro x hx hn
    rw [scanFree]
    split_ifs with hbit
    · have hne : x ≠ n := ne_of_values hbit hfree nofun
      exact ih (by omega) (by omega)
    · rfl

theorem taken_of_cacheAlloc (hlay : Layout sb) (hres : ∀ n < dataStart sb, bit sb m n = true)
    (h : cacheAlloc sb held m = some (n, m')) : Taken sb m n m' ∧ n ∉ held := by
  obtain ⟨x, hfind, htake⟩ := Option.bind_eq_some_iff.1 h
  obtain ⟨hfree, hlt⟩ := scanFree_eq_some hfind
  rw [Nat.zero_add] at hlt
  unfold takeBlock at htake
  split_ifs at htake with hheld
  simp only [Option.some_inj, Prod.mk.injEq] at htake
  obtain ⟨rfl, rfl⟩ := htake
  have hdata : dataStart sb ≤ x := by
    by_contra hn
    rw [hres x (by omega)] at hfree
    cases hfree
  have hblock : bitmapBlock sb x = sb.bitmapStart := by
    rw [bitmapBlock, div_bitPerBlock_of_lt hlt, Nat.add_zero]
  have hb := hlay.bitmapStart_lt
  refine ⟨⟨hfree, hlt, ⟨hdata, by rw [hblock]; exact hb⟩, update_self _ _ _,
    fun y hy => ?_, fun y hy hout => ?_⟩, hheld.2⟩
  · rw [bit_congr (update_of_ne (by omega) _ _)]
    exact bit_set x y
  · rw [update_of_ne hy, update_of_ne (by rw [hblock]; omega)]

/-- `cache_alloc` succeeds while a block is free, unless its caller is in
the way. -/
theorem cacheAlloc_isSome (hlay : Layout sb)
    (hfree : ∃ n < swapStart, bit sb m n = false)
    (hheld : ∀ b ∈ held, dataStart sb ≤ b ∧ bit sb m b = true) :
    (cacheAlloc sb held m).isSome := by
  obtain ⟨n, hn, hbit⟩ := hfree
  obtain ⟨x, hx⟩ := Option.isSome_iff_exists.1
    (scanFree_isSome hbit (Nat.zero_le n) (by rwa [Nat.zero_add]))
  obtain ⟨hfree, hlt⟩ := scanFree_eq_some hx
  rw [Nat.zero_add] at hlt
  have hb := hlay.bitmapStart_lt
  have htake : (takeBlock sb held m x).isSome := by
    unfold takeBlock
    rw [if_pos]
    · rfl
    · refine ⟨fun k hk hmem => ?_, fun hmem => ?_⟩
      · rw [div_bitPerBlock_of_lt hlt] at hk
        have := (hheld _ hmem).1
        omega
      · rw [(hheld _ hmem).2] at hfree
        cases hfree
  rw [cacheAlloc, hx]
  exact htake

namespace Owned

/-- A live inode's indirect block is a marked data block. -/
theorem indirect (h : Owned sb m E) (hi : Live sb E i) (he : (E i).indirect ≠ 0) :
    InData sb (E i).indirect.toNat ∧ bit sb m (E i).indirect.toNat = true := by
  have hne : addr m (E i) indirectSlot ≠ 0 := by
    rw [addr_indirectSlot]
    exact toNat_ne_zero.2 he
  have hd := h.data i indirectSlot hi hne
  have hm := h.marked i indirectSlot hi hne
  rw [addr_indirectSlot] at hd hm
  exact ⟨hd, hm⟩

/-- **A rule for changes that move no address.** -/
theorem congr (h : Owned sb m E) (hlive : ∀ i, Live sb E' i → Live sb E i)
    (haddr : ∀ i k, Live sb E' i → addr m' (E' i) k = addr m (E i) k)
    (hbits : ∀ x, bitmapBlock sb x < dataStart sb → bit sb m x = true → bit sb m' x = true)
    (hlay : Layout sb) : Owned sb m' E' := by
  constructor
  · intro n hn
    exact hbits n (hlay.bitmapBlock_lt hn) (h.reserved n hn)
  · intro i j k l hi hj hne heq
    rw [haddr i k hi] at hne heq
    rw [haddr j l hj] at heq
    exact h.unique i j k l (hlive i hi) (hlive j hj) hne heq
  · intro i k hi hne
    rw [haddr i k hi] at hne ⊢
    exact hbits _ (h.data i k (hlive i hi) hne).2 (h.marked i k (hlive i hi) hne)
  · intro i k hi hne
    rw [haddr i k hi] at hne ⊢
    exact h.data i k (hlive i hi) hne

/-- The addresses of a live inode are not touched by what leaves its
indirect block alone. -/
theorem addr_frame (h : Owned sb m E) (hi : Live sb E i)
    (hframe : ∀ y, InData sb y → bit sb m y = true → m' y = m y) (k : ℕ) :
    addr m' (E i) k = addr m (E i) k := by
  refine addr_congr (fun he => ?_) k
  obtain ⟨hd, hm⟩ := h.indirect hi he
  exact hframe _ hd hm

/-- A fresh block belongs to nobody. -/
theorem fresh (h : Owned sb m E) (ht : Claimed sb m n m') (hlay : Layout sb) (hi : Live sb E i)
    (k : ℕ) : addr m (E i) k ≠ n := by
  rintro rfl
  have hne : addr m (E i) k ≠ 0 := (ht.data.pos hlay).ne'
  have := h.marked i k hi hne
  rw [ht.free] at this
  cases this

end Owned

/-- Claiming a block leaves the marked data blocks alone. -/
theorem Claimed.frame_marked (ht : Claimed sb m n m') {y : ℕ} (hd : InData sb y)
    (hm : bit sb m y = true) : m' y = m y := by
  refine ht.frame y ?_ (Or.inr hd.1)
  rintro rfl
  rw [ht.free] at hm
  cases hm

theorem Claimed.bit_mono (ht : Claimed sb m n m') {x : ℕ} (hx : bitmapBlock sb x < dataStart sb)
    (hm : bit sb m x = true) : bit sb m' x = true := by
  rw [ht.bits x hx, hm, Bool.true_or]

theorem Claimed.bit_self (ht : Claimed sb m n m') : bit sb m' n = true := by
  rw [ht.bits n ht.data.2]
  simp

namespace Owned

/-- **Claiming a block moves no address.** -/
theorem claimed (h : Owned sb m E) (ht : Claimed sb m n m') (hlay : Layout sb) : Owned sb m' E :=
  h.congr (fun _ hi => hi)
    (fun _ k hi => h.addr_frame hi (fun _ hd hm => ht.frame_marked hd hm) k)
    (fun _ hx hm => ht.bit_mono hx hm) hlay

/-- **A marked block that nobody owns goes to slot `k` of inode `i`.** -/
theorem assign (h : Owned sb m E) (hlay : Layout sb) (hlive : ∀ j, Live sb E' j → Live sb E j)
    (hmark : bit sb m n = true) (hdata : InData sb n)
    (hfresh : ∀ j l, Live sb E j → addr m (E j) l ≠ n)
    (hbits : ∀ x, bitmapBlock sb x < dataStart sb → bit sb m' x = bit sb m x)
    (hslot : addr m' (E' i) k = n)
    (hself : ∀ l, l ≠ k → addr m' (E' i) l = addr m (E i) l)
    (hother : ∀ j, j ≠ i → Live sb E' j → ∀ l, addr m' (E' j) l = addr m (E j) l) :
    Owned sb m' E' := by
  -- a slot holds the new address, or what it held before
  have hcase : ∀ j l, Live sb E' j →
      (j = i ∧ l = k ∧ addr m' (E' j) l = n) ∨ addr m' (E' j) l = addr m (E j) l := by
    intro j l hj
    by_cases hji : j = i
    · subst hji
      by_cases hlk : l = k
      · subst hlk
        exact Or.inl ⟨rfl, rfl, hslot⟩
      · exact Or.inr (hself l hlk)
    · exact Or.inr (hother j hji hj l)
  constructor
  · intro x hx
    rw [hbits x (hlay.bitmapBlock_lt hx)]
    exact h.reserved x hx
  · intro j j' l l' hj hj' hne heq
    rcases hcase j l hj with ⟨rfl, rfl, hn⟩ | hold
    · rcases hcase j' l' hj' with ⟨rfl, rfl, -⟩ | hold'
      · exact ⟨rfl, rfl⟩
      · exact absurd (hold'.symm.trans (heq.symm.trans hn)) (hfresh j' l' (hlive j' hj'))
    · rcases hcase j' l' hj' with ⟨rfl, rfl, hn⟩ | hold'
      · exact absurd (hold.symm.trans (heq.trans hn)) (hfresh j l (hlive j hj))
      · rw [hold] at hne
        exact h.unique j j' l l' (hlive j hj) (hlive j' hj') hne
          (hold.symm.trans (heq.trans hold'))
  · intro j l hj hne
    rcases hcase j l hj with ⟨-, -, hn⟩ | hold
    · rw [hn, hbits n hdata.2]
      exact hmark
    · rw [hold] at hne ⊢
      rw [hbits _ (h.data j l (hlive j hj) hne).2]
      exact h.marked j l (hlive j hj) hne
  · intro j l hj hne
    rcases hcase j l hj with ⟨-, -, hn⟩ | hold
    · rw [hn]
      exact hdata
    · rw [hold] at hne ⊢
      exact h.data j l (hlive j hj) hne

/-- A block of a file is nobody's indirect block. -/
theorem indirect_ne (h : Owned sb m E) (hi : Live sb E i) (hj : Live sb E j)
    (hk : k < inodeMaxBlocks) (hne : addr m (E i) k ≠ 0) :
    (E j).indirect.toNat ≠ addr m (E i) k := by
  intro he
  have hslot := (h.unique i j k indirectSlot hi hj hne (by rw [addr_indirectSlot, he])).2
  exact hk.ne hslot

/-- A write to a block of a file moves no address. -/
theorem addr_update (h : Owned sb m E) (hi : Live sb E i) (hj : Live sb E j)
    (hk : k < inodeMaxBlocks) (hne : addr m (E i) k ≠ 0) (v : BlockData) (l : ℕ) :
    addr (update m (addr m (E i) k) v) (E j) l = addr m (E j) l :=
  addr_congr (fun _ => update_of_ne (h.indirect_ne hi hj hk hne) _ _) l

theorem writeBlock (h : Owned sb m E) (hlay : Layout sb) (hi : Live sb E i)
    (hk : k < inodeMaxBlocks) (hne : addr m (E i) k ≠ 0) (v : BlockData) :
    Owned sb (update m (addr m (E i) k) v) E := by
  refine h.congr (fun _ hj => hj) (fun j l hj => h.addr_update hi hj hk hne v l)
    (fun x hx hm => ?_) hlay
  have hd := (h.data i k hi hne).1
  rwa [bit_congr (update_of_ne (by omega) _ _)]

/-- A write to an inode block moves no address and no bit. -/
theorem writeInode (h : Owned sb m E) (hlay : Layout sb) (hn : n < sb.bitmapStart)
    (v : BlockData) : Owned sb (update m n v) E := by
  have hb := hlay.bitmapStart_lt
  refine h.congr (fun _ hj => hj) (fun j l hj => ?_) (fun x hx hm => ?_) hlay
  · refine h.addr_frame hj (fun y hy _ => update_of_ne ?_ _ _) l
    have := hy.1
    omega
  · have : bitmapBlock sb x ≠ n := (hn.trans_le (Nat.le_add_right _ _)).ne'
    rwa [bit_congr (update_of_ne this _ _)]

end Owned

/-! ## Freeing blocks -/

/-- **Freeing a list of data blocks** clears their bits and changes
nothing outside of the bitmap. -/
theorem freeAll_spec : ∀ {ns : List ℕ} {m m' : Blocks}, freeAll sb held m ns = some m' →
    (∀ x, bit sb m' x = (bit sb m x && !decide (x ∈ ns ∧ x ≠ 0))) ∧
      ∀ y, (∀ n ∈ ns, n ≠ 0 → y ≠ bitmapBlock sb n) → m' y = m y := by
  intro ns
  induction ns with
  | nil =>
    intro m m' h
    obtain rfl := Option.some.inj h
    simp
  | cons n ns ih =>
    intro m m' h
    rw [freeAll] at h
    by_cases hn : n = 0
    · subst hn
      rw [if_neg (by simp)] at h
      obtain ⟨hbits, hframe⟩ := ih h
      refine ⟨fun x => ?_, fun y hy => hframe y fun k hk => hy k (List.mem_cons_of_mem _ hk)⟩
      rw [hbits x]
      congr 2
      simp only [List.mem_cons, decide_eq_decide]
      tauto
    · rw [if_pos hn] at h
      obtain ⟨m₁, h₁, h⟩ := Option.bind_eq_some_iff.1 h
      obtain ⟨hbits, hframe⟩ := ih h
      unfold cacheFree at h₁
      split at h₁
      · cases h₁
      · obtain rfl := Option.some.inj h₁
        refine ⟨fun x => ?_, fun y hy => ?_⟩
        · rw [hbits x, bit_clear]
          by_cases hx : x = n
          · simp [hx, hn]
          · simp [hx]
        · rw [hframe y fun k hk => hy k (List.mem_cons_of_mem _ hk)]
          exact update_of_ne (hy n List.mem_cons_self hn) _ _

end OsKernel.Fs
