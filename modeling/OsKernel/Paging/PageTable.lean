import OsKernel.Common.BitField
import OsKernel.Paging.Model.PageTable

/-!
# Page tables are maps

A table is reached from the root by the indices on the way to it
(`PageTable.tableAt`). Different ways lead to different tables (`Inv`), so a
write to an entry of the last level changes no table, and a table that is added
changes no other (`Grown`). What `get_pte` finds for an address is therefore a
map of page numbers: `vmmap` writes one entry, and the others are as before, or
zero where the table they are in is new.
-/

namespace OsKernel.Mmu

open Function

/-! ## The macros -/

section Macros

variable {va va' ka page flags e : Word}

theorem vaPart0_toNat (va : Word) : (vaPart0 va).toNat = va.toNat / 2 ^ 39 % 2 ^ 9 :=
  BitField.toNat_field va rfl

theorem vaPart1_toNat (va : Word) : (vaPart1 va).toNat = va.toNat / 2 ^ 30 % 2 ^ 9 :=
  BitField.toNat_field va rfl

theorem vaPart2_toNat (va : Word) : (vaPart2 va).toNat = va.toNat / 2 ^ 21 % 2 ^ 9 :=
  BitField.toNat_field va rfl

theorem vaPart3_toNat (va : Word) : (vaPart3 va).toNat = va.toNat / 2 ^ 12 % 2 ^ 9 :=
  BitField.toNat_field va rfl

theorem pteAddress_toNat (e : Word) :
    (pteAddress e).toNat = e.toNat / 2 ^ 12 % 2 ^ 36 * 2 ^ 12 :=
  BitField.toNat_mask e (by decide)

theorem pteFlags_toNat (e : Word) : (pteFlags e).toNat = e.toNat - (pteAddress e).toNat :=
  BitField.toNat_mask_compl e (~~~0xFFFF000000000FFF)

theorem k2p_toNat (hka : kspaceMask.toNat ≤ ka.toNat) :
    (k2p ka).toNat = ka.toNat - kspaceMask.toNat :=
  BitVec.toNat_sub_of_le hka

theorem kspaceMask_toNat : kspaceMask.toNat = 2 ^ 64 - 2 ^ 48 := by decide

/-- An aligned address of the kernel, with a few bits packed into it. -/
theorem k2p_or_toNat (halign : ka.toNat % 4096 = 0) (hka : kspaceMask.toNat ≤ ka.toNat)
    (hflags : flags.toNat < 4096) :
    (k2p (ka ||| flags)).toNat = ka.toNat - kspaceMask.toNat + flags.toNat := by
  have hor : (ka ||| flags).toNat = ka.toNat + flags.toNat :=
    BitField.toNat_or 12 halign hflags
  rw [k2p_toNat (by omega), hor]
  omega

/-- **The address and the flags of an entry are those it was made of.** -/
theorem pte_of_k2p_or (halign : ka.toNat % 4096 = 0) (hka : kspaceMask.toNat ≤ ka.toNat)
    (hflags : flags.toNat < 4096) :
    pteAddress (k2p (ka ||| flags)) = k2p ka ∧ pteFlags (k2p (ka ||| flags)) = flags := by
  have he := k2p_or_toNat halign hka hflags
  have hmask := kspaceMask_toNat
  have haddr : (pteAddress (k2p (ka ||| flags))).toNat = ka.toNat - kspaceMask.toNat := by
    rw [pteAddress_toNat, he]
    omega
  constructor
  · apply BitVec.eq_of_toNat_eq
    rw [haddr, k2p_toNat hka]
  · apply BitVec.eq_of_toNat_eq
    rw [pteFlags_toNat, haddr, he]
    omega

/-- **An entry of the upper levels leads to the table it was made of.** -/
theorem pte_of_table (halign : page.toNat % 4096 = 0) (hpage : kspaceMask.toNat ≤ page.toNat) :
    (k2p page ||| pteTable) &&& pteValid ≠ 0 ∧
      p2k (pteAddress (k2p page ||| pteTable)) = page := by
  have hmask := kspaceMask_toNat
  have htable : pteTable.toNat = 3 := rfl
  have hor : (k2p page ||| pteTable).toNat = page.toNat - kspaceMask.toNat + 3 := by
    rw [BitField.toNat_or 12 (by rw [k2p_toNat hpage]; omega) (by decide),
      k2p_toNat hpage, htable]
  constructor
  · intro hzero
    have hand := congrArg BitVec.toNat hzero
    have hvalid : pteValid.toNat = 1 := rfl
    rw [BitVec.toNat_and, hvalid, Nat.and_one_is_mod, hor] at hand
    change _ = 0 at hand
    omega
  · apply BitVec.eq_of_toNat_eq
    rw [p2k, BitVec.toNat_add, pteAddress_toNat, hor]
    omega

/-- The parts of an address below `2^48` are those of its page number. -/
theorem parts_eq_iff (hva : va.toNat < 2 ^ 48) (hva' : va'.toNat < 2 ^ 48) :
    ([vaPart2 va, vaPart1 va, vaPart0 va] = [vaPart2 va', vaPart1 va', vaPart0 va'] ∧
      vaPart3 va = vaPart3 va') ↔ va.toNat / 4096 = va'.toNat / 4096 := by
  simp only [List.cons.injEq, and_true, BitVec.toNat_eq, vaPart0_toNat, vaPart1_toNat,
    vaPart2_toNat, vaPart3_toNat]
  omega

end Macros

/-! ## Entries of tables -/

section Slots

variable {pt pt' i j a page : Word}

theorem slot_toNat (hpt : pt.toNat % 4096 = 0) (hi : i.toNat < 512) :
    (slot pt i).toNat = pt.toNat + 8 * i.toNat := by
  have height : (8 : Word).toNat = 8 := rfl
  rw [slot, BitVec.toNat_add, BitVec.toNat_mul, height]
  omega

/-- Two entries at one address are the same entry of the same table. -/
theorem slot_inj (hpt : pt.toNat % 4096 = 0) (hpt' : pt'.toNat % 4096 = 0) (hi : i.toNat < 512)
    (hj : j.toNat < 512) (h : slot pt i = slot pt' j) : pt = pt' ∧ i = j := by
  have hnat := congrArg BitVec.toNat h
  rw [slot_toNat hpt hi, slot_toNat hpt' hj] at hnat
  exact ⟨BitVec.eq_of_toNat_eq (by omega), BitVec.eq_of_toNat_eq (by omega)⟩

/-- The entries of a table are in its page. -/
theorem inPage_slot (hpt : pt.toNat % 4096 = 0) (hi : i.toNat < 512) :
    PageTable.InPage pt (slot pt i) := by
  have hslot := slot_toNat hpt hi
  unfold PageTable.InPage
  omega

/-- The entries of a table are in no other page. -/
theorem not_inPage_slot (hpt : pt.toNat % 4096 = 0) (hpage : page.toNat % 4096 = 0)
    (hi : i.toNat < 512) (hne : pt ≠ page) : ¬PageTable.InPage page (slot pt i) := by
  rintro ⟨hle, hlt⟩
  rw [slot_toNat hpt hi] at hle hlt
  exact hne (BitVec.eq_of_toNat_eq (by omega))

end Slots

namespace PageTable

variable {s s' : PageTable} {va va' a v i j p page pt : Word} {path q : List Word}
variable {fresh fresh' : List Word}

/-! ## Ways to tables -/

/-- The table that the indices lead to, the last index first. -/
def tableAt (s : PageTable) : List Word → Word
  | [] => s.pt
  | i :: path => s.child (s.tableAt path) i

/-- At most three indices. -/
structure IsPath (path : List Word) : Prop where
  length_le : path.length ≤ 3
  index : ∀ i ∈ path, i.toNat < 512

theorem IsPath.tail (h : IsPath (i :: path)) : IsPath path :=
  ⟨(Nat.le_succ _).trans h.length_le, fun j hj => h.index j (List.mem_cons_of_mem i hj)⟩

theorem IsPath.head (h : IsPath (i :: path)) : i.toNat < 512 := h.index i List.mem_cons_self

/-- The way to the table of the last level. -/
def leafPath (va : Word) : List Word := [vaPart2 va, vaPart1 va, vaPart0 va]

theorem vaPart0_lt (va : Word) : (vaPart0 va).toNat < 512 := by
  rw [vaPart0_toNat]
  exact Nat.mod_lt _ (by decide)

theorem vaPart1_lt (va : Word) : (vaPart1 va).toNat < 512 := by
  rw [vaPart1_toNat]
  exact Nat.mod_lt _ (by decide)

theorem vaPart2_lt (va : Word) : (vaPart2 va).toNat < 512 := by
  rw [vaPart2_toNat]
  exact Nat.mod_lt _ (by decide)

theorem vaPart3_lt (va : Word) : (vaPart3 va).toNat < 512 := by
  rw [vaPart3_toNat]
  exact Nat.mod_lt _ (by decide)

theorem isPath_leafPath (va : Word) : IsPath (leafPath va) := by
  refine ⟨le_rfl, fun i hi => ?_⟩
  simp only [leafPath, List.mem_cons, List.not_mem_nil, or_false] at hi
  rcases hi with rfl | rfl | rfl
  · exact vaPart2_lt va
  · exact vaPart1_lt va
  · exact vaPart0_lt va

theorem child_zero (s : PageTable) (i : Word) : s.child 0 i = 0 := if_pos rfl

/-- `child` depends on the entry only. -/
theorem child_congr (h : s'.mem (slot pt i) = s.mem (slot pt i)) :
    s'.child pt i = s.child pt i := by
  unfold child
  rw [h]

/-- **Tables do not alias each other.** Every table that can be reached is one
that was taken for it, and is reached in one way. -/
structure Inv (s : PageTable) : Prop where
  page : ∀ t ∈ s.tables, t.toNat % 4096 = 0 ∧ kspaceMask.toNat ≤ t.toNat
  taken : ∀ {path}, IsPath path → s.tableAt path ≠ 0 → s.tableAt path ∈ s.tables
  inj : ∀ {path path'}, IsPath path → IsPath path' → s.tableAt path ≠ 0 →
    s.tableAt path = s.tableAt path' → path = path'

theorem ne_zero_of_page (hpage : kspaceMask.toNat ≤ page.toNat) : page ≠ 0 := by
  rintro rfl
  exact absurd hpage (by decide)

theorem slot_ne_zero (hpt : pt.toNat % 4096 = 0) (hle : kspaceMask.toNat ≤ pt.toNat)
    (hi : i.toNat < 512) : slot pt i ≠ 0 := by
  refine ne_zero_of_page (hle.trans ?_)
  rw [slot_toNat hpt hi]
  exact Nat.le_add_right _ _

namespace Inv

theorem aligned (h : Inv s) (hpath : IsPath path) (hne : s.tableAt path ≠ 0) :
    (s.tableAt path).toNat % 4096 = 0 :=
  (h.page _ (h.taken hpath hne)).1

theorem init (mem : Word → Word) : Inv (init mem) := by
  have hnone : ∀ path, (PageTable.init mem).tableAt path = 0 := by
    intro path
    induction path with
    | nil => rfl
    | cons i path ih =>
      change child _ ((PageTable.init mem).tableAt path) i = 0
      rw [ih, child_zero]
  exact ⟨nofun, fun _ hne => absurd (hnone _) hne, fun _ _ hne => absurd (hnone _) hne⟩

/-- Writing a word that is no entry of the upper levels changes no table. -/
theorem tableAt_setMem (hpath : IsPath path)
    (ha : ∀ {q i}, IsPath (i :: q) → s.tableAt q ≠ 0 → slot (s.tableAt q) i ≠ a) :
    (s.setMem a v).tableAt path = s.tableAt path := by
  induction path with
  | nil => rfl
  | cons i path ih =>
    change (s.setMem a v).child ((s.setMem a v).tableAt path) i = s.child (s.tableAt path) i
    rw [ih hpath.tail]
    by_cases hzero : s.tableAt path = 0
    · rw [hzero, child_zero, child_zero]
    · exact child_congr (setMem_mem_of_ne s v (ha hpath hzero))

theorem setMem (h : Inv s)
    (ha : ∀ {q i}, IsPath (i :: q) → s.tableAt q ≠ 0 → slot (s.tableAt q) i ≠ a) (v : Word) :
    Inv (s.setMem a v) := by
  refine ⟨h.page, fun {path} hpath => ?_, fun {path path'} hpath hpath' => ?_⟩
  · rw [tableAt_setMem hpath ha]
    exact h.taken hpath
  · rw [tableAt_setMem hpath ha, tableAt_setMem hpath' ha]
    exact h.inj hpath hpath'

/-- An entry of the last level is none of the upper levels. -/
theorem slot_ne_leaf (h : Inv s) (hleaf : s.tableAt (leafPath va) ≠ 0) (hpath : IsPath (i :: path))
    (hne : s.tableAt path ≠ 0) :
    slot (s.tableAt path) i ≠ slot (s.tableAt (leafPath va)) (vaPart3 va) := by
  intro heq
  have hleaf' := isPath_leafPath va
  obtain ⟨ht, -⟩ := slot_inj (h.aligned hpath.tail hne) (h.aligned hleaf' hleaf) hpath.head
    (vaPart3_lt va) heq
  have hlen := hpath.length_le
  rw [h.inj hpath.tail hleaf' hne ht] at hlen
  simp [leafPath] at hlen

end Inv

/-! ## A table is added -/

/-- A page has become the table at a path, and nothing else has changed. -/
structure Grown (s s' : PageTable) (path : List Word) (page : Word) : Prop where
  tables : s'.tables = page :: s.tables
  tableAt : ∀ {q}, IsPath q → s'.tableAt q = if q = path then page else s.tableAt q
  zero : ∀ {i}, i.toNat < 512 → s'.mem (slot page i) = 0
  leaf : ∀ va, s.tableAt (leafPath va) ≠ 0 →
    s'.mem (slot (s.tableAt (leafPath va)) (vaPart3 va)) =
      s.mem (slot (s.tableAt (leafPath va)) (vaPart3 va))

/-- The words of a new table are zero. -/
theorem newTable_mem_slot (hpage : page.toNat % 4096 = 0) (hi : i.toNat < 512) :
    (s.newTable page).mem (slot page i) = 0 :=
  if_pos (inPage_slot hpage hi)

/-- The entries of other tables are as they were. -/
theorem newTable_mem_of_ne (hpage : page.toNat % 4096 = 0) (hpt : pt.toNat % 4096 = 0)
    (hi : i.toNat < 512) (hne : pt ≠ page) :
    (s.newTable page).mem (slot pt i) = s.mem (slot pt i) :=
  if_neg (not_inPage_slot hpt hpage hi hne)

/-- An entry that is zero leads nowhere. -/
theorem child_of_zero (h : s.mem (slot pt i) = 0) : s.child pt i = 0 := by
  unfold child
  rw [h]
  split_ifs with h₁ h₂
  · rfl
  · rfl
  · exact absurd rfl h₂

namespace Inv

/-- **The root is allocated.** -/
theorem grown_root (hroot : s.pt = 0) (hpage : page.toNat % 4096 = 0) :
    Grown s ((s.newTable page).setPt page) [] page := by
  have hnone : ∀ q, s.tableAt q = 0 := by
    intro q
    induction q with
    | nil => exact hroot
    | cons i q ih =>
      change s.child (s.tableAt q) i = 0
      rw [ih, child_zero]
  refine ⟨rfl, fun {q} hq => ?_, newTable_mem_slot hpage, fun va hne => absurd (hnone _) hne⟩
  induction q with
  | nil => rfl
  | cons i q ih =>
    rw [if_neg (List.cons_ne_nil i q), hnone]
    change child _ (tableAt _ q) i = 0
    rw [ih hq.tail]
    split_ifs
    · exact child_of_zero (newTable_mem_slot hpage hq.head)
    · rw [hnone, child_zero]

/-- **A table is linked into an entry that led nowhere.** -/
theorem grown_link (h : Inv s) (hpath : IsPath (i :: path)) (hpar : s.tableAt path ≠ 0)
    (hnone : s.tableAt (i :: path) = 0) (hpage : page.toNat % 4096 = 0)
    (hle : kspaceMask.toNat ≤ page.toNat) (hnew : page ∉ s.tables) :
    Grown s (linkTable (s.tableAt path) i page (s.newTable page)) (i :: path) page := by
  have halign := h.aligned hpath.tail hpar
  have hout : ∀ {q}, IsPath q → s.tableAt q ≠ 0 → s.tableAt q ≠ page :=
    fun hq hne heq => hnew (heq ▸ h.taken hq hne)
  -- what the two writes do to the entries of the tables
  have hzero : ∀ {j}, j.toNat < 512 →
      (linkTable (s.tableAt path) i page (s.newTable page)).mem (slot page j) = 0 := by
    intro j hj
    refine (update_of_ne (fun heq => ?_) _ _).trans (newTable_mem_slot hpage hj)
    exact hout hpath.tail hpar (slot_inj hpage halign hj hpath.head heq).1.symm
  have hother : ∀ {q j}, IsPath q → s.tableAt q ≠ 0 → j.toNat < 512 → j :: q ≠ i :: path →
      (linkTable (s.tableAt path) i page (s.newTable page)).mem (slot (s.tableAt q) j) =
        s.mem (slot (s.tableAt q) j) := by
    intro q j hq hne hj hjq
    refine (update_of_ne (fun heq => hjq ?_) _ _).trans
      (newTable_mem_of_ne hpage (h.aligned hq hne) hj (hout hq hne))
    obtain ⟨ht, rfl⟩ := slot_inj (h.aligned hq hne) halign hj hpath.head heq
    rw [h.inj hq hpath.tail hne ht]
  refine ⟨rfl, fun {q} hq => ?_, hzero, fun va hne => ?_⟩
  · -- along the path: above the new table nothing changes, below it is empty
    induction q with
    | nil => exact (if_neg (List.cons_ne_nil i path).symm).symm
    | cons j q ih =>
      change child _ (tableAt _ q) j = if _ then page else s.child (s.tableAt q) j
      rw [ih hq.tail]
      by_cases hqp : q = i :: path
      · rw [if_pos hqp, child_of_zero (hzero hq.head), hqp, hnone, child_zero, if_neg]
        intro heq
        exact absurd (congrArg List.length heq) (by simp)
      · rw [if_neg hqp]
        by_cases hjq : j :: q = i :: path
        · obtain ⟨rfl, rfl⟩ := List.cons.inj hjq
          rw [if_pos rfl]
          obtain ⟨hvalid, haddr⟩ := pte_of_table hpage hle
          have hmem : (linkTable (s.tableAt q) j page (s.newTable page)).mem
              (slot (s.tableAt q) j) = k2p page ||| pteTable := update_self _ _ _
          rw [child, if_neg hpar, hmem, if_neg hvalid, haddr]
        · rw [if_neg hjq]
          by_cases hzero' : s.tableAt q = 0
          · rw [hzero', child_zero, child_zero]
          · exact child_congr (hother hq.tail hzero' hq.head hjq)
  · refine hother (isPath_leafPath va) hne (vaPart3_lt va) fun heq => ?_
    have hlen := hpath.length_le
    rw [← heq] at hlen
    simp [leafPath] at hlen

/-- Tables do not alias each other after one was added. -/
theorem grown (h : Inv s) (hgrown : Grown s s' path page) (hpage : page.toNat % 4096 = 0)
    (hle : kspaceMask.toNat ≤ page.toNat) (hnew : page ∉ s.tables) : Inv s' := by
  have hout : ∀ {q}, IsPath q → s.tableAt q ≠ page := by
    intro q hq heq
    exact hnew (heq ▸ h.taken hq (heq ▸ ne_zero_of_page hle))
  refine ⟨fun t ht => ?_, fun {q} hq hne => ?_, fun {q q'} hq hq' hne heq => ?_⟩
  · rw [hgrown.tables] at ht
    rcases List.mem_cons.1 ht with rfl | ht
    · exact ⟨hpage, hle⟩
    · exact h.page t ht
  · rw [hgrown.tableAt hq] at hne ⊢
    rw [hgrown.tables]
    split_ifs at hne ⊢ with hqp
    · exact List.mem_cons_self
    · exact List.mem_cons_of_mem _ (h.taken hq hne)
  · rw [hgrown.tableAt hq] at hne heq
    rw [hgrown.tableAt hq'] at heq
    split_ifs at hne heq with hqp hqp' hqp'
    · rw [hqp, hqp']
    · exact absurd heq.symm (hout hq')
    · exact absurd heq (hout hq)
    · exact h.inj hq hq' hne heq

end Inv

/-! ## What `get_pte` finds -/

/-- `get_pte` without allocating. -/
theorem getPte_false (s : PageTable) (va : Word) (fresh : List Word) :
    s.getPte va false fresh =
      some (if s.tableAt (leafPath va) = 0 then 0
        else slot (s.tableAt (leafPath va)) (vaPart3 va), s) := by
  change (if s.tableAt (leafPath va) ≠ 0 then
    some (slot (s.tableAt (leafPath va)) (vaPart3 va), s) else some (0, s)) = _
  by_cases hzero : s.tableAt (leafPath va) = 0
  · rw [if_neg (not_not.2 hzero), if_pos hzero]
  · rw [if_pos hzero, if_neg hzero]

/-- The entry is that of the table of the last level. -/
theorem Inv.found_eq (h : Inv s) (va : Word) :
    s.found va = if s.tableAt (leafPath va) = 0 then none
      else some (s.mem (slot (s.tableAt (leafPath va)) (vaPart3 va))) := by
  unfold found
  rw [getPte_false]
  by_cases hzero : s.tableAt (leafPath va) = 0
  · rw [if_pos hzero, if_pos hzero]
    rfl
  · rw [if_neg hzero, if_neg hzero]
    obtain ⟨halign, hle⟩ := h.page _ (h.taken (isPath_leafPath va) hzero)
    exact if_neg (slot_ne_zero halign hle (vaPart3_lt va))

/-- Entries are as before, or zero where there were none. -/
def Extends (s s' : PageTable) (va : Word) : Prop :=
  s'.found va = s.found va ∨ s.found va = none ∧ s'.found va = some 0

theorem Extends.refl (s : PageTable) (va : Word) : Extends s s va := .inl rfl

theorem Extends.trans {s'' : PageTable} (h : Extends s s' va) (h' : Extends s' s'' va) :
    Extends s s'' va := by
  rcases h with h | ⟨hnone, hzero⟩
  · unfold Extends at h' ⊢
    rwa [h] at h'
  · rcases h' with h' | ⟨hnone', -⟩
    · exact .inr ⟨hnone, h'.trans hzero⟩
    · rw [hzero] at hnone'
      cases hnone'

/-- A new table has new entries only, and they are zero. -/
theorem Inv.extends_grown (h : Inv s) (h' : Inv s') (hgrown : Grown s s' path page)
    (hnone : s.tableAt path = 0) (hne : page ≠ 0) (va : Word) : Extends s s' va := by
  have htable := hgrown.tableAt (isPath_leafPath va)
  by_cases hleaf : leafPath va = path
  · rw [if_pos hleaf] at htable
    refine .inr ⟨?_, ?_⟩
    · rw [h.found_eq, hleaf, if_pos hnone]
    · rw [h'.found_eq, htable, if_neg hne, hgrown.zero (vaPart3_lt va)]
  · rw [if_neg hleaf] at htable
    refine .inl ?_
    rw [h'.found_eq, h.found_eq, htable]
    by_cases hzero : s.tableAt (leafPath va) = 0
    · rw [if_pos hzero, if_pos hzero]
    · rw [if_neg hzero, if_neg hzero, hgrown.leaf va hzero]

/-! ## Allocating -/

/-- A table is where it is needed, and the others are as they were. -/
structure Ensured (s s' : PageTable) (fresh' : List Word) (path : List Word) (pt : Word) :
    Prop where
  inv : Inv s'
  fresh : s'.Fresh fresh'
  table : s'.tableAt path = pt
  ne_zero : pt ≠ 0
  other : ∀ {q}, IsPath q → q ≠ path → s'.tableAt q = s.tableAt q
  ext : ∀ va, Extends s s' va

/-- The table was there. -/
theorem Inv.ensured_refl (h : Inv s) (hfresh : s.Fresh fresh) (hne : s.tableAt path ≠ 0) :
    Ensured s s fresh path (s.tableAt path) :=
  ⟨h, hfresh, rfl, hne, fun _ _ => rfl, Extends.refl s⟩

/-- The table was added. -/
theorem Inv.ensured_grown (h : Inv s) (hfresh : s.Fresh (page :: fresh))
    (hgrown : Grown s s' path page) (hpath : IsPath path) (hnone : s.tableAt path = 0) :
    Ensured s s' fresh path page := by
  obtain ⟨hnodup, hpages⟩ := hfresh
  obtain ⟨hnot, hnodup⟩ := List.nodup_cons.1 hnodup
  obtain ⟨hpage, hle, hnew⟩ := hpages page List.mem_cons_self
  have hinv := h.grown hgrown hpage hle hnew
  refine ⟨hinv, ⟨hnodup, fun q hq => ?_⟩, ?_, ne_zero_of_page hle, fun {q} hq hne => ?_,
    h.extends_grown hinv hgrown hnone (ne_zero_of_page hle)⟩
  · obtain ⟨hq₁, hq₂, hq₃⟩ := hpages q (List.mem_cons_of_mem _ hq)
    refine ⟨hq₁, hq₂, ?_⟩
    rw [hgrown.tables, List.mem_cons, not_or]
    exact ⟨fun heq => hnot (heq ▸ hq), hq₃⟩
  · rw [hgrown.tableAt hpath, if_pos rfl]
  · rw [hgrown.tableAt hq, if_neg hne]

/-- The root. -/
theorem Inv.ensure_root (h : Inv s) (hfresh : s.Fresh fresh)
    (hs : s.ensure fresh s.pt (fun page s => s.setPt page) = some (pt, s', fresh')) :
    Ensured s s' fresh' [] pt := by
  unfold ensure at hs
  by_cases hroot : s.pt = 0
  · rw [if_neg (not_not.2 hroot)] at hs
    cases fresh with
    | nil => cases hs
    | cons page rest =>
      cases hs
      obtain ⟨hpage, -, -⟩ := hfresh.2 _ List.mem_cons_self
      exact h.ensured_grown hfresh (grown_root hroot hpage) ⟨Nat.zero_le _, nofun⟩ hroot
  · rw [if_pos hroot] at hs
    cases hs
    exact h.ensured_refl hfresh hroot

/-- A table below the root. -/
theorem Inv.ensure_link (h : Inv s) (hfresh : s.Fresh fresh) (hpath : IsPath (i :: path))
    (hpar : s.tableAt path ≠ 0)
    (hs : s.ensure fresh (s.tableAt (i :: path)) (linkTable (s.tableAt path) i) =
      some (pt, s', fresh')) :
    Ensured s s' fresh' (i :: path) pt := by
  unfold ensure at hs
  by_cases hnone : s.tableAt (i :: path) = 0
  · rw [if_neg (not_not.2 hnone)] at hs
    cases fresh with
    | nil => cases hs
    | cons page rest =>
      cases hs
      obtain ⟨hpage, hle, hnew⟩ := hfresh.2 _ List.mem_cons_self
      exact h.ensured_grown hfresh (h.grown_link hpath hpar hnone hpage hle hnew) hpath hnone
  · rw [if_pos hnone] at hs
    cases hs
    exact h.ensured_refl hfresh hnone

/-- With a page left, there is a table. -/
theorem ensure_isSome (s : PageTable) (pt : Word) (link : Word → PageTable → PageTable) {n : ℕ}
    (hfresh : n + 1 ≤ fresh.length) :
    ∃ pt' s' fresh', s.ensure fresh pt link = some (pt', s', fresh') ∧ n ≤ fresh'.length := by
  unfold ensure
  by_cases hpt : pt = 0
  · rw [if_neg (not_not.2 hpt)]
    cases fresh with
    | nil => cases hfresh
    | cons page rest => exact ⟨page, _, rest, rfl, Nat.le_of_succ_le_succ hfresh⟩
  · rw [if_pos hpt]
    exact ⟨pt, s, fresh, rfl, (Nat.le_succ n).trans hfresh⟩

/-- The four calls of `kalloc_page`, one for each level that has no table. -/
theorem getPte_true (s : PageTable) (va : Word) (fresh : List Word)
    (hnone : s.tableAt (leafPath va) = 0) :
    s.getPte va true fresh =
      (s.ensure fresh s.pt fun page s => s.setPt page).bind fun r₀ =>
      (r₀.2.1.ensure r₀.2.2 (s.tableAt [vaPart0 va]) (linkTable r₀.1 (vaPart0 va))).bind fun r₁ =>
      (r₁.2.1.ensure r₁.2.2 (s.tableAt [vaPart1 va, vaPart0 va])
        (linkTable r₁.1 (vaPart1 va))).bind fun r₂ =>
      (r₂.2.1.ensure r₂.2.2 (s.tableAt (leafPath va)) (linkTable r₂.1 (vaPart2 va))).bind fun r₃ =>
      some (slot r₃.1 (vaPart3 va), r₃.2.1) :=
  if_neg (not_not.2 hnone)

/-- **`get_pte` returns** when there are four pages. -/
theorem getPte_isSome (s : PageTable) (va : Word) (hfresh : 4 ≤ fresh.length) :
    ∃ r, s.getPte va true fresh = some r := by
  by_cases hnone : s.tableAt (leafPath va) = 0
  · rw [getPte_true s va fresh hnone]
    obtain ⟨pt₀, s₀, fresh₀, hs₀, h₀⟩ := ensure_isSome s s.pt (fun page s => s.setPt page) hfresh
    obtain ⟨pt₁, s₁, fresh₁, hs₁, h₁⟩ :=
      ensure_isSome s₀ (s.tableAt [vaPart0 va]) (linkTable pt₀ (vaPart0 va)) h₀
    obtain ⟨pt₂, s₂, fresh₂, hs₂, h₂⟩ :=
      ensure_isSome s₁ (s.tableAt [vaPart1 va, vaPart0 va]) (linkTable pt₁ (vaPart1 va)) h₁
    obtain ⟨pt₃, s₃, fresh₃, hs₃, -⟩ :=
      ensure_isSome s₂ (s.tableAt (leafPath va)) (linkTable pt₂ (vaPart2 va)) h₂
    simp only [hs₀, Option.bind_some, hs₁, hs₂, hs₃]
    exact ⟨_, rfl⟩
  · exact ⟨_, if_pos hnone⟩

/-- **What `get_pte` does when it may allocate**: the entry exists, and no other
entry has changed. -/
theorem Inv.getPte (h : Inv s) (hfresh : s.Fresh fresh)
    (hs : s.getPte va true fresh = some (p, s')) :
    Inv s' ∧ s'.tableAt (leafPath va) ≠ 0 ∧ p = slot (s'.tableAt (leafPath va)) (vaPart3 va) ∧
      ∀ va', Extends s s' va' := by
  by_cases hnone : s.tableAt (leafPath va) = 0
  · rw [getPte_true s va fresh hnone] at hs
    obtain ⟨⟨pt₀, s₀, fresh₀⟩, hs₀, hs⟩ := Option.bind_eq_some_iff.1 hs
    obtain ⟨⟨pt₁, s₁, fresh₁⟩, hs₁, hs⟩ := Option.bind_eq_some_iff.1 hs
    obtain ⟨⟨pt₂, s₂, fresh₂⟩, hs₂, hs⟩ := Option.bind_eq_some_iff.1 hs
    obtain ⟨⟨pt₃, s₃, fresh₃⟩, hs₃, hs⟩ := Option.bind_eq_some_iff.1 hs
    cases hs
    have hp₃ := isPath_leafPath va
    have hp₂ : IsPath [vaPart1 va, vaPart0 va] := hp₃.tail
    have hp₁ : IsPath [vaPart0 va] := hp₂.tail
    -- the pointers that were read at the start are those of the state by then
    have h₀ := h.ensure_root hfresh hs₀
    simp only [← h₀.table, ← h₀.other hp₁ (List.cons_ne_nil _ _)] at hs₁
    have h₁ := h₀.inv.ensure_link h₀.fresh hp₁ (h₀.table.symm ▸ h₀.ne_zero) hs₁
    have hlen₁ : [vaPart1 va, vaPart0 va] ≠ [vaPart0 va] := by simp
    simp only [← h₁.table, ← h₀.other hp₂ (List.cons_ne_nil _ _), ← h₁.other hp₂ hlen₁] at hs₂
    have h₂ := h₁.inv.ensure_link h₁.fresh hp₂ (h₁.table.symm ▸ h₁.ne_zero) hs₂
    have hlen₂ : leafPath va ≠ [vaPart0 va] := by simp [leafPath]
    have hlen₃ : leafPath va ≠ [vaPart1 va, vaPart0 va] := by simp [leafPath]
    simp only [← h₂.table, ← h₀.other hp₃ (List.cons_ne_nil _ _), ← h₁.other hp₃ hlen₂,
      ← h₂.other hp₃ hlen₃] at hs₃
    have h₃ := h₂.inv.ensure_link h₂.fresh hp₃ (h₂.table.symm ▸ h₂.ne_zero) hs₃
    have htable : s₃.tableAt (leafPath va) = pt₃ := h₃.table
    refine ⟨h₃.inv, htable.symm ▸ h₃.ne_zero, by rw [htable], fun va' => ?_⟩
    exact (((h₀.ext va').trans (h₁.ext va')).trans (h₂.ext va')).trans (h₃.ext va')
  · have hfound : s.getPte va true fresh =
        some (slot (s.tableAt (leafPath va)) (vaPart3 va), s) := if_pos hnone
    rw [hfound] at hs
    cases hs
    exact ⟨h, hnone, rfl, Extends.refl s⟩

/-! ## Writing an entry -/

/-- An entry of the last level is written. -/
theorem Inv.store (h : Inv s) (hleaf : s.tableAt (leafPath va) ≠ 0) (v : Word) :
    Inv (s.setMem (slot (s.tableAt (leafPath va)) (vaPart3 va)) v) :=
  h.setMem (fun hpath hne => h.slot_ne_leaf hleaf hpath hne) v

/-- **Writing an entry changes what is found for that page only.** -/
theorem Inv.found_store (h : Inv s) (hleaf : s.tableAt (leafPath va) ≠ 0) (v va' : Word) :
    (s.setMem (slot (s.tableAt (leafPath va)) (vaPart3 va)) v).found va' =
      if leafPath va' = leafPath va ∧ vaPart3 va' = vaPart3 va then some v else s.found va' := by
  have htable : (s.setMem (slot (s.tableAt (leafPath va)) (vaPart3 va)) v).tableAt
      (leafPath va') = s.tableAt (leafPath va') :=
    tableAt_setMem (isPath_leafPath va') fun hpath hne => h.slot_ne_leaf hleaf hpath hne
  rw [(h.store hleaf v).found_eq, h.found_eq, htable]
  by_cases hsame : leafPath va' = leafPath va ∧ vaPart3 va' = vaPart3 va
  · rw [if_pos hsame, hsame.1, hsame.2, if_neg hleaf]
    rw [setMem_mem_self]
  · rw [if_neg hsame]
    by_cases hzero : s.tableAt (leafPath va') = 0
    · rw [if_pos hzero, if_pos hzero]
    · rw [if_neg hzero, if_neg hzero]
      rw [setMem_mem_of_ne]
      intro heq
      refine hsame ?_
      obtain ⟨ht, hi⟩ := slot_inj (h.aligned (isPath_leafPath va') hzero)
        (h.aligned (isPath_leafPath va) hleaf) (vaPart3_lt va') (vaPart3_lt va) heq
      exact ⟨h.inj (isPath_leafPath va') (isPath_leafPath va) hzero ht, hi⟩

/-- **Every step keeps the tables apart.** -/
theorem Inv.step {a : PageTableAct} (h : Inv s) (hs : s.step a = some s') : Inv s' := by
  cases a with
  | init page =>
    obtain ⟨hok, hs⟩ := of_guarded hs
    cases hs
    obtain ⟨hpage, hle, hnew⟩ := hok.2.2 page List.mem_cons_self
    exact h.grown (grown_root hok.1 hpage) hpage hle hnew
  | getPte va alloc fresh =>
    obtain ⟨hfresh, hs⟩ := of_guarded hs
    obtain ⟨⟨p, s₁⟩, hr, rfl⟩ := Option.map_eq_some_iff.1 hs
    cases alloc with
    | false =>
      rw [getPte_false] at hr
      cases hr
      exact h
    | true => exact (h.getPte hfresh hr).1
  | vmmap va ka flags fresh =>
    obtain ⟨hfresh, hs⟩ := of_guarded hs
    obtain ⟨⟨p, s₁⟩, hr, rfl⟩ := Option.map_eq_some_iff.1 hs
    obtain ⟨hinv, hleaf, rfl, -⟩ := h.getPte hfresh hr
    exact hinv.store hleaf _
  | store va v =>
    simp only [PageTable.step, getPte_false, Option.bind_some] at hs
    by_cases hzero : s.tableAt (leafPath va) = 0
    · rw [if_pos hzero, if_pos rfl] at hs
      cases hs
    · rw [if_neg hzero] at hs
      split_ifs at hs
      cases hs
      exact h.store hzero v
  | write a v =>
    simp only [PageTable.step] at hs
    split_ifs at hs with hout
    cases hs
    refine h.setMem (fun {q i} hpath hne heq => ?_) v
    refine hout _ (h.taken hpath.tail hne) ?_
    rw [← heq]
    exact inPage_slot (h.aligned hpath.tail hne) hpath.head

/-! ## The map -/

/-- **Page tables are maps.** In every state that is reached:
after `vmmap` the entry of the address has the frame and the flags, and for every
address of another page what is found is as before, or zero where there was no
entry; `get_pte` that may allocate returns the entry that is found afterwards, and
changes no entry; two addresses have the same entry exactly when they are of the
same page; without allocating, `get_pte` changes nothing; and with four pages both
return. -/
theorem page_tables_are_maps {mem : Word → Word} {tr : List (PageTable × PageTableAct)}
    (hrun : Run step (init mem) tr s) :
    (∀ va ka flags fresh s', va.toNat < 2 ^ 48 → ka.toNat % 4096 = 0 →
      kspaceMask.toNat ≤ ka.toNat → flags.toNat < 4096 → s.Fresh fresh →
      s.vmmap va ka flags fresh = some s' →
      (∃ p, s'.getPte va false [] = some (p, s') ∧ p ≠ 0 ∧ pteAddress (s'.mem p) = k2p ka ∧
        pteFlags (s'.mem p) = flags) ∧
      ∀ va', va'.toNat < 2 ^ 48 → va'.toNat / 4096 ≠ va.toNat / 4096 → Extends s s' va') ∧
    (∀ va fresh p s', s.Fresh fresh → s.getPte va true fresh = some (p, s') →
      p ≠ 0 ∧ s'.getPte va false [] = some (p, s') ∧ ∀ va', Extends s s' va') ∧
    (∀ va va' p p', va.toNat < 2 ^ 48 → va'.toNat < 2 ^ 48 →
      s.getPte va false [] = some (p, s) → s.getPte va' false [] = some (p', s) →
      p ≠ 0 → p' ≠ 0 → (p = p' ↔ va.toNat / 4096 = va'.toNat / 4096)) ∧
    (∀ va fresh, ∃ p, s.getPte va false fresh = some (p, s)) ∧
    ∀ va ka flags fresh, s.Fresh fresh → 4 ≤ fresh.length →
      (∃ r, s.getPte va true fresh = some r) ∧ ∃ s', s.vmmap va ka flags fresh = some s' := by
  have h : Inv s := hrun.invariant (Inv.init mem) fun _ _ _ h hs => h.step hs
  have hnull : ∀ {s : PageTable} {va}, Inv s → s.tableAt (leafPath va) ≠ 0 →
      slot (s.tableAt (leafPath va)) (vaPart3 va) ≠ 0 := fun {s va} h hne => by
    obtain ⟨halign, hle⟩ := h.page _ (h.taken (isPath_leafPath va) hne)
    exact slot_ne_zero halign hle (vaPart3_lt va)
  refine ⟨fun va ka flags fresh s' hva halign hka hflags hfresh hs => ?_,
    fun va fresh p s' hfresh hs => ?_, fun va va' p p' hva hva' hp hp' hne hne' => ?_,
    fun va fresh => ⟨_, getPte_false s va fresh⟩, fun va ka flags fresh _ hlen => ?_⟩
  · obtain ⟨⟨p, s₁⟩, hr, rfl⟩ := Option.map_eq_some_iff.1 hs
    obtain ⟨hinv, hleaf, rfl, hext⟩ := h.getPte hfresh hr
    refine ⟨⟨_, ?_, hnull hinv hleaf, ?_⟩, fun va' hva' hpage => (hext va').trans (.inl ?_)⟩
    · have htable := Inv.tableAt_setMem (v := k2p (ka ||| flags)) (isPath_leafPath va)
        fun hpath hne => hinv.slot_ne_leaf hleaf hpath hne
      rw [getPte_false, htable, if_neg hleaf]
    · rw [setMem_mem_self]
      exact pte_of_k2p_or halign hka hflags
    · rw [hinv.found_store hleaf, if_neg]
      exact fun hsame => hpage ((parts_eq_iff hva' hva).1 hsame)
  · obtain ⟨hinv, hleaf, rfl, hext⟩ := h.getPte hfresh hs
    refine ⟨hnull hinv hleaf, ?_, hext⟩
    rw [getPte_false, if_neg hleaf]
  · rw [getPte_false] at hp hp'
    cases hp
    cases hp'
    have hleaf : s.tableAt (leafPath va) ≠ 0 := fun hzero => hne (if_pos hzero)
    have hleaf' : s.tableAt (leafPath va') ≠ 0 := fun hzero => hne' (if_pos hzero)
    rw [if_neg hleaf, if_neg hleaf', ← parts_eq_iff hva hva']
    constructor
    · intro heq
      obtain ⟨ht, hi⟩ := slot_inj (h.aligned (isPath_leafPath va) hleaf)
        (h.aligned (isPath_leafPath va') hleaf') (vaPart3_lt va) (vaPart3_lt va') heq
      exact ⟨h.inj (isPath_leafPath va) (isPath_leafPath va') hleaf ht, hi⟩
    · rintro ⟨hpath, hi⟩
      rw [show leafPath va = leafPath va' from hpath, hi]
  · obtain ⟨r, hr⟩ := getPte_isSome s va hlen
    exact ⟨⟨r, hr⟩, _, by rw [vmmap, hr]; rfl⟩

/-- Four pages of the kernel. -/
def fourPages : List Word :=
  [0xffff000000001000, 0xffff000000002000, 0xffff000000003000, 0xffff000000004000]

theorem fourPages_fresh (mem : Word → Word) : (init mem).Fresh fourPages := by
  refine ⟨by decide +kernel, fun page hpage => ?_⟩
  simp only [fourPages, List.mem_cons, List.not_mem_nil, or_false] at hpage
  rcases hpage with rfl | rfl | rfl | rfl <;> exact ⟨by decide, by decide, nofun⟩

/-- The first `vmmap` takes four pages. -/
theorem vmmap_init {mem : Word → Word} {s : PageTable} {va ka flags a b c d : Word}
    (hs : (init mem).vmmap va ka flags [a, b, c, d] = some s) :
    s.pt = a ∧ s.tables = [d, c, b, a] := by
  simp only [vmmap, getPte, init, child, if_true, ne_eq, not_true_eq_false, if_false, ensure,
    Option.bind_eq_bind, Option.bind_some, Option.map_some, Option.some_inj] at hs
  exact hs ▸ ⟨rfl, rfl⟩

/-- Four more. -/
def morePages : List Word :=
  [0xffff000000005000, 0xffff000000006000, 0xffff000000007000, 0xffff000000008000]

/-- A page is mapped whose upper two tables are those of the page that was mapped
before; the other two are new. -/
theorem page_tables_are_maps_second : ∃ s s' p,
    (init fun _ => 0).step (.vmmap 0x1000 0xffff000000500000 0x447 fourPages) = some s ∧
    s.pt = 0xffff000000001000 ∧
    s.vmmap 0x40000000 0xffff000000600000 0x447 morePages = some s' ∧
    s'.getPte 0x40000000 false [] = some (p, s') ∧ pteAddress (s'.mem p) = 0x600000 ∧
    pteFlags (s'.mem p) = 0x447 ∧ Extends s s' 0x1000 := by
  have hfour := fourPages_fresh fun _ => 0
  obtain ⟨-, s, hs⟩ := (page_tables_are_maps .nil).2.2.2.2 0x1000 0xffff000000500000 0x447 fourPages
    hfour le_rfl
  obtain ⟨hroot, htables⟩ := vmmap_init hs
  have hstep : (init fun _ => 0).step (.vmmap 0x1000 0xffff000000500000 0x447 fourPages) =
      some s := by rw [step, if_pos hfour, hs]
  have hfresh : s.Fresh morePages := by
    refine ⟨by decide +kernel, fun page hpage => ?_⟩
    rw [htables]
    simp only [morePages, List.mem_cons, List.not_mem_nil, or_false] at hpage
    rcases hpage with rfl | rfl | rfl | rfl <;> exact ⟨by decide, by decide, by decide⟩
  have hmaps := page_tables_are_maps (.single hstep)
  obtain ⟨-, s', hs'⟩ :=
    hmaps.2.2.2.2 0x40000000 0xffff000000600000 0x447 morePages hfresh (by decide)
  obtain ⟨⟨p, hp, -, haddr, hflags⟩, hother⟩ := hmaps.1 0x40000000 0xffff000000600000 0x447
    morePages s' (by decide) (by decide) (by decide) (by decide) hfresh hs'
  refine ⟨s, s', p, hstep, hroot, hs', hp, haddr.trans ?_, hflags,
    hother 0x1000 (by decide) (by decide)⟩
  decide

end PageTable

end OsKernel.Mmu
