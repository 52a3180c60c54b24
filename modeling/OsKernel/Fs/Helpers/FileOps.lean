import OsKernel.Fs.Helpers.FileLoop

/-!
# Helpers — reading, writing and clearing a file

`inode_read`, `inode_write` and `inode_clear` as whole calls: a read that
returns has changed nothing, a write that returns has replaced its bytes
and written the entry back where the file grew, and a cleared file has
given up its blocks and no others.
-/

namespace OsKernel.Fs

open Function

open Cache

variable {sb : SuperBlock} {m m' : Blocks} {E : ℕ → InodeEntry} {e e' : InodeEntry}
variable {i j k l n c B o : ℕ} {src bytes : List UInt8} {ino ino' : Inode}
variable {console : ℕ → List UInt8}

/-! ## `inode_read` -/

/-- **What a read returns**: as many bytes as there are, and nothing
changes. -/
theorem inodeRead_eq (h : ShapeAt m e (blocksFor e.numBytes.toNat)) (hdev : e.type ≠ inodeDevice)
    (ho : o ≤ e.numBytes.toNat) (hc : o + c < 2 ^ 64) :
    inodeRead sb console m e o c =
      some ((List.range (min c (e.numBytes.toNat - o))).map fun t => fileByte m e (o + t), m, e) := by
  have hnb := e.numBytes.toNat_lt
  set nb := e.numBytes.toNat with hnbdef
  have hcount : (if nb < (c + o) % 2 ^ 64 then (nb + (2 ^ 64 - o)) % 2 ^ 64 else c) =
      min c (nb - o) := by
    split <;> omega
  have hstop : (o + min c (nb - o)) % 2 ^ 64 = o + min c (nb - o) := Nat.mod_eq_of_lt (by omega)
  simp only [inodeRead, if_neg hdev, ← hnbdef, hcount, hstop]
  rw [if_pos ⟨ho, by omega, by omega⟩]
  by_cases hz : min c (nb - o) = 0
  · rw [if_pos hz, hz]
    rfl
  · have hreach : o + min c (nb - o) ≤ blocksFor nb * blockSize :=
      le_trans (by omega) (le_blocksFor nb)
    rw [if_neg hz, readLoop_spec h hreach (LoopAt.start (by omega)), Nat.add_sub_cancel_left]

/-- **A read that returns has changed nothing.** -/
theorem inodeRead_keep (h : ShapeAt m e (blocksFor e.numBytes.toNat)) (hc : c < 2 ^ 64)
    (hread : inodeRead sb console m e o c = some (bytes, m', e')) : m' = m ∧ e' = e := by
  have hsame : ∀ {l : List UInt8}, some (l, m, e) = some (bytes, m', e') → m' = m ∧ e' = e := by
    intro l heq
    simp only [Option.some_inj, Prod.mk.injEq] at heq
    exact ⟨heq.2.1.symm, heq.2.2.symm⟩
  by_cases hdev : e.type = inodeDevice
  · rw [inodeRead, if_pos hdev] at hread
    split at hread
    · exact hsame hread
    · cases hread
  · simp only [inodeRead, if_neg hdev] at hread
    generalize hc' : (if e.numBytes.toNat < (c + o) % 2 ^ 64
      then (e.numBytes.toNat + (2 ^ 64 - o)) % 2 ^ 64 else c) = c' at hread
    have hlt : c' < 2 ^ 64 := by
      rw [← hc']
      split
      · exact Nat.mod_lt _ (by decide)
      · exact hc
    split at hread
    · rename_i hle
      split_ifs at hread with hz
      · exact hsame hread
      · have hreach : (o + c') % 2 ^ 64 ≤ blocksFor e.numBytes.toNat * blockSize :=
          hle.2.1.trans (le_blocksFor _)
        rw [readLoop_spec h hreach (LoopAt.start (by omega))] at hread
        exact hsame hread
    · cases hread

/-! ## `inode_write` -/

/-- **What a write does that returns**, where the inode is no device: it
runs its loop from `o` to `o + src.length`, which does not wrap, and where
the file has grown the entry is written back with the new size. -/
theorem inodeWrite_loop (hdev : ino.entry.type ≠ inodeDevice) (hvalid : ino.valid = true)
    (hsrc : 0 < src.length) (hlen : src.length < 2 ^ 64)
    (hw : inodeWrite sb m i ino o src = some (c, m', ino')) :
    o ≤ ino.entry.numBytes.toNat ∧ o + src.length ≤ inodeMaxBytes ∧ ∃ m₁ e₁,
      writeLoop sb ((o + src.length - 1) / blockSize + 1 - o / blockSize) (o / blockSize) o
        (o + src.length) src m ino.entry = some (c, m₁, e₁) ∧
      if ino.entry.numBytes.toNat < o + src.length then
        ino' = { ino with entry := { e₁ with numBytes := UInt32.ofNat (o + src.length) } } ∧
          m' = putEntry sb m₁ i ino'.entry
      else ino' = { ino with entry := e₁ } ∧ m' = m₁ := by
  have hnb := ino.entry.numBytes.toNat_lt
  simp only [inodeWrite, if_neg hdev] at hw
  set nb := ino.entry.numBytes.toNat
  split at hw
  · rename_i hle
    -- the end does not wrap, since it would then lie before the offset
    have hstop : (o + src.length) % 2 ^ 64 = o + src.length := by omega
    rw [hstop] at hw hle
    set stop := o + src.length
    have hlast : (stop + (2 ^ 64 - 1)) % 2 ^ 64 = stop - 1 := by
      simp only [inodeMaxBytes, inodeMaxBlocks, inodeNumDirect, inodeNumIndirect, blockSize] at hle
      omega
    rw [hlast] at hw
    obtain ⟨⟨c₁, m₁, e₁⟩, hloop, hw⟩ := Option.bind_eq_some_iff.1 hw
    refine ⟨hle.1, hle.2.1, m₁, e₁, ?_⟩
    simp only at hw
    split_ifs at hw with hgrow
    · simp only [inodeSync, hvalid, Bool.and_true, if_true, Option.some_inj,
        Prod.mk.injEq] at hw
      obtain ⟨rfl, rfl, rfl⟩ := hw
      rw [if_pos hgrow]
      exact ⟨hloop, by rw [hvalid], rfl⟩
    · simp only [Option.some_inj, Prod.mk.injEq] at hw
      obtain ⟨rfl, rfl, rfl⟩ := hw
      rw [if_neg hgrow]
      exact ⟨hloop, rfl, rfl⟩
  · cases hw

/-- The blocks of a file after a write from `o` to `stop`. -/
theorem reachBlocks_blocksFor {nb stop : ℕ} (h : o < stop) :
    reachBlocks (blocksFor nb) o stop = blocksFor (max nb stop) := by
  rw [reachBlocks, if_pos h]
  simp only [blocksFor, blockSize]
  omega

/-- **A write that returns.** Either the inode is a device, or the loop
has written all of `src`; where the file has grown the entry is written
back with the new size. -/
theorem inodeWrite_cases (hlay : Layout sb)
    (h : FileAt sb E i m ino.entry (blocksFor ino.entry.numBytes.toNat)) (hvalid : ino.valid = true)
    (hsrc : 0 < src.length) (hlen : src.length < 2 ^ 64)
    (hw : inodeWrite sb m i ino o src = some (c, m', ino')) :
    (ino.entry.type = inodeDevice ∧ m' = m ∧ ino' = ino) ∨
      (ino.entry.type ≠ inodeDevice ∧ c = src.length ∧ o ≤ ino.entry.numBytes.toNat ∧
        o + src.length ≤ inodeMaxBytes ∧ ∃ m₁ e₁,
        Written sb E i m ino.entry (blocksFor ino.entry.numBytes.toNat) o src.length src m₁ e₁
          (blocksFor (max ino.entry.numBytes.toNat (o + src.length))) ∧
        if ino.entry.numBytes.toNat < o + src.length then
          ino' = { ino with entry := { e₁ with numBytes := UInt32.ofNat (o + src.length) } } ∧
            m' = putEntry sb m₁ i ino'.entry
        else ino' = ino ∧ m' = m₁ ∧ e₁ = ino.entry) := by
  by_cases hdev : ino.entry.type = inodeDevice
  · rw [inodeWrite, if_pos hdev] at hw
    split at hw
    · simp only [Option.some_inj, Prod.mk.injEq] at hw
      exact Or.inl ⟨hdev, hw.2.1.symm, hw.2.2.symm⟩
    · cases hw
  · obtain ⟨ho, hmax, m₁, e₁, hloop, hend⟩ := inodeWrite_loop hdev hvalid hsrc hlen hw
    set nb := ino.entry.numBytes.toNat
    obtain ⟨rfl, hwritten⟩ := writeLoop_spec hlay hmax
      (LoopAt.start (show o < o + src.length by omega)) h (ho.trans (le_blocksFor nb)) hloop
    rw [Nat.add_sub_cancel_left, reachBlocks_blocksFor (by omega)] at hwritten
    refine Or.inr ⟨hdev, by omega, ho, hmax, m₁, e₁, hwritten, ?_⟩
    split_ifs at hend with hgrow
    · rwa [if_pos hgrow]
    · have hkeep : e₁ = ino.entry := hwritten.keep (by rw [max_eq_left (not_lt.1 hgrow)])
      rw [if_neg hgrow]
      exact ⟨by rw [hend.1, hkeep], hend.2, hkeep⟩

/-! ## `inode_clear` -/

/-- What freeing blocks of one entry `e` keeps: the bits of all other
blocks, and everything outside of the bitmap. -/
structure Freed (sb : SuperBlock) (m : Blocks) (e : InodeEntry) (m' : Blocks) : Prop where
  bits : ∀ x, bit sb m x = true → (∀ l, addr m e l ≠ 0 → addr m e l ≠ x) → bit sb m' x = true
  frame : ∀ y, y < sb.bitmapStart ∨ dataStart sb ≤ y → m' y = m y

/-- Freeing a list of addresses of the entry. -/
theorem freed_of_freeAll {held ns : List ℕ} {m₀ : Blocks}
    (hdata : ∀ l, addr m₀ e l ≠ 0 → InData sb (addr m₀ e l))
    (hns : ∀ n ∈ ns, ∃ l, n = addr m₀ e l) (h : Freed sb m₀ e m)
    (hfree : freeAll sb held m ns = some m') : Freed sb m₀ e m' := by
  obtain ⟨hbits, hframe⟩ := freeAll_spec hfree
  constructor
  · intro x hx hne
    rw [hbits x, h.bits x hx hne, Bool.true_and]
    simp only [Bool.not_eq_true', decide_eq_false_iff_not]
    rintro ⟨hmem, hz⟩
    obtain ⟨l, rfl⟩ := hns x hmem
    exact hne l hz rfl
  · intro y hy
    rw [← h.frame y hy]
    refine hframe y fun n hn hz => ?_
    obtain ⟨l, rfl⟩ := hns n hn
    have hlt := (hdata l hz).2
    have hge : sb.bitmapStart ≤ bitmapBlock sb (addr m₀ e l) := Nat.le_add_right _ _
    omega

/-- **A cleared file has given up its blocks and no others.** -/
theorem inodeClear_spec (h : FileAt sb E i m ino.entry B)
    (hvalid : ino.valid = true) (hclear : inodeClear sb m i ino = some (m', ino')) :
    ino' = { ino with entry := ino.entry.cleared } ∧
      ∃ m₂, Freed sb m ino.entry m₂ ∧ m' = putEntry sb m₂ i ino'.entry := by
  set e := ino.entry
  have hdata : ∀ l, addr m e l ≠ 0 → InData sb (addr m e l) := by
    intro l
    have := h.owned.data i l h.live
    simpa only [update_self] using this
  obtain ⟨m₁, hdirect, hclear⟩ := Option.bind_eq_some_iff.1 hclear
  obtain ⟨m₂, hindirect, hclear⟩ := Option.bind_eq_some_iff.1 hclear
  simp only [inodeSync, hvalid, Bool.and_true, if_true, Option.some_inj, Prod.mk.injEq] at hclear
  obtain ⟨rfl, rfl⟩ := hclear
  refine ⟨by rw [hvalid], m₂, ?_, rfl⟩
  have hfreed₁ : Freed sb m e m₁ := by
    refine freed_of_freeAll hdata (fun n hn => ?_) ⟨fun _ hx _ => hx, fun _ _ => rfl⟩ hdirect
    obtain ⟨k, rfl⟩ := List.mem_ofFn.1 hn
    exact ⟨k, (addr_direct k.isLt).symm⟩
  unfold freeIndirect at hindirect
  split_ifs at hindirect with hne
  · have hb := hdata indirectSlot (by rw [addr_indirectSlot]; exact toNat_ne_zero.2 hne)
    rw [addr_indirectSlot] at hb
    obtain ⟨m₁', hlist, hself⟩ := Option.bind_eq_some_iff.1 hindirect
    have hfreed₁' : Freed sb m e m₁' := by
      refine freed_of_freeAll hdata (fun n hn => ?_) hfreed₁ hlist
      obtain ⟨k, hk, rfl⟩ := List.mem_map.1 hn
      have hk := List.mem_range.1 hk
      refine ⟨inodeNumDirect + k, ?_⟩
      rw [addr_indirect (Nat.le_add_right _ _) (Nat.add_lt_add_left hk _) hne,
        Nat.add_sub_cancel_left, hfreed₁.frame _ (Or.inr hb.1)]
    have hlast : freeAll sb [] m₁' [e.indirect.toNat] = some m₂ := by
      rw [freeAll, if_pos (toNat_ne_zero.2 hne), hself]
      rfl
    refine freed_of_freeAll hdata (fun n hn => ⟨indirectSlot, ?_⟩) hfreed₁' hlast
    rw [addr_indirectSlot, List.mem_singleton.1 hn]
  · obtain rfl := Option.some.inj hindirect
    exact hfreed₁

/-- **An inode without addresses owns nothing**, and the others keep what
they own when its blocks are freed. -/
theorem Owned.release (h : Owned sb m E) (hzero : ∀ l, addr m' e' l = 0)
    (hbits : ∀ x, bit sb m x = true →
      (Live sb E i → ∀ l, addr m (E i) l ≠ 0 → addr m (E i) l ≠ x) → bit sb m' x = true)
    (hother : ∀ j, j ≠ i → Live sb E j → ∀ l, addr m' (E j) l = addr m (E j) l) :
    Owned sb m' (update E i e') := by
  have hne : ∀ j l, Live sb (update E i e') j →
      addr m' (update E i e' j) l ≠ 0 →
      j ≠ i ∧ Live sb E j ∧ addr m' (update E i e' j) l = addr m (E j) l := by
    intro j l hj hz
    by_cases hji : j = i
    · subst hji
      rw [update_self] at hz
      exact absurd (hzero l) hz
    · have hlive := (live_update_of_ne hji).1 hj
      exact ⟨hji, hlive, by rw [update_of_ne hji, hother j hji hlive]⟩
  constructor
  · intro x hx
    refine hbits x (h.reserved x hx) fun hi l hz heq => ?_
    have := (h.data i l hi hz).1
    omega
  · intro j j' l l' hj hj' hz heq
    obtain ⟨hji, hlive, haddr⟩ := hne j l hj hz
    obtain ⟨hji', hlive', haddr'⟩ := hne j' l' hj' (heq ▸ hz)
    rw [haddr] at hz
    exact h.unique j j' l l' hlive hlive' hz (by rw [← haddr, heq, haddr'])
  · intro j l hj hz
    obtain ⟨hji, hlive, haddr⟩ := hne j l hj hz
    rw [haddr] at hz ⊢
    refine hbits _ (h.marked j l hlive hz) fun hi l' hz' heq => ?_
    exact hji (h.unique i j l' l hi hlive hz' heq).1.symm
  · intro j l hj hz
    obtain ⟨hji, hlive, haddr⟩ := hne j l hj hz
    rw [haddr] at hz ⊢
    exact h.data j l hlive hz

end OsKernel.Fs
