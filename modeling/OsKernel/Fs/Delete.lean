import OsKernel.Fs.FileContent
import OsKernel.Fs.Helpers.Acquire

/-!
# Deleting a file gives back what it used

An inode is allocated and opened, written to any number of times, and put
with no link to it. `Used` is the invariant of the writes: the bits that
are set are those that were set before and those of the blocks that the
inode holds, which were all free. So `inode_put`, which clears the inode,
leaves the bitmap and the set of allocated inodes as they were
(`delete_gives_back`).
-/

namespace OsKernel.Fs

open Function

open Cache

variable {sb : SuperBlock} {fs fs' fs₀ : FS} {m m' : Blocks} {ino : Inode}
variable {i j x : ℕ} {type : UInt16}

/-- A write to inode `i` of at least one byte. -/
def Op.WritesTo (i : ℕ) (op : Op) : Prop :=
  ∃ o src, op = .write i o src ∧ 0 < src.length ∧ src.length < 2 ^ 64

/-- The writes `ws` to inode `i`, each with its offset and its bytes. -/
def writesTo (i : ℕ) (ws : List (ℕ × List UInt8)) : List Op := ws.map fun w => .write i w.1 w.2

/-- The entry of an inode that `inode_alloc` has just allocated. -/
def newEntry (type : UInt16) : InodeEntry := { InodeEntry.zero with type := type }

theorem addr_newEntry (m : Blocks) (type : UInt16) (l : ℕ) : addr m (newEntry type) l = 0 :=
  addr_cleared m InodeEntry.zero type l

theorem not_holdsBlock_newEntry (m : Blocks) (type : UInt16) (x : ℕ) :
    ¬ HoldsBlock m (newEntry type) x :=
  fun ⟨l, hne, _⟩ => hne (addr_newEntry m type l)

/-- **Inode `i` has been allocated on the image `fs₀` and used**, and its
opener has the only reference. -/
structure Used (sb : SuperBlock) (fs₀ : FS) (i : ℕ) (type : UInt16) (fs : FS) (ino : Inode) :
    Prop where
  inv : Inv sb fs
  icache : fs.icache = update fs₀.icache i (some ino)
  rc : ino.rc = 1
  links : ino.entry.numLinks = 0
  acquired : Acquired sb fs₀.blocks (newEntry type) fs.blocks ino.entry
  others : ∀ j, j ≠ i → j < sb.numInodes →
    diskEntry sb fs.blocks j = diskEntry sb fs₀.blocks j

theorem Used.cached (h : Used sb fs₀ i type fs ino) : fs.icache i = some ino := by
  rw [h.icache, update_self]

/-- **An inode that is allocated and opened.** -/
theorem used_of_alloc (hlay : Layout sb) (h : Inv sb fs₀)
    (ha : inodeAlloc sb fs₀.blocks type = some (i, m)) :
    ∃ fs, ({ fs₀ with blocks := m } : FS).inodeGet sb i = some fs ∧
      Used sb fs₀ i type fs ⟨1, true, newEntry type⟩ := by
  have halloc := h.alloc hlay ha
  obtain ⟨htype, hi, hfree, rfl⟩ := inodeAlloc_spec ha
  have hnone := h.icache_eq_none hfree
  have hget : ({ fs₀ with blocks := putEntry sb fs₀.blocks i (newEntry type) } : FS).inodeGet sb i =
      some (({ fs₀ with blocks := putEntry sb fs₀.blocks i (newEntry type) } : FS).set i
        (putEntry sb fs₀.blocks i (newEntry type)) (some ⟨1, true, newEntry type⟩)) := by
    simp only [FS.inodeGet, if_pos hi, hnone, inodeSync, Bool.false_and, Bool.false_eq_true,
      if_false, Bool.not_false, if_true, diskEntry_putEntry_self]
    exact if_neg htype
  refine ⟨_, hget, halloc.get hlay hget, rfl, rfl, rfl, ?_, fun j hji _ => ?_⟩
  · have hblock := hlay.inode_lt i hi.2
    exact Acquired.of_congr (fun x _ => bit_putEntry hblock _ x) fun l =>
      (addr_newEntry _ type l).trans (addr_newEntry _ type l).symm
  · exact diskEntry_putEntry_of_ne hji

/-- **A write to the inode.** -/
theorem Used.write (hlay : Layout sb) (h : Used sb fs₀ i type fs ino) {o : ℕ} {src : List UInt8}
    (hsrc : 0 < src.length) (hlen : src.length < 2 ^ 64)
    (hs : step sb fs (.write i o src) = some fs') : ∃ ino', Used sb fs₀ i type fs' ino' := by
  obtain ⟨ino₁, hino, hs⟩ := Option.bind_eq_some_iff.1 hs
  obtain rfl : ino = ino₁ := Option.mem_unique h.cached hino
  obtain ⟨⟨c, m', ino'⟩, hwrite, hs⟩ := Option.bind_eq_some_iff.1 hs
  obtain rfl := Option.some.inj hs
  obtain ⟨hacq, hrc, hlinks, hothers⟩ := acquired_inodeWrite hlay (h.inv.fileAt hino)
    (h.inv.cached i ino hino).1 hsrc hlen hwrite
  refine ⟨ino', h.inv.write hlay hino hsrc hlen hwrite, ?_, hrc.trans h.rc, hlinks.trans h.links,
    h.acquired.trans hacq, fun j hji hj => (hothers j hji hj).trans (h.others j hji hj)⟩
  rw [FS.set, h.icache, update_idem]

/-- **Any number of writes.** -/
theorem Used.writes (hlay : Layout sb) (h : Used sb fs₀ i type fs ino)
    {ws : List (ℕ × List UInt8)} (hws : ∀ w ∈ ws, 0 < w.2.length ∧ w.2.length < 2 ^ 64)
    (hexec : exec (step sb) fs (writesTo i ws) = some fs') :
    ∃ ino', Used sb fs₀ i type fs' ino' := by
  have hok : ∀ op ∈ writesTo i ws, op.WritesTo i := by
    intro op hop
    obtain ⟨w, hw, rfl⟩ := List.mem_map.1 hop
    exact ⟨w.1, w.2, rfl, hws w hw⟩
  refine (Run.of_exec hexec).invariantOf (K := fun _ op => op.WritesTo i)
    (I := fun fs => ∃ ino, Used sb fs₀ i type fs ino) (forall_execTrace hexec hok) ⟨ino, h⟩ ?_
  rintro fs₁ _ fs₂ ⟨ino₁, h₁⟩ ⟨o, src, rfl, hsrc, hlen⟩ hs
  exact h₁.write hlay hsrc hlen hs

/-- **The last reference is put.** -/
theorem Used.put (hlay : Layout sb) (h : Used sb fs₀ i type fs ino)
    (hfree : (diskEntry sb fs₀.blocks i).type = inodeInvalid) (hnone : fs₀.icache i = none) :
    ∃ fs', fs.inodePut sb i = some fs' ∧
      (∀ x, bitmapBlock sb x < dataStart sb → bit sb fs'.blocks x = bit sb fs₀.blocks x) ∧
      (∀ j, Live sb (diskEntry sb fs'.blocks) j ↔ Live sb (diskEntry sb fs₀.blocks) j) ∧
      fs'.icache = fs₀.icache := by
  have hvalid := (h.inv.cached i ino h.cached).1
  have hfile := h.inv.fileAt h.cached
  obtain ⟨m', hclear, hbits⟩ := inodeClear_bits hlay hfile hvalid
  obtain ⟨-, m₂, hfreed, hm'⟩ := inodeClear_spec hfile hvalid hclear
  set e' : InodeEntry := { ino.entry.cleared with type := inodeInvalid } with he'
  have hput : fs.inodePut sb i = some (fs.set i (putEntry sb m' i e') none) := by
    simp only [FS.inodePut, h.cached, h.rc, h.links, hvalid, and_self, if_true, hclear,
      Option.bind_eq_bind, Option.bind_some, inodeSync, Bool.and_self]
    rfl
  have hblock := hfile.toBlockNo_lt hlay
  refine ⟨_, hput, fun x hx => ?_, fun j => ?_, ?_⟩
  · -- the blocks that the inode holds were free, and all other bits are as before
    have hiff : bit sb (putEntry sb m' i e') x = true ↔ bit sb fs₀.blocks x = true := by
      rw [bit_putEntry hblock, hbits x, h.acquired.bits x hx]
      have hnew := not_holdsBlock_newEntry fs₀.blocks type x
      have hold : HoldsBlock fs.blocks ino.entry x → bit sb fs₀.blocks x = false :=
        fun hx => (h.acquired.free x hx hnew).1
      constructor
      · rintro ⟨hmark | hmark, hno⟩
        · exact hmark
        · exact absurd hmark.1 hno
      · refine fun hmark => ⟨Or.inl hmark, fun hx => ?_⟩
        rw [hold hx] at hmark
        cases hmark
    exact Bool.eq_iff_iff.2 hiff
  · simp only [FS.set]
    rw [diskEntry_putEntry, hm', diskEntry_putEntry, update_idem]
    by_cases hji : j = i
    · subst hji
      simp only [Live, update_self, hfree, he', ne_eq, not_true_eq_false, and_false]
    · rw [live_update_of_ne hji]
      refine and_congr_right fun _ => and_congr_right fun hj => ?_
      rw [diskEntry_congr hlay (fun y hy => hfreed.frame y (Or.inl hy)) hj, h.others j hji hj]
  · simp only [FS.set]
    rw [h.icache, update_idem, ← hnone, update_eq_self]

/-- **Deleting a file gives back what it used**: an inode that is
allocated, opened, written to and put without a link leaves the bitmap and
the set of allocated inodes as they were. And `inode_clear` of any inode in
memory frees the blocks it holds, no others, and leaves an empty entry on
disk. -/
theorem delete_gives_back (hlay : Layout sb) (h : Inv sb fs) :
    (∀ type i m, inodeAlloc sb fs.blocks type = some (i, m) →
      ∃ fs₁, ({ fs with blocks := m } : FS).inodeGet sb i = some fs₁ ∧
        ∀ ws fs₂, (∀ w ∈ ws, 0 < w.2.length ∧ w.2.length < 2 ^ 64) →
          exec (step sb) fs₁ (writesTo i ws) = some fs₂ →
          ∃ fs₃, fs₂.inodePut sb i = some fs₃ ∧
            (∀ x, bitmapBlock sb x < dataStart sb → bit sb fs₃.blocks x = bit sb fs.blocks x) ∧
            (∀ j, Live sb (diskEntry sb fs₃.blocks) j ↔ Live sb (diskEntry sb fs.blocks) j) ∧
            fs₃.icache = fs.icache) ∧
    ∀ i ino, fs.icache i = some ino →
      ∃ m', inodeClear sb fs.blocks i ino = some (m', { ino with entry := ino.entry.cleared }) ∧
        (∀ x, bit sb m' x = true ↔
          bit sb fs.blocks x = true ∧ ¬ HoldsBlock fs.blocks ino.entry x) ∧
        (diskEntry sb m' i).numBytes = 0 ∧ (∀ k, (diskEntry sb m' i).addrs k = 0) ∧
        (diskEntry sb m' i).indirect = 0 := by
  constructor
  · intro type i m ha
    obtain ⟨fs₁, hget, hused⟩ := used_of_alloc hlay h ha
    obtain ⟨-, -, hfree, -⟩ := inodeAlloc_spec ha
    refine ⟨fs₁, hget, fun ws fs₂ hws hexec => ?_⟩
    obtain ⟨ino, hused₂⟩ := hused.writes hlay hws hexec
    exact hused₂.put hlay hfree (h.icache_eq_none hfree)
  · intro i ino hino
    have hvalid := (h.cached i ino hino).1
    obtain ⟨m', hclear, hbits⟩ := inodeClear_bits hlay (h.fileAt hino) hvalid
    obtain ⟨-, m₂, -, rfl⟩ := inodeClear_spec (h.fileAt hino) hvalid hclear
    refine ⟨_, hclear, hbits, ?_⟩
    rw [diskEntry_putEntry_self]
    exact ⟨rfl, fun _ => rfl, rfl⟩

/-- A file of two blocks is made and deleted on an image with another
file. -/
theorem delete_gives_back_twoBlocks : ∃ i m fs₁ fs₂ fs₃,
    inodeAlloc mkfsLayout (oneFile 12).blocks inodeRegular = some (i, m) ∧
      ({ oneFile 12 with blocks := m } : FS).inodeGet mkfsLayout i = some fs₁ ∧
      exec (step mkfsLayout) fs₁ (writesTo i [(0, twoBlocks), (510, [7, 7, 7])]) = some fs₂ ∧
      fs₂.inodePut mkfsLayout i = some fs₃ ∧ bit mkfsLayout fs₃.blocks 96 = false ∧
      bit mkfsLayout fs₃.blocks 97 = false := by
  have hkey : ((inodeAlloc mkfsLayout (oneFile 12).blocks inodeRegular).bind fun r =>
      (({ oneFile 12 with blocks := r.2 } : FS).inodeGet mkfsLayout r.1).bind fun fs₁ =>
        exec (step mkfsLayout) fs₁ (writesTo r.1 [(0, twoBlocks), (510, [7, 7, 7])])).isSome := by
    decide +kernel
  obtain ⟨fs₂, hkey⟩ := Option.isSome_iff_exists.1 hkey
  obtain ⟨⟨i, m⟩, halloc, hkey⟩ := Option.bind_eq_some_iff.1 hkey
  obtain ⟨fs₁', hget', hexec⟩ := Option.bind_eq_some_iff.1 hkey
  obtain ⟨fs₁, hget, hall⟩ := (delete_gives_back layout_mkfsLayout inv_oneFile).1 _ i m halloc
  obtain rfl : fs₁ = fs₁' := Option.mem_unique hget hget'
  obtain ⟨fs₃, hput, hbits, -⟩ := hall _ fs₂ (by simp [length_twoBlocks]) hexec
  refine ⟨i, m, fs₁, fs₂, fs₃, halloc, hget, hexec, hput, ?_⟩
  rw [hbits 96 (by decide), hbits 97 (by decide)]
  decide +kernel

end OsKernel.Fs
