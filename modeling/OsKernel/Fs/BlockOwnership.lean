import OsKernel.Common.Run
import OsKernel.Fs.Helpers.FileOps

/-!
# Blocks belong to one inode

Every call of the inode layer keeps the invariant of the image and its
inodes in memory, so it holds along every run (`block_ownership`).

The clauses one would write down first (`PlainInv`) are not enough: with
the blocks before the data area unmarked, `cache_alloc` hands out block
`0`, and an inode that holds it has a block that counts as not mapped
(`plainInv_not_kept`).
-/

namespace OsKernel.Fs

open Function

open Cache

variable {sb : SuperBlock} {fs fs' : FS} {m m' : Blocks} {E : ℕ → InodeEntry}
variable {e e' : InodeEntry} {i j k l n c o : ℕ} {ino ino' : Inode}

/-! ## The rule for one inode -/

theorem ShapeAt.congr {B : ℕ} (h : ShapeAt m e B) (haddr : ∀ k, addr m' e k = addr m e k) :
    ShapeAt m' e B :=
  ⟨h.le_max, fun k hk => by rw [haddr k, h.mapped k hk], h.indirect⟩

/-- Entries on disk live in the inode blocks. -/
theorem diskEntry_congr (hlay : Layout sb) (hframe : ∀ y < sb.bitmapStart, m' y = m y)
    (hj : j < sb.numInodes) : diskEntry sb m' j = diskEntry sb m j := by
  rw [diskEntry, diskEntry, hframe _ (hlay.inode_lt j hj)]

/-- Ownership looks at the entries of inodes that exist. -/
theorem Owned.of_eqOn {E' : ℕ → InodeEntry} (h : Owned sb m E) (hlay : Layout sb)
    (heq : ∀ j < sb.numInodes, E' j = E j) : Owned sb m E' := by
  have hlive : ∀ j, Live sb E' j → Live sb E j := fun j hj =>
    ⟨hj.1, hj.2.1, by rw [← heq j hj.2.1]; exact hj.2.2⟩
  exact h.congr hlive (fun j l hj => by rw [heq j hj.2.1]) (fun _ _ hm => hm) hlay

/-- **A call that changes the entry of inode `i` to `e'` keeps the
invariant** if the blocks stay owned, the file has the shape its size asks
for, and the other inodes keep their addresses. -/
theorem Inv.set {r : Option Inode} (hlay : Layout sb) (h : Inv sb fs)
    (howned : Owned sb m' (update (diskEntry sb fs.blocks) i e'))
    (hdisk : ∀ j < sb.numInodes,
      diskEntry sb m' j = update (diskEntry sb fs.blocks) i e' j)
    (hshape : Live sb (update (diskEntry sb fs.blocks) i e') i →
      ShapeAt m' e' (blocksFor e'.numBytes.toNat))
    (hother : ∀ j, j ≠ i → Live sb (diskEntry sb fs.blocks) j → ∀ l,
      addr m' (diskEntry sb fs.blocks j) l = addr fs.blocks (diskEntry sb fs.blocks j) l)
    (hcached : ∀ ino, r = some ino → ino.valid = true ∧ ino.entry = e' ∧
      Live sb (update (diskEntry sb fs.blocks) i e') i) :
    Inv sb (fs.set i m' r) := by
  have hlive : ∀ j, Live sb (diskEntry sb m') j ↔
      Live sb (update (diskEntry sb fs.blocks) i e') j := by
    intro j
    refine and_congr_right fun _ => and_congr_right fun hj => ?_
    rw [hdisk j hj]
  constructor
  · exact howned.of_eqOn hlay hdisk
  · intro j hj
    have hj' := (hlive j).1 hj
    simp only [FS.set] at hj ⊢
    rw [hdisk j hj.2.1]
    by_cases hji : j = i
    · subst hji
      rw [update_self]
      exact hshape hj'
    · rw [update_of_ne hji]
      have hl := (live_update_of_ne hji).1 hj'
      exact (h.shape j hl).congr (hother j hji hl)
  · intro j ino' hino
    by_cases hji : j = i
    · subst hji
      simp only [FS.set, update_self] at hino
      obtain ⟨hvalid, hentry, hl⟩ := hcached ino' hino
      refine ⟨hvalid, (hlive j).2 hl, ?_⟩
      simp only [FS.set]
      rw [hdisk j hl.2.1, update_self, hentry]
    · simp only [FS.set, update_of_ne hji] at hino
      obtain ⟨hvalid, hl, hentry⟩ := h.cached j ino' hino
      refine ⟨hvalid, (hlive j).2 ((live_update_of_ne hji).2 hl), ?_⟩
      simp only [FS.set]
      rw [hdisk j hl.2.1, update_of_ne hji, hentry]

/-- An inode in memory is a file of the size its entry says. -/
theorem Inv.fileAt (h : Inv sb fs) (hino : fs.icache i = some ino) :
    FileAt sb (diskEntry sb fs.blocks) i fs.blocks ino.entry
      (blocksFor ino.entry.numBytes.toNat) := by
  obtain ⟨-, hlive, hentry⟩ := h.cached i ino hino
  have hself : update (diskEntry sb fs.blocks) i ino.entry = diskEntry sb fs.blocks := by
    rw [hentry, update_eq_self]
  refine ⟨by rw [hself]; exact h.owned, by rwa [hself], ?_⟩
  rw [hentry]
  exact h.shape i hlive

/-- An inode in memory with the entry that the disk has. -/
theorem Inv.load (hlay : Layout sb) (h : Inv sb fs) (hlive : Live sb (diskEntry sb fs.blocks) i)
    (rc : ℤ) : Inv sb (fs.set i fs.blocks (some ⟨rc, true, diskEntry sb fs.blocks i⟩)) := by
  have hself := update_eq_self i (diskEntry sb fs.blocks)
  refine h.set hlay ?_ (fun j _ => by rw [hself]) (fun _ => h.shape i hlive)
    (fun _ _ _ _ => rfl) ?_
  · rw [hself]
    exact h.owned
  · rintro ino' ⟨⟩
    exact ⟨rfl, rfl, by rwa [hself]⟩

/-- Putting an inode back that has not changed but in its count. -/
theorem Inv.set_rc (hlay : Layout sb) (h : Inv sb fs) (hino : fs.icache i = some ino) (rc : ℤ) :
    Inv sb (fs.set i fs.blocks (some { ino with rc := rc })) := by
  obtain ⟨hvalid, hlive, hentry⟩ := h.cached i ino hino
  rw [hvalid, hentry]
  exact h.load hlay hlive rc

/-! ## The calls -/

/-- Writing an entry marks no block. -/
theorem bit_putEntry (hi : toBlockNo sb i < sb.bitmapStart) (v : InodeEntry) (x : ℕ) :
    bit sb (putEntry sb m i v) x = bit sb m x :=
  bit_congr (update_of_ne (hi.trans_le (Nat.le_add_right _ _)).ne' _ _)

/-- Entries are written to a block that belongs to no file. -/
theorem FileAt.toBlockNo_lt (h : FileAt sb E i m e n) (hlay : Layout sb) :
    toBlockNo sb i < sb.bitmapStart :=
  hlay.inode_lt i h.live.2.1

/-- Writing the entry of an inode moves no address of a file. -/
theorem addr_putEntry (hlay : Layout sb) (h : Owned sb m E) (hi : toBlockNo sb i < sb.bitmapStart)
    (hj : Live sb E j) (v : InodeEntry) (l : ℕ) :
    addr (putEntry sb m i v) (E j) l = addr m (E j) l := by
  have hb := hlay.bitmapStart_lt
  refine h.addr_frame hj (fun y hy _ => update_of_ne ?_ _ _) l
  have := hy.1
  omega

/-- The addresses depend on the address fields only. -/
theorem addr_of_fields (haddrs : e'.addrs = e.addrs) (hind : e'.indirect = e.indirect) (l : ℕ) :
    addr m e' l = addr m e l := by
  unfold addr
  rw [haddrs, hind]

/-- **Writing the entry of a file back keeps the invariant**, after its
blocks have changed from those of `fs` to those of `m` and `e`, and with
any fields but its type and its addresses set in `e'`. -/
theorem Inv.writeBack {B : ℕ} {r : Option Inode} (hlay : Layout sb) (h : Inv sb fs)
    (hfile : FileAt sb (diskEntry sb fs.blocks) i m e B)
    (hother : ∀ j, j ≠ i → Live sb (diskEntry sb fs.blocks) j → ∀ l,
      addr m (diskEntry sb fs.blocks j) l = addr fs.blocks (diskEntry sb fs.blocks j) l)
    (hinode : ∀ y < sb.bitmapStart, m y = fs.blocks y)
    (htype : e'.type = e.type) (haddrs : e'.addrs = e.addrs) (hind : e'.indirect = e.indirect)
    (hsize : blocksFor e'.numBytes.toNat = B)
    (hr : ∀ ino, r = some ino → ino.valid = true ∧ ino.entry = e') :
    Inv sb (fs.set i (putEntry sb m i e') r) := by
  set E := diskEntry sb fs.blocks
  have hi := hfile.toBlockNo_lt hlay
  have hlive : ∀ j, Live sb (update E i e') j ↔ Live sb (update E i e) j :=
    fun j => live_update_congr htype
  have hput : Owned sb (putEntry sb m i e') (update E i e) :=
    hfile.owned.writeInode hlay hi _
  have haddr : ∀ j, Live sb (update E i e) j → ∀ l,
      addr (putEntry sb m i e') (update E i e j) l =
        addr m (update E i e j) l := fun j hj l =>
    addr_putEntry hlay hfile.owned hi hj e' l
  have howned : Owned sb (putEntry sb m i e') (update E i e') := by
    refine hput.congr (fun j => (hlive j).1) (fun j l hj => ?_) (fun _ _ hm => hm) hlay
    by_cases hji : j = i
    · subst hji
      rw [update_self, update_self]
      exact addr_of_fields haddrs hind l
    · rw [update_of_ne hji, update_of_ne hji]
  refine h.set hlay howned (fun j hj => ?_) (fun _ => ?_) (fun j hji hj l => ?_) fun ino hino => ?_
  · rw [diskEntry_putEntry]
    exact update_congr_of_ne fun _ => diskEntry_congr hlay hinode hj
  · have hself := haddr i hfile.live
    rw [update_self] at hself
    rw [hsize]
    refine ⟨hfile.shape.le_max, fun k hk => ?_, by rw [hind, hfile.shape.indirect]⟩
    rw [addr_of_fields haddrs hind, hself, hfile.shape.mapped k hk]
  · have := haddr j ((live_update_of_ne hji).2 hj) l
    rw [update_of_ne hji] at this
    rw [this]
    exact hother j hji hj l
  · obtain ⟨hvalid, hentry⟩ := hr ino hino
    exact ⟨hvalid, hentry, (hlive i).2 hfile.live⟩

/-- **`inode_write` keeps the invariant.** -/
theorem Inv.write (hlay : Layout sb) (h : Inv sb fs) (hino : fs.icache i = some ino)
    {src : List UInt8} (hsrc : 0 < src.length) (hlen : src.length < 2 ^ 64)
    (hw : inodeWrite sb fs.blocks i ino o src = some (c, m', ino')) :
    Inv sb (fs.set i m' (some ino')) := by
  have hfile := h.fileAt hino
  obtain ⟨hvalid, hlive, hentry⟩ := h.cached i ino hino
  rcases inodeWrite_cases hlay hfile hvalid hsrc hlen hw with
    ⟨-, rfl, rfl⟩ | ⟨-, -, -, hmax, m₁, e₁, hwritten, hend⟩
  · exact h.set_rc hlay hino ino'.rc
  · split_ifs at hend with hgrow
    · obtain ⟨rfl, rfl⟩ := hend
      refine h.writeBack hlay hwritten.file hwritten.other hwritten.inode rfl rfl rfl ?_ ?_
      · rw [max_eq_right hgrow.le]
        refine congrArg blocksFor ?_
        rw [UInt32.toNat_ofNat']
        have hlt : inodeMaxBytes < 2 ^ 32 := by decide
        exact Nat.mod_eq_of_lt (hmax.trans_lt hlt)
      · rintro ino' ⟨⟩
        exact ⟨hvalid, rfl⟩
    · obtain ⟨rfl, rfl, rfl⟩ := hend
      refine h.set hlay hwritten.file.owned (fun j hj => ?_) (fun _ => ?_)
        (fun j hji hj l => hwritten.other j hji hj l) ?_
      · rw [diskEntry_congr hlay hwritten.inode hj, hentry, update_eq_self]
      · have := hwritten.file.shape
        rwa [max_eq_left (not_lt.1 hgrow)] at this
      · rintro ino'' ⟨⟩
        exact ⟨hvalid, rfl, hwritten.file.live⟩

theorem addr_cleared (m : Blocks) (e : InodeEntry) (type : UInt16) (l : ℕ) :
    addr m { e.cleared with type := type } l = 0 := by
  unfold addr
  simp only [InodeEntry.cleared]
  split
  · rfl
  · split
    · rfl
    · split <;> rfl

/-- An entry without addresses is an empty file. -/
theorem shapeAt_cleared (m : Blocks) (e : InodeEntry) (type : UInt16) :
    ShapeAt m { e.cleared with type := type } (blocksFor (0 : UInt32).toNat) := by
  have hz : blocksFor (0 : UInt32).toNat = 0 := rfl
  rw [hz]
  refine ⟨Nat.zero_le _, fun k _ => ?_, ?_⟩
  · rw [addr_cleared]
    exact ⟨fun hne => absurd rfl hne, fun hlt => absurd hlt (Nat.not_lt_zero k)⟩
  · exact ⟨fun hne => absurd rfl hne, fun hlt => absurd hlt (Nat.not_lt_zero _)⟩

/-- **`inode_clear` keeps the invariant**, also when `inode_put` goes on to
free the inode: `type` is the type that is left in the entry. -/
theorem Inv.clear (hlay : Layout sb) (h : Inv sb fs) (hino : fs.icache i = some ino) {m₂ : Blocks}
    (hfreed : Freed sb fs.blocks ino.entry m₂) (type : UInt16) {r : Option Inode}
    (hframe : ∀ y, y ≠ toBlockNo sb i → m' y = m₂ y)
    (hdisk : diskEntry sb m' = update (diskEntry sb m₂) i
      { ino.entry.cleared with type := type })
    (hr : ∀ ino', r = some ino' → ino'.valid = true ∧
      ino'.entry = { ino.entry.cleared with type := type } ∧ type ≠ inodeInvalid) :
    Inv sb (fs.set i m' r) := by
  have hfile := h.fileAt hino
  have hi := hfile.toBlockNo_lt hlay
  have hb := hlay.bitmapStart_lt
  obtain ⟨-, hlive, hentry⟩ := h.cached i ino hino
  set e' : InodeEntry := { ino.entry.cleared with type := type }
  set E := diskEntry sb fs.blocks
  have hdata : ∀ y, dataStart sb ≤ y → m' y = fs.blocks y := fun y hy => by
    rw [hframe y (by omega), hfreed.frame y (Or.inr hy)]
  have hother : ∀ j, j ≠ i → Live sb E j → ∀ l, addr m' (E j) l = addr fs.blocks (E j) l :=
    fun j _ hj l => h.owned.addr_frame hj (fun y hy _ => hdata y hy.1) l
  have hbit : ∀ x, bit sb m' x = bit sb m₂ x := fun x => by
    refine bit_congr (hframe _ ?_)
    exact (hi.trans_le (Nat.le_add_right _ _)).ne'
  have howned : Owned sb m' (update E i e') := by
    refine h.owned.release (fun l => addr_cleared m' ino.entry type l) (fun x hx hne => ?_) hother
    have hne := hne hlive
    rw [hbit x]
    refine hfreed.bits x hx fun l => ?_
    rw [hentry]
    exact hne l
  refine h.set hlay howned (fun j hj => ?_) (fun _ => ?_) hother fun ino' hino' => ?_
  · rw [hdisk]
    exact update_congr_of_ne fun _ =>
      diskEntry_congr hlay (fun y hy => hfreed.frame y (Or.inl hy)) hj
  · exact shapeAt_cleared m' ino.entry type
  · obtain ⟨hvalid, hent, htype⟩ := hr ino' hino'
    refine ⟨hvalid, hent, hlive.1, hlive.2.1, ?_⟩
    rw [update_self]
    exact htype

/-- An inode that is not allocated is not in memory. -/
theorem Inv.icache_eq_none (h : Inv sb fs) (hfree : (diskEntry sb fs.blocks i).type = inodeInvalid) :
    fs.icache i = none := by
  cases hc : fs.icache i with
  | none => rfl
  | some ino => exact absurd hfree (h.cached i ino hc).2.1.2.2

/-- **A free inode gets an empty entry.** -/
theorem Inv.create (hlay : Layout sb) (h : Inv sb fs) (hi : 0 < i ∧ i < sb.numInodes)
    (hfree : (diskEntry sb fs.blocks i).type = inodeInvalid) (e : InodeEntry) (type : UInt16) :
    Inv sb { fs with blocks := putEntry sb fs.blocks i { e.cleared with type := type } } := by
  have hblock := hlay.inode_lt i hi.2
  set e' : InodeEntry := { e.cleared with type := type }
  set E := diskEntry sb fs.blocks
  have hzero : ∀ m l, addr m e' l = 0 := fun m l => addr_cleared m e type l
  have hother : ∀ j, j ≠ i → Live sb E j → ∀ l,
      addr (putEntry sb fs.blocks i e') (E j) l = addr fs.blocks (E j) l :=
    fun j _ hj l => addr_putEntry hlay h.owned hblock hj e' l
  -- the inode was not allocated, so nobody has it in memory
  have hcache : fs.icache i = none := h.icache_eq_none hfree
  have hset : ({ fs with blocks := putEntry sb fs.blocks i e' } : FS) =
      fs.set i (putEntry sb fs.blocks i e') none := by
    rw [FS.set, ← hcache, update_eq_self]
  rw [hset]
  have howned : Owned sb (putEntry sb fs.blocks i e') (update E i e') := by
    refine h.owned.release (hzero _) (fun x hx _ => ?_) hother
    have hne : bitmapBlock sb x ≠ toBlockNo sb i :=
      (hblock.trans_le (Nat.le_add_right _ _)).ne'
    rwa [putEntry, bit_congr (update_of_ne hne _ _)]
  exact h.set hlay howned (fun j _ => by rw [diskEntry_putEntry])
    (fun _ => shapeAt_cleared _ e type) hother (fun ino hino => by cases hino)

/-- **What `inode_alloc` returns**: a free inode, whose entry is cleared. -/
theorem inodeAlloc_spec {type : UInt16} (ha : inodeAlloc sb m type = some (i, m')) :
    type ≠ inodeInvalid ∧ (0 < i ∧ i < sb.numInodes) ∧
      (diskEntry sb m i).type = inodeInvalid ∧
      m' = putEntry sb m i { InodeEntry.zero with type := type } := by
  unfold inodeAlloc at ha
  split_ifs at ha with htype
  split at ha
  · cases ha
  · rename_i i' hfind
    simp only [Option.some_inj, Prod.mk.injEq] at ha
    obtain ⟨rfl, rfl⟩ := ha
    have hi := List.mem_range'_1.1 (List.mem_of_find?_eq_some hfind)
    exact ⟨htype, by omega, by simpa using List.find?_some hfind, rfl⟩

/-- **`inode_alloc` keeps the invariant.** -/
theorem Inv.alloc (hlay : Layout sb) (h : Inv sb fs) {type : UInt16}
    (ha : inodeAlloc sb fs.blocks type = some (i, m')) :
    Inv sb { fs with blocks := m' } := by
  obtain ⟨-, hi, hfree, rfl⟩ := inodeAlloc_spec ha
  exact h.create hlay hi hfree InodeEntry.zero type

/-- **`inode_get` keeps the invariant.** -/
theorem Inv.get (hlay : Layout sb) (h : Inv sb fs) (hg : fs.inodeGet sb i = some fs') :
    Inv sb fs' := by
  obtain ⟨hi, hg⟩ := of_guarded hg
  split at hg
  · rename_i ino hino
    obtain rfl := Option.some.inj hg
    exact h.set_rc hlay hino _
  · simp only [inodeSync, Bool.false_and, Bool.false_eq_true, if_false, Bool.not_false,
      if_true] at hg
    split_ifs at hg with htype
    obtain rfl := Option.some.inj hg
    exact h.load hlay ⟨hi.1, hi.2, htype⟩ 1

/-- **`inode_put` keeps the invariant.** -/
theorem Inv.put (hlay : Layout sb) (h : Inv sb fs) (hp : fs.inodePut sb i = some fs') :
    Inv sb fs' := by
  unfold FS.inodePut at hp
  split at hp
  · cases hp
  · rename_i ino hino
    have hvalid := (h.cached i ino hino).1
    split at hp
    · obtain ⟨⟨m₁, ino₁⟩, hclear, hp⟩ := Option.bind_eq_some_iff.1 hp
      obtain ⟨rfl, m₂, hfreed, rfl⟩ := inodeClear_spec (h.fileAt hino) hvalid hclear
      simp only [inodeSync, hvalid, Bool.and_true, if_true, Option.some_inj] at hp
      subst hp
      refine h.clear hlay hino hfreed inodeInvalid (fun y hy => ?_) ?_ (fun ino' hino' => by
        cases hino')
      · rw [putEntry, update_of_ne hy, putEntry, update_of_ne hy]
      · rw [diskEntry_putEntry, diskEntry_putEntry, update_idem]
    · obtain rfl := Option.some.inj hp
      exact h.set_rc hlay hino _

/-! ## Directories -/

variable {console : ℕ → List UInt8} {de : List UInt8} {name : Bytes fileNameMaxLength}

theorem lookupLoop_keep (h : ShapeAt m e (blocksFor e.numBytes.toNat)) :
    ∀ {k o : ℕ} {r : ℕ × ℕ}, lookupLoop sb console de name k o m e = some (r, m', e') →
      m' = m ∧ e' = e := by
  intro k
  induction k with
  | zero =>
    intro o r hl
    cases hl
    exact ⟨rfl, rfl⟩
  | succ k ih =>
    intro o r hl
    rw [lookupLoop] at hl
    split at hl
    · obtain ⟨⟨l, m₁, e₁⟩, hread, hrest⟩ := Option.bind_eq_some_iff.1 hl
      obtain ⟨rfl, rfl⟩ := inodeRead_keep h (by decide) hread
      simp only at hrest
      split at hrest
      · cases hrest
        exact ⟨rfl, rfl⟩
      · exact ih hrest
    · cases hl
      exact ⟨rfl, rfl⟩

theorem freeSlotLoop_keep (h : ShapeAt m e (blocksFor e.numBytes.toNat)) :
    ∀ {k o : ℕ} {de : List UInt8} {r : ℕ × List UInt8},
      freeSlotLoop sb console k o de m e = some (r, m', e') → m' = m ∧ e' = e := by
  intro k
  induction k with
  | zero =>
    intro o de r hl
    cases hl
    exact ⟨rfl, rfl⟩
  | succ k ih =>
    intro o de r hl
    rw [freeSlotLoop] at hl
    split at hl
    · obtain ⟨⟨l, m₁, e₁⟩, hread, hrest⟩ := Option.bind_eq_some_iff.1 hl
      obtain ⟨rfl, rfl⟩ := inodeRead_keep h (by decide) hread
      simp only at hrest
      split at hrest
      · cases hrest
        exact ⟨rfl, rfl⟩
      · exact ih hrest
    · cases hl
      exact ⟨rfl, rfl⟩

theorem DirEntry.length_toBytes (d : DirEntry) : d.toBytes.length = 16 := by
  simp [DirEntry.toBytes]

/-- **`inode_insert` keeps the invariant.** -/
theorem Inv.insert (hlay : Layout sb) (h : Inv sb fs) (hino : fs.icache i = some ino)
    {r : Option ℕ} (hins : inodeInsert sb console de fs.blocks i ino name n = some (r, m', ino')) :
    Inv sb (fs.set i m' (some ino')) := by
  have hshape := (h.fileAt hino).shape
  by_cases hdir : ino.entry.type = inodeDirectory
  · rw [inodeInsert, if_pos hdir] at hins
    obtain ⟨⟨found, m₁, e₁⟩, hlook, hrest⟩ := Option.bind_eq_some_iff.1 hins
    rw [inodeLookup, if_pos hdir] at hlook
    obtain ⟨rfl, rfl⟩ := lookupLoop_keep hshape hlook
    simp only at hrest
    split at hrest
    · simp only [Option.some_inj, Prod.mk.injEq] at hrest
      obtain ⟨-, rfl, rfl⟩ := hrest
      exact h.set_rc hlay hino ino.rc
    · obtain ⟨⟨slot, m₂, e₂⟩, hslot, hrest⟩ := Option.bind_eq_some_iff.1 hrest
      obtain ⟨rfl, rfl⟩ := freeSlotLoop_keep hshape hslot
      obtain ⟨⟨c, m₃, ino₃⟩, hwrite, hrest⟩ := Option.bind_eq_some_iff.1 hrest
      simp only [Option.some_inj, Prod.mk.injEq] at hrest
      obtain ⟨-, rfl, rfl⟩ := hrest
      refine h.write hlay hino ?_ ?_ hwrite <;> rw [DirEntry.length_toBytes] <;> decide
  · rw [inodeInsert, if_neg hdir] at hins
    cases hins

/-- **`inode_remove` keeps the invariant.** -/
theorem Inv.remove (hlay : Layout sb) (h : Inv sb fs) (hino : fs.icache i = some ino)
    (hrem : inodeRemove sb fs.blocks i ino n = some (m', ino')) :
    Inv sb (fs.set i m' (some ino')) := by
  unfold inodeRemove at hrem
  split at hrem
  · split at hrem
    · obtain ⟨⟨c, m₁, ino₁⟩, hwrite, hrem⟩ := Option.bind_eq_some_iff.1 hrem
      simp only [Option.some_inj, Prod.mk.injEq] at hrem
      obtain ⟨rfl, rfl⟩ := hrem
      refine h.write hlay hino ?_ ?_ hwrite <;> rw [DirEntry.length_toBytes] <;> decide
    · simp only [Option.some_inj, Prod.mk.injEq] at hrem
      obtain ⟨rfl, rfl⟩ := hrem
      exact h.set_rc hlay hino ino.rc
  · cases hrem

/-! ## Runs -/

/-- The arguments of a call fit their C types, and a write writes
something. -/
def Op.Ok : Op → Prop
  | .read _ _ count => count < 2 ^ 64
  | .write _ _ src => 0 < src.length ∧ src.length < 2 ^ 64
  | _ => True

/-- **A read changes nothing.** -/
theorem step_read (h : Inv sb fs) (hc : c < 2 ^ 64) (hs : step sb fs (.read i o c) = some fs') :
    fs' = fs := by
  obtain ⟨ino, hino, hs⟩ := Option.bind_eq_some_iff.1 hs
  obtain ⟨⟨l, m₁, e₁⟩, hread, hs⟩ := Option.bind_eq_some_iff.1 hs
  obtain ⟨rfl, rfl⟩ := inodeRead_keep (h.fileAt hino).shape hc hread
  obtain rfl := Option.some.inj hs
  have hself : update fs.icache i (some ino) = fs.icache := by
    rw [← hino, update_eq_self]
  simp only [FS.set, hself]

/-- **Every call keeps the invariant.** -/
theorem Inv.step {op : Op} (hlay : Layout sb) (h : Inv sb fs) (hok : op.Ok)
    (hs : step sb fs op = some fs') : Inv sb fs' := by
  cases op with
  | alloc type =>
    obtain ⟨r, ha, rfl⟩ := Option.map_eq_some_iff.1 hs
    exact h.alloc hlay ha
  | get i => exact h.get hlay hs
  | share i =>
    obtain ⟨ino, hino, rfl⟩ := Option.map_eq_some_iff.1 hs
    exact h.set_rc hlay hino _
  | read i o c =>
    rw [step_read h hok hs]
    exact h
  | write i o src =>
    obtain ⟨ino, hino, hs⟩ := Option.bind_eq_some_iff.1 hs
    obtain ⟨⟨c, m₁, ino₁⟩, hwrite, hs⟩ := Option.bind_eq_some_iff.1 hs
    obtain rfl := Option.some.inj hs
    exact h.write hlay hino hok.1 hok.2 hwrite
  | insert i name n de =>
    obtain ⟨ino, hino, hs⟩ := Option.bind_eq_some_iff.1 hs
    obtain ⟨⟨r, m₁, ino₁⟩, hins, hs⟩ := Option.bind_eq_some_iff.1 hs
    obtain rfl := Option.some.inj hs
    exact h.insert hlay hino hins
  | remove i n =>
    obtain ⟨ino, hino, hs⟩ := Option.bind_eq_some_iff.1 hs
    obtain ⟨⟨m₁, ino₁⟩, hrem, hs⟩ := Option.bind_eq_some_iff.1 hs
    obtain rfl := Option.some.inj hs
    exact h.remove hlay hino hrem
  | clear i =>
    obtain ⟨ino, hino, hs⟩ := Option.bind_eq_some_iff.1 hs
    obtain ⟨⟨m₁, ino₁⟩, hclear, hs⟩ := Option.bind_eq_some_iff.1 hs
    obtain rfl := Option.some.inj hs
    have hvalid := (h.cached i ino hino).1
    obtain ⟨rfl, m₂, hfreed, rfl⟩ := inodeClear_spec (h.fileAt hino) hvalid hclear
    refine h.clear hlay hino hfreed ino.entry.type (fun y hy => update_of_ne hy _ _)
      (diskEntry_putEntry _ _ _ _) ?_
    rintro ino' ⟨⟩
    exact ⟨hvalid, rfl, (h.fileAt hino).live.2.2 ∘ fun hz => by rw [update_self]; exact hz⟩
  | put i => exact h.put hlay hs

/-- **Blocks belong to one inode.** Whatever calls are made on an image
that satisfies the invariant, it is satisfied again, and a read leaves the
disk as it is. -/
theorem block_ownership (hlay : Layout sb) {fs₀ : FS} {tr : List (FS × Op)} (h₀ : Inv sb fs₀)
    (hrun : Run (step sb) fs₀ tr fs) (hok : ∀ x ∈ tr, x.2.Ok) :
    Inv sb fs ∧ PlainInv sb fs ∧
      ∀ i o c fs', c < 2 ^ 64 → step sb fs (.read i o c) = some fs' → fs'.blocks = fs.blocks := by
  have h : Inv sb fs := hrun.invariantOf (K := fun _ op => op.Ok) hok h₀
    fun _ _ _ hI hop hs => hI.step hlay hop hs
  exact ⟨h, h.plain, fun i o c fs' hc hs => by rw [step_read h hc hs]⟩

/-! ## An image with one file -/

/-- The image of `mkfs` with the inode `1`, which is in memory, and the
blocks below `8 * marked` marked. -/
def oneInode (e : InodeEntry) (marked : ℕ) : FS where
  blocks := putEntry mkfsLayout (update zeroDisk mkfsLayout.bitmapStart
    (Bytes.ofFn fun k => if k < marked then 255 else 0)) 1 e
  icache := fun i => if i = 1 then some ⟨1, true, e⟩ else none
  console := fun _ => []

/-- The entry of an empty regular file. -/
def emptyFile : InodeEntry := { InodeEntry.zero with type := inodeRegular }

/-- The same with an empty file. -/
def oneFile (marked : ℕ) : FS := oneInode emptyFile marked

theorem layout_mkfsLayout : Layout mkfsLayout where
  inode_lt := by
    intro i hi
    simp only [mkfsLayout, toBlockNo, inodePerBlock] at *
    omega
  bitmap_lt := by decide

theorem diskEntry_oneInode (e : InodeEntry) (marked : ℕ) :
    diskEntry mkfsLayout (oneInode e marked).blocks 1 = e :=
  diskEntry_putEntry_self _ _ _ _

theorem live_oneInode {marked : ℕ} (htype : e.type ≠ inodeInvalid) :
    Live mkfsLayout (diskEntry mkfsLayout (oneInode e marked).blocks) i ↔ i = 1 := by
  simp only [oneInode, diskEntry_putEntry]
  by_cases hi : i = 1
  · subst hi
    simp only [Live, update_self, iff_true]
    exact ⟨by decide, by decide, htype⟩
  · simp only [Live, update_of_ne hi, hi, iff_false, not_and, not_not]
    intro _ hlt
    have hne : toBlockNo mkfsLayout i ≠ mkfsLayout.bitmapStart :=
      (layout_mkfsLayout.inode_lt i hlt).ne
    rw [diskEntry, update_of_ne hne]
    simp only [zeroDisk, InodeEntry.decode, Bytes.readLE_zero]
    rfl

/-- The inode in memory is the one on the disk. -/
theorem cached_oneInode {marked : ℕ} (hi : (oneInode e marked).icache i = some ino) :
    i = 1 ∧ ino.valid = true ∧ ino.entry = e := by
  obtain ⟨h1, rfl⟩ := of_guard hi
  exact ⟨h1, rfl, rfl⟩

section OneInode

variable {type : UInt16} (htype : type ≠ inodeInvalid) (e : InodeEntry) (marked : ℕ)

include htype

theorem plainInv_oneInode :
    PlainInv mkfsLayout (oneInode { e.cleared with type := type } marked) where
  unique := by
    intro i j k l hi _ hne
    rw [(live_oneInode htype).1 hi, diskEntry_oneInode, addr_cleared] at hne
    exact absurd rfl hne
  marked := by
    intro i k hi hne
    rw [(live_oneInode htype).1 hi, diskEntry_oneInode, addr_cleared] at hne
    exact absurd rfl hne
  shape := by
    intro i hi
    rw [(live_oneInode htype).1 hi, diskEntry_oneInode]
    exact shapeAt_cleared _ e type
  cached := by
    intro i ino hi _
    obtain ⟨rfl, -, hentry⟩ := cached_oneInode hi
    rw [hentry, diskEntry_oneInode]

/-- An empty file or directory, with the blocks before the data marked. -/
theorem inv_oneInode : Inv mkfsLayout (oneInode { e.cleared with type := type } 12) where
  owned :=
    { reserved := fun n hn => by
        rw [oneInode, bit_putEntry (by decide)]
        revert n
        decide +kernel
      unique := (plainInv_oneInode htype e 12).unique
      marked := (plainInv_oneInode htype e 12).marked
      data := by
        intro i k hi hne
        rw [(live_oneInode htype).1 hi, diskEntry_oneInode, addr_cleared] at hne
        exact absurd rfl hne }
  shape := (plainInv_oneInode htype e 12).shape
  cached := by
    intro i ino hi
    obtain ⟨rfl, hvalid, hentry⟩ := cached_oneInode hi
    refine ⟨hvalid, (live_oneInode htype).2 rfl, ?_⟩
    rw [hentry, diskEntry_oneInode]

end OneInode

theorem plainInv_oneFile (marked : ℕ) : PlainInv mkfsLayout (oneFile marked) :=
  plainInv_oneInode (by decide) InodeEntry.zero marked

/-- **The plain clauses are not kept.** With no block marked, a write of
one byte to an empty file gets block `0`, and the file then has one byte
and no block. -/
theorem plainInv_not_kept :
    PlainInv mkfsLayout (oneFile 0) ∧ ∃ fs',
      step mkfsLayout (oneFile 0) (.write 1 0 [7]) = some fs' ∧ ¬ PlainInv mkfsLayout fs' := by
  refine ⟨plainInv_oneFile 0, ?_⟩
  have hread : (step mkfsLayout (oneFile 0) (.write 1 0 [7])).map (fun fs' =>
      ((diskEntry mkfsLayout fs'.blocks 1).type, (diskEntry mkfsLayout fs'.blocks 1).numBytes,
        addr fs'.blocks (diskEntry mkfsLayout fs'.blocks 1) 0)) = some (2, 1, 0) := by
    decide +kernel
  obtain ⟨fs', hs, heq⟩ := Option.map_eq_some_iff.1 hread
  simp only [Prod.mk.injEq] at heq
  obtain ⟨htype, hsize, haddr⟩ := heq
  refine ⟨fs', hs, fun hinv => ?_⟩
  have hlive : Live mkfsLayout (diskEntry mkfsLayout fs'.blocks) 1 :=
    ⟨by decide, by decide, by rw [htype]; decide⟩
  have hmapped := ((hinv.shape 1 hlive).mapped 0 (by decide)).2
  rw [hsize] at hmapped
  exact hmapped (by decide) haddr

theorem inv_oneFile : Inv mkfsLayout (oneFile 12) :=
  inv_oneInode (by decide) InodeEntry.zero

/-- A file is written, read back and cleared. -/
theorem block_ownership_writeReadClear : ∃ tr fs,
    Run (step mkfsLayout) (oneFile 12) tr fs ∧ tr.length = 3 ∧ Inv mkfsLayout fs := by
  obtain ⟨fs, hfs⟩ := Option.isSome_iff_exists.1 (show (exec (step mkfsLayout) (oneFile 12)
    [.write 1 0 [7], .read 1 0 1, .clear 1]).isSome by decide +kernel)
  have hrun := Run.of_exec hfs
  refine ⟨_, fs, hrun, ?_, (block_ownership layout_mkfsLayout inv_oneFile hrun
    (forall_execTrace hfs ?_)).1⟩
  · rw [← List.length_map Prod.snd, map_snd_execTrace hfs]
    rfl
  · simp [Op.Ok]

end OsKernel.Fs
