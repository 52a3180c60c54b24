import OsKernel.Common.SlotTable
import OsKernel.Fs.FileContent

/-!
# A directory is a finite map

The bytes of a directory are a table with free slots (`dirSlots`), 16 bytes
a slot; a slot is free if its inode number is zero, and otherwise it binds a
name, up to its first zero byte, to an inode. `inode_lookup`, `inode_insert`
and `inode_remove` are the operations of the table, with byte offsets in
place of slots. `Bound` is the map, and `directory_is_map` says what the
three functions do to it.
-/

namespace OsKernel.Fs

open Function

open Cache

variable {sb : SuperBlock} {fs fs' : FS} {m m' : Blocks} {e e' : InodeEntry}
variable {i j k n c o : ℕ} {ino ino' : Inode} {console : ℕ → List UInt8}
variable {de l : List UInt8} {name : Bytes fileNameMaxLength}

/-! ## Names -/

/-- A name as the kernel compares it: its bytes up to the first zero. -/
def nameOf (name : Bytes fileNameMaxLength) : List UInt8 :=
  ((List.range' 0 fileNameMaxLength).map name.get).takeWhile (· ≠ 0)

/-- `strncmp` compares the names up to the first zero. -/
theorem strncmpEq_iff (a b : Bytes fileNameMaxLength) : ∀ n i : ℕ, strncmpEq a b i n = true ↔
    ((List.range' i n).map a.get).takeWhile (· ≠ 0) =
      ((List.range' i n).map b.get).takeWhile (· ≠ 0) := by
  intro n
  induction n with
  | zero => intro i; simp [strncmpEq]
  | succ n ih =>
    intro i
    rw [strncmpEq, List.range'_succ, List.map_cons, List.map_cons]
    by_cases hab : a.get i = b.get i
    · rw [if_pos hab, ← hab]
      by_cases hz : a.get i = 0
      · simp [hz]
      · simp [hz, ih]
    · rw [if_neg hab]
      by_cases ha : a.get i = 0 <;> by_cases hb : b.get i = 0
      · exact absurd (ha.trans hb.symm) hab
      · simp [ha, hb]
      · simp [ha, hb]
      · simp [ha, hb, hab]

theorem strncmpEq_iff_nameOf {a b : Bytes fileNameMaxLength} :
    strncmpEq a b 0 fileNameMaxLength = true ↔ nameOf a = nameOf b :=
  strncmpEq_iff a b fileNameMaxLength 0

/-! ## Slots -/

/-- What a directory entry binds. -/
def DirEntry.slot (d : DirEntry) : Option (List UInt8 × ℕ) :=
  if d.inodeNo = 0 then none else some (nameOf d.name, d.inodeNo.toNat)

/-- The bytes of slot `k`. -/
def slotBytes (l : List UInt8) (k : ℕ) : List UInt8 := (l.drop (16 * k)).take 16

/-- The table of a directory with the bytes `l`. -/
def dirSlots (l : List UInt8) : SlotTable (List UInt8) ℕ :=
  (List.range (l.length / 16)).map fun k => (DirEntry.ofBytes (slotBytes l k)).slot

/-- **The map of a directory**: the inode number and the byte offset that a
name is bound to. -/
def Bound (m : Blocks) (e : InodeEntry) (key : List UInt8) : Option (ℕ × ℕ) :=
  ((dirSlots (content m e)).find key).map fun r => (r.2, 16 * r.1)

@[simp] theorem length_dirSlots (l : List UInt8) : (dirSlots l).length = l.length / 16 := by
  simp [dirSlots]

theorem getElem?_dirSlots (hk : k < l.length / 16) :
    (dirSlots l)[k]? = some (DirEntry.ofBytes (slotBytes l k)).slot := by
  simp [dirSlots, hk]

theorem drop_dirSlots (hk : k < l.length / 16) :
    (dirSlots l).drop k = (DirEntry.ofBytes (slotBytes l k)).slot :: (dirSlots l).drop (k + 1) := by
  have hlt : k < (dirSlots l).length := by simpa using hk
  have hget := getElem?_dirSlots hk
  rw [List.getElem?_eq_getElem hlt] at hget
  rw [List.drop_eq_getElem_cons hlt, Option.some.inj hget]

theorem length_slotBytes (hk : k < l.length / 16) : (slotBytes l k).length = 16 := by
  simp only [slotBytes, List.length_take, List.length_drop]
  omega

theorem DirEntry.eq_of_fields {d d' : DirEntry} (hno : d.inodeNo = d'.inodeNo)
    (hname : d.name = d'.name) : d = d' := by
  cases d
  cases d'
  cases hno
  cases hname
  rfl

/-- The 16 bytes of an entry and back. -/
theorem DirEntry.ofBytes_toBytes (d : DirEntry) : DirEntry.ofBytes d.toBytes = d := by
  have hget : ∀ k < 16, d.toBytes.getD k 0 =
      if k < 2 then Bytes.leByte d.inodeNo.toNat k else d.name.get (k - 2) := fun k hk => by
    simp [toBytes, List.getD_eq_getElem?_getD, List.getElem?_range hk]
  refine eq_of_fields ?_ (Bytes.ext_get fun k hk => ?_)
  · rw [ofBytes, hget 0 (by omega), hget 1 (by omega), if_pos (by omega), if_pos (by omega)]
    apply UInt16.toNat_inj.1
    have := d.inodeNo.toNat_lt
    simp only [Bytes.leByte, UInt8.toNat_ofNat', UInt16.toNat_ofNat']
    omega
  · have hk' : k + 2 < 16 := by simp only [fileNameMaxLength] at hk; omega
    rw [ofBytes, Bytes.get_ofFn hk, hget (k + 2) hk', if_neg (by omega)]
    rfl

/-- What is read behind the 16 bytes of an entry does not matter. -/
theorem DirEntry.ofBytes_append (h : l.length = 16) (rest : List UInt8) :
    DirEntry.ofBytes (l ++ rest) = DirEntry.ofBytes l := by
  have hget : ∀ k < 16, (l ++ rest).getD k 0 = l.getD k 0 := fun k hk => by
    rw [List.getD_eq_getElem?_getD, List.getElem?_append_left (by omega),
      ← List.getD_eq_getElem?_getD]
  refine eq_of_fields ?_ (Bytes.ext_get fun k hk => ?_)
  · rw [ofBytes, ofBytes, hget 0 (by omega), hget 1 (by omega)]
  · have hk' : k + 2 < 16 := by simp only [fileNameMaxLength] at hk; omega
    rw [ofBytes, ofBytes, Bytes.get_ofFn hk, Bytes.get_ofFn hk, hget (k + 2) hk']

/-- **Writing an entry changes its slot**, which may be one more at the
end. -/
theorem dirSlots_spliced (hl : l.length % 16 = 0) (hk : 16 * k ≤ l.length) (d : DirEntry) :
    dirSlots (spliced l (16 * k) d.toBytes) = (dirSlots l).put k d.slot := by
  have hlen : d.toBytes.length = 16 := d.length_toBytes
  have hsize : (spliced l (16 * k) d.toBytes).length = max l.length (16 * k + 16) := by
    rw [length_spliced hk, hlen]
  have hbytes : ∀ j, slotBytes (spliced l (16 * k) d.toBytes) j =
      if j = k then d.toBytes else slotBytes l j := fun j => by
    refine List.ext_getElem? fun t => ?_
    rw [slotBytes, List.getElem?_take, List.getElem?_drop, getElem?_spliced hk, hlen]
    split_ifs with ht hin hj hj hj
    · rw [hj]
      congr 1
      omega
    · omega
    · omega
    · rw [slotBytes, List.getElem?_take, List.getElem?_drop, if_pos ht]
    · exact (List.getElem?_eq_none (by omega)).symm
    · rw [slotBytes, List.getElem?_take, if_neg ht]
  refine List.ext_getElem? fun j => ?_
  rw [SlotTable.getElem?_put (by rw [length_dirSlots]; omega)]
  by_cases hj : j < (spliced l (16 * k) d.toBytes).length / 16
  · rw [getElem?_dirSlots hj, hbytes]
    split_ifs with hjk
    · rw [DirEntry.ofBytes_toBytes]
    · rw [getElem?_dirSlots (by rw [hsize] at hj; omega)]
  · rw [hsize] at hj
    rw [List.getElem?_eq_none (by rw [length_dirSlots, hsize]; omega), if_neg (by omega),
      List.getElem?_eq_none (by rw [length_dirSlots]; omega)]

/-! ## The loops -/

/-- What `inode_lookup` returns for what it has found. -/
def found : Option (ℕ × ℕ) → ℕ × ℕ
  | none => (0, 0)
  | some (k, no) => (no, 16 * k)

/-- A read of the loops. -/
theorem read_slot (h : ShapeAt m e (blocksFor e.numBytes.toNat)) (hdev : e.type ≠ inodeDevice)
    (hk : k < e.numBytes.toNat / 16) : inodeRead sb console m e (16 * k) 16 =
      some (slotBytes (content m e) k, m, e) := by
  have hlt := e.numBytes.toNat_lt
  exact inodeRead_content h hdev (by omega) (by omega)

theorem overlay_slot (hk : k < l.length / 16) :
    DirEntry.ofBytes (overlay de (slotBytes l k)) = DirEntry.ofBytes (slotBytes l k) :=
  DirEntry.ofBytes_append (length_slotBytes hk) _

/-- **The loop of `inode_lookup` looks through the table.** -/
theorem lookupLoop_eq (h : ShapeAt m e (blocksFor e.numBytes.toNat))
    (hdev : e.type ≠ inodeDevice) (hsize : e.numBytes.toNat % 16 = 0) :
    ∀ {f k : ℕ}, e.numBytes.toNat / 16 ≤ k + f →
      lookupLoop sb console de name f (16 * k) m e = some (found
        (SlotTable.findFrom (nameOf name) k ((dirSlots (content m e)).drop k)), m, e) := by
  intro f
  induction f with
  | zero =>
    intro k hf
    rw [List.drop_eq_nil_of_le (by simpa using hf)]
    rfl
  | succ f ih =>
    intro k hf
    by_cases hk : k < e.numBytes.toNat / 16
    · have hk' : k < (content m e).length / 16 := by simpa using hk
      rw [lookupLoop, if_pos (by omega), read_slot h hdev hk]
      simp only [Option.bind_eq_bind, Option.bind_some, overlay_slot hk']
      rw [drop_dirSlots hk', DirEntry.slot]
      have hrec := ih (k := k + 1) (by omega)
      by_cases hzero : (DirEntry.ofBytes (slotBytes (content m e) k)).inodeNo = 0
      · rw [if_neg (fun hc => hc.1 hzero), if_pos hzero]
        exact hrec
      · rw [if_neg hzero, SlotTable.findFrom]
        by_cases hname : nameOf name = nameOf (DirEntry.ofBytes (slotBytes (content m e) k)).name
        · rw [if_pos ⟨hzero, strncmpEq_iff_nameOf.2 hname⟩, if_pos hname.symm]
          rfl
        · rw [if_neg (fun hc => hname (strncmpEq_iff_nameOf.1 hc.2)), if_neg (Ne.symm hname)]
          exact hrec
    · rw [lookupLoop, if_neg (by omega), List.drop_eq_nil_of_le (by simp; omega)]
      rfl

/-- **The loop of `inode_insert` looks for a free slot.** -/
theorem freeSlotLoop_eq (h : ShapeAt m e (blocksFor e.numBytes.toNat))
    (hdev : e.type ≠ inodeDevice) (hsize : e.numBytes.toNat % 16 = 0) :
    ∀ {f k : ℕ} {de : List UInt8}, e.numBytes.toNat / 16 ≤ k + f → k ≤ e.numBytes.toNat / 16 →
      ∃ de', freeSlotLoop sb console f (16 * k) de m e = some ((16 * SlotTable.freeFrom k
        ((dirSlots (content m e)).drop k), de'), m, e) := by
  intro f
  induction f with
  | zero =>
    intro k de hf hle
    rw [List.drop_eq_nil_of_le (by simpa using hf)]
    exact ⟨de, rfl⟩
  | succ f ih =>
    intro k de hf hle
    by_cases hk : k < e.numBytes.toNat / 16
    · have hk' : k < (content m e).length / 16 := by simpa using hk
      rw [freeSlotLoop, if_pos (by omega), read_slot h hdev hk]
      simp only [Option.bind_eq_bind, Option.bind_some, overlay_slot hk']
      rw [drop_dirSlots hk', DirEntry.slot]
      by_cases hzero : (DirEntry.ofBytes (slotBytes (content m e) k)).inodeNo = 0
      · rw [if_pos hzero, if_pos hzero]
        exact ⟨_, rfl⟩
      · rw [if_neg hzero, if_neg hzero]
        exact ih (k := k + 1) (by omega) (by omega)
    · rw [freeSlotLoop, if_neg (by omega), List.drop_eq_nil_of_le (by simp; omega)]
      exact ⟨de, rfl⟩

/-! ## The three functions -/

/-- **Inode `i` is a directory**: it is in memory, it has whole entries, and
no name is bound twice. -/
structure IsDir (fs : FS) (i : ℕ) (ino : Inode) : Prop where
  cached : fs.icache i = some ino
  type : ino.entry.type = inodeDirectory
  size : ino.entry.numBytes.toNat % 16 = 0
  unique : (dirSlots (content fs.blocks ino.entry)).Unique

theorem IsDir.not_device (hd : IsDir fs i ino) : ino.entry.type ≠ inodeDevice := by
  rw [hd.type]
  decide

theorem IsDir.content_mod (hd : IsDir fs i ino) : (content fs.blocks ino.entry).length % 16 = 0 := by
  rw [length_content]
  exact hd.size

/-- `inode_lookup` returns what the name is bound to. -/
theorem IsDir.lookup (h : Inv sb fs) (hd : IsDir fs i ino) :
    inodeLookup sb console de fs.blocks ino.entry name =
      some ((Bound fs.blocks ino.entry (nameOf name)).getD (0, 0), fs.blocks, ino.entry) := by
  rw [inodeLookup, if_pos hd.type,
    lookupLoop_eq (k := 0) (h.fileAt hd.cached).shape hd.not_device hd.size (by omega)]
  rw [Bound, List.drop_zero]
  show some (found ((dirSlots (content fs.blocks ino.entry)).find (nameOf name)), _, _) = _
  cases (dirSlots (content fs.blocks ino.entry)).find (nameOf name) <;> rfl

/-- The number of an entry is not zero. -/
theorem ne_zero_of_bound {key : List UInt8} (h : Bound m e key = some (n, o)) : n ≠ 0 := by
  obtain ⟨⟨k, no⟩, hfind, heq⟩ := Option.map_eq_some_iff.1 h
  obtain ⟨rfl, -⟩ : no = n ∧ 16 * k = o := by simpa using heq
  have hslot := SlotTable.find_eq_some hfind
  have hk : k < (content m e).length / 16 := by
    obtain ⟨hlt, -⟩ := List.getElem?_eq_some_iff.1 hslot
    simpa using hlt
  rw [getElem?_dirSlots hk, DirEntry.slot] at hslot
  split_ifs at hslot with hzero
  · cases Option.some.inj hslot
  · obtain ⟨-, rfl⟩ := pair_inj (Option.some.inj hslot)
    exact fun he => hzero (UInt16.toNat_inj.1 he)

/-- **An entry is written to a slot.** -/
theorem IsDir.write (hlay : Layout sb) (h : Inv sb fs) (hd : IsDir fs i ino) {d : DirEntry}
    (hk : k ≤ (dirSlots (content fs.blocks ino.entry)).length)
    (hw : inodeWrite sb fs.blocks i ino (16 * k) d.toBytes = some (c, m', ino'))
    (hunique : ((dirSlots (content fs.blocks ino.entry)).put k d.slot).Unique) :
    IsDir (fs.set i m' (some ino')) i ino' ∧
      dirSlots (content m' ino'.entry) = (dirSlots (content fs.blocks ino.entry)).put k d.slot := by
  have hlen : d.toBytes.length = 16 := d.length_toBytes
  have hmod := hd.content_mod
  have hle : 16 * k ≤ (content fs.blocks ino.entry).length := by
    rw [length_dirSlots] at hk
    omega
  obtain ⟨-, htype, hcontent⟩ := inodeWrite_content hlay h hd.cached hd.not_device
    (by rw [hlen]; decide) hw (by rw [hlen]; decide)
  have hslots : dirSlots (content m' ino'.entry) =
      (dirSlots (content fs.blocks ino.entry)).put k d.slot := by
    rw [hcontent, dirSlots_spliced hmod hle]
  have hsize : ino'.entry.numBytes.toNat % 16 = 0 := by
    rw [← length_content m' ino'.entry, hcontent, length_spliced hle, hlen]
    omega
  refine ⟨⟨update_self _ _ _, htype.trans hd.type, hsize, ?_⟩, hslots⟩
  show (dirSlots (content m' ino'.entry)).Unique
  rw [hslots]
  exact hunique

/-- `inode_insert` of a name that is bound changes nothing. -/
theorem IsDir.insert_bound (h : Inv sb fs) (hd : IsDir fs i ino) {r : ℕ × ℕ}
    (hb : Bound fs.blocks ino.entry (nameOf name) = some r) :
    inodeInsert sb console de fs.blocks i ino name n = some (none, fs.blocks, ino) := by
  rw [inodeInsert, if_pos hd.type, hd.lookup h, hb]
  simp only [Option.bind_eq_bind, Option.bind_some, Option.getD_some]
  rw [if_pos (ne_zero_of_bound hb)]

/-- The slot of a new name. -/
def newSlot (fs : FS) (ino : Inode) : ℕ :=
  SlotTable.freeFrom 0 (dirSlots (content fs.blocks ino.entry))

/-- `inode_insert` of a name that is not bound writes an entry to the first
free slot. -/
theorem IsDir.insert_unbound (h : Inv sb fs) (hd : IsDir fs i ino)
    (hb : Bound fs.blocks ino.entry (nameOf name) = none) :
    inodeInsert sb console de fs.blocks i ino name n =
      (inodeWrite sb fs.blocks i ino (16 * newSlot fs ino)
        (DirEntry.toBytes ⟨UInt16.ofNat n, name⟩)).map fun r =>
          (some (16 * newSlot fs ino), r.2.1, r.2.2) := by
  obtain ⟨de', hfree⟩ : ∃ de', freeSlotLoop sb console (ino.entry.numBytes.toNat / 16 + 1) 0 de
      fs.blocks ino.entry = some ((16 * newSlot fs ino, de'), fs.blocks, ino.entry) :=
    freeSlotLoop_eq (k := 0) (h.fileAt hd.cached).shape hd.not_device hd.size (by omega)
      (Nat.zero_le _)
  rw [inodeInsert, if_pos hd.type, hd.lookup h, hb]
  simp only [Option.bind_eq_bind, Option.bind_some, Option.getD_none, ne_eq, not_true_eq_false,
    if_false, hfree]
  rw [Option.map_eq_bind]
  rfl

/-- **A new name is bound**, and all others keep what they are bound to. -/
theorem IsDir.insert_spec (hlay : Layout sb) (h : Inv sb fs) (hd : IsDir fs i ino)
    (hn : 1 ≤ n) (hn' : n ≤ 65535) (hb : Bound fs.blocks ino.entry (nameOf name) = none)
    {r : Option ℕ} (hins : inodeInsert sb console de fs.blocks i ino name n = some (r, m', ino')) :
    ∃ o, r = some o ∧ IsDir (fs.set i m' (some ino')) i ino' ∧
      Bound m' ino'.entry =
        update (Bound fs.blocks ino.entry) (nameOf name) (some (n, o)) := by
  rw [hd.insert_unbound h hb] at hins
  obtain ⟨⟨c, m₁, ino₁⟩, hw, heq⟩ := Option.map_eq_some_iff.1 hins
  obtain ⟨rfl, rfl, rfl⟩ : some (16 * newSlot fs ino) = r ∧ m₁ = m' ∧ ino₁ = ino' := by
    simpa using heq
  have hfind : (dirSlots (content fs.blocks ino.entry)).find (nameOf name) = none :=
    Option.map_eq_none_iff.1 hb
  have hfree : (dirSlots (content fs.blocks ino.entry)).Free (newSlot fs ino) :=
    SlotTable.free_freeFrom _
  have hno : (UInt16.ofNat n).toNat = n := by
    rw [UInt16.toNat_ofNat']
    omega
  have hslot : DirEntry.slot ⟨UInt16.ofNat n, name⟩ = some (nameOf name, n) := by
    have hne : UInt16.ofNat n ≠ 0 := fun he => by
      rw [he] at hno
      have : (0 : UInt16).toNat = 0 := rfl
      omega
    rw [DirEntry.slot, if_neg hne, hno]
  have hunique := hd.unique.put (v := n) hfree hfind
  rw [← hslot] at hunique
  obtain ⟨hd', hslots⟩ := hd.write hlay h hfree.1 hw hunique
  refine ⟨_, rfl, hd', funext fun key => ?_⟩
  rw [Bound, hslots, hslot, hd.unique.find_put hfree hfind, update_apply]
  split_ifs <;> rfl

/-- `inode_insert` returns where the directory has room, and the disk the
blocks for it. -/
theorem IsDir.insert_isSome (hlay : Layout sb) (h : Inv sb fs) (hd : IsDir fs i ino)
    (hroom : 16 * newSlot fs ino + 16 ≤ inodeMaxBytes)
    (hfree : blockCost (blocksFor ino.entry.numBytes.toNat) (blocksFor
      (max ino.entry.numBytes.toNat (16 * newSlot fs ino + 16))) ≤ freeCount sb fs.blocks) :
    ∃ r, inodeInsert sb console de fs.blocks i ino name n = some r := by
  cases hb : Bound fs.blocks ino.entry (nameOf name) with
  | some r => exact ⟨_, hd.insert_bound h hb⟩
  | none =>
    have hlen : (DirEntry.toBytes ⟨UInt16.ofNat n, name⟩).length = 16 := DirEntry.length_toBytes _
    have hslot : newSlot fs ino ≤ (dirSlots (content fs.blocks ino.entry)).length :=
      (SlotTable.free_freeFrom _).1
    have hle : 16 * newSlot fs ino ≤ ino.entry.numBytes.toNat := by
      rw [length_dirSlots, length_content] at hslot
      omega
    obtain ⟨r, hw⟩ : ∃ r, inodeWrite sb fs.blocks i ino (16 * newSlot fs ino)
        (DirEntry.toBytes ⟨UInt16.ofNat n, name⟩) = some r :=
      inodeWrite_isSome hlay (h.fileAt hd.cached) hd.not_device hle (by rw [hlen]; decide)
        (by rw [hlen]; exact hroom) (by rw [hlen]; exact hfree)
    rw [hd.insert_unbound h hb, hw]
    exact ⟨_, rfl⟩

/-- **A name is unbound**, and all others keep what they are bound to. -/
theorem IsDir.remove_spec (hlay : Layout sb) (h : Inv sb fs) (hd : IsDir fs i ino)
    {key : List UInt8} (hb : Bound fs.blocks ino.entry key = some (n, o)) :
    ∃ m' ino', inodeRemove sb fs.blocks i ino o = some (m', ino') ∧
      IsDir (fs.set i m' (some ino')) i ino' ∧
      Bound m' ino'.entry = update (Bound fs.blocks ino.entry) key none := by
  obtain ⟨⟨k, no⟩, hfind, heq⟩ := Option.map_eq_some_iff.1 hb
  obtain ⟨rfl, rfl⟩ : no = n ∧ 16 * k = o := by simpa using heq
  have hslot := SlotTable.find_eq_some hfind
  have hk : k < (dirSlots (content fs.blocks ino.entry)).length :=
    (List.getElem?_eq_some_iff.1 hslot).1
  have hlt : 16 * k + 16 ≤ ino.entry.numBytes.toNat := by
    rw [length_dirSlots, length_content] at hk
    omega
  have hlen : (DirEntry.toBytes ⟨0, Bytes.zero⟩).length = 16 := DirEntry.length_toBytes _
  have hmax := (h.fileAt hd.cached).shape.le_max
  have hsome : ∃ r, inodeWrite sb fs.blocks i ino (16 * k) (DirEntry.toBytes ⟨0, Bytes.zero⟩) =
      some r := by
    refine inodeWrite_isSome hlay (h.fileAt hd.cached) hd.not_device (by omega)
      (by rw [hlen]; decide) ?_ ?_
    · rw [hlen]
      have := le_blocksFor ino.entry.numBytes.toNat
      have hbound : inodeMaxBlocks * blockSize = inodeMaxBytes := by decide
      have := Nat.mul_le_mul_right blockSize hmax
      omega
    · rw [hlen, max_eq_left hlt, blockCost_self]
      exact Nat.zero_le _
  obtain ⟨⟨c, m', ino'⟩, hw⟩ := hsome
  have hnone : DirEntry.slot ⟨0, Bytes.zero⟩ = none := rfl
  have hunique := hd.unique.clear (Nat.le_of_lt hk)
  rw [← hnone] at hunique
  obtain ⟨hd', hslots⟩ := hd.write hlay h (Nat.le_of_lt hk) hw hunique
  refine ⟨m', ino', ?_, hd', funext fun key' => ?_⟩
  · rw [inodeRemove, if_pos (by omega), if_pos (by omega)]
    simp only [hw, Option.bind_eq_bind, Option.bind_some]
  · rw [Bound, hslots, hnone, hd.unique.find_clear hslot, update_apply]
    split_ifs <;> rfl

/-! ## Runs -/

/-- A call for directory `i`: `inode_insert` of an inode that there may be,
or `inode_remove` at an index that `inode_lookup` returns. -/
def DirOk (sb : SuperBlock) (i : ℕ) (fs : FS) : Op → Prop
  | .insert j _ n _ => j = i ∧ 1 ≤ n ∧ n ≤ 65535
  | .remove j o => j = i ∧ ∃ ino name de n, fs.icache i = some ino ∧ n ≠ 0 ∧
    inodeLookup sb fs.console de fs.blocks ino.entry name = some ((n, o), fs.blocks, ino.entry)
  | _ => False

/-- What `inode_lookup` returns is bound. -/
theorem IsDir.bound_of_lookup (h : Inv sb fs) (hd : IsDir fs i ino) (hn : n ≠ 0)
    (hl : inodeLookup sb console de fs.blocks ino.entry name = some ((n, o), m', e')) :
    Bound fs.blocks ino.entry (nameOf name) = some (n, o) := by
  rw [hd.lookup h] at hl
  obtain ⟨hl, -⟩ := pair_inj hl
  cases hb : Bound fs.blocks ino.entry (nameOf name) with
  | none =>
    rw [hb] at hl
    exact absurd (congrArg Prod.fst hl).symm hn
  | some r =>
    rw [hb] at hl
    exact congrArg some hl

/-- **A call for a directory leaves a directory.** -/
theorem IsDir.step (hlay : Layout sb) (h : Inv sb fs) (hd : IsDir fs i ino) {op : Op}
    (hok : DirOk sb i fs op) (hs : step sb fs op = some fs') :
    Inv sb fs' ∧ ∃ ino', IsDir fs' i ino' := by
  cases op with
  | insert j name n de =>
    obtain ⟨rfl, hn, hn'⟩ := hok
    simp only [step, hd.cached, Option.bind_eq_bind, Option.bind_some] at hs
    obtain ⟨⟨r, m₁, ino₁⟩, hins, hs⟩ := Option.bind_eq_some_iff.1 hs
    obtain rfl := Option.some.inj hs
    refine ⟨h.insert hlay hd.cached hins, ?_⟩
    cases hb : Bound fs.blocks ino.entry (nameOf name) with
    | some x =>
      rw [hd.insert_bound h hb] at hins
      obtain ⟨-, rfl, rfl⟩ : none = r ∧ fs.blocks = m₁ ∧ ino = ino₁ := by simpa using hins
      exact ⟨ino, update_self _ _ _, hd.type, hd.size, hd.unique⟩
    | none =>
      obtain ⟨o, -, hd', -⟩ := hd.insert_spec hlay h hn hn' hb hins
      exact ⟨ino₁, hd'⟩
  | remove j o =>
    obtain ⟨rfl, ino', name, de, n, hino, hn, hl⟩ := hok
    obtain rfl : ino' = ino := Option.mem_unique hino hd.cached
    obtain ⟨m', ino₁, hrem, hd', -⟩ := hd.remove_spec hlay h (hd.bound_of_lookup h hn hl)
    simp only [step, hd.cached, Option.bind_eq_bind, Option.bind_some, hrem] at hs
    obtain rfl := Option.some.inj hs
    exact ⟨h.remove hlay hd.cached hrem, ino₁, hd'⟩
  | _ => exact hok.elim

/-- **A directory is a finite map.** In every run of `inode_insert` and of
`inode_remove` at indexes that `inode_lookup` returns, from a directory with
whole entries and no name bound twice, an empty one among them: no name is
bound twice; `inode_lookup` returns what a name is bound to, or zero;
`inode_insert` returns `-1` exactly if the name is bound, and then changes
nothing, and otherwise it binds the name to the inode and the index that it
returns; it returns whenever there is room for one more entry;
`inode_remove` unbinds the name at its index. All other names keep what
they are bound to. -/
theorem directory_is_map (hlay : Layout sb) {fs₀ : FS} {ino₀ : Inode} {tr : List (FS × Op)}
    (h₀ : Inv sb fs₀) (hd₀ : IsDir fs₀ i ino₀) (hrun : Run (step sb) fs₀ tr fs)
    (hok : ∀ x ∈ tr, DirOk sb i x.1 x.2) :
    ∃ ino, fs.icache i = some ino ∧ ino.entry.type = inodeDirectory ∧
      (∀ (a b : ℕ) (key : List UInt8) (v w : ℕ),
        (dirSlots (content fs.blocks ino.entry))[a]? = some (some (key, v)) →
        (dirSlots (content fs.blocks ino.entry))[b]? = some (some (key, w)) → a = b) ∧
      (∀ de name, inodeLookup sb fs.console de fs.blocks ino.entry name =
        some ((Bound fs.blocks ino.entry (nameOf name)).getD (0, 0), fs.blocks, ino.entry)) ∧
      (∀ de name n r m' ino', 1 ≤ n → n ≤ 65535 →
        inodeInsert sb fs.console de fs.blocks i ino name n = some (r, m', ino') →
        (r = none ↔ Bound fs.blocks ino.entry (nameOf name) ≠ none) ∧
        (r = none → m' = fs.blocks ∧ ino' = ino) ∧
        ∀ o, r = some o → Bound m' ino'.entry =
          update (Bound fs.blocks ino.entry) (nameOf name) (some (n, o))) ∧
      (∀ de name n, (Bound fs.blocks ino.entry (nameOf name) ≠ none ∨
          16 * newSlot fs ino + 16 ≤ inodeMaxBytes ∧
          blockCost (blocksFor ino.entry.numBytes.toNat) (blocksFor
            (max ino.entry.numBytes.toNat (16 * newSlot fs ino + 16))) ≤ freeCount sb fs.blocks) →
        ∃ r, inodeInsert sb fs.console de fs.blocks i ino name n = some r) ∧
      ∀ key n o, Bound fs.blocks ino.entry key = some (n, o) →
        ∃ m' ino', inodeRemove sb fs.blocks i ino o = some (m', ino') ∧
          Bound m' ino'.entry = update (Bound fs.blocks ino.entry) key none := by
  obtain ⟨h, ino, hd⟩ : Inv sb fs ∧ ∃ ino, IsDir fs i ino :=
    hrun.invariantOf (K := DirOk sb i) (I := fun fs => Inv sb fs ∧ ∃ ino, IsDir fs i ino) hok
      ⟨h₀, ino₀, hd₀⟩ fun fs op fs' hI hK hs => by
        obtain ⟨hinv, ino, hdir⟩ := hI
        exact hdir.step hlay hinv hK hs
  refine ⟨ino, hd.cached, hd.type, hd.unique, fun de name => hd.lookup h,
    fun de name n r m' ino' hn hn' hins => ?_, fun de name n hroom => ?_,
    fun key n o hb => ?_⟩
  · cases hb : Bound fs.blocks ino.entry (nameOf name) with
    | some x =>
      rw [hd.insert_bound h hb] at hins
      obtain ⟨rfl, rfl, rfl⟩ : none = r ∧ fs.blocks = m' ∧ ino = ino' := by simpa using hins
      exact ⟨by simp, fun _ => ⟨rfl, rfl⟩, fun o ho => by cases ho⟩
    | none =>
      obtain ⟨o, rfl, -, hbound⟩ := hd.insert_spec hlay h hn hn' hb hins
      refine ⟨by simp, (fun hr => nomatch hr), fun o' ho' => ?_⟩
      rw [hbound, Option.some.inj ho']
  · rcases hroom with hb | ⟨hroom, hfree⟩
    · obtain ⟨x, hb⟩ := Option.ne_none_iff_exists'.1 hb
      exact ⟨_, hd.insert_bound h hb⟩
    · exact hd.insert_isSome hlay h hroom hfree
  · obtain ⟨m', ino', hrem, -, hbound⟩ := hd.remove_spec hlay h hb
    exact ⟨m', ino', hrem, hbound⟩

/-- A lookup that changes nothing, from what it returns. -/
theorem lookup_of_fst {r : ℕ × ℕ} {x : (ℕ × ℕ) × Blocks × InodeEntry} {y : ℕ × ℕ}
    (h : inodeLookup sb console de m e name = some (y, m, e))
    (hx : inodeLookup sb console de m e name = some x) (hr : x.1 = r) :
    inodeLookup sb console de m e name = some (r, m, e) := by
  rw [h] at hx ⊢
  rw [← hr, ← Option.some.inj hx]

/-- Two names are bound in a new directory, and one of them is removed; the
other one, which has no terminator, is still found where it was. -/
theorem directory_is_map_twoNames : ∃ fs₀ ino₀ tr fs ino, IsDir fs₀ 2 ino₀ ∧
    Run (step mkfsLayout) fs₀ tr fs ∧ fs.icache 2 = some ino ∧
    inodeLookup mkfsLayout fs.console [] fs.blocks ino.entry (Bytes.ofFn fun _ => 97) =
      some ((7, 16), fs.blocks, ino.entry) := by
  obtain ⟨dot, hdot⟩ : ∃ dot : Bytes fileNameMaxLength,
    dot = Bytes.ofFn fun k => if k = 0 then 46 else 0 := ⟨_, rfl⟩
  obtain ⟨long, hlong⟩ : ∃ long : Bytes fileNameMaxLength, long = Bytes.ofFn fun _ => 97 :=
    ⟨_, rfl⟩
  have hkey : ((exec (step mkfsLayout) (oneFile 12) [.alloc inodeDirectory, .get 2]).bind fun fs₀ =>
      (fs₀.icache 2).bind fun ino₀ =>
      (exec (step mkfsLayout) fs₀ [.insert 2 dot 5 [], .insert 2 long 7 []]).bind fun fs₁ =>
      (fs₁.icache 2).bind fun ino₁ =>
      (inodeLookup mkfsLayout fs₁.console [] fs₁.blocks ino₁.entry dot).bind fun r₁ =>
      (step mkfsLayout fs₁ (.remove 2 0)).bind fun fs₂ =>
      (fs₂.icache 2).bind fun ino₂ =>
      (inodeLookup mkfsLayout fs₂.console [] fs₂.blocks ino₂.entry long).map fun r₂ =>
        (ino₀.entry.type, ino₀.entry.numBytes, r₁.1, r₂.1)) =
      some (inodeDirectory, 0, (5, 0), (7, 16)) := by
    rw [hdot, hlong]
    decide +kernel
  obtain ⟨fs₀, hfs₀, hkey⟩ := Option.bind_eq_some_iff.1 hkey
  obtain ⟨ino₀, hino₀, hkey⟩ := Option.bind_eq_some_iff.1 hkey
  obtain ⟨fs₁, hfs₁, hkey⟩ := Option.bind_eq_some_iff.1 hkey
  obtain ⟨ino₁, hino₁, hkey⟩ := Option.bind_eq_some_iff.1 hkey
  obtain ⟨r₁, hr₁, hkey⟩ := Option.bind_eq_some_iff.1 hkey
  obtain ⟨fs₂, hfs₂, hkey⟩ := Option.bind_eq_some_iff.1 hkey
  obtain ⟨ino₂, hino₂, hkey⟩ := Option.bind_eq_some_iff.1 hkey
  obtain ⟨r₂, hr₂, heq⟩ := Option.map_eq_some_iff.1 hkey
  simp only [Prod.mk.injEq] at heq
  obtain ⟨htype, hsize, hdotFound, hlongFound⟩ := heq
  have h₀ : Inv mkfsLayout fs₀ := (Run.of_exec hfs₀).invariantOf (K := fun _ op => op.Ok)
    (forall_execTrace hfs₀ (by simp [Op.Ok])) inv_oneFile
    fun _ _ _ hI hK hs => hI.step layout_mkfsLayout hK hs
  have hsize' : ino₀.entry.numBytes.toNat = 0 := by rw [hsize]; rfl
  have hd₀ : IsDir fs₀ 2 ino₀ := by
    refine ⟨hino₀, htype, by rw [hsize'], fun a b key v w ha => ?_⟩
    rw [List.getElem?_eq_none (by rw [length_dirSlots, length_content, hsize']; exact Nat.zero_le a)]
      at ha
    cases ha
  have hok₁ : ∀ x ∈ execTrace (step mkfsLayout) fs₀ [.insert 2 dot 5 [], .insert 2 long 7 []],
      DirOk mkfsLayout 2 x.1 x.2 := fun x hx =>
    forall_execTrace (P := fun op => ∀ fs, DirOk mkfsLayout 2 fs op) hfs₁
      (by simp [DirOk]) x hx x.1
  have hrun₁ := Run.of_exec hfs₁
  obtain ⟨ino, hino, -, -, hlookup₁, -⟩ :=
    directory_is_map layout_mkfsLayout h₀ hd₀ hrun₁ hok₁
  obtain rfl : ino₁ = ino := Option.mem_unique hino₁ hino
  have hrun₂ := Run.snoc hrun₁ hfs₂
  have hok₂ : ∀ x ∈ execTrace (step mkfsLayout) fs₀ [.insert 2 dot 5 [], .insert 2 long 7 []] ++
      [(fs₁, .remove 2 0)], DirOk mkfsLayout 2 x.1 x.2 := fun x hx => by
    rcases List.mem_append.1 hx with hx | hx
    · exact hok₁ x hx
    · obtain rfl := List.mem_singleton.1 hx
      exact ⟨rfl, ino₁, dot, [], 5, hino₁, by decide,
        lookup_of_fst (hlookup₁ [] dot) hr₁ hdotFound⟩
  obtain ⟨ino, hino, -, -, hlookup₂, -⟩ :=
    directory_is_map layout_mkfsLayout h₀ hd₀ hrun₂ hok₂
  obtain rfl : ino₂ = ino := Option.mem_unique hino₂ hino
  refine ⟨fs₀, ino₀, _, fs₂, ino₂, hd₀, hrun₂, hino₂, ?_⟩
  rw [← hlong]
  exact lookup_of_fst (hlookup₂ [] long) hr₂ hlongFound

end OsKernel.Fs
