import OsKernel.Fs.Names.References

/-!
# Names and links

How many entries name an inode (`named`) and how many directories a directory
has (`subdirs`), apart from `"."` and `".."`, which are the first two slots of
a directory; and how these change when an inode is written or freed.
-/

namespace OsKernel.Fs

/-- The inodes that the slots after the first two name. -/
def Ino.entries (i : Ino) : List ℕ := SlotTable.values (i.slots.drop 2)

/-- A count that is not zero loses one link. -/
theorem decr_add_one {links : ℕ} (hpos : 0 < links) (hlt : links < 2 ^ 16) :
    decr links + 1 = links := by
  unfold decr
  omega

namespace Volume

variable {P : Type*}

/-- The inodes that the entries of a directory name, apart from `"."` and
`".."`. -/
def entriesOf (f : Volume P) (d : ℕ) : List ℕ := (f.inodes d).elim [] Ino.entries

/-- The entries that name an inode. -/
def named (f : Volume P) (n : ℕ) : ℕ := ∑ d ∈ Finset.range numInodes, (f.entriesOf d).count n

/-- An inode is an allocated directory. -/
def isDir (f : Volume P) (n : ℕ) : Bool := (f.inodes n).any fun i => i.type = .directory

/-- The entries of a directory that name directories. -/
def subdirs (f : Volume P) (d : ℕ) : ℕ := (f.entriesOf d).countP f.isDir

variable {f f' : Volume P} {d e m n : ℕ} {i j : Ino}

theorem entriesOf_of_some (h : f.inodes d = some i) : f.entriesOf d = i.entries := by
  rw [entriesOf, h]
  rfl

theorem entriesOf_of_none (h : f.inodes d = none) : f.entriesOf d = [] := by
  rw [entriesOf, h]
  rfl

theorem entriesOf_congr (h : f'.inodes = f.inodes) : f'.entriesOf = f.entriesOf := by
  funext d
  rw [entriesOf, entriesOf, h]

theorem named_congr (h : f'.inodes = f.inodes) : f'.named = f.named := by
  funext n
  rw [named, named, entriesOf_congr h]

/-- The names are those of the entries. -/
theorem named_of_entries (h : ∀ d, f'.entriesOf d = f.entriesOf d) (m : ℕ) :
    f'.named m = f.named m :=
  Finset.sum_congr rfl fun d _ => by rw [h]

theorem isDir_congr (h : f'.inodes = f.inodes) : f'.isDir = f.isDir := by
  funext n
  rw [isDir, isDir, h]

theorem subdirs_congr (h : f'.inodes = f.inodes) : f'.subdirs = f.subdirs := by
  funext d
  rw [subdirs, subdirs, entriesOf_congr h, isDir_congr h]

theorem linksOf_congr (h : f'.inodes = f.inodes) : f'.linksOf = f.linksOf := by
  funext n
  rw [linksOf, linksOf, h]

theorem linksOf_of_some (h : f.inodes n = some i) : f.linksOf n = i.links := by
  rw [linksOf, h]
  rfl

theorem linksOf_of_none (h : f.inodes n = none) : f.linksOf n = 0 := by
  rw [linksOf, h]
  rfl

theorem isDir_of_some (h : f.inodes n = some i) : f.isDir n = decide (i.type = .directory) := by
  rw [isDir, h]
  rfl

theorem isDir_of_dir (h : f.inodes n = some i) (hty : i.type = .directory) : f.isDir n = true := by
  rw [isDir_of_some h, decide_eq_true hty]

theorem isDir_of_none (h : f.inodes n = none) : f.isDir n = false := by
  rw [isDir, h]
  rfl

/-- An entry names its inode. -/
theorem count_le_named (hd : d < numInodes) : (f.entriesOf d).count n ≤ f.named n :=
  Finset.single_le_sum (f := fun d => (f.entriesOf d).count n) (fun _ _ => Nat.zero_le _)
    (Finset.mem_range.2 hd)

theorem named_pos (hd : d < numInodes) (h : n ∈ f.entriesOf d) : 0 < f.named n :=
  Nat.lt_of_lt_of_le (List.count_pos_iff.2 h) (count_le_named hd)

/-- An inode with a name has an entry. -/
theorem exists_of_named_pos (h : 0 < f.named n) : ∃ d, d < numInodes ∧ n ∈ f.entriesOf d := by
  obtain ⟨d, hd, hpos⟩ := Finset.exists_ne_zero_of_sum_ne_zero (Nat.pos_iff_ne_zero.1 h)
  exact ⟨d, Finset.mem_range.1 hd, List.count_pos_iff.1 (Nat.pos_of_ne_zero hpos)⟩

/-- An inode with one name has one entry. -/
theorem eq_of_named_le (h : f.named n ≤ 1) (hd : d < numInodes) (he : e < numInodes)
    (hmd : n ∈ f.entriesOf d) (hme : n ∈ f.entriesOf e) : d = e := by
  by_contra hne
  have hsum := add_le_sum (g := fun d => (f.entriesOf d).count n) (Finset.mem_range.2 hd)
    (Finset.mem_range.2 he) hne
  have h₁ := List.count_pos_iff.2 hmd
  have h₂ := List.count_pos_iff.2 hme
  have hle : (f.entriesOf d).count n + (f.entriesOf e).count n ≤ f.named n := hsum
  omega

section SetIno

variable (o : Option Ino)

theorem entriesOf_setIno (d : ℕ) :
    (f.setIno n o).entriesOf d = if d = n then o.elim [] Ino.entries else f.entriesOf d := by
  rw [entriesOf, setIno_inodes]
  split_ifs <;> rfl

/-- The names after one inode is written. -/
theorem named_setIno (hn : n < numInodes) (m : ℕ) :
    (f.setIno n o).named m + (f.entriesOf n).count m =
      f.named m + (o.elim [] Ino.entries).count m := by
  have hself : (o.elim [] Ino.entries).count m = ((f.setIno n o).entriesOf n).count m := by
    rw [entriesOf_setIno, if_pos rfl]
  have hother : ∀ d ∈ Finset.range numInodes, d ≠ n →
      (fun d => ((f.setIno n o).entriesOf d).count m) d = (fun d => (f.entriesOf d).count m) d :=
    fun d _ hd => by
      simp only [entriesOf_setIno, if_neg hd]
  have hsum := sum_change (Finset.mem_range.2 hn) hother
  rw [hself, named, named]
  exact hsum

theorem isDir_setIno (m : ℕ) :
    (f.setIno n o).isDir m =
      if m = n then o.any (fun i => i.type = .directory) else f.isDir m := by
  rw [isDir, setIno_inodes]
  split_ifs <;> rfl

theorem linksOf_setIno (m : ℕ) :
    (f.setIno n o).linksOf m = if m = n then o.elim 0 Ino.links else f.linksOf m := by
  rw [linksOf, setIno_inodes]
  split_ifs <;> rfl

/-- The directories of another directory, after an inode is written that keeps
its type or that the directory does not name. -/
theorem subdirs_setIno_of_ne (hd : d ≠ n)
    (h : o.any (fun i => i.type = .directory) = f.isDir n ∨ n ∉ f.entriesOf d) :
    (f.setIno n o).subdirs d = f.subdirs d := by
  rw [subdirs, subdirs, entriesOf_setIno, if_neg hd]
  refine List.countP_congr fun m hm => ?_
  rw [isDir_setIno]
  split_ifs with hmn
  · rcases h with h | h
    · rw [h, hmn]
    · exact absurd (hmn ▸ hm) h
  · rfl

/-- The directories of a directory that is written. -/
theorem subdirs_setIno_self (h : o.any (fun i => i.type = .directory) = f.isDir n) :
    (f.setIno n o).subdirs n = (o.elim [] Ino.entries).countP f.isDir := by
  rw [subdirs, entriesOf_setIno, if_pos rfl]
  refine List.countP_congr fun m _ => ?_
  rw [isDir_setIno]
  split_ifs with hmn
  · rw [h, hmn]
  · rfl

end SetIno

end Volume

/-! ## The slots of a directory -/

/-- The first two slots of the directory `d` with parent `e`, and the
others. -/
def dots (d e : ℕ) (rest : SlotTable Name ℕ) : SlotTable Name ℕ :=
  some (dot, d) :: some (dotdot, e) :: rest

theorem dots_parent {d e e' : ℕ} {rest rest' : SlotTable Name ℕ}
    (h : dots d e rest = dots d e' rest') : e = e' := by
  simp only [dots, List.cons.injEq, Option.some.injEq, Prod.mk.injEq] at h
  exact h.2.1.2

/-- A slot with another name is not one of the first two. -/
theorem two_le_of_dots {d e n off : ℕ} {rest : SlotTable Name ℕ} {name : Name}
    (h : (dots d e rest)[off]? = some (some (name, n))) (hdot : name ≠ dot)
    (hdotdot : name ≠ dotdot) : 2 ≤ off := by
  match off with
  | 0 => exact absurd (by simpa [dots] using h : dot = name ∧ d = n).1.symm hdot
  | 1 => exact absurd (by simpa [dots] using h : dotdot = name ∧ e = n).1.symm hdotdot
  | _ + 2 => exact Nat.le_add_left 2 _

theorem freeFrom_dots (d e : ℕ) (rest : SlotTable Name ℕ) :
    SlotTable.freeFrom 0 (dots d e rest) = SlotTable.freeFrom 0 rest + 2 := by
  rw [dots, SlotTable.freeFrom, SlotTable.freeFrom, SlotTable.freeFrom_eq_add]
  omega

theorem put_dots (d e : ℕ) (rest : SlotTable Name ℕ) (k : ℕ) (y : Option (Name × ℕ)) :
    SlotTable.put (dots d e rest) (k + 2) y = dots d e (rest.put k y) := by
  rw [dots, SlotTable.put_cons_succ, SlotTable.put_cons_succ]
  rfl

/-- A new name goes after the first two slots. -/
theorem insertName_dots {d e n : ℕ} {rest : SlotTable Name ℕ} {name : Name}
    (h : (dots d e rest).find name = none) :
    insertName (dots d e rest) name n =
      dots d e (rest.put (SlotTable.freeFrom 0 rest) (some (name, n))) := by
  rw [insertName, h, freeFrom_dots, put_dots]
  rfl

/-- `create` makes the first two slots. -/
theorem insertName_nil (d e : ℕ) : insertName (insertName [] dot d) dotdot e = dots d e [] := rfl

namespace Ino

variable {i : Ino} {d e n off : ℕ} {rest : SlotTable Name ℕ} {name : Name}

theorem entries_of_nil (h : i.slots = []) : i.entries = [] := by
  rw [entries, h]
  rfl

theorem entries_of_dots (h : i.slots = dots d e rest) : i.entries = rest.values := by
  rw [entries, h]
  rfl

theorem mem_entries (hoff : 2 ≤ off) (h : i.slots[off]? = some (some (name, n))) :
    n ∈ i.entries := by
  refine SlotTable.mem_values.2 ⟨off - 2, name, ?_⟩
  rw [List.getElem?_drop, Nat.add_sub_cancel' hoff]
  exact h

theorem exists_of_mem_entries (h : n ∈ i.entries) :
    ∃ off name, 2 ≤ off ∧ i.slots[off]? = some (some (name, n)) := by
  obtain ⟨k, name, hk⟩ := SlotTable.mem_values.1 h
  rw [List.getElem?_drop] at hk
  exact ⟨2 + k, name, Nat.le_add_right 2 k, hk⟩

theorem entries_of_isEmpty (h : i.isEmpty = true) : i.entries = [] := by
  refine List.eq_nil_iff_forall_not_mem.2 fun n hn => ?_
  obtain ⟨k, name, hk⟩ := SlotTable.mem_values.1 hn
  have hnone := List.all_eq_true.1 h _ (List.mem_of_getElem? hk)
  cases hnone

end Ino

/-! ## What `create` and `unlinkat` do to a directory -/

namespace Volume

variable {P : Type*} {f : Volume P} {d dir e m n off : ℕ} {i j : Ino} {name : Name}
  {ty : FileType} {rest : SlotTable Name ℕ}

theorem mem_entriesOf (hi : f.inodes d = some i) (hoff : 2 ≤ off)
    (h : i.slots[off]? = some (some (name, n))) : n ∈ f.entriesOf d := by
  rw [entriesOf_of_some hi]
  exact Ino.mem_entries hoff h

theorem ite_beq (m n : ℕ) : (if (n == m) = true then 1 else 0) = if m = n then 1 else 0 := by
  by_cases h : m = n
  · simp [h]
  · simp [h, Ne.symm h]

section Rewrite

/-! An inode is written and keeps its type. -/

variable (hi : f.inodes n = some i) (hty : j.type = i.type)
include hi hty

theorem any_rewrite : (some j).any (fun i => decide (i.type = .directory)) = f.isDir n := by
  rw [isDir_of_some hi, Option.any_some, hty]

theorem isDir_rewrite : (f.setIno n (some j)).isDir = f.isDir := by
  funext m
  rw [isDir_setIno, any_rewrite hi hty]
  split_ifs with hm
  · rw [hm]
  · rfl

theorem subdirs_rewrite_of_ne (hd : d ≠ n) : (f.setIno n (some j)).subdirs d = f.subdirs d :=
  subdirs_setIno_of_ne (some j) hd (Or.inl (any_rewrite hi hty))

theorem subdirs_rewrite_self : (f.setIno n (some j)).subdirs n = j.entries.countP f.isDir :=
  subdirs_setIno_self (some j) (any_rewrite hi hty)

/-- The entries stay as they are. -/
theorem subdirs_rewrite (he : j.entries = i.entries) :
    (f.setIno n (some j)).subdirs d = f.subdirs d := by
  by_cases hd : d = n
  · rw [hd, subdirs_rewrite_self hi hty, he, subdirs, entriesOf_of_some hi]
  · exact subdirs_rewrite_of_ne hi hty hd

section

omit hty

theorem entriesOf_rewrite (he : j.entries = i.entries) :
    (f.setIno n (some j)).entriesOf d = f.entriesOf d := by
  rw [entriesOf_setIno]
  split_ifs with hd
  · rw [hd, entriesOf_of_some hi]
    exact he
  · rfl

theorem named_rewrite (he : j.entries = i.entries) (m : ℕ) :
    (f.setIno n (some j)).named m = f.named m := by
  rw [named, named]
  exact Finset.sum_congr rfl fun d _ => by rw [entriesOf_rewrite hi he]

theorem isDir_setLinks (k : ℕ) : (f.setIno n (some { i with links := k })).isDir = f.isDir :=
  isDir_rewrite hi rfl

theorem entriesOf_setLinks (k : ℕ) :
    (f.setIno n (some { i with links := k })).entriesOf d = f.entriesOf d :=
  entriesOf_rewrite hi rfl

end

end Rewrite

section Make

/-! A new inode `n` gets a name in the directory `dir`. -/

variable (hi : f.inodes dir = some i) (hslots : i.slots = dots dir e rest)
  (hfind : i.slots.find name = none) (hn : f.inodes n = none)
include hi hslots hfind hn

omit hi hn in
/-- The slots of the directory. -/
theorem make_slots : insertName i.slots name n =
    dots dir e (rest.put (SlotTable.freeFrom 0 rest) (some (name, n))) := by
  rw [hslots] at hfind ⊢
  exact insertName_dots hfind

omit hi hn in
theorem make_entries (q : ℕ → Bool) (links : ℕ) :
    (Ino.entries { i with slots := insertName i.slots name n, links := links }).countP q =
      i.entries.countP q + if q n then 1 else 0 := by
  rw [Ino.entries_of_dots hslots, Ino.entries_of_dots (make_slots hslots hfind),
    SlotTable.countP_values_put]

omit hslots hfind in
theorem make_ne : n ≠ dir := by
  rintro rfl
  rw [hn] at hi
  cases hi

/-- The new inode has one name more. -/
theorem named_make (hdir : dir < numInodes) (hlt : n < numInodes) (m : ℕ) :
    (f.make dir i name n ty).named m = f.named m + if m = n then 1 else 0 := by
  have hne := make_ne hi hn
  have hnew := named_setIno (f := f) (some ⟨ty, 0, []⟩) hlt m
  have hins := named_setIno (f := f.allocate n ty) (some { i with
    slots := insertName i.slots name n
    links := if ty = .directory then incr i.links else i.links }) hdir m
  have hold : (f.allocate n ty).entriesOf dir = i.entries := by
    have hset := entriesOf_setIno (f := f) (n := n) (some ⟨ty, 0, []⟩) dir
    rw [if_neg (Ne.symm hne), entriesOf_of_some hi] at hset
    exact hset
  have hcount := make_entries (n := n) hslots hfind (· == m)
    (if ty = .directory then incr i.links else i.links)
  have hzero : (Option.elim (some ⟨ty, 0, []⟩) [] Ino.entries).count m = 0 := rfl
  have hnamed : (f.allocate n ty).named m = (f.setIno n (some ⟨ty, 0, []⟩)).named m := rfl
  rw [entriesOf_of_none hn, List.count_nil, hzero] at hnew
  rw [hold, hnamed] at hins
  rw [ite_beq] at hcount
  change (f.make dir i name n ty).named m + _ = _ + List.countP _ (Ino.entries _) at hins
  rw [hcount] at hins
  have hcm : i.entries.count m = i.entries.countP (· == m) := rfl
  omega

omit hslots hfind in
theorem make_inodes_self :
    (f.make dir i name n ty).inodes n = some ⟨ty, 0, []⟩ := by
  rw [make_inodes, if_neg (make_ne hi hn), if_pos rfl]

omit hslots hfind hi hn in
theorem make_inodes_of_ne (hd : m ≠ dir) (hm : m ≠ n) :
    (f.make dir i name n ty).inodes m = f.inodes m := by
  rw [make_inodes, if_neg hd, if_neg hm]

omit hn in
theorem mem_entriesOf_make (m : ℕ) :
    m ∈ (f.make dir i name n ty).entriesOf dir ↔ m ∈ f.entriesOf dir ∨ m = n := by
  have hcount := make_entries (n := n) hslots hfind (· == m)
    (if ty = .directory then incr i.links else i.links)
  rw [ite_beq] at hcount
  have hnew := make_inodes f dir i name n ty dir
  rw [if_pos rfl] at hnew
  rw [entriesOf_of_some hnew, entriesOf_of_some hi, ← List.count_pos_iff, ← List.count_pos_iff]
  have hold : i.entries.count m = i.entries.countP (· == m) := rfl
  change 0 < List.countP (· == m) _ ↔ _
  rw [hcount, hold]
  split_ifs with hm <;> omega

section

omit hslots hfind

theorem entriesOf_make_of_ne (hd : d ≠ dir) :
    (f.make dir i name n ty).entriesOf d = f.entriesOf d := by
  by_cases hdn : d = n
  · rw [hdn, entriesOf_of_some (make_inodes_self hi hn), entriesOf_of_none hn]
    rfl
  · rw [entriesOf, entriesOf, make_inodes_of_ne hd hdn]

/-- The directory has one link more, if the new inode is a directory and
`num_links` does not wrap. -/
theorem linksOf_make (hlt : f.linksOf dir + 1 < 2 ^ 16) (m : ℕ) :
    (f.make dir i name n ty).linksOf m =
      f.linksOf m + if m = dir ∧ ty = .directory then 1 else 0 := by
  by_cases hm : m = dir
  · subst hm
    have hnew := make_inodes f m i name n ty m
    rw [if_pos rfl] at hnew
    rw [linksOf_of_some hnew, linksOf_of_some hi]
    rw [linksOf_of_some hi] at hlt
    by_cases hty : ty = .directory
    · simp only [hty, if_true, and_self, incr]
      omega
    · simp [hty]
  · rw [if_neg fun hand => hm hand.1, Nat.add_zero]
    by_cases hmn : m = n
    · rw [hmn, linksOf_of_some (make_inodes_self hi hn), linksOf_of_none hn]
    · rw [linksOf, linksOf, make_inodes_of_ne hm hmn]

end

/-- The directory has one directory more, if the new inode is one. -/
theorem subdirs_make (hnamed : ∀ d, n ∉ f.entriesOf d) (d : ℕ) :
    (f.make dir i name n ty).subdirs d =
      f.subdirs d + if d = dir ∧ ty = .directory then 1 else 0 := by
  have hne := make_ne hi hn
  have halloc : (f.allocate n ty).inodes dir = some i := by
    have hset := setIno_inodes f n (some ⟨ty, 0, []⟩) dir
    rw [if_neg (Ne.symm hne), hi] at hset
    exact hset
  have hsub : ∀ d, (f.allocate n ty).subdirs d = f.subdirs d := by
    intro d
    change (f.setIno n (some ⟨ty, 0, []⟩)).subdirs d = f.subdirs d
    by_cases hd : d = n
    · rw [subdirs, subdirs, hd, entriesOf_setIno, if_pos rfl, entriesOf_of_none hn]
      rfl
    · exact subdirs_setIno_of_ne _ hd (Or.inr (hnamed d))
  by_cases hd : d = dir
  · subst hd
    have hself := subdirs_rewrite_self halloc (j := { i with
      slots := insertName i.slots name n
      links := if ty = .directory then incr i.links else i.links }) rfl
    have hisDir : (f.allocate n ty).isDir n = decide (ty = .directory) := by
      have hset := isDir_setIno (f := f) (n := n) (some ⟨ty, 0, []⟩) n
      rw [if_pos rfl] at hset
      exact hset
    rw [make_entries hslots hfind, hisDir] at hself
    have hold := hsub d
    rw [subdirs, entriesOf_of_some halloc] at hold
    simp only [hold, decide_eq_true_eq] at hself
    simp only [true_and]
    exact hself
  · have hother := subdirs_rewrite_of_ne halloc (d := d) (j := { i with
      slots := insertName i.slots name n
      links := if ty = .directory then incr i.links else i.links }) rfl hd
    rw [if_neg fun h => hd h.1, Nat.add_zero, ← hsub d]
    exact hother

end Make

section Clear

/-! Slot `off` of the directory `dir`, which names `n`, is cleared. -/

variable {t : FileType} (hi : f.inodes dir = some i) (hslots : i.slots = dots dir e rest)
  (hoff : 2 ≤ off) (hslot : i.slots[off]? = some (some (name, n)))
include hi hslots hoff hslot

omit hi hslot in
theorem clear_slots : i.slots.put off none = dots dir e (rest.put (off - 2) none) := by
  have hput := put_dots dir e rest (off - 2) none
  rw [Nat.sub_add_cancel hoff, ← hslots] at hput
  exact hput

omit hi in
theorem clear_entries (q : ℕ → Bool) (links : ℕ) :
    (Ino.entries { i with slots := i.slots.put off none, links := links }).countP q +
      (if q n then 1 else 0) = i.entries.countP q := by
  have hrest : rest[off - 2]? = some (some (name, n)) := by
    rw [hslots, ← Nat.sub_add_cancel hoff] at hslot
    simpa [dots] using hslot
  rw [Ino.entries_of_dots (clear_slots hslots hoff), Ino.entries_of_dots hslots]
  exact SlotTable.countP_values_clear q hrest

omit hi in
/-- Every other entry stays. -/
theorem mem_clear_entries (links : ℕ) (hm : m ∈ i.entries) (hne : m ≠ n) :
    m ∈ Ino.entries { i with slots := i.slots.put off none, links := links } := by
  have hcount := clear_entries hslots hoff hslot (· == m) links
  rw [ite_beq, if_neg hne, Nat.add_zero] at hcount
  have hpos : 0 < i.entries.countP (· == m) := List.count_pos_iff.2 hm
  rw [← hcount] at hpos
  exact List.count_pos_iff.1 hpos

/-- The inode has one name less. -/
theorem named_clearSlot (hdir : dir < numInodes) (m : ℕ) :
    (f.clearSlot dir i off t).named m + (if m = n then 1 else 0) = f.named m := by
  have hset := named_setIno (f := f) (some { i with
    slots := i.slots.put off none
    links := if t = .directory then decr i.links else i.links }) hdir m
  have hcount := clear_entries hslots hoff hslot (· == m)
    (if t = .directory then decr i.links else i.links)
  rw [ite_beq] at hcount
  rw [entriesOf_of_some hi] at hset
  change (f.clearSlot dir i off t).named m + _ = _ + List.countP _ (Ino.entries _) at hset
  have hcm : i.entries.count m = i.entries.countP (· == m) := rfl
  omega

/-- The directory has one directory less, if the inode is one. -/
theorem subdirs_clearSlot (d : ℕ) :
    (f.clearSlot dir i off t).subdirs d + (if d = dir ∧ f.isDir n = true then 1 else 0) =
      f.subdirs d := by
  by_cases hd : d = dir
  · subst hd
    have hself := subdirs_rewrite_self hi (j := { i with
      slots := i.slots.put off none
      links := if t = .directory then decr i.links else i.links }) rfl
    have hcount := clear_entries hslots hoff hslot f.isDir
      (if t = .directory then decr i.links else i.links)
    rw [← hself] at hcount
    rw [subdirs.eq_1 f, entriesOf_of_some hi, ← hcount]
    simp only [true_and]
    rfl
  · rw [if_neg fun h => hd h.1]
    exact subdirs_rewrite_of_ne hi rfl hd

omit hslots hoff hslot in
/-- The directory has one link less, if the inode is a directory and
`num_links` does not wrap. -/
theorem linksOf_clearSlot (hpos : t = .directory → 0 < f.linksOf dir)
    (hlt : f.linksOf dir < 2 ^ 16) (m : ℕ) :
    (f.clearSlot dir i off t).linksOf m + (if m = dir ∧ t = .directory then 1 else 0) =
      f.linksOf m := by
  rw [clearSlot, linksOf_setIno]
  rw [linksOf_of_some hi] at hpos hlt
  by_cases hm : m = dir
  · rw [if_pos hm, hm, linksOf_of_some hi, Option.elim_some]
    by_cases hdir : t = .directory
    · rw [if_pos hdir, if_pos ⟨rfl, hdir⟩]
      exact decr_add_one (hpos hdir) hlt
    · rw [if_neg hdir, if_neg fun hand => hdir hand.2, Nat.add_zero]
  · rw [if_neg hm, if_neg fun hand => hm hand.1, Nat.add_zero]

omit hi hslots hoff hslot in
theorem entriesOf_clearSlot_of_ne (hd : d ≠ dir) :
    (f.clearSlot dir i off t).entriesOf d = f.entriesOf d := by
  refine (entriesOf_setIno _ d).trans ?_
  rw [if_neg hd]

omit hslots hoff hslot in
theorem mem_entriesOf_clearSlot (hm : m ∈ (f.clearSlot dir i off t).entriesOf d) :
    m ∈ f.entriesOf d := by
  by_cases hd : d = dir
  · have hset := entriesOf_setIno (f := f) (n := dir) (some { i with
      slots := i.slots.put off none
      links := if t = .directory then decr i.links else i.links }) d
    rw [if_pos hd] at hset
    have hm : m ∈ Ino.entries _ := hset ▸ hm
    obtain ⟨off', name', hoff', hslot'⟩ := Ino.exists_of_mem_entries hm
    rw [hd, entriesOf_of_some hi]
    exact Ino.mem_entries hoff' (SlotTable.getElem?_of_clear hslot')
  · rwa [entriesOf_clearSlot_of_ne hd] at hm

theorem mem_entriesOf_clearSlot_of_ne (hm : m ∈ f.entriesOf d) (hne : m ≠ n) :
    m ∈ (f.clearSlot dir i off t).entriesOf d := by
  by_cases hd : d = dir
  · have hset := entriesOf_setIno (f := f) (n := dir) (some { i with
      slots := i.slots.put off none
      links := if t = .directory then decr i.links else i.links }) d
    rw [if_pos hd] at hset
    rw [hd, entriesOf_of_some hi] at hm
    have hmem := mem_clear_entries hslots hoff hslot
      (if t = .directory then decr i.links else i.links) hm hne
    exact hset.symm ▸ hmem
  · rw [entriesOf_clearSlot_of_ne hd]
    exact hm

end Clear

section Free

/-! An inode without links, names and entries is freed. -/

variable (hlinks : f.linksOf n = 0) (hentries : f.entriesOf n = [])
include hentries

theorem entriesOf_free (d : ℕ) : (f.setIno n none).entriesOf d = f.entriesOf d := by
  rw [entriesOf_setIno]
  split_ifs with hd
  · rw [hd, hentries]
    rfl
  · rfl

theorem subdirs_free (hnot : ∀ d, n ∉ f.entriesOf d) (d : ℕ) :
    (f.setIno n none).subdirs d = f.subdirs d := by
  by_cases hd : d = n
  · rw [subdirs, subdirs, entriesOf_free hentries, hd, hentries]
    rfl
  · exact subdirs_setIno_of_ne none hd (Or.inr (hnot d))

omit hentries in
include hlinks in
theorem linksOf_free (m : ℕ) : (f.setIno n none).linksOf m = f.linksOf m := by
  rw [linksOf_setIno]
  split_ifs with hm
  · rw [hm, hlinks]
    rfl
  · rfl

end Free

end Volume

end OsKernel.Fs
