import OsKernel.Fs.Names.Links

/-!
# Names and links

The invariant behind what is proved of directories. An entry names an allocated
inode, which has a link for the entry and one for each directory in it
(`Published`), except that an inode which `create` has still to initialise has
none yet (`uninit`), and one that `unlinkat` has taken the name of has its link
for a while (`pend`). A step keeps it unless it gets an inode that another
process has still to initialise.
-/

namespace OsKernel.Fs

/-- 1 where a process has published `n` and not initialised it. -/
def Task.opens (n : ℕ) (x : Task) : ℕ := if x.stage.window = some n then 1 else 0

/-- 1 where a process has taken the name of `n` away and not the link. -/
def Task.owes (n : ℕ) (x : Task) : ℕ := if x.stage.pending = some n then 1 else 0

namespace NameSys

variable {P : Type*} [Fintype P] [DecidableEq P] {s : NameSys P} {f' : Volume P} {p q : P}
  {x' : Task} {a : NameAct P} {d e m n off : ℕ} {i j : Ino}

/-- Whether an inode is published and not initialised. -/
def uninit (s : NameSys P) (n : ℕ) : ℕ := ∑ p, (s.task p).opens n

/-- The names of an inode that have been taken away without the link. -/
def pend (s : NameSys P) (n : ℕ) : ℕ := ∑ p, (s.task p).owes n

theorem uninit_after (s : NameSys P) (p : P) (f' : Volume P) (x' : Task) (n : ℕ) :
    (s.after p f' x').uninit n + (s.task p).opens n = s.uninit n + x'.opens n :=
  sum_after (Task.opens n) s p f' x'

theorem pend_after (s : NameSys P) (p : P) (f' : Volume P) (x' : Task) (n : ℕ) :
    (s.after p f' x').pend n + (s.task p).owes n = s.pend n + x'.owes n :=
  sum_after (Task.owes n) s p f' x'

/-- An inode that is published and not initialised. -/
structure Fresh (s : NameSys P) (p : P) (d n : ℕ) : Prop where
  alloc : ∃ i, s.vol.inodes n = some i ∧ i.slots = []
  /-- Nobody else refers to it. -/
  rc : s.vol.rc n = (s.task p).held.count n
  ne : d ≠ n
  root : n ≠ rootIno
  /-- A directory stays in its directory. -/
  entry : s.vol.isDir n = true → n ∈ s.vol.entriesOf d

/-- **Names and links fit together.** -/
structure Published (s : NameSys P) : Prop where
  refs : Refs s
  range : ∀ n, s.vol.inodes n ≠ none → n < numInodes
  /-- A directory has its two first slots, unless it is not initialised. -/
  shape : ∀ n i, s.vol.inodes n = some i →
    i.slots = [] ∧ (i.type = .directory → 0 < s.uninit n) ∨
      i.type = .directory ∧ ∃ e rest, i.slots = dots n e rest
  /-- There are enough links. -/
  low : ∀ n, s.vol.named n + s.pend n + s.vol.subdirs n + (if n = rootIno then 1 else 0) ≤
    s.vol.linksOf n + s.uninit n
  /-- There are not too many links. -/
  high : ∀ n, s.vol.linksOf n + s.uninit n ≤ 1 + s.vol.subdirs n
  root : ∃ i rest, s.vol.inodes rootIno = some i ∧ i.type = .directory ∧
    i.slots = dots rootIno rootIno rest
  fresh : ∀ p d n, (s.task p).stage.birth = some (d, n) → Fresh s p d n
  owns : ∀ p n, (s.task p).stage.owns = some n → s.vol.lock n = some p
  /-- The entry that `unlinkat` has found is there. -/
  claim : ∀ p d n off, (s.task p).stage.claim = some (d, n, off) →
    2 ≤ off ∧ ∃ i name, s.vol.inodes d = some i ∧ i.slots[off]? = some (some (name, n))
  /-- `".."` of a directory is the directory that has its name. -/
  parent : ∀ e d i, d ∈ s.vol.entriesOf e → s.vol.inodes d = some i → i.type = .directory →
    i.slots = [] ∨ ∃ rest, i.slots = dots d e rest

namespace Published

section

omit [Fintype P] [DecidableEq P]

theorem window_of_birth {x : Task} (h : x.stage.birth = some (d, n)) : x.stage.window = some n := by
  rw [Stage.window, h]
  rfl

theorem birth_of_window {x : Task} (h : x.stage.window = some n) :
    ∃ d, x.stage.birth = some (d, n) := by
  obtain ⟨⟨d, m⟩, hb, rfl⟩ := Option.map_eq_some_iff.1 h
  exact ⟨d, hb⟩

end

section

omit [DecidableEq P]

/-- An inode that nobody has still to initialise. -/
theorem uninit_eq_zero (h : ∀ q, (s.task q).stage.window ≠ some n) : s.uninit n = 0 :=
  Finset.sum_eq_zero fun q _ => if_neg (h q)

theorem exists_window (h : 0 < s.uninit n) : ∃ q, (s.task q).stage.window = some n := by
  obtain ⟨q, -, hq⟩ := Finset.exists_ne_zero_of_sum_ne_zero (Nat.pos_iff_ne_zero.1 h)
  refine ⟨q, ?_⟩
  by_contra hne
  exact hq (if_neg hne)

theorem uninit_pos (h : (s.task q).stage.window = some n) : 0 < s.uninit n := by
  have hle : (s.task q).opens n ≤ s.uninit n :=
    Finset.single_le_sum (f := fun p => (s.task p).opens n) (fun _ _ => Nat.zero_le _)
      (Finset.mem_univ q)
  have hone : (s.task q).opens n = 1 := if_pos h
  omega

end

/-- Whoever has a reference knows that nobody else has still to initialise the
inode. -/
theorem not_window_of_held (h : Published s) (hn : n ∈ (s.task p).held) (hq : q ≠ p) :
    (s.task q).stage.window ≠ some n := by
  intro hw
  obtain ⟨d, hb⟩ := birth_of_window hw
  have hrc := (h.fresh q d n hb).rc
  have hpos := List.count_pos_iff.2 hn
  have hle := Refs.add_le_holds (s := s) (n := n) hq
  have hcount := h.refs.count n
  omega

theorem not_window (h : Published s) (hn : n ∈ (s.task p).held)
    (hb : (s.task p).stage.birth = none) (q : P) : (s.task q).stage.window ≠ some n := by
  by_cases hq : q = p
  · rw [hq, Stage.window, hb]
    exact nofun
  · exact h.not_window_of_held hn hq

/-- Nobody has still to initialise an inode that is put. -/
theorem not_window_of_put (h : Published s) (hn : n ∈ (s.task p).held)
    (hown : ∀ d m, (s.task p).stage.birth = some (d, m) → n = d) (q : P) :
    (s.task q).stage.window ≠ some n := by
  intro hw
  by_cases hq : q = p
  · obtain ⟨d, hb⟩ := birth_of_window hw
    rw [hq] at hb
    exact (h.fresh p d n hb).ne (hown d n hb).symm
  · exact h.not_window_of_held hn hq hw

section

omit [DecidableEq P]

variable (h : Published s)

include h

/-- No inode has two names. -/
theorem named_le (n : ℕ) : s.vol.named n ≤ 1 := by
  have := h.low n
  have := h.high n
  omega

/-- **An entry names an allocated inode.** -/
theorem alloc_of_entry (hd : d < numInodes) (hn : n ∈ s.vol.entriesOf d) :
    s.vol.inodes n ≠ none := by
  intro hnone
  have hpos := Volume.named_pos hd hn
  have hlow := h.low n
  rw [Volume.linksOf_of_none hnone] at hlow
  obtain ⟨q, hq⟩ := exists_window (s := s) (n := n) (by omega)
  obtain ⟨e, hb⟩ := birth_of_window hq
  obtain ⟨i, hi, -⟩ := (h.fresh q e n hb).alloc
  rw [hnone] at hi
  cases hi

theorem dir_lt (hn : n ∈ s.vol.entriesOf d) : d < numInodes := by
  refine h.range d fun hnone => ?_
  rw [Volume.entriesOf_of_none hnone] at hn
  cases hn

theorem not_entry (hn : s.vol.named n = 0) (d : ℕ) : n ∉ s.vol.entriesOf d :=
  fun hmem => by
    have := Volume.named_pos (h.dir_lt hmem) hmem
    omega

/-- A directory has no more directories than there are inodes. -/
theorem subdirs_le (d : ℕ) : s.vol.subdirs d ≤ numInodes := by
  have hnodup : (s.vol.entriesOf d).Nodup := by
    refine List.nodup_iff_count_le_one.2 fun n => ?_
    by_cases hn : n ∈ s.vol.entriesOf d
    · exact (Volume.count_le_named (h.dir_lt hn)).trans (h.named_le n)
    · rw [List.count_eq_zero.2 hn]
      omega
  have hsub : (s.vol.entriesOf d).toFinset ⊆ Finset.range numInodes := fun n hn => by
    have hn := List.mem_toFinset.1 hn
    exact Finset.mem_range.2 (h.range n (h.alloc_of_entry (h.dir_lt hn) hn))
  have hcard := Finset.card_le_card hsub
  rw [List.toFinset_card_of_nodup hnodup, Finset.card_range] at hcard
  exact List.countP_le_length.trans hcard

/-- `num_links` does not wrap. -/
theorem links_lt (n : ℕ) : s.vol.linksOf n + 1 < 2 ^ 16 := by
  have hhigh := h.high n
  have hsub := h.subdirs_le n
  have hnum : numInodes = 200 := rfl
  omega

/-- A directory that is initialised has its first two slots. -/
theorem slots_of_dir (hi : s.vol.inodes n = some i) (hty : i.type = .directory)
    (hz : s.uninit n = 0) : ∃ e rest, i.slots = dots n e rest := by
  rcases h.shape n i hi with ⟨-, hw⟩ | ⟨-, hdots⟩
  · have := hw hty
    omega
  · exact hdots

/-- The root directory is in itself. -/
theorem root_parent {rest : SlotTable Name ℕ} (hi : s.vol.inodes rootIno = some i)
    (hslots : i.slots = dots rootIno e rest) : e = rootIno := by
  obtain ⟨j, rest', hj, -, hjs⟩ := h.root
  obtain rfl := Option.mem_unique hi hj
  exact dots_parent (hslots.symm.trans hjs)

/-- `".."` of a directory that is initialised. -/
theorem parent_eq {e' : ℕ} {rest : SlotTable Name ℕ} (hmem : d ∈ s.vol.entriesOf e)
    (hi : s.vol.inodes d = some i) (hty : i.type = .directory) (hslots : i.slots = dots d e' rest) :
    e' = e := by
  rcases h.parent e d i hmem hi hty with hnil | ⟨rest', hdots⟩
  · rw [hslots] at hnil
    cases hnil
  · exact dots_parent (hslots.symm.trans hdots)

/-- What a slot names: the directory itself, its parent, or an entry. -/
theorem slot_cases {name : Name} (hi : s.vol.inodes d = some i)
    (hslot : i.slots[off]? = some (some (name, n))) :
    off < 2 ∧ i.type = .directory ∧ (n = d ∨ ∃ rest, i.slots = dots d n rest) ∨
      2 ≤ off ∧ n ∈ s.vol.entriesOf d := by
  rcases Nat.lt_or_ge off 2 with hlt | hoff
  · rcases h.shape d i hi with ⟨hnil, -⟩ | ⟨hty, e, rest, hslots⟩
    · rw [hnil] at hslot
      cases hslot
    · refine Or.inl ⟨hlt, hty, ?_⟩
      rw [hslots] at hslot ⊢
      obtain rfl | rfl : off = 0 ∨ off = 1 := by omega
      · exact Or.inl (by simpa [dots] using hslot : dot = name ∧ d = n).2.symm
      · obtain rfl : e = n := (by simpa [dots] using hslot : dotdot = name ∧ e = n).2
        exact Or.inr ⟨rest, rfl⟩
  · exact Or.inr ⟨hoff, Volume.mem_entriesOf hi hoff hslot⟩

/-- An inode that is not allocated has no names. -/
theorem zero_of_none (hn : s.vol.inodes n = none) :
    s.uninit n = 0 ∧ s.vol.named n = 0 ∧ s.pend n = 0 := by
  have hz : s.uninit n = 0 := by
    refine uninit_eq_zero fun q hq => ?_
    obtain ⟨d, hb⟩ := birth_of_window hq
    obtain ⟨i, hi, -⟩ := (h.fresh q d n hb).alloc
    rw [hn] at hi
    cases hi
  have hlow := h.low n
  rw [Volume.linksOf_of_none hn, hz] at hlow
  exact ⟨hz, by omega, by omega⟩

end

end Published

end NameSys

end OsKernel.Fs
