import OsKernel.Fs.Names.Overlap
import OsKernel.Fs.Names.Usable

/-!
# Link counts

When system calls run one at a time, and no call begins in a removed directory,
`num_links` of an inode is the number of entries that name it and of entries in
it that name directories, after every call (`link_counts_exact`).

Within a call the count is off by what the call has still to do (`balance`); for
that it is enough that a call which creates or removes runs alone (`Apart`). It
stays right when a directory is freed because a directory that has lost its
name is empty (`empty`), and it stays empty because a path leads only to
directories that have one (`cursor`).
-/

namespace OsKernel.Fs

/-- The root, or an inode that has a name. -/
def Volume.Linked {P : Type*} (f : Volume P) (n : ℕ) : Prop := n = rootIno ∨ 0 < f.named n

theorem Volume.linked_congr {P : Type*} {f f' : Volume P}
    (h : ∀ d, f'.entriesOf d = f.entriesOf d) (n : ℕ) : f'.Linked n ↔ f.Linked n := by
  rw [Volume.Linked, Volume.Linked, Volume.named_of_entries h]

namespace NameSys

variable {P : Type*} [Fintype P] [DecidableEq P] {s s' : NameSys P} {f' : Volume P} {p q : P}
  {x' : Task} {a : NameAct P} {d e m n off : ℕ} {i j : Ino}

/-- When a call begins, no process is in a removed directory. -/
def CwdsLinked (s : NameSys P) : NameAct P → Prop
  | .go _ _ => True
  | .call _ _ _ | .close _ _ => ∀ q, s.vol.Linked (s.task q).cwd

/-- **The counts are right**, up to what the calls under way have still to do. -/
structure Exact (s : NameSys P) : Prop where
  published : Published s
  balance : ∀ n, s.vol.linksOf n + s.uninit n =
    s.vol.named n + s.pend n + s.vol.subdirs n + if n = rootIno then 1 else 0
  /-- A directory that has lost its name is empty. -/
  empty : ∀ n, ¬s.vol.Linked n → s.vol.entriesOf n = []
  /-- A path leads to what has a name. -/
  cursor : ∀ p, ∀ m ∈ (s.task p).stage.cursor, s.vol.Linked m

namespace Exact

omit [DecidableEq P] in
/-- What is found in a directory that has a name has one too. -/
theorem linked_of_finds (h : Exact s) (hd : s.vol.Linked d) (hfinds : s.vol.Finds d m) :
    s.vol.Linked m := by
  obtain ⟨i, name, off, hi, hty, hfind⟩ := hfinds
  have hslot := SlotTable.find_eq_some hfind
  rcases h.published.slot_cases hi hslot with ⟨-, -, rfl | ⟨rest, hslots⟩⟩ | ⟨-, hmem⟩
  · exact hd
  · -- the parent has an entry, and so it has a name
    by_contra hnot
    have hempty := h.empty m hnot
    rcases hd with rfl | hnamed
    · exact hnot (Or.inl (h.published.root_parent hi hslots))
    · obtain ⟨e, -, hmem⟩ := Volume.exists_of_named_pos hnamed
      obtain rfl := h.published.parent_eq hmem hi hty hslots
      rw [hempty] at hmem
      cases hmem
  · exact Or.inr (Volume.named_pos (h.published.dir_lt hmem) hmem)

/-- What is to show for a step: the other calls keep their places. -/
theorem of_rest (hpub : Published (s.after p f' x'))
    (hbalance : ∀ n, f'.linksOf n + (s.after p f' x').uninit n =
      f'.named n + (s.after p f' x').pend n + f'.subdirs n + if n = rootIno then 1 else 0)
    (hempty : ∀ n, ¬f'.Linked n → f'.entriesOf n = [])
    (hrest : ∀ q, q ≠ p → ∀ m ∈ (s.task q).stage.cursor, f'.Linked m)
    (hcursor : ∀ m ∈ x'.stage.cursor, f'.Linked m) : Exact (s.after p f' x') := by
  refine ⟨hpub, hbalance, hempty, fun q m hm => ?_⟩
  by_cases hq : q = p
  · rw [hq, after_task_self] at hm
    exact hcursor m hm
  · rw [after_task_of_ne _ _ _ hq] at hm
    exact hrest q hq m hm

/-- A step that leaves names and links alone. -/
theorem of_same (h : Exact s) (hpub : Published (s.after p f' x'))
    (hentries : ∀ d, f'.entriesOf d = s.vol.entriesOf d)
    (hsub : ∀ d, f'.subdirs d = s.vol.subdirs d) (hlinks : ∀ n, f'.linksOf n = s.vol.linksOf n)
    (hbirth : x'.stage.birth = (s.task p).stage.birth)
    (hpend : x'.stage.pending = (s.task p).stage.pending)
    (hcursor : ∀ m ∈ x'.stage.cursor, s.vol.Linked m) : Exact (s.after p f' x') := by
  have hlinked := Volume.linked_congr hentries
  refine of_rest hpub (fun n => ?_) (fun n hn => ?_)
    (fun q _ m hm => (hlinked m).2 (h.cursor q m hm)) fun m hm => ?_
  · rw [hlinks, Volume.named_of_entries hentries, hsub, uninit_congr hbirth, pend_congr hpend]
    exact h.balance n
  · rw [hentries]
    exact h.empty n fun hl => hn ((hlinked n).2 hl)
  · exact (hlinked m).2 (hcursor m hm)

omit [DecidableEq P] in
/-- `inode_put` leaves names and links alone: what it frees has none. -/
theorem put_counts (h : Exact s) (hwin : ∀ q, (s.task q).stage.window ≠ some n) :
    (∀ d, (s.vol.inodePut n).entriesOf d = s.vol.entriesOf d) ∧
    (∀ d, (s.vol.inodePut n).subdirs d = s.vol.subdirs d) ∧
    ∀ m, (s.vol.inodePut n).linksOf m = s.vol.linksOf m := by
  by_cases hlast : s.vol.rc n = 1 ∧ s.vol.linksOf n = 0
  · have hput : (s.vol.inodePut n).inodes = (s.vol.setIno n none).inodes := by
      rw [Volume.inodePut, if_pos hlast]
      rfl
    have hlow := h.balance n
    rw [hlast.2, Published.uninit_eq_zero hwin] at hlow
    have hnot := h.published.not_entry (n := n) (by omega)
    have hentries : s.vol.entriesOf n = [] := by
      refine h.empty n fun hl => ?_
      rcases hl with hroot | hpos
      · rw [if_pos hroot] at hlow
        omega
      · omega
    rw [Volume.entriesOf_congr hput, Volume.subdirs_congr hput, Volume.linksOf_congr hput]
    exact ⟨Volume.entriesOf_free hentries, Volume.subdirs_free hentries hnot,
      Volume.linksOf_free hlast.2⟩
  · have hput : (s.vol.inodePut n).inodes = s.vol.inodes := by
      rw [Volume.inodePut, if_neg hlast]
      rfl
    rw [Volume.entriesOf_congr hput, Volume.subdirs_congr hput, Volume.linksOf_congr hput]
    exact ⟨fun _ => rfl, fun _ => rfl, fun _ => rfl⟩

/-- **Every step keeps the counts right**, if calls begin in directories that
have a name. -/
theorem effect (h : Exact s) (he : Effect s.vol p (s.task p) f' x')
    (hothers : Apart s p) (hcwd : (s.task p).stage = .idle → s.vol.Linked (s.task p).cwd) :
    Exact (s.after p f' x') := by
  have hwindow : ∀ n q, q ≠ p → (s.task q).stage.window ≠ some n := fun n q hq hwin => by
    have hw := Stage.writing_of_window hwin
    rw [hothers.quiet q hq] at hw
    cases hw
  -- nobody else is in a call while names or links change
  have hrest : (s.task p).stage.writing = true →
      ∀ q, q ≠ p → ∀ m ∈ (s.task q).stage.cursor, f'.Linked m := fun hw q hq m hm => by
    rw [hothers.idle hw q hq] at hm
    cases hm
  have hpub := h.published.effect he fun n _ => hwindow n
  -- the counts in a volume with the same inodes
  have hsame : ∀ {g : Volume P}, g.inodes = s.vol.inodes →
      (∀ d, g.entriesOf d = s.vol.entriesOf d) ∧ (∀ d, g.subdirs d = s.vol.subdirs d) ∧
        ∀ n, g.linksOf n = s.vol.linksOf n := fun hg =>
    ⟨congrFun (Volume.entriesOf_congr hg), congrFun (Volume.subdirs_congr hg),
      congrFun (Volume.linksOf_congr hg)⟩
  cases he with
  | quiet held cwd birth birth' pending pending' claim' owns target' cursor' =>
    obtain ⟨hentries, hsub, hlinks⟩ := hsame (g := s.vol) rfl
    refine h.of_same hpub hentries hsub hlinks (birth'.trans birth.symm)
      (pending'.trans pending.symm) fun m hm => ?_
    rcases cursor' m hm with hm | ⟨d, hd, hfinds⟩
    · exact h.cursor p m hm
    · exact h.linked_of_finds (h.cursor p d hd) hfinds
  | @take dir n off i name hst =>
    obtain ⟨c, hst⟩ := hst
    obtain ⟨hentries, hsub, hlinks⟩ := hsame (g := s.vol.setLock dir (some p)) rfl
    exact h.of_same hpub hentries hsub hlinks (by rw [hst]; rfl) (by rw [hst]; rfl)
      (by rintro _ ⟨⟩)
  | @share n x' alloc source held cwd birth pending pending' claim owns target' cursor' =>
    obtain ⟨hentries, hsub, hlinks⟩ := hsame (g := s.vol.inodeShare n) rfl
    refine h.of_same hpub hentries hsub hlinks birth (pending'.trans pending.symm)
      fun m hm => ?_
    rcases cursor' m hm with hm | ⟨hidle, rfl | rfl⟩
    · exact h.cursor p m hm
    · exact Or.inl rfl
    · exact hcwd hidle
  | @put n x' held cwd birth pending own claim claim' owns target' cursor' =>
    have hwin := h.published.not_window_of_put (held.mem_iff.2 (by simp)) own
    obtain ⟨hentries, hsub, hlinks⟩ := h.put_counts hwin
    exact h.of_same hpub hentries hsub hlinks birth pending fun m hm =>
      h.cursor p m (cursor' m hm)
  | @putBusy dir n hst =>
    have hwin : ∀ q, (s.task q).stage.window ≠ some n :=
      h.published.not_window (p := p) (by simp [Task.held, hst, Stage.refs]) (by rw [hst]; rfl)
    obtain ⟨hentries, hsub, hlinks⟩ := h.put_counts hwin
    exact h.of_same hpub hentries hsub hlinks (by rw [hst]; rfl) (by rw [hst]; rfl)
      (by rintro _ ⟨⟩)
  | @lose n i ino type hst =>
    obtain ⟨c, path, hst⟩ := hst
    obtain ⟨hentries, hsub, hlinks⟩ := hsame (g := s.vol.lose n) rfl
    exact h.of_same hpub hentries hsub hlinks (by rw [hst]; rfl) (by rw [hst]; rfl)
      (by rintro _ ⟨⟩)
  | @leak n hst source =>
    obtain ⟨hentries, hsub, hlinks⟩ := hsame (g := (s.vol.inodeShare n).lose n) rfl
    exact h.of_same hpub hentries hsub hlinks rfl rfl (by rw [hst]; rintro _ ⟨⟩)
  | @make c dir n i name ty hst lock ino type newType find free =>
    obtain ⟨hnamed, hsub, hlinks, hopen, howe⟩ :=
      h.published.counts_make rfl rfl hst ino type find free
    obtain ⟨hnone, -, -⟩ := Volume.findFree_spec free
    have hdir : s.vol.Linked dir := h.cursor p dir (by rw [hst]; simp [Stage.cursor])
    refine of_rest hpub (fun m => ?_) (fun m hm => ?_) (hrest (by rw [hst]; rfl)) (by rintro _ ⟨⟩)
    · rw [hnamed, hsub, hlinks, hopen, howe]
      have hbal := h.balance m
      omega
    · have hm' : ¬s.vol.Linked m := by
        rintro (hroot | hpos)
        · exact hm (Or.inl hroot)
        · exact hm (Or.inr (by rw [hnamed]; omega))
      have hmd : m ≠ dir := by
        rintro rfl
        exact hm' hdir
      rw [Volume.entriesOf_make_of_ne ino hnone hmd]
      exact h.empty m hm'
  | @init c dir n i x' hst lock ino held cwd birth' pending' claim' owns' target' cursor' =>
    obtain ⟨hnamed, hsub, hlinks, hopen, howe⟩ :=
      h.published.counts_init rfl hst ino birth' pending'
    obtain ⟨-, j, hj, -, -, hentries, -⟩ := h.published.initialised hst ino
    refine of_rest hpub (fun m => ?_) (fun m hm => ?_) (hrest (by rw [hst]; rfl))
      (by rw [cursor']; simp)
    · rw [hnamed, hsub, hlinks, howe]
      have hbal := h.balance m
      have hopen := hopen m
      omega
    · rw [hj, Volume.entriesOf_rewrite ino hentries]
      refine h.empty m fun hl => hm ?_
      rw [Volume.Linked, hnamed]
      exact hl
  | @clear dir n off i j hst ino lock ino' links empty =>
    obtain ⟨hnamed, hsub, hlinks, hopen, howe⟩ :=
      h.published.counts_clear rfl rfl hst ino ino'
    have hown := h.published.owns p dir (by rw [hst]; rfl)
    have hne : n ≠ dir := ne_of_values lock hown (by simp)
    have hcleared : ∀ d, (((s.vol.clearSlot dir i off j.type).setLock dir none).setLock n
        (some p)).entriesOf d = (s.vol.clearSlot dir i off j.type).entriesOf d :=
      congrFun (Volume.entriesOf_congr rfl)
    refine of_rest hpub (fun m => ?_) (fun m hm => ?_) (hrest (by rw [hst]; rfl)) (by rintro _ ⟨⟩)
    · rw [hopen, howe]
      have hbal := h.balance m
      have hnamed := hnamed m
      have hsub := hsub m
      have hlinks := hlinks m
      omega
    · rw [hcleared]
      by_cases hmn : m = n
      · -- what has lost its name is no directory, or an empty one
        rw [hmn, Volume.entriesOf_clearSlot_of_ne hne, Volume.entriesOf_of_some ino']
        rcases h.published.shape n j ino' with ⟨hnil, -⟩ | ⟨hty, -⟩
        · exact Ino.entries_of_nil hnil
        · exact Ino.entries_of_isEmpty (empty hty)
      · have hm' : ¬s.vol.Linked m := by
          rintro (hroot | hpos)
          · exact hm (Or.inl hroot)
          · have hnamed := hnamed m
            rw [if_neg hmn] at hnamed
            exact hm (Or.inr (by omega))
        have hnil := h.empty m hm'
        refine List.eq_nil_iff_forall_not_mem.2 fun k hk => ?_
        have hk := Volume.mem_entriesOf_clearSlot ino hk
        rw [hnil] at hk
        cases hk
  | @dec n i hst ino =>
    obtain ⟨hnamed, hsub, hlinks, hopen, howe⟩ := h.published.counts_dec rfl rfl hst ino
    refine of_rest hpub (fun m => ?_) (fun m hm => ?_) (hrest (by rw [hst]; rfl)) (by rintro _ ⟨⟩)
    · rw [hnamed, hsub, hopen]
      have hbal := h.balance m
      have howe := howe m
      have hlinks := hlinks m
      omega
    · have hentries : ((s.vol.setIno n (some { i with links := decr i.links })).setLock n
          none).entriesOf m = s.vol.entriesOf m :=
        (congrFun (Volume.entriesOf_congr rfl) m).trans (Volume.entriesOf_setLinks ino _)
      rw [hentries]
      refine h.empty m fun hl => hm ?_
      rw [Volume.Linked, hnamed]
      exact hl

theorem step (h : Exact s) (hothers : Apart s (actor a))
    (hcwd : (s.task (actor a)).stage = .idle → s.vol.Linked (s.task (actor a)).cwd)
    (hs : s.step a = some s') : Exact s' := by
  obtain ⟨f', x', rfl, he⟩ := h.published.refs.exists_effect hs
  exact h.effect he hothers hcwd

section

omit [DecidableEq P]

theorem init (img : Image) : Exact (img.init : NameSys P) := by
  have hf : (img.init : NameSys P).vol.inodes = img.inodes := rfl
  have hopen : ∀ n, (img.init : NameSys P).uninit n = 0 := fun n =>
    Published.uninit_eq_zero fun _ => nofun
  have howe : ∀ n, (img.init : NameSys P).pend n = 0 := fun n =>
    Finset.sum_eq_zero fun _ _ => rfl
  refine ⟨Published.init img, fun n => ?_, fun n hn => ?_, fun _ => nofun⟩
  · rw [hopen, howe, Image.named_eq hf, Image.subdirs_eq hf, Image.linksOf_eq hf]
    by_cases hroot : n = rootIno
    · have hfile : ¬(2 ≤ n ∧ n < img.names.length + 2) := fun hn => by
        rw [hroot] at hn
        exact absurd hn.1 (by decide)
      rw [if_neg hfile, if_pos hroot, if_pos (Or.inl hroot)]
    · simp only [hroot, false_or, if_false]
  · rw [Image.entriesOf_eq hf, if_neg fun hroot => hn (Or.inl hroot)]

/-- Between two calls nothing is left to do. -/
theorem links_eq (h : Exact s) (hidle : ∀ p, (s.task p).stage = .idle)
    (hi : s.vol.inodes n = some i) :
    i.links = s.vol.named n + s.vol.subdirs n + if n = rootIno then 1 else 0 := by
  have hbal := h.balance n
  have hopen : s.uninit n = 0 := Published.uninit_eq_zero fun q => by
    rw [hidle q]
    exact nofun
  have howe : s.pend n = 0 := Finset.sum_eq_zero fun q _ => by
    rw [Task.owes, hidle q]
    rfl
  rw [Volume.linksOf_of_some hi, hopen, howe] at hbal
  omega

end

end Exact

/-! ## The names of entries -/

/-- `"."` and `".."` are the first two slots of a directory only. -/
def Plain (s : NameSys P) : Prop :=
  ∀ d i off name n, s.vol.inodes d = some i → i.slots[off]? = some (some (name, n)) → 2 ≤ off →
    name ≠ dot ∧ name ≠ dotdot

/-- An entry after a step was there before, or `create` has inserted it. -/
theorem Published.slot_of_effect {name : Name} (h : Published s)
    (he : Effect s.vol p (s.task p) f' x') (hi : f'.inodes d = some i)
    (hslot : i.slots[off]? = some (some (name, n))) (hoff : 2 ≤ off) :
    (∃ j, s.vol.inodes d = some j ∧ j.slots[off]? = some (some (name, n))) ∨
      name ≠ dot ∧ name ≠ dotdot ∧ n ≠ d := by
  have hput : ∀ m, (s.vol.inodePut m).inodes d = some i → s.vol.inodes d = some i := by
    intro m hm
    rw [Volume.inodePut_inodes] at hm
    split_ifs at hm
    exact hm
  -- one inode is written, and what is in its slots was there before
  have hwrite : ∀ {k : ℕ} {j j' : Ino}, (s.vol.setIno k (some j')).inodes d = some i →
      s.vol.inodes k = some j → (j'.slots[off]? = some (some (name, n)) →
        j.slots[off]? = some (some (name, n))) →
      ∃ j, s.vol.inodes d = some j ∧ j.slots[off]? = some (some (name, n)) := by
    intro k j j' hset hk hold
    rw [Volume.setIno_inodes] at hset
    split_ifs at hset with hdk
    · obtain rfl := Option.some.inj hset
      exact ⟨j, hdk ▸ hk, hold hslot⟩
    · exact ⟨i, hset, hslot⟩
  cases he with
  | quiet | take | share | lose | leak => exact Or.inl ⟨i, hi, hslot⟩
  | put | putBusy => exact Or.inl ⟨i, hput _ hi, hslot⟩
  | @make c dir m j name' ty hst lock ino type newType find free =>
    have hheld : dir ∈ (s.task p).held := by simp [Task.held, hst, Stage.refs]
    obtain ⟨e, rest, hslots⟩ :=
      h.slots_of_dir ino type (h.uninit_of_held hheld (by rw [hst]; rfl))
    have hnone := SlotTable.find_eq_none_iff.1 find
    have hfirst : ∀ off' v, (dots dir e rest)[off']? ≠ some (some (name', v)) := hslots ▸ hnone
    by_cases hdir : d = dir
    · rw [Volume.make_inodes, if_pos hdir] at hi
      obtain rfl := Option.some.inj hi
      rcases getElem?_insertName hslot with hold | ⟨rfl, rfl⟩
      · exact Or.inl ⟨j, hdir ▸ ino, hold⟩
      · -- the first two slots have their names, and the new name was not there
        refine Or.inr ⟨?_, ?_, hdir ▸ Volume.make_ne ino (Volume.findFree_spec free).1⟩
        · rintro rfl
          exact hfirst 0 dir rfl
        · rintro rfl
          exact hfirst 1 e rfl
    · by_cases hdm : d = m
      · rw [Volume.make_inodes, if_neg hdir, if_pos hdm] at hi
        obtain rfl := Option.some.inj hi
        cases hslot
      · rw [Volume.make_inodes_of_ne hdir hdm] at hi
        exact Or.inl ⟨i, hi, hslot⟩
  | @init c dir m j x' hst lock ino =>
    obtain ⟨-, k, hk, -, -, -, hslots⟩ := h.initialised hst ino
    rw [hk] at hi
    refine Or.inl (hwrite hi ino fun hkslot => ?_)
    -- the inode has no third slot
    have hlen : k.slots.length ≤ 2 := by
      rw [hslots]
      split_ifs
      · exact Nat.le_refl 2
      · exact Nat.zero_le 2
    rw [List.getElem?_eq_none (by omega)] at hkslot
    cases hkslot
  | @clear dir m off' j k hst ino => exact Or.inl (hwrite hi ino SlotTable.getElem?_of_clear)
  | @dec m j hst ino => exact Or.inl (hwrite hi ino id)

theorem Plain.step (h : Plain s) (hpub : Published s) (hs : s.step a = some s') : Plain s' := by
  obtain ⟨f', x', rfl, he⟩ := hpub.refs.exists_effect hs
  intro d i off name n hi hslot hoff
  rcases hpub.slot_of_effect he hi hslot hoff with ⟨j, hj, hjslot⟩ | hname
  · exact h d j off name n hj hjslot hoff
  · exact ⟨hname.1, hname.2.1⟩

omit [DecidableEq P] in
theorem Plain.init {img : Image} (hdot : dot ∉ img.names) (hdotdot : dotdot ∉ img.names) :
    Plain (img.init : NameSys P) := by
  intro d i off name n hi hslot hoff
  have hi : img.inodes d = some i := hi
  rw [Image.inodes] at hi
  split_ifs at hi
  · obtain rfl := Option.some.inj hi
    obtain ⟨k, rfl⟩ := Nat.exists_eq_add_of_le hoff
    have hslot : (dots rootIno rootIno img.fileSlots)[2 + k]? = some (some (name, n)) := hslot
    rw [Nat.add_comm] at hslot
    have hmem : some (name, n) ∈ img.fileSlots := List.mem_of_getElem? (i := k) hslot
    rcases List.mem_append.1 hmem with hfile | hfree
    · obtain ⟨⟨name', n'⟩, hzip, heq⟩ := List.mem_map.1 hfile
      obtain ⟨rfl, rfl⟩ := pair_inj heq
      have hname : name' ∈ img.names := (List.mem_zipIdx hzip).2.2 ▸ List.getElem_mem _
      exact ⟨fun hd => hdot (hd ▸ hname), fun hd => hdotdot (hd ▸ hname)⟩
    · cases List.eq_of_mem_replicate hfree
  · obtain rfl := Option.some.inj hi
    cases hslot

/-! ## Whole runs -/

/-- **Link counts are exact** after every call, when calls run one at a time and
no process is in a removed directory as a call begins: `num_links` is the number
of entries that name the inode and of entries in it that name directories, and
one more for the root, which no entry names. The entries counted are those after
the first two slots; these are the ones not called `"."` or `".."`, unless the
image has a file of such a name. -/
theorem link_counts_exact {img : Image} {tr : List (NameSys P × NameAct P)}
    (hrun : Run step img.init tr s) (hone : ∀ x ∈ tr, OneAtATime x.1 x.2)
    (hcwd : ∀ x ∈ tr, CwdsLinked x.1 x.2) (hidle : ∀ p, (s.task p).stage = .idle) :
    (∀ n i, s.vol.inodes n = some i → n ≠ rootIno → i.links = s.vol.named n + s.vol.subdirs n) ∧
    (∀ i, s.vol.inodes rootIno = some i → i.links = 1 + s.vol.subdirs rootIno) ∧
    (dot ∉ img.names → dotdot ∉ img.names → ∀ d i off name n, s.vol.inodes d = some i →
      i.slots[off]? = some (some (name, n)) → (2 ≤ off ↔ name ≠ dot ∧ name ≠ dotdot)) := by
  have hall : Exact s ∧ Alone s ∧ (dot ∉ img.names → dotdot ∉ img.names → Plain s) := by
    refine hrun.invariantOf (K := fun s a => OneAtATime s a ∧ CwdsLinked s a)
      (I := fun s => Exact s ∧ Alone s ∧ (dot ∉ img.names → dotdot ∉ img.names → Plain s))
      (fun x hx => ⟨hone x hx, hcwd x hx⟩) ⟨Exact.init img, Alone.init img, Plain.init⟩ ?_
    rintro s a t ⟨h, halone, hplain⟩ ⟨hone, hcwd⟩ hs
    have hok := hone.writersAlone
    refine ⟨h.step (halone.apart hok hs) (fun hidle => ?_) hs, halone.step hok hs,
      fun hdot hdotdot => (hplain hdot hdotdot).step h.published hs⟩
    cases a with
    | go p fd => exact absurd rfl (idle_of_step hs hidle p fd)
    | call p | close p => exact hcwd p
  obtain ⟨h, -, hplain⟩ := hall
  refine ⟨fun n i hi hn => ?_, fun i hi => ?_, fun hdot hdotdot d i off name n hi hslot => ?_⟩
  · have hlinks := h.links_eq hidle hi
    rw [if_neg hn, Nat.add_zero] at hlinks
    exact hlinks
  · -- no entry names the root
    have hlinks := h.links_eq hidle hi
    have hhigh := h.published.high rootIno
    rw [Volume.linksOf_of_some hi] at hhigh
    rw [if_pos rfl] at hlinks
    omega
  · refine ⟨hplain hdot hdotdot d i off name n hi hslot, fun hname => ?_⟩
    rcases h.published.shape d i hi with ⟨hnil, -⟩ | ⟨-, e, rest, hslots⟩
    · rw [hnil] at hslot
      cases hslot
    · exact two_le_of_dots (hslots ▸ hslot) hname.1 hname.2

/-- Process 0 makes the directories `"/a"` and `"/a/b"`. -/
def twoDirs : List (NameAct (Fin 2)) :=
  let p : Fin 2 := ⟨0, Nat.two_pos⟩
  .call p .mkdirat [47, 97] :: List.replicate 6 (.go p true) ++
    .call p .mkdirat [47, 97, 47, 98] :: List.replicate 9 (.go p true)

/-- `"/a"` has a link for its name and one for `"/a/b"`. -/
theorem link_counts_exact_a : ∃ tr s i, Run (step (P := Fin 2)) noFiles.init tr s ∧
    (∀ p, (s.task p).stage = .idle) ∧ s.vol.inodes 2 = some i ∧ i.links = 2 ∧
    i.links = s.vol.named 2 + s.vol.subdirs 2 := by
  have hend : (exec step noFiles.init twoDirs).any (fun s =>
      decide (∀ p, (s.task p).stage = .idle) && (s.vol.inodes 2).any fun i => i.links = 2) =
        true := by decide +kernel
  have htr : (execTrace step noFiles.init twoDirs).all (fun x =>
      decide (OneAtATime x.1 x.2) && decide (∀ q, (x.1.task q).cwd = rootIno)) = true := by
    decide +kernel
  obtain ⟨s, hs, hany⟩ := (Option.any_eq_true _ _).1 hend
  rw [Bool.and_eq_true] at hany
  obtain ⟨i, hi, hlinks⟩ := (Option.any_eq_true _ _).1 hany.2
  have hidle := of_decide_eq_true hany.1
  have hok := fun x hx => Bool.and_eq_true_iff.1 (List.all_eq_true.1 htr x hx)
  have hcwd : ∀ x ∈ execTrace step noFiles.init twoDirs, CwdsLinked x.1 x.2 := by
    rintro ⟨t, a⟩ hx
    have hroot := of_decide_eq_true (hok _ hx).2
    cases a with
    | go => trivial
    | call | close => exact fun q => Or.inl (hroot q)
  exact ⟨_, s, i, Run.of_exec hs, hidle, hi, of_decide_eq_true hlinks,
    (link_counts_exact (Run.of_exec hs) (fun x hx => of_decide_eq_true (hok x hx).1) hcwd
      hidle).1 2 i hi (by decide)⟩

end NameSys

end OsKernel.Fs
