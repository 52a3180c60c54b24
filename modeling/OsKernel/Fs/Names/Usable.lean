import OsKernel.Fs.Names.PublishedSteps

/-!
# A name is published with a usable inode

`create` gives a new inode its name and unlocks the directory, and only then
gets the inode and sets `num_links` to 1. Every `create` that makes an inode so
publishes it without links, and whoever gets and puts the inode in between frees
it (`stat_frees_created`). The entries of unlocked directories are usable all
along a run just when no `create` of the run makes one (`names_are_usable`).
-/

namespace OsKernel.Fs

/-! ## The image -/

namespace Image

variable {P : Type*} {img : Image} {d n : ℕ}

/-- The slots of the root directory after the first two. -/
def fileSlots (img : Image) : SlotTable Name ℕ :=
  (img.names.zipIdx 2).map some ++
    List.replicate (((img.names.length + 2) / 32 + 1) * 32 - (img.names.length + 2)) none

theorem rootSlots_eq (img : Image) : img.rootSlots = dots rootIno rootIno img.fileSlots := rfl

theorem values_fileSlots (img : Image) : img.fileSlots.values = List.range' 2 img.names.length := by
  have hfree : ∀ k, SlotTable.values (List.replicate k (none : Option (Name × ℕ))) = [] := by
    intro k
    induction k with
    | zero => rfl
    | succ k ih => exact ih
  have hfiles : SlotTable.values ((img.names.zipIdx 2).map some) =
      (img.names.zipIdx 2).map Prod.snd := by
    rw [SlotTable.values, List.filterMap_map, ← List.filterMap_eq_map]
    rfl
  rw [fileSlots, SlotTable.values, List.filterMap_append]
  change SlotTable.values _ ++ SlotTable.values _ = _
  rw [hfree, hfiles, List.append_nil, List.zipIdx_map_snd]

/-- The files of the image are the entries of the root directory. -/
theorem entriesOf_eq {f : Volume P} (hf : f.inodes = img.inodes) (d : ℕ) :
    f.entriesOf d = if d = rootIno then List.range' 2 img.names.length else [] := by
  rw [Volume.entriesOf, hf, inodes]
  by_cases hroot : d = rootIno
  · rw [if_pos hroot, if_pos hroot]
    exact (Ino.entries_of_dots img.rootSlots_eq).trans img.values_fileSlots
  · rw [if_neg hroot, if_neg hroot]
    split_ifs <;> rfl

theorem named_eq {f : Volume P} (hf : f.inodes = img.inodes) (n : ℕ) :
    f.named n = if 2 ≤ n ∧ n < img.names.length + 2 then 1 else 0 := by
  have hroot : rootIno ∈ Finset.range numInodes := by
    rw [Finset.mem_range]
    decide
  have hsum : f.named n = (f.entriesOf rootIno).count n := by
    refine Finset.sum_eq_single_of_mem rootIno hroot fun d _ hd => ?_
    rw [entriesOf_eq hf, if_neg hd]
    rfl
  have hnodup : (List.range' 2 img.names.length).Nodup := List.nodup_range'
  rw [hsum, entriesOf_eq hf, if_pos rfl, hnodup.count]
  simp only [List.mem_range'_1, Nat.add_comm 2]

theorem subdirs_eq {f : Volume P} (hf : f.inodes = img.inodes) (d : ℕ) : f.subdirs d = 0 := by
  refine List.countP_eq_zero.2 fun n hn => ?_
  rw [entriesOf_eq hf] at hn
  split_ifs at hn
  · have hmem := List.mem_range'_1.1 hn
    have hroot : n ≠ rootIno := by
      rintro rfl
      exact absurd hmem.1 (by decide)
    rw [Volume.isDir, hf, inodes, if_neg hroot, if_pos ⟨hmem.1, by omega⟩]
    simp
  · cases hn

theorem linksOf_eq {f : Volume P} (hf : f.inodes = img.inodes) (n : ℕ) :
    f.linksOf n = if n = rootIno ∨ 2 ≤ n ∧ n < img.names.length + 2 then 1 else 0 := by
  rw [Volume.linksOf, hf, inodes]
  by_cases hroot : n = rootIno
  · rw [if_pos hroot, if_pos (Or.inl hroot)]
    rfl
  · rw [if_neg hroot]
    simp only [hroot, false_or]
    split_ifs <;> rfl

end Image

namespace NameSys

variable {P : Type*} [Fintype P] [DecidableEq P] {s s' : NameSys P} {p : P} {a : NameAct P}
  {d n off : ℕ} {i : Ino}

section

omit [DecidableEq P]

/-- Names and links fit together on the image. -/
theorem Published.init (img : Image) : Published (img.init : NameSys P) := by
  have hf : (img.init : NameSys P).vol.inodes = img.inodes := rfl
  have hopen : ∀ n, (img.init : NameSys P).uninit n = 0 := fun n => uninit_eq_zero fun _ => nofun
  have howe : ∀ n, (img.init : NameSys P).pend n = 0 := fun n =>
    Finset.sum_eq_zero fun _ _ => rfl
  have hfits := img.fits
  have hfile : ∀ {n i}, img.inodes n = some i → n ≠ rootIno →
      n < img.names.length + 2 ∧ i = ⟨.regular, 1, []⟩ := by
    intro n i hi hn
    rw [Image.inodes, if_neg hn] at hi
    split_ifs at hi with hlt
    exact ⟨hlt.2, (Option.some.inj hi).symm⟩
  refine ⟨Refs.init img, fun n hn => ?_, fun n i hi => ?_, fun n => ?_, fun n => ?_,
    ⟨_, _, rfl, rfl, img.rootSlots_eq⟩, fun _ _ _ => nofun, fun _ _ => nofun, fun _ _ _ _ => nofun,
    fun e d i hd hi hty => ?_⟩
  · obtain ⟨i, hi⟩ := Option.ne_none_iff_exists'.1 hn
    by_cases hroot : n = rootIno
    · rw [hroot]
      decide
    · have := (hfile hi hroot).1
      omega
  · by_cases hroot : n = rootIno
    · rw [hf, hroot] at hi
      obtain rfl := Option.some.inj hi
      exact Or.inr ⟨rfl, rootIno, _, by rw [hroot]; exact img.rootSlots_eq⟩
    · obtain ⟨-, rfl⟩ := hfile hi hroot
      exact Or.inl ⟨rfl, nofun⟩
  · rw [hopen, howe, Image.named_eq hf, Image.subdirs_eq hf, Image.linksOf_eq hf]
    by_cases hroot : n = rootIno
    · have hlow : ¬(2 ≤ n ∧ n < img.names.length + 2) := fun hn => by
        rw [hroot] at hn
        exact absurd hn.1 (by decide)
      rw [if_neg hlow, if_pos hroot, if_pos (Or.inl hroot)]
    · simp only [hroot, false_or, if_false]
      omega
  · rw [hopen, Image.linksOf_eq hf, Image.subdirs_eq hf]
    split_ifs <;> omega
  · rw [Image.entriesOf_eq hf] at hd
    split_ifs at hd with he
    · have hd := (List.mem_range'_1.1 hd).1
      have hroot : d ≠ rootIno := by
        rintro rfl
        exact absurd hd (by decide)
      obtain ⟨-, rfl⟩ := hfile hi hroot
      cases hty
    · cases hd

/-- An inode with a name or a directory in it is allocated, and has links
unless it is not initialised. -/
theorem Published.usable (h : Published s)
    (hpos : 0 < s.vol.named n + s.vol.subdirs n + if n = rootIno then 1 else 0) :
    ∃ j, s.vol.inodes n = some j ∧ (1 ≤ j.links ∨ ∃ q, (s.task q).stage.window = some n) := by
  have hlow := h.low n
  cases hn : s.vol.inodes n with
  | none =>
    rw [Volume.linksOf_of_none hn, (h.zero_of_none hn).1] at hlow
    omega
  | some j =>
    refine ⟨j, rfl, ?_⟩
    rw [Volume.linksOf_of_some hn] at hlow
    rcases Nat.eq_zero_or_pos (s.uninit n) with hz | hw
    · exact Or.inl (by omega)
    · exact Or.inr (exists_window hw)

/-- The parent of a directory that has a name, or is the root, is usable. -/
theorem Published.parent_usable {rest : SlotTable Name ℕ} (h : Published s) (hi : s.vol.inodes d = some i)
    (hslots : i.slots = dots d n rest) (hty : i.type = .directory)
    (hlinked : d = rootIno ∨ 0 < s.vol.named d) :
    0 < s.vol.named n + s.vol.subdirs n + if n = rootIno then 1 else 0 := by
  rcases hlinked with rfl | hnamed
  · rw [h.root_parent hi hslots, if_pos rfl]
    omega
  · obtain ⟨e, -, hmem⟩ := Volume.exists_of_named_pos hnamed
    obtain rfl := h.parent_eq hmem hi hty hslots
    have hpos : 0 < s.vol.subdirs n :=
      List.countP_pos_iff.2 ⟨d, hmem, Volume.isDir_of_dir hi hty⟩
    omega

end

/-! ## Which steps publish -/

/-- The step of a `create` that gives a new inode its name. -/
def publishes (s : NameSys P) (a : NameAct P) : Bool :=
  match (s.task (actor a)).stage with
  | .parent c dir name =>
    c.newType.isSome && (s.vol.inodes dir).any fun i => (i.slots.find name).isNone
  | _ => false

/-- An entry of a directory that is not locked refers to an allocated inode with
links, and what `create` has still to initialise is allocated. -/
def Usable (s : NameSys P) : Prop :=
  (∀ d i (off : ℕ) name n, s.vol.lock d = none → s.vol.inodes d = some i →
    i.slots[off]? = some (some (name, n)) → ∃ j, s.vol.inodes n = some j ∧ 1 ≤ j.links) ∧
  ∀ q n, (s.task q).stage.window = some n → s.vol.inodes n ≠ none

omit [Fintype P] in
/-- After such a step the entry names an inode without links. -/
theorem not_usable_of_publishes (hp : publishes s a = true) (hs : s.step a = some s') :
    ¬Usable s' := by
  unfold publishes at hp
  cases hst : (s.task (actor a)).stage with
  | parent c dir name =>
    rw [hst, Bool.and_eq_true] at hp
    obtain ⟨ty, hty⟩ := Option.isSome_iff_exists.1 hp.1
    obtain ⟨i, hi, hnone⟩ := (Option.any_eq_true _ _).1 hp.2
    have hfind : i.slots.find name = none := Option.isNone_iff_eq_none.1 hnone
    obtain ⟨⟨f', x'⟩, hact, rfl⟩ := Option.map_eq_some_iff.1 hs
    cases a with
    | call p c path => cases hst.symm.trans (of_guarded hact).1
    | close p n => cases hst.symm.trans (of_guarded hact).1.1
    | go p fd =>
      have hst : (s.task p).stage = .parent c dir name := hst
      simp only [act, actor, Task.go, hst] at hact
      obtain ⟨hlock, j, hj, hk⟩ := Task.locked_eq_some hact
      obtain rfl := Option.mem_unique hi hj
      split_ifs at hk
      simp only [hty, Task.createIn, hfind] at hk
      obtain ⟨n, hn, hfx⟩ := Option.map_eq_some_iff.1 hk
      obtain ⟨rfl, rfl⟩ := Prod.mk.inj hfx
      have hslot : (insertName i.slots name n)[SlotTable.freeFrom 0 i.slots]? =
          some (some (name, n)) := by
        rw [insertName, hfind, if_neg (by simp),
          SlotTable.getElem?_put (SlotTable.free_freeFrom _).1, if_pos rfl]
      intro husable
      obtain ⟨k, hk, hlinks⟩ := husable.1 dir _ _ name n hlock
        (by rw [Volume.make_inodes, if_pos rfl]) hslot
      rw [Volume.make_inodes_self hi (Volume.findFree_spec hn).1] at hk
      obtain rfl := Option.some.inj hk
      cases hlinks
  | _ => simp [hst] at hp

/-- Nothing is being created, and the root is the only directory. -/
structure Settled (s : NameSys P) : Prop where
  published : Published s
  birth : ∀ q, (s.task q).stage.birth = none
  dirs : ∀ n, s.vol.isDir n = true → n = rootIno

namespace Settled

omit [DecidableEq P] in
theorem window (h : Settled s) (q : P) : (s.task q).stage.window = none := by
  rw [Stage.window, h.birth q]
  rfl

omit [DecidableEq P] in
theorem init (img : Image) : Settled (img.init : NameSys P) := by
  refine ⟨Published.init img, fun _ => rfl, fun n hn => ?_⟩
  by_contra hroot
  change (img.inodes n).any _ = true at hn
  rw [Image.inodes, if_neg hroot] at hn
  split_ifs at hn <;> simp at hn

theorem step (h : Settled s) (hp : publishes s a = false) (hs : s.step a = some s') :
    Settled s' := by
  obtain ⟨f', x', rfl, he⟩ := h.published.refs.exists_effect hs
  have hpub := h.published.effect he fun n _ q _ hwin => by
    rw [h.window q] at hwin
    cases hwin
  obtain ⟨hbirth, hdir⟩ : x'.stage.birth = none ∧ ∀ n, f'.isDir n = true → s.vol.isDir n = true := by
    have hput : ∀ m n, (s.vol.inodePut m).isDir n = true → s.vol.isDir n = true := fun m n hn => by
      rw [Volume.isDir, Volume.inodePut_inodes] at hn
      split_ifs at hn
      · cases hn
      · exact hn
    cases he with
    | quiet _ _ _ birth' => exact ⟨birth', fun _ hn => hn⟩
    | take | lose => exact ⟨rfl, fun _ hn => hn⟩
    | share _ _ _ _ birth => exact ⟨birth.trans (h.birth _), fun _ hn => hn⟩
    | leak => exact ⟨h.birth _, fun _ hn => hn⟩
    | put _ _ birth => exact ⟨birth.trans (h.birth _), hput _⟩
    | putBusy => exact ⟨rfl, hput _⟩
    | make hst lock ino type newType find => simp [publishes, hst, newType, ino, find] at hp
    | init hst =>
      have hb := h.birth (actor a)
      rw [hst] at hb
      cases hb
    | @clear dir n off i j hst ino =>
      have hsame : (s.vol.clearSlot dir i off j.type).isDir = s.vol.isDir :=
        Volume.isDir_rewrite ino rfl
      exact ⟨rfl, fun m hm => (congrFun hsame m).symm.trans hm⟩
    | dec hst ino =>
      exact ⟨rfl, fun m hm => (congrFun (Volume.isDir_setLinks ino _) m).symm.trans hm⟩
  refine ⟨hpub, fun q => ?_, fun n hn => h.dirs n (hdir n hn)⟩
  by_cases hq : q = actor a
  · rw [hq, after_task_self]
    exact hbirth
  · rw [after_task_of_ne _ _ _ hq]
    exact h.birth q

omit [DecidableEq P] in
theorem usable (h : Settled s) : Usable s := by
  refine ⟨fun d i off name n _ hi hslot => ?_, fun q n hw => ?_⟩
  · have hroot : 0 < s.vol.named rootIno + s.vol.subdirs rootIno +
        if rootIno = rootIno then 1 else 0 := by
      rw [if_pos rfl]
      omega
    have hpos : 0 < s.vol.named n + s.vol.subdirs n + if n = rootIno then 1 else 0 := by
      rcases h.published.slot_cases hi hslot with ⟨-, hty, hn⟩ | ⟨-, hmem⟩
      · obtain rfl := h.dirs d (Volume.isDir_of_dir hi hty)
        rcases hn with rfl | ⟨rest, hslots⟩
        · exact hroot
        · rw [h.published.root_parent hi hslots]
          exact hroot
      · have := Volume.named_pos (h.published.dir_lt hmem) hmem
        omega
    obtain ⟨j, hj, hlinks | ⟨q, hq⟩⟩ := h.published.usable hpos
    · exact ⟨j, hj, hlinks⟩
    · rw [h.window q] at hq
      cases hq
  · rw [h.window q] at hw
    cases hw

end Settled

/-- **The names are usable all along a run just when no step of it publishes**:
then every entry of a directory that is not locked refers to an allocated inode
with links, and what `create` has still to initialise is allocated, in every
state of the run. -/
theorem names_are_usable {img : Image} {tr : List (NameSys P × NameAct P)}
    (hrun : Run step img.init tr s) :
    (Usable s ∧ ∀ x ∈ tr, Usable x.1) ↔ ∀ x ∈ tr, publishes x.1 x.2 = false := by
  constructor
  · rintro ⟨hend, hall⟩ x hx
    obtain ⟨s', hs, hnext⟩ := hrun.next_of_mem hx
    refine Bool.eq_false_iff.2 fun hp => not_usable_of_publishes hp hs ?_
    rcases hnext with rfl | ⟨b, hb⟩
    · exact hend
    · exact hall _ hb
  · intro hok
    have hsettled : ∀ {tr' t}, Run step img.init tr' t → tr' <+: tr → Settled t :=
      fun hrun' hpre => hrun'.invariantOf (K := fun s a => publishes s a = false)
        (fun x hx => hok x (hpre.subset hx)) (Settled.init img) fun _ _ _ h hp hs => h.step hp hs
    refine ⟨(hsettled hrun (List.prefix_refl tr)).usable, fun x hx => ?_⟩
    obtain ⟨tr', t, hrun', -, hpre⟩ := hrun.of_mem hx
    exact (hsettled hrun' hpre).usable

/-! ## Two processes -/

/-- An image without files. -/
def noFiles : Image := ⟨[], by decide⟩

/-- An image with one file, `"f"`, which has number 2. -/
def oneFile : Image := ⟨[[102]], by decide⟩

/-- Process 0 asks for `"/f"` and has looked it up; process 1 removes it. -/
def removedInBetween : List (NameAct (Fin 2)) :=
  let p : Fin 2 := ⟨0, Nat.two_pos⟩
  let q := Fin.last 1
  [.call p .newfstatat [47, 102], .go p true, .go p true, .call q .unlinkat [47, 102],
    .go q true, .go q true, .go q true, .go q true, .go q true, .go q true, .go q true]

/-- Removing a file leaves the names usable, at any time. -/
theorem names_are_usable_removed : ∃ tr s, Run (step (P := Fin 2)) oneFile.init tr s ∧
    s.vol.inodes 2 = none ∧ Usable s ∧ ∀ x ∈ tr, Usable x.1 := by
  have hend : (exec step oneFile.init removedInBetween).any (fun s => (s.vol.inodes 2).isNone) =
      true := by decide +kernel
  have htr : (execTrace step oneFile.init removedInBetween).all (fun x => !publishes x.1 x.2) =
      true := by decide +kernel
  obtain ⟨s, hs, hnone⟩ := (Option.any_eq_true _ _).1 hend
  refine ⟨_, s, Run.of_exec hs, Option.isNone_iff_eq_none.1 hnone,
    (names_are_usable (Run.of_exec hs)).2 fun x hx => ?_⟩
  simpa using List.all_eq_true.1 htr x hx

/-- Process 0 has given the new inode its name `"/x"`; process 1 asks for
`"/x"`, to the end. -/
def statInBetween : List (NameAct (Fin 2)) :=
  [.call 0 (.openat true) [47, 120], .go 0 true, .go 0 true, .go 0 true,
    .call 1 .newfstatat [47, 120], .go 1 true, .go 1 true, .go 1 true, .go 1 true, .go 1 true,
    .go 1 true]

/-- **`newfstatat` frees what `create` has just published**: the entry names an
inode that is not allocated, and the step of process 0 is the failed
assertion. -/
theorem stat_frees_created : ∃ tr s i, Run (step (P := Fin 2)) noFiles.init tr s ∧
    s.vol.lock rootIno = none ∧ s.vol.inodes rootIno = some i ∧
    i.slots[2]? = some (some ([120], 2)) ∧ (s.task 0).stage.window = some 2 ∧
    s.vol.inodes 2 = none ∧ s.step (.go 0 true) = none := by
  have hend : (exec step noFiles.init statInBetween).any (fun s =>
      (s.vol.inodes rootIno).any fun i => i.slots[2]? = some (some ([120], 2)) &&
        (s.vol.lock rootIno).isNone && ((s.task 0).stage.window = some 2 : Bool) &&
        (s.vol.inodes 2).isNone && (s.step (.go 0 true)).isNone) = true := by decide +kernel
  obtain ⟨s, hs, hany⟩ := (Option.any_eq_true _ _).1 hend
  obtain ⟨i, hi, hall⟩ := (Option.any_eq_true _ _).1 hany
  simp only [Bool.and_eq_true, decide_eq_true_eq, Option.isNone_iff_eq_none] at hall
  obtain ⟨⟨⟨⟨hslot, hlock⟩, hwin⟩, hnone⟩, hstep⟩ := hall
  exact ⟨_, s, i, Run.of_exec hs, hlock, hi, hslot, hwin, hnone, hstep⟩

end NameSys

end OsKernel.Fs
