import OsKernel.Fs.Names.LinkCounts

/-!
# The tree of names

A directory that is removed while some process is in it stays allocated, with a
`".."` that names its parent, and the parent can be removed and freed
(`parent_of_cwd_freed`).

If nobody else refers to a directory that `unlinkat` removes, then between two
calls every entry names an allocated inode, and every allocated inode is
reachable from the root, or open, or the working directory of some process
(`no_dangling_entries`).
-/

namespace OsKernel.Fs

open Function

/-- An inode that a path of entries leads to from the root. -/
def Volume.Reach {P : Type*} (f : Volume P) (n : ℕ) : Prop :=
  Relation.ReflTransGen (fun d m => m ∈ f.entriesOf d) rootIno n

namespace NameSys

variable {P : Type*} [Fintype P] [DecidableEq P] {s s' : NameSys P} {f' : Volume P} {p q : P}
  {x' : Task} {a : NameAct P} {d e m n off : ℕ} {i j : Ino}

/-- When `unlinkat` is about to remove an empty directory, nobody else refers to
it. -/
def RemovesUnused (s : NameSys P) (a : NameAct P) : Prop :=
  ∀ dir n off j, (s.task (actor a)).stage = .unlinkLock dir n off → s.vol.inodes n = some j →
    j.type = .directory → j.isEmpty = true → s.vol.rc n = 1

/-- **The names are a tree.** -/
structure Rooted (s : NameSys P) : Prop where
  exact : Exact s
  cwd : ∀ p, s.vol.Linked (s.task p).cwd ∧ s.vol.isDir (s.task p).cwd = true
  entering : ∀ p m, (s.task p).stage.entering = some m → s.vol.isDir m = true
  /-- A lost reference is to a directory that has a name. -/
  lost : ∀ m ∈ s.vol.lost, s.vol.Linked m ∧ s.vol.isDir m = true
  /-- A directory has a name, or is about to be freed. -/
  dirs : ∀ n, s.vol.isDir n = true →
    s.vol.Linked n ∨ s.vol.rc n = 1 ∧ ∃ p, (s.task p).stage.leaving = some n
  /-- What has no name is referred to. -/
  held : ∀ n, s.vol.inodes n ≠ none → ¬s.vol.Linked n → 0 < s.vol.rc n
  reach : ∀ n, s.vol.Linked n → s.vol.Reach n

namespace Rooted

section

omit [Fintype P] [DecidableEq P]

theorem cursor_of_entering {x : Task} (h : x.stage.entering = some m) : m ∈ x.stage.cursor := by
  cases hst : x.stage with
  | enter cur =>
    rw [hst] at h
    obtain rfl : cur = m := Option.some.inj h
    simp [Stage.cursor]
  | _ => simp [hst, Stage.entering] at h

theorem target_of_getting {x : Task} (h : x.stage.getting = some n) :
    ∃ g, x.stage.target = some (n, g) := by
  cases hst : x.stage with
  | fetch | fetchOld | fetchNew | unlinkGet =>
    rw [hst] at h
    obtain rfl := Option.some.inj h
    exact ⟨_, rfl⟩
  | _ => simp [hst, Stage.getting] at h

/-- What a call is to get has been found, or created. -/
theorem found_of_target {x : Task} {g : ℕ} (h : x.stage.target = some (n, g)) :
    n ∈ x.stage.cursor ∨ x.stage.window = some n ∨ ∃ d off, x.stage.claim = some (d, n, off) := by
  cases hst : x.stage with
  | next | fetch | found | fetchOld =>
    rw [hst] at h
    obtain ⟨rfl, -⟩ := pair_inj h
    exact Or.inl (by simp [Stage.cursor])
  | created | fetchNew =>
    rw [hst] at h
    obtain ⟨rfl, -⟩ := pair_inj h
    exact Or.inr (Or.inl rfl)
  | unlinkGet dir m off =>
    rw [hst] at h
    obtain ⟨rfl, -⟩ := pair_inj h
    exact Or.inr (Or.inr ⟨dir, off, rfl⟩)
  | _ => simp [hst, Stage.target] at h

theorem held_of_pending {x : Task} (h : x.stage.pending = some m) : m ∈ x.held := by
  unfold Task.held
  cases hst : x.stage with
  | unlinkPut | unlinkDec =>
    rw [hst] at h
    have h := Option.some.inj h
    simp [Stage.refs, h]
  | _ => simp [hst, Stage.pending] at h

theorem held_of_entering {x : Task} (h : x.stage.entering = some m) : m ∈ x.held := by
  unfold Task.held
  cases hst : x.stage with
  | enter cur =>
    rw [hst] at h
    have h := Option.some.inj h
    simp [Stage.refs, h]
  | _ => simp [hst, Stage.entering] at h

end

section

omit [DecidableEq P]

/-- What has a name is allocated. -/
theorem alloc_of_linked (h : Published s) (hn : s.vol.Linked n) : s.vol.inodes n ≠ none := by
  rcases hn with rfl | hpos
  · exact h.refs.root
  · intro hnone
    have := (h.zero_of_none hnone).2.1
    omega

theorem isDir_root (h : Published s) : s.vol.isDir rootIno = true := by
  obtain ⟨i, -, hi, hty, -⟩ := h.root
  exact Volume.isDir_of_dir hi hty

end

/-- What is to show for a step: the other calls keep their places. -/
theorem of_rest (hexact : Exact (s.after p f' x'))
    (hcwd : f'.Linked x'.cwd ∧ f'.isDir x'.cwd = true)
    (hkeep : ∀ q, q ≠ p → f'.Linked (s.task q).cwd ∧ f'.isDir (s.task q).cwd = true)
    (hentering : ∀ m, x'.stage.entering = some m → f'.isDir m = true)
    (hentering' : ∀ q, q ≠ p → ∀ m, (s.task q).stage.entering = some m → f'.isDir m = true)
    (hlost : ∀ m ∈ f'.lost, f'.Linked m ∧ f'.isDir m = true)
    (hdirs : ∀ n, f'.isDir n = true → f'.Linked n ∨ f'.rc n = 1 ∧
      (x'.stage.leaving = some n ∨ ∃ q, q ≠ p ∧ (s.task q).stage.leaving = some n))
    (hheld : ∀ n, f'.inodes n ≠ none → ¬f'.Linked n → 0 < f'.rc n)
    (hreach : ∀ n, f'.Linked n → f'.Reach n) : Rooted (s.after p f' x') := by
  refine ⟨hexact, fun q => ?_, fun q m hm => ?_, hlost, fun n hn => ?_, hheld, hreach⟩
  · by_cases hq : q = p
    · rw [hq, after_task_self]
      exact hcwd
    · rw [after_task_of_ne _ _ _ hq]
      exact hkeep q hq
  · by_cases hq : q = p
    · rw [hq, after_task_self] at hm
      exact hentering m hm
    · rw [after_task_of_ne _ _ _ hq] at hm
      exact hentering' q hq m hm
  · refine (hdirs n hn).imp_right fun hleave => ⟨hleave.1, ?_⟩
    rcases hleave.2 with hp | ⟨q, hq, hleave⟩
    · exact ⟨p, by rw [after_task_self]; exact hp⟩
    · exact ⟨q, by rw [after_task_of_ne _ _ _ hq]; exact hleave⟩

/-- A directory that has no name is put by this call or by another. -/
theorem leaving_of_not_linked (h : Rooted s) (hn : s.vol.isDir n = true) (hnot : ¬s.vol.Linked n)
    (p : P) : s.vol.rc n = 1 ∧ ((s.task p).stage.leaving = some n ∨
      ∃ q, q ≠ p ∧ (s.task q).stage.leaving = some n) := by
  obtain ⟨hrc, q, hq⟩ := (h.dirs n hn).resolve_left hnot
  by_cases hqp : q = p
  · exact ⟨hrc, Or.inl (hqp ▸ hq)⟩
  · exact ⟨hrc, Or.inr ⟨q, hqp, hq⟩⟩

theorem linked_of_isDir (h : Rooted s) (hothers : ∀ q, q ≠ p → (s.task q).stage = .idle)
    (hleaving : (s.task p).stage.leaving = none) (hn : s.vol.isDir n = true) : s.vol.Linked n := by
  by_contra hl
  rcases (h.leaving_of_not_linked hn hl p).2 with hleave | ⟨q, hq, hleave⟩
  · rw [hleaving] at hleave
    cases hleave
  · rw [hothers q hq] at hleave
    cases hleave

omit [DecidableEq P] in
/-- What a call refers to anew has a name, unless it runs alone. -/
theorem linked_of_source (h : Rooted s) (hw : (s.task p).stage.writing = false)
    (hsource : n = rootIno ∨ n = (s.task p).cwd ∨ (s.task p).stage.getting = some n) :
    s.vol.Linked n := by
  rcases hsource with rfl | rfl | hget
  · exact Or.inl rfl
  · exact (h.cwd p).1
  · obtain ⟨g, hg⟩ := target_of_getting hget
    rcases found_of_target hg with hcursor | hwin | ⟨d, off, hclaim⟩
    · exact h.exact.cursor p n hcursor
    · rw [Stage.writing_of_window hwin] at hw
      cases hw
    · rw [Stage.writing_of_claim hclaim] at hw
      cases hw

/-- A step that leaves names and types alone. -/
theorem of_same (h : Rooted s) (hexact : Exact (s.after p f' x'))
    (hentries : ∀ d, f'.entriesOf d = s.vol.entriesOf d) (hisDir : f'.isDir = s.vol.isDir)
    (halloc : ∀ n, f'.inodes n ≠ none → s.vol.inodes n ≠ none)
    (hrc : ∀ n, s.vol.rc n ≤ f'.rc n) (hcwd : x'.cwd = (s.task p).cwd)
    (hentering : ∀ m, x'.stage.entering = some m → s.vol.isDir m = true)
    (hlost : ∀ m ∈ f'.lost, m ∈ s.vol.lost ∨ s.vol.Linked m ∧ s.vol.isDir m = true)
    (hleaving : ∀ m, (s.task p).stage.leaving = some m →
      f'.rc = s.vol.rc ∧ x'.stage.leaving = some m)
    (hleaving' : ∀ q, q ≠ p → ∀ m, (s.task q).stage.leaving = some m → ¬s.vol.Linked m →
      f'.rc m = s.vol.rc m) : Rooted (s.after p f' x') := by
  have hlinked := Volume.linked_congr hentries
  have hreach : ∀ n, f'.Reach n ↔ s.vol.Reach n := fun n => by
    unfold Volume.Reach
    simp only [hentries]
  refine of_rest hexact ?_ (fun q _ => ?_) (fun m hm => ?_)
    (fun q _ m hm => hisDir ▸ h.entering q m hm) (fun m hm => ?_) (fun n hn => ?_)
    (fun n hn hnot => ?_) fun n hn => ?_
  · rw [hlinked, hisDir, hcwd]
    exact h.cwd p
  · rw [hlinked, hisDir]
    exact h.cwd q
  · rw [hisDir]
    exact hentering m hm
  · rw [hlinked, hisDir]
    exact (hlost m hm).elim (h.lost m) id
  · rw [hlinked]
    rw [hisDir] at hn
    by_cases hl : s.vol.Linked n
    · exact Or.inl hl
    · obtain ⟨hone, hleave | ⟨q, hq, hleave⟩⟩ := h.leaving_of_not_linked hn hl p
      · obtain ⟨hrc', hleave'⟩ := hleaving n hleave
        exact Or.inr ⟨hrc' ▸ hone, Or.inl hleave'⟩
      · exact Or.inr ⟨hleaving' q hq n hleave hl ▸ hone, Or.inr ⟨q, hq, hleave⟩⟩
  · have hpos := h.held n (halloc n hn) fun hl => hnot ((hlinked n).2 hl)
    exact Nat.lt_of_lt_of_le hpos (hrc n)
  · rw [hreach]
    exact h.reach n ((hlinked n).1 hn)

/-- What has no name and one reference has no links either, when it is put. -/
theorem links_of_put (h : Rooted s) (hothers : Apart s p)
    (hheld : (s.task p).held.Perm (n :: x'.held))
    (hpend : x'.stage.pending = (s.task p).stage.pending) (hone : s.vol.rc n = 1)
    (hnot : ¬s.vol.Linked n) (hwin : ∀ q, (s.task q).stage.window ≠ some n) :
    s.vol.linksOf n = 0 := by
  have hmem : n ∈ (s.task p).held := hheld.mem_iff.2 (by simp)
  obtain ⟨hroot, hcount, -, -⟩ := h.exact.published.refs.only_holder hmem hone
  have hbal := h.exact.balance n
  have hnamed : s.vol.named n = 0 := by
    by_contra hne
    exact hnot (Or.inr (Nat.pos_of_ne_zero hne))
  have hsub : s.vol.subdirs n = 0 := by
    rw [Volume.subdirs, h.exact.empty n hnot]
    rfl
  -- the call has no other reference to `n`, and so no link of it to take away
  have hpendp : (s.task p).stage.pending ≠ some n := fun hp => by
    have hmem' : n ∈ x'.held := held_of_pending (hpend.trans hp)
    have hpos := List.count_pos_iff.2 hmem'
    rw [hheld.count_eq, List.count_cons_self] at hcount
    omega
  have howe : s.pend n = 0 := Finset.sum_eq_zero fun q _ => by
    rw [Task.owes]
    refine if_neg ?_
    by_cases hq : q = p
    · rw [hq]
      exact hpendp
    · intro hpend
      have hw := Stage.writing_of_pending hpend
      rw [hothers.quiet q hq] at hw
      cases hw
  rw [hnamed, howe, hsub, Published.uninit_eq_zero hwin, if_neg hroot] at hbal
  omega

section

variable (h : Rooted s) (hexact : Exact (s.after p f' x')) (hothers : Apart s p)

include h hexact hothers

/-- `inode_put`. -/
theorem of_put (hin : f'.inodes = (s.vol.inodePut n).inodes) (hrc : f'.rc = (s.vol.inodePut n).rc)
    (hlost : f'.lost = s.vol.lost) (hheld : (s.task p).held.Perm (n :: x'.held))
    (hpend : x'.stage.pending = (s.task p).stage.pending)
    (hwin : ∀ q, (s.task q).stage.window ≠ some n)
    (hcwd : x'.cwd = (s.task p).cwd ∨ (s.task p).stage.entering = some x'.cwd)
    (hentering : x'.stage.entering = none)
    (hleaving : ∀ m, (s.task p).stage.leaving = some m → m = n ∨ x'.stage.leaving = some m) :
    Rooted (s.after p f' x') := by
  have hmem : n ∈ (s.task p).held := hheld.mem_iff.2 (by simp)
  have hentries : ∀ d, f'.entriesOf d = s.vol.entriesOf d := fun d => by
    rw [Volume.entriesOf_congr hin]
    exact (h.exact.put_counts hwin).1 d
  have hlinked := Volume.linked_congr hentries
  have hinodes : ∀ m, f'.inodes m =
      if m = n ∧ s.vol.rc n = 1 ∧ s.vol.linksOf n = 0 then none else s.vol.inodes m := fun m => by
    rw [hin, Volume.inodePut_inodes]
  have hrc' : ∀ m, f'.rc m = if m = n then s.vol.rc n - 1 else s.vol.rc m := fun m => by
    rw [hrc, Volume.inodePut_rc]
  -- what is not freed keeps its type
  have hisDir : ∀ m, (m = n → s.vol.rc n ≠ 1) → f'.isDir m = s.vol.isDir m := fun m hm => by
    rw [Volume.isDir, Volume.isDir, hinodes, if_neg fun hlast => hm hlast.1 hlast.2.1]
  have hdir_of : ∀ m, f'.isDir m = true → s.vol.isDir m = true := fun m hm => by
    rw [Volume.isDir, hinodes] at hm
    split_ifs at hm
    · cases hm
    · exact hm
  refine of_rest hexact ?_ (fun q hq => ?_) ?_ (fun q hq m hm => ?_) (fun m hm => ?_)
    (fun m hm => ?_) (fun m hm hnot => ?_) fun m hm => ?_
  · have hold : s.vol.Linked x'.cwd ∧ s.vol.isDir x'.cwd = true := by
      rcases hcwd with hcwd | henter
      · rw [hcwd]
        exact h.cwd p
      · exact ⟨h.exact.cursor p _ (cursor_of_entering henter), h.entering p _ henter⟩
    have hne : x'.cwd = n → s.vol.rc n ≠ 1 := fun heq hone => by
      obtain ⟨-, hcount, -, -⟩ := h.exact.published.refs.only_holder hmem hone
      have hpos : 0 < x'.held.count n := List.count_pos_iff.2 (heq ▸ by simp [Task.held])
      rw [hheld.count_eq, List.count_cons_self] at hcount
      omega
    rw [hlinked, hisDir _ hne]
    exact hold
  · have hne : (s.task q).cwd = n → s.vol.rc n ≠ 1 := fun heq hone => by
      obtain ⟨-, -, -, hother⟩ := h.exact.published.refs.only_holder hmem hone
      exact hother q hq (heq ▸ by simp [Task.held])
    rw [hlinked, hisDir _ hne]
    exact h.cwd q
  · rw [hentering]
    simp
  · have hne : m = n → s.vol.rc n ≠ 1 := fun heq hone => by
      obtain ⟨-, -, -, hother⟩ := h.exact.published.refs.only_holder hmem hone
      exact hother q hq (heq ▸ held_of_entering hm)
    rw [hisDir m hne]
    exact h.entering q m hm
  · rw [hlost] at hm
    have hne : m = n → s.vol.rc n ≠ 1 := fun heq hone => by
      obtain ⟨-, -, hnot, -⟩ := h.exact.published.refs.only_holder hmem hone
      exact hnot (heq ▸ hm)
    rw [hlinked, hisDir m hne]
    exact h.lost m hm
  · rw [hlinked]
    by_cases hl : s.vol.Linked m
    · exact Or.inl hl
    · obtain ⟨hone, hleave⟩ := h.leaving_of_not_linked (hdir_of m hm) hl p
      -- a directory without a name is freed when it is put
      have hmn : m ≠ n := by
        rintro rfl
        have hlinks := h.links_of_put hothers hheld hpend hone hl hwin
        rw [Volume.isDir, hinodes, if_pos ⟨rfl, hone, hlinks⟩] at hm
        cases hm
      exact Or.inr ⟨by rw [hrc', if_neg hmn]; exact hone,
        hleave.imp_left fun hp => (hleaving m hp).resolve_left hmn⟩
  · have hnot' : ¬s.vol.Linked m := fun hl => hnot ((hlinked m).2 hl)
    have halloc : s.vol.inodes m ≠ none := fun hnone => by
      rw [hinodes, hnone, ite_self] at hm
      exact hm rfl
    have hpos := h.held m halloc hnot'
    rw [hrc']
    by_cases hmn : m = n
    · rw [if_pos hmn]
      rw [hmn] at hpos hnot' hm
      by_contra hzero
      have hone : s.vol.rc n = 1 := by omega
      have hlinks := h.links_of_put hothers hheld hpend hone hnot' hwin
      rw [hinodes, if_pos ⟨rfl, hone, hlinks⟩] at hm
      exact hm rfl
    · rw [if_neg hmn]
      exact hpos
  · have hreach := h.reach m ((hlinked m).1 hm)
    unfold Volume.Reach
    simp only [hentries]
    exact hreach

/-- `create` inserts a name. -/
theorem of_make {c : Call} {dir g : ℕ} {name : Name} {ty : FileType}
    (hf' : f' = s.vol.make dir i name n ty) (hx' : x' = (s.task p).goto (.created c dir n g))
    (hst : (s.task p).stage = .parent c dir name) (hi : s.vol.inodes dir = some i)
    (hty : i.type = .directory) (hfind : i.slots.find name = none) (hfree : s.vol.findFree = some n) :
    Rooted (s.after p f' x') := by
  have hpub := h.exact.published
  obtain ⟨hnone, -, -⟩ := Volume.findFree_spec hfree
  obtain ⟨hnamed, -⟩ := hpub.counts_make hf' hx' hst hi hty hfind hfree
  have hheld : dir ∈ (s.task p).held := by simp [Task.held, hst, Stage.refs]
  obtain ⟨e, rest, hslots⟩ :=
    hpub.slots_of_dir hi hty (hpub.uninit_of_held hheld (by rw [hst]; rfl))
  have hlinked : ∀ {m}, s.vol.Linked m → f'.Linked m := fun hm =>
    hm.imp_right fun hpos => by rw [hnamed]; omega
  have hmono : ∀ {d m}, m ∈ s.vol.entriesOf d → m ∈ f'.entriesOf d := fun {d m} hm => by
    rw [hf']
    by_cases hd : d = dir
    · rw [hd] at hm ⊢
      exact (Volume.mem_entriesOf_make hi hslots hfind m).2 (Or.inl hm)
    · rw [Volume.entriesOf_make_of_ne hi hnone hd]
      exact hm
  have hisDir : ∀ m, m ≠ n → f'.isDir m = s.vol.isDir m := fun m hm => by
    by_cases hmd : m = dir
    · have hnew := Volume.make_inodes s.vol dir i name n ty m
      rw [if_pos hmd, ← hf'] at hnew
      rw [Volume.isDir_of_some hnew, hmd, Volume.isDir_of_some hi]
    · rw [Volume.isDir, Volume.isDir, hf', Volume.make_inodes_of_ne hmd hm]
  -- what is a directory already is not the new inode
  have hkeep : ∀ {m}, s.vol.Linked m ∧ s.vol.isDir m = true →
      f'.Linked m ∧ f'.isDir m = true := fun {m} hm => by
    have hmn : m ≠ n := by
      rintro rfl
      exact alloc_of_linked hpub hm.1 hnone
    exact ⟨hlinked hm.1, hisDir m hmn ▸ hm.2⟩
  have hmono' : ∀ {m}, s.vol.Reach m → f'.Reach m := fun {m} hm =>
    Relation.ReflTransGen.mono (fun _ _ hk => hmono hk) rootIno m hm
  have hidle := hothers.idle (by rw [hst]; rfl)
  refine of_rest hexact ?_ (fun q _ => hkeep (h.cwd q)) ?_
    (fun q hq m hm => by rw [hidle q hq] at hm; cases hm) (fun m hm => ?_)
    (fun m hm => ?_) (fun m hm hnot => ?_) fun m hm => ?_
  · rw [hx']
    exact hkeep (h.cwd p)
  · rw [hx']
    rintro _ ⟨⟩
  · rw [hf'] at hm
    exact hkeep (h.lost m hm)
  · by_cases hmn : m = n
    · exact Or.inl (Or.inr (by rw [hnamed, if_pos hmn]; omega))
    · rw [hisDir m hmn] at hm
      exact Or.inl (hlinked (h.linked_of_isDir hidle (by rw [hst]; rfl) hm))
  · have hmn : m ≠ n := by
      rintro rfl
      exact hnot (Or.inr (by rw [hnamed, if_pos rfl]; omega))
    have hrc : f'.rc = s.vol.rc := by rw [hf']; rfl
    rw [hrc]
    refine h.held m (fun hm' => ?_) fun hl => hnot (hlinked hl)
    have hmd : m ≠ dir := ne_of_values hm' hi (by simp)
    rw [hf', Volume.make_inodes_of_ne hmd hmn] at hm
    exact hm hm'
  · by_cases hmn : m = n
    · -- the new inode is reached through its directory
      have hdir : s.vol.Reach dir := h.reach dir (h.exact.cursor p dir (by
        rw [hst]
        simp [Stage.cursor]))
      refine Relation.ReflTransGen.tail (hmono' hdir) ?_
      rw [hf', hmn]
      exact (Volume.mem_entriesOf_make hi hslots hfind n).2 (Or.inr rfl)
    · refine hmono' (h.reach m (hm.imp_right fun hpos => ?_))
      rw [hnamed, if_neg hmn, Nat.add_zero] at hpos
      exact hpos

/-- `unlinkat` clears a slot. -/
theorem of_clear {dir : ℕ}
    (hf' : f' = ((s.vol.clearSlot dir i off j.type).setLock dir none).setLock n (some p))
    (hx' : x' = (s.task p).goto (.unlinkPut dir n)) (hst : (s.task p).stage = .unlinkLock dir n off)
    (hi : s.vol.inodes dir = some i) (hj : s.vol.inodes n = some j)
    (hempty : j.type = .directory → j.isEmpty = true)
    (hunused : j.type = .directory → s.vol.rc n = 1) : Rooted (s.after p f' x') := by
  have hpub := h.exact.published
  obtain ⟨-, hoff, ⟨name, hslot⟩, e, rest, hslots⟩ := hpub.claimed hst hi
  obtain ⟨hnamed, -⟩ := hpub.counts_clear hf' hx' hst hi hj
  have hin : f'.inodes = (s.vol.clearSlot dir i off j.type).inodes := by rw [hf']; rfl
  have hrc : f'.rc = s.vol.rc := by rw [hf']; rfl
  have hisDir : f'.isDir = s.vol.isDir := by
    rw [Volume.isDir_congr hin]
    exact Volume.isDir_rewrite hi rfl
  have hn : n ∈ (s.task p).stage.refs := by rw [hst]; simp [Stage.refs]
  have hheld : n ∈ (s.task p).held := by simp [Task.held, hn]
  have hnil : s.vol.entriesOf n = [] := by
    rw [Volume.entriesOf_of_some hj]
    rcases hpub.shape n j hj with ⟨hnil, -⟩ | ⟨hty, -⟩
    · exact Ino.entries_of_nil hnil
    · exact Ino.entries_of_isEmpty (hempty hty)
  have hlinked : ∀ {m}, m ≠ n → s.vol.Linked m → f'.Linked m := fun {m} hm hl =>
    hl.imp_right fun hpos => by
      have hnamed := hnamed m
      rw [if_neg hm] at hnamed
      omega
  have hlinked' : ∀ {m}, f'.Linked m → m ≠ n ∧ s.vol.Linked m := fun {m} hl => by
    have hone := hpub.named_le n
    have hlow := hpub.low n
    have hhigh := hpub.high n
    have hnamedn := hnamed n
    rw [if_pos rfl] at hnamedn
    refine ⟨?_, hl.imp_right fun hpos => ?_⟩
    · rintro rfl
      rcases hl with rfl | hpos
      · rw [if_pos rfl] at hlow
        omega
      · omega
    · have hnamed := hnamed m
      omega
  have hkeep : ∀ {m}, m ≠ n → s.vol.Linked m ∧ s.vol.isDir m = true →
      f'.Linked m ∧ f'.isDir m = true := fun hmn hm => ⟨hlinked hmn hm.1, hisDir ▸ hm.2⟩
  have hreach : ∀ {m}, s.vol.Reach m → m ≠ n → f'.Reach m := by
    -- nothing is reached through `n`, which has no entries
    intro m hm
    induction hm with
    | refl => exact fun _ => Relation.ReflTransGen.refl
    | @tail d m hd hmem ih =>
      intro hmn
      have hdn : d ≠ n := by
        rintro rfl
        rw [hnil] at hmem
        cases hmem
      refine Relation.ReflTransGen.tail (ih hdn) ?_
      rw [Volume.entriesOf_congr hin]
      exact Volume.mem_entriesOf_clearSlot_of_ne hi hslots hoff hslot hmem hmn
  -- a directory that the step removes is referred to by this call alone
  have hcwd : ∀ q, (s.task q).cwd ≠ n := by
    intro q heq
    have hdir := (h.cwd q).2
    rw [heq, Volume.isDir_of_some hj] at hdir
    obtain ⟨-, hcount, -, hother⟩ := hpub.refs.only_holder hheld (hunused (of_decide_eq_true hdir))
    by_cases hq : q = p
    · have hpos := List.count_pos_iff.2 hn
      rw [hq] at heq
      rw [Task.held, heq, List.count_cons_self, List.count_append] at hcount
      omega
    · exact hother q hq (heq ▸ by simp [Task.held])
  have hidle := hothers.idle (by rw [hst]; rfl)
  refine of_rest hexact ?_ (fun q _ => hkeep (hcwd q) (h.cwd q)) ?_
    (fun q hq m hm => by rw [hidle q hq] at hm; cases hm) (fun m hm => ?_)
    (fun m hm => ?_) (fun m hm hnot => ?_) fun m hm => hreach (h.reach m (hlinked' hm).2)
      (hlinked' hm).1
  · rw [hx']
    exact hkeep (hcwd p) (h.cwd p)
  · rw [hx']
    rintro _ ⟨⟩
  · have hm : m ∈ s.vol.lost := by
      rw [hf'] at hm
      exact hm
    refine hkeep ?_ (h.lost m hm)
    rintro rfl
    have hdir := (h.lost m hm).2
    rw [Volume.isDir_of_some hj] at hdir
    exact (hpub.refs.only_holder hheld (hunused (of_decide_eq_true hdir))).2.2.1 hm
  · rw [hisDir] at hm
    by_cases hmn : m = n
    · rw [hmn, Volume.isDir_of_some hj] at hm
      refine Or.inr ⟨by rw [hrc, hmn]; exact hunused (of_decide_eq_true hm), Or.inl ?_⟩
      rw [hx', hmn]
      rfl
    · exact Or.inl (hlinked hmn (h.linked_of_isDir hidle (by rw [hst]; rfl) hm))
  · rw [hrc]
    by_cases hmn : m = n
    · have hpos := List.count_pos_iff.2 hheld
      have hle := Refs.le_holds s p n
      have hcount := hpub.refs.count n
      rw [hmn]
      omega
    · refine h.held m (fun hm' => hm ?_) fun hl => hnot (hlinked hmn hl)
      have hmd : m ≠ dir := ne_of_values hm' hi (by simp)
      rw [hin]
      exact (Volume.setIno_inodes s.vol dir _ m).trans ((if_neg hmd).trans hm')

end

/-- **Every step keeps the tree.** -/
theorem effect (h : Rooted s) (he : Effect s.vol p (s.task p) f' x') (hothers : Apart s p)
    (hunused : ∀ dir n off j, (s.task p).stage = .unlinkLock dir n off →
      s.vol.inodes n = some j → j.type = .directory → j.isEmpty = true → s.vol.rc n = 1) :
    Rooted (s.after p f' x') := by
  have hexact := h.exact.effect he hothers fun _ => (h.cwd p).1
  have hpub := h.exact.published
  have hshare : ∀ n m, s.vol.rc m ≤ update s.vol.rc n (s.vol.rc n + 1) m := fun n m => by
    rw [update_apply]
    split_ifs with hm
    · rw [hm]
      exact Nat.le_succ _
    · exact Nat.le_refl _
  -- what another call is about to free gets no more references
  have hshare' : ∀ {n}, n = rootIno ∨ n = (s.task p).cwd ∨ (s.task p).stage.getting = some n →
      ∀ q, q ≠ p → ∀ m, (s.task q).stage.leaving = some m → ¬s.vol.Linked m →
        update s.vol.rc n (s.vol.rc n + 1) m = s.vol.rc m := fun hsource q hq m hm hnot => by
    refine update_of_ne ?_ _ _
    rintro rfl
    cases hw : (s.task p).stage.writing with
    | true =>
      rw [hothers.idle hw q hq] at hm
      cases hm
    | false => exact hnot (h.linked_of_source hw hsource)
  cases he with
  | quiet held cwd birth birth' pending pending' claim' owns target' cursor' entering' leaving =>
    refine h.of_same hexact (fun _ => rfl) rfl (fun _ hn => hn) (fun _ => Nat.le_refl _)
      cwd (fun m hm => ?_) (fun _ hm => Or.inl hm) (by rw [leaving]; simp) fun _ _ _ _ _ => rfl
    obtain ⟨i, hi, hty⟩ := entering' m hm
    exact Volume.isDir_of_dir hi hty
  | take hst =>
    obtain ⟨c, hst⟩ := hst
    exact h.of_same hexact (fun _ => rfl) rfl (fun _ hn => hn) (fun _ => Nat.le_refl _)
      rfl (by rintro _ ⟨⟩) (fun _ hm => Or.inl hm) (by rw [hst]; rintro _ ⟨⟩) fun _ _ _ _ _ => rfl
  | @share n x' alloc source held cwd birth pending pending' claim owns target' cursor' entering'
      leaving =>
    exact h.of_same hexact (fun _ => rfl) rfl (fun _ hn => hn) (hshare n) cwd
      (by rw [entering']; simp) (fun _ hm => Or.inl hm) (by rw [leaving]; simp) (hshare' source)
  | @put n x' held cwd birth pending own claim claim' owns target' cursor' entering' leaving =>
    refine h.of_put hexact hothers rfl rfl (Volume.inodePut_lost _ _) held pending
      (hpub.not_window_of_put (held.mem_iff.2 (by simp)) own) cwd entering' (fun m hm => ?_)
    rcases leaving with hn | hsame
    · rw [hn] at hm
      exact Or.inl (Option.some.inj hm).symm
    · exact Or.inr (hsame.trans hm)
  | @putBusy dir n hst =>
    exact h.of_put (n := n) hexact hothers rfl rfl (Volume.inodePut_lost _ _)
      (Task.held_of_refs (l := [n]) (by rw [hst]; rfl)) (by rw [hst]; rfl)
      (hpub.not_window (p := p) (by simp [Task.held, hst, Stage.refs]) (by rw [hst]; rfl))
      (Or.inl rfl) rfl (by rw [hst]; rintro _ ⟨⟩)
  | @lose n i ino type hst =>
    obtain ⟨c, path, hst⟩ := hst
    refine h.of_same hexact (fun _ => rfl) rfl (fun _ hn => hn) (fun _ => Nat.le_refl _)
      rfl (by rintro _ ⟨⟩) (fun m hm => ?_) (by rw [hst]; rintro _ ⟨⟩) fun _ _ _ _ _ => rfl
    -- what `namex` does not put is a directory that it has walked to
    rcases List.mem_cons.1 hm with rfl | hm
    · exact Or.inr ⟨h.exact.cursor p m (by rw [hst]; simp [Stage.cursor]),
        Volume.isDir_of_dir ino type⟩
    · exact Or.inl hm
  | @leak n hst source =>
    refine h.of_same hexact (fun _ => rfl) rfl (fun _ hn => hn) (hshare n) rfl
      (by rw [hst]; rintro _ ⟨⟩) (fun m hm => ?_) (by rw [hst]; rintro _ ⟨⟩)
      (hshare' (source.imp_right Or.inl))
    rcases List.mem_cons.1 hm with rfl | hm
    · rcases source with rfl | rfl
      · exact Or.inr ⟨Or.inl rfl, isDir_root hpub⟩
      · exact Or.inr (h.cwd p)
    · exact Or.inl hm
  | make hst lock ino type newType find free =>
    exact h.of_make hexact hothers rfl rfl hst ino type find free
  | @init c dir n i x' hst lock ino held cwd birth' pending' claim' owns' target' cursor'
      entering' =>
    obtain ⟨-, j, hj, hjty, -, hentries, -⟩ := hpub.initialised hst ino
    refine h.of_same hexact (fun d => ?_) ?_ (fun m hm hnone => ?_)
      (fun _ => Nat.le_refl _) cwd (by rw [entering']; simp) (fun _ hm => Or.inl hm)
      (by rw [hst]; rintro _ ⟨⟩) fun _ _ _ _ _ => rfl
    · rw [hj]
      exact Volume.entriesOf_rewrite ino hentries
    · rw [hj]
      exact Volume.isDir_rewrite ino hjty
    · rw [hj, Volume.setIno_inodes, if_neg (ne_of_values hnone ino (by simp))] at hm
      exact hm hnone
  | @clear dir n off i j hst ino lock ino' links empty =>
    exact h.of_clear hexact hothers rfl rfl hst ino ino' empty
      fun hty => hunused dir n off j hst ino' hty (empty hty)
  | @dec n i hst ino =>
    refine h.of_same hexact (fun d => ?_) ?_ (fun m hm hnone => ?_)
      (fun _ => Nat.le_refl _) rfl (by rintro _ ⟨⟩) (fun _ hm => Or.inl hm) (fun m hm => ⟨rfl, ?_⟩)
      fun _ _ _ _ _ => rfl
    · exact (congrFun (Volume.entriesOf_congr rfl) d).trans (Volume.entriesOf_setLinks ino _)
    · exact (Volume.isDir_congr rfl).trans (Volume.isDir_setLinks ino _)
    · exact hm ((Volume.setIno_inodes s.vol n _ m).trans
        ((if_neg (ne_of_values hnone ino (by simp))).trans hnone))
    · rw [hst] at hm
      exact hm

theorem step (h : Rooted s) (hothers : Apart s (actor a)) (hunused : RemovesUnused s a)
    (hs : s.step a = some s') : Rooted s' := by
  obtain ⟨f', x', rfl, he⟩ := h.exact.published.refs.exists_effect hs
  exact h.effect he hothers hunused

omit [DecidableEq P] in
theorem init (img : Image) : Rooted (img.init : NameSys P) := by
  have hf : (img.init : NameSys P).vol.inodes = img.inodes := rfl
  have hpub : Published (img.init : NameSys P) := Published.init img
  have hlinked : ∀ n, img.inodes n ≠ none → (img.init : NameSys P).vol.Linked n := fun n hn => by
    by_cases hroot : n = rootIno
    · exact Or.inl hroot
    · refine Or.inr ?_
      rw [Image.named_eq hf]
      rw [Image.inodes, if_neg hroot] at hn
      split_ifs at hn ⊢
      · exact Nat.one_pos
      · exact absurd rfl hn
  refine ⟨Exact.init img, fun _ => ⟨Or.inl rfl, isDir_root hpub⟩, fun _ _ => by rintro ⟨⟩,
    by rintro _ ⟨⟩,
    fun n hn => Or.inl (hlinked n fun hnone => ?_), fun n hn hnot => absurd (hlinked n hn) hnot,
    fun n hn => ?_⟩
  · rw [Volume.isDir_of_none (hf ▸ hnone)] at hn
    cases hn
  · rcases hn with rfl | hpos
    · exact Relation.ReflTransGen.refl
    · -- the files are in the root directory
      obtain ⟨d, -, hmem⟩ := Volume.exists_of_named_pos hpos
      have hd := hmem
      rw [Image.entriesOf_eq hf] at hd
      split_ifs at hd with hroot
      · exact Relation.ReflTransGen.single (hroot ▸ hmem)
      · cases hd

end Rooted

/-! ## Whole runs -/

omit [DecidableEq P] in
/-- Between two calls, what is allocated has a name or is referred to by a process
that has it open or as its working directory; a directory has a name. -/
theorem Rooted.named_or_held (h : Rooted s) (hidle : ∀ p, (s.task p).stage = .idle)
    (hn : s.vol.inodes n ≠ none) :
    s.vol.Linked n ∨ s.vol.isDir n = false ∧ ∃ p, n ∈ (s.task p).files ∨ n = (s.task p).cwd := by
  by_cases hl : s.vol.Linked n
  · exact Or.inl hl
  · have hdir : s.vol.isDir n = false := by
      refine Bool.eq_false_iff.2 fun hdir => ?_
      obtain ⟨-, p, hp⟩ := (h.dirs n hdir).resolve_left hl
      rw [hidle p] at hp
      cases hp
    refine Or.inr ⟨hdir, ?_⟩
    -- its references are not lost ones
    have hlost : n ∉ s.vol.lost := fun hmem => hl (h.lost n hmem).1
    have hcount := h.exact.published.refs.count n
    have hpos := h.held n hn hl
    rw [List.count_eq_zero.2 hlost, if_neg fun hroot => hl (Or.inl hroot)] at hcount
    have hholds : s.holds n ≠ 0 := by omega
    obtain ⟨p, -, hp⟩ := Finset.exists_ne_zero_of_sum_ne_zero hholds
    have hmem := List.count_pos_iff.1 (Nat.pos_of_ne_zero hp)
    rw [Task.held, hidle p, Stage.refs, List.append_nil] at hmem
    rcases List.mem_cons.1 hmem with hcwd | hfile
    · exact ⟨p, Or.inr hcwd⟩
    · exact ⟨p, Or.inl hfile⟩

omit [DecidableEq P] in
/-- What a call is to get is allocated. -/
theorem Rooted.alloc_of_target {g : ℕ} (h : Rooted s)
    (hn : (s.task p).stage.target = some (n, g)) : s.vol.inodes n ≠ none := by
  have hpub := h.exact.published
  rcases found_of_target hn with hcursor | hwin | ⟨d, off, hclaim⟩
  · exact alloc_of_linked hpub (h.exact.cursor p n hcursor)
  · obtain ⟨d, hb⟩ := Published.birth_of_window hwin
    obtain ⟨i, hi, -⟩ := (hpub.fresh p d n hb).alloc
    rw [hi]
    exact nofun
  · obtain ⟨hoff, i, name, hi, hslot⟩ := hpub.claim p d n off hclaim
    have hmem := Volume.mem_entriesOf hi hoff hslot
    exact hpub.alloc_of_entry (hpub.dir_lt hmem) hmem

/-- The tree stays when calls that create or remove run alone. -/
theorem rooted_step (h : Rooted s ∧ Alone s) (hok : WritersAlone s a) (hunused : RemovesUnused s a)
    (hs : s.step a = some s') : Rooted s' ∧ Alone s' :=
  ⟨h.1.step (h.2.apart hok hs) hunused hs, h.2.step hok hs⟩

/-- **No dangling entries**, in every run in which calls run one at a time and
nobody else refers to a directory that `unlinkat` removes. Between two calls
every entry, also `"."` and `".."`, of every directory names an allocated inode,
and every allocated inode is reachable from the root, or open, or a working
directory; and at any time, what a step gets is allocated. -/
theorem no_dangling_entries {img : Image} {tr : List (NameSys P × NameAct P)}
    (hrun : Run step img.init tr s) (hone : ∀ x ∈ tr, OneAtATime x.1 x.2)
    (hunused : ∀ x ∈ tr, RemovesUnused x.1 x.2) :
    ((∀ p, (s.task p).stage = .idle) →
      (∀ d i (off : ℕ) name n, s.vol.inodes d = some i →
        i.slots[off]? = some (some (name, n)) → s.vol.inodes n ≠ none) ∧
      ∀ n, s.vol.inodes n ≠ none →
        s.vol.Reach n ∨ ∃ p, n ∈ (s.task p).files ∨ n = (s.task p).cwd) ∧
    ∀ p n, (s.task p).stage.getting = some n → s.vol.inodes n ≠ none := by
  obtain ⟨h, -⟩ : Rooted s ∧ Alone s :=
    hrun.invariantOf (K := fun s a => OneAtATime s a ∧ RemovesUnused s a)
      (fun x hx => ⟨hone x hx, hunused x hx⟩) ⟨Rooted.init img, Alone.init img⟩
      fun _ _ _ h hok hs => rooted_step h hok.1.writersAlone hok.2 hs
  have hpub := h.exact.published
  refine ⟨fun hidle => ⟨fun d i off name n hi hslot => ?_, fun n hn => ?_⟩, fun p n hn => ?_⟩
  · rcases hpub.slot_cases hi hslot with ⟨-, hty, rfl | ⟨rest, hslots⟩⟩ | ⟨-, hmem⟩
    · rw [hi]
      exact nofun
    · have hlinked : s.vol.Linked d := by
        refine (h.named_or_held hidle (by rw [hi]; exact nofun)).resolve_right fun hnot => ?_
        rw [Volume.isDir_of_dir hi hty] at hnot
        cases hnot.1
      obtain ⟨j, hj, -⟩ := hpub.usable (hpub.parent_usable hi hslots hty hlinked)
      rw [hj]
      exact nofun
    · exact hpub.alloc_of_entry (hpub.dir_lt hmem) hmem
  · exact (h.named_or_held hidle hn).imp (h.reach n) And.right
  · obtain ⟨g, hg⟩ := Rooted.target_of_getting hn
    exact h.alloc_of_target hg

instance (s : NameSys P) (a : NameAct P) : Decidable (RemovesUnused s a) :=
  match hst : (s.task (actor a)).stage with
  | .unlinkLock dir n off =>
    decidable_of_iff (∀ j ∈ s.vol.inodes n, j.type = .directory → j.isEmpty = true →
        s.vol.rc n = 1) <| by
      refine ⟨fun h dir' n' off' j hst' => ?_, fun h j hj => h dir n off j hst hj⟩
      rw [hst] at hst'
      obtain ⟨-, rfl, -⟩ := Stage.unlinkLock.inj hst'
      exact h j
  | .idle | .walk .. | .next .. | .fetch .. | .reached .. | .enter .. | .parent .. | .found ..
  | .fetchOld .. | .old .. | .created .. | .fetchNew .. | .fresh .. | .unlinkGet ..
  | .unlinkBusy .. | .unlinkPut .. | .unlinkDec .. | .drop .. =>
    isTrue fun _ _ _ _ hst' => by rw [hst] at hst'; cases hst'

/-- Process 0 makes `"/a"` and `"/a/b"`; process 1 removes `"/a/b"`. -/
def madeAndRemoved : List (NameAct (Fin 2)) :=
  let q := Fin.last 1
  twoDirs ++ .call q .unlinkat [47, 97, 47, 98] :: List.replicate 10 (.go q true)

/-- `".."` of `"/a"` names an allocated inode, and `"/a"` is reachable or held. -/
theorem no_dangling_entries_a : ∃ tr s i, Run (step (P := Fin 2)) noFiles.init tr s ∧
    s.vol.inodes 2 = some i ∧ i.slots[1]? = some (some (dotdot, rootIno)) ∧
    s.vol.inodes rootIno ≠ none ∧ s.vol.inodes 3 = none ∧
    (s.vol.Reach 2 ∨ ∃ p, 2 ∈ (s.task p).files ∨ 2 = (s.task p).cwd) := by
  have hend : (exec step noFiles.init madeAndRemoved).any (fun s =>
      decide (∀ p, (s.task p).stage = .idle) && (s.vol.inodes 3).isNone &&
        (s.vol.inodes 2).any fun i => i.slots[1]? = some (some (dotdot, rootIno))) = true := by
    decide +kernel
  have htr : (execTrace step noFiles.init madeAndRemoved).all (fun x =>
      decide (OneAtATime x.1 x.2) && decide (RemovesUnused x.1 x.2)) = true := by decide +kernel
  obtain ⟨s, hs, hany⟩ := (Option.any_eq_true _ _).1 hend
  rw [Bool.and_eq_true, Bool.and_eq_true] at hany
  obtain ⟨⟨hidle, hfreed⟩, hany⟩ := hany
  obtain ⟨i, hi, hslot⟩ := (Option.any_eq_true _ _).1 hany
  have hslot := of_decide_eq_true hslot
  have hok := fun x hx => Bool.and_eq_true_iff.1 (List.all_eq_true.1 htr x hx)
  have hall := (no_dangling_entries (Run.of_exec hs) (fun x hx => of_decide_eq_true (hok x hx).1)
    fun x hx => of_decide_eq_true (hok x hx).2).1 (of_decide_eq_true hidle)
  exact ⟨_, s, i, Run.of_exec hs, hi, hslot, hall.1 2 i 1 _ _ hi hslot,
    Option.isNone_iff_eq_none.1 hfreed, hall.2 2 (by rw [hi]; exact nofun)⟩

/-! ## The parent of a working directory is removed -/

/-- Process 0 makes `"/a"` and `"/a/b"` and goes to `"/a/b"`; process 1 removes
`"/a/b"` and `"/a"`. -/
def removedUnderCwd : List (NameAct (Fin 2)) :=
  let p : Fin 2 := ⟨0, Nat.two_pos⟩
  let q := Fin.last 1
  twoDirs ++ .call p .chdir [47, 97, 47, 98] :: List.replicate 9 (.go p true) ++
    .call q .unlinkat [47, 97, 47, 98] :: List.replicate 10 (.go q true) ++
    .call q .unlinkat [47, 97] :: List.replicate 7 (.go q true)

/-- **A `".."` dangles**: the working directory of process 0 is allocated, and its
`".."` names an inode that has been freed, although every call has run to its
end before the next. -/
theorem parent_of_cwd_freed : ∃ tr s i, Run (step (P := Fin 2)) noFiles.init tr s ∧
    (∀ x ∈ tr, OneAtATime x.1 x.2) ∧ (∀ p, (s.task p).stage = .idle) ∧
    (s.task 0).cwd = 3 ∧ s.vol.inodes 3 = some i ∧ i.slots[1]? = some (some (dotdot, 2)) ∧
    s.vol.inodes 2 = none := by
  have hend : (exec step noFiles.init removedUnderCwd).any (fun s =>
      decide (∀ p, (s.task p).stage = .idle) && decide ((s.task 0).cwd = 3) &&
        (s.vol.inodes 2).isNone &&
        (s.vol.inodes 3).any fun i => i.slots[1]? = some (some (dotdot, 2))) = true := by
    decide +kernel
  have htr : (execTrace step noFiles.init removedUnderCwd).all (fun x =>
      decide (OneAtATime x.1 x.2)) = true := by decide +kernel
  obtain ⟨s, hs, hany⟩ := (Option.any_eq_true _ _).1 hend
  rw [Bool.and_eq_true, Bool.and_eq_true, Bool.and_eq_true] at hany
  obtain ⟨⟨⟨hidle, hcwd⟩, hfreed⟩, hany⟩ := hany
  obtain ⟨i, hi, hslot⟩ := (Option.any_eq_true _ _).1 hany
  exact ⟨_, s, i, Run.of_exec hs, fun x hx => of_decide_eq_true (List.all_eq_true.1 htr x hx),
    of_decide_eq_true hidle, of_decide_eq_true hcwd, hi, of_decide_eq_true hslot,
    Option.isNone_iff_eq_none.1 hfreed⟩

end NameSys

end OsKernel.Fs
