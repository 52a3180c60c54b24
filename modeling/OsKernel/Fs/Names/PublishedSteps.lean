import OsKernel.Common.Update
import OsKernel.Fs.Names.Published

/-!
# Names and links, step by step

Every step keeps names and links together (`Published.effect`), if it gets no
inode that another process has still to initialise. What a step leaves alone
for the others is said once (`Keeps`); the cases are those of `Effect`.
-/

namespace OsKernel.Fs

open Function

namespace NameSys

variable {P : Type*} [Fintype P] [DecidableEq P] {s s' : NameSys P} {f' : Volume P} {p q : P}
  {x' : Task} {a : NameAct P} {d e m n off : ℕ} {i j : Ino}

omit [Fintype P] [DecidableEq P] in
theorem ite_some_eq {o : Option ℕ} (m : ℕ) (h : o = some n) :
    (if o = some m then 1 else 0) = if m = n then 1 else 0 := by
  simp only [h, Option.some.injEq, eq_comm]

theorem uninit_congr (hbirth : x'.stage.birth = (s.task p).stage.birth) (n : ℕ) :
    (s.after p f' x').uninit n = s.uninit n := by
  have hsum := uninit_after s p f' x' n
  have heq : x'.opens n = (s.task p).opens n := by
    rw [Task.opens, Task.opens, Stage.window, Stage.window, hbirth]
  omega

theorem pend_congr (hpend : x'.stage.pending = (s.task p).stage.pending) (n : ℕ) :
    (s.after p f' x').pend n = s.pend n := by
  have hsum := pend_after s p f' x' n
  have heq : x'.owes n = (s.task p).owes n := by
    rw [Task.owes, Task.owes, hpend]
  omega

omit [Fintype P] [DecidableEq P] in
theorem owns_of_claim {x : Task} (h : x.stage.claim = some (d, n, off)) :
    x.stage.owns = some d ∧ d ∈ x.held := by
  unfold Task.held
  cases hst : x.stage with
  | unlinkGet | unlinkLock =>
    rw [hst] at h
    simp only [Stage.claim, Option.some.injEq, Prod.mk.injEq] at h
    simp [Stage.owns, Stage.refs, h.1]
  | _ => simp [hst, Stage.claim] at h

/-- **What a step of `p` leaves alone for the other processes**: what they have
locked, and the inodes that they have still to initialise. -/
structure Keeps (s : NameSys P) (p : P) (f' : Volume P) : Prop where
  lock : ∀ q n, q ≠ p → s.vol.lock n = some q → f'.lock n = some q
  slots : ∀ q n i, q ≠ p → s.vol.lock n = some q → n ∈ (s.task q).held →
    s.vol.inodes n = some i → ∃ i', f'.inodes n = some i' ∧ i'.slots = i.slots
  fresh : ∀ q d n, q ≠ p → (s.task q).stage.birth = some (d, n) →
    f'.inodes n = s.vol.inodes n ∧ f'.rc n = s.vol.rc n ∧
      (s.vol.isDir n = true → n ∈ s.vol.entriesOf d → n ∈ f'.entriesOf d)

omit [Fintype P] in
/-- An inode that is still to be initialised, after a step that leaves it
alone. -/
theorem Fresh.after (h : Fresh s q d n) (hino : f'.inodes n = s.vol.inodes n)
    (hrc : f'.rc n = ((s.after p f' x').task q).held.count n)
    (hent : s.vol.isDir n = true → n ∈ s.vol.entriesOf d → n ∈ f'.entriesOf d) :
    Fresh (s.after p f' x') q d n := by
  refine ⟨?_, hrc, h.ne, h.root, fun hn => ?_⟩
  · obtain ⟨i, hi, hslots⟩ := h.alloc
    exact ⟨i, hino.trans hi, hslots⟩
  · have hn : f'.isDir n = true := hn
    rw [Volume.isDir, hino] at hn
    exact hent hn (h.entry hn)

namespace Published

variable (h : Published s)
variable {dir : ℕ}

include h

/-- What is to show for a step, besides what it leaves alone. -/
theorem of_keeps (hkeeps : Keeps s p f') (hrefs : Refs (s.after p f' x'))
    (range : ∀ n, f'.inodes n ≠ none → n < numInodes) (shape : ∀ n i, f'.inodes n = some i →
      i.slots = [] ∧ (i.type = .directory → 0 < (s.after p f' x').uninit n) ∨
        i.type = .directory ∧ ∃ e rest, i.slots = dots n e rest)
    (low : ∀ n, f'.named n + (s.after p f' x').pend n + f'.subdirs n +
      (if n = rootIno then 1 else 0) ≤ f'.linksOf n + (s.after p f' x').uninit n)
    (high : ∀ n, f'.linksOf n + (s.after p f' x').uninit n ≤ 1 + f'.subdirs n)
    (root : ∃ i rest, f'.inodes rootIno = some i ∧ i.type = .directory ∧
      i.slots = dots rootIno rootIno rest)
    (fresh : ∀ d n, x'.stage.birth = some (d, n) → Fresh (s.after p f' x') p d n)
    (owns : ∀ n, x'.stage.owns = some n → f'.lock n = some p)
    (claim : ∀ d n off, x'.stage.claim = some (d, n, off) →
      2 ≤ off ∧ ∃ i name, f'.inodes d = some i ∧ i.slots[off]? = some (some (name, n)))
    (parent : ∀ e d i, d ∈ f'.entriesOf e → f'.inodes d = some i → i.type = .directory →
      i.slots = [] ∨ ∃ rest, i.slots = dots d e rest) : Published (s.after p f' x') := by
  refine ⟨hrefs, range, shape, low, high, root, fun q d n hb => ?_, fun q n ho => ?_,
    fun q d n off hc => ?_, parent⟩
  · by_cases hq : q = p
    · subst hq
      rw [after_task_self] at hb
      exact fresh d n hb
    · rw [after_task_of_ne _ _ _ hq] at hb
      have hf := h.fresh q d n hb
      obtain ⟨hino, hrc, hent⟩ := hkeeps.fresh q d n hq hb
      refine hf.after hino ?_ hent
      rw [hrc, after_task_of_ne _ _ _ hq]
      exact hf.rc
  · by_cases hq : q = p
    · subst hq
      rw [after_task_self] at ho
      exact owns n ho
    · rw [after_task_of_ne _ _ _ hq] at ho
      exact hkeeps.lock q n hq (h.owns q n ho)
  · by_cases hq : q = p
    · subst hq
      rw [after_task_self] at hc
      exact claim d n off hc
    · rw [after_task_of_ne _ _ _ hq] at hc
      obtain ⟨hoff, i, name, hi, hslot⟩ := h.claim q d n off hc
      obtain ⟨howns, hheld⟩ := owns_of_claim hc
      obtain ⟨i', hi', heq⟩ := hkeeps.slots q d i hq (h.owns q d howns) hheld hi
      exact ⟨hoff, i', name, hi', by rw [heq]; exact hslot⟩

/-- The inodes stay as they are. -/
theorem of_same (hrefs : Refs (s.after p f' x')) (hin : f'.inodes = s.vol.inodes)
    (hlock : ∀ q n, q ≠ p → s.vol.lock n = some q → f'.lock n = some q)
    (hrc : ∀ q n, q ≠ p → (s.task q).stage.window = some n → f'.rc n = s.vol.rc n)
    (hbirth : x'.stage.birth = (s.task p).stage.birth)
    (hpend : x'.stage.pending = (s.task p).stage.pending)
    (hself : ∀ d n, x'.stage.birth = some (d, n) → f'.rc n = x'.held.count n)
    (owns : ∀ n, x'.stage.owns = some n → f'.lock n = some p)
    (claim : ∀ d n off, x'.stage.claim = some (d, n, off) →
      2 ≤ off ∧ ∃ i name, s.vol.inodes d = some i ∧ i.slots[off]? = some (some (name, n))) :
    Published (s.after p f' x') := by
  have hkeeps : Keeps s p f' := by
    refine ⟨hlock, fun q n i _ _ _ hi => ⟨i, by rw [hin]; exact hi, rfl⟩, fun q d n hq hb => ?_⟩
    refine ⟨by rw [hin], hrc q n hq (window_of_birth hb), fun _ hmem => ?_⟩
    rw [Volume.entriesOf_congr hin]
    exact hmem
  refine h.of_keeps hkeeps hrefs ?_ ?_ ?_ ?_ ?_ (fun d n hb => ?_) owns ?_ ?_
  · rw [hin]
    exact h.range
  · simp only [hin, uninit_congr hbirth]
    exact h.shape
  · simp only [Volume.named_congr hin, Volume.subdirs_congr hin, Volume.linksOf_congr hin,
      uninit_congr hbirth, pend_congr hpend]
    exact h.low
  · simp only [Volume.subdirs_congr hin, Volume.linksOf_congr hin, uninit_congr hbirth]
    exact h.high
  · rw [hin]
    exact h.root
  · refine (h.fresh p d n (hbirth ▸ hb)).after (congrFun hin n) ?_ fun _ hmem => ?_
    · rw [after_task_self]
      exact hself d n hb
    · rw [Volume.entriesOf_congr hin]
      exact hmem
  · rw [hin]
    exact claim
  · rw [hin, Volume.entriesOf_congr hin]
    exact h.parent

/-- The last reference to an inode without links is put. -/
theorem of_free (hrefs : Refs (s.after p f' x')) (hin : f'.inodes = (s.vol.setIno n none).inodes)
    (hlock : ∀ q n, q ≠ p → s.vol.lock n = some q → f'.lock n = some q)
    (hrc : ∀ m, m ≠ n → f'.rc m = s.vol.rc m) (hn : n ∈ (s.task p).held) (hone : s.vol.rc n = 1)
    (hlinks : s.vol.linksOf n = 0) (hwin : ∀ q, (s.task q).stage.window ≠ some n)
    (hbirth : x'.stage.birth = (s.task p).stage.birth)
    (hpend : x'.stage.pending = (s.task p).stage.pending)
    (hself : ∀ d m, x'.stage.birth = some (d, m) → f'.rc m = x'.held.count m)
    (owns : ∀ n, x'.stage.owns = some n → f'.lock n = some p) (claim : x'.stage.claim = none) :
    Published (s.after p f' x') := by
  obtain ⟨hroot, -, -, hother⟩ := h.refs.only_holder hn hone
  have hlow := h.low n
  rw [hlinks, uninit_eq_zero hwin] at hlow
  -- nothing names `n`, and no directory is in it
  have hnamed := h.not_entry (n := n) (by omega)
  have hlt : n < numInodes := h.range n (h.refs.alloc hn)
  have hinodes : ∀ m, f'.inodes m = if m = n then none else s.vol.inodes m := fun m => by
    rw [hin, Volume.setIno_inodes]
  have hne : ∀ {m : ℕ} {i : Ino}, f'.inodes m = some i → m ≠ n ∧ s.vol.inodes m = some i := by
    intro m i hi
    rw [hinodes] at hi
    split_ifs at hi with hm
    exact ⟨hm, hi⟩
  have hentries : ∀ d, d ≠ n → f'.entriesOf d = s.vol.entriesOf d := fun d hd => by
    rw [Volume.entriesOf_congr hin, Volume.entriesOf_setIno, if_neg hd]
  have hentries' : f'.entriesOf n = [] := by
    rw [Volume.entriesOf_congr hin, Volume.entriesOf_setIno, if_pos rfl]
    rfl
  have hsub : ∀ d, d ≠ n → f'.subdirs d = s.vol.subdirs d := fun d hd => by
    rw [Volume.subdirs_congr hin]
    exact Volume.subdirs_setIno_of_ne none hd (Or.inr (hnamed d))
  have hlinks' : ∀ d, f'.linksOf d = s.vol.linksOf d := fun d => by
    rw [Volume.linksOf_congr hin, Volume.linksOf_setIno]
    split_ifs with hd
    · rw [hd, hlinks]
      rfl
    · rfl
  have hnamed' : ∀ m, f'.named m ≤ s.vol.named m := fun m => by
    have hset := Volume.named_setIno (f := s.vol) none hlt m
    have hzero : (Option.elim none [] Ino.entries).count m = 0 := rfl
    rw [Volume.named_congr hin]
    omega
  -- a directory that is not initialised is not in `n`
  have hdir : ∀ q d m, (s.task q).stage.birth = some (d, m) → s.vol.isDir m = true → d ≠ n := by
    rintro q d m hb hm rfl
    have hpos : 0 < s.vol.subdirs d :=
      List.countP_pos_iff.2 ⟨m, (h.fresh q d m hb).entry hm, hm⟩
    omega
  have hwin' : ∀ q d m, (s.task q).stage.birth = some (d, m) → m ≠ n := by
    rintro q d m hb rfl
    exact hwin q (window_of_birth hb)
  have hkeeps : Keeps s p f' := by
    refine ⟨hlock, fun q m i hq _ hmem hi => ⟨i, ?_, rfl⟩,
      fun q d m _ hb => ⟨?_, hrc m (hwin' q d m hb), fun hm hmem => ?_⟩⟩
    · have hmn : m ≠ n := fun hmn => hother q hq (hmn ▸ hmem)
      rw [hinodes, if_neg hmn]
      exact hi
    · rw [hinodes, if_neg (hwin' q d m hb)]
    · rw [hentries d (hdir q d m hb hm)]
      exact hmem
  refine h.of_keeps hkeeps hrefs (fun m hm => ?_) (fun m i hi => ?_) (fun m => ?_) (fun m => ?_)
    ?_ (fun d m hb => ?_) owns (fun d m off hc => ?_) (fun e d i hmem hi hty => ?_)
  · rw [hinodes] at hm
    split_ifs at hm with hmn
    · exact absurd rfl hm
    · exact h.range m hm
  · rw [uninit_congr hbirth]
    exact h.shape m i (hne hi).2
  · rw [uninit_congr hbirth, pend_congr hpend, hlinks' m]
    have hlow := h.low m
    have hle := hnamed' m
    by_cases hmn : m = n
    · have hzero : f'.subdirs m = 0 := by
        rw [Volume.subdirs, hmn, hentries']
        rfl
      omega
    · rw [hsub m hmn]
      omega
  · rw [uninit_congr hbirth, hlinks' m]
    have hhigh := h.high m
    by_cases hmn : m = n
    · rw [hmn, hlinks, uninit_eq_zero hwin]
      omega
    · rw [hsub m hmn]
      exact hhigh
  · obtain ⟨i, rest, hi, hty, hslots⟩ := h.root
    exact ⟨i, rest, by rw [hinodes, if_neg (Ne.symm hroot)]; exact hi, hty, hslots⟩
  · have hb' := hbirth ▸ hb
    refine (h.fresh p d m hb').after ?_ ?_ fun hm hmem => ?_
    · rw [hinodes, if_neg (hwin' p d m hb')]
    · rw [after_task_self]
      exact hself d m hb
    · rw [hentries d (hdir p d m hb' hm)]
      exact hmem
  · rw [claim] at hc
    cases hc
  · obtain ⟨-, hi⟩ := hne hi
    have hen : e ≠ n := by
      rintro rfl
      rw [hentries'] at hmem
      cases hmem
    rw [hentries e hen] at hmem
    exact h.parent e d i hmem hi hty

/-- What a process refers to is not open for others, and not for itself unless
it is just initialising it. -/
theorem uninit_of_held (hn : n ∈ (s.task p).held) (hb : (s.task p).stage.birth = none) :
    s.uninit n = 0 :=
  uninit_eq_zero (h.not_window hn hb)

/-- The counts after `create` has inserted a name. -/
theorem counts_make {c : Call} {g : ℕ} {name : Name} {ty : FileType}
    (hf' : f' = s.vol.make dir i name n ty) (hx' : x' = (s.task p).goto (.created c dir n g))
    (hst : (s.task p).stage = .parent c dir name) (hi : s.vol.inodes dir = some i)
    (hty : i.type = .directory) (hfind : i.slots.find name = none) (hfree : s.vol.findFree = some n) :
    (∀ m, f'.named m = s.vol.named m + if m = n then 1 else 0) ∧
    (∀ m, f'.subdirs m = s.vol.subdirs m + if m = dir ∧ ty = .directory then 1 else 0) ∧
    (∀ m, f'.linksOf m = s.vol.linksOf m + if m = dir ∧ ty = .directory then 1 else 0) ∧
    (∀ m, (s.after p f' x').uninit m = s.uninit m + if m = n then 1 else 0) ∧
    ∀ m, (s.after p f' x').pend m = s.pend m := by
  obtain ⟨hnone, -, hlt⟩ := Volume.findFree_spec hfree
  obtain ⟨-, hnamed, -⟩ := h.zero_of_none hnone
  have hheld : dir ∈ (s.task p).held := by simp [Task.held, hst, Stage.refs]
  have hbirth : (s.task p).stage.birth = none := by rw [hst]; rfl
  have hdirlt : dir < numInodes := h.range dir (by rw [hi]; simp)
  obtain ⟨e, rest, hslots⟩ := h.slots_of_dir hi hty (h.uninit_of_held hheld hbirth)
  have hnot := h.not_entry hnamed
  refine ⟨hf' ▸ Volume.named_make hi hslots hfind hnone hdirlt hlt,
    hf' ▸ Volume.subdirs_make hi hslots hfind hnone hnot,
    hf' ▸ Volume.linksOf_make hi hnone (h.links_lt dir), fun m => ?_,
    pend_congr (by rw [hx', hst]; rfl)⟩
  have hsum := uninit_after s p f' x' m
  have hbefore : (s.task p).opens m = 0 := by rw [Task.opens, Stage.window, hbirth]; rfl
  have hafter : x'.opens m = if m = n then 1 else 0 :=
    ite_some_eq m (by rw [hx']; rfl)
  omega

/-- **`create` inserts a name.** -/
theorem of_make {c : Call} {g : ℕ} {name : Name} {ty : FileType} (hrefs : Refs (s.after p f' x'))
    (hf' : f' = s.vol.make dir i name n ty) (hx' : x' = (s.task p).goto (.created c dir n g))
    (hst : (s.task p).stage = .parent c dir name) (hlock : s.vol.lock dir = none)
    (hi : s.vol.inodes dir = some i) (hty : i.type = .directory) (hfind : i.slots.find name = none)
    (hfree : s.vol.findFree = some n) : Published (s.after p f' x') := by
  obtain ⟨hnone, -, hlt⟩ := Volume.findFree_spec hfree
  obtain ⟨huninit, hnamed, hpend⟩ := h.zero_of_none hnone
  have hheld : dir ∈ (s.task p).held := by simp [Task.held, hst, Stage.refs]
  have hbirth : (s.task p).stage.birth = none := by rw [hst]; rfl
  have hdirlt : dir < numInodes := h.range dir (by rw [hi]; simp)
  obtain ⟨e, rest, hslots⟩ := h.slots_of_dir hi hty (h.uninit_of_held hheld hbirth)
  have hne : n ≠ dir := Volume.make_ne hi hnone
  have hroot : n ≠ rootIno := by
    rintro rfl
    exact h.refs.root hnone
  -- the volume after the step
  have hins := Volume.make_slots (n := n) hslots hfind
  have hdir : ∃ links, f'.inodes dir =
      some { i with slots := insertName i.slots name n, links := links } := by
    rw [hf', Volume.make_inodes, if_pos rfl]
    exact ⟨_, rfl⟩
  have hnew : f'.inodes n = some ⟨ty, 0, []⟩ := hf' ▸ Volume.make_inodes_self hi hnone
  have hold : ∀ m, m ≠ dir → m ≠ n → f'.inodes m = s.vol.inodes m := fun m hd hm =>
    hf' ▸ Volume.make_inodes_of_ne hd hm
  have hmemdir : ∀ m, m ∈ f'.entriesOf dir ↔ m ∈ s.vol.entriesOf dir ∨ m = n :=
    hf' ▸ Volume.mem_entriesOf_make hi hslots hfind
  have hmem : ∀ d, d ≠ dir → f'.entriesOf d = s.vol.entriesOf d := fun d hd =>
    hf' ▸ Volume.entriesOf_make_of_ne hi hnone hd
  obtain ⟨hnamed', hsub', hlinks, hopen, howe⟩ := h.counts_make hf' hx' hst hi hty hfind hfree
  have hrc : f'.rc = s.vol.rc := by rw [hf']; rfl
  have hlock' : f'.lock = s.vol.lock := by rw [hf']; rfl
  have hkeeps : Keeps s p f' := by
    refine ⟨fun q m _ hq => hlock' ▸ hq, fun q m j _ hq hm hj => ⟨j, ?_, rfl⟩,
      fun q d m hq hb => ?_⟩
    · have hmd : m ≠ dir := ne_of_values hq hlock (by simp)
      have hmn : m ≠ n := by
        rintro rfl
        exact h.refs.alloc hm hnone
      rw [hold m hmd hmn]
      exact hj
    · obtain ⟨j, hj, -⟩ := (h.fresh q d m hb).alloc
      have hmd : m ≠ dir := by
        rintro rfl
        exact h.not_window_of_held hheld hq (window_of_birth hb)
      have hmn : m ≠ n := ne_of_values hj hnone (by simp)
      refine ⟨hold m hmd hmn, congrFun hrc m, fun _ hmem' => ?_⟩
      by_cases hd : d = dir
      · rw [hd] at hmem' ⊢
        exact (hmemdir m).2 (Or.inl hmem')
      · rw [hmem d hd]
        exact hmem'
  refine h.of_keeps hkeeps hrefs (fun m hm => ?_) (fun m j hj => ?_) (fun m => ?_) (fun m => ?_)
    ?_ (fun d m hb => ?_) ?_ ?_ (fun e' d j hd hj hjty => ?_)
  · by_cases hmd : m = dir
    · exact hmd ▸ hdirlt
    · by_cases hmn : m = n
      · exact hmn ▸ hlt
      · rw [hold m hmd hmn] at hm
        exact h.range m hm
  · rw [hopen]
    by_cases hmd : m = dir
    · obtain ⟨links, hdir⟩ := hdir
      rw [hmd, hdir] at hj
      obtain rfl := Option.some.inj hj
      exact Or.inr ⟨hty, e, _, hmd ▸ hins⟩
    · by_cases hmn : m = n
      · rw [hmn, hnew] at hj
        obtain rfl := Option.some.inj hj
        exact Or.inl ⟨rfl, fun _ => by rw [if_pos hmn]; omega⟩
      · rw [hold m hmd hmn] at hj
        rw [if_neg hmn]
        exact h.shape m j hj
  · rw [hopen, howe, hnamed', hsub', hlinks]
    have hlow := h.low m
    omega
  · rw [hopen, hsub', hlinks]
    have hhigh := h.high m
    by_cases hmn : m = n
    · rw [hmn, Volume.linksOf_of_none hnone, huninit, if_pos rfl, if_neg fun hand => hne hand.1]
      omega
    · rw [if_neg hmn]
      omega
  · obtain ⟨j, rest', hj, hjty, hjs⟩ := h.root
    by_cases hrd : rootIno = dir
    · obtain ⟨links, hdir⟩ := hdir
      subst hrd
      obtain rfl := h.root_parent hi hslots
      exact ⟨_, _, hdir, hty, hins⟩
    · exact ⟨j, rest', by rw [hold _ hrd (Ne.symm hroot)]; exact hj, hjty, hjs⟩
  · obtain ⟨rfl, rfl⟩ : dir = d ∧ n = m := by
      simpa [hx', Task.goto, Stage.birth] using hb
    refine ⟨⟨_, hnew, rfl⟩, ?_, Ne.symm hne, hroot, fun _ => (hmemdir n).2 (Or.inr rfl)⟩
    -- nobody refers to an inode that was not allocated
    have hcount : (s.task p).held.count n = 0 := by
      have hle := Refs.le_holds s p n
      have hrc := h.refs.count n
      rw [h.refs.free n hnone] at hrc
      omega
    have hperm : x'.held.Perm (s.task p).held :=
      hx' ▸ Task.held_goto (l := []) (by rw [hst]; rfl)
    change f'.rc n = _
    rw [after_task_self, hrc, h.refs.free n hnone, hperm.count_eq, hcount]
  · rw [hx']
    rintro _ ⟨⟩
  · rw [hx']
    rintro _ _ _ ⟨⟩
  · by_cases hdn : d = n
    · rw [hdn, hnew] at hj
      obtain rfl := Option.some.inj hj
      exact Or.inl rfl
    · have hmem' : d ∈ s.vol.entriesOf e' := by
        by_cases hed : e' = dir
        · rw [hed] at hd ⊢
          exact ((hmemdir d).1 hd).resolve_right hdn
        · rwa [hmem e' hed] at hd
      by_cases hdd : d = dir
      · obtain ⟨links, hdir⟩ := hdir
        rw [hdd] at hmem' hj ⊢
        obtain rfl := Option.mem_unique hdir hj
        exact Or.inr ⟨_, h.parent_eq hmem' hi hty hslots ▸ hins⟩
      · rw [hold d hdd hdn] at hj
        exact h.parent e' d j hmem' hj hjty

/-- **An inode is written that keeps its type.** What is to show is what the step
is about: the slots of the inode, and the counts. -/
theorem of_rewrite (hrefs : Refs (s.after p f' x')) (hi : s.vol.inodes n = some i)
    (hin : f'.inodes = (s.vol.setIno n (some j)).inodes) (hty : j.type = i.type)
    (hrc : f'.rc = s.vol.rc) (hheld : n ∈ (s.task p).held)
    (hlock : ∀ q m, q ≠ p → s.vol.lock m = some q → m ≠ n ∧ f'.lock m = some q)
    (hsub : ∀ m, m ∈ j.entries → m ∈ i.entries)
    (hkeep : ∀ m, m ∈ i.entries → m ∈ j.entries ∨ m ∈ (s.task p).held)
    (hopen : ∀ m, m ≠ n → (s.after p f' x').uninit m = s.uninit m)
    (shape : j.slots = [] ∧ (j.type = .directory → 0 < (s.after p f' x').uninit n) ∨
      j.type = .directory ∧ ∃ e rest, j.slots = dots n e rest)
    (low : ∀ m, f'.named m + (s.after p f' x').pend m + f'.subdirs m +
      (if m = rootIno then 1 else 0) ≤ f'.linksOf m + (s.after p f' x').uninit m)
    (high : ∀ m, f'.linksOf m + (s.after p f' x').uninit m ≤ 1 + f'.subdirs m)
    (root : n = rootIno → ∃ rest, j.slots = dots rootIno rootIno rest)
    (fresh : x'.stage.birth = none) (owns : ∀ m, x'.stage.owns = some m → f'.lock m = some p)
    (claim : x'.stage.claim = none) (parent : ∀ e, n ∈ s.vol.entriesOf e → j.type = .directory →
      j.slots = [] ∨ ∃ rest, j.slots = dots n e rest) : Published (s.after p f' x') := by
  have hinodes : ∀ m, f'.inodes m = if m = n then some j else s.vol.inodes m := fun m => by
    rw [hin, Volume.setIno_inodes]
  have hmem : ∀ d, f'.entriesOf d = if d = n then j.entries else s.vol.entriesOf d := fun d => by
    rw [Volume.entriesOf_congr hin, Volume.entriesOf_setIno]
    rfl
  have hold : s.vol.entriesOf n = i.entries := Volume.entriesOf_of_some hi
  have hkeeps : Keeps s p f' := by
    refine ⟨fun q m hq hm => (hlock q m hq hm).2, fun q m k hq hm _ hk => ⟨k, ?_, rfl⟩,
      fun q d m hq hb => ?_⟩
    · rw [hinodes, if_neg (hlock q m hq hm).1]
      exact hk
    · have hnot : ∀ m', m' ∈ (s.task p).held → m ≠ m' := by
        rintro m' hm' rfl
        exact h.not_window_of_held hm' hq (window_of_birth hb)
      refine ⟨by rw [hinodes, if_neg (hnot n hheld)], congrFun hrc m, fun _ hmd => ?_⟩
      rw [hmem]
      split_ifs with hd
      · rw [hd, hold] at hmd
        exact (hkeep m hmd).resolve_right fun hm => hnot m hm rfl
      · exact hmd
  refine h.of_keeps hkeeps hrefs (fun m hm => ?_) (fun m k hk => ?_) low high ?_ ?_ owns ?_
    (fun e d k hd hk hkty => ?_)
  · by_cases hmn : m = n
    · exact h.range m (by rw [hmn, hi]; exact nofun)
    · rw [hinodes, if_neg hmn] at hm
      exact h.range m hm
  · rw [hinodes] at hk
    by_cases hmn : m = n
    · rw [if_pos hmn] at hk
      obtain rfl := Option.some.inj hk
      exact hmn ▸ shape
    · rw [if_neg hmn] at hk
      rw [hopen m hmn]
      exact h.shape m k hk
  · obtain ⟨k, rest, hk, hkty, hks⟩ := h.root
    by_cases hrn : rootIno = n
    · subst hrn
      obtain ⟨rest', hj⟩ := root rfl
      obtain rfl := Option.mem_unique hi hk
      exact ⟨j, rest', by rw [hinodes, if_pos rfl], hty.trans hkty, hj⟩
    · exact ⟨k, rest, by rw [hinodes, if_neg hrn]; exact hk, hkty, hks⟩
  · rw [fresh]
    exact nofun
  · rw [claim]
    exact nofun
  · have hd' : d ∈ s.vol.entriesOf e := by
      rw [hmem] at hd
      split_ifs at hd with he
      · rw [he, hold]
        exact hsub d hd
      · exact hd
    rw [hinodes] at hk
    by_cases hdn : d = n
    · rw [if_pos hdn] at hk
      obtain rfl := Option.some.inj hk
      rw [hdn] at hd' ⊢
      exact parent e hd' hkty
    · rw [if_neg hdn] at hk
      exact h.parent e d k hd' hk hkty

omit [DecidableEq P] in
/-- The inode that `create` has initialised. -/
theorem initialised {c : Call} (hst : (s.task p).stage = .fresh c dir n)
    (hi : s.vol.inodes n = some i) :
    i.slots = [] ∧ ∃ j, s.vol.initialise dir n i = s.vol.setIno n (some j) ∧ j.type = i.type ∧
      j.links = 1 ∧ j.entries = i.entries ∧
      j.slots = if i.type = .directory then dots n dir [] else [] := by
  have hslots : i.slots = [] := by
    obtain ⟨j, hj, hnil⟩ := (h.fresh p dir n (by rw [hst]; rfl)).alloc
    rw [hi] at hj
    rw [Option.some.inj hj, hnil]
  obtain ⟨j, hj, hjty, hjlinks, hjslots⟩ : ∃ j, s.vol.initialise dir n i = s.vol.setIno n (some j) ∧
      j.type = i.type ∧ j.links = 1 ∧
      j.slots = if i.type = .directory then dots n dir [] else [] := by
    refine ⟨_, rfl, rfl, rfl, ?_⟩
    rw [hslots, insertName_nil]
  refine ⟨hslots, j, hj, hjty, hjlinks, ?_, hjslots⟩
  rw [Ino.entries_of_nil hslots]
  split_ifs at hjslots
  · exact Ino.entries_of_dots hjslots
  · exact Ino.entries_of_nil hjslots

/-- The counts after `create` has initialised the inode: the link takes the
place of the window. -/
theorem counts_init {c : Call} (hf' : f' = s.vol.initialise dir n i)
    (hst : (s.task p).stage = .fresh c dir n) (hi : s.vol.inodes n = some i)
    (hbirth : x'.stage.birth = none) (hpend : x'.stage.pending = none) :
    (∀ m, f'.named m = s.vol.named m) ∧ (∀ m, f'.subdirs m = s.vol.subdirs m) ∧
    (∀ m, f'.linksOf m = s.vol.linksOf m + if m = n then 1 else 0) ∧
    (∀ m, (s.after p f' x').uninit m + (if m = n then 1 else 0) = s.uninit m) ∧
    ∀ m, (s.after p f' x').pend m = s.pend m := by
  have hwin : (s.task p).stage.window = some n := by rw [hst]; rfl
  obtain ⟨hslots, j, hj, hjty, hjlinks, hentries, -⟩ := h.initialised hst hi
  rw [← hf'] at hj
  have hsubn : s.vol.subdirs n = 0 := by
    rw [Volume.subdirs, Volume.entriesOf_of_some hi, Ino.entries_of_nil hslots]
    rfl
  refine ⟨hj ▸ Volume.named_rewrite hi hentries,
    fun d => hj ▸ Volume.subdirs_rewrite hi hjty hentries, fun m => ?_, fun m => ?_,
    pend_congr (by rw [hpend, hst]; rfl)⟩
  · rw [hj, Volume.linksOf_setIno]
    split_ifs with hm
    · have hhigh := h.high n
      have hpos := uninit_pos hwin
      rw [hm]
      change j.links = _
      omega
    · rfl
  · have hsum := uninit_after s p f' x' m
    have hbefore : (s.task p).opens m = if m = n then 1 else 0 := ite_some_eq m hwin
    have hafter : x'.opens m = 0 := by rw [Task.opens, Stage.window, hbirth]; rfl
    omega

/-- **`create` initialises the inode.** -/
theorem of_init {c : Call} (hrefs : Refs (s.after p f' x')) (hf' : f' = s.vol.initialise dir n i)
    (hst : (s.task p).stage = .fresh c dir n) (hlock : s.vol.lock n = none)
    (hi : s.vol.inodes n = some i) (hbirth : x'.stage.birth = none)
    (hpend : x'.stage.pending = none) (hclaim : x'.stage.claim = none)
    (howns : x'.stage.owns = none) : Published (s.after p f' x') := by
  have hfresh := h.fresh p dir n (by rw [hst]; rfl)
  obtain ⟨-, j, hj, hjty, -, hentries, hjslots⟩ := h.initialised hst hi
  rw [← hf'] at hj
  obtain ⟨hnamed, hsub, hlinks, hopen, howe⟩ := h.counts_init hf' hst hi hbirth hpend
  refine h.of_rewrite hrefs hi (by rw [hj]) hjty (by rw [hj]; rfl)
    (by simp [Task.held, hst, Stage.refs]) (fun q m _ hq => ⟨?_, hj ▸ hq⟩) (fun m hm => ?_)
    (fun m hm => Or.inl ?_) (fun m hm => ?_) ?_ (fun m => ?_) (fun m => ?_)
    (fun hroot => absurd hroot hfresh.root) hbirth ?_ hclaim (fun e hd hdir => ?_)
  · exact ne_of_values hq hlock (by simp)
  · exact hentries ▸ hm
  · exact hentries ▸ hm
  · have hopen := hopen m
    rw [if_neg hm] at hopen
    exact hopen
  · split_ifs at hjslots with hdir
    · exact Or.inr ⟨hjty.trans hdir, dir, [], hjslots⟩
    · exact Or.inl ⟨hjslots, fun hdir' => absurd (hjty.symm.trans hdir') hdir⟩
  · rw [hnamed, hsub, howe, hlinks]
    have hlow := h.low m
    have hopen := hopen m
    omega
  · rw [hsub, hlinks]
    have hhigh := h.high m
    have hopen := hopen m
    omega
  · rw [howns]
    simp
  · -- the inode has one name, and that is in `dir`
    have hdir : i.type = .directory := hjty.symm.trans hdir
    have hin : n ∈ s.vol.entriesOf dir :=
      hfresh.entry (by rw [Volume.isDir_of_some hi, decide_eq_true hdir])
    obtain rfl := Volume.eq_of_named_le (h.named_le n) (h.dir_lt hd) (h.dir_lt hin) hd hin
    rw [if_pos hdir] at hjslots
    exact Or.inr ⟨[], hjslots⟩

omit [DecidableEq P] in
/-- The slot that `unlinkat` is about to clear. -/
theorem claimed (hst : (s.task p).stage = .unlinkLock dir n off) (hi : s.vol.inodes dir = some i) :
    i.type = .directory ∧ 2 ≤ off ∧ (∃ name, i.slots[off]? = some (some (name, n))) ∧
      ∃ e rest, i.slots = dots dir e rest := by
  obtain ⟨hoff, i', name, hi', hslot⟩ := h.claim p dir n off (by rw [hst]; rfl)
  obtain rfl := Option.mem_unique hi hi'
  rcases h.shape dir i hi with ⟨hnil, -⟩ | ⟨hty, hdots⟩
  · rw [hnil] at hslot
    cases hslot
  · exact ⟨hty, hoff, ⟨name, hslot⟩, hdots⟩

/-- The counts after `unlinkat` has cleared a slot. -/
theorem counts_clear
    (hf' : f' = ((s.vol.clearSlot dir i off j.type).setLock dir none).setLock n (some p))
    (hx' : x' = (s.task p).goto (.unlinkPut dir n)) (hst : (s.task p).stage = .unlinkLock dir n off)
    (hi : s.vol.inodes dir = some i) (hj : s.vol.inodes n = some j) :
    (∀ m, f'.named m + (if m = n then 1 else 0) = s.vol.named m) ∧
    (∀ m, f'.subdirs m + (if m = dir ∧ j.type = .directory then 1 else 0) = s.vol.subdirs m) ∧
    (∀ m, f'.linksOf m + (if m = dir ∧ j.type = .directory then 1 else 0) = s.vol.linksOf m) ∧
    (∀ m, (s.after p f' x').uninit m = s.uninit m) ∧
    ∀ m, (s.after p f' x').pend m = s.pend m + if m = n then 1 else 0 := by
  obtain ⟨-, hoff, ⟨name, hslot⟩, e, rest, hslots⟩ := h.claimed hst hi
  have hzero : s.uninit dir = 0 :=
    h.uninit_of_held (p := p) (by simp [Task.held, hst, Stage.refs]) (by rw [hst]; rfl)
  have hdirlt : dir < numInodes := h.range dir (by rw [hi]; simp)
  have hin : f'.inodes = (s.vol.clearSlot dir i off j.type).inodes := by rw [hf']; rfl
  have hsub : ∀ d, f'.subdirs d + (if d = dir ∧ j.type = .directory then 1 else 0) =
      s.vol.subdirs d := fun d => by
    have hclear := Volume.subdirs_clearSlot (t := j.type) hi hslots hoff hslot d
    rw [Volume.isDir_of_some hj] at hclear
    simp only [decide_eq_true_eq] at hclear
    rw [Volume.subdirs_congr hin]
    exact hclear
  -- the directory has the link that it loses
  have hpos : j.type = .directory → 0 < s.vol.linksOf dir := fun hdir => by
    have hlow := h.low dir
    have hsubdir := hsub dir
    rw [if_pos ⟨rfl, hdir⟩] at hsubdir
    omega
  refine ⟨fun m => ?_, hsub, fun m => ?_, uninit_congr (by rw [hx', hst]; rfl), fun m => ?_⟩
  · rw [Volume.named_congr hin]
    exact Volume.named_clearSlot hi hslots hoff hslot hdirlt m
  · rw [Volume.linksOf_congr hin]
    exact Volume.linksOf_clearSlot hi hpos (Nat.lt_of_succ_lt (h.links_lt dir)) m
  · have hsum := pend_after s p f' x' m
    have hbefore : (s.task p).owes m = 0 := by rw [Task.owes, hst]; rfl
    have hafter : x'.owes m = if m = n then 1 else 0 := ite_some_eq m (by rw [hx']; rfl)
    omega

/-- **`unlinkat` clears a slot.** -/
theorem of_clear (hrefs : Refs (s.after p f' x'))
    (hf' : f' = ((s.vol.clearSlot dir i off j.type).setLock dir none).setLock n (some p))
    (hx' : x' = (s.task p).goto (.unlinkPut dir n)) (hst : (s.task p).stage = .unlinkLock dir n off)
    (hi : s.vol.inodes dir = some i) (hlock : s.vol.lock n = none) (hj : s.vol.inodes n = some j) :
    Published (s.after p f' x') := by
  obtain ⟨hty, hoff, ⟨name, hslot⟩, e, rest, hslots⟩ := h.claimed hst hi
  have hown : s.vol.lock dir = some p := h.owns p dir (by rw [hst]; rfl)
  have hheld : dir ∈ (s.task p).held := by simp [Task.held, hst, Stage.refs]
  have hcleared := Volume.clear_slots hslots hoff
  have hin : f'.inodes = (s.vol.clearSlot dir i off j.type).inodes := by rw [hf']; rfl
  obtain ⟨hnamed, hsub, hlinks, hopen, howe⟩ := h.counts_clear hf' hx' hst hi hj
  refine h.of_rewrite hrefs hi hin rfl (by rw [hf']; rfl) hheld (fun q m hq hm => ?_)
    (fun m hm => ?_) (fun m hm => ?_) (fun m _ => hopen m) (Or.inr ⟨hty, e, _, hcleared⟩)
    (fun m => ?_) (fun m => ?_) (fun hroot => ?_) (by rw [hx']; rfl) (fun m hm => ?_)
    (by rw [hx']; rfl) (fun e' hmem _ => Or.inr ?_)
  · have hmd : m ≠ dir := ne_of_values hm hown fun heq => hq (Option.some.inj heq)
    have hmn : m ≠ n := ne_of_values hm hlock (by simp)
    refine ⟨hmd, ?_⟩
    rw [hf']
    exact ((update_of_ne hmn _ _).trans (update_of_ne hmd _ _)).trans hm
  · obtain ⟨off', name', hoff', hslot'⟩ := Ino.exists_of_mem_entries hm
    exact Ino.mem_entries hoff' (SlotTable.getElem?_of_clear hslot')
  · -- the name that goes is that of an inode which the process refers to
    by_cases hmn : m = n
    · rw [hmn]
      simp [Task.held, hst, Stage.refs]
    · exact Or.inl (Volume.mem_clear_entries hslots hoff hslot _ hm hmn)
  · rw [hopen, howe]
    have hlow := h.low m
    have hnamed := hnamed m
    have hsub := hsub m
    have hlinks := hlinks m
    omega
  · rw [hopen]
    have hhigh := h.high m
    have hsub := hsub m
    have hlinks := hlinks m
    omega
  · subst hroot
    obtain rfl := h.root_parent hi hslots
    exact ⟨_, hcleared⟩
  · obtain rfl : n = m := by
      rw [hx'] at hm
      exact Option.some.inj hm
    rw [hf']
    exact update_self _ _ _
  · exact ⟨_, h.parent_eq hmem hi hty hslots ▸ hcleared⟩

/-- The counts after `unlinkat` has decremented `num_links`. -/
theorem counts_dec
    (hf' : f' = (s.vol.setIno n (some { i with links := decr i.links })).setLock n none)
    (hx' : x' = (s.task p).goto (.drop n)) (hst : (s.task p).stage = .unlinkDec n)
    (hi : s.vol.inodes n = some i) :
    (∀ m, f'.named m = s.vol.named m) ∧ (∀ m, f'.subdirs m = s.vol.subdirs m) ∧
    (∀ m, f'.linksOf m + (if m = n then 1 else 0) = s.vol.linksOf m) ∧
    (∀ m, (s.after p f' x').uninit m = s.uninit m) ∧
    ∀ m, (s.after p f' x').pend m + (if m = n then 1 else 0) = s.pend m := by
  have hzero : s.uninit n = 0 :=
    h.uninit_of_held (p := p) (by simp [Task.held, hst, Stage.refs]) (by rw [hst]; rfl)
  obtain ⟨j, hin, hjty, hjslots, hjlinks⟩ : ∃ j, f'.inodes = (s.vol.setIno n (some j)).inodes ∧
      j.type = i.type ∧ j.slots = i.slots ∧ j.links = decr i.links :=
    ⟨{ i with links := decr i.links }, by rw [hf']; rfl, rfl, rfl, rfl⟩
  have hentries : j.entries = i.entries := by rw [Ino.entries, Ino.entries, hjslots]
  have howe : ∀ m, (s.after p f' x').pend m + (if m = n then 1 else 0) = s.pend m := fun m => by
    have hsum := pend_after s p f' x' m
    have hbefore : (s.task p).owes m = if m = n then 1 else 0 :=
      ite_some_eq m (by rw [hst]; rfl)
    have hafter : x'.owes m = 0 := by rw [hx']; rfl
    omega
  refine ⟨fun m => ?_, fun d => ?_, fun m => ?_, uninit_congr (by rw [hx', hst]; rfl), howe⟩
  · rw [Volume.named_congr hin]
    exact Volume.named_rewrite hi hentries m
  · rw [Volume.subdirs_congr hin]
    exact Volume.subdirs_rewrite hi hjty hentries
  · -- the inode has the link that it loses
    rw [Volume.linksOf_congr hin, Volume.linksOf_setIno]
    by_cases hm : m = n
    · have hlow := h.low n
      have hlt := h.links_lt n
      have hpend := howe n
      rw [if_pos rfl] at hpend
      rw [Volume.linksOf_of_some hi] at hlow hlt
      rw [if_pos hm, if_pos hm, hm, Volume.linksOf_of_some hi, Option.elim_some, hjlinks]
      exact decr_add_one (by omega) (Nat.lt_of_succ_lt hlt)
    · rw [if_neg hm, if_neg hm, Nat.add_zero]

/-- **`unlinkat` decrements `num_links`.** -/
theorem of_dec (hrefs : Refs (s.after p f' x'))
    (hf' : f' = (s.vol.setIno n (some { i with links := decr i.links })).setLock n none)
    (hx' : x' = (s.task p).goto (.drop n)) (hst : (s.task p).stage = .unlinkDec n)
    (hi : s.vol.inodes n = some i) : Published (s.after p f' x') := by
  have hown : s.vol.lock n = some p := h.owns p n (by rw [hst]; rfl)
  have hheld : n ∈ (s.task p).held := by simp [Task.held, hst, Stage.refs]
  obtain ⟨j, hin, hjty, hjslots⟩ : ∃ j, f'.inodes = (s.vol.setIno n (some j)).inodes ∧
      j.type = i.type ∧ j.slots = i.slots :=
    ⟨{ i with links := decr i.links }, by rw [hf']; rfl, rfl, rfl⟩
  have hentries : j.entries = i.entries := by rw [Ino.entries, Ino.entries, hjslots]
  obtain ⟨hnamed, hsub, hlinks, hopen, howe⟩ := h.counts_dec hf' hx' hst hi
  refine h.of_rewrite hrefs hi hin hjty (by rw [hf']; rfl) hheld (fun q m hq hm => ?_)
    (fun m hm => hentries ▸ hm) (fun m hm => Or.inl (hentries ▸ hm)) (fun m _ => hopen m) ?_
    (fun m => ?_) (fun m => ?_) (fun hroot => ?_) (by rw [hx']; rfl) (by rw [hx']; rintro _ ⟨⟩)
    (by rw [hx']; rfl) (fun e hmem hdir => ?_)
  · have hmn : m ≠ n := ne_of_values hm hown fun heq => hq (Option.some.inj heq)
    refine ⟨hmn, ?_⟩
    rw [hf']
    exact (update_of_ne hmn _ _).trans hm
  · rw [hjty, hjslots, hopen]
    exact h.shape n i hi
  · rw [hnamed, hsub, hopen]
    have hlow := h.low m
    have howe := howe m
    have hlinks := hlinks m
    omega
  · rw [hsub, hopen]
    have hhigh := h.high m
    have hlinks := hlinks m
    omega
  · subst hroot
    obtain ⟨k, rest, hk, -, hks⟩ := h.root
    obtain rfl := Option.mem_unique hi hk
    exact ⟨rest, hjslots.trans hks⟩
  · rw [hjslots]
    exact h.parent e n i hmem hi (hjty.symm.trans hdir)

/-- `inode_put`, which may also unlock an inode that the process has locked. -/
theorem of_put (hrefs : Refs (s.after p f' x')) (hin : f'.inodes = (s.vol.inodePut n).inodes)
    (hrc : f'.rc = (s.vol.inodePut n).rc)
    (hlock : ∀ q n, q ≠ p → s.vol.lock n = some q → f'.lock n = some q)
    (hheld : (s.task p).held.Perm (n :: x'.held)) (hbirth : x'.stage.birth = (s.task p).stage.birth)
    (hpend : x'.stage.pending = (s.task p).stage.pending)
    (hown : ∀ d m, (s.task p).stage.birth = some (d, m) → n = d)
    (owns : ∀ n, x'.stage.owns = some n → f'.lock n = some p) (claim : x'.stage.claim = none) :
    Published (s.after p f' x') := by
  have hn : n ∈ (s.task p).held := hheld.mem_iff.2 (by simp)
  have hwin := h.not_window_of_put hn hown
  have hother : ∀ m, m ≠ n → f'.rc m = s.vol.rc m := fun m hm => by
    rw [hrc, Volume.inodePut]
    split_ifs <;> exact update_of_ne hm _ _
  have hself : ∀ d m, x'.stage.birth = some (d, m) → f'.rc m = x'.held.count m := by
    intro d m hb
    have hb := hbirth ▸ hb
    have hmn : m ≠ n := by
      rintro rfl
      exact hwin p (window_of_birth hb)
    rw [hother m hmn, (h.fresh p d m hb).rc, hheld.count_eq, List.count_cons_of_ne (Ne.symm hmn)]
  by_cases hlast : s.vol.rc n = 1 ∧ s.vol.linksOf n = 0
  · have hput : (s.vol.inodePut n).inodes = (s.vol.setIno n none).inodes := by
      rw [Volume.inodePut, if_pos hlast]
      rfl
    exact h.of_free hrefs (hin.trans hput) hlock hother hn hlast.1 hlast.2 hwin hbirth hpend hself
      owns claim
  · have hput : (s.vol.inodePut n).inodes = s.vol.inodes := by
      rw [Volume.inodePut, if_neg hlast]
      rfl
    refine h.of_same hrefs (hin.trans hput) hlock (fun q m _ hw => ?_) hbirth hpend hself owns ?_
    · refine hother m ?_
      rintro rfl
      exact hwin q hw
    · rw [claim]
      exact nofun

/-- **One more reference**, to an inode that no other process has still to
initialise. -/
theorem of_share (hrefs : Refs (s.after p f' x')) (hf' : f' = s.vol.inodeShare n)
    (hn : ∀ q, q ≠ p → (s.task q).stage.window ≠ some n)
    (hheld : x'.held.Perm (n :: (s.task p).held)) (hbirth : x'.stage.birth = (s.task p).stage.birth)
    (hpend : x'.stage.pending = (s.task p).stage.pending)
    (hclaim : x'.stage.claim = (s.task p).stage.claim)
    (howns : x'.stage.owns = (s.task p).stage.owns) : Published (s.after p f' x') := by
  have hrc : ∀ m, f'.rc m = s.vol.rc m + if m = n then 1 else 0 := fun m => by
    rw [hf']
    refine (update_apply _ _ _ _).trans ?_
    split_ifs with hm
    · rw [hm]
    · rfl
  refine h.of_same hrefs (by rw [hf']; rfl) (fun q m _ hq => by rw [hf']; exact hq)
    (fun q m hq hw => ?_) hbirth hpend (fun d m hb => ?_) (fun m hm => ?_) ?_
  · have hmn : m ≠ n := by
      rintro rfl
      exact hn q hq hw
    rw [hrc, if_neg hmn, Nat.add_zero]
  · rw [hrc, (h.fresh p d m (hbirth ▸ hb)).rc, hheld.count_eq, List.count_cons, Volume.ite_beq]
  · rw [hf']
    exact h.owns p m (howns ▸ hm)
  · rw [hclaim]
    exact h.claim p

/-- **Every step keeps names and links together.** -/
theorem effect (he : Effect s.vol p (s.task p) f' x')
    (hget : ∀ n, (s.task p).stage.getting = some n →
      ∀ q, q ≠ p → (s.task q).stage.window ≠ some n) : Published (s.after p f' x') := by
  have hrefs := h.refs.effect he
  -- no process has still to initialise the root or a working directory of another
  have hroot : ∀ q, (s.task q).stage.window ≠ some rootIno := fun q hw => by
    obtain ⟨d, hb⟩ := birth_of_window hw
    exact (h.fresh q d rootIno hb).root rfl
  have hcwd : ∀ q, q ≠ p → (s.task q).stage.window ≠ some (s.task p).cwd := fun q hq =>
    h.not_window_of_held (by simp [Task.held]) hq
  cases he with
  | quiet held cwd birth birth' pending pending' claim' owns =>
    refine h.of_same hrefs rfl (fun _ _ _ hq => hq) (fun _ _ _ _ => rfl) (birth'.trans birth.symm)
      (pending'.trans pending.symm) ?_ (fun n hn => h.owns p n (owns ▸ hn)) ?_
    · rw [birth']
      simp
    · rw [claim']
      simp
  | @take dir n off i name hst lock ino type dots find =>
    obtain ⟨c, hst⟩ := hst
    have hzero : s.uninit dir = 0 :=
      h.uninit_of_held (p := p) (by simp [Task.held, hst, Stage.refs]) (by rw [hst]; rfl)
    obtain ⟨e, rest, hslots⟩ := h.slots_of_dir ino type hzero
    have hslot := SlotTable.find_eq_some find
    refine h.of_same hrefs rfl (fun q m _ hq => ?_) (fun _ _ _ _ => rfl) (by rw [hst]; rfl)
      (by rw [hst]; rfl) (by rintro _ _ ⟨⟩) (fun m hm => ?_) (fun d m off' hc => ?_)
    · have hmd : m ≠ dir := ne_of_values hq lock (by simp)
      exact (update_of_ne hmd _ _).trans hq
    · obtain rfl : dir = m := Option.some.inj hm
      exact update_self _ _ _
    · obtain ⟨rfl, rfl, rfl⟩ : dir = d ∧ n = m ∧ off = off' := by
        simpa [Task.goto, Stage.claim] using hc
      refine ⟨two_le_of_dots (hslots ▸ hslot) dots.1 dots.2, i, name, ino, hslot⟩
  | share alloc source held cwd birth pending pending' claim owns =>
    refine h.of_share hrefs rfl (fun q hq => ?_) held birth (pending'.trans pending.symm) claim
      owns
    rcases source with rfl | rfl | hgetting
    · exact hroot q
    · exact hcwd q hq
    · exact hget _ hgetting q hq
  | put held cwd birth pending own claim claim' owns =>
    exact h.of_put hrefs rfl rfl
      (fun q m _ hq => by rw [Volume.inodePut_lock]; exact hq) held birth pending own
      (fun m hm => by rw [Volume.inodePut_lock]; exact h.owns p m (owns ▸ hm)) claim'
  | @putBusy dir n hst =>
    have hown : s.vol.lock dir = some p := h.owns p dir (by rw [hst]; rfl)
    refine h.of_put (n := n) hrefs rfl rfl (fun q m hq hm => ?_)
      (Task.held_of_refs (l := [n]) (by rw [hst]; rfl)) (by rw [hst]; rfl) (by rw [hst]; rfl)
      (by rw [hst]; rintro _ _ ⟨⟩) (by rintro _ ⟨⟩) rfl
    have hmd : m ≠ dir := ne_of_values hm hown fun heq => hq (Option.some.inj heq)
    refine (update_of_ne hmd _ _).trans ?_
    rw [Volume.inodePut_lock]
    exact hm
  | lose ino type hst =>
    obtain ⟨c, path, hst⟩ := hst
    exact h.of_same hrefs rfl (fun _ _ _ hq => hq) (fun _ _ _ _ => rfl) (by rw [hst]; rfl)
      (by rw [hst]; rfl) (by rintro _ _ ⟨⟩) (by rintro _ ⟨⟩) (by rintro _ _ _ ⟨⟩)
  | @leak n hst source =>
    refine h.of_same hrefs rfl (fun _ _ _ hq => hq) (fun q m hq hw => ?_) rfl rfl
      (by rw [hst]; rintro _ _ ⟨⟩) (by rw [hst]; rintro _ ⟨⟩) (by rw [hst]; rintro _ _ _ ⟨⟩)
    have hmn : m ≠ n := by
      rintro rfl
      rcases source with rfl | rfl
      · exact hroot q hw
      · exact hcwd q hq hw
    exact update_of_ne hmn _ _
  | make hst lock ino type newType find free =>
    exact h.of_make hrefs rfl rfl hst lock ino type find free
  | init hst lock ino held cwd birth' pending' claim' owns' =>
    exact h.of_init hrefs rfl hst lock ino birth' pending' claim' owns'
  | clear hst ino lock ino' => exact h.of_clear hrefs rfl rfl hst ino lock ino'
  | dec hst ino => exact h.of_dec hrefs rfl rfl hst ino

end Published

end NameSys

end OsKernel.Fs
