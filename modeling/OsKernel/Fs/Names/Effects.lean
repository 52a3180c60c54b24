import OsKernel.Fs.Names.Model

/-!
# What a step does to the names

`Effect` says once what a step of a process can do to the volume and to the
process itself, in terms of what the process refers to (`Stage.refs`,
`birth`, `claim`, `owns`, `pending`, `target`, `cursor`, ...); every step has one
(`effect_of_step`). What holds along a run is proved from it, without a look
at the stages.
-/

namespace OsKernel.Fs

open Function

/-- The inode `m` is found under some name in a directory `d`. -/
def Volume.Finds {P : Type*} (f : Volume P) (d m : ℕ) : Prop :=
  ∃ i name off, f.inodes d = some i ∧ i.type = .directory ∧ i.slots.find name = some (off, m)

/-- **What a step of `p` does.** `x` is the process before, `x'` after. -/
inductive Effect {P : Type*} (f : Volume P) (p : P) (x : Task) : Volume P → Task → Prop
  /-- The volume stays as it is. -/
  | quiet {x' : Task} (held : x'.held.Perm x.held) (cwd : x'.cwd = x.cwd)
      (birth : x.stage.birth = none) (birth' : x'.stage.birth = none)
      (pending : x.stage.pending = none) (pending' : x'.stage.pending = none)
      (claim' : x'.stage.claim = none) (owns : x'.stage.owns = x.stage.owns)
      (target' : ∀ n g, x'.stage.target = some (n, g) → g = f.gen n ∧ ∃ d, f.Finds d n)
      (cursor' : ∀ m ∈ x'.stage.cursor, m ∈ x.stage.cursor ∨ ∃ d ∈ x.stage.cursor, f.Finds d m)
      (entering' : ∀ m, x'.stage.entering = some m →
        ∃ i, f.inodes m = some i ∧ i.type = .directory)
      (leaving : x.stage.leaving = none) :
      Effect f p x f x'
  /-- `unlinkat` finds the name and keeps the directory locked. -/
  | take {dir n off : ℕ} {i : Ino} {name : Name} (hst : ∃ c, x.stage = .parent c dir name)
      (lock : f.lock dir = none) (ino : f.inodes dir = some i) (type : i.type = .directory)
      (dots : name ≠ dot ∧ name ≠ dotdot) (find : i.slots.find name = some (off, n)) :
      Effect f p x (f.setLock dir (some p)) (x.goto (.unlinkGet dir n off (f.gen n)))
  /-- One more reference. -/
  | share {n : ℕ} {x' : Task} (alloc : f.inodes n ≠ none)
      (source : n = rootIno ∨ n = x.cwd ∨ x.stage.getting = some n)
      (held : x'.held.Perm (n :: x.held)) (cwd : x'.cwd = x.cwd)
      (birth : x'.stage.birth = x.stage.birth) (pending : x.stage.pending = none)
      (pending' : x'.stage.pending = none) (claim : x'.stage.claim = x.stage.claim)
      (owns : x'.stage.owns = x.stage.owns) (target' : x'.stage.target = none)
      (cursor' : ∀ m ∈ x'.stage.cursor,
        m ∈ x.stage.cursor ∨ x.stage = .idle ∧ (m = rootIno ∨ m = x.cwd))
      (entering' : x'.stage.entering = none) (leaving : x.stage.leaving = none) :
      Effect f p x (f.inodeShare n) x'
  /-- `inode_put`. -/
  | put {n : ℕ} {x' : Task} (held : x.held.Perm (n :: x'.held))
      (cwd : x'.cwd = x.cwd ∨ x.stage.entering = some x'.cwd)
      (birth : x'.stage.birth = x.stage.birth) (pending : x'.stage.pending = x.stage.pending)
      (own : ∀ d m, x.stage.birth = some (d, m) → n = d)
      (claim : x.stage.claim = none) (claim' : x'.stage.claim = none)
      (owns : x'.stage.owns = x.stage.owns)
      (target' : x'.stage.target = none ∨ x'.stage.target = x.stage.target)
      (cursor' : ∀ m ∈ x'.stage.cursor, m ∈ x.stage.cursor)
      (entering' : x'.stage.entering = none)
      (leaving : x.stage.leaving = some n ∨ x'.stage.leaving = x.stage.leaving) :
      Effect f p x (f.inodePut n) x'
  /-- `unlinkat` gives up a directory that is not empty. -/
  | putBusy {dir n : ℕ} (hst : x.stage = .unlinkBusy dir n) :
      Effect f p x ((f.inodePut n).setLock dir none) (x.goto (.drop dir))
  /-- `namex` does not find a name. -/
  | lose {n : ℕ} {i : Ino} (ino : f.inodes n = some i) (type : i.type = .directory)
      (hst : ∃ c path, x.stage = .walk c n path) :
      Effect f p x (f.lose n) (x.goto .idle)
  /-- `nameiparent` of an empty path. -/
  | leak {n : ℕ} (hst : x.stage = .idle) (source : n = rootIno ∨ n = x.cwd) :
      Effect f p x ((f.inodeShare n).lose n) x
  /-- `create` allocates an inode and inserts its name. -/
  | make {c : Call} {dir n : ℕ} {i : Ino} {name : Name} {ty : FileType}
      (hst : x.stage = .parent c dir name) (lock : f.lock dir = none)
      (ino : f.inodes dir = some i) (type : i.type = .directory) (newType : c.newType = some ty)
      (find : i.slots.find name = none) (free : f.findFree = some n) :
      Effect f p x (f.make dir i name n ty) (x.goto (.created c dir n (f.gen n + 1)))
  /-- `create` initialises the inode. -/
  | init {c : Call} {dir n : ℕ} {i : Ino} {x' : Task} (hst : x.stage = .fresh c dir n)
      (lock : f.lock n = none) (ino : f.inodes n = some i) (held : x'.held.Perm x.held)
      (cwd : x'.cwd = x.cwd) (birth' : x'.stage.birth = none) (pending' : x'.stage.pending = none)
      (claim' : x'.stage.claim = none) (owns' : x'.stage.owns = none)
      (target' : x'.stage.target = none) (cursor' : x'.stage.cursor = [])
      (entering' : x'.stage.entering = none) :
      Effect f p x (f.initialise dir n i) x'
  /-- `unlinkat` clears the slot. -/
  | clear {dir n off : ℕ} {i j : Ino} (hst : x.stage = .unlinkLock dir n off)
      (ino : f.inodes dir = some i) (lock : f.lock n = none) (ino' : f.inodes n = some j)
      (links : 1 ≤ j.links) (empty : j.type = .directory → j.isEmpty = true) :
      Effect f p x (((f.clearSlot dir i off j.type).setLock dir none).setLock n (some p))
        (x.goto (.unlinkPut dir n))
  /-- `unlinkat` decrements `num_links`. -/
  | dec {n : ℕ} {i : Ino} (hst : x.stage = .unlinkDec n) (ino : f.inodes n = some i) :
      Effect f p x ((f.setIno n (some { i with links := decr i.links })).setLock n none)
        (x.goto (.drop n))

/-! ## The inodes after a step -/

namespace Volume

variable {P : Type*} {f : Volume P} {dir m n off : ℕ} {i : Ino} {name : Name} {ty : FileType}

theorem setIno_inodes (f : Volume P) (n : ℕ) (o : Option Ino) (m : ℕ) :
    (f.setIno n o).inodes m = if m = n then o else f.inodes m :=
  update_apply _ _ _ _

/-- `inode_put` frees, or leaves the inodes alone. -/
theorem inodePut_inodes (f : Volume P) (n m : ℕ) :
    (f.inodePut n).inodes m =
      if m = n ∧ f.rc n = 1 ∧ f.linksOf n = 0 then none else f.inodes m := by
  unfold inodePut
  by_cases hlast : f.rc n = 1 ∧ f.linksOf n = 0
  · rw [if_pos hlast]
    refine (setIno_inodes f n none m).trans ?_
    by_cases hmn : m = n
    · rw [if_pos hmn, if_pos ⟨hmn, hlast⟩]
    · rw [if_neg hmn, if_neg fun h => hmn h.1]
  · rw [if_neg hlast, if_neg fun h => hlast h.2]
    rfl

theorem inodePut_gen (f : Volume P) (n : ℕ) : (f.inodePut n).gen = f.gen := by
  unfold inodePut
  split_ifs <;> rfl

theorem inodePut_rc (f : Volume P) (n m : ℕ) :
    (f.inodePut n).rc m = if m = n then f.rc n - 1 else f.rc m := by
  unfold inodePut
  split_ifs with hlast hmn hmn
  · rw [hmn, hlast.1]
    exact update_self _ _ _
  · exact update_of_ne hmn _ _
  · rw [hmn]
    exact update_self _ _ _
  · exact update_of_ne hmn _ _

theorem inodePut_lost (f : Volume P) (n : ℕ) : (f.inodePut n).lost = f.lost := by
  unfold inodePut
  split_ifs <;> rfl

theorem inodePut_lock (f : Volume P) (n : ℕ) : (f.inodePut n).lock = f.lock := by
  unfold inodePut
  split_ifs <;> rfl

/-- `create` writes the directory and the new inode. -/
theorem make_inodes (f : Volume P) (dir : ℕ) (i : Ino) (name : Name) (n : ℕ) (ty : FileType)
    (m : ℕ) :
    (f.make dir i name n ty).inodes m =
      if m = dir then some { i with
        slots := insertName i.slots name n
        links := if ty = .directory then incr i.links else i.links }
      else if m = n then some ⟨ty, 0, []⟩ else f.inodes m := by
  refine (setIno_inodes _ dir _ m).trans ?_
  have hnew : (f.allocate n ty).inodes m = if m = n then some ⟨ty, 0, []⟩ else f.inodes m :=
    setIno_inodes f n _ m
  rw [hnew]

/-- `inode_alloc` finds a number that is not in use. -/
theorem findFree_spec (h : f.findFree = some n) :
    f.inodes n = none ∧ rootIno ≤ n ∧ n < numInodes := by
  have hmem := List.mem_range'_1.1 (List.mem_of_find?_eq_some h)
  have hnone := List.find?_some h
  refine ⟨by simpa using hnone, hmem.1, ?_⟩
  have hlt := hmem.2
  simp only [numInodes] at hlt ⊢
  omega

end Volume

/-- What is in a directory after `inode_insert`. -/
theorem getElem?_insertName {l : SlotTable Name ℕ} {name k : Name} {n v j : ℕ}
    (h : (insertName l name n)[j]? = some (some (k, v))) :
    l[j]? = some (some (k, v)) ∨ k = name ∧ v = n := by
  unfold insertName at h
  split_ifs at h with hfind
  · exact Or.inl h
  · rw [SlotTable.getElem?_put (SlotTable.free_freeFrom l).1] at h
    split_ifs at h with hj
    · obtain ⟨rfl, rfl⟩ := pair_inj (Option.some.inj h)
      exact Or.inr ⟨rfl, rfl⟩
    · exact Or.inl h

namespace Task

variable {P : Type*} {f : Volume P} {p : P} {x : Task} {c : Call} {n : ℕ} {fd : Bool} {l : List ℕ}
  {st : Stage}

/-- A process goes on with fewer references. -/
theorem held_of_refs (h : x.stage.refs = l ++ st.refs) : x.held.Perm (l ++ (x.goto st).held) := by
  refine List.perm_iff_count.2 fun m => ?_
  simp only [held, goto, h, List.count_append, List.count_cons]
  omega

/-- A process goes on with more references. -/
theorem held_goto (h : st.refs = l ++ x.stage.refs) : (x.goto st).held.Perm (l ++ x.held) := by
  refine List.perm_iff_count.2 fun m => ?_
  simp only [held, goto, h, List.count_append, List.count_cons]
  omega

/-- What `finish` leaves of a call with one reference. -/
theorem finish_spec (c : Call) (fd : Bool) (hrefs : x.stage.refs = [n]) :
    (x.finish c n fd).held.Perm x.held ∧ (x.finish c n fd).cwd = x.cwd ∧
      (x.finish c n fd).stage.birth = none ∧ (x.finish c n fd).stage.pending = none ∧
      (x.finish c n fd).stage.claim = none ∧ (x.finish c n fd).stage.owns = none ∧
      (x.finish c n fd).stage.target = none ∧ (x.finish c n fd).stage.cursor = [] ∧
      (x.finish c n fd).stage.entering = none := by
  have hdrop : (x.goto (.drop n)).held.Perm x.held :=
    held_goto (l := []) (by rw [hrefs]; rfl)
  cases c with
  | openat creat =>
    cases fd with
    | false => exact ⟨hdrop, rfl, rfl, rfl, rfl, rfl, rfl, rfl, rfl⟩
    | true =>
      refine ⟨List.perm_iff_count.2 fun m => ?_, rfl, rfl, rfl, rfl, rfl, rfl, rfl, rfl⟩
      have hopen : (x.finish (.openat creat) n true).held = x.cwd :: (n :: x.files ++ []) := rfl
      rw [hopen, held, hrefs]
      simp only [List.count_append, List.count_cons, List.count_nil, List.append_nil]
      omega
  | mkdirat | mknodat | unlinkat | chdir | newfstatat =>
    exact ⟨hdrop, rfl, rfl, rfl, rfl, rfl, rfl, rfl, rfl⟩

theorem locked_eq_some {α : Type*} {k : Ino → Option α} {r : α} (h : locked f n k = some r) :
    f.lock n = none ∧ ∃ i, f.inodes n = some i ∧ k i = some r := by
  obtain ⟨hlock, h⟩ := of_guarded h
  obtain ⟨i, hi, hk⟩ := Option.bind_eq_some_iff.1 h
  exact ⟨hlock, i, hi, hk⟩

theorem inodeGet_eq_some {f' : Volume P} (h : f.inodeGet n = some f') :
    f.inodes n ≠ none ∧ f' = f.inodeShare n := by
  obtain ⟨halloc, h⟩ := of_guarded h
  exact ⟨Option.isSome_iff_ne_none.1 halloc, (Option.some.inj h).symm⟩

variable {st₀ : Stage}

/-- A step that leaves the volume alone. -/
theorem quiet_goto (hst : x.stage = st₀) (hrefs : st.refs = st₀.refs) (birth : st₀.birth = none)
    (birth' : st.birth = none) (pending : st₀.pending = none) (pending' : st.pending = none)
    (claim' : st.claim = none) (owns : st.owns = st₀.owns)
    (target' : ∀ n g, st.target = some (n, g) → g = f.gen n ∧ ∃ d, f.Finds d n)
    (cursor' : ∀ m ∈ st.cursor, m ∈ st₀.cursor ∨ ∃ d ∈ st₀.cursor, f.Finds d m)
    (entering' : ∀ m, st.entering = some m → ∃ i, f.inodes m = some i ∧ i.type = .directory)
    (leaving : st₀.leaving = none) :
    Effect f p x f (x.goto st) := by
  subst hst
  exact .quiet (held_goto (l := []) hrefs) rfl birth birth' pending pending' claim' owns target'
    cursor' entering' leaving

/-- A step that puts an inode. -/
theorem put_goto (hst : x.stage = st₀) (hrefs : st₀.refs = n :: st.refs)
    (birth : st.birth = st₀.birth) (pending : st.pending = st₀.pending)
    (own : ∀ d m, st₀.birth = some (d, m) → n = d) (claim : st₀.claim = none)
    (claim' : st.claim = none) (owns : st.owns = st₀.owns)
    (target' : st.target = none ∨ st.target = st₀.target)
    (cursor' : ∀ m ∈ st.cursor, m ∈ st₀.cursor) (entering' : st.entering = none)
    (leaving : st₀.leaving = some n ∨ st.leaving = st₀.leaving) :
    Effect f p x (f.inodePut n) (x.goto st) := by
  subst hst
  exact .put (held_of_refs (l := [n]) hrefs) (Or.inl rfl) birth pending own claim claim' owns target'
    cursor' entering' leaving

/-- A step that gets an inode. -/
theorem get_goto {f' : Volume P} (hst : x.stage = st₀) (hget : f.inodeGet n = some f')
    (hgetting : st₀.getting = some n) (hrefs : st.refs = n :: st₀.refs)
    (birth : st.birth = st₀.birth) (pending : st₀.pending = none)
    (pending' : st.pending = none) (claim : st.claim = st₀.claim) (owns : st.owns = st₀.owns)
    (target' : st.target = none) (cursor' : ∀ m ∈ st.cursor, m ∈ st₀.cursor)
    (entering' : st.entering = none) (leaving : st₀.leaving = none) :
    Effect f p x f' (x.goto st) := by
  subst hst
  obtain ⟨halloc, rfl⟩ := inodeGet_eq_some hget
  exact .share halloc (Or.inr (Or.inr hgetting)) (held_goto (l := [n]) hrefs) rfl birth pending
    pending' claim owns target' (fun m hm => Or.inl (cursor' m hm)) entering' leaving

/-- `finish` leaves the volume alone. -/
theorem quiet_finish (hst : x.stage = st₀) (hrefs : st₀.refs = [n]) (birth : st₀.birth = none)
    (pending : st₀.pending = none) (owns : st₀.owns = none) (leaving : st₀.leaving = none) :
    Effect f p x f (x.finish c n fd) := by
  subst hst
  obtain ⟨hheld, hcwd, hbirth, hpending, hclaim, howns, htarget, hcursor, hentering⟩ :=
    finish_spec c fd hrefs
  exact .quiet hheld hcwd birth hbirth pending hpending hclaim (howns.trans owns.symm)
    (fun n g hng => by rw [htarget] at hng; cases hng)
    (fun m hm => by rw [hcursor] at hm; cases hm)
    (fun m hm => by rw [hentering] at hm; cases hm) leaving

variable {f' : Volume P} {x' : Task}

theorem begin_effect [DecidableEq P] {path : List UInt8} (hst : x.stage = .idle)
    (hroot : f.inodes rootIno ≠ none) (hcwd : f.inodes x.cwd ≠ none)
    (h : begin f x c path = (f', x')) : Effect f p x f' x' := by
  unfold begin at h
  simp only at h
  generalize hn : (if path.head? = some slash then rootIno else x.cwd) = n at h
  have hsource : n = rootIno ∨ n = x.cwd := by
    rw [← hn]
    split_ifs
    · exact Or.inl rfl
    · exact Or.inr rfl
  have halloc : f.inodes n ≠ none := by
    rcases hsource with rfl | rfl
    · exact hroot
    · exact hcwd
  split_ifs at h
  · obtain ⟨rfl, rfl⟩ := Prod.mk.inj h
    exact .leak hst hsource
  · obtain ⟨rfl, rfl⟩ := Prod.mk.inj h
    refine .share halloc (hsource.imp_right Or.inl) (held_goto (l := [n]) (by rw [hst]; rfl)) rfl
      (by rw [hst]; rfl) (by rw [hst]; rfl) rfl (by rw [hst]; rfl) (by rw [hst]; rfl) rfl
      (fun m hm => Or.inr ⟨hst, ?_⟩) rfl (by rw [hst]; rfl)
    obtain rfl : m = n := List.mem_singleton.1 hm
    exact hsource

theorem look_effect [DecidableEq P] {cur : ℕ} {name : Name} {path rest : List UInt8} {i : Ino}
    (hst : x.stage = .walk c cur path) (hi : f.inodes cur = some i)
    (h : look f x c cur name rest i = (f', x')) : Effect f p x f' x' := by
  unfold look at h
  split_ifs at h with htype hlast
  · obtain ⟨rfl, rfl⟩ := Prod.mk.inj h
    exact quiet_goto hst rfl rfl rfl rfl rfl rfl rfl (by rintro _ _ ⟨⟩) (by rintro _ ⟨⟩)
      (by rintro _ ⟨⟩) rfl
  · obtain ⟨rfl, rfl⟩ := Prod.mk.inj h
    exact quiet_goto hst rfl rfl rfl rfl rfl rfl rfl (by rintro _ _ ⟨⟩) (fun m hm => Or.inl hm)
      (by rintro _ ⟨⟩) rfl
  · have htype : i.type = .directory := by simpa using htype
    cases hfind : i.slots.find name with
    | none =>
      rw [hfind] at h
      obtain ⟨rfl, rfl⟩ := Prod.mk.inj h
      exact .lose hi htype ⟨c, path, hst⟩
    | some r =>
      rw [hfind] at h
      obtain ⟨rfl, rfl⟩ := Prod.mk.inj h
      have hfinds : f.Finds cur r.2 := ⟨i, name, r.1, hi, htype, hfind⟩
      refine quiet_goto hst rfl rfl rfl rfl rfl rfl rfl (fun n g hng => ?_) (fun m hm => ?_)
        (by rintro _ ⟨⟩) rfl
      · obtain ⟨rfl, rfl⟩ := pair_inj hng
        exact ⟨rfl, cur, hfinds⟩
      · rcases List.mem_cons.1 hm with rfl | hm
        · exact Or.inl (by simp [Stage.cursor])
        · obtain rfl : m = r.2 := List.mem_singleton.1 hm
          exact Or.inr ⟨cur, by simp [Stage.cursor], hfinds⟩

theorem createIn_effect [DecidableEq P] {ty : FileType} {dir : ℕ} {name : Name} {i : Ino}
    (hst : x.stage = .parent c dir name) (hlock : f.lock dir = none) (hi : f.inodes dir = some i)
    (htype : i.type = .directory) (hnew : c.newType = some ty)
    (h : createIn f x c ty dir name i = some (f', x')) : Effect f p x f' x' := by
  unfold createIn at h
  cases hfind : i.slots.find name with
  | none =>
    rw [hfind] at h
    obtain ⟨n, hn, hnx⟩ := Option.map_eq_some_iff.1 h
    obtain ⟨rfl, rfl⟩ := Prod.mk.inj hnx
    exact .make hst hlock hi htype hnew hfind hn
  | some r =>
    rw [hfind] at h
    obtain ⟨rfl, rfl⟩ := pair_inj h
    have hfinds : f.Finds dir r.2 := ⟨i, name, r.1, hi, htype, hfind⟩
    refine quiet_goto hst rfl rfl rfl rfl rfl rfl rfl (fun n g hng => ?_) (fun m hm => ?_)
      nofun rfl
    · obtain ⟨rfl, rfl⟩ := pair_inj hng
      exact ⟨rfl, dir, hfinds⟩
    · obtain rfl : m = r.2 := List.mem_singleton.1 hm
      exact Or.inr ⟨dir, by simp [Stage.cursor], hfinds⟩

theorem unlinkIn_effect [DecidableEq P] {dir : ℕ} {name : Name} {i : Ino}
    (hst : x.stage = .parent c dir name) (hlock : f.lock dir = none) (hi : f.inodes dir = some i)
    (htype : i.type = .directory) (h : unlinkIn f p x dir name i = (f', x')) :
    Effect f p x f' x' := by
  have hdrop : Effect f p x f (x.goto (.drop dir)) :=
    quiet_goto hst rfl rfl rfl rfl rfl rfl rfl nofun nofun nofun rfl
  unfold unlinkIn at h
  split_ifs at h with hdots
  · obtain ⟨rfl, rfl⟩ := Prod.mk.inj h
    exact hdrop
  · rw [not_or] at hdots
    cases hfind : i.slots.find name with
    | none =>
      rw [hfind] at h
      obtain ⟨rfl, rfl⟩ := Prod.mk.inj h
      exact hdrop
    | some r =>
      rw [hfind] at h
      obtain ⟨rfl, rfl⟩ := Prod.mk.inj h
      exact .take ⟨c, hst⟩ hlock hi htype hdots hfind

theorem unlinkBoth_effect [DecidableEq P] {dir off : ℕ} {i j : Ino}
    (hst : x.stage = .unlinkLock dir n off) (hi : f.inodes dir = some i) (hlock : f.lock n = none)
    (hj : f.inodes n = some j) (h : unlinkBoth f p x dir n off i j = some (f', x')) :
    Effect f p x f' x' := by
  unfold unlinkBoth at h
  split_ifs at h with hlinks hbusy
  · obtain ⟨rfl, rfl⟩ := pair_inj h
    exact quiet_goto hst rfl rfl rfl rfl rfl rfl rfl nofun nofun nofun rfl
  · obtain ⟨rfl, rfl⟩ := pair_inj h
    refine .clear hst hi hlock hj (by omega) fun hdir => ?_
    cases hempty : j.isEmpty with
    | true => rfl
    | false => exact absurd ⟨hdir, hempty⟩ hbusy

/-- **What a process does when it goes on.** -/
theorem go_effect [DecidableEq P] (h : go f p x fd = some (f', x')) : Effect f p x f' x' := by
  unfold go at h
  cases hst : x.stage with
  | idle =>
    rw [hst] at h
    cases h
  | walk c cur path =>
    rw [hst] at h
    cases hskip : skipelem path with
    | none =>
      simp only [hskip] at h
      obtain ⟨rfl, rfl⟩ := pair_inj h
      exact quiet_goto hst rfl rfl rfl rfl rfl rfl rfl nofun (fun m hm => Or.inl hm) nofun rfl
    | some r =>
      simp only [hskip] at h
      obtain ⟨-, i, hi, hk⟩ := locked_eq_some h
      exact look_effect hst hi (Option.some.inj hk)
  | next c cur n g path =>
    rw [hst] at h
    obtain ⟨rfl, rfl⟩ := pair_inj h
    exact put_goto hst rfl rfl rfl nofun rfl rfl rfl (Or.inr rfl)
      (fun m hm => List.mem_cons_of_mem _ hm) rfl (Or.inr rfl)
  | fetch c n g path =>
    rw [hst] at h
    obtain ⟨f₁, hget, hfx⟩ := Option.map_eq_some_iff.1 h
    obtain ⟨rfl, rfl⟩ := Prod.mk.inj hfx
    exact get_goto hst hget rfl rfl rfl rfl rfl rfl rfl rfl (fun m hm => hm) rfl rfl
  | reached c cur =>
    rw [hst] at h
    obtain ⟨-, i, hi, hk⟩ := locked_eq_some h
    split_ifs at hk with hchdir htype
    · obtain ⟨rfl, rfl⟩ := pair_inj hk
      refine quiet_goto hst rfl rfl rfl rfl rfl rfl rfl nofun (fun m hm => Or.inl hm)
        (fun m hm => ?_) rfl
      obtain rfl : cur = m := Option.some.inj hm
      exact ⟨i, hi, htype⟩
    · obtain ⟨rfl, rfl⟩ := pair_inj hk
      exact quiet_goto hst rfl rfl rfl rfl rfl rfl rfl nofun nofun nofun rfl
    · obtain ⟨rfl, rfl⟩ := pair_inj hk
      exact quiet_finish hst rfl rfl rfl rfl rfl
  | enter cur =>
    rw [hst] at h
    obtain ⟨rfl, rfl⟩ := pair_inj h
    refine .put (List.perm_iff_count.2 fun m => ?_) (Or.inr (by rw [hst]; rfl))
      (by rw [hst]; rfl) (by rw [hst]; rfl) (fun d m hd => by rw [hst] at hd; cases hd)
      (by rw [hst]; rfl) rfl (by rw [hst]; rfl) (Or.inl rfl) nofun rfl
      (Or.inr (by rw [hst]; rfl))
    simp only [held, hst, Stage.refs, List.count_cons, List.count_append, List.count_nil]
    omega
  | parent c dir name =>
    rw [hst] at h
    obtain ⟨hlock, i, hi, hk⟩ := locked_eq_some h
    split_ifs at hk with htype
    have htype : i.type = .directory := by simpa using htype
    cases hnew : c.newType with
    | some ty =>
      rw [hnew] at hk
      exact createIn_effect hst hlock hi htype hnew hk
    | none =>
      rw [hnew] at hk
      exact unlinkIn_effect hst hlock hi htype (Option.some.inj hk)
  | found c dir n g =>
    rw [hst] at h
    obtain ⟨rfl, rfl⟩ := pair_inj h
    exact put_goto hst rfl rfl rfl nofun rfl rfl rfl (Or.inr rfl) (fun m hm => hm) rfl
      (Or.inr rfl)
  | fetchOld c n g | fetchNew c dir n g | unlinkGet dir n off g =>
    rw [hst] at h
    obtain ⟨f₁, hget, hfx⟩ := Option.map_eq_some_iff.1 h
    obtain ⟨rfl, rfl⟩ := Prod.mk.inj hfx
    exact get_goto hst hget rfl rfl rfl rfl rfl rfl rfl rfl nofun rfl rfl
  | old c n =>
    rw [hst] at h
    obtain ⟨-, i, hi, hk⟩ := locked_eq_some h
    obtain ⟨rfl, rfl⟩ := pair_inj hk
    split_ifs with htype
    · exact quiet_finish hst rfl rfl rfl rfl rfl
    · exact quiet_goto hst rfl rfl rfl rfl rfl rfl rfl nofun nofun nofun rfl
  | created c dir n g =>
    rw [hst] at h
    obtain ⟨rfl, rfl⟩ := pair_inj h
    refine put_goto hst rfl rfl rfl (fun d m hd => ?_) rfl rfl rfl (Or.inr rfl) nofun rfl
      (Or.inr rfl)
    exact (pair_inj hd).1
  | fresh c dir n =>
    rw [hst] at h
    obtain ⟨hlock, i, hi, hk⟩ := locked_eq_some h
    obtain ⟨rfl, rfl⟩ := pair_inj hk
    have hrefs : x.stage.refs = [n] := by rw [hst]; rfl
    obtain ⟨hheld, hcwd, hbirth, hpending, hclaim, howns, htarget, hcursor, hentering⟩ :=
      finish_spec c fd hrefs
    exact .init hst hlock hi hheld hcwd hbirth hpending hclaim howns htarget hcursor hentering
  | unlinkLock dir n off =>
    rw [hst] at h
    obtain ⟨i, hi, hk⟩ := Option.bind_eq_some_iff.1 h
    obtain ⟨hlock, j, hj, hk⟩ := locked_eq_some hk
    exact unlinkBoth_effect hst hi hlock hj hk
  | unlinkBusy dir n =>
    rw [hst] at h
    obtain ⟨rfl, rfl⟩ := pair_inj h
    exact .putBusy hst
  | unlinkPut dir n =>
    rw [hst] at h
    obtain ⟨rfl, rfl⟩ := pair_inj h
    exact put_goto hst rfl rfl rfl nofun rfl rfl rfl (Or.inl rfl) nofun rfl (Or.inr rfl)
  | unlinkDec n =>
    rw [hst] at h
    obtain ⟨i, hi, hfx⟩ := Option.map_eq_some_iff.1 h
    obtain ⟨rfl, rfl⟩ := Prod.mk.inj hfx
    exact .dec hst hi
  | drop n =>
    rw [hst] at h
    obtain ⟨rfl, rfl⟩ := pair_inj h
    exact put_goto hst rfl rfl rfl nofun rfl rfl rfl (Or.inl rfl) nofun rfl (Or.inl rfl)

end Task

namespace NameSys

variable {P : Type*} [DecidableEq P] {s s' : NameSys P} {a : NameAct P}

/-- **Every step has one of these effects**, on the volume and on the process
that acts. -/
theorem effect_of_step (hroot : s.vol.inodes rootIno ≠ none)
    (hcwd : ∀ p, s.vol.inodes (s.task p).cwd ≠ none) (hs : s.step a = some s') :
    ∃ x', Effect s.vol (actor a) (s.task (actor a)) s'.vol x' ∧
      s'.task = update s.task (actor a) x' := by
  obtain ⟨⟨f', x'⟩, hact, rfl⟩ := Option.map_eq_some_iff.1 hs
  refine ⟨x', ?_, rfl⟩
  cases a with
  | call p c path =>
    obtain ⟨hst, hact⟩ := of_guarded hact
    exact Task.begin_effect hst hroot (hcwd p) (Option.some.inj hact)
  | close p n =>
    obtain ⟨hst, hact⟩ := of_guarded hact
    obtain ⟨rfl, rfl⟩ := pair_inj hact
    have hidle : (s.task p).stage = .idle := hst.1
    refine .quiet (List.perm_iff_count.2 fun m => ?_) rfl (by rw [actor, hidle]; rfl) rfl
      (by rw [actor, hidle]; rfl) rfl rfl (by rw [actor, hidle]; rfl) nofun nofun nofun
      (by rw [actor, hidle]; rfl)
    have herase := (List.perm_cons_erase hst.2).count_eq m
    simp only [actor, Task.held, hidle, Stage.refs, List.count_cons, List.count_append,
      List.count_nil, List.append_nil] at herase ⊢
    omega
  | go p fd => exact Task.go_effect hact

end NameSys

end OsKernel.Fs
