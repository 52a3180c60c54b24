import OsKernel.Fs.FileTable

/-!
# The bounds of the two tables

`fdalloc` of `kernel/sysfile.c` and `filealloc` of `fs/file.c` search the
table of a process, of `NOFILE` descriptors, and `ftable`, of `NFILE`
slots, each with the bound of the other one. So a process with all its
descriptors in use gets one behind its table, in the `cwd` of its
`struct proc` and in what follows, and `filealloc` fails as soon as the
first `NOFILE` slots are in use, while the others are never used. Before
that both of them do what they should, and `fdalloc` is the one of the
file table (`fdallocWords_eq`).
-/

namespace OsKernel.Fs

open Function

/-! ## Model -/

/-- `NFILE`, the number of slots of `ftable`. -/
abbrev nfile : ℕ := 2048

/-- The words that `fdalloc` searches: the table of the process and what
lies behind it in memory, the `cwd` first. -/
def tableWords (fp behind : ℕ → Option ℕ) (i : ℕ) : Option ℕ :=
  if i < nofile then fp i else behind (i - nofile)

/-- `fdalloc(f)` on the words of the table: the value returned and the
words after it. -/
def fdallocWords (f : ℕ) (words : ℕ → Option ℕ) : ℤ × (ℕ → Option ℕ) :=
  ((List.range nfile).find? fun i => words i = none).elim (-1, words) fun i =>
    (i, update words i (some f))

/-- The calls that open and close descriptors. -/
def FileAct.IsTableCall {P : Type} : FileAct P → Prop
  | .openat .. | .dup .. | .close .. | .pipe2 _ => True
  | _ => False

theorem tableWords_of_lt {fp behind : ℕ → Option ℕ} {i : ℕ} (h : i < nofile) :
    tableWords fp behind i = fp i :=
  if_pos h

theorem fdallocWords_of_find {f i : ℕ} {words : ℕ → Option ℕ}
    (h : (List.range nfile).find? (fun i => words i = none) = some i) :
    fdallocWords f words = ((i : ℤ), update words i (some f)) := by
  rw [fdallocWords, h, Option.elim_some]

/-! ## Within the bounds -/

namespace FileSys

variable {P : Type} [DecidableEq P] {s s' : FileSys P} {p p₀ : P} {behind : ℕ → Option ℕ}

omit [DecidableEq P] in
theorem fdalloc_eq_none_iff : s.fdalloc p = none ↔ ∀ fd < nofile, s.oftable p fd ≠ none := by
  simp [fdalloc]

omit [DecidableEq P] in
/-- As long as there is a descriptor left, the search in the words is the
one in the table. -/
theorem fdallocWords_eq {fd : ℕ} (h : s.fdalloc p = some fd) (f : ℕ) (behind : ℕ → Option ℕ) :
    fdallocWords f (tableWords (s.oftable p) behind) =
      ((fd : ℤ), update (tableWords (s.oftable p) behind) fd (some f)) := by
  obtain ⟨hfree, hmem, hlow⟩ := List.find?_range_eq_some.1 h
  have hlt : fd < nofile := List.mem_range.1 hmem
  refine fdallocWords_of_find (List.find?_range_eq_some.2
    ⟨?_, List.mem_range.2 (hlt.trans (by decide)), fun i hi => ?_⟩)
  · simpa only [tableWords_of_lt hlt] using hfree
  · simpa only [tableWords_of_lt (hi.trans hlt)] using hlow i hi

/-- **What is asked of `fdalloc`**: it stores at the lowest free descriptor,
or returns -1 and stores nothing if all of them are in use. -/
def FdallocOk (fp behind : ℕ → Option ℕ) (f : ℕ) : Prop :=
  (∃ fd < nofile, fdallocWords f (tableWords fp behind) =
      ((fd : ℤ), update (tableWords fp behind) fd (some f)) ∧
    fp fd = none ∧ ∀ i < fd, fp i ≠ none) ∨
  fdallocWords f (tableWords fp behind) = (-1, tableWords fp behind) ∧
    ∀ fd < nofile, fp fd ≠ none

/-- **What is asked of `filealloc`**: a slot without references, or `NULL` if
all slots are in use. -/
def FileallocOk (file : ℕ → File) : Prop :=
  (∃ f < nfile, filealloc file = some f ∧ (file f).ref = 0) ∨
  filealloc file = none ∧ ∀ f < nfile, (file f).ref ≠ 0

omit [DecidableEq P] in
/-- `fdalloc` does what it should, whatever lies behind the table, just where
the process has a descriptor left. -/
theorem fdallocOk_iff : (∀ f behind, FdallocOk (s.oftable p) behind f) ↔
    ∃ fd < nofile, s.oftable p fd = none := by
  constructor
  · intro h
    -- the word behind the table may be free
    rcases h 0 fun _ => none with ⟨fd, hfd, -, hnone, -⟩ | ⟨hfail, hused⟩
    · exact ⟨fd, hfd, hnone⟩
    · have hfind : (List.range nfile).find? (fun i => tableWords (s.oftable p) (fun _ => none) i =
          none) = some nofile := by
        refine List.find?_range_eq_some.2 ⟨by simp [tableWords], List.mem_range.2 (by decide),
          fun i hi => ?_⟩
        simpa [tableWords_of_lt hi] using hused i hi
      rw [fdallocWords_of_find hfind] at hfail
      exact absurd (Prod.mk.inj hfail).1 (by decide)
  · rintro ⟨fd, hfd, hnone⟩ f behind
    cases h : s.fdalloc p with
    | none => exact absurd hnone (fdalloc_eq_none_iff.1 h fd hfd)
    | some i =>
      obtain ⟨hi, hfree⟩ := fdalloc_spec h
      refine Or.inl ⟨i, hi, fdallocWords_eq h f behind, hfree, fun j hj => ?_⟩
      simpa using (List.find?_range_eq_some.1 h).2.2 j hj

theorem oftable_setFd {fd i g : ℕ} {v : Option ℕ} {q : P}
    (h : (s.setFd p fd v).oftable q i = some g) : v = some g ∨ s.oftable q i = some g := by
  rw [setFd] at h
  rcases eq_or_ne q p with rfl | hq
  · rcases eq_or_ne i fd with rfl | hi
    · exact Or.inl (by simpa using h)
    · exact Or.inr (by simpa [hi] using h)
  · exact Or.inr (by simpa [hq] using h)

theorem lt_of_filealloc {file : ℕ → File} {f : ℕ} (h : filealloc file = some f) : f < nofile :=
  List.mem_range.1 (List.mem_of_find?_eq_some h)

/-- The four calls leave the sections alone, and no descriptor gets a slot
that `filealloc` does not search. -/
theorem of_tableCall {a : FileAct P} (ha : a.IsTableCall) (hs : s.step a = some s')
    (hlow : ∀ q i g, s.oftable q i = some g → g < nofile) :
    s'.sections = s.sections ∧ ∀ q i g, s'.oftable q i = some g → g < nofile := by
  cases a with
  | openat p ip =>
    simp only [FileSys.step] at hs
    split at hs
    · split at hs
      · obtain rfl := Option.some.inj hs
        exact ⟨rfl, hlow⟩
      · rename_i f hf
        obtain ⟨fd, -, rfl⟩ := Option.map_eq_some_iff.1 hs
        refine ⟨rfl, fun q i g h => (oftable_setFd h).elim (fun heq => ?_) (hlow q i g)⟩
        exact Option.some.inj heq ▸ lt_of_filealloc hf
    · cases hs
  | dup p fd =>
    simp only [FileSys.step] at hs
    split at hs
    · split at hs
      · split at hs
        · obtain rfl := Option.some.inj hs
          exact ⟨rfl, hlow⟩
        · rename_i f hf
          obtain ⟨nfd, -, rfl⟩ := Option.map_eq_some_iff.1 hs
          refine ⟨rfl, fun q i g h => (oftable_setFd h).elim (fun heq => ?_) (hlow q i g)⟩
          exact Option.some.inj heq ▸ hlow p fd f hf
      · obtain rfl := Option.some.inj hs
        exact ⟨rfl, hlow⟩
    · cases hs
  | close p fd =>
    simp only [FileSys.step] at hs
    split at hs
    · split at hs
      · obtain ⟨f, -, rfl⟩ := Option.map_eq_some_iff.1 hs
        exact ⟨rfl, fun q i g h => (oftable_setFd h).elim (by simp) (hlow q i g)⟩
      · obtain rfl := Option.some.inj hs
        exact ⟨rfl, hlow⟩
    · cases hs
  | pipe2 p =>
    simp only [FileSys.step] at hs
    split at hs
    · split at hs
      · obtain rfl := Option.some.inj hs
        exact ⟨rfl, hlow⟩
      · rename_i f₀ hf₀
        split at hs
        · obtain rfl := Option.some.inj hs
          exact ⟨rfl, hlow⟩
        · rename_i f₁ hf₁
          obtain ⟨fd₀, -, hs⟩ := Option.bind_eq_some_iff.1 hs
          obtain ⟨fd₁, -, rfl⟩ := Option.map_eq_some_iff.1 hs
          refine ⟨rfl, fun q i g h => ?_⟩
          rcases oftable_setFd h with heq | h
          · exact Option.some.inj heq ▸ lt_of_filealloc hf₁
          · exact (oftable_setFd h).elim (fun heq => Option.some.inj heq ▸ lt_of_filealloc hf₀)
              (hlow q i g)
    · cases hs
  | mmap | munmap | execve | fork | exit => exact ha.elim

/-- The four calls keep the invariant of the file table: there is no
section whose file a `close` could free. The slots that `filealloc` does
not search are never used. -/
theorem inv_of_tableCalls {live : Finset P} {tr : List (FileSys P × FileAct P)}
    (hrun : Run step (idle live) tr s) (hcalls : ∀ x ∈ tr, x.2.IsTableCall) :
    Inv s ∧ ∀ q i g, s.oftable q i = some g → g < nofile := by
  refine (hrun.invariantOf (K := fun _ a => a.IsTableCall) (I := fun s => (∀ p, s.sections p = []) ∧
    Inv s ∧ ∀ q i g, s.oftable q i = some g → g < nofile) hcalls
    ⟨fun _ => rfl, inv_idle live, fun _ _ _ h => by cases h⟩ ?_).2
  rintro s a t ⟨hsec, hinv, hlow⟩ ha hs
  obtain ⟨hsame, hlow'⟩ := of_tableCall ha hs hlow
  refine ⟨fun p => by rw [hsame, hsec], hinv.step ?_ hs, hlow'⟩
  cases a with
  | close p fd =>
    intro f _ _ q _ st hst
    rw [hsec q] at hst
    cases hst
  | openat | dup | pipe2 => trivial
  | mmap | munmap | execve | fork | exit => exact ha.elim

omit [DecidableEq P] in
/-- A slot that no descriptor has is free. -/
theorem Inv.ref_eq_zero (h : Inv s) {f : ℕ} (hf : ∀ q i, s.oftable q i ≠ some f) :
    (s.file f).ref = 0 := by
  rw [h.ref_eq_descriptors, descriptors]
  exact Finset.sum_eq_zero fun q _ => Finset.sum_eq_zero fun i _ => if_neg (hf q i)

/-- **The bounds of the tables**, in every run of `openat`, `dup`, `pipe2`
and `close` by any processes. `fdalloc` does what it should, whatever lies
behind the table, if and only if the process has a descriptor left;
`filealloc` does if and only if one of the first `NOFILE` slots is free. -/
theorem tables_within_bounds {live : Finset P} {tr : List (FileSys P × FileAct P)}
    (hrun : Run step (idle live) tr s) (hcalls : ∀ x ∈ tr, x.2.IsTableCall) :
    (∀ p, (∀ f behind, FdallocOk (s.oftable p) behind f) ↔
      ∃ fd < nofile, s.oftable p fd = none) ∧
    (FileallocOk s.file ↔ ∃ i < nofile, (s.file i).ref = 0) := by
  obtain ⟨hinv, hlow⟩ := inv_of_tableCalls hrun hcalls
  refine ⟨fun p => fdallocOk_iff, ?_, ?_⟩
  · rintro (⟨f, -, hf, href⟩ | ⟨-, hused⟩)
    · exact ⟨f, lt_of_filealloc hf, href⟩
    · -- the slot behind those that are searched is free
      exact absurd (hinv.ref_eq_zero fun q i h => (hlow q i nofile h).false)
        (hused nofile (by decide))
  · rintro ⟨i, hi, hzero⟩
    cases hfile : filealloc s.file with
    | none =>
      have := List.find?_eq_none.1 hfile i (List.mem_range.2 hi)
      simp [hzero] at this
    | some f =>
      exact Or.inl ⟨f, (lt_of_filealloc hfile).trans (by decide), hfile, hinv.ref_of_filealloc hfile⟩

/-! ## Up to the bounds and past them -/

/-- The state after process 0 has opened inode 1 `k` times. -/
def opened (live : Finset ℕ) (k : ℕ) : FileSys ℕ where
  file := fun f => if f < k then ⟨.inode, 1, 1⟩ else ⟨.none, 0, 0⟩
  live := live
  oftable := fun p fd => if p = 0 ∧ fd < k then some fd else none
  sections := fun _ => []

theorem step_opened {live : Finset ℕ} (hlive : 0 ∈ live) {k : ℕ} (hk : k < nofile) :
    (opened live k).step (.openat 0 1) = some (opened live (k + 1)) := by
  have hfile : filealloc (opened live k).file = some k := by
    refine List.find?_range_eq_some.2 ⟨by simp [opened], List.mem_range.2 hk, fun i hi => ?_⟩
    simp [opened, hi]
  have hfd : (opened live k).fdalloc 0 = some k := by
    refine List.find?_range_eq_some.2 ⟨by simp [opened], List.mem_range.2 hk, fun i hi => ?_⟩
    simp [opened, hi]
  have hlive : 0 ∈ (opened live k).live := hlive
  rw [FileSys.step]
  simp only [if_pos hlive, hfile, hfd, Option.map_some, Option.some.injEq]
  simp only [setFd, opened, FileSys.mk.injEq, and_true, true_and]
  constructor
  · funext f
    by_cases hf : f = k
    · simp [hf]
    · simp [hf, show f < k + 1 ↔ f < k by omega]
  · funext p fd
    by_cases hp : p = 0
    · subst hp
      by_cases hfd : fd = k
      · simp [hfd]
      · simp [hfd, show fd < k + 1 ↔ fd < k by omega]
    · simp [hp]

/-- A process can open files until its table is full. -/
theorem run_opened {live : Finset ℕ} (hlive : 0 ∈ live) : ∀ {k : ℕ}, k ≤ nofile →
    ∃ tr, Run step (idle live) tr (opened live k) ∧ ∀ x ∈ tr, x.2.IsTableCall := by
  intro k
  induction k with
  | zero =>
    have hinit : opened live 0 = idle live := by simp [opened, idle]
    exact fun _ => ⟨[], hinit ▸ Run.nil, by simp⟩
  | succ k ih =>
    intro hk
    obtain ⟨tr, hrun, hcalls⟩ := ih (by omega)
    refine ⟨tr ++ [(opened live k, .openat 0 1)], hrun.snoc (step_opened hlive hk), fun x hx => ?_⟩
    rcases List.mem_append.1 hx with hx | hx
    · exact hcalls x hx
    · rw [List.mem_singleton.1 hx]
      trivial

/-- With 127 files open, process 0 gets the last descriptor and the last
slot; with 128, process 1 has descriptors left, but there is no slot. -/
theorem tables_within_bounds_two :
    (∃ tr s, Run step (idle {0, 1}) tr s ∧ (∀ f behind, FdallocOk (s.oftable 0) behind f) ∧
      FileallocOk s.file) ∧
    ∃ tr s, Run step (idle {0, 1}) tr s ∧ (∀ f behind, FdallocOk (s.oftable 1) behind f) ∧
      ¬(∀ f behind, FdallocOk (s.oftable 0) behind f) ∧ ¬FileallocOk s.file := by
  have hlive : (0 : ℕ) ∈ ({0, 1} : Finset ℕ) := by decide
  refine ⟨?_, ?_⟩
  · obtain ⟨tr, hrun, hcalls⟩ := run_opened hlive (by decide : 127 ≤ nofile)
    obtain ⟨hfd, hfile⟩ := tables_within_bounds hrun hcalls
    exact ⟨tr, _, hrun, (hfd 0).2 ⟨127, by decide, by decide⟩, hfile.2 ⟨127, by decide, by decide⟩⟩
  · obtain ⟨tr, hrun, hcalls⟩ := run_opened hlive le_rfl
    obtain ⟨hfd, hfile⟩ := tables_within_bounds hrun hcalls
    refine ⟨tr, _, hrun, (hfd 1).2 ⟨0, by decide, by decide⟩, fun h => ?_, fun h => ?_⟩
    · obtain ⟨fd, hlt, hnone⟩ := (hfd 0).1 h
      simp [opened, hlt] at hnone
    · obtain ⟨i, hlt, hzero⟩ := hfile.1 h
      simp [opened, hlt] at hzero

/-- With 128 files open, the next descriptor is stored behind the table
(here behind the `cwd` too, which is set), and there is no slot, although
1920 of them are free. -/
theorem tables_exceeded : ∃ tr s, Run step (init 0) tr s ∧ (∀ x ∈ tr, x.2.IsTableCall) ∧
    (fdallocWords 5 (tableWords (s.oftable 0) fun i => if i = 0 then some 1 else none)).1 = 129 ∧
    filealloc s.file = none ∧ ∀ f, nofile ≤ f → f < nfile → (s.file f).ref = 0 := by
  obtain ⟨tr, hrun, hcalls⟩ := run_opened (Finset.mem_singleton_self 0) le_rfl
  refine ⟨tr, _, hrun, hcalls, ?_, ?_, fun f hf _ => by simp [opened, not_lt.2 hf]⟩
  · have hfind : ((List.range nfile).find? fun i => tableWords ((opened {0} nofile).oftable 0)
        (fun i => if i = 0 then some 1 else none) i = none) = some 129 := by
      refine List.find?_range_eq_some.2 ⟨by decide, List.mem_range.2 (by decide), fun i hi => ?_⟩
      by_cases hlt : i < nofile
      · simp [tableWords_of_lt hlt, opened, hlt]
      · have hmin : nofile = 128 := rfl
        obtain rfl : i = nofile := by omega
        simp [tableWords]
    rw [fdallocWords_of_find hfind]
    rfl
  · refine List.find?_eq_none.2 fun i hi => ?_
    simp [opened, List.mem_range.1 hi]

end FileSys

end OsKernel.Fs
