import OsKernel.Paging.Sections

/-!
# The file table

`ftable` of `fs/file.c`, the descriptor tables of the processes and the
sections of their address spaces that are backed by a file. A step is a
system call: `openat`, `dup`, `close` and `pipe2` of `kernel/sysfile.c`
with `mmap` and `munmap`, `execve` of `kernel/exec.c`, and `fork` and
`exit` of `kernel/proc.c`. What the calls do beside it, to inodes, pipes
and pages, is left out; what `mmap` and `munmap` do to a section is that of
`Paging.Sections`.

`ref` counts the descriptors and nothing else (`ref_eq_descriptors`).
A section holds its `File` without a reference of its own, so it is the
descriptors that keep the slot of a mapped file in use
(`slots_in_use`).
-/

namespace OsKernel.Fs

open Function

/-- `NOFILE`. It bounds the descriptors of a process, and the search of
`filealloc`. -/
abbrev nofile : ℕ := 128

/-- The type of a `File`. -/
inductive FdType where
  | none
  | pipe
  | inode
deriving DecidableEq

/-- A slot of `ftable`. -/
@[ext]
structure File where
  type : FdType
  ref : ℤ
  /-- The inode of the file. -/
  ip : ℕ
deriving DecidableEq

/-- A section that is backed by a file. -/
structure FileSection where
  st : Paging.Section
  /-- `fp`, as an index into `ftable`. -/
  fp : ℕ
  /-- The inode that `fp` had when the section was made. The kernel does not
  keep it. -/
  mapped : ℕ
deriving DecidableEq

/-- The file table and what the processes hold of it. -/
structure FileSys (P : Type) where
  file : ℕ → File
  live : Finset P
  oftable : P → ℕ → Option ℕ
  /-- From `section_head.next` on, those that are backed by a file. -/
  sections : P → List FileSection

/-- The system calls of process `p`. -/
inductive FileAct (P : Type) where
  | openat (p : P) (ip : ℕ)
  | dup (p : P) (fd : ℕ)
  | close (p : P) (fd : ℕ)
  | pipe2 (p : P)
  /-- At `addr`, or at the address behind all sections, of a file or not,
  that it chooses. -/
  | mmap (p : P) (va : ℕ) (length : ℤ) (write : Bool) (fd : ℕ) (offset : ℤ)
  | munmap (p : P) (addr : ℕ) (length : ℤ)
  /-- With the headers of type `PT_LOAD` that are read, until all is loaded
  or an error, and what the memory of each new section held before. -/
  | execve (p : P) (ip : ℕ) (headers : List (Paging.Phdr × Paging.Section)) (done : Bool)
  /-- With what the memory of the new `struct proc` held before. -/
  | fork (p c : P) (stale : ℕ → Option ℕ)
  | exit (p : P)

/-! ## The table -/

/-- `filealloc` looks for a slot that is free. -/
def filealloc (file : ℕ → File) : Option ℕ :=
  (List.range nofile).find? fun i => (file i).ref ≤ 0

/-- A slot as `filealloc` leaves it. -/
def allocated (file : ℕ → File) (f : ℕ) : ℕ → File :=
  update file f { file f with ref := 1 }

/-- A slot that `filealloc` has found, as one end of a pipe. -/
def asPipe (file : ℕ → File) (f : ℕ) : ℕ → File :=
  update file f { file f with type := .pipe, ref := 1 }

/-- `filedup`. -/
def filedup (file : ℕ → File) (f : ℕ) : ℕ → File :=
  update file f { file f with ref := (file f).ref + 1 }

/-- `fileclose`. -/
def fileclose (file : ℕ → File) (f : ℕ) : ℕ → File :=
  update file f
    { file f with
      ref := (file f).ref - 1
      type := if (file f).ref - 1 = 0 ∧ (file f).type = .inode then .none else (file f).type }

/-- The loop of `fork` and of `exit` over the first `n` descriptors of a
table: `op` is applied to each `File` that is open. -/
def eachOpen (op : (ℕ → File) → ℕ → ℕ → File) (fp : ℕ → Option ℕ) :
    ℕ → (ℕ → File) → ℕ → File
  | 0, file => file
  | n + 1, file =>
    match fp n with
    | none => eachOpen op fp n file
    | some f => op (eachOpen op fp n file) f

/-- The loop of `execve` over the program headers: each gets a slot, which
is then cleared, and a section. `none` is the `memset` of a null pointer. -/
def loadSections (ip : ℕ) : List (Paging.Phdr × Paging.Section) → (ℕ → File) →
    Option ((ℕ → File) × List FileSection)
  | [], file => some (file, [])
  | h :: hs, file =>
    (filealloc file).bind fun f =>
      (loadSections ip hs (update file f ⟨.inode, 0, ip⟩)).map fun r =>
        (r.1, ⟨h.1.toSection ip h.2, f, ip⟩ :: r.2)

namespace FileSys

variable {P : Type} [DecidableEq P]

/-- `fdalloc` looks for a descriptor that is free. The search of the source
goes on past the end of the table; there it is undefined. -/
def fdalloc (s : FileSys P) (p : P) : Option ℕ :=
  (List.range nofile).find? fun fd => s.oftable p fd = none

/-- Sets descriptor `fd` of `p`. -/
def setFd (s : FileSys P) (p : P) (fd : ℕ) (f : Option ℕ) : FileSys P :=
  { s with oftable := update s.oftable p (update (s.oftable p) fd f) }

/-- Sets the sections of `p`. -/
def setSections (s : FileSys P) (p : P) (l : List FileSection) : FileSys P :=
  { s with sections := update s.sections p l }

/-- The calls, or `none` where the code is undefined. -/
def step (s : FileSys P) (a : FileAct P) : Option (FileSys P) :=
  match a with
  | .openat p ip =>
    if p ∈ s.live then
      match filealloc s.file with
      | none => some s
      | some f => (s.fdalloc p).map fun fd =>
        { s with file := update s.file f ⟨.inode, 1, ip⟩ }.setFd p fd (some f)
    else none
  | .dup p fd =>
    if p ∈ s.live then
      if fd < nofile then
        match s.oftable p fd with
        | none => some s
        | some f => (s.fdalloc p).map fun nfd =>
          { s with file := filedup s.file f }.setFd p nfd (some f)
      else some s
    else none
  | .close p fd =>
    if p ∈ s.live then
      if fd < nofile then
        (s.oftable p fd).map fun f =>
          { s with file := fileclose s.file f }.setFd p fd none
      else some s
    else none
  | .pipe2 p =>
    if p ∈ s.live then
      match filealloc s.file with
      | none => some s
      | some f₀ =>
        match filealloc (allocated s.file f₀) with
        | none => some { s with file := fileclose (allocated s.file f₀) f₀ }
        | some f₁ =>
          let s := { s with file := asPipe (asPipe s.file f₀) f₁ }
          (s.fdalloc p).bind fun fd =>
            let s := s.setFd p fd (some f₀)
            (s.fdalloc p).map fun fd => s.setFd p fd (some f₁)
    else none
  | .mmap p va length write fd offset =>
    if p ∈ s.live then
      if fd < nofile then
        match s.oftable p fd with
        | none => some s
        | some f =>
          if (s.file f).type = .inode then
            some (s.setSections p (⟨Paging.mmapSection (s.file f).ip va length write offset, f,
              (s.file f).ip⟩ :: s.sections p))
          else some s
      else some s
    else none
  | .munmap p addr length =>
    if p ∈ s.live then
      match (s.sections p).find? fun x => x.st.holds addr length with
      | none => some s
      | some x => some (s.setSections p
        ((x.st.parts addr length).map (fun st => { x with st := st }) ++ (s.sections p).erase x))
    else none
  | .execve p ip headers done =>
    if p ∈ s.live then
      (loadSections ip headers s.file).map fun r =>
        { s with
          file := r.1
          sections := if done then update s.sections p r.2 else s.sections }
    else none
  | .fork p c stale =>
    if p ∈ s.live ∧ c ∉ s.live then
      some { s with
        file := eachOpen filedup (s.oftable p) nofile s.file
        live := insert c s.live
        oftable := update s.oftable c fun fd =>
          if s.oftable p fd = none then stale fd else s.oftable p fd
        sections := update s.sections c (s.sections p).reverse }
    else none
  | .exit p =>
    if p ∈ s.live then
      some { s with
        file := eachOpen fileclose (s.oftable p) nofile s.file
        live := s.live.erase p
        sections := update s.sections p [] }
    else none

/-- The processes of `live`, with nothing open. -/
def idle (live : Finset P) : FileSys P where
  file := fun _ => ⟨.none, 0, 0⟩
  live := live
  oftable := fun _ _ => none
  sections := fun _ => []

/-- The state in which process `p` is the only one. -/
def init (p : P) : FileSys P := idle {p}

/-! ## Counting descriptors -/

/-- The number of descriptors in a table that are `f`. -/
def count (fp : ℕ → Option ℕ) (n f : ℕ) : ℤ :=
  ∑ fd ∈ Finset.range n, if fp fd = some f then 1 else 0

/-- The number of descriptors of all processes that are `f`. -/
def descriptors (s : FileSys P) (f : ℕ) : ℤ := ∑ p ∈ s.live, count (s.oftable p) nofile f

theorem count_nonneg (fp : ℕ → Option ℕ) (n f : ℕ) : 0 ≤ count fp n f :=
  Finset.sum_nonneg fun _ _ => by split <;> decide

theorem one_le_count {fp : ℕ → Option ℕ} {n f fd : ℕ} (hfd : fd < n) (h : fp fd = some f) :
    1 ≤ count fp n f := by
  have := Finset.single_le_sum (f := fun fd => if fp fd = some f then (1 : ℤ) else 0)
    (fun _ _ => by split <;> decide) (Finset.mem_range.2 hfd)
  rw [h, if_pos rfl] at this
  exact this

theorem count_succ (fp : ℕ → Option ℕ) (n f : ℕ) :
    count fp (n + 1) f = count fp n f + if fp n = some f then 1 else 0 :=
  Finset.sum_range_succ _ _

theorem count_congr {fp fp' : ℕ → Option ℕ} {n : ℕ} (h : ∀ fd < n, fp fd = fp' fd) (f : ℕ) :
    count fp n f = count fp' n f :=
  Finset.sum_congr rfl fun fd hfd => by rw [h fd (Finset.mem_range.1 hfd)]

/-- What one descriptor more or less does to the count. -/
theorem count_update {fp : ℕ → Option ℕ} {n fd : ℕ} (hfd : fd < n) (v : Option ℕ) (f : ℕ) :
    count (update fp fd v) n f =
      count fp n f - (if fp fd = some f then 1 else 0) + if v = some f then 1 else 0 := by
  have hmem := Finset.mem_range.2 hfd
  unfold count
  rw [← Finset.add_sum_erase _ _ hmem, ← Finset.add_sum_erase _ (fun fd => _) hmem]
  have hrest : ∑ i ∈ (Finset.range n).erase fd,
      (if update fp fd v i = some f then (1 : ℤ) else 0) =
      ∑ i ∈ (Finset.range n).erase fd, if fp i = some f then 1 else 0 :=
    Finset.sum_congr rfl fun i hi => by
      rw [update_of_ne (Finset.ne_of_mem_erase hi)]
  rw [hrest, update_self]
  ring

variable {s s' : FileSys P} {p q : P} {f g fd : ℕ}

section

omit [DecidableEq P]

theorem one_le_descriptors (hp : p ∈ s.live) (hfd : fd < nofile) (h : s.oftable p fd = some f) :
    1 ≤ s.descriptors f :=
  (one_le_count hfd h).trans
    (Finset.single_le_sum (f := fun p => count (s.oftable p) nofile f)
      (fun _ _ => count_nonneg _ _ _) hp)

theorem descriptors_nonneg (s : FileSys P) (f : ℕ) : 0 ≤ s.descriptors f :=
  Finset.sum_nonneg fun _ _ => count_nonneg _ _ _

end

theorem descriptors_setFd (hp : p ∈ s.live) (hfd : fd < nofile) (v : Option ℕ) (g : ℕ) :
    (s.setFd p fd v).descriptors g =
      s.descriptors g - (if s.oftable p fd = some g then 1 else 0) +
        if v = some g then 1 else 0 := by
  unfold descriptors setFd
  simp only
  rw [← Finset.add_sum_erase _ _ hp, ← Finset.add_sum_erase s.live (fun q => _) hp,
    update_self, count_update hfd]
  have hrest : ∑ q ∈ s.live.erase p,
      count (update s.oftable p (update (s.oftable p) fd v) q) nofile g =
      ∑ q ∈ s.live.erase p, count (s.oftable q) nofile g :=
    Finset.sum_congr rfl fun q hq => by
      rw [update_of_ne (Finset.ne_of_mem_erase hq)]
  rw [hrest]
  ring

/-- A loop that changes the count of each open file by `d`. -/
theorem eachOpen_ref {op : (ℕ → File) → ℕ → ℕ → File} {d : ℤ}
    (hop : ∀ file f g, (op file f g).ref = (file g).ref + if f = g then d else 0)
    (fp : ℕ → Option ℕ) (file : ℕ → File) (g : ℕ) (n : ℕ) :
    (eachOpen op fp n file g).ref = (file g).ref + d * count fp n g := by
  induction n with
  | zero => simp [eachOpen, count]
  | succ n ih =>
    rw [eachOpen, count_succ]
    cases hfp : fp n with
    | none => simp [ih]
    | some f =>
      simp only [hop, ih, Option.some.injEq]
      split <;> ring

/-- A loop that leaves a field of all files alone. -/
theorem eachOpen_field {β : Type} {op : (ℕ → File) → ℕ → ℕ → File} (field : File → β)
    (hop : ∀ file f g, field (op file f g) = field (file g))
    (fp : ℕ → Option ℕ) (file : ℕ → File) (g : ℕ) (n : ℕ) :
    field (eachOpen op fp n file g) = field (file g) := by
  induction n with
  | zero => rfl
  | succ n ih =>
    rw [eachOpen]
    cases fp n with
    | none => exact ih
    | some f => exact (hop _ f g).trans ih

theorem filedup_ref (file : ℕ → File) (f g : ℕ) :
    (filedup file f g).ref = (file g).ref + if f = g then 1 else 0 := by
  unfold filedup
  by_cases h : g = f
  · subst h
    simp
  · simp [h, Ne.symm h]

theorem filedup_ip (file : ℕ → File) (f g : ℕ) : (filedup file f g).ip = (file g).ip := by
  unfold filedup
  by_cases h : g = f
  · subst h
    simp
  · simp [h]

theorem fileclose_ref (file : ℕ → File) (f g : ℕ) :
    (fileclose file f g).ref = (file g).ref + if f = g then -1 else 0 := by
  unfold fileclose
  by_cases h : g = f
  · subst h
    simp
    ring
  · simp [h, Ne.symm h]

theorem fileclose_ip (file : ℕ → File) (f g : ℕ) : (fileclose file f g).ip = (file g).ip := by
  unfold fileclose
  by_cases h : g = f
  · subst h
    simp
  · simp [h]

theorem filealloc_spec {file : ℕ → File} (h : filealloc file = some f) : (file f).ref ≤ 0 := by
  simpa using List.find?_some h

section

omit [DecidableEq P]

theorem fdalloc_spec (h : s.fdalloc p = some fd) : fd < nofile ∧ s.oftable p fd = none :=
  ⟨List.mem_range.1 (List.mem_of_find?_eq_some h), by simpa using List.find?_some h⟩

/-! ## The invariant -/

/-- **The invariant of the file table.** -/
structure Inv (s : FileSys P) : Prop where
  ref_eq_descriptors : ∀ f, (s.file f).ref = s.descriptors f
  backed : ∀ p ∈ s.live, ∀ st ∈ s.sections p,
    1 ≤ (s.file st.fp).ref ∧ (s.file st.fp).ip = st.mapped

theorem Inv.ref_nonneg (h : Inv s) (f : ℕ) : 0 ≤ (s.file f).ref := by
  rw [h.ref_eq_descriptors]
  exact descriptors_nonneg s f

/-- A slot that `filealloc` returns has no reference. -/
theorem Inv.ref_of_filealloc (h : Inv s) (hf : filealloc s.file = some f) : (s.file f).ref = 0 :=
  le_antisymm (filealloc_spec hf) (h.ref_nonneg f)

/-- The sections stay backed by slots that are not touched. -/
theorem Inv.backed_of_eq (h : Inv s) {file : ℕ → File}
    (hfile : ∀ f, 1 ≤ (s.file f).ref → 1 ≤ (file f).ref ∧ (file f).ip = (s.file f).ip) :
    ∀ p ∈ s.live, ∀ st ∈ s.sections p, 1 ≤ (file st.fp).ref ∧ (file st.fp).ip = st.mapped := by
  intro p hp st hst
  obtain ⟨href, hip⟩ := h.backed p hp st hst
  obtain ⟨href', hip'⟩ := hfile st.fp href
  exact ⟨href', hip'.trans hip⟩

end

/-- **What the calls have to respect** for a section to keep its file. -/
def Kept (s : FileSys P) : FileAct P → Prop
  | .close p fd => ∀ f ∈ s.oftable p fd, (s.file f).ref = 1 →
    ∀ q ∈ s.live, ∀ st ∈ s.sections q, st.fp ≠ f
  | .exit p => ∀ q ∈ s.live, q ≠ p → ∀ st ∈ s.sections q,
    (s.file st.fp).ref ≠ count (s.oftable p) nofile st.fp
  | .execve _ _ headers done => done = true → headers = []
  | .fork p _ stale => ∀ fd < nofile, s.oftable p fd = none → stale fd = none
  | _ => True

instance (s : FileSys P) (a : FileAct P) : Decidable (s.Kept a) :=
  match a with
  | .close p fd => inferInstanceAs (Decidable (∀ f ∈ s.oftable p fd, (s.file f).ref = 1 →
      ∀ q ∈ s.live, ∀ st ∈ s.sections q, st.fp ≠ f))
  | .exit p => inferInstanceAs (Decidable (∀ q ∈ s.live, q ≠ p → ∀ st ∈ s.sections q,
      (s.file st.fp).ref ≠ count (s.oftable p) nofile st.fp))
  | .execve _ _ headers done => decidable_of_iff (done = true → headers.isEmpty) (by
      rw [Kept, List.isEmpty_iff])
  | .fork p _ stale => inferInstanceAs (Decidable (∀ fd < nofile, s.oftable p fd = none →
      stale fd = none))
  | .openat _ _ | .dup _ _ | .pipe2 _ | .mmap _ _ _ _ _ _ | .munmap _ _ _ =>
    inferInstanceAs (Decidable True)

omit [DecidableEq P] in
theorem inv_idle (live : Finset P) : Inv (idle live) where
  ref_eq_descriptors := fun f => by simp [idle, descriptors, count]
  backed := fun _ _ _ hst => by cases hst

/-- A new file in a free slot and a free descriptor. -/
theorem Inv.install (h : Inv s) (hp : p ∈ s.live) {file : ℕ → File}
    (hf : (s.file f).ref = 0) (hself : (file f).ref = 1)
    (hother : ∀ g, g ≠ f → file g = s.file g) (hfd : s.fdalloc p = some fd) :
    Inv ({ s with file := file }.setFd p fd (some f)) := by
  obtain ⟨hlt, hnone⟩ := fdalloc_spec hfd
  refine ⟨fun g => ?_, h.backed_of_eq fun g hg => ?_⟩
  · have hd := descriptors_setFd (s := { s with file := file }) hp hlt (some f) g
    rw [hd]
    have hg := h.ref_eq_descriptors g
    show (file g).ref = s.descriptors g - (if s.oftable p fd = some g then 1 else 0) + _
    rw [hnone, ← hg]
    by_cases hgf : g = f
    · subst hgf
      rw [hself, hf]
      simp
    · rw [hother g hgf]
      simp [Ne.symm hgf]
  · have hgf : g ≠ f := by
      rintro rfl
      omega
    show 1 ≤ (file g).ref ∧ (file g).ip = (s.file g).ip
    rw [hother g hgf]
    exact ⟨hg, rfl⟩

theorem Inv.dup (h : Inv s) (hp : p ∈ s.live) {nfd : ℕ} (hnfd : s.fdalloc p = some nfd) (f : ℕ) :
    Inv ({ s with file := filedup s.file f }.setFd p nfd (some f)) := by
  obtain ⟨hlt, hnone⟩ := fdalloc_spec hnfd
  refine ⟨fun g => ?_, h.backed_of_eq fun g hg => ?_⟩
  · have hd := descriptors_setFd (s := { s with file := filedup s.file f }) hp hlt (some f) g
    rw [hd]
    show (filedup s.file f g).ref =
      s.descriptors g - (if s.oftable p nfd = some g then 1 else 0) + _
    rw [filedup_ref, hnone, ← h.ref_eq_descriptors g]
    simp
  · show 1 ≤ (filedup s.file f g).ref ∧ (filedup s.file f g).ip = _
    rw [filedup_ref, filedup_ip]
    exact ⟨by split <;> omega, rfl⟩

theorem Inv.close (h : Inv s) (hp : p ∈ s.live) (hfd : fd < nofile)
    (hf : s.oftable p fd = some f) (hkept : s.Kept (.close p fd)) :
    Inv ({ s with file := fileclose s.file f }.setFd p fd none) := by
  refine ⟨fun g => ?_, fun q hq st hst => ?_⟩
  · have hd := descriptors_setFd (s := { s with file := fileclose s.file f }) hp hfd none g
    rw [hd]
    show (fileclose s.file f g).ref =
      s.descriptors g - (if s.oftable p fd = some g then 1 else 0) + _
    rw [fileclose_ref, hf, ← h.ref_eq_descriptors g]
    simp only [Option.some.injEq, reduceCtorEq, if_false, add_zero]
    split <;> omega
  · obtain ⟨href, hip⟩ := h.backed q hq st hst
    show 1 ≤ (fileclose s.file f st.fp).ref ∧ (fileclose s.file f st.fp).ip = _
    rw [fileclose_ref, fileclose_ip]
    split_ifs with hfp
    · -- the last descriptor of a file that a section uses is not closed
      have hne : (s.file f).ref ≠ 1 := fun hone => hkept f hf hone q hq st hst hfp.symm
      rw [hfp] at hne
      omega
    · omega

/-- A change of the sections of one process. -/
theorem Inv.sections (h : Inv s) {l : List FileSection}
    (hl : p ∈ s.live → ∀ st ∈ l, 1 ≤ (s.file st.fp).ref ∧ (s.file st.fp).ip = st.mapped) :
    Inv (s.setSections p l) := by
  refine ⟨h.ref_eq_descriptors, fun q hq st hst => ?_⟩
  by_cases hqp : q = p
  · subst hqp
    have hst : st ∈ update s.sections q l q := hst
    rw [update_self] at hst
    exact hl hq st hst
  · have hst : st ∈ update s.sections p l q := hst
    rw [update_of_ne hqp] at hst
    exact h.backed q hq st hst

/-- `execve` takes slots without references and gives them none. -/
theorem loadSections_file {ip : ℕ} :
    ∀ {headers : List (Paging.Phdr × Paging.Section)} {file : ℕ → File}
    {r : (ℕ → File) × List FileSection}, (∀ f, 0 ≤ (file f).ref) →
    loadSections ip headers file = some r →
    (∀ f, (r.1 f).ref = (file f).ref) ∧ ∀ f, 1 ≤ (file f).ref → r.1 f = file f := by
  intro headers
  induction headers with
  | nil =>
    intro file r _ hr
    obtain rfl := Option.some.inj hr
    exact ⟨fun _ => rfl, fun _ _ => rfl⟩
  | cons hd tl ih =>
    intro file r hpos hr
    simp only [loadSections, Option.bind_eq_some_iff] at hr
    obtain ⟨f, hf, hr⟩ := hr
    obtain ⟨r', hr', rfl⟩ := Option.map_eq_some_iff.1 hr
    have hfree : (file f).ref = 0 := le_antisymm (filealloc_spec hf) (hpos f)
    obtain ⟨file₁, hfile₁⟩ : ∃ file₁, file₁ = update file f ⟨.inode, 0, ip⟩ := ⟨_, rfl⟩
    rw [← hfile₁] at hr'
    have href : ∀ g, (file₁ g).ref = (file g).ref := fun g => by
      rw [hfile₁]
      by_cases hg : g = f
      · subst hg
        rw [update_self, hfree]
      · rw [update_of_ne hg]
    obtain ⟨h₁, h₂⟩ := ih (fun g => by rw [href]; exact hpos g) hr'
    refine ⟨fun g => (h₁ g).trans (href g), fun g hg => ?_⟩
    have hgf : g ≠ f := by
      rintro rfl
      omega
    rw [h₂ g (by rw [href]; exact hg), hfile₁, update_of_ne hgf]

theorem Inv.execve (h : Inv s) {ip : ℕ} {headers : List (Paging.Phdr × Paging.Section)} {done : Bool}
    {r : (ℕ → File) × List FileSection} (hr : loadSections ip headers s.file = some r)
    (hkept : s.Kept (.execve p ip headers done)) :
    Inv { s with
      file := r.1
      sections := if done then update s.sections p r.2 else s.sections } := by
  obtain ⟨href, hsame⟩ := loadSections_file h.ref_nonneg hr
  have hinv : Inv { s with file := r.1 } :=
    ⟨fun f => (href f).trans (h.ref_eq_descriptors f),
      h.backed_of_eq fun f hf => ⟨(href f).symm ▸ hf, congrArg File.ip (hsame f hf)⟩⟩
  cases hdone : done with
  | false => exact hinv
  | true =>
    rw [hkept hdone] at hr
    obtain rfl := Option.some.inj hr
    exact hinv.sections fun _ st hst => by cases hst

theorem descriptors_insert {c : P} (hc : c ∉ s.live) (fp : ℕ → Option ℕ) (file : ℕ → File)
    (sections : P → List FileSection) (g : ℕ) :
    FileSys.descriptors ⟨file, insert c s.live, update s.oftable c fp, sections⟩ g =
      s.descriptors g + count fp nofile g := by
  unfold descriptors
  simp only
  rw [Finset.sum_insert hc, update_self, add_comm]
  congr 1
  refine Finset.sum_congr rfl fun q hq => ?_
  have hqc : q ≠ c := fun he => hc (he ▸ hq)
  rw [update_of_ne hqc]

theorem Inv.fork (h : Inv s) (hp : p ∈ s.live) {c : P} (hc : c ∉ s.live) {stale : ℕ → Option ℕ}
    (hkept : s.Kept (.fork p c stale)) :
    Inv { s with
      file := eachOpen filedup (s.oftable p) nofile s.file
      live := insert c s.live
      oftable := update s.oftable c fun fd =>
        if s.oftable p fd = none then stale fd else s.oftable p fd
      sections := update s.sections c (s.sections p).reverse } := by
  have hfp : ∀ g, count (fun fd => if s.oftable p fd = none then stale fd else s.oftable p fd)
      nofile g = count (s.oftable p) nofile g := fun g => by
    refine count_congr (fun fd hfd => ?_) g
    split_ifs with hnone
    · rw [hkept fd hfd hnone, hnone]
    · rfl
  have hback : ∀ q ∈ s.live, ∀ st ∈ s.sections q,
      1 ≤ (eachOpen filedup (s.oftable p) nofile s.file st.fp).ref ∧
        (eachOpen filedup (s.oftable p) nofile s.file st.fp).ip = st.mapped :=
    h.backed_of_eq fun g hg => by
      rw [eachOpen_ref filedup_ref, eachOpen_field File.ip filedup_ip]
      have := count_nonneg (s.oftable p) nofile g
      exact ⟨by omega, rfl⟩
  refine ⟨fun g => ?_, fun q hq st hst => ?_⟩
  · rw [descriptors_insert hc, hfp]
    rw [eachOpen_ref filedup_ref, one_mul, h.ref_eq_descriptors]
  · have hst : st ∈ update s.sections c (s.sections p).reverse q := hst
    by_cases hqc : q = c
    · rw [hqc, update_self] at hst
      exact hback p hp st (List.mem_reverse.1 hst)
    · rw [update_of_ne hqc] at hst
      exact hback q (Finset.mem_of_mem_insert_of_ne hq hqc) st hst

theorem Inv.exit (h : Inv s) (hp : p ∈ s.live) (hkept : s.Kept (.exit p)) :
    Inv { s with
      file := eachOpen fileclose (s.oftable p) nofile s.file
      live := s.live.erase p
      sections := update s.sections p [] } := by
  have hsplit : ∀ g, count (s.oftable p) nofile g +
      ∑ q ∈ s.live.erase p, count (s.oftable q) nofile g = s.descriptors g :=
    fun g => Finset.add_sum_erase _ (fun q => count (s.oftable q) nofile g) hp
  have href : ∀ g, (eachOpen fileclose (s.oftable p) nofile s.file g).ref =
      ∑ q ∈ s.live.erase p, count (s.oftable q) nofile g := fun g => by
    rw [eachOpen_ref fileclose_ref, h.ref_eq_descriptors, ← hsplit g]
    ring
  refine ⟨href, fun q hq st hst => ?_⟩
  obtain ⟨hqp, hq⟩ := Finset.mem_erase.1 hq
  have hst : st ∈ update s.sections p [] q := hst
  rw [update_of_ne hqp] at hst
  obtain ⟨hone, hip⟩ := h.backed q hq st hst
  refine ⟨?_, (eachOpen_field File.ip fileclose_ip _ _ _ _).trans hip⟩
  -- some other process has a descriptor for the file
  have hne := hkept q hq hqp st hst
  have hnn : 0 ≤ ∑ q ∈ s.live.erase p, count (s.oftable q) nofile st.fp :=
    Finset.sum_nonneg fun _ _ => count_nonneg _ _ _
  rw [href]
  rw [h.ref_eq_descriptors, ← hsplit] at hne
  omega

/-- The two ends of a pipe get slots and descriptors one after the other. -/
theorem Inv.pipe2 (h : Inv s) (hp : p ∈ s.live) {f₀ f₁ fd₀ fd₁ : ℕ}
    (hf₀ : filealloc s.file = some f₀) (hf₁ : filealloc (allocated s.file f₀) = some f₁)
    (hfd₀ : s.fdalloc p = some fd₀) (hfd₁ : (s.setFd p fd₀ (some f₀)).fdalloc p = some fd₁) :
    Inv (({ s with file := asPipe (asPipe s.file f₀) f₁ }.setFd p fd₀ (some f₀)).setFd p fd₁
      (some f₁)) := by
  have hzero₀ := h.ref_of_filealloc hf₀
  have hfree₁ := filealloc_spec hf₁
  have hne : f₁ ≠ f₀ := by
    rintro rfl
    simp [allocated] at hfree₁
  have hzero₁ : (s.file f₁).ref = 0 := by
    rw [allocated, update_of_ne hne] at hfree₁
    exact le_antisymm hfree₁ (h.ref_nonneg f₁)
  have h₀ : Inv ({ s with file := asPipe s.file f₀ }.setFd p fd₀ (some f₀)) :=
    h.install hp hzero₀ (by simp [asPipe]) (fun g hg => update_of_ne hg _ _) hfd₀
  have hzero₁' : (asPipe s.file f₀ f₁).ref = 0 := by
    rw [asPipe, update_of_ne hne]
    exact hzero₁
  have hself : (asPipe (asPipe s.file f₀) f₁ f₁).ref = 1 := by simp [asPipe]
  have hother : ∀ g, g ≠ f₁ → asPipe (asPipe s.file f₀) f₁ g = asPipe s.file f₀ g :=
    fun g hg => update_of_ne hg _ _
  exact h₀.install hp hzero₁' hself hother hfd₁

omit [DecidableEq P] in
/-- A slot that is taken and given back at once. -/
theorem Inv.pipe2_full (h : Inv s) {f₀ : ℕ} (hf₀ : filealloc s.file = some f₀) :
    Inv { s with file := fileclose (allocated s.file f₀) f₀ } := by
  have hzero := h.ref_of_filealloc hf₀
  have href : ∀ g, (fileclose (allocated s.file f₀) f₀ g).ref = (s.file g).ref := fun g => by
    rw [fileclose_ref, allocated]
    by_cases hg : g = f₀
    · subst hg
      simp [hzero]
    · simp [hg, Ne.symm hg]
  refine ⟨fun g => (href g).trans (h.ref_eq_descriptors g), h.backed_of_eq fun g hg => ?_⟩
  rw [href, fileclose_ip]
  have hne : g ≠ f₀ := by
    rintro rfl
    omega
  rw [allocated, update_of_ne hne]
  exact ⟨hg, rfl⟩

/-- **Every call keeps the invariant**, if it respects the sections. -/
theorem Inv.step (h : Inv s) {a : FileAct P} (hkept : s.Kept a) (hs : s.step a = some s') :
    Inv s' := by
  cases a with
  | openat p ip =>
    simp only [FileSys.step] at hs
    split at hs
    · rename_i hp
      split at hs
      · obtain rfl := Option.some.inj hs
        exact h
      · rename_i f hf
        obtain ⟨fd, hfd, rfl⟩ := Option.map_eq_some_iff.1 hs
        exact h.install hp (h.ref_of_filealloc hf) (by simp)
          (fun g hg => update_of_ne hg _ _) hfd
    · cases hs
  | dup p fd =>
    simp only [FileSys.step] at hs
    split at hs
    · rename_i hp
      split at hs
      · split at hs
        · obtain rfl := Option.some.inj hs
          exact h
        · rename_i f hf
          obtain ⟨nfd, hnfd, rfl⟩ := Option.map_eq_some_iff.1 hs
          exact h.dup hp hnfd f
      · obtain rfl := Option.some.inj hs
        exact h
    · cases hs
  | close p fd =>
    simp only [FileSys.step] at hs
    split at hs
    · rename_i hp
      split at hs
      · rename_i hfd
        obtain ⟨f, hf, rfl⟩ := Option.map_eq_some_iff.1 hs
        exact h.close hp hfd hf hkept
      · obtain rfl := Option.some.inj hs
        exact h
    · cases hs
  | pipe2 p =>
    simp only [FileSys.step] at hs
    split at hs
    · rename_i hp
      split at hs
      · obtain rfl := Option.some.inj hs
        exact h
      · rename_i f₀ hf₀
        split at hs
        · obtain rfl := Option.some.inj hs
          exact h.pipe2_full hf₀
        · rename_i f₁ hf₁
          obtain ⟨fd₀, hfd₀, hs⟩ := Option.bind_eq_some_iff.1 hs
          obtain ⟨fd₁, hfd₁, rfl⟩ := Option.map_eq_some_iff.1 hs
          exact h.pipe2 hp hf₀ hf₁ hfd₀ hfd₁
    · cases hs
  | mmap p va length write fd offset =>
    simp only [FileSys.step] at hs
    split at hs
    · rename_i hp
      split at hs
      · rename_i hfd
        split at hs
        · obtain rfl := Option.some.inj hs
          exact h
        · rename_i f hf
          split at hs
          · obtain rfl := Option.some.inj hs
            refine h.sections fun _ st hst => ?_
            rcases List.mem_cons.1 hst with rfl | hst
            · refine ⟨?_, rfl⟩
              rw [h.ref_eq_descriptors]
              exact one_le_descriptors hp hfd hf
            · exact h.backed p hp st hst
          · obtain rfl := Option.some.inj hs
            exact h
      · obtain rfl := Option.some.inj hs
        exact h
    · cases hs
  | munmap p addr length =>
    simp only [FileSys.step] at hs
    split at hs
    · rename_i hp
      split at hs
      · obtain rfl := Option.some.inj hs
        exact h
      · rename_i st hst
        obtain rfl := Option.some.inj hs
        refine h.sections fun _ st' hst' => ?_
        rcases List.mem_append.1 hst' with hst' | hst'
        · -- what is left of a section has the same file
          obtain ⟨_, -, rfl⟩ := List.mem_map.1 hst'
          exact h.backed p hp st (List.mem_of_find?_eq_some hst)
        · exact h.backed p hp st' (List.mem_of_mem_erase hst')
    · cases hs
  | execve p ip headers done =>
    simp only [FileSys.step] at hs
    split at hs
    · obtain ⟨r, hr, rfl⟩ := Option.map_eq_some_iff.1 hs
      exact h.execve hr hkept
    · cases hs
  | fork p c stale =>
    obtain ⟨hpc, rfl⟩ := of_guard hs
    exact h.fork hpc.1 hpc.2 hkept
  | exit p =>
    obtain ⟨hp, rfl⟩ := of_guard hs
    exact h.exit hp hkept

/-- **Slots in use are never allocated again**, in every run in which no
`execve` completes with a loaded segment, a new process has no descriptors
but those of its parent, and the last descriptor of a file is not closed while a
section uses the file: each file that a live process has a descriptor or
a section for has a reference, `filealloc` returns none of them, and a
section has the inode that it was made for. -/
theorem slots_in_use {p₀ : P} {tr : List (FileSys P × FileAct P)} (hrun : Run step (init p₀) tr s)
    (hkept : ∀ x ∈ tr, x.1.Kept x.2) :
    (∀ p ∈ s.live, ∀ fd < nofile, ∀ f, s.oftable p fd = some f →
      1 ≤ (s.file f).ref ∧ filealloc s.file ≠ some f) ∧
    ∀ p ∈ s.live, ∀ st ∈ s.sections p,
      1 ≤ (s.file st.fp).ref ∧ filealloc s.file ≠ some st.fp ∧ (s.file st.fp).ip = st.mapped := by
  have h : Inv s := hrun.invariantOf (K := fun s a => s.Kept a) hkept (inv_idle {p₀})
    fun s a s' hI hK hs => hI.step hK hs
  have hused : ∀ f, 1 ≤ (s.file f).ref → filealloc s.file ≠ some f := by
    intro f hone hf
    have := h.ref_of_filealloc hf
    omega
  refine ⟨fun p hp fd hfd f hf => ?_, fun p hp st hst => ?_⟩
  · have hone : 1 ≤ (s.file f).ref := by
      rw [h.ref_eq_descriptors]
      exact one_le_descriptors hp hfd hf
    exact ⟨hone, hused f hone⟩
  · obtain ⟨hone, hip⟩ := h.backed p hp st hst
    exact ⟨hone, hused _ hone, hip⟩

/-- A mapped file stays in its slot while one of its two descriptors is
open, and another file gets another slot. -/
theorem slots_in_use_dup : ∃ tr s, Run step (init 0 : FileSys ℕ) tr s ∧ s.oftable 0 0 = some 1 ∧
    ∃ st ∈ s.sections 0, st.mapped = 7 ∧ 1 ≤ (s.file st.fp).ref ∧ (s.file st.fp).ip = 7 := by
  obtain ⟨acts, hacts⟩ : ∃ acts : List (FileAct ℕ), acts =
    [.openat 0 7, .dup 0 0, .mmap 0 0x10000 4096 false 0 0, .close 0 0, .openat 0 9] := ⟨_, rfl⟩
  have hkey : (exec step (init 0 : FileSys ℕ) acts).map (fun s =>
      (s.sections 0, s.oftable 0 0, s.live)) =
      some ([⟨Paging.mmapSection 7 0x10000 4096 false 0, 0, 7⟩], some 1, {0}) := by
    rw [hacts]
    decide +kernel
  have hkept : ∀ x ∈ execTrace step (init 0 : FileSys ℕ) acts, x.1.Kept x.2 := by
    rw [hacts]
    decide +kernel
  obtain ⟨s, hs, heq⟩ := Option.map_eq_some_iff.1 hkey
  obtain ⟨hsec, hfd, hlive⟩ : s.sections 0 = [⟨Paging.mmapSection 7 0x10000 4096 false 0, 0, 7⟩] ∧
    s.oftable 0 0 = some 1 ∧ s.live = {0} := by simpa using heq
  have hrun := Run.of_exec hs
  have hmem : ⟨Paging.mmapSection 7 0x10000 4096 false 0, 0, 7⟩ ∈ s.sections 0 := by
    rw [hsec]
    exact List.mem_singleton_self _
  obtain ⟨hone, -, hip⟩ := (slots_in_use hrun hkept).2 0 (by rw [hlive]; simp) _ hmem
  exact ⟨_, s, hrun, hfd, _, hmem, rfl, hone, hip⟩

/-- **A mapped file loses its slot.** Process 0 maps file 7 and closes the
descriptor; the slot of the file, which the section still uses, is then
given to file 9. -/
theorem mapped_slot_reused : ∃ tr s s', Run step (init 0 : FileSys ℕ) tr s ∧
    step s (.openat 0 9) = some s' ∧
    ∃ st ∈ s.sections 0, st ∈ s'.sections 0 ∧ 0 ∈ s.live ∧ st.mapped = 7 ∧
      (s.file st.fp).ref = 0 ∧ filealloc s.file = some st.fp ∧ (s'.file st.fp).ip = 9 := by
  have hkey : ((exec step (init 0 : FileSys ℕ)
      [.openat 0 7, .mmap 0 0x10000 4096 false 0 0, .close 0 0]).bind fun s =>
      (step s (.openat 0 9)).map fun s' => decide (∃ st ∈ s.sections 0, st ∈ s'.sections 0 ∧
        0 ∈ s.live ∧ st.mapped = 7 ∧ (s.file st.fp).ref = 0 ∧ filealloc s.file = some st.fp ∧
        (s'.file st.fp).ip = 9)) = some true := by
    decide +kernel
  obtain ⟨s, hs, hs'⟩ := Option.bind_eq_some_iff.1 hkey
  obtain ⟨s', hstep, hprop⟩ := Option.map_eq_some_iff.1 hs'
  exact ⟨_, s, s', Run.of_exec hs, hstep, of_decide_eq_true hprop⟩

end FileSys

end OsKernel.Fs
