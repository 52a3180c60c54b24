import OsKernel.Fs.FileTable

/-!
# The descriptor table of a new process

`fork` sets the descriptors of the child that the parent has open, and
`init_oftable`, which would clear the others, is not called. So the child
has a copy of the table of its parent just when its recycled memory was
clear there (`fork_copies_descriptors`), and otherwise it has descriptors
that nobody gave it (`fork_revives_descriptor`).
-/

namespace OsKernel.Fs

open Function

namespace FileSys

variable {P : Type} [DecidableEq P] {s : FileSys P} {p c : P} {stale : ℕ → Option ℕ}
variable {fp : ℕ → Option ℕ} {file : ℕ → File} {f g n : ℕ}

theorem filedup_type (file : ℕ → File) (f g : ℕ) : (filedup file f g).type = (file g).type := by
  unfold filedup
  by_cases h : g = f
  · subst h
    rw [update_self]
  · rw [update_of_ne h]

/-- A file that is not closed for the last time keeps its type. -/
theorem fileclose_type (h : f = g → (file g).ref ≠ 1) :
    (fileclose file f g).type = (file g).type := by
  unfold fileclose
  by_cases hg : g = f
  · subst hg
    have hne : (file g).ref - 1 ≠ 0 := fun h0 => h rfl (by omega)
    rw [update_self]
    exact if_neg fun hlast => hne hlast.1
  · rw [update_of_ne hg]

/-- **The loop of `exit`** keeps the type of a file that has more references
than the table has descriptors for it. -/
theorem eachOpen_fileclose_type (h : count fp n g = 0 ∨ count fp n g < (file g).ref) :
    (eachOpen fileclose fp n file g).type = (file g).type := by
  induction n with
  | zero => rfl
  | succ n ih =>
    have hnn := count_nonneg fp n g
    have hsucc := count_succ fp n g
    rw [eachOpen]
    cases hfp : fp n with
    | none =>
      rw [hfp, if_neg (by simp)] at hsucc
      exact ih (by omega)
    | some f =>
      rw [hfp] at hsucc
      have hstep : (fileclose (eachOpen fileclose fp n file) f g).type =
          (eachOpen fileclose fp n file g).type := by
        refine fileclose_type ?_
        rintro rfl
        rw [if_pos rfl] at hsucc
        rw [eachOpen_ref fileclose_ref]
        omega
      refine hstep.trans (ih ?_)
      split_ifs at hsucc <;> omega

/-- A file with a descriptor in the table. -/
theorem exists_of_count_ne_zero (h : count fp n g ≠ 0) : ∃ fd < n, fp fd = some g := by
  by_contra hnone
  refine h (Finset.sum_eq_zero fun fd hfd => if_neg fun hf => ?_)
  exact hnone ⟨fd, Finset.mem_range.1 hfd, hf⟩

section Dup

/-! A table whose files are duplicated for another table of as many descriptors. -/

variable {fp' : ℕ → Option ℕ} (hcount : ∀ g, count fp' n g = count fp n g)

include hcount

/-- Closing the other table takes the references back. -/
theorem ref_dup_close (g : ℕ) :
    (eachOpen fileclose fp' n (eachOpen filedup fp n file) g).ref = (file g).ref := by
  rw [eachOpen_ref fileclose_ref, eachOpen_ref filedup_ref, hcount]
  ring

variable (hopen : ∀ fd < n, ∀ f, fp fd = some f → 1 ≤ (file f).ref)

include hopen

/-- A file that was open has more references than the other table has descriptors for it. -/
theorem count_lt_ref_dup (g : ℕ) :
    count fp' n g = 0 ∨ count fp' n g < (eachOpen filedup fp n file g).ref := by
  rw [eachOpen_ref filedup_ref, hcount]
  by_cases hzero : count fp n g = 0
  · exact .inl hzero
  · obtain ⟨fd, hfd, hf⟩ := exists_of_count_ne_zero hzero
    have := hopen fd hfd g hf
    exact .inr (by omega)

/-- **Closing the other table undoes the duplication.** -/
theorem dup_close : eachOpen fileclose fp' n (eachOpen filedup fp n file) = file := by
  funext g
  refine File.ext ?_ (ref_dup_close hcount g) ?_
  · rw [eachOpen_fileclose_type (count_lt_ref_dup hcount hopen g),
      eachOpen_field File.type filedup_type]
  · rw [eachOpen_field File.ip fileclose_ip, eachOpen_field File.ip filedup_ip]

end Dup

omit [DecidableEq P] in
/-- The table of a child whose memory was clear where its parent has no
descriptor. -/
theorem forkTable_eq (hclean : ∀ fd < nofile, s.oftable p fd = none → stale fd = none) {fd : ℕ}
    (hfd : fd < nofile) :
    (if s.oftable p fd = none then stale fd else s.oftable p fd) = s.oftable p fd := by
  split_ifs with hnone
  · rw [hclean fd hfd hnone, hnone]
  · rfl

/-- **`fork` copies the descriptor table** just when the memory of the child was
clear wherever its parent has no descriptor: the child has the descriptors of
the parent, each file has as many references more as the parent has
descriptors for it, and an `exit` of the child takes back exactly these. Where
the open files had references, they are then as they were. -/
theorem fork_copies_descriptors (hp : p ∈ s.live) (hc : c ∉ s.live) :
    (∃ s₁ s₂, s.step (.fork p c stale) = some s₁ ∧
      (∀ fd < nofile, s₁.oftable c fd = s.oftable p fd) ∧ s₁.oftable p = s.oftable p ∧
      (∀ f, (s₁.file f).ref = (s.file f).ref + count (s.oftable p) nofile f) ∧
      s₁.step (.exit c) = some s₂ ∧ (∀ f, (s₂.file f).ref = (s.file f).ref) ∧
      ((∀ fd < nofile, ∀ f, s.oftable p fd = some f → 1 ≤ (s.file f).ref) →
        s₂.file = s.file)) ↔
    ∀ fd < nofile, s.oftable p fd = none → stale fd = none := by
  constructor
  · rintro ⟨s₁, s₂, hfork, htable, -⟩ fd hfd hnone
    obtain rfl := Option.some.inj ((if_pos ⟨hp, hc⟩).symm.trans hfork)
    have hchild := htable fd hfd
    simp only [update_self, hnone, if_true] at hchild
    exact hchild
  intro hclean
  have hpc : p ≠ c := fun h => hc (h ▸ hp)
  set s₁ : FileSys P := { s with
    file := eachOpen filedup (s.oftable p) nofile s.file
    live := insert c s.live
    oftable := update s.oftable c fun fd =>
      if s.oftable p fd = none then stale fd else s.oftable p fd
    sections := update s.sections c (s.sections p).reverse } with hs₁
  have htable : ∀ fd < nofile, s₁.oftable c fd = s.oftable p fd := by
    intro fd hfd
    rw [hs₁]
    simp only [update_self]
    exact forkTable_eq hclean hfd
  have hcount : ∀ f, count (s₁.oftable c) nofile f = count (s.oftable p) nofile f :=
    count_congr htable
  have href : ∀ f, (s₁.file f).ref = (s.file f).ref + count (s.oftable p) nofile f := by
    intro f
    rw [hs₁, eachOpen_ref filedup_ref, one_mul]
  exact ⟨s₁, _, if_pos ⟨hp, hc⟩, htable, update_of_ne hpc _ _, href,
    if_pos (Finset.mem_insert_self c _), ref_dup_close hcount, dup_close hcount⟩

/-- A process with one open file forks a child with clear memory. -/
theorem fork_copies_descriptors_oneFile : ∃ s s₁ s₂ : FileSys ℕ,
    (init 0).step (.openat 0 7) = some s ∧ s.step (.fork 0 1 fun _ => none) = some s₁ ∧
      s₁.oftable 1 0 = s.oftable 0 0 ∧ s₁.step (.exit 1) = some s₂ ∧ s₂.file = s.file := by
  have hkey : ((init 0 : FileSys ℕ).step (.openat 0 7)).any (fun s =>
      decide (0 ∈ s.live ∧ 1 ∉ s.live ∧ ∀ fd < nofile, ∀ f ∈ s.oftable 0 fd,
        1 ≤ (s.file f).ref)) = true := by decide +kernel
  obtain ⟨s, hs, hend⟩ := (Option.any_eq_true _ _).1 hkey
  obtain ⟨hp, hc, hopen⟩ := of_decide_eq_true hend
  obtain ⟨s₁, s₂, hfork, htable, -, -, hexit, -, hfile⟩ :=
    (@fork_copies_descriptors ℕ _ s 0 1 (fun _ => none) hp hc).2 fun _ _ _ => rfl
  exact ⟨s, s₁, s₂, hs, hfork, htable 0 (by decide), hexit,
    hfile fun fd hfd f hf => hopen fd hfd f hf⟩

/-- **A child has a descriptor that its parent does not have.** Process 1 has
exited with a descriptor, which its parent has closed since; its memory is
that of the next child, which has the descriptor again. When this child exits,
the file has a reference less than none. -/
theorem fork_revives_descriptor : ∃ tr s s₁ s₂, Run step (init 0 : FileSys ℕ) tr s ∧
    1 ∉ s.live ∧ s.step (.fork 0 2 (s.oftable 1)) = some s₁ ∧ s₁.oftable 0 0 = none ∧
    s₁.oftable 2 0 = some 0 ∧ s₁.step (.exit 2) = some s₂ ∧ (s.file 0).ref = 0 ∧
    (s₂.file 0).ref = -1 := by
  have hkey : ((exec step (init 0 : FileSys ℕ)
      [.openat 0 7, .fork 0 1 fun _ => none, .exit 1, .close 0 0]).bind fun s =>
      (s.step (.fork 0 2 (s.oftable 1))).bind fun s₁ => (s₁.step (.exit 2)).map fun s₂ =>
        decide (1 ∉ s.live ∧ s₁.oftable 0 0 = none ∧ s₁.oftable 2 0 = some 0 ∧
          (s.file 0).ref = 0 ∧ (s₂.file 0).ref = -1)) = some true := by
    decide +kernel
  obtain ⟨s, hs, hkey⟩ := Option.bind_eq_some_iff.1 hkey
  obtain ⟨s₁, hfork, hkey⟩ := Option.bind_eq_some_iff.1 hkey
  obtain ⟨s₂, hexit, hend⟩ := Option.map_eq_some_iff.1 hkey
  obtain ⟨hlive, hparent, hchild, href, href'⟩ := of_decide_eq_true hend
  exact ⟨_, s, s₁, s₂, Run.of_exec hs, hlive, hfork, hparent, hchild, hexit, href, href'⟩

end FileSys

end OsKernel.Fs
