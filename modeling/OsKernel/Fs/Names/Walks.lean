import OsKernel.Fs.Names.Tree

/-!
# What a path walk gets

`namex` looks up a number under the lock of a directory and gets the inode
after it has given up the lock and the directory. In between the inode may be
removed and freed, and its number may be given to another file
(`walk_gets_freed`). The same holds of `create`, which gets the inode that it
has found or made.

As long as no call runs beside one that creates or removes, every number that is
got is that of the inode which was looked up (`walks_get_what_they_found`), by
any number of walks at once: a number is given away only when it is free, and
the numbers that calls have looked up are those of allocated inodes
(`Rooted.alloc_of_target`).
-/

namespace OsKernel.Fs.NameSys

open Function

variable {P : Type*} [Fintype P] [DecidableEq P] {s s' : NameSys P} {f' : Volume P} {p : P}
  {x' : Task} {a : NameAct P} {n g : ℕ}

/-- What a call has looked up has not been allocated again. -/
def Current (s : NameSys P) : Prop :=
  ∀ p n g, (s.task p).stage.target = some (n, g) → s.vol.gen n = g

omit [Fintype P] [DecidableEq P] in
/-- A step counts an allocation of a free number only, and looks up the numbers
of the present. -/
theorem gen_of_effect (he : Effect s.vol p (s.task p) f' x') :
    (∀ m, s.vol.inodes m ≠ none → f'.gen m = s.vol.gen m) ∧
    ∀ n g, x'.stage.target = some (n, g) →
      f'.gen n = g ∨ f'.gen = s.vol.gen ∧ (s.task p).stage.target = some (n, g) := by
  cases he with
  | quiet _ _ _ _ _ _ _ _ target' =>
    exact ⟨fun _ _ => rfl, fun n g hng => Or.inl (target' n g hng).1.symm⟩
  | take =>
    refine ⟨fun _ _ => rfl, fun n g hng => Or.inl ?_⟩
    obtain ⟨rfl, rfl⟩ := pair_inj hng
    rfl
  | share _ _ _ _ _ _ _ _ _ target' =>
    exact ⟨fun _ _ => rfl, fun n g hng => by rw [target'] at hng; cases hng⟩
  | @put n x' _ _ _ _ _ _ _ _ target' =>
    have hgen := Volume.inodePut_gen s.vol n
    refine ⟨fun m _ => congrFun hgen m, fun m g hng => Or.inr ⟨hgen, ?_⟩⟩
    rcases target' with hnone | hsame
    · rw [hnone] at hng
      cases hng
    · exact hsame ▸ hng
  | @putBusy dir n =>
    exact ⟨fun m _ => congrFun (Volume.inodePut_gen s.vol n) m, by rintro _ _ ⟨⟩⟩
  | leak => exact ⟨fun _ _ => rfl, fun n g hng => Or.inr ⟨rfl, hng⟩⟩
  | init _ _ _ _ _ _ _ _ _ target' =>
    exact ⟨fun _ _ => rfl, fun n g hng => by rw [target'] at hng; cases hng⟩
  | @make c dir n i name ty hst lock ino type newType find free =>
    obtain ⟨hnone, -, -⟩ := Volume.findFree_spec free
    refine ⟨fun m hm => update_of_ne ?_ _ _, fun m g hng => Or.inl ?_⟩
    · rintro rfl
      exact hm hnone
    obtain ⟨rfl, rfl⟩ := pair_inj hng
    exact update_self _ _ _
  | lose | clear | dec => exact ⟨fun _ _ => rfl, by rintro _ _ ⟨⟩⟩

theorem Current.step (h : Current s) (hroot : Rooted s) (hs : s.step a = some s') :
    Current s' := by
  obtain ⟨f', x', rfl, he⟩ := hroot.exact.published.refs.exists_effect hs
  obtain ⟨hgen, htarget⟩ := gen_of_effect he
  intro q n g hq
  by_cases hqa : q = actor a
  · rw [hqa, after_task_self] at hq
    rcases htarget n g hq with hg | ⟨hsame, hold⟩
    · exact hg
    · exact (congrFun hsame n).trans (h _ n g hold)
  · rw [after_task_of_ne _ _ _ hqa] at hq
    exact (hgen n (hroot.alloc_of_target hq)).trans (h q n g hq)

/-- **A number that is got is that of the inode which was looked up**, when calls
that create or remove run alone and nobody else refers to a directory that
`unlinkat` removes. -/
theorem walks_get_what_they_found {img : Image} {tr : List (NameSys P × NameAct P)}
    (hrun : Run step img.init tr s) (hok : ∀ x ∈ tr, WritersAlone x.1 x.2)
    (hunused : ∀ x ∈ tr, RemovesUnused x.1 x.2) (hp : (s.task p).stage.target = some (n, g)) :
    s.vol.gen n = g ∧ ∃ f', s.vol.inodeGet n = some f' := by
  have hall : (Rooted s ∧ Alone s) ∧ Current s := by
    refine hrun.invariantOf (K := fun s a => WritersAlone s a ∧ RemovesUnused s a)
      (I := fun s => (Rooted s ∧ Alone s) ∧ Current s) (fun x hx => ⟨hok x hx, hunused x hx⟩)
      ⟨⟨Rooted.init img, Alone.init img⟩, by rintro _ _ _ ⟨⟩⟩ ?_
    rintro s a s' ⟨h, hcur⟩ hok hs
    exact ⟨rooted_step h hok.1 hok.2 hs, hcur.step h.1 hs⟩
  obtain ⟨⟨hroot, -⟩, hcur⟩ := hall
  exact ⟨hcur p n g hp, _, if_pos (Option.isSome_iff_ne_none.2 (hroot.alloc_of_target hp))⟩

/-- Process 0 makes the directory `"/a"`. Then it asks for `"/a/../f"` and
process 1 for `"/f"`, at the same time. -/
def twoWalks : List (NameAct (Fin 2)) :=
  let p : Fin 2 := ⟨0, Nat.two_pos⟩
  let q := Fin.last 1
  .call p .mkdirat [47, 97] :: List.replicate 6 (.go p true) ++
    [.call p .newfstatat [47, 97, 47, 46, 46, 47, 102], .call q (.openat false) [47, 102],
      .go p true, .go q true, .go p true, .go p true, .go q true, .go p true]

/-- Both will get what they have looked up, the root directory and `"/f"`. -/
theorem walks_get_what_they_found_both : ∃ tr s, Run (step (P := Fin 2)) oneFile.init tr s ∧
    (s.task 0).stage.target = some (rootIno, 0) ∧ (s.task 1).stage.target = some (2, 0) ∧
    (∃ f', s.vol.inodeGet rootIno = some f') ∧ s.vol.gen 2 = 0 ∧
    ∃ f', s.vol.inodeGet 2 = some f' := by
  have hend : (exec step oneFile.init twoWalks).any (fun s =>
      decide ((s.task 0).stage.target = some (rootIno, 0) ∧
        (s.task 1).stage.target = some (2, 0))) = true := by decide +kernel
  have htr : (execTrace step oneFile.init twoWalks).all (fun x =>
      decide (WritersAlone x.1 x.2) && decide (RemovesUnused x.1 x.2)) = true := by decide +kernel
  obtain ⟨s, hs, hany⟩ := (Option.any_eq_true _ _).1 hend
  obtain ⟨h₀, h₁⟩ := of_decide_eq_true hany
  have hok := fun x hx => Bool.and_eq_true_iff.1 (List.all_eq_true.1 htr x hx)
  have hget := fun {p n g} => walks_get_what_they_found (p := p) (n := n) (g := g) (Run.of_exec hs)
    (fun x hx => of_decide_eq_true (hok x hx).1) fun x hx => of_decide_eq_true (hok x hx).2
  exact ⟨_, s, Run.of_exec hs, h₀, h₁, (hget h₀).2, hget h₁⟩

/-! ## The file is removed in between -/

/-- **A walk gets an inode that has been freed**: the step of process 0 is the
failed assertion. -/
theorem walk_gets_freed : ∃ tr s, Run (step (P := Fin 2)) oneFile.init tr s ∧
    (∃ g, (s.task 0).stage.target = some (2, g)) ∧ s.vol.inodes 2 = none ∧
    s.step (.go 0 true) = none := by
  have hend : (exec step oneFile.init removedInBetween).any (fun s =>
      (s.task 0).stage.target = some (2, 0) && (s.vol.inodes 2).isNone &&
        (s.step (.go 0 true)).isNone) = true := by decide +kernel
  cases hs : exec step oneFile.init removedInBetween with
  | none =>
    rw [hs] at hend
    cases hend
  | some s =>
    rw [hs] at hend
    simp only [Option.any_some, Bool.and_eq_true, decide_eq_true_eq, Option.isNone_iff_eq_none] at hend
    exact ⟨_, s, Run.of_exec hs, ⟨0, hend.1.1⟩, hend.1.2, hend.2⟩

end OsKernel.Fs.NameSys
