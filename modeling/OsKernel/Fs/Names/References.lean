import OsKernel.Common.Holders
import OsKernel.Fs.Names.Effects

/-!
# The references to inodes

`rc.count` of an inode is the number of references that processes have to it,
with `inodes.root` and with what `namex` has lost (`Refs`). This holds in
every run, whatever the processes do, and so an inode is freed by its last
holder (`Refs.only_holder`).
-/

namespace OsKernel.Fs

open Function

namespace NameSys

variable {P : Type*} [Fintype P] [DecidableEq P] {s s' : NameSys P} {f' : Volume P} {p q : P}
  {x' : Task} {a : NameAct P} {m n : ℕ}

/-- The references that the processes have to an inode. -/
def holds (s : NameSys P) (n : ℕ) : ℕ := ∑ p, (s.task p).held.count n

/-- **The counts are right**, and what is not allocated is not referred to. -/
structure Refs (s : NameSys P) : Prop where
  count : ∀ n, s.vol.rc n = (if n = rootIno then 1 else 0) + s.holds n + s.vol.lost.count n
  free : ∀ n, s.vol.inodes n = none → s.vol.rc n = 0

/-- The state after a step of one process. -/
def after (s : NameSys P) (p : P) (f' : Volume P) (x' : Task) : NameSys P :=
  ⟨f', update s.task p x'⟩

omit [Fintype P] in
@[simp] theorem after_task_self (s : NameSys P) (p : P) (f' : Volume P) (x' : Task) :
    (s.after p f' x').task p = x' :=
  update_self _ _ _

omit [Fintype P] in
theorem after_task_of_ne (s : NameSys P) (f' : Volume P) (x' : Task) (hq : q ≠ p) :
    (s.after p f' x').task q = s.task q :=
  update_of_ne hq _ _

/-- A sum over the processes when one of them has gone on. -/
theorem sum_after (g : Task → ℕ) (s : NameSys P) (p : P) (f' : Volume P) (x' : Task) :
    ∑ q, g ((s.after p f' x').task q) + g (s.task p) = ∑ q, g (s.task q) + g x' := by
  have hself : g ((s.after p f' x').task p) = g x' := congrArg g (after_task_self s p f' x')
  have hother : ∀ q ∈ (Finset.univ : Finset P), q ≠ p →
      (fun q => g ((s.after p f' x').task q)) q = (fun q => g (s.task q)) q :=
    fun q _ hq => congrArg g (after_task_of_ne s f' x' hq)
  rw [← hself]
  exact sum_change (Finset.mem_univ p) hother

theorem holds_after (s : NameSys P) (p : P) (f' : Volume P) (x' : Task) (n : ℕ) :
    (s.after p f' x').holds n + (s.task p).held.count n = s.holds n + x'.held.count n :=
  sum_after (fun x => x.held.count n) s p f' x'

namespace Refs

omit [DecidableEq P] in
theorem le_holds (s : NameSys P) (p : P) (n : ℕ) : (s.task p).held.count n ≤ s.holds n :=
  Finset.single_le_sum (f := fun p => (s.task p).held.count n) (fun _ _ => Nat.zero_le _)
    (Finset.mem_univ p)

/-- Two processes have their references each. -/
theorem add_le_holds (hpq : p ≠ q) :
    (s.task p).held.count n + (s.task q).held.count n ≤ s.holds n :=
  add_le_sum (g := fun p => (s.task p).held.count n) (Finset.mem_univ p) (Finset.mem_univ q) hpq

section

variable (h : Refs s)

include h

section

omit [DecidableEq P]

/-- What a process refers to is allocated. -/
theorem alloc (hn : n ∈ (s.task p).held) : s.vol.inodes n ≠ none := by
  intro hnone
  have hpos := List.count_pos_iff.2 hn
  have hle := le_holds s p n
  have hcount := h.count n
  have hzero := h.free n hnone
  omega

theorem root : s.vol.inodes rootIno ≠ none := by
  intro hnone
  have hcount := h.count rootIno
  rw [h.free rootIno hnone, if_pos rfl] at hcount
  omega

theorem cwd (p : P) : s.vol.inodes (s.task p).cwd ≠ none :=
  h.alloc (p := p) (by simp [Task.held])

end

/-- **Whoever drops the last reference is the only holder.** -/
theorem only_holder (hn : n ∈ (s.task p).held) (hrc : s.vol.rc n = 1) :
    n ≠ rootIno ∧ (s.task p).held.count n = 1 ∧ n ∉ s.vol.lost ∧
      ∀ q, q ≠ p → n ∉ (s.task q).held := by
  have hpos := List.count_pos_iff.2 hn
  have hle := le_holds s p n
  have hcount := h.count n
  refine ⟨?_, ?_, ?_, fun q hq hmem => ?_⟩
  · rintro rfl
    rw [if_pos rfl] at hcount
    omega
  · omega
  · intro hlost
    have := List.count_pos_iff.2 hlost
    omega
  · have := List.count_pos_iff.2 hmem
    have := add_le_holds (s := s) (n := n) hq
    omega

/-- The references stay as they are. -/
theorem congr (hrc : f'.rc = s.vol.rc) (hlost : f'.lost = s.vol.lost)
    (hfree : ∀ n, f'.inodes n = none → s.vol.inodes n = none) (hheld : x'.held.Perm (s.task p).held) :
    Refs (s.after p f' x') := by
  refine ⟨fun m => ?_, fun m hm => ?_⟩
  · have hsum := holds_after s p f' x' m
    have hcount := h.count m
    rw [hheld.count_eq m] at hsum
    change f'.rc m = _ + _ + f'.lost.count m
    rw [hrc, hlost]
    omega
  · change f'.rc m = 0
    rw [hrc]
    exact h.free m (hfree m hm)

/-- One more reference, of the process or lost. -/
theorem gain (halloc : s.vol.inodes n ≠ none) (hrc : f'.rc = update s.vol.rc n (s.vol.rc n + 1))
    (hin : f'.inodes = s.vol.inodes) (hone : ∀ m, x'.held.count m + f'.lost.count m =
      (s.task p).held.count m + s.vol.lost.count m + if n == m then 1 else 0) :
    Refs (s.after p f' x') := by
  refine ⟨fun m => ?_, fun m hm => ?_⟩
  · have hsum := holds_after s p f' x' m
    have hcount := h.count m
    have hone := hone m
    change f'.rc m = _ + _ + f'.lost.count m
    rw [hrc]
    by_cases hmn : m = n
    · subst hmn
      rw [update_self]
      simp only [beq_self_eq_true, if_true] at hone
      omega
    · have hnm : (n == m) = false := by simpa using Ne.symm hmn
      rw [update_of_ne hmn]
      simp only [hnm, Bool.false_eq_true, if_false] at hone
      omega
  · have hm : s.vol.inodes m = none := hin ▸ hm
    have hmn : m ≠ n := fun heq => halloc (heq ▸ hm)
    change f'.rc m = 0
    rw [hrc, update_of_ne hmn]
    exact h.free m hm

theorem share (halloc : s.vol.inodes n ≠ none) (hheld : x'.held.Perm (n :: (s.task p).held)) :
    Refs (s.after p (s.vol.inodeShare n) x') := by
  refine h.gain halloc rfl rfl fun m => ?_
  rw [hheld.count_eq m, List.count_cons]
  exact Nat.add_right_comm _ _ _

/-- One reference less, with `inode_put`. -/
theorem put (hheld : (s.task p).held.Perm (n :: x'.held)) :
    Refs (s.after p (s.vol.inodePut n) x') := by
  have hmem : n ∈ (s.task p).held := hheld.mem_iff.2 (by simp)
  have hsum : ∀ m, (s.after p (s.vol.inodePut n) x').holds m + (if m = n then 1 else 0) =
      s.holds m := fun m => by
    have hsum := holds_after s p (s.vol.inodePut n) x' m
    rw [hheld.count_eq m, List.count_cons] at hsum
    by_cases hmn : m = n
    · subst hmn
      simp only [beq_self_eq_true, if_true] at hsum ⊢
      omega
    · have hnm : (n == m) = false := by simpa using Ne.symm hmn
      simp only [hnm, hmn, Bool.false_eq_true, if_false] at hsum ⊢
      omega
  refine ⟨fun m => ?_, fun m hm => ?_⟩
  · change (s.vol.inodePut n).rc m = _ + _ + (s.vol.inodePut n).lost.count m
    rw [Volume.inodePut_lost, Volume.inodePut_rc]
    have hsum := hsum m
    have hcount := h.count m
    have hpos := List.count_pos_iff.2 hmem
    have hle := le_holds s p n
    by_cases hmn : m = n
    · subst hmn
      rw [if_pos rfl] at hsum ⊢
      omega
    · rw [if_neg hmn] at hsum ⊢
      omega
  · change (s.vol.inodePut n).rc m = 0
    change (s.vol.inodePut n).inodes m = none at hm
    rw [Volume.inodePut_rc]
    unfold Volume.inodePut at hm
    split_ifs with hmn
    · subst hmn
      split_ifs at hm with hlast
      · rw [hlast.1]
      · exact absurd hm (h.alloc hmem)
    · refine h.free m ?_
      split_ifs at hm
      · have hm : update s.vol.inodes n none m = none := hm
        rwa [update_of_ne hmn] at hm
      · exact hm

/-- A reference is lost. -/
theorem lose (hheld : (s.task p).held.Perm (n :: x'.held)) :
    Refs (s.after p (s.vol.lose n) x') := by
  refine ⟨fun m => ?_, h.free⟩
  have hsum := holds_after s p (s.vol.lose n) x' m
  have hcount := h.count m
  rw [hheld.count_eq m, List.count_cons] at hsum
  change s.vol.rc m = _ + _ + (n :: s.vol.lost).count m
  rw [List.count_cons]
  omega

/-- A reference is taken and lost at once. -/
theorem leak (halloc : s.vol.inodes n ≠ none) :
    Refs (s.after p ((s.vol.inodeShare n).lose n) (s.task p)) := by
  refine h.gain halloc rfl rfl fun m => ?_
  change _ + (n :: s.vol.lost).count m = _
  rw [List.count_cons, Nat.add_assoc]

end

omit [Fintype P] [DecidableEq P] in
theorem setIno_eq_none {f : Volume P} {i : Ino} (hm : (f.setIno n (some i)).inodes m = none) :
    f.inodes m = none := by
  have hm : update f.inodes n (some i) m = none := hm
  by_cases hmn : m = n
  · rw [hmn, update_self] at hm
    cases hm
  · rwa [update_of_ne hmn] at hm

/-- **Every step keeps the counts right.** -/
theorem effect (h : Refs s) (he : Effect s.vol p (s.task p) f' x') : Refs (s.after p f' x') := by
  cases he with
  | quiet held => exact h.congr rfl rfl (fun _ hm => hm) held
  | take hst =>
    obtain ⟨c, hst⟩ := hst
    exact h.congr rfl rfl (fun _ hm => hm) (Task.held_goto (l := []) (by rw [hst]; rfl))
  | share halloc _ held => exact h.share halloc held
  | put held => exact h.put held
  | @putBusy dir n hst =>
    have hheld : (s.task p).held.Perm (n :: ((s.task p).goto (.drop dir)).held) :=
      Task.held_of_refs (l := [n]) (by rw [hst]; rfl)
    have hput := h.put hheld
    exact ⟨hput.count, hput.free⟩
  | lose _ _ hst =>
    obtain ⟨c, path, hst⟩ := hst
    exact h.lose (Task.held_of_refs (l := [_]) (by rw [hst]; rfl))
  | leak _ source =>
    refine h.leak ?_
    rcases source with rfl | rfl
    · exact h.root
    · exact h.cwd p
  | make hst =>
    refine h.congr rfl rfl (fun m hm => ?_) (Task.held_goto (l := []) (by rw [hst]; rfl))
    exact setIno_eq_none (setIno_eq_none hm)
  | init hst _ _ held => exact h.congr rfl rfl (fun m hm => setIno_eq_none hm) held
  | clear hst =>
    refine h.congr rfl rfl (fun m hm => setIno_eq_none hm) (List.perm_iff_count.2 fun m => ?_)
    simp only [Task.held, Task.goto, hst, Stage.refs, List.count_cons, List.count_append,
      List.count_nil]
    omega
  | dec hst =>
    exact h.congr rfl rfl (fun m hm => setIno_eq_none hm)
      (Task.held_goto (l := []) (by rw [hst]; rfl))

/-- **What a step is**, where the counts are right. -/
theorem exists_effect (h : Refs s) (hs : s.step a = some s') :
    ∃ f' x', s' = s.after (actor a) f' x' ∧
      Effect s.vol (actor a) (s.task (actor a)) f' x' := by
  obtain ⟨x', he, htask⟩ := effect_of_step h.root h.cwd hs
  obtain ⟨f, t⟩ := s'
  obtain rfl : t = update s.task (actor a) x' := htask
  exact ⟨f, x', rfl, he⟩

omit [DecidableEq P] in
/-- The counts are right when the system comes up. -/
theorem init (img : Image) : Refs (img.init : NameSys P) := by
  refine ⟨fun n => ?_, fun n hn => ?_⟩
  · have hheld : ∀ p : P, (((img.init : NameSys P).task p).held).count n =
        if n = rootIno then 1 else 0 := fun p => by
      change List.count n [rootIno] = _
      by_cases hn : n = rootIno
      · simp [hn]
      · simp [hn, Ne.symm hn]
    change (if n = rootIno then Fintype.card P + 1 else 0) = _ + ∑ p, _ + 0
    rw [Finset.sum_congr rfl fun p _ => hheld p, Finset.sum_const, Finset.card_univ]
    split_ifs
    · simp
      omega
    · simp
  · change (if n = rootIno then Fintype.card P + 1 else 0) = 0
    refine if_neg ?_
    rintro rfl
    cases hn

end Refs

end NameSys

end OsKernel.Fs
