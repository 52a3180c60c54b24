import OsKernel.Proc.Model.Calls
import OsKernel.Proc.Pids

/-!
# Containers

A process that is made by `fork` is in `root_container`, whoever forks. So
containers contain as long as only processes of `root_container` fork and
there are pids left (`containers_contain`): a process is then in the container of the process
that has forked it, its local pid is from the bitmap of this container, and
who exits leaves its children to the root process of this container.

The first `fork` of a process in another container breaks out of it
(`fork_leaves_container`).
-/

namespace OsKernel.Proc

open Function

variable {P C : Type} [DecidableEq P] [DecidableEq C]

/-! ## The tree -/

namespace Tree

variable {s s' : Tree P C} {root p q t : P} {rootC : C} {a : Act P C} {code : ℤ}

/-- Who exists goes on existing. -/
theorem Changes.life_ne_absent (h : s.Changes rootC a s') (hp : s.life p ≠ .absent) :
    s'.life p ≠ .absent := by
  have hupdate : ∀ {z : P} {l : Life}, l ≠ .absent → update s.life z l p ≠ .absent := by
    intro z l hl
    rw [update_apply]
    split_ifs
    · exact hl
    · exact hp
  cases a with
  | createProc t z | startActivate t z | exitSched t =>
    rw [h.2.1]
    exact hupdate nofun
  | createContainer t c z =>
    rw [h.2.2.1]
    exact hupdate nofun
  | waitTree t =>
    obtain ⟨z, -, -, hlife, -⟩ := h
    rw [hlife]
    exact hupdate nofun
  | setContainerToThis t z =>
    rw [h.2.2.1]
    exact hp
  | setParentToThis | startParent | exitTree | waitCheck | waitSem | waitResume =>
    rw [h.life]
    exact hp

/-- A root process stays one. -/
theorem Changes.rootproc_of (h : s.Changes rootC a s') {c : C} (hc : s.rootproc c = some p) :
    s'.rootproc c = some p := by
  cases a with
  | createProc t z =>
    rw [h.2.2.2]
    exact hc
  | createContainer t d z =>
    obtain ⟨-, hd, -, -, hrootproc⟩ := h
    rw [hrootproc, update_of_ne, hc]
    rintro rfl
    rw [hd] at hc
    cases hc
  | startActivate t z =>
    rw [h.2.2.2]
    exact hc
  | exitSched t =>
    rw [h.2.2.2]
    exact hc
  | waitTree t =>
    obtain ⟨z, -, -, -, -, hrootproc⟩ := h
    rw [hrootproc]
    exact hc
  | setContainerToThis t z =>
    rw [h.2.2.2.2]
    exact hc
  | setParentToThis | startParent | exitTree | waitCheck | waitSem | waitResume =>
    rw [h.rootproc]
    exact hc

/-- Who comes to exist is made by `create_proc`, or is the root process of a new
container. -/
theorem Changes.new (h : s.Changes rootC a s') (hp : s.life p = .absent)
    (hp' : s'.life p ≠ .absent) : (∃ t, a = .createProc t p) ∨
      ∃ t c, a = .createContainer t c p ∧ s'.rootproc c = some p := by
  have hself : ∀ {z : P} {l : Life}, s'.life = update s.life z l → p = z := by
    intro z l hlife
    by_contra hne
    rw [hlife, update_of_ne hne] at hp'
    exact hp' hp
  cases a with
  | createProc t z =>
    obtain rfl := hself h.2.1
    exact .inl ⟨t, rfl⟩
  | createContainer t c z =>
    obtain ⟨-, -, hlife, -, hrootproc⟩ := h
    obtain rfl := hself hlife
    exact .inr ⟨t, c, rfl, by rw [hrootproc, update_self]⟩
  | startActivate t z | exitSched t =>
    obtain ⟨hz, hlife, -⟩ := h
    obtain rfl := hself hlife
    rw [hz] at hp
    cases hp
  | waitTree t =>
    obtain ⟨z, -, hz, hlife, -⟩ := h
    obtain rfl := hself hlife
    rw [hz] at hp
    cases hp
  | setContainerToThis t z =>
    rw [h.2.2.1] at hp'
    exact absurd hp hp'
  | setParentToThis | startParent | exitTree | waitCheck | waitSem | waitResume =>
    rw [h.life] at hp'
    exact absurd hp hp'

omit [DecidableEq C] in
/-- A parent and its child exist. -/
theorem Inv.exists_of_parent (h : Inv root rootC s) (hq : s.parent q = some t) :
    s.life q ≠ .absent ∧ s.life t ≠ .absent := by
  refine ⟨fun habsent => ?_, ?_⟩
  · rw [h.links.gone q (.inl habsent)] at hq
    cases hq
  · rw [(h.links.parent_alive q t hq).1]
    exact nofun

/-- **Who exits leaves its children to the root process of its container.** -/
theorem Inv.handed_over (h : Inv root rootC s)
    (hs : s.step root rootC (.exitTree t code) = some s') :
    ∃ r, s.rootproc (s.container t) = some r ∧ s.container r = s.container t ∧
      ∀ q ∈ s.children t, s'.parent q = some r := by
  obtain ⟨hok, hs⟩ := of_guarded hs
  obtain ⟨r, hr, hs⟩ := Option.bind_eq_some_iff.1 hs
  split_ifs at hs with hrt
  obtain ⟨q, sem, sem', -, heq, -, -⟩ := h.exitTree code hok.1 hok.2 hr hrt
  rw [heq] at hs
  obtain rfl := Option.some.inj hs
  exact ⟨r, hr, (h.homes.inside _ r hr).1, fun q hq => if_pos hq⟩

end Tree

/-! ## The system calls -/

namespace Call

variable {c : Call P C} {m m' : Making P} {a : PidAct P C} {t p : P}

omit [DecidableEq P] [DecidableEq C]

/-- Only `fork` creates a process that is not a root process. -/
theorem act_createProc (h : c.act m = some (.tree (.createProc t p), m')) : c = .fork t p := by
  cases c <;> cases m <;> simp only [act, Option.some.injEq, Prod.mk.injEq, reduceCtorEq,
    PidAct.tree.injEq, Act.createProc.injEq, false_and] at h
  rw [h.1.1, h.1.2]

theorem act_fork (h : (Call.fork t p).act m = some (a, m')) :
    a = (.tree (.createProc t p) : PidAct P C) := by
  cases m <;> simp only [act, Option.some.injEq, Prod.mk.injEq, reduceCtorEq] at h
  exact h.1.symm

/-- Who is back from `create_proc` has called `fork`. -/
theorem act_created (h : c.act m = some (a, .created p)) : c = .fork c.actor p := by
  cases c <;> cases m <;> simp only [act, Option.some.injEq, Prod.mk.injEq, reduceCtorEq,
    and_false, Making.created.injEq] at h
  rw [actor, h.2]

/-- `fork` is the parent of what it has created. -/
theorem act_setParentToThis (h : c.act m = some (.tree (.setParentToThis t p), m')) :
    c.actor = t ∧ m = .created p := by
  cases c <;> cases m <;> simp only [act, Option.some.injEq, Prod.mk.injEq, reduceCtorEq,
    PidAct.tree.injEq, Act.setParentToThis.injEq, false_and] at h
  exact ⟨h.1.1, congrArg _ h.1.2⟩

/-- No call uses `set_container_to_this`, or `start_proc` without a parent. -/
theorem act_ne {b : Act P C} (h : c.act m = some (.tree b, m')) :
    (∀ t p, b ≠ .setContainerToThis t p) ∧ ∀ t p, b ≠ .startParent t p := by
  cases c <;> cases m <;> simp only [act, Option.some.injEq, Prod.mk.injEq, reduceCtorEq,
    PidAct.tree.injEq, false_and] at h
  all_goals
    rw [← h.1]
    exact ⟨nofun, nofun⟩

theorem act_loadPid (h : c.act m = some (.loadPid t p, m')) :
    c = .loadPid c.actor ∧ m = .linked p := by
  cases c <;> cases m <;> simp only [act, Option.some.injEq, Prod.mk.injEq, reduceCtorEq,
    PidAct.loadPid.injEq, false_and] at h
  exact ⟨rfl, congrArg _ h.1.2⟩

end Call

namespace Calls

variable {s s' : Calls P C} {root p t : P} {rootC : C} {c : Call P C}
variable {tr : List (Calls P C × Call P C)}

/-- What a step consists of. -/
theorem step_eq (hs : s.step root rootC c = some s') : ∃ a m,
    c.act (s.making c.actor) = some (a, m) ∧ s.pids.stepAny root rootC a = some s'.pids ∧
      s'.making = update s.making c.actor m ∧ s'.forkedBy = record s.forkedBy c := by
  obtain ⟨⟨a, m⟩, hact, hs⟩ := Option.bind_eq_some_iff.1 hs
  obtain ⟨pids, hpids, rfl⟩ := Option.map_eq_some_iff.1 hs
  exact ⟨a, m, hact, hpids, rfl, rfl⟩

/-- Only processes of `root_container` fork. -/
def ForksAtRoot (rootC : C) (s : Calls P C) : Call P C → Prop
  | .fork t _ => s.pids.tree.container t = rootC
  | _ => True

instance (rootC : C) (s : Calls P C) (c : Call P C) : Decidable (ForksAtRoot rootC s c) :=
  match c with
  | .fork t _ => inferInstanceAs (Decidable (s.pids.tree.container t = rootC))
  | .setParentToThis _ | .createContainer _ _ _ | .loadPid _ | .startPid _ | .startActivate _
  | .exitTree _ _ | .exitSched _ | .waitCheck _ | .waitSem _ | .waitResume _ | .waitTree _
  | .freeLocal _ => isTrue trivial

/-- A creation and a start find a pid. -/
def FindsPid (s : Calls P C) (c : Call P C) : Prop :=
  ∀ r, c.act (s.making c.actor) = some r → s.pids.PidLeft r.1

/-- The pid `i` was allocated for `p` from the bitmap of container `d`. -/
def AllocatedIn (tr : List (Calls P C × Call P C)) (d : C) (p : P) (i : ℤ) : Prop :=
  0 ≤ i ∧ ∃ x ∈ tr, ∃ t, x.2 = .loadPid t ∧ x.1.making t = .linked p ∧
    i = (x.1.pids.pidmap d).allocPid.1

omit [DecidableEq P] [DecidableEq C] in
theorem AllocatedIn.append {d : C} {i : ℤ} (h : AllocatedIn tr d p i)
    (tr' : List (Calls P C × Call P C)) : AllocatedIn (tr ++ tr') d p i := by
  obtain ⟨hnn, x, hx, h⟩ := h
  exact ⟨hnn, x, List.mem_append_left _ hx, h⟩

/-- The local pid of `p` is from the bitmap of container `d`. -/
def NumberedIn (tr : List (Calls P C × Call P C)) (s : Calls P C) (d : C) (p : P) : Prop :=
  AllocatedIn tr d p (s.pids.localpid p)

/-- **Containers contain.** -/
structure Contained (root : P) (rootC : C) (tr : List (Calls P C × Call P C)) (s : Calls P C) :
    Prop where
  tree : s.pids.tree.Inv root rootC
  fresh : ∀ p, s.pids.tree.life p = .absent → s.pids.started p = false
  known : ∀ p t, s.forkedBy p = some t →
    s.pids.tree.life p ≠ .absent ∧ s.pids.tree.life t ≠ .absent
  made : ∀ t p, s.making t = .created p → s.forkedBy p = some t
  same : ∀ p t, s.forkedBy p = some t → s.pids.tree.container p = s.pids.tree.container t
  child : ∀ q t, s.pids.tree.parent q = some t → s.forkedBy q ≠ none →
    s.pids.tree.container q = s.pids.tree.container t
  cover : ∀ p, s.pids.tree.life p ≠ .absent →
    (∃ t, s.forkedBy p = some t) ∨ ∃ d, s.pids.tree.rootproc d = some p
  numbered : ∀ p t, s.forkedBy p = some t → s.pids.started p = true →
    NumberedIn tr s (s.pids.tree.container p) p

section

omit [DecidableEq C]

/-- Who is recorded was recorded before, or is forked now. -/
theorem record_cases {forkedBy : P → Option P} (h : record forkedBy c p = some t) :
    c = .fork t p ∨ forkedBy p = some t := by
  cases c with
  | fork t' p' =>
    simp only [record, update_apply] at h
    split_ifs at h with hp
    · obtain rfl := Option.some.inj h
      exact .inl (by rw [hp])
    · exact .inr h
  | _ => exact .inr h

/-- A record stays, if nobody is forked who exists. -/
theorem Contained.record_of (h : Contained root rootC tr s) (hp : s.forkedBy p = some t)
    (hfork : ∀ t' p', c = .fork t' p' → s.pids.tree.life p' = .absent) :
    record s.forkedBy c p = some t := by
  cases c with
  | fork t' p' =>
    rw [record, update_of_ne]
    · exact hp
    · rintro rfl
      exact (h.known p t hp).1 (hfork t' p rfl)
  | _ => exact hp

end

/-- Nobody is forked who exists. -/
theorem absent_of_fork {b : Act P C} {m : Making P} {tree : Tree P C}
    (hact : c.act (s.making c.actor) = some (.tree b, m)) (hch : s.pids.tree.Changes rootC b tree)
    (t' p' : P) (hc : c = .fork t' p') : s.pids.tree.life p' = .absent := by
  subst hc
  obtain rfl : b = .createProc t' p' := by simpa using Call.act_fork hact
  exact hch.1

omit [DecidableEq C] in
/-- Who is back from `create_proc` is recorded. -/
theorem Contained.made_step {a : PidAct P C} {m : Making P} (h : Contained root rootC tr s)
    (hact : c.act (s.making c.actor) = some (a, m))
    (hfork : ∀ t' p', c = .fork t' p' → s.pids.tree.life p' = .absent)
    (hmade : update s.making c.actor m t = .created p) :
    record s.forkedBy c p = some t := by
  rw [update_apply] at hmade
  split_ifs at hmade with ht
  · subst hmade
    rw [Call.act_created hact, record, update_self, ht]
  · exact h.record_of (h.made t p hmade) hfork

/-- Who forks exists. -/
theorem life_of_createProc {tree tree' : Tree P C}
    (h : tree.step root rootC (.createProc t p) = some tree') : tree.life t ≠ .absent := by
  obtain ⟨hok, h⟩ := of_guarded h
  rw [(Tree.running_iff.1 hok.1).1]
  exact nofun

section TreeStep

/-! The call `c` takes the step `b` of the tree. -/

variable {b : Act P C} {m : Making P} {q : P} (h : Contained root rootC tr s)
  (hact : c.act (s.making c.actor) = some (.tree b, m))
  (htree : s.pids.tree.step root rootC b = some s'.pids.tree)
  (hforked : s'.forkedBy = record s.forkedBy c)
include h hact htree

/-- Who exists stays in its container. -/
theorem Contained.container_kept (hq : s.pids.tree.life q ≠ .absent) :
    s'.pids.tree.container q = s.pids.tree.container q :=
  (h.tree.changes htree).container_eq (fun t => (Call.act_ne hact).1 t q) hq

include hforked

/-- Who is forked now does not exist before. -/
theorem Contained.forkedBy_old (hq : s'.forkedBy q = some t)
    (hlife : s.pids.tree.life q ≠ .absent) : s.forkedBy q = some t := by
  rw [hforked] at hq
  rcases record_cases hq with hc | hq
  · exact absurd (absent_of_fork hact (h.tree.changes htree) t q hc) hlife
  · exact hq

/-- A forked process is in the container of its new parent. -/
theorem Contained.child_step (hq : s'.pids.tree.parent q = some t) (hne : s'.forkedBy q ≠ none) :
    s'.pids.tree.container q = s'.pids.tree.container t := by
  have hkeep : ∀ {q}, s.pids.tree.life q ≠ .absent →
      s'.pids.tree.container q = s.pids.tree.container q := h.container_kept hact htree
  obtain ⟨t', hq'⟩ := Option.ne_none_iff_exists'.1 hne
  rcases (h.tree.step htree).2.parent q t hq with hq | hq | ⟨y, hy, hmem, hr⟩
  · -- the parent is the same
    obtain ⟨hlife, ht⟩ := h.tree.exists_of_parent hq
    rw [hkeep hlife, hkeep ht]
    exact h.child q t hq (by rw [h.forkedBy_old hact htree hforked hq' hlife]; exact nofun)
  · cases b with
    | setParentToThis t₁ q₁ =>
      obtain ⟨rfl, rfl⟩ := pair_inj hq
      obtain ⟨hactor, hmade⟩ := Call.act_setParentToThis hact
      have hby := h.made _ _ hmade
      rw [hactor] at hby
      obtain ⟨h₁, h₂⟩ := h.known _ _ hby
      rw [hkeep h₁, hkeep h₂]
      exact h.same _ _ hby
    | createContainer t₁ d q₁ =>
      obtain ⟨rfl, rfl⟩ := pair_inj hq
      -- a root process is not forked
      rw [hforked] at hq'
      rcases record_cases hq' with rfl | hq'
      · have := Call.act_fork hact
        simp at this
      · exact absurd (h.tree.changes htree).1 (h.known _ _ hq').1
    | startParent t₁ q₁ => exact absurd rfl ((Call.act_ne hact).2 t₁ q₁)
    | _ => cases hq
  · -- the root process of the container of `y`, which exits, takes over its child
    have hparent := ((h.tree.links.mem_iff y q).1 hmem).1
    have hlife := (h.tree.exists_of_parent hparent).1
    obtain ⟨hin, halive, -⟩ := h.tree.homes.inside _ t hr
    have ht : s.pids.tree.life t ≠ .absent := by
      rcases halive with halive | halive <;> rw [halive] <;> exact nofun
    rw [hkeep hlife, hkeep ht, hin]
    exact h.child q y hparent (by rw [h.forkedBy_old hact htree hforked hq' hlife]; exact nofun)

/-- Who exists has been forked, or is the root process of a container. -/
theorem Contained.cover_step (hp : s'.pids.tree.life p ≠ .absent) :
    (∃ t, s'.forkedBy p = some t) ∨ ∃ d, s'.pids.tree.rootproc d = some p := by
  have hch := h.tree.changes htree
  by_cases hlife : s.pids.tree.life p = .absent
  · rcases hch.new hlife hp with ⟨t, rfl⟩ | ⟨t, d, rfl, hd⟩
    · refine .inl ⟨t, ?_⟩
      rw [hforked, Call.act_createProc hact, record, update_self]
    · exact .inr ⟨d, hd⟩
  · rcases h.cover p hlife with ⟨t, ht⟩ | ⟨d, hd⟩
    · exact .inl ⟨t, by rw [hforked]; exact h.record_of ht (absent_of_fork hact hch)⟩
    · exact .inr ⟨d, hch.rootproc_of hd⟩

/-- **A step of the tree.** -/
theorem Contained.tree_step (hroot : ForksAtRoot rootC s c)
    (hkept : Pids.Kept s.pids b s'.pids) (hmaking : s'.making = update s.making c.actor m) :
    Contained root rootC (tr ++ [(s, c)]) s' := by
  have hch := h.tree.changes htree
  have hkeep : ∀ {q}, s.pids.tree.life q ≠ .absent →
      s'.pids.tree.container q = s.pids.tree.container q := h.container_kept hact htree
  refine ⟨(h.tree.step htree).1, fun p hp => ?_, fun p t hp => ?_, fun t p hp => ?_,
    fun p t hp => ?_, fun _ _ => h.child_step hact htree hforked,
    fun _ => h.cover_step hact htree hforked, fun p t hp hst => ?_⟩
  · have hbefore : s.pids.tree.life p = .absent := by
      by_contra hne
      exact hch.life_ne_absent hne hp
    refine Bool.eq_false_iff.2 fun hst => ?_
    have hst' := hkept.started p hst
    rw [h.fresh p hbefore] at hst'
    cases hst'
  · rw [hforked] at hp
    rcases record_cases hp with rfl | hp
    · obtain rfl : b = .createProc t p := by simpa using Call.act_fork hact
      refine ⟨?_, hch.life_ne_absent (life_of_createProc htree)⟩
      rw [hch.2.1, update_self]
      exact nofun
    · obtain ⟨h₁, h₂⟩ := h.known p t hp
      exact ⟨hch.life_ne_absent h₁, hch.life_ne_absent h₂⟩
  · rw [hmaking] at hp
    rw [hforked]
    exact h.made_step hact (absent_of_fork hact hch) hp
  · rw [hforked] at hp
    rcases record_cases hp with rfl | hp
    · -- `init_proc` has put it in `root_container`
      obtain rfl : b = .createProc t p := by simpa using Call.act_fork hact
      rw [hkeep (life_of_createProc htree), hch.2.2.1, update_self]
      exact hroot.symm
    · obtain ⟨h₁, h₂⟩ := h.known p t hp
      rw [hkeep h₁, hkeep h₂]
      exact h.same p t hp
  · have hst' := hkept.started p hst
    have hlife : s.pids.tree.life p ≠ .absent := fun habsent => by
      rw [h.fresh p habsent] at hst'
      cases hst'
    have hnum := h.numbered p t (h.forkedBy_old hact htree hforked hp hlife) hst'
    rw [hkeep hlife, NumberedIn, hkept.localpid]
    exact hnum.append _

end TreeStep

omit [DecidableEq C] in
/-- **A step that leaves the tree as it is.** -/
theorem Contained.same_tree {a : PidAct P C} {m : Making P} (h : Contained root rootC tr s)
    (hact : c.act (s.making c.actor) = some (a, m)) (ha : ∀ b, a ≠ .tree b)
    (htree : s'.pids.tree = s.pids.tree)
    (hfresh : ∀ p, s.pids.tree.life p = .absent → s'.pids.started p = false)
    (hnumbered : ∀ p, s.pids.tree.life p ≠ .absent → s'.pids.started p = true →
      (s.pids.started p = true ∧ s'.pids.localpid p = s.pids.localpid p) ∨
        NumberedIn (tr ++ [(s, c)]) s' (s.pids.tree.container p) p)
    (hmaking : s'.making = update s.making c.actor m)
    (hforked : s'.forkedBy = record s.forkedBy c) :
    Contained root rootC (tr ++ [(s, c)]) s' := by
  have hfork : ∀ t' p', c ≠ .fork t' p' := by
    rintro t' p' rfl
    exact ha _ (Call.act_fork hact)
  have hby : s'.forkedBy = s.forkedBy := by
    rw [hforked]
    cases c with
    | fork t' p' => exact absurd rfl (hfork t' p')
    | _ => rfl
  refine ⟨by rw [htree]; exact h.tree, by rw [htree]; exact hfresh,
    by rw [hby, htree]; exact h.known, fun t p hp => ?_, by rw [hby, htree]; exact h.same,
    by rw [hby, htree]; exact h.child, by rw [hby, htree]; exact h.cover, fun p t hp hst => ?_⟩
  · rw [hmaking] at hp
    rw [hforked]
    exact h.made_step hact (fun t' p' hc => absurd hc (hfork t' p')) hp
  · rw [hby] at hp
    rw [htree]
    rcases hnumbered p (h.known p t hp).1 hst with ⟨hst', hlocal⟩ | hnum
    · rw [NumberedIn, hlocal]
      exact (h.numbered p t hp hst').append _
    · exact hnum

/-- **The allocations under way** are from the bitmaps of the containers of their
processes. -/
structure Allocated (tr : List (Calls P C × Call P C)) (s : Calls P C) : Prop where
  maps : s.pids.MapsOk
  loading : ∀ d, ∀ l ∈ s.pids.loading d, s.pids.tree.life l.proc ≠ .absent ∧
    s.pids.tree.container l.proc = d ∧ AllocatedIn tr d l.proc l.pid

/-- Every step keeps the allocations in order. -/
theorem Allocated.step (ha : Allocated tr s) (h : Contained root rootC tr s)
    (hleft : FindsPid s c) (hs : s.step root rootC c = some s') :
    Allocated (tr ++ [(s, c)]) s' := by
  obtain ⟨a, m, hact, hpids, -, -⟩ := step_eq hs
  refine ⟨ha.maps.step hpids, fun d l hl => ?_⟩
  have hold : l ∈ s.pids.loading d → s.pids.tree.life l.proc ≠ .absent ∧
      s.pids.tree.container l.proc = d ∧ AllocatedIn (tr ++ [(s, c)]) d l.proc l.pid := by
    intro hl
    obtain ⟨hlife, hcont, halloc⟩ := ha.loading d l hl
    exact ⟨hlife, hcont, halloc.append _⟩
  rcases Pids.stepAny_cases hpids with ⟨b, rfl, htree, hkept⟩ | ⟨t, p, rfl, hp, heq⟩ |
    ⟨t, p, l', rfl, -, -, heq⟩ | ⟨t, f, rfl, heq⟩
  · rcases hkept.maps d with ⟨-, heq⟩ | ⟨-, hnone⟩
    · obtain ⟨hlife, hcont, halloc⟩ := hold (heq ▸ hl)
      exact ⟨(h.tree.changes htree).life_ne_absent hlife,
        (h.container_kept hact htree hlife).trans hcont, halloc⟩
    · rw [hnone] at hl
      cases hl
  · rw [heq] at hl ⊢
    simp only [Pids.loadPid, update_apply] at hl
    split_ifs at hl with hd
    · obtain rfl := Option.some.inj hl
      obtain ⟨hc, hlinked⟩ := Call.act_loadPid hact
      refine ⟨by simp [Pids.loadPid, hp], hd.symm, ?_, (s, c), by simp, c.actor, hc, hlinked,
        by rw [hd]⟩
      -- a pid is left
      rcases PidMap.allocPid_cases (ha.maps.maps (s.pids.tree.container p)) with
        ⟨hfull, -⟩ | ⟨i, -, -, halloc⟩
      · exact absurd hfull (hleft _ hact)
      · rw [halloc]
        exact Int.natCast_nonneg i
    · exact hold hl
  · rw [heq] at hl ⊢
    simp only [Pids.startPid, update_apply] at hl
    split_ifs at hl
    · cases hl
    · exact hold hl
  · rw [heq] at hl ⊢
    exact hold hl

/-- **Every step keeps containers apart**, if only processes of
`root_container` fork. -/
theorem Contained.step (h : Contained root rootC tr s) (ha : Allocated tr s)
    (hroot : ForksAtRoot rootC s c) (hs : s.step root rootC c = some s') :
    Contained root rootC (tr ++ [(s, c)]) s' := by
  obtain ⟨a, m, hact, hpids, hmaking, hforked⟩ := step_eq hs
  rcases Pids.stepAny_cases hpids with ⟨b, rfl, htree, hkept⟩ | ⟨t, p, rfl, -, heq⟩ |
    ⟨t, p, l, rfl, hl, -, heq⟩ | ⟨t, f, rfl, heq⟩
  · exact h.tree_step hact htree hforked hroot hkept hmaking
  · refine h.same_tree hact (by simp) (by rw [heq]; rfl) (by rw [heq]; exact h.fresh)
      (fun q _ hst => ?_) hmaking hforked
    rw [heq] at hst ⊢
    exact .inl ⟨hst, rfl⟩
  · obtain ⟨hlife, hcont, halloc⟩ := ha.loading _ l hl
    refine h.same_tree hact (by simp) (by rw [heq]; rfl) (fun q hq => ?_) (fun q hq hst => ?_)
      hmaking hforked
    · rw [heq]
      change update s.pids.started l.proc true q = false
      rw [update_of_ne]
      · exact h.fresh q hq
      · rintro rfl
        exact hlife hq
    · rw [heq] at hst
      change update s.pids.started l.proc true q = true at hst
      by_cases hql : q = l.proc
      · subst hql
        refine .inr ?_
        rw [NumberedIn, heq, hcont]
        simp only [Pids.startPid, update_self]
        exact halloc.append _
      · rw [update_of_ne hql] at hst
        refine .inl ⟨hst, ?_⟩
        rw [heq]
        exact update_of_ne hql _ _
  · refine h.same_tree hact (by simp) (by rw [heq]; rfl) (by rw [heq]; exact h.fresh)
      (fun q _ hst => ?_) hmaking hforked
    rw [heq] at hst ⊢
    exact .inl ⟨hst, rfl⟩

theorem contained_init (root : P) (rootC : C) :
    Contained root rootC [] (init root rootC : Calls P C) where
  tree := Tree.inv_init root rootC
  fresh := fun p hp => by
    rcases Tree.init_life root rootC p with ⟨-, hlife⟩ | ⟨hne, -⟩
    · rw [show (init root rootC : Calls P C).pids.tree.life p = .alive from hlife] at hp
      cases hp
    · exact decide_eq_false hne
  known := nofun
  made := nofun
  same := nofun
  child := fun _ _ _ hne => absurd rfl hne
  cover := fun p hp => by
    rcases Tree.init_life root rootC p with ⟨rfl, -⟩ | ⟨-, hlife⟩
    · exact .inr ⟨rootC, if_pos rfl⟩
    · exact absurd hlife hp
  numbered := nofun

/-- **Containers contain.** In every run of `fork`, `create_container`, `exit`
and `wait` in which only processes of `root_container` fork and every creation
and every start finds a pid: a process that is not the root process of a container has been made by a `fork`, and is in the
container of the process that called it; its local pid is from the bitmap of
this container; and a process that exits leaves its children to the root
process of its container, where they are themselves, or are root processes of
containers of their own. -/
theorem containers_contain (hrun : Run (step root rootC) (init root rootC) tr s)
    (hroot : ∀ x ∈ tr, ForksAtRoot rootC x.1 x.2) (hleft : ∀ x ∈ tr, FindsPid x.1 x.2) :
    (∀ p, s.pids.Live p → (∀ d, s.pids.tree.rootproc d ≠ some p) →
      ∃ t, s.forkedBy p = some t ∧ s.pids.tree.container p = s.pids.tree.container t ∧
        (s.pids.started p = true → NumberedIn tr s (s.pids.tree.container t) p)) ∧
    ∀ t code s', s.step root rootC (.exitTree t code) = some s' →
      ∃ r, s.pids.tree.rootproc (s.pids.tree.container t) = some r ∧
        s.pids.tree.container r = s.pids.tree.container t ∧
        ∀ q ∈ s.pids.tree.children t, s'.pids.tree.parent q = some r ∧
          ((∀ d, s.pids.tree.rootproc d ≠ some q) →
            s.pids.tree.container q = s.pids.tree.container t) := by
  obtain ⟨h, -⟩ : Contained root rootC tr s ∧ Allocated tr s :=
    hrun.traceInvariantOf (K := fun s c => ForksAtRoot rootC s c ∧ FindsPid s c)
      (I := fun tr s => Contained root rootC tr s ∧ Allocated tr s)
      (fun x hx => ⟨hroot x hx, hleft x hx⟩)
      ⟨contained_init root rootC, Pids.MapsOk.init root rootC, by rintro _ _ ⟨⟩⟩
      fun _ _ _ _ h hk hs => ⟨h.1.step h.2 hk.1 hs, h.2.step h.1 hk.2 hs⟩
  -- who is not a root process has been forked
  have hforked : ∀ p, s.pids.tree.life p ≠ .absent → (∀ d, s.pids.tree.rootproc d ≠ some p) →
      ∃ t, s.forkedBy p = some t := by
    intro p hp hnot
    rcases h.cover p hp with hby | ⟨d, hd⟩
    · exact hby
    · exact absurd hd (hnot d)
  refine ⟨fun p hp hnot => ?_, fun t code s' hs => ?_⟩
  · obtain ⟨t, ht⟩ := hforked p hp.1 hnot
    refine ⟨t, ht, h.same p t ht, fun hst => ?_⟩
    rw [← h.same p t ht]
    exact h.numbered p t ht hst
  · obtain ⟨a, m, hact, hpids, -, -⟩ := step_eq hs
    obtain rfl : a = .tree (.exitTree t code) := by
      cases hm : s.making (Call.exitTree t code : Call P C).actor <;>
        simp [Call.act, hm] at hact
      exact hact.1.symm
    rcases Pids.stepAny_cases hpids with ⟨b, hb, htree, -⟩ | ⟨_, _, hb, -⟩ | ⟨_, _, _, hb, -⟩ |
      ⟨_, _, hb, -⟩
    · obtain rfl := PidAct.tree.inj hb
      obtain ⟨r, hr, hin, hhanded⟩ := h.tree.handed_over htree
      refine ⟨r, hr, hin, fun q hq => ⟨hhanded q hq, fun hnot => ?_⟩⟩
      have hparent := ((h.tree.links.mem_iff t q).1 hq).1
      obtain ⟨t', ht'⟩ := hforked q (h.tree.exists_of_parent hparent).1 hnot
      exact h.child q t hparent (by rw [ht']; exact nofun)
    · cases hb
    · cases hb
    · cases hb

/-! ## A container, and forks -/

/-- `fork` by `t`, up to its return. -/
def forkCall (t p : ℕ) : List (Call ℕ Bool) :=
  [.fork t p, .setParentToThis t, .loadPid t, .startPid t, .startActivate t]

/-- `create_container` by `t`, up to its return. -/
def containerCall (t : ℕ) (c : Bool) (p : ℕ) : List (Call ℕ Bool) :=
  [.createContainer t c p, .loadPid t, .startPid t, .startActivate t]

/-- The root process makes a container and forks, and its child forks. -/
theorem containers_contain_twoForks : ∃ tr s,
    Run (step 0 false) (init 0 false : Calls ℕ Bool) tr s ∧
    s.pids.Live 3 ∧ s.forkedBy 3 = some 2 ∧
    s.pids.tree.container 3 = s.pids.tree.container 2 ∧ NumberedIn tr s false 3 := by
  have hend : (exec (step 0 false) (init 0 false : Calls ℕ Bool)
      (containerCall 0 true 1 ++ forkCall 0 2 ++ forkCall 2 3)).any (fun s =>
        decide (s.pids.Live 3 ∧ s.forkedBy 3 = some 2 ∧ s.pids.started 3 = true ∧
          s.pids.tree.container 2 = false ∧
          ∀ d, s.pids.tree.rootproc d ≠ some 3)) = true := by decide +kernel
  have htr : (execTrace (step 0 false) (init 0 false : Calls ℕ Bool)
      (containerCall 0 true 1 ++ forkCall 0 2 ++ forkCall 2 3)).all (fun x =>
        decide (ForksAtRoot false x.1 x.2 ∧ x.1.pids.globalpidmap.bitmap.get 255 = false ∧
          ∀ c, (x.1.pids.pidmap c).bitmap.get 255 = false)) = true := by decide +kernel
  have hall := fun x hx => of_decide_eq_true (List.all_eq_true.1 htr x hx)
  obtain ⟨s, hs, hend⟩ := (Option.any_eq_true _ _).1 hend
  obtain ⟨hlive, hby, hst, hcont, hnot⟩ := of_decide_eq_true hend
  obtain ⟨t, ht, hsame, hnum⟩ := (containers_contain (Run.of_exec hs) (fun x hx => (hall x hx).1)
    fun x hx _ _ => Pids.pidLeft_of_clear (hall x hx).2.1 (hall x hx).2.2).1 3 hlive hnot
  obtain rfl := Option.mem_unique hby ht
  have hnumbered := hnum hst
  rw [hcont] at hnumbered
  exact ⟨_, s, Run.of_exec hs, hlive, hby, hsame, hnumbered⟩

/-- **A `fork` leaves the container.** The root process of a container forks,
and its child is in `root_container`, with a local pid from there. -/
theorem fork_leaves_container : ∃ tr s,
    Run (step 0 false) (init 0 false : Calls ℕ Bool) tr s ∧ s.pids.Live 2 ∧
    (∀ d, s.pids.tree.rootproc d ≠ some 2) ∧ s.forkedBy 2 = some 1 ∧
    s.pids.tree.container 1 = true ∧ s.pids.tree.container 2 = false ∧
    s.pids.tree.rootproc true = some 1 := by
  have hend : (exec (step 0 false) (init 0 false : Calls ℕ Bool)
      (containerCall 0 true 1 ++ forkCall 1 2)).any (fun s =>
        decide (s.pids.Live 2 ∧ (∀ d, s.pids.tree.rootproc d ≠ some 2) ∧
          s.forkedBy 2 = some 1 ∧ s.pids.tree.container 1 = true ∧
          s.pids.tree.container 2 = false ∧ s.pids.tree.rootproc true = some 1)) = true := by
    decide +kernel
  obtain ⟨s, hs, hend⟩ := (Option.any_eq_true _ _).1 hend
  exact ⟨_, s, Run.of_exec hs, of_decide_eq_true hend⟩

end Calls

end OsKernel.Proc
