import OsKernel.Proc.Helpers.Links
import OsKernel.Proc.Helpers.Counts

/-!
# Reaping

Along every run of creations, exits and waits the process tree is in order
(`Inv`), so that a `wait` that has its unit finds a zombie at the end of
its list. What the run has posted, consumed and reaped is read off its
trace (`History`).
-/

namespace OsKernel.Proc

open Function

namespace Tree

variable {P C : Type} [DecidableEq P]
variable {s s' : Tree P C} {root p q r t w z : P} {rootC : C} {a : Act P C}

/-- A process that is a zombie, or holds `schelock` on its way there. -/
def exited (s : Tree P C) (p : P) : Bool := exitedOf s.life s.sched p

/-- The units of `childexit` of `q` that no `wait` that has returned has
consumed. -/
def units (s : Tree P C) (q : P) : ℕ := tokens (s.childexit q) (s.place q) q

/-- **The invariant of the tree.** -/
structure Inv (root : P) (rootC : C) (s : Tree P C) : Prop where
  links : Links root s.sched s.life s.parent s.children
  homes : Homes root rootC s.sched s.life s.parent s.container s.rootproc
  counts : Counts s.sched s.life s.children s.childexit s.place s.sched

theorem running_iff : s.running t = true ↔ s.life t = .alive ∧ s.place t = .body ∧
    s.sched ≠ some t := decide_eq_true_iff

/-- Only a living process is a parent. -/
theorem Inv.no_child (h : Inv root rootC s) (hp : s.life p ≠ .alive) (c : P) :
    s.parent c ≠ some p :=
  fun hc => hp (h.links.parent_alive c p hc).1

/-! ## The section of `exit` -/

/-- What `exit` leaves: the children are handed over to `r`, and the
process is at the end of the list of its parent `q`. -/
def left (s : Tree P C) (t r q : P) (code : ℤ) (sem sem' : Semaphore P) : Tree P C :=
  let s := { s with exitcode := update s.exitcode t code }.handed r (s.children t) sem
  let s := { s with children := update s.children t [] }
  { s with
    children := update s.children q ((s.children q).erase t ++ [t])
    sched := some t
    childexit := update s.childexit q sem' }

omit [DecidableEq P] in
theorem perm_handed (l l' : List P) (life : P → Life) :
    ((l.filter fun c => life c ≠ .zombie).reverse ++ l' ++ l.filter fun c => life c = .zombie).Perm
      (l ++ l') := by
  have hfilter : ((l.filter fun c => life c = .zombie) ++ l.filter fun c => life c ≠ .zombie).Perm l := by
    have h := List.filter_append_perm (fun c => decide (life c = .zombie)) l
    simpa only [decide_not] using h
  calc ((l.filter fun c => life c ≠ .zombie).reverse ++ l' ++ l.filter fun c => life c = .zombie)
      |>.Perm ((l.filter fun c => life c = .zombie) ++
        ((l.filter fun c => life c ≠ .zombie).reverse ++ l')) := List.perm_append_comm
    List.Perm _ ((l.filter fun c => life c = .zombie) ++
        ((l.filter fun c => life c ≠ .zombie) ++ l')) :=
      ((List.reverse_perm _).append_right l').append_left _
    List.Perm _ (l ++ l') := by
      rw [← List.append_assoc]
      exact hfilter.append_right l'

/-- **`exit` keeps the tree in order**, and adds a unit for the process
itself and one for each zombie among its children. -/
theorem Inv.exitTree (h : Inv root rootC s) (code : ℤ) (ht : s.running t = true)
    (hsched : s.sched = none) (hr : s.rootproc (s.container t) = some r) (hrt : r ≠ t) :
    ∃ q sem sem', s.parent t = some q ∧
      s.exitTree t r code = some (s.left t r q code sem sem') ∧
      Inv root rootC (s.left t r q code sem sem') ∧
      ∀ x, (s.left t r q code sem sem').units x = s.units x + (if q = x then 1 else 0) +
        if r = x then ((s.children t).filter fun c => s.life c = .zombie).length else 0 := by
  obtain ⟨halive, hbody, -⟩ := running_iff.1 ht
  obtain ⟨hlinks, hhomes, hcounts⟩ := h
  rw [hsched] at hlinks hhomes hcounts
  have hroot : t ≠ root := by
    rintro rfl
    rw [(hhomes.inside rootC t hhomes.root_home.1).1, hhomes.root_home.1] at hr
    exact hrt (Option.some.inj hr).symm
  have hralive : s.life r = .alive := by
    obtain ⟨r', hr', hcase⟩ := hhomes.home t (Or.inl halive)
    obtain rfl := Option.mem_unique hr hr'
    exact hcase.resolve_left hrt
  -- the root process is not among the children
  have hrmem : r ∉ s.children t := by
    intro hmem
    obtain ⟨hparent, hne⟩ := (hlinks.mem_iff t r).1 hmem
    exact hhomes.above _ r t hr hne hparent rfl
  obtain ⟨q, hq⟩ := Option.ne_none_iff_exists'.1 (hlinks.started t (Or.inl halive))
  have htq : t ≠ q := hlinks.ne_parent t q hq hroot
  have htmem : t ∉ s.children t := by
    intro hmem
    have hparent := ((hlinks.mem_iff t t).1 hmem).1
    rw [hq] at hparent
    exact htq (Option.some.inj hparent).symm
  have hqalive := (hlinks.parent_alive t q hq).1
  -- the children are handed over
  obtain ⟨sem, hrep, hok, htok⟩ := reparent_eq (s.children t)
    (s := { s with exitcode := update s.exitcode t code }) (hcounts.sem r hralive)
  have hlinks₁ := hlinks.handOver hroot hralive hrt hrmem (perm_handed (s.children t)
    (s.children r) s.life)
  have hcounts₁ := hcounts.handOver halive hbody hrt hralive hok htok
  have hhomes₁ := hhomes.handOver (l := s.children t) hr hrt
    fun c hc => ((hlinks.mem_iff t c).1 hc).1
  -- the process goes to the end of the list of its parent
  obtain ⟨⟨sem', woken⟩, hpost, hok', htok'⟩ := (hcounts₁.sem q hqalive).post
  have hparent₁ : (if t ∈ s.children t then some r else s.parent t) = some q := by
    rw [if_neg htmem, hq]
  have hmem₁ : ∀ x, t ∈ _ ↔ x = q := fun x => by
    rw [hlinks₁.mem_iff x t, hparent₁, Option.some.injEq]
    exact ⟨fun hx => hx.1.symm, fun hx => ⟨hx.symm, hroot⟩⟩
  have hcounts₂ := hcounts₁.toTail hmem₁ (hlinks₁.nodup q) hqalive (Ne.symm htq) hok' htok'
  refine ⟨q, sem, sem', hq, ?_, ⟨?_, hhomes₁, hcounts₂⟩, fun x => ?_⟩
  · rw [Tree.exitTree, hrep, Option.bind_some]
    simp only [handed, hparent₁, Option.bind_some, post]
    rw [hpost, Option.map_some]
    rfl
  · refine hlinks₁.perm fun x => ?_
    by_cases hx : x = q
    · subst hx
      rw [left]
      simp only [update_self]
      exact (List.perm_append_singleton _ _).trans (List.perm_cons_erase ((hmem₁ x).2 rfl)).symm
    · rw [left]
      simp only [update_of_ne hx]
      exact List.Perm.refl _
  · have hr' : ∀ y, tokens (update s.childexit r sem y) (s.place y) y = s.units y +
        if r = y then ((s.children t).filter fun c => s.life c = .zombie).length else 0 := by
      intro y
      by_cases hy : y = r
      · subst hy
        rw [update_self, if_pos rfl]
        exact htok
      · rw [update_of_ne hy, if_neg (Ne.symm hy)]
        rfl
    rw [units]
    simp only [left, handed]
    by_cases hx : x = q
    · subst hx
      rw [update_self, if_pos rfl, htok', hr']
      omega
    · rw [update_of_ne hx, if_neg (Ne.symm hx), hr']
      omega

/-! ## What a run has done -/

/-- The process that an action makes exit. -/
def exitOf : Act P C → Option P
  | .exitTree t _ => some t
  | _ => none

/-- The `wait` that completes in an action, with the process it reaps. -/
def reapOf (x : Tree P C × Act P C) : Option (P × P) :=
  match x.2 with
  | .waitTree t => (x.1.children t).getLast?.bind fun p =>
    if x.1.life p = .zombie then some (t, p) else none
  | _ => none

omit [DecidableEq P] in
theorem reapOf_eq (h : reapOf (s, a) = some (w, z)) :
    a = .waitTree w ∧ (s.children w).getLast? = some z ∧ s.life z = .zombie := by
  cases a with
  | waitTree t =>
    simp only [reapOf, Option.bind_eq_some_iff] at h
    obtain ⟨p, hp, h⟩ := h
    split_ifs at h with hz
    obtain ⟨rfl, rfl⟩ := pair_inj h
    exact ⟨rfl, hp, hz⟩
  | _ => cases h

/-- The first parent of a process, in the action that gives it one. -/
def parentOf (root : P) : Act P C → Option (P × P)
  | .setParentToThis t p | .createContainer t _ p => some (p, t)
  | .startParent _ p => some (p, root)
  | _ => none

/-- The parent of `z` exits, and leaves it to the root process `q` of its
container. -/
def handsOver (x : Tree P C × Act P C) (z q : P) : Prop :=
  ∃ y, exitOf x.2 = some y ∧ z ∈ x.1.children y ∧ x.1.rootproc (x.1.container y) = some q

/-- How often an action posts `childexit` of `q`. -/
def posted (q : P) (x : Tree P C × Act P C) : ℕ :=
  match x.2 with
  | .exitTree t _ =>
    (if x.1.parent t = some q then 1 else 0) +
      if x.1.rootproc (x.1.container t) = some q
      then ((x.1.children t).filter fun c => x.1.life c = .zombie).length else 0
  | _ => 0

/-- How often a `wait` of `q` completes in an action. -/
def completed (q : P) (x : Tree P C × Act P C) : ℕ :=
  if (reapOf x).map Prod.fst = some q then 1 else 0

/-- The processes that a run has reaped. -/
def reaped (tr : List (Tree P C × Act P C)) : List P := tr.filterMap fun x => (reapOf x).map Prod.snd

/-- **What an action does to the units, the lives and the parents.** -/
structure Effect (root : P) (s : Tree P C) (a : Act P C) (s' : Tree P C) : Prop where
  units : ∀ q, s'.units q + completed q (s, a) = s.units q + posted q (s, a)
  life : ∀ z, s'.life z = .reaped ↔ s.life z = .reaped ∨ (reapOf (s, a)).map Prod.snd = some z
  exits : ∀ z, s.exited z = true ∨ s.life z = .reaped ∨ exitOf a = some z →
    s'.exited z = true ∨ s'.life z = .reaped
  parent : ∀ z q, s'.parent z = some q → s.parent z = some q ∨ parentOf root a = some (z, q) ∨
    handsOver (s, a) z q

/-- An action that posts nothing, reaps nobody and makes nobody exit. -/
theorem Effect.of_quiet (hexit : exitOf a = none) (hreap : reapOf (s, a) = none)
    (hposted : ∀ q, posted q (s, a) = 0) (hunits : ∀ q, s'.units q = s.units q)
    (hlife : ∀ z, s'.life z = .reaped ↔ s.life z = .reaped)
    (hexited : ∀ z, s.exited z = true → s'.exited z = true)
    (hparent : ∀ z q, s'.parent z = some q → s.parent z = some q ∨
      parentOf root a = some (z, q)) : Effect root s a s' where
  units := fun q => by rw [hunits, hposted, completed, hreap]; rfl
  life := fun z => by rw [hlife, hreap]; simp
  exits := fun z hz => by
    rcases hz with hz | hz | hz
    · exact Or.inl (hexited z hz)
    · exact Or.inr ((hlife z).2 hz)
    · rw [hexit] at hz
      cases hz
  parent := fun z q hz => (hparent z q hz).imp_right Or.inl

theorem exited_iff : s.exited z = true ↔ s.life z = .zombie ∨ s.sched = some z := by
  simp [exited, exitedOf]

/-- The first list entry of a process that gets a parent. -/
theorem adopt_parent (h : (s.adopt t p).parent z = some q) :
    s.parent z = some q ∨ (z = p ∧ q = t) := by
  simp only [adopt, update_apply] at h
  split_ifs at h with hz
  · exact Or.inr ⟨hz, (Option.some.inj h).symm⟩
  · exact Or.inl h

/-! ## The other sections -/

/-- `create_proc`. -/
theorem Inv.createProc (h : Inv root rootC s) (hp : s.life p = .absent) :
    Inv root rootC (s.initProc rootC p) ∧ (∀ q, (s.initProc rootC p).units q = s.units q) ∧
      (∀ z, (s.initProc rootC p).life z = .reaped ↔ s.life z = .reaped) ∧
      (∀ z, (s.initProc rootC p).exited z = s.exited z) ∧
      (s.initProc rootC p).parent = s.parent := by
  have hparent : update s.parent p none = s.parent := by
    rw [← h.links.gone p (Or.inl hp), update_eq_self]
  have hnil : s.children p = [] := h.links.children_eq_nil (by rw [hp]; simp)
  have hchildren : update s.children p [] = s.children := by
    rw [← hnil, update_eq_self]
  have hhomes := h.homes.create hp (h.no_child (by rw [hp]; simp))
  have hcounts := h.counts.create hp
  refine ⟨⟨h.links.create hp, ?_, ?_⟩, fun q => ?_, fun z => ?_, fun z => ?_, hparent⟩
  · rw [initProc]
    simp only [hparent]
    exact hhomes
  · rw [initProc]
    simp only [hchildren]
    exact hcounts
  · by_cases hq : q = p
    · subst hq
      obtain ⟨hsem, hplace⟩ := h.counts.fresh q (by rw [hp]; rfl)
      rw [units, units, hsem, hplace, initProc]
      simp only [update_self]
    · rw [units, units, initProc]
      simp only [update_of_ne hq]
  · by_cases hz : z = p
    · subst hz
      simp [initProc, hp]
    · simp [initProc, hz]
  · have hsame : exitedOf (update s.life p .unused) s.sched = exitedOf s.life s.sched :=
      Counts.exitedOf_update (by rw [hp]; simp) (by simp)
    exact congrFun hsame z

/-- `set_parent_to_this`, and `start_proc` where there is no parent. -/
theorem Inv.adopt (h : Inv root rootC s) (hp : s.life p = .unused) (hparent : s.parent p = none)
    (ht : s.life t = .alive) (hsched : s.sched ≠ some t) : Inv root rootC (s.adopt t p) :=
  ⟨h.links.adopt hp hparent ht hsched, h.homes.setParent (h.homes.ne_rootproc (Or.inl hparent)),
    h.counts.adopt hp⟩

/-- A step of `wait` that reaps nobody. -/
theorem Inv.setSem {sem : Semaphore P} {pc : Place} (h : Inv root rootC s) (ht : s.life t = .alive)
    (hsched : s.sched ≠ some t) (hok : SemOk sem pc t) (htok : tokens sem pc t = s.units t) :
    Inv root rootC { s with
      childexit := update s.childexit t sem
      place := update s.place t pc } ∧
    ∀ q, tokens (update s.childexit t sem q) (update s.place t pc q) q =
      s.units q := by
  refine ⟨⟨h.links, h.homes, h.counts.setSem ht hsched hok htok⟩, fun q => ?_⟩
  by_cases hq : q = t
  · subst hq
    rw [update_self, update_self, htok]
  · rw [update_of_ne hq, update_of_ne hq]
    rfl

/-- What a `wait` of `t` leaves that has reaped `z`. -/
def waited (s : Tree P C) (t z : P) : Tree P C :=
  { s with
    life := update s.life z .reaped
    parent := update s.parent z none
    children := update s.children t ((s.children t).erase z)
    place := update s.place t .body }

/-- **A `wait` that has its unit reaps a child.** -/
theorem Inv.waitTree (h : Inv root rootC s) (ht : s.place t = .gotSem) (hsched : s.sched = none) :
    ∃ z, (s.children t).getLast? = some z ∧ s.life z = .zombie ∧
      s.reap t = some (s.waited t z) ∧ Inv root rootC (s.waited t z) ∧
      ∀ q, (s.waited t z).units q + (if t = q then 1 else 0) = s.units q := by
  obtain ⟨hlinks, hhomes, hcounts⟩ := h
  rw [hsched] at hlinks hhomes hcounts
  obtain ⟨z, hlast, hz⟩ := hcounts.exists_zombie ht
  have hmem : z ∈ s.children t := List.mem_of_getLast? hlast
  obtain ⟨hparent, hzroot⟩ := (hlinks.mem_iff t z).1 hmem
  have hmem_iff : ∀ x, z ∈ s.children x ↔ x = t := fun x => by
    rw [hlinks.mem_iff x z, hparent, Option.some.injEq]
    exact ⟨fun hx => hx.1.symm, fun hx => ⟨hx.symm, hzroot⟩⟩
  have hnot := hhomes.ne_rootproc (Or.inr (Or.inl hz))
  refine ⟨z, hlast, hz, ?_, ⟨?_, ?_, ?_⟩, fun q => ?_⟩
  · rw [reap, hlast, Option.map_some, if_pos hz]
    rfl
  · rw [waited, hsched]
    exact hlinks.reap hz hmem
  · rw [waited, hsched]
    have hretire := hhomes.retire (l := .reaped) hnot ⟨nofun, nofun⟩ (Or.inl rfl)
    exact hretire.setParent hnot
  · rw [waited, hsched]
    exact hcounts.reap ht hz hmem_iff (hlinks.nodup t)
  · rw [units, units, waited]
    by_cases hq : q = t
    · subst hq
      rw [if_pos rfl, ht, tokens_gotSem]
      simp only [update_self]
    · rw [if_neg (Ne.symm hq)]
      simp only [update_of_ne hq, Nat.add_zero]

/-! ## A step -/

variable [DecidableEq C]

variable {c : C} {code : ℤ}

section

variable (h : Inv root rootC s)

include h

theorem Inv.step_createProc (hs : s.step root rootC (.createProc t p) = some s') :
    Inv root rootC s' ∧ Effect root s (.createProc t p) s' := by
  obtain ⟨hguard, rfl⟩ := of_guard hs
  obtain ⟨hinv, hunits, hlife, hexited, hparent⟩ := h.createProc hguard.2
  refine ⟨hinv, Effect.of_quiet rfl rfl (fun _ => rfl) hunits hlife
    (fun z hz => by rw [hexited, hz]) fun z q hz => ?_⟩
  rw [hparent] at hz
  exact Or.inl hz

theorem Inv.step_setParentToThis (hs : s.step root rootC (.setParentToThis t p) = some s') :
    Inv root rootC s' ∧ Effect root s (.setParentToThis t p) s' := by
  obtain ⟨hguard, rfl⟩ := of_guard hs
  obtain ⟨halive, -, hsched⟩ := running_iff.1 hguard.1
  refine ⟨h.adopt hguard.2.1 hguard.2.2 halive hsched, Effect.of_quiet rfl rfl (fun _ => rfl)
    (fun _ => rfl) (fun _ => Iff.rfl) (fun _ hz => hz) fun z q hz => ?_⟩
  rcases adopt_parent hz with hz | ⟨rfl, rfl⟩
  · exact Or.inl hz
  · exact Or.inr rfl

theorem Inv.step_setContainerToThis (hs : s.step root rootC (.setContainerToThis t p) = some s') :
    Inv root rootC s' ∧ Effect root s (.setContainerToThis t p) s' := by
  obtain ⟨hguard, rfl⟩ := of_guard hs
  obtain ⟨halive, -, -⟩ := running_iff.1 hguard.1
  have hnot : ∀ c, s.rootproc c ≠ some p := by
    intro c hc
    rw [← (h.homes.inside c p hc).1] at hc
    exact hguard.2.2 hc
  have hchild := h.no_child (p := p) (by rw [hguard.2.1]; exact nofun)
  exact ⟨⟨h.links, h.homes.setContainer hnot halive hchild, h.counts⟩,
    Effect.of_quiet rfl rfl (fun _ => rfl) (fun _ => rfl) (fun _ => Iff.rfl) (fun _ hz => hz)
      fun _ _ hz => Or.inl hz⟩

theorem Inv.step_createContainer (hs : s.step root rootC (.createContainer t c p) = some s') :
    Inv root rootC s' ∧ Effect root s (.createContainer t c p) s' := by
  obtain ⟨hguard, rfl⟩ := of_guard hs
  obtain ⟨hrun, hp, hc⟩ := hguard
  obtain ⟨halive, -, hsched⟩ := running_iff.1 hrun
  have hpt : t ≠ p := ne_of_values halive hp nofun
  have hpsched : s.sched ≠ some p := by
    intro hex
    rw [h.counts.leaving p hex] at hp
    cases hp
  obtain ⟨hinv, hunits, hlife, hexited, hparent⟩ := h.createProc hp
  have hp₁ : (s.initProc rootC p).life p = .unused := update_self _ _ _
  have hparent₁ : (s.initProc rootC p).parent p = none := update_self _ _ _
  have halive₁ : (s.initProc rootC p).life t = .alive :=
    (update_of_ne hpt _ _).trans halive
  have hinv₂ := hinv.adopt hp₁ hparent₁ halive₁ hsched
  have hchild := hinv₂.no_child (p := p) fun hp₂ => by cases hp₁.symm.trans hp₂
  refine ⟨⟨hinv₂.links, hinv₂.homes.newContainer hc hp₁
      (h.homes.ne_rootproc (Or.inr (Or.inr (Or.inl hp)))) (update_self _ _ _)
      halive₁ hpsched hchild, hinv₂.counts⟩,
    Effect.of_quiet rfl rfl (fun _ => rfl) hunits hlife
      (fun z hz => (hexited z).trans hz) fun z q hz => ?_⟩
  rcases adopt_parent hz with hz | ⟨rfl, rfl⟩
  · rw [hparent] at hz
    exact Or.inl hz
  · exact Or.inr rfl

theorem Inv.step_startParent (hs : s.step root rootC (.startParent t p) = some s') :
    Inv root rootC s' ∧ Effect root s (.startParent t p) s' := by
  obtain ⟨hguard, rfl⟩ := of_guard hs
  obtain ⟨hroot, hself⟩ := h.links.root_alive
  refine ⟨h.adopt hguard.2.1 hguard.2.2 hroot (h.links.parent_alive root root hself).2,
    Effect.of_quiet rfl rfl (fun _ => rfl) (fun _ => rfl) (fun _ => Iff.rfl) (fun _ hz => hz)
      fun z q hz => ?_⟩
  rcases adopt_parent hz with hz | ⟨rfl, rfl⟩
  · exact Or.inl hz
  · exact Or.inr rfl

theorem Inv.step_startActivate (hs : s.step root rootC (.startActivate t p) = some s') :
    Inv root rootC s' ∧ Effect root s (.startActivate t p) s' := by
  obtain ⟨hguard, rfl⟩ := of_guard hs
  obtain ⟨-, hp, hparent, -⟩ := hguard
  have hnil := h.links.children_eq_nil (q := p) (by rw [hp]; exact nofun)
  have hsame : exitedOf (update s.life p .alive) s.sched =
      exitedOf s.life s.sched := Counts.exitedOf_update (by rw [hp]; exact nofun) nofun
  refine ⟨⟨h.links.start hp hparent, h.homes.start hp, h.counts.start hp hnil⟩,
    Effect.of_quiet rfl rfl (fun _ => rfl) (fun _ => rfl) (fun z => ?_)
      (fun z hz => (congrFun hsame z).trans hz) fun _ _ hz => Or.inl hz⟩
  by_cases hz : z = p
  · subst hz
    simp [hp]
  · simp [hz]

theorem Inv.step_exitTree (hs : s.step root rootC (.exitTree t code) = some s') :
    Inv root rootC s' ∧ Effect root s (.exitTree t code) s' := by
  obtain ⟨hguard, hs⟩ := of_guarded hs
  obtain ⟨r, hr, hs⟩ := Option.bind_eq_some_iff.1 hs
  split_ifs at hs with hrt
  obtain ⟨q, sem, sem', hq, heq, hinv, hunits⟩ := h.exitTree code hguard.1 hguard.2 hr hrt
  rw [heq] at hs
  obtain rfl := Option.some.inj hs
  refine ⟨hinv, ⟨fun x => ?_, fun z => ?_, fun z hz => ?_, fun z x hz => ?_⟩⟩
  · rw [hunits, completed, posted]
    simp only [reapOf, Option.map_none, hq, hr, Option.some.injEq, reduceCtorEq, if_false]
    omega
  · simp [reapOf, left, handed]
  · -- `schelock` was free, so who has exited is a zombie
    rcases hz with hz | hz | hz
    · rw [exited_iff, hguard.2] at hz
      exact Or.inl (exited_iff.2 (hz.imp_right (by simp)))
    · exact Or.inr hz
    · exact Or.inl (exited_iff.2 (Or.inr hz))
  · simp only [left, handed] at hz
    split_ifs at hz with hmem
    · obtain rfl := Option.some.inj hz
      exact Or.inr (Or.inr ⟨t, rfl, hmem, hr⟩)
    · exact Or.inl hz

theorem Inv.step_exitSched (hs : s.step root rootC (.exitSched t) = some s') :
    Inv root rootC s' ∧ Effect root s (.exitSched t) s' := by
  obtain ⟨hsched, rfl⟩ := of_guard hs
  have halive := h.counts.leaving t hsched
  obtain ⟨hlinks, hhomes, hcounts⟩ := h
  rw [hsched] at hlinks hhomes hcounts
  have hnot := hhomes.ne_rootproc (p := t) (Or.inr (Or.inr (Or.inr rfl)))
  refine ⟨⟨hlinks.die halive, hhomes.retire hnot ⟨nofun, nofun⟩ (Or.inr rfl), hcounts.die⟩,
    Effect.of_quiet rfl rfl (fun _ => rfl) (fun _ => rfl) (fun z => ?_) (fun z hz => ?_)
      fun _ _ hz => Or.inl hz⟩
  · by_cases hz : z = t
    · subst hz
      simp [halive]
    · simp [hz]
  · refine exited_iff.2 (Or.inl ?_)
    by_cases hzt : z = t
    · subst hzt
      exact update_self _ _ _
    · rw [exited_iff, hsched] at hz
      exact (update_of_ne hzt _ _).trans
        (hz.resolve_right fun hex => hzt (Option.some.inj hex).symm)

theorem Inv.step_waitCheck (hs : s.step root rootC (.waitCheck t) = some s') :
    Inv root rootC s' ∧ Effect root s (.waitCheck t) s' := by
  simp only [Tree.step] at hs
  split at hs
  · rename_i hrun
    obtain ⟨halive, hbody, hsched⟩ := running_iff.1 hrun
    split at hs
    · obtain rfl := Option.some.inj hs
      exact ⟨h, Effect.of_quiet rfl rfl (fun _ => rfl) (fun _ => rfl) (fun _ => Iff.rfl)
        (fun _ hz => hz) fun _ _ hz => Or.inl hz⟩
    · obtain rfl := Option.some.inj hs
      have hok : SemOk (s.childexit t) .wantSem t :=
        (h.counts.sem t halive).not_asleep (by rw [hbody]; exact nofun)
      have htok : tokens (s.childexit t) .wantSem t = s.units t := by
        rw [units, hbody]
        exact tokens_eq_of_not_asleep ⟨nofun, nofun⟩ ⟨nofun, nofun⟩
      obtain ⟨hinv, hunits⟩ := h.setSem halive hsched hok htok
      rw [update_eq_self] at hinv hunits
      exact ⟨hinv, Effect.of_quiet rfl rfl (fun _ => rfl) hunits (fun _ => Iff.rfl)
        (fun _ hz => hz) fun _ _ hz => Or.inl hz⟩
  · cases hs

theorem Inv.step_waitSem (hs : s.step root rootC (.waitSem t) = some s') :
    Inv root rootC s' ∧ Effect root s (.waitSem t) s' := by
  obtain ⟨hguard, rfl⟩ := of_guard hs
  obtain ⟨halive, hsched⟩ := h.counts.waits t (by rw [hguard.1]; exact nofun)
  have hsem := h.counts.sem t halive
  rw [hguard.1] at hsem
  have htok : s.units t = tokens (s.childexit t) .wantSem t := by rw [units, hguard.1]
  obtain ⟨hinv, hunits⟩ := h.setSem halive hsched hsem.wait.1 (hsem.wait.2.trans htok.symm)
  exact ⟨hinv, Effect.of_quiet rfl rfl (fun _ => rfl) hunits (fun _ => Iff.rfl)
    (fun _ hz => hz) fun _ _ hz => Or.inl hz⟩

theorem Inv.step_waitResume (hs : s.step root rootC (.waitResume t) = some s') :
    Inv root rootC s' ∧ Effect root s (.waitResume t) s' := by
  simp only [Tree.step] at hs
  split at hs
  · rename_i hasleep
    obtain ⟨halive, hsched⟩ := h.counts.waits t (by rw [hasleep]; exact nofun)
    have hsem := h.counts.sem t halive
    rw [hasleep] at hsem
    have hunits₀ : s.units t = tokens (s.childexit t) .asleep t := by rw [units, hasleep]
    split at hs
    · rename_i hmem
      obtain ⟨sem, hcancel, hok, htok⟩ := hsem.cancel hmem
      rw [hcancel, Option.map_some] at hs
      obtain rfl := Option.some.inj hs
      obtain ⟨hinv, hunits⟩ := h.setSem halive hsched hok (htok.trans hunits₀.symm)
      exact ⟨hinv, Effect.of_quiet rfl rfl (fun _ => rfl) hunits (fun _ => Iff.rfl)
        (fun _ hz => hz) fun _ _ hz => Or.inl hz⟩
    · rename_i hup
      obtain rfl := Option.some.inj hs
      obtain ⟨hinv, hunits⟩ := h.setSem halive hsched (hsem.up hup)
        ((tokens_of_up hup).trans hunits₀.symm)
      rw [update_eq_self] at hinv hunits
      exact ⟨hinv, Effect.of_quiet rfl rfl (fun _ => rfl) hunits (fun _ => Iff.rfl)
        (fun _ hz => hz) fun _ _ hz => Or.inl hz⟩
  · cases hs

theorem Inv.step_waitTree (hs : s.step root rootC (.waitTree t) = some s') :
    Inv root rootC s' ∧ Effect root s (.waitTree t) s' := by
  obtain ⟨hguard, hs⟩ := of_guarded hs
  obtain ⟨z, hlast, hz, heq, hinv, hunits⟩ := h.waitTree hguard.1 hguard.2
  rw [heq] at hs
  obtain rfl := Option.some.inj hs
  have hreap : reapOf (s, Act.waitTree (C := C) t) = some (t, z) := by
    simp only [reapOf, hlast, Option.bind_some, if_pos hz]
  refine ⟨hinv, ⟨fun q => ?_, fun x => ?_, fun x hx => ?_, fun x q hx => ?_⟩⟩
  · rw [completed, hreap, ← hunits q]
    simp only [Option.map_some, Option.some.injEq, posted]
    omega
  · rw [hreap]
    by_cases hxz : x = z
    · subst hxz
      simp [waited]
    · simp [waited, hxz, Ne.symm hxz]
  · by_cases hxz : x = z
    · subst hxz
      exact Or.inr (update_self _ _ _)
    · have hlife : (s.waited t z).life x = s.life x := update_of_ne hxz _ _
      rw [exited_iff, hlife]
      rcases hx with hx | hx | hx
      · exact Or.inl (exited_iff.1 hx)
      · exact Or.inr hx
      · cases hx
  · simp only [waited, update_apply] at hx
    split at hx
    · cases hx
    · exact Or.inl hx

/-- **Every action keeps the tree in order.** -/
theorem Inv.step (hs : s.step root rootC a = some s') : Inv root rootC s' ∧ Effect root s a s' := by
  cases a with
  | createProc => exact h.step_createProc hs
  | setParentToThis => exact h.step_setParentToThis hs
  | setContainerToThis => exact h.step_setContainerToThis hs
  | createContainer => exact h.step_createContainer hs
  | startParent => exact h.step_startParent hs
  | startActivate => exact h.step_startActivate hs
  | exitTree => exact h.step_exitTree hs
  | exitSched => exact h.step_exitSched hs
  | waitCheck => exact h.step_waitCheck hs
  | waitSem => exact h.step_waitSem hs
  | waitResume => exact h.step_waitResume hs
  | waitTree => exact h.step_waitTree hs

end

/-! ## The beginning -/

theorem init_parent (h : (init root rootC : Tree P C).parent p = some q) : p = root ∧ q = root := by
  obtain ⟨hp, h⟩ := of_guarded h
  exact ⟨hp, (Option.some.inj h).symm⟩

theorem init_rootproc {c : C} (h : (init root rootC : Tree P C).rootproc c = some r) :
    c = rootC ∧ r = root := by
  obtain ⟨hc, h⟩ := of_guarded h
  exact ⟨hc, (Option.some.inj h).symm⟩

theorem init_life (root : P) (rootC : C) (p : P) : (p = root ∧ (init root rootC : Tree P C).life p = .alive) ∨
    (p ≠ root ∧ (init root rootC : Tree P C).life p = .absent) := by
  simp only [init]
  by_cases hp : p = root
  · exact Or.inl ⟨hp, if_pos hp⟩
  · exact Or.inr ⟨hp, if_neg hp⟩

theorem links_init (root : P) (rootC : C) :
    Links root none (init root rootC : Tree P C).life (init root rootC : Tree P C).parent
      (init root rootC : Tree P C).children where
  root_alive := ⟨if_pos rfl, if_pos rfl⟩
  mem_iff := fun q c => by
    refine iff_of_false List.not_mem_nil fun hc => hc.2 (init_parent hc.1).1
  nodup := fun _ => List.nodup_nil
  ne_parent := fun c q hc hcr => absurd (init_parent hc).1 hcr
  parent_alive := fun c q hc => ⟨by rw [(init_parent hc).2]; exact if_pos rfl, nofun⟩
  started := fun p hp => by
    rcases init_life root rootC p with ⟨rfl, -⟩ | ⟨-, hlife⟩
    · exact fun hnone => by simp [init] at hnone
    · rw [hlife] at hp
      rcases hp with hp | hp <;> cases hp
  gone := fun p hp => by
    rcases init_life root rootC p with ⟨-, hlife⟩ | ⟨hne, -⟩
    · rw [hlife] at hp
      rcases hp with hp | hp <;> cases hp
    · exact if_neg hne

theorem homes_init (root : P) (rootC : C) :
    Homes root rootC none (init root rootC : Tree P C).life (init root rootC : Tree P C).parent
      (init root rootC : Tree P C).container (init root rootC : Tree P C).rootproc where
  root_home := ⟨if_pos rfl, if_pos rfl⟩
  home := fun p _ => ⟨root, if_pos rfl, Or.inr (if_pos rfl)⟩
  inside := fun c r hr => by
    obtain ⟨rfl, rfl⟩ := init_rootproc hr
    exact ⟨rfl, Or.inl (if_pos rfl), nofun, fun hnone => by simp [init] at hnone⟩
  above := fun c r q hr hrr => absurd (init_rootproc hr).2 hrr

theorem inv_init (root : P) (rootC : C) : Inv root rootC (init root rootC : Tree P C) where
  links := links_init root rootC
  homes := homes_init root rootC
  counts := ⟨fun _ => TailOf.nil, fun _ _ => semOk_init, fun _ _ _ => rfl, fun _ _ => ⟨rfl, rfl⟩,
    fun _ hne => absurd rfl hne, nofun, Or.inl rfl⟩

/-! ## A run -/

variable {tr : List (Tree P C × Act P C)}

/-- **The trace of a run, seen from its end.** -/
structure History (root : P) (tr : List (Tree P C × Act P C)) (s : Tree P C) : Prop where
  units : ∀ q, s.units q + (tr.map (completed q)).sum = (tr.map (posted q)).sum
  reaped : ∀ z, z ∈ reaped tr ↔ s.life z = .reaped
  nodup : (Tree.reaped tr).Nodup
  exits : ∀ x ∈ tr, ∀ z, exitOf x.2 = some z → s.exited z = true ∨ s.life z = .reaped
  parent : ∀ z q, s.parent z = some q → z ≠ root →
    ∃ x ∈ tr, parentOf root x.2 = some (z, q) ∨ handsOver x z q

theorem history_init (root : P) (rootC : C) :
    History root [] (init root rootC : Tree P C) where
  units := fun _ => rfl
  reaped := fun z => by
    refine iff_of_false List.not_mem_nil ?_
    rcases init_life root rootC z with ⟨-, hlife⟩ | ⟨-, hlife⟩ <;> rw [hlife] <;> exact nofun
  nodup := List.nodup_nil
  exits := fun _ hx => absurd hx List.not_mem_nil
  parent := fun _ _ hz hne => absurd (init_parent hz).1 hne

omit [DecidableEq C] in
theorem History.snoc (h : History root tr s) (he : Effect root s a s') :
    History root (tr ++ [(s, a)]) s' where
  units := fun q => by
    have := h.units q
    have := he.units q
    simp only [List.map_append, List.map_cons, List.map_nil, List.sum_append, List.sum_cons,
      List.sum_nil]
    omega
  reaped := fun z => by
    rw [he.life, ← h.reaped, Tree.reaped, List.filterMap_append, List.mem_append]
    simp [Tree.reaped]
  nodup := by
    rw [Tree.reaped, List.filterMap_append]
    cases hreap : reapOf (s, a) with
    | none => simpa [hreap, Tree.reaped] using h.nodup
    | some x =>
      obtain ⟨w, z⟩ := x
      -- only a zombie is reaped, so it has not been reaped before
      have hz : z ∉ Tree.reaped tr := by
        rw [h.reaped, (reapOf_eq hreap).2.2]
        exact nofun
      simp only [List.filterMap_cons, List.filterMap_nil, hreap, Option.map_some]
      exact List.nodup_append.2 ⟨h.nodup, List.nodup_singleton z, by
        rintro x hx y hy rfl
        exact hz (List.mem_singleton.1 hy ▸ hx)⟩
  exits := fun x hx z hz => by
    rcases List.mem_append.1 hx with hx | hx
    · exact he.exits z ((h.exits x hx z hz).imp_right Or.inl)
    · obtain rfl := List.mem_singleton.1 hx
      exact he.exits z (Or.inr (Or.inr hz))
  parent := fun z q hz hne => by
    rcases he.parent z q hz with hz | hz
    · obtain ⟨x, hx, hcase⟩ := h.parent z q hz hne
      exact ⟨x, List.mem_append_left _ hx, hcase⟩
    · exact ⟨(s, a), by simp, hz⟩

theorem inv_of_run (h : Run (Tree.step root rootC) (init root rootC) tr s) :
    Inv root rootC s ∧ History root tr s :=
  h.traceInvariant (I := fun tr s => Inv root rootC s ∧ History root tr s)
    ⟨inv_init root rootC, history_init root rootC⟩ fun _ _ _ _ hI hs =>
      ⟨(hI.1.step hs).1, hI.2.snoc (hI.1.step hs).2⟩

omit [DecidableEq C] in
/-- An exited process is in the list of a parent that has a unit for it. -/
theorem Inv.exists_parent (h : Inv root rootC s) (hz : s.exited z = true) :
    ∃ q, s.parent z = some q ∧ z ∈ s.children q ∧ s.life q = .alive ∧
      (s.place q = .body → 0 < (s.childexit q).val) := by
  obtain ⟨hroot, hself⟩ := h.links.root_alive
  have hlife : s.life z = .alive ∨ s.life z = .zombie :=
    (exited_iff.1 hz).symm.imp_left (h.counts.leaving z)
  have hne : z ≠ root := by
    rintro rfl
    rcases exited_iff.1 hz with hzombie | hsched
    · rw [hroot] at hzombie
      cases hzombie
    · exact (h.links.parent_alive z z hself).2 hsched
  obtain ⟨q, hq⟩ := Option.ne_none_iff_exists'.1 (h.links.started z hlife)
  obtain ⟨halive, hsched⟩ := h.links.parent_alive z q hq
  have hmem : z ∈ s.children q := (h.links.mem_iff q z).2 ⟨hq, hne⟩
  refine ⟨q, hq, hmem, halive, fun hbody => ?_⟩
  have hpos : 0 < (s.children q).countP (exitedOf s.life s.sched) :=
    List.countP_pos_iff.2 ⟨z, hmem, hz⟩
  rw [h.counts.count q halive hsched, hbody, tokens, if_neg (by simp)] at hpos
  omega

/-- **The process tree.** In every state that creations, exits and waits
lead to,
* a process that has been started and is not yet reaped is in the list of
  its parent, once, and in no other list;
* the children that have exited are at the end of a list;
* they are as many as the posts of `childexit` that no completed `wait` has
  consumed;
* a `wait` that has its unit and comes to its critical section finds a
  zombie at the end of its list;
* nobody is reaped twice, and who has exited is reaped already or is in the
  list of a parent that has a unit for it;
* who reaps is the parent: the one that the process was given first, or the
  root process of the container of a parent that has exited since.

A process that has taken `schelock` on its way to `ZOMBIE` counts as exited
already; where `schelock` is free, the exited ones are the zombies. -/
theorem process_tree (hrun : Run (Tree.step root rootC) (init root rootC) tr s) :
    (∀ p, p ≠ root → s.life p = .alive ∨ s.life p = .zombie →
      ∃ q, s.parent p = some q ∧ ∀ x, (s.children x).count p = if x = q then 1 else 0) ∧
    (∀ q, ∃ front back, s.children q = front ++ back ∧
      (∀ p ∈ front, s.exited p = false) ∧ ∀ p ∈ back, s.exited p = true) ∧
    (∀ q, s.life q = .alive → s.sched ≠ some q →
      (s.children q).countP s.exited + (tr.map (completed q)).sum = (tr.map (posted q)).sum) ∧
    (s.sched = none → (∀ p, s.exited p = true ↔ s.life p = .zombie) ∧
      ∀ q, s.place q = .gotSem →
        ∃ z, (s.children q).getLast? = some z ∧ s.life z = .zombie) ∧
    (reaped tr).Nodup ∧
    (∀ x ∈ tr, ∀ z, exitOf x.2 = some z → z ∈ reaped tr ∨ ∃ q, s.parent z = some q ∧
      z ∈ s.children q ∧ s.life q = .alive ∧ (s.place q = .body → 0 < (s.childexit q).val)) ∧
    ∀ x ∈ tr, ∀ w z, reapOf x = some (w, z) → x.1.life z = .zombie ∧ x.1.parent z = some w ∧
      ∃ y ∈ tr, parentOf root y.2 = some (z, w) ∨ handsOver y z w := by
  obtain ⟨hinv, hhist⟩ := inv_of_run hrun
  refine ⟨fun p hp hlife => ?_, fun q => ?_, fun q hq hsched => ?_, fun hsched => ⟨fun p => ?_,
    fun q hq => ?_⟩, hhist.nodup, fun x hx z hz => ?_, fun x hx w z hz => ?_⟩
  · obtain ⟨q, hq⟩ := Option.ne_none_iff_exists'.1 (hinv.links.started p hlife)
    refine ⟨q, hq, fun x => ?_⟩
    rw [(hinv.links.nodup x).count]
    refine if_congr ?_ rfl rfl
    rw [hinv.links.mem_iff, hq, Option.some.injEq]
    exact ⟨fun hx => hx.1.symm, fun hx => ⟨hx.symm, hp⟩⟩
  · exact (hinv.counts.tail q).exists_append
  · have hcount : (s.children q).countP s.exited = s.units q := hinv.counts.count q hq hsched
    rw [hcount]
    exact hhist.units q
  · rw [exited_iff, hsched]
    exact ⟨fun hp => hp.resolve_right nofun, Or.inl⟩
  · have hcounts := hinv.counts
    rw [hsched] at hcounts
    exact hcounts.exists_zombie hq
  · rcases hhist.exits x hx z hz with hex | hex
    · exact Or.inr (hinv.exists_parent hex)
    · exact Or.inl ((hhist.reaped z).2 hex)
  · obtain ⟨tr', t, hrun', -, hpre⟩ := hrun.of_mem hx
    obtain ⟨hinv', hhist'⟩ := inv_of_run hrun'
    obtain ⟨-, hlast, hzombie⟩ := reapOf_eq hz
    obtain ⟨hparent, hne⟩ := (hinv'.links.mem_iff w z).1 (List.mem_of_getLast? hlast)
    obtain ⟨y, hy, hcase⟩ := hhist'.parent z w hparent hne
    exact ⟨hzombie, hparent, y, hpre.subset hy, hcase⟩

/-- An exit that leaves a zombie behind, and a `wait` of the root process. -/
def orphanRun : List (Act ℕ Unit) :=
  [.createProc 0 1, .setParentToThis 0 1, .startActivate 0 1,
    .createProc 1 2, .setParentToThis 1 2, .startActivate 1 2,
    .exitTree 2 0, .exitSched 2, .exitTree 1 0, .exitSched 1,
    .waitCheck 0, .waitSem 0, .waitTree 0]

/-- Process 1 has a child 2, which exits first; then 1 exits, and the root
process 0 reaps it. The zombie 2 has been handed over to 0, which has one
unit left for it. -/
theorem process_tree_orphan : ∃ tr s, Run (Tree.step 0 ()) (init 0 () : Tree ℕ Unit) tr s ∧
    reaped tr = [1] ∧ s.children 0 = [2] ∧ (s.childexit 0).val = 1 ∧
    (∃ q, s.parent 2 = some q ∧ ∀ x, (s.children x).count 2 = if x = q then 1 else 0) := by
  obtain ⟨s, hs, hreaped, hchildren, hval, hlife⟩ : ∃ s,
      exec (Tree.step 0 ()) (init 0 () : Tree ℕ Unit) orphanRun = some s ∧
      reaped (execTrace (Tree.step 0 ()) (init 0 () : Tree ℕ Unit) orphanRun) = [1] ∧
      s.children 0 = [2] ∧ (s.childexit 0).val = 1 ∧ s.life 2 = .zombie :=
    ⟨_, rfl, by decide, by decide, by decide, by decide⟩
  exact ⟨_, s, Run.of_exec hs, hreaped, hchildren, hval,
    (process_tree (Run.of_exec hs)).1 2 (by decide) (Or.inr hlife)⟩

end Tree

end OsKernel.Proc
