import OsKernel.Common.Update
import OsKernel.Proc.Model.Tree

/-!
# Helpers — the lists of children, the parents and the containers

What the critical sections do to the links of the tree (`Links`) and to the
containers (`Homes`). A process that is leaving (`ex`) has handed over its
children already and is alive still.
-/

namespace OsKernel.Proc

open Function

variable {P C : Type}

variable {root p q r t c : P} {rootC : C} {ex : Option P} {life : P → Life}
variable {parent : P → Option P} {children : P → List P}

/-- The list of a process has the processes of which it is the parent; `ex`
is leaving and has none. -/
structure Links (root : P) (ex : Option P) (life : P → Life) (parent : P → Option P)
    (children : P → List P) : Prop where
  root_alive : life root = .alive ∧ parent root = some root
  mem_iff : ∀ q c, c ∈ children q ↔ parent c = some q ∧ c ≠ root
  nodup : ∀ q, (children q).Nodup
  ne_parent : ∀ c q, parent c = some q → c ≠ root → c ≠ q
  parent_alive : ∀ c q, parent c = some q → life q = .alive ∧ ex ≠ some q
  /-- Who has been started and is not reaped has a parent. -/
  started : ∀ p, life p = .alive ∨ life p = .zombie → parent p ≠ none
  gone : ∀ p, life p = .absent ∨ life p = .reaped → parent p = none

namespace Links

section

variable (h : Links root ex life parent children)

include h

theorem not_mem_of_parent_eq_none (hp : parent p = none) (q : P) : p ∉ children q := by
  intro hmem
  rw [h.mem_iff, hp] at hmem
  cases hmem.1

theorem children_eq_nil (hq : life q ≠ .alive) : children q = [] := by
  refine List.eq_nil_iff_forall_not_mem.2 fun c hc => hq ?_
  exact (h.parent_alive c q ((h.mem_iff q c).1 hc).1).1

/-- The order of the lists is free. -/
theorem perm {children' : P → List P} (hperm : ∀ q, (children' q).Perm (children q)) :
    Links root ex life parent children' :=
  { h with
    mem_iff := fun q c => ((hperm q).mem_iff).trans (h.mem_iff q c)
    nodup := fun q => (hperm q).nodup_iff.2 (h.nodup q) }

variable [DecidableEq P]

/-- A process gets a parent. -/
theorem adopt (hp : life p = .unused) (hparent : parent p = none) (ht : life t = .alive)
    (hex : ex ≠ some t) :
    Links root ex life (update parent p (some t))
      (update children t (p :: children t)) := by
  have hroot : p ≠ root := ne_of_values hp h.root_alive.1 nofun
  have hnot := h.not_mem_of_parent_eq_none hparent
  refine ⟨⟨h.root_alive.1, ?_⟩, fun q c => ?_, (forall_update_iff children fun _ l => l.Nodup).2
    ⟨List.nodup_cons.2 ⟨hnot t, h.nodup t⟩, fun q _ => h.nodup q⟩, fun c q hc hcr => ?_,
    fun c q hc => ?_, fun c hc => ?_, fun c hc => ?_⟩
  · rw [update_of_ne hroot.symm]
    exact h.root_alive.2
  · by_cases hcp : c = p
    · subst hcp
      rw [update_self, Option.some.injEq]
      by_cases hqt : q = t
      · subst hqt
        simp [hroot]
      · simp [hqt, hnot q, Ne.symm hqt]
    · rw [update_of_ne hcp, ← h.mem_iff]
      by_cases hqt : q = t
      · subst hqt
        simp [hcp]
      · rw [update_of_ne hqt]
  · rcases update_eq_cases hc with ⟨rfl, hq⟩ | ⟨-, hc⟩
    · rw [← Option.some.inj hq]
      exact ne_of_values hp ht nofun
    · exact h.ne_parent c q hc hcr
  · rcases update_eq_cases hc with ⟨rfl, hq⟩ | ⟨-, hc⟩
    · rw [← Option.some.inj hq]
      exact ⟨ht, hex⟩
    · exact h.parent_alive c q hc
  · rw [update_apply]
    split_ifs
    · exact nofun
    · exact h.started c hc
  · rw [update_of_ne]
    · exact h.gone c hc
    · rintro rfl
      simp [hp] at hc

/-- A process is allocated. -/
theorem create (hp : life p = .absent) :
    Links root ex (update life p .unused) (update parent p none)
      (update children p []) := by
  have hparent : update parent p none = parent := by
    rw [← h.gone p (Or.inl hp), update_eq_self]
  have hchildren : update children p [] = children := by
    rw [← h.children_eq_nil (q := p) (by rw [hp]; exact nofun), update_eq_self]
  have halive : ∀ {c}, life c = .alive → update life p .unused c = .alive :=
    update_eq_of_ne (by rw [hp]; exact nofun)
  rw [hparent, hchildren]
  refine { h with
    root_alive := ⟨halive h.root_alive.1, h.root_alive.2⟩
    parent_alive := fun c q hc => (h.parent_alive c q hc).imp_left halive
    started := fun c hc => h.started c (of_update_or hc nofun nofun)
    gone := fun c hc => ?_ }
  by_cases hcp : c = p
  · rw [hcp]
    exact h.gone p (Or.inl hp)
  · rw [update_of_ne hcp] at hc
    exact h.gone c hc

/-- A process is started. -/
theorem start (hp : life p = .unused) (hparent : parent p ≠ none) :
    Links root ex (update life p .alive) parent children := by
  have halive : ∀ {c}, life c = .alive → update life p .alive c = .alive :=
    update_eq_of_ne (by rw [hp]; exact nofun)
  refine { h with
    root_alive := ⟨halive h.root_alive.1, h.root_alive.2⟩
    parent_alive := fun c q hc => (h.parent_alive c q hc).imp_left halive
    started := fun c hc => ?_
    gone := fun c hc => h.gone c (of_update_or hc nofun nofun) }
  · by_cases hcp : c = p
    · rwa [hcp]
    · rw [update_of_ne hcp] at hc
      exact h.started c hc

end

variable [DecidableEq P]

/-- The process that is leaving becomes a zombie. -/
theorem die (h : Links root (some p) life parent children) (hp : life p = .alive) :
    Links root none (update life p .zombie) parent children := by
  have hother : ∀ c q, parent c = some q → q ≠ p := by
    rintro c q hc rfl
    exact (h.parent_alive c q hc).2 rfl
  have hroot : root ≠ p := hother root root h.root_alive.2
  refine { h with
    root_alive := ⟨by rw [update_of_ne hroot, h.root_alive.1], h.root_alive.2⟩
    parent_alive := fun c q hc => ⟨?_, nofun⟩
    started := fun c hc => ?_
    gone := fun c hc => h.gone c (of_update_or hc nofun nofun) }
  · rw [update_of_ne (hother c q hc)]
    exact (h.parent_alive c q hc).1
  · by_cases hcp : c = p
    · rw [hcp]
      exact h.started p (Or.inl hp)
    · rw [update_of_ne hcp] at hc
      exact h.started c hc

/-- A zombie is reaped. -/
theorem reap (h : Links root ex life parent children) (hp : life p = .zombie)
    (hmem : p ∈ children t) :
    Links root ex (update life p .reaped) (update parent p none)
      (update children t ((children t).erase p)) := by
  obtain ⟨hparent, hroot⟩ := (h.mem_iff t p).1 hmem
  have hold : ∀ {c q}, update parent p none c = some q → parent c = some q := fun hc =>
    (of_update_eq hc nofun).2
  have halive : ∀ {c}, life c = .alive → update life p .reaped c = .alive :=
    update_eq_of_ne (by rw [hp]; exact nofun)
  refine ⟨⟨halive h.root_alive.1, ?_⟩, fun q c => ?_,
    (forall_update_iff children fun _ l => l.Nodup).2
      ⟨(h.nodup t).erase p, fun q _ => h.nodup q⟩, fun c q hc => h.ne_parent c q (hold hc),
    fun c q hc => (h.parent_alive c q (hold hc)).imp_left halive, fun c hc => ?_, fun c hc => ?_⟩
  · rw [update_of_ne (Ne.symm hroot)]
    exact h.root_alive.2
  · by_cases hcp : c = p
    · subst hcp
      rw [update_self]
      refine iff_of_false (fun hc => ?_) nofun
      by_cases hqt : q = t
      · subst hqt
        rw [update_self] at hc
        exact (h.nodup q).not_mem_erase hc
      · rw [update_of_ne hqt, h.mem_iff, hparent] at hc
        exact hqt (Option.some.inj hc.1).symm
    · rw [update_of_ne hcp, ← h.mem_iff]
      by_cases hqt : q = t
      · subst hqt
        rw [update_self, List.mem_erase_of_ne hcp]
      · rw [update_of_ne hqt]
  · have hcp : c ≠ p := by
      rintro rfl
      simp at hc
    rw [update_of_ne hcp] at hc ⊢
    exact h.started c hc
  · by_cases hcp : c = p
    · rw [hcp, update_self]
    · rw [update_of_ne hcp] at hc ⊢
      exact h.gone c hc

/-- The children of `p` become children of `r`. -/
theorem handOver {l : List P} (h : Links root none life parent children) (hp : p ≠ root)
    (hr : life r = .alive) (hrp : r ≠ p) (hmem : r ∉ children p)
    (hl : l.Perm (children p ++ children r)) :
    Links root (some p) life (fun c => if c ∈ children p then some r else parent c)
      (update (update children r l) p []) := by
  have hcases : ∀ c q, (if c ∈ children p then some r else parent c) = some q →
      (c ∈ children p ∧ q = r) ∨ (c ∉ children p ∧ parent c = some q) := by
    intro c q hc
    split at hc
    · rename_i hin
      exact Or.inl ⟨hin, (Option.some.inj hc).symm⟩
    · rename_i hout
      exact Or.inr ⟨hout, hc⟩
  -- nobody is left with `p` as the parent, but for the root process
  have hnone : ∀ c, c ∉ children p → parent c ≠ some p := by
    intro c hc hparent
    by_cases hcr : c = root
    · rw [hcr, h.root_alive.2] at hparent
      exact hp (Option.some.inj hparent).symm
    · exact hc ((h.mem_iff p c).2 ⟨hparent, hcr⟩)
  refine ⟨⟨h.root_alive.1, ?_⟩, fun q c => ?_, fun q => ?_, fun c q hc hcr => ?_,
    fun c q hc => ?_, fun c hc => ?_, fun c hc => ?_⟩
  · rw [if_neg fun hmem => ((h.mem_iff p root).1 hmem).2 rfl]
    exact h.root_alive.2
  · by_cases hqp : q = p
    · subst hqp
      rw [update_self]
      refine iff_of_false List.not_mem_nil fun hc => ?_
      rcases hcases c q hc.1 with ⟨-, heq⟩ | ⟨hout, hparent⟩
      · exact hrp heq.symm
      · exact hnone c hout hparent
    · rw [update_of_ne hqp]
      by_cases hin : c ∈ children p
      · obtain ⟨hparent, hroot⟩ := (h.mem_iff p c).1 hin
        rw [if_pos hin, Option.some.injEq]
        by_cases hqr : q = r
        · subst hqr
          rw [update_self, hl.mem_iff, List.mem_append]
          exact iff_of_true (Or.inl hin) ⟨rfl, hroot⟩
        · rw [update_of_ne hqr, h.mem_iff, hparent, Option.some.injEq]
          exact iff_of_false (fun hc => hqp hc.1.symm) fun hc => hqr hc.1.symm
      · rw [if_neg hin, ← h.mem_iff]
        by_cases hqr : q = r
        · subst hqr
          rw [update_self, hl.mem_iff, List.mem_append, or_iff_right hin]
        · rw [update_of_ne hqr]
  · rw [update_apply]
    split_ifs with hqp
    · exact List.nodup_nil
    · by_cases hqr : q = r
      · subst hqr
        rw [update_self, hl.nodup_iff]
        refine (h.nodup p).append (h.nodup q) fun c hcp hcq => hqp ?_
        have heq := ((h.mem_iff p c).1 hcp).1.symm.trans ((h.mem_iff q c).1 hcq).1
        exact (Option.some.inj heq).symm
      · rw [update_of_ne hqr]
        exact h.nodup q
  · rcases hcases c q hc with ⟨hin, rfl⟩ | ⟨-, hc⟩
    · rintro rfl
      exact hmem hin
    · exact h.ne_parent c q hc hcr
  · rcases hcases c q hc with ⟨hin, rfl⟩ | ⟨hout, hc⟩
    · exact ⟨hr, fun heq => hrp (Option.some.inj heq).symm⟩
    · refine ⟨(h.parent_alive c q hc).1, ?_⟩
      rintro heq
      obtain rfl := Option.some.inj heq
      exact hnone c hout hc
  · split
    · exact nofun
    · exact h.started c hc
  · rw [if_neg fun hin => ?_]
    · exact h.gone c hc
    · rw [h.mem_iff, h.gone c hc] at hin
      cases hin.1

end Links

/-- The root process of a container is in it, and there before anybody
else; its own parent is outside. -/
structure Homes (root : P) (rootC : C) (ex : Option P) (life : P → Life) (parent : P → Option P)
    (container : P → C) (rootproc : C → Option P) : Prop where
  root_home : rootproc rootC = some root ∧ life root = .alive
  home : ∀ p, life p = .alive ∨ life p = .unused →
    ∃ r, rootproc (container p) = some r ∧ (r = p ∨ life r = .alive)
  inside : ∀ c r, rootproc c = some r → container r = c ∧
    (life r = .alive ∨ life r = .unused) ∧ ex ≠ some r ∧ parent r ≠ none
  above : ∀ c r q, rootproc c = some r → r ≠ root → parent r = some q → container q ≠ c

namespace Homes

variable {container : P → C} {rootproc : C → Option P}

/-- A root process has been created and does not leave. -/
theorem ne_rootproc (h : Homes root rootC ex life parent container rootproc)
    (hp : parent p = none ∨ life p = .zombie ∨ life p = .absent ∨ ex = some p) (c : C) :
    rootproc c ≠ some p := by
  intro hc
  obtain ⟨-, hlife, hex, hparent⟩ := h.inside c p hc
  rcases hp with hp | hp | hp | hp
  · exact hparent hp
  · rcases hlife with hlife | hlife <;> rw [hp] at hlife <;> cases hlife
  · rcases hlife with hlife | hlife <;> rw [hp] at hlife <;> cases hlife
  · exact hex hp

/-- The root process of the container of a living process is alive. -/
theorem exists_alive (h : Homes root rootC ex life parent container rootproc)
    (hp : life p = .alive) : ∃ r, rootproc (container p) = some r ∧ life r = .alive := by
  obtain ⟨r, hr, rfl | halive⟩ := h.home p (Or.inl hp)
  · exact ⟨r, hr, hp⟩
  · exact ⟨r, hr, halive⟩

/-- The children of `p` become children of the root process of its
container. -/
theorem handOver {l : List P} [DecidableEq P] (h : Homes root rootC none life parent container rootproc)
    (hr : rootproc (container p) = some r) (hrp : r ≠ p) (hl : ∀ c ∈ l, parent c = some p) :
    Homes root rootC (some p) life (fun c => if c ∈ l then some r else parent c) container
      rootproc := by
  refine ⟨h.root_home, h.home, fun c r' hr' => ?_, fun c r' q hr' hroot hq => ?_⟩
  · obtain ⟨hin, hlife, -, hparent⟩ := h.inside c r' hr'
    refine ⟨hin, hlife, fun heq => ?_, ?_⟩
    · obtain rfl := Option.some.inj heq
      rw [← hin, hr] at hr'
      exact hrp (Option.some.inj hr')
    · split
      · exact nofun
      · exact hparent
  · split_ifs at hq with hmem
    · obtain rfl := Option.some.inj hq
      rw [(h.inside _ r hr).1]
      exact h.above c r' p hr' hroot (hl r' hmem)
    · exact h.above c r' q hr' hroot hq

variable [DecidableEq P]

variable (h : Homes root rootC ex life parent container rootproc)

include h

/-- The parent of a process that is no root process changes. -/
theorem setParent {v : Option P} (hp : ∀ c, rootproc c ≠ some p) :
    Homes root rootC ex life (update parent p v) container rootproc := by
  have hne : ∀ c r, rootproc c = some r → r ≠ p := by
    rintro c r hr rfl
    exact hp c hr
  refine { h with
    inside := fun c r hr => ?_
    above := fun c r q hr hrr hq => ?_ }
  · rw [update_of_ne (hne c r hr)]
    exact h.inside c r hr
  · rw [update_of_ne (hne c r hr)] at hq
    exact h.above c r q hr hrr hq

/-- A process is started. -/
theorem start (hp : life p = .unused) :
    Homes root rootC ex (update life p .alive) parent container rootproc := by
  have halive : ∀ {c}, life c = .alive → update life p .alive c = .alive :=
    update_eq_of_ne (by rw [hp]; exact nofun)
  refine { h with
    root_home := ⟨h.root_home.1, halive h.root_home.2⟩
    home := fun c hc => ?_
    inside := fun c r hr => ?_ }
  · have hc' : life c = .alive ∨ life c = .unused := by
      by_cases hcp : c = p
      · rw [hcp, hp]
        exact Or.inr rfl
      · rwa [update_of_ne hcp] at hc
    obtain ⟨r, hr, hcase⟩ := h.home c hc'
    exact ⟨r, hr, hcase.imp_right halive⟩
  · obtain ⟨hin, hlife, hrest⟩ := h.inside c r hr
    refine ⟨hin, ?_, hrest⟩
    rw [update_apply]
    split_ifs
    · exact Or.inl rfl
    · exact hlife

/-- A process that is no root process becomes a zombie or is reaped. -/
theorem retire {l : Life} {ex' : Option P} (hp : ∀ c, rootproc c ≠ some p)
    (hl : l ≠ .alive ∧ l ≠ .unused) (hex : ex' = ex ∨ ex' = none) :
    Homes root rootC ex' (update life p l) parent container rootproc := by
  have hne : ∀ c r, rootproc c = some r → r ≠ p := by
    rintro c r hr rfl
    exact hp c hr
  refine { h with
    root_home := ⟨h.root_home.1, ?_⟩
    home := fun c hc => ?_
    inside := fun c r hr => ?_ }
  · rw [update_of_ne (hne _ _ h.root_home.1)]
    exact h.root_home.2
  · have hcp : c ≠ p := by
      rintro rfl
      rw [update_self] at hc
      exact hc.elim hl.1 hl.2
    rw [update_of_ne hcp] at hc
    obtain ⟨r, hr, hcase⟩ := h.home c hc
    refine ⟨r, hr, ?_⟩
    rwa [update_of_ne (hne _ r hr)]
  · obtain ⟨hin, hlife, hexr, hparent⟩ := h.inside c r hr
    rw [update_of_ne (hne c r hr)]
    refine ⟨hin, hlife, ?_, hparent⟩
    rcases hex with rfl | rfl
    · exact hexr
    · exact nofun

/-- A process is allocated, in the root container. -/
theorem create (hp : life p = .absent) (hchild : ∀ r, parent r ≠ some p) :
    Homes root rootC ex (update life p .unused) parent
      (update container p rootC) rootproc := by
  have hne : ∀ c r, rootproc c = some r → r ≠ p := by
    rintro c r hr rfl
    exact h.ne_rootproc (Or.inr (Or.inr (Or.inl hp))) c hr
  have hroot : root ≠ p := hne _ _ h.root_home.1
  refine ⟨⟨h.root_home.1, ?_⟩, fun c hc => ?_, fun c r hr => ?_, fun c r q hr hrr hq => ?_⟩
  · rw [update_of_ne hroot]
    exact h.root_home.2
  · by_cases hcp : c = p
    · subst hcp
      rw [update_self]
      refine ⟨root, h.root_home.1, Or.inr ?_⟩
      rw [update_of_ne hroot]
      exact h.root_home.2
    · rw [update_of_ne hcp] at hc ⊢
      obtain ⟨r, hr, hcase⟩ := h.home c hc
      refine ⟨r, hr, ?_⟩
      rwa [update_of_ne (hne _ r hr)]
  · rw [update_of_ne (hne c r hr), update_of_ne (hne c r hr)]
    exact h.inside c r hr
  · rw [update_of_ne]
    · exact h.above c r q hr hrr hq
    · rintro rfl
      exact hchild r hq

/-- A process that is no root process changes its container. -/
theorem setContainer (hp : ∀ c, rootproc c ≠ some p) (ht : life t = .alive)
    (hchild : ∀ r, parent r ≠ some p) :
    Homes root rootC ex life parent (update container p (container t)) rootproc := by
  refine { h with
    home := fun c hc => ?_
    inside := fun c r hr => ?_
    above := fun c r q hr hrr hq => ?_ }
  · by_cases hcp : c = p
    · subst hcp
      rw [update_self]
      obtain ⟨r, hr, halive⟩ := h.exists_alive ht
      exact ⟨r, hr, Or.inr halive⟩
    · rw [update_of_ne hcp]
      exact h.home c hc
  · rw [update_of_ne]
    · exact h.inside c r hr
    · rintro rfl
      exact hp c hr
  · rw [update_of_ne]
    · exact h.above c r q hr hrr hq
    · rintro rfl
      exact hchild r hq

variable [DecidableEq C]

/-- A process becomes the root process of a new container. -/
theorem newContainer {c₀ : C} (hc₀ : rootproc c₀ = none) (hp : life p = .unused)
    (hnot : ∀ c, rootproc c ≠ some p) (hparent : parent p = some t) (ht : life t = .alive)
    (hex : ex ≠ some p) (hchild : ∀ r, parent r ≠ some p) :
    Homes root rootC ex life parent (update container p c₀)
      (update rootproc c₀ (some p)) := by
  have hold : ∀ c r, rootproc c = some r → c ≠ c₀ := fun c r hr => ne_of_values hr hc₀ nofun
  have hcases : ∀ c r, update rootproc c₀ (some p) c = some r →
      (c = c₀ ∧ r = p) ∨ (r ≠ p ∧ rootproc c = some r) := by
    intro c r hr
    rcases update_eq_cases hr with ⟨rfl, hp⟩ | ⟨-, hr'⟩
    · exact Or.inl ⟨rfl, (Option.some.inj hp).symm⟩
    · refine Or.inr ⟨?_, hr'⟩
      rintro rfl
      exact hnot c hr'
  refine ⟨⟨?_, h.root_home.2⟩, fun c hc => ?_, fun c r hr => ?_, fun c r q hr hrr hq => ?_⟩
  · rw [update_of_ne (hold _ _ h.root_home.1)]
    exact h.root_home.1
  · by_cases hcp : c = p
    · subst hcp
      rw [update_self, update_self]
      exact ⟨c, rfl, Or.inl rfl⟩
    · obtain ⟨r, hr, hcase⟩ := h.home c hc
      rw [update_of_ne hcp, update_of_ne (hold _ r hr)]
      exact ⟨r, hr, hcase⟩
  · rcases hcases c r hr with ⟨rfl, rfl⟩ | ⟨hrp, hr⟩
    · rw [update_self]
      exact ⟨rfl, Or.inr hp, hex, by rw [hparent]; exact nofun⟩
    · rw [update_of_ne hrp]
      exact h.inside c r hr
  · have hqp : q ≠ p := by
      rintro rfl
      exact hchild r hq
    rw [update_of_ne hqp]
    rcases hcases c r hr with ⟨rfl, rfl⟩ | ⟨-, hr⟩
    · obtain rfl := Option.mem_unique hparent hq
      obtain ⟨r', hr', -⟩ := h.exists_alive ht
      exact hold _ r' hr'
    · exact h.above c r q hr hrr hq

end Homes

end OsKernel.Proc
