import OsKernel.Proc.Model.Tree

/-!
# Helpers — the units of `childexit` and the loop of `exit`

The units of `childexit` are counted as `wait` consumes them: a unit taken
by a `wait_sem` belongs to the process until it has reaped a child
(`tokens`). The loop of `exit` hands the children over in one go
(`reparent_eq`).
-/

namespace OsKernel.Proc

open Function

variable {P C : Type}

/-! ## The units of `childexit` -/

section Units

variable {sem : Semaphore P} {pc : Place} {q : P}

/-- Nobody but the process itself sleeps on its `childexit`. -/
structure SemOk (sem : Semaphore P) (pc : Place) (q : P) : Prop where
  wf : sem.Wf
  sleeper : sem.sleeplist = [] ∨ (sem.sleeplist = [q] ∧ pc = .asleep)

theorem semOk_init : SemOk (Semaphore.initSem 0) pc q :=
  ⟨Semaphore.wf_initSem (le_refl 0), Or.inl rfl⟩

theorem SemOk.up (h : SemOk sem .asleep q) (hup : q ∉ sem.sleeplist) : SemOk sem .gotSem q := by
  refine ⟨h.wf, Or.inl ?_⟩
  rcases h.sleeper with hnil | ⟨hq, -⟩
  · exact hnil
  · rw [hq] at hup
    exact absurd (List.mem_singleton_self q) hup

theorem SemOk.not_asleep {pc' : Place} (h : SemOk sem pc q) (hpc : pc ≠ .asleep) :
    SemOk sem pc' q :=
  ⟨h.wf, Or.inl (h.sleeper.resolve_right fun hq => hpc hq.2)⟩

variable [DecidableEq P]

/-- The units that are not yet consumed by a `wait` that has returned. -/
def tokens (sem : Semaphore P) (pc : Place) (q : P) : ℕ :=
  sem.val.toNat + if pc = .gotSem ∨ (pc = .asleep ∧ q ∉ sem.sleeplist) then 1 else 0

/-- `post_sem` adds a unit. -/
theorem SemOk.post (h : SemOk sem pc q) :
    ∃ r, sem.postSem = some r ∧ SemOk r.1 pc q ∧ tokens r.1 pc q = tokens sem pc q + 1 := by
  rcases Semaphore.postSem_cases h.wf with ⟨ts, t, hts, hval, heq⟩ | ⟨hts, hval, heq⟩
  · -- the sleeper is the process itself, which now has a unit
    rcases h.sleeper with hnil | ⟨hq, rfl⟩
    · rw [hnil] at hts
      simp at hts
    · rw [hq] at hts
      obtain ⟨rfl, rfl⟩ : ts = [] ∧ t = q := by
        cases ts with
        | nil => exact ⟨rfl, by simpa using hts.symm⟩
        | cons => simp at hts
      refine ⟨_, heq, ⟨Semaphore.wf_postSem h.wf heq, Or.inl rfl⟩, ?_⟩
      simp only [tokens, hq]
      simp
      omega
  · refine ⟨_, heq, ⟨Semaphore.wf_postSem h.wf heq, h.sleeper⟩, ?_⟩
    simp only [tokens]
    omega

/-- `wait_sem` takes a unit or goes to sleep without one. -/
theorem SemOk.wait (h : SemOk sem .wantSem q) :
    SemOk (sem.waitSem q) (if 0 ≤ sem.val - 1 then .gotSem else .asleep) q ∧
      tokens (sem.waitSem q) (if 0 ≤ sem.val - 1 then .gotSem else .asleep) q =
        tokens sem .wantSem q := by
  have hnil : sem.sleeplist = [] := by
    rcases h.sleeper with hnil | ⟨-, hpc⟩
    · exact hnil
    · cases hpc
  have hwf := Semaphore.wf_waitSem (t := q) h.wf
  unfold Semaphore.waitSem at hwf ⊢
  by_cases hval : 0 ≤ sem.val - 1
  · rw [if_pos hval] at hwf
    rw [if_pos hval, if_pos hval]
    refine ⟨⟨hwf, Or.inl hnil⟩, ?_⟩
    simp only [tokens, true_or, if_true, reduceCtorEq, false_and, or_self, if_false]
    omega
  · rw [if_neg hval] at hwf
    rw [if_neg hval, if_neg hval, hnil]
    rw [hnil] at hwf
    refine ⟨⟨hwf, Or.inr ⟨rfl, rfl⟩⟩, ?_⟩
    simp only [tokens, reduceCtorEq, List.mem_singleton, not_true_eq_false, and_false, or_self,
      if_false, false_and]
    omega

/-- A process that has been posted has a unit. -/
theorem tokens_of_up (h : q ∉ sem.sleeplist) : tokens sem .gotSem q = tokens sem .asleep q := by
  simp [tokens, h]

/-- A process that is alerted leaves without a unit. -/
theorem SemOk.cancel (h : SemOk sem .asleep q) (hmem : q ∈ sem.sleeplist) :
    ∃ sem', sem.cancelWait q = some sem' ∧ SemOk sem' .body q ∧
      tokens sem' .body q = tokens sem .asleep q := by
  obtain ⟨hval, heq⟩ := Semaphore.cancelWait_of_mem h.wf hmem
  have hq : sem.sleeplist = [q] := by
    rcases h.sleeper with hnil | ⟨hq, -⟩
    · rw [hnil] at hmem
      cases hmem
    · exact hq
  refine ⟨_, heq, ⟨Semaphore.wf_cancelWait h.wf hmem heq, Or.inl ?_⟩, ?_⟩
  · rw [hq, List.erase_cons_head]
  · simp only [tokens, reduceCtorEq, hmem, not_true_eq_false, and_false, or_self, if_false,
      false_and]
    omega

/-- Returning from `wait` with a child consumes the unit. -/
theorem tokens_gotSem : tokens sem .gotSem q = tokens sem .body q + 1 := by
  simp [tokens]

theorem tokens_eq_of_not_asleep {pc' : Place} (hpc : pc ≠ .asleep ∧ pc ≠ .gotSem)
    (hpc' : pc' ≠ .asleep ∧ pc' ≠ .gotSem) : tokens sem pc' q = tokens sem pc q := by
  simp [tokens, hpc.1, hpc.2, hpc'.1, hpc'.2]

end Units

namespace Tree

variable [DecidableEq P] {s : Tree P C} {p r : P}

/-! ## The loop of `exit` -/

/-- The children `ps` handed over to `r`, with what the posts have made of
its semaphore: the living ones come to the front, in the opposite order,
and the zombies to the end. -/
def handed (s : Tree P C) (r : P) (ps : List P) (sem : Semaphore P) : Tree P C :=
  { s with
    parent := fun p => if p ∈ ps then some r else s.parent p
    children := update s.children r
      ((ps.filter fun p => s.life p ≠ .zombie).reverse ++ s.children r ++
        ps.filter fun p => s.life p = .zombie)
    childexit := update s.childexit r sem }

theorem handed_nil (s : Tree P C) (r : P) : s.handed r [] (s.childexit r) = s := by
  simp [handed]

theorem handed_cons_zombie {ps : List P} {sem sem₁ : Semaphore P} (hz : s.life p = .zombie) :
    ({ s with
      parent := update s.parent p (some r)
      children := update s.children r (s.children r ++ [p])
      childexit := update s.childexit r sem₁ } : Tree P C).handed r ps sem =
    s.handed r (p :: ps) sem := by
  unfold handed
  have hparent : (fun x => if x ∈ ps then some r else update s.parent p (some r) x) =
      fun x => if x ∈ p :: ps then some r else s.parent x := by
    funext x
    by_cases hx : x = p
    · subst hx
      simp
    · simp [hx]
  simp [hparent, hz]

theorem handed_cons_alive {ps : List P} {sem : Semaphore P} (hz : s.life p ≠ .zombie) :
    (s.adopt r p).handed r ps sem = s.handed r (p :: ps) sem := by
  unfold handed adopt
  have hparent : (fun x => if x ∈ ps then some r else update s.parent p (some r) x) =
      fun x => if x ∈ p :: ps then some r else s.parent x := by
    funext x
    by_cases hx : x = p
    · subst hx
      simp
    · simp [hx]
  simp [hparent, hz]

/-- **What the loop of `exit` does**: it hands the children over, and each
zombie among them is a unit more. -/
theorem reparent_eq : ∀ (ps : List P) {s : Tree P C},
    SemOk (s.childexit r) (s.place r) r →
    ∃ sem, reparent r ps s = some (s.handed r ps sem) ∧ SemOk sem (s.place r) r ∧
      tokens sem (s.place r) r = tokens (s.childexit r) (s.place r) r +
        (ps.filter fun p => s.life p = .zombie).length
  | [], s, h => ⟨s.childexit r, by rw [handed_nil]; rfl, h, by simp⟩
  | p :: ps, s, h => by
    by_cases hz : s.life p = .zombie
    · obtain ⟨⟨sem₁, w⟩, hpost, hok₁, htok₁⟩ := h.post
      obtain ⟨sem, hrec, hok, htok⟩ := reparent_eq ps (s := { s with
        parent := update s.parent p (some r)
        children := update s.children r (s.children r ++ [p])
        childexit := update s.childexit r sem₁ })
        (by simpa using hok₁)
      refine ⟨sem, ?_, hok, ?_⟩
      · rw [reparent, if_pos hz, post, hpost, Option.map_some, Option.bind_some, hrec,
          handed_cons_zombie hz]
      · rw [List.filter_cons_of_pos (by simpa using hz), List.length_cons]
        simp only [update_self] at htok htok₁
        omega
    · obtain ⟨sem, hrec, hok, htok⟩ := reparent_eq ps (s := s.adopt r p) h
      refine ⟨sem, ?_, hok, ?_⟩
      · rw [reparent, if_neg hz, hrec, handed_cons_alive hz]
      · rw [List.filter_cons_of_neg (by simpa using hz)]
        exact htok

end Tree

end OsKernel.Proc
