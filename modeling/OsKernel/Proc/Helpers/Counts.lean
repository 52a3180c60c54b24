import OsKernel.Common.Tail
import OsKernel.Common.Update
import OsKernel.Proc.Helpers.Units

/-!
# Helpers — exited children and units

In the list of a process the exited children come last, and there are as
many of them as it has units of `childexit` (`Counts`). The section of
`exit` keeps this in two parts: the children are handed over
(`Counts.handOver`), and then the process itself goes to the end of its
parent's list (`Counts.toTail`). In between it has units for which it has
no children, so it is left out (`ex`).
-/

namespace OsKernel.Proc

open Function

variable {P : Type}

variable {p q r t c : P} {ex : Option P} {life : P → Life}
variable {children : P → List P}

/-- Not started yet. -/
def Life.isNew : Life → Bool
  | .absent | .unused => true
  | _ => false

/-- A process that is a zombie, or holds `schelock` on its way there. -/
def exitedOf [DecidableEq P] (life : P → Life) (sched : Option P) (p : P) : Bool :=
  life p = .zombie ∨ sched = some p

/-- The exited children are at the end of the lists, and there is a unit
for each of them. -/
structure Counts [DecidableEq P] (ex : Option P) (life : P → Life) (children : P → List P)
    (childexit : P → Semaphore P) (place : P → Place) (sched : Option P) : Prop where
  tail : ∀ q, TailOf (exitedOf life sched) (children q)
  sem : ∀ q, life q = .alive → SemOk (childexit q) (place q) q
  count : ∀ q, life q = .alive → ex ≠ some q →
    (children q).countP (exitedOf life sched) = tokens (childexit q) (place q) q
  fresh : ∀ q, (life q).isNew = true → childexit q = Semaphore.initSem 0 ∧ place q = .body
  waits : ∀ q, place q ≠ .body → life q = .alive ∧ ex ≠ some q
  leaving : ∀ p, ex = some p → life p = .alive
  sched : sched = none ∨ sched = ex

namespace Counts

variable [DecidableEq P] {childexit : P → Semaphore P} {place : P → Place} {sched : Option P}

/-- What `Counts` says of one process. -/
structure ProcOk (ex : Option P) (exited : P → Bool) (q : P) (life : Life) (children : List P)
    (childexit : Semaphore P) (place : Place) : Prop where
  tail : TailOf exited children
  sem : life = .alive → SemOk childexit place q
  count : life = .alive → ex ≠ some q → children.countP exited = tokens childexit place q
  fresh : life.isNew = true → childexit = Semaphore.initSem 0 ∧ place = .body
  waits : place ≠ .body → life = .alive ∧ ex ≠ some q

theorem of_procs (h : ∀ q, ProcOk ex (exitedOf life sched) q (life q) (children q) (childexit q)
    (place q)) (hex : ∀ p, ex = some p → life p = .alive) (hsched : sched = none ∨ sched = ex) :
    Counts ex life children childexit place sched :=
  ⟨fun q => (h q).tail, fun q => (h q).sem, fun q => (h q).count, fun q => (h q).fresh,
    fun q => (h q).waits, hex, hsched⟩

theorem proc (h : Counts ex life children childexit place sched) (q : P) :
    ProcOk ex (exitedOf life sched) q (life q) (children q) (childexit q) (place q) :=
  ⟨h.tail q, h.sem q, h.count q, h.fresh q, h.waits q⟩

section ProcOk

variable {exited exited' : P → Bool} {lf : Life} {l : List P} {sm : Semaphore P} {pl : Place}

/-- The same processes of the list have exited. -/
theorem ProcOk.congr (h : ProcOk ex exited q lf l sm pl) (hl : ∀ c ∈ l, exited' c = exited c) :
    ProcOk ex exited' q lf l sm pl := by
  refine { h with tail := h.tail.congr hl, count := fun ha hq => ?_ }
  rw [← h.count ha hq, List.countP_congr]
  intro c hc
  rw [hl c hc]

/-- Another process is leaving. -/
theorem ProcOk.leave {ex' : Option P} (h : ProcOk ex exited q lf l sm pl) (hex : ex ≠ some q)
    (hex' : ex' ≠ some q) : ProcOk ex' exited q lf l sm pl :=
  { h with count := fun ha _ => h.count ha hex, waits := fun hq => ⟨(h.waits hq).1, hex'⟩ }

end ProcOk

theorem not_exited (h : Counts ex life children childexit place sched) (hp : life p ≠ .zombie)
    (hp' : life p ≠ .alive) : exitedOf life sched p = false := by
  have hsched : sched ≠ some p := by
    intro hs
    rcases h.sched with hnone | hex
    · rw [hs] at hnone
      cases hnone
    · exact hp' (h.leaving p (hex.symm.trans hs))
  simp [exitedOf, hp, hsched]

/-- The lists of a process change, without an exited one more or less. -/
theorem adopt (h : Counts ex life children childexit place sched) (hp : life p = .unused) :
    Counts ex life (update children t (p :: children t)) childexit place sched := by
  have hnot := h.not_exited (p := p) (by rw [hp]; exact nofun) (by rw [hp]; exact nofun)
  refine of_procs (fun q => ?_) h.leaving h.sched
  have hq := h.proc q
  by_cases hqt : q = t
  · subst hqt
    rw [update_self]
    refine { hq with tail := hq.tail.cons hnot, count := fun ha hex => ?_ }
    rw [List.countP_cons_of_neg (by rw [hnot]; exact nofun)]
    exact hq.count ha hex
  · rw [update_of_ne hqt]
    exact hq

/-- A process that is not yet alive changes its state. -/
theorem exitedOf_update {l : Life} (hp : life p ≠ .zombie) (hl : l ≠ .zombie) :
    exitedOf (update life p l) sched = exitedOf life sched := by
  funext q
  by_cases hqp : q = p
  · subst hqp
    simp [exitedOf, hp, hl]
  · simp [exitedOf, hqp]

/-- A process is allocated. -/
theorem create (h : Counts ex life children childexit place sched) (hp : life p = .absent) :
    Counts ex (update life p .unused) children
      (update childexit p (Semaphore.initSem 0)) (update place p .body) sched := by
  have hexited : exitedOf (update life p .unused) sched = exitedOf life sched :=
    exitedOf_update (by rw [hp]; exact nofun) nofun
  refine of_procs (fun q => ?_)
    (fun q hq => update_eq_of_ne (by rw [hp]; exact nofun) (h.leaving q hq)) h.sched
  rw [hexited]
  by_cases hqp : q = p
  · subst hqp
    rw [update_self, update_self, update_self]
    exact ⟨h.tail q, nofun, nofun, fun _ => ⟨rfl, rfl⟩, fun hbody => absurd rfl hbody⟩
  · rw [update_of_ne hqp, update_of_ne hqp, update_of_ne hqp]
    exact h.proc q

/-- A process is started. -/
theorem start (h : Counts ex life children childexit place sched) (hp : life p = .unused)
    (hnil : children p = []) : Counts ex (update life p .alive) children childexit place
      sched := by
  have hexited : exitedOf (update life p .alive) sched = exitedOf life sched :=
    exitedOf_update (by rw [hp]; exact nofun) nofun
  refine of_procs (fun q => ?_)
    (fun q hq => update_eq_of_ne (by rw [hp]; exact nofun) (h.leaving q hq)) h.sched
  rw [hexited]
  by_cases hqp : q = p
  · subst hqp
    obtain ⟨hsem, hbody⟩ := h.fresh q (by rw [hp]; rfl)
    rw [update_self, hnil, hsem, hbody]
    exact ⟨TailOf.nil, fun _ => semOk_init, fun _ _ => rfl, nofun, fun hbody => absurd rfl hbody⟩
  · rw [update_of_ne hqp]
    exact h.proc q

/-- A step of `wait` that keeps the units of the process. -/
theorem setSem {sem : Semaphore P} {pc : Place} (h : Counts ex life children childexit place sched)
    (ht : life t = .alive) (hex : ex ≠ some t) (hok : SemOk sem pc t)
    (htok : tokens sem pc t = tokens (childexit t) (place t) t) :
    Counts ex life children (update childexit t sem) (update place t pc) sched := by
  refine of_procs (fun q => ?_) h.leaving h.sched
  by_cases hqt : q = t
  · subst hqt
    rw [update_self, update_self]
    exact ⟨h.tail q, fun _ => hok, fun ha hx => (h.count q ha hx).trans htok.symm,
      by rw [ht]; exact nofun, fun _ => ⟨ht, hex⟩⟩
  · rw [update_of_ne hqt, update_of_ne hqt]
    exact h.proc q

/-- The process that is leaving becomes a zombie. -/
theorem die (h : Counts (some p) life children childexit place (some p)) :
    Counts none (update life p .zombie) children childexit place none := by
  have hexited : exitedOf (update life p .zombie) none = exitedOf life (some p) := by
    funext q
    by_cases hqp : q = p
    · subst hqp
      simp [exitedOf]
    · simp [exitedOf, hqp, Ne.symm hqp]
  refine of_procs (fun q => ?_) nofun (Or.inl rfl)
  rw [hexited]
  by_cases hqp : q = p
  · subst hqp
    rw [update_self]
    exact ⟨h.tail q, nofun, nofun, nofun, fun hbody => absurd rfl (h.waits q hbody).2⟩
  · rw [update_of_ne hqp]
    exact (h.proc q).leave (fun heq => hqp (Option.some.inj heq).symm) nofun

/-- The children of `p` become children of `r`, with a unit for each zombie
among them. -/
theorem handOver {sem : Semaphore P} (h : Counts none life children childexit place none)
    (hp : life p = .alive) (hbody : place p = .body) (hrp : r ≠ p) (hr : life r = .alive)
    (hok : SemOk sem (place r) r)
    (htok : tokens sem (place r) r = tokens (childexit r) (place r) r +
      ((children p).filter fun c => life c = .zombie).length) :
    Counts (some p) life
      (update (update children r
        (((children p).filter fun c => life c ≠ .zombie).reverse ++ children r ++
          (children p).filter fun c => life c = .zombie)) p [])
      (update childexit r sem) place none := by
  have hlive : ∀ c ∈ ((children p).filter fun c => life c ≠ .zombie).reverse,
      exitedOf life none c = false := by
    intro c hc
    have hz := (List.mem_filter.1 (List.mem_reverse.1 hc)).2
    simpa [exitedOf] using hz
  have hdead : ∀ c ∈ (children p).filter fun c => life c = .zombie, exitedOf life none c = true := by
    intro c hc
    have hz := (List.mem_filter.1 hc).2
    simpa [exitedOf] using hz
  refine of_procs (fun q => ?_) (fun q hq => Option.some.inj hq ▸ hp) (Or.inl rfl)
  by_cases hqp : q = p
  · subst hqp
    rw [update_self, update_of_ne hrp.symm]
    exact ⟨TailOf.nil, h.sem q, fun _ hq => absurd rfl hq, h.fresh q, fun hq => absurd hbody hq⟩
  · rw [update_of_ne hqp]
    have hex : some p ≠ some q := fun heq => hqp (Option.some.inj heq).symm
    by_cases hqr : q = r
    · subst hqr
      rw [update_self, update_self]
      refine ⟨(h.tail q).extend hlive hdead, fun _ => hok, fun hq _ => ?_, by rw [hr]; exact nofun,
        fun _ => ⟨hr, hex⟩⟩
      rw [List.countP_append, List.countP_append,
        List.countP_eq_zero.2 fun c hc => by rw [hlive c hc]; exact nofun,
        List.countP_eq_length.2 hdead, h.count q hq nofun, htok]
      omega
    · rw [update_of_ne hqr, update_of_ne hqr]
      exact (h.proc q).leave nofun hex

/-- The process that is leaving goes to the end of its parent's list, with
a unit for it, and takes `schelock`. -/
theorem toTail {sem : Semaphore P} (h : Counts (some p) life children childexit place none)
    (hmem : ∀ x, p ∈ children x ↔ x = q) (hnodup : (children q).Nodup) (hq : life q = .alive)
    (hqp : q ≠ p) (hok : SemOk sem (place q) q)
    (htok : tokens sem (place q) q = tokens (childexit q) (place q) q + 1) :
    Counts (some p) life (update children q ((children q).erase p ++ [p]))
      (update childexit q sem) place (some p) := by
  have hpz : life p = .alive := h.leaving p rfl
  -- in lists without `p` the same processes have exited
  have hsame : ∀ c, c ≠ p → exitedOf life (some p) c = exitedOf life none c := by
    intro c hc
    simp [exitedOf, Ne.symm hc]
  have hself : exitedOf life (some p) p = true := by simp [exitedOf]
  have hself' : exitedOf life none p = false := by simp [exitedOf, hpz]
  have herase : ∀ c ∈ (children q).erase p, exitedOf life (some p) c = exitedOf life none c := by
    intro c hc
    refine hsame c ?_
    rintro rfl
    exact hnodup.not_mem_erase hc
  refine of_procs (fun x => ?_) h.leaving (Or.inr rfl)
  by_cases hxq : x = q
  · subst hxq
    rw [update_self, update_self]
    refine ⟨(((h.tail x).of_sublist List.erase_sublist).congr herase).append_singleton hself,
      fun _ => hok, fun hx hx' => ?_, by rw [hq]; exact nofun, h.waits x⟩
    have hcount := h.count x hx hx'
    rw [(List.perm_cons_erase ((hmem x).2 rfl)).countP_eq,
      List.countP_cons_of_neg (by rw [hself']; exact nofun)] at hcount
    rw [List.countP_append, List.countP_singleton, if_pos hself, htok, ← hcount, List.countP_congr]
    intro c hc
    rw [herase c hc]
  · rw [update_of_ne hxq, update_of_ne hxq]
    refine (h.proc x).congr fun c hc => hsame c ?_
    rintro rfl
    exact hxq ((hmem x).1 hc)

/-- A `wait` that has its unit finds a zombie at the end of the list. -/
theorem exists_zombie (h : Counts ex life children childexit place none) (ht : place t = .gotSem) :
    ∃ z, (children t).getLast? = some z ∧ life z = .zombie := by
  obtain ⟨halive, hex⟩ := h.waits t (by rw [ht]; exact nofun)
  have hcount := h.count t halive hex
  rw [ht, tokens_gotSem] at hcount
  obtain ⟨z, hz, hexited⟩ := (h.tail t).getLast (by omega)
  exact ⟨z, hz, by simpa [exitedOf] using hexited⟩

/-- A zombie is reaped. -/
theorem reap (h : Counts ex life children childexit place none) (ht : place t = .gotSem)
    (hp : life p = .zombie) (hmem : ∀ x, p ∈ children x ↔ x = t) (hnodup : (children t).Nodup) :
    Counts ex (update life p .reaped)
      (update children t ((children t).erase p)) childexit
      (update place t .body) none := by
  obtain ⟨halive, hex⟩ := h.waits t (by rw [ht]; exact nofun)
  have hsame : ∀ c, c ≠ p → exitedOf (update life p .reaped) none c =
      exitedOf life none c := by
    intro c hc
    simp [exitedOf, hc]
  have herase : ∀ c ∈ (children t).erase p,
      exitedOf (update life p .reaped) none c = exitedOf life none c := by
    intro c hc
    refine hsame c ?_
    rintro rfl
    exact hnodup.not_mem_erase hc
  have hkeep : ∀ {q}, life q = .alive → update life p .reaped q = .alive :=
    update_eq_of_ne (by rw [hp]; exact nofun)
  refine of_procs (fun x => ?_) (fun x hx => hkeep (h.leaving x hx)) h.sched
  by_cases hxt : x = t
  · subst hxt
    rw [update_self, update_self, hkeep halive]
    refine ⟨((h.tail x).of_sublist List.erase_sublist).congr herase,
      fun _ => (h.sem x halive).not_asleep (by rw [ht]; exact nofun), fun _ hx => ?_, nofun,
      fun hbody => absurd rfl hbody⟩
    have hcount := h.count x halive hx
    have hexited : exitedOf life none p = true := by simp [exitedOf, hp]
    rw [(List.perm_cons_erase ((hmem x).2 rfl)).countP_eq, List.countP_cons_of_pos hexited, ht,
      tokens_gotSem] at hcount
    rw [← Nat.add_right_cancel hcount, List.countP_congr]
    intro c hc
    rw [herase c hc]
  · rw [update_of_ne hxt, update_of_ne hxt]
    have hother := (h.proc x).congr fun c hc =>
      hsame c (by rintro rfl; exact hxt ((hmem x).1 hc))
    by_cases hxp : x = p
    · subst hxp
      rw [update_self]
      refine ⟨hother.tail, nofun, nofun, nofun, fun hbody => ?_⟩
      rw [(h.waits x hbody).1] at hp
      cases hp
    · rw [update_of_ne hxp]
      exact hother

end Counts

end OsKernel.Proc
