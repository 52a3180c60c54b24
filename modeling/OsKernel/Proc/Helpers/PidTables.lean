import OsKernel.Proc.Helpers.PidMap

/-!
# The pid tables

What the tables have to do with the processes, apart from the process tree:
`GlobalOk` for `globalpidmap` and the hash table, `LocalOk` for the bitmaps of the
containers, with the `free_pid` of a `wait` that has not been written yet.
-/

namespace OsKernel.Proc

open Function

variable {P C : Type} [DecidableEq P] [DecidableEq C]

/-! ## The global pids -/

/-- The live processes have different pids, whose bits are set, and are in the
hash table. -/
structure GlobalOk (live : P → Prop) (pid hashpid : P → ℤ) (m : PidMap) (bullet : ℤ → List P) :
    Prop where
  ok : m.Ok
  range : ∀ p, live p → ∃ i : ℕ, i < 256 ∧ pid p = i
  inj : ∀ p q, live p → live q → pid p = pid q → p = q
  bit : ∀ i : ℕ, i < 256 → (m.bitmap.get i = true ↔ ∃ p, live p ∧ pid p = i)
  key : ∀ p, live p → hashpid p = pid p
  holds : HashMap.Holds bullet live fun p => hash (hashpid p)

namespace GlobalOk

variable {live live' : P → Prop} {pid hashpid : P → ℤ} {m : PidMap} {bullet : ℤ → List P} {p z : P}

section

variable (h : GlobalOk live pid hashpid m bullet)

include h

section

omit [DecidableEq P]

/-- Only the pids of those who are live matter. -/
theorem congr_pid {pid' hashpid' : P → ℤ} (hlive : ∀ p, live' p ↔ live p)
    (hpid : ∀ p, live p → pid' p = pid p) (hkey : ∀ p, live p → hashpid' p = hashpid p) :
    GlobalOk live' pid' hashpid' m bullet := by
  obtain rfl : live' = live := funext fun p => propext (hlive p)
  refine ⟨h.ok, fun p hp => ?_, fun p q hp hq heq => ?_, fun i hi => ?_, fun p hp => ?_,
    h.holds.nodup, fun b p => ?_⟩
  · rw [hpid p hp]
    exact h.range p hp
  · rw [hpid p hp, hpid q hq] at heq
    exact h.inj p q hp hq heq
  · rw [h.bit i hi]
    exact exists_congr fun p => and_congr_right fun hp => by rw [hpid p hp]
  · rw [hkey p hp, hpid p hp, h.key p hp]
  · rw [h.holds.mem_iff]
    exact and_congr_right fun hp => by rw [hkey p hp]

theorem congr (hlive : ∀ p, live' p ↔ live p) : GlobalOk live' pid hashpid m bullet :=
  h.congr_pid hlive (fun _ _ => rfl) fun _ _ => rfl

/-- A live process is found by its pid. -/
theorem lookup_of_live (hp : live p) :
    HashMap.lookup bullet (hash (pid p)) hashpid (pid p) = some p := by
  rw [← h.key p hp]
  refine h.holds.lookup_of_mem hp fun q hq hkey => h.inj q p hq hp ?_
  rw [← h.key q hq, ← h.key p hp, hkey]

/-- No other pid is found. -/
theorem lookup_eq_none {k : ℤ} (hk : ∀ p, live p → pid p ≠ k) :
    HashMap.lookup bullet (hash k) hashpid k = none :=
  h.holds.lookup_eq_none fun p hp => (h.key p hp).symm ▸ hk p hp

end

/-- **A process is created.** -/
theorem create (hp : ¬live p) {i : ℕ} (hi : i < 256) (hclear : m.bitmap.get i = false) :
    GlobalOk (fun q => live q ∨ q = p) (update pid p i) (update hashpid p i)
      ⟨m.bitmap.set i, i⟩ (HashMap.insert bullet (hash i) p).2 := by
  have hne : ∀ {q}, live q → q ≠ p := by
    rintro q hq rfl
    exact hp hq
  have hfree : ∀ q, live q → pid q ≠ i := fun q hq heq => by
    have hset := (h.bit i hi).2 ⟨q, hq, heq⟩
    rw [hclear] at hset
    cases hset
  refine ⟨PidMap.ok_of_lt hi _, ?_, ?_, fun j hj => ?_, ?_, ?_⟩
  · rintro q (hq | rfl)
    · rw [update_of_ne (hne hq)]
      exact h.range q hq
    · exact ⟨i, hi, update_self _ _ _⟩
  · rintro q q' (hq | rfl) (hq' | rfl) heq
    · rw [update_of_ne (hne hq), update_of_ne (hne hq')] at heq
      exact h.inj q q' hq hq' heq
    · rw [update_of_ne (hne hq), update_self] at heq
      exact absurd heq (hfree q hq)
    · rw [update_of_ne (hne hq'), update_self] at heq
      exact absurd heq.symm (hfree q' hq')
    · rfl
  · change (m.bitmap.set i).get j = true ↔ _
    rw [Cells.get_set, Bool.or_eq_true, decide_eq_true_iff, h.bit j hj]
    constructor
    · rintro (⟨q, hq, hqj⟩ | rfl)
      · exact ⟨q, .inl hq, (update_of_ne (hne hq) _ _).trans hqj⟩
      · exact ⟨p, .inr rfl, update_self _ _ _⟩
    · rintro ⟨q, hq | rfl, hqj⟩
      · rw [update_of_ne (hne hq)] at hqj
        exact .inl ⟨q, hq, hqj⟩
      · rw [update_self] at hqj
        exact .inr (by omega)
  · rintro q (hq | rfl)
    · rw [update_of_ne (hne hq), update_of_ne (hne hq)]
      exact h.key q hq
    · rw [update_self, update_self]
  · have hbucket : ∀ q, live q →
        hash (update hashpid p (i : ℤ) q) = hash (hashpid q) := fun q hq => by
      rw [update_of_ne (hne hq)]
    simpa only [update_self] using h.holds.insert hp hbucket

/-- **A process is reaped.** -/
theorem reap (hz : live z) :
    GlobalOk (fun q => live q ∧ q ≠ z) pid hashpid (m.freePid (pid z))
      (HashMap.erase bullet (hash (hashpid z)) z) := by
  obtain ⟨i, hi, hzi⟩ := h.range z hz
  refine ⟨h.ok, fun q hq => h.range q hq.1, fun q q' hq hq' => h.inj q q' hq.1 hq'.1,
    fun j hj => ?_, fun q hq => h.key q hq.1, h.holds.erase z⟩
  change (m.bitmap.clear (pid z).toNat).get j = true ↔ _
  rw [Cells.get_clear, Bool.and_eq_true, h.bit j hj, hzi, Int.toNat_natCast,
    Bool.not_eq_true', decide_eq_false_iff_not]
  constructor
  · rintro ⟨⟨q, hq, hqj⟩, hne⟩
    refine ⟨q, ⟨hq, ?_⟩, hqj⟩
    rintro rfl
    omega
  · rintro ⟨q, ⟨hq, hqz⟩, hqj⟩
    refine ⟨⟨q, hq, hqj⟩, ?_⟩
    rintro rfl
    exact hqz (h.inj q z hq hz (hqj.trans hzi.symm))

end

end GlobalOk

/-! ## The local pids -/

/-- The processes that have a local pid have different ones in each container, and
the set bits are theirs, or that of a `free_pid` under way. -/
structure LocalOk (has : P → Prop) (container : P → C) (localpid : P → ℤ) (pidmap : C → PidMap)
    (freeing : Option (Freeing P C)) : Prop where
  ok : ∀ c, (pidmap c).Ok
  range : ∀ p, has p → ∃ i : ℕ, i < 256 ∧ localpid p = i
  inj : ∀ p q, has p → has q → container p = container q → localpid p = localpid q → p = q
  bit : ∀ c (i : ℕ), i < 256 → ((pidmap c).bitmap.get i = true ↔
    (∃ p, has p ∧ container p = c ∧ localpid p = i) ∨
      ∃ f ∈ freeing, f.container = c ∧ f.pid = i)
  /-- The cell is as it was read, and the pid is nobody's. -/
  pending : ∀ f ∈ freeing, f.pid < 256 ∧ f.cell = (pidmap f.container).bitmap (f.pid / 64) ∧
    ∀ p, has p → container p = f.container → localpid p ≠ f.pid

namespace LocalOk

variable {has has' : P → Prop} {container container' : P → C} {localpid : P → ℤ}
variable {pidmap : C → PidMap} {freeing : Option (Freeing P C)} {p z : P} {c : C}

omit [DecidableEq P] [DecidableEq C] in
/-- Only the containers of those who have a local pid matter. -/
theorem congr (h : LocalOk has container localpid pidmap freeing) (hhas : ∀ p, has' p ↔ has p)
    (hcont : ∀ p, has p → container' p = container p) :
    LocalOk has' container' localpid pidmap freeing := by
  have heq : has' = has := funext fun p => propext (hhas p)
  subst heq
  refine ⟨h.ok, h.range, fun p q hp hq hpq => ?_, fun c i hi => ?_, fun f hf => ?_⟩
  · rw [hcont p hp, hcont q hq] at hpq
    exact h.inj p q hp hq hpq
  · rw [h.bit c i hi]
    refine or_congr_left (exists_congr fun p => and_congr_right fun hp => ?_)
    rw [hcont p hp]
  · obtain ⟨hlt, hcell, hfree⟩ := h.pending f hf
    exact ⟨hlt, hcell, fun p hp hpc => hfree p hp ((hcont p hp) ▸ hpc)⟩

omit [DecidableEq P] in
/-- **A container is made**, that nobody is in. -/
theorem newContainer (h : LocalOk has container localpid pidmap freeing)
    (hnobody : ∀ p, has p → container p ≠ c) (hfreeing : ∀ f ∈ freeing, f.container ≠ c) :
    LocalOk has container localpid (update pidmap c .init) freeing := by
  refine ⟨fun d => ?_, h.range, h.inj, fun d i hi => ?_, fun f hf => ?_⟩
  · rw [update_apply]
    split_ifs
    · exact PidMap.ok_init
    · exact h.ok d
  · by_cases hd : d = c
    · subst hd
      rw [update_self]
      refine iff_of_false ?_ ?_
      · rw [show PidMap.init.bitmap.get i = false from Cells.get_empty i]
        exact nofun
      · rintro (⟨p, hp, hpc, -⟩ | ⟨f, hf, hfc, -⟩)
        · exact hnobody p hp hpc
        · exact hfreeing f hf hfc
    · rw [update_of_ne hd]
      exact h.bit d i hi
  · rw [update_of_ne (hfreeing f hf)]
    exact h.pending f hf

/-- **A process is started** in a container in which nothing is being freed. -/
theorem start (h : LocalOk has container localpid pidmap freeing) (hp : ¬has p) {i : ℕ}
    (hi : i < 256) (hclear : (pidmap (container p)).bitmap.get i = false)
    (hfreeing : ∀ f ∈ freeing, f.container ≠ container p) :
    LocalOk (fun q => has q ∨ q = p) container (update localpid p i)
      (update pidmap (container p) ⟨(pidmap (container p)).bitmap.set i, i⟩) freeing := by
  have hne : ∀ {q}, has q → q ≠ p := by
    rintro q hq rfl
    exact hp hq
  have hfree : ∀ q, has q → container q = container p → localpid q ≠ i := fun q hq hqc heq => by
    have hset := (h.bit (container p) i hi).2 (.inl ⟨q, hq, hqc, heq⟩)
    rw [hclear] at hset
    cases hset
  refine ⟨fun d => ?_, ?_, ?_, fun d j hj => ?_, fun f hf => ?_⟩
  · rw [update_apply]
    split_ifs
    · exact PidMap.ok_of_lt hi _
    · exact h.ok d
  · rintro q (hq | rfl)
    · rw [update_of_ne (hne hq)]
      exact h.range q hq
    · exact ⟨i, hi, update_self _ _ _⟩
  · rintro q q' (hq | rfl) (hq' | rfl) hcont heq
    · rw [update_of_ne (hne hq), update_of_ne (hne hq')] at heq
      exact h.inj q q' hq hq' hcont heq
    · rw [update_of_ne (hne hq), update_self] at heq
      exact absurd heq (hfree q hq hcont)
    · rw [update_of_ne (hne hq'), update_self] at heq
      exact absurd heq.symm (hfree q' hq' hcont.symm)
    · rfl
  · have hold : (∃ q, (has q ∨ q = p) ∧ container q = d ∧ update localpid p (i : ℤ) q = j) ↔
        (∃ q, has q ∧ container q = d ∧ localpid q = j) ∨ container p = d ∧ i = j := by
      constructor
      · rintro ⟨q, hq | rfl, hqd, hqj⟩
        · rw [update_of_ne (hne hq)] at hqj
          exact .inl ⟨q, hq, hqd, hqj⟩
        · rw [update_self] at hqj
          exact .inr ⟨hqd, by omega⟩
      · rintro (⟨q, hq, hqd, hqj⟩ | ⟨hpd, rfl⟩)
        · exact ⟨q, .inl hq, hqd, (update_of_ne (hne hq) _ _).trans hqj⟩
        · exact ⟨p, .inr rfl, hpd, update_self _ _ _⟩
    rw [hold]
    by_cases hd : d = container p
    · subst hd
      rw [update_self]
      change ((pidmap (container p)).bitmap.set i).get j = true ↔ _
      rw [Cells.get_set, Bool.or_eq_true, decide_eq_true_iff, h.bit _ j hj]
      simp only [true_and]
      rw [or_right_comm, eq_comm (a := j)]
    · rw [update_of_ne hd, h.bit d j hj]
      simp only [Ne.symm hd, false_and, or_false]
  · obtain ⟨hlt, hcell, hnobody⟩ := h.pending f hf
    rw [update_of_ne (hfreeing f hf)]
    refine ⟨hlt, hcell, ?_⟩
    rintro q (hq | rfl) hqc
    · rw [update_of_ne (hne hq)]
      exact hnobody q hq hqc
    · exact absurd hqc.symm (hfreeing f hf)

omit [DecidableEq P] [DecidableEq C] in
/-- **A process is reaped**: its cell is read. -/
theorem reap (h : LocalOk has container localpid pidmap none) (hz : has z) {i : ℕ} (hi : i < 256)
    (hzi : localpid z = i) (t : P) :
    LocalOk (fun q => has q ∧ q ≠ z) container localpid pidmap
      (some ⟨t, container z, i, (pidmap (container z)).bitmap (i / 64)⟩) := by
  have hfree : ∀ q, has q ∧ q ≠ z → container q = container z → localpid q ≠ i :=
    fun q hq hqc heq => hq.2 (h.inj q z hq.1 hz hqc (heq.trans hzi.symm))
  refine ⟨h.ok, fun q hq => h.range q hq.1, fun q q' hq hq' => h.inj q q' hq.1 hq'.1,
    fun d j hj => ?_, fun f hf => ?_⟩
  · rw [h.bit d j hj]
    constructor
    · rintro (⟨q, hq, hqd, hqj⟩ | ⟨f, hf, -⟩)
      · by_cases hqz : q = z
        · subst hqz
          exact .inr ⟨_, rfl, hqd, by change i = j; omega⟩
        · exact .inl ⟨q, ⟨hq, hqz⟩, hqd, hqj⟩
      · cases hf
    · rintro (⟨q, hq, hqd, hqj⟩ | ⟨f, hf, hfd, hfj⟩)
      · exact .inl ⟨q, hq.1, hqd, hqj⟩
      · obtain rfl := Option.some.inj hf
        refine .inl ⟨z, hz, hfd, hzi.trans ?_⟩
        exact congrArg Nat.cast hfj
  · obtain rfl := Option.some.inj hf
    exact ⟨hi, rfl, hfree⟩

omit [DecidableEq P] in
/-- **The cell is written.** -/
theorem write {f : Freeing P C} (h : LocalOk has container localpid pidmap (some f)) :
    LocalOk has container localpid
      (update pidmap f.container { pidmap f.container with
        bitmap := (pidmap f.container).bitmap.setCell (f.pid / 64) (Cells.without f.cell f.pid) })
      none := by
  obtain ⟨hlt, hcell, hnobody⟩ := h.pending f rfl
  have hclear : (pidmap f.container).bitmap.setCell (f.pid / 64) (Cells.without f.cell f.pid) =
      (pidmap f.container).bitmap.clear f.pid := by rw [hcell, Cells.clear]
  rw [hclear]
  refine ⟨fun d => ?_, h.range, h.inj, fun d j hj => ?_, by simp⟩
  · rw [update_apply]
    split_ifs
    · exact h.ok f.container
    · exact h.ok d
  · have hnone : ¬∃ g ∈ (none : Option (Freeing P C)), g.container = d ∧ g.pid = j := by
      rintro ⟨g, hg, -⟩
      cases hg
    rw [or_iff_left hnone]
    by_cases hd : d = f.container
    · subst hd
      rw [update_self]
      change ((pidmap f.container).bitmap.clear f.pid).get j = true ↔ _
      rw [Cells.get_clear, Bool.and_eq_true, h.bit _ j hj, Bool.not_eq_true',
        decide_eq_false_iff_not]
      constructor
      · rintro ⟨hp | ⟨g, hg, -, hgj⟩, hne⟩
        · exact hp
        · obtain rfl := Option.some.inj hg
          exact absurd hgj.symm hne
      · rintro ⟨p, hp, hpc, hpj⟩
        refine ⟨.inl ⟨p, hp, hpc, hpj⟩, ?_⟩
        rintro rfl
        exact hnobody p hp hpc hpj
    · rw [update_of_ne hd, h.bit d j hj]
      refine or_iff_left ?_
      rintro ⟨g, hg, hgd, -⟩
      obtain rfl := Option.some.inj hg
      exact hd hgd.symm

end LocalOk

end OsKernel.Proc
