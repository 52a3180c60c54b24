import Mathlib

/-!
# Runs of a step function

A system is given by its step function `step : σ → α → Option σ`: what
an action does in a state, or `none` where the action is not enabled.
Every choice the environment makes is part of the action, so a step is a
function and a run is determined by its start and its actions.

`Run step s₀ tr s` carries the trace of the run, the list of the pairs of
a state and the action taken in it. What a run has done is read off the
trace, so that the states carry no history of their own.

The three rules used everywhere else are here: an invariant kept by every
step holds at the end of a run (`Run.invariant`), also for an invariant
that reads the trace (`Run.traceInvariant`) or for runs whose steps obey
a side condition, and a step-by-step simulation lifts to runs
(`Run.simulate`).
-/

namespace OsKernel

variable {σ α τ β γ : Type*}

/-- A guarded step that is taken. -/
theorem of_guard {c : Prop} [Decidable c] {s t : σ} (h : (if c then some s else none) = some t) :
    c ∧ s = t := by
  simpa using h

/-- The same where the step may yet fail behind its guard. -/
theorem of_guarded {c : Prop} [Decidable c] {o : Option σ} {t : σ}
    (h : (if c then o else none) = some t) : c ∧ o = some t := by
  simpa using h

/-- The same where the guard stops the step. -/
theorem of_guard_not {c : Prop} [Decidable c] {s t : σ} (h : (if c then none else some s) = some t) :
    ¬c ∧ s = t := by
  simpa using h

/-- Two pairs that are returned are the same in both parts. -/
theorem pair_inj {a b : σ} {x y : τ} (h : some (a, x) = some (b, y)) : a = b ∧ x = y :=
  Prod.mk.inj (Option.some.inj h)

/-- **A run with its trace.** Each entry of the trace is a state of the
run and the action taken in it, the earliest first. -/
inductive Run (step : σ → α → Option σ) (s₀ : σ) : List (σ × α) → σ → Prop
  /-- The run that has taken no step. -/
  | nil : Run step s₀ [] s₀
  /-- A run extended by one enabled action. -/
  | snoc {tr : List (σ × α)} {s t : σ} {a : α} :
      Run step s₀ tr s → step s a = some t → Run step s₀ (tr ++ [(s, a)]) t

namespace Run

variable {step : σ → α → Option σ} {s₀ s t : σ} {tr tr' : List (σ × α)}

/-- A run of one step. -/
theorem single {a : α} (h : step s a = some t) : Run step s [(s, a)] t :=
  Run.snoc Run.nil h

/-- Runs compose. -/
theorem append (h : Run step s₀ tr s) (h' : Run step s tr' t) :
    Run step s₀ (tr ++ tr') t := by
  induction h' with
  | nil => simpa using h
  | snoc _ hstep ih =>
    rw [← List.append_assoc]
    exact Run.snoc ih hstep

/-- **The invariant rule, for an invariant that reads the trace.** -/
theorem traceInvariant {I : List (σ × α) → σ → Prop} (h : Run step s₀ tr s)
    (hinit : I [] s₀)
    (hstep : ∀ tr s a t, I tr s → step s a = some t → I (tr ++ [(s, a)]) t) : I tr s := by
  induction h with
  | nil => exact hinit
  | snoc _ hs ih => exact hstep _ _ _ _ ih hs

/-- **The invariant rule.** -/
theorem invariant {I : σ → Prop} (h : Run step s₀ tr s) (hinit : I s₀)
    (hstep : ∀ s a t, I s → step s a = some t → I t) : I s :=
  h.traceInvariant (I := fun _ s => I s) hinit fun _ s a t hI hs => hstep s a t hI hs

/-- **The invariant rule for runs whose steps obey a side condition**,
for an invariant that reads the trace. -/
theorem traceInvariantOf {K : σ → α → Prop} {I : List (σ × α) → σ → Prop}
    (h : Run step s₀ tr s) (hok : ∀ x ∈ tr, K x.1 x.2) (hinit : I [] s₀)
    (hstep : ∀ tr s a t, I tr s → K s a → step s a = some t → I (tr ++ [(s, a)]) t) :
    I tr s := by
  induction h with
  | nil => exact hinit
  | @snoc tr s t a _ hs ih =>
    refine hstep _ _ _ _ (ih fun x hx => hok x ?_) (hok (s, a) ?_) hs
    · exact List.mem_append_left _ hx
    · simp

/-- **The invariant rule for runs whose steps obey a side condition.** -/
theorem invariantOf {K : σ → α → Prop} {I : σ → Prop}
    (h : Run step s₀ tr s) (hok : ∀ x ∈ tr, K x.1 x.2) (hinit : I s₀)
    (hstep : ∀ s a t, I s → K s a → step s a = some t → I t) : I s :=
  h.traceInvariantOf (K := K) (I := fun _ s => I s) hok hinit
    fun _ s a t hI ho hs => hstep s a t hI ho hs

/-- A state of the trace is itself reached by a run, and its action is
enabled there. -/
theorem of_mem {x : σ × α} (h : Run step s₀ tr s) (hx : x ∈ tr) :
    ∃ tr' t, Run step s₀ tr' x.1 ∧ step x.1 x.2 = some t ∧ tr' <+: tr := by
  induction h with
  | nil => simp at hx
  | @snoc tr s t a h hs ih =>
    rcases List.mem_append.1 hx with hx | hx
    · obtain ⟨tr', u, hrun, hu, hpre⟩ := ih hx
      exact ⟨tr', u, hrun, hu, hpre.trans (List.prefix_append _ _)⟩
    · obtain rfl : x = (s, a) := by simpa using hx
      exact ⟨tr, t, h, hs, List.prefix_append _ _⟩

/-- The step of an entry of the trace leads to the end, or to a state of the
trace. -/
theorem next_of_mem {x : σ × α} (h : Run step s₀ tr s) (hx : x ∈ tr) :
    ∃ t, step x.1 x.2 = some t ∧ (t = s ∨ ∃ b, (t, b) ∈ tr) := by
  induction h with
  | nil => cases hx
  | @snoc tr s t a h hs ih =>
    rcases List.mem_append.1 hx with hx | hx
    · obtain ⟨u, hu, rfl | ⟨b, hb⟩⟩ := ih hx
      · exact ⟨u, hu, Or.inr ⟨a, by simp⟩⟩
      · exact ⟨u, hu, Or.inr ⟨b, List.mem_append_left _ hb⟩⟩
    · obtain rfl := List.mem_singleton.1 hx
      exact ⟨t, hs, Or.inl rfl⟩

/-- The part of a run before an entry of its trace. -/
theorem of_append_cons {x : σ × α} (h : Run step s₀ (tr ++ x :: tr') s) : Run step s₀ tr x.1 := by
  generalize hl : tr ++ x :: tr' = l at h
  induction h generalizing tr' with
  | nil => simp at hl
  | snoc h _ ih =>
    -- the last step is the entry, or comes after it
    rcases List.eq_nil_or_concat tr' with rfl | ⟨rest, y, rfl⟩
    · obtain ⟨rfl, hx⟩ := List.append_inj' hl rfl
      obtain rfl := (List.cons.inj hx).1
      exact h
    · rw [List.concat_eq_append, ← List.cons_append, ← List.append_assoc] at hl
      exact ih (List.append_inj' hl rfl).1

/-- **Simulation.** If every step out of a related pair is matched by a
run of the other system that makes the same observations and ends in a
related pair, then every run is. -/
theorem simulate {step' : τ → β → Option τ} {R : σ → τ → Prop}
    {obs : σ × α → List γ} {obs' : τ × β → List γ} {m₀ : τ} {K : σ → α → Prop}
    (h : Run step s₀ tr s) (hok : ∀ x ∈ tr, K x.1 x.2) (hinit : R s₀ m₀)
    (hstep : ∀ s a t m, R s m → K s a → step s a = some t →
      ∃ tr' m', Run step' m tr' m' ∧ R t m' ∧ tr'.flatMap obs' = obs (s, a)) :
    ∃ tr' m, Run step' m₀ tr' m ∧ R s m ∧ tr'.flatMap obs' = tr.flatMap obs := by
  refine h.traceInvariantOf (K := K)
    (I := fun tr s => ∃ tr' m, Run step' m₀ tr' m ∧ R s m ∧ tr'.flatMap obs' = tr.flatMap obs)
    hok ⟨[], m₀, Run.nil, hinit, rfl⟩ ?_
  rintro tr s a t ⟨tr₁, m, hrun, hR, hobs⟩ ho hs
  obtain ⟨tr₂, m', hrun', hR', hobs'⟩ := hstep s a t m hR ho hs
  refine ⟨tr₁ ++ tr₂, m', hrun.append hrun', hR', ?_⟩
  simp only [List.flatMap_append, List.flatMap_cons, List.flatMap_nil, List.append_nil, hobs, hobs']

end Run

/-! ## Executing a list of actions -/

/-- The state a list of actions leads to, where all of them are enabled. -/
def exec (step : σ → α → Option σ) (s : σ) : List α → Option σ
  | [] => some s
  | a :: as => (step s a).bind fun t => exec step t as

/-- The trace of a list of actions, as far as they are enabled. -/
def execTrace (step : σ → α → Option σ) (s : σ) : List α → List (σ × α)
  | [] => []
  | a :: as => (s, a) :: ((step s a).elim [] fun t => execTrace step t as)

/-- Executing enabled actions is a run. -/
theorem Run.of_exec {step : σ → α → Option σ} {s t : σ} {as : List α}
    (h : exec step s as = some t) : Run step s (execTrace step s as) t := by
  induction as generalizing s with
  | nil =>
    obtain rfl : s = t := by simpa [exec] using h
    exact Run.nil
  | cons a as ih =>
    simp only [exec, Option.bind_eq_some_iff] at h
    obtain ⟨u, hu, h⟩ := h
    have := (Run.single hu).append (ih h)
    simpa [execTrace, hu] using this

/-- The actions of the trace are those executed. -/
theorem map_snd_execTrace {step : σ → α → Option σ} {s t : σ} {as : List α}
    (h : exec step s as = some t) : (execTrace step s as).map Prod.snd = as := by
  induction as generalizing s with
  | nil => rfl
  | cons a as ih =>
    simp only [exec, Option.bind_eq_some_iff] at h
    obtain ⟨u, hu, h⟩ := h
    simp [execTrace, hu, ih h]

/-- What holds of the executed actions holds along the trace. -/
theorem forall_execTrace {step : σ → α → Option σ} {s t : σ} {as : List α} {P : α → Prop}
    (h : exec step s as = some t) (hP : ∀ a ∈ as, P a) :
    ∀ x ∈ execTrace step s as, P x.2 := by
  intro x hx
  refine hP x.2 ?_
  rw [← map_snd_execTrace h]
  exact List.mem_map_of_mem hx

end OsKernel
