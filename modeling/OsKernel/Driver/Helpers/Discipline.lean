import OsKernel.Common.Lock
import OsKernel.Common.Update
import OsKernel.Driver.Model

/-!
# The SD driver — the discipline of the queue

What every step of the driver keeps. A submitter starts its request when
it finds the queue empty, and an interrupt handler starts the next one
when it has popped its own; `sdlock` is held in both cases. In between, at
most one request is in flight, and it is the front of the queue: with the
device, or with the handler of its interrupt.
-/

namespace OsKernel.Sd

open Function

variable {R C D : Type} [DecidableEq R] [DecidableEq C]
variable {s t : State R C D} {a : Act R C D} {fl up : Option R} {r b : R} {c : C}

/-- Has the handler popped its request, and not started the next one? -/
def Intr.between : Intr R D → Bool
  | .popped _ | .posted => true
  | _ => false

/-- The request that the handler has taken for its own, until it pops it. -/
def Intr.request : Intr R D → Option R
  | .front _ b | .done b | .locked b => some b
  | _ => none

/-- Who is in the code under `sdlock`. -/
def State.inside (s : State R C D) : Owner R C → Bool
  | .sdrw r => (s.thread r).any At.inside
  | .intr c => (s.handler c).any Intr.inside

/-- Which handlers have an interrupt whose request is still queued. -/
def State.early (s : State R C D) (c : C) : Bool := (s.handler c).any Intr.early

theorem inside_goto (s : State R C D) (r : R) (pc : At) :
    (s.goto r pc).inside = update s.inside (.sdrw r) pc.inside := by
  funext o
  cases o with
  | sdrw r' =>
    by_cases hr : r' = r
    · subst hr
      simp [State.inside, State.goto]
    · simp [State.inside, State.goto, hr]
  | intr c => simp [State.inside, State.goto]

theorem inside_gotoIntr (s : State R C D) (c : C) (pc : Option (Intr R D)) :
    (s.gotoIntr c pc).inside = update s.inside (.intr c) (pc.any Intr.inside) := by
  funext o
  cases o with
  | sdrw r => simp [State.inside, State.gotoIntr]
  | intr c' =>
    by_cases hc : c' = c
    · subst hc
      simp [State.inside, State.gotoIntr]
    · simp [State.inside, State.gotoIntr, hc]

omit [DecidableEq R] in
theorem early_gotoIntr (s : State R C D) (c : C) (pc : Option (Intr R D)) :
    (s.gotoIntr c pc).early = update s.early c (pc.any Intr.early) := by
  funext c'
  by_cases hc : c' = c
  · subst hc
    simp [State.early, State.gotoIntr]
  · simp [State.early, State.gotoIntr, hc]

/-- **The discipline.** At most one request is in flight (`fl`), and at
most one is popped and not yet posted (`up`). -/
structure Inv (s : State R C D) (fl up : Option R) : Prop where
  lock : Excludes s.inside s.sdlock
  /-- A request in flight is with the device, or with one handler. -/
  flight : ∃ h : Option C, Excludes s.early h ∧ (h.isSome → fl.isSome) ∧
    s.device.map Prod.fst = if h.isSome then [] else fl.toList
  front : ∀ r, fl = some r → s.bufQueue.head? = some r
  request : ∀ c b, (s.handler c).bind Intr.request = some b → fl = some b
  /-- Where nothing is in flight, the queue is empty or somebody is about
  to start its front. -/
  idle : fl = none → s.bufQueue = [] ∨ (∃ r, s.thread r = some (.pushed 1)) ∨
    ∃ c, (s.handler c).any Intr.between = true
  pushed : ∀ r sz, s.thread r = some (.pushed sz) → (sz = 1 ↔ fl = none) ∧
    (sz = 1 → s.bufQueue = [r])
  between : ∀ c, (s.handler c).any Intr.between = true → fl = none
  unposted : ∀ b, up = some b ↔ ∃ c, s.handler c = some (.popped b)

namespace Inv

variable (h : Inv s fl up)

include h

omit [DecidableEq C] in
/-- The discipline does not read the buffers. -/
theorem setBuf (r : R) (b : Buf R D) : Inv (s.setBuf r b) fl up :=
  ⟨h.lock, h.flight, h.front, h.request, h.idle, h.pushed, h.between, h.unposted⟩

section

omit [DecidableEq R] [DecidableEq C]

/-- A caller at a call of `sd_start` holds the lock. -/
theorem lock_of_pushed {sz : ℕ} (hr : s.thread r = some (.pushed sz)) :
    s.sdlock = some (.sdrw r) :=
  h.lock.of_inside (k := .sdrw r) (by simp [State.inside, hr, At.inside])

/-- A handler between its requests holds the lock. -/
theorem lock_of_between (hc : (s.handler c).any Intr.between = true) :
    s.sdlock = some (.intr c) := by
  refine h.lock.of_inside (k := .intr c) ?_
  obtain ⟨pc, hpc, hb⟩ := (Option.any_eq_true _ _).1 hc
  cases pc <;> simp_all [State.inside, Intr.between, Intr.inside]

end

variable {o : Option (Owner R C)}

/-- A caller that moves and is not at its call of `sd_start`, before or
after, changes no more than who is inside. -/
theorem goto {pc : At} (hr : ∀ sz, s.thread r ≠ some (.pushed sz))
    (hpc : ∀ sz, pc ≠ .pushed sz) (hlock : Excludes (update s.inside (.sdrw r) pc.inside) o) :
    Inv ((s.setLock o).goto r pc) fl up := by
  have hpush : ∀ r' sz, ((s.setLock o).goto r pc).thread r' = some (.pushed sz) ↔
      s.thread r' = some (.pushed sz) := by
    intro r' sz
    by_cases hrr : r' = r
    · subst hrr
      simp [State.goto, hr sz, hpc sz]
    · simp [State.goto, State.setLock, update_of_ne hrr]
  refine ⟨?_, h.flight, h.front, h.request, ?_, ?_, h.between, h.unposted⟩
  · rw [inside_goto]
    exact hlock
  · simp only [hpush]
    exact h.idle
  · simp only [hpush]
    exact h.pushed

/-- A caller that moves outside `sdlock` disturbs nothing. -/
theorem goto_outside {pc : At} (hr : (s.thread r).any At.inside = false)
    (hpc : pc.inside = false) : Inv (s.goto r pc) fl up := by
  refine h.goto (o := s.sdlock) ?_ ?_ ?_
  · rintro sz hsz
    simp [hsz, At.inside] at hr
  · rintro sz rfl
    simp [At.inside] at hpc
  · rw [hpc]
    exact h.lock.stay hr

section

omit [DecidableEq R] [DecidableEq C]

/-- The holder of the lock leaves nobody else at a call of `sd_start`. -/
theorem eq_of_pushed {o : Owner R C} (ho : s.sdlock = some o) {sz : ℕ}
    (hr : s.thread r = some (.pushed sz)) : o = .sdrw r :=
  Option.some.inj (ho.symm.trans (h.lock_of_pushed hr))

/-- The holder of the lock leaves no other handler between its requests. -/
theorem eq_of_between {o : Owner R C} (ho : s.sdlock = some o)
    (hc : (s.handler c).any Intr.between = true) : o = .intr c :=
  Option.some.inj (ho.symm.trans (h.lock_of_between hc))

end

/-! ### `sdrw` -/

/-- **A push.** The submitter sees the length 1 exactly when nothing is in
flight. -/
theorem push (hr : s.thread r = some .locked) :
    Inv ((s.setQueue (s.bufQueue ++ [r])).goto r (.pushed (s.bufQueue.length + 1))) fl up := by
  have hin : s.inside (.sdrw r) = true := by simp [State.inside, hr, At.inside]
  have hlock := h.lock.of_inside hin
  -- nobody else is about to start a request
  have hnil : fl = none → s.bufQueue = [] := by
    intro hfl
    rcases h.idle hfl with hq | ⟨r', hr'⟩ | ⟨c, hc⟩
    · exact hq
    · obtain rfl := Owner.sdrw.inj (h.eq_of_pushed hlock hr')
      simp [hr] at hr'
    · cases h.eq_of_between hlock hc
  have hne : ∀ r', fl = some r' → s.bufQueue ≠ [] := by
    intro r' hfl hq
    have := h.front r' hfl
    simp [hq] at this
  refine ⟨?_, h.flight, ?_, h.request, ?_, ?_, h.between, h.unposted⟩
  · rw [inside_goto]
    exact h.lock.stay hin
  · intro r' hfl
    show (s.bufQueue ++ [r]).head? = some r'
    rw [List.head?_append, h.front r' hfl]
    rfl
  · intro hfl
    refine Or.inr (Or.inl ⟨r, ?_⟩)
    simp [State.goto, State.setQueue, hnil hfl]
  · intro r' sz hr'
    by_cases hrr : r' = r
    · subst hrr
      simp only [State.goto, update_self, Option.some.injEq, At.pushed.injEq] at hr'
      subst hr'
      constructor
      · cases hfl : fl with
        | none => simp [hnil hfl]
        | some r' => simp [hne r' hfl]
      · intro hsz
        have : s.bufQueue = [] := List.length_eq_zero_iff.1 (by omega)
        simp [State.goto, State.setQueue, this]
    · have hr'' : s.thread r' = some (.pushed sz) := by
        simpa [State.goto, State.setQueue, update_of_ne hrr] using hr'
      exact absurd (Owner.sdrw.inj (h.eq_of_pushed hlock hr'')).symm hrr

/-- Past `sd_start`, by a submitter that found the queue non-empty. -/
theorem skipStart {sz : ℕ} (hr : s.thread r = some (.pushed sz)) (hsz : sz ≠ 1) :
    Inv (s.goto r .started) fl up := by
  have hin : s.inside (.sdrw r) = true := by simp [State.inside, hr, At.inside]
  have hlock := h.lock.of_inside hin
  have hfl : fl ≠ none := fun hfl => hsz ((h.pushed r sz hr).1.2 hfl)
  refine ⟨?_, h.flight, h.front, h.request, fun h => absurd h hfl, ?_, h.between, h.unposted⟩
  · rw [inside_goto]
    exact h.lock.stay hin
  · intro r' sz' hr'
    by_cases hrr : r' = r
    · subst hrr
      simp [State.goto] at hr'
    · have hr'' : s.thread r' = some (.pushed sz') := by
        simpa [State.goto, update_of_ne hrr] using hr'
      exact absurd (Owner.sdrw.inj (h.eq_of_pushed hlock hr'')).symm hrr

omit [DecidableEq R] [DecidableEq C] h in
/-- Where nothing is in flight the device is idle. -/
theorem device_eq_nil (h : Inv s none up) : Excludes s.early none ∧ s.device = [] := by
  obtain ⟨k, hk, hsome, hdev⟩ := h.flight
  cases k with
  | none => exact ⟨hk, by simpa using hdev⟩
  | some c => simp at hsome

/-- **A start by the submitter.** -/
theorem start (hr : s.thread r = some (.pushed 1)) :
    fl = none ∧ Inv ((s.sdStart r).goto r .started) (some r) up := by
  have hin : s.inside (.sdrw r) = true := by simp [State.inside, hr, At.inside]
  have hlock := h.lock.of_inside hin
  obtain rfl : fl = none := (h.pushed r 1 hr).1.1 rfl
  have hq : s.bufQueue = [r] := (h.pushed r 1 hr).2 rfl
  obtain ⟨hearly, hdev⟩ := h.device_eq_nil
  refine ⟨rfl, ?_, ⟨none, hearly, by simp, ?_⟩, ?_, ?_, ?_, ?_, ?_, h.unposted⟩
  · rw [inside_goto]
    exact h.lock.stay hin
  · simp [State.goto, State.sdStart, hdev]
  · rintro r' hr'
    obtain rfl := Option.some.inj hr'
    show s.bufQueue.head? = some r
    rw [hq]
    rfl
  · intro c b hb
    exact absurd (h.request c b hb) (by simp)
  · intro hfl
    cases hfl
  · intro r' sz' hr'
    by_cases hrr : r' = r
    · subst hrr
      simp [State.goto] at hr'
    · have hr'' : s.thread r' = some (.pushed sz') := by
        simpa [State.goto, State.sdStart, update_of_ne hrr] using hr'
      exact absurd (Owner.sdrw.inj (h.eq_of_pushed hlock hr'')).symm hrr
  · intro c hc
    cases h.eq_of_between hlock hc

/-! ### `sd_intr` -/

/-- A handler that moves, and is between two requests before and after or
neither, changes no more than who is inside, who has the request in flight
and which request is still to be posted. -/
theorem of_between {up' : Option R} {pc : Option (Intr R D)} {l : List (R × D)}
    (hflight : ∃ k : Option C, Excludes (update s.early c (pc.any Intr.early)) k ∧
      (k.isSome → fl.isSome) ∧ l.map Prod.fst = if k.isSome then [] else fl.toList)
    (hreq : ∀ b, pc.bind Intr.request = some b → fl = some b)
    (hpc : (s.handler c).any Intr.between = pc.any Intr.between)
    (hup : ∀ b, up' = some b ↔ ∃ c', update s.handler c pc c' = some (.popped b))
    (hlock : Excludes (update s.inside (.intr c) (pc.any Intr.inside)) o) :
    Inv ({ s with sdlock := o, device := l }.gotoIntr c pc) fl up' := by
  have hbet : ∀ c', (update s.handler c pc c').any Intr.between =
      (s.handler c').any Intr.between := by
    intro c'
    by_cases hcc : c' = c
    · subst hcc
      rw [update_self, hpc]
    · rw [update_of_ne hcc]
  refine ⟨?_, ?_, h.front, ?_, ?_, h.pushed, ?_, hup⟩
  · rw [inside_gotoIntr]
    exact hlock
  · rw [early_gotoIntr]
    exact hflight
  · exact (forall_update_iff s.handler fun _ x => ∀ b, x.bind Intr.request = some b → fl = some b).2
      ⟨hreq, fun c' _ => h.request c'⟩
  · intro hfl
    simpa only [State.gotoIntr, hbet] using h.idle hfl
  · intro c'
    show (update s.handler c pc c').any Intr.between = true → _
    rw [hbet]
    exact h.between c'

/-- A handler that moves, and is not between two requests before or after,
changes no more than who is inside and who has the request in flight. -/
theorem gotoIntr {pc : Option (Intr R D)} {l : List (R × D)}
    (hflight : ∃ k : Option C, Excludes (update s.early c (pc.any Intr.early)) k ∧
      (k.isSome → fl.isSome) ∧ l.map Prod.fst = if k.isSome then [] else fl.toList)
    (hreq : ∀ b, pc.bind Intr.request = some b → fl = some b) (hpc : pc.any Intr.between = false)
    (hc : (s.handler c).any Intr.between = false)
    (hlock : Excludes (update s.inside (.intr c) (pc.any Intr.inside)) o) :
    Inv ({ s with sdlock := o, device := l }.gotoIntr c pc) fl up := by
  have hpop : ∀ (x : Option (Intr R D)) b, x.any Intr.between = false → x ≠ some (.popped b) := by
    rintro x b hx rfl
    cases hx
  refine h.of_between hflight hreq (hc.trans hpc.symm) (fun b => ?_) hlock
  rw [h.unposted b]
  refine exists_congr fun c' => ⟨update_eq_of_ne (hpop _ b hc), fun hc' => ?_⟩
  exact (of_update_eq hc' (hpop pc b hpc)).2

/-- A handler that moves and keeps its request. -/
theorem gotoIntr_same {pc : Intr R D} (hearly : s.early c = pc.early)
    (hreq : ∀ b, pc.request = some b → fl = some b) (hpc : pc.between = false)
    (hc : (s.handler c).any Intr.between = false)
    (hlock : Excludes (update s.inside (.intr c) pc.inside) o) :
    Inv ((s.setLock o).gotoIntr c (some pc)) fl up := by
  refine h.gotoIntr (l := s.device) ?_ hreq hpc hc hlock
  obtain ⟨k, hk, hsome, hdev⟩ := h.flight
  exact ⟨k, hk.stay hearly, hsome, hdev⟩

omit [DecidableEq R] h in
/-- The device interrupts with its next request. -/
theorem of_interrupt (hs : s.interrupt c = some t) : ∃ r v rest, s.device = (r, v) :: rest ∧
    t = { s with device := rest }.gotoIntr c (some (.begin v)) := by
  unfold State.interrupt at hs
  split at hs
  · cases hs
  · next r v rest hd => exact ⟨r, v, rest, hd, (Option.some.inj hs).symm⟩

/-- **An interrupt.** The device had the request in flight. -/
theorem interrupt (hc : s.handler c = none) (hs : s.interrupt c = some t) :
    Inv t fl up := by
  obtain ⟨k, hk, hsome, hdev⟩ := h.flight
  obtain ⟨r, v, rest, hd, rfl⟩ := of_interrupt hs
  -- so no handler has it, and it is the only one
  obtain rfl : k = none := by
    cases k with
    | none => rfl
    | some c => simp [hd] at hdev
  obtain ⟨rfl, rfl⟩ : fl = some r ∧ rest = [] := by
    cases fl with
    | none => simp [hd] at hdev
    | some r' =>
      simp only [hd, List.map_cons, Option.isSome_none, Option.toList_some] at hdev
      obtain ⟨rfl, hrest⟩ := List.cons.inj hdev
      exact ⟨rfl, List.map_eq_nil_iff.1 hrest⟩
  refine h.gotoIntr (o := s.sdlock) ⟨some c, hk.acquire c, by simp, by simp⟩ nofun rfl ?_ ?_
  · simp [hc]
  · exact h.lock.stay (by simp [State.inside, hc, Intr.inside])

section

omit [DecidableEq R] [DecidableEq C]

/-- The handler that has the interrupt has the request in flight, and the
device has nothing. -/
theorem flight_of_early (hc : s.early c = true) :
    ∃ r, fl = some r ∧ s.device = [] ∧ Excludes s.early (some c) := by
  obtain ⟨k, hk, hsome, hdev⟩ := h.flight
  obtain rfl := hk.of_inside hc
  obtain ⟨r, hr⟩ := Option.isSome_iff_exists.1 (hsome rfl)
  exact ⟨r, hr, by simpa using hdev, hk⟩

/-- Under the lock of one handler no other handler is between requests, and
no submitter is at its call of `sd_start`. -/
theorem alone (hc : s.inside (.intr c) = true) :
    (∀ c', c' ≠ c → (s.handler c').any Intr.between = false) ∧
      ∀ r sz, s.thread r ≠ some (.pushed sz) := by
  have hlock := h.lock.of_inside hc
  constructor
  · intro c' hne
    rw [Bool.eq_false_iff]
    intro hb
    exact hne (Owner.intr.inj (h.eq_of_between hlock hb)).symm
  · intro r sz hr
    cases h.eq_of_pushed hlock hr

end

/-- **A completion.** The handler pops its own request. -/
theorem pop (hc : s.handler c = some (.locked b)) :
    fl = some b ∧ up = none ∧ s.bufQueue.head? = some b ∧
      Inv ((s.setQueue s.bufQueue.tail).gotoIntr c (some (.popped b))) none (some b) := by
  have hin : s.inside (.intr c) = true := by simp [State.inside, hc, Intr.inside]
  obtain ⟨hbet, hpush⟩ := h.alone hin
  have hearly : s.early c = true := by simp [State.early, hc, Intr.early]
  obtain ⟨r, -, hdev, hex⟩ := h.flight_of_early hearly
  have hfl : fl = some b := h.request c b (by simp [hc, Intr.request])
  have hpop : ∀ c' b', s.handler c' ≠ some (.popped b') := by
    intro c' b' hb
    by_cases hcc : c' = c
    · subst hcc
      simp [hc] at hb
    · have := hbet c' hcc
      simp [hb, Intr.between] at this
  have hup : up = none := by
    cases hu : up with
    | none => rfl
    | some b' =>
      obtain ⟨c', hc'⟩ := (h.unposted b').1 hu
      exact absurd hc' (hpop c' b')
  refine ⟨hfl, hup, h.front b hfl, ?_, ⟨none, ?_, by simp, ?_⟩, by simp, ?_, ?_, ?_, ?_, ?_⟩
  · rw [inside_gotoIntr]
    exact h.lock.stay hin
  · rw [early_gotoIntr]
    exact hex.release
  · simp [State.gotoIntr, State.setQueue, hdev]
  · refine (forall_update_iff s.handler fun _ x =>
      ∀ b, x.bind Intr.request = some b → none = some b).2 ⟨nofun, fun c' hcc b' hb => ?_⟩
    have hout := hex.outside hcc
    obtain ⟨pc, hpc, hb⟩ := Option.bind_eq_some_iff.1 hb
    cases pc <;> simp_all [State.early, Intr.early, Intr.request]
  · intro _
    exact Or.inr (Or.inr ⟨c, by simp [State.gotoIntr, Intr.between]⟩)
  · intro r' sz hr'
    exact absurd hr' (hpush r' sz)
  · intro _ _
    rfl
  · intro b'
    constructor
    · intro hb
      obtain rfl := Option.some.inj hb
      exact ⟨c, by simp [State.gotoIntr]⟩
    · rintro ⟨c', hc'⟩
      rcases update_eq_cases hc' with ⟨-, hb⟩ | ⟨-, hb⟩
      · cases hb
        rfl
      · exact absurd hb (hpop c' b')

/-- **A post.** -/
theorem posted (hc : s.handler c = some (.popped b)) :
    up = some b ∧ Inv (s.gotoIntr c (some .posted)) fl none := by
  have hin : s.inside (.intr c) = true := by simp [State.inside, hc, Intr.inside]
  obtain ⟨k, hk, hsome, hdev⟩ := h.flight
  refine ⟨(h.unposted b).2 ⟨c, hc⟩, h.of_between (o := s.sdlock) (l := s.device)
    ⟨k, hk.stay ?_, hsome, hdev⟩ nofun ?_ (fun b' => ⟨nofun, ?_⟩) (h.lock.stay hin)⟩
  · simp [State.early, hc, Intr.early]
  · simp [hc, Intr.between]
  · -- no other handler is between its requests
    rintro ⟨c', hc'⟩
    obtain ⟨hcc, hb⟩ := of_update_eq hc' nofun
    have hbet := (h.alone hin).1 c' hcc
    simp [hb, Intr.between] at hbet

/-- **A start by the handler**, of the new front of the queue. -/
theorem startNext (hc : s.handler c = some .posted) :
    fl = none ∧ Inv (s.startNext.gotoIntr c (some .started)) s.bufQueue.head? up := by
  have hin : s.inside (.intr c) = true := by simp [State.inside, hc, Intr.inside]
  obtain ⟨hbet, hpush⟩ := h.alone hin
  obtain rfl : fl = none := h.between c (by simp [hc, Intr.between])
  obtain ⟨hearly, hdev⟩ := h.device_eq_nil
  have hinside : s.startNext.inside = s.inside := by
    funext o
    cases o <;> simp [State.inside]
  have hearly' : s.startNext.early = s.early := by
    funext c'
    simp [State.early]
  refine ⟨rfl, ?_, ⟨none, ?_, by simp, ?_⟩, ?_, ?_, ?_, ?_, ?_, ?_⟩
  · rw [inside_gotoIntr, hinside]
    show Excludes _ s.startNext.sdlock
    rw [State.startNext_sdlock]
    exact h.lock.stay hin
  · rw [early_gotoIntr, hearly']
    exact hearly.stay (by simp [State.early, hc, Intr.early])
  · simp [State.gotoIntr, State.startNext_device, hdev, Function.comp_def]
  · intro r hr
    show s.startNext.bufQueue.head? = some r
    rw [State.startNext_bufQueue, hr]
  · refine (forall_update_iff s.startNext.handler fun _ x =>
      ∀ b, x.bind Intr.request = some b → s.bufQueue.head? = some b).2 ⟨nofun, fun c' _ b' hb => ?_⟩
    rw [State.startNext_handler] at hb
    cases h.request c' b' hb
  · intro hnil
    refine Or.inl ?_
    show s.startNext.bufQueue = []
    rw [State.startNext_bufQueue]
    exact List.head?_eq_none_iff.1 hnil
  · intro r sz hr
    refine absurd ?_ (hpush r sz)
    rw [← State.startNext_thread]
    exact hr
  · refine (forall_update_iff s.startNext.handler fun _ x =>
      x.any Intr.between = true → s.bufQueue.head? = none).2 ⟨nofun, fun c' hcc hb => ?_⟩
    rw [State.startNext_handler, hbet c' hcc] at hb
    cases hb
  · intro b'
    rw [h.unposted b']
    refine exists_congr fun c' => ?_
    show _ ↔ update s.startNext.handler c _ c' = _
    rw [State.startNext_handler]
    exact ⟨update_eq_of_ne (by simp [hc]), fun hb => (of_update_eq hb nofun).2⟩

end Inv

/-! ## A step -/

/-- **What a step does to the queue**, to the request in flight and to the
one that is still to be posted: what goes in comes out, in order. -/
structure Moves (x : State R C D × Act R C D) (t : State R C D) (fl up fl' up' : Option R) :
    Prop where
  queue : x.1.bufQueue ++ queuedBy x = completedBy x ++ t.bufQueue
  flight : fl.toList ++ startedBy x = completedBy x ++ fl'.toList
  post : up.toList ++ completedBy x = postedBy x ++ up'.toList

section

omit [DecidableEq R] [DecidableEq C]

/-- A step without events. -/
theorem Moves.quiet (hq : t.bufQueue = s.bufQueue) (hqueued : queuedBy (s, a) = [])
    (hstarted : startedBy (s, a) = []) (hcompleted : completedBy (s, a) = [])
    (hposted : postedBy (s, a) = []) : Moves (s, a) t fl up fl up :=
  ⟨by simp [hq, hqueued, hcompleted], by simp [hstarted, hcompleted],
    by simp [hcompleted, hposted]⟩

/-- A step of a caller that neither pushes nor starts its request. -/
theorem Moves.quiet_run {pc : At} (hr : s.thread r = some pc) (hq : t.bufQueue = s.bufQueue)
    (hpc : pc ≠ .locked ∧ pc ≠ .pushed 1) : Moves (s, .run r) t fl up fl up := by
  apply Moves.quiet hq <;> simp [queuedBy, startedBy, completedBy, postedBy, hr, hpc]

/-- A step of a handler that does not pop, post or start a request. -/
theorem Moves.quiet_handle {pc : Intr R D} (hc : s.handler c = some pc)
    (hq : t.bufQueue = s.bufQueue) (hpc : pc.between = false) (hlocked : ∀ b, pc ≠ .locked b) :
    Moves (s, .handle c) t fl up fl up := by
  cases pc with
  | locked b => exact absurd rfl (hlocked b)
  | popped | posted => cases hpc
  | _ => apply Moves.quiet hq <;> simp [queuedBy, startedBy, completedBy, postedBy, hc]

end

/-- A step of `sdrw` keeps the discipline. -/
theorem Inv.sdrw (h : Inv s fl up) {pc : At} (hr : s.thread r = some pc)
    (hs : s.sdrw r pc = some t) :
    ∃ fl' up', Inv t fl' up' ∧ Moves (s, .run r) t fl up fl' up' := by
  have hin : s.inside (.sdrw r) = pc.inside := by simp [State.inside, hr]
  have hany : (s.thread r).any At.inside = pc.inside := by simp [hr]
  cases pc with
  | enter =>
    obtain ⟨hnone, rfl⟩ := of_guard hs
    refine ⟨fl, up, h.goto (by simp [hr]) (by simp) ?_, .quiet_run hr rfl (by decide)⟩
    have hlock := h.lock
    rw [hnone] at hlock
    exact hlock.acquire _
  | locked =>
    obtain rfl := Option.some.inj hs
    refine ⟨fl, up, h.push hr, ?_, ?_, ?_⟩
    all_goals simp [queuedBy, startedBy, completedBy, postedBy, hr, State.goto, State.setQueue]
  | pushed sz =>
    obtain rfl := Option.some.inj hs
    by_cases hsz : sz = 1
    · subst hsz
      obtain ⟨rfl, hinv⟩ := h.start hr
      refine ⟨some r, up, hinv, ?_, ?_, ?_⟩
      all_goals simp [queuedBy, startedBy, completedBy, postedBy, hr, State.goto, State.sdStart]
    · rw [if_neg hsz]
      exact ⟨fl, up, h.skipStart hr hsz, .quiet_run hr rfl (by simp [hsz])⟩
  | started =>
    obtain rfl := Option.some.inj hs
    refine ⟨fl, up, h.goto (by simp [hr]) (by simp) ?_, .quiet_run hr rfl (by decide)⟩
    have hlock := h.lock
    rw [hlock.of_inside hin] at hlock
    exact hlock.release
  | loop =>
    obtain rfl := Option.some.inj hs
    refine ⟨fl, up, (h.setBuf r _).goto_outside hany ?_, .quiet_run hr rfl (by decide)⟩
    split <;> rfl
  | asleep =>
    simp only [State.sdrw, State.wake] at hs
    split_ifs at hs
    · obtain ⟨sem, -, rfl⟩ := Option.map_eq_some_iff.1 hs
      exact ⟨fl, up, (h.setBuf r _).goto_outside hany rfl, .quiet_run hr rfl (by decide)⟩
    · obtain rfl := Option.some.inj hs
      exact ⟨fl, up, h.goto_outside hany rfl, .quiet_run hr rfl (by decide)⟩
  | check =>
    obtain rfl := Option.some.inj hs
    refine ⟨fl, up, h.goto_outside hany ?_, .quiet_run hr rfl (by decide)⟩
    split <;> rfl
  | returned => cases hs

/-- A step of `sd_intr` keeps the discipline. -/
theorem Inv.sdIntr (h : Inv s fl up) {pc : Intr R D} (hc : s.handler c = some pc)
    (hs : s.sdIntr c pc = some t) :
    ∃ fl' up', Inv t fl' up' ∧ Moves (s, .handle c) t fl up fl' up' := by
  have hin : s.inside (.intr c) = pc.inside := by simp [State.inside, hc]
  have hearly : s.early c = pc.early := by simp [State.early, hc]
  have hbet : (s.handler c).any Intr.between = pc.between := by simp [hc]
  cases pc with
  | begin v =>
    obtain ⟨b, hb, rfl⟩ := Option.map_eq_some_iff.1 hs
    obtain ⟨r, rfl, -⟩ := h.flight_of_early hearly
    obtain rfl : b = r := Option.some.inj (hb.symm.trans (h.front r rfl))
    exact ⟨some b, up, h.gotoIntr_same (o := s.sdlock) hearly (fun _ hb => hb) rfl hbet
      (h.lock.stay hin), .quiet_handle hc rfl rfl nofun⟩
  | front v b =>
    obtain rfl := Option.some.inj hs
    have hfl : fl = some b := h.request c b (by simp [hc, Intr.request])
    exact ⟨fl, up, (h.setBuf b _).gotoIntr_same (o := s.sdlock) hearly (fun _ => hfl.trans) rfl
      hbet (h.lock.stay hin), .quiet_handle hc rfl rfl nofun⟩
  | done b =>
    obtain ⟨hnone, rfl⟩ := of_guard hs
    have hfl : fl = some b := h.request c b (by simp [hc, Intr.request])
    refine ⟨fl, up, h.gotoIntr_same hearly (fun _ => hfl.trans) rfl hbet ?_,
      .quiet_handle hc rfl rfl nofun⟩
    have hlock := h.lock
    rw [hnone] at hlock
    exact hlock.acquire _
  | locked b =>
    obtain ⟨-, rfl⟩ := of_guard_not hs
    obtain ⟨rfl, rfl, hhead, hinv⟩ := h.pop hc
    obtain ⟨rest, hq⟩ := List.head?_eq_some_iff.1 hhead
    refine ⟨none, some b, hinv, ?_, ?_, ?_⟩
    all_goals simp [queuedBy, startedBy, completedBy, postedBy, hc, hq, State.gotoIntr,
      State.setQueue]
  | popped b =>
    obtain ⟨s', hs', rfl⟩ := Option.map_eq_some_iff.1 hs
    obtain ⟨x, -, rfl⟩ := Option.map_eq_some_iff.1 hs'
    obtain ⟨rfl, hinv⟩ := (h.setBuf b { s.buf b with bufsem := x.1 }).posted hc
    refine ⟨fl, none, hinv, ?_, ?_, ?_⟩
    all_goals simp [queuedBy, startedBy, completedBy, postedBy, hc, State.gotoIntr, State.setBuf]
  | posted =>
    obtain rfl := Option.some.inj hs
    obtain ⟨rfl, hinv⟩ := h.startNext hc
    refine ⟨s.bufQueue.head?, up, hinv, ?_, ?_, ?_⟩
    all_goals simp [queuedBy, startedBy, completedBy, postedBy, hc, State.gotoIntr]
  | started =>
    obtain rfl := Option.some.inj hs
    obtain ⟨k, hk, hsome, hdev⟩ := h.flight
    refine ⟨fl, up, h.gotoIntr (l := s.device) ⟨k, hk.stay hearly, hsome, hdev⟩ nofun rfl hbet ?_,
      .quiet_handle hc rfl rfl nofun⟩
    have hlock := h.lock
    rw [hlock.of_inside hin] at hlock
    exact hlock.release

/-- **Every step keeps the discipline.** -/
theorem Inv.step (h : Inv s fl up) (hs : s.step a = some t) :
    ∃ fl' up', Inv t fl' up' ∧ Moves (s, a) t fl up fl' up' := by
  cases a with
  | call r flags blockno data =>
    obtain ⟨hr, rfl⟩ := of_guard hs
    refine ⟨fl, up, (h.setBuf r _).goto_outside ?_ rfl, ?_⟩
    · simp [State.setBuf, hr]
    · exact .quiet rfl rfl rfl rfl rfl
  | run r =>
    obtain ⟨pc, hr, hs⟩ := Option.bind_eq_some_iff.1 hs
    exact h.sdrw hr hs
  | irq c =>
    simp only [State.step, Option.ite_none_right_eq_some, Option.isNone_iff_eq_none] at hs
    obtain ⟨hc, hs⟩ := hs
    refine ⟨fl, up, h.interrupt hc hs, ?_⟩
    obtain ⟨r, v, rest, -, rfl⟩ := Inv.of_interrupt hs
    exact .quiet rfl rfl rfl rfl rfl
  | handle c =>
    obtain ⟨pc, hc, hs⟩ := Option.bind_eq_some_iff.1 hs
    exact h.sdIntr hc hs
  | kill r =>
    obtain rfl := Option.some.inj hs
    refine ⟨fl, up, ⟨h.lock, h.flight, h.front, h.request, h.idle, h.pushed, h.between,
      h.unposted⟩, ?_⟩
    exact .quiet rfl rfl rfl rfl rfl

end OsKernel.Sd
