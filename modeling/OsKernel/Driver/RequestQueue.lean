import OsKernel.Driver.Helpers.Discipline

/-!
# The SD driver — the request queue

The order in which requests are queued, started, completed and posted, over
whole runs of the driver.
-/

namespace OsKernel.Sd

open Function

variable {R C D : Type} [DecidableEq R] [DecidableEq C]
variable {s t : State R C D} {a : Act R C D} {r : R} {c : C}

/-! ## Requests are queued once -/

/-- Is the request of the caller queued? -/
def At.past : At → Bool
  | .enter | .locked => false
  | _ => true

/-- **What a step of `sdrw` does.** The caller does not move back before
the push. -/
structure SdrwEffect (s : State R C D) (r : R) (pc : At) (t : State R C D) : Prop where
  thread : ∃ pc' : At, t.thread = update s.thread r (some pc') ∧
    (pc ≠ .enter → pc'.past = true)
  handler : t.handler = s.handler
  killed : t.killed = s.killed
  others : ∀ b, b ≠ r → t.buf b = s.buf b
  buf : (t.buf r).flags = (s.buf r).flags ∧ (t.buf r).data = (s.buf r).data
  queue : t.bufQueue = s.bufQueue ∨ pc = .locked ∧ t.bufQueue = s.bufQueue ++ [r]
  device : t.device = s.device ∨ pc = .pushed 1 ∧ t.device = s.device ++ [(r, s.payload r)]

omit [DecidableEq C] in
theorem effect_of_sdrw {pc : At} (hs : s.sdrw r pc = some t) : SdrwEffect s r pc t := by
  have hbuf : ∀ (f : Buf R D) b, b ≠ r → update s.buf r f b = s.buf b :=
    fun f b hb => update_of_ne hb f s.buf
  cases pc with
  | enter =>
    obtain ⟨-, rfl⟩ := of_guard hs
    exact ⟨⟨.locked, rfl, fun h => absurd rfl h⟩, rfl, rfl, fun _ _ => rfl, ⟨rfl, rfl⟩, .inl rfl,
      .inl rfl⟩
  | locked =>
    obtain rfl := Option.some.inj hs
    exact ⟨⟨_, rfl, fun _ => rfl⟩, rfl, rfl, fun _ _ => rfl, ⟨rfl, rfl⟩, .inr ⟨rfl, rfl⟩, .inl rfl⟩
  | pushed sz =>
    obtain rfl := Option.some.inj hs
    by_cases hsz : sz = 1
    · subst hsz
      exact ⟨⟨.started, rfl, fun _ => rfl⟩, rfl, rfl, fun _ _ => rfl, ⟨rfl, rfl⟩, .inl rfl,
        .inr ⟨rfl, rfl⟩⟩
    · rw [if_neg hsz]
      exact ⟨⟨.started, rfl, fun _ => rfl⟩, rfl, rfl, fun _ _ => rfl, ⟨rfl, rfl⟩, .inl rfl, .inl rfl⟩
  | started =>
    obtain rfl := Option.some.inj hs
    exact ⟨⟨.loop, rfl, fun _ => rfl⟩, rfl, rfl, fun _ _ => rfl, ⟨rfl, rfl⟩, .inl rfl, .inl rfl⟩
  | loop =>
    obtain rfl := Option.some.inj hs
    refine ⟨⟨_, rfl, fun _ => ?_⟩, rfl, rfl, hbuf _, ?_, .inl rfl, .inl rfl⟩
    · split <;> rfl
    · simp [State.wait, State.goto, State.setBuf]
  | asleep =>
    simp only [State.sdrw, State.wake] at hs
    split_ifs at hs
    · obtain ⟨sem, -, rfl⟩ := Option.map_eq_some_iff.1 hs
      refine ⟨⟨.returned, rfl, fun _ => rfl⟩, rfl, rfl, hbuf _, ?_, .inl rfl, .inl rfl⟩
      simp [State.goto, State.setBuf]
    · obtain rfl := Option.some.inj hs
      exact ⟨⟨.check, rfl, fun _ => rfl⟩, rfl, rfl, fun _ _ => rfl, ⟨rfl, rfl⟩, .inl rfl, .inl rfl⟩
  | check =>
    obtain rfl := Option.some.inj hs
    refine ⟨⟨_, rfl, fun _ => ?_⟩, rfl, rfl, fun _ _ => rfl, ⟨rfl, rfl⟩, .inl rfl, .inl rfl⟩
    split <;> rfl
  | returned => cases hs

/-- **What a step of `sd_intr` does to the callers.** It posts the
semaphore of the request it has popped, leaves the semaphores alone
otherwise, and moves and kills nobody. -/
theorem effect_of_sdIntr {pc : Intr R D} (hs : s.sdIntr c pc = some t) :
    t.thread = s.thread ∧ t.killed = s.killed ∧
    ((∃ b sem w, pc = .popped b ∧ Semaphore.postSem (s.buf b).bufsem = some (sem, w) ∧
      (t.buf b).bufsem = sem ∧ ∀ r, r ≠ b → (t.buf r).bufsem = (s.buf r).bufsem) ∨
    (∀ b, pc ≠ .popped b) ∧ ∀ r, (t.buf r).bufsem = (s.buf r).bufsem) := by
  cases pc with
  | popped b =>
    obtain ⟨s', hs', rfl⟩ := Option.map_eq_some_iff.1 hs
    obtain ⟨⟨sem, w⟩, hpost, rfl⟩ := Option.map_eq_some_iff.1 hs'
    refine ⟨rfl, rfl, Or.inl ⟨b, sem, w, rfl, hpost, by simp [State.gotoIntr, State.setBuf], ?_⟩⟩
    intro r hr
    simp [State.gotoIntr, State.setBuf, hr]
  | begin v =>
    obtain ⟨b, -, rfl⟩ := Option.map_eq_some_iff.1 hs
    exact ⟨rfl, rfl, Or.inr ⟨by simp, fun _ => rfl⟩⟩
  | front v b =>
    obtain rfl := Option.some.inj hs
    refine ⟨rfl, rfl, Or.inr ⟨by simp, fun r => ?_⟩⟩
    by_cases hr : r = b
    · subst hr
      simp [State.gotoIntr, State.transfer, State.setBuf]
    · simp [State.gotoIntr, State.transfer, State.setBuf, hr]
  | done b =>
    obtain ⟨-, rfl⟩ := of_guard hs
    exact ⟨rfl, rfl, Or.inr ⟨by simp, fun _ => rfl⟩⟩
  | locked b =>
    obtain ⟨-, rfl⟩ := of_guard_not hs
    exact ⟨rfl, rfl, Or.inr ⟨by simp, fun _ => rfl⟩⟩
  | posted =>
    obtain rfl := Option.some.inj hs
    refine ⟨s.startNext_thread, ?_, Or.inr ⟨by simp, by simp [State.gotoIntr]⟩⟩
    show s.startNext.killed = s.killed
    unfold State.startNext
    cases s.bufQueue.head? <;> rfl
  | started =>
    obtain rfl := Option.some.inj hs
    exact ⟨rfl, rfl, Or.inr ⟨by simp, fun _ => rfl⟩⟩

/-- A queued request stays past its push, and a step that queues a request
takes the caller past it. -/
theorem past_of_step (hs : s.step a = some t)
    (hr : (s.thread r).any At.past = true ∨ r ∈ queuedBy (s, a)) :
    (t.thread r).any At.past = true := by
  cases a with
  | call r' flags blockno data =>
    obtain ⟨hr', rfl⟩ := of_guard hs
    have hpast : (s.thread r).any At.past = true := by simpa [queuedBy] using hr
    have hne : r ≠ r' := by
      rintro rfl
      simp [hr'] at hpast
    simpa [State.call, State.goto, State.setBuf, hne] using hpast
  | run r' =>
    obtain ⟨pc, hr', hs⟩ := Option.bind_eq_some_iff.1 hs
    obtain ⟨pc', ht, hpast⟩ := (effect_of_sdrw hs).thread
    rw [ht]
    by_cases hne : r = r'
    · subst hne
      rw [update_self]
      refine hpast ?_
      rintro rfl
      simp [queuedBy, hr', At.past] at hr
    · rw [update_of_ne hne]
      rcases hr with hr | hr
      · exact hr
      · simp only [queuedBy] at hr
        split at hr
        · exact absurd (List.mem_singleton.1 hr) hne
        · simp at hr
  | irq c =>
    simp only [State.step, Option.ite_none_right_eq_some] at hs
    obtain ⟨r', v, rest, -, rfl⟩ := Inv.of_interrupt hs.2
    simpa [queuedBy, State.gotoIntr] using hr
  | handle c =>
    obtain ⟨pc, -, hs⟩ := Option.bind_eq_some_iff.1 hs
    rw [(effect_of_sdIntr hs).1]
    simpa [queuedBy] using hr
  | kill r' =>
    obtain rfl := Option.some.inj hs
    simpa [queuedBy] using hr

/-! ## Runs -/

variable {tr : List (State R C D × Act R C D)} {disk : ℕ → D} {d : D}

omit [DecidableEq R] [DecidableEq C] in
/-- The driver starts in order. -/
theorem inv_init : Inv (State.init disk d : State R C D) none none where
  lock := Excludes.none_iff.2 fun o => by cases o <;> rfl
  flight := ⟨none, Excludes.none_iff.2 fun _ => rfl, by simp, rfl⟩
  front := by simp
  request := by simp [State.init]
  idle := fun _ => Or.inl rfl
  pushed := by simp [State.init]
  between := by simp [State.init]
  unposted := by simp [State.init]

/-- **What a run has done so far**: completed requests, then the queue;
completed requests, then the one in flight; posted requests, then the one
still to be posted. -/
theorem conserved (hrun : Run State.step (State.init disk d) tr s) :
    ∃ fl up, Inv s fl up ∧ queued tr = completed tr ++ s.bufQueue ∧
      started tr = completed tr ++ fl.toList ∧ completed tr = posted tr ++ up.toList := by
  refine hrun.traceInvariant (I := fun tr s => ∃ fl up, Inv s fl up ∧
    queued tr = completed tr ++ s.bufQueue ∧ started tr = completed tr ++ fl.toList ∧
    completed tr = posted tr ++ up.toList) ⟨none, none, inv_init, rfl, rfl, rfl⟩ ?_
  rintro tr s a t ⟨fl, up, h, hq, hst, hp⟩ hs
  obtain ⟨fl', up', h', hm⟩ := h.step hs
  refine ⟨fl', up', h', ?_, ?_, ?_⟩
  · simp only [queued, completed, List.flatMap_append, List.flatMap_cons, List.flatMap_nil,
      List.append_nil, List.append_assoc] at hq ⊢
    rw [← hm.queue, hq, List.append_assoc]
  · simp only [started, completed, List.flatMap_append, List.flatMap_cons, List.flatMap_nil,
      List.append_nil, List.append_assoc] at hst ⊢
    rw [← hm.flight, hst, List.append_assoc]
  · simp only [posted, completed, List.flatMap_append, List.flatMap_cons, List.flatMap_nil,
      List.append_nil, List.append_assoc] at hp ⊢
    rw [← hm.post, hp, List.append_assoc]

/-- No request is queued twice, and the caller of a queued request is past
its push. -/
theorem queued_once (hrun : Run State.step (State.init disk d) tr s) :
    (queued tr).Nodup ∧ ∀ r ∈ queued tr, (s.thread r).any At.past = true := by
  refine hrun.traceInvariant (I := fun tr s => (queued tr).Nodup ∧
    ∀ r ∈ queued tr, (s.thread r).any At.past = true) ⟨by simp [queued], by simp [queued]⟩ ?_
  rintro tr s a t ⟨hnd, hpast⟩ hs
  have happ : queued (tr ++ [(s, a)]) = queued tr ++ queuedBy (s, a) := by simp [queued]
  rw [happ]
  constructor
  · refine List.Nodup.append hnd ?_ ?_
    · unfold queuedBy
      split
      · split <;> simp
      · simp
    · -- the caller that pushes is not past its push
      intro r hr hq
      have := hpast r hr
      simp only [queuedBy] at hq
      split at hq
      · split at hq
        · next r' _ hr' =>
          obtain rfl := List.mem_singleton.1 hq
          simp [hr', At.past] at this
        · cases hq
      · cases hq
  · intro r hr
    refine past_of_step hs ?_
    rcases List.mem_append.1 hr with hr | hr
    · exact Or.inl (hpast r hr)
    · exact Or.inr hr

/-- **The discipline of the request queue.** Requests are completed in the
order in which they were queued, none is started twice, and each
completion posts the semaphore of its own request. Where `sdlock` is free,
the request that is started and not completed is the front of the queue. -/
theorem request_queue_discipline (hrun : Run State.step (State.init disk d) tr s) :
    queued tr = completed tr ++ s.bufQueue ∧ (queued tr).Nodup ∧
    (started tr).Nodup ∧ completed tr <+: started tr ∧ posted tr <+: completed tr ∧
    (s.sdlock = none →
      (∀ r, r ∈ started tr ∧ r ∉ completed tr ↔ s.bufQueue.head? = some r) ∧
      started tr = completed tr ++ s.bufQueue.head?.toList ∧ posted tr = completed tr) := by
  obtain ⟨fl, up, h, hq, hst, hp⟩ := conserved hrun
  have hnd := (queued_once hrun).1
  have hpre : started tr <+: queued tr := by
    rw [hst, hq, List.prefix_append_right_inj]
    cases hfl : fl with
    | none => exact List.nil_prefix
    | some r =>
      obtain ⟨rest, hrest⟩ := List.head?_eq_some_iff.1 (h.front r hfl)
      rw [hrest]
      exact ⟨rest, rfl⟩
  have hsnd : (started tr).Nodup := hnd.sublist hpre.sublist
  refine ⟨hq, hnd, hsnd, ⟨_, hst.symm⟩, ⟨_, hp.symm⟩, fun hlock => ?_⟩
  -- with the lock free nobody is between two requests
  have hfl : fl = s.bufQueue.head? := by
    cases hfl : fl with
    | some r => exact (h.front r hfl).symm
    | none =>
      rcases h.idle hfl with hnil | ⟨r, hr⟩ | ⟨c, hc⟩
      · rw [hnil]
        rfl
      · exact absurd (h.lock_of_pushed hr) (by simp [hlock])
      · exact absurd (h.lock_of_between hc) (by simp [hlock])
  have hup : up = none := by
    cases hup : up with
    | none => rfl
    | some b =>
      obtain ⟨c, hc⟩ := (h.unposted b).1 hup
      have hbet : (s.handler c).any Intr.between = true := by simp [hc, Intr.between]
      exact absurd (h.lock_of_between hbet) (by simp [hlock])
  subst hfl hup
  refine ⟨fun r => ?_, hst, by simpa using hp.symm⟩
  rw [hst] at hsnd ⊢
  obtain ⟨-, -, hdisj⟩ := List.nodup_append'.1 hsnd
  constructor
  · rintro ⟨hr, hnot⟩
    rcases List.mem_append.1 hr with hr | hr
    · exact absurd hr hnot
    · simpa using hr
  · intro hr
    have hmem : r ∈ s.bufQueue.head?.toList := by simpa using hr
    exact ⟨List.mem_append_right _ hmem, fun hc => hdisj hc hmem⟩

/-- Two requests: the second is queued while the first is with the device,
and the handler of the first starts it. -/
def twoRequests : List (Act ℕ Unit ℕ) :=
  [.call 0 0 5 0, .call 1 6 5 9, .run 0, .run 0, .run 0, .run 0, .run 0, .run 1, .run 1, .irq (),
    .run 1, .handle (), .handle (), .run 1, .handle (), .handle (), .handle (), .handle (),
    .handle ()]

theorem request_queue_discipline_twoRequests :
    ∃ s, exec State.step (State.init (fun n => n) 0) twoRequests = some s ∧
      s.bufQueue = [1] ∧ s.sdlock = none ∧
      started (execTrace State.step (State.init (fun n => n) 0) twoRequests) = [0, 1] ∧
      ∀ r, r ∈ started (execTrace State.step (State.init (fun n => n) 0) twoRequests) ∧
        r ∉ completed (execTrace State.step (State.init (fun n => n) 0) twoRequests) ↔
          s.bufQueue.head? = some r := by
  have hsome : (exec State.step (State.init (fun n => n) 0) twoRequests).any
      (fun s => s.bufQueue = [1] ∧ s.sdlock = none) = true := by decide +kernel
  obtain ⟨s, hs, hq⟩ := (Option.any_eq_true _ _).1 hsome
  simp only [decide_eq_true_eq] at hq
  obtain ⟨-, -, -, -, -, h⟩ := request_queue_discipline (Run.of_exec hs)
  exact ⟨s, hs, hq.1, hq.2, by decide +kernel, (h hq.2).1⟩

end OsKernel.Sd
