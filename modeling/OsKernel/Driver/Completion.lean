import OsKernel.Driver.RequestQueue

/-!
# The SD driver — when `sdrw` returns

A caller of `sdrw` sleeps on the semaphore of its request, which the
interrupt handler posts once, after the transfer. So `sdrw` returns after
the transfer — unless the wait is cut short: `wait_sem` is alertable, and
`sdrw` leaves its loop when it fails.
-/

namespace OsKernel.Sd

open Function

variable {R C D : Type} [DecidableEq R] [DecidableEq C]
variable {s t : State R C D} {a : Act R C D} {r b : R} {c : C} {v : D}
variable {tr : List (State R C D × Act R C D)} {disk : ℕ → D} {d : D}

/-! ## What a transfer moves -/

/-- The device is to deliver `v` for the request `b`: what it was asked to
move when `b` was started, which for a write is what `b` holds. -/
def Carries (tr : List (State R C D × Act R C D)) (s : State R C D) (b : R) (v : D) : Prop :=
  (∃ x ∈ tr, b ∈ startedBy x ∧ x.1.payload b = v) ∧
    ((s.buf b).dirty = true → (s.buf b).data = v)

/-- The transfer of `b` is done: its flags are `B_VALID`, and it holds what
the device was asked to move when it was started. -/
def Holds (tr : List (State R C D × Act R C D)) (s : State R C D) (b : R) : Prop :=
  (s.buf b).flags = bValid ∧ ∃ x ∈ tr, b ∈ startedBy x ∧ x.1.payload b = (s.buf b).data

/-- A step leaves the flags and the data of a request alone. -/
def SameBuf (s t : State R C D) (b : R) : Prop :=
  (t.buf b).flags = (s.buf b).flags ∧ (t.buf b).data = (s.buf b).data

section

omit [DecidableEq R] [DecidableEq C]

theorem SameBuf.of_eq (h : t.buf = s.buf) (b : R) : SameBuf s t b := by
  rw [SameBuf, h]
  exact ⟨rfl, rfl⟩

theorem Carries.frame (h : Carries tr s b v) (hb : SameBuf s t b) (x : State R C D × Act R C D) :
    Carries (tr ++ [x]) t b v := by
  obtain ⟨⟨y, hy, hstart⟩, hdirty⟩ := h
  refine ⟨⟨y, List.mem_append_left _ hy, hstart⟩, ?_⟩
  rw [Buf.dirty, hb.1, hb.2]
  exact hdirty

theorem Holds.frame (h : Holds tr s b) (hb : SameBuf s t b) (x : State R C D × Act R C D) :
    Holds (tr ++ [x]) t b := by
  obtain ⟨hflags, y, hy, hstart⟩ := h
  refine ⟨hb.1.trans hflags, y, List.mem_append_left _ hy, ?_⟩
  rw [hb.2]
  exact hstart

end

/-- What a handler at `pc` may rely on. -/
def Promise (tr : List (State R C D × Act R C D)) (s : State R C D) : Intr R D → Prop
  | .begin v => ∀ b, s.bufQueue.head? = some b → Carries tr s b v
  | .front v b => Carries tr s b v
  | .done b | .locked b => Holds tr s b
  | _ => True

/-- **The transfers of a run.** -/
structure Delivered (tr : List (State R C D × Act R C D)) (s : State R C D) : Prop where
  device : ∀ y ∈ s.device, Carries tr s y.1 y.2
  handler : ∀ c pc, s.handler c = some pc → Promise tr s pc
  completed : ∀ b ∈ completed tr, Holds tr s b

variable {x : State R C D × Act R C D} {pc : Intr R D}

section

omit [DecidableEq R] [DecidableEq C]

/-- The device works on the request in flight. -/
theorem Inv.flight_of_device {fl up : Option R} (h : Inv s fl up) {y : R × D}
    (hy : y ∈ s.device) : fl = some y.1 := by
  obtain ⟨k, -, -, hdev⟩ := h.flight
  have hmem : y.1 ∈ s.device.map Prod.fst := List.mem_map_of_mem hy
  rw [hdev] at hmem
  split at hmem
  · cases hmem
  · simpa using hmem

/-- A promise survives a step that leaves the request in flight and the
front of the queue alone. -/
theorem Promise.frame {fl up : Option R} (hinv : Inv s fl up) (hc : s.handler c = some pc)
    (h : Promise tr s pc) (hbuf : ∀ b, fl = some b → SameBuf s t b)
    (hfront : ∀ v, s.handler c = some (.begin v) → t.bufQueue.head? = s.bufQueue.head?)
    (x : State R C D × Act R C D) : Promise (tr ++ [x]) t pc := by
  have hreq : ∀ b, pc.request = some b → fl = some b := by
    intro b hb
    exact hinv.request c b (by simp [hc, hb])
  cases pc with
  | begin v =>
    intro b hb
    have hearly : s.early c = true := by simp [State.early, hc, Intr.early]
    obtain ⟨r, rfl, -⟩ := hinv.flight_of_early hearly
    rw [hfront v hc] at hb
    obtain rfl : r = b := Option.some.inj ((hinv.front r rfl).symm.trans hb)
    exact (h r hb).frame (hbuf r rfl) x
  | front v b => exact Carries.frame h (hbuf b (hreq b rfl)) x
  | done b | locked b => exact Holds.frame h (hbuf b (hreq b rfl)) x
  | popped b => trivial
  | posted => trivial
  | started => trivial

/-- A request that `sd_start` hands over carries what it was asked to move. -/
theorem carries_of_start (hx : x.1 = s) (hb : b ∈ startedBy x) (hbuf : SameBuf s t b) :
    Carries (tr ++ [x]) t b (s.payload b) := by
  refine ⟨⟨x, by simp, hb, by rw [hx]⟩, ?_⟩
  rw [Buf.dirty, hbuf.1, hbuf.2]
  intro hd
  rw [State.payload, Buf.dirty, if_pos hd]

/-- A handler past the pop relies on nothing. -/
theorem promise_of_late (h : pc.early = false) : Promise tr s pc := by
  cases pc with
  | popped b => trivial
  | posted => trivial
  | started => trivial
  | _ => cases h

end

omit [DecidableEq R] in
/-- A move of one handler past the pop leaves the others with what they
have. -/
theorem promise_gotoIntr {pc' : Intr R D} {c' : C} (hpc : pc.early = false)
    (h : (s.gotoIntr c (some pc)).handler c' = some pc') :
    s.handler c' = some pc' ∨ Promise (tr ++ [x]) t pc' := by
  rcases update_eq_cases h with ⟨-, hpc'⟩ | ⟨-, hc'⟩
  · obtain rfl := Option.some.inj hpc'
    exact Or.inr (promise_of_late hpc)
  · exact Or.inl hc'

section

variable (hrun : Run State.step (State.init disk d) tr s) (h : Delivered tr s)

include hrun h

/-- **The frame of a step.** The transfers carry over where the step leaves
the queued requests alone, and what it adds to the device, to the handlers
and to the completed requests is in order. -/
theorem Delivered.frame (hbuf : ∀ b ∈ queued tr, SameBuf s t b)
    (hdev : ∀ y ∈ t.device, y ∈ s.device ∨ Carries (tr ++ [x]) t y.1 y.2)
    (hhandler : ∀ c pc, t.handler c = some pc → s.handler c = some pc ∨ Promise (tr ++ [x]) t pc)
    (hfront : ∀ c v, s.handler c = some (.begin v) → t.handler c = some (.begin v) →
      t.bufQueue.head? = s.bufQueue.head?) (hcomp : ∀ b ∈ completedBy x, Holds (tr ++ [x]) t b) :
    Delivered (tr ++ [x]) t := by
  obtain ⟨fl, up, hinv, hq, -, -⟩ := conserved hrun
  have hflight : ∀ b, fl = some b → SameBuf s t b := by
    intro b hb
    refine hbuf b ?_
    rw [hq]
    exact List.mem_append_right _ (List.mem_of_mem_head? (hinv.front b hb))
  refine ⟨fun y hy => ?_, fun c pc hc => ?_, fun b hb => ?_⟩
  · rcases hdev y hy with hy | hy
    · exact (h.device y hy).frame (hflight _ (hinv.flight_of_device hy)) x
    · exact hy
  · rcases hhandler c pc hc with hc' | hp
    · refine Promise.frame hinv hc' (h.handler c pc hc') hflight (fun v hv => ?_) x
      obtain rfl : pc = .begin v := Option.mem_unique hc' hv
      exact hfront c v hv hc
    · exact hp
  · simp only [Sd.completed, List.flatMap_append, List.flatMap_cons, List.flatMap_nil,
      List.append_nil] at hb
    rcases List.mem_append.1 hb with hb | hb
    · refine (h.completed b hb).frame (hbuf b ?_) x
      rw [hq]
      exact List.mem_append_left _ hb
    · exact hcomp b hb

/-- A step of `sdrw` keeps the transfers in order. -/
theorem Delivered.sdrw {pc : At} (hr : s.thread r = some pc) (hs : s.sdrw r pc = some t) :
    Delivered (tr ++ [(s, .run r)]) t := by
  obtain ⟨fl, up, hinv, -⟩ := conserved hrun
  obtain ⟨-, hh, -, hothers, hself, hq, hdev⟩ := effect_of_sdrw hs
  have hbuf : ∀ b, SameBuf s t b := by
    intro b
    by_cases hb : b = r
    · subst hb
      exact hself
    · rw [SameBuf, hothers b hb]
      exact ⟨rfl, rfl⟩
  refine h.frame hrun (fun b _ => hbuf b) ?_ ?_ ?_ (by simp [completedBy])
  · intro y hy
    rcases hdev with hdev | ⟨rfl, hdev⟩
    · exact Or.inl (hdev ▸ hy)
    · rw [hdev] at hy
      rcases List.mem_append.1 hy with hy | hy
      · exact Or.inl hy
      · obtain rfl := List.mem_singleton.1 hy
        exact Or.inr (carries_of_start rfl (by simp [startedBy, hr]) (hbuf r))
  · intro c pc hc
    exact Or.inl (hh ▸ hc)
  · intro c v hc _
    rcases hq with hq | ⟨-, hq⟩
    · rw [hq]
    · -- a handler with an interrupt finds the queue non-empty
      have hearly : s.early c = true := by simp [State.early, hc, Intr.early]
      obtain ⟨b, hfl, -⟩ := hinv.flight_of_early hearly
      rw [hq, List.head?_append, hinv.front b hfl]
      rfl

/-- A handler that moves and touches neither the requests nor the device. -/
theorem Delivered.gotoIntr {pc : Option (Intr R D)} {o : Option (Owner R C)}
    (hpc : ∀ pc', pc = some pc' → Promise (tr ++ [x]) ((s.setLock o).gotoIntr c pc) pc')
    (hcomp : completedBy x = []) : Delivered (tr ++ [x]) ((s.setLock o).gotoIntr c pc) := by
  refine h.frame hrun (fun b _ => .of_eq rfl b) (fun y hy => Or.inl hy) ?_ (fun _ _ _ _ => rfl)
    (by simp [hcomp])
  intro c' pc' hc'
  rcases update_eq_cases hc' with ⟨-, hpc'⟩ | ⟨-, hc'⟩
  · exact Or.inr (hpc pc' hpc')
  · exact Or.inl hc'

/-- **The transfer.** The request gets what the device was asked to move. -/
theorem Delivered.transfer (hc : s.handler c = some (.front v b)) :
    Delivered (tr ++ [(s, .handle c)]) ((s.transfer b v).gotoIntr c (some (.done b))) := by
  obtain ⟨fl, up, hinv, hq, -⟩ := conserved hrun
  have hearly : s.early c = true := by simp [State.early, hc, Intr.early]
  obtain ⟨r, hr, hdev, hex⟩ := hinv.flight_of_early hearly
  have hfl : fl = some b := hinv.request c b (by simp [hc, Intr.request])
  obtain ⟨⟨x, hx, hstart⟩, hdirty⟩ := h.handler c _ hc
  have hself : Holds (tr ++ [(s, .handle c)]) ((s.transfer b v).gotoIntr c (some (.done b))) b := by
    refine ⟨by simp [State.gotoIntr, State.transfer, State.setBuf], x, List.mem_append_left _ hx,
      hstart.1, ?_⟩
    simp only [State.gotoIntr, State.transfer, State.setBuf, update_self]
    split
    · next hd => rw [hstart.2, hdirty hd]
    · exact hstart.2
  refine ⟨?_, ?_, ?_⟩
  · intro y hy
    have hy : y ∈ s.device := hy
    simp [hdev] at hy
  · intro c' pc hpc
    rcases update_eq_cases hpc with ⟨-, hpc⟩ | ⟨hne, hpc⟩
    · obtain rfl := Option.some.inj hpc
      exact hself
    · -- no other handler has an interrupt
      refine promise_of_late ?_
      have hout := hex.outside hne
      rw [State.early, show s.handler c' = some pc from hpc] at hout
      exact hout
  · intro b' hb'
    have hb' : b' ∈ Sd.completed tr := by simpa [Sd.completed, completedBy, hc] using hb'
    have hne : b' ≠ b := by
      rintro rfl
      have hnd := (queued_once hrun).1
      rw [hq] at hnd
      exact (List.nodup_append'.1 hnd).2.2 hb' (List.mem_of_mem_head? (hinv.front b' hfl))
    refine (h.completed b' hb').frame ?_ _
    simp [SameBuf, State.gotoIntr, State.transfer, State.setBuf, hne]

/-- A step of `sd_intr` keeps the transfers in order. -/
theorem Delivered.sdIntr (hc : s.handler c = some pc) (hs : s.sdIntr c pc = some t) :
    Delivered (tr ++ [(s, .handle c)]) t := by
  obtain ⟨fl, up, hinv, -⟩ := conserved hrun
  have hp := h.handler c pc hc
  cases pc with
  | begin v =>
    obtain ⟨b, hb, rfl⟩ := Option.map_eq_some_iff.1 hs
    refine h.gotoIntr (o := s.sdlock) hrun ?_ (by simp [completedBy, hc])
    intro pc' hpc'
    obtain rfl := Option.some.inj hpc'
    exact Carries.frame (hp b hb) (.of_eq rfl b) _
  | front v b =>
    obtain rfl := Option.some.inj hs
    exact h.transfer hrun hc
  | done b =>
    obtain ⟨-, rfl⟩ := of_guard hs
    refine h.gotoIntr hrun ?_ (by simp [completedBy, hc])
    intro pc' hpc'
    obtain rfl := Option.some.inj hpc'
    exact Holds.frame hp (.of_eq rfl b) _
  | locked b =>
    obtain ⟨-, rfl⟩ := of_guard_not hs
    have hearly : s.early c = true := by simp [State.early, hc, Intr.early]
    obtain ⟨r, -, -, hex⟩ := hinv.flight_of_early hearly
    obtain ⟨-, -, hhead, -⟩ := hinv.pop hc
    refine h.frame hrun (fun b _ => .of_eq rfl b) (fun y hy => Or.inl hy)
      (fun _ _ hc' => promise_gotoIntr rfl hc') ?_ ?_
    · -- the handler that pops is the only one with an interrupt
      intro c' v hv hv'
      have hearly' : s.early c' = true := by simp [State.early, hv, Intr.early]
      obtain rfl := hex.eq_of_inside hearly' hearly
      simp [hc] at hv
    · intro b' hb'
      obtain rfl : b' = b := by simpa [completedBy, hc, hhead] using hb'
      exact Holds.frame hp (.of_eq rfl b') _
  | popped b =>
    obtain ⟨s', hs', rfl⟩ := Option.map_eq_some_iff.1 hs
    obtain ⟨x, -, rfl⟩ := Option.map_eq_some_iff.1 hs'
    refine h.frame hrun ?_ (fun y hy => Or.inl hy) (fun _ _ hc' => promise_gotoIntr rfl hc')
      (fun _ _ _ _ => rfl) (by simp [completedBy, hc])
    intro b' _
    by_cases hb : b' = b
    · subst hb
      simp [SameBuf, State.gotoIntr, State.setBuf]
    · simp [SameBuf, State.gotoIntr, State.setBuf, hb]
  | posted =>
    obtain rfl := Option.some.inj hs
    have hbuf : ∀ b, SameBuf s (s.startNext.gotoIntr c (some .started)) b :=
      .of_eq s.startNext_buf
    refine h.frame hrun (fun b _ => hbuf b) ?_ ?_ ?_ (by simp [completedBy, hc])
    · intro y hy
      have hy : y ∈ s.startNext.device := hy
      rw [State.startNext_device] at hy
      rcases List.mem_append.1 hy with hy | hy
      · exact Or.inl hy
      · obtain ⟨b, hb, rfl⟩ := List.mem_map.1 hy
        exact Or.inr (carries_of_start rfl (by simpa [startedBy, hc] using hb) (hbuf b))
    · intro c' pc' hc'
      rw [← State.startNext_handler]
      exact promise_gotoIntr rfl hc'
    · intro c' v _ _
      show s.startNext.bufQueue.head? = s.bufQueue.head?
      rw [State.startNext_bufQueue]
  | started =>
    obtain rfl := Option.some.inj hs
    exact h.gotoIntr hrun (by simp) (by simp [completedBy, hc])

/-- **Every step keeps the transfers in order.** -/
theorem Delivered.step (hs : s.step a = some t) : Delivered (tr ++ [(s, a)]) t := by
  cases a with
  | call r flags blockno data =>
    obtain ⟨hr, rfl⟩ := of_guard hs
    refine h.frame hrun ?_ (fun y hy => Or.inl hy) (fun c pc hc => Or.inl hc) (fun _ _ _ _ => rfl)
      (by simp [completedBy])
    -- the new request is not queued yet
    intro b hb
    have hne : b ≠ r := by
      rintro rfl
      have := (queued_once hrun).2 b hb
      simp [hr] at this
    simp [SameBuf, State.call, State.goto, State.setBuf, hne]
  | run r =>
    obtain ⟨pc, hr, hs⟩ := Option.bind_eq_some_iff.1 hs
    exact h.sdrw hrun hr hs
  | irq c =>
    simp only [State.step, Option.ite_none_right_eq_some] at hs
    obtain ⟨fl, up, hinv, -⟩ := conserved hrun
    obtain ⟨r, v, rest, hd, rfl⟩ := Inv.of_interrupt hs.2
    have hmem : (r, v) ∈ s.device := by simp [hd]
    have hfl := hinv.flight_of_device hmem
    refine h.frame hrun (fun b _ => .of_eq rfl b) ?_ ?_ (fun _ _ _ _ => rfl)
      (by simp [completedBy])
    · intro y hy
      refine Or.inl ?_
      rw [hd]
      exact List.mem_cons_of_mem _ hy
    · intro c' pc' hc'
      rcases update_eq_cases hc' with ⟨-, hpc'⟩ | ⟨-, hc'⟩
      · obtain rfl := Option.some.inj hpc'
        refine Or.inr fun b hb => ?_
        obtain rfl : r = b := Option.some.inj ((hinv.front r hfl).symm.trans hb)
        exact (h.device _ hmem).frame (.of_eq rfl r) _
      · exact Or.inl hc'
  | handle c =>
    obtain ⟨pc, hc, hs⟩ := Option.bind_eq_some_iff.1 hs
    exact h.sdIntr hrun hc hs
  | kill r =>
    obtain rfl := Option.some.inj hs
    exact h.frame hrun (fun b _ => .of_eq rfl b) (fun y hy => Or.inl hy)
      (fun c pc hc => Or.inl hc) (fun _ _ _ _ => rfl) (by simp [completedBy])

end

/-- **A completed request holds its data**, in every run. -/
theorem delivered_of_run (hrun : Run State.step (State.init disk d) tr s) : Delivered tr s := by
  refine (hrun.traceInvariant
    (I := fun tr s => Run State.step (State.init disk d) tr s ∧ Delivered tr s) ⟨Run.nil, ?_⟩ ?_).2
  · exact ⟨by simp [State.init], by simp [State.init], by simp [completed]⟩
  · rintro tr s a t ⟨hrun, h⟩ hs
    exact ⟨hrun.snoc hs, h.step hrun hs⟩

/-! ## The semaphore of a request -/

/-- The semaphore of a request, by whether it is posted and whether the
caller has called `wait_sem`. -/
def semOf (r : R) (posted waited : Bool) : Semaphore R :=
  ⟨none, (if posted then 1 else 0) - (if waited then 1 else 0), if waited && !posted then [r] else []⟩

/-- What the semaphore of a request is while its caller is at `pc`, by
whether the request is posted. Past `wait_sem` it is posted. -/
def Waits (r : R) (sem : Semaphore R) (posted : Bool) : Option At → Prop
  | none => True
  | some .check | some .returned => posted = true
  | some .asleep => sem = semOf r posted true
  | some _ => sem = semOf r posted false

/-- **The callers of a run without kills.** -/
structure Waiting (tr : List (State R C D × Act R C D)) (s : State R C D) : Prop where
  waits : ∀ r, Waits r (s.buf r).bufsem (r ∈ posted tr) (s.thread r)
  killed : ∀ r, s.killed r = true → s.thread r = some .returned

/-- No caller is killed before its `sdrw` has returned. -/
def Unkilled (s : State R C D) (a : Act R C D) : Prop :=
  ∀ r, a = .kill r → s.thread r = some .returned

omit [DecidableEq R] [DecidableEq C] in
theorem mem_posted_snoc : r ∈ posted (tr ++ [x]) ↔ r ∈ posted tr ∨ r ∈ postedBy x := by
  simp [posted]

/-- A posted request is completed, so it is queued and holds its data. -/
theorem completed_of_posted (hrun : Run State.step (State.init disk d) tr s) (hr : r ∈ posted tr) :
    r ∈ completed tr ∧ r ∈ queued tr ∧ r ∉ s.bufQueue := by
  obtain ⟨fl, up, -, hq, -, hp⟩ := conserved hrun
  have hcomp : r ∈ completed tr := by
    rw [hp]
    exact List.mem_append_left _ hr
  have hnd := (queued_once hrun).1
  rw [hq] at hnd ⊢
  exact ⟨hcomp, List.mem_append_left _ hcomp, (List.nodup_append'.1 hnd).2.2 hcomp⟩

/-- A popped request is queued and not yet posted. -/
theorem not_posted_of_popped (hrun : Run State.step (State.init disk d) tr s)
    (hc : s.handler c = some (.popped b)) : b ∈ queued tr ∧ b ∉ posted tr := by
  obtain ⟨fl, up, hinv, hq, -, hp⟩ := conserved hrun
  obtain rfl : up = some b := (hinv.unposted b).2 ⟨c, hc⟩
  have hnd := (queued_once hrun).1
  have hsplit : queued tr = posted tr ++ (b :: s.bufQueue) := by
    rw [hq, hp]
    simp
  rw [hsplit] at hnd ⊢
  exact ⟨by simp, fun hb => (List.nodup_append'.1 hnd).2.2 hb (by simp)⟩

omit [DecidableEq C] in
/-- A step of `sdrw` by a caller that is not killed. -/
theorem Waits.sdrw {pc : At} {posted : Bool} (hr : s.thread r = some pc)
    (hs : s.sdrw r pc = some t) (h : Waits r (s.buf r).bufsem posted (some pc))
    (hflags : posted = true → (s.buf r).flags = bValid) (hkill : s.killed r = false) :
    Waits r (t.buf r).bufsem posted (t.thread r) := by
  cases pc with
  | enter =>
    obtain ⟨-, rfl⟩ := of_guard hs
    simpa [State.goto, State.setLock, Waits] using h
  | locked =>
    obtain rfl := Option.some.inj hs
    simpa [State.goto, State.setQueue, Waits] using h
  | pushed sz =>
    obtain rfl := Option.some.inj hs
    split
    · simpa [State.goto, State.sdStart, Waits] using h
    · simpa [State.goto, Waits] using h
  | started =>
    obtain rfl := Option.some.inj hs
    simpa [State.goto, State.setLock, Waits] using h
  | loop =>
    obtain rfl := Option.some.inj hs
    have hsem : (s.buf r).bufsem = semOf r posted false := h
    cases posted with
    | false | true =>
      simp [State.wait, State.goto, State.setBuf, hsem, semOf, Semaphore.waitSem, Waits]
  | asleep =>
    have hsem : (s.buf r).bufsem = semOf r posted true := h
    simp only [State.sdrw, State.wake, hkill] at hs
    cases posted with
    | false => simp [hsem, semOf] at hs
    | true =>
      simp only [hsem, semOf, Bool.not_true, Bool.and_false, Bool.false_eq_true, if_false,
        List.not_mem_nil, Option.some.injEq] at hs
      subst hs
      simp [State.goto, Waits]
  | check =>
    obtain rfl := Option.some.inj hs
    have hp : posted = true := h
    simp [State.goto, hflags hp, Waits, hp]
  | returned => cases hs

omit [DecidableEq R] [DecidableEq C] in
/-- The post of a request, of which the caller sleeps or has not yet called
`wait_sem`. -/
theorem Waits.post {sem : Semaphore R} {w : Option R} {pc : Option At}
    (h : Waits b (s.buf b).bufsem false pc)
    (hpost : Semaphore.postSem (s.buf b).bufsem = some (sem, w)) : Waits b sem true pc := by
  have hsem : ∀ waited, (s.buf b).bufsem = semOf b false waited → sem = semOf b true waited := by
    intro waited hw
    obtain ⟨w', hval⟩ :
        ∃ w', Semaphore.postSem (semOf b false waited) = some (semOf b true waited, w') := by
      cases waited with
      | false => exact ⟨none, rfl⟩
      | true => exact ⟨some b, rfl⟩
    rw [hw, hval] at hpost
    exact (congrArg Prod.fst (Option.some.inj hpost)).symm
  cases pc with
  | none => trivial
  | some pc =>
    cases pc with
    | check => rfl
    | returned => rfl
    | asleep => exact hsem true h
    | _ => exact hsem false h

/-- **Every step without an early kill keeps the callers in order.** -/
theorem Waiting.step (hrun : Run State.step (State.init disk d) tr s) (h : Waiting tr s)
    (hkill : Unkilled s a) (hs : s.step a = some t) : Waiting (tr ++ [(s, a)]) t := by
  -- the requests that a step posts, as seen by one of them
  have hposted : ∀ r, r ∉ postedBy (s, a) →
      decide (r ∈ posted (tr ++ [(s, a)])) = decide (r ∈ posted tr) := by
    intro r hr
    simp [mem_posted_snoc, hr]
  cases a with
  | call r flags blockno data =>
    obtain ⟨hr, rfl⟩ := of_guard hs
    have hnot : r ∉ posted tr := by
      intro hp
      have := (queued_once hrun).2 r (completed_of_posted hrun hp).2.1
      simp [hr] at this
    refine ⟨fun r' => ?_, fun r' hr' => ?_⟩
    · rw [hposted r' (by simp [postedBy])]
      by_cases hrr : r' = r
      · subst hrr
        simp [State.call, State.goto, State.setBuf, Waits, hnot, semOf, Semaphore.initSem]
      · simpa [State.call, State.goto, State.setBuf, hrr] using h.waits r'
    · have hret := h.killed r' hr'
      have hrr : r' ≠ r := by
        rintro rfl
        simp [hr] at hret
      simpa [State.call, State.goto, State.setBuf, hrr] using hret
  | run r =>
    obtain ⟨pc, hr, hs⟩ := Option.bind_eq_some_iff.1 hs
    obtain ⟨⟨pc', ht, -⟩, -, hk, hother, -⟩ := effect_of_sdrw hs
    have hret : pc ≠ .returned := by
      rintro rfl
      cases hs
    have hkr : s.killed r = false := by
      rw [Bool.eq_false_iff]
      intro hk
      exact hret (Option.some.inj (hr.symm.trans (h.killed r hk)))
    refine ⟨fun r' => ?_, fun r' hr' => ?_⟩
    · rw [hposted r' (by simp [postedBy])]
      by_cases hrr : r' = r
      · subst hrr
        refine Waits.sdrw hr hs (hr ▸ h.waits r') (fun hp => ?_) hkr
        have hcomp := (completed_of_posted hrun (of_decide_eq_true hp)).1
        exact ((delivered_of_run hrun).completed r' hcomp).1
      · rw [hother r' hrr, ht, update_of_ne hrr]
        exact h.waits r'
    · rw [hk] at hr'
      have hrr : r' ≠ r := by
        rintro rfl
        simp [hkr] at hr'
      rw [ht, update_of_ne hrr]
      exact h.killed r' hr'
  | irq c =>
    simp only [State.step, Option.ite_none_right_eq_some] at hs
    obtain ⟨r', v, rest, -, rfl⟩ := Inv.of_interrupt hs.2
    refine ⟨fun r => ?_, h.killed⟩
    rw [hposted r (by simp [postedBy])]
    exact h.waits r
  | handle c =>
    obtain ⟨pc, hc, hs⟩ := Option.bind_eq_some_iff.1 hs
    obtain ⟨ht, hk, heffect⟩ := effect_of_sdIntr hs
    refine ⟨fun r => ?_, fun r hr => ?_⟩
    · rw [ht]
      rcases heffect with ⟨b, sem, w, rfl, hpost, hsem, hother⟩ | ⟨hne, hsem⟩
      · by_cases hrb : r = b
        · subst hrb
          have hnot := (not_posted_of_popped hrun hc).2
          have hw := h.waits r
          rw [decide_eq_false hnot] at hw
          rw [decide_eq_true (mem_posted_snoc.2 (Or.inr (by simp [postedBy, hc]))), hsem]
          exact hw.post hpost
        · rw [hposted r (by simp [postedBy, hc, hrb]), hother r hrb]
          exact h.waits r
      · rw [hsem r, hposted r]
        · exact h.waits r
        · cases pc with
          | popped b => exact absurd rfl (hne b)
          | _ => simp [postedBy, hc]
    · rw [hk] at hr
      rw [ht]
      exact h.killed r hr
  | kill r =>
    have hret := hkill r rfl
    obtain rfl := Option.some.inj hs
    refine ⟨fun r' => ?_, fun r' hr' => ?_⟩
    · rw [hposted r' (by simp [postedBy])]
      exact h.waits r'
    · by_cases hrr : r' = r
      · subst hrr
        exact hret
      · exact h.killed r' (by simpa [hrr] using hr')

/-- The request whose `buf` the rest of the handler uses. -/
def Intr.touches : Intr R D → Option R
  | .front _ b | .done b | .locked b | .popped b => some b
  | _ => none

/-- A handler does not touch a posted request. -/
theorem not_touches_of_posted (hrun : Run State.step (State.init disk d) tr s) (hr : r ∈ posted tr)
    (hc : s.handler c = some pc) : pc.touches ≠ some r := by
  obtain ⟨fl, up, hinv, -⟩ := conserved hrun
  obtain ⟨-, -, hnot⟩ := completed_of_posted hrun hr
  have hreq : pc.request ≠ some r := by
    intro hb
    have hfl := hinv.request c r (by simp [hc, hb])
    exact hnot (List.mem_of_mem_head? (hinv.front r hfl))
  intro ht
  cases pc with
  | popped b =>
    obtain rfl : b = r := Option.some.inj ht
    exact (not_posted_of_popped hrun hc).2 hr
  | begin v => cases ht
  | posted => cases ht
  | started => cases ht
  | _ => exact hreq ht

/-- **`sdrw` returns only when its transfer is done**, if no caller is
killed in it: the request has left the queue, its flags are `B_VALID`, it
holds what was read, or what was written, when it was started, and no
interrupt handler touches it any more. -/
theorem sdrw_returns_done (hrun : Run State.step (State.init disk d) tr s)
    (hkill : ∀ x ∈ tr, Unkilled x.1 x.2) :
    ∀ r, s.thread r = some .returned →
      r ∉ s.bufQueue ∧ (s.buf r).flags = bValid ∧
      (∃ x ∈ tr, r ∈ startedBy x ∧ x.1.payload r = (s.buf r).data) ∧
      ∀ c pc, s.handler c = some pc → pc.touches ≠ some r := by
  have hwait : Waiting tr s := by
    refine (hrun.traceInvariantOf (K := Unkilled) (I := fun tr s =>
      Run State.step (State.init disk d) tr s ∧ Waiting tr s) hkill ⟨Run.nil, ?_⟩ ?_).2
    · exact ⟨fun r => trivial, by simp [State.init]⟩
    · rintro tr s a t ⟨hrun, h⟩ hk hs
      exact ⟨hrun.snoc hs, h.step hrun hk hs⟩
  intro r hr
  have hw := hwait.waits r
  rw [hr] at hw
  have hposted : r ∈ posted tr := of_decide_eq_true hw
  obtain ⟨hcomp, -, hnot⟩ := completed_of_posted hrun hposted
  obtain ⟨hflags, hdata⟩ := (delivered_of_run hrun).completed r hcomp
  exact ⟨hnot, hflags, hdata, fun c pc hc => not_touches_of_posted hrun hposted hc⟩

/-- A read of block 5 that sleeps until its interrupt. -/
def oneRead : List (Act ℕ Unit ℕ) :=
  [.call 0 0 5 0, .run 0, .run 0, .run 0, .run 0, .run 0, .irq (), .handle (), .handle (),
    .handle (), .handle (), .handle (), .run 0, .run 0, .kill 0]

theorem sdrw_returns_done_oneRead :
    ∃ s, exec State.step (State.init (fun n => n + 10) 0) oneRead = some s ∧
      (s.buf 0).data = 15 ∧ s.thread 0 = some .returned ∧ 0 ∉ s.bufQueue ∧
      (s.buf 0).flags = bValid := by
  have hsome : (exec State.step (State.init (fun n => n + 10) 0) oneRead).any
      (fun s => s.thread 0 = some .returned ∧ (s.buf 0).data = 15) = true := by decide +kernel
  obtain ⟨s, hs, hq⟩ := (Option.any_eq_true _ _).1 hsome
  simp only [decide_eq_true_eq] at hq
  have hkill : ∀ x ∈ execTrace State.step (State.init (fun n => n + 10) 0) oneRead,
      x.2 = Act.kill 0 → x.1.thread 0 = some .returned := by decide +kernel
  have hzero : ∀ a ∈ oneRead, ∀ r, a = .kill r → r = 0 := by
    simp [oneRead]
  obtain ⟨hnot, hflags, -⟩ := sdrw_returns_done (Run.of_exec hs) (fun x hx r hr => by
    obtain rfl := forall_execTrace hs hzero x hx r hr
    exact hkill x hx hr) 0 hq.1
  exact ⟨s, hs, hq.2, hq.1, hnot, hflags⟩

/-- **A killed caller returns before its transfer.** The request is still
the front of the queue, its flags are 0, and the device is still to
deliver its block: the interrupt handler will write to a stack frame that
is gone. -/
theorem killed_sdrw_returns_early :
    (exec State.step (State.init (fun n => n + 10) 0)
      [.call 0 0 5 0, .run 0, .run 0, .run 0, .run 0, .run 0, .kill 0, .run (0 : ℕ)]).any
        (fun s : State ℕ Unit ℕ => s.thread 0 = some .returned ∧ s.bufQueue = [0] ∧
          (s.buf 0).flags = 0 ∧ s.device = [(0, 15)]) = true := by
  decide +kernel

end OsKernel.Sd
