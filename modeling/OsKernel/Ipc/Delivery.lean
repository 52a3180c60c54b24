import OsKernel.Ipc.Model

/-!
# Message queues — delivery

A message travels through `q_message` or straight to a waiting receiver.
Over any run the messages sent are the messages delivered and those in the
queue, each exactly once; senders wait only while the queue is full, and no
receiver waits for a message that is there.
-/

namespace OsKernel.Ipc

open Function

variable {T : Type} [DecidableEq T] {s s' : State T} {a : Act T} {t : T} {m : Msg}
variable {mtype : ℤ}

/-! ## The two searches -/

section

omit [DecidableEq T]

/-- `pipeline_send` that finds no receiver leaves them all, and none
matches. -/
theorem pipelineSend_none {l l' : List (Receiver T)} (h : pipelineSend m l = some (l', none)) :
    l' = l ∧ ∀ rc ∈ l, testmsg rc.mtype m.mtype = false := by
  induction l generalizing l' with
  | nil =>
    obtain ⟨rfl, -⟩ := pair_inj h
    simp
  | cons rc l ih =>
    rw [pipelineSend] at h
    split_ifs at h with hmatch hsize
    · simp at h
    obtain ⟨⟨l₁, x⟩, hl, heq⟩ := Option.map_eq_some_iff.1 h
    obtain ⟨rfl, rfl⟩ := Prod.mk.inj heq
    obtain ⟨rfl, hno⟩ := ih hl
    refine ⟨rfl, ?_⟩
    intro rc' hrc
    rcases List.mem_cons.1 hrc with rfl | hrc
    · simpa using hmatch
    · exact hno rc' hrc

/-- `pipeline_send` takes the receiver it finds off the list. -/
theorem pipelineSend_some {l l' : List (Receiver T)} {rc : Receiver T}
    (h : pipelineSend m l = some (l', some rc)) :
    ∃ pre post, l = pre ++ rc :: post ∧ l' = pre ++ post ∧ testmsg rc.mtype m.mtype = true ∧
      m.size ≤ rc.size := by
  induction l generalizing l' with
  | nil => simp [pipelineSend] at h
  | cons rc' l ih =>
    rw [pipelineSend] at h
    split_ifs at h with hmatch hsize
    · obtain ⟨rfl, heq⟩ := pair_inj h
      obtain rfl := Option.some.inj heq
      exact ⟨[], l, rfl, rfl, hmatch, Int.not_lt.1 hsize⟩
    · obtain ⟨⟨l₁, x⟩, hl, heq⟩ := Option.map_eq_some_iff.1 h
      obtain ⟨rfl, rfl⟩ := Prod.mk.inj heq
      obtain ⟨pre, post, rfl, rfl, hm, hsize⟩ := ih hl
      exact ⟨rc' :: pre, post, rfl, rfl, hm, hsize⟩

/-- `pipeline_send` returns where the message fits every receiver. -/
theorem pipelineSend_isSome {l : List (Receiver T)} (h : ∀ rc ∈ l, m.size ≤ rc.size) :
    (pipelineSend m l).isSome = true := by
  induction l with
  | nil => rfl
  | cons rc l ih =>
    rw [pipelineSend]
    have hrc := h rc (by simp)
    split_ifs with hmatch hsize
    · omega
    · rfl
    · simpa using ih fun rc' hrc' => h rc' (by simp [hrc'])

end

theorem findLoop_none {found : Option Msg} {l : List Msg} (h : findLoop mtype found l = none) :
    found = none ∧ ∀ m ∈ l, testmsg mtype m.mtype = false := by
  induction l generalizing mtype found with
  | nil => exact ⟨h, by simp⟩
  | cons m l ih =>
    rw [findLoop] at h
    split_ifs at h with hmatch hneg
    · exact absurd (ih h).1 (by simp)
    · obtain ⟨hf, hl⟩ := ih h
      refine ⟨hf, ?_⟩
      intro m' hm'
      rcases List.mem_cons.1 hm' with rfl | hm'
      · simpa using hmatch
      · exact hl m' hm'

/-- Where `sys_msgrcv` finds nothing, nothing matches: its type changes only
on a match. -/
theorem findMsg_none {l : List Msg} (h : findMsg mtype l = none) :
    ∀ m ∈ l, testmsg mtype m.mtype = false :=
  (findLoop_none h).2

theorem findLoop_some {found : Option Msg} {l : List Msg} (h : findLoop mtype found l = some m) :
    m ∈ l ∨ found = some m := by
  induction l generalizing mtype found with
  | nil => exact Or.inr h
  | cons m' l ih =>
    rw [findLoop] at h
    split_ifs at h with hmatch hneg
    · rcases ih h with hm | hm
      · exact Or.inl (List.mem_cons_of_mem _ hm)
      · exact Or.inl (by simp [Option.some.inj hm])
    · exact Or.inl (by simp [Option.some.inj h])
    · rcases ih h with hm | hm
      · exact Or.inl (List.mem_cons_of_mem _ hm)
      · exact Or.inr hm

/-- `sys_msgrcv` finds a message of the queue. -/
theorem findMsg_mem {l : List Msg} (h : findMsg mtype l = some m) : m ∈ l := by
  rcases findLoop_some h with h | h
  · exact h
  · cases h

/-- With type 0 it finds the first one. -/
theorem findMsg_zero (l : List Msg) : findMsg 0 l = l.head? := by
  cases l with
  | nil => rfl
  | cons m l => simp [findMsg, findLoop, testmsg]

/-! ## What a step can do -/

/-- Is the process neither asleep in `sys_msgrcv` nor in possession of a
message? -/
def Call.plain : Call → Bool
  | .asleep _ | .got _ _ => false
  | _ => true

/-- **What a step does**, with the messages it sends, delivers and
receives. -/
inductive Change (s : State T) : State T → List Msg → List (T × Msg) → List (T × Msg) → Prop
  /-- A call begins, or returns with an error. -/
  | quiet (t : T) (c : Call) : (s.proc t).plain = true → c.plain = true →
      (∀ m nowait, c ≠ .snd m nowait) → Change s (s.setProc t c) [] [] []
  /-- A message is loaded. -/
  | load (t : T) (mtype size : ℤ) (nowait : Bool) : (s.proc t).plain = true →
      Change s ({ s with loaded := s.loaded + 1 }.setProc t (.snd ⟨s.loaded, mtype, size⟩ nowait))
        [] [] []
  /-- A sender goes to sleep. -/
  | park (t : T) : maxMsg < s.sumMsg + 1 → Change s { s with qSender := s.qSender ++ [t] } [] [] []
  /-- A message goes to a waiting receiver. -/
  | direct (t : T) (m : Msg) (nowait : Bool) (pre post : List (Receiver T)) (rc : Receiver T) :
      s.proc t = .snd m nowait → s.sumMsg + 1 ≤ maxMsg → s.qReceiver = pre ++ rc :: post →
      Change s (({ s with qReceiver := pre ++ post }.setProc rc.proc (.got rc.size m)).setProc t
        (.done 0)) [m] [(rc.proc, m)] []
  /-- A message goes into the queue. -/
  | enqueue (t : T) (m : Msg) (nowait : Bool) :
      s.proc t = .snd m nowait → s.sumMsg + 1 ≤ maxMsg →
      (∀ rc ∈ s.qReceiver, testmsg rc.mtype m.mtype = false) →
      Change s ({ s with
        qMessage := s.qMessage ++ [m], sumMsg := s.sumMsg + 1 }.setProc t (.done 0)) [m] [] []
  /-- A receiver takes a message from the queue. -/
  | take (t : T) (m : Msg) (size mtype : ℤ) (nowait : Bool) :
      s.proc t = .rcv size mtype nowait → m ∈ s.qMessage →
      Change s ({ s with
        qMessage := s.qMessage.erase m, sumMsg := s.sumMsg - 1, qSender := [] }.setProc t
          (.got size m)) [] [(t, m)] []
  /-- A receiver goes to sleep. -/
  | sleep (t : T) (size mtype : ℤ) (nowait : Bool) :
      s.proc t = .rcv size mtype nowait → (∀ m ∈ s.qMessage, testmsg mtype m.mtype = false) →
      Change s ({ s with
        qReceiver := s.qReceiver ++ [(⟨t, mtype, size⟩ : Receiver T)] }.setProc t (.asleep size))
        [] [] []
  /-- A receiver returns with its message. -/
  | receive (t : T) (m : Msg) (size ret : ℤ) : s.proc t = .got size m →
      Change s (s.setProc t (.done ret)) [] [] [(t, m)]

/-- A step of `sys_msgsnd`. -/
theorem change_of_msgsnd {nowait : Bool} (ht : s.proc t = .snd m nowait)
    (hs : s.msgsnd t m nowait = some s') :
    Change s s' (sentBy (s, .run t)) (deliveredBy (s, .run t)) (receivedBy (s, .run t)) := by
  have hstep : s.step (.run t) = some s' := by simp [State.step, State.run, ht, hs]
  have hrec : receivedBy (s, .run t) = [] := by simp [receivedBy, ht]
  unfold State.msgsnd at hs
  split_ifs at hs with hsleep hfull hnw
  · obtain rfl := Option.some.inj hs
    have hsent : sentBy (s, .run t) = [] := by simp [sentBy, ht, hstep, State.setProc]
    have hdel : deliveredBy (s, .run t) = [] := by simp [deliveredBy, ht, Int.not_le.2 hfull]
    rw [hsent, hdel, hrec]
    exact Change.quiet t _ (by simp [ht, Call.plain]) rfl (by simp)
  · obtain rfl := Option.some.inj hs
    have hsent : sentBy (s, .run t) = [] := by simp [sentBy, ht, hstep]
    have hdel : deliveredBy (s, .run t) = [] := by simp [deliveredBy, ht, Int.not_le.2 hfull]
    rw [hsent, hdel, hrec]
    exact Change.park t hfull
  · have hroom := Int.not_lt.1 hfull
    obtain ⟨⟨l, x⟩, hpipe, rfl⟩ := Option.map_eq_some_iff.1 hs
    cases x with
    | some rc =>
      obtain ⟨pre, post, hq, rfl, -, -⟩ := pipelineSend_some hpipe
      have hsent : sentBy (s, .run t) = [m] := by simp [sentBy, ht, hstep, State.setProc]
      have hdel : deliveredBy (s, .run t) = [(rc.proc, m)] := by
        simp [deliveredBy, ht, hsleep, hroom, hpipe]
      rw [hsent, hdel, hrec]
      exact Change.direct t m nowait pre post rc ht hroom hq
    | none =>
      obtain ⟨rfl, hno⟩ := pipelineSend_none hpipe
      have hsent : sentBy (s, .run t) = [m] := by simp [sentBy, ht, hstep, State.setProc]
      have hdel : deliveredBy (s, .run t) = [] := by
        simp [deliveredBy, ht, hsleep, hroom, hpipe]
      rw [hsent, hdel, hrec]
      exact Change.enqueue t m nowait ht hroom hno

/-- A step of `sys_msgrcv` under the lock. -/
theorem change_of_msgrcv {size : ℤ} {nowait : Bool} (ht : s.proc t = .rcv size mtype nowait) :
    Change s (s.msgrcv t size mtype nowait) (sentBy (s, .run t)) (deliveredBy (s, .run t))
      (receivedBy (s, .run t)) := by
  have hsent : sentBy (s, .run t) = [] := by simp [sentBy, ht]
  have hrec : receivedBy (s, .run t) = [] := by simp [receivedBy, ht]
  have hplain : (s.proc t).plain = true := by simp [ht, Call.plain]
  rw [hsent, hrec]
  unfold State.msgrcv
  cases hfind : findMsg mtype s.qMessage with
  | some m =>
    by_cases hsize : size < m.size
    · have hdel : deliveredBy (s, .run t) = [] := by simp [deliveredBy, ht, hfind, hsize]
      simp only [hsize, if_true]
      rw [hdel]
      exact Change.quiet t _ hplain rfl (by simp)
    · have hdel : deliveredBy (s, .run t) = [(t, m)] := by simp [deliveredBy, ht, hfind, hsize]
      simp only [hsize, if_false]
      rw [hdel]
      exact Change.take t m size mtype nowait ht (findMsg_mem hfind)
  | none =>
    have hdel : deliveredBy (s, .run t) = [] := by simp [deliveredBy, ht, hfind]
    rw [hdel]
    cases nowait with
    | true => exact Change.quiet t _ hplain rfl (by simp)
    | false => exact Change.sleep t size mtype false ht (findMsg_none hfind)

/-- **Every step is one of the changes.** -/
theorem change_of_step (hs : s.step a = some s') :
    Change s s' (sentBy (s, a)) (deliveredBy (s, a)) (receivedBy (s, a)) := by
  cases a with
  | callSnd t mtype msgsz nowait =>
    simp only [State.step] at hs
    split at hs
    · next ret ht =>
      obtain rfl := Option.some.inj hs
      have hplain : (s.proc t).plain = true := by simp [ht, Call.plain]
      unfold State.callSnd
      split_ifs
      · exact Change.quiet t _ hplain rfl (by simp)
      · exact Change.load t mtype msgsz nowait hplain
    · cases hs
  | callRcv t msgsz mtype nowait =>
    simp only [State.step] at hs
    split at hs
    · next ret ht =>
      obtain rfl := Option.some.inj hs
      have hplain : (s.proc t).plain = true := by simp [ht, Call.plain]
      split_ifs
      · exact Change.quiet t _ hplain rfl (by simp)
      · exact Change.quiet t _ hplain rfl (by simp)
    · cases hs
  | run t =>
    simp only [State.step] at hs
    cases ht : s.proc t with
    | snd m nowait =>
      rw [ht] at hs
      exact change_of_msgsnd ht hs
    | rcv size mtype nowait =>
      rw [ht] at hs
      obtain rfl := Option.some.inj hs
      exact change_of_msgrcv ht
    | asleep size =>
      rw [ht] at hs
      cases hs
    | got size m =>
      rw [ht] at hs
      obtain rfl := Option.some.inj hs
      have hsent : sentBy (s, .run t) = [] := by simp [sentBy, ht]
      have hdel : deliveredBy (s, .run t) = [] := by simp [deliveredBy, ht]
      have hrec : receivedBy (s, .run t) = [(t, m)] := by simp [receivedBy, ht]
      rw [hsent, hdel, hrec]
      exact Change.receive t m size _ ht
    | done ret =>
      rw [ht] at hs
      cases hs

/-! ## The queue -/

/-- **What holds of the queue between two steps.** -/
structure Inv (s : State T) : Prop where
  sum : s.sumMsg = s.qMessage.length
  bound : s.sumMsg ≤ maxMsg
  full : s.qSender ≠ [] → s.sumMsg = maxMsg
  apart : ∀ rc ∈ s.qReceiver, ∀ m ∈ s.qMessage, testmsg rc.mtype m.mtype = false
  nodup : (s.qReceiver.map Receiver.proc).Nodup
  asleep : ∀ rc ∈ s.qReceiver, s.proc rc.proc = .asleep rc.size

omit [DecidableEq T] in
/-- A process that is not asleep is not among the receivers. -/
theorem Inv.proc_ne (h : Inv s) (ht : ∀ k, s.proc t ≠ .asleep k) {rc : Receiver T}
    (hrc : rc ∈ s.qReceiver) : rc.proc ≠ t := by
  rintro rfl
  exact ht _ (h.asleep rc hrc)

/-- So its moves do not disturb them. -/
theorem Inv.asleep_setProc (h : Inv s) (ht : ∀ k, s.proc t ≠ .asleep k) (c : Call) {rc : Receiver T}
    (hrc : rc ∈ s.qReceiver) : (s.setProc t c).proc rc.proc = .asleep rc.size := by
  simp only [State.setProc]
  rw [update_of_ne (h.proc_ne ht hrc)]
  exact h.asleep rc hrc

theorem not_asleep_of_plain {c : Call} (h : c.plain = true) : ∀ k, c ≠ .asleep k := by
  rintro k rfl
  cases h

/-- **Every change keeps the queue in order.** -/
theorem Inv.change {ms : List Msg} {ds rs : List (T × Msg)} (h : Inv s)
    (hc : Change s s' ms ds rs) : Inv s' := by
  cases hc with
  | quiet t c ht hc =>
    refine ⟨h.sum, h.bound, h.full, h.apart, h.nodup, fun rc hrc => ?_⟩
    exact h.asleep_setProc (not_asleep_of_plain ht) c hrc
  | load t mtype size nowait ht =>
    refine ⟨h.sum, h.bound, h.full, h.apart, h.nodup, fun rc hrc => ?_⟩
    exact h.asleep_setProc (not_asleep_of_plain ht) _ hrc
  | park t hfull =>
    refine ⟨h.sum, h.bound, fun _ => ?_, h.apart, h.nodup, h.asleep⟩
    have := h.bound
    show s.sumMsg = maxMsg
    omega
  | direct t m nowait pre post rc ht hroom hq =>
    have hne : ∀ k, s.proc t ≠ .asleep k := by simp [ht]
    have hnodup := h.nodup
    rw [hq] at hnodup
    have hsub : (pre ++ post).Sublist s.qReceiver := by
      rw [hq]
      exact List.Sublist.append_left (List.sublist_cons_self rc post) pre
    refine ⟨h.sum, h.bound, h.full, fun rc' hrc' => h.apart rc' (hsub.subset hrc'),
      h.nodup.sublist (hsub.map _), fun rc' hrc' => ?_⟩
    -- the other receivers are other processes
    have hrc : rc'.proc ≠ rc.proc := by
      rw [List.map_append, List.map_cons, List.nodup_middle, List.nodup_cons,
        ← List.map_append] at hnodup
      intro heq
      exact hnodup.1 (heq ▸ List.mem_map_of_mem hrc')
    simp only [State.setProc]
    rw [update_of_ne (h.proc_ne hne (hsub.subset hrc')), update_of_ne hrc]
    exact h.asleep rc' (hsub.subset hrc')
  | enqueue t m nowait ht hroom hno =>
    refine ⟨?_, hroom, ?_, ?_, h.nodup, fun rc hrc => ?_⟩
    · simp [State.setProc, h.sum]
    · -- nobody waits for room while there is some
      intro hsend
      have := h.full hsend
      omega
    · intro rc hrc m' hm'
      rcases List.mem_append.1 hm' with hm' | hm'
      · exact h.apart rc hrc m' hm'
      · rw [List.mem_singleton.1 hm']
        exact hno rc hrc
    · exact h.asleep_setProc (by simp [ht]) _ hrc
  | take t m size mtype nowait ht hm =>
    have hpos := List.length_pos_of_mem hm
    refine ⟨?_, ?_, by simp [State.setProc], ?_, h.nodup, fun rc hrc => ?_⟩
    · simp only [State.setProc]
      rw [List.length_erase_of_mem hm, h.sum]
      omega
    · have := h.bound
      show s.sumMsg - 1 ≤ maxMsg
      omega
    · intro rc hrc m' hm'
      exact h.apart rc hrc m' (List.mem_of_mem_erase hm')
    · exact h.asleep_setProc (by simp [ht]) _ hrc
  | sleep t size mtype nowait ht hno =>
    have hne : ∀ k, s.proc t ≠ .asleep k := by simp [ht]
    refine ⟨h.sum, h.bound, h.full, ?_, ?_, ?_⟩
    · intro rc hrc m hm
      rcases List.mem_append.1 hrc with hrc | hrc
      · exact h.apart rc hrc m hm
      · rw [List.mem_singleton.1 hrc]
        exact hno m hm
    · simp only [State.setProc, List.map_append, List.map_cons, List.map_nil]
      refine List.Nodup.append h.nodup (by simp) ?_
      intro p hp hp'
      obtain ⟨rc, hrc, rfl⟩ := List.mem_map.1 hp
      exact h.proc_ne hne hrc (List.mem_singleton.1 hp')
    · intro rc hrc
      rcases List.mem_append.1 hrc with hrc | hrc
      · exact h.asleep_setProc hne _ hrc
      · rw [List.mem_singleton.1 hrc]
        simp [State.setProc]
  | receive t m size ret ht =>
    refine ⟨h.sum, h.bound, h.full, h.apart, h.nodup, fun rc hrc => ?_⟩
    exact h.asleep_setProc (by simp [ht]) _ hrc

/-! ## The messages of a run -/

variable {ms : List Msg} {ds rs : List (T × Msg)}

/-- **The messages sent (`ms`) are all different**, and a message that is
not sent yet is new and has one sender. -/
structure Ids (s : State T) (ms : List Msg) : Prop where
  nodup : (ms.map Msg.id).Nodup
  old : ∀ m ∈ ms, m.id < s.loaded
  fresh : ∀ t m nowait, s.proc t = .snd m nowait → m.id < s.loaded ∧ m.id ∉ ms.map Msg.id
  owner : ∀ t t' m m' nowait nowait', s.proc t = .snd m nowait → s.proc t' = .snd m' nowait' →
    m.id = m'.id → t = t'

namespace Ids

section

omit [DecidableEq T]

/-- A step that loads and sends nothing. -/
theorem mono (h : Ids s ms) (hl : s'.loaded = s.loaded)
    (hp : ∀ t m nowait, s'.proc t = .snd m nowait → s.proc t = .snd m nowait) : Ids s' ms where
  nodup := h.nodup
  old := fun m hm => hl ▸ h.old m hm
  fresh := fun t m nowait ht => hl ▸ h.fresh t m nowait (hp t m nowait ht)
  owner := fun t t' m m' n n' ht ht' => h.owner t t' m m' n n' (hp t m n ht) (hp t' m' n' ht')

/-- The message of `t` is sent. -/
theorem send (h : Ids s ms) {nowait : Bool} (ht : s.proc t = .snd m nowait)
    (hl : s'.loaded = s.loaded)
    (hp : ∀ t' m' nowait', s'.proc t' = .snd m' nowait' → t' ≠ t ∧ s.proc t' = .snd m' nowait') :
    Ids s' (ms ++ [m]) := by
  obtain ⟨hlt, hnew⟩ := h.fresh t m nowait ht
  refine ⟨?_, ?_, ?_, ?_⟩
  · rw [List.map_append, List.map_singleton]
    refine List.Nodup.append h.nodup (by simp) ?_
    intro i hi hi'
    rw [List.mem_singleton.1 hi'] at hi
    exact hnew hi
  · intro m' hm'
    rw [hl]
    rcases List.mem_append.1 hm' with hm' | hm'
    · exact h.old m' hm'
    · rw [List.mem_singleton.1 hm']
      exact hlt
  · intro t' m' nowait' ht'
    obtain ⟨hne, ht'⟩ := hp t' m' nowait' ht'
    obtain ⟨hlt', hnew'⟩ := h.fresh t' m' nowait' ht'
    refine ⟨hl ▸ hlt', ?_⟩
    rw [List.map_append, List.map_singleton, List.mem_append, List.mem_singleton]
    rintro (hold | heq)
    · exact hnew' hold
    · exact hne (h.owner t' t m' m nowait' nowait ht' ht heq)
  · intro t₁ t₂ m₁ m₂ n₁ n₂ h₁ h₂
    exact h.owner t₁ t₂ m₁ m₂ n₁ n₂ (hp t₁ m₁ n₁ h₁).2 (hp t₂ m₂ n₂ h₂).2

end

/-- A message is loaded, with the next number. -/
theorem load (h : Ids s ms) (t : T) (mtype size : ℤ) (nowait : Bool) :
    Ids ({ s with loaded := s.loaded + 1 }.setProc t (.snd ⟨s.loaded, mtype, size⟩ nowait)) ms := by
  have hp : ∀ t' m' nowait', update s.proc t (.snd ⟨s.loaded, mtype, size⟩ nowait) t' =
      .snd m' nowait' → t' = t ∧ m'.id = s.loaded ∨ t' ≠ t ∧ s.proc t' = .snd m' nowait' := by
    intro t' m' nowait' ht'
    by_cases htt : t' = t
    · subst htt
      rw [update_self] at ht'
      exact Or.inl ⟨rfl, congrArg Msg.id (Call.snd.inj ht').1.symm⟩
    · rw [update_of_ne htt] at ht'
      exact Or.inr ⟨htt, ht'⟩
  refine ⟨h.nodup, fun m hm => Nat.lt_succ_of_lt (h.old m hm), ?_, ?_⟩
  · intro t' m' nowait' ht'
    rcases hp t' m' nowait' ht' with ⟨-, hid⟩ | ⟨-, ht'⟩
    · refine ⟨by simp [State.setProc, hid], ?_⟩
      rw [hid]
      intro hmem
      obtain ⟨m, hm, heq⟩ := List.mem_map.1 hmem
      have := h.old m hm
      omega
    · obtain ⟨hlt, hnew⟩ := h.fresh t' m' nowait' ht'
      exact ⟨Nat.lt_succ_of_lt hlt, hnew⟩
  · intro t₁ t₂ m₁ m₂ n₁ n₂ h₁ h₂ hid
    rcases hp t₁ m₁ n₁ h₁ with ⟨e₁, i₁⟩ | ⟨-, old₁⟩ <;>
      rcases hp t₂ m₂ n₂ h₂ with ⟨e₂, i₂⟩ | ⟨-, old₂⟩
    · rw [e₁, e₂]
    · have := (h.fresh t₂ m₂ n₂ old₂).1
      omega
    · have := (h.fresh t₁ m₁ n₁ old₁).1
      omega
    · exact h.owner t₁ t₂ m₁ m₂ n₁ n₂ old₁ old₂ hid

/-- **Every change keeps the messages apart.** -/
theorem change {ms' : List Msg} {ds rs : List (T × Msg)} (h : Ids s ms)
    (hc : Change s s' ms' ds rs) : Ids s' (ms ++ ms') := by
  -- a process that goes on to something else than a send
  have hset : ∀ (t : T) (c : Call), (∀ m nowait, c ≠ .snd m nowait) → ∀ t' m' nowait',
      update s.proc t c t' = .snd m' nowait' → t' ≠ t ∧ s.proc t' = .snd m' nowait' := by
    intro t c hc t' m' nowait' ht'
    by_cases htt : t' = t
    · subst htt
      rw [update_self] at ht'
      exact absurd ht' (hc m' nowait')
    · rw [update_of_ne htt] at ht'
      exact ⟨htt, ht'⟩
  cases hc with
  | quiet t c _ _ hsnd =>
    rw [List.append_nil]
    exact h.mono rfl fun t' m' n ht' => (hset t c hsnd t' m' n ht').2
  | load t mtype size nowait _ =>
    rw [List.append_nil]
    exact h.load t mtype size nowait
  | park t _ =>
    rw [List.append_nil]
    exact h.mono rfl fun _ _ _ ht' => ht'
  | direct t m nowait pre post rc ht _ _ =>
    refine h.send ht rfl fun t' m' n ht' => ?_
    simp only [State.setProc] at ht'
    by_cases htt : t' = t
    · subst htt
      simp at ht'
    · rw [update_of_ne htt] at ht'
      exact ⟨htt, (hset rc.proc _ (by simp) t' m' n ht').2⟩
  | enqueue t m nowait ht _ _ =>
    exact h.send ht rfl (hset t _ (by simp))
  | take t m size mtype nowait _ _ | sleep t size mtype nowait _ _ | receive t m size ret _ =>
    rw [List.append_nil]
    exact h.mono rfl fun t' m' n ht' => (hset t _ (by simp) t' m' n ht').2

end Ids

/-- **What has become of the messages.** Those sent (`ms`) are those
delivered (`ds`) and those in the queue; a message that is delivered is
received (`rs`) or in the hands of its receiver. -/
structure Account (s : State T) (ms : List Msg) (ds rs : List (T × Msg)) : Prop where
  perm : ms.Perm (ds.map Prod.snd ++ s.qMessage)
  order : s.qMessage.Sublist ms
  hand : ∀ t m, (t, m) ∈ ds ↔ (t, m) ∈ rs ∨ ∃ k, s.proc t = .got k m
  once : rs.Nodup
  ahead : ∀ t m k, s.proc t = .got k m → (t, m) ∉ rs

namespace Account

section

omit [DecidableEq T]

/-- A message that is not sent is not received. -/
theorem not_received (h : Account s ms ds rs) (hm : m ∉ ds.map Prod.snd) (t : T) : (t, m) ∉ rs := by
  intro hr
  exact hm (List.mem_map_of_mem ((h.hand t m).2 (Or.inl hr)))

theorem not_delivered (h : Account s ms ds rs) (hm : m ∉ ms) : m ∉ ds.map Prod.snd := by
  intro hd
  exact hm (h.perm.mem_iff.2 (List.mem_append_left _ hd))

end

/-- A process that had no message and gets none. -/
theorem got_update {c : Call} (ht : ∀ k m, s.proc t ≠ .got k m) (hc : ∀ k m, c ≠ .got k m) (t' : T)
    (m : Msg) (k : ℤ) : update s.proc t c t' = .got k m ↔ s.proc t' = .got k m := by
  by_cases htt : t' = t
  · subst htt
    simp [ht k m, hc k m]
  · rw [update_of_ne htt]

omit [DecidableEq T] in
/-- A step that leaves the messages where they are. -/
theorem still (h : Account s ms ds rs) (hq : s'.qMessage = s.qMessage)
    (hgot : ∀ t m k, s'.proc t = .got k m ↔ s.proc t = .got k m) : Account s' ms ds rs := by
  refine ⟨hq ▸ h.perm, hq ▸ h.order, fun t m => ?_, h.once, fun t m k ht => ?_⟩
  · simp only [hgot]
    exact h.hand t m
  · exact h.ahead t m k ((hgot t m k).1 ht)

/-- A process gets a message that was not delivered before. -/
theorem give (h : Account s ms ds rs) (c : ℤ) (ht : ∀ k m, s.proc t ≠ .got k m)
    (hm : m ∉ ds.map Prod.snd) {p : T → Call} (hp : p = update s.proc t (.got c m)) :
    (∀ t' m', (t', m') ∈ ds ++ [(t, m)] ↔ (t', m') ∈ rs ∨ ∃ k, p t' = .got k m') ∧
      ∀ t' m' k, p t' = .got k m' → (t', m') ∉ rs := by
  constructor
  · intro t' m'
    rw [List.mem_append, h.hand t' m', List.mem_singleton, hp, or_assoc]
    refine or_congr_right ?_
    by_cases htt : t' = t
    · subst htt
      simp only [update_self, Call.got.injEq, Prod.mk.injEq, true_and]
      constructor
      · rintro (⟨k, hk⟩ | rfl)
        · exact absurd hk (ht k m')
        · exact ⟨c, rfl, rfl⟩
      · rintro ⟨k, -, rfl⟩
        exact Or.inr rfl
    · simp [htt]
  · intro t' m' k hk
    rw [hp] at hk
    by_cases htt : t' = t
    · subst htt
      rw [update_self] at hk
      obtain ⟨-, rfl⟩ := Call.got.inj hk
      exact h.not_received hm t'
    · rw [update_of_ne htt] at hk
      exact h.ahead t' m' k hk

/-- **Every change keeps the account.** -/
theorem change {ms' : List Msg} {ds' rs' : List (T × Msg)} (h : Account s ms ds rs) (hinv : Inv s)
    (hids : Ids s ms) (hc : Change s s' ms' ds' rs') :
    Account s' (ms ++ ms') (ds ++ ds') (rs ++ rs') := by
  have hgot : ∀ {t : T} {c : Call}, (s.proc t).plain = true → c.plain = true → ∀ t' m k,
      update s.proc t c t' = .got k m ↔ s.proc t' = .got k m := by
    intro t c ht hc
    refine got_update ?_ ?_
    · rintro k m hk
      simp [hk, Call.plain] at ht
    · rintro k m rfl
      simp [Call.plain] at hc
  cases hc with
  | quiet t c ht hplain _ =>
    simp only [List.append_nil]
    exact h.still rfl (hgot ht hplain)
  | load t mtype size nowait ht =>
    simp only [List.append_nil]
    exact h.still rfl (hgot ht rfl)
  | park t _ =>
    simp only [List.append_nil]
    exact h.still rfl fun _ _ _ => Iff.rfl
  | direct t m nowait pre post rc ht _ hq =>
    have hrc : rc ∈ s.qReceiver := by simp [hq]
    have hne : rc.proc ≠ t := hinv.proc_ne (by simp [ht]) hrc
    have hnew : m ∉ ms := fun hm =>
      (hids.fresh t m nowait ht).2 (List.mem_map_of_mem hm)
    have hasleep := hinv.asleep rc hrc
    -- the sender returns, and then its receiver has the message
    have hsender : Account (s.setProc t (.done 0)) ms ds rs :=
      h.still rfl (hgot (by simp [ht, Call.plain]) rfl)
    obtain ⟨hhand, hahead⟩ := hsender.give rc.size (t := rc.proc)
      (by simp [State.setProc, hne, hasleep]) (h.not_delivered hnew)
      (update_comm hne _ _ s.proc)
    simp only [List.append_nil]
    refine ⟨?_, ?_, hhand, h.once, hahead⟩
    · rw [List.map_append, List.map_singleton, List.append_assoc]
      refine (h.perm.append_right [m]).trans ?_
      rw [List.append_assoc]
      exact List.Perm.append_left _ List.perm_append_comm
    · exact h.order.trans (List.sublist_append_left _ _)
  | enqueue t m nowait ht _ _ =>
    simp only [List.append_nil]
    have hstill : Account (s.setProc t (.done 0)) ms ds rs :=
      h.still rfl (hgot (by simp [ht, Call.plain]) rfl)
    refine ⟨?_, ?_, hstill.hand, h.once, hstill.ahead⟩
    · refine (h.perm.append_right [m]).trans ?_
      rw [List.append_assoc]
      exact List.Perm.refl _
    · exact h.order.append (List.Sublist.refl _)
  | take t m size mtype nowait ht hm =>
    have hnodup : (ds.map Prod.snd ++ s.qMessage).Nodup :=
      (h.perm.nodup_iff).1 (List.Nodup.of_map _ hids.nodup)
    have hnew : m ∉ ds.map Prod.snd := fun hd => (List.nodup_append'.1 hnodup).2.2 hd hm
    obtain ⟨hhand, hahead⟩ := h.give size (t := t) (by simp [ht]) hnew rfl
    simp only [List.append_nil]
    refine ⟨?_, ?_, hhand, h.once, hahead⟩
    · rw [List.map_append, List.map_singleton, List.append_assoc]
      exact h.perm.trans (List.Perm.append_left _ (List.perm_cons_erase hm))
    · exact List.erase_sublist.trans h.order
  | sleep t size mtype nowait ht _ =>
    simp only [List.append_nil]
    exact h.still rfl (got_update (by simp [ht]) (by simp))
  | receive t m size ret ht =>
    simp only [List.append_nil]
    have hnew := h.ahead t m size ht
    have hold : (t, m) ∈ ds := (h.hand t m).2 (Or.inr ⟨size, ht⟩)
    refine ⟨h.perm, h.order, fun t' m' => ?_, ?_, fun t' m' k hk => ?_⟩
    · rw [h.hand t' m', List.mem_append, List.mem_singleton]
      simp only [State.setProc]
      by_cases htt : t' = t
      · subst htt
        simp only [ht, Call.got.injEq, update_self, reduceCtorEq, exists_false, or_false,
          Prod.mk.injEq, true_and, @eq_comm _ m m', exists_eq_left']
      · simp [htt]
    · refine List.Nodup.append h.once (by simp) ?_
      intro x hx hx'
      rw [List.mem_singleton.1 hx'] at hx
      exact hnew hx
    · simp only [State.setProc] at hk
      have htt : t' ≠ t := by
        rintro rfl
        simp at hk
      rw [update_of_ne htt] at hk
      rw [List.mem_append, List.mem_singleton, not_or]
      exact ⟨h.ahead t' m' k hk, fun heq => htt (Prod.mk.inj heq).1⟩

end Account

variable {tr : List (State T × Act T)}

/-- **What holds at every point of a run.** -/
theorem account_of_run (hrun : Run State.step State.init tr s) :
    Inv s ∧ Ids s (sent tr) ∧ Account s (sent tr) (delivered tr) (received tr) := by
  refine hrun.traceInvariant (I := fun tr s => Inv s ∧ Ids s (sent tr) ∧
    Account s (sent tr) (delivered tr) (received tr)) ⟨?_, ?_, ?_⟩ ?_
  · constructor <;> simp [State.init]
  · constructor <;> simp [State.init, sent]
  · constructor <;> simp [State.init, sent, delivered, received]
  · rintro tr s a s' ⟨hinv, hids, hacc⟩ hs
    have hc := change_of_step hs
    have hsent : sent (tr ++ [(s, a)]) = sent tr ++ sentBy (s, a) := by simp [sent]
    have hdel : delivered (tr ++ [(s, a)]) = delivered tr ++ deliveredBy (s, a) := by
      simp [delivered]
    have hrec : received (tr ++ [(s, a)]) = received tr ++ receivedBy (s, a) := by simp [received]
    rw [hsent, hdel, hrec]
    exact ⟨hinv.change hc, hids.change hc, hacc.change hinv hids hc⟩

/-- A sender that is not asleep, and whose message fits the waiting
receivers, gets on. -/
theorem sender_runs {nowait : Bool} (ht : s.proc t = .snd m nowait) (hawake : t ∉ s.qSender)
    (hfit : ∀ rc ∈ s.qReceiver, m.size ≤ rc.size) : (s.step (.run t)).isSome = true := by
  simp only [State.step, State.run, ht, State.msgsnd, if_neg hawake]
  split_ifs
  · rfl
  · rfl
  · simpa [State.deliver] using pipelineSend_isSome hfit

/-- **Message queues lose and duplicate nothing.** In every run the
messages whose `sys_msgsnd` returned 0 are, each once, those delivered to a
`sys_msgrcv` and those in the queue; a delivered message is received, once,
or in the hands of its receiver. `sum_msg` is the length of the queue and at
most `max_msg`, the queue is in the order of sending, a receive of type 0
takes its first message, senders wait only while the queue is full, and no
receiver waits for a message that is there. A sender whose message fits the
waiting receivers is never stuck. -/
theorem messages_delivered_once (hrun : Run State.step State.init tr s) :
    (sent tr).Nodup ∧ (sent tr).Perm ((delivered tr).map Prod.snd ++ s.qMessage) ∧
    ((received tr).Nodup ∧
      ∀ t m, (t, m) ∈ delivered tr ↔ (t, m) ∈ received tr ∨ ∃ k, s.proc t = .got k m) ∧
    (s.sumMsg = s.qMessage.length ∧ s.sumMsg ≤ maxMsg) ∧
    (s.qMessage.Sublist (sent tr) ∧
      ∀ x ∈ tr, ∀ t msgsz nowait m, x.2 = .run t → x.1.proc t = .rcv msgsz 0 nowait →
        (t, m) ∈ deliveredBy x → x.1.qMessage.head? = some m) ∧
    (s.qSender ≠ [] → s.sumMsg = maxMsg) ∧
    (∀ rc ∈ s.qReceiver, ∀ m ∈ s.qMessage, testmsg rc.mtype m.mtype = false) ∧
    ∀ t m nowait, s.proc t = .snd m nowait → t ∉ s.qSender →
      (∀ rc ∈ s.qReceiver, m.size ≤ rc.size) → (s.step (.run t)).isSome = true := by
  obtain ⟨hinv, hids, hacc⟩ := account_of_run hrun
  refine ⟨List.Nodup.of_map _ hids.nodup, hacc.perm, ⟨hacc.once, hacc.hand⟩,
    ⟨hinv.sum, hinv.bound⟩, ⟨hacc.order, ?_⟩, hinv.full, hinv.apart,
    fun t m nowait ht hawake hfit => sender_runs ht hawake hfit⟩
  rintro ⟨s₀, a⟩ - t msgsz nowait m rfl ht hdel
  have ht' : s₀.proc t = .rcv msgsz 0 nowait := ht
  simp only [deliveredBy, ht', findMsg_zero] at hdel
  cases hhead : s₀.qMessage.head? with
  | none => simp [hhead] at hdel
  | some m' =>
    simp only [hhead] at hdel
    split at hdel
    · cases hdel
    · rw [(Prod.mk.inj (List.mem_singleton.1 hdel)).2]

/-- A receiver of type 5 sleeps, two messages arrive of which the second is
for it, and a receiver of type 0 takes the first. -/
def twoMessages : List (Act ℕ) :=
  [.callRcv 0 8 5 false, .run 0, .callSnd 1 3 8 false, .run 1, .callSnd 1 5 8 false, .run 1,
    .callRcv 2 8 0 false, .run 2, .run 0]

theorem messages_delivered_once_twoMessages :
    ∃ s : State ℕ, exec State.step State.init twoMessages = some s ∧
      sent (execTrace State.step (State.init : State ℕ) twoMessages) = [⟨0, 3, 8⟩, ⟨1, 5, 8⟩] ∧
      received (execTrace State.step (State.init : State ℕ) twoMessages) = [(0, ⟨1, 5, 8⟩)] ∧
      (sent (execTrace State.step (State.init : State ℕ) twoMessages)).Perm
        ((delivered (execTrace State.step (State.init : State ℕ) twoMessages)).map Prod.snd ++
          s.qMessage) := by
  have hsome : (exec State.step (State.init : State ℕ) twoMessages).isSome = true := by
    decide +kernel
  obtain ⟨s, hs⟩ := Option.isSome_iff_exists.1 hsome
  exact ⟨s, hs, by decide +kernel, by decide +kernel,
    (messages_delivered_once (Run.of_exec hs)).2.1⟩

end OsKernel.Ipc
