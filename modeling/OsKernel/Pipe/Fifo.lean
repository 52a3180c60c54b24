import OsKernel.Common.Ring
import OsKernel.Pipe.Helpers.Step

/-!
# Pipes are lossless queues

The bytes that the calls store and take are read off the trace of a run
(`moved`). What was stored is what was taken followed by what lies in the
buffer (`Inv.fifo`), also after the counters have wrapped: the size of the
buffer divides their range. A call has moved the bytes that it says it has
(`Inv.own`), and a read stops early for one of four reasons.
-/

namespace OsKernel.Pipe

open Function

/-- What a call has moved. -/
def Job.moved : Job → List UInt8
  | .write src i => src.take i
  | .read _ dst => dst
  | .close _ => []

/-- The places after the loop. -/
def At.isEnd : At → Bool
  | .broke | .leave | .leaving => true
  | _ => false

namespace State

variable {T : Type} {s s' : State T} {t u : T} {job : Job} {pc : At} {σ : Side}
variable {tr : List (State T × Act T)} {x : State T × Act T}

/-! ## What a run has moved -/

theorem count_init : (init : State T).count = 0 := by
  simp [count, init]

/-- What lies in the buffer. -/
def buffered (s : State T) : List UInt8 := Ring.contents pipeSize s.data s.nread.toNat s.count

/-- The byte that the next step of a call moves. -/
def transferOf (s : State T) : Job → At → Option (Side × UInt8)
  | .write src i, .inside =>
    if i < src.length ∧ s.blocked .write = false then some (.write, src.getD i 0) else none
  | .read n dst, .inside =>
    if dst.length < n ∧ s.blocked .read = false
    then some (.read, s.data (s.nread.toNat % pipeSize)) else none
  | _, _ => none

/-- The byte that an action moves, with the thread and the end. -/
def transfer (x : State T × Act T) : Option (T × Side × UInt8) :=
  match x.2 with
  | .run t => (x.1.thread t).bind fun c => (x.1.transferOf c.1 c.2).map fun m => (t, m)
  | _ => none

/-- The byte that an action moves at the end `σ`. -/
def movedAt (σ : Side) (x : State T × Act T) : List UInt8 :=
  match transfer x with
  | some (_, τ, b) => if τ = σ then [b] else []
  | none => []

/-- **The bytes moved at the end `σ`**, in the order of the moves. -/
def moved (σ : Side) (tr : List (State T × Act T)) : List UInt8 := tr.flatMap (movedAt σ)

theorem moved_snoc : moved σ (tr ++ [x]) = moved σ tr ++ movedAt σ x := by
  simp [moved]

theorem movedAt_of_transfer_eq_none (h : transfer x = none) : movedAt σ x = [] := by
  simp [movedAt, h]

theorem transfer_run (ht : s.thread t = some (job, pc)) :
    transfer (s, .run t) = (s.transferOf job pc).map fun m => (t, m) := by
  simp [transfer, ht]

/-- Only a thread in the loop moves bytes. -/
theorem inside_of_transferOf {m : Side × UInt8} (h : s.transferOf job pc = some m) :
    pc = .inside := by
  cases job <;> cases pc <;> first | rfl | cases h

/-- A call that can make no progress moves nothing. -/
theorem transferOf_of_stuck (hblocked : s.blocked job.side = true) :
    s.transferOf job pc = none := by
  cases job <;> cases pc <;> simp_all [transferOf, Job.side]

theorem transferOf_of_done (hdone : ¬ job.Wants) : s.transferOf job pc = none := by
  cases job <;> cases pc <;> simp_all [transferOf, Job.Wants]

/-- A step away from the loop moves nothing. -/
theorem transferOf_of_ne (h : pc ≠ .inside) : s.transferOf job pc = none := by
  by_contra hne
  obtain ⟨m, hm⟩ := Option.ne_none_iff_exists'.1 hne
  exact h (inside_of_transferOf hm)

/-- The buffer depends on the counters and the cells alone. -/
theorem buffered_congr (hdata : s'.data = s.data) (hr : s'.nread = s.nread)
    (hw : s'.nwrite = s.nwrite) : s'.buffered = s.buffered := by
  rw [buffered, buffered, count, count, hdata, hr, hw]

theorem buffered_store {b : UInt8} (h : s.count < pipeSize)
    (hdata : s'.data = update s.data (s.nwrite.toNat % pipeSize) b)
    (hw : s'.nwrite = s.nwrite + 1) (hr : s'.nread = s.nread) :
    s'.buffered = s.buffered ++ [b] := by
  have hpos : s.nwrite.toNat % pipeSize = (s.nread.toNat + s.count) % pipeSize := by
    rw [nwrite_eq, Nat.mod_mod_of_dvd _ (by decide)]
  rw [buffered, count_store h hw hr, hdata, hr, hpos]
  exact Ring.contents_push h b

theorem buffered_take (h : s.count ≠ 0) (hdata : s'.data = s.data) (hr : s'.nread = s.nread + 1)
    (hw : s'.nwrite = s.nwrite) :
    s.buffered = s.data (s.nread.toNat % pipeSize) :: s'.buffered := by
  have hnext : s'.nread.toNat = (s.nread.toNat + 1) % 2 ^ 32 := by
    rw [hr, UInt32.toNat_add]
    rfl
  rw [buffered, buffered, ← count_take h hr hw, Ring.contents_pop, hnext,
    Ring.contents_mod (by decide), hdata]

variable [DecidableEq T]

/-- **The bytes that `t` has moved in its latest call.** -/
def movedBy (t : T) (tr : List (State T × Act T)) : List UInt8 :=
  tr.foldl (fun acc x =>
    if x.2.starts.map Prod.fst = some t then []
    else match transfer x with
      | some (u, _, b) => if u = t then acc ++ [b] else acc
      | none => acc) []

theorem movedBy_of_starts (h : x.2.starts = some (t, job)) : movedBy t (tr ++ [x]) = [] := by
  simp [movedBy, List.foldl_append, h]

theorem movedBy_of_quiet (hstarts : ∀ job, x.2.starts ≠ some (t, job))
    (h : ∀ m, transfer x ≠ some (t, m)) : movedBy t (tr ++ [x]) = movedBy t tr := by
  have hne : x.2.starts.map Prod.fst ≠ some t := by
    intro hmap
    obtain ⟨⟨u, job⟩, hu, rfl⟩ := Option.map_eq_some_iff.1 hmap
    exact hstarts job hu
  rw [movedBy, List.foldl_append, List.foldl_cons, List.foldl_nil, if_neg hne]
  split
  · rename_i u τ b hx
    refine if_neg ?_
    rintro rfl
    exact h _ hx
  · rfl

theorem movedBy_of_transfer {b : UInt8} (h : transfer x = some (t, σ, b)) :
    movedBy t (tr ++ [x]) = movedBy t tr ++ [b] := by
  have hne : x.2.starts.map Prod.fst ≠ some t := by
    obtain ⟨s, a⟩ := x
    cases a <;> simp [transfer, Act.starts] at h ⊢
  rw [movedBy, List.foldl_append, List.foldl_cons, List.foldl_nil, if_neg hne, h]
  exact if_pos rfl

/-! ## The invariant -/

/-- A step that moves no byte. -/
structure Quiet (s : State T) (t : T) (job : Job) (pc : At) (s' : State T) : Prop where
  transfer : s.transferOf job pc = none
  data : s'.data = s.data
  nread : s'.nread = s.nread
  nwrite : s'.nwrite = s.nwrite
  same : ∀ j p, s'.thread t = some (j, p) → j = job

theorem Quiet.of_ret (hdata : s'.data = s.data) (hr : s'.nread = s.nread)
    (hw : s'.nwrite = s.nwrite) (htransfer : s.transferOf job pc = none) :
    Quiet s t job pc (s'.ret t) where
  transfer := htransfer
  data := hdata
  nread := hr
  nwrite := hw
  same := fun j p hp => by
    rw [ret_thread_self] at hp
    cases hp

theorem Quiet.of_goto {pc' : At} (hdata : s'.data = s.data) (hr : s'.nread = s.nread)
    (hw : s'.nwrite = s.nwrite) (htransfer : s.transferOf job pc = none) :
    Quiet s t job pc (s'.goto t job pc') where
  transfer := htransfer
  data := hdata
  nread := hr
  nwrite := hw
  same := fun _ _ hp => (goto_inv hp).1

/-- **A step stores a byte, takes one or moves none.** -/
theorem Move.quiet_or (hm : Move s t job pc s') :
    Quiet s t job pc s' ∨
    (∃ src i, job = .write src i ∧ pc = .inside ∧ i < src.length ∧ s.blocked .write = false ∧
      s' = { s with
        data := update s.data (s.nwrite.toNat % pipeSize) (src.getD i 0)
        nwrite := s.nwrite + 1 }.goto t (.write src (i + 1)) .inside) ∨
    ∃ n dst, job = .read n dst ∧ pc = .inside ∧ dst.length < n ∧ s.blocked .read = false ∧
      s' = { s with nread := s.nread + 1 }.goto t
        (.read n (dst ++ [s.data (s.nread.toNat % pipeSize)]))
        (if s.data (s.nread.toNat % pipeSize) = newline then .broke else .inside) := by
  cases hm with
  | store hi hroom => exact Or.inr (Or.inl ⟨_, _, rfl, rfl, hi, hroom, rfl⟩)
  | take hn hdata hb =>
    subst hb
    exact Or.inr (Or.inr ⟨_, _, rfl, rfl, hn, hdata, rfl⟩)
  | giveUp _ hblocked => exact Or.inl (Quiet.of_ret rfl rfl rfl (transferOf_of_stuck hblocked))
  | lockOwn _ hblocked => exact Or.inl (Quiet.of_goto rfl rfl rfl (transferOf_of_stuck hblocked))
  | finish _ hdone => exact Or.inl (Quiet.of_goto rfl rfl rfl (transferOf_of_done hdone))
  | post hpc hpost =>
    obtain ⟨r, -, rfl⟩ := Option.map_eq_some_iff.1 hpost
    refine Or.inl (Quiet.of_goto rfl rfl rfl (transferOf_of_ne ?_))
    rintro rfl
    simp at hpc
  | postLast hpost =>
    obtain ⟨r, -, rfl⟩ := Option.map_eq_some_iff.1 hpost
    exact Or.inl (Quiet.of_ret rfl rfl rfl (transferOf_of_ne nofun))
  | lockOther hpc =>
    refine Or.inl (Quiet.of_goto rfl rfl rfl (transferOf_of_ne ?_))
    rintro rfl
    simp at hpc
  | cancel | closeFree | closeEnd =>
    exact Or.inl (Quiet.of_ret rfl rfl rfl (transferOf_of_ne nofun))
  | _ => exact Or.inl (Quiet.of_goto rfl rfl rfl (transferOf_of_ne nofun))

/-- A call stays the call it is. -/
theorem Move.same_side (hm : Move s t job pc s') {j : Job} {p : At}
    (hp : s'.thread t = some (j, p)) : j.side = job.side ∧ j.isClose = job.isClose := by
  rcases hm.quiet_or with hq | ⟨src, i, rfl, -, -, -, rfl⟩ | ⟨n, dst, rfl, -, -, -, rfl⟩
  · rw [hq.same j p hp]
    exact ⟨rfl, rfl⟩
  · rw [(goto_inv hp).1]
    exact ⟨rfl, rfl⟩
  · rw [(goto_inv hp).1]
    exact ⟨rfl, rfl⟩

/-- **The queue and the calls.** -/
structure Inv (tr : List (State T × Act T)) (s : State T) : Prop where
  count_le : s.count ≤ pipeSize
  fifo : moved .write tr = moved .read tr ++ s.buffered
  own : ∀ t job pc, s.thread t = some (job, pc) → movedBy t tr = job.moved
  stored : ∀ t src i pc, s.thread t = some (.write src i, pc) → i ≤ src.length

theorem inv_init : Inv [] (init : State T) where
  count_le := by
    rw [count_init]
    exact Nat.zero_le _
  fifo := by
    rw [buffered, count_init]
    rfl
  own := nofun
  stored := nofun

/-- An action that moves no byte and starts no call of a thread that is in
one. -/
theorem Inv.quiet {a : Act T} (h : Inv tr s) (htransfer : transfer (s, a) = none)
    (hdata : s'.data = s.data) (hr : s'.nread = s.nread) (hw : s'.nwrite = s.nwrite)
    (hself : ∀ t job pc, s'.thread t = some (job, pc) →
      ((∃ p, s.thread t = some (job, p)) ∧ ∀ j, a.starts ≠ some (t, j)) ∨
        a.starts = some (t, job)) : Inv (tr ++ [(s, a)]) s' where
  count_le := by
    rw [count, hr, hw]
    exact h.count_le
  fifo := by
    rw [moved_snoc, moved_snoc, movedAt_of_transfer_eq_none htransfer,
      movedAt_of_transfer_eq_none htransfer, List.append_nil, List.append_nil,
      buffered_congr hdata hr hw]
    exact h.fifo
  own := fun t job pc ht => by
    rcases hself t job pc ht with ⟨⟨p, hp⟩, hstarts⟩ | hstarts
    · rw [movedBy_of_quiet hstarts fun m => by rw [htransfer]; exact nofun]
      exact h.own t job p hp
    · rw [movedBy_of_starts hstarts]
      cases a <;> cases hstarts <;> rfl
  stored := fun t src i pc ht => by
    rcases hself t _ pc ht with ⟨⟨p, hp⟩, -⟩ | hstarts
    · exact h.stored t src i p hp
    · cases a <;> cases hstarts
      exact Nat.zero_le _

/-- Of a step that moves a byte, what the threads have to show. -/
theorem Inv.own_transfer {b : UInt8} {job' : Job} {pc' : At} (h : Inv tr s)
    (ht : s.thread t = some (job, pc)) (hx : transfer (s, .run t) = some (t, σ, b))
    (hmoved : job'.moved = job.moved ++ [b])
    (hthread : s'.thread = (s.goto t job' pc').thread) {j : Job} {p : At}
    (hu : s'.thread u = some (j, p)) : movedBy u (tr ++ [(s, .run t)]) = j.moved := by
  rw [hthread] at hu
  by_cases hut : u = t
  · subst hut
    obtain ⟨rfl, rfl⟩ := goto_inv hu
    rw [movedBy_of_transfer hx, hmoved, h.own u job pc ht]
  · rw [goto_thread_of_ne hut] at hu
    have hother : ∀ m, transfer (s, .run t) ≠ some (u, m) := by
      intro m hm
      rw [hx] at hm
      exact hut (pair_inj hm).1.symm
    have hstarts : ∀ j', (Act.run t).starts ≠ some (u, j') := fun _ => nofun
    rw [movedBy_of_quiet hstarts hother]
    exact h.own u j p hu

theorem Inv.store {src : List UInt8} {i : ℕ} (h : Inv tr s)
    (ht : s.thread t = some (.write src i, .inside)) (hi : i < src.length)
    (hroom : s.blocked .write = false)
    (hs : s' = { s with
      data := update s.data (s.nwrite.toNat % pipeSize) (src.getD i 0)
      nwrite := s.nwrite + 1 }.goto t (.write src (i + 1)) .inside) :
    Inv (tr ++ [(s, .run t)]) s' := by
  have hlt : s.count < pipeSize := by
    have hne : ¬ s.count = pipeSize := by
      rw [← blocked_write_iff, hroom]
      exact nofun
    exact lt_of_le_of_ne h.count_le hne
  have hx : transfer (s, .run t) = some (t, .write, src.getD i 0) := by
    rw [transfer_run ht, transferOf, if_pos ⟨hi, hroom⟩]
    rfl
  have hcount : s'.count = s.count + 1 := count_store hlt (by rw [hs]; rfl) (by rw [hs]; rfl)
  have hbuffered : s'.buffered = s.buffered ++ [src.getD i 0] :=
    buffered_store hlt (by rw [hs]; rfl) (by rw [hs]; rfl) (by rw [hs]; rfl)
  refine ⟨?_, ?_, fun u j p hu => ?_, fun u src' i' p hu => ?_⟩
  · rw [hcount]
    exact hlt
  · rw [moved_snoc, moved_snoc, hbuffered, ← List.append_assoc]
    simp only [movedAt, hx, reduceCtorEq, if_true, if_false, List.append_nil, h.fifo]
  · refine h.own_transfer ht hx ?_ (by rw [hs]; rfl) hu
    rw [Job.moved, Job.moved, List.take_add_one, List.getD_eq_getElem?_getD,
      List.getElem?_eq_getElem hi]
    rfl
  · by_cases hut : u = t
    · subst hut
      rw [hs] at hu
      obtain ⟨hj, -⟩ := goto_inv hu
      obtain ⟨rfl, rfl⟩ := Job.write.inj hj
      exact hi
    · rw [hs, goto_thread_of_ne hut] at hu
      exact h.stored u src' i' p hu

theorem Inv.take {n : ℕ} {dst : List UInt8} {pc' : At} (h : Inv tr s)
    (ht : s.thread t = some (.read n dst, .inside)) (hn : dst.length < n)
    (hdata : s.blocked .read = false)
    (hs : s' = { s with nread := s.nread + 1 }.goto t
      (.read n (dst ++ [s.data (s.nread.toNat % pipeSize)])) pc') :
    Inv (tr ++ [(s, .run t)]) s' := by
  have hne : s.count ≠ 0 := by
    intro hzero
    rw [blocked_read_iff.2 hzero] at hdata
    cases hdata
  have hx : transfer (s, .run t) = some (t, .read, s.data (s.nread.toNat % pipeSize)) := by
    rw [transfer_run ht, transferOf, if_pos ⟨hn, hdata⟩]
    rfl
  have hcount : s'.count + 1 = s.count := count_take hne (by rw [hs]; rfl) (by rw [hs]; rfl)
  have hbuffered : s.buffered = s.data (s.nread.toNat % pipeSize) :: s'.buffered :=
    buffered_take hne (by rw [hs]; rfl) (by rw [hs]; rfl) (by rw [hs]; rfl)
  refine ⟨?_, ?_, fun u j p hu => h.own_transfer ht hx rfl (by rw [hs]; rfl) hu,
    fun u src i p hu => ?_⟩
  · have hle := h.count_le
    omega
  · have hfifo := h.fifo
    rw [hbuffered] at hfifo
    rw [moved_snoc, moved_snoc]
    simp only [movedAt, hx, reduceCtorEq, if_true, if_false, List.append_nil, hfifo]
    rw [List.append_assoc]
    rfl
  · by_cases hut : u = t
    · subst hut
      rw [hs] at hu
      cases (goto_inv hu).1
    · rw [hs, goto_thread_of_ne hut] at hu
      exact h.stored u src i p hu

/-- **Every action keeps the queue.** -/
theorem Inv.next {a : Act T} (h : Inv tr s) (hs : Next s a s') : Inv (tr ++ [(s, a)]) s' := by
  cases hs with
  | @call _ t job hidle ha =>
    refine h.quiet ?_ rfl rfl rfl fun u j p hu => ?_
    · cases a <;> first | rfl | cases ha
    · by_cases hut : u = t
      · subst hut
        obtain ⟨rfl, -⟩ := goto_inv hu
        exact Or.inr ha
      · rw [goto_thread_of_ne hut] at hu
        refine Or.inl ⟨⟨p, hu⟩, fun j' hj => hut ?_⟩
        rw [ha] at hj
        exact (pair_inj hj).1.symm
  | @refuse _ t job hidle ha =>
    refine h.quiet ?_ rfl rfl rfl fun u j p hu => Or.inl ⟨⟨p, hu⟩, fun j' hj => ?_⟩
    · cases a <;> first | rfl | cases ha
    · rw [ha] at hj
      obtain ⟨rfl, -⟩ := pair_inj hj
      rw [hidle] at hu
      cases hu
  | @run t job pc _ ht hm =>
    rcases hm.quiet_or with hq | ⟨src, i, rfl, rfl, hi, hroom, rfl⟩ |
      ⟨n, dst, rfl, rfl, hn, hdata, rfl⟩
    · refine h.quiet ?_ hq.data hq.nread hq.nwrite fun u j p hu => Or.inl ⟨?_, nofun⟩
      · rw [transfer_run ht, hq.transfer]
        rfl
      · by_cases hut : u = t
        · subst hut
          rw [hq.same j p hu]
          exact ⟨pc, ht⟩
        · rw [hm.thread_of_ne hut] at hu
          exact ⟨p, hu⟩
    · exact h.store ht hi hroom rfl
    · exact h.take ht hn hdata rfl
  | kill => exact h.quiet rfl rfl rfl rfl fun u j p hu => Or.inl ⟨⟨p, hu⟩, nofun⟩

theorem inv_of_run (h : Run step init tr s) : Inv tr s :=
  h.traceInvariant inv_init fun _ _ _ _ hI hs => hI.next (next_of_step hs)

/-! ## Why a read stops -/

/-- A read that has left the loop has all it asked for or a newline, and
one that leaves its semaphore unposted has been killed. -/
structure Stops (s : State T) : Prop where
  ended : ∀ t n dst pc, s.thread t = some (.read n dst, pc) → pc.isEnd = true →
    n ≤ dst.length ∨ dst.getLast? = some newline
  killed : ∀ t job, s.thread t = some (job, .waking) → t ∈ (s.sem job.side).sleeplist →
    s.killed t = true

/-- What the thread that takes a step has to show. -/
theorem Stops.of_step (h : Stops s) (hthread : ∀ u, u ≠ t → s'.thread u = s.thread u)
    (hsleep : ∀ σ u, u ≠ t → u ∈ (s'.sem σ).sleeplist → u ∈ (s.sem σ).sleeplist)
    (hkilled : s'.killed = s.killed)
    (hended : ∀ n dst p, s'.thread t = some (.read n dst, p) → p.isEnd = true →
      n ≤ dst.length ∨ dst.getLast? = some newline)
    (hwaking : ∀ j, s'.thread t = some (j, .waking) → t ∈ (s'.sem j.side).sleeplist →
      s.killed t = true) : Stops s' := by
  refine ⟨fun u n dst p hu hp => ?_, fun u j hu hmem => ?_⟩
  · by_cases hut : u = t
    · subst hut
      exact hended n dst p hu hp
    · exact h.ended u n dst p (by rw [← hthread u hut, hu]) hp
  · rw [hkilled]
    by_cases hut : u = t
    · subst hut
      exact hwaking j hu hmem
    · exact h.killed u j (by rw [← hthread u hut, hu]) (hsleep _ u hut hmem)

theorem Stops.move (h : Stops s) (hb : Base s) (ht : s.thread t = some (job, pc))
    (hm : Move s t job pc s') : Stops s' := by
  refine h.of_step (t := t) (fun u hu => hm.thread_of_ne hu)
    (fun σ u hu hmem => hm.sleeplist_sub hb hu hmem) hm.killed_eq (fun n dst p hp hend => ?_)
    fun j hj hmem => ?_
  · cases hm with
    | take hn hdata hbyte =>
      obtain ⟨hjob, rfl⟩ := goto_inv hp
      obtain ⟨rfl, rfl⟩ := Job.read.inj hjob
      split at hend
      · rename_i hnewline
        rw [List.getLast?_append, hnewline]
        exact Or.inr rfl
      · cases hend
    | finish _ hdone =>
      obtain ⟨rfl, rfl⟩ := goto_inv hp
      exact Or.inl (Nat.le_of_not_lt hdone)
    | broke =>
      obtain ⟨rfl, rfl⟩ := goto_inv hp
      exact h.ended t n dst _ ht rfl
    | lockOther hpc =>
      obtain ⟨rfl, rfl⟩ := goto_inv hp
      rcases pair_mem_three hpc with ⟨rfl, rfl⟩ | ⟨rfl, rfl⟩ | ⟨rfl, rfl⟩
      · cases hend
      · exact h.ended t n dst _ ht rfl
      · cases hend
    | post hpc =>
      obtain ⟨rfl, rfl⟩ := goto_inv hp
      rcases pair_mem_two hpc with ⟨rfl, rfl⟩ | ⟨rfl, rfl⟩ <;> cases hend
    | sleep =>
      obtain ⟨rfl, rfl⟩ := goto_inv hp
      split at hend <;> cases hend
    | giveUp | postLast | cancel | closeFree | closeEnd =>
      rw [ret_thread_self] at hp
      cases hp
    | _ =>
      obtain ⟨-, rfl⟩ := goto_inv hp
      cases hend
  · cases hm with
    | wake hwoken =>
      obtain ⟨rfl, -⟩ := goto_inv hj
      exact hwoken.resolve_left fun hnot => hnot (mem_sleeplist_setSem hmem id)
    | take | sleep =>
      have hpc := (goto_inv hj).2
      split at hpc <;> cases hpc
    | post hpc | lockOther hpc =>
      obtain ⟨rfl, rfl⟩ := goto_inv hj
      simp at hpc
    | giveUp | postLast | cancel | closeFree | closeEnd =>
      rw [ret_thread_self] at hj
      cases hj
    | _ => cases (goto_inv hj).2

theorem stops_of_run (h : Run step init tr s) : Stops s := by
  have hI : Base s ∧ Stops s := by
    refine h.invariant (I := fun s => Base s ∧ Stops s) ⟨base_init, nofun, nofun⟩
      fun s a s' ⟨hb, hI⟩ hs => ?_
    refine ⟨hb.next (next_of_step hs), ?_⟩
    cases next_of_step hs with
    | @call _ t job hidle =>
      refine hI.of_step (t := t) (fun u hu => goto_thread_of_ne hu) (fun _ _ _ hu => hu) rfl
        (fun n dst p hp hend => ?_) fun j hj _ => ?_
      · obtain ⟨-, rfl⟩ := goto_inv hp
        cases hend
      · cases (goto_inv hj).2
    | refuse => exact hI
    | run ht hm => exact hI.move hb ht hm
    | @kill t =>
      refine ⟨hI.ended, fun u j hu hmem => ?_⟩
      by_cases hut : u = t
      · subst hut
        exact update_self _ _ _
      · exact (update_of_ne hut _ _).trans (hI.killed u j hu hmem)
  exact hI.2

/-! ## The result -/

/-- The call that returns in an action, as far as it has come. -/
def returned (s : State T) (a : Act T) (s' : State T) : Option (T × Job) :=
  match a with
  | .run t =>
    match s.thread t, s'.thread t with
    | some (job, _), none => some (t, job)
    | _, _ => none
  | a => a.starts.filter fun c => (s'.thread c.1).isNone

/-- A call returns at its last step, or at once where its end is closed. -/
theorem Next.returned {a : Act T} (hs : Next s a s') (hret : s.returned a s' = some (t, job)) :
    (∃ pc, a = .run t ∧ s.thread t = some (job, pc) ∧ Move s t job pc s' ∧ s'.thread t = none) ∨
      (a.starts = some (t, job) ∧ s.isOpen job.side = false) := by
  cases hs with
  | @call _ u j hidle ha =>
    -- the caller is at the entry of its call
    exfalso
    have hfilter : a.starts.filter (fun c => ((s.goto u j .enter).thread c.1).isNone) =
        some (t, job) := by
      cases a <;> first | exact hret | cases ha
    obtain ⟨hmem, hnone⟩ := Option.filter_eq_some_iff.1 hfilter
    rw [ha] at hmem
    obtain ⟨rfl, -⟩ := pair_inj hmem
    simp at hnone
  | @refuse _ u j hidle ha hclosed =>
    have hfilter : a.starts.filter (fun c => (s.thread c.1).isNone) = some (t, job) := by
      cases a <;> first | exact hret | cases ha
    have hmem := (Option.filter_eq_some_iff.1 hfilter).1
    rw [ha] at hmem
    obtain ⟨rfl, rfl⟩ := pair_inj hmem
    exact Or.inr ⟨ha, hclosed⟩
  | @run u j pc _ ht hm =>
    simp only [State.returned, ht] at hret
    split at hret
    · rename_i job' pc' hjob hnone
      obtain ⟨rfl, rfl⟩ := pair_inj hret
      obtain ⟨rfl, rfl⟩ := pair_inj hjob
      exact Or.inl ⟨pc, rfl, ht, hm, hnone⟩
    · cases hret
  | kill => cases hret

/-- A call that returns has moved what it says. -/
theorem Inv.returned {a : Act T} (h : Inv tr s) (hs : Next s a s')
    (hret : s.returned a s' = some (t, job)) :
    movedBy t (tr ++ [(s, a)]) = job.moved ∧
      ∀ src i, job = .write src i → i ≤ src.length := by
  rcases hs.returned hret with ⟨pc, rfl, ht, hm, hnone⟩ | ⟨ha, -⟩
  · refine ⟨?_, fun src i hjob => h.stored t src i pc (by rw [← hjob, ht])⟩
    rcases hm.quiet_or with hq | ⟨src, i, -, -, -, -, rfl⟩ | ⟨n, dst, -, -, -, -, rfl⟩
    · have hstarts : ∀ j', (Act.run t).starts ≠ some (t, j') := fun _ => nofun
      rw [movedBy_of_quiet hstarts fun m hx => ?_]
      · exact h.own t job pc ht
      · rw [transfer_run ht, hq.transfer] at hx
        cases hx
    · rw [goto_thread_self] at hnone
      cases hnone
    · rw [goto_thread_self] at hnone
      cases hnone
  · rw [movedBy_of_starts ha]
    cases a <;> cases ha <;> exact ⟨rfl, fun src i hjob => by cases hjob; try exact Nat.zero_le _⟩

/-- **Why a read returns early.** -/
theorem Stops.returned {n : ℕ} {dst : List UInt8} {pc : At} (h : Stops s) (hb : Base s)
    (ht : s.thread t = some (.read n dst, pc)) (hm : Move s t (.read n dst) pc s')
    (hnone : s'.thread t = none) (hlt : dst.length < n) :
    dst.getLast? = some newline ∨ s.killed t = true ∨
      (s.count = 0 ∧ s.isOpen .write = false) := by
  cases hm with
  | giveUp _ hblocked hclosed => exact Or.inr (Or.inr ⟨blocked_read_iff.1 hblocked, hclosed⟩)
  | postLast => exact Or.inl ((h.ended t n dst _ ht rfl).resolve_left (by omega))
  | cancel hmem => exact Or.inr (Or.inl (h.killed t _ ht hmem))
  | closeFree | closeEnd =>
    have hfits := hb.fits t _ _ ht
    simp [Job.Fits, At.isClose, Job.isClose] at hfits
  | _ =>
    rw [goto_thread_self] at hnone
    cases hnone

/-- **Pipes are lossless queues.** In every run of the calls of any
threads, with the counters in 32 bits: the buffer holds at most `PIPESIZE`
bytes; bytes are moved by the holder of `pi->lock`; the stored bytes are
the taken ones followed by those in the buffer; a write that returns `i`
has stored the first `i` of its bytes; and a read returns fewer bytes than it
asked for only after a newline, after a kill, with the buffer empty and the
write end closed, or at once where the read end is closed already. -/
theorem pipe_fifo (hrun : Run step init tr s) :
    (s.nwrite - s.nread).toNat ≤ pipeSize ∧
    (∀ y ∈ tr, ∀ t m, transfer y = some (t, m) → y.1.lock = some t) ∧
    moved .write tr = moved .read tr ++ s.buffered ∧
    ∀ a s', s.step a = some s' →
      (∀ t src i, s.returned a s' = some (t, .write src i) →
        i ≤ src.length ∧ movedBy t (tr ++ [(s, a)]) = src.take i) ∧
      (∀ t n dst, s.returned a s' = some (t, .read n dst) →
        movedBy t (tr ++ [(s, a)]) = dst ∧
        (dst.length < n → dst.getLast? = some newline ∨ s.killed t = true ∨
          (s.nread = s.nwrite ∧ s.isOpen .write = false) ∨
            (a = .callRead t n ∧ s.isOpen .read = false))) := by
  have h := inv_of_run hrun
  refine ⟨h.count_le, fun y hy t m hm => ?_, h.fifo, fun a s' hs => ?_⟩
  · -- the state of the trace is itself reached by a run
    obtain ⟨s, a⟩ := y
    obtain ⟨tr', s', hrun', -, -⟩ := hrun.of_mem hy
    cases a <;> first | cases hm | skip
    rename_i u
    obtain ⟨⟨job, pc⟩, ht, hmap⟩ := Option.bind_eq_some_iff.1 hm
    obtain ⟨m', hm', heq⟩ := Option.map_eq_some_iff.1 hmap
    obtain ⟨rfl, -⟩ := Prod.mk.inj heq
    obtain rfl := inside_of_transferOf hm'
    exact exclusive_of_run hrun' u job .inside ht rfl
  · have hnext := next_of_step hs
    refine ⟨fun t src i hret => ?_, fun t n dst hret => ?_⟩
    · obtain ⟨hmoved, hle⟩ := h.returned hnext hret
      exact ⟨hle src i rfl, hmoved⟩
    · refine ⟨(h.returned hnext hret).1, fun hlt => ?_⟩
      rcases hnext.returned hret with ⟨pc, -, ht, hm, hnone⟩ | ⟨ha, hclosed⟩
      · have hstop := (stops_of_run hrun).returned (base_of_run hrun) ht hm hnone hlt
        rw [← blocked_read_iff, blocked, decide_eq_true_eq] at hstop
        exact hstop.imp_right (Or.imp_right Or.inl)
      · obtain rfl : a = .callRead t n := by
          cases a <;> cases ha
          rfl
        exact Or.inr (Or.inr (Or.inr ⟨rfl, hclosed⟩))

/-- A line is written; a read of five bytes returns it. -/
theorem pipe_fifo_line : ∃ tr s s', Run step (init : State ℕ) tr s ∧ s.step (.run 1) = some s' ∧
    s.returned (.run 1) s' = some (1, .read 5 [65, 10]) ∧
    movedBy 1 (tr ++ [(s, .run 1)]) = [65, 10] := by
  have hexec : ((exec step (init : State ℕ)
      [.callWrite 0 [65, 10], .run 0, .run 0, .run 0, .run 0, .run 0, .run 0,
        .callRead 1 5, .run 1, .run 1, .run 1, .run 1, .run 1]).bind fun s =>
      (s.step (.run 1)).bind fun s' => s.returned (.run 1) s') =
      some (1, .read 5 [65, 10]) := by decide
  obtain ⟨s, hs, hexec⟩ := Option.bind_eq_some_iff.1 hexec
  obtain ⟨s', hs', hret⟩ := Option.bind_eq_some_iff.1 hexec
  exact ⟨_, s, s', Run.of_exec hs, hs', hret,
    (((pipe_fifo (Run.of_exec hs)).2.2.2 _ s' hs').2 1 5 [65, 10] hret).1⟩

/-- **A read of a closed end returns nothing**, with a byte in the buffer and the
write end open: thread 0 has written, thread 1 has closed the read end, and
thread 2 calls `pipeRead`. -/
theorem pipe_read_closed : ∃ tr s s', Run step (init : State ℕ) tr s ∧
    s.step (.callRead 2 1) = some s' ∧ s.returned (.callRead 2 1) s' = some (2, .read 1 []) ∧
    s.killed 2 = false ∧ s.nread ≠ s.nwrite ∧ s.isOpen .write = true := by
  have hexec : ((exec step (init : State ℕ)
      [.callWrite 0 [65], .run 0, .run 0, .run 0, .run 0, .run 0,
        .callClose 1 .read, .run 1, .run 1, .run 1, .run 1]).bind fun s =>
      (s.step (.callRead 2 1)).map fun s' =>
        decide (s.returned (.callRead 2 1) s' = some (2, .read 1 []) ∧ s.killed 2 = false ∧
          s.nread ≠ s.nwrite ∧ s.isOpen .write = true)) = some true := by decide
  obtain ⟨s, hs, hexec⟩ := Option.bind_eq_some_iff.1 hexec
  obtain ⟨s', hs', hall⟩ := Option.map_eq_some_iff.1 hexec
  exact ⟨_, s, s', Run.of_exec hs, hs', of_decide_eq_true hall⟩

end State

end OsKernel.Pipe
