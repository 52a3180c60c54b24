import OsKernel.Common.Chain
import OsKernel.Common.Run
import OsKernel.Common.Update

/-!
# The lists of free memory

`add_to_queue` and `fetch_from_queue` of `common/list.c`, which the lists of
free pages and of free blocks are made with, by any threads at once. A step is
one read or write of the memory or one compare-and-exchange; the exchange may
fail without a reason, as the weak one does.

`fetch_from_queue` reads `node->next` before it exchanges the head, and the
exchange compares the head only. When the node has left the list and come back
in between, the exchange succeeds with a stale `next`, and a node is handed out
that another thread has (`handed_out_twice`). As long as every exchange that
succeeds finds `node->next` as it was read, each node is in the list once or has
one owner, and is handed out once for each time it is added
(`nodes_handed_out_once`).
-/

namespace OsKernel.Mem

open Function

/-- Where a thread is in `add_to_queue` or `fetch_from_queue`. -/
inductive QueueStage (N : Type*) where
  | idle
  /-- `add_to_queue` reads the head. -/
  | addRead (node : N)
  /-- `add_to_queue` stores what it has read in `node->next`. -/
  | addStore (node : N) (h : Option N)
  /-- `add_to_queue` exchanges the head. -/
  | addCas (node : N)
  /-- `fetch_from_queue` reads the head. -/
  | fetchRead
  /-- `fetch_from_queue` reads `node->next`. -/
  | fetchNext (node : N)
  /-- `fetch_from_queue` exchanges the head. -/
  | fetchCas (node : N) (next : Option N)
deriving DecidableEq

/-- The node that a thread is adding. -/
def QueueStage.adding {N : Type*} : QueueStage N → Option N
  | .addRead node | .addStore node _ | .addCas node => some node
  | _ => none

/-- A list and the threads that use it. -/
structure PageList (T N : Type*) where
  head : Option N
  /-- `next` of every node, also of those that are not in the list. -/
  next : N → Option N
  /-- Not part of the code: who has a node, `none` when it is in the list. -/
  owner : N → Option T
  stage : T → QueueStage N

/-- What can happen next. -/
inductive QueueAct (T N : Type*) where
  | add (t : T) (node : N)
  | fetch (t : T)
  /-- The thread goes on; `spurious` is whether the weak exchange fails without
  a reason. -/
  | go (t : T) (spurious : Bool)
  /-- The owner of a node uses its memory. -/
  | use (t : T) (node : N) (v : Option N)
  /-- The owner of a node hands it to another thread. -/
  | give (t : T) (node : N) (t' : T)
deriving DecidableEq

namespace PageList

variable {T N : Type*} [DecidableEq T] [DecidableEq N]

/-- A thread goes on. -/
def goto (s : PageList T N) (t : T) (st : QueueStage N) : PageList T N :=
  { s with stage := update s.stage t st }

/-- `next` of a node is written. -/
def setNext (s : PageList T N) (node : N) (v : Option N) : PageList T N :=
  { s with next := update s.next node v }

/-- The head is written, and a node changes hands. -/
def exchange (s : PageList T N) (head : Option N) (node : N) (o : Option T) : PageList T N :=
  { s with head := head, owner := update s.owner node o }

/-- One step of `add_to_queue` or `fetch_from_queue`. A failed exchange stores
the head in the place of what was expected. -/
def go (s : PageList T N) (t : T) (spurious : Bool) : Option (PageList T N) :=
  match s.stage t with
  | .idle => none
  | .addRead node => some (s.goto t (.addStore node s.head))
  | .addStore node h => some ((s.setNext node h).goto t (.addCas node))
  | .addCas node =>
    if spurious ∨ s.head ≠ s.next node then some ((s.setNext node s.head).goto t (.addRead node))
    else some ((s.exchange (some node) node none).goto t .idle)
  | .fetchRead =>
    match s.head with
    | none => some (s.goto t .idle)
    | some node => some (s.goto t (.fetchNext node))
  | .fetchNext node => some (s.goto t (.fetchCas node (s.next node)))
  | .fetchCas node next =>
    if spurious ∨ s.head ≠ some node then some (s.goto t .fetchRead)
    else some ((s.exchange next node (some t)).goto t .idle)

/-- The steps. -/
def step (s : PageList T N) : QueueAct T N → Option (PageList T N)
  | .add t node =>
    if s.stage t = .idle ∧ s.owner node = some t then some (s.goto t (.addRead node)) else none
  | .fetch t => if s.stage t = .idle then some (s.goto t .fetchRead) else none
  | .go t spurious => s.go t spurious
  | .use t node v =>
    if s.stage t = .idle ∧ s.owner node = some t then some (s.setNext node v) else none
  | .give t node t' =>
    if s.stage t = .idle ∧ s.owner node = some t then
      some (s.exchange s.head node (some t'))
    else none

/-- `fetch_from_queue` returns the node in this step. -/
def Returns (s : PageList T N) (a : QueueAct T N) (node : N) : Prop :=
  ∃ t next, a = .go t false ∧ s.stage t = .fetchCas node next ∧ s.head = some node

/-- `add_to_queue` puts the node into the list in this step. -/
def Adds (s : PageList T N) (a : QueueAct T N) (node : N) : Prop :=
  ∃ t, a = .go t false ∧ s.stage t = .addCas node ∧ s.head = s.next node

/-- An exchange of `fetch_from_queue` that succeeds finds `node->next` as it was
read. -/
def ExchangesCurrent (s : PageList T N) (a : QueueAct T N) : Prop :=
  ∀ t node next, a = .go t false → s.stage t = .fetchCas node next → s.head = some node →
    s.next node = next

/-- **Every node is in one place**: the list is well linked, and its nodes are
those that no thread has. -/
structure OnePlace (s : PageList T N) : Prop where
  list : ∃ l, Chain s.next s.head l ∧ l.Nodup ∧ ∀ node, node ∈ l ↔ s.owner node = none
  adding : ∀ t node, (s.stage t).adding = some node → s.owner node = some t

/-- The list when the system comes up: nobody is using it. -/
structure Ready (s : PageList T N) : Prop where
  idle : ∀ t, s.stage t = .idle
  list : ∃ l, Chain s.next s.head l ∧ l.Nodup ∧ ∀ node, node ∈ l ↔ s.owner node = none

variable {s s' s₀ : PageList T N} {a : QueueAct T N} {t : T} {node : N}

omit [DecidableEq T] [DecidableEq N] in
theorem Ready.onePlace (h : Ready s) : OnePlace s :=
  ⟨h.list, fun t node ht => by
    rw [h.idle t] at ht
    cases ht⟩

omit [DecidableEq N] in
@[simp] theorem goto_owner (st : QueueStage N) : (s.goto t st).owner = s.owner := rfl

omit [DecidableEq T] in
@[simp] theorem exchange_owner (head : Option N) (o : Option T) :
    (s.exchange head node o).owner = update s.owner node o := rfl

/-- **What a step can do.** -/
inductive Effect (s : PageList T N) : QueueAct T N → PageList T N → Prop
  /-- A thread goes on; what it is adding, it was adding or has. -/
  | quiet {a : QueueAct T N} (t : T) (st : QueueStage N) (hst : ∀ node, st.adding = some node →
      (s.stage t).adding = some node ∨ s.owner node = some t) : Effect s a (s.goto t st)
  /-- A thread writes the node that it is adding. -/
  | store {a : QueueAct T N} (t : T) (node : N) (v : Option N) (st : QueueStage N)
      (hadding : (s.stage t).adding = some node) (hst : st.adding = some node) :
      Effect s a ((s.setNext node v).goto t st)
  | use {a : QueueAct T N} (t : T) (node : N) (v : Option N) (howner : s.owner node = some t) :
      Effect s a (s.setNext node v)
  | give {a : QueueAct T N} (t : T) (node : N) (t' : T) (hidle : s.stage t = .idle)
      (howner : s.owner node = some t) : Effect s a (s.exchange s.head node (some t'))
  | push (t : T) (node : N) (hstage : s.stage t = .addCas node) (hhead : s.head = s.next node) :
      Effect s (.go t false) ((s.exchange (some node) node none).goto t .idle)
  | pop (t : T) (node : N) (next : Option N) (hstage : s.stage t = .fetchCas node next)
      (hhead : s.head = some node) :
      Effect s (.go t false) ((s.exchange next node (some t)).goto t .idle)

/-- One access of the memory by `add_to_queue` or `fetch_from_queue`. -/
theorem effect_of_go {spurious : Bool} (hs : s.go t spurious = some s') :
    Effect s (.go t spurious) s' := by
  unfold go at hs
  cases hst : s.stage t with
  | idle =>
    rw [hst] at hs
    cases hs
  | addRead node =>
    rw [hst] at hs
    obtain rfl := Option.some.inj hs
    refine .quiet t _ fun m hm => .inl ?_
    rw [hst]
    exact hm
  | addStore node v =>
    rw [hst] at hs
    obtain rfl := Option.some.inj hs
    exact .store t node v _ (by rw [hst]; rfl) rfl
  | addCas node =>
    simp only [hst] at hs
    split_ifs at hs with hfail
    · obtain rfl := Option.some.inj hs
      exact .store t node s.head _ (by rw [hst]; rfl) rfl
    · obtain rfl := Option.some.inj hs
      simp only [ne_eq, not_or, not_not, Bool.not_eq_true] at hfail
      obtain ⟨rfl, hhead⟩ := hfail
      exact .push t node hst hhead
  | fetchRead =>
    simp only [hst] at hs
    cases hhead : s.head with
    | none | some =>
      simp only [hhead] at hs
      obtain rfl := Option.some.inj hs
      exact .quiet t _ nofun
  | fetchNext node =>
    rw [hst] at hs
    obtain rfl := Option.some.inj hs
    exact .quiet t _ nofun
  | fetchCas node next =>
    simp only [hst] at hs
    split_ifs at hs with hfail
    · obtain rfl := Option.some.inj hs
      exact .quiet t _ nofun
    · obtain rfl := Option.some.inj hs
      simp only [ne_eq, not_or, not_not, Bool.not_eq_true] at hfail
      obtain ⟨rfl, hhead⟩ := hfail
      exact .pop t node next hst hhead

/-- Every step has one of the effects. -/
theorem effect_of_step (hs : s.step a = some s') : Effect s a s' := by
  cases a with
  | add t node =>
    obtain ⟨hok, rfl⟩ := of_guard hs
    refine .quiet t _ fun m hm => .inr ?_
    obtain rfl : node = m := Option.some.inj hm
    exact hok.2
  | fetch t =>
    obtain ⟨-, rfl⟩ := of_guard hs
    exact .quiet t _ nofun
  | go t spurious => exact effect_of_go hs
  | use t node v =>
    obtain ⟨hok, rfl⟩ := of_guard hs
    exact .use t node v hok.2
  | give t node t' =>
    obtain ⟨hok, rfl⟩ := of_guard hs
    exact .give t node t' hok.1 hok.2

/-! ## Every node is in one place -/

namespace OnePlace

omit [DecidableEq T] [DecidableEq N] in
/-- The head of the list has no owner. -/
theorem owner_head (h : OnePlace s) (hhead : s.head = some node) : s.owner node = none := by
  obtain ⟨l, hchain, -, hmem⟩ := h.list
  rw [hhead] at hchain
  exact (hmem node).1 hchain.head_mem

omit [DecidableEq N] in
/-- A thread goes on, and is adding what it was adding or nothing. -/
theorem goto {st : QueueStage N} (h : OnePlace s)
    (hst : ∀ node, st.adding = some node → s.owner node = some t) : OnePlace (s.goto t st) := by
  refine ⟨h.list, fun t' node ht' => ?_⟩
  change (update s.stage t st t').adding = some node at ht'
  rw [update_apply] at ht'
  split_ifs at ht' with htt
  · rw [htt]
    exact hst node ht'
  · exact h.adding t' node ht'

omit [DecidableEq T] in
/-- The owner of a node writes it. -/
theorem setNext (h : OnePlace s) (howner : s.owner node = some t) (v : Option N) :
    OnePlace (s.setNext node v) := by
  obtain ⟨l, hchain, hnodup, hmem⟩ := h.list
  have hnot : node ∉ l := fun hin => by
    rw [(hmem node).1 hin] at howner
    cases howner
  exact ⟨⟨l, hchain.update hnot v, hnodup, hmem⟩, h.adding⟩

/-- A node that points to the head is put into the list by its owner. -/
theorem push (h : OnePlace s) (hstage : (s.stage t).adding = some node)
    (hnext : s.head = s.next node) :
    OnePlace ((s.exchange (some node) node none).goto t .idle) := by
  have howner := h.adding t node hstage
  obtain ⟨l, hchain, hnodup, hmem⟩ := h.list
  have hnot : node ∉ l := fun hin => by
    rw [(hmem node).1 hin] at howner
    cases howner
  refine ⟨⟨node :: l, hchain.push hnext.symm, List.nodup_cons.2 ⟨hnot, hnodup⟩, fun m => ?_⟩,
    fun t' m ht' => ?_⟩
  · change m ∈ node :: l ↔ update s.owner node none m = none
    rw [update_apply, List.mem_cons]
    split_ifs with hm
    · simp [hm]
    · simp [hm, hmem m]
  · change (update s.stage t .idle t').adding = some m at ht'
    rw [update_apply] at ht'
    split_ifs at ht' with htt
    · cases ht'
    · -- another thread is adding another node
      have howner' := h.adding t' m ht'
      have hm : m ≠ node := by
        rintro rfl
        rw [howner] at howner'
        exact htt (Option.some.inj howner').symm
      exact (update_of_ne hm _ _).trans howner'

/-- The head of the list is taken, with the `next` that it has. -/
theorem pop (h : OnePlace s) (hhead : s.head = some node) :
    OnePlace ((s.exchange (s.next node) node (some t)).goto t .idle) := by
  have hnone := h.owner_head hhead
  obtain ⟨l, hchain, hnodup, hmem⟩ := h.list
  rw [hhead] at hchain
  obtain ⟨rest, rfl, hrest⟩ := hchain.pop
  obtain ⟨hnot, hnodup⟩ := List.nodup_cons.1 hnodup
  refine ⟨⟨rest, hrest, hnodup, fun m => ?_⟩, fun t' m ht' => ?_⟩
  · change m ∈ rest ↔ update s.owner node (some t) m = none
    rw [update_apply]
    split_ifs with hm
    · simp [hm, hnot]
    · rw [← hmem m, List.mem_cons, or_iff_right hm]
  · change (update s.stage t .idle t').adding = some m at ht'
    rw [update_apply] at ht'
    split_ifs at ht' with htt
    · cases ht'
    · have howner := h.adding t' m ht'
      have hm : m ≠ node := ne_of_values howner hnone nofun
      exact (update_of_ne hm _ _).trans howner

omit [DecidableEq T] in
/-- A node changes hands. -/
theorem give (h : OnePlace s) (hidle : s.stage t = .idle) (howner : s.owner node = some t)
    (t' : T) : OnePlace (s.exchange s.head node (some t')) := by
  obtain ⟨l, hchain, hnodup, hmem⟩ := h.list
  refine ⟨⟨l, hchain, hnodup, fun m => ?_⟩, fun u m hu => ?_⟩
  · change m ∈ l ↔ update s.owner node (some t') m = none
    rw [update_apply]
    split_ifs with hm
    · rw [hm, hmem node, howner]
      simp
    · exact hmem m
  · have howner' := h.adding u m hu
    have hm : m ≠ node := by
      rintro rfl
      obtain rfl := Option.mem_unique howner howner'
      rw [show (s.exchange s.head m (some t')).stage t = .idle from hidle] at hu
      cases hu
    exact (update_of_ne hm _ _).trans howner'

/-- **Every step keeps each node in one place**, if an exchange that succeeds
finds `node->next` as it was read. -/
theorem step (h : OnePlace s) (hcur : ExchangesCurrent s a) (hs : s.step a = some s') :
    OnePlace s' := by
  cases effect_of_step hs with
  | quiet t st hst => exact h.goto fun node hnode => (hst node hnode).elim (h.adding t node) id
  | store t node v st hadding hst =>
    have howner := h.adding t node hadding
    refine (h.setNext howner v).goto fun m hm => ?_
    rw [hst] at hm
    obtain rfl := Option.some.inj hm
    exact howner
  | use t node v howner => exact h.setNext howner v
  | give t node t' hidle howner => exact h.give hidle howner t'
  | push t node hstage hhead =>
    exact h.push (by rw [hstage]; rfl) hhead
  | pop t node next hstage hhead =>
    obtain rfl := hcur t node next rfl hstage hhead
    exact h.pop hhead

end OnePlace

/-! ## Handing out -/

/-- A node that a thread has stays with some thread until it is added. -/
theorem owned_step (hs : s.step a = some s') (howner : s.owner node ≠ none)
    (hadds : ¬Adds s a node) : s'.owner node ≠ none := by
  have hexchange : ∀ (head : Option N) (m : N) (u : T),
      (s.exchange head m (some u)).owner node ≠ none := fun head m u => by
    rw [exchange_owner, update_apply]
    split_ifs
    · exact nofun
    · exact howner
  cases effect_of_step hs with
  | quiet | store | use => exact howner
  | give t m t' => exact hexchange s.head m t'
  | pop t m next => exact hexchange next m t
  | push t m hstage hhead =>
    have hm : node ≠ m := by
      rintro rfl
      exact hadds ⟨t, rfl, hstage, hhead⟩
    rw [goto_owner, exchange_owner, update_of_ne hm]
    exact howner

/-- The thread that a node is returned to has it. -/
theorem Returns.owned (hret : Returns s a node) (hs : s.step a = some s') :
    s'.owner node ≠ none := by
  obtain ⟨t, next, rfl, hstage, hhead⟩ := hret
  simp only [step, go, hstage, hhead, Bool.false_eq_true, ne_eq, not_true_eq_false, or_self,
    if_false, Option.some.injEq] at hs
  subst hs
  rw [goto_owner, exchange_owner, update_self]
  exact nofun

/-- The node was returned, and has not been added since. -/
def Out (tr : List (PageList T N × QueueAct T N)) (node : N) : Prop :=
  ∃ tr₁ x tr₂, tr = tr₁ ++ x :: tr₂ ∧ Returns x.1 x.2 node ∧ ∀ z ∈ tr₂, ¬Adds z.1 z.2 node

variable {tr : List (PageList T N × QueueAct T N)}

omit [DecidableEq T] [DecidableEq N] in
/-- A node that is out after a step was returned by it, or was out before and
not added by it. -/
theorem Out.of_snoc (h : Out (tr ++ [(s, a)]) node) :
    Returns s a node ∨ Out tr node ∧ ¬Adds s a node := by
  obtain ⟨tr₁, x, tr₂, htr, hret, hadds⟩ := h
  rcases List.eq_nil_or_concat tr₂ with rfl | ⟨tr₂, z, rfl⟩
  · obtain ⟨-, hx⟩ := List.append_inj' htr rfl
    obtain rfl := List.cons.inj hx |>.1
    exact .inl hret
  · rw [List.concat_eq_append] at htr hadds
    rw [← List.cons_append, ← List.append_assoc] at htr
    obtain ⟨rfl, hz⟩ := List.append_inj' htr rfl
    obtain rfl := (List.cons.inj hz).1
    exact .inr ⟨⟨tr₁, x, tr₂, rfl, hret, fun w hw => hadds w (by simp [hw])⟩,
      hadds (s, a) (by simp)⟩

/-- **Each node is in one place, and a node that is out has an owner**, after
every run whose exchanges are current. -/
theorem onePlace_run (hready : Ready s₀) (hrun : Run step s₀ tr s)
    (hok : ∀ x ∈ tr, ExchangesCurrent x.1 x.2) :
    OnePlace s ∧ ∀ node, Out tr node → s.owner node ≠ none := by
  refine hrun.traceInvariantOf (K := ExchangesCurrent)
    (I := fun tr s => OnePlace s ∧ ∀ node, Out tr node → s.owner node ≠ none) hok
    ⟨hready.onePlace, ?_⟩ ?_
  · rintro node ⟨tr₁, x, tr₂, htr, -⟩
    simp at htr
  · rintro tr s a s' ⟨hplace, hout⟩ hcur hs
    refine ⟨hplace.step hcur hs, fun node hnode => ?_⟩
    rcases hnode.of_snoc with hret | ⟨hbefore, hadds⟩
    · exact hret.owned hs
    · exact owned_step hs (hout node hbefore) hadds

/-- **Each node is handed out once for each time it is added.** In every run
whose exchanges are current, each node is in the list once or has an owner, a
node is handed out only when nobody has it, and between two times that a node is
returned it is added. -/
theorem nodes_handed_out_once {tr : List (PageList T N × QueueAct T N)} (hready : Ready s₀)
    (hrun : Run step s₀ tr s) (hok : ∀ x ∈ tr, ExchangesCurrent x.1 x.2) :
    (∃ l, Chain s.next s.head l ∧ l.Nodup ∧ ∀ node, node ∈ l ↔ s.owner node = none) ∧
    (∀ x ∈ tr, ∀ node, Returns x.1 x.2 node → x.1.owner node = none) ∧
    ∀ tr₁ x tr₂ y tr₃ node, tr = tr₁ ++ x :: tr₂ ++ y :: tr₃ → Returns x.1 x.2 node →
      Returns y.1 y.2 node → ∃ z ∈ tr₂, Adds z.1 z.2 node := by
  refine ⟨(onePlace_run hready hrun hok).1.list, fun x hx node hret => ?_, ?_⟩
  · obtain ⟨tr', -, hrun', -, hpre⟩ := hrun.of_mem hx
    obtain ⟨t, next, -, -, hhead⟩ := hret
    exact (onePlace_run hready hrun' fun z hz => hok z (hpre.subset hz)).1.owner_head hhead
  · rintro tr₁ x tr₂ y tr₃ node rfl hx ⟨t, next, -, -, hhead⟩
    -- the run up to the second return: there the node is the head, so nobody has it
    have hrun' := hrun.of_append_cons
    have hinv := onePlace_run hready hrun' fun z hz =>
      hok z (List.mem_append_left _ hz)
    by_contra hnone
    push Not at hnone
    exact hinv.2 node ⟨tr₁, x, tr₂, rfl, hx, hnone⟩ (hinv.1.owner_head hhead)

/-! ## A node that left and came back -/

/-- `add_to_queue` without another thread in between. -/
def adds (t : T) (node : N) : List (QueueAct T N) :=
  [.add t node, .go t false, .go t false, .go t false]

/-- `fetch_from_queue` without another thread in between. -/
def fetches (t : T) : List (QueueAct T N) := [.fetch t, .go t false, .go t false, .go t false]

/-- Two free nodes, of which node 0 is the first, and two threads. -/
def twoFree : PageList (Fin 2) (Fin 2) where
  head := some ⟨0, Nat.two_pos⟩
  next := fun node => if node.val = 0 then some (Fin.last 1) else none
  owner := fun _ => none
  stage := fun _ => .idle

theorem twoFree_ready : Ready twoFree :=
  ⟨fun _ => rfl, [0, 1], .cons (.cons .nil), by decide, by decide⟩

instance (s : PageList (Fin 2) (Fin 2)) (a : QueueAct (Fin 2) (Fin 2)) (node : Fin 2) :
    Decidable (Adds s a node) :=
  inferInstanceAs (Decidable (∃ _, _))

instance (s : PageList (Fin 2) (Fin 2)) (a : QueueAct (Fin 2) (Fin 2)) :
    Decidable (ExchangesCurrent s a) :=
  inferInstanceAs (Decidable (∀ _ _ _, _))

/-- Thread 0 takes node 0 and gives it back, and thread 1 takes it. -/
theorem nodes_handed_out_once_zero : ∃ tr s l, Run step twoFree tr s ∧ s.owner 0 = some 1 ∧
    Chain s.next s.head l ∧ l.Nodup ∧ ∀ node, node ∈ l ↔ s.owner node = none := by
  have hend : (exec step twoFree (fetches 0 ++ adds 0 0 ++ fetches 1)).any
      (fun s => decide (s.owner 0 = some 1)) = true := by decide +kernel
  have htr : (execTrace step twoFree (fetches 0 ++ adds 0 0 ++ fetches 1)).all
      (fun x => decide (ExchangesCurrent x.1 x.2)) = true := by decide +kernel
  obtain ⟨s, hs, howner⟩ := (Option.any_eq_true _ _).1 hend
  obtain ⟨l, hl⟩ := (nodes_handed_out_once twoFree_ready (Run.of_exec hs) fun x hx =>
    of_decide_eq_true (List.all_eq_true.1 htr x hx)).1
  exact ⟨_, s, l, Run.of_exec hs, of_decide_eq_true howner, hl⟩

/-- Thread 0 reads the head and its `next`, thread 1 takes node 0 and gets as
far as the exchange for node 1. -/
def staleRead : List (QueueAct (Fin 2) (Fin 2)) :=
  let t : Fin 2 := ⟨0, Nat.two_pos⟩
  let u := Fin.last 1
  .fetch t :: .go t false :: .go t false ::
    (fetches u ++ [.fetch u, .go u false, .go u false])

/-- Thread 1 gives node 0 back; thread 0 exchanges the head, and fetches again
up to the exchange. -/
def staleExchange : List (QueueAct (Fin 2) (Fin 2)) :=
  let t : Fin 2 := ⟨0, Nat.two_pos⟩
  adds (Fin.last 1) t ++ [.go t false, .fetch t, .go t false, .go t false]

/-- **A node is handed out that another thread has.** Thread 0 has read the head,
node 0, and its `next`, node 1, when thread 1 takes both and gives node 0 back.
The exchange of thread 0 makes node 1 the head, and it is returned again. -/
theorem handed_out_twice : ∃ tr s, Run step twoFree tr s ∧ Out tr 1 ∧ s.owner 1 = some 1 ∧
    Returns s (.go 0 false) 1 := by
  -- up to the exchange that returns node 1 to thread 1, and from there to the
  -- one that returns it to thread 0
  have h : (exec step twoFree staleRead).any (fun s₁ =>
      decide (s₁.stage 1 = .fetchCas 1 none ∧ s₁.head = some 1) &&
      (step s₁ (.go 1 false)).any fun s₂ =>
        (execTrace step s₂ staleExchange).all (fun z => decide (¬Adds z.1 z.2 1)) &&
        (exec step s₂ staleExchange).any fun s =>
          decide (s.owner 1 = some 1 ∧ s.stage 0 = .fetchCas 1 none ∧ s.head = some 1)) =
      true := by decide +kernel
  obtain ⟨s₁, hs₁, h⟩ := (Option.any_eq_true _ _).1 h
  obtain ⟨hret, h⟩ := Bool.and_eq_true_iff.1 h
  obtain ⟨s₂, hs₂, h⟩ := (Option.any_eq_true _ _).1 h
  obtain ⟨hadds, h⟩ := Bool.and_eq_true_iff.1 h
  obtain ⟨s, hs, hend⟩ := (Option.any_eq_true _ _).1 h
  obtain ⟨hstage, hhead⟩ := of_decide_eq_true hret
  obtain ⟨howner, hstage', hhead'⟩ := of_decide_eq_true hend
  obtain ⟨tr₁, hrun₁⟩ : ∃ tr, Run step twoFree tr s₁ := ⟨_, Run.of_exec hs₁⟩
  obtain ⟨tr₂, hrun₂, hnot⟩ : ∃ tr, Run step s₂ tr s ∧ ∀ z ∈ tr, ¬Adds z.1 z.2 1 :=
    ⟨_, Run.of_exec hs, fun z hz => of_decide_eq_true (List.all_eq_true.1 hadds z hz)⟩
  have hreturns : Returns s₁ (.go 1 false) 1 := ⟨1, none, rfl, hstage, hhead⟩
  exact ⟨_, s, (hrun₁.snoc hs₂).append hrun₂,
    ⟨tr₁, (s₁, .go 1 false), tr₂, List.append_assoc _ _ _, hreturns, hnot⟩,
    howner, 0, none, rfl, hstage', hhead'⟩

end PageList

end OsKernel.Mem
