import OsKernel.Cache.MapRefinement
import OsKernel.Cache.SwapArea
import OsKernel.Fs.Helpers.Ownership
import OsKernel.Paging.Fork

/-!
# A page that is swapped out comes back

`swapout` writes each page of a section to a slot of its own and leaves the
slot in the entry; `swapin` reads the page back to a frame of its own. In
between the entry is not valid: the block number of a slot is shifted past
the flags (`slotEntry`), and what is shifted back is the number again.

The slots and pages of `Memory` are those of the swap area: `Mirrors` relates
the two, and every step of the area is a step of `swapout` or `swapin` on a
page, or none (`Mirrors.step`).
-/

namespace OsKernel.Paging

open Function

open Cache
open Fs

/-! ## The entry of a page on disk -/

/-- `PTE_VALID`. -/
def pteValid : UInt64 := 0x1

/-- `PTE_ADDRESS`. -/
def pteAddress (e : UInt64) : UInt64 := e &&& ~~~0xFFFF000000000FFF

namespace Memory

variable {P : Type} [DecidableEq P] {E : Env} {s s' : Memory P} {p : P} {l : List ℕ} {f i k v : ℕ}
variable {s₁ s₂ : Memory P}

/-- What is in a page of `p`, if it is mapped. -/
def content (s : Memory P) (p : P) (v : ℕ) : Option Page := (s.pt p v).frame.map s.frames.data

/-- The pages of a list that are mapped. -/
def mappedCount (s : Memory P) (p : P) (l : List ℕ) : ℕ := l.countP fun v => (s.pt p v).frame.isSome

/-- The slots that are free. -/
def freeSlots (E : Env) (s : Memory P) : ℕ := (List.range E.swapSize).countP fun k => !s.slots k

/-- The frames of the pages are on loan, each for one of them alone. -/
structure Separate (E : Env) (s : Memory P) (p : P) (l : List ℕ) : Prop where
  nodup : s.frames.pages.Nodup
  used : ∀ v ∈ l, ∀ f, (s.pt p v).frame = some f → f ∉ s.frames.pages
  once : ∀ v ∈ l, ∀ w ∈ l, v ≠ w → ∀ f, (s.pt p v).frame = some f → (s.pt p w).frame = some f →
    E.layout.fixed f = true

/-! ## `swapout` -/

/-- What `swapout` leaves of the pages in `l`: each mapped one is in a slot
that was free. -/
structure SwappedOut (p : P) (l : List ℕ) (s s' : Memory P) : Prop where
  null : ∀ v ∈ l, s.pt p v = .null → s'.pt p v = .null
  disk : ∀ v ∈ l, ∀ f, (s.pt p v).frame = some f →
    ∃ k, s'.pt p v = .disk k ∧ s.slots k = false ∧ s'.slots k = true ∧ s'.disk k = s.frames.data f
  inj : ∀ v ∈ l, ∀ w ∈ l, ∀ k, s'.pt p v = .disk k → s'.pt p w = .disk k → v = w
  keep : ∀ k, s.slots k = true → s'.slots k = true ∧ s'.disk k = s.disk k
  elsewhere : ∀ q w, ¬(q = p ∧ w ∈ l) → s'.pt q w = s.pt q w

/-- What `swapout` does with page `v`, mapped to frame `f`: it goes to slot
`k`. -/
structure PageOut (E : Env) (p : P) (v f k : ℕ) (s s' : Memory P) : Prop where
  free : s.slots k = false
  slots : s'.slots = update s.slots k true
  disk : s'.disk = update s.disk k (s.frames.data f)
  pt : ∀ q w, s'.pt q w = if q = p ∧ w = v then .disk k else s.pt q w
  frames : s'.frames = s.frames.kfreePage E.layout f
  sections : s'.sections = s.sections
  less : s'.freeSlots E + 1 = s.freeSlots E

/-- The frame that is freed belongs to no page that comes later. -/
theorem PageOut.rest (h : PageOut E p v f k s s') (hv : v ∉ l) (hsep : s.Separate E p (v :: l))
    (hf : (s.pt p v).frame = some f) :
    s'.Separate E p l ∧ (∀ w ∈ l, s'.pt p w = s.pt p w) ∧
      ∀ w ∈ l, ∀ g, (s.pt p w).frame = some g → s'.frames.data g = s.frames.data g := by
  have hne : ∀ w ∈ l, w ≠ v := fun w hw heq => hv (heq ▸ hw)
  have hpt : ∀ w ∈ l, s'.pt p w = s.pt p w := fun w hw => by
    rw [h.pt, if_neg fun heq => hne w hw heq.2]
  have hother : ∀ w ∈ l, ∀ g, (s.pt p w).frame = some g →
      E.layout.fixed f = false → g ≠ f := fun w hw g hg hfix hgf => by
    have := hsep.once v (by simp) w (by simp [hw]) (hne w hw).symm f hf (hgf ▸ hg)
    rw [hfix] at this
    cases this
  rcases Frames.kfreePage_cases E.layout s.frames f with ⟨hpages, hdata⟩ | ⟨hfix, hpages, hdata⟩
  · refine ⟨⟨?_, fun w hw g hg => ?_, fun w hw x hx hwx g hwg hxg => ?_⟩, hpt, fun w hw g hg => ?_⟩
    · rw [h.frames, hpages]
      exact hsep.nodup
    · rw [hpt w hw] at hg
      rw [h.frames, hpages]
      exact hsep.used w (by simp [hw]) g hg
    · rw [hpt w hw] at hwg
      rw [hpt x hx] at hxg
      exact hsep.once w (by simp [hw]) x (by simp [hx]) hwx g hwg hxg
    · rw [h.frames, hdata]
  · refine ⟨⟨?_, fun w hw g hg => ?_, fun w hw x hx hwx g hwg hxg => ?_⟩, hpt, fun w hw g hg => ?_⟩
    · rw [h.frames, hpages]
      exact List.nodup_cons.2 ⟨hsep.used v (by simp) f hf, hsep.nodup⟩
    · rw [hpt w hw] at hg
      rw [h.frames, hpages, List.mem_cons]
      exact fun hmem => hmem.elim (hother w hw g hg hfix) (hsep.used w (by simp [hw]) g hg)
    · rw [hpt w hw] at hwg
      rw [hpt x hx] at hxg
      exact hsep.once w (by simp [hw]) x (by simp [hx]) hwx g hwg hxg
    · rw [h.frames]
      exact hdata g (hother w hw g hg hfix)

/-- What a section keeps while it is swapped out: nobody else writes to the
table of the process, or to a slot that is in use. -/
structure Asleep (p : P) (l : List ℕ) (s s' : Memory P) : Prop where
  sections : s'.sections p = s.sections p
  pt : ∀ v ∈ l, s'.pt p v = s.pt p v
  disk : ∀ v ∈ l, ∀ k, s.pt p v = .disk k → s'.disk k = s.disk k

/-- The pages in `l` have the content that they had, and those that were not
mapped are not mapped, but for the pages in `fresh`. -/
def Restored (p : P) (l fresh : List ℕ) (s s' : Memory P) : Prop :=
  ∀ v ∈ l, (s.pt p v ≠ .null → s'.content p v = s.content p v) ∧
    (s.pt p v = .null → v ∉ fresh → s'.pt p v = .null)

section Calls

variable {st : Section}

section

omit [DecidableEq P]

/-- What is restored depends on the table and the frames alone. -/
theorem Restored.congr {fresh : List ℕ} (h : Restored p l fresh s s₁) (hpt : s'.pt = s₁.pt)
    (hframes : s'.frames = s₁.frames) : Restored p l fresh s s' := by
  intro v hv
  rw [content, hpt, hframes]
  exact h v hv

/-- The entries of a section that is swapped out: null, or on disk. -/
theorem SwappedOut.entry (hout : SwappedOut p l s s₁) (hdisk : ∀ v ∈ l, ∀ k, s.pt p v ≠ .disk k)
    (hasleep : Asleep p l s₁ s₂) (hv : v ∈ l) :
    (s₂.pt p v).frame = none ∧ (s₂.pt p v ≠ .null ↔ (s.pt p v).frame.isSome) := by
  rw [hasleep.pt v hv]
  cases he : s.pt p v with
  | null =>
    rw [hout.null v hv he]
    exact ⟨rfl, by simp [Pte.frame]⟩
  | disk k => exact absurd he (hdisk v hv k)
  | page ro f =>
    obtain ⟨k, hk, -⟩ := hout.disk v hv f (by rw [he]; rfl)
    rw [hk]
    exact ⟨rfl, by simp [Pte.frame]⟩

/-- As many pages are on disk as were mapped. -/
theorem SwappedOut.count (hout : SwappedOut p l s s₁) (hdisk : ∀ v ∈ l, ∀ k, s.pt p v ≠ .disk k)
    (hasleep : Asleep p l s₁ s₂) : (l.countP fun v => s₂.pt p v ≠ .null) = s.mappedCount p l :=
  List.countP_congr fun v hv => by
    rw [decide_eq_true_iff]
    exact (hout.entry hdisk hasleep hv).2

end

end Calls

/-! ## The slots of the address spaces are those of the swap area -/

variable {T : Type} [DecidableEq T] {sb : SuperBlock} {a a' : SwapSys T}

/-- `find_and_set_8_blocks` and what `write_page_to_disk` writes, as in
`swapoutPage`. -/
def takeSlot (s : Memory P) (k : ℕ) (page : Page) : Memory P :=
  { s with slots := update s.slots k true, disk := update s.disk k page }

/-- `release_8_blocks`, as in `swapinPage`. -/
def releaseSlot (s : Memory P) (k : ℕ) : Memory P :=
  { s with slots := update s.slots k false }

/-- What the address spaces ask of the swap area. -/
inductive SlotAct where
  | keep (page : Page)
  | fetch (k : ℕ)

/-- The swap area as they know it: each call is one step. -/
def slotStep (s : Memory P) : SlotAct → Option (Memory P)
  | .keep page => ((List.range swapSize).find? fun k => !s.slots k).map (s.takeSlot · page)
  | .fetch k => some (s.releaseSlot k)

/-- The pages that go out, and those that come in. -/
def slotIo : Memory P × SlotAct → List (Page ⊕ Page)
  | (_, .keep page) => [.inl page]
  | (s, .fetch k) => [.inr (s.disk k)]

/-- The same of `write_page_to_disk`, and of `read_page_from_disk` when it has
read all its blocks. -/
def swapIo : SwapSys T × SwapAct T → List (Page ⊕ Page)
  | (_, .save _ pg) => [.inl pg.get]
  | (a, .go t) =>
    match a.stage t with
    | .loaded _ _ q => [.inr q.get]
    | _ => []
  | _ => []

/-- The swap area as the address spaces know it: `slots` is the bitmap, and a
slot has the page that a thread writes or has written to it. -/
structure Mirrors (s : Memory P) (a : SwapSys T) : Prop where
  slots : ∀ k < swapSize, s.slots k = a.bitmap.bitmapGet k
  saved : ∀ k (p : PageData), a.saved k = some p → s.disk k = p.get
  page : ∀ t k (p : PageData), (a.stage t).page = some (k, p) → s.disk k = p.get

omit [DecidableEq P] [DecidableEq T] in
/-- Both find the same slot. -/
theorem Mirrors.findSlot (h : Mirrors s a) :
    a.findSlot = (List.range swapSize).find? fun k => !s.slots k :=
  List.find?_congr fun k hk => by rw [h.slots k (List.mem_range.1 hk)]

omit [DecidableEq T] in
theorem slot_of_page {t : T} {pg : PageData} (hp : (a.stage t).page = some (k, pg)) :
    (a.stage t).slot = some k := by
  cases hst : a.stage t with
  | idle =>
    rw [hst] at hp
    cases hp
  | save k' p' i c | load k' p' q i c | loaded k' p' q =>
    rw [hst] at hp
    exact congrArg some (pair_inj hp).1

section

omit [DecidableEq P]

/-- **The swap area does what `swapout` and `swapin` do with a page, or
nothing**: `write_page_to_disk` takes the first free slot for its page, and
`read_page_from_disk` gives the page of the slot and then the slot. -/
theorem Mirrors.step (h : Mirrors s a) (hinv : SwapSys.Inv sb a) {act : SwapAct T}
    (hs : a.step sb act = some a') :
    ∃ tr' s', Run slotStep s tr' s' ∧ Mirrors s' a' ∧ tr'.flatMap slotIo = swapIo (a, act) := by
  have hfit : ∀ k < swapSize, k / 8 < 8 := fun k hk => by
    simp only [swapSize] at hk
    omega
  cases act with
  | fs c =>
    obtain ⟨-, hs⟩ := of_guarded hs
    obtain ⟨sys, -, rfl⟩ := Option.map_eq_some_iff.1 hs
    exact ⟨[], s, .nil, ⟨h.slots, h.saved, h.page⟩, rfl⟩
  | save t pg =>
    obtain ⟨hst, hs⟩ := of_guarded hs
    obtain ⟨k, hk, rfl⟩ := Option.map_eq_some_iff.1 hs
    obtain ⟨hlt, hclear⟩ := SwapSys.findSlot_spec hk
    have hne : ∀ j, a.bitmap.bitmapGet j = true → j ≠ k := fun j hj => ne_of_values hj hclear nofun
    have hkeep : s.slotStep (.keep pg.get) = some (s.takeSlot k pg.get) := by
      rw [slotStep, ← h.findSlot, hk, Option.map_some]
    refine ⟨_, _, .single hkeep, ⟨fun j hj => ?_, fun j p hp => ?_, fun t' j p hp => ?_⟩, rfl⟩
    · refine Eq.trans ?_ (Bytes.bitmapGet_bitmapSet (hfit k hlt) (by decide) j).symm
      by_cases hjk : j = k
      · simp [takeSlot, hjk]
      · simp [takeSlot, hjk, h.slots j hj]
    · have hp : a.saved j = some p := hp
      exact (update_of_ne (hne j (hinv.saved j p hp).2.1) _ _).trans (h.saved j p hp)
    · have hp : (update a.stage t (.save k pg 0 .acquire) t').page = some (j, p) := hp
      by_cases ht : t' = t
      · rw [ht, update_self] at hp
        obtain ⟨rfl, rfl⟩ := pair_inj hp
        exact update_self _ _ _
      · rw [update_of_ne ht] at hp
        have hset := (hinv.slot t' j (slot_of_page hp)).2.1
        exact (update_of_ne (hne j hset) _ _).trans (h.page t' j p hp)
  | load t bno q =>
    obtain ⟨hen, hs⟩ := of_guarded hs
    obtain ⟨pg, hpg, rfl⟩ := Option.map_eq_some_iff.1 hs
    refine ⟨[], s, .nil, ⟨h.slots, fun j p hp => ?_, fun t' j p hp => ?_⟩, rfl⟩
    · rcases update_eq_cases hp with ⟨-, hnone⟩ | ⟨-, hp⟩
      · cases hnone
      · exact h.saved j p hp
    · have hp : (update a.stage t
        (.load ((bno - swapStart) / 8) pg q 0 .acquire) t').page = some (j, p) := hp
      by_cases ht : t' = t
      · rw [ht, update_self] at hp
        obtain ⟨rfl, rfl⟩ := pair_inj hp
        exact h.saved _ _ hpg
      · rw [update_of_ne ht] at hp
        exact h.page t' j p hp
  | go t =>
    obtain ⟨hstage, hsaved, hbitmap⟩ := SwapSys.go_page hs
    have hpage : ∀ t' j (p : PageData), (a'.stage t').page = some (j, p) → s.disk j = p.get := by
      intro t' j p hp
      rcases hstage t' with heq | ⟨-, heq | heq⟩
      · exact h.page t' j p (heq ▸ hp)
      · exact h.page t' j p (heq ▸ hp)
      · rw [heq] at hp
        cases hp
    have hdisk : ∀ j (p : PageData), a'.saved j = some p → s.disk j = p.get := fun j p hp =>
      (hsaved j p hp).elim (h.saved j p) (h.page t j p)
    rcases hbitmap with ⟨hst, heq⟩ | ⟨k, pg, q, hst, heq⟩
    · refine ⟨[], s, .nil, ⟨by rw [heq]; exact h.slots, hdisk, hpage⟩, ?_⟩
      rw [swapIo]
      split
      · exact absurd ‹_› (hst _ _ _)
      · rfl
    · have hok := hinv.ok t
      have hlt := (hinv.slot t k (by rw [hst]; rfl)).1
      rw [hst] at hok
      have hq : q = pg := hok
      have hget := h.page t k pg (by rw [hst]; rfl)
      refine ⟨_, s.releaseSlot k, .single (a := .fetch k) rfl, ⟨fun j hj => ?_, hdisk, hpage⟩, ?_⟩
      · rw [heq, Bytes.bitmapGet_bitmapClear (hfit k hlt) (by decide) j]
        by_cases hjk : j = k
        · simp [releaseSlot, hjk]
        · simp [releaseSlot, hjk, h.slots j hj]
      · simp [slotIo, swapIo, hst, hq, hget]

/-- **The swap area is as good as one that takes a step for each call**: in
every run of it with any number of threads the pages that go out and come in are
those of a run of `slotStep`. -/
theorem swap_area_atomic {d : Disk} {sys : Sys} {tr : List (SwapSys T × SwapAct T)}
    (hlay : SwapLayout sb) (hd : LogOk sb d) (hboot : initBcache sb d = some sys)
    (hrun : Run (SwapSys.step sb) (SwapSys.init sys) tr a) (hfree : ∀ k, s.slots k = false) :
    ∃ tr' s', Run slotStep s tr' s' ∧ Mirrors s' a ∧ tr'.flatMap slotIo = tr.flatMap swapIo := by
  have hclear : ∀ k < swapSize, (Bytes.zero : Bytes 8).bitmapGet k = false := by decide
  have hinit : Mirrors s (SwapSys.init sys : SwapSys T) :=
    ⟨fun k hk => (hfree k).trans (hclear k hk).symm, by simp [SwapSys.init],
      by simp [SwapSys.init, SwapStage.page]⟩
  obtain ⟨tr', s', hrun', ⟨-, hmir⟩, hio⟩ : ∃ tr' s', Run slotStep s tr' s' ∧
      (SwapSys.Inv sb a ∧ Mirrors s' a) ∧ tr'.flatMap slotIo = tr.flatMap swapIo := by
    refine hrun.simulate (K := fun _ _ => True) (R := fun a s => SwapSys.Inv sb a ∧ Mirrors s a)
      (fun _ _ => trivial) ⟨SwapSys.inv_init hlay hd hboot, hinit⟩ fun a act a' s hR _ hs => ?_
    obtain ⟨tr', s', hrun', hmir, hio⟩ := hR.2.step hR.1 hs
    exact ⟨tr', s', hrun', ⟨hR.1.step hlay hs, hmir⟩, hio⟩
  exact ⟨tr', s', hrun', hmir, hio⟩

end

/-- A page of sevens. -/
def sevens : PageData := Bytes.ofFn fun _ => 7

/-- Two threads write a page each, by turns, and the first one reads its page up to the
point where it gives up the slot. -/
def twoThreads : List (SwapAct ℕ) :=
  .save 0 sevens :: .save 1 Bytes.zero :: (List.replicate 32 [.go 0, .go 1]).flatten ++
    .load 0 800 Bytes.zero :: List.replicate 24 (.go 0)

/-- Has `read_page_from_disk` read all its blocks, and was the page one of sevens? -/
def readSevens : SwapStage → Bool
  | .loaded _ p _ => decide (∀ i j : Fin 64, p.get (64 * i + j) = 7)
  | _ => false

theorem of_readSevens {st : SwapStage} (h : readSevens st = true) :
    ∃ k q, st = .loaded k sevens q := by
  cases st with
  | idle | save _ _ _ _ | load _ _ _ _ _ => cases h
  | loaded k p q =>
    have hp : p = sevens := Bytes.ext_get fun i hi => by
      have hi' : i < 4096 := hi
      have hbyte := of_decide_eq_true h ⟨i / 64, by omega⟩ ⟨i % 64, by omega⟩
      rw [Nat.div_add_mod] at hbyte
      rw [hbyte, sevens, Bytes.get_ofFn hi]
    exact ⟨k, q, by rw [hp]⟩

theorem exec_twoThreads : ∃ a k q, exec (SwapSys.step mkfsLayout) (SwapSys.init freshSys)
    twoThreads = some a ∧ a.stage 0 = .loaded k sevens q := by
  have hend : (exec (SwapSys.step mkfsLayout) (SwapSys.init freshSys) twoThreads).any
      (fun a => readSevens (a.stage 0)) = true := by decide +kernel
  obtain ⟨a, ha, hread⟩ := (Option.any_eq_true _ _).1 hend
  obtain ⟨k, q, hst⟩ := of_readSevens hread
  exact ⟨a, k, q, ha, hst⟩

/-- The pages that go out. -/
def savedIo : SwapAct ℕ → List (Page ⊕ Page)
  | .save _ pg => [.inl pg.get]
  | _ => []

theorem swapIo_eq_savedIo {x : SwapSys ℕ × SwapAct ℕ}
    (h : (swapIo x).length = (savedIo x.2).length) : swapIo x = savedIo x.2 := by
  obtain ⟨a, c | ⟨t, pg⟩ | ⟨t, bno, q⟩ | t⟩ := x
  · rfl
  · rfl
  · rfl
  · exact List.length_eq_zero_iff.1 h

/-- **Two pages go out, and the first comes in**, whatever the second thread does in
between. -/
theorem swap_area_atomic_twoThreads : ∃ tr a tr' s',
    Run (SwapSys.step mkfsLayout) (SwapSys.init freshSys) tr a ∧
    tr.map Prod.snd = twoThreads ++ [.go 0] ∧ Run slotStep (oneProcess 0 []) tr' s' ∧
    tr'.flatMap slotIo =
      [.inl sevens.get, .inl (Bytes.zero : PageData).get, .inr sevens.get] := by
  have hquiet : ∀ x ∈ execTrace (SwapSys.step mkfsLayout) (SwapSys.init freshSys) twoThreads,
      (swapIo x).length = (savedIo x.2).length := by decide +kernel
  obtain ⟨a, k, q, ha, hst⟩ := exec_twoThreads
  have hlay : SwapLayout mkfsLayout := ⟨by decide, by decide⟩
  have hrun := Run.of_exec ha
  have hinv := hrun.invariant (SwapSys.inv_init hlay logOk_zeroDisk initBcache_zeroDisk)
    fun _ _ _ h hs => h.step hlay hs
  have hq : q = sevens := by
    have hok := hinv.ok 0
    rw [hst] at hok
    exact hok
  obtain ⟨a', ha'⟩ : ∃ a', a.step mkfsLayout (.go 0) = some a' :=
    ⟨_, by rw [SwapSys.step, SwapSys.go, hst]⟩
  obtain ⟨tr', s', hrun', -, hio⟩ := swap_area_atomic (s := oneProcess 0 []) hlay logOk_zeroDisk
    initBcache_zeroDisk (hrun.snoc ha') fun _ => rfl
  have hacts := map_snd_execTrace ha
  have hfront : (execTrace (SwapSys.step mkfsLayout) (SwapSys.init freshSys) twoThreads).flatMap
      swapIo = twoThreads.flatMap savedIo := by
    rw [List.flatMap_congr fun x hx => swapIo_eq_savedIo (hquiet x hx)]
    rw [← List.flatMap_map Prod.snd savedIo, hacts]
  refine ⟨_, a', tr', s', hrun.snoc ha', by rw [List.map_append, hacts]; rfl, hrun', ?_⟩
  rw [hio, List.flatMap_append, hfront]
  simp [swapIo, hst, hq, twoThreads, savedIo]

end Memory

/-! ## The theorem -/

section Main

variable {T : Type} [DecidableEq T]

/-- Slot `k` is live: a thread works on it, or a page is there. -/
def Live (a : SwapSys T) (k : ℕ) : Prop := (∃ t, (a.stage t).slot = some k) ∨ (a.saved k).isSome

end Main

end OsKernel.Paging
