import OsKernel.Paging.Fork

/-!
# Helpers — copy-on-write

The invariant of the address spaces while no section is swapped out
(`Cow`), and what the page table of a process shows at an address
(`Shows`), with one lemma for each action. An entry whose page a `pgfault`
has given up already does not hold it any more (`held`).
-/

namespace OsKernel.Paging

open Function

namespace Memory

variable {P : Type} [DecidableEq P] {E : Env} {s s' : Memory P} {p np q : P} {f v w va : ℕ}
variable {b : UInt8} {flt : Fault}

/-- The frame that an entry holds. -/
def held (s : Memory P) (x : P × ℕ) : Option ℕ :=
  match s.fault x.1 with
  | some flt => if flt.page = x.2 ∧ flt.old = none then none else s.mapped x
  | none => s.mapped x

/-- A frame that somebody has taken, and no entry holds. -/
structure Spare (E : Env) (s : Memory P) (f : ℕ) : Prop where
  fixed : E.layout.fixed f = false
  free : f ∉ s.frames.pages
  held : ∀ x, s.held x ≠ some f

/-- The address space of a process: no section is swapped out. -/
structure Space (live : Bool) (sections : List Section) (pt : ℕ → Pte) (fault : Option Fault) :
    Prop where
  old : ∀ flt, fault = some flt → (flt.old = none ∧ pt flt.page = .null) ∨
    ∃ f, pt flt.page = .page true f ∧ (flt.old = none ∨ flt.old = some f)
  within : ∀ flt, fault = some flt → ∃ st ∈ sections, flt.page ∈ st.freePages
  apart : sections.Pairwise Section.Apart
  noswap : ∀ st ∈ sections, st.swap = false
  inside : ∀ v, pt v ≠ .null → ∃ st ∈ sections, v ∈ st.freePages
  nodisk : ∀ v slot, pt v ≠ .disk slot
  dead : live = false → (∀ v, pt v = .null) ∧ fault = none

/-- A process that is not in `pgfault`. -/
theorem Space.idle {live : Bool} {sections : List Section} {pt : ℕ → Pte}
    (hapart : sections.Pairwise Section.Apart) (hnoswap : ∀ st ∈ sections, st.swap = false)
    (hinside : ∀ v, pt v ≠ .null → ∃ st ∈ sections, v ∈ st.freePages)
    (hnodisk : ∀ v slot, pt v ≠ .disk slot) (hdead : live = false → ∀ v, pt v = .null) :
    Space live sections pt none :=
  ⟨fun _ hnone => (by cases hnone), fun _ hnone => (by cases hnone), hapart, hnoswap, hinside, hnodisk,
    fun hlive => ⟨hdead hlive, rfl⟩⟩

/-- One that has no memory. -/
theorem Space.empty (live : Bool) : Space live [] (fun _ => .null) none :=
  .idle .nil (by simp) (by simp) (by simp) fun _ _ => rfl

/-- **The address spaces.** What can be written has one holder, and what is
shared is under `PTE_RO`. -/
structure Cow (E : Env) (s : Memory P) : Prop where
  counted : Counted E.layout s.frames s.held
  nodup : s.kernel.Nodup
  kernel : ∀ f ∈ s.kernel, Spare E s f
  /-- The new page of a `pgfault` is nobody else's. -/
  fresh : ∀ p flt, s.fault p = some flt → Spare E s flt.frame ∧ flt.frame ∉ s.kernel
  distinct : ∀ p q a b, s.fault p = some a → s.fault q = some b → p ≠ q → a.frame ≠ b.frame
  space : ∀ p, Space (s.live p) (s.sections p) (s.pt p) (s.fault p)
  writable : ∀ p v f, s.pt p v = .page false f → E.layout.fixed f = false ∧
    ∀ x, s.held x = some f → x = (p, v)
  same : ∀ x y f, E.layout.fixed f = false → s.held x = some f → s.held y = some f → x.2 = y.2

/-- `p` has `b` at `va`: in the page that it holds, and in the page that its
`pgfault` is about to map. -/
def Shows (s : Memory P) (p : P) (va : ℕ) (b : UInt8) : Prop :=
  ∃ ro f, s.pt p (va / pageSize) = .page ro f ∧
    (s.held (p, va / pageSize) = some f → s.frames.data f (va % pageSize) = b) ∧
    ∀ flt, s.fault p = some flt → flt.page = va / pageSize →
      s.frames.data flt.frame (va % pageSize) = b

/-! ## Entries and frames in use -/

section

omit [DecidableEq P]

theorem held_of_fault_none (h : s.fault p = none) (v : ℕ) :
    s.held (p, v) = (s.pt p v).frame := by
  simp only [held, h, mapped]

theorem held_congr (hpt : s'.pt p = s.pt p) (hfault : s'.fault p = s.fault p) (v : ℕ) :
    s'.held (p, v) = s.held (p, v) := by
  simp only [held, hfault, mapped, hpt]

/-- A frame that an entry of `p` holds, or that its `pgfault` is about to
map. -/
def InUse (s : Memory P) (p : P) (f : ℕ) : Prop :=
  (∃ v, s.held (p, v) = some f) ∨ ∃ flt, s.fault p = some flt ∧ flt.frame = f

/-- What the process sees does not depend on the other frames. -/
theorem Shows.frame (h : Shows s p va b) (hpt : s'.pt p = s.pt p) (hfault : s'.fault p = s.fault p)
    (hdata : ∀ f, InUse s p f → s'.frames.data f = s.frames.data f) : Shows s' p va b := by
  obtain ⟨ro, f, hpage, hold, hnew⟩ := h
  refine ⟨ro, f, by rw [hpt, hpage], fun hheld => ?_, fun flt hflt hv => ?_⟩
  · rw [held_congr hpt hfault] at hheld
    rw [hdata f (Or.inl ⟨_, hheld⟩)]
    exact hold hheld
  · rw [hfault] at hflt
    rw [hdata flt.frame (Or.inr ⟨flt, hflt, rfl⟩)]
    exact hnew flt hflt hv

end

namespace Cow

section

variable (h : Cow E s)

include h

section

omit [DecidableEq P]

/-- A free frame is not in use. -/
theorem not_inUse (hf : f ∈ s.frames.pages) (q : P) : ¬InUse s q f := by
  rintro (⟨v, hv⟩ | ⟨flt, hflt, rfl⟩)
  · exact h.counted.not_held hf _ hv
  · exact (h.fresh q flt hflt).1.free hf

/-- Nor is a page of the kernel. -/
theorem kernel_not_inUse (hf : f ∈ s.kernel) (q : P) : ¬InUse s q f := by
  rintro (⟨v, hv⟩ | ⟨flt, hflt, rfl⟩)
  · exact (h.kernel f hf).held _ hv
  · exact (h.fresh q flt hflt).2 hf

/-- What a step of `p` leaves to be shown: the pages of the kernel, and those
of the others in `pgfault`, are still spare. -/
theorem of_step (hkernel : s'.kernel = s.kernel) (hfault : ∀ q, q ≠ p → s'.fault q = s.fault q)
    (hspare : ∀ g, Spare E s g → (∀ a, s.fault p = some a → a.frame ≠ g) → Spare E s' g)
    (hnew : ∀ a, s'.fault p = some a → Spare E s' a.frame ∧ a.frame ∉ s.kernel ∧
      ∀ q b, q ≠ p → s.fault q = some b → a.frame ≠ b.frame)
    (hcounted : Counted E.layout s'.frames s'.held)
    (hspace : ∀ q, Space (s'.live q) (s'.sections q) (s'.pt q) (s'.fault q))
    (hwritable : ∀ q v f, s'.pt q v = .page false f → E.layout.fixed f = false ∧
      ∀ x, s'.held x = some f → x = (q, v))
    (hsame : ∀ x y f, E.layout.fixed f = false → s'.held x = some f → s'.held y = some f →
      x.2 = y.2) : Cow E s' := by
  refine ⟨hcounted, hkernel ▸ h.nodup, fun g hg => ?_, fun q a hq => ?_, fun q r a b hq hr hne => ?_,
    hspace, hwritable, hsame⟩
  · rw [hkernel] at hg
    exact hspare g (h.kernel g hg) fun a ha heq => (h.fresh p a ha).2 (heq ▸ hg)
  · rw [hkernel]
    by_cases hqp : q = p
    · subst hqp
      exact ⟨(hnew a hq).1, (hnew a hq).2.1⟩
    · rw [hfault q hqp] at hq
      obtain ⟨ha, hnot⟩ := h.fresh q a hq
      exact ⟨hspare _ ha fun c hc => h.distinct p q c a hc hq (Ne.symm hqp), hnot⟩
  · by_cases hqp : q = p
    · subst hqp
      rw [hfault r (Ne.symm hne)] at hr
      exact (hnew a hq).2.2 r b (Ne.symm hne) hr
    · rw [hfault q hqp] at hq
      by_cases hrp : r = p
      · subst hrp
        exact Ne.symm ((hnew b hr).2.2 q a hqp hq)
      · rw [hfault r hrp] at hr
        exact h.distinct q r a b hq hr hne

/-! ## Pages of the kernel -/

/-- The kernel takes a page. -/
theorem kalloc {frames : Frames} (hs : s.frames.kallocPage = some (f, frames)) :
    Cow E { s with frames := frames, kernel := f :: s.kernel } ∧ frames.data = s.frames.data := by
  obtain ⟨hcounted, -, hdata, hmem, hnot, hsub⟩ := h.counted.alloc hs
  have hspare : ∀ g, Spare E s g → Spare E { s with frames := frames, kernel := f :: s.kernel } g :=
    fun g hg => ⟨hg.fixed, fun hin => hg.free (hsub.subset hin), hg.held⟩
  refine ⟨{ h with
    counted := hcounted
    nodup := List.nodup_cons.2 ⟨fun hin => (h.kernel f hin).free hmem, h.nodup⟩
    kernel := fun g hg => ?_
    fresh := fun q flt hflt => ⟨hspare _ (h.fresh q flt hflt).1, ?_⟩ }, hdata⟩
  · rcases List.mem_cons.1 hg with rfl | hg
    · exact ⟨(h.counted.free g hmem).1, hnot, h.counted.not_held hmem⟩
    · exact hspare g (h.kernel g hg)
  · obtain ⟨hspare, hkernel⟩ := h.fresh q flt hflt
    exact fun hin => (List.mem_cons.1 hin).elim (fun heq => hspare.free (heq ▸ hmem)) hkernel

/-- The kernel gives a page back. -/
theorem kfree (hf : f ∈ s.kernel) :
    Cow E { s.kfreePage E f with kernel := s.kernel.erase f } ∧
      ∀ g ≠ f, (s.kfreePage E f).frames.data g = s.frames.data g := by
  obtain ⟨hfix, hfree, hnone⟩ := h.kernel f hf
  obtain ⟨hcounted, hpages⟩ := h.counted.release hfix hfree
    (Set.eq_empty_iff_forall_notMem.2 hnone)
  have hspare : ∀ g, g ≠ f → Spare E s g →
      Spare E { s.kfreePage E f with kernel := s.kernel.erase f } g := by
    intro g hgf hg
    refine ⟨hg.fixed, ?_, hg.held⟩
    have hpages' : (s.kfreePage E f).frames.pages = f :: s.frames.pages := hpages
    rw [hpages', List.mem_cons]
    exact fun hin => hin.elim hgf hg.free
  refine ⟨{ h with
    counted := hcounted
    nodup := h.nodup.erase f
    kernel := fun g hg => ?_
    fresh := fun q flt hflt => ⟨?_, ?_⟩ }, fun g hg => ?_⟩
  · obtain ⟨hgf, hg⟩ := h.nodup.mem_erase_iff.1 hg
    exact hspare g hgf (h.kernel g hg)
  · obtain ⟨hg, hkernel⟩ := h.fresh q flt hflt
    exact hspare _ (fun heq => hkernel (heq ▸ hf)) hg
  · exact fun hin => (h.fresh q flt hflt).2 (List.mem_of_mem_erase hin)
  · rcases s.frames.kfreePage_cases E.layout f with ⟨-, hsame⟩ | ⟨-, -, hother⟩
    · exact congrFun hsame g
    · exact hother g hg

end

/-! ## `pgfault` -/

/-- A new page is taken and filled. -/
theorem faultBegin {frames : Frames} {page : Page} {old : Option ℕ} {ka : ℕ} {ro : Bool}
    (hs : s.frames.kallocPage = some (ka, frames)) (hlive : s.live p = true)
    (hfault : s.fault p = none) (hin : ∃ st ∈ s.sections p, v ∈ st.freePages)
    (hold : (old = none ∧ s.pt p v = .null) ∨
      ∃ f, s.pt p v = .page true f ∧ old = some f ∧ page = s.frames.data f) (hs' : s' = { s with
      frames := { frames with data := update frames.data ka page }
      fault := update s.fault p (some ⟨v, ka, ro, old⟩) }) :
    Cow E s' ∧ (∀ q va b, Shows s q va b → Shows s' q va b) ∧
      ∀ g, E.layout.fixed g = true → s'.frames.data g = s.frames.data g := by
  obtain ⟨hcounted, -, hdata, hmem, hnot, hsub⟩ := h.counted.alloc hs
  have hpt : s'.pt = s.pt := by rw [hs']
  have hpages : s'.frames.pages = frames.pages := by rw [hs']
  have hself : s'.fault p = some ⟨v, ka, ro, old⟩ := by rw [hs']; exact update_self _ _ _
  have hothers : ∀ q, q ≠ p → s'.fault q = s.fault q := fun q hq => by
    rw [hs']; exact update_of_ne hq _ _
  have hother : ∀ g ≠ ka, s'.frames.data g = s.frames.data g := fun g hg => by
    rw [hs', ← hdata]; exact update_of_ne hg _ _
  have hkaData : s'.frames.data ka = page := by rw [hs']; exact update_self _ _ _
  -- the entry holds what it held
  have hheld : s'.held = s.held := by
    funext x
    obtain ⟨q, w⟩ := x
    by_cases hq : q = p
    · subst hq
      rw [held_of_fault_none hfault]
      simp only [held, hself, mapped, hpt]
      rcases hold with ⟨rfl, hnull⟩ | ⟨f, hpage, rfl, -⟩
      · split_ifs with hv
        · rw [← hv.1, hnull]
          rfl
        · rfl
      · simp
    · exact held_congr (by rw [hpt]) (hothers q hq) w
  have hspare : ∀ g, Spare E s g → Spare E s' g := fun g hg =>
    ⟨hg.fixed, fun hin => hg.free (hsub.subset (hpages ▸ hin)), by rw [hheld]; exact hg.held⟩
  have hka : Spare E s' ka :=
    ⟨(h.counted.free ka hmem).1, by rw [hpages]; exact hnot,
      by rw [hheld]; exact h.counted.not_held hmem⟩
  refine ⟨h.of_step (p := p) (by rw [hs']) hothers (fun g hg _ => hspare g hg) (fun a ha => ?_) ?_
    (fun q => ?_) (by rw [hpt, hheld]; exact h.writable) (by rw [hheld]; exact h.same),
    fun q va b hshow => ?_, fun g hg => hother g ?_⟩
  · obtain rfl := Option.mem_unique hself ha
    exact ⟨hka, fun hin => (h.kernel ka hin).free hmem, fun q b _ hq heq =>
      (h.fresh q b hq).1.free (heq ▸ hmem)⟩
  · rw [hheld, hs']
    exact hcounted.setData _
  · have hq := h.space q
    rw [hpt, show s'.live = s.live by rw [hs'], show s'.sections = s.sections by rw [hs']]
    by_cases hqp : q = p
    · subst hqp
      rw [hself, hlive]
      refine { hq with
        old := fun flt hflt => ?_
        within := fun flt hflt => ?_
        dead := fun hdead => by cases hdead }
      all_goals obtain rfl := Option.some.inj hflt
      · rcases hold with hold | ⟨f, hpage, hold, -⟩
        · exact Or.inl hold
        · exact Or.inr ⟨f, hpage, Or.inr hold⟩
      · exact hin
    · rw [hothers q hqp]
      exact hq
  · by_cases hqp : q = p
    · subst hqp
      obtain ⟨ro', f, hpage, hbyte, -⟩ := hshow
      have hf : s.held (q, va / pageSize) = some f := by
        rw [held_of_fault_none hfault, hpage]
        rfl
      have hfka : f ≠ ka := fun heq => h.counted.not_held hmem _ (heq ▸ hf)
      refine ⟨ro', f, by rw [hpt, hpage], fun _ => ?_, fun flt hflt hv => ?_⟩
      · rw [hother f hfka]
        exact hbyte hf
      · obtain rfl := Option.mem_unique hself hflt
        simp only at hv ⊢
        rw [hkaData]
        rcases hold with ⟨-, hnull⟩ | ⟨f', hpage', -, rfl⟩
        · rw [← hv, hnull] at hpage
          cases hpage
        · rw [← hv, hpage'] at hpage
          cases hpage
          exact hbyte hf
    · exact hshow.frame (by rw [hpt]) (hothers q hqp) fun g hg =>
        hother g fun heq => h.not_inUse hmem q (heq ▸ hg)
  · rintro rfl
    rw [(h.counted.free g hmem).1] at hg
    cases hg

section

omit [DecidableEq P]

/-- A process does not fault on what it may write. -/
theorem held_of_writable (hpt : s.pt p v = .page false f) : s.held (p, v) = some f := by
  simp only [held, mapped, hpt]
  split
  · rename_i flt hflt
    rw [if_neg]
    · rfl
    · rintro ⟨rfl, -⟩
      rcases (h.space p).old flt hflt with ⟨-, hnull⟩ | ⟨g, hro, -⟩
      · rw [hpt] at hnull
        cases hnull
      · rw [hpt] at hro
        cases hro
  · rfl

/-- The processes that share a frame are its holders: all have it at the
same page. -/
theorem ncard_holders (hfix : E.layout.fixed f = false) :
    (holders s.held f).ncard = {q | ∃ v, s.held (q, v) = some f}.ncard := by
  have himage : {q | ∃ v, s.held (q, v) = some f} = Prod.fst '' holders s.held f := by
    ext q
    constructor
    · rintro ⟨v, hv⟩
      exact ⟨(q, v), hv, rfl⟩
    · rintro ⟨⟨q', v⟩, hv, rfl⟩
      exact ⟨v, hv⟩
  have hinj : Set.InjOn Prod.fst (holders s.held f) := fun x hx y hy hxy =>
    Prod.ext hxy (h.same x y f hfix hx hy)
  rw [himage, hinj.ncard_image]

end

/-- The old page is given up. -/
theorem faultFree (hflt : s.fault p = some flt) (hf : flt.old = some f)
    (hfew : E.layout.fixed f = false → {q | ∃ v, s.held (q, v) = some f}.ncard < 128)
    (hs' : s' = { s.kfreePage E f with
      fault := update s.fault p (some { flt with old := none }) }) :
    Cow E s' ∧ (∀ q va b, Shows s q va b → Shows s' q va b) ∧
      ∀ g, E.layout.fixed g = true → s'.frames.data g = s.frames.data g := by
  have hpage : s.pt p flt.page = .page true f := by
    rcases (h.space p).old flt hflt with ⟨hnone, -⟩ | ⟨g, hpage, hnone | hg⟩
    · rw [hf] at hnone
      cases hnone
    · rw [hf] at hnone
      cases hnone
    · rw [hf] at hg
      rw [hpage, Option.some.inj hg]
  have hself₀ : s.held (p, flt.page) = some f := by
    simp only [held, hflt, hf, mapped, hpage]
    rfl
  have hcounted := h.counted.give hself₀ fun hfix => by
    rw [h.ncard_holders hfix]
    exact (hfew hfix).le
  have hpt : s'.pt = s.pt := by rw [hs']; rfl
  have hframes : s'.frames = s.frames.kfreePage E.layout f := by rw [hs']; rfl
  have hself : s'.fault p = some { flt with old := none } := by
    rw [hs']; exact update_self _ _ _
  have hothers : ∀ q, q ≠ p → s'.fault q = s.fault q := fun q hq => by
    rw [hs']; exact update_of_ne hq _ _
  have hheld : s'.held = update s.held (p, flt.page) none := by
    funext x
    obtain ⟨q, w⟩ := x
    by_cases hq : q = p
    · subst hq
      by_cases hw : w = flt.page
      · subst hw
        simp [held, hself]
      · rw [update_of_ne (by simp [hw])]
        simp [held, hself, hflt, mapped, hpt, Ne.symm hw]
    · rw [update_of_ne (by simp [hq])]
      exact held_congr (by rw [hpt]) (hothers q hq) w
  have hsub : ∀ x g, s'.held x = some g → s.held x = some g := by
    intro x g hx
    rw [hheld, update_apply] at hx
    split at hx
    · cases hx
    · exact hx
  have hspare : ∀ g, Spare E s g → Spare E s' g := by
    intro g hg
    refine ⟨hg.fixed, ?_, fun x hx => hg.held x (hsub x g hx)⟩
    rw [hframes]
    rcases s.frames.kfreePage_cases E.layout f with ⟨hpages, -⟩ | ⟨-, hpages, -⟩ <;> rw [hpages]
    · exact hg.free
    · exact fun hin => (List.mem_cons.1 hin).elim (fun heq => hg.held _ (heq ▸ hself₀)) hg.free
  have hfault' : ∀ q g, s'.fault q = some g → ∃ g', s.fault q = some g' ∧ g'.frame = g.frame ∧
      g'.page = g.page := by
    intro q g hq
    rw [hs'] at hq
    rcases update_eq_cases hq with ⟨rfl, hnew⟩ | ⟨-, hq⟩
    · obtain rfl := Option.some.inj hnew
      exact ⟨flt, hflt, rfl, rfl⟩
    · exact ⟨g, hq, rfl, rfl⟩
  -- the page that is freed is not in use any more
  have hdata : ∀ q g, InUse s' q g → s'.frames.data g = s.frames.data g := by
    intro q g hg
    rw [hframes]
    rcases s.frames.kfreePage_cases E.layout f with ⟨-, hsame⟩ | ⟨-, hpages, hother⟩
    · exact congrFun hsame g
    · refine hother g fun heq => ?_
      have hmem : g ∈ (s.frames.kfreePage E.layout f).pages := by simp [hpages, heq]
      rcases hg with ⟨v, hv⟩ | ⟨a, hq, rfl⟩
      · exact hcounted.not_held hmem (q, v) (hheld ▸ hv)
      · obtain ⟨a', ha', hframe, -⟩ := hfault' q a hq
        exact (h.fresh q a' ha').1.held _ (hframe ▸ heq ▸ hself₀)
  refine ⟨h.of_step (p := p) (by rw [hs']; rfl) hothers (fun g hg _ => hspare g hg)
    (fun a ha => ?_) (by rw [hheld, hframes]; exact hcounted) (fun q => ?_) (fun q w g hw => ?_)
    fun x y g hg hx hy => h.same x y g hg (hsub x g hx) (hsub y g hy),
    fun q va b hshow => ?_, fun g hg => ?_⟩
  · obtain rfl := Option.mem_unique hself ha
    exact ⟨hspare _ (h.fresh p flt hflt).1, (h.fresh p flt hflt).2, fun q b hqp hq =>
      h.distinct p q flt b hflt hq (Ne.symm hqp)⟩
  · have hq := h.space q
    rw [hpt, show s'.live = s.live by rw [hs']; rfl, show s'.sections = s.sections by rw [hs']; rfl]
    by_cases hqp : q = p
    · subst hqp
      rw [hself]
      refine { hq with
        old := fun a ha => ?_
        within := fun a ha => ?_
        dead := fun hdead => absurd (hq.dead hdead).2 (by simp [hflt]) }
      all_goals obtain rfl := Option.some.inj ha
      · exact Or.inr ⟨f, hpage, Or.inl rfl⟩
      · exact hq.within flt hflt
    · rw [hothers q hqp]
      exact hq
  · rw [hpt] at hw
    exact ⟨(h.writable q w g hw).1, fun x hx => (h.writable q w g hw).2 x (hsub x g hx)⟩
  · obtain ⟨ro, g, hg, hbyte, hnew⟩ := hshow
    refine ⟨ro, g, by rw [hpt, hg], fun hx => ?_, fun a ha hv => ?_⟩
    · rw [hdata q g (Or.inl ⟨_, hx⟩)]
      exact hbyte (hsub _ g hx)
    · obtain ⟨a', ha', hframe, hv'⟩ := hfault' q a ha
      rw [hdata q a.frame (Or.inr ⟨a, ha, rfl⟩), ← hframe]
      exact hnew a' ha' (hv'.trans hv)
  · rw [hframes]
    rcases s.frames.kfreePage_cases E.layout f with ⟨-, hsame⟩ | ⟨hfix, -, hother⟩
    · exact congrFun hsame g
    · refine hother g ?_
      rintro rfl
      rw [hfix] at hg
      cases hg

/-- The new page is mapped. -/
theorem faultMap (hflt : s.fault p = some flt) (hold : flt.old = none)
    (hs' : s' = { s.vmmap p flt.page flt.frame flt.ro with
      fault := update s.fault p none }) :
    Cow E s' ∧ ∀ q va b, Shows s q va b → Shows s' q va b := by
  obtain ⟨hfresh, -⟩ := h.fresh p flt hflt
  have hnone : s.held (p, flt.page) = none := by
    simp [held, hflt, hold]
  have hpt : ∀ q w, s'.pt q w =
      if q = p ∧ w = flt.page then .page flt.ro flt.frame else s.pt q w := by
    intro q w
    rw [hs']
    exact setPte_pt s p q flt.page w _
  have hframes : s'.frames = s.frames.incrementRef flt.frame := by rw [hs']; rfl
  have hdata : s'.frames.data = s.frames.data := by rw [hframes]; rfl
  have hpages : s'.frames.pages = s.frames.pages := by rw [hframes]; rfl
  have hself : s'.fault p = none := by rw [hs']; exact update_self _ _ _
  have hothers : ∀ q, q ≠ p → s'.fault q = s.fault q := fun q hq => by
    rw [hs']; exact update_of_ne hq _ _
  have hheld : s'.held = update s.held (p, flt.page) (some flt.frame) := by
    funext x
    obtain ⟨q, w⟩ := x
    by_cases hq : q = p
    · subst hq
      rw [held_of_fault_none hself, hpt]
      by_cases hw : w = flt.page
      · subst hw
        simp [Pte.frame]
      · rw [update_of_ne (by simp [hw]), if_neg fun hmem => hw hmem.2]
        simp [held, hflt, mapped, Ne.symm hw]
    · rw [update_of_ne (by simp [hq])]
      refine held_congr (funext fun w => ?_) (hothers q hq) w
      rw [hpt, if_neg fun hmem => hq hmem.1]
  have hcases : ∀ x g, s'.held x = some g →
      (x = (p, flt.page) ∧ g = flt.frame) ∨ (x ≠ (p, flt.page) ∧ s.held x = some g) := by
    intro x g hx
    rw [hheld, update_apply] at hx
    split_ifs at hx with hxp
    · exact Or.inl ⟨hxp, (Option.some.inj hx).symm⟩
    · exact Or.inr ⟨hxp, hx⟩
  refine ⟨h.of_step (p := p) (by rw [hs']; rfl) hothers (fun g hg hne => ?_)
    (fun a ha => by rw [hself] at ha; cases ha)
    (by rw [hheld, hframes]; exact h.counted.share hnone hfresh.free) (fun q => ?_)
    (fun q w g hw => ?_) fun x y g hg hx hy => ?_, fun q va b hshow => ?_⟩
  · refine ⟨hg.fixed, by rw [hpages]; exact hg.free, fun x hx => ?_⟩
    rcases hcases x g hx with ⟨-, heq⟩ | ⟨-, hx⟩
    · exact hne flt hflt heq.symm
    · exact hg.held x hx
  · have hq := h.space q
    rw [show s'.live = s.live by rw [hs']; rfl, show s'.sections = s.sections by rw [hs']; rfl]
    by_cases hqp : q = p
    · subst hqp
      rw [hself]
      refine { hq with
        old := fun a ha => by cases ha
        within := fun a ha => by cases ha
        inside := fun w hw => ?_
        nodisk := fun w slot => ?_
        dead := fun hdead => absurd (hq.dead hdead).2 (by simp [hflt]) }
      · rw [hpt] at hw
        split_ifs at hw with hmem
        · exact hmem.2 ▸ hq.within flt hflt
        · exact hq.inside w hw
      · rw [hpt]
        split
        · simp
        · exact hq.nodisk w slot
    · rw [hothers q hqp, show s'.pt q = s.pt q from funext fun w => by
        rw [hpt, if_neg fun hmem => hqp hmem.1]]
      exact hq
  · rw [hpt] at hw
    split_ifs at hw with hmem
    · obtain ⟨rfl, rfl⟩ := hmem
      obtain ⟨-, rfl⟩ := Pte.page.inj hw
      refine ⟨hfresh.fixed, fun x hx => ?_⟩
      rcases hcases x _ hx with ⟨hx, -⟩ | ⟨-, hx⟩
      · exact hx
      · exact absurd hx (hfresh.held x)
    · obtain ⟨hfix, hunique⟩ := h.writable q w g hw
      refine ⟨hfix, fun x hx => ?_⟩
      rcases hcases x g hx with ⟨-, rfl⟩ | ⟨-, hx⟩
      · exact absurd (h.held_of_writable hw) (hfresh.held _)
      · exact hunique x hx
  · rcases hcases x g hx with ⟨rfl, rfl⟩ | ⟨-, hx⟩
    · rcases hcases y _ hy with ⟨rfl, -⟩ | ⟨-, hy⟩
      · rfl
      · exact absurd hy (hfresh.held y)
    · rcases hcases y g hy with ⟨rfl, rfl⟩ | ⟨-, hy⟩
      · exact absurd hx (hfresh.held x)
      · exact h.same x y g hg hx hy
  · by_cases hqp : q = p
    · subst hqp
      obtain ⟨ro, g, hg, hbyte, hnew⟩ := hshow
      by_cases hv : va / pageSize = flt.page
      · refine ⟨flt.ro, flt.frame, by rw [hpt, if_pos ⟨rfl, hv⟩], fun _ => ?_, fun a ha => ?_⟩
        · rw [hdata]
          exact hnew flt hflt hv.symm
        · rw [hself] at ha
          cases ha
      · refine ⟨ro, g, by rw [hpt, if_neg fun hmem => hv hmem.2, hg], fun hx => ?_, fun a ha => ?_⟩
        · rcases hcases _ g hx with ⟨hx, -⟩ | ⟨-, hx⟩
          · exact absurd (Prod.mk.inj hx).2 hv
          · rw [hdata]
            exact hbyte hx
        · rw [hself] at ha
          cases ha
    · refine hshow.frame (funext fun w => ?_) (hothers q hqp) fun g _ => by rw [hdata]
      rw [hpt, if_neg fun hmem => hqp hmem.1]

/-! ## Writes -/

omit [DecidableEq P] in
/-- A write to a page that is mapped without `PTE_RO` is seen by the process
itself and by nobody else. -/
theorem store (hpage : s.pt p (va / pageSize) = .page false f)
    (hs' : s' = s.fill f (update (s.frames.data f) (va % pageSize) b)) :
    Cow E s' ∧ Shows s' p va b ∧
      (∀ q va' b', (q = p → va' ≠ va) → Shows s q va' b' → Shows s' q va' b') ∧
      ∀ g, E.layout.fixed g = true → s'.frames.data g = s.frames.data g := by
  obtain ⟨hfix, hunique⟩ := h.writable p _ f hpage
  have hheld : s'.held = s.held := by rw [hs']; rfl
  have hpt : s'.pt = s.pt := by rw [hs']; rfl
  have hfault : s'.fault = s.fault := by rw [hs']; rfl
  have hself : s.held (p, va / pageSize) = some f := h.held_of_writable hpage
  have hother : ∀ g ≠ f, s'.frames.data g = s.frames.data g := fun g hg => by
    rw [hs']; exact update_of_ne hg _ _
  have hbyte : ∀ i, s'.frames.data f i = if i = va % pageSize then b else s.frames.data f i := by
    intro i
    rw [hs']
    simp only [fill, update_self, update_apply]
  -- the page is not the new page of a `pgfault`
  have hfresh : ∀ q flt, s.fault q = some flt → flt.frame ≠ f := fun q flt hq heq =>
    (h.fresh q flt hq).1.held _ (heq ▸ hself)
  have hnofault : ∀ flt, s.fault p = some flt → flt.page ≠ va / pageSize := by
    intro flt hflt heq
    rcases (h.space p).old flt hflt with ⟨-, hnull⟩ | ⟨g, hro, -⟩
    · rw [heq, hpage] at hnull
      cases hnull
    · rw [heq, hpage] at hro
      cases hro
  refine ⟨?_, ⟨false, f, by rw [hpt, hpage], fun _ => by rw [hbyte, if_pos rfl], fun flt hflt hv => ?_⟩,
    fun q va' b' hne hshow => ?_, fun g hg => hother g ?_⟩
  · subst hs'
    exact { h with
      counted := h.counted.setData _
      kernel := fun g hg => ⟨(h.kernel g hg).fixed, (h.kernel g hg).free, (h.kernel g hg).held⟩
      fresh := fun q flt hq =>
        ⟨⟨(h.fresh q flt hq).1.fixed, (h.fresh q flt hq).1.free, (h.fresh q flt hq).1.held⟩,
          (h.fresh q flt hq).2⟩ }
  · rw [hfault] at hflt
    exact absurd hv (hnofault flt hflt)
  · obtain ⟨ro, g, hg, hold, hnew⟩ := hshow
    refine ⟨ro, g, by rw [hpt, hg], fun hx => ?_, fun flt hflt hv => ?_⟩
    · rw [hheld] at hx
      by_cases hgf : g = f
      · subst hgf
        obtain ⟨rfl, hpages⟩ := Prod.mk.inj (hunique _ hx)
        rw [hbyte, if_neg, hold hx]
        intro hmod
        refine hne rfl ?_
        rw [← Nat.div_add_mod va' pageSize, ← Nat.div_add_mod va pageSize, hpages, hmod]
      · rw [hother g hgf]
        exact hold hx
    · rw [hfault] at hflt
      rw [hother _ (hfresh q flt hflt)]
      exact hnew flt hflt hv
  · rintro rfl
    rw [hfix] at hg
    cases hg

end

/-! ## `fork` -/

/-- The holders after `fork`. -/
theorem fork_held (hnp : p ≠ np) (hfault : s.fault p = none) (hfresh : ∀ v, s.pt np v = .null)
    (hfaultNp : s.fault np = none) (x : P × ℕ) :
    (s.fork p np).held x =
      if x.1 = np ∧ x.2 ∈ s.forkList p then s.held (p, x.2) else s.held x := by
  have hmapped := fork_mapped hnp hfresh x
  have hsame : (s.fork p np).fault = s.fault := by
    rw [fork_eq]
    exact (forkLoop_frame p np _ _).2.2.1
  rw [held_of_fault_none hfault]
  obtain ⟨q, w⟩ := x
  by_cases hq : q = np
  · subst hq
    rw [held_of_fault_none (by rw [hsame, hfaultNp]), held_of_fault_none hfaultNp]
    exact hmapped
  · rw [if_neg fun hmem => hq hmem.1] at hmapped ⊢
    simp only [held, hsame, hmapped]

/-- What `fork` does to the address spaces. -/
structure Forked (s s' : Memory P) (p np : P) : Prop where
  parent : ∀ w, s'.pt p w = (s.pt p w).readOnly
  child : ∀ w, s'.pt np w = (s.pt p w).forked
  others : ∀ q, q ≠ p → q ≠ np → s'.pt q = s.pt q
  held : ∀ x, s'.held x = if x.1 = np then s.held (p, x.2) else s.held x
  data : s'.frames.data = s.frames.data
  pages : s'.frames.pages = s.frames.pages
  fault : s'.fault = s.fault
  kernel : s'.kernel = s.kernel
  live : s'.live = update s.live np true
  sections : s'.sections = update s.sections np (copySections (s.sections p))

/-- The parent's entries are all in its sections, so `fork` visits them. -/
theorem forked (h : Cow E s) (hnp : p ≠ np) (hfault : s.fault p = none)
    (hdead : s.live np = false) : Forked s (s.fork p np) p np := by
  obtain ⟨hfresh, hfaultNp⟩ := (h.space np).dead hdead
  have hnull : ∀ w, w ∉ s.forkList p → s.pt p w = .null := by
    intro w hw
    by_contra hne
    obtain ⟨st, hst, hmem⟩ := (h.space p).inside w hne
    exact hw (List.mem_flatMap.2 ⟨st, hst, st.freePages_subset w hmem⟩)
  obtain ⟨-, hlive₁, hfault₁, hkernel₁, -, -⟩ := forkLoop_frame p np (s.forkList p) { s with
    live := update s.live np true
    sections := update s.sections np (copySections (s.sections p)) }
  rw [← fork_eq] at hlive₁ hfault₁ hkernel₁
  refine ⟨fun w => ?_, fun w => ?_, fun q hq hq' => ?_, fun x => ?_, fork_data s p np,
    fork_pages s p np, hfault₁, hkernel₁, hlive₁, fork_sections s p np⟩
  · rw [fork_pt hnp hfresh]
    by_cases hw : w ∈ s.forkList p
    · rw [if_pos hw, if_pos rfl]
    · rw [if_neg hw, hnull w hw]
      rfl
  · rw [fork_pt hnp hfresh]
    by_cases hw : w ∈ s.forkList p
    · rw [if_pos hw, if_neg (Ne.symm hnp), if_pos rfl]
    · rw [if_neg hw, hnull w hw, hfresh w]
      rfl
  · funext w
    rw [fork_pt hnp hfresh]
    simp [hq, hq']
  · rw [fork_held hnp hfault hfresh hfaultNp]
    by_cases hx : x.1 = np
    · by_cases hw : x.2 ∈ s.forkList p
      · rw [if_pos ⟨hx, hw⟩, if_pos hx]
      · rw [if_neg fun hmem => hw hmem.2, if_pos hx, held_of_fault_none hfault, hnull _ hw]
        obtain ⟨q, w⟩ := x
        obtain rfl : q = np := hx
        rw [held_of_fault_none hfaultNp, hfresh]
    · rw [if_neg fun hmem => hx hmem.1, if_neg hx]

/-- The counts after `fork`. -/
theorem fork_counted (h : Cow E s) (hnp : p ≠ np) (hfault : s.fault p = none)
    (hdead : s.live np = false) : Counted E.layout (s.fork p np).frames (s.fork p np).held := by
  obtain ⟨hfresh, hfaultNp⟩ := (h.space np).dead hdead
  have hloop := forkLoop_counted (s := { s with
    live := update s.live np true
    sections := update s.sections np (copySections (s.sections p)) }) hnp h.counted
    (nodup_flatMap_forkPages ((h.space p).apart))
    (fun v _ => ⟨by rw [held_of_fault_none hfaultNp, hfresh v]; rfl, hfresh v⟩)
    fun v _ f hf => h.counted.not_mem_of_held (x := (p, v)) (by
      rw [held_of_fault_none hfault]; exact hf)
  rw [fork_eq]
  refine hloop.congr fun x => ?_
  rw [← fork_eq, fork_held hnp hfault hfresh hfaultNp, held_of_fault_none hfault]
  rfl

/-- **`fork`**: the child sees what the parent sees, and what can be written
is not shared. -/
theorem fork (h : Cow E s) (hlive : s.live p = true) (hfault : s.fault p = none)
    (hdead : s.live np = false) :
    Cow E (s.fork p np) ∧ (∀ q va b, Shows s q va b → Shows (s.fork p np) q va b) ∧
      ∀ va b, Shows s p va b → Shows (s.fork p np) np va b := by
  have hnp : p ≠ np := ne_of_values hlive hdead (by simp)
  obtain ⟨hfresh, hfaultNp⟩ := (h.space np).dead hdead
  have hcounted := h.fork_counted hnp hfault hdead
  have hf := h.forked hnp hfault hdead
  obtain ⟨s₁, hs₁⟩ : ∃ s₁, s₁ = s.fork p np := ⟨_, rfl⟩
  rw [← hs₁] at hcounted hf ⊢
  have hback : ∀ x g, s₁.held x = some g → ∃ y, s.held y = some g ∧ y.2 = x.2 ∧
      (y = x ∨ y.1 = p) := by
    intro x g hx
    rw [hf.held] at hx
    split at hx
    · exact ⟨(p, x.2), hx, rfl, Or.inr rfl⟩
    · exact ⟨x, hx, rfl, Or.inl rfl⟩
  refine ⟨h.of_step (p := p) hf.kernel (fun q _ => by rw [hf.fault]) (fun g hg _ => ⟨hg.fixed,
    by rw [hf.pages]; exact hg.free, fun x hx => ?_⟩)
    (fun a ha => by rw [hf.fault, hfault] at ha; cases ha) hcounted (fun q => ?_)
    (fun q w g hw => ?_) fun x y g hg hx hy => ?_, fun q va b hshow => ?_, fun va b hshow => ?_⟩
  · obtain ⟨y, hy, -⟩ := hback x g hx
    exact hg.held y hy
  · obtain ⟨-, -, hapart, hnoswap, hinside, hnodisk, -⟩ := h.space p
    rw [hf.live, hf.sections, hf.fault]
    by_cases hqn : q = np
    · subst hqn
      have hchild : s₁.pt q = fun w => (s.pt p w).forked := funext hf.child
      rw [update_self, update_self, hfaultNp, hchild, copySections]
      refine .idle (List.pairwise_reverse.2 (hapart.imp Or.symm))
        (fun st hst => hnoswap st (List.mem_reverse.1 hst)) (fun w hw => ?_) (fun w slot hw => ?_)
        fun hdead => by cases hdead
      · obtain ⟨st, hst, hmem⟩ := hinside w fun hnull => hw (by rw [hnull]; rfl)
        exact ⟨st, List.mem_reverse.2 hst, hmem⟩
      · cases he : s.pt p w <;> simp [he, Pte.forked] at hw
    · rw [update_of_ne hqn, update_of_ne hqn]
      by_cases hqp : q = p
      · subst hqp
        have hparent : s₁.pt q = fun w => (s.pt q w).readOnly := funext hf.parent
        rw [hfault, hlive, hparent]
        refine .idle hapart hnoswap (fun w hw => ?_) (fun w slot hw => ?_) fun hdead => by cases hdead
        · exact hinside w fun hnull => hw (by rw [hnull]; rfl)
        · cases he : s.pt q w with
          | null | page _ _ => simp [he, Pte.readOnly] at hw
          | disk slot' => exact hnodisk w slot' he
      · rw [hf.others q hqp hqn]
        exact h.space q
  · -- an entry without `PTE_RO` belongs to a third process
    have hqp : q ≠ p := by
      rintro rfl
      rw [hf.parent] at hw
      cases he : s.pt q w <;> simp [he, Pte.readOnly] at hw
    have hqn : q ≠ np := by
      rintro rfl
      rw [hf.child] at hw
      cases he : s.pt p w <;> simp [he, Pte.forked] at hw
    rw [hf.others q hqp hqn] at hw
    obtain ⟨hfix, hunique⟩ := h.writable q w g hw
    refine ⟨hfix, fun x hx => ?_⟩
    obtain ⟨y, hy, -, hyx | hyp⟩ := hback x g hx
    · exact hyx ▸ hunique y hy
    · rw [hunique y hy] at hyp
      exact absurd hyp hqp
  · obtain ⟨x', hx', hxx, -⟩ := hback x g hx
    obtain ⟨y', hy', hyy, -⟩ := hback y g hy
    rw [← hxx, ← hyy]
    exact h.same x' y' g hg hx' hy'
  · by_cases hqp : q = p
    · subst hqp
      obtain ⟨ro, g, hg, hold, hnew⟩ := hshow
      refine ⟨true, g, by rw [hf.parent, hg]; rfl, fun hx => ?_, fun a ha => ?_⟩
      · rw [hf.held, if_neg hnp] at hx
        rw [hf.data]
        exact hold hx
      · rw [hf.fault, hfault] at ha
        cases ha
    · by_cases hqn : q = np
      · subst hqn
        obtain ⟨ro, g, hg, -⟩ := hshow
        rw [hfresh] at hg
        cases hg
      · exact hshow.frame (hf.others q hqp hqn) (by rw [hf.fault]) fun g _ => by rw [hf.data]
  · obtain ⟨ro, g, hg, hold, -⟩ := hshow
    refine ⟨true, g, by rw [hf.child, hg]; rfl, fun _ => ?_, fun a ha => ?_⟩
    · rw [hf.data]
      refine hold ?_
      rw [held_of_fault_none hfault, hg]
      rfl
    · rw [hf.fault, hfaultNp] at ha
      cases ha

/-! ## `exit` -/

/-- The page table of a process goes, with the pages that nobody else
holds. -/
theorem exit {s₁ : Memory P} (h : Cow E s) (hfault : s.fault p = none)
    (hfew : ∀ f, E.layout.fixed f = false → {q | ∃ v, s.held (q, v) = some f}.ncard < 128)
    (hs : s.freePgdir E p = some s₁)
    (hs' : s' = { s₁ with live := update s₁.live p false }) :
    Cow E s' ∧ (∀ q va b, q ≠ p → Shows s q va b → Shows s' q va b) ∧
      ∀ g, E.layout.fixed g = true → s'.frames.data g = s.frames.data g := by
  obtain ⟨frames, hframes⟩ : ∃ frames, frames =
      (((s.sections p).flatMap Section.freePages).foldl (freePage E p) s).frames := ⟨_, rfl⟩
  rw [freePgdir, freeSections_eq ((h.space p).noswap), Option.map_some, freeLoop_eq, ← hframes] at hs
  obtain rfl := Option.some.inj hs
  obtain ⟨-, hnew, hdata⟩ := freeLoop_pages E p ((s.sections p).flatMap Section.freePages) s
  have hcounted := freeLoop_counted h.counted (nodup_flatMap_freePages ((h.space p).apart))
    (fun v _ => held_of_fault_none hfault v) fun f hf => by
      rw [h.ncard_holders hf]
      exact (hfew f hf).le
  rw [← hframes] at hnew hdata hcounted
  have hframes' : s'.frames = frames := by rw [hs']
  have hpt : s'.pt = update s.pt p fun _ => .null := by rw [hs']
  have hothers : ∀ q, q ≠ p → s'.pt q = s.pt q := fun q hq => by
    rw [hpt, update_of_ne hq]
  have hfault' : s'.fault = s.fault := by rw [hs']
  -- all entries of the process were in its sections
  have hheld : ∀ x, s'.held x = if x.1 = p then none else s.held x := by
    rintro ⟨q, w⟩
    by_cases hq : q = p
    · subst hq
      rw [if_pos rfl, held_of_fault_none (by rw [hfault', hfault]), hpt, update_self]
      rfl
    · rw [if_neg hq]
      exact held_congr (hothers q hq) (by rw [hfault']) w
  have hcounted' : Counted E.layout s'.frames s'.held := by
    rw [hframes']
    refine hcounted.congr fun x => ?_
    rw [hheld, without]
    by_cases hx : x.1 = p
    · rw [if_pos hx]
      refine ite_eq_left_iff.2 fun hmem => ?_
      obtain ⟨q, w⟩ := x
      obtain rfl : q = p := hx
      rw [held_of_fault_none hfault]
      cases he : s.pt q w with
      | null | disk _ => rfl
      | page ro f =>
        obtain ⟨st, hst, hw⟩ := (h.space q).inside w (by rw [he]; simp)
        exact absurd ⟨rfl, List.mem_flatMap.2 ⟨st, hst, hw⟩⟩ hmem
    · rw [if_neg fun hmem => hx hmem.1, if_neg hx]
  have hsub : ∀ x g, s'.held x = some g → x.1 ≠ p ∧ s.held x = some g := by
    intro x g hx
    rw [hheld] at hx
    split_ifs at hx with hxp
    exact ⟨hxp, hx⟩
  have hspare : ∀ g, Spare E s g → Spare E s' g := by
    intro g hg
    refine ⟨hg.fixed, fun hin => ?_, fun x hx => hg.held x (hsub x g hx).2⟩
    rw [hframes'] at hin
    rcases hnew g hin with hin | ⟨-, v, -, hv⟩
    · exact hg.free hin
    · exact hg.held (p, v) (by rw [held_of_fault_none hfault]; exact hv)
  have hsame : ∀ g ∉ s'.frames.pages, s'.frames.data g = s.frames.data g := by
    rw [hframes']
    exact hdata
  refine ⟨h.of_step (p := p) (by rw [hs']) (fun q _ => by rw [hfault']) (fun g hg _ => hspare g hg)
    (fun a ha => by rw [hfault', hfault] at ha; cases ha) hcounted' (fun q => ?_) (fun q w g hw => ?_)
    fun x y g hg hx hy => h.same x y g hg (hsub x g hx).2 (hsub y g hy).2,
    fun q va b hqp hshow => ?_, fun g hg => hsame g fun hin => ?_⟩
  · rw [show s'.live = update s.live p false by rw [hs'],
      show s'.sections = update s.sections p [] by rw [hs'], hfault']
    by_cases hqp : q = p
    · subst hqp
      rw [hpt, update_self, update_self, update_self, hfault]
      exact .empty false
    · rw [hothers q hqp, update_of_ne hqp, update_of_ne hqp]
      exact h.space q
  · have hqp : q ≠ p := by
      rintro rfl
      rw [hpt, update_self] at hw
      cases hw
    rw [hothers q hqp] at hw
    exact ⟨(h.writable q w g hw).1, fun x hx => (h.writable q w g hw).2 x (hsub x g hx).2⟩
  · refine hshow.frame (hothers q hqp) (by rw [hfault']) fun g hg => hsame g fun hin => ?_
    rcases hg with ⟨v, hv⟩ | ⟨a, ha, rfl⟩
    · exact hcounted'.not_held hin (q, v) (by rw [hheld, if_neg hqp]; exact hv)
    · exact (hspare _ (h.fresh q a ha).1).free hin
  · rw [(hcounted'.free g hin).1] at hg
    cases hg

end Cow

end Memory

end OsKernel.Paging
