import OsKernel.Common.Accounts
import OsKernel.Common.Lock
import OsKernel.Fs.FileContent
import OsKernel.Fs.Helpers.Transfer

/-!
# The offset of a shared file

The account of `Fs.Model.SharedFile` (`shared_offset_account`): no advance
of the offset is lost. The ranges that the calls transfer follow one
another in the order of the locked sections, and what one writer has
written is not overwritten by another.
-/

namespace OsKernel.Fs

open Function

open Cache

variable {P : Type} {sb : SuperBlock} {fs' : FS} {t n off : ℕ} {c : FileCall}

/-- The content of the file. -/
def Shared.content (s : Shared P) : List UInt8 :=
  (s.fs.icache s.ip).elim [] fun ino => Fs.content s.fs.blocks ino.entry

/-! ## The account -/

namespace FilePc

/-- In the locked section. -/
def inside : FilePc → Bool
  | .locked _ _ | .called _ _ _ | .moved _ _ | .loaded _ _ _ | .stored _ _ => true
  | _ => false

/-- In the locked section, before the transfer. -/
def before : FilePc → Bool
  | .locked _ _ | .called _ _ _ => true
  | _ => false

/-- What is transferred and not yet in `f->off`. -/
def pending : FilePc → ℕ
  | .moved _ t | .loaded _ t _ => t
  | _ => 0

/-- What is transferred and not yet returned. -/
def inFlight : FilePc → ℕ
  | .test _ t | .moved _ t | .loaded _ t _ | .stored _ t => t
  | .done r => r.toNat
  | _ => 0

/-- The next step from here moves no bytes, takes no lock and returns
nothing. -/
def silent : FilePc → Bool
  | .called _ _ _ | .enter _ _ | .done _ => false
  | _ => true

/-- The copy of `f->off`, if there is one, is `off`, and what is added to it
does not make it wrap. -/
def SeesOff (off : ℕ) : FilePc → Prop
  | .called _ _ o => o = off
  | .moved _ t => off + t < 2 ^ 64
  | .loaded _ t o => o = off ∧ off + t < 2 ^ 64
  | _ => True

/-- The locals are those of a call of at most `maxWrite` bytes. -/
def Ok : FilePc → Prop
  | .test src t => src.length ≤ maxWrite ∧ (t = 0 ∨ t = src.length)
  | .enter c t | .locked c t | .called c t _ => c.Arg t
  | .moved c t | .loaded c t _ | .stored c t => c.Result t
  | _ => True

end FilePc

variable {s s' : Shared P} {p q : P} {pc : FilePc} {off₀ : ℕ}
variable {tr : List (Shared P × FileStep P)} {x : Shared P × FileStep P}

theorem transfers_snoc : transfers sb (tr ++ [x]) = transfers sb tr ++ (transferOf sb x).toList := by
  cases h : transferOf sb x <;> simp [transfers, h]

/-- A step with no transfer. -/
theorem transfers_of_none (h : transferOf sb x = none) :
    transfers sb (tr ++ [x]) = transfers sb tr := by
  rw [transfers_snoc, h]
  exact List.append_nil _

theorem lockers_snoc : lockers (tr ++ [x]) = lockers tr ++ (lockerOf x).toList := by
  cases h : lockerOf x <;> simp [lockers, h]

theorem counts_snoc :
    counts (tr ++ [x]) = counts tr ++ (resultOf x).toList.map fun r => (r.1, r.2.toNat) := by
  cases h : resultOf x <;> simp [counts, h]

/-- A silent step adds nothing to what the run has done. -/
theorem snoc_of_silent (sb : SuperBlock) (tr : List (Shared P × FileStep P))
    (h : (s.pc p).silent = true) :
    transfers sb (tr ++ [(s, .next p)]) = transfers sb tr ∧
      lockers (tr ++ [(s, .next p)]) = lockers tr ∧ counts (tr ++ [(s, .next p)]) = counts tr := by
  have hnone : transferOf sb (s, .next p) = none ∧ lockerOf (s, .next p) = none ∧
      resultOf (s, .next p) = none := by
    simp only [transferOf, lockerOf, resultOf]
    cases hp : s.pc p <;> rw [hp] at h <;> first | exact ⟨rfl, rfl, rfl⟩ | cases h
  rw [transfers_snoc, lockers_snoc, counts_snoc, hnone.1, hnone.2.1, hnone.2.2]
  exact ⟨List.append_nil _, List.append_nil _, List.append_nil _⟩

namespace Shared

/-- Where the holder of the lock is. -/
def holder (s : Shared P) : FilePc := s.lock.elim .out s.pc

/-- The holder of the lock, where its transfer is still to come. -/
def waiting (s : Shared P) : List P :=
  s.lock.elim [] fun p => if (s.pc p).before then [p] else []

theorem holder_of_lock (h : s.lock = some p) : s.holder = s.pc p := by
  rw [holder, h]
  rfl

theorem waiting_of_lock (h : s.lock = some p) :
    s.waiting = if (s.pc p).before then [p] else [] := by
  rw [waiting, h]
  rfl

/-- Exactly the holder of the lock is in the locked section. -/
def Excl (s : Shared P) : Prop := Excludes (fun p => (s.pc p).inside) s.lock

variable [DecidableEq P]

@[simp] theorem pc_goto_self : (s.goto p pc).pc p = pc := update_self _ _ _

theorem pc_goto_of_ne (h : q ≠ p) : (s.goto p pc).pc q = s.pc q := update_of_ne h _ _

/-- The locals after a step of `p`. -/
theorem ok_goto (h : ∀ q, (s.pc q).Ok) (hpc : pc.Ok) (q : P) : ((s.goto p pc).pc q).Ok := by
  by_cases hq : q = p
  · subst hq
    rwa [pc_goto_self]
  · rw [pc_goto_of_ne hq]
    exact h q

/-- The critical sections after a step of `p`. -/
theorem inside_goto (s : Shared P) (p : P) (pc : FilePc) :
    (fun q => ((s.goto p pc).pc q).inside) =
      update (fun q => (s.pc q).inside) p pc.inside := by
  funext q
  by_cases hq : q = p
  · subst hq
    simp
  · rw [pc_goto_of_ne hq, update_of_ne hq]

/-- A step outside of the locked section does not concern the holder. -/
theorem Excl.goto_outside (h : s.Excl) (hp : (s.pc p).inside = false) (hpc : pc.inside = false) :
    (s.goto p pc).Excl ∧ (s.goto p pc).holder = s.holder ∧ (s.goto p pc).waiting = s.waiting := by
  refine ⟨?_, ?_⟩
  · rw [Excl, inside_goto]
    exact h.stay (hp.trans hpc.symm)
  · cases hlock : s.lock with
    | none => exact ⟨by rw [holder, holder, goto, hlock]; rfl, by rw [waiting, waiting, goto, hlock]; rfl⟩
    | some q =>
      have hq : q ≠ p := by
        rintro rfl
        have hin : (s.pc q).inside = true := (h q).2 hlock
        rw [hin] at hp
        cases hp
      have hlock' : (s.goto p pc).lock = some q := hlock
      rw [holder_of_lock hlock, holder_of_lock hlock', waiting_of_lock hlock,
        waiting_of_lock hlock', pc_goto_of_ne hq]
      exact ⟨rfl, rfl⟩

end Shared

variable [DecidableEq P]

/-- **The account of a run** that began at offset `off₀`. -/
structure Account (sb : SuperBlock) (off₀ : ℕ) (tr : List (Shared P × FileStep P))
    (s : Shared P) : Prop where
  excl : s.Excl
  ok : ∀ p, (s.pc p).Ok
  regular : ∃ ino, s.fs.icache s.ip = some ino ∧ ino.Regular
  seesOff : s.holder.SeesOff s.off
  /-- The transfers follow one another up to the offset, with what the
  holder has still to add to it. -/
  ranges : Consecutive off₀ ((transfers sb tr).map Transfer.range) (s.off + s.holder.pending)
  /-- The transfers come in the order of the locked sections. -/
  order : lockers tr = (transfers sb tr).map Transfer.proc ++ s.waiting
  /-- What a process has transferred is returned or in flight. -/
  shares : ∀ p, tally ((transfers sb tr).map Transfer.share) p =
    tally (counts tr) p + (s.pc p).inFlight

/-- The shares after a step of `p` that transfers `n` bytes and returns
`r`. -/
theorem shares_goto {T T' C C' : List (P × ℕ)} {r : ℕ}
    (h : ∀ q, tally T q = tally C q + (s.pc q).inFlight)
    (hT : ∀ q, tally T' q = tally T q + if q = p then n else 0)
    (hC : ∀ q, tally C' q = tally C q + if q = p then r else 0)
    (hp : (s.pc p).inFlight + n = r + pc.inFlight) (q : P) :
    tally T' q = tally C' q + ((s.goto p pc).pc q).inFlight := by
  rw [hT, hC, h]
  by_cases hq : q = p
  · subst hq
    rw [if_pos rfl, if_pos rfl, Shared.pc_goto_self]
    omega
  · rw [if_neg hq, if_neg hq, Shared.pc_goto_of_ne hq]
    omega

/-- The shares after a step of `p` that transfers and returns nothing. -/
theorem shares_goto_same {T C : List (P × ℕ)}
    (h : ∀ q, tally T q = tally C q + (s.pc q).inFlight)
    (hp : (s.pc p).inFlight = pc.inFlight) (q : P) :
    tally T q = tally C q + ((s.goto p pc).pc q).inFlight :=
  shares_goto (n := 0) (r := 0) h (fun _ => by rw [ite_self, Nat.add_zero])
    (fun _ => by rw [ite_self, Nat.add_zero]) (by omega) q

namespace Account

theorem ok_of (h : Account sb off₀ tr s) (hp : s.pc p = pc) : pc.Ok := hp ▸ h.ok p

/-- A step outside of the locked section that returns `r`. -/
theorem outside {r : ℕ} (h : Account sb off₀ tr s) (hp : (s.pc p).inside = false)
    (hpc : pc.inside = false) (hok : pc.Ok) (ht : transferOf sb x = none)
    (hl : lockerOf x = none)
    (hr : ∀ q, tally (counts (tr ++ [x])) q = tally (counts tr) q + if q = p then r else 0)
    (hfl : (s.pc p).inFlight = r + pc.inFlight) : Account sb off₀ (tr ++ [x]) (s.goto p pc) := by
  obtain ⟨hexcl, hholder, hwaiting⟩ := h.excl.goto_outside hp hpc
  have htr : transfers sb (tr ++ [x]) = transfers sb tr := transfers_of_none ht
  refine ⟨hexcl, ?_, h.regular, ?_, ?_, ?_, ?_⟩
  · exact Shared.ok_goto h.ok hok
  · rw [hholder]
    exact h.seesOff
  · rw [hholder, htr]
    exact h.ranges
  · rw [hwaiting, htr, lockers_snoc, hl]
    exact (List.append_nil _).trans h.order
  · rw [htr]
    exact shares_goto (n := 0) h.shares (fun q => by simp) hr (by omega)

/-- A step of the holder of the lock. -/
theorem inside {off' : ℕ} (h : Account sb off₀ tr s) (hlock : s.lock = some p)
    (hpc : pc.inside = true) (hok : pc.Ok)
    (hreg : ∃ ino, fs'.icache s.ip = some ino ∧ ino.Regular) (hsees : pc.SeesOff off')
    (hranges : Consecutive off₀ ((transfers sb (tr ++ [x])).map Transfer.range)
      (off' + pc.pending))
    (horder : lockers (tr ++ [x]) =
      (transfers sb (tr ++ [x])).map Transfer.proc ++ if pc.before then [p] else [])
    (hshares : ∀ q, tally ((transfers sb (tr ++ [x])).map Transfer.share) q =
      tally (counts (tr ++ [x])) q + ((s.goto p pc).pc q).inFlight) :
    Account sb off₀ (tr ++ [x]) (({ s with fs := fs', off := off' } : Shared P).goto p pc) := by
  have hlock' : (({ s with fs := fs', off := off' } : Shared P).goto p pc).lock = some p := hlock
  refine ⟨?_, ?_, hreg, ?_, ?_, ?_, hshares⟩
  · have hin : (s.pc p).inside = true := (h.excl p).2 hlock
    rw [Shared.Excl, Shared.inside_goto]
    exact h.excl.stay (hin.trans hpc.symm)
  · exact Shared.ok_goto h.ok hok
  · rw [Shared.holder_of_lock hlock', Shared.pc_goto_self]
    exact hsees
  · rw [Shared.holder_of_lock hlock', Shared.pc_goto_self]
    exact hranges
  · rw [Shared.waiting_of_lock hlock', Shared.pc_goto_self]
    exact horder

/-- A silent step of the holder of the lock, that stays in its section. -/
theorem inside_silent {off' : ℕ} (h : Account sb off₀ tr s) (hlock : s.lock = some p)
    (hsilent : (s.pc p).silent = true) (hpc : pc.inside = true) (hok : pc.Ok)
    (hsees : pc.SeesOff off') (hpending : off' + pc.pending = s.off + (s.pc p).pending)
    (hbefore : pc.before = (s.pc p).before) (hfl : (s.pc p).inFlight = pc.inFlight) :
    Account sb off₀ (tr ++ [(s, .next p)]) (({ s with off := off' } : Shared P).goto p pc) := by
  obtain ⟨htr, hlockers, hcounts⟩ := snoc_of_silent sb tr hsilent
  have hranges := h.ranges
  have horder := h.order
  rw [Shared.holder_of_lock hlock, ← hpending] at hranges
  rw [Shared.waiting_of_lock hlock, ← hbefore] at horder
  refine h.inside hlock hpc hok h.regular hsees ?_ ?_ ?_
  · rw [htr]
    exact hranges
  · rw [htr, hlockers]
    exact horder
  · rw [htr, hcounts]
    exact shares_goto_same h.shares hfl

end Account

/-- A step with no result. -/
theorem counts_of_none (h : resultOf x = none) (q : P) :
    tally (counts (tr ++ [x])) q = tally (counts tr) q + if q = p then 0 else 0 := by
  rw [counts_snoc, h]
  simp

namespace Account

section

variable (h : Account sb off₀ tr s)

include h

/-- A call begins. -/
theorem call (hp : s.pc p = .out) (hc : c.size ≤ maxWrite) :
    Account sb off₀ (tr ++ [(s, .call p c)]) (s.goto p (c.start s.readable s.writable)) := by
  have hpc : (c.start s.readable s.writable).inside = false ∧
      (c.start s.readable s.writable).Ok ∧ (c.start s.readable s.writable).inFlight = 0 := by
    cases c with
    | read n =>
      have hn : (n % 2 ^ 64).toNat < 2 ^ 64 := by omega
      rw [FileCall.start]
      split
      · exact ⟨rfl, hn, rfl⟩
      · exact ⟨rfl, trivial, rfl⟩
    | write src =>
      rw [FileCall.start]
      split
      · exact ⟨rfl, ⟨Int.ofNat_le.1 hc, Or.inl rfl⟩, rfl⟩
      · exact ⟨rfl, trivial, rfl⟩
  refine h.outside (r := 0) (by rw [hp]; rfl) hpc.1 hpc.2.1 rfl rfl (counts_of_none rfl) ?_
  rw [hp, hpc.2.2]
  rfl

/-- The lock is taken. -/
theorem acquire (hp : s.pc p = .enter c t) (hlock : s.lock = none) :
    Account sb off₀ (tr ++ [(s, .next p)])
      (({ s with lock := some p } : Shared P).goto p (.locked c t)) := by
  have htr : transfers sb (tr ++ [(s, .next p)]) = transfers sb tr :=
    transfers_of_none (by simp only [transferOf, hp])
  have hlocker : lockerOf (s, .next p) = some p := by simp only [lockerOf, hp]
  have hresult : resultOf (s, .next p) = none := by simp only [resultOf, hp]
  have hlock' : (({ s with lock := some p } : Shared P).goto p (.locked c t)).lock = some p := rfl
  have hok : c.Arg t := h.ok_of hp
  have hranges := h.ranges
  have horder := h.order
  rw [Shared.holder, hlock] at hranges
  rw [Shared.waiting, hlock] at horder
  refine ⟨?_, ?_, h.regular, ?_, ?_, ?_, ?_⟩
  · rw [Shared.Excl, Shared.inside_goto]
    have hfree : Excludes (fun p => (s.pc p).inside) none := hlock ▸ h.excl
    exact hfree.acquire p
  · exact Shared.ok_goto h.ok hok
  · rw [Shared.holder_of_lock hlock', Shared.pc_goto_self]
    trivial
  · rw [Shared.holder_of_lock hlock', Shared.pc_goto_self, htr]
    exact hranges
  · rw [Shared.waiting_of_lock hlock', Shared.pc_goto_self, htr, lockers_snoc, hlocker, horder,
      List.append_assoc]
    rfl
  · rw [htr]
    refine shares_goto (n := 0) (r := 0) h.shares (fun q => by simp) (counts_of_none hresult) ?_
    rw [hp]
    rfl

/-- The lock is given back. -/
theorem release (hp : s.pc p = .stored c t) :
    Account sb off₀ (tr ++ [(s, .next p)])
      (({ s with lock := none } : Shared P).goto p (c.after t)) := by
  obtain ⟨htr, hlockers, hcounts⟩ :=
    snoc_of_silent (s := s) (p := p) sb tr (by rw [hp]; rfl)
  have hlock : s.lock = some p := h.excl.of_inside (by rw [hp]; rfl)
  have hok : c.Result t := h.ok_of hp
  have hpc : (c.after t).inside = false ∧ (c.after t).Ok ∧ (c.after t).inFlight = t := by
    cases c with
    | read n => exact ⟨rfl, trivial, rfl⟩
    | write src => exact ⟨rfl, ⟨hok.2, Or.inr hok.1⟩, rfl⟩
  have hranges := h.ranges
  have horder := h.order
  rw [Shared.holder_of_lock hlock, hp] at hranges
  rw [Shared.waiting_of_lock hlock, hp] at horder
  refine ⟨?_, ?_, h.regular, trivial, ?_, ?_, ?_⟩
  · rw [Shared.Excl, Shared.inside_goto, hpc.1]
    have hheld : Excludes (fun p => (s.pc p).inside) (some p) := hlock ▸ h.excl
    exact hheld.release
  · exact Shared.ok_goto h.ok hpc.2.1
  · rw [htr]
    exact hranges
  · rw [htr, hlockers]
    exact horder
  · rw [htr, hcounts]
    refine shares_goto_same h.shares ?_
    rw [hp, hpc.2.2]
    rfl

/-- The bytes are transferred. -/
theorem transfer (hp : s.pc p = .called c t off)
    (hmove : c.transfer sb s.fs s.ip off t = some (n, fs')) :
    Account sb off₀ (tr ++ [(s, .next p)])
      (({ s with fs := fs' } : Shared P).goto p (.moved c n)) := by
  have htr : transfers sb (tr ++ [(s, .next p)]) = transfers sb tr ++ [⟨p, c, off, n⟩] := by
    rw [transfers_snoc]
    simp only [transferOf, hp, hmove, Option.map_some, Option.toList_some]
  have hlocker : lockerOf (s, .next p) = none := by simp only [lockerOf, hp]
  have hresult : resultOf (s, .next p) = none := by simp only [resultOf, hp]
  have hlock : s.lock = some p := h.excl.of_inside (by rw [hp]; rfl)
  have hok : c.Arg t := h.ok_of hp
  obtain ⟨ino, hino, hreg⟩ := h.regular
  obtain ⟨hend, hres, hreg'⟩ := FileCall.transfer_spec hino hreg hok hmove
  have hsees := h.seesOff
  have hranges := h.ranges
  have horder := h.order
  rw [Shared.holder_of_lock hlock, hp] at hsees hranges
  rw [Shared.waiting_of_lock hlock, hp] at horder
  obtain rfl : off = s.off := hsees
  refine h.inside hlock rfl hres hreg' hend ?_ ?_ ?_
  · rw [htr, List.map_append]
    exact hranges.snoc n
  · rw [htr, lockers_snoc, hlocker, horder, List.map_append]
    simp [FilePc.before]
  · rw [htr, List.map_append]
    refine shares_goto (n := n) (r := 0) h.shares (fun q => ?_) (counts_of_none hresult) ?_
    · rw [tally_append, List.map_singleton, Transfer.share, tally_singleton]
    · rw [hp]
      rfl

/-- The offset is read for the call. -/
theorem evaluate (hp : s.pc p = .locked c t) :
    Account sb off₀ (tr ++ [(s, .next p)]) (s.goto p (.called c t s.off)) := by
  have hlock : s.lock = some p := h.excl.of_inside (by rw [hp]; rfl)
  have hok : c.Arg t := h.ok_of hp
  refine h.inside_silent hlock ?_ rfl hok rfl ?_ ?_ ?_ <;> rw [hp] <;> rfl

/-- The offset is read for the `+=`. -/
theorem load (hp : s.pc p = .moved c t) :
    Account sb off₀ (tr ++ [(s, .next p)]) (s.goto p (.loaded c t s.off)) := by
  have hlock : s.lock = some p := h.excl.of_inside (by rw [hp]; rfl)
  have hok : c.Result t := h.ok_of hp
  have hsees := h.seesOff
  rw [Shared.holder_of_lock hlock, hp] at hsees
  refine h.inside_silent hlock ?_ rfl hok ⟨rfl, hsees⟩ ?_ ?_ ?_ <;> rw [hp] <;> rfl

/-- The offset is advanced. -/
theorem store (hp : s.pc p = .loaded c t off) :
    Account sb off₀ (tr ++ [(s, .next p)])
      (({ s with off := (off + t) % 2 ^ 64 } : Shared P).goto p (.stored c t)) := by
  have hlock : s.lock = some p := h.excl.of_inside (by rw [hp]; rfl)
  have hok : c.Result t := h.ok_of hp
  have hsees := h.seesOff
  rw [Shared.holder_of_lock hlock, hp] at hsees
  obtain ⟨rfl, hend⟩ : off = s.off ∧ s.off + t < 2 ^ 64 := hsees
  rw [Nat.mod_eq_of_lt hend]
  refine h.inside_silent hlock ?_ rfl hok trivial ?_ ?_ ?_ <;> rw [hp] <;> rfl

/-- **Every step keeps the account.** -/
theorem step {a : FileStep P} (hsmall : a.Small) (hs : s.step sb a = some s') :
    Account sb off₀ (tr ++ [(s, a)]) s' := by
  cases a with
  | call p c =>
    rw [Shared.step] at hs
    split_ifs at hs with hp
    cases hs
    exact h.call hp hsmall
  | next p =>
    rw [Shared.step, Shared.next] at hs
    split at hs
    · cases hs
    · rename_i src t hp
      obtain ⟨hle, ht⟩ : src.length ≤ maxWrite ∧ (t = 0 ∨ t = src.length) := h.ok_of hp
      have hnone : transferOf sb (s, .next p) = none := by simp only [transferOf, hp]
      have hlocker : lockerOf (s, .next p) = none := by simp only [lockerOf, hp]
      have hresult : resultOf (s, .next p) = none := by simp only [resultOf, hp]
      split at hs
      · -- the loop runs at most once, so nothing is written yet
        rename_i hlt
        cases hs
        obtain rfl : t = 0 := by omega
        refine h.outside (r := 0) (by rw [hp]; rfl) rfl ⟨by omega, hlt, hle⟩ hnone hlocker
          (counts_of_none hresult) ?_
        rw [hp]
        rfl
      · cases hs
        refine h.outside (r := 0) (by rw [hp]; rfl) rfl trivial hnone hlocker
          (counts_of_none hresult) ?_
        rw [hp, Nat.zero_add]
        rfl
    · rename_i c t hp
      split_ifs at hs with hlock
      cases hs
      exact h.acquire hp hlock
    · rename_i c t hp
      cases hs
      exact h.evaluate hp
    · rename_i c t off hp
      obtain ⟨⟨n, fs'⟩, hmove, hs⟩ := Option.map_eq_some_iff.1 hs
      cases hs
      exact h.transfer hp hmove
    · rename_i c t hp
      cases hs
      exact h.load hp
    · rename_i c t off hp
      cases hs
      exact h.store hp
    · rename_i c t hp
      cases hs
      exact h.release hp
    · rename_i r hp
      cases hs
      refine h.outside (r := r.toNat) (by rw [hp]; rfl) rfl trivial (by simp only [transferOf, hp])
        (by simp only [lockerOf, hp]) (fun q => ?_) ?_
      · have hresult : resultOf (s, .next p) = some (p, r) := by simp only [resultOf, hp]
        rw [counts_snoc, hresult, tally_append]
        exact congrArg _ (tally_singleton _ _ _)
      · rw [hp]
        rfl

end

/-- A run starts with an empty account. -/
theorem init (h : s.Quiet) (hreg : ∃ ino, s.fs.icache s.ip = some ino ∧ ino.Regular) :
    Account sb s.off [] s := by
  have hholder : s.holder = .out := by rw [Shared.holder, h.lock]; rfl
  refine ⟨?_, ?_, hreg, ?_, ?_, ?_, ?_⟩
  · rw [Shared.Excl, h.lock, Excludes.none_iff]
    intro p
    rw [h.pc]
    rfl
  · intro p
    rw [h.pc]
    trivial
  · rw [hholder]
    trivial
  · rw [hholder]
    exact rfl
  · rw [Shared.waiting, h.lock]
    rfl
  · intro p
    rw [h.pc]
    rfl

end Account

/-! ## The bytes written stay -/

/-- A step transfers bytes, or leaves the file system as it is. -/
theorem Shared.step_fs {a : FileStep P} (hs : s.step sb a = some s') :
    s'.ip = s.ip ∧
      ((transferOf sb (s, a) = none ∧ s'.fs = s.fs) ∨
        ∃ p c t off n, s.pc p = .called c t off ∧
          c.transfer sb s.fs s.ip off t = some (n, s'.fs) ∧
          transferOf sb (s, a) = some ⟨p, c, off, n⟩) := by
  cases a with
  | call p c =>
    rw [Shared.step] at hs
    split at hs
    · cases hs
      exact ⟨rfl, Or.inl ⟨rfl, rfl⟩⟩
    · cases hs
  | next p =>
    rw [Shared.step, Shared.next] at hs
    cases hp : s.pc p with
    | called c t off =>
      simp only [hp] at hs
      obtain ⟨⟨n, fs'⟩, hmove, hs⟩ := Option.map_eq_some_iff.1 hs
      cases hs
      refine ⟨rfl, Or.inr ⟨p, c, t, off, n, hp, hmove, ?_⟩⟩
      simp only [transferOf, hp, hmove, Option.map_some]
    | out =>
      simp only [hp] at hs
      cases hs
    | test src t =>
      simp only [hp] at hs
      have hnone : transferOf sb (s, .next p) = none := by simp only [transferOf, hp]
      split at hs <;> cases hs <;> exact ⟨rfl, Or.inl ⟨hnone, rfl⟩⟩
    | enter c t =>
      simp only [hp] at hs
      have hnone : transferOf sb (s, .next p) = none := by simp only [transferOf, hp]
      split at hs <;> cases hs
      exact ⟨rfl, Or.inl ⟨hnone, rfl⟩⟩
    | locked c t | moved c t | loaded c t off | stored c t | done r =>
      simp only [hp] at hs
      cases hs
      exact ⟨rfl, Or.inl ⟨by simp only [transferOf, hp], rfl⟩⟩

/-- What the writers have written is in the file, whole. -/
structure Kept (sb : SuperBlock) (tr : List (Shared P × FileStep P)) (s : Shared P) : Prop where
  inv : Inv sb s.fs
  data : ∀ x ∈ transfers sb tr, ∀ src, x.call = .write src →
    x.count = src.length ∧ ∀ j < src.length, s.content[x.off + j]? = src[j]?

/-- **A transfer keeps the bytes of the earlier ones**, since it starts
where they end. -/
theorem Kept.step {a : FileStep P} (hlay : Layout sb) (hacc : Account sb off₀ tr s)
    (h : Kept sb tr s) (hs : s.step sb a = some s') : Kept sb (tr ++ [(s, a)]) s' := by
  obtain ⟨hip, ⟨hnone, hfs⟩ | ⟨p, c, t, off, n, hp, hmove, hsome⟩⟩ := Shared.step_fs hs
  · have hcontent : s'.content = s.content := by rw [Shared.content, Shared.content, hip, hfs]
    refine ⟨hfs ▸ h.inv, ?_⟩
    rw [transfers_of_none hnone, hcontent]
    exact h.data
  · have hmx : maxWrite < 2 ^ 64 := by decide
    have hlock : s.lock = some p := hacc.excl.of_inside (by rw [hp]; rfl)
    have hsees := hacc.seesOff
    have hranges := hacc.ranges
    rw [Shared.holder_of_lock hlock, hp] at hsees hranges
    obtain rfl : off = s.off := hsees
    obtain ⟨ino, hino, hreg⟩ := hacc.regular
    have hdev : ino.entry.type ≠ inodeDevice := by
      rw [hreg.2]
      decide
    have harg : c.Arg t := hacc.ok_of hp
    have hinto : ∀ x ∈ transfers sb (tr ++ [(s, a)]),
        x ∈ transfers sb tr ∨ x = ⟨p, c, s.off, n⟩ := by
      intro x hx
      rw [transfers_snoc, hsome] at hx
      exact (List.mem_append.1 hx).imp id List.mem_singleton.1
    cases c with
    | read n' =>
      have ht : t < 2 ^ 64 := harg
      -- a read is a step of the inode layer that changes nothing
      have hread : Fs.step sb s.fs (.read s.ip s.off t) = some s'.fs := by
        simp only [FileCall.transfer, hino, Option.bind_eq_bind, Option.bind_some] at hmove
        obtain ⟨⟨l, m, e⟩, hr, hmove⟩ := Option.bind_eq_some_iff.1 hmove
        simp only [Fs.step, hino, hr, Option.bind_eq_bind, Option.bind_some]
        rw [← (pair_inj hmove).2]
      have hfs : s'.fs = s.fs := step_read h.inv ht hread
      have hcontent : s'.content = s.content := by rw [Shared.content, Shared.content, hip, hfs]
      refine ⟨hfs ▸ h.inv, fun x hx src hcall => ?_⟩
      rw [hcontent]
      rcases hinto x hx with hx | rfl
      · exact h.data x hx src hcall
      · cases hcall
    | write src =>
      obtain ⟨hcount, -⟩ : n = src.length ∧ src.length ≤ maxWrite :=
        (FileCall.transfer_spec hino hreg harg hmove).2.1
      obtain ⟨rfl, hpos, hle⟩ := harg
      simp only [FileCall.transfer, hino, Option.bind_eq_bind, Option.bind_some,
        List.take_length] at hmove
      obtain ⟨⟨count, m', ino'⟩, hwrite, hmove⟩ := Option.bind_eq_some_iff.1 hmove
      have hfs : s.fs.set s.ip m' (some ino') = s'.fs :=
        (pair_inj hmove).2
      obtain ⟨ho, -, hnew⟩ := inodeWrite_content hlay h.inv hino hdev hpos hwrite (by omega)
      have hold : s.content = Fs.content s.fs.blocks ino.entry := by
        rw [Shared.content, hino]
        rfl
      have hcontent : s'.content = spliced s.content s.off src := by
        have hino' : s'.fs.icache s.ip = some ino' := by
          rw [← hfs]
          exact update_self _ _ _
        rw [Shared.content, hip, hino', hold, ← hnew, ← hfs]
        rfl
      have hoff : s.off ≤ s.content.length := by
        rw [hold, length_content]
        exact ho
      refine ⟨hfs ▸ h.inv.write hlay hino hpos (by omega) hwrite, fun x hx src' hcall => ?_⟩
      rw [hcontent]
      rcases hinto x hx with hx | rfl
      · obtain ⟨hlen, hbytes⟩ := h.data x hx src' hcall
        have hend : x.off + x.count ≤ s.off :=
          (hranges.between (List.mem_map_of_mem (f := Transfer.range) hx)).2
        refine ⟨hlen, fun j hj => ?_⟩
        rw [getElem?_spliced hoff, if_neg (by omega)]
        exact hbytes j hj
      · cases hcall
        refine ⟨hcount, fun j hj => ?_⟩
        rw [getElem?_spliced hoff, if_pos ⟨Nat.le_add_right _ _, Nat.add_lt_add_left hj _⟩,
          Nat.add_sub_cancel_left]

/-! ## The result -/

/-- **A shared offset loses no update.** Whatever calls of at most
`maxWrite` bytes the processes make on a shared regular file, and however
their steps interleave, the ranges they transfer follow one another in the
order of the locked sections, and no two of them overlap. When no call is
under way, the offset has grown by the sum of the returned counts. On an
image that satisfies the invariant of the inode layer, what was written is
still in the file. -/
theorem shared_offset_account {s₀ : Shared P} (hquiet : s₀.Quiet)
    (hreg : ∃ ino, s₀.fs.icache s₀.ip = some ino ∧ ino.Regular)
    (hrun : Run (Shared.step sb) s₀ tr s) (hsmall : ∀ x ∈ tr, x.2.Small) :
    Consecutive s₀.off ((transfers sb tr).map Transfer.range) (s.off + s.holder.pending) ∧
      ((transfers sb tr).map Transfer.range).Pairwise
        (fun r r' => Disjoint (span r) (span r')) ∧
      lockers tr = (transfers sb tr).map Transfer.proc ++ s.waiting ∧
      (s.Quiet → s.off = s₀.off + ((counts tr).map Prod.snd).sum) ∧
      (Layout sb → Inv sb s₀.fs → ∀ x ∈ transfers sb tr, ∀ src, x.call = .write src →
        x.count = src.length ∧ ∀ j < src.length, s.content[x.off + j]? = src[j]?) := by
  have hacc : Account sb s₀.off tr s :=
    hrun.traceInvariantOf (K := fun _ a => a.Small) (I := Account sb s₀.off) hsmall
      (Account.init hquiet hreg) fun _ _ _ _ h hk hs => h.step hk hs
  refine ⟨hacc.ranges, hacc.ranges.pairwise_disjoint, hacc.order, fun hq => ?_,
    fun hlay hinv => ?_⟩
  · have hpending : s.holder.pending = 0 := by rw [Shared.holder, hq.lock]; rfl
    have hsum : ((transfers sb tr).map Transfer.share).map Prod.snd =
        ((transfers sb tr).map Transfer.range).map Prod.snd := by
      simp only [List.map_map]
      rfl
    have hshares : ∀ p, tally ((transfers sb tr).map Transfer.share) p = tally (counts tr) p := by
      intro p
      rw [hacc.shares p, hq.pc p]
      rfl
    have hend := hacc.ranges.add_sum
    rw [← hsum, sum_eq_of_tally hshares, hpending] at hend
    exact hend.symm
  · have hboth : Account sb s₀.off tr s ∧ Kept sb tr s := by
      refine hrun.traceInvariantOf (K := fun _ a => a.Small)
        (I := fun tr s => Account sb s₀.off tr s ∧ Kept sb tr s) hsmall
        ⟨Account.init hquiet hreg, hinv, fun x hx => absurd hx List.not_mem_nil⟩ ?_
      rintro tr s a t ⟨hacc, hkept⟩ hk hs
      exact ⟨hacc.step hk hs, hkept.step hlay hacc hs⟩
    exact hboth.2.data

/-- An empty file that two processes share. -/
def sharedFile : Shared Bool where
  fs := oneFile 12
  ip := 1
  readable := true
  writable := true
  off := 0
  lock := none
  pc := fun _ => .out

/-- Two writers, the second of which waits for the lock of the first. -/
def twoWriters : List (FileStep Bool) :=
  [.call true (.write [7]), .next true, .next true, .call false (.write [8, 9]), .next false] ++
    List.replicate 7 (.next true) ++ List.replicate 8 (.next false)

/-- Both advances are in the offset. -/
theorem shared_offset_account_twoWriters : ∃ tr s,
    Run (Shared.step mkfsLayout) sharedFile tr s ∧ s.off = 3 ∧
      ∀ x ∈ transfers mkfsLayout tr, ∀ src, x.call = .write src →
        x.count = src.length ∧ ∀ j < src.length, s.content[x.off + j]? = src[j]? := by
  obtain ⟨s, hs, hend⟩ := (Option.any_eq_true _ _).1
    (show (exec (Shared.step mkfsLayout) sharedFile twoWriters).any
      (fun s => decide (s.lock = none ∧ ∀ p, s.pc p = .out)) = true by decide +kernel)
  have hquiet := of_decide_eq_true hend
  have hrun := Run.of_exec hs
  have hsmall := forall_execTrace (P := FileStep.Small) hs (by
    simp [twoWriters, FileStep.Small, FileCall.size, maxWrite, blockSize])
  obtain ⟨-, -, -, hoff, hdata⟩ := shared_offset_account ⟨rfl, fun _ => rfl⟩
    ⟨_, rfl, rfl, rfl⟩ hrun hsmall
  refine ⟨_, s, hrun, ?_, hdata layout_mkfsLayout inv_oneFile⟩
  rw [hoff ⟨hquiet.1, hquiet.2⟩]
  decide +kernel

end OsKernel.Fs
