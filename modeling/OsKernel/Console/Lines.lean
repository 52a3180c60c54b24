import OsKernel.Console.Model

/-!
# The console — lines

The ring of the console holds two lists: the committed characters that are
not read yet (`pend`) and the line being edited (`line`). Each operation of
`kernel/console.c` is an operation on the two lists, whatever the indexes
are modulo `2 ^ 64`.
-/

namespace OsKernel.Console

open Input

/-! ## The ring as two lists -/

/-- **The input holds `pend` and then `line`.** `R` is the read index
without the wrapping. -/
structure Rep (s : Input) (R : ℕ) (pend line : List UInt8) : Prop where
  r_eq : s.r = R % 2 ^ 64
  w_eq : s.w = (R + pend.length) % 2 ^ 64
  e_eq : s.e = (R + pend.length + line.length) % 2 ^ 64
  fits : pend.length + line.length ≤ inputBuf
  data : Ring.contents inputBuf s.buf R (pend.length + line.length) = pend ++ line

namespace Rep

variable {s : Input} {R : ℕ} {pend line : List UInt8} {c : UInt8}

section

variable (h : Rep s R pend line)

include h

theorem r_eq_w_iff : s.r = s.w ↔ pend = [] := by
  have hr := h.r_eq
  have hw := h.w_eq
  have hfits : pend.length + line.length ≤ 128 := h.fits
  rw [← List.length_eq_zero_iff]
  omega

theorem e_eq_w_iff : s.e = s.w ↔ line = [] := by
  have he := h.e_eq
  have hw := h.w_eq
  have hfits : pend.length + line.length ≤ 128 := h.fits
  rw [← List.length_eq_zero_iff]
  omega

theorem full_iff : s.full = true ↔ pend.length + line.length = inputBuf := by
  have hr := h.r_eq
  have he := h.e_eq
  have hfits : pend.length + line.length ≤ 128 := h.fits
  simp only [full, decide_eq_true_eq]
  show (s.r + 128) % 2 ^ 64 = s.e ↔ _ = 128
  omega

/-- The distances of the indexes. -/
theorem dist_eq :
    Input.dist s.r s.w = pend.length ∧ Input.dist s.w s.e = line.length ∧
      Input.dist s.r s.e = pend.length + line.length := by
  have hr := h.r_eq
  have hw := h.w_eq
  have he := h.e_eq
  have hfits : pend.length + line.length ≤ 128 := h.fits
  unfold Input.dist
  refine ⟨?_, ?_, ?_⟩ <;> split <;> omega

/-- What lies between two indexes of the ring, as a part of the lists. -/
theorem contents_eq {p l q : List UInt8} (hsplit : pend ++ line = p ++ (l ++ q)) {i : ℕ}
    (hi : i = (R + p.length) % 2 ^ 64) : Ring.contents inputBuf s.buf i l.length = l := by
  rw [hi, Ring.contents_mod (by decide)]
  have hdata := h.data
  rw [hsplit] at hdata
  have hlen : pend.length + line.length = p.length + (l.length + q.length) := by
    rw [← List.length_append, hsplit, List.length_append, List.length_append]
  rw [hlen] at hdata
  -- the cells from `R` on, cut into three parts
  have hcut : Ring.contents inputBuf s.buf R (p.length + (l.length + q.length)) =
      Ring.contents inputBuf s.buf R p.length ++
        (Ring.contents inputBuf s.buf (R + p.length) l.length ++
          Ring.contents inputBuf s.buf (R + p.length + l.length) q.length) := by
    rw [Ring.contents_add, Ring.contents_add]
  rw [hcut] at hdata
  obtain ⟨-, hdata⟩ := List.append_inj hdata (by simp)
  exact (List.append_inj hdata (by simp)).1

theorem pending_eq : s.pending = pend := by
  rw [pending, h.dist_eq.1]
  exact h.contents_eq (p := []) (q := line) rfl h.r_eq

theorem edited_eq : s.edited = line := by
  rw [edited, h.dist_eq.2.1]
  exact h.contents_eq (p := pend) (q := []) (by simp) h.w_eq

/-! ### Editing -/

/-- A backspace takes the last character of the line. -/
theorem back (hne : line ≠ []) : Rep s.back R pend line.dropLast := by
  have he := h.e_eq
  have hfits : pend.length + line.length ≤ 128 := h.fits
  have hpos : 0 < line.length := List.length_pos_iff.2 hne
  refine ⟨h.r_eq, h.w_eq, ?_, ?_, ?_⟩
  · simp only [Input.back, List.length_dropLast]
    split <;> omega
  · rw [List.length_dropLast]
    exact le_trans (by omega) h.fits
  · obtain ⟨l, c, rfl⟩ : ∃ l c, line = l ++ [c] :=
      ⟨_, _, (List.dropLast_concat_getLast hne).symm⟩
    rw [List.dropLast_concat]
    have hdata := h.data
    rw [List.length_append, ← Nat.add_assoc, Ring.contents_add, ← List.append_assoc] at hdata
    exact (List.append_inj' hdata (by simp)).1

/-- Erasing the line. -/
theorem eraseLine : Rep s.eraseLine R pend [] := by
  suffices ∀ (k : ℕ) (s : Input) (line : List UInt8), line.length = k → Rep s R pend line →
      Rep (Input.back^[k] s) R pend [] by
    unfold Input.eraseLine
    rw [h.dist_eq.2.1]
    exact this line.length s line rfl h
  intro k
  induction k with
  | zero =>
    intro s line hk h
    obtain rfl := List.length_eq_zero_iff.1 hk
    exact h
  | succ k ih =>
    intro s line hk h
    rw [Function.iterate_succ_apply]
    refine ih _ line.dropLast ?_ (h.back ?_)
    · rw [List.length_dropLast, hk]
      rfl
    · rintro rfl
      simp at hk

/-- Storing a character, where the ring is not full. -/
theorem put (hfull : s.full = false) (c : UInt8) : Rep (s.put c) R pend (line ++ [c]) := by
  have he := h.e_eq
  have hfits : pend.length + line.length ≤ 128 := h.fits
  have hlt : pend.length + line.length < 128 := by
    have := mt h.full_iff.2 (by simp [hfull])
    exact lt_of_le_of_ne hfits this
  refine ⟨h.r_eq, h.w_eq, ?_, ?_, ?_⟩
  · simp only [Input.put, List.length_append, List.length_singleton]
    omega
  · rw [List.length_append, List.length_singleton]
    exact hlt
  · have hcell : s.e % inputBuf = (R + (pend.length + line.length)) % inputBuf := by
      rw [he, Nat.mod_mod_of_dvd _ (by decide), Nat.add_assoc]
    have hpush : Ring.contents inputBuf
        (Function.update s.buf ((R + (pend.length + line.length)) % inputBuf) c) R
        (pend.length + line.length + 1) = pend ++ line ++ [c] := by
      rw [Ring.contents_push hlt, h.data]
    rw [List.length_append, List.length_singleton, ← Nat.add_assoc, ← List.append_assoc, ← hpush,
      ← hcell]
    rfl

/-- Committing the line. -/
theorem commit : Rep s.commit R (pend ++ line) [] := by
  refine ⟨h.r_eq, ?_, ?_, ?_, ?_⟩
  · simp only [Input.commit, List.length_append]
    rw [h.e_eq, Nat.add_assoc]
  · simp only [Input.commit, List.length_append, List.length_nil, Nat.add_zero]
    rw [h.e_eq, Nat.add_assoc]
  · simpa using h.fits
  · simpa [Input.commit] using h.data

end

/-! ### Reading -/

/-- The read index is at the first committed character. -/
theorem head_eq (h : Rep s R (c :: pend) line) : s.head = c := by
  have hdata := h.data
  rw [List.length_cons, Nat.add_right_comm, Ring.contents_pop] at hdata
  have hcell : s.r % inputBuf = R % inputBuf := by
    rw [h.r_eq, Nat.mod_mod_of_dvd _ (by decide)]
  rw [Input.head, hcell]
  exact (List.cons.inj hdata).1

/-- Taking the first committed character. -/
theorem advance (h : Rep s R (c :: pend) line) : Rep s.advance (R + 1) pend line := by
  have hr := h.r_eq
  have hw := h.w_eq
  have he := h.e_eq
  have hfits := h.fits
  have hdata := h.data
  rw [List.length_cons] at hw he hfits hdata
  refine ⟨?_, ?_, ?_, ?_, ?_⟩
  · simp only [Input.advance]
    omega
  · simp only [Input.advance]
    rw [hw]
    congr 1
    omega
  · simp only [Input.advance]
    rw [he]
    congr 1
    omega
  · exact le_trans (by omega) hfits
  · rw [Nat.add_right_comm, Ring.contents_pop] at hdata
    exact (List.cons.inj hdata).2

end Rep

/-! ## The interrupt handler -/

/-- **What a character does to the line being edited**: the characters
that it commits, and the line after it. -/
def edit (full : Bool) (c : UInt8) (line : List UInt8) : List UInt8 × List UInt8 :=
  if c = 127 || c = 8 then ([], line.dropLast)
  else if c = ctrlU then ([], [])
  else if c = ctrlC then ([], line)
  else if full then ([], line)
  else if endsLine (crToNl c) then (line ++ [crToNl c], [])
  else ([], line ++ [crToNl c])

/-- Committed characters end with the end of a line. -/
def Ends (pend : List UInt8) : Prop := ∀ c, pend.getLast? = some c → endsLine c = true

theorem ends_nil : Ends [] := by
  intro c h
  cases h

theorem Ends.tail {c : UInt8} {pend : List UInt8} (h : Ends (c :: pend)) : Ends pend := by
  intro c' hc'
  refine h c' ?_
  cases pend with
  | nil => cases hc'
  | cons d pend => rw [List.getLast?_cons_cons, hc']

theorem Ends.suffix {l pend : List UInt8} (h : Ends (l ++ pend)) : Ends pend := by
  induction l with
  | nil => exact h
  | cons c l ih => exact ih (Ends.tail h)

/-- What is committed ends a line. -/
theorem Ends.edit {pend : List UInt8} (h : Ends pend) (full : Bool) (c : UInt8)
    (line : List UInt8) : Ends (pend ++ (edit full c line).1) := by
  unfold Console.edit
  split_ifs with h1 h2 h3 h4 h5
  all_goals try simpa using h
  intro c' hc'
  rw [← List.append_assoc, List.getLast?_concat, Option.some.injEq] at hc'
  rw [← hc']
  exact h5

variable {s t : Input} {R k : ℕ} {pend line dst : List UInt8} {c : UInt8}

/-- **The interrupt handler edits the line**, and never the committed
characters. -/
theorem Rep.consoleIntr (h : Rep s R pend line) (c : UInt8) :
    Rep (s.consoleIntr c) R (pend ++ (edit s.full c line).1) (edit s.full c line).2 := by
  unfold Input.consoleIntr edit
  split_ifs with h1 h2 h3 h4 h5 h6
  · -- a backspace on an empty line falls through and erases nothing
    obtain rfl := h.e_eq_w_iff.1 h2
    simpa using h.eraseLine
  · simpa using h.back (mt h.e_eq_w_iff.2 h2)
  · simpa using h.eraseLine
  · simpa using h
  · simpa using h
  · exact (h.put (by simpa using h5) _).commit
  · simpa using h.put (by simpa using h5) _

/-! ## The loop of `console_read` -/

/-- **The loop takes characters off the committed ones**, none of them a
`C('D')`, and stops short of `n` characters only at a newline or in front
of a `C('D')`. It waits only when nothing at all is committed, and so with
nothing in `dst`. -/
theorem readLoop_spec (h : Rep s R pend line) (hends : Ends pend) :
    (∀ t dst', readLoop k s dst = .leave t dst' →
      ∃ l rest, pend = l ++ rest ∧ dst' = dst ++ l ∧ ctrlD ∉ l ∧ Rep t (R + l.length) rest line ∧
        (l = [] → k = 0 ∨ rest.head? = some ctrlD)) ∧
    (∀ t dst', readLoop k s dst = .wait t dst' → pend = [] ∧ t = s ∧ dst' = dst) := by
  induction k generalizing s R pend dst with
  | zero =>
    refine ⟨fun t dst' ht => ?_, fun t dst' ht => ?_⟩
    · obtain ⟨rfl, rfl⟩ := Stop.leave.inj ht
      exact ⟨[], pend, rfl, by simp, by simp, h, fun _ => Or.inl rfl⟩
    · cases ht
  | succ k ih =>
    cases pend with
    | nil =>
      have heq : s.r = s.w := h.r_eq_w_iff.2 rfl
      rw [readLoop, if_pos heq]
      refine ⟨fun t dst' ht => ?_, fun t dst' ht => ?_⟩
      · cases ht
      · obtain ⟨rfl, rfl⟩ := Stop.wait.inj ht
        exact ⟨rfl, rfl, rfl⟩
    | cons c pend =>
      have hne : s.r ≠ s.w := mt h.r_eq_w_iff.1 (by simp)
      have hhead : s.head = c := h.head_eq
      rw [readLoop, if_neg hne, hhead]
      by_cases hd : c = ctrlD
      · rw [if_pos hd]
        refine ⟨fun t dst' ht => ?_, fun t dst' ht => ?_⟩
        · obtain ⟨rfl, rfl⟩ := Stop.leave.inj ht
          exact ⟨[], c :: pend, rfl, by simp, by simp, h, fun _ => Or.inr (by simp [hd])⟩
        · cases ht
      · rw [if_neg hd]
        by_cases hn : c = newline
        · rw [if_pos hn]
          refine ⟨fun t dst' ht => ?_, fun t dst' ht => ?_⟩
          · obtain ⟨rfl, rfl⟩ := Stop.leave.inj ht
            exact ⟨[c], pend, rfl, rfl, by simpa using Ne.symm hd, h.advance, by simp⟩
          · cases ht
        · rw [if_neg hn]
          obtain ⟨hleave, hwait⟩ := @ih s.advance (R + 1) pend (dst ++ [c]) h.advance hends.tail
          refine ⟨fun t dst' ht => ?_, fun t dst' ht => ?_⟩
          · obtain ⟨l, rest, rfl, rfl, hl, hrep, -⟩ := hleave t dst' ht
            refine ⟨c :: l, rest, rfl, by simp, ?_, ?_, by simp⟩
            · simp only [List.mem_cons, not_or]
              exact ⟨Ne.symm hd, hl⟩
            · rw [List.length_cons, Nat.add_comm l.length 1, ← Nat.add_assoc]
              exact hrep
          · -- the last committed character ends a line, so it is not `c`
            obtain ⟨rfl, -, -⟩ := hwait t dst' ht
            have := hends c rfl
            simp [endsLine, hd, hn] at this

/-- After the loop: a read without characters takes the `C('D')` in front
of it. -/
theorem Rep.finish_nil (h : Rep s R (ctrlD :: pend) line) : Rep (s.finish []) (R + 1) pend line := by
  have hif : (decide (([] : List UInt8) = []) && decide (s.head = ctrlD)) = true := by
    simp [h.head_eq]
  rw [finish, if_pos hif]
  exact h.advance

theorem finish_of_ne_nil (hdst : dst ≠ []) : s.finish dst = s := by
  simp [finish, hdst]

/-! ## Steps -/

section Steps

variable {T : Type} [DecidableEq T] {st st' : State T} {a : Act T}

theorem dist_add_mod (i : ℕ) {l : ℕ} (h : l ≤ inputBuf) :
    Input.dist (i % 2 ^ 64) ((i + l) % 2 ^ 64) = l := by
  have hl : l ≤ 128 := h
  unfold Input.dist
  split <;> omega

/-- The committed characters of a step, by what the ring holds after it. -/
theorem committedBy_eq {R' : ℕ} {pend' line' l : List UInt8} (hs : st.step a = some st')
    (h : Rep st.input R pend line) (h' : Rep st'.input R' pend' line') {p : List UInt8}
    (hp : R' + p.length = R + pend.length) (hsplit : pend' = p ++ l) :
    committedBy (st, a) = l := by
  have hlen : l.length ≤ inputBuf := by
    have := h'.fits
    rw [hsplit, List.length_append] at this
    omega
  have hw : st'.input.w = (R + pend.length + l.length) % 2 ^ 64 := by
    rw [h'.w_eq, hsplit, List.length_append, ← hp, Nat.add_assoc]
  simp only [committedBy, hs, Option.elim_some]
  rw [hw, h.w_eq, dist_add_mod _ hlen]
  refine h'.contents_eq (p := p) (q := line') ?_ ?_
  · rw [hsplit, List.append_assoc]
  · rw [hp]

/-- The characters that a step consumes, by what the ring held before it. -/
theorem consumedBy_eq {pend' line' l : List UInt8} (hs : st.step a = some st')
    (h : Rep st.input R (l ++ pend) line) (h' : Rep st'.input (R + l.length) pend' line') :
    consumedBy (st, a) = l := by
  have hlen : l.length ≤ inputBuf := by
    have := h.fits
    rw [List.length_append] at this
    omega
  simp only [consumedBy, hs, Option.elim_some]
  rw [h'.r_eq, h.r_eq, dist_add_mod _ hlen]
  refine h.contents_eq (p := []) (q := pend ++ line) ?_ ?_
  · simp
  · simp

/-- What a step does to the two lists: what is committed is added to
`pend`, what is consumed is taken from it. -/
structure Moves (x : State T × Act T) (pend pend' : List UInt8) : Prop where
  flow : pend ++ committedBy x = consumedBy x ++ pend'
  returned : (returnedBy x).getD [] = (consumedBy x).filter (· ≠ ctrlD)
  ctrlD : ctrlD ∈ consumedBy x → returnedBy x = some [] ∧ consumedBy x = [ctrlD]

/-- Every call of `console_read` asks for a character, and has none while
it waits. -/
def Fresh (st : State T) : Prop := ∀ t rd, st.reader t = some rd → rd.dst = [] ∧ 1 ≤ rd.n

/-- A step that leaves the ring alone. -/
theorem Moves.still (hs : st.step a = some st') (h : Rep st.input R pend line)
    (hinput : st'.input = st.input) (hret : returnedBy (st, a) = none) :
    Moves (st, a) pend pend := by
  have h' : Rep st'.input R pend line := hinput ▸ h
  have hcom : committedBy (st, a) = [] := committedBy_eq (p := pend) (l := []) hs h h' rfl (by simp)
  have hcon : consumedBy (st, a) = [] := consumedBy_eq (l := []) hs h h'
  exact ⟨by simp [hcom, hcon], by simp [hcon, hret], by simp [hcon]⟩

theorem Fresh.setReader (h : Fresh st) {t : T} {rd : Option Reader}
    (hrd : ∀ r, rd = some r → r.dst = [] ∧ 1 ≤ r.n) : Fresh (st.setReader t rd) := by
  intro t' rd' ht'
  by_cases ht : t' = t
  · subst ht
    exact hrd rd' (by simpa [State.setReader] using ht')
  · exact h t' rd' (by simpa [State.setReader, ht] using ht')

/-- The input and the readers after a character. -/
theorem intr_effect {cur : Option T} (hs : st.intr c cur = some st') :
    st'.input = st.input.consoleIntr c ∧ st'.reader = st.reader := by
  unfold State.intr at hs
  split_ifs at hs
  · obtain ⟨x, -, rfl⟩ := Option.map_eq_some_iff.1 hs
    exact ⟨rfl, rfl⟩
  · obtain rfl := Option.some.inj hs
    cases cur <;> exact ⟨rfl, rfl⟩
  · obtain rfl := Option.some.inj hs
    exact ⟨rfl, rfl⟩

section

variable (h : Rep st.input R pend line) (hends : Ends pend) (hfresh : Fresh st)

include h hends hfresh

/-- A step of a reader. -/
theorem run_step {t : T} {rd : Reader} (hrd : st.reader t = some rd) (hs : st.run t rd = some st') :
    ∃ R' pend', Rep st'.input R' pend' line ∧ Ends pend' ∧ Fresh st' ∧
      Moves (st, .run t) pend pend' := by
  have hstep : st.step (.run t) = some st' := by simp [State.step, hrd, hs]
  obtain ⟨n, dst, asleep⟩ := rd
  obtain ⟨hdst, hn⟩ := hfresh t _ hrd
  obtain rfl : dst = [] := hdst
  unfold State.run at hs
  cases asleep with
  | true =>
    have hret : returnedBy (st, .run t) = none := by simp [returnedBy, hrd]
    simp only [if_true] at hs
    split_ifs at hs
    · obtain ⟨sem, -, rfl⟩ := Option.map_eq_some_iff.1 hs
      refine ⟨R, pend, h, hends, Fresh.setReader ?_ (by simp), Moves.still hstep h rfl hret⟩
      exact hfresh
    · obtain rfl := Option.some.inj hs
      refine ⟨R, pend, h, hends, hfresh.setReader ?_, Moves.still hstep h rfl hret⟩
      rintro r hr
      obtain rfl := Option.some.inj hr
      exact ⟨rfl, hn⟩
  | false =>
    simp only [Bool.false_eq_true, if_false, List.length_nil, Nat.sub_zero] at hs
    obtain ⟨hleave, hwait⟩ := @readLoop_spec _ R n pend line [] h hends
    cases hloop : readLoop n st.input [] with
    | wait inp dst' =>
      obtain ⟨rfl, rfl, rfl⟩ := hwait inp dst' hloop
      rw [hloop] at hs
      obtain rfl := Option.some.inj hs
      refine ⟨R, [], h, hends, ?_, Moves.still hstep h rfl (by simp [returnedBy, hrd, hloop])⟩
      refine Fresh.setReader ?_ ?_
      · exact hfresh
      rintro r hr
      obtain rfl := Option.some.inj hr
      exact ⟨rfl, hn⟩
    | leave inp dst' =>
      obtain ⟨l, rest, rfl, hd, hl, hrep, hshort⟩ := hleave inp dst' hloop
      obtain rfl : dst' = l := hd
      have hret : returnedBy (st, .run t) = some dst' := by simp [returnedBy, hrd, hloop]
      rw [hloop] at hs
      obtain rfl := Option.some.inj hs
      have hfresh' : Fresh ({ st with input := inp.finish dst' }.setReader t none) :=
        Fresh.setReader (by exact hfresh) (by simp)
      by_cases hnil : dst' = []
      · -- nothing is read: the read stopped in front of a `C('D')` and takes it
        subst hnil
        obtain ⟨rest', rfl⟩ : ∃ rest', rest = ctrlD :: rest' := by
          rcases hshort rfl with h0 | hhead
          · exact absurd h0 (Nat.one_le_iff_ne_zero.1 hn)
          · exact List.head?_eq_some_iff.1 hhead
        have hrep' : Rep (inp.finish []) (R + 1) rest' line := hrep.finish_nil
        have hcon : consumedBy (st, .run t) = [ctrlD] := consumedBy_eq hstep h hrep'
        have hcom : committedBy (st, .run t) = [] :=
          committedBy_eq (p := rest') (l := []) hstep h hrep' (by simp; omega) (by simp)
        refine ⟨R + 1, rest', hrep', hends.tail, hfresh', ?_, ?_, ?_⟩
        · simp [hcon, hcom]
        · simp [hcon, hret]
        · intro _
          exact ⟨hret, hcon⟩
      · have hrep' : Rep (inp.finish dst') (R + dst'.length) rest line := by
          rw [finish_of_ne_nil hnil]
          exact hrep
        have hcon : consumedBy (st, .run t) = dst' := consumedBy_eq hstep h hrep'
        have hcom : committedBy (st, .run t) = [] :=
          committedBy_eq (p := rest) (l := []) hstep h hrep' (by simp; omega) (by simp)
        refine ⟨_, rest, hrep', hends.suffix, hfresh', ?_, ?_, ?_⟩
        · simp [hcon, hcom]
        · rw [hcon, hret, Option.getD_some, List.filter_eq_self.2]
          intro c hc
          simp only [ne_eq, decide_eq_true_eq]
          rintro rfl
          exact hl hc
        · intro hmem
          rw [hcon] at hmem
          exact absurd hmem hl

/-- A step of the interrupt handler. -/
theorem intr_step {cur : Option T} (hs : st.intr c cur = some st') :
    Rep st'.input R (pend ++ (edit st.input.full c line).1) (edit st.input.full c line).2 ∧
      Ends (pend ++ (edit st.input.full c line).1) ∧ Fresh st' ∧
      committedBy (st, .intr c cur) = (edit st.input.full c line).1 ∧
      Moves (st, .intr c cur) pend (pend ++ (edit st.input.full c line).1) := by
  obtain ⟨hin, hrd⟩ := intr_effect hs
  have hrep : Rep st'.input R (pend ++ (edit st.input.full c line).1)
      (edit st.input.full c line).2 := by
    rw [hin]
    exact h.consoleIntr c
  have hcom : committedBy (st, .intr c cur) = (edit st.input.full c line).1 :=
    committedBy_eq (p := pend) hs h hrep rfl rfl
  have hcon : consumedBy (st, .intr c cur) = [] := consumedBy_eq (l := []) hs h hrep
  refine ⟨hrep, hends.edit _ c line, ?_, hcom, ?_, ?_, ?_⟩
  · unfold Fresh
    rw [hrd]
    exact hfresh
  · rw [hcom, hcon]
    rfl
  · simp [hcon, returnedBy]
  · simp [hcon]

section

omit h hends hfresh

/-- A call of `console_read` asks for at least one character. -/
def Asks : Act T → Prop
  | .call _ n => 1 ≤ n
  | _ => True

/-- The line being edited after a step. -/
def lineAfter (st : State T) (line : List UInt8) : Act T → List UInt8
  | .intr c _ => (edit st.input.full c line).2
  | _ => line

end

/-- **Every step moves the two lists in order.** -/
theorem step_moves (hn : Asks a) (hs : st.step a = some st') :
    ∃ R' pend', Rep st'.input R' pend' (lineAfter st line a) ∧ Ends pend' ∧ Fresh st' ∧
      Moves (st, a) pend pend' := by
  cases a with
  | intr c cur =>
    obtain ⟨hrep, hends', hfresh', -, hm⟩ := intr_step h hends hfresh hs
    exact ⟨R, _, hrep, hends', hfresh', hm⟩
  | call t n =>
    have hs' := hs
    simp only [State.step, Option.ite_none_right_eq_some, Option.some.injEq] at hs'
    obtain ⟨-, rfl⟩ := hs'
    refine ⟨R, pend, h, hends, hfresh.setReader ?_, Moves.still hs h rfl rfl⟩
    rintro r hr
    obtain rfl := Option.some.inj hr
    exact ⟨rfl, hn⟩
  | run t =>
    obtain ⟨rd, hrd, hs⟩ := Option.bind_eq_some_iff.1 hs
    exact run_step h hends hfresh hrd hs
  | kill t =>
    have hs' := hs
    obtain rfl := Option.some.inj hs'
    exact ⟨R, pend, h, hends, hfresh, Moves.still hs h rfl rfl⟩

end

variable {tr : List (State T × Act T)}

/-- **What a run has done so far**: the consumed characters and then the
pending ones are the committed ones, and the reads have returned the
consumed ones without `C('D')`. -/
theorem flow_of_run (hrun : Run State.step State.init tr st) (hn : ∀ x ∈ tr, Asks x.2) :
    ∃ R pend line, Rep st.input R pend line ∧ Ends pend ∧ Fresh st ∧
      committed tr = consumed tr ++ pend ∧
      returned tr = (consumed tr).filter (· ≠ ctrlD) := by
  refine hrun.traceInvariantOf (K := fun _ a => Asks a) (I := fun tr st => ∃ R pend line,
    Rep st.input R pend line ∧ Ends pend ∧ Fresh st ∧ committed tr = consumed tr ++ pend ∧
    returned tr = (consumed tr).filter (· ≠ ctrlD)) hn ?_ ?_
  · exact ⟨0, [], [], ⟨rfl, rfl, rfl, by simp, rfl⟩, ends_nil, by simp [Fresh, State.init], rfl, rfl⟩
  · rintro tr st a st' ⟨R, pend, line, hrep, hends, hfresh, hcom, hret⟩ hn hs
    obtain ⟨R', pend', hrep', hends', hfresh', hm⟩ := step_moves hrep hends hfresh hn hs
    refine ⟨R', pend', _, hrep', hends', hfresh', ?_, ?_⟩
    · simp only [committed, consumed, List.flatMap_append, List.flatMap_cons, List.flatMap_nil,
        List.append_nil, List.append_assoc] at hcom ⊢
      rw [← hm.flow, hcom, List.append_assoc]
    · simp only [returned, consumed, List.flatMap_append, List.flatMap_cons, List.flatMap_nil,
        List.append_nil, List.filter_append] at hret ⊢
      rw [hret, hm.returned]

/-- **Console input is delivered line by line without loss.** The indexes
keep their order, the interrupt handler edits only the characters that are
not committed, the reads return a prefix of the committed characters with
every `C('D')` left out, and a `C('D')` is consumed, by itself, only by a
read that returns no characters. -/
theorem console_lines (hrun : Run State.step State.init tr st) (hn : ∀ x ∈ tr, Asks x.2) :
    (Input.dist st.input.r st.input.w ≤ Input.dist st.input.r st.input.e ∧
      Input.dist st.input.r st.input.e ≤ inputBuf) ∧
    (∀ x ∈ tr, ∀ c cur st', x.2 = .intr c cur → x.1.step x.2 = some st' →
      st'.input.pending = x.1.input.pending ++ committedBy x ∧
      (committedBy x, st'.input.edited) = edit x.1.input.full c x.1.input.edited) ∧
    committed tr = consumed tr ++ st.input.pending ∧
    returned tr <+: (committed tr).filter (· ≠ ctrlD) ∧
    ∀ x ∈ tr, ctrlD ∈ consumedBy x → returnedBy x = some [] ∧ consumedBy x = [ctrlD] := by
  obtain ⟨R, pend, line, hrep, -, -, hcom, hret⟩ := flow_of_run hrun hn
  -- the same at every state of the trace
  have hbefore : ∀ x ∈ tr, ∃ R pend line, Rep x.1.input R pend line ∧ Ends pend ∧ Fresh x.1 ∧
      ∃ st', x.1.step x.2 = some st' := by
    intro x hx
    obtain ⟨tr', st', hrun', hs, hpre⟩ := hrun.of_mem hx
    obtain ⟨R, pend, line, hrep, hends, hfresh, -⟩ :=
      flow_of_run hrun' fun y hy => hn y (hpre.subset hy)
    exact ⟨R, pend, line, hrep, hends, hfresh, st', hs⟩
  refine ⟨?_, ?_, ?_, ?_, ?_⟩
  · obtain ⟨hrw, -, hre⟩ := hrep.dist_eq
    rw [hrw, hre]
    exact ⟨Nat.le_add_right _ _, hrep.fits⟩
  · rintro ⟨st₀, a⟩ hx c cur st' rfl hs
    obtain ⟨R, pend, line, hrep, hends, hfresh, -⟩ := hbefore _ hx
    obtain ⟨hrep', -, -, hcommit, -⟩ := intr_step hrep hends hfresh hs
    rw [hrep'.pending_eq, hrep'.edited_eq, hrep.pending_eq, hrep.edited_eq, hcommit]
    exact ⟨rfl, rfl⟩
  · rw [hrep.pending_eq]
    exact hcom
  · rw [hret, hcom, List.filter_append]
    exact List.prefix_append _ _
  · rintro ⟨st₀, a⟩ hx
    obtain ⟨R, pend, line, hrep, hends, hfresh, st', hs⟩ := hbefore _ hx
    obtain ⟨_, _, -, -, -, hm⟩ := step_moves hrep hends hfresh (hn _ hx) hs
    exact hm.ctrlD

end Steps

/-- A reader waits; a line with a backspace is typed, and a `C('D')`; then
two reads of two characters, a third one of the rest, and one that takes
the `C('D')`. -/
def twoLines : List (Act ℕ) :=
  [.call 0 2, .run 0, .intr 97 none, .intr 98 none, .intr 127 none, .intr 99 none, .intr 13 none,
    .intr 100 none, .intr 4 none, .run 0, .run 0, .call 1 5, .run 1, .call 0 5, .run 0, .call 0 1,
    .run 0]

theorem console_lines_twoLines :
    ∃ st : State ℕ, exec State.step State.init twoLines = some st ∧
      returned (execTrace State.step (State.init : State ℕ) twoLines) = [97, 99, 10, 100] ∧
      returned (execTrace State.step (State.init : State ℕ) twoLines) <+:
        (committed (execTrace State.step (State.init : State ℕ) twoLines)).filter (· ≠ ctrlD) := by
  have hsome : (exec State.step (State.init : State ℕ) twoLines).isSome = true := by decide +kernel
  obtain ⟨st, hst⟩ := Option.isSome_iff_exists.1 hsome
  have hn : ∀ a ∈ twoLines, Asks a := by
    simp [twoLines, Asks]
  exact ⟨st, hst, by decide +kernel,
    (console_lines (Run.of_exec hst) (forall_execTrace hst hn)).2.2.2.1⟩

/-! ## A full ring -/

section Full

variable {T : Type} [DecidableEq T] {st st' : State T} {a : Act T} {tr : List (State T × Act T)}

/-- `input.read` between two steps: unlocked, without units to spare. -/
def Waits (sem : Semaphore T) : Prop := sem.Wf ∧ sem.val ≤ 0 ∧ sem.lock = none

/-- Every step keeps the semaphore. -/
theorem Waits.step (h : Waits st.read) (hs : st.step a = some st') : Waits st'.read := by
  obtain ⟨hwf, hval, hlock⟩ := h
  cases a with
  | intr c cur =>
    simp only [State.step, State.intr] at hs
    split_ifs at hs
    · rw [Semaphore.postAllSem_eq hwf hval hlock] at hs
      obtain rfl := Option.some.inj hs
      exact ⟨Semaphore.wf_initSem le_rfl, le_rfl, rfl⟩
    · obtain rfl := Option.some.inj hs
      cases cur <;> exact ⟨hwf, hval, hlock⟩
    · obtain rfl := Option.some.inj hs
      exact ⟨hwf, hval, hlock⟩
  | call t n =>
    obtain ⟨-, rfl⟩ := of_guard hs
    exact ⟨hwf, hval, hlock⟩
  | run t =>
    obtain ⟨rd, -, hs⟩ := Option.bind_eq_some_iff.1 hs
    unfold State.run at hs
    split_ifs at hs with hsleep hmem hkilled
    · obtain ⟨sem, hsem, rfl⟩ := Option.map_eq_some_iff.1 hs
      obtain ⟨hle, rfl⟩ := of_guard hsem
      refine ⟨?_, hle, hlock⟩
      have hpos := List.length_pos_of_mem hmem
      simp only [Semaphore.Wf, State.setReader, List.length_erase_of_mem hmem] at hwf ⊢
      omega
    · obtain rfl := Option.some.inj hs
      exact ⟨hwf, hval, hlock⟩
    · split at hs
      · obtain rfl := Option.some.inj hs
        exact ⟨hwf, hval, hlock⟩
      · obtain rfl := Option.some.inj hs
        have hneg : ¬(0 ≤ st.read.val - 1) := by omega
        refine ⟨Semaphore.wf_waitSem hwf, ?_, ?_⟩ <;>
          simp only [State.wait, State.setReader, Semaphore.waitSem, if_neg hneg]
        omega
  | kill t =>
    obtain rfl := Option.some.inj hs
    exact ⟨hwf, hval, hlock⟩

/-- How much of a line is typed after a character, by the characters alone: an
erasing character takes one back, and a line end or `C('U')` all of them. -/
def typedLine (n : ℕ) : Act T → ℕ
  | .intr c _ =>
    if c = 127 || c = 8 then n - 1
    else if c = ctrlU then 0
    else if c = ctrlC then n
    else if endsLine (crToNl c) then 0
    else n + 1
  | _ => n

/-- What has been typed since the last line end. -/
def typed (tr : List (State T × Act T)) : ℕ := tr.foldl (fun n x => typedLine n x.2) 0

/-- A line end is typed while there is room for it. -/
def EndsInRoom (st : State T) : Act T → Prop
  | .intr c _ => endsLine (crToNl c) = true → st.input.full = false
  | _ => True

omit [DecidableEq T] in
/-- The line being edited is no longer than what is typed of it. -/
theorem lineAfter_length_le {n : ℕ} {line : List UInt8} (hroom : EndsInRoom st a)
    (hle : line.length ≤ n) : (lineAfter st line a).length ≤ typedLine n a := by
  cases a with
  | intr c cur =>
    simp only [lineAfter, typedLine, edit]
    split_ifs with _ _ _ hfull hend
    · rw [List.length_dropLast]
      omega
    · exact Nat.zero_le _
    · exact hle
    · rw [hroom hend] at hfull
      cases hfull
    · exact hle.trans (Nat.le_succ n)
    · exact Nat.zero_le _
    · rw [List.length_append]
      exact Nat.add_le_add_right hle 1
  | call | run | kill => exact hle

/-- **The console can always accept a line end**, if fewer characters than the
ring has are typed from one line end to the next, and no line end is typed into
a full ring. Then no state has the ring full with nothing to read; and with
nothing to read a newline makes the line available, and wakes every reader. -/
theorem console_accepts_line_end (hrun : Run State.step State.init tr st)
    (hn : ∀ x ∈ tr, Asks x.2) (hends : ∀ x ∈ tr, EndsInRoom x.1 x.2)
    (hshort : typed tr < inputBuf) :
    ¬(st.input.full = true ∧ st.input.r = st.input.w) ∧
    (st.input.r = st.input.w → ∀ c cur, crToNl c = newline → ∃ st',
      st.step (.intr c cur) = some st' ∧ st'.input.pending = st.input.edited ++ [newline] ∧
      st'.read.sleeplist = []) := by
  obtain ⟨R, pend, line, hrep, hends, hfresh, hlen, hsem⟩ : ∃ R pend line,
      Rep st.input R pend line ∧ Ends pend ∧ Fresh st ∧ line.length ≤ typed tr ∧ Waits st.read := by
    refine hrun.traceInvariantOf (K := fun st a => Asks a ∧ EndsInRoom st a)
      (I := fun tr st => ∃ R pend line, Rep st.input R pend line ∧ Ends pend ∧ Fresh st ∧
        line.length ≤ typed tr ∧ Waits st.read) (fun x hx => ⟨hn x hx, hends x hx⟩) ?_ ?_
    · exact ⟨0, [], [], ⟨rfl, rfl, rfl, by simp, rfl⟩, ends_nil, by simp [Fresh, State.init],
        by simp, Semaphore.wf_initSem le_rfl, le_rfl, rfl⟩
    · rintro tr st a st' ⟨R, pend, line, hrep, hends, hfresh, hlen, hsem⟩ ⟨hasks, hroom⟩ hs
      obtain ⟨R', pend', hrep', hends', hfresh', -⟩ := step_moves hrep hends hfresh hasks hs
      refine ⟨R', pend', _, hrep', hends', hfresh', ?_, hsem.step hs⟩
      rw [typed, List.foldl_append]
      exact lineAfter_length_le hroom hlen
  have hroom : st.input.r = st.input.w → st.input.full = false := by
    intro hrw
    obtain rfl := hrep.r_eq_w_iff.1 hrw
    refine eq_false_of_ne_true fun hfull => ?_
    have := hrep.full_iff.1 hfull
    simp only [List.length_nil] at this
    omega
  refine ⟨fun ⟨hfull, hrw⟩ => ?_, fun hrw c cur hc => ?_⟩
  · rw [hroom hrw] at hfull
    cases hfull
  · have hfull := hroom hrw
    obtain rfl := hrep.r_eq_w_iff.1 hrw
    have hchar : c = newline ∨ c = carriageReturn := by
      unfold crToNl at hc
      split_ifs at hc with hcr
      · exact Or.inr hcr
      · exact Or.inl hc
    have hedit : edit st.input.full c line = (line ++ [newline], []) := by
      rw [hfull]
      rcases hchar with rfl | rfl <;> rfl
    have hstep : st.step (.intr c cur) =
        some { st with input := st.input.consoleIntr c, read := ⟨none, 0, []⟩ } := by
      have hcommits : st.input.commits c = true := by
        rw [commits, hfull]
        rcases hchar with rfl | rfl <;> rfl
      have hff : c ≠ 0xff := by rcases hchar with rfl | rfl <;> decide
      rw [State.step, State.intr, if_neg hff, if_pos hcommits,
        Semaphore.postAllSem_eq hsem.1 hsem.2.1 hsem.2.2]
      rfl
    obtain ⟨hrep', -⟩ := intr_step hrep hends hfresh hstep
    rw [hedit] at hrep'
    exact ⟨_, hstep, by rw [hrep'.pending_eq, hrep.edited_eq]; rfl, rfl⟩

/-- A line is typed and read, and the reader sleeps while the next one is typed,
with a character erased. -/
def secondLine : List (Act ℕ) :=
  [.call 0 2, .run 0, .intr 97 none, .intr newline none, .run 0, .run 0, .call 0 2, .run 0,
    .intr 98 none, .intr 99 none, .intr 127 none]

/-- The newline wakes the reader. -/
theorem console_accepts_line_end_woken : ∃ st st' : State ℕ,
    exec State.step State.init secondLine = some st ∧ st.read.sleeplist = [0] ∧
    st.step (.intr newline none) = some st' ∧
    st'.input.pending = st.input.edited ++ [newline] ∧ st'.read.sleeplist = [] := by
  have hkey : (exec State.step (State.init : State ℕ) secondLine).map
      (fun st => (st.read.sleeplist, decide (st.input.r = st.input.w))) = some ([0], true) := by
    decide +kernel
  have hroom : (execTrace State.step (State.init : State ℕ) secondLine).all
      (fun x => !x.1.input.full) = true := by decide +kernel
  obtain ⟨st, hst, heq⟩ := Option.map_eq_some_iff.1 hkey
  obtain ⟨hlist, hrw⟩ : st.read.sleeplist = [0] ∧ st.input.r = st.input.w := by simpa using heq
  have hends : ∀ x ∈ execTrace State.step (State.init : State ℕ) secondLine,
      EndsInRoom x.1 x.2 := by
    rintro ⟨st, a⟩ hx
    have hfull := List.all_eq_true.1 hroom _ hx
    cases a with
    | intr c cur => exact fun _ => by simpa using hfull
    | call | run | kill => trivial
  obtain ⟨st', hs, hpend, hsleep⟩ := (console_accepts_line_end (Run.of_exec hst)
    (forall_execTrace hst (by simp [secondLine, Asks])) hends (by decide +kernel)).2 hrw
      newline none rfl
  exact ⟨st, st', hst, hlist, hs, hpend, hsleep⟩

/-- **A line as long as the ring shuts the console**: after 128 characters the
ring is full with nothing to read, and the newline is dropped. -/
theorem console_shut : ∃ st : State ℕ,
    exec State.step State.init (List.replicate 128 (.intr 97 none) ++ [.intr newline none]) =
      some st ∧ st.input.full = true ∧ st.input.r = st.input.w := by
  have hkey : (exec State.step (State.init : State ℕ)
      (List.replicate 128 (.intr 97 none) ++ [.intr newline none])).map
      (fun st => (st.input.full, decide (st.input.r = st.input.w))) = some (true, true) := by
    decide +kernel
  obtain ⟨st, hst, heq⟩ := Option.map_eq_some_iff.1 hkey
  exact ⟨st, hst, by simpa using heq⟩

end Full

end OsKernel.Console
