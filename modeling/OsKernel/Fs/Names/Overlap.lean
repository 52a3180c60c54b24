import OsKernel.Fs.Names.Effects

/-!
# Which calls overlap

A call that creates or removes is a writer, from `nameiparent` on up to its last
`inode_put`. `WritersAlone` keeps writers apart from every other call, and lets
the others overlap; `OneAtATime` keeps all calls apart. The first is a condition
on when calls begin; what a step of a call may then rely on is `Apart`
(`Alone.apart`, `Alone.step`).
-/

namespace OsKernel.Fs

open Function

/-- A call that creates or removes is under way, up to its last `inode_put`. -/
def Stage.writing : Stage → Bool
  | .idle | .reached _ _ | .enter _ | .drop _ => false
  | .walk c _ _ | .next c _ _ _ _ | .fetch c _ _ _ => c.wantsParent
  | _ => true

theorem Stage.writing_of_window {st : Stage} {n : ℕ} (h : st.window = some n) :
    st.writing = true := by
  cases st <;> first | rfl | cases h

theorem Stage.writing_of_claim {st : Stage} {d n off : ℕ} (h : st.claim = some (d, n, off)) :
    st.writing = true := by
  cases st <;> first | rfl | cases h

theorem Stage.writing_of_pending {st : Stage} {n : ℕ} (h : st.pending = some n) :
    st.writing = true := by
  cases st <;> first | rfl | cases h

theorem Task.finish_writing (x : Task) (c : Call) (n : ℕ) (fd : Bool) :
    (x.finish c n fd).stage.writing = false := by
  cases c <;> cases fd <;> rfl

theorem Task.writing_of_look {P : Type*} {f f' : Volume P} {x x' : Task} {c : Call} {cur : ℕ}
    {name : Name} {rest : List UInt8} {i : Ino} (h : look f x c cur name rest i = (f', x'))
    (hw : x'.stage.writing = true) : c.wantsParent = true := by
  unfold look at h
  split_ifs at h with htype hlast
  · obtain ⟨-, rfl⟩ := Prod.mk.inj h
    cases hw
  · exact hlast.1
  · cases hfind : i.slots.find name with
    | none =>
      rw [hfind] at h
      obtain ⟨-, rfl⟩ := Prod.mk.inj h
      cases hw
    | some r =>
      rw [hfind] at h
      obtain ⟨-, rfl⟩ := Prod.mk.inj h
      exact hw

/-- A call is one that creates or removes from its beginning on. -/
theorem Task.writing_of_go {P : Type*} [DecidableEq P] {f f' : Volume P} {p : P} {x x' : Task}
    {fd : Bool} (h : Task.go f p x fd = some (f', x')) (hw : x'.stage.writing = true) :
    x.stage.writing = true := by
  unfold go at h
  cases hst : x.stage with
  | idle =>
    rw [hst] at h
    cases h
  | walk c cur path =>
    rw [hst] at h
    cases hskip : skipelem path with
    | none =>
      simp only [hskip] at h
      obtain ⟨-, rfl⟩ := pair_inj h
      cases hw
    | some r =>
      simp only [hskip] at h
      obtain ⟨-, i, -, hk⟩ := locked_eq_some h
      exact writing_of_look (Option.some.inj hk) hw
  | next | enter | drop =>
    rw [hst] at h
    obtain ⟨-, rfl⟩ := pair_inj h
    exact hw
  | fetch =>
    rw [hst] at h
    obtain ⟨f₁, -, hfx⟩ := Option.map_eq_some_iff.1 h
    obtain ⟨-, rfl⟩ := Prod.mk.inj hfx
    exact hw
  | reached c cur =>
    rw [hst] at h
    obtain ⟨-, i, -, hk⟩ := locked_eq_some h
    split_ifs at hk
    · obtain ⟨-, rfl⟩ := pair_inj hk
      cases hw
    · obtain ⟨-, rfl⟩ := pair_inj hk
      cases hw
    · obtain ⟨-, rfl⟩ := pair_inj hk
      rw [finish_writing] at hw
      cases hw
  | _ => rfl

namespace NameSys

variable {P : Type*} [DecidableEq P] {s s' : NameSys P} {p q : P} {a : NameAct P}

/-- A call begins when no other is under way. -/
def OneAtATime (s : NameSys P) : NameAct P → Prop
  | .go _ _ => True
  | .call _ _ _ | .close _ _ => ∀ q, (s.task q).stage = .idle

/-- A call that creates or removes begins when no other is under way, and no call
begins while such a one is. -/
def WritersAlone (s : NameSys P) : NameAct P → Prop
  | .go _ _ => True
  | .call _ c _ => (∀ q, (s.task q).stage.writing = false) ∧
      (c.wantsParent = true → ∀ q, (s.task q).stage = .idle)
  | .close _ _ => ∀ q, (s.task q).stage.writing = false

/-- While a call creates or removes, the others wait. -/
def Alone (s : NameSys P) : Prop :=
  ∀ p q, q ≠ p → (s.task p).stage.writing = true → (s.task q).stage = .idle

/-- What a step of `p` may rely on. -/
structure Apart (s : NameSys P) (p : P) : Prop where
  quiet : ∀ q, q ≠ p → (s.task q).stage.writing = false
  idle : (s.task p).stage.writing = true → ∀ q, q ≠ p → (s.task q).stage = .idle

/-- Who acts is not idle, or begins a call. -/
theorem idle_of_step (hs : s.step a = some s') (hidle : (s.task (actor a)).stage = .idle) :
    ∀ p fd, a ≠ .go p fd := by
  rintro p fd rfl
  obtain ⟨r, hr, -⟩ := Option.map_eq_some_iff.1 hs
  have hidle : (s.task p).stage = .idle := hidle
  simp only [act, actor, Task.go, hidle] at hr
  cases hr

omit [DecidableEq P] in
theorem WritersAlone.quiet (h : WritersAlone s a) (ha : ∀ p fd, a ≠ .go p fd) (q : P) :
    (s.task q).stage.writing = false := by
  cases a with
  | go p fd => exact absurd rfl (ha p fd)
  | close => exact h q
  | call => exact h.1 q

omit [DecidableEq P] in
theorem OneAtATime.writersAlone (h : OneAtATime s a) : WritersAlone s a := by
  have hquiet : (∀ q, (s.task q).stage = .idle) → ∀ q, (s.task q).stage.writing = false :=
    fun h q => by rw [h q]; rfl
  cases a with
  | go => trivial
  | close => exact hquiet h
  | call => exact ⟨hquiet h, fun _ => h⟩

theorem Alone.apart (h : Alone s) (hok : WritersAlone s a) (hs : s.step a = some s') :
    Apart s (actor a) := by
  refine ⟨fun q hq => Bool.eq_false_iff.2 fun hw => ?_, fun hw q hq => h _ q hq hw⟩
  have hidle := h q (actor a) (Ne.symm hq) hw
  rw [hok.quiet (idle_of_step hs hidle) q] at hw
  cases hw

theorem Alone.step (h : Alone s) (hok : WritersAlone s a) (hs : s.step a = some s') :
    Alone s' := by
  have hapart := h.apart hok hs
  obtain ⟨⟨f', x'⟩, hact, rfl⟩ := Option.map_eq_some_iff.1 hs
  -- who creates or removes after the step has done so before, or begins
  have hidle : x'.stage.writing = true → ∀ q, q ≠ actor a → (s.task q).stage = .idle := by
    intro hw
    cases a with
    | go p fd => exact hapart.idle (Task.writing_of_go hact hw)
    | close p n =>
      obtain ⟨-, hact⟩ := of_guarded hact
      obtain ⟨-, rfl⟩ := pair_inj hact
      cases hw
    | call p c path =>
      obtain ⟨hst, hact⟩ := of_guarded hact
      have hact := Option.some.inj hact
      unfold Task.begin at hact
      simp only at hact
      generalize (if path.head? = some slash then rootIno else _) = n at hact
      split_ifs at hact
      · obtain ⟨-, rfl⟩ := Prod.mk.inj hact
        rw [hst] at hw
        cases hw
      · obtain ⟨-, rfl⟩ := Prod.mk.inj hact
        exact fun q _ => hok.2 hw q
  intro q₁ q₂ hne hw
  change (update s.task (actor a) x' q₁).stage.writing = true at hw
  change (update s.task (actor a) x' q₂).stage = .idle
  by_cases hq₁ : q₁ = actor a
  · rw [hq₁] at hw hne
    rw [update_self] at hw
    rw [update_of_ne hne]
    exact hidle hw q₂ hne
  · rw [update_of_ne hq₁, hapart.quiet q₁ hq₁] at hw
    cases hw

omit [DecidableEq P] in
theorem Alone.init [Fintype P] (img : Image) : Alone (img.init : NameSys P) :=
  fun _ _ _ _ => rfl

instance [Fintype P] (s : NameSys P) (a : NameAct P) : Decidable (OneAtATime s a) :=
  match a with
  | .go _ _ => isTrue trivial
  | .call _ _ _ | .close _ _ => inferInstanceAs (Decidable (∀ q, (s.task q).stage = .idle))

instance [Fintype P] (s : NameSys P) (a : NameAct P) : Decidable (WritersAlone s a) :=
  match a with
  | .go _ _ => isTrue trivial
  | .call _ c _ => inferInstanceAs (Decidable ((∀ q, (s.task q).stage.writing = false) ∧
      (c.wantsParent = true → ∀ q, (s.task q).stage = .idle)))
  | .close _ _ => inferInstanceAs (Decidable (∀ q, (s.task q).stage.writing = false))

end NameSys

end OsKernel.Fs
