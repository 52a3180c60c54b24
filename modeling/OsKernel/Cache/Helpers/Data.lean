import OsKernel.Cache.Helpers.Control

/-!
# Helpers — the contents of disk, cache and log

`Data` relates the store of a running system to two maps: `cur`, the
content each block was last synced with, and `stab`, the content it would
recover to. The header lists the blocks whose synced content is not at
home yet (`pend`); these are pinned in the cache, every other block has
its content on disk, and how far a commit has come says what the logging
area holds. The invariant speaks of runs whose callers keep their
promises (`Disciplined`); one lemma shows each step to keep it.
-/

namespace OsKernel.Cache

open Function

/-! ## Stages of a commit -/

/-- How far the commit has come, if one runs. -/
inductive Stage where
  | idle
  | copying (i : ℕ)
  | installing (i : ℕ)
  | installed
deriving DecidableEq

/-- The stage at which a thread in this phase keeps the log. -/
def Phase.stage : Phase → Stage
  | .copying i => .copying i
  | .installing i => .installing i
  | .installed => .installed
  | _ => .idle

/-- The log is at stage `g`. -/
def Sys.AtStage (s : Sys) (g : Stage) : Prop :=
  (∀ c, (s.phase c).stage = .idle ∨ (s.phase c).stage = g) ∧
    (g = .idle ∨ ∃ c, (s.phase c).stage = g)

/-- The listed blocks that are not at home yet. -/
def pend (hd : LogHeader) : Stage → List ℕ
  | .installing i => hd.entries.drop i
  | _ => hd.entries

namespace Sys.AtStage

variable {sb : SuperBlock} {s t : Sys} {S : Finset ℕ} {c : ℕ} {g : Stage}

/-- The thread that commits determines the stage. -/
theorem eq_of_phase (h : s.AtStage g) (hp : (s.phase c).stage ≠ .idle) :
    g = (s.phase c).stage :=
  ((h.1 c).resolve_left hp).symm

/-- A thread that does not commit leaves the stage alone. -/
theorem congr (h : s.AtStage g) (hphase : ∀ c, (t.phase c).stage = (s.phase c).stage) :
    t.AtStage g := by
  simpa only [Sys.AtStage, hphase] using h

theorem stage_setPhase {p : Phase} (hp : p.stage = (s.phase c).stage) (c' : ℕ) :
    ((s.setPhase c p).phase c').stage = (s.phase c').stage := by
  by_cases hc : c' = c
  · rw [hc, setPhase_self, hp]
  · rw [setPhase_of_ne hc]

/-- The stage of a thread follows from its role. -/
theorem stage_of_quiet {p : Phase} (h : p.role.isCommit = false) : p.stage = .idle := by
  cases p <;> simp_all [Phase.role, Role.isCommit, Phase.stage]

/-- Where no other thread commits, the stage is that of the one thread. -/
theorem of_setPhase {p : Phase} (hother : ∀ c', c' ≠ c → (s.phase c').stage = .idle) :
    (s.setPhase c p).AtStage p.stage := by
  refine ⟨fun c' => ?_, Or.inr ⟨c, by rw [setPhase_self]⟩⟩
  by_cases hc : c' = c
  · rw [hc, setPhase_self]
    exact Or.inr rfl
  · rw [setPhase_of_ne hc]
    exact Or.inl (hother c' hc)

/-- Outside of a commit the log is idle. -/
theorem idle_of_running {rm : ℕ} (h : s.AtStage g) (hctl : Ctl sb s S)
    (hp : s.phase c = .running rm) : g = .idle := by
  rcases h.2 with hg | ⟨c', hc'⟩
  · exact hg
  · rw [← hc']
    exact stage_of_quiet ((hctl.free (hctl.not_committing hp)).1 c')

end Sys.AtStage

/-! ## The invariant -/

/-- The log on disk is empty, and the disk outside of it is stable. -/
def CleanLog (sb : SuperBlock) (d : Disk) (stab : ℕ → BlockData) : Prop :=
  (readHeader sb d).numBlocks = 0 ∧ ∀ n, ¬ sb.InLog n → stab n = d n

/-- What the logging area holds at each stage. Writing the header makes
the listed contents stable. -/
def OnDisk (sb : SuperBlock) (d : Disk) (hd : LogHeader) (cur stab : ℕ → BlockData) :
    Stage → Prop
  | .idle | .installed => CleanLog sb d stab
  | .copying i => CleanLog sb d stab ∧
      ∀ j < i, d (sb.logBlock j) = cur (hd.blockNo j)
  | .installing _ => (readHeader sb d).entries = hd.entries ∧
      (∀ j < hd.numBlocks, d (sb.logBlock j) = cur (hd.blockNo j)) ∧
      ∀ n, ¬ sb.InLog n → stab n = cur n

/-- **The contents of disk, cache and log** at stage `g`, where `u` are
the blocks modified and not yet synced. -/
structure Data (sb : SuperBlock) (st : Store) (hd : LogHeader) (u : ℕ → Bool) (g : Stage)
    (cur stab : ℕ → BlockData) : Prop where
  wf : st.Wf
  lt : ∀ n b, st.get n = some b → ¬ sb.InLog n → n < 2 ^ 64
  not_log : ∀ n ∈ hd.entries, ¬ sb.InLog n
  entry_lt : ∀ n ∈ hd.entries, n < 2 ^ 64
  /-- The pinned blocks are the pending ones. -/
  pinned : ∀ n b, st.get n = some b → b.pinned = true → n ∈ pend hd g
  cached : ∀ n ∈ pend hd g, ∃ b, st.get n = some b ∧ b.pinned = true
  /-- A cached block has its synced content, unless its holder is at work. -/
  clean : ∀ n b, st.get n = some b → ¬ sb.InLog n → u n = false → b.data = cur n
  home : ∀ n, ¬ sb.InLog n → n ∉ pend hd g → st.disk n = cur n
  /-- A cached log block has its content on disk. -/
  mirror : ∀ n b, st.get n = some b → sb.InLog n → n ≠ sb.logStart → u n = false →
    b.data = st.disk n
  held : ∀ n, u n = true → ∃ b, st.get n = some b ∧ b.acquired = true
  onDisk : OnDisk sb st.disk hd cur stab g

namespace Data

variable {sb : SuperBlock} {st st' : Store} {hd hd' : LogHeader} {u u' : ℕ → Bool} {g : Stage}
variable {cur stab : ℕ → BlockData} {n : ℕ} {b b' : Block}

/-- What `Data` says of one block. -/
structure BlockOk (sb : SuperBlock) (st : Store) (hd : LogHeader) (u : ℕ → Bool) (g : Stage)
    (cur : ℕ → BlockData) (n : ℕ) : Prop where
  lt : ∀ b, st.get n = some b → ¬ sb.InLog n → n < 2 ^ 64
  pinned : ∀ b, st.get n = some b → b.pinned = true → n ∈ pend hd g
  cached : n ∈ pend hd g → ∃ b, st.get n = some b ∧ b.pinned = true
  clean : ∀ b, st.get n = some b → ¬ sb.InLog n → u n = false → b.data = cur n
  home : ¬ sb.InLog n → n ∉ pend hd g → st.disk n = cur n
  mirror : ∀ b, st.get n = some b → sb.InLog n → n ≠ sb.logStart → u n = false →
    b.data = st.disk n
  held : u n = true → ∃ b, st.get n = some b ∧ b.acquired = true

/-- `Data`, block by block. -/
theorem of_blocks (hwf : st.Wf) (hlog : ∀ n ∈ hd.entries, ¬ sb.InLog n)
    (hlt : ∀ n ∈ hd.entries, n < 2 ^ 64) (hok : ∀ n, BlockOk sb st hd u g cur n)
    (hdisk : OnDisk sb st.disk hd cur stab g) : Data sb st hd u g cur stab :=
  ⟨hwf, fun n => (hok n).lt, hlog, hlt, fun n => (hok n).pinned, fun n => (hok n).cached,
    fun n => (hok n).clean, fun n => (hok n).home, fun n => (hok n).mirror, fun n => (hok n).held,
    hdisk⟩

/-- A cached block. -/
theorem BlockOk.of_get (hb : st.get n = some b) (hlt : ¬ sb.InLog n → n < 2 ^ 64)
    (hpin : b.pinned = true ↔ n ∈ pend hd g)
    (hclean : ¬ sb.InLog n → u n = false → b.data = cur n)
    (hhome : ¬ sb.InLog n → n ∉ pend hd g → st.disk n = cur n)
    (hmirror : sb.InLog n → n ≠ sb.logStart → u n = false → b.data = st.disk n)
    (hheld : u n = true → b.acquired = true) : BlockOk sb st hd u g cur n := by
  refine ⟨fun a ha => hlt, fun a ha => ?_, fun hn => ⟨b, hb, hpin.2 hn⟩, fun a ha => ?_, hhome,
    fun a ha => ?_, fun hu => ⟨b, hb, hheld hu⟩⟩ <;>
    obtain rfl := Option.mem_unique hb ha
  · exact hpin.1
  · exact hclean
  · exact hmirror

/-- A block that is as before, or gone and then was neither pinned nor held. -/
theorem BlockOk.kept {g' : Stage} {cur' : ℕ → BlockData} (h : BlockOk sb st hd u g cur n)
    (hkept : Kept st st' n) (hdisk : st'.disk n = st.disk n) (hu : u' n = u n)
    (hcur : cur' n = cur n) (hpend : n ∈ pend hd' g' ↔ n ∈ pend hd g) :
    BlockOk sb st' hd' u' g' cur' n := by
  constructor
  · exact fun b hb => h.lt b (hkept.get_of_some hb)
  · exact fun b hb hp => hpend.2 (h.pinned b (hkept.get_of_some hb) hp)
  · intro hn
    obtain ⟨b, hb, hp⟩ := h.cached (hpend.1 hn)
    exact ⟨b, hkept.get_of_held hb (Or.inl hp), hp⟩
  · rw [hu, hcur]
    exact fun b hb => h.clean b (hkept.get_of_some hb)
  · rw [hdisk, hcur, hpend]
    exact h.home
  · rw [hu, hdisk]
    exact fun b hb => h.mirror b (hkept.get_of_some hb)
  · rw [hu]
    intro hn
    obtain ⟨b, hb, hacq⟩ := h.held hn
    exact ⟨b, hkept.get_of_held hb (Or.inr hacq), hacq⟩

section

variable (h : Data sb st hd u g cur stab)

include h

theorem block (n : ℕ) : BlockOk sb st hd u g cur n :=
  ⟨h.lt n, h.pinned n, h.cached n, h.clean n, h.home n, h.mirror n, h.held n⟩

/-- A free block is not being worked on. -/
theorem synced_of_free (hfree : ∀ b, st.get n = some b → b.acquired = false) : u n = false := by
  by_contra hu
  obtain ⟨b, hb, ha⟩ := h.held n (by simpa using hu)
  rw [hfree b hb] at ha
  cases ha

/-- A block not cached is at home. -/
theorem not_pend (hn : st.get n = none) : n ∉ pend hd g := by
  intro hmem
  obtain ⟨b, hb, -⟩ := h.cached n hmem
  rw [hn] at hb
  cases hb

/-- **A step on one cached block** that leaves the disk alone. -/
theorem touch (hwf : st'.Wf) (hdisk : st'.disk = st.disk) (hother : ∀ m, m ≠ n → Kept st st' m)
    (hu : ∀ m, m ≠ n → u' m = u m) (hb' : st'.get n = some b') (hlt : ¬ sb.InLog n → n < 2 ^ 64)
    (hpin : b'.pinned = true ↔ n ∈ pend hd g)
    (hclean : ¬ sb.InLog n → u' n = false → b'.data = cur n)
    (hmirror : sb.InLog n → n ≠ sb.logStart → u' n = false → b'.data = st.disk n)
    (hheld : u' n = true → b'.acquired = true) : Data sb st' hd u' g cur stab := by
  refine of_blocks hwf h.not_log h.entry_lt (fun m => ?_) (hdisk ▸ h.onDisk)
  by_cases hm : m = n
  · subst hm
    exact .of_get hb' hlt hpin hclean (hdisk ▸ h.home m) (hdisk ▸ hmirror) hheld
  · exact (h.block m).kept (hother m hm) (by rw [hdisk]) (hu m hm) rfl Iff.rfl

theorem pinned_iff (hb : st.get n = some b) : b.pinned = true ↔ n ∈ pend hd g := by
  refine ⟨h.pinned n b hb, fun hn => ?_⟩
  obtain ⟨b', hb', hp⟩ := h.cached n hn
  obtain rfl := Option.mem_unique hb hb'
  exact hp

/-- `cache_acquire`. -/
theorem acquire (hn : n < 2 ^ 64) (hstep : cacheAcquire n st = some st') :
    Data sb st' hd u g cur stab := by
  have ha := acquired_of_cacheAcquire h.wf hstep
  have hun : u n = false := h.synced_of_free ha.free
  have hheld : u n = true → ∀ b : Block, b.acquired = true := by
    intro hu
    rw [hun] at hu
    cases hu
  cases hget : st.get n with
  | some b =>
    have hpin := h.pinned_iff hget
    exact h.touch ha.wf ha.disk ha.other (fun _ _ => rfl) (ha.hit b hget) (fun _ => hn)
      hpin (fun hl hu => h.clean n b hget hl hu)
      (fun hl hs hu => h.mirror n b hget hl hs hu) (fun hu => hheld hu _)
  | none =>
    have hnp := h.not_pend hget
    refine h.touch ha.wf ha.disk ha.other (fun _ _ => rfl) (ha.miss hget) (fun _ => hn)
      ⟨fun hp => absurd hp Bool.false_ne_true, fun hp => absurd hp hnp⟩ (fun hl _ => h.home n hl hnp)
      (fun _ _ _ => rfl) (fun hu => hheld hu _)

/-- The holder of a block writes to it. -/
theorem modify {d : BlockData} (hb : st.get n = some b) (hacq : b.acquired = true) :
    Data sb (st.modify n (Block.setData d)) hd (update u n true) g cur stab := by
  have hget : (st.modify n (Block.setData d)).get n = some (b.setData d) := by
    rw [Store.get_modify_self (Block.blockNo_setData d), hb, Option.map_some]
  have hun : update u n true n ≠ false := by simp
  have hpin := h.pinned_iff hb
  exact h.touch (Store.wf_modify (Block.blockNo_setData d) h.wf) rfl
    (fun m hm => Or.inl (Store.get_modify_of_ne (Block.blockNo_setData d) hm))
    (fun m hm => update_of_ne hm _ _) hget (fun hl => h.lt n b hb hl)
    hpin (fun _ hu => absurd hu hun) (fun _ _ hu => absurd hu hun) (fun _ => hacq)

/-- `cache_release` of a block that is synced. -/
theorem release (hb : st.get n = some b) (hu : u n = false) :
    Data sb (cacheRelease n st) hd u g cur stab := by
  have hget : (cacheRelease n st).get n = some (b.setAcquired false) := by
    rw [get_cacheRelease_self, hb, Option.map_some]
  have hpin := h.pinned_iff hb
  refine h.touch (wf_cacheRelease h.wf) rfl (fun m hm => Or.inl (get_cacheRelease_of_ne hm))
    (fun _ _ => rfl) hget (fun hl => h.lt n b hb hl) hpin
    (fun hl hu => h.clean n b hb hl hu) (fun hl hs hu => h.mirror n b hb hl hs hu) (fun hun => ?_)
  rw [hu] at hun
  cases hun

end

/-- `cache_sync` of block `n`: its content becomes the synced one, and
the block is listed and pinned, whether it was before or not. -/
theorem sync (h : Data sb st hd u .idle cur stab) (hn : ¬ sb.InLog n) (hb : st.get n = some b)
    (hwf : st'.Wf) (hdisk : st'.disk = st.disk) (hother : ∀ m, m ≠ n → st'.get m = st.get m)
    (hb' : st'.get n = some b') (hdata : b'.data = b.data) (hpin : b'.pinned = true)
    (hentries : ∀ m, m ∈ hd'.entries ↔ m ∈ hd.entries ∨ m = n) :
    Data sb st' hd' (update u n false) .idle (update cur n b.data) stab := by
  have hmem : ∀ m, m ∈ hd'.entries → m ∈ hd.entries ∨ m = n := fun m => (hentries m).1
  refine of_blocks hwf (fun m hm => ?_) (fun m hm => ?_) (fun m => ?_) (hdisk ▸ h.onDisk)
  · rcases hmem m hm with hm | rfl
    · exact h.not_log m hm
    · exact hn
  · rcases hmem m hm with hm | rfl
    · exact h.entry_lt m hm
    · exact h.lt m b hb hn
  · by_cases hmn : m = n
    · subst hmn
      have hpend : m ∈ pend hd' .idle := (hentries m).2 (Or.inr rfl)
      refine .of_get hb' (h.lt m b hb) (iff_of_true hpin hpend) (fun _ _ => ?_)
        (fun _ hm => absurd hpend hm) (fun hm => absurd hm hn) (by simp)
      rw [hdata, update_self]
    · exact (h.block m).kept (Or.inl (hother m hmn)) (by rw [hdisk]) (update_of_ne hmn _ _)
        (update_of_ne hmn _ _) ((hentries m).trans (or_iff_left hmn))

/-! ## The stretches of a commit -/

/-- The header fits the logging area. -/
structure Fits (sb : SuperBlock) (hd : LogHeader) : Prop where
  le_max : hd.numBlocks ≤ logMaxSize
  lt_log : hd.numBlocks < sb.numLogBlocks
  nodup : hd.entries.Nodup

theorem logBlock_ne {i : ℕ} (h : Data sb st hd u g cur stab) (hf : Fits sb hd)
    (hi : i < hd.numBlocks) : sb.logBlock i ≠ hd.blockNo i := by
  intro he
  have := hf.lt_log
  exact h.not_log _ (LogHeader.blockNo_mem hi) (he ▸ inLog_logBlock (by omega))

/-- Entry `i` is copied to its log block. -/
theorem copy {i : ℕ} (h : Data sb st hd u (.copying i) cur stab) (hf : Fits sb hd)
    (hi : i < hd.numBlocks) (hstep : copyToLog sb hd i st = some st') :
    Data sb st' hd u (.copying (i + 1)) cur stab := by
  have hne := h.logBlock_ne hf hi
  have hlog : sb.InLog (sb.logBlock i) := inLog_logBlock (by have := hf.lt_log; omega)
  have hhome := h.not_log _ (LogHeader.blockNo_mem hi)
  obtain ⟨b, hb, hpin⟩ := h.cached (hd.blockNo i) (LogHeader.blockNo_mem hi)
  obtain ⟨hdisk, hwf, hget, ⟨l, hl, -, hld, hlp⟩, hfree, hba, hkept⟩ :=
    copyToLog_spec h.wf hne hb hpin hstep
  have hcur : b.data = cur (hd.blockNo i) := by
    refine h.clean _ b hb hhome (h.synced_of_free fun b' hb' => ?_)
    obtain rfl := Option.mem_unique hb hb'
    exact hba
  have hnl : ∀ m, ¬ sb.InLog m → m ≠ sb.logBlock i := fun m hm he => hm (he ▸ hlog)
  refine of_blocks hwf h.not_log h.entry_lt (fun m => ?_) ?_
  · by_cases hmL : m = sb.logBlock i
    · subst hmL
      have hpend : sb.logBlock i ∉ hd.entries := fun hm => h.not_log _ hm hlog
      refine .of_get hl (absurd hlog) (iff_of_false (fun hp => ?_) hpend) (absurd hlog) (absurd hlog)
        (fun _ _ _ => ?_) fun hu => ?_
      · obtain ⟨l', hl', hp'⟩ := hlp hp
        exact hpend (h.pinned _ l' hl' hp')
      · rw [hdisk, update_self, hld]
      · rw [h.synced_of_free hfree] at hu
        cases hu
    · have hkept' : Kept st st' m := by
        by_cases hmH : m = hd.blockNo i
        · rw [hmH]
          exact Or.inl (hget.trans hb.symm)
        · exact hkept m hmL hmH
      exact (h.block m).kept hkept' (by rw [hdisk, update_of_ne hmL]) rfl rfl Iff.rfl
  · obtain ⟨⟨hnum, hstab⟩, hcopied⟩ := h.onDisk
    refine ⟨⟨?_, fun m hm => ?_⟩, fun j hj => ?_⟩
    · rw [readHeader_congr (d := st.disk), hnum]
      rw [hdisk, update_of_ne (logBlock_ne_logStart i).symm]
    · rw [hdisk, update_of_ne (hnl m hm)]
      exact hstab m hm
    · by_cases hji : j = i
      · rw [hji, hdisk, update_self, hcur]
      · have hjL : sb.logBlock j ≠ sb.logBlock i := by
          unfold SuperBlock.logBlock
          omega
        rw [hdisk, update_of_ne hjL]
        exact hcopied j (by omega)

/-- A write of the header block leaves every other block alone. -/
theorem header_write {g' : Stage} {stab' : ℕ → BlockData} (h : Data sb st hd u g cur stab)
    (hlog : 0 < sb.numLogBlocks) (hsub : ∀ n ∈ hd'.entries, n ∈ hd.entries)
    (hpend : pend hd' g' = pend hd g)
    (hdisk : OnDisk sb (writeHeader sb hd' st.disk) hd' cur stab' g') :
    Data sb { st with disk := writeHeader sb hd' st.disk } hd' u g' cur stab' := by
  constructor
  · exact h.wf
  · exact h.lt
  · exact fun n hn => h.not_log n (hsub n hn)
  · exact fun n hn => h.entry_lt n (hsub n hn)
  · rw [hpend]
    exact h.pinned
  · rw [hpend]
    exact h.cached
  · exact h.clean
  · intro m hm hmp
    rw [hpend] at hmp
    exact (writeHeader_of_ne (ne_logStart hlog hm)).trans (h.home m hm hmp)
  · intro m a ha hm hms hum
    exact (h.mirror m a ha hm hms hum).trans (writeHeader_of_ne hms).symm
  · exact h.held
  · exact hdisk

/-- **The commit point.** With all entries copied, the write of the header
makes the synced contents stable. -/
theorem commitPoint {i : ℕ} (h : Data sb st hd u (.copying i) cur stab) (hf : Fits sb hd)
    (hi : hd.numBlocks ≤ i) :
    Data sb { st with disk := writeHeader sb hd st.disk } hd u (.installing 0) cur cur := by
  refine h.header_write (by have := hf.lt_log; omega) (fun _ hn => hn) (by simp [pend])
    ⟨?_, fun j hj => ?_, fun _ _ => rfl⟩
  · rw [readHeader_writeHeader]
    exact LogHeader.entries_decode_encode hf.le_max h.entry_lt
  · rw [writeHeader_of_ne (logBlock_ne_logStart j)]
    exact h.onDisk.2 j (by omega)

/-- The pending entries after one more is installed. -/
theorem mem_drop {i m : ℕ} (hf : Fits sb hd) (hi : i < hd.numBlocks) :
    m ∈ hd.entries.drop (i + 1) ↔ m ∈ hd.entries.drop i ∧ m ≠ hd.blockNo i := by
  have hget : hd.entries.drop i = hd.blockNo i :: hd.entries.drop (i + 1) := by
    have hlt : i < hd.entries.length := by simpa using hi
    rw [List.drop_eq_getElem_cons hlt]
    congr 1
    have := LogHeader.entries_getElem? (h := hd) hi
    rw [List.getElem?_eq_getElem hlt] at this
    exact Option.some.inj this
  have hnd : (hd.entries.drop i).Nodup := hf.nodup.sublist (List.drop_sublist i _)
  rw [hget, List.nodup_cons] at hnd
  rw [hget, List.mem_cons]
  constructor
  · intro hm
    exact ⟨Or.inr hm, fun he => hnd.1 (he ▸ hm)⟩
  · rintro ⟨hm | hm, hne⟩
    · exact absurd hm hne
    · exact hm

/-- Entry `i` is installed in its home block. -/
theorem install {i : ℕ} (h : Data sb st hd u (.installing i) cur stab) (hf : Fits sb hd)
    (hi : i < hd.numBlocks) (hstep : installHome sb hd i st = some st') :
    Data sb st' hd u (.installing (i + 1)) cur stab := by
  have hne := h.logBlock_ne hf hi
  have hlog : sb.InLog (sb.logBlock i) := inLog_logBlock (by have := hf.lt_log; omega)
  have hhome := h.not_log _ (LogHeader.blockNo_mem hi)
  obtain ⟨hdisk, hwf, ⟨b, hb, hba, hbp, hbd⟩, ⟨l, hl, hla, hld, hlp⟩, hfreeL, hfreeH, hkept⟩ :=
    installHome_spec h.wf hne hstep
  obtain ⟨hheader, hcopied, hstab⟩ := h.onDisk
  -- the cached log block is free, so it mirrors the disk
  have hlogval : st.value (sb.logBlock i) = st.disk (sb.logBlock i) := by
    cases hget : st.get (sb.logBlock i) with
    | none => exact Store.value_of_none hget
    | some l' =>
      rw [Store.value_of_get hget]
      exact h.mirror _ l' hget hlog (logBlock_ne_logStart i) (h.synced_of_free hfreeL)
  have hval : st.value (sb.logBlock i) = cur (hd.blockNo i) := hlogval.trans (hcopied i hi)
  rw [hval] at hdisk hbd
  refine of_blocks hwf h.not_log h.entry_lt (fun m => ?_) ?_
  · by_cases hmH : m = hd.blockNo i
    · subst hmH
      have hpend : hd.blockNo i ∉ hd.entries.drop (i + 1) := fun hm => ((mem_drop hf hi).1 hm).2 rfl
      refine .of_get hb (fun _ => h.entry_lt _ (LogHeader.blockNo_mem hi))
        (iff_of_false (by simp [hbp]) hpend) (fun _ _ => hbd) (fun _ _ => ?_)
        (fun hm => absurd hm hhome) fun hu => ?_
      · rw [hdisk, update_self]
      · rw [h.synced_of_free hfreeH] at hu
        cases hu
    · have hdiskm : st'.disk m = st.disk m := by rw [hdisk, update_of_ne hmH]
      have hpend : m ∈ hd.entries.drop (i + 1) ↔ m ∈ hd.entries.drop i :=
        (mem_drop hf hi).trans (and_iff_left hmH)
      by_cases hmL : m = sb.logBlock i
      · subst hmL
        have hnot : sb.logBlock i ∉ hd.entries.drop i := fun hm =>
          h.not_log _ (List.mem_of_mem_drop hm) hlog
        refine .of_get hl (absurd hlog) (iff_of_false (fun hp => ?_) (hnot ∘ hpend.1)) (absurd hlog)
          (absurd hlog) (fun _ _ _ => ?_) fun hu => ?_
        · obtain ⟨l', hl', hp'⟩ := hlp hp
          exact hnot (h.pinned _ l' hl' hp')
        · rw [hdiskm, hld, hlogval]
        · rw [h.synced_of_free hfreeL] at hu
          cases hu
      · exact (h.block m).kept (hkept m hmL hmH) hdiskm rfl rfl hpend
  · have hstart := ne_logStart (by have := hf.lt_log; omega) hhome
    refine ⟨?_, fun j hj => ?_, hstab⟩
    · rw [readHeader_congr (d := st.disk), hheader]
      rw [hdisk, update_of_ne hstart.symm]
    · have hjH : sb.logBlock j ≠ hd.blockNo i := fun he =>
        hhome (he ▸ inLog_logBlock (by have := hf.lt_log; omega))
      rw [hdisk, update_of_ne hjH]
      exact hcopied j hj

/-- With all entries installed, the header is cleared. -/
theorem clear {i : ℕ} (h : Data sb st hd u (.installing i) cur stab) (hf : Fits sb hd)
    (hi : hd.numBlocks ≤ i) :
    Data sb { st with disk := writeHeader sb { hd with numBlocks := 0 } st.disk }
      { hd with numBlocks := 0 } u .installed cur stab := by
  have hpend : pend hd (.installing i) = [] := List.drop_eq_nil_of_le (by simpa using hi)
  have hnil : ({ hd with numBlocks := 0 } : LogHeader).entries = [] := LogHeader.entries_eq_nil rfl
  have hlog : 0 < sb.numLogBlocks := by have := hf.lt_log; omega
  refine h.header_write hlog (by simp [hnil]) (by rw [hpend]; exact hnil)
    ⟨numBlocks_writeHeader_zero, fun n hn => ?_⟩
  rw [writeHeader_of_ne (ne_logStart hlog hn), h.onDisk.2.2 n hn, h.home n hn (by simp [hpend])]

/-! ## Crash and recovery -/

/-- **What a crash leaves.** At every stage the disk is one `init_bcache`
accepts, and it recovers to the stable content. -/
theorem recovered_eq (h : Data sb st hd u g cur stab) (hf : Fits sb hd) :
    LogOk sb st.disk ∧ ∀ n, ¬ sb.InLog n → recovered sb st.disk n = stab n := by
  have hlog : 0 < sb.numLogBlocks := by have := hf.lt_log; omega
  have hclean : CleanLog sb st.disk stab →
      LogOk sb st.disk ∧ ∀ n, ¬ sb.InLog n → recovered sb st.disk n = stab n := by
    rintro ⟨hnum, hstab⟩
    exact ⟨LogOk.of_clean hlog hnum, fun n hn => by rw [recovered_of_clean hnum, hstab n hn]⟩
  cases g with
  | idle => exact hclean h.onDisk
  | copying i => exact hclean h.onDisk.1
  | installed => exact hclean h.onDisk
  | installing i =>
    obtain ⟨hheader, hcopied, hstab⟩ := h.onDisk
    have hnum : (readHeader sb st.disk).numBlocks = hd.numBlocks := by
      rw [← LogHeader.length_entries, hheader, LogHeader.length_entries]
    refine ⟨⟨hnum ▸ hf.le_max, hnum ▸ hf.lt_log, hheader ▸ hf.nodup, hheader ▸ h.not_log⟩,
      fun n hn => ?_⟩
    rw [recovered, hheader, hstab n hn]
    split_ifs with hmem
    · have hlt : syncIndex hd n < hd.numBlocks := by
        have := List.idxOf_lt_length_of_mem hmem
        rwa [LogHeader.length_entries] at this
      have := hcopied _ hlt
      rwa [blockNo_syncIndex hmem] at this
    · exact h.home n hn fun hin => hmem (List.mem_of_mem_drop hin)

/-- **What recovery leaves**: a clean cache on the recovered disk. -/
theorem of_boot {d : Disk} (hd : LogOk sb d)
    (hok : BootOk sb d (readHeader sb d).numBlocks st)
    (hstab : ∀ n, ¬ sb.InLog n → recovered sb d n = stab n) :
    Data sb { st with disk := writeHeader sb { readHeader sb d with numBlocks := 0 } st.disk }
      { readHeader sb d with numBlocks := 0 } (fun _ => false) .idle stab stab := by
  have hlog : 0 < sb.numLogBlocks := by have := hd.lt_log; omega
  have hnil : ({ readHeader sb d with numBlocks := 0 } : LogHeader).entries = [] :=
    LogHeader.entries_eq_nil rfl
  have hdisk : ∀ n, ¬ sb.InLog n → writeHeader sb { readHeader sb d with numBlocks := 0 } st.disk n =
      stab n := fun n hn => by
    rw [writeHeader_of_ne (ne_logStart hlog hn), hok.disk_eq, hstab n hn]
  constructor
  · exact hok.wf
  · exact hok.lt
  · simp [hnil]
  · simp [hnil]
  · intro n b hb hp
    rw [(hok.clean n b hb).2.1] at hp
    cases hp
  · simp [pend, hnil]
  · intro n b hb hn _
    rw [(hok.clean n b hb).2.2, hok.disk_eq, hstab n hn]
  · intro n hn _
    exact hdisk n hn
  · intro n b hb _ hns _
    exact (hok.clean n b hb).2.2.trans (writeHeader_of_ne hns).symm
  · intro n hu
    cases hu
  · exact ⟨numBlocks_writeHeader_zero, fun n hn => (hdisk n hn).symm⟩

end Data

end OsKernel.Cache
