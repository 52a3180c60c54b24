import OsKernel.Cache.Helpers.Store

/-!
# Helpers — the log header and recovery

The header is read back as it was written (`entries_decode_encode`), and
what `init_bcache` makes of a disk is `recovered`: the logged copy of
each listed block, and the home block of every other. `BootOk` is the
loop invariant of `log_wb` on a fresh cache; a disk that a replay has
worked on for a while recovers to the same content (`BootOk.recovered`),
which is why a replay may be cut and repeated.
-/

namespace OsKernel.Cache

open Function

/-! ## The header as bytes -/

namespace LogHeader

variable {h : LogHeader}

@[simp] theorem length_entries : h.entries.length = h.numBlocks := by simp [entries]

theorem entries_getElem? {j : ℕ} (hj : j < h.numBlocks) : h.entries[j]? = some (h.blockNo j) := by
  simp [entries, hj]

theorem mem_entries {n : ℕ} : n ∈ h.entries ↔ ∃ j < h.numBlocks, h.blockNo j = n := by
  simp [entries]

theorem blockNo_mem {j : ℕ} (hj : j < h.numBlocks) : h.blockNo j ∈ h.entries :=
  mem_entries.2 ⟨j, hj, rfl⟩

theorem entries_eq_nil (h0 : h.numBlocks = 0) : h.entries = [] := by
  simp [entries, h0]

/-- Word `j` of the encoded header. -/
theorem readLE_encode {j : ℕ} (hj : j < 64) : h.encode.readLE (8 * j) 8 = h.word j % 2 ^ 64 := by
  have hread : h.encode.readLE (8 * j) 8 = h.word j % 256 ^ 8 := by
    refine Bytes.readLE_of_leByte fun t ht => ?_
    have hdiv : (8 * j + t) / 8 = j := by omega
    have hmod : (8 * j + t) % 8 = t := by omega
    rw [encode, Bytes.get_ofFn (by simp only [blockSize]; omega), hdiv, hmod]
  rw [hread]
  norm_num

theorem numBlocks_decode_encode (hn : h.numBlocks < 2 ^ 64) :
    (decode h.encode).numBlocks = h.numBlocks := by
  have := readLE_encode (h := h) (j := 0) (by omega)
  simp only [Nat.mul_zero, word] at this
  rw [decode, this, Nat.mod_eq_of_lt hn]

theorem blockNo_decode_encode {j : ℕ} (hj : j < logMaxSize) (hb : h.blockNo j < 2 ^ 64) :
    (decode h.encode).blockNo j = h.blockNo j := by
  have := readLE_encode (h := h) (j := j + 1) (by simp only [logMaxSize] at hj; omega)
  simp only [word] at this
  simp only [decode, this]
  exact Nat.mod_eq_of_lt hb

/-- **The header is read back as it was written.** -/
theorem entries_decode_encode (hlen : h.numBlocks ≤ logMaxSize)
    (hb : ∀ n ∈ h.entries, n < 2 ^ 64) : (decode h.encode).entries = h.entries := by
  have hnum : (decode h.encode).numBlocks = h.numBlocks :=
    numBlocks_decode_encode (by simp only [logMaxSize] at hlen; omega)
  rw [entries, hnum, entries]
  refine List.map_congr_left fun j hj => ?_
  have hj : j < h.numBlocks := List.mem_range.1 hj
  exact blockNo_decode_encode (by omega) (hb _ (blockNo_mem hj))

theorem decode_lt {b : BlockData} {n : ℕ} (hn : n ∈ (decode b).entries) : n < 2 ^ 64 := by
  obtain ⟨j, -, rfl⟩ := mem_entries.1 hn
  have := Bytes.readLE_lt b (8 * (j + 1)) 8
  simp only [decode]
  omega

end LogHeader

/-! ## What recovery makes of a disk -/

/-- **A disk this code can leave behind**: the log header fits the
logging area, and lists distinct blocks outside of it. -/
structure LogOk (sb : SuperBlock) (d : Disk) : Prop where
  le_max : (readHeader sb d).numBlocks ≤ logMaxSize
  lt_log : (readHeader sb d).numBlocks < sb.numLogBlocks
  nodup : (readHeader sb d).entries.Nodup
  not_log : ∀ n ∈ (readHeader sb d).entries, ¬ sb.InLog n

/-- **The content a disk recovers to**: a block listed in the header has
its logged copy, any other block its home content. -/
def recovered (sb : SuperBlock) (d : Disk) (n : ℕ) : BlockData :=
  if n ∈ (readHeader sb d).entries then d (sb.logBlock ((readHeader sb d).entries.idxOf n))
  else d n

theorem recovered_of_clean {sb : SuperBlock} {d : Disk} (h : (readHeader sb d).numBlocks = 0)
    (n : ℕ) : recovered sb d n = d n := by
  simp [recovered, LogHeader.entries_eq_nil h]

variable {sb : SuperBlock}

theorem inLog_logStart (h : 0 < sb.numLogBlocks) : sb.InLog sb.logStart := by
  unfold SuperBlock.InLog
  omega

/-- A block outside of the logging area is not the header block. -/
theorem ne_logStart {n : ℕ} (h : 0 < sb.numLogBlocks) (hn : ¬ sb.InLog n) : n ≠ sb.logStart := by
  rintro rfl
  exact hn (inLog_logStart h)

theorem inLog_logBlock {i : ℕ} (h : i + 1 < sb.numLogBlocks) : sb.InLog (sb.logBlock i) := by
  unfold SuperBlock.InLog SuperBlock.logBlock
  omega

theorem logBlock_ne_logStart (i : ℕ) : sb.logBlock i ≠ sb.logStart := by
  unfold SuperBlock.logBlock
  omega

/-- A disk changed outside of the logging area has the same header. -/
theorem readHeader_congr {d d' : Disk} (h : d' sb.logStart = d sb.logStart) :
    readHeader sb d' = readHeader sb d := by
  rw [readHeader, readHeader, h]

theorem readHeader_writeHeader {d : Disk} {h : LogHeader} :
    readHeader sb (writeHeader sb h d) = LogHeader.decode h.encode := by
  simp [readHeader, writeHeader]

theorem writeHeader_of_ne {d : Disk} {h : LogHeader} {n : ℕ} (hn : n ≠ sb.logStart) :
    writeHeader sb h d n = d n := by
  simp [writeHeader, hn]

theorem numBlocks_writeHeader_zero {d : Disk} {h : LogHeader} :
    (readHeader sb (writeHeader sb { h with numBlocks := 0 } d)).numBlocks = 0 := by
  rw [readHeader_writeHeader, LogHeader.numBlocks_decode_encode (by norm_num)]

/-- A cleared header lists nothing. -/
theorem LogOk.of_clean {d : Disk} (hlog : 0 < sb.numLogBlocks)
    (h : (readHeader sb d).numBlocks = 0) : LogOk sb d where
  le_max := by omega
  lt_log := by omega
  nodup := by rw [LogHeader.entries_eq_nil h]; exact List.nodup_nil
  not_log := by rw [LogHeader.entries_eq_nil h]; simp

theorem logOk_zeroDisk : LogOk mkfsLayout zeroDisk := LogOk.of_clean (by decide) (by decide)

/-! ## Replaying the log -/

/-- **The loop invariant of `log_wb` on a fresh cache**, after `i` of the
entries that the header of `d` lists: these have their logged copies, the
rest of the disk is as in `d`, and the cache mirrors the disk. -/
structure BootOk (sb : SuperBlock) (d : Disk) (i : ℕ) (st : Store) : Prop where
  wf : st.Wf
  clean : ∀ n b, st.get n = some b →
    b.acquired = false ∧ b.pinned = false ∧ b.data = st.disk n
  done : ∀ n ∈ (readHeader sb d).entries.take i,
    st.disk n = d (sb.logBlock ((readHeader sb d).entries.idxOf n))
  rest : ∀ n, n ∉ (readHeader sb d).entries.take i → st.disk n = d n
  /-- Only blocks of the log and their home blocks are cached. -/
  lt : ∀ n b, st.get n = some b → ¬ sb.InLog n → n < 2 ^ 64

namespace BootOk

variable {d : Disk} {i : ℕ} {st st' : Store}

theorem init : BootOk sb d 0 ⟨d, []⟩ where
  wf := by simp [Store.Wf]
  clean := by simp [Store.get]
  done := by simp
  rest := by simp
  lt := by simp [Store.get]

theorem value_eq (h : BootOk sb d i st) (n : ℕ) : st.value n = st.disk n := by
  cases hn : st.get n with
  | none => exact Store.value_of_none hn
  | some b => rw [Store.value_of_get hn, (h.clean n b hn).2.2]

/-- The logging area is untouched. -/
theorem disk_log (hd : LogOk sb d) (h : BootOk sb d i st) {n : ℕ} (hn : sb.InLog n) :
    st.disk n = d n :=
  h.rest n fun hmem => hd.not_log n (List.mem_of_mem_take hmem) hn

/-- The two blocks of an entry are different. -/
theorem logBlock_ne (hd : LogOk sb d) (hi : i < (readHeader sb d).numBlocks) :
    sb.logBlock i ≠ (readHeader sb d).blockNo i := by
  intro he
  have hlog := hd.lt_log
  exact hd.not_log _ (LogHeader.blockNo_mem hi) (he ▸ inLog_logBlock (by omega))

/-- One turn of the loop keeps the invariant. -/
theorem step (hd : LogOk sb d) (h : BootOk sb d i st) (hi : i < (readHeader sb d).numBlocks)
    (hstep : installHome sb (readHeader sb d) i st = some st') : BootOk sb d (i + 1) st' := by
  have hne := logBlock_ne hd hi
  have hlog : sb.InLog (sb.logBlock i) := inLog_logBlock (by have := hd.lt_log; omega)
  obtain ⟨hdisk, hwf, ⟨b, hb, hba, hbp, hbd⟩, ⟨l, hl, hla, hld, hlp⟩, -, -, hkept⟩ :=
    installHome_spec h.wf hne hstep
  have hval : st.value (sb.logBlock i) = d (sb.logBlock i) := by
    rw [h.value_eq, h.disk_log hd hlog]
  have hidx : (readHeader sb d).entries.idxOf ((readHeader sb d).blockNo i) = i := by
    have hget := LogHeader.entries_getElem? (h := readHeader sb d) hi
    obtain ⟨hlt, heq⟩ := List.getElem?_eq_some_iff.1 hget
    rw [← heq]
    exact hd.nodup.idxOf_getElem i hlt
  have htake : ∀ n, n ∈ (readHeader sb d).entries.take (i + 1) ↔
      n ∈ (readHeader sb d).entries.take i ∨ n = (readHeader sb d).blockNo i := by
    intro n
    rw [List.take_add_one, LogHeader.entries_getElem? hi, List.mem_append]
    simp
  refine ⟨hwf, fun n b' hb' => ?_, fun n hn => ?_, fun n hn => ?_, fun n b' hb' hn => ?_⟩
  · by_cases hnN : n = (readHeader sb d).blockNo i
    · subst hnN
      obtain rfl := Option.mem_unique hb hb'
      exact ⟨hba, hbp, by rw [hbd, hdisk, update_self]⟩
    · by_cases hnL : n = sb.logBlock i
      · subst hnL
        obtain rfl := Option.mem_unique hl hb'
        refine ⟨hla, ?_, ?_⟩
        · by_contra hp
          obtain ⟨l', hl', hp'⟩ := hlp (by simpa using hp)
          rw [(h.clean _ l' hl').2.1] at hp'
          cases hp'
        · rw [hld, hdisk, update_of_ne hnN, h.value_eq]
      · have := h.clean n b' ((hkept n hnL hnN).get_of_some hb')
        rw [hdisk, update_of_ne hnN]
        exact this
  · by_cases hnN : n = (readHeader sb d).blockNo i
    · rw [hnN, hdisk, update_self, hval, hidx]
    · rw [hdisk, update_of_ne hnN]
      exact h.done n (((htake n).1 hn).resolve_right hnN)
  · rw [htake, not_or] at hn
    rw [hdisk, update_of_ne hn.2]
    exact h.rest n hn.1
  · by_cases hnN : n = (readHeader sb d).blockNo i
    · rw [hnN]
      exact LogHeader.decode_lt (LogHeader.blockNo_mem hi)
    · have hnL : n ≠ sb.logBlock i := by
        rintro rfl
        exact hn hlog
      exact h.lt n b' ((hkept n hnL hnN).get_of_some hb') hn

/-- A turn of the loop never waits. -/
theorem isSome (hd : LogOk sb d) (h : BootOk sb d i st) (hi : i < (readHeader sb d).numBlocks) :
    (installHome sb (readHeader sb d) i st).isSome :=
  installHome_isSome h.wf (logBlock_ne hd hi) fun n b hb => (h.clean n b hb).1

/-- The loop runs to its end. -/
theorem loop (hd : LogOk sb d) : ∀ (k i : ℕ) (st : Store),
    BootOk sb d i st → i + k = (readHeader sb d).numBlocks →
    ∃ st', logWbLoop sb (readHeader sb d) k i st = some st' ∧
      BootOk sb d (readHeader sb d).numBlocks st' := by
  intro k
  induction k with
  | zero =>
    intro i st h hik
    refine ⟨st, rfl, ?_⟩
    rwa [← hik, Nat.add_zero]
  | succ k ih =>
    intro i st h hik
    obtain ⟨st₁, h₁⟩ := Option.isSome_iff_exists.1 (h.isSome hd (by omega))
    obtain ⟨st', h', hok⟩ := ih (i + 1) st₁ (h.step hd (by omega) h₁) (by omega)
    exact ⟨st', by rw [logWbLoop, h₁, Option.bind_some]; exact h', hok⟩

/-- After the last entry the disk holds what it recovers to. -/
theorem disk_eq (h : BootOk sb d (readHeader sb d).numBlocks st) (n : ℕ) :
    st.disk n = Cache.recovered sb d n := by
  have htake : (readHeader sb d).entries.take (readHeader sb d).numBlocks =
      (readHeader sb d).entries := List.take_of_length_le (by simp)
  unfold Cache.recovered
  split_ifs with hmem
  · exact h.done n (by rwa [htake])
  · exact h.rest n (by rwa [htake])

theorem readHeader_eq (hd : LogOk sb d) (h : BootOk sb d i st) :
    readHeader sb st.disk = readHeader sb d :=
  readHeader_congr (h.disk_log hd (inLog_logStart (by have := hd.lt_log; omega)))

/-- **A replay cut anywhere leaves a disk with the same recovery.** -/
theorem recovered (hd : LogOk sb d) (h : BootOk sb d i st) (n : ℕ) :
    Cache.recovered sb st.disk n = Cache.recovered sb d n := by
  unfold Cache.recovered
  rw [h.readHeader_eq hd]
  split_ifs with hmem
  · refine h.disk_log hd (inLog_logBlock ?_)
    have hlt := List.idxOf_lt_length_of_mem hmem
    have := hd.lt_log
    rw [LogHeader.length_entries] at hlt
    omega
  · exact h.rest n fun hin => hmem (List.mem_of_mem_take hin)

/-- And one this code may leave behind. -/
theorem logOk (hd : LogOk sb d) (h : BootOk sb d i st) : LogOk sb st.disk := by
  have heq := h.readHeader_eq hd
  exact ⟨by rw [heq]; exact hd.le_max, by rw [heq]; exact hd.lt_log, by rw [heq]; exact hd.nodup,
    by rw [heq]; exact hd.not_log⟩

end BootOk

/-- **`init_bcache` runs to completion** on a disk this code can leave
behind: it replays all entries and clears the header. -/
theorem initStore_spec {d : Disk} (hd : LogOk sb d) :
    ∃ st, BootOk sb d (readHeader sb d).numBlocks st ∧
      initStore sb d = some ({ readHeader sb d with numBlocks := 0 },
        { st with disk := writeHeader sb { readHeader sb d with numBlocks := 0 } st.disk }) := by
  obtain ⟨st, hst, hok⟩ := BootOk.loop hd (readHeader sb d).numBlocks 0 ⟨d, []⟩ BootOk.init (by simp)
  refine ⟨st, hok, ?_⟩
  simp only [initStore, logWb, hst, Option.bind_eq_bind, Option.bind_some, Option.pure_def]

end OsKernel.Cache
