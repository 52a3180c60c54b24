import OsKernel.Cache.Helpers.Store
import OsKernel.Common.Run

/-!
# The block list is in the order of use

`cache_acquire`, `cache_release` and the pinning of blocks, in any order,
from an empty list. The list is ordered by the last acquisition of its
blocks (`recency`). A miss with `EVICTION_THRESHOLD` blocks or more drops
blocks from the end of the list that are neither pinned nor acquired, until
it is below the threshold or none is left (`evict_spec`).
-/

namespace OsKernel.Cache

/-- What happens to the block list. -/
inductive ListAct where
  | acquire (n : ℕ)
  | release (n : ℕ)
  /-- `pinned` is set by `cache_sync` and cleared by `log_wb`. -/
  | pin (n : ℕ) (p : Bool)

/-- A step. `none` where `cache_acquire` waits. -/
def listStep (s : Store) : ListAct → Option Store
  | .acquire n => cacheAcquire n s
  | .release n => some (cacheRelease n s)
  | .pin n p => some (s.modify n (Block.setPinned p))

/-- The blocks acquired so far, the latest first. -/
def recency (tr : List (Store × ListAct)) : List ℕ :=
  tr.foldl (fun l x => match x.2 with
    | .acquire n => n :: l.filter (· ≠ n)
    | _ => l) []

/-- Is the block pinned or acquired? -/
def Block.kept (b : Block) : Bool := b.pinned || b.acquired

variable {s s' : Store} {n : ℕ} {tr : List (Store × ListAct)}

/-! ## Eviction -/

/-- The loop has dropped what it may from `l₁`, and has stopped before `l₂`. -/
theorem evictLoop_spec (l : List Block) : ∀ cnum, l.length ≤ cnum → evictionThreshold ≤ cnum + 1 →
    ∃ l₁ l₂, l = l₁ ++ l₂ ∧ evictLoop l cnum = l₁.filter Block.kept ++ l₂ ∧
      evictionThreshold + l.length ≤ cnum + (evictLoop l cnum).length + 1 ∧
      (cnum + (evictLoop l cnum).length + 1 = evictionThreshold + l.length ∨ l₂ = []) := by
  induction l with
  | nil =>
    intro cnum _ hcnum
    exact ⟨[], [], rfl, rfl, by simpa [evictLoop] using hcnum, Or.inr rfl⟩
  | cons b l ih =>
    intro cnum hlen hcnum
    rw [List.length_cons] at hlen
    rw [evictLoop]
    split_ifs with hmany hdrop
    · obtain ⟨l₁, l₂, rfl, heq, hle, hend⟩ := ih (cnum - 1) (by omega) (by omega)
      have hb : b.kept = false := by simpa [Block.kept] using hdrop
      refine ⟨b :: l₁, l₂, rfl, by rw [heq, List.filter_cons_of_neg (by simp [hb])], ?_, ?_⟩
      · rw [List.length_cons]
        omega
      · refine hend.imp_left fun hend => ?_
        rw [List.length_cons]
        omega
    · obtain ⟨l₁, l₂, rfl, heq, hle, hend⟩ := ih cnum (by omega) hcnum
      have hb : b.kept = true := by
        cases hp : b.pinned <;> simp_all [Block.kept]
      refine ⟨b :: l₁, l₂, rfl, by rw [heq, List.filter_cons_of_pos hb, List.cons_append], ?_, ?_⟩
      · simp only [List.length_cons]
        omega
      · refine hend.imp_left fun hend => ?_
        simp only [List.length_cons]
        omega
    · refine ⟨[], b :: l, rfl, rfl, by omega, Or.inl (by omega)⟩

/-- **What is evicted**: of the end of the list, the blocks that are neither
pinned nor acquired, as few as bring it below the threshold. -/
theorem evict_spec {l : List Block} (hlen : evictionThreshold ≤ l.length) :
    ∃ pre post, l = pre ++ post ∧ evict l = pre ++ post.filter Block.kept ∧
      evictionThreshold ≤ (evict l).length + 1 ∧
      ((evict l).length + 1 = evictionThreshold ∨ pre = []) := by
  obtain ⟨l₁, l₂, hl, heq, hle, hend⟩ :=
    evictLoop_spec l.reverse l.length (by simp) (by omega)
  rw [List.length_reverse] at hle hend
  refine ⟨l₂.reverse, l₁.reverse, ?_, ?_, ?_, ?_⟩
  · rw [← List.reverse_append, ← hl, List.reverse_reverse]
  · rw [evict, heq, List.reverse_append, List.filter_reverse]
  · rw [evict, List.length_reverse]
    omega
  · rw [evict, List.length_reverse]
    exact hend.imp (fun hend => by omega) fun hnil => by rw [hnil, List.reverse_nil]

theorem evict_of_lt {l : List Block} (hlen : l.length < evictionThreshold) : evict l = l := by
  have hloop : evictLoop l.reverse l.length = l.reverse := by
    cases l.reverse with
    | nil => rfl
    | cons b bs => rw [evictLoop, if_neg (by omega)]
  rw [evict, hloop, List.reverse_reverse]

/-! ## The order -/

/-- The acquired block is put in front of blocks that were there. -/
theorem cacheAcquire_cons (h : cacheAcquire n s = some s') :
    ∃ b rest, s'.cache = b :: rest ∧ b.blockNo = n ∧ rest.Sublist s.cache := by
  unfold cacheAcquire at h
  cases hget : s.get n with
  | none =>
    rw [hget] at h
    obtain rfl := Option.some.inj h
    exact ⟨_, _, rfl, rfl, evict_sublist s.cache⟩
  | some b =>
    simp only [hget] at h
    split_ifs at h
    obtain rfl := Option.some.inj h
    exact ⟨b.setAcquired true, _, rfl, (Store.get_blockNo hget : b.blockNo = n),
      List.eraseP_sublist⟩

/-- Each block is in the list once, in the order of the acquisitions. -/
structure Ordered (s : Store) (recent : List ℕ) : Prop where
  wf : s.Wf
  nodup : recent.Nodup
  sublist : (s.cache.map Block.blockNo).Sublist recent

theorem Ordered.acquire {recent : List ℕ} (h : Ordered s recent) (hs : cacheAcquire n s = some s') :
    Ordered s' (n :: recent.filter (· ≠ n)) := by
  obtain ⟨b, rest, hcache, rfl, hsub⟩ := cacheAcquire_cons hs
  have hwf := (acquired_of_cacheAcquire h.wf hs).wf
  refine ⟨hwf, ?_, ?_⟩
  · rw [List.nodup_cons]
    exact ⟨by simp, h.nodup.filter _⟩
  · rw [Store.Wf, hcache, List.map_cons, List.nodup_cons] at hwf
    rw [hcache, List.map_cons]
    -- the other blocks have other numbers
    have hne : (rest.map Block.blockNo).filter (· ≠ b.blockNo) = rest.map Block.blockNo := by
      rw [List.filter_eq_self]
      exact fun m hm => decide_eq_true fun heq => hwf.1 (heq ▸ hm)
    rw [← hne]
    exact (((hsub.map _).trans h.sublist).filter _).cons_cons _

theorem Ordered.modify {recent : List ℕ} {f : Block → Block} (h : Ordered s recent)
    (hf : ∀ b, (f b).blockNo = b.blockNo) : Ordered (s.modify n f) recent := by
  refine ⟨Store.wf_modify hf h.wf, h.nodup, ?_⟩
  rw [Store.map_blockNo_modify hf]
  exact h.sublist

theorem ordered_of_run {d : Disk} (hrun : Run listStep ⟨d, []⟩ tr s) : Ordered s (recency tr) := by
  refine hrun.traceInvariant (I := fun tr s => Ordered s (recency tr))
    ⟨List.nodup_nil, List.nodup_nil, List.Sublist.slnil⟩ ?_
  intro tr s a s' h hs
  rw [recency, List.foldl_append]
  cases a with
  | acquire n => exact h.acquire hs
  | release n =>
    obtain rfl := Option.some.inj hs
    exact h.modify (Block.blockNo_setAcquired false)
  | pin n p =>
    obtain rfl := Option.some.inj hs
    exact h.modify (Block.blockNo_setPinned p)

/-- **The block cache is a bounded LRU.** After any sequence of acquisitions,
releases and pinnings, each block is in the list once, and the list is in the
order of the last acquisitions. A miss evicts, of the end of the list, the
blocks that are neither pinned nor acquired, as few as needed; afterwards
the list has at most `EVICTION_THRESHOLD` blocks, or one more than are
pinned or acquired. -/
theorem cache_lru {d : Disk} (hrun : Run listStep ⟨d, []⟩ tr s) :
    (s.cache.map Block.blockNo).Nodup ∧ (recency tr).Nodup ∧
    (s.cache.map Block.blockNo).Sublist (recency tr) ∧
    ∀ n s', s.get n = none → cacheAcquire n s = some s' → ∃ b rest, s'.cache = b :: rest ∧
      (s.cache.length < evictionThreshold → rest = s.cache) ∧
      (evictionThreshold ≤ s.cache.length → ∃ pre post, s.cache = pre ++ post ∧
        rest = pre ++ post.filter Block.kept ∧ evictionThreshold ≤ rest.length + 1 ∧
        (rest.length + 1 = evictionThreshold ∨ pre = [])) ∧
      s'.cache.length ≤ max evictionThreshold (1 + s.cache.countP Block.kept) := by
  have h := ordered_of_run hrun
  refine ⟨h.wf, h.nodup, h.sublist, fun n s' hget hs => ?_⟩
  simp only [cacheAcquire, hget, Option.some_inj] at hs
  subst hs
  refine ⟨_, evict s.cache, rfl, evict_of_lt, evict_spec, ?_⟩
  rw [List.length_cons]
  rcases Nat.lt_or_ge s.cache.length evictionThreshold with hlt | hge
  · rw [evict_of_lt hlt]
    omega
  · obtain ⟨pre, post, hcache, heq, -, hend⟩ := evict_spec hge
    rcases hend with hend | rfl
    · omega
    · have hall : s.cache.countP Block.kept = (evict s.cache).length := by
        rw [heq, hcache, List.nil_append, List.nil_append, List.countP_eq_length_filter]
      omega

/-- Twenty blocks are acquired and released, and the first once more. -/
def fillList : List ListAct :=
  (List.range evictionThreshold ++ [0]).flatMap fun n => [.acquire n, .release n]

/-- A miss with a full list evicts block 1, the one that was acquired first. -/
theorem cache_lru_full : ∃ s s', exec listStep ⟨zeroDisk, []⟩ fillList = some s ∧
    s.cache.length = evictionThreshold ∧ cacheAcquire 20 s = some s' ∧
    (s.get 1).isSome ∧ s'.get 1 = none ∧ (s'.get 0).isSome ∧
    s'.cache.length ≤ evictionThreshold := by
  have hfull : (exec listStep ⟨zeroDisk, []⟩ fillList).any (fun s =>
      decide (s.cache.length = evictionThreshold) && decide (s.cache.countP Block.kept = 0) &&
      (s.get 20).isNone && (s.get 1).isSome && (cacheAcquire 20 s).any fun s' =>
        (s'.get 1).isNone && (s'.get 0).isSome) = true := by decide +kernel
  simp only [Option.any_eq_true, Bool.and_eq_true, decide_eq_true_eq, Option.isNone_iff_eq_none]
    at hfull
  obtain ⟨s, hs, ⟨⟨⟨hlen, hkept⟩, hmiss⟩, hone⟩, s', hs', hgone, hzero⟩ := hfull
  obtain ⟨b, rest, -, -, -, hle⟩ := (cache_lru (Run.of_exec hs)).2.2.2 20 s' hmiss hs'
  rw [hkept] at hle
  exact ⟨s, s', hs, hlen, hs', hone, hgone, hzero, hle⟩

end OsKernel.Cache
