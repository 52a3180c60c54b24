import OsKernel.Paging.Sections

/-!
# The heap of a process

What `sbrk` of `kernel/paging.c` returns. The first call makes the heap and
returns its new end; every later one returns the end before the call
(`sbrk_previous_break`).
-/

namespace OsKernel.Paging

variable {secs secs₀ : List Section} {h' : Section} {size : ℤ} {b e n : ℕ}

/-- The heap is `[b, e)`. -/
def HasHeap (secs : List Section) (b e : ℕ) : Prop :=
  ∃ h rest, fromHeap secs = h :: rest ∧ h.beginVa = b ∧ h.endVa = e

/-- The ranges that calls have returned for a positive size and the heap
still has, after a call that has returned `a`. -/
def holdStep (held : List (ℕ × ℕ)) (a : ℕ) (size : ℤ) : List (ℕ × ℕ) :=
  (if 0 < size then [(a, (a + size).toNat)] else []) ++ held.filter fun r => r.2 ≤ a + size

/-- A call of `sbrk`, with the ranges that are held. -/
def breakStep (x : List Section × List (ℕ × ℕ)) (c : Section × ℤ) :
    Option (List Section × List (ℕ × ℕ)) :=
  (sbrk c.1 c.2 x.1).map fun r => (r.2, holdStep x.2 r.1 c.2)

/-- The first section with `ST_HEAP` is replaced by another one. -/
theorem fromHeap_replace {rest : List Section} (hheap : h'.heap = true) :
    fromHeap (beforeHeap secs ++ h' :: rest) = h' :: rest := by
  have hbefore : ∀ s ∈ beforeHeap secs, (!s.heap) = true := fun s hs =>
    List.all_eq_true.1 List.all_takeWhile s hs
  rw [fromHeap, List.dropWhile_append_of_pos hbefore, List.dropWhile_cons_of_neg]
  simp [hheap]

/-- **A call of a process that has a heap** returns its end, and moves it by
the size. -/
theorem sbrk_spec (mem : Section) (hh : HasHeap secs b e) (he : e < 2 ^ 64)
    (hlo : b ≤ e + size) (hhi : e + size < 2 ^ 64) :
    ∃ secs', sbrk mem size secs = some (e, secs') ∧ HasHeap secs' b (e + size).toNat := by
  obtain ⟨h, rest, hfrom, rfl, rfl⟩ := hh
  have hheap : h.heap = true := by
    have hdrop : (secs.dropWhile fun s => !s.heap) = h :: rest := hfrom
    have := List.head_dropWhile_not (fun s : Section => !s.heap) (l := secs) (by rw [hdrop]; simp)
    simpa [hdrop] using this
  simp only [sbrk, hfrom]
  by_cases hsize : 0 ≤ size
  · have hu := u64_of_nonneg hsize (by omega)
    rw [if_pos hsize]
    refine ⟨_, rfl, _, rest, fromHeap_replace hheap, rfl, ?_⟩
    simp only [Section.grow]
    omega
  · have hu := u64_of_nonneg (n := -size) (by omega) (by omega)
    rw [if_neg hsize, if_neg (by omega)]
    refine ⟨_, rfl, _, rest, fromHeap_replace hheap, rfl, ?_⟩
    simp only [Section.shrink, u64]
    omega

/-- The ranges that are held are in the heap `[b, e)`, and apart. -/
structure Held (b : ℕ) (x : List Section × List (ℕ × ℕ)) (e : ℕ) : Prop where
  heap : HasHeap x.1 b e
  lt : e < 2 ^ 64
  inside : ∀ r ∈ x.2, b ≤ r.1 ∧ r.2 ≤ e
  apart : x.2.Pairwise fun r r' => Disjoint (Set.Ico r.1 r.2) (Set.Ico r'.1 r'.2)

theorem Held.step {x y : List Section × List (ℕ × ℕ)} {c : Section × ℤ} (hx : Held b x e)
    (hbe : b ≤ e) (hlo : b ≤ e + c.2) (hhi : e + c.2 < 2 ^ 64) (hs : breakStep x c = some y) :
    Held b y (e + c.2).toNat := by
  obtain ⟨secs', hsbrk, hheap⟩ := sbrk_spec c.1 hx.heap hx.lt hlo hhi
  rw [breakStep, hsbrk, Option.map_some] at hs
  obtain rfl := Option.some.inj hs
  refine ⟨hheap, by omega, fun r hr => ?_, ?_⟩
  · simp only [holdStep, List.mem_append, List.mem_ite_nil_right, List.mem_singleton,
      List.mem_filter, decide_eq_true_eq] at hr
    rcases hr with ⟨-, rfl⟩ | ⟨hr, hle⟩
    · exact ⟨hbe, le_rfl⟩
    · exact ⟨(hx.inside r hr).1, by omega⟩
  · refine List.pairwise_append.2 ⟨?_, hx.apart.sublist List.filter_sublist, ?_⟩
    · split <;> simp
    · -- a range that was held ends below the break, where the new one begins
      intro r hr r' hr'
      simp only [List.mem_ite_nil_right, List.mem_singleton] at hr
      obtain ⟨-, rfl⟩ := hr
      have := (hx.inside r' (List.mem_filter.1 hr').1).2
      rw [Set.Ico_disjoint_Ico]
      simp only
      omega

/-- **`sbrk` returns the previous break, of a process that has a heap.** In
any sequence of calls that keep the break between its start and the end of
the address space, each returns `a` where the heap was `[b, a)`, and leaves
`[b, a + size)`; the ranges that are returned and still held are in the heap
and disjoint. -/
theorem sbrk_previous_break {x : List Section × List (ℕ × ℕ)}
    {tr : List ((List Section × List (ℕ × ℕ)) × Section × ℤ)} (hh : HasHeap secs₀ b e)
    (hbe : b ≤ e) (he : e < 2 ^ 64) (hrun : Run breakStep (secs₀, []) tr x)
    (hok : ∀ y ∈ tr, ∀ n, HasHeap y.1.1 b n → b ≤ n + y.2.2 ∧ n + y.2.2 < 2 ^ 64) :
    (∀ y ∈ tr, ∃ a secs', sbrk y.2.1 y.2.2 y.1.1 = some (a, secs') ∧ HasHeap y.1.1 b a ∧
      HasHeap secs' b (a + y.2.2).toNat) ∧
    ∃ n, HasHeap x.1 b n ∧ (∀ r ∈ x.2, b ≤ r.1 ∧ r.2 ≤ n) ∧
      x.2.Pairwise fun r r' => Disjoint (Set.Ico r.1 r.2) (Set.Ico r'.1 r'.2) := by
  have hheld : ∀ tr' y, Run breakStep (secs₀, []) tr' y → tr' <+: tr →
      ∃ n, b ≤ n ∧ Held b y n := by
    intro tr' y hrun' hpre
    refine hrun'.invariantOf (I := fun y => ∃ n, b ≤ n ∧ Held b y n)
      (K := fun x c => ∀ n : ℕ, HasHeap x.1 b n → (b : ℤ) ≤ n + c.2 ∧ (n : ℤ) + c.2 < 2 ^ 64)
      (fun y hy => hok y (hpre.subset hy)) ⟨e, hbe, hh, he, nofun, List.Pairwise.nil⟩ ?_
    rintro x c y ⟨n, hbn, hx⟩ hK hs
    obtain ⟨hlo, hhi⟩ := hK n hx.heap
    exact ⟨_, by omega, hx.step hbn hlo hhi hs⟩
  constructor
  · intro y hy
    obtain ⟨tr', z, hrun', -, hpre⟩ := hrun.of_mem hy
    obtain ⟨n, hbn, hx⟩ := hheld tr' y.1 hrun' hpre
    obtain ⟨hlo, hhi⟩ := hok y hy n hx.heap
    obtain ⟨secs', hsbrk, hheap⟩ := sbrk_spec y.2.1 hx.heap hx.lt hlo hhi
    exact ⟨n, secs', hsbrk, hx.heap, hheap⟩
  · obtain ⟨n, -, hx⟩ := hheld tr x hrun (List.prefix_refl tr)
    exact ⟨n, hx.heap, hx.inside, hx.apart⟩

/-- A heap of one page. -/
def pageHeap : Section := ⟨false, false, false, true, 16384, 20480, 0, 0⟩

/-- Two calls make the heap larger, and one makes it smaller. -/
def heapCalls : List (Section × ℤ) := [(pageHeap, 4096), (pageHeap, 8192), (pageHeap, -8192)]

/-- The heap shrinks by what the second call has returned; the range of the first one
is still held. -/
theorem sbrk_previous_break_heapCalls : ∃ x, exec breakStep ([pageHeap], []) heapCalls = some x ∧
    x.2 = [(20480, 24576)] ∧ ∃ n, HasHeap x.1 16384 n ∧ (∀ r ∈ x.2, 16384 ≤ r.1 ∧ r.2 ≤ n) ∧
      x.2.Pairwise fun r r' => Disjoint (Set.Ico r.1 r.2) (Set.Ico r'.1 r'.2) := by
  have hexec : exec breakStep ([pageHeap], []) heapCalls =
      some ([pageHeap.grow 4096], [(20480, 24576)]) := by decide +kernel
  have htrace : (execTrace breakStep ([pageHeap], []) heapCalls).map (fun y => (y.1.1, y.2.2)) =
      [([pageHeap], 4096), ([pageHeap.grow 4096], 8192), ([pageHeap.grow 12288], -8192)] := by
    decide +kernel
  refine ⟨_, hexec, rfl, (sbrk_previous_break (b := 16384) (e := 20480)
    ⟨pageHeap, [], rfl, rfl, rfl⟩ (by decide) (by decide) (Run.of_exec hexec) ?_).2⟩
  intro y hy n hn
  have hy := List.mem_map_of_mem (f := fun y => (y.1.1, y.2.2)) hy
  rw [htrace] at hy
  simp only [List.mem_cons, List.not_mem_nil, or_false, Prod.mk.injEq] at hy
  rcases hy with ⟨hsecs, hsize⟩ | ⟨hsecs, hsize⟩ | ⟨hsecs, hsize⟩
  all_goals
    rw [hsecs] at hn
    rw [hsize]
    obtain ⟨_, _, hfrom, -, rfl⟩ := hn
    obtain ⟨rfl, -⟩ := List.cons.inj hfrom
    decide

/-- **The first two calls return the same address**: the heap is made at
`16384`, but the first call returns its new end. -/
theorem sbrk_first_returns_new_break :
    sbrk pageHeap 4096 [] = some (20480, [pageHeap]) ∧
      (sbrk pageHeap 4096 [pageHeap]).map Prod.fst = some 20480 ∧
      HasHeap [pageHeap] 16384 20480 :=
  ⟨by decide +kernel, by decide +kernel, pageHeap, [], rfl, rfl, rfl⟩

end OsKernel.Paging
