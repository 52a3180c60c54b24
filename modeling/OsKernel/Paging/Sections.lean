import OsKernel.Paging.Model.Memory

/-!
# The section list of a process

How the list `section_head` of a page directory changes: `execve` of
`kernel/exec.c` builds it, `sbrk` of `kernel/paging.c`, `sys_mmap` and
`sys_munmap` of `kernel/sysfile.c` change it. Each of them finds the place
of a new section by a rule of its own, from the largest end of a section
so far, and `sbrk` moves the end of the heap without looking at the other
sections.

The page tables are in `Paging.Model.Memory`; here only the list and the
address ranges count. What `kalloc` returns is not cleared, so each
function takes what the memory of its new section held before (`mem`).
-/

namespace OsKernel.Paging

/-! ## Model -/

/-- The conversion of an integer to `u64`. -/
def u64 (n : ℤ) : ℕ := (n % 2 ^ 64).toNat

/-- `PAGE_BASE`. -/
def pageBase (va : ℕ) : ℕ := va - va % pageSize

/-- The largest end of a section of the list. -/
def maxEnd (secs : List Section) : ℕ := secs.foldl (fun b s => max b s.endVa) 0

/-- The sections before the first one with `ST_HEAP`. -/
def beforeHeap (secs : List Section) : List Section := secs.takeWhile fun s => !s.heap

/-- The first section with `ST_HEAP`, and the sections after it. -/
def fromHeap (secs : List Section) : List Section := secs.dropWhile fun s => !s.heap

/-- `init_heap`. -/
def initHeap (mem : Section) (va : ℕ) : Section :=
  { mem with file := false, swap := false, ro := false, heap := true, beginVa := va, endVa := va }

/-- `section->end += size`. -/
def Section.grow (h : Section) (size : ℤ) : Section :=
  { h with endVa := (h.endVa + u64 size) % 2 ^ 64 }

/-- `swapin` of a section that is swapped out, and `section->end -= size`,
for the amount by which the section shrinks. -/
def Section.shrink (h : Section) (size : ℤ) : Section :=
  { h with swap := false, endVa := u64 (h.endVa - size) }

/-- Where `sbrk` puts the heap of a process that has none. -/
def heapStart (secs : List Section) : ℕ := (pageBase (maxEnd secs) + pageSize * 4) % 2 ^ 64

/-- `sbrk`: the returned address and the new list, or `none` for a
`PANIC`. -/
def sbrk (mem : Section) (size : ℤ) (secs : List Section) : Option (ℕ × List Section) :=
  match fromHeap secs with
  | h :: rest =>
    if 0 ≤ size then some (h.endVa, beforeHeap secs ++ h.grow size :: rest)
    else if h.endVa < (u64 (-size) + h.beginVa) % 2 ^ 64 then none
    else some (h.endVa, beforeHeap secs ++ h.shrink (-size) :: rest)
  | [] =>
    if size < 0 then none
    else
      let s := (initHeap mem (heapStart secs)).grow size
      some (s.endVa, s :: secs)

/-- Where `sys_mmap` puts a section, for `addr = NULL`. -/
def mmapStart (secs : List Section) : ℕ := pageBase ((maxEnd secs + pageSize * 16) % 2 ^ 64)

/-- The section that `sys_mmap` makes of the file `ip` at `va`. -/
def mmapSection (ip va : ℕ) (length : ℤ) (write : Bool) (offset : ℤ) : Section where
  file := true
  swap := false
  ro := !write
  heap := false
  beginVa := va
  endVa := (va + u64 length) % 2 ^ 64
  ip := ip
  offset := u64 offset

/-- `sys_mmap`, where the descriptor stands for the file `ip`, or for
none that can be mapped. -/
def sysMmap (ip : Option ℕ) (addr : ℕ) (length : ℤ) (write : Bool) (offset : ℤ)
    (secs : List Section) : ℤ × List Section :=
  match ip with
  | none => (-1, secs)
  | some ip =>
    (0, mmapSection ip (if addr = 0 then mmapStart secs else addr) length write offset :: secs)

/-- The sum `(u64)addr + length`. -/
def munmapEnd (addr : ℕ) (length : ℤ) : ℕ := (addr + u64 length) % 2 ^ 64

/-- The test by which `sys_munmap` chooses the section. -/
def Section.holds (s : Section) (addr : ℕ) (length : ℤ) : Bool :=
  s.beginVa ≤ addr ∧ munmapEnd addr length < s.endVa

/-- The part of a section below `addr`. -/
def Section.below (s : Section) (addr : ℕ) : Section := { s with endVa := addr }

/-- The part of a section from `va` on. -/
def Section.above (s : Section) (va : ℕ) : Section :=
  { s with beginVa := va, offset := (s.offset + (va + (2 ^ 64 - s.beginVa))) % 2 ^ 64 }

/-- The sections that `sys_munmap` leaves of `s`, the last inserted
first. -/
def Section.parts (s : Section) (addr : ℕ) (length : ℤ) : List Section :=
  (if munmapEnd addr length < s.endVa then [s.above (munmapEnd addr length)] else []) ++
    if s.beginVa < addr then [s.below addr] else []

/-- `sys_munmap`, where the write to the file returns. The section may be
any section of the list, the stack and the heap included. -/
def sysMunmap (addr : ℕ) (length : ℤ) (secs : List Section) : ℤ × List Section :=
  match secs.dropWhile fun s => !s.holds addr length with
  | [] => (-1, secs)
  | s :: rest =>
    (0, s.parts addr length ++ ((secs.takeWhile fun s => !s.holds addr length) ++ rest))

/-- A program header, as far as the sections go. -/
structure Phdr where
  /-- `p_type == PT_LOAD`. -/
  load : Bool
  /-- `PF_R`, `PF_W` and `PF_X`. -/
  r : Bool
  w : Bool
  x : Bool
  vaddr : ℕ
  memsz : ℕ
  offset : ℕ
deriving DecidableEq

/-- The section of a segment of the file `ip`. A segment that can only be
read keeps the flags of the recycled memory. -/
def Phdr.toSection (ip : ℕ) (ph : Phdr) (mem : Section) : Section where
  file := if ph.r && (ph.w || ph.x) then true else mem.file
  swap := if ph.r && (ph.w || ph.x) then false else mem.swap
  ro := if ph.r && (ph.w || ph.x) then !ph.w else mem.ro
  heap := if ph.r && (ph.w || ph.x) then false else mem.heap
  beginVa := ph.vaddr
  endVa := (ph.vaddr + ph.memsz) % 2 ^ 64
  ip := ip
  offset := ph.offset

/-- The loop of `execve` over the program headers, each with the memory
that `kalloc` returns for it. -/
def loadSegments (ip : ℕ) (hdrs : List (Phdr × Section)) : List Section :=
  hdrs.foldl (fun secs x => if x.1.load then x.1.toSection ip x.2 :: secs else secs) []

/-- Where the stack begins: `PAGE_BASE(sp+PAGE_SIZE-1)`. -/
def stackStart (secs : List Section) : ℕ := pageBase ((maxEnd secs + (pageSize - 1)) % 2 ^ 64)

/-- The section of the stack. -/
def stackSection (mem : Section) (va : ℕ) : Section :=
  { mem with
    file := false
    swap := false
    ro := false
    heap := false
    beginVa := va
    endVa := (va + 5 * pageSize) % 2 ^ 64 }

/-- The sections of a process after a successful `execve`. -/
def execSections (ip : ℕ) (hdrs : List (Phdr × Section)) (mem : Section) : List Section :=
  Memory.copySections
    (stackSection mem (stackStart (loadSegments ip hdrs)) :: loadSegments ip hdrs)

/-- A call that changes the section list. -/
inductive SectionAct where
  | sbrk (mem : Section) (size : ℤ)
  | mmap (ip : Option ℕ) (addr : ℕ) (length : ℤ) (write : Bool) (offset : ℤ)
  | munmap (addr : ℕ) (length : ℤ)

/-- What a call does to the list. -/
def sectionStep (secs : List Section) : SectionAct → Option (List Section)
  | .sbrk mem size => (sbrk mem size secs).map Prod.snd
  | .mmap ip addr length write offset => some (sysMmap ip addr length write offset secs).2
  | .munmap addr length => some (sysMunmap addr length secs).2

/-! ## Ranges -/

namespace Section

variable {s t s' : Section}

/-- The ranges `[begin, end)` have no address in common. -/
def Separate (s t : Section) : Prop :=
  Disjoint (Set.Ico s.beginVa s.endVa) (Set.Ico t.beginVa t.endVa)

theorem separate_iff : s.Separate t ↔ min s.endVa t.endVa ≤ max s.beginVa t.beginVa :=
  Set.Ico_disjoint_Ico

instance : DecidableRel Separate := fun _ _ => decidable_of_iff _ separate_iff.symm

theorem Separate.symm (h : s.Separate t) : t.Separate s := Disjoint.symm h

/-- A smaller range is apart from whatever the larger one is. -/
theorem Separate.mono (h : s.Separate t) (hb : s.beginVa ≤ s'.beginVa) (he : s'.endVa ≤ s.endVa) :
    s'.Separate t := by
  rw [separate_iff] at h ⊢
  omega

theorem separate_of_le (h : t.endVa ≤ s.beginVa) : s.Separate t := by
  rw [separate_iff]
  omega

/-- An address lies in only one of two ranges that are apart. -/
theorem Separate.not_both (h : s.Separate t) (va : ℕ) :
    ¬ ((s.beginVa ≤ va ∧ va < s.endVa) ∧ t.beginVa ≤ va ∧ va < t.endVa) := by
  rintro ⟨hs, ht⟩
  exact Set.disjoint_left.1 h hs ht

end Section

open Section

variable {secs secs' pre post : List Section} {s h mem : Section}

theorem le_foldl_max (l : List Section) (b : ℕ) :
    b ≤ l.foldl (fun b s => max b s.endVa) b ∧
      ∀ s ∈ l, s.endVa ≤ l.foldl (fun b s => max b s.endVa) b := by
  induction l generalizing b with
  | nil => simp
  | cons t l ih =>
    obtain ⟨hb, hl⟩ := ih (max b t.endVa)
    refine ⟨(le_max_left _ _).trans hb, fun s hs => ?_⟩
    rcases List.mem_cons.1 hs with rfl | hs
    · exact (le_max_right _ _).trans hb
    · exact hl s hs

/-- No section ends above the maximum. -/
theorem le_maxEnd (hs : s ∈ secs) : s.endVa ≤ maxEnd secs := (le_foldl_max secs 0).2 s hs

/-- A section that begins above the maximum can join the list. -/
theorem pairwise_cons_of_le (hp : secs.Pairwise Separate) (hs : maxEnd secs ≤ s.beginVa) :
    (s :: secs).Pairwise Separate :=
  List.pairwise_cons.2 ⟨fun _ ht => separate_of_le ((le_maxEnd ht).trans hs), hp⟩

/-- The order of the list does not matter. -/
theorem pairwise_separate_perm (hp : secs.Pairwise Separate) (hperm : secs.Perm secs') :
    secs'.Pairwise Separate :=
  (hperm.pairwise_iff Separate.symm).1 hp

/-- One section of the list can be replaced by one that stays clear of the
others. -/
theorem pairwise_replace (hp : (pre ++ h :: post).Pairwise Separate)
    (hs : ∀ t ∈ pre ++ post, s.Separate t) : (pre ++ s :: post).Pairwise Separate := by
  have hrest := (List.pairwise_cons.1 (pairwise_separate_perm hp List.perm_middle)).2
  exact pairwise_separate_perm (List.pairwise_cons.2 ⟨hs, hrest⟩) List.perm_middle.symm

/-- What the section in the middle of the list keeps clear of. -/
theorem separate_of_pairwise (hp : (pre ++ h :: post).Pairwise Separate) :
    ∀ t ∈ pre ++ post, h.Separate t :=
  (List.pairwise_cons.1 (pairwise_separate_perm hp List.perm_middle)).1

theorem beforeHeap_append_fromHeap (secs : List Section) :
    beforeHeap secs ++ fromHeap secs = secs :=
  List.takeWhile_append_dropWhile

theorem u64_of_nonneg {n : ℤ} (h : 0 ≤ n) (h' : n < 2 ^ 64) : (u64 n : ℤ) = n := by
  unfold u64
  omega

theorem lt_pageBase_add (va : ℕ) : va < pageBase va + pageSize := by
  have := Nat.mod_lt va (show 0 < pageSize by decide)
  unfold pageBase
  omega

/-! ## The calls -/

/-- From the end of the heap to each section above it there are `size` bytes. -/
def GrowthRoom (size : ℤ) (h : Section) (others : List Section) : Prop :=
  h.endVa + size < 2 ^ 64 ∧ ∀ t ∈ others, t.beginVa < t.endVa → h.beginVa < t.endVa →
    h.endVa + size ≤ t.beginVa

instance (size : ℤ) (h : Section) (others : List Section) : Decidable (GrowthRoom size h others) :=
  inferInstanceAs (Decidable (_ ∧ _))

/-- What a call of `sbrk` needs, for the sections before the heap and from
the heap on: a heap that grows has room, and the place of a new heap and the
lower bound of a shrinking one do not wrap around. -/
def SbrkRoom (size : ℤ) (pre : List Section) : List Section → Prop
  | h :: post => if 0 ≤ size then GrowthRoom size h (pre ++ post) else h.beginVa - size < 2 ^ 64
  | [] => pageBase (maxEnd pre) + pageSize * 4 < 2 ^ 64

instance (size : ℤ) (pre : List Section) : (l : List Section) → Decidable (SbrkRoom size pre l)
  | h :: post =>
    inferInstanceAs (Decidable
      (if 0 ≤ size then GrowthRoom size h (pre ++ post) else h.beginVa - size < 2 ^ 64))
  | [] => inferInstanceAs (Decidable (_ < _))

/-- **What the section list needs of a call.** `sbrk` has room, a `munmap`
has no negative length, and neither its range nor the place of a new
mapping wraps around at `2 ^ 64`. -/
def HasRoom (secs : List Section) : SectionAct → Prop
  | .sbrk _ size => SbrkRoom size (beforeHeap secs) (fromHeap secs)
  | .mmap .. => maxEnd secs + pageSize * 16 < 2 ^ 64
  | .munmap addr length => 0 ≤ length ∧ addr + length < 2 ^ 64

instance (secs : List Section) : (a : SectionAct) → Decidable (HasRoom secs a)
  | .sbrk _ size => inferInstanceAs (Decidable (SbrkRoom size (beforeHeap secs) (fromHeap secs)))
  | .mmap .. => inferInstanceAs (Decidable (_ < _))
  | .munmap addr length => inferInstanceAs (Decidable (0 ≤ length ∧ addr + length < 2 ^ 64))

/-- `mmap` is called with `addr = NULL` and a length of at least 0. -/
def MapsAnywhere : SectionAct → Prop
  | .mmap _ addr length _ _ => addr = 0 ∧ 0 ≤ length
  | _ => True

instance : DecidablePred MapsAnywhere
  | .mmap _ addr length _ _ => inferInstanceAs (Decidable (addr = 0 ∧ 0 ≤ length))
  | .sbrk .. => inferInstanceAs (Decidable True)
  | .munmap .. => inferInstanceAs (Decidable True)

/-- A heap that has room grows clear of the other sections. -/
theorem grow_separate {size : ℤ} {others : List Section} (hsize : 0 ≤ size)
    (hroom : GrowthRoom size h others) (hs : s ∈ others) : (h.grow size).Separate s := by
  have hu := u64_of_nonneg hsize (by have := hroom.1; omega)
  have hlt : h.endVa + u64 size < 2 ^ 64 := by have := hroom.1; omega
  have hend := hroom.2 s hs
  rw [separate_iff]
  simp only [Section.grow, Nat.mod_eq_of_lt hlt]
  omega

/-- A heap that shrinks only gives addresses up. -/
theorem shrink_endVa_le {size : ℤ} (hsize : 0 ≤ size) (hroom : h.beginVa + size < 2 ^ 64)
    (hok : ¬ h.endVa < (u64 size + h.beginVa) % 2 ^ 64) : (h.shrink size).endVa ≤ h.endVa := by
  have hu := u64_of_nonneg hsize (by omega)
  have hlt : u64 size + h.beginVa < 2 ^ 64 := by omega
  rw [Nat.mod_eq_of_lt hlt] at hok
  simp only [Section.shrink, u64]
  omega

/-- `sbrk` keeps the sections apart. -/
theorem sbrk_separate {size : ℤ} {r : ℕ} (hp : secs.Pairwise Separate)
    (hroom : HasRoom secs (.sbrk mem size)) (hs : sbrk mem size secs = some (r, secs')) :
    secs'.Pairwise Separate := by
  have hsplit := beforeHeap_append_fromHeap secs
  unfold sbrk at hs
  simp only [HasRoom] at hroom
  cases hfrom : fromHeap secs with
  | nil =>
    rw [hfrom, List.append_nil] at hsplit
    rw [hfrom, hsplit] at hroom
    rw [hfrom] at hs
    simp only [SbrkRoom] at hs hroom
    split at hs
    · cases hs
    obtain ⟨-, rfl⟩ := pair_inj hs
    -- the heap begins more than three pages above the largest end
    refine pairwise_cons_of_le hp ?_
    show maxEnd secs ≤ heapStart secs
    have hlt := lt_pageBase_add (maxEnd secs)
    unfold heapStart
    omega
  | cons h post =>
    rw [hfrom] at hs hroom hsplit
    simp only [SbrkRoom] at hs hroom
    rw [← hsplit] at hp
    split at hs
    next hsize =>
      rw [if_pos hsize] at hroom
      obtain ⟨-, rfl⟩ := pair_inj hs
      exact pairwise_replace hp fun t ht => grow_separate hsize hroom ht
    next hsize =>
      rw [if_neg hsize] at hroom
      split at hs
      · cases hs
      next hok =>
        obtain ⟨-, rfl⟩ := pair_inj hs
        refine pairwise_replace hp fun t ht => ?_
        have hle := shrink_endVa_le (by omega) (by omega) hok
        exact (separate_of_pairwise hp t ht).mono le_rfl hle

/-- `sys_mmap` chooses an address above all sections. -/
theorem maxEnd_le_mmapStart (hroom : maxEnd secs + pageSize * 16 < 2 ^ 64) :
    maxEnd secs ≤ mmapStart secs := by
  have hlt := lt_pageBase_add (maxEnd secs + pageSize * 16)
  have hpage : (pageSize : ℕ) = 4096 := rfl
  rw [mmapStart, Nat.mod_eq_of_lt hroom]
  omega

/-- `sys_mmap` puts its section above all others. -/
theorem sysMmap_separate {ip : Option ℕ} {length offset : ℤ} {write : Bool}
    (hp : secs.Pairwise Separate) (hroom : HasRoom secs (.mmap ip 0 length write offset)) :
    (sysMmap ip 0 length write offset secs).2.Pairwise Separate := by
  cases ip with
  | none => exact hp
  | some ip =>
    rw [sysMmap, if_pos rfl]
    exact pairwise_cons_of_le hp (maxEnd_le_mmapStart hroom)

/-- The parts that `sys_munmap` leaves of a section are apart from each
other, and lie in it. -/
theorem parts_separate {addr : ℕ} {length : ℤ} (hlen : 0 ≤ length)
    (haddr : addr + length < 2 ^ 64) (hs : s.holds addr length) :
    (s.parts addr length).Pairwise Separate ∧
      ∀ t ∈ s.parts addr length, s.beginVa ≤ t.beginVa ∧ t.endVa ≤ s.endVa := by
  have hu := u64_of_nonneg hlen (by omega)
  have hend : munmapEnd addr length = addr + length := by
    unfold munmapEnd
    omega
  simp only [Section.holds, decide_eq_true_eq] at hs
  obtain ⟨hb, he⟩ := hs
  constructor
  · unfold Section.parts
    split_ifs
    · simp only [List.cons_append, List.nil_append, List.pairwise_cons, List.mem_singleton]
      refine ⟨?_, ?_, List.Pairwise.nil⟩
      · rintro t rfl
        exact separate_of_le (by simp only [Section.above, Section.below]; omega)
      · simp
    all_goals simp
  · intro t ht
    simp only [Section.parts, List.mem_append, List.mem_ite_nil_right, List.mem_singleton] at ht
    rcases ht with ⟨-, rfl⟩ | ⟨-, rfl⟩
    · exact ⟨by simp only [Section.above]; omega, le_rfl⟩
    · exact ⟨le_rfl, by simp only [Section.below]; omega⟩

/-- `sys_munmap` keeps the sections apart. -/
theorem sysMunmap_separate {addr : ℕ} {length : ℤ} (hp : secs.Pairwise Separate)
    (hroom : HasRoom secs (.munmap addr length)) :
    (sysMunmap addr length secs).2.Pairwise Separate := by
  obtain ⟨hlen, haddr⟩ := hroom
  have hsplit := List.takeWhile_append_dropWhile (p := fun s => !s.holds addr length) (l := secs)
  unfold sysMunmap
  cases hfrom : secs.dropWhile fun s => !s.holds addr length with
  | nil => exact hp
  | cons s rest =>
    have hs : s.holds addr length := by
      have := List.head_dropWhile_not (fun s : Section => !s.holds addr length)
        (l := secs) (by rw [hfrom]; simp)
      simpa [hfrom] using this
    rw [hfrom] at hsplit
    rw [← hsplit] at hp
    obtain ⟨hparts, hsub⟩ := parts_separate hlen haddr hs
    have hperm := pairwise_separate_perm hp List.perm_middle
    refine List.pairwise_append.2 ⟨hparts, (List.pairwise_cons.1 hperm).2, ?_⟩
    intro t ht u hu
    exact (separate_of_pairwise hp u hu).mono (hsub t ht).1 (hsub t ht).2

/-- **Every call keeps the sections apart.** -/
theorem sectionStep_separate {a : SectionAct} (hp : secs.Pairwise Separate)
    (ha : MapsAnywhere a ∧ HasRoom secs a) (hs : sectionStep secs a = some secs') :
    secs'.Pairwise Separate := by
  obtain ⟨hmap, hroom⟩ := ha
  cases a with
  | sbrk mem size =>
    obtain ⟨⟨r, l⟩, hl, rfl⟩ := Option.map_eq_some_iff.1 hs
    exact sbrk_separate hp hroom hl
  | mmap ip addr length write offset =>
    obtain ⟨rfl, -⟩ := hmap
    obtain rfl := Option.some.inj hs
    exact sysMmap_separate hp hroom
  | munmap addr length =>
    obtain rfl := Option.some.inj hs
    exact sysMunmap_separate hp hroom

/-! ## From `execve` on -/

/-- The segments that `execve` loads have no address in common. -/
def SegmentsDisjoint (hdrs : List (Phdr × Section)) : Prop :=
  (hdrs.filter fun x => x.1.load).Pairwise fun x y =>
    Disjoint (Set.Ico x.1.vaddr (x.1.vaddr + x.1.memsz)) (Set.Ico y.1.vaddr (y.1.vaddr + y.1.memsz))

/-- The loop of `execve` as a list: the sections of the loaded segments,
the last one first. -/
theorem loadSegments_eq (ip : ℕ) (hdrs : List (Phdr × Section)) :
    loadSegments ip hdrs =
      ((hdrs.filter fun x => x.1.load).map fun x => x.1.toSection ip x.2).reverse := by
  suffices ∀ acc, hdrs.foldl (fun secs x => if x.1.load then x.1.toSection ip x.2 :: secs else secs)
      acc = ((hdrs.filter fun x => x.1.load).map fun x => x.1.toSection ip x.2).reverse ++ acc by
    simpa [loadSegments] using this []
  induction hdrs with
  | nil => simp
  | cons x hdrs ih =>
    intro acc
    cases hx : x.1.load <;> simp [hx, ih]

/-- Disjoint segments become sections that are apart. A segment whose end
exceeds `u64` becomes an empty section. -/
theorem loadSegments_separate {ip : ℕ} {hdrs : List (Phdr × Section)} (hd : SegmentsDisjoint hdrs) :
    (loadSegments ip hdrs).Pairwise Separate := by
  rw [loadSegments_eq, List.pairwise_reverse, List.pairwise_map]
  refine hd.imp fun {x y} hxy => ?_
  refine (Disjoint.mono ?_ ?_ hxy.symm : Disjoint _ _)
  · exact Set.Ico_subset_Ico_right (Nat.mod_le _ _)
  · exact Set.Ico_subset_Ico_right (Nat.mod_le _ _)

/-- The sections that `execve` leaves are apart. -/
theorem execSections_separate {ip : ℕ} {hdrs : List (Phdr × Section)} (hd : SegmentsDisjoint hdrs)
    (hfit : maxEnd (loadSegments ip hdrs) + (pageSize - 1) < 2 ^ 64) :
    (execSections ip hdrs mem).Pairwise Separate := by
  refine pairwise_separate_perm (pairwise_cons_of_le (loadSegments_separate hd) ?_)
    (List.reverse_perm _).symm
  show maxEnd (loadSegments ip hdrs) ≤ stackStart (loadSegments ip hdrs)
  have hlt := lt_pageBase_add ((maxEnd (loadSegments ip hdrs) + (pageSize - 1)) % 2 ^ 64)
  have hpage : (pageSize : ℕ) = 4096 := rfl
  unfold stackStart
  omega

/-- **The sections of a process stay disjoint.** From an `execve` of a
file with disjoint segments, through any calls of `sbrk`, `mmap` and
`munmap` that have room, no two sections have an address in common, so a
search for the section of an address has only one answer. -/
theorem sections_disjoint {ip : ℕ} {hdrs : List (Phdr × Section)}
    {tr : List (List Section × SectionAct)} (hd : SegmentsDisjoint hdrs)
    (hfit : maxEnd (loadSegments ip hdrs) + (pageSize - 1) < 2 ^ 64)
    (hrun : Run sectionStep (execSections ip hdrs mem) tr secs)
    (hmap : ∀ x ∈ tr, MapsAnywhere x.2) (hroom : ∀ x ∈ tr, HasRoom x.1 x.2) :
    (secs.Pairwise fun s t =>
      Disjoint (Set.Ico s.beginVa s.endVa) (Set.Ico t.beginVa t.endVa)) ∧
    ∀ (va i j : ℕ) (s t : Section), secs[i]? = some s → secs[j]? = some t →
      s.beginVa ≤ va ∧ va < s.endVa → t.beginVa ≤ va ∧ va < t.endVa → i = j := by
  have hp : secs.Pairwise Separate :=
    hrun.invariantOf (K := fun secs a => MapsAnywhere a ∧ HasRoom secs a)
      (I := fun secs => secs.Pairwise Separate) (fun x hx => ⟨hmap x hx, hroom x hx⟩)
      (execSections_separate hd hfit) fun _ _ _ hp ha hs => sectionStep_separate hp ha hs
  refine ⟨hp, fun va i j s t hi hj hs ht => ?_⟩
  obtain ⟨hilt, rfl⟩ := List.getElem?_eq_some_iff.1 hi
  obtain ⟨hjlt, rfl⟩ := List.getElem?_eq_some_iff.1 hj
  by_contra hne
  rcases Nat.lt_or_gt_of_ne hne with hlt | hlt
  · exact (List.pairwise_iff_getElem.1 hp i j hilt hjlt hlt).not_both va ⟨hs, ht⟩
  · exact (List.pairwise_iff_getElem.1 hp j i hjlt hilt hlt).not_both va ⟨ht, hs⟩

/-- Cleared memory of a section. -/
def zeroSection : Section :=
  { file := false, swap := false, ro := false, heap := false, beginVa := 0, endVa := 0, ip := 0,
    offset := 0 }

/-- A text segment of two pages and a data segment above it. -/
def twoSegments : List (Phdr × Section) :=
  [(⟨true, true, false, true, 0x400000, 0x2000, 0⟩, zeroSection),
    (⟨true, true, true, false, 0x402000, 0x30, 0⟩, zeroSection)]

/-- A heap, a mapping above it, a hole in the mapping, and a heap that
grows below the mapping and shrinks again. -/
def roomyCalls : List SectionAct :=
  [.sbrk zeroSection 0x1000, .mmap (some 3) 0 0x3000 true 0, .munmap 0x41d800 0x1000,
    .sbrk zeroSection 0x4000, .sbrk zeroSection (-0x2000), .sbrk zeroSection 0]

theorem sections_disjoint_roomyCalls :
    ∃ secs, exec sectionStep (execSections 7 twoSegments zeroSection) roomyCalls = some secs ∧
      secs.length = 6 ∧ secs.Pairwise fun s t =>
        Disjoint (Set.Ico s.beginVa s.endVa) (Set.Ico t.beginVa t.endVa) := by
  have hsome : (exec sectionStep (execSections 7 twoSegments zeroSection) roomyCalls).any
      (fun secs => secs.length = 6) = true := by decide +kernel
  obtain ⟨secs, hsecs, hlen⟩ := (Option.any_eq_true _ _).1 hsome
  refine ⟨secs, hsecs, by simpa using hlen, ?_⟩
  refine (sections_disjoint ?_ (by decide +kernel) (Run.of_exec hsecs) ?_ ?_).1
  · simp only [SegmentsDisjoint, Set.Ico_disjoint_Ico]
    decide
  · exact forall_execTrace hsecs (by decide)
  · decide +kernel

/-- **The heap grows into a mapping.** `sbrk` puts the heap four pages
above the stack and `mmap` puts its section sixteen pages above the end of
the heap; a second `sbrk` of seventeen pages ends in the mapping. -/
theorem heap_grows_into_mapping :
    SegmentsDisjoint twoSegments ∧
    (exec sectionStep (execSections 7 twoSegments zeroSection)
      [.sbrk zeroSection 0, .mmap (some 3) 0 0x3000 true 0, .sbrk zeroSection 0x11000]).any
        (fun secs => ¬ secs.Pairwise Separate) = true := by
  constructor
  · simp only [SegmentsDisjoint, Set.Ico_disjoint_Ico]
    decide
  · decide +kernel

end OsKernel.Paging
