import Mathlib

/-!
# Message queues — the bytes of a message

`load_msg` and `store_msg` of `common/ipc.c`: a message lies in a first
page and in a chain of further ones. Both functions advance their pointer
by what the *next* page will take, since they subtract from the length
first. The two agree about where each page belongs, but a message is whole
only if no page takes less than the one before it, except for the last one
of a message of one or two pages (`message_roundtrip`); otherwise its last
byte is never written (`storeLoop_last`).
-/

namespace OsKernel.Ipc

/-- `MSG_MSGSZ`, the bytes of a page after its `msg_msg`. -/
abbrev msgSz : ℕ := 4096 - 32

/-- `MSG_MSGSEGSZ`, the bytes of a page after its `msg_msgseg`. -/
abbrev segSz : ℕ := 4096 - 8

/-- The bytes from a pointer on. -/
abbrev Buffer := ℕ → UInt8

/-- `memcpy(dst + d, src + s, n)`. -/
def memcpy (dst : Buffer) (d : ℕ) (src : Buffer) (s n : ℕ) : Buffer := fun i =>
  if d ≤ i ∧ i < d + n then src (s + (i - d)) else dst i

/-- `msg_msg`, with the segments that `nxt` leads to. -/
structure LoadedMsg where
  mtype : ℤ
  size : ℕ
  data : Buffer
  segs : List Buffer

/-- The loop of `load_msg`, with `len` bytes to go. `kalloc_page` returns the
pages of a list, and then `NULL`. -/
def loadLoop (src : Buffer) : (pages : List Buffer) → (pos len : ℕ) → Option (List Buffer)
  | [], _, len => if 0 < len then none else some []
  | page :: pages, pos, len =>
    if 0 < len then
      (loadLoop src pages (pos + min segSz (len - min segSz len)) (len - min segSz len)).map fun l =>
        memcpy page 0 src pos (min segSz len) :: l
    else some []

/-- `load_msg`, and what `sys_msgsnd` writes into the message. -/
def loadMsg (pages : List Buffer) (mtype : ℤ) (src : Buffer) (len : ℕ) : Option LoadedMsg :=
  match pages with
  | [] => none
  | page :: pages =>
    let rest := len - min msgSz len
    (loadLoop src pages (min msgSz rest) rest).map fun segs =>
      ⟨mtype, len, memcpy page 0 src 0 (min msgSz len), segs⟩

/-- The loop of `store_msg`; `none` where `sg` is `NULL`. -/
def storeLoop : (segs : List Buffer) → (dst : Buffer) → (pos msgsz : ℕ) → Option Buffer
  | [], dst, _, msgsz => if 0 < msgsz then none else some dst
  | sg :: segs, dst, pos, msgsz =>
    if 0 < msgsz then
      let rest := msgsz - min msgsz segSz
      storeLoop segs (memcpy dst pos sg 0 (min msgsz segSz)) (pos + min rest segSz) rest
    else some dst

/-- The end of `sys_msgrcv`: `store_msg` of as many bytes as the message has,
into a buffer for `msgsz`. -/
def storeMsg (dst : Buffer) (msg : LoadedMsg) (msgsz : ℕ) : Option (ℤ × Buffer) :=
  let len := min msgsz msg.size
  let rest := len - min msgSz len
  (storeLoop msg.segs (memcpy dst 0 msg.data 0 (min len msgSz)) (min msgSz rest) rest).map fun dst =>
    (msg.mtype, dst)

/-- A page brings the bytes it was loaded with to their old place. -/
theorem memcpy_back (dst src page : Buffer) (pos n i : ℕ) :
    memcpy dst pos (memcpy page 0 src pos n) 0 n i =
      if pos ≤ i ∧ i < pos + n then src i else dst i := by
  unfold memcpy
  split_ifs with hi hin
  · congr 1
    omega
  · omega
  · rfl

/-- **The segments bring their bytes back**, where all of them are full, or
there is one. -/
theorem storeLoop_loadLoop (src : Buffer) (pages : List Buffer) : ∀ (dst : Buffer) (pos len : ℕ),
    len ≤ segSz * pages.length → len ≤ segSz ∨ segSz ∣ len →
    ∃ segs dst', loadLoop src pages pos len = some segs ∧ storeLoop segs dst pos len = some dst' ∧
      ∀ i, dst' i = if pos ≤ i ∧ i < pos + len then src i else dst i := by
  have hseg : segSz = 4088 := rfl
  induction pages with
  | nil =>
    intro dst pos len hpages _
    obtain rfl : len = 0 := by simpa using hpages
    refine ⟨[], dst, rfl, rfl, fun i => ?_⟩
    rw [if_neg (by omega)]
  | cons page pages ih =>
    intro dst pos len hpages hlen
    rw [List.length_cons] at hpages
    by_cases hpos : 0 < len
    · have hrest : len - min segSz len ≤ segSz * pages.length := by
        rw [hseg] at hpages ⊢
        omega
      have hfull : len - min segSz len ≤ segSz ∨ segSz ∣ len - min segSz len := by
        rw [hseg] at hlen ⊢
        omega
      obtain ⟨segs, dst', hload, hstore, hbytes⟩ :=
        ih (memcpy dst pos (memcpy page 0 src pos (min segSz len)) 0 (min segSz len))
          (pos + min segSz (len - min segSz len)) _ hrest hfull
      refine ⟨memcpy page 0 src pos (min segSz len) :: segs, dst', ?_, ?_, fun i => ?_⟩
      · rw [loadLoop, if_pos hpos, hload, Option.map_some]
      · rw [storeLoop, if_pos hpos]
        simp only [min_comm _ segSz]
        exact hstore
      · rw [hbytes, memcpy_back]
        -- the next segment begins where this one ends, unless this is the last
        rw [hseg] at hlen ⊢
        split_ifs <;> first | rfl | omega
    · obtain rfl : len = 0 := by omega
      refine ⟨[], dst, rfl, rfl, fun i => ?_⟩
      rw [if_neg (by omega)]

/-- **The last byte is not written** where a page takes less than the one before
it, and there is another one before that. -/
theorem storeLoop_last (segs : List Buffer) : ∀ {dst dst' : Buffer} {pos len i : ℕ},
    storeLoop segs dst pos len = some dst' → (len ≤ segSz → pos + len ≤ i) →
    (segSz < len → ¬segSz ∣ len ∧ pos + len ≤ i + 1) → dst' i = dst i := by
  have hseg : segSz = 4088 := rfl
  induction segs with
  | nil =>
    intro dst dst' pos len i h _ _
    rw [storeLoop] at h
    split_ifs at h
    rw [Option.some.inj h]
  | cons sg segs ih =>
    intro dst dst' pos len i h hshort hlong
    rw [storeLoop] at h
    split_ifs at h
    · rw [hseg] at hshort hlong
      rw [ih h (by rw [hseg]; omega) (by rw [hseg]; omega)]
      exact if_neg (by omega)
    · rw [Option.some.inj h]

/-- **Messages arrive as sent**, whatever they and the pages contain, just when
the message has one page, a second one that takes at least as much as the first,
or further ones that are all full. -/
theorem message_roundtrip {n len msgsz : ℕ} (henough : len ≤ msgSz + segSz * n)
    (hmsgsz : len ≤ msgsz) :
    (∀ (pages : List Buffer) (mtype : ℤ) (src dst : Buffer), pages.length = n + 1 →
      ∃ msg dst', loadMsg pages mtype src len = some msg ∧
        storeMsg dst msg msgsz = some (mtype, dst') ∧ (∀ i < len, dst' i = src i) ∧
        ∀ i, len ≤ i → dst' i = dst i) ↔
    (len ≤ msgSz ∨ msgSz ≤ len - msgSz ∧ (len - msgSz ≤ segSz ∨ segSz ∣ len - msgSz)) := by
  have hseg : segSz = 4088 := rfl
  have hmsg : msgSz = 4064 := rfl
  constructor
  · intro hall
    by_contra hlen
    obtain ⟨msg, dst', hload, hstore, hbytes, -⟩ :=
      hall (List.replicate (n + 1) fun _ => 0) 1 (fun _ => 1) (fun _ => 0) (by simp)
    obtain ⟨segs, -, rfl⟩ := Option.map_eq_some_iff.1 hload
    obtain ⟨_, hloop, hdst⟩ := Option.map_eq_some_iff.1 hstore
    obtain ⟨-, rfl⟩ := Prod.mk.inj hdst
    -- the first page does not reach the last byte, and the others do not either
    have hlast := storeLoop_last segs (i := len - 1) hloop
      (by simp only [hseg, hmsg] at *; omega) (by simp only [hseg, hmsg] at *; omega)
    rw [hbytes (len - 1) (by omega), memcpy, if_neg (by omega)] at hlast
    exact absurd hlast (by decide)
  intro hlen pages mtype src dst hpages
  obtain ⟨page, pages, rfl⟩ := List.exists_cons_of_length_eq_add_one hpages
  rw [List.length_cons, Nat.add_right_cancel_iff] at hpages
  subst hpages
  have hrest : len - min msgSz len ≤ segSz * pages.length := by omega
  have hfull : len - min msgSz len ≤ segSz ∨ segSz ∣ len - min msgSz len := by
    rw [hseg] at hlen ⊢
    omega
  obtain ⟨segs, dst', hload, hstore, hbytes⟩ := storeLoop_loadLoop src pages
    (memcpy dst 0 (memcpy page 0 src 0 (min msgSz len)) 0 (min msgSz len))
    (min msgSz (len - min msgSz len)) _ hrest hfull
  have hbyte : ∀ i, dst' i = if i < len then src i else dst i := by
    intro i
    rw [hbytes, memcpy_back]
    split_ifs <;> first | rfl | omega
  refine ⟨⟨mtype, len, memcpy page 0 src 0 (min msgSz len), segs⟩, dst', ?_, ?_, fun i hi => ?_,
    fun i hi => ?_⟩
  · simp only [loadMsg, hload, Option.map_some]
  · simp only [storeMsg, min_eq_right hmsgsz, min_comm len, hstore, Option.map_some]
  · rw [hbyte, if_pos hi]
  · rw [hbyte, if_neg (by omega)]

/-- A message with two full segments. -/
theorem message_roundtrip_segments : ∃ msg dst',
    loadMsg [fun _ => 0, fun _ => 1, fun _ => 2] 5 UInt8.ofNat 12240 = some msg ∧
      storeMsg (fun _ => 0) msg 20000 = some (5, dst') ∧ ∀ i < 12240, dst' i = UInt8.ofNat i := by
  obtain ⟨msg, dst', hload, hstore, hbytes, -⟩ :=
    (@message_roundtrip 2 12240 20000 (by decide) (by decide)).2
      (by decide) [fun _ => 0, fun _ => 1, fun _ => 2] 5 UInt8.ofNat (fun _ => 0) rfl
  exact ⟨msg, dst', hload, hstore, hbytes⟩

/-- **The last byte of a message of 4065 bytes is lost**: the second page is
filled from, and written to, the second byte. -/
theorem message_last_byte_lost :
    ((loadMsg [fun _ => 0, fun _ => 0] 1 (fun _ => 7) 4065).bind fun msg =>
      (storeMsg (fun _ => 0) msg 4065).map fun r => (r.2 4063, r.2 4064)) = some (7, 0) := by
  decide +kernel

end OsKernel.Ipc
