import OsKernel.Fs.Helpers.FileOps
import OsKernel.Fs.Model.SharedFile

/-!
# The file system — what a transfer returns

The bounds of `inode_read` and `inode_write` of a regular file, from the
code alone: where they return, the bytes transferred end within the file,
or within the largest file. So the offset of a `File` does not wrap.
-/

namespace OsKernel.Fs

open Cache

variable {sb : SuperBlock} {fs fs' : FS} {m m' : Blocks} {e e' : InodeEntry} {ino : Inode}
variable {i k b o t n stop off : ℕ} {c : FileCall} {src : List UInt8}

/-- `inode_map` keeps the type. -/
theorem type_inodeMap (h : inodeMap sb m e k = some (b, m', e')) : e'.type = e.type := by
  unfold inodeMap at h
  split at h
  · split at h
    · obtain ⟨r, -, hr⟩ := Option.map_eq_some_iff.1 h
      cases hr
      rfl
    · cases h
      rfl
  · split at h
    · obtain ⟨⟨m₁, e₁⟩, hind, h⟩ := Option.bind_eq_some_iff.1 h
      have htype : e₁.type = e.type := by
        unfold ensureIndirect at hind
        split at hind
        · obtain ⟨r, -, hr⟩ := Option.map_eq_some_iff.1 hind
          cases hr
          rfl
        · cases hind
          rfl
      rw [← htype]
      simp only [mapIndirect] at h
      split at h
      · obtain ⟨r, -, hr⟩ := Option.map_eq_some_iff.1 h
        cases hr
        rfl
      · cases h
        rfl
    · cases h

/-- The read loop reads up to `stop`. -/
theorem length_readLoop {l : List UInt8} (hloop : LoopAt k i o stop)
    (h : readLoop sb k i o stop m e = some (l, m', e')) :
    l.length = stop - o ∧ e'.type = e.type := by
  induction k generalizing i o m e l with
  | zero =>
    obtain rfl := hloop.eq
    cases h
    simp
  | succ k ih =>
    rw [readLoop] at h
    obtain ⟨⟨b, m₁, e₁⟩, hmap, h⟩ := Option.bind_eq_some_iff.1 h
    obtain ⟨⟨rest, m₂, e₂⟩, hrest, h⟩ := Option.bind_eq_some_iff.1 h
    cases h
    obtain ⟨-, -, hle, hnext, -⟩ := hloop.round rfl
    obtain ⟨hlen, htype⟩ := ih hnext hrest
    rw [List.length_append, List.length_map, List.length_range, hlen, htype]
    exact ⟨by omega, type_inodeMap hmap⟩

/-- The write loop writes up to `stop`. -/
theorem count_writeLoop (hloop : LoopAt k i o stop)
    (h : writeLoop sb k i o stop src m e = some (n, m', e')) :
    n = stop - o ∧ e'.type = e.type := by
  induction k generalizing i o m e n src with
  | zero =>
    obtain rfl := hloop.eq
    cases h
    simp
  | succ k ih =>
    rw [writeLoop] at h
    obtain ⟨⟨b, m₁, e₁⟩, hmap, h⟩ := Option.bind_eq_some_iff.1 h
    obtain ⟨⟨count, m₂, e₂⟩, hrest, h⟩ := Option.bind_eq_some_iff.1 h
    cases h
    obtain ⟨-, -, hle, hnext, -⟩ := hloop.round rfl
    obtain ⟨hcount, htype⟩ := ih hnext hrest
    rw [hcount, htype]
    exact ⟨by omega, type_inodeMap hmap⟩

/-- What a read of a regular file returns. -/
theorem inodeRead_bounds {l : List UInt8} {console : ℕ → List UInt8}
    (hreg : e.type = inodeRegular) (ht : t < 2 ^ 64)
    (h : inodeRead sb console m e off t = some (l, m', e')) :
    off + l.length ≤ e.numBytes.toNat ∧ e'.type = inodeRegular := by
  have hdev : e.type ≠ inodeDevice := by
    rw [hreg]
    decide
  simp only [inodeRead, if_neg hdev] at h
  set count := if e.numBytes.toNat < (t + off) % 2 ^ 64
    then (e.numBytes.toNat + (2 ^ 64 - off)) % 2 ^ 64 else t with hcount
  have hlt : count < 2 ^ 64 := by
    rw [hcount]
    split
    · exact Nat.mod_lt _ (by decide)
    · exact ht
  clear_value count
  by_cases hguard : off ≤ e.numBytes.toNat ∧ (off + count) % 2 ^ 64 ≤ e.numBytes.toNat ∧
      off ≤ (off + count) % 2 ^ 64
  · rw [if_pos hguard] at h
    obtain ⟨ho, hstop, hle⟩ := hguard
    by_cases hzero : count = 0
    · rw [if_pos hzero] at h
      cases h
      exact ⟨ho, hreg⟩
    · rw [if_neg hzero] at h
      obtain ⟨hlen, htype⟩ := length_readLoop (LoopAt.start (by omega)) h
      exact ⟨by omega, htype.trans hreg⟩
  · rw [if_neg hguard] at h
    cases h

/-- A regular file whose entry is loaded. -/
def Inode.Regular (ino : Inode) : Prop := ino.valid = true ∧ ino.entry.type = inodeRegular

/-- What a write to a regular file returns. -/
theorem inodeWrite_bounds {ino' : Inode} (hreg : ino.Regular) (hpos : 0 < src.length)
    (hlen : src.length < 2 ^ 64) (h : inodeWrite sb m i ino off src = some (n, m', ino')) :
    n = src.length ∧ off + n ≤ inodeMaxBytes ∧ ino'.Regular := by
  obtain ⟨hvalid, hreg⟩ := hreg
  have hdev : ino.entry.type ≠ inodeDevice := by
    rw [hreg]
    decide
  obtain ⟨-, hmax, m₁, e₁, hloop, hend⟩ := inodeWrite_loop hdev hvalid hpos hlen h
  obtain ⟨hcount, htype⟩ := count_writeLoop (LoopAt.start (by omega)) hloop
  refine ⟨by omega, by omega, ?_⟩
  split at hend
  · obtain ⟨rfl, -⟩ := hend
    exact ⟨hvalid, htype.trans hreg⟩
  · obtain ⟨rfl, -⟩ := hend
    exact ⟨hvalid, htype.trans hreg⟩

/-- The argument `t` of a call to the inode layer. -/
def FileCall.Arg (t : ℕ) : FileCall → Prop
  | .read _ => t < 2 ^ 64
  | .write src => t = src.length ∧ 0 < src.length ∧ src.length ≤ maxWrite

/-- What the inode layer returns to a call. -/
def FileCall.Result (t : ℕ) : FileCall → Prop
  | .read _ => True
  | .write src => t = src.length ∧ src.length ≤ maxWrite

/-- **A transfer on a regular file** ends below `2 ^ 64`, and a write
transfers all. -/
theorem FileCall.transfer_spec (hino : fs.icache i = some ino)
    (hreg : ino.Regular) (hc : c.Arg t) (h : c.transfer sb fs i off t = some (n, fs')) :
    off + n < 2 ^ 64 ∧ c.Result n ∧ ∃ ino', fs'.icache i = some ino' ∧ ino'.Regular := by
  have hmx : maxWrite < 2 ^ 64 := by decide
  have hmax : inodeMaxBytes < 2 ^ 64 := by decide
  cases c with
  | read n' =>
    have ht : t < 2 ^ 64 := hc
    simp only [transfer, hino, Option.bind_eq_bind, Option.bind_some] at h
    obtain ⟨⟨l, m', e'⟩, hread, h⟩ := Option.bind_eq_some_iff.1 h
    obtain ⟨hend, htype⟩ := inodeRead_bounds hreg.2 ht hread
    have hbytes : ino.entry.numBytes.toNat < 2 ^ 32 := ino.entry.numBytes.toNat_lt
    have hlt : off + l.length < 2 ^ 64 := by omega
    cases h
    exact ⟨hlt, trivial, _, Function.update_self _ _ _, hreg.1, htype⟩
  | write src =>
    obtain ⟨rfl, hpos, hle⟩ := hc
    simp only [transfer, hino, Option.bind_eq_bind, Option.bind_some, List.take_length] at h
    obtain ⟨⟨count, m', ino'⟩, hwrite, h⟩ := Option.bind_eq_some_iff.1 h
    obtain ⟨rfl, hend, hreg'⟩ := inodeWrite_bounds hreg hpos (by omega) hwrite
    have hlt : off + src.length < 2 ^ 64 := by omega
    cases h
    exact ⟨hlt, ⟨rfl, hle⟩, _, Function.update_self _ _ _, hreg'⟩

end OsKernel.Fs
