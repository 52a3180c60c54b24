import Mathlib

/-!
# Chained hash tables

The table of `common/hashmap.c`, with the chain of each bucket as a list of its
nodes. A table `Holds` a set of nodes when each bucket has the nodes of the set
that belong there, once; then a node that is looked up by its key is found, if
different nodes of the set have different keys.
-/

namespace OsKernel.HashMap

open Function

variable {B N K : Type*} [DecidableEq B] [DecidableEq N] [DecidableEq K]

/-- `_hashmap_insert` of a node that is not in the table: at the end of the chain. -/
def insert (bullet : B → List N) (b : B) (node : N) : ℤ × (B → List N) :=
  (0, update bullet b (bullet b ++ [node]))

/-- `_hashmap_erase`. -/
def erase (bullet : B → List N) (b : B) (node : N) : B → List N :=
  update bullet b ((bullet b).erase node)

/-- `_hashmap_lookup`. -/
def lookup (bullet : B → List N) (b : B) (key : N → K) (k : K) : Option N :=
  (bullet b).find? fun cur => key cur = k

/-- The table has the nodes of a set, each in its bucket and once. -/
structure Holds (bullet : B → List N) (S : N → Prop) (bucket : N → B) : Prop where
  nodup : ∀ b, (bullet b).Nodup
  mem_iff : ∀ b n, n ∈ bullet b ↔ S n ∧ bucket n = b

variable {bullet : B → List N} {S : N → Prop} {bucket bucket' : N → B} {node n : N} {b : B}

omit [DecidableEq B] [DecidableEq N] in
theorem Holds.empty (bucket : N → B) (hS : ∀ n, ¬S n) : Holds (fun _ => []) S bucket :=
  ⟨fun _ => List.nodup_nil, fun _ n => by simp [hS n]⟩

/-- A new node is inserted. -/
theorem Holds.insert (h : Holds bullet S bucket) (hnode : ¬S node)
    (hbucket : ∀ n, S n → bucket' n = bucket n) :
    Holds (HashMap.insert bullet (bucket' node) node).2 (fun n => S n ∨ n = node) bucket' := by
  have hnot : ∀ b, node ∉ bullet b := fun b hmem => hnode ((h.mem_iff b node).1 hmem).1
  refine ⟨fun b => ?_, fun b n => ?_⟩
  · change (update bullet _ _ b).Nodup
    rw [update_apply]
    split_ifs
    · exact List.nodup_append.2 ⟨h.nodup _, List.nodup_singleton _, fun x hx y hy hxy =>
        hnot _ ((List.mem_singleton.1 hy ▸ hxy) ▸ hx)⟩
    · exact h.nodup b
  · change n ∈ update bullet _ _ b ↔ _
    have hmem : n ∈ bullet b ↔ S n ∧ bucket' n = b := by
      rw [h.mem_iff]
      exact and_congr_right fun hn => by rw [hbucket n hn]
    by_cases hn : n = node
    · subst hn
      rw [update_apply]
      split_ifs with hb
      · simp [hb]
      · rw [hmem]
        simp [hnode, Ne.symm hb]
    · rw [update_apply]
      split_ifs with hb
      · rw [List.mem_append, List.mem_singleton, ← hb, hmem]
        simp [hn]
      · rw [hmem]
        simp [hn]

/-- A node of the set is erased. -/
theorem Holds.erase (h : Holds bullet S bucket) (node : N) :
    Holds (HashMap.erase bullet (bucket node) node) (fun n => S n ∧ n ≠ node) bucket := by
  refine ⟨fun b => ?_, fun b n => ?_⟩
  · rw [HashMap.erase, update_apply]
    split_ifs
    · exact (h.nodup _).erase node
    · exact h.nodup b
  · rw [HashMap.erase, update_apply]
    split_ifs with hb
    · rw [(h.nodup _).mem_erase_iff, ← hb, h.mem_iff]
      exact ⟨fun ⟨hn, hS, hbn⟩ => ⟨⟨hS, hn⟩, hbn⟩, fun ⟨⟨hS, hn⟩, hbn⟩ => ⟨hn, hS, hbn⟩⟩
    · rw [h.mem_iff]
      refine ⟨fun ⟨hS, hbn⟩ => ⟨⟨hS, ?_⟩, hbn⟩, fun ⟨⟨hS, _⟩, hbn⟩ => ⟨hS, hbn⟩⟩
      rintro rfl
      exact hb hbn.symm

/-- **A node that is inserted and erased** leaves the chains as they were. -/
theorem erase_insert (h : node ∉ bullet b) :
    HashMap.erase (HashMap.insert bullet b node).2 b node = bullet := by
  have herase : (bullet b ++ [node]).erase node = bullet b := by
    rw [List.erase_append_right _ h, List.erase_cons_head, List.append_nil]
  simp only [HashMap.insert, HashMap.erase, update_self, herase, update_idem, update_eq_self]

section Lookup

variable {key : N → K} {hash : K → B} {k : K}

section

omit [DecidableEq B] [DecidableEq N]

/-- **A node of the set is found by its key.** -/
theorem Holds.lookup_of_mem (h : Holds bullet S fun n => hash (key n)) (hn : S n)
    (hinj : ∀ m, S m → key m = key n → m = n) :
    lookup bullet (hash (key n)) key (key n) = some n := by
  have hmem : n ∈ bullet (hash (key n)) := (h.mem_iff _ n).2 ⟨hn, rfl⟩
  cases hfind : lookup bullet (hash (key n)) key (key n) with
  | none =>
    have := List.find?_eq_none.1 hfind n hmem
    simp at this
  | some m =>
    obtain ⟨hS, -⟩ := (h.mem_iff _ m).1 (List.mem_of_find?_eq_some hfind)
    have hkey : key m = key n := by simpa using List.find?_some hfind
    rw [hinj m hS hkey]

/-- **A key that no node of the set has is not found.** -/
theorem Holds.lookup_eq_none (h : Holds bullet S fun n => hash (key n))
    (hk : ∀ n, S n → key n ≠ k) : lookup bullet (hash k) key k = none := by
  refine List.find?_eq_none.2 fun n hn hkey => ?_
  exact hk n ((h.mem_iff _ n).1 hn).1 (by simpa using hkey)

end

end Lookup

end OsKernel.HashMap
