import OsKernel.Sem.Representation

/-!
# A semaphore behind a flag

A resource has a flag that says whether it is taken, and a semaphore on
which the others wait until they look at the flag again. The semaphore has
at most the one unit, and none while the resource is taken. Nobody sleeps
for nothing: as long as the resource is free, there is a unit, or a thread
that was woken or has passed the wait is to look again.
-/

namespace OsKernel

namespace Semaphore

variable {T : Type} {s s' : Semaphore T} {taken : Bool} {asleep asleep' up up' : T → Prop} {t : T}

/-- **The invariant of the semaphore.** The threads of `asleep` sleep on it
or were woken and have not run yet, those of `up` are through with the
wait. -/
structure Guards (s : Semaphore T) (taken : Bool) (asleep up : T → Prop) : Prop where
  wf : s.Wf
  nodup : s.sleeplist.Nodup
  sleeper : ∀ t ∈ s.sleeplist, asleep t
  val_le : s.val ≤ if taken then 0 else 1
  coming : taken = false → s.val = 1 ∨ ∃ t, (asleep t ∨ up t) ∧ t ∉ s.sleeplist

namespace Guards

/-- Threads go elsewhere, but not from the list, nor those that are to look
at a free resource. -/
theorem mono (h : Guards s taken asleep up) (hasleep : ∀ t ∈ s.sleeplist, asleep t → asleep' t)
    (hup : taken = false → ∀ t ∉ s.sleeplist, asleep t ∨ up t → asleep' t ∨ up' t) :
    Guards s taken asleep' up' where
  wf := h.wf
  nodup := h.nodup
  sleeper := fun t ht => hasleep t ht (h.sleeper t ht)
  val_le := h.val_le
  coming := fun hfree => (h.coming hfree).imp_right fun ⟨t, ht, hmem⟩ =>
    ⟨t, hup hfree t hmem ht, hmem⟩

/-- The resource as it is made, by a thread that takes it at once. -/
theorem made (t : T) : Guards ((initSem 1).waitSem t) true asleep up :=
  ⟨wf_waitSem (wf_initSem (by decide)), List.nodup_nil, by rintro _ ⟨⟩, le_refl (0 : ℤ), by simp⟩

/-- Nobody sleeps where there is a unit. -/
theorem val_of_mem (h : Guards s taken asleep up) (ht : t ∈ s.sleeplist) : s.val ≠ 1 := by
  have hlen := List.length_pos_of_mem ht
  have hwf := h.wf
  unfold Wf at hwf
  omega

/-- The resource is taken, with the unit if `get_sem` finds one. -/
theorem take (h : Guards s false asleep up) : Guards s.getSem.1 true asleep up := by
  have hval := h.val_le
  simp only [Bool.false_eq_true, if_false] at hval
  have hwf := wf_getSem h.wf
  unfold getSem at hwf ⊢
  split at hwf <;> rename_i hpos
  · rw [if_pos hpos]
    exact ⟨hwf, h.nodup, h.sleeper, by simp only [if_true]; omega, fun hfree => by cases hfree⟩
  · rw [if_neg hpos]
    exact ⟨hwf, h.nodup, h.sleeper, by simp only [if_true]; omega, fun hfree => by cases hfree⟩

/-- **A thread waits**, and is through with it if there is a unit. -/
theorem wait (h : Guards s taken asleep up) (ht : ¬(asleep t ∨ up t))
    (hothers : ∀ u ≠ t, (asleep u → asleep' u) ∧ (up u → up' u))
    (hself : if 0 ≤ s.val - 1 then up' t else asleep' t) :
    Guards (s.waitSem t) taken asleep' up' := by
  have hnot : t ∉ s.sleeplist := fun hmem => ht (Or.inl (h.sleeper t hmem))
  have hne : ∀ u, asleep u ∨ up u → u ≠ t := fun u hu heq => ht (heq ▸ hu)
  have hasleep : ∀ u ∈ s.sleeplist, asleep' u := fun u hu =>
    (hothers u (hne u (Or.inl (h.sleeper u hu)))).1 (h.sleeper u hu)
  have hwf := wf_waitSem (t := t) h.wf
  have hle := h.val_le
  unfold waitSem at hwf ⊢
  split at hwf <;> rename_i hval
  · rw [if_pos hval] at hself ⊢
    exact ⟨hwf, h.nodup, hasleep, le_trans (by simp only; omega) hle,
      fun _ => Or.inr ⟨t, Or.inr hself, hnot⟩⟩
  · rw [if_neg hval] at hself ⊢
    refine ⟨hwf, List.nodup_cons.2 ⟨hnot, h.nodup⟩, fun u hu => ?_,
      le_trans (by simp only; omega) hle, fun hfree => ?_⟩
    · rcases List.mem_cons.1 hu with rfl | hu
      · exact hself
      · exact hasleep u hu
    · -- there is no unit, so somebody is coming, and it is not `t`
      rcases h.coming hfree with hone | ⟨u, hu, hmem⟩
      · omega
      · have hut := hne u hu
        refine Or.inr ⟨u, hu.imp (hothers u hut).1 (hothers u hut).2, fun hin => ?_⟩
        exact (List.mem_cons.1 hin).elim hut hmem

/-- **The resource is given back**: the earliest sleeper is woken, or there
is a unit. -/
theorem post (h : Guards s true asleep up) {w : Option T} (hpost : s.postSem = some (s', w)) :
    Guards s' false asleep up ∧ s'.sleeplist.Sublist s.sleeplist := by
  have hval := h.val_le
  have hwf := wf_postSem h.wf hpost
  simp only [if_true] at hval
  rcases postSem_cases h.wf with ⟨ts, u, hts, hneg, heq⟩ | ⟨hts, hpos, heq⟩
  · obtain ⟨rfl, rfl⟩ := by simpa using heq.symm.trans hpost
    have hnodup := h.nodup
    rw [hts] at hnodup
    have hu : u ∉ ts := fun hmem =>
      (List.nodup_append.1 hnodup).2.2 u hmem u (List.mem_singleton_self u) rfl
    refine ⟨⟨hwf, (List.nodup_append.1 hnodup).1, fun w hw => h.sleeper w ?_, ?_,
      fun _ => Or.inr ⟨u, Or.inl (h.sleeper u (by rw [hts]; simp)), hu⟩⟩, ?_⟩
    · rw [hts]
      exact List.mem_append_left _ hw
    · simp only [Bool.false_eq_true, if_false]
      omega
    · rw [hts]
      exact List.sublist_append_left _ _
  · obtain ⟨rfl, rfl⟩ := by simpa using heq.symm.trans hpost
    refine ⟨⟨hwf, h.nodup, h.sleeper, ?_, fun _ => Or.inl ?_⟩, List.Sublist.refl _⟩
    · simp only [Bool.false_eq_true, if_false]
      omega
    · simp only
      omega

end Guards

end Semaphore

end OsKernel
