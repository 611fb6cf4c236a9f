import YRmx.Core.DelayList
import YRmx.Yalrt.Chains

/-!
# What the status byte says about the lists

Library `YRmx`. A task of the ready list has no bit but `maskint`, one of the suspend list has
the suspended bit besides, and a waiting task has the bit of its wait and perhaps the suspended
bit. The delayed tasks are those of the delay list.
-/

namespace YRmx

open Transition Intrusive Priority

/-- The status of a task of the ready list. -/
def Runs (st : BitVec 8) : Prop := st &&& ~~~maskint = 0

/-- The status of a task of the suspend list. -/
def Rests (st : BitVec 8) : Prop := st &&& ~~~maskint = suspended

/-- The status of a task that waits, with or without a time limit. -/
def Awaits (st : BitVec 8) : Prop :=
  st &&& ~~~suspended = waiting ∨ st &&& ~~~suspended = delayed

instance : DecidablePred Runs := fun _ ↦ inferInstanceAs (Decidable (_ = _))
instance : DecidablePred Rests := fun _ ↦ inferInstanceAs (Decidable (_ = _))
instance : DecidablePred Awaits := fun _ ↦ inferInstanceAs (Decidable (_ ∨ _))

/-- The bits of a task of the ready list. -/
theorem runs_bits : ∀ st, Runs st →
    st &&& suspended = 0 ∧ st &&& delayed = 0 ∧ Rests (st ||| suspended) ∧
    (st ||| suspended) &&& delayed = 0 ∧ Runs (st ||| maskint) ∧ Runs (st &&& ~~~maskint) ∧
    Runs (st &&& ~~~suspended) ∧ st &&& ~~~maskint = 0 := by
  decide

/-- The bits of a task of the suspend list. -/
theorem rests_bits : ∀ st, Rests st →
    st &&& suspended ≠ 0 ∧ st ≠ 0 ∧ st &&& delayed = 0 ∧ Rests (st ||| suspended) ∧
    (st &&& maskint = 0 → st &&& ~~~suspended = 0) ∧
    (st &&& maskint ≠ 0 → st &&& ~~~suspended = maskint) := by
  decide

/-- The bits of a waiting task. -/
theorem awaits_bits : ∀ st, Awaits st →
    Awaits (st ||| suspended) ∧ Awaits (st &&& ~~~suspended) ∧
    (st &&& delayed ≠ 0 → st &&& ~~~delayed = st &&& suspended ∧
      st &&& ~~~waiting &&& delayed ≠ 0 ∧
      st &&& ~~~waiting &&& ~~~delayed = st &&& suspended) ∧
    (st &&& delayed = 0 → st &&& ~~~waiting = st &&& suspended) := by
  decide

/-- Bits that do not touch one another. -/
theorem suspended_bits : ∀ st : BitVec 8,
    (st &&& suspended = 0 ∨ Rests (st &&& suspended)) ∧ st &&& suspended &&& delayed = 0 ∧
    (st ||| suspended) &&& delayed = st &&& delayed ∧
    st &&& ~~~suspended &&& delayed = st &&& delayed ∧
    (st ||| maskint) &&& delayed = st &&& delayed ∧
    st &&& ~~~maskint &&& delayed = st &&& delayed ∧
    st &&& suspended &&& suspended = st &&& suspended := by
  decide

variable {s : TaskLists} {R S : List TaskId} {Q : ExchId → List TaskId}
  {D : List (TaskId × Nat)} {t u : TaskId} {e : ExchId}

/-- The lists of tasks, with the status and the exchange of each task. -/
structure Classified (s : TaskLists) (R S : List TaskId) (Q : ExchId → List TaskId)
    (D : List (TaskId × Nat)) : Prop extends Chains s R S Q where
  delays : DelayList s.next s.prev s.delay D
  timed : (D.map Prod.fst).Nodup
  due : ∀ p ∈ D, p.2 ≤ 0xFFFF
  delayed_iff : ∀ {t}, t ∈ D.map Prod.fst ↔ s.status t &&& delayed ≠ 0
  timed_waits : ∀ {t}, t ∈ D.map Prod.fst → ∃ e, t ∈ Q e
  runs : ∀ t ∈ R, Runs (s.status t)
  rests : ∀ t ∈ S, Rests (s.status t)
  awaits : ∀ {e t}, t ∈ Q e → Awaits (s.status t)
  exchange : ∀ {e t}, t ∈ Q e → s.exchange t = .exch e

namespace Classified

/-- The suspended bit is set. -/
theorem isSuspended_iff {c : Sched} :
    c.isSuspended t = true ↔ c.status t &&& suspended ≠ 0 := bne_iff_ne

/-- The suspended bit is clear. -/
theorem isSuspended_eq_false {c : Sched} :
    c.isSuspended t = false ↔ c.status t &&& suspended = 0 := by
  rw [Sched.isSuspended, bne_eq_false_iff_eq]

private theorem test_eq {c : Sched} (h : c.status t = 0 ∨ Rests (c.status t)) :
    logicalAnd (c.status t) suspended = c.isSuspended t := by
  rcases h with h | h
  · simp [logicalAnd, Sched.isSuspended, h]
  · obtain ⟨hs, h0, -⟩ := rests_bits _ h
    rw [isSuspended_iff.mpr hs, logicalAnd, Bool.and_eq_true, bne_iff_ne, bne_iff_ne]
    exact ⟨h0, by decide⟩

/-- The suspended bits say which list a task is in. -/
theorem isSuspended_ready (h : Classified s R S Q D) (ht : t ∈ R) : s.isSuspended t = false :=
  isSuspended_eq_false.mpr (runs_bits _ (h.runs t ht)).1

/-- A task of the suspend list has the suspended bit. -/
theorem isSuspended_suspend (h : Classified s R S Q D) (ht : t ∈ S) :
    s.isSuspended t = true := isSuspended_iff.mpr (rests_bits _ (h.rests t ht)).1

/-- A status that suits the list of the task, with the delayed bit as before. -/
theorem setStatus (h : Classified s R S Q D) {v : BitVec 8} (hr : t ∈ R → Runs v)
    (hs : t ∈ S → Rests v) (hq : ∀ e, t ∈ Q e → Awaits v)
    (hd : v &&& delayed = s.status t &&& delayed) :
    Classified { s with status := Function.update s.status t v } R S Q D where
  ready := h.ready
  suspend := ⟨h.suspend.lists, h.suspend.ends⟩
  waits := h.waits
  ready_suspend := h.ready_suspend
  ready_waits := h.ready_waits
  suspend_waits := h.suspend_waits
  apart := h.apart
  delays := h.delays
  timed := h.timed
  due := h.due
  delayed_iff {u} := by
    by_cases hu : u = t
    · subst hu
      simp only [Function.update_self, hd]
      exact h.delayed_iff
    · simp only [Function.update_of_ne hu]
      exact h.delayed_iff
  timed_waits := h.timed_waits
  runs u hu := by
    by_cases hut : u = t
    · subst hut
      simpa using hr hu
    · simpa [hut] using h.runs u hu
  rests u hu := by
    by_cases hut : u = t
    · subst hut
      simpa using hs hu
    · simpa [hut] using h.rests u hu
  awaits {e u} hu := by
    by_cases hut : u = t
    · subst hut
      simpa using hq e hu
    · simpa [hut] using h.awaits hu
  exchange := h.exchange

private theorem withChains (h : Classified s R S Q D) {c : Sched} {R' S' : List TaskId}
    (hc : Chains { s with toSched := c } R' S' Q) (hst : c.status = s.status)
    (hr : ∀ t ∈ R', Runs (s.status t)) (hs : ∀ t ∈ S', Rests (s.status t)) :
    Classified { s with toSched := c } R' S' Q D where
  toChains := hc
  delays := h.delays
  timed := h.timed
  due := h.due
  delayed_iff := by
    rw [hst]
    exact h.delayed_iff
  timed_waits := h.timed_waits
  runs := by rwa [hst]
  rests := by rwa [hst]
  awaits := by
    rw [hst]
    exact h.awaits
  exchange := h.exchange

/-- A task without any bit goes to its place in the ready list, one with the suspended bit to
the end of the suspend list. -/
theorem enter (h : Classified s R S Q D) (hR : s.isSuspended t = false → R ≠ [])
    (ht : Unlisted R S Q t)
    (hst : s.status t = 0 ∨ Rests (s.status t)) :
    ∃ c, Yields (fun n ↦ Sched.enterlist n s.toSched t) c ∧
      Classified { s with toSched := c } (if s.isSuspended t then R else enqueue s.key t R)
        (if s.isSuspended t then S ++ [t] else S) Q D ∧
      c.status = s.status ∧ c.priority = s.priority := by
  obtain ⟨c, hc, hch, hs, hp⟩ := h.toChains.enter hR ht (test_eq hst)
  refine ⟨c, hc, h.withChains hch hs (fun u hu ↦ ?_) (fun u hu ↦ ?_), hs, hp⟩
  · split at hu
    · exact h.runs u hu
    · rename_i hn
      rcases mem_enqueue.mp hu with rfl | hu
      · have h0 : s.status u = 0 :=
          hst.resolve_right fun hr ↦ hn (isSuspended_iff.mpr (rests_bits _ hr).1)
        rw [h0]
        decide
      · exact h.runs u hu
  · split at hu
    · rename_i hy
      rcases List.mem_append.mp hu with hu | hu
      · exact h.rests u hu
      · rw [List.mem_singleton.mp hu]
        exact hst.resolve_left fun h0 ↦ isSuspended_iff.mp hy (by rw [h0]; rfl)
    · exact h.rests u hu

/-- A task is taken out of the ready list. -/
theorem takeReady (h : Classified s R S Q D) (ht : t ∈ R) :
    ∃ c, Yields (fun n ↦ Sched.removelist n s.toSched t) c ∧
      Classified { s with toSched := c } (R.erase t) S Q D ∧ Unlisted (R.erase t) S Q t ∧
      c.status = s.status ∧ c.priority = s.priority := by
  obtain ⟨c, hc, hch, hs, hp⟩ := h.toChains.takeReady ht (h.isSuspended_ready ht)
  exact ⟨c, hc, h.withChains hch hs (fun u hu ↦ h.runs u (List.mem_of_mem_erase hu)) h.rests,
    ⟨h.ready.nodup.not_mem_erase, h.ready_suspend t ht, h.ready_waits t ht⟩, hs, hp⟩

/-- A task that is not the last one of several is taken out of the suspend list. -/
theorem takeSuspended (h : Classified s R S Q D) (ht : t ∈ S)
    (hl : ∀ l, S = l ++ [t] → l = []) :
    ∃ c, Yields (fun n ↦ Sched.removelist n s.toSched t) c ∧
      Classified { s with toSched := c } R (S.erase t) Q D ∧ Unlisted R (S.erase t) Q t ∧
      c.status = s.status ∧ c.priority = s.priority := by
  obtain ⟨c, hc, hch, hs, hp⟩ := h.toChains.takeSuspended ht (h.isSuspended_suspend ht) hl
  exact ⟨c, hc, h.withChains hch hs h.runs fun u hu ↦ h.rests u (List.mem_of_mem_erase hu),
    ⟨fun hm ↦ h.ready_suspend t hm ht, h.suspend.lists.nodup.not_mem_erase,
      h.suspend_waits t ht⟩, hs, hp⟩

/-- A waiting task leaves its queue and the delay list, and keeps no bit but the suspended one. -/
theorem leave (h : Classified s R S Q D) {l r : List TaskId} (hq : Q e = l ++ t :: r)
    {T : TaskLists}
    (hth : T.thread = Function.update s.thread ((Sched.ptrs l).getLastD (.exch e))
      (s.thread (.task t)))
    (htail : T.taskTail = Function.update s.taskTail e
      (if s.thread (.task t) = .null then (Sched.ptrs l).getLastD (.exch e) else s.taskTail e))
    (hr : T.ready = s.ready) (hhead : T.headPtr = s.headPtr) (htl : T.tailPtr = s.tailPtr)
    (hex : T.exchange = s.exchange)
    (hst : T.status = Function.update s.status t (s.status t &&& suspended))
    (hdl : DelayList T.next T.prev T.delay (D.filter (·.1 ≠ t))) :
    Classified T R S (Function.update Q e ((Q e).erase t)) (D.filter (·.1 ≠ t)) ∧
      Unlisted R S (Function.update Q e ((Q e).erase t)) t := by
  obtain ⟨hc, hu⟩ := h.toChains.leave hq hth htail hr hhead htl
  have hother : ∀ {u}, u ≠ t → T.status u = s.status u := by
    intro u hut
    rw [hst, Function.update_of_ne hut]
  have hne : ∀ {u e'}, u ∈ Function.update Q e ((Q e).erase t) e' → u ≠ t := by
    rintro u e' hm rfl
    exact hu.waits e' hm
  have hmem : ∀ {u e'}, u ∈ Function.update Q e ((Q e).erase t) e' → u ∈ Q e' := by
    intro u e' hm
    by_cases he : e' = e
    · subst he
      rw [Function.update_self] at hm
      exact List.mem_of_mem_erase hm
    · rwa [Function.update_of_ne he] at hm
  have hfilter : ∀ {u}, u ∈ (D.filter (·.1 ≠ t)).map Prod.fst ↔ u ∈ D.map Prod.fst ∧ u ≠ t := by
    intro u
    simp only [List.mem_map, List.mem_filter, ne_eq, decide_not, Bool.not_eq_eq_eq_not,
      Bool.not_true, decide_eq_false_iff_not]
    constructor
    · rintro ⟨p, ⟨hp, hpt⟩, rfl⟩
      exact ⟨⟨p, hp, rfl⟩, hpt⟩
    · rintro ⟨⟨p, hp, rfl⟩, hpt⟩
      exact ⟨p, ⟨hp, hpt⟩, rfl⟩
  refine ⟨⟨hc, hdl, h.timed.sublist (List.filter_sublist.map _),
    fun p hp ↦ h.due p (List.mem_filter.mp hp).1, fun {u} ↦ ?_, fun {u} hm ↦ ?_, fun u hm ↦ ?_,
    fun u hm ↦ ?_, fun {e' u} hm ↦ ?_, fun {e' u} hm ↦ ?_⟩, hu⟩
  · rw [hfilter]
    by_cases hut : u = t
    · subst hut
      simp [hst, (suspended_bits (s.status u)).2.1]
    · rw [hother hut, ← h.delayed_iff]
      exact and_iff_left hut
  · obtain ⟨hm, hut⟩ := hfilter.mp hm
    obtain ⟨e', he'⟩ := h.timed_waits hm
    refine ⟨e', ?_⟩
    by_cases he : e' = e
    · subst he
      rw [Function.update_self]
      exact (List.mem_erase_of_ne hut).mpr he'
    · rwa [Function.update_of_ne he]
  · rw [hother (by rintro rfl; exact hu.ready hm)]
    exact h.runs u hm
  · rw [hother (by rintro rfl; exact hu.suspend hm)]
    exact h.rests u hm
  · rw [hother (hne hm)]
    exact h.awaits (hmem hm)
  · rw [hex]
    exact h.exchange (hmem hm)

end Classified

end YRmx
