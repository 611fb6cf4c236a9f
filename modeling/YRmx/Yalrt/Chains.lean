import YRmx.Intrusive.Fifo
import YRmx.Yalrt.Lists
import YRmx.Yalrt.Machine

/-!
# The chains through `thread`

Library `YRmx`. A task stands in the ready list, in the suspend list, in the task queue of an
exchange, or in none of them, so that a change of one list leaves the others alone. One lemma for
each change: what is computed, and the lists after it.
-/

namespace YRmx

open Transition Intrusive Priority

variable {s : TaskLists} {R R' S S' : List TaskId} {Q : ExchId → List TaskId} {t u : TaskId}
  {e : ExchId}

/-- The ready list, the suspend list and the task queues. -/
structure Chains (s : TaskLists) (R S : List TaskId) (Q : ExchId → List TaskId) : Prop where
  ready : s.Lists s.ready R
  suspend : s.Suspends S
  waits : ∀ e, Fifo s.thread .null (.exch e) (s.taskTail e) (Sched.ptrs (Q e))
  ready_suspend : ∀ t ∈ R, t ∉ S
  ready_waits : ∀ t ∈ R, ∀ e, t ∉ Q e
  suspend_waits : ∀ t ∈ S, ∀ e, t ∉ Q e
  apart : ∀ {t e e'}, t ∈ Q e → t ∈ Q e' → e = e'

/-- The task stands in none of the lists. -/
structure Unlisted (R S : List TaskId) (Q : ExchId → List TaskId) (t : TaskId) : Prop where
  ready : t ∉ R
  suspend : t ∉ S
  waits : ∀ e, t ∉ Q e

namespace Chains

private theorem waits_congr {f : ThreadPtr → ThreadPtr} {tail : ThreadPtr} {xs : List TaskId}
    (h : Fifo s.thread .null (.exch e) tail (Sched.ptrs xs))
    (he : f (.exch e) = s.thread (.exch e))
    (hx : ∀ t ∈ xs, f (.task t) = s.thread (.task t)) :
    Fifo f .null (.exch e) tail (Sched.ptrs xs) := by
  apply h.congr he
  intro p hp
  obtain ⟨t, ht, rfl⟩ := List.mem_map.mp hp
  exact hx t ht

private theorem keep (h : Chains s R S Q) {c : Sched} {X : List TaskId}
    (hk : s.toSched.Keeps c (· ∈ Sched.ptrs X)) (hX : ∀ t ∈ X, ∀ e, t ∉ Q e)
    (hR : c.Lists c.ready R') (hS : c.Suspends S') (hRS : ∀ t ∈ R', t ∉ S')
    (hRQ : ∀ t ∈ R', ∀ e, t ∉ Q e) (hSQ : ∀ t ∈ S', ∀ e, t ∉ Q e) :
    Chains { s with toSched := c } R' S' Q where
  ready := hR
  suspend := hS
  waits e := waits_congr (h.waits e) (hk.thread _ (Sched.not_mem_ptrs (by simp)))
    fun t ht ↦ hk.thread _ fun hm ↦ hX t (Sched.mem_ptrs.mp hm) e ht
  ready_suspend := hRS
  ready_waits := hRQ
  suspend_waits := hSQ
  apart := h.apart

/-- A task whose status is tested rightly is put into the list where it belongs. -/
theorem enter (h : Chains s R S Q) (hR : s.isSuspended t = false → R ≠ [])
    (ht : Unlisted R S Q t)
    (hb : logicalAnd (s.status t) suspended = s.isSuspended t) :
    ∃ c, Yields (fun n ↦ Sched.enterlist n s.toSched t) c ∧
      Chains { s with toSched := c } (if s.isSuspended t then R else enqueue s.key t R)
        (if s.isSuspended t then S ++ [t] else S) Q ∧
      c.status = s.status ∧ c.priority = s.priority := by
  by_cases hs : s.isSuspended t
  · obtain ⟨c, hc, hS, hk, hr⟩ := h.suspend.enter ht.suspend
    have hRl : ∀ u ∈ R, u ∉ S ++ [t] := by
      intro u hu hm
      rcases List.mem_append.mp hm with hm | hm
      · exact h.ready_suspend u hu hm
      · exact ht.ready (List.mem_singleton.mp hm ▸ hu)
    have hXq : ∀ u ∈ S ++ [t], ∀ e, u ∉ Q e := by
      intro u hu
      rcases List.mem_append.mp hu with hu | hu
      · exact h.suspend_waits u hu
      · exact List.mem_singleton.mp hu ▸ ht.waits
    refine ⟨c, (Yields.const c).congr fun n ↦ ?_, ?_, hk.status, hk.priority⟩
    · rw [Sched.enterlist_suspended hs, hc]
    · simp only [hs, if_true]
      refine h.keep hk hXq ?_ hS hRl h.ready_waits hXq
      rw [hr]
      exact hk.lists h.ready fun u hu hm ↦ hRl u hu (Sched.mem_ptrs.mp hm)
  · rw [Bool.not_eq_true] at hs
    obtain ⟨c, hc, hRl, hk, hhead, htail⟩ := h.ready.enterReady (hR hs) ht.ready
    have hXs : ∀ u ∈ t :: R, u ∉ S := by
      intro u hu
      rcases List.mem_cons.mp hu with rfl | hu
      · exact ht.suspend
      · exact h.ready_suspend u hu
    have hXq : ∀ u ∈ t :: R, ∀ e, u ∉ Q e := by
      intro u hu
      rcases List.mem_cons.mp hu with rfl | hu
      · exact ht.waits
      · exact h.ready_waits u hu
    have hmem : ∀ u ∈ enqueue s.key t R, u ∈ t :: R := fun u hu ↦
      List.mem_cons.mpr (mem_enqueue.mp hu)
    refine ⟨c, hc.congr fun n ↦ ?_, ?_, hk.status, hk.priority⟩
    · rw [Sched.enterlist, hb, hs]
      rfl
    · simp only [hs, Bool.false_eq_true, if_false]
      refine h.keep hk hXq hRl ⟨?_, htail ▸ h.suspend.ends⟩ (fun u hu ↦ hXs u (hmem u hu))
        (fun u hu ↦ hXq u (hmem u hu)) h.suspend_waits
      rw [hhead]
      exact hk.lists h.suspend.lists fun u hu hm ↦ hXs u (Sched.mem_ptrs.mp hm) hu

/-- A task is taken out of the ready list. -/
theorem takeReady (h : Chains s R S Q) (ht : t ∈ R) (hs : s.isSuspended t = false) :
    ∃ c, Yields (fun n ↦ Sched.removelist n s.toSched t) c ∧
      Chains { s with toSched := c } (R.erase t) S Q ∧
      c.status = s.status ∧ c.priority = s.priority := by
  obtain ⟨c, hc, hR, hk, hhead, htail⟩ := h.ready.removeReady ht
  refine ⟨c, hc.congr fun n ↦ Sched.removelist_ready hs, ?_, hk.status, hk.priority⟩
  refine h.keep hk h.ready_waits hR ⟨?_, htail ▸ h.suspend.ends⟩
    (fun u hu ↦ h.ready_suspend u (List.mem_of_mem_erase hu))
    (fun u hu ↦ h.ready_waits u (List.mem_of_mem_erase hu)) h.suspend_waits
  rw [hhead]
  exact hk.lists h.suspend.lists fun u hu hm ↦ h.ready_suspend u (Sched.mem_ptrs.mp hm) hu

/-- A task that is not the last one of several is taken out of the suspend list. -/
theorem takeSuspended (h : Chains s R S Q) (ht : t ∈ S) (hs : s.isSuspended t = true)
    (hl : ∀ l, S = l ++ [t] → l = []) :
    ∃ c, Yields (fun n ↦ Sched.removelist n s.toSched t) c ∧
      Chains { s with toSched := c } R (S.erase t) Q ∧
      c.status = s.status ∧ c.priority = s.priority := by
  obtain ⟨c, hc, hS, htail, hk, hr⟩ := h.suspend.remove_mem ht
  refine ⟨c, hc.congr fun n ↦ Sched.removelist_suspended hs, ?_, hk.status, hk.priority⟩
  refine h.keep hk h.suspend_waits ?_ ⟨hS, ?_⟩
    (fun u hu hm ↦ h.ready_suspend u hu (List.mem_of_mem_erase hm)) h.ready_waits
    (fun u hu ↦ h.suspend_waits u (List.mem_of_mem_erase hu))
  · rw [hr]
    exact hk.lists h.ready fun u hu hm ↦ h.ready_suspend u hu (Sched.mem_ptrs.mp hm)
  · rw [htail]
    exact (h.suspend.ends_erase ht).mpr hl

/-! ### Task queues -/

/-- The search of `rqdelaytask` ends at the node in front of the task. -/
theorem find (h : Chains s R S Q) {l r : List TaskId} (hq : Q e = l ++ t :: r) :
    Yields (fun n ↦ Yalrt.findWaiting n s.toSched t (.exch e))
      ((Sched.ptrs l).getLastD (.exch e)) := by
  have hw := h.waits e
  rw [hq] at hw
  have hn := hw.nodup_root
  have hth := hw.threads
  generalize hx : ThreadPtr.exch e = x at *
  have hx0 : x ≠ .null := by simp [← hx]
  clear hw hx hq
  induction l generalizing x with
  | nil =>
    have hxt : s.thread x = .task t := (threads_cons_cons.mp hth).1
    refine Yields.succ ((Yields.const x).congr fun n ↦ ?_)
    simp only [Yalrt.findWaiting, hx0, hxt, if_false, ne_eq, not_true_eq_false]
  | cons u l ih =>
    have hxu : s.thread x = .task u := (threads_cons_cons.mp hth).1
    have hut : ThreadPtr.task u ≠ .task t := by
      rintro he
      have hd := (List.nodup_cons.mp (List.nodup_cons.mp hn).2).1
      exact hd (by simp [ThreadPtr.task.inj he])
    have hrest := ih (.task u) (List.nodup_cons.mp hn).2 (threads_cons_cons.mp hth).2 (by simp)
    have hlast : (Sched.ptrs (u :: l)).getLastD x = (Sched.ptrs l).getLastD (.task u) :=
      List.getLastD_cons
    rw [hlast]
    refine Yields.succ (hrest.congr fun n ↦ ?_)
    simp only [Yalrt.findWaiting, hx0, if_false, hxu]
    rw [if_pos hut]

/-- A task is taken out of a task queue. -/
theorem leave (h : Chains s R S Q) {l r : List TaskId} (hq : Q e = l ++ t :: r) {s' : TaskLists}
    (hth : s'.thread = Function.update s.thread ((Sched.ptrs l).getLastD (.exch e))
      (s.thread (.task t)))
    (htail : s'.taskTail = Function.update s.taskTail e
      (if s.thread (.task t) = .null then (Sched.ptrs l).getLastD (.exch e) else s.taskTail e))
    (hr : s'.ready = s.ready) (hhead : s'.headPtr = s.headPtr) (htl : s'.tailPtr = s.tailPtr) :
    Chains s' R S (Function.update Q e ((Q e).erase t)) ∧
      Unlisted R S (Function.update Q e ((Q e).erase t)) t := by
  have hw := h.waits e
  rw [hq, Sched.ptrs_append] at hw
  have hd : (l ++ t :: r).Nodup := by
    have hn := hw.nodup
    rw [← Sched.ptrs_append] at hn
    exact hn.of_map _
  have htl' : t ∉ l := fun hm ↦ (List.nodup_append.mp hd).2.2 t hm t (by simp) rfl
  have her : (Q e).erase t = l ++ r := by
    rw [hq, List.erase_append_right _ htl', List.erase_cons_head]
  have htr : t ∉ l ++ r := by
    rw [← her, hq]
    exact hd.not_mem_erase
  have htQ : t ∈ Q e := by simp [hq]
  -- the changed field is that of the exchange or of a task in front of it
  have hpred : (Sched.ptrs l).getLastD (.exch e) ∈ ThreadPtr.exch e :: Sched.ptrs l :=
    List.getLastD_mem_cons
  have hother : ∀ u, u ∉ Q e → s'.thread (.task u) = s.thread (.task u) := by
    intro u hu
    rw [hth]
    refine Function.update_of_ne (fun he ↦ ?_) _ _
    rw [← he] at hpred
    exact hu (by simp [hq, Sched.mem_ptrs.mp (by simpa using hpred)])
  have hmem : ∀ {u e'}, u ∈ Function.update Q e ((Q e).erase t) e' → u ∈ Q e' := by
    intro u e' hu
    by_cases he : e' = e
    · subst he
      rw [Function.update_self] at hu
      exact List.mem_of_mem_erase hu
    · rwa [Function.update_of_ne he] at hu
  refine ⟨⟨?_, ⟨?_, htl ▸ h.suspend.ends⟩, fun e' ↦ ?_, h.ready_suspend,
    fun u hu e' hm ↦ h.ready_waits u hu e' (hmem hm),
    fun u hu e' hm ↦ h.suspend_waits u hu e' (hmem hm), fun hu hu' ↦ h.apart (hmem hu) (hmem hu')⟩,
    fun hm ↦ h.ready_waits t hm e htQ, fun hm ↦ h.suspend_waits t hm e htQ, fun e' hm ↦ ?_⟩
  · rw [hr]
    exact h.ready.congr fun u hu ↦ hother u (h.ready_waits u hu e)
  · rw [hhead]
    exact h.suspend.lists.congr fun u hu ↦ hother u (h.suspend_waits u hu e)
  · by_cases he : e' = e
    · subst he
      rw [htail, hth, Function.update_self, Function.update_self, her, Sched.ptrs_append]
      exact hw.remove
    · rw [htail, Function.update_of_ne he, Function.update_of_ne he]
      refine waits_congr (h.waits e') ?_ fun u hu ↦ hother u fun hm ↦ he (h.apart hu hm)
      rw [hth]
      refine Function.update_of_ne (fun hp ↦ ?_) _ _
      rw [← hp] at hpred
      simp [he] at hpred
  · by_cases he : e' = e
    · subst he
      rw [Function.update_self, her] at hm
      exact htr hm
    · rw [Function.update_of_ne he] at hm
      exact he (h.apart hm htQ)

/-- The first task of the ready list goes to the end of a task queue. -/
theorem wait (h : Chains s (t :: R) S Q) {s' : TaskLists}
    (hr : s'.ready = s.thread (.task t))
    (hth : s'.thread = Function.update (Function.update s.thread (.task t) .null)
      (s.taskTail e) (.task t))
    (htail : s'.taskTail = Function.update s.taskTail e (.task t))
    (hhead : s'.headPtr = s.headPtr) (htl : s'.tailPtr = s.tailPtr) :
    Chains s' R S (Function.update Q e (Q e ++ [t])) := by
  have hd := h.ready.nodup
  have htR : t ∉ R := (List.nodup_cons.mp hd).1
  have htQ := h.ready_waits t (by simp)
  have htS := h.ready_suspend t (by simp)
  have hend : s.taskTail e ∈ ThreadPtr.exch e :: Sched.ptrs (Q e) := (h.waits e).tail_mem
  have hother : ∀ u, u ≠ t → u ∉ Q e → s'.thread (.task u) = s.thread (.task u) := by
    intro u hut hu
    rw [hth, Function.update_of_ne (fun he ↦ ?_), Function.update_of_ne (by simpa using hut)]
    rw [← he] at hend
    exact hu (Sched.mem_ptrs.mp (by simpa using hend))
  have hmem : ∀ {u e'}, u ∈ Function.update Q e (Q e ++ [t]) e' → u ∈ Q e' ∨ u = t ∧ e' = e := by
    intro u e' hu
    by_cases he : e' = e
    · subst he
      rw [Function.update_self, List.mem_append, List.mem_singleton] at hu
      exact hu.imp_right fun hu ↦ ⟨hu, rfl⟩
    · rw [Function.update_of_ne he] at hu
      exact .inl hu
  refine ⟨?_, ⟨?_, htl ▸ h.suspend.ends⟩, fun e' ↦ ?_,
    fun u hu ↦ h.ready_suspend u (by simp [hu]), fun u hu e' hm ↦ ?_, fun u hu e' hm ↦ ?_,
    fun {u e₁ e₂} h₁ h₂ ↦ ?_⟩
  · rw [hr]
    refine (Sched.Lists.suffix (l := []) h.ready).congr fun u hu ↦ hother u ?_ ?_
    · rintro rfl
      exact htR hu
    · exact h.ready_waits u (by simp [hu]) e
  · rw [hhead]
    refine h.suspend.lists.congr fun u hu ↦ hother u ?_ (h.suspend_waits u hu e)
    rintro rfl
    exact htS hu
  · by_cases he : e' = e
    · subst he
      rw [htail, hth, Function.update_self, Function.update_self, Sched.ptrs_append]
      refine (h.waits e').append ?_ (by simp)
      simpa using htQ e'
    · rw [htail, Function.update_of_ne he, Function.update_of_ne he]
      refine waits_congr (h.waits e') ?_ fun u hu ↦ hother u ?_ fun hm ↦ he (h.apart hu hm)
      · rw [hth, Function.update_of_ne (fun hp ↦ ?_), Function.update_of_ne (by simp)]
        rw [← hp] at hend
        simp [he] at hend
      · rintro rfl
        exact htQ e' hu
  · rcases hmem hm with hm | ⟨rfl, -⟩
    · exact h.ready_waits u (by simp [hu]) e' hm
    · exact htR hu
  · rcases hmem hm with hm | ⟨rfl, -⟩
    · exact h.suspend_waits u hu e' hm
    · exact htS hu
  · rcases hmem h₁ with h₁ | ⟨rfl, rfl⟩ <;> rcases hmem h₂ with h₂ | ⟨h₂, h₂'⟩
    · exact h.apart h₁ h₂
    · exact absurd h₁ (h₂ ▸ htQ e₁)
    · exact absurd h₂ (htQ e₂)
    · exact h₂'.symm

end Chains

end YRmx
