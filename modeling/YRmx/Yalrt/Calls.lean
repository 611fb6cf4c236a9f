import YRmx.Yalrt.Classes

/-!
# What the system calls do to the lists

Library `YRmx`. Each call on lists that agree with the status bytes returns, and leaves such
lists behind: which task has moved, and the rest of the state as it was.
-/

namespace YRmx

open Transition Intrusive Priority

variable {s : Yalrt} {R S : List TaskId} {Q : ExchId → List TaskId} {D : List (TaskId × Nat)}
  {t : TaskId} {e : ExchId} {l r : List TaskId}

namespace Yalrt

/-- Unlinking behind a node of the task queue. -/
theorem unlinkWaiting_eq (p : ThreadPtr) : s.unlinkWaiting e t p = { s with
    thread := Function.update s.thread p (s.thread (.task t))
    taskTail := Function.update s.taskTail e
      (if s.thread (.task t) = .null then p else s.taskTail e) } := by
  simp only [unlinkWaiting, Function.update_self]
  split
  · rfl
  · rw [Function.update_eq_self]

/-- The first task is unlinked behind the exchange. -/
theorem unlinkFirst_eq : s.unlinkFirst e t = s.unlinkWaiting e t (.exch e) := rfl

end Yalrt

namespace Classified

/-- `cancel_delay` on a task of the delay list. -/
theorem cancelDelay_eq (hdl : DelayList s.next s.prev s.delay D) (hd : (D.map Prod.fst).Nodup)
    (hk : ∀ p ∈ D, p.2 ≤ 0xFFFF) (ht : t ∈ D.map Prod.fst) :
    ∃ nx pv dl, s.cancelDelay t = .ok { s with
        next := nx, prev := pv, delay := dl,
        status := Function.update s.status t (s.status t &&& ~~~delayed) } ∧
      DelayList nx pv dl (D.filter (·.1 ≠ t)) := by
  obtain ⟨hnt, hp, hn, hrem⟩ := hdl.cancel hd hk ht
  have hn0 : s.next (.task t) ≠ .null := by
    rcases hn with hn | ⟨u, hn⟩ <;> simp [hn]
  have hp0 : s.prev (.task t) ≠ .null := by
    rcases hp with hp | ⟨u, hp⟩ <;> simp [hp]
  refine ⟨_, _, _, ?_, hrem⟩
  simp only [Yalrt.cancelDelay, deref, if_neg hn0, Function.update_of_ne hnt.symm, if_neg hp0,
    Exec.ok_bind, Yalrt.setStatus]

private theorem settle (h : Classified s.toTaskLists R S Q D) (hq : Q e = l ++ t :: r)
    {s₁ : Yalrt} {v : BitVec 8} {b : Bool}
    (hs₁ : s₁ = { s with
      thread := Function.update s.thread ((Sched.ptrs l).getLastD (.exch e))
        (s.thread (.task t))
      taskTail := Function.update s.taskTail e
        (if s.thread (.task t) = .null then (Sched.ptrs l).getLastD (.exch e)
          else s.taskTail e)
      status := Function.update s.status t v })
    (hb : b → s.status t &&& delayed ≠ 0 ∧ v &&& ~~~delayed = s.status t &&& suspended)
    (hnb : ¬ b → s.status t &&& delayed = 0 ∧ v = s.status t &&& suspended) :
    ∃ T : TaskLists,
      s₁.cancelDelayIf b t = .ok { s with toTaskLists := T } ∧
      Classified T R S (Function.update Q e ((Q e).erase t)) (D.filter (·.1 ≠ t)) ∧
      Unlisted R S (Function.update Q e ((Q e).erase t)) t ∧
      T.status = Function.update s.status t (s.status t &&& suspended) ∧
      T.priority = s.priority := by
  by_cases hc : b
  · obtain ⟨hd, hst⟩ := hb hc
    obtain ⟨nx, pv, dl, he, hdl⟩ := cancelDelay_eq (s := s₁) (t := t) (D := D)
      (by rw [hs₁]; exact h.delays) h.timed h.due (h.delayed_iff.mpr hd)
    have hst' : Function.update s₁.status t (s₁.status t &&& ~~~delayed) =
        Function.update s.status t (s.status t &&& suspended) := by
      simp only [hs₁, Function.update_self, Function.update_idem, hst]
    rw [hst'] at he
    obtain ⟨hcl, hu⟩ := h.leave hq (T := { s₁.toTaskLists with
      next := nx, prev := pv, delay := dl,
      status := Function.update s.status t (s.status t &&& suspended) })
      (by rw [hs₁]) (by rw [hs₁]) (by rw [hs₁]) (by rw [hs₁]) (by rw [hs₁]) (by rw [hs₁]) rfl hdl
    refine ⟨_, ?_, hcl, hu, rfl, by rw [hs₁]⟩
    rw [Yalrt.cancelDelayIf, if_pos hc, he, hs₁]
  · obtain ⟨hd, hst⟩ := hnb hc
    have hfilter : D.filter (·.1 ≠ t) = D := by
      apply List.filter_eq_self.mpr
      intro p hp
      rw [decide_eq_true_iff]
      rintro rfl
      exact h.delayed_iff.mp (List.mem_map_of_mem hp) hd
    obtain ⟨hcl, hu⟩ := h.leave hq (T := s₁.toTaskLists)
      (by rw [hs₁]) (by rw [hs₁]) (by rw [hs₁]) (by rw [hs₁]) (by rw [hs₁]) (by rw [hs₁])
      (by rw [hs₁, hst]) (by rw [hs₁, hfilter]; exact h.delays)
    refine ⟨s₁.toTaskLists, ?_, hcl, hu, by rw [hs₁, hst], by rw [hs₁]⟩
    rw [Yalrt.cancelDelayIf, if_neg hc, hs₁]

/-- The ready list after a task became able to run. -/
abbrev wokenReady (s : Sched) (t : TaskId) (R : List TaskId) : List TaskId :=
  if s.isSuspended t then R else enqueue s.key t R

/-- The suspend list after a task became able to run. -/
abbrev wokenSuspend (s : Sched) (t : TaskId) (S : List TaskId) : List TaskId :=
  if s.isSuspended t then S ++ [t] else S

private theorem woken {T : TaskLists} (h : Classified T R S Q D) (hR : R ≠ [])
    (hu : Unlisted R S Q t)
    (hst : T.status = Function.update s.status t (s.status t &&& suspended))
    (hp : T.priority = s.priority) :
    ∃ c, Yields (fun n ↦ Sched.enterlist n T.toSched t) c ∧
      Classified { T with toSched := c } (wokenReady s.toSched t R) (wokenSuspend s.toSched t S)
        Q D ∧ c.priority = s.priority := by
  obtain ⟨hbit, -, -, -, -, -, hidem⟩ := suspended_bits (s.status t)
  have hTt : T.status t = s.status t &&& suspended := by rw [hst, Function.update_self]
  have hsus : T.isSuspended t = s.isSuspended t := by
    rw [Sched.isSuspended, Sched.isSuspended, hTt, hidem]
  have hkey : T.key = s.key := by
    ext u
    rw [Sched.key, Sched.key, hp]
  obtain ⟨c, hc, hcl, -, hcp⟩ := h.enter (fun _ ↦ hR) hu (by rwa [hTt])
  rw [hsus, hkey] at hcl
  exact ⟨c, hc, hcl, hcp.trans hp⟩

/-- `reqsend` hands a message to the first waiting task. `cancel_delay` is called rightly if the
task is in the delay list, or has no other bit. -/
theorem handOff (h : Classified s.toTaskLists R S Q D) (hR : R ≠ []) (hq : Q e = t :: r)
    (hb : s.status t &&& delayed ≠ 0 ∨ s.isSuspended t = false) (m : MsgId) :
    ∃ T : TaskLists, Yields (fun n ↦ s.handOff n e t m) { s with
        toTaskLists := T
        word0 := Function.update s.word0 (.msg m) (.task t)
        message := Function.update s.message t (.msg m) } ∧
      Classified T (wokenReady s.toSched t R) (wokenSuspend s.toSched t S)
        (Function.update Q e r) (D.filter (·.1 ≠ t)) ∧ T.priority = s.priority := by
  obtain ⟨-, -, hd, hn⟩ := awaits_bits _ (h.awaits (e := e) (t := t) (by simp [hq]))
  have htest : logicalAnd (s.status t &&& ~~~waiting) delayed = true ↔
      s.status t &&& ~~~waiting ≠ 0 := by
    rw [logicalAnd, Bool.and_eq_true, bne_iff_ne, bne_iff_ne]
    exact and_iff_left (by decide)
  obtain ⟨T, hT, hcl, hu, hst, hp⟩ := h.settle (l := []) (v := s.status t &&& ~~~waiting)
    (b := logicalAnd (s.status t &&& ~~~waiting) delayed) hq rfl
    (fun hx ↦ by
      rw [htest] at hx
      by_cases hz : s.status t &&& delayed = 0
      · have hs := isSuspended_eq_false.mp (hb.resolve_left (not_not.mpr hz))
        exact absurd ((hn hz).trans hs) hx
      · exact ⟨hz, (hd hz).2.2⟩)
    (fun hx ↦ by
      rw [htest, not_not] at hx
      by_cases hz : s.status t &&& delayed = 0
      · exact ⟨hz, hn hz⟩
      · exact absurd (by rw [hx]; rfl) (hd hz).2.1)
  obtain ⟨c, ⟨N, hN⟩, hcl, hcp⟩ := hcl.woken hR hu hst hp
  rw [hq, List.erase_cons_head] at hcl
  refine ⟨{ T with toSched := c }, ⟨N, fun n hn ↦ ?_⟩, hcl, hcp⟩
  simp only [Yalrt.handOff, Yalrt.unlinkFirst_eq, Yalrt.unlinkWaiting_eq, Yalrt.setStatus,
    Function.update_self]
  simp only [Sched.ptrs, List.map_nil, List.getLastD_nil] at hT
  rw [hT]
  simp only [Exec.ok_bind, Yalrt.sched, hN n hn]

/-- The drain hands the message of an interrupt to the first waiting task. -/
theorem handInt (h : Classified s.toTaskLists R S Q D) (hR : R ≠ []) (hq : Q e = t :: r) :
    ∃ T : TaskLists, Yields (fun n ↦ s.handInt n e t) { s with
        toTaskLists := T
        word0 := Function.update s.word0 (.msg (.interrupt e)) (.msg (.interrupt e))
        message := Function.update s.message t (.msg (.interrupt e)) } ∧
      Classified T (wokenReady s.toSched t R) (wokenSuspend s.toSched t S)
        (Function.update Q e r) (D.filter (·.1 ≠ t)) ∧ T.priority = s.priority := by
  obtain ⟨-, -, hd, hn⟩ := awaits_bits _ (h.awaits (e := e) (t := t) (by simp [hq]))
  obtain ⟨T, hT, hcl, hu, hst, hp⟩ := h.settle (l := []) (v := s.status t &&& ~~~waiting)
    (b := s.status t &&& ~~~waiting &&& delayed != 0) hq rfl
    (fun hx ↦ by
      rw [bne_iff_ne] at hx
      by_cases hz : s.status t &&& delayed = 0
      · exact absurd (by rw [hn hz]; exact (suspended_bits _).2.1) hx
      · exact ⟨hz, (hd hz).2.2⟩)
    (fun hx ↦ by
      rw [bne_iff_ne] at hx
      by_cases hz : s.status t &&& delayed = 0
      · exact ⟨hz, hn hz⟩
      · exact absurd (hd hz).2.1 hx)
  obtain ⟨c, ⟨N, hN⟩, hcl, hcp⟩ := hcl.woken hR hu hst hp
  rw [hq, List.erase_cons_head] at hcl
  refine ⟨{ T with toSched := c }, ⟨N, fun n hn ↦ ?_⟩, hcl, hcp⟩
  simp only [Yalrt.handInt, Yalrt.unlinkFirst_eq, Yalrt.unlinkWaiting_eq, Yalrt.setStatus,
    Function.update_self]
  simp only [Sched.ptrs, List.map_nil, List.getLastD_nil] at hT
  rw [hT]
  simp only [Exec.ok_bind, Yalrt.sched, hN n hn]

/-- The first task of the delay list. -/
theorem first_due (h : Classified s.toTaskLists R S Q D)
    (hk : s.delay (s.next .delayHead) = 0) :
    ∃ t D', D = (t, 0) :: D' ∧ s.next .delayHead = .task t := by
  have hn := h.delays.next_head
  have hdl := h.delays
  cases hD : D with
  | nil =>
    rw [hD] at hn
    rw [hn] at hk
    have ht : s.delay .delayTail = 0xFFFF := hdl.tail
    have hk : s.delay .delayTail = 0 := hk
    rw [ht] at hk
    exact absurd hk (by decide)
  | cons p D' =>
    obtain ⟨t, k⟩ := p
    rw [hD] at hn hdl
    have hn : s.next .delayHead = .task t := hn
    rw [hn] at hk
    have hk' := hdl.delay_head
    rw [hk] at hk'
    exact ⟨t, D', by rw [← hk']; rfl, hn⟩

/-- `rqdelaytask` takes the first task of the delay list out of its queue. -/
theorem expire (h : Classified s.toTaskLists R S Q D) (hR : R ≠ [])
    (hk : s.delay (s.next .delayHead) = 0) (hn : s.next .delayHead = .task t)
    (hq : t ∈ Q e) :
    ∃ T : TaskLists, Yields (fun n ↦ s.expire n) { s with
        toTaskLists := T, message := Function.update s.message t (.msg .timeOut) } ∧
      Classified T (wokenReady s.toSched t R) (wokenSuspend s.toSched t S)
        (Function.update Q e ((Q e).erase t)) (D.filter (·.1 ≠ t)) ∧
      T.priority = s.priority := by
  obtain ⟨t', D', hD, hn'⟩ := h.first_due hk
  obtain rfl : t = t' := Addr.task.inj (hn.symm.trans hn')
  have hd : s.status t &&& delayed ≠ 0 := h.delayed_iff.mp (by simp [hD])
  obtain ⟨l, r, hq'⟩ := List.append_of_mem hq
  obtain ⟨-, -, hb, -⟩ := awaits_bits _ (h.awaits hq)
  obtain ⟨T, hT, hcl, hu, hst, hp⟩ := h.settle (v := s.status t) (b := true) hq'
    (by rw [Function.update_eq_self]) (fun _ ↦ ⟨hd, (hb hd).1⟩) (by simp)
  obtain ⟨c, ⟨N, hN⟩, hcl, hcp⟩ := hcl.woken hR hu hst hp
  obtain ⟨M, hM⟩ := h.toChains.find hq'
  rw [hn] at hk
  refine ⟨{ T with toSched := c }, ⟨max N M, fun n hn' ↦ ?_⟩, hcl, hcp⟩
  simp only [Yalrt.expire, hk, hn, asTask, h.exchange hq, ThreadPtr.asExch, Exec.ok_bind,
    hM n (by omega), require, if_true, Yalrt.unlinkWaiting_eq]
  simp only [Yalrt.cancelDelayIf, if_true] at hT
  rw [hT]
  simp only [Exec.ok_bind, Yalrt.sched, hN n (by omega)]

/-! ### Waiting -/

/-- The exchange of a task that does not wait. -/
theorem setExchange {T : TaskLists} (h : Classified T R S Q D) (ht : ∀ e, t ∉ Q e)
    (x : ThreadPtr) :
    Classified { T with exchange := Function.update T.exchange t x } R S Q D where
  ready := h.ready
  suspend := h.suspend
  waits := h.waits
  ready_suspend := h.ready_suspend
  ready_waits := h.ready_waits
  suspend_waits := h.suspend_waits
  apart := h.apart
  delays := h.delays
  timed := h.timed
  due := h.due
  delayed_iff := h.delayed_iff
  timed_waits := h.timed_waits
  runs := h.runs
  rests := h.rests
  awaits := h.awaits
  exchange {e u} hu := by
    have hut : u ≠ t := by
      rintro rfl
      exact ht e hu
    simpa [hut] using h.exchange hu

/-- `yalrt.c:1057–1068` puts the running task into the delay list. -/
theorem insertDelay_eq (hdl : DelayList s.next s.prev s.delay D) (hd : (D.map Prod.fst).Nodup)
    (ht : s.rqactv ∉ D.map Prod.fst) {d : BitVec 16} (h0 : d ≠ 0) :
    ∃ nx pv dl, Yields (fun n ↦ Yalrt.insertDelay n
        { s with delay := Function.update s.delay (.task s.rqactv) d })
        { s with next := nx, prev := pv, delay := dl } ∧
      DelayList nx pv dl (D.orderedInsert YRmx.due (s.rqactv, d.toNat)) := by
  have hloop : DelayList.Compares s.next s.delay s.rqactv Yalrt.insertLoop
      fun v ↦ { s with delay := Function.update s.delay (.task s.rqactv) v } := by
    intro n v p hp hpt
    simp only [Yalrt.insertLoop, deref, if_neg hp, Exec.ok_bind, Function.update_self,
      Function.update_of_ne hpt, Function.update_idem]
  obtain ⟨v', hv', N, hN⟩ := hloop.search hdl ht h0
  obtain ⟨hq, hp, hins⟩ := hdl.insert hd ht hv' rfl
  generalize DelayList.front _ = q at *
  have hqt : q ≠ .task s.rqactv := by
    rcases hq with rfl | ⟨u, hu, rfl⟩
    · simp
    · simpa using hu
  have hp0 : s.prev q ≠ .null := by
    rcases hp with hp | ⟨u, -, hp⟩ <;> simp [hp]
  refine ⟨_, _, _, ⟨N, fun n hn ↦ ?_⟩, hins⟩
  simp only [Yalrt.insertDelay, hN n hn, Exec.ok_bind, Function.update_self,
    Function.update_of_ne hqt.symm, deref, if_neg hp0]

private theorem waitsAt (h : Classified s.toTaskLists (t :: R) S Q D) {T : TaskLists} {b : BitVec 8}
    {D' : List (TaskId × Nat)} (hr : T.ready = s.thread (.task t))
    (hth : T.thread = Function.update (Function.update s.thread (.task t) .null)
      (s.taskTail e) (.task t))
    (htail : T.taskTail = Function.update s.taskTail e (.task t))
    (hhead : T.headPtr = s.headPtr) (htl : T.tailPtr = s.tailPtr)
    (hex : T.exchange = Function.update s.exchange t (.exch e))
    (hst : T.status = Function.update s.status t b) (hb : Awaits b)
    (hdl : DelayList T.next T.prev T.delay D') (hd : (D'.map Prod.fst).Nodup)
    (hk : ∀ p ∈ D', p.2 ≤ 0xFFFF)
    (hmem : ∀ u, u ∈ D'.map Prod.fst ↔ u ∈ D.map Prod.fst ∨ u = t ∧ b &&& delayed ≠ 0) :
    Classified T R S (Function.update Q e (Q e ++ [t])) D' := by
  have htD : t ∉ D.map Prod.fst := fun hm ↦
    h.delayed_iff.mp hm (runs_bits _ (h.runs t (by simp))).2.1
  have hother : ∀ {u}, u ≠ t → T.status u = s.status u := by
    intro u hut
    rw [hst, Function.update_of_ne hut]
  have htR : t ∉ R := (List.nodup_cons.mp h.ready.nodup).1
  have hsplit : ∀ {u e'}, u ∈ Function.update Q e (Q e ++ [t]) e' →
      u ∈ Q e' ∧ u ≠ t ∨ u = t ∧ e' = e := by
    intro u e' hu
    have hne : u ∈ Q e' → u ≠ t := by
      rintro hm rfl
      exact h.ready_waits u (by simp) e' hm
    by_cases he : e' = e
    · subst he
      rw [Function.update_self, List.mem_append, List.mem_singleton] at hu
      rcases hu with hu | hu
      · exact .inl ⟨hu, hne hu⟩
      · exact .inr ⟨hu, rfl⟩
    · rw [Function.update_of_ne he] at hu
      exact .inl ⟨hu, hne hu⟩
  refine ⟨h.toChains.wait hr hth htail hhead htl, hdl, hd, hk, fun {u} ↦ ?_, fun {u} hu ↦ ?_,
    fun u hu ↦ ?_, fun u hu ↦ ?_, fun {e' u} hu ↦ ?_, fun {e' u} hu ↦ ?_⟩
  · rw [hmem]
    by_cases hut : u = t
    · subst hut
      simp [hst, htD]
    · rw [hother hut, h.delayed_iff]
      simp [hut]
  · rcases (hmem u).mp hu with hu | ⟨rfl, -⟩
    · obtain ⟨e', he'⟩ := h.timed_waits hu
      refine ⟨e', ?_⟩
      by_cases he : e' = e
      · subst he
        rw [Function.update_self]
        exact List.mem_append_left _ he'
      · rwa [Function.update_of_ne he]
    · exact ⟨e, by simp⟩
  · rw [hother (by rintro rfl; exact htR hu)]
    exact h.runs u (by simp [hu])
  · rw [hother (by rintro rfl; exact h.ready_suspend u (by simp) hu)]
    exact h.rests u hu
  · rcases hsplit hu with ⟨hu, hut⟩ | ⟨rfl, -⟩
    · rw [hother hut]
      exact h.awaits hu
    · rwa [hst, Function.update_self]
  · rcases hsplit hu with ⟨hu, hut⟩ | ⟨rfl, rfl⟩
    · rw [hex, Function.update_of_ne hut]
      exact h.exchange hu
    · rw [hex, Function.update_self]

/-- `reqwait` at an exchange without a message. -/
theorem reqwait_delays (h : Classified s.toTaskLists (s.rqactv :: R) S Q D)
    (h0 : s.status s.rqactv = 0) (hm : s.messageHead e = .null) (d : BitVec 16) :
    ∃ T : TaskLists, Yields (fun n ↦ s.reqwait n e d) { s with toTaskLists := T } ∧
      Classified T R S (Function.update Q e (Q e ++ [s.rqactv]))
        (if d = 0 then D else D.orderedInsert YRmx.due (s.rqactv, d.toNat)) ∧
      T.priority = s.priority := by
  have hnD : s.rqactv ∉ D.map Prod.fst := fun hm ↦
    h.delayed_iff.mp hm (by rw [h0]; rfl)
  have htail := (h.toChains.waits e).tail_ne_null
  have hm : s.word0 (.exch e) = .null := hm
  by_cases hd : d = 0
  · rw [if_pos hd]
    refine ⟨_, ⟨0, fun n _ ↦ ?_⟩, h.waitsAt (e := e) (b := waiting)
      (T := { s.toTaskLists with
        ready := s.thread (.task s.rqactv)
        thread := Function.update (Function.update s.thread (.task s.rqactv) .null)
          (s.taskTail e) (.task s.rqactv)
        taskTail := Function.update s.taskTail e (.task s.rqactv)
        exchange := Function.update s.exchange s.rqactv (.exch e)
        status := Function.update s.status s.rqactv waiting })
      rfl rfl rfl rfl rfl rfl rfl (by decide) h.delays h.timed h.due fun u ↦ ?_, rfl⟩
    · have hbit : (0 : BitVec 8) &&& delayed = 0 ∧ (0 : BitVec 8) ||| waiting = waiting := by decide
      simp only [Yalrt.reqwait, Yalrt.messageHead, hm, if_true, Yalrt.appendTask,
        if_neg htail, Exec.ok_bind,
        Yalrt.startDelay, Yalrt.delayActive, hd, ne_eq, not_true_eq_false, if_false, h0, hbit,
        Yalrt.setStatus]
    · have hbit : waiting &&& delayed = 0 := by decide
      simp [hbit]
  · rw [if_neg hd]
    obtain ⟨nx, pv, dl, ⟨N, hN⟩, hdl⟩ := insertDelay_eq (s := { s with
      ready := s.thread (.task s.rqactv)
      thread := Function.update (Function.update s.thread (.task s.rqactv) .null)
        (s.taskTail e) (.task s.rqactv)
      taskTail := Function.update s.taskTail e (.task s.rqactv)
      exchange := Function.update s.exchange s.rqactv (.exch e)
      status := Function.update s.status s.rqactv delayed }) h.delays h.timed hnD hd
    have hperm := List.perm_orderedInsert YRmx.due (s.rqactv, d.toNat) D
    refine ⟨_, ⟨N, fun n hn ↦ ?_⟩, h.waitsAt (e := e) (b := delayed)
      (T := { s.toTaskLists with
        ready := s.thread (.task s.rqactv)
        thread := Function.update (Function.update s.thread (.task s.rqactv) .null)
          (s.taskTail e) (.task s.rqactv)
        taskTail := Function.update s.taskTail e (.task s.rqactv)
        exchange := Function.update s.exchange s.rqactv (.exch e)
        status := Function.update s.status s.rqactv delayed
        next := nx, prev := pv, delay := dl })
      rfl rfl rfl rfl rfl rfl rfl (by decide) hdl ?_ (fun p hp ↦ ?_) fun u ↦ ?_, rfl⟩
    · have hbit : (0 : BitVec 8) ||| delayed = delayed ∧ delayed &&& delayed ≠ 0 := by decide
      simp only [Yalrt.reqwait, Yalrt.messageHead, hm, if_true, Yalrt.appendTask,
        if_neg htail, Exec.ok_bind,
        Yalrt.startDelay, Yalrt.delayActive, ne_eq, hd, not_false_eq_true, h0, hbit.1,
        Yalrt.setStatus, hN n hn, Function.update_self, hbit.2, if_false]
    · exact ((hperm.map Prod.fst).nodup_iff).mpr (List.nodup_cons.mpr ⟨hnD, h.timed⟩)
    · rcases List.mem_cons.mp (hperm.subset hp) with rfl | hp
      · have := d.isLt
        simp only
        omega
      · exact h.due p hp
    · have hbit : delayed &&& delayed ≠ 0 := by decide
      rw [(hperm.map Prod.fst).mem_iff, List.map_cons, List.mem_cons]
      exact or_comm.trans (or_congr_right (and_iff_left hbit).symm)

/-- The same for some delay list. -/
theorem reqwait (h : Classified s.toTaskLists (s.rqactv :: R) S Q D)
    (h0 : s.status s.rqactv = 0) (hm : s.messageHead e = .null) (d : BitVec 16) :
    ∃ T D', Yields (fun n ↦ s.reqwait n e d) { s with toTaskLists := T } ∧
      Classified T R S (Function.update Q e (Q e ++ [s.rqactv])) D' ∧ T.priority = s.priority := by
  obtain ⟨T, hT, hc, hp⟩ := h.reqwait_delays h0 hm d
  exact ⟨T, _, hT, hc, hp⟩

/-! ### Suspension and ticks -/

/-- `reqsusp` on a task of the ready list moves it to the suspend list, and on any other task
sets the suspended bit. -/
theorem reqsusp (h : Classified s.toTaskLists R S Q D) (t : TaskId) :
    ∃ T : TaskLists, Yields (fun n ↦ s.reqsusp n t) { s with toTaskLists := T } ∧
      Classified T (if t ≠ idleTask ∧ t ∈ R then R.erase t else R)
        (if t ≠ idleTask ∧ t ∈ R then S ++ [t] else S) Q D ∧ T.priority = s.priority := by
  by_cases hi : t = idleTask
  · refine ⟨s.toTaskLists, (Yields.const _).congr fun n ↦ ?_, ?_, rfl⟩
    · rw [Yalrt.reqsusp, if_neg (not_not.mpr hi)]
    · simpa [hi] using h
  by_cases ht : t ∈ R
  · obtain ⟨N, hN⟩ := h.ready.scan_mem ht
    obtain ⟨c, ⟨M, hM⟩, hcl, hu, hst, hp⟩ := h.takeReady ht
    obtain ⟨-, -, hrests, -⟩ := runs_bits _ (h.runs t ht)
    have hs := hcl.setStatus (t := t) (v := c.status t ||| suspended)
      (fun hm ↦ absurd hm hu.ready) (fun hm ↦ absurd hm hu.suspend)
      (fun e hm ↦ absurd hm (hu.waits e)) (suspended_bits _).2.2.1
    have hsus : (c.status t ||| suspended) &&& suspended ≠ 0 := by
      rw [hst]
      exact (rests_bits _ hrests).1
    obtain ⟨c', ⟨L, hL⟩, hcl', -, hp'⟩ := hs.enter (t := t)
      (fun hf ↦ absurd (isSuspended_eq_false.mp hf) (by simpa using hsus)) hu
      (.inr (by simpa [hst] using hrests))
    have hy : Sched.isSuspended { c with
        status := Function.update c.status t (c.status t ||| suspended) } t = true :=
      isSuspended_iff.mpr (by simpa using hsus)
    simp only [hy, if_true] at hcl'
    refine ⟨{ s.toTaskLists with toSched := c' }, ⟨max N (max M L), fun n hn ↦ ?_⟩, ?_,
      hp'.trans hp⟩
    · simp only [Yalrt.reqsusp, ne_eq, hi, not_false_eq_true, if_true, hN n (by omega),
        Exec.ok_bind, Yalrt.schedIf, Yalrt.sched, hM n (by omega), Yalrt.setStatus,
        hL n (by omega)]
    · rw [if_pos ⟨hi, ht⟩, if_pos ⟨hi, ht⟩]
      exact hcl'
  · obtain ⟨N, hN⟩ := h.ready.scan_absent ht
    have hs := h.setStatus (t := t) (v := s.status t ||| suspended) (fun hm ↦ absurd hm ht)
      (fun hm ↦ (rests_bits _ (h.rests t hm)).2.2.2.1)
      (fun e hm ↦ (awaits_bits _ (h.awaits hm)).1) (suspended_bits _).2.2.1
    rw [if_neg fun hx ↦ ht hx.2, if_neg fun hx ↦ ht hx.2]
    refine ⟨_, ⟨N, fun n hn ↦ ?_⟩, hs, rfl⟩
    simp only [Yalrt.reqsusp, ne_eq, hi, not_false_eq_true, if_true, hN n hn, Exec.ok_bind,
      Yalrt.schedIf, reduceCtorEq, if_false, Yalrt.setStatus]

/-- `reqresm` on a task of the suspend list moves it to the ready list, if it was not preempted
and is not the last one of several; on any other task the call clears the suspended bit. -/
theorem reqresm (h : Classified s.toTaskLists R S Q D) (hR : R ≠ [])
    (hb : t ∈ S → s.status t &&& maskint = 0) (hl : ∀ l, S = l ++ [t] → l = []) :
    ∃ T : TaskLists, Yields (fun n ↦ s.reqresm n t) { s with toTaskLists := T } ∧
      Classified T (if t ∈ S then enqueue s.key t R else R) (S.erase t) Q D ∧
      T.priority = s.priority := by
  by_cases ht : t ∈ S
  · obtain ⟨N, hN⟩ := h.suspend.lists.scan_mem ht
    obtain ⟨c, ⟨M, hM⟩, hcl, hu, hst, hp⟩ := h.takeSuspended ht hl
    have h0 : c.status t &&& ~~~suspended = 0 := by
      rw [hst]
      exact (rests_bits _ (h.rests t ht)).2.2.2.2.1 (hb ht)
    have hs := hcl.setStatus (t := t) (v := c.status t &&& ~~~suspended)
      (fun hm ↦ absurd hm hu.ready) (fun hm ↦ absurd hm hu.suspend)
      (fun e hm ↦ absurd hm (hu.waits e)) (suspended_bits _).2.2.2.1
    obtain ⟨c', ⟨L, hL⟩, hcl', -, hp'⟩ := hs.enter (t := t) (fun _ ↦ hR) hu
      (.inl (by simpa using h0))
    have hy : Sched.isSuspended { c with
        status := Function.update c.status t (c.status t &&& ~~~suspended) } t = false :=
      isSuspended_eq_false.mpr (by simp [h0])
    have hkey : c.key = s.key := by
      ext u
      rw [Sched.key, Sched.key, hp]
    simp only [hy, Bool.false_eq_true, if_false] at hcl'
    refine ⟨{ s.toTaskLists with toSched := c' }, ⟨max N (max M L), fun n hn ↦ ?_⟩, ?_,
      hp'.trans hp⟩
    · simp only [Yalrt.reqresm, hN n (by omega), if_true, Exec.ok_bind, Yalrt.schedIf,
        Yalrt.sched, hM n (by omega), Yalrt.setStatus, hL n (by omega)]
    · rw [if_pos ht, ← hkey]
      exact hcl'
  · obtain ⟨N, hN⟩ := h.suspend.lists.scan_absent ht
    have hs := h.setStatus (t := t) (v := s.status t &&& ~~~suspended)
      (fun hm ↦ (runs_bits _ (h.runs t hm)).2.2.2.2.2.2.1) (fun hm ↦ absurd hm ht)
      (fun e hm ↦ (awaits_bits _ (h.awaits hm)).2.1) (suspended_bits _).2.2.2.1
    rw [if_neg ht, List.erase_of_not_mem ht]
    refine ⟨_, ⟨N, fun n hn ↦ ?_⟩, hs, rfl⟩
    simp only [Yalrt.reqresm, hN n hn, Exec.ok_bind, Yalrt.schedIf, reduceCtorEq, if_false,
      Yalrt.setStatus]

/-- The interrupt bit of a task of the ready list is set or cleared. -/
theorem setMaskint (h : Classified s.toTaskLists R S Q D) (ht : t ∈ R) {st : BitVec 8}
    (hst : st = s.status t ||| maskint ∨ st = s.status t &&& ~~~maskint) :
    Classified (s.setStatus t st).toTaskLists R S Q D := by
  obtain ⟨-, -, -, -, hor, hand, -⟩ := runs_bits _ (h.runs t ht)
  obtain ⟨-, -, -, -, hd₁, hd₂, -⟩ := suspended_bits (s.status t)
  refine h.setStatus (fun _ ↦ ?_) (fun hm ↦ absurd hm (h.ready_suspend t ht))
    (fun e hm ↦ absurd hm (h.ready_waits t ht e)) ?_
  · rcases hst with rfl | rfl
    · exact hor
    · exact hand
  · rcases hst with rfl | rfl
    · exact hd₁
    · exact hd₂

/-- The delay list after a tick, and whether the first task is due: nothing is counted down if it
is due already, or if its delay reads as the end of the list. -/
def ticked : List (TaskId × Nat) → List (TaskId × Nat) × Bool
  | [] => ([], false)
  | (t, k) :: D =>
    if k = 0xFFFF then ((t, k) :: D, false)
    else if k = 0 then ((t, k) :: D, true)
    else (((t, k) :: D).map fun p ↦ (p.1, p.2 - 1), decide (k - 1 = 0))

/-- A timer interrupt counts the delay of the first task down. -/
theorem countDown_ticked (h : Classified s.toTaskLists R S Q D) :
    ∃ dl, s.countDown = .ok ({ s with delay := dl }, (ticked D).2) ∧
      Classified { s.toTaskLists with delay := dl } R S Q (ticked D).1 := by
  have hn := h.delays.next_head
  have hdl := h.delays
  cases D with
  | nil =>
    have hn : s.next .delayHead = .delayTail := hn
    exact ⟨s.delay, by simp [Yalrt.countDown, hn, deref, h.delays.tail, ticked], h⟩
  | cons p D' =>
    obtain ⟨t, k⟩ := p
    have hn : s.next .delayHead = .task t := hn
    have hk : (s.delay (.task t)).toNat = k := hdl.delay_head
    by_cases h1 : k = 0xFFFF
    · have h1' : s.delay (.task t) = 0xFFFF := BitVec.eq_of_toNat_eq (hk.trans h1)
      simp only [ticked, if_pos h1]
      exact ⟨s.delay, by simp [Yalrt.countDown, hn, deref, h1'], h⟩
    have h1' : s.delay (.task t) ≠ 0xFFFF := fun hx ↦ h1 (by rw [← hk, hx]; rfl)
    by_cases h2 : k = 0
    · have h2' : s.delay (.task t) = 0 := BitVec.eq_of_toNat_eq (hk.trans h2)
      simp only [ticked, if_neg h1, if_pos h2]
      exact ⟨s.delay, by simp [Yalrt.countDown, hn, deref, h2'], h⟩
    have h2' : s.delay (.task t) ≠ 0 := fun hx ↦ h2 (by rw [← hk, hx]; rfl)
    have hmap : (((t, k) :: D').map fun p ↦ (p.1, p.2 - 1)).map Prod.fst =
        ((t, k) :: D').map Prod.fst := by
      rw [List.map_map]
      rfl
    have hdue : decide (s.delay (.task t) - 1 = 0) = decide (k - 1 = 0) := by
      rw [← hk]
      exact decide_eq_decide.mpr ⟨fun hx ↦ by bv_omega, fun hx ↦ by bv_omega⟩
    simp only [ticked, if_neg h1, if_neg h2]
    refine ⟨Function.update s.delay (.task t) (s.delay (.task t) - 1), ?_, ⟨h.ready,
      ⟨h.suspend.lists, h.suspend.ends⟩, h.waits, h.ready_suspend, h.ready_waits,
      h.suspend_waits, h.apart⟩, hdl.tick h.timed h2, ?_, fun p hp ↦ ?_, ?_, ?_, h.runs, h.rests,
      h.awaits, h.exchange⟩
    · simp only [Yalrt.countDown, hn, deref, reduceCtorEq, if_false, Exec.ok_bind, h1', h2',
        Function.update_self, hdue]
    · rw [hmap]
      exact h.timed
    · obtain ⟨q, hq, rfl⟩ := List.mem_map.mp hp
      have := h.due q hq
      simp only
      omega
    · intro u
      rw [hmap]
      exact h.delayed_iff
    · intro u hu
      rw [hmap] at hu
      exact h.timed_waits hu

/-- The same for some delay list. -/
theorem countDown (h : Classified s.toTaskLists R S Q D) :
    ∃ dl due D', s.countDown = .ok ({ s with delay := dl }, due) ∧
      Classified { s.toTaskLists with delay := dl } R S Q D' := by
  obtain ⟨dl, he, hc⟩ := h.countDown_ticked
  exact ⟨dl, _, _, he, hc⟩

end Classified

end YRmx
