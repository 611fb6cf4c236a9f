import YRmx.Refine.Sim

/-!
# Task queues

Library `YRmx`. Waiting tasks are linked behind `task_tail`, taken from `task_head`, and
removed from the middle by a search that starts with the exchange read as a task.
-/

namespace YRmx

open Intrusive Transition

variable {s s' : Nucleus} {b : Board}

/-- A change of the task queues leaves messages and delays as they are. -/
theorem Sim.withTasks (h : Sim s b) {tq : ExchId → List TaskId}
    (hc : s'.toControl = s.toControl) (h0 : s'.word0 = s.word0) (h1 : s'.word1 = s.word1)
    (hd : s'.delay = s.delay) (ht : ∀ e, TaskQueue s' e (tq e))
    (hl : ∀ u, s'.link u = s.link u ∨ ∃ e, u ∈ tq e) : Sim s' { b with tq := tq } where
  control := hc.trans h.control
  messages e := (h.messages e).frame (by simp [h0]) (by simp [h0]) (by simp [h1])
  tasks := ht
  delays := by
    rw [h0, h1, hd]
    exact h.delays
  own m hm := by
    rw [← h.own m hm, Nucleus.msgLink, h0]
  link {t e d} hp := by
    rcases hl t with hx | ⟨e', hx⟩
    · rw [hx]
      exact h.link hp
    · exact (ht e').link_ne hx

private theorem Sim.taskTail_cases (h : Sim s b) (e : ExchId) :
    s.taskTail e = .exch e ∨ ∃ t ∈ b.tq e, s.taskTail e = .task t := by
  rcases List.mem_cons.mp (h.tasks e).tail_mem with he | hm
  · exact .inl he
  · obtain ⟨t, ht, he⟩ := List.mem_map.mp hm
    exact .inr ⟨t, ht, he.symm⟩

/-- `ycore.c:1157–1170` appends the caller to the tasks that wait at the exchange. -/
theorem Sim.appendTask (h : Sim s b) (hI : b.Inv) {e : ExchId} {t : TaskId}
    (ht : ¬ b.Waits t) :
    ∃ s', YRmx.appendTask s e t = .ok s' ∧ Sim s' (b.pushTask e t) := by
  have hq := h.tasks e
  have htail := h.taskTail_cases e
  have hnull : s.taskTail e ≠ .null := hq.tail_ne_null
  have hne : s.taskTail e ≠ .task t := by
    rcases htail with hx | ⟨u, hu, hx⟩
    · simp [hx]
    · rw [hx]
      rintro hx
      cases hx
      exact ht ⟨e, hu⟩
  have hrun : ∃ s', YRmx.appendTask s e t = .ok s' ∧ s'.toControl = s.toControl ∧
      s'.word0 = s.word0 ∧ s'.word1 = s.word1 ∧ s'.delay = s.delay ∧
      s'.word2 = Function.update (Function.update s.word2 (.task t) .null) (s.taskTail e)
        (.task t) ∧
      s'.taskTail = Function.update s.taskTail e (.task t) := by
    by_cases hh : s.word2 (.exch e) = .null
    · -- an empty queue: its tail is the exchange, so both branches write the same word
      have hx : s.taskTail e = .exch e := (h.taskTail_exch e).mpr ((h.taskHead_null e).mp hh)
      simp [YRmx.appendTask, hh, hx]
    · simp [YRmx.appendTask, hh, deref, hnull, hne.symm]
  obtain ⟨s', hs', hc, h0, h1, hd, h2, h3⟩ := hrun
  refine ⟨s', hs', ?_⟩
  have hl : ∀ u, s'.link u = s.link u ∨ ∃ e', u ∈ (b.pushTask e t).tq e' := by
    intro u
    by_cases hu : u = t
    · exact .inr ⟨e, by simp [Board.pushTask, hu]⟩
    · by_cases hx : s.taskTail e = .task u
      · rcases htail with hy | ⟨v, hv, hy⟩
        · simp [hy] at hx
        · obtain rfl : v = u := Addr.task.inj (hy.symm.trans hx)
          exact .inr ⟨e, by simp [Board.pushTask, hv]⟩
      · exact .inl (by simp [Nucleus.link, h2, Ne.symm hx, hu])
  refine h.withTasks hc h0 h1 hd (fun e' ↦ ?_) hl
  by_cases he : e' = e
  · subst he
    have ha := hq.append (n := .task t) (by simpa using fun hm ↦ ht ⟨e', hm⟩) (by simp)
    simpa [TaskQueue, h2, h3] using ha
  · rw [Function.update_of_ne he]
    refine (h.tasks e').frame ?_ (fun u hu ↦ ?_) (by simp [h3, he])
    · have hx : s.taskTail e ≠ .exch e' := by
        rcases htail with hx | ⟨u, -, hx⟩ <;> simp [hx, Ne.symm he]
      simp [h2, hx.symm]
    · have hut : u ≠ t := by
        rintro rfl
        exact ht ⟨e', hu⟩
      have hx : s.taskTail e ≠ .task u := by
        rcases htail with hx | ⟨v, hv, hx⟩
        · simp [hx]
        · rw [hx]
          rintro hx
          cases hx
          exact he ((hI.task _).tq_disjoint hu hv)
      simp [h2, hx.symm, hut]

/-! ### Removal -/

/-- The search of `ycore.c:513–515` stops at the node before the task it looks for. -/
theorem findLink_yields {t : TaskId} {x : Addr} {l rest : List Addr}
    (h : Threads s.word2 (x :: (l ++ Addr.task t :: rest))) (hx : .null ∉ x :: l)
    (hl : .task t ∉ l) :
    Yields (fun n ↦ findLink s t n x) (l.getLastD x) := by
  have hx0 : x ≠ .null := fun he ↦ hx (by simp [he])
  induction l generalizing x with
  | nil =>
    refine Yields.succ ⟨0, fun n _ ↦ ?_⟩
    have hlink : s.word2 x = .task t := (threads_cons_cons.mp h).1
    simp only [findLink, deref, if_neg hx0]
    exact if_pos hlink
  | cons y l ih =>
    have hlink := threads_cons_cons.mp h
    obtain ⟨hy, hl⟩ := not_or.mp (List.mem_cons.not.mp hl)
    have hyl : .null ∉ y :: l := fun hm ↦ hx (List.mem_cons_of_mem _ hm)
    have hy0 : y ≠ .null := fun he ↦ hyl (by simp [he])
    rw [List.getLastD_cons]
    refine Yields.succ ((ih hlink.2 hyl hl hy0).congr fun n ↦ ?_)
    simp only [findLink, deref, if_neg hx0, hlink.1, Exec.ok_bind]
    exact if_neg (Ne.symm hy)

/-- Unlinking behind the node that the search finds removes the task. -/
theorem TaskQueue.unlink {e : ExchId} {l r : List TaskId} {t : TaskId}
    (h : TaskQueue s e (l ++ t :: r)) :
    TaskQueue (unlinkTask s e ((l.map Addr.task).getLastD (.exch e)) t) e (l ++ r) := by
  unfold TaskQueue at h ⊢
  rw [List.map_append, List.map_cons] at h
  have hr := h.remove
  rw [List.map_append]
  unfold unlinkTask
  simp only [Nucleus.link, Function.update_self]
  split <;> rename_i hn
  · rw [if_pos hn] at hr
    simpa using hr
  · rw [if_neg hn] at hr
    exact hr

/-- Only the exchange and the node before the task are written. -/
theorem unlinkTask_eq (s : Nucleus) (e : ExchId) (p : Addr) (t : TaskId) :
    (unlinkTask s e p t).toControl = s.toControl ∧ (unlinkTask s e p t).word0 = s.word0 ∧
    (unlinkTask s e p t).word1 = s.word1 ∧ (unlinkTask s e p t).delay = s.delay ∧
    (∀ a, a ≠ p → (unlinkTask s e p t).word2 a = s.word2 a) ∧
    ∀ e', e' ≠ e → (unlinkTask s e p t).taskTail e' = s.taskTail e' := by
  unfold unlinkTask
  simp only
  split <;> refine ⟨rfl, rfl, rfl, rfl, fun a ha ↦ ?_, fun e' he ↦ ?_⟩ <;> simp [*]

/-- The search over the task queue of an exchange ends and finds the task, and unlinking it
removes it from the tasks that wait there. -/
theorem Sim.findLink (h : Sim s b) (hI : b.Inv) {e : ExchId} {t : TaskId} (ht : t ∈ b.tq e) :
    ∃ p, Yields (fun n ↦ YRmx.findLink s t n (.exch e)) p ∧
      Sim (unlinkTask s e p t)
        { b with tq := Function.update b.tq e ((b.tq e).erase t) } := by
  obtain ⟨l, r, hlr⟩ := List.append_of_mem ht
  have hq := h.tasks e
  have hnd := hI.tq_nodup e
  rw [hlr] at hq hnd
  have htl : t ∉ l := fun hm ↦ (List.nodup_append.mp hnd).2.2 t hm t (by simp) rfl
  have herase : (b.tq e).erase t = l ++ r := by
    rw [hlr, List.erase_append_right _ htl, List.erase_cons_head]
  refine ⟨(l.map Addr.task).getLastD (.exch e), ?_, ?_⟩
  · have hth : Threads s.word2
      (.exch e :: (l.map Addr.task ++ Addr.task t :: (r.map Addr.task ++ [Addr.null]))) := by
      simpa using hq.threads
    exact findLink_yields hth (by simp) (by simpa using htl)
  · obtain ⟨hc, h0, h1, hd, h2, h3⟩ :=
      unlinkTask_eq s e ((l.map Addr.task).getLastD (.exch e)) t
    have hm : (l.map Addr.task).getLastD (.exch e) ∈ Addr.exch e :: l.map .task :=
      List.getLastD_mem_cons
    have hlink : ∀ u, (unlinkTask s e ((l.map Addr.task).getLastD (.exch e)) t).link u = s.link u ∨
        ∃ e', u ∈ Function.update b.tq e ((b.tq e).erase t) e' := by
      intro u
      by_cases hu : .task u = (l.map Addr.task).getLastD (.exch e)
      · rw [← hu] at hm
        have hul : u ∈ l := by simpa using hm
        exact .inr ⟨e, by simp [herase, hul]⟩
      · exact .inl (h2 _ hu)
    refine h.withTasks hc h0 h1 hd (fun e' ↦ ?_) hlink
    by_cases he : e' = e
    · subst he
      rw [Function.update_self, herase]
      exact hq.unlink
    · rw [Function.update_of_ne he]
      have hp : ∀ a ∈ Addr.exch e' :: (b.tq e').map .task,
          a ≠ (l.map Addr.task).getLastD (.exch e) := by
        rintro a ha rfl
        generalize (l.map Addr.task).getLastD (.exch e) = p at *
        rcases List.mem_cons.mp hm with rfl | hm
        · simp [Ne.symm he] at ha
        · obtain ⟨u, hu, rfl⟩ := List.mem_map.mp hm
          have hu' : u ∈ b.tq e' := by simpa using ha
          exact he ((hI.task _).tq_disjoint hu' (by simp [hlr, hu]))
      exact (h.tasks e').frame (h2 _ (hp _ (by simp)))
        (fun u hu ↦ h2 _ (hp _ (by simp [hu]))) (h3 e' he)

/-- `ycore.c:1081–1083` takes the first one of the waiting tasks. -/
theorem Sim.unlinkFirst (h : Sim s b) {e : ExchId} {t : TaskId} {ts : List TaskId}
    (ht : b.tq e = t :: ts) :
    Sim (YRmx.unlinkFirst s e t) { b with tq := Function.update b.tq e (b.tq e).tail } := by
  have hq := h.tasks e
  rw [ht] at hq
  have he : YRmx.unlinkFirst s e t = unlinkTask s e (.exch e) t := by
    simp [YRmx.unlinkFirst, unlinkTask]
  obtain ⟨hc, h0, h1, hd, h2, h3⟩ := unlinkTask_eq s e (.exch e) t
  rw [he]
  refine h.withTasks hc h0 h1 hd (fun e' ↦ ?_) fun u ↦ .inl (h2 _ (by simp))
  by_cases he : e' = e
  · subst he
    rw [Function.update_self, ht]
    exact TaskQueue.unlink (l := []) hq
  · rw [Function.update_of_ne he]
    exact (h.tasks e').frame (h2 _ (by simp [he])) (fun u hu ↦ h2 _ (by simp)) (h3 e' he)

end YRmx
