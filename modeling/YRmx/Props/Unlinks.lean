import YRmx.Props.Plain
import YRmx.Transition.History

/-!
# Steps that take a task out of its exchange

Library `YRmx`. A waiting task is unlinked by the send that hands it a message or by the
expiry loop that gives it the time-out message. Nothing else ends its wait.
-/

namespace YRmx

variable {s : Nucleus} {b b' : Board} {o : Op} {t : TaskId} {e : ExchId} {d : BitVec 16}
  {μ : MsgId}

/-- The time of the task has run out. -/
def Nucleus.Due (s : Nucleus) (t : TaskId) : Prop :=
  ∃ dl, DelayList s.word0 s.word1 s.delay dl ∧ (t, 0) ∈ dl

/-- The step takes the waiting task out of its exchange and stores the message for it. -/
def Nucleus.Unlinks (s : Nucleus) (o : Op) (t : TaskId) (μ : MsgId) : Prop :=
  (∃ e, s.sends o = some (e, μ) ∧ s.taskHead e = .task t) ∨
    o = .expiry ∧ μ = .timeOut ∧ s.Due t

/-- But for an expiry it is the step that hands the task a message. -/
theorem Nucleus.Unlinks.handsTo (h : s.Unlinks o t μ) (ho : o ≠ .expiry) :
    s.handsTo o = some t := by
  rcases h with ⟨e, h1, h2⟩ | ⟨hx, -⟩
  · unfold Nucleus.handsTo
    rw [h1]
    simp only [h2]
  · exact absurd hx ho

/-- A step that hands the task a message unlinks it. -/
theorem Nucleus.unlinks_of_handsTo (h : s.handsTo o = some t) : ∃ μ, s.Unlinks o t μ := by
  unfold Nucleus.handsTo at h
  split at h
  case h_2 => cases h
  case h_1 e m ho =>
    split at h
    case h_2 => cases h
    case h_1 u hu =>
      obtain rfl := Option.some.inj h
      exact ⟨m, .inl ⟨e, ho, hu⟩⟩

namespace Board

/-- The same on lists. -/
def Unlinks (b : Board) (o : Op) (t : TaskId) (μ : MsgId) : Prop :=
  (∃ e, b.sends o = some (e, μ) ∧ (b.tq e).head? = some t) ∨
    o = .expiry ∧ μ = .timeOut ∧ (t, 0) ∈ b.dl

/-- Only a waiting task is unlinked. -/
theorem Unlinks.waits (h : b.Unlinks o t μ) (hI : b.Inv) : b.Waits t := by
  rcases h with ⟨e, -, ht⟩ | ⟨-, -, ht⟩
  · exact ⟨e, List.mem_of_mem_head? ht⟩
  · exact (hI.task t).waits (List.mem_map_of_mem ht)

/-- A task that is unlinked is found in no queue afterwards. -/
theorem Unlinks.not_mem (h : b.Unlinks o t μ) (hI : b.Inv) (hb : b.step o = .ok b') (e : ExchId) :
    t ∉ b'.tq e := by
  rw [(step_lists hI hb e).2.1]
  rcases h with ⟨e', hs, ht⟩ | ⟨rfl, -, ht⟩
  · rw [hs]
    show t ∉ if e' = e then (b.tq e).tail else b.tq e
    by_cases he : e' = e
    · subst he
      rw [if_pos rfl]
      obtain ⟨us, hus⟩ := List.head?_eq_some_iff.mp ht
      have hd := hI.tq_nodup e'
      rw [hus] at hd ⊢
      exact (List.nodup_cons.mp hd).1
    · rw [if_neg he]
      intro hm
      exact he ((hI.task t).tq_disjoint (List.mem_of_mem_head? ht) hm)
  · show t ∉ (b.tq e).filter (· ∉ b.expired)
    intro hm
    have hx : t ∉ b.expired := by simpa using (List.mem_filter.mp hm).2
    exact hx (hI.mem_expired.mpr ht)

/-- The task of a step that keeps its places is not unlinked. -/
theorem Stays.not_unlinks (hs : Stays b b' t) (hI : b.Inv) (hb : b.step o = .ok b') :
    ¬ b.Unlinks o t μ := by
  intro h
  obtain ⟨e, he⟩ := h.waits hI
  exact h.not_mem hI hb e ((hs.tq e).mpr he)

/-- What a step can do to a task that waits. -/
inductive WaiterStep (b : Board) (o : Op) (t : TaskId) (b' : Board) : Prop
  /-- it goes on to wait -/
  | stays (hs : Stays b b' t) (hpc : b'.pc t = b.pc t) (hm : b'.message t = b.message t)
      (hst : b'.status t = b.status t ∨ (∃ u, o = .reqsusp u t ∧ t ≠ u) ∨ ∃ u, o = .reqresm u t)
  /-- it is unlinked -/
  | unlinked (μ : MsgId) (h : b.Unlinks o t μ) (hw : ¬ b'.Waits t) (ht : ¬ b'.Timed t)
      (hpc : b'.pc t = b.pc t) (hm : b'.message t = .msg μ)
  /-- it is deleted -/
  | deleted (u : TaskId) (ho : o = .reqdtsk u t) (hw : ¬ b'.Waits t) (ht : ¬ b'.Timed t)
      (hpc : b'.pc t = b.pc t ∨ b'.pc t = .dead)
  /-- its thread is cancelled -/
  | ended (ho : o = .cancelled t) (hs : Stays b b' t) (hpc : b'.pc t = .dead)

/-- Every step does one of these things to a task that waits. -/
theorem step_waiter (hI : b.Inv) (h : b.step o = .ok b') (hw : b.Waits t) :
    WaiterStep b o t b' := by
  have hpc := (hI.task t).pc_of_waits hw
  have hs0 := (hI.task t).sema_waits hw
  have hsem : ∀ {p}, b.pc t = p → (∀ e d, p ≠ .semWait e d) → p ≠ .dead → False := by
    intro p hp h1 h2
    rcases hpc with ⟨e, d, hx⟩ | hx
    · exact h1 e d (hp.symm.trans hx)
    · exact h2 (hp.symm.trans hx)
  cases step_task hI h t with
  | kept hs hv =>
    exact .stays hs (congrArg TaskState.pc hv) (congrArg TaskState.message hv)
      (.inl (congrArg TaskState.status hv))
  | handed e m ho hu hw' ht hv =>
    exact .unlinked m (.inl ⟨e, ho, hu⟩) hw' ht (congrArg TaskState.pc hv)
      (congrArg TaskState.message hv)
  | expired ho hp hu hw' ht hv =>
    exact .unlinked .timeOut (.inr ⟨ho, rfl, hI.mem_expired.mp hu⟩) hw' ht
      (congrArg TaskState.pc hv) (congrArg TaskState.message hv)
  | blocked _ _ _ hp => exact (hsem hp (by simp) (by simp)).elim
  | fetched _ _ _ _ hp => exact (hsem hp (by simp) (by simp)).elim
  | woken _ _ _ _ _ hm => omega
  | accepted _ _ hp => exact (hsem hp (by simp) (by simp)).elim
  | moved _ _ hp =>
    rcases hp with ⟨hp, -⟩ | ⟨c, hp, -⟩ | ⟨c, hp, -⟩ <;>
      exact (hsem hp (by simp) (by simp)).elim
  | returned _ _ hp => exact (hsem hp (by simp) (by simp)).elim
  | slept _ hp => exact (hsem hp (by simp) (by simp)).elim
  | roused _ hp => exact (hsem hp (by simp) (by simp)).elim
  | suspended u ho hp hu hs hv =>
    exact .stays hs (congrArg TaskState.pc hv) (congrArg TaskState.message hv)
      (.inr (.inl ⟨u, ho, hu⟩))
  | resumed u ho hp hn hs hv =>
    exact .stays hs (congrArg TaskState.pc hv) (congrArg TaskState.message hv)
      (.inr (.inr ⟨u, ho⟩))
  | released u ho hp hn hs hv =>
    exact .stays hs (congrArg TaskState.pc hv) (congrArg TaskState.message hv)
      (.inr (.inr ⟨u, ho⟩))
  | deleted u ho hp hw' ht hv =>
    refine .deleted u ho hw' ht ?_
    rw [show b'.pc t = if t = u then .dead else b.pc t from congrArg TaskState.pc hv]
    split
    · exact .inr rfl
    · exact .inl rfl
  | ended ho hc hp hs hv => exact .ended ho hs (congrArg TaskState.pc hv)

/-- A task that finds no message is put to wait. -/
theorem waits_of_reqwait (hI : b.Inv) (h : b.step (.reqwait t e d) = .ok b') (hq : b.mq e = []) :
    t ∈ b'.tq e ∧ b'.pc t = .semWait e d := by
  obtain ⟨hp, hs⟩ := require_bind_eq_ok.mp h
  have hm : t ∈ b'.tq e := by
    rw [(step_lists hI h e).2.1]
    show t ∈ if e = e ∧ b.mq e = [] then b.tq e ++ [t] else b.tq e
    rw [if_pos ⟨rfl, hq⟩]
    simp
  obtain ⟨-, hs⟩ := require_bind_eq_ok.mp hs
  obtain rfl := Except.ok.inj ((if_pos hq).symm.trans hs)
  refine ⟨hm, ?_⟩
  rw [block_toControl]
  simp

end Board

/-- Both sides agree about the tasks that are due. -/
theorem Sim.due_iff (h : Sim s b) (t : TaskId) : s.Due t ↔ (t, 0) ∈ b.dl := by
  constructor
  · rintro ⟨dl, hd, ht⟩
    rwa [hd.unique h.delays] at ht
  · exact fun ht ↦ ⟨b.dl, h.delays, ht⟩

/-- Both sides agree about the tasks that are unlinked. -/
theorem Sim.unlinks_iff (h : Sim s b) (hI : b.Inv) (o : Op) (t : TaskId) (μ : MsgId) :
    s.Unlinks o t μ ↔ b.Unlinks o t μ := by
  unfold Nucleus.Unlinks Board.Unlinks
  rw [h.sends_eq hI, h.due_iff]
  refine or_congr_left (exists_congr fun e ↦ and_congr_right fun _ ↦ ?_)
  have hh : s.taskHead e = _ := (h.tasks e).head_eq
  rw [hh]
  cases b.tq e <;> simp

end YRmx
