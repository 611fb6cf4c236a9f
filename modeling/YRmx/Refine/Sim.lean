import YRmx.Intrusive.Fifo
import YRmx.Core.Fuel
import YRmx.Spec.Invariant

/-!
# How pointers denote lists

Library `YRmx`. The relation between a state of the nucleus and its abstract lists, and one
lemma for each pointer manipulation of `ycore.c`: what it does to the words of the
descriptors is what its namesake does to the lists.
-/

namespace YRmx

open Intrusive Transition

/-- The message queue of an exchange, entered at `message_head`. -/
def MessageQueue (s : Nucleus) (e : ExchId) (ms : List MsgId) : Prop :=
  Fifo s.word0 .null (.exch e) (s.messageTail e) (ms.map .msg)

/-- The task queue of an exchange, entered at `task_head`. -/
def TaskQueue (s : Nucleus) (e : ExchId) (ts : List TaskId) : Prop :=
  Fifo s.word2 .null (.exch e) (s.taskTail e) (ts.map .task)

/-- The descriptors stand for these lists. -/
structure Sim (s : Nucleus) (b : Board) : Prop where
  control : s.toControl = b.toControl
  messages : ∀ e, MessageQueue s e (b.mq e)
  tasks : ∀ e, TaskQueue s e (b.tq e)
  delays : DelayList s.word0 s.word1 s.delay b.dl
  own : ∀ m, ¬ b.Queued m → s.msgLink m = b.own m
  /-- no thread comes out of `sem_wait` to find its descriptor linked to itself -/
  link : ∀ {t e d}, b.pc t = .semWait e d → s.link t ≠ .task t

variable {s : Nucleus} {b : Board}

/-! ### Frames -/

/-- A queue of messages depends on its exchange and on the links of its messages. -/
theorem MessageQueue.frame {s' : Nucleus} {e : ExchId} {ms : List MsgId}
    (h : MessageQueue s e ms) (h0 : s'.word0 (.exch e) = s.word0 (.exch e))
    (hm : ∀ m ∈ ms, s'.msgLink m = s.msgLink m)
    (h1 : s'.messageTail e = s.messageTail e) : MessageQueue s' e ms := by
  unfold MessageQueue at h ⊢
  rw [h1]
  apply h.congr h0
  intro a ha
  obtain ⟨m, hmem, rfl⟩ := List.mem_map.mp ha
  exact hm m hmem

/-- A queue of tasks depends on its exchange and on the links of its tasks. -/
theorem TaskQueue.frame {s' : Nucleus} {e : ExchId} {ts : List TaskId}
    (h : TaskQueue s e ts) (h2 : s'.taskHead e = s.taskHead e)
    (ht : ∀ t ∈ ts, s'.link t = s.link t)
    (h3 : s'.taskTail e = s.taskTail e) : TaskQueue s' e ts := by
  unfold TaskQueue at h ⊢
  rw [h3]
  apply h.congr h2
  intro a ha
  obtain ⟨t, hmem, rfl⟩ := List.mem_map.mp ha
  exact ht t hmem

/-- The delay list depends on its sentinels and on the fields of tasks. -/
theorem DelayList.frame {next next' prev prev' : Addr → Addr}
    {delay : Addr → BitVec 16} {dl : List (TaskId × Nat)} (h : DelayList next prev delay dl)
    (hh : next' .delayHead = next .delayHead) (hn : ∀ t, next' (.task t) = next (.task t))
    (ht : prev' .delayTail = prev .delayTail) (hp : ∀ t, prev' (.task t) = prev (.task t)) :
    DelayList next' prev' delay dl := by
  refine ⟨h.linked.congr (fun a ha ↦ ?_) (fun a ha ↦ ?_), h.deltas, h.head, h.tail⟩
  · rw [← List.cons_append, List.dropLast_concat] at ha
    rcases List.mem_cons.mp ha with rfl | ha
    · exact hh
    · obtain ⟨p, -, rfl⟩ := List.mem_map.mp ha
      exact hn p.1
  · rcases List.mem_append.mp ha with ha | ha
    · obtain ⟨p, -, rfl⟩ := List.mem_map.mp ha
      exact hp p.1
    · rw [List.mem_singleton.mp ha]
      exact ht

/-- A queued task is not linked to itself. -/
theorem TaskQueue.link_ne {e : ExchId} {ts : List TaskId} {t : TaskId} (h : TaskQueue s e ts)
    (ht : t ∈ ts) : s.link t ≠ .task t := by
  obtain ⟨l, r, rfl⟩ := List.append_of_mem ht
  have hq : Fifo s.word2 .null (.exch e) (s.taskTail e)
    (l.map Addr.task ++ Addr.task t :: r.map .task) := by
    simpa [TaskQueue] using h
  have hd : (.task t :: r.map Addr.task).Nodup := (List.nodup_append.mp hq.nodup).2.1
  rw [Nucleus.link, hq.link_eq]
  cases r with
  | nil => simp
  | cons u r =>
    intro he
    exact (List.nodup_cons.mp hd).1 (by simp [← he])

/-- The control step puts no thread into the `sem_wait` of `reqwait` that is not queued. -/
def Control.Joins (b : Board) (c : Control) : Prop :=
  ∀ t e d, c.pc t = .semWait e d → b.pc t = .semWait e d ∨ b.Waits t

/-- A step of the control part alone is the same on both sides. -/
theorem Sim.ctl (h : Sim s b) (f : Control → Control) (hf : Control.Joins b (f b.toControl)) :
    Sim (s.ctl f) (b.ctl f) where
  control := congrArg f h.control
  messages := h.messages
  tasks := h.tasks
  delays := h.delays
  own := h.own
  link {t e d} hp := by
    rcases hf t e d hp with hp | ⟨e', ht⟩
    · exact h.link hp
    · exact (h.tasks e').link_ne ht

/-- A thread goes to a point outside the `sem_wait` of `reqwait`. -/
theorem Control.Joins.goto {t : TaskId} {p : Pc} {c : Control} (hc : c.pc = b.pc)
    (hp : ∀ e d, p ≠ .semWait e d) : Control.Joins b (c.goto t p) := by
  intro u e d hu
  by_cases hx : u = t
  · subst hx
    exact absurd (by simpa using hu) (hp e d)
  · rw [← hc]
    exact .inl (by simpa [hx] using hu)

/-- A queued task goes into the `sem_wait` of `reqwait`. -/
theorem Control.Joins.wait {t : TaskId} {p : Pc} (hw : b.Waits t) :
    Control.Joins b (b.toControl.goto t p) := by
  intro u e d hu
  by_cases hx : u = t
  · subst hx
    exact .inr hw
  · exact .inl (by simpa [hx] using hu)

/-- `reqfreeze` leads outside the `sem_wait` of `reqwait`. -/
theorem Control.Joins.reqfreeze {t : TaskId} {k : Call} {c : Control} (hc : c.pc = b.pc) :
    Control.Joins b (c.reqfreeze t k) := by
  have hk : ∀ e d, k.resume ≠ .semWait e d := by
    intro e d
    unfold Call.resume
    split <;> simp
  unfold Control.reqfreeze
  simp only
  split
  · exact .goto hc hk
  · split
    · exact .goto hc (by simp)
    · exact .goto hc hk

/-- A control step that moves no thread. -/
theorem Control.Joins.of_pc {c : Control} (hc : c.pc = b.pc) : Control.Joins b c :=
  fun _ _ _ hp ↦ .inl (hc ▸ hp)

/-- Deletion ends threads. -/
theorem Control.Joins.reqdtskEnd {t u : TaskId} {c : Control} (hc : c.pc = b.pc) :
    Control.Joins b (c.reqdtskEnd t u) := by
  unfold Control.reqdtskEnd
  simp only
  split
  · exact .goto hc (by simp)
  · exact .of_pc hc

/-- A task that suspends itself waits in `reqsusp`. -/
theorem Control.Joins.reqsusp {t u : TaskId} {c : Control} (hc : c.pc = b.pc) :
    Control.Joins b (c.reqsusp t u) := by
  unfold Control.reqsusp
  simp only
  split
  · exact .goto hc (by simp)
  · exact .of_pc hc

/-- Resuming a task moves no thread. -/
theorem Control.reqresm_pc (c : Control) (u : TaskId) : (c.reqresm u).pc = c.pc := by
  unfold Control.reqresm
  split
  · simp only
    split <;> rfl
  · rfl

/-- So does the last part of `reqwait`. -/
theorem Control.Joins.waitDone {t : TaskId} {e : ExchId} {d : BitVec 16} {c : Control}
    (hc : c.pc = b.pc) : Control.Joins b (c.waitDone t e d) := by
  unfold Control.waitDone
  split
  · exact .reqfreeze hc
  · exact .goto hc (by simp)

/-! ### Heads and tails -/

/-- A null `message_head` stands for no message. -/
theorem Sim.messageHead_null (h : Sim s b) (e : ExchId) :
    s.messageHead e = .null ↔ b.mq e = [] :=
  (h.messages e).head_null_iff.trans List.map_eq_nil_iff

/-- `message_tail` is the exchange itself exactly when there is no message. -/
theorem Sim.messageTail_exch (h : Sim s b) (e : ExchId) :
    s.messageTail e = .exch e ↔ b.mq e = [] :=
  (h.messages e).tail_root_iff.trans List.map_eq_nil_iff

/-- A null `task_head` stands for no waiting task. -/
theorem Sim.taskHead_null (h : Sim s b) (e : ExchId) :
    s.taskHead e = .null ↔ b.tq e = [] :=
  (h.tasks e).head_null_iff.trans List.map_eq_nil_iff

/-- `task_tail` is the exchange itself exactly when no task waits. -/
theorem Sim.taskTail_exch (h : Sim s b) (e : ExchId) :
    s.taskTail e = .exch e ↔ b.tq e = [] :=
  (h.tasks e).tail_root_iff.trans List.map_eq_nil_iff

/-! ### Message queues -/

/-- The last word written of a message queue belongs to its exchange or to its messages. -/
theorem Sim.messageTail_cases (h : Sim s b) (e : ExchId) :
    s.messageTail e = .exch e ∨ ∃ m ∈ b.mq e, s.messageTail e = .msg m := by
  rcases List.mem_cons.mp (h.messages e).tail_mem with he | hm
  · exact .inl he
  · obtain ⟨m, hm, he⟩ := List.mem_map.mp hm
    exact .inr ⟨m, hm, he.symm⟩

/-- `ycore.c:1066–1069` appends to the messages of the exchange. -/
theorem Sim.appendMessage (h : Sim s b) (hI : b.Inv) {e : ExchId} {m : MsgId}
    (hm : ¬ b.Queued m) :
    ∃ s', YRmx.appendMessage s e m = .ok s' ∧ Sim s' (b.pushMessage e m) := by
  have hq := h.messages e
  have htail := h.messageTail_cases e
  have hnull : s.messageTail e ≠ .null := hq.tail_ne_null
  refine ⟨_, by simp only [YRmx.appendMessage, deref, if_neg hnull]; rfl, ?_⟩
  generalize hp : s.messageTail e = p at *
  have hpm : p ≠ .msg m := by
    rintro rfl
    rcases htail with he | ⟨m', hm', he⟩
    · cases he
    · cases he
      exact hm ⟨e, hm'⟩
  constructor
  case control => exact h.control
  case messages =>
    intro e'
    by_cases he : e' = e
    · subst he
      have ha := hq.append (n := .msg m) ?_ (by simp)
      · rw [hp, Function.update_comm hpm.symm] at ha
        simpa [MessageQueue, Board.pushMessage] using ha
      · simpa using fun hmem ↦ hm ⟨e', hmem⟩
    · simp only [Board.pushMessage, Function.update_of_ne he]
      have hpe : p ≠ .exch e' := by
        rcases htail with hx | ⟨m', -, hx⟩ <;> simp [hx, Ne.symm he]
      refine (h.messages e').frame ?_ (fun m' hm' ↦ ?_) ?_
      · simp [hpe.symm]
      · have hne : m' ≠ m := fun hx ↦ hm ⟨e', hx ▸ hm'⟩
        have hpm' : p ≠ .msg m' := by
          rintro rfl
          rcases htail with hx | ⟨m'', hm'', hx⟩
          · cases hx
          · cases hx
            exact he (hI.mq_disjoint hm' hm'')
        simp [Nucleus.msgLink, hne, hpm'.symm]
      · simp [Nucleus.messageTail, he]
  case tasks => exact h.tasks
  case delays =>
    have hpt : ∀ t, p ≠ .task t := by
      intro t
      rcases htail with hx | ⟨m', -, hx⟩ <;> simp [hx]
    have hph : p ≠ .delayHead := by
      rcases htail with hx | ⟨m', -, hx⟩ <;> simp [hx]
    refine h.delays.frame ?_ (fun t ↦ ?_) ?_ (fun t ↦ ?_)
    · simp [hph.symm]
    · simp [(hpt t).symm]
    · simp
    · simp
  case own =>
    intro m' hm'
    rw [Board.queued_pushMessage, not_or] at hm'
    have hpm' : p ≠ .msg m' := by
      rcases htail with hx | ⟨m'', hm'', hx⟩
      · simp [hx]
      · rintro rfl
        cases hx
        exact hm'.2 ⟨e, hm''⟩
    simpa [Nucleus.msgLink, Board.pushMessage, hm'.1, hpm'.symm] using h.own m' hm'.2
  case link => exact h.link

/-- The test for the embedded message reads the same fields on both sides. -/
theorem Sim.dequeuesInt_iff (h : Sim s b) (e : ExchId) (m : MsgId) :
    dequeuesInt s e (.msg m) ↔ b.receivesInt e m := by
  have hl : s.length = b.length := congrArg Control.length h.control
  have ht : s.type = b.type := congrArg Control.type h.control
  simp only [dequeuesInt, Board.receivesInt, hl, ht, Addr.msg.injEq]

/-- What `ycore.c:426–452` does when a message is there and no task waits. -/
theorem reqdqmsg_ok {e : ExchId} {m : MsgId} (t : TaskId) (hhead : s.messageHead e = .msg m)
    (htask : s.taskHead e = .null) (htail : s.taskTail e = .exch e) :
    ∃ s', YRmx.reqdqmsg s e t = .ok s' ∧ s'.toControl = s.setMessage t (.msg m) ∧
      s'.word0 = Function.update (Function.update s.word0 (.exch e) (s.word0 (.msg m))) (.msg m)
        (if dequeuesInt s e (.msg m) then .msg m else .task t) ∧
      s'.word1 = (if s.word0 (.msg m) = .null then
        Function.update s.word1 (.exch e) (.exch e) else s.word1) ∧
      s'.word2 = s.word2 ∧ s'.taskTail = s.taskTail ∧ s'.delay = s.delay := by
  have hguard : ¬ (s.taskHead e ≠ .null ∨ s.taskTail e ≠ .exch e) := by
    simp only [htask, htail, ne_eq, not_true_eq_false, or_self, not_false_eq_true]
  have hint : dequeuesInt (s.ctl (·.setMessage t (.msg m))) e (.msg m) ↔
      dequeuesInt s e (.msg m) := Iff.rfl
  have hhead : s.word0 (.exch e) = .msg m := hhead
  simp only [YRmx.reqdqmsg, if_neg hguard, Nucleus.messageHead, hhead, deref]
  refine ⟨_, rfl, ?_⟩
  by_cases hi : dequeuesInt s e (.msg m) <;> by_cases hn : s.word0 (.msg m) = .null <;>
    simp [hint, hi, hn]

/-- The message queue after its first message was given away. -/
theorem MessageQueue.dequeue {s' : Nucleus} {e : ExchId} {m : MsgId} {ms : List MsgId} {a : Addr}
    (h : MessageQueue s e (m :: ms))
    (h0 : s'.word0 = Function.update (Function.update s.word0 (.exch e) (s.word0 (.msg m)))
      (.msg m) a)
    (h1 : s'.word1 = if s.word0 (.msg m) = .null then
      Function.update s.word1 (.exch e) (.exch e) else s.word1) : MessageQueue s' e ms := by
  rw [MessageQueue, List.map_cons] at h
  have hr := Fifo.remove (l := []) h
  simp only [List.getLastD_nil, List.nil_append] at hr
  have ht : s'.messageTail e =
      if s.word0 (.msg m) = .null then .exch e else s.messageTail e := by
    simp only [Nucleus.messageTail, h1]
    split <;> simp
  rw [MessageQueue, h0, ht]
  apply hr.congr (Function.update_of_ne (by simp) _ _)
  intro a ha
  refine Function.update_of_ne ?_ _ _
  rintro rfl
  exact (List.nodup_cons.mp h.nodup).1 ha

/-- `ycore.c:426–452` gives away the first message of the exchange. -/
theorem Sim.reqdqmsg (h : Sim s b) (hI : b.Inv) {e : ExchId} (t : TaskId)
    (hne : b.mq e ≠ []) :
    ∃ s', YRmx.reqdqmsg s e t = .ok s' ∧ Sim s' (b.popMessage e t) := by
  obtain ⟨m, ms, hm⟩ := List.exists_cons_of_ne_nil hne
  have htq : b.tq e = [] := (hI.one_empty e).resolve_left hne
  have hq := h.messages e
  rw [hm] at hq
  obtain ⟨s', hs', hc, h0, h1, h2, h3, h4⟩ := reqdqmsg_ok t (Fifo.head_eq hq)
    ((h.taskHead_null e).mpr htq) ((h.taskTail_exch e).mpr htq)
  simp only [h.dequeuesInt_iff e m] at h0
  refine ⟨s', hs', ?_⟩
  have hqueued : ∀ m', (b.popMessage e t).Queued m' ↔ m' ≠ m ∧ b.Queued m' :=
    fun m' ↦ Board.queued_popMessage hI hm
  rw [Board.popMessage_cons hm] at hqueued ⊢
  constructor
  case control => rw [hc, h.control]
  case messages =>
    intro e'
    by_cases he : e' = e
    · subst he
      simp only [Function.update_self]
      exact hq.dequeue h0 h1
    · simp only [Function.update_of_ne he]
      refine (h.messages e').frame ?_ (fun m' hm' ↦ ?_) ?_
      · simp [h0, he]
      · have hne : m' ≠ m := by
          rintro rfl
          exact he (hI.mq_disjoint hm' (by simp [hm]))
        simp [Nucleus.msgLink, h0, hne]
      · simp only [Nucleus.messageTail, h1]
        split <;> simp [he]
  case tasks => exact fun e' ↦ (h.tasks e').frame (by simp [h2]) (by simp [h2]) (by simp [h3])
  case delays =>
    rw [h4]
    refine h.delays.frame ?_ (fun t' ↦ ?_) ?_ (fun t' ↦ ?_)
    · simp [h0]
    · simp [h0]
    · rw [h1]
      split <;> simp
    · rw [h1]
      split <;> simp
  case own =>
    intro m' hm'
    rw [hqueued, not_and] at hm'
    by_cases hx : m' = m
    · subst hx
      simp [Nucleus.msgLink, h0]
    · simpa [Nucleus.msgLink, h0, hx] using h.own m' (hm' hx)
  case link =>
    intro u e' d hp
    rw [Nucleus.link, h2]
    exact h.link hp

end YRmx
