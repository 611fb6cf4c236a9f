import YRmx.Refine.Runs

/-!
# Two ways of delivery

Library `YRmx`. `reqsend` hands a message to a task that waits already, `reqdqmsg` gives it to a
task that asks for it later. Both say by `msg->link` who may send it next: `reqsend` goes by the
type of the message alone, `reqdqmsg` by its address, its length and its type.
-/

namespace YRmx

open Intrusive Transition

variable {s s' h h' q q' a b : Nucleus} {t u : TaskId} {e : ExchId} {m : MsgId} {o : Op}
  {d : BitVec 16} {ts : List TaskId} {ms : List MsgId} {tr tr' : List (Nucleus × Op)}

/-- What `task->next` and `task->prev` may lead to: no exchange and no message. -/
def Addr.Delays : Addr → Prop
  | .exch _ | .msg _ => False
  | _ => True

instance (x : Addr) : Decidable x.Delays := by
  unfold Addr.Delays
  split <;> infer_instance

/-- The delay links of a task are pointers to task descriptors. -/
def Nucleus.DelayLinks (s : Nucleus) (t : TaskId) : Prop := (s.next t).Delays ∧ (s.prev t).Delays

instance (s : Nucleus) (t : TaskId) : Decidable (s.DelayLinks t) :=
  inferInstanceAs (Decidable (_ ∧ _))

/-- `reqsend` leaves the delay links of a task alone, or can follow them both. -/
def Nucleus.Cancellable (s : Nucleus) (t : TaskId) : Prop :=
  logicalAnd (s.status t &&& ~~~waiting) delayed → s.next t ≠ .null ∧ s.prev t ≠ .null

instance (s : Nucleus) (t : TaskId) : Decidable (s.Cancellable t) :=
  inferInstanceAs (Decidable (_ → _))

/-- The steps of a task from the end of its wait to the return of its call. -/
def Op.Leaves (t : TaskId) : Op → Prop
  | .wake u | .exitRegion u | .heldWake u | .thaw u => u = t
  | _ => False

/-- A task has its message, and these are left in the queues. -/
structure Nucleus.Delivered (s : Nucleus) (e : ExchId) (t : TaskId) (m : MsgId) (ms : List MsgId)
    (ts : List TaskId) : Prop where
  message : s.message t = .msg m
  messages : MessageQueue s e ms
  tasks : TaskQueue s e ts

/-- The message, the task and both queues are the same. -/
structure Nucleus.Agrees (s s' : Nucleus) (e : ExchId) (t : TaskId) (m : MsgId) : Prop where
  msgLink : s.msgLink m = s'.msgLink m
  message : s.message t = s'.message t
  messageHead : s.messageHead e = s'.messageHead e
  messageTail : s.messageTail e = s'.messageTail e
  taskHead : s.taskHead e = s'.taskHead e
  taskTail : s.taskTail e = s'.taskTail e

/-- A call comes to its end, and a property holds wherever its receiver stands on its way out. -/
def Nucleus.Ends (s : Nucleus) (o : Op) (t : TaskId) (P : Nucleus → Prop) : Prop :=
  ∃ s', Step s o s' ∧ ∀ tr a, Run s' tr a → (∀ x ∈ tr, x.2.Leaves t) → P a

/-- The queues and what the tasks were given are the same. -/
structure Nucleus.Keeps (s s' : Nucleus) : Prop where
  word0 : s'.word0 = s.word0
  word1 : s'.word1 = s.word1
  word2 : s'.word2 = s.word2
  taskTail : s'.taskTail = s.taskTail
  message : s'.message = s.message

namespace Nucleus

/-- A change of the control part that gives no message. -/
theorem Keeps.ctl {c : Control} (hc : c.message = s.message) :
    s.Keeps { s with toControl := c } := ⟨rfl, rfl, rfl, rfl, hc⟩

/-- One after the other. -/
theorem Keeps.trans (h₁ : s.Keeps h) (h₂ : h.Keeps s') : s.Keeps s' :=
  ⟨h₂.word0.trans h₁.word0, h₂.word1.trans h₁.word1, h₂.word2.trans h₁.word2,
    h₂.taskTail.trans h₁.taskTail, h₂.message.trans h₁.message⟩

/-- What is delivered stays delivered. -/
theorem Delivered.keep (hd : s.Delivered e t m ms ts) (hk : s.Keeps s') :
    s'.Delivered e t m ms ts where
  message := by rw [hk.message, hd.message]
  messages := hd.messages.frame (by rw [hk.word0]) (fun _ _ ↦ by rw [msgLink, hk.word0])
    (by rw [messageTail, hk.word1])
  tasks := hd.tasks.frame (by rw [taskHead, hk.word2]) (fun _ _ ↦ by rw [link, hk.word2])
    (by rw [hk.taskTail])

/-- Empty queues are alike. -/
theorem Delivered.agrees (ha : a.Delivered e t m [] []) (hb : b.Delivered e t m [] []) :
    a.Agrees b e t m ↔ a.msgLink m = b.msgLink m := by
  refine ⟨fun hab ↦ hab.msgLink, fun hl ↦ ⟨hl, by rw [ha.message, hb.message], ?_, ?_, ?_, ?_⟩⟩
  · exact (Fifo.head_eq ha.messages).trans (Fifo.head_eq hb.messages).symm
  · exact ha.messages.tail_eq.trans hb.messages.tail_eq.symm
  · exact (Fifo.head_eq ha.tasks).trans (Fifo.head_eq hb.tasks).symm
  · exact ha.tasks.tail_eq.trans hb.tasks.tail_eq.symm

end Nucleus

/-! ### The way out of a call -/

/-- `reqfreeze` gives no message. -/
@[simp] theorem Control.reqfreeze_message (c : Control) (t : TaskId) (k : Call) :
    (c.reqfreeze t k).message = c.message := by
  unfold reqfreeze
  dsimp only
  split
  · rfl
  · split <;> rfl

/-- The end of `reqwait` gives no message. -/
@[simp] theorem Control.waitDone_message (c : Control) (t : TaskId) (e : ExchId) (d : BitVec 16) :
    (c.waitDone t e d).message = c.message := by
  unfold waitDone
  split
  · rw [reqfreeze_message]
  · rfl

/-- On its way out of a call a task leaves the queues and the messages alone. -/
theorem Step.keeps (hs : Step s o s') (ho : o.Leaves t) : s.Keeps s' := by
  obtain ⟨n, hs⟩ := hs
  cases o with
  | wake v =>
    simp only [step_wake, wakeAt] at hs
    split at hs
    · obtain ⟨-, hs⟩ := require_bind_eq_ok.mp hs
      dsimp only at hs
      split at hs
      · cases hs
      · cases hs
        refine .ctl ?_
        rw [Control.waitDone_message]
        rfl
    · cases hs
  | exitRegion v =>
    simp only [step_exitRegion, exitAt] at hs
    split at hs
    · cases hs
      show s.Keeps { s with toControl := s.toControl.exitRegion v _ }
      rw [Board.exitRegion_eq]
      exact .ctl rfl
    · cases hs
  | heldWake v =>
    simp only [step_heldWake, heldAt] at hs
    split at hs
    · obtain ⟨-, hs⟩ := require_bind_eq_ok.mp hs
      cases hs
      exact .ctl rfl
    · cases hs
  | thaw v =>
    obtain ⟨-, hs⟩ := require_bind_eq_ok.mp hs
    unfold thawAt at hs
    split at hs
    · cases hs
      exact .ctl rfl
    · cases hs
      exact .ctl rfl
    · cases hs
  | _ => exact ho.elim

/-- So does its whole way. -/
theorem Run.keeps (hr : Run s tr s') (hl : ∀ x ∈ tr, x.2.Leaves t) : s.Keeps s' :=
  hr.invariant (P := fun x ↦ s.Keeps x) (Q := fun _ o ↦ o.Leaves t) ⟨rfl, rfl, rfl, rfl, rfl⟩ hl
    fun _ _ _ hk ho hs ↦ hk.trans (hs.keeps ho)

/-! ### The hand-off -/

/-- `cancel_delay` writes no exchange and no message. -/
theorem cancelDelayUnsafe_keeps (hs : cancelDelayUnsafe s t = .ok s') (hl : s.DelayLinks t) :
    s'.word2 = s.word2 ∧ s'.taskTail = s.taskTail ∧ s'.message = s.message ∧
    ∀ x, ¬ x.Delays → s'.word0 x = s.word0 x ∧ s'.word1 x = s.word1 x := by
  obtain ⟨p, hp, hs⟩ := Exec.bind_eq_ok.mp hs
  obtain ⟨-, rfl⟩ := deref_eq_ok.mp hp
  obtain ⟨r, hr, hs⟩ := Exec.bind_eq_ok.mp hs
  -- the write behind `task->next` leaves `task->prev` as it is
  have hprev : Function.update s.word1 (s.next t) (s.prev t) (.task t) = s.prev t := by
    rw [Function.update_apply]
    split <;> rfl
  have hr : deref (Function.update s.word1 (s.next t) (s.prev t) (.task t)) = .ok r := hr
  rw [hprev] at hr
  obtain ⟨-, rfl⟩ := deref_eq_ok.mp hr
  cases hs
  have hne : ∀ {y : Addr}, y.Delays → ∀ x : Addr, ¬ x.Delays → x ≠ y := by
    rintro y hy x hx rfl
    exact hx hy
  exact ⟨rfl, rfl, rfl, fun x hx ↦
    ⟨Function.update_of_ne (hne hl.2 x hx) _ _, Function.update_of_ne (hne hl.1 x hx) _ _⟩⟩

/-- `cancel_delay` comes to its end when both links can be followed, and faults otherwise. -/
theorem cancelDelayUnsafe_ends : (∃ s', cancelDelayUnsafe s t = .ok s') ∧
      (s.next t ≠ .null ∧ s.prev t ≠ .null) ∨
    cancelDelayUnsafe s t = .error .fault ∧ ¬ (s.next t ≠ .null ∧ s.prev t ≠ .null) := by
  obtain ⟨f, hf⟩ : ∃ f : Addr → Addr → Nucleus, cancelDelayUnsafe s t =
      (deref (s.next t) >>= fun x ↦ deref (Function.update s.word1 x (s.prev t) (.task t)) >>=
        fun y ↦ .ok (f x y)) := ⟨_, rfl⟩
  -- the write behind `task->next` leaves `task->prev` as it is
  have hprev : Function.update s.word1 (s.next t) (s.prev t) (.task t) = s.prev t := by
    rw [Function.update_apply]
    split <;> rfl
  by_cases hn : s.next t = .null
  · refine .inr ⟨?_, fun h ↦ h.1 hn⟩
    rw [hf, deref, if_pos hn, Exec.error_bind]
  · rw [hf, deref, if_neg hn, Exec.ok_bind, hprev]
    by_cases hp : s.prev t = .null
    · refine .inr ⟨?_, fun h ↦ h.2 hp⟩
      rw [deref, if_pos hp, Exec.error_bind]
    · refine .inl ⟨?_, hn, hp⟩
      rw [deref, if_neg hp, Exec.ok_bind]
      exact ⟨_, rfl⟩

/-- The hand-off comes to its end when the delay links it takes can be followed, and faults
otherwise. -/
theorem handOff_ends : (∃ s', handOff s e t m = .ok s') ∧ s.Cancellable t ∨
    handOff s e t m = .error .fault ∧ ¬ s.Cancellable t := by
  have hu : unlinkFirst s e t = unlinkTask s e (.exch e) t := by
    simp [unlinkFirst, unlinkTask]
  obtain ⟨hc, h0, h1, -⟩ := unlinkTask_eq s e (.exch e) t
  rw [← hu] at hc h0 h1
  have hn : (giveMessage (unlinkFirst s e t) t m).next t = s.next t := by simp [giveMessage, h0]
  have hp : (giveMessage (unlinkFirst s e t) t m).prev t = s.prev t := by simp [giveMessage, h1]
  have hst : sendCancels (giveMessage (unlinkFirst s e t) t m) t =
      logicalAnd (s.status t &&& ~~~waiting) delayed := by
    simp [sendCancels, giveMessage, hc]
  unfold handOff
  dsimp only
  rw [hst]
  split
  · next hx =>
    obtain ⟨⟨s₁, hs₁⟩, hnp⟩ | ⟨hf, hnp⟩ :=
      cancelDelayUnsafe_ends (s := giveMessage (unlinkFirst s e t) t m) (t := t)
    · rw [hn, hp] at hnp
      refine .inl ⟨?_, fun _ ↦ hnp⟩
      simp [cancelDelay, hs₁]
    · rw [hn, hp] at hnp
      refine .inr ⟨?_, fun hcan ↦ hnp (hcan hx)⟩
      simp [cancelDelay, hf]
  · next hx => exact .inl ⟨⟨_, rfl⟩, fun hcan ↦ absurd hcan hx⟩

/-- The first waiting task leaves the task queue with its message. -/
theorem handOff_delivers (hs : handOff s e t m = .ok s') (hl : s.DelayLinks t)
    (ht : TaskQueue s e (t :: ts)) (hm : MessageQueue s e []) :
    s'.Delivered e t m [] ts ∧
      s'.msgLink m = if s.type m > timeoutType then .task t else .msg m := by
  have hu : unlinkFirst s e t = unlinkTask s e (.exch e) t := by
    simp [unlinkFirst, unlinkTask]
  obtain ⟨hc, h0, h1, -, h2, -⟩ := unlinkTask_eq s e (.exch e) t
  rw [← hu] at hc h0 h1
  have hq : TaskQueue (unlinkFirst s e t) e ts := by
    rw [hu]
    exact TaskQueue.unlink (l := []) ht
  have hg : (giveMessage (unlinkFirst s e t) t m).Delivered e t m [] ts := by
    constructor
    · simp [giveMessage]
    · refine hm.frame ?_ (by simp) ?_
      · simp [giveMessage, h0]
      · simp [giveMessage, h1]
    · exact hq
  have hw : (giveMessage (unlinkFirst s e t) t m).msgLink m =
      if s.type m > timeoutType then .task t else .msg m := by
    have htype : (unlinkFirst s e t).type = s.type := by rw [hc]
    simp [giveMessage, htype]
  unfold handOff at hs
  dsimp only at hs
  split at hs
  · obtain ⟨s₁, hs₁, hs⟩ := Exec.bind_eq_ok.mp hs
    cases hs
    have hl₁ : (giveMessage (unlinkFirst s e t) t m).DelayLinks t := by
      simpa [Nucleus.DelayLinks, giveMessage, h0, h1] using hl
    obtain ⟨k2, k3, kμ, k⟩ := cancelDelayUnsafe_keeps hs₁ hl₁
    refine ⟨⟨?_, ?_, ?_⟩, ?_⟩
    · rw [← hg.message, ← kμ]
      rfl
    · exact hg.messages.frame (k _ (by simp [Addr.Delays])).1 (by simp)
        (k _ (by simp [Addr.Delays])).2
    · exact hg.tasks.frame (by simp [k2]) (by simp [k2]) (by simp [k3])
    · rw [← hw]
      exact (k _ (by simp [Addr.Delays])).1
  · cases hs
    exact ⟨hg.keep (.ctl rfl), hw⟩

/-- `reqsend` hands an accepted message to the first waiting task. -/
theorem step_reqsend_eq (hpc : s.pc u = .user) (hf : s.mutex e = false) (hacc : accepts s u m)
    (ht : TaskQueue s e (t :: ts)) (hm : MessageQueue s e []) (n : Nat) :
    step n s (.reqsend u e m) = handOff s e t m := by
  have hhead : s.taskHead e = .task t := Fifo.head_eq ht
  have hmh : s.messageHead e = .null := Fifo.head_eq hm
  have hmt : s.messageTail e = .exch e := hm.tail_eq
  show (require (s.pc u = .user) >>= fun _ ↦ reqsend s u e m) = _
  rw [require, if_pos hpc, Exec.ok_bind, reqsend, require, if_pos hf, Exec.ok_bind,
    if_neg (not_not.mpr hacc), hhead, if_neg (by simp), if_neg (by simp [hmh, hmt])]
  rfl

/-! ### The queue -/

/-- `reqdqmsg` gives the first message to the task that asks. -/
theorem reqdqmsg_delivers (hs : reqdqmsg s e t = .ok s') (hm : MessageQueue s e (m :: ms))
    (ht : TaskQueue s e []) :
    s'.Delivered e t m ms [] ∧
      s'.msgLink m = if dequeuesInt s e (.msg m) then .msg m else .task t := by
  obtain ⟨s₁, hs₁, hc, h0, h1, h2, h3, -⟩ := reqdqmsg_ok t (Fifo.head_eq hm)
    (Fifo.head_eq ht) ht.tail_eq
  obtain rfl : s₁ = s' := Except.ok.inj (hs₁.symm.trans hs)
  refine ⟨⟨?_, hm.dequeue h0 h1, ?_⟩, ?_⟩
  · rw [hc]
    simp
  · exact ht.frame (by simp [h2]) (by simp) (by simp [h3])
  · rw [Nucleus.msgLink, h0, Function.update_self]

/-- `reqdqmsg` comes to its end at a queue with a message. -/
theorem reqdqmsg_ends (hm : MessageQueue s e (m :: ms)) (ht : TaskQueue s e []) :
    ∃ s', reqdqmsg s e t = .ok s' := by
  obtain ⟨s', hs, -⟩ := reqdqmsg_ok t (Fifo.head_eq hm) (Fifo.head_eq ht) ht.tail_eq
  exact ⟨s', hs⟩

/-- `reqwait` and `reqacpt` dequeue the first message. -/
theorem Step.dequeue (ho : o = .reqwait t e d ∨ o = .reqacpt t e) (hpc : s.pc t = .user)
    (hf : s.mutex e = false) (hm : MessageQueue s e (m :: ms)) (ht : TaskQueue s e []) :
    ∃ s', Step s o s' ∧ s'.Delivered e t m ms [] ∧
      s'.msgLink m = if dequeuesInt s e (.msg m) then .msg m else .task t := by
  have hhead : s.messageHead e = .msg m := Fifo.head_eq hm
  rcases ho with rfl | rfl
  · have hm' : MessageQueue (s.ctl (·.setExchange t (.exch e))) e _ :=
      hm.frame rfl (fun _ _ ↦ rfl) rfl
    have ht' : TaskQueue (s.ctl (·.setExchange t (.exch e))) e _ :=
      ht.frame rfl (fun _ _ ↦ rfl) rfl
    obtain ⟨s₁, hs₁⟩ := reqdqmsg_ends (t := t) hm' ht'
    obtain ⟨hd, hl⟩ := reqdqmsg_delivers hs₁ hm' ht'
    refine ⟨s₁.ctl (·.waitDone t e d), ⟨0, ?_⟩,
      hd.keep (.ctl (Control.waitDone_message _ _ _ _)), hl⟩
    show (require (s.pc t = .user) >>= fun _ ↦ reqwait 0 s t e d) = _
    rw [require, if_pos hpc, Exec.ok_bind, reqwait, require, if_pos hf, Exec.ok_bind]
    dsimp only
    rw [if_neg (by simp [hhead]), hs₁, Exec.ok_bind]
  · have hm' : MessageQueue (s.ctl fun c ↦ (c.setExchange t (.exch e)).setMessage t .null) e _ :=
      hm.frame rfl (fun _ _ ↦ rfl) rfl
    have ht' : TaskQueue (s.ctl fun c ↦ (c.setExchange t (.exch e)).setMessage t .null) e _ :=
      ht.frame rfl (fun _ _ ↦ rfl) rfl
    obtain ⟨s₁, hs₁⟩ := reqdqmsg_ends (t := t) hm' ht'
    obtain ⟨hd, hl⟩ := reqdqmsg_delivers hs₁ hm' ht'
    refine ⟨s₁.ctl (·.goto t (.exitRegion (.reqacpt e))), ⟨0, ?_⟩, hd.keep (.ctl rfl), hl⟩
    show (require (s.pc t = .user) >>= fun _ ↦ reqacpt s t e) = _
    rw [require, if_pos hpc, Exec.ok_bind, reqacpt, require, if_pos hf, Exec.ok_bind]
    dsimp only
    rw [if_pos (by simp [hhead]), hs₁, Exec.ok_bind]

/-! ### Agreement -/

/-- Both tests class a message as the sender's to give away, or as nobody's. -/
def Nucleus.Classed (s : Nucleus) (e : ExchId) (m : MsgId) : Prop :=
  s.type m > timeoutType ∨ dequeuesInt s e (.msg m)

instance (s : Nucleus) (e : ExchId) (m : MsgId) : Decidable (s.Classed e m) :=
  inferInstanceAs (Decidable (_ ∨ _))

/-- The two tests give the message the same link exactly when they class it alike. -/
theorem link_eq_iff : (if s.type m > timeoutType then Addr.task t else .msg m) =
    (if dequeuesInt s e (.msg m) then .msg m else .task t) ↔ s.Classed e m := by
  unfold Nucleus.Classed
  by_cases h₁ : s.type m > timeoutType
  · have h₂ : ¬ dequeuesInt s e (.msg m) := by
      rintro ⟨he, -, hlt⟩
      cases he
      exact absurd h₁ (BitVec.not_lt.mpr (BitVec.le_of_lt hlt))
    simp [h₁, h₂]
  · by_cases h₂ : dequeuesInt s e (.msg m) <;> simp [h₁, h₂]

/-- The embedded message is known by its own fields. -/
theorem dequeuesInt_congr (hl : s'.length m = s.length m) (ht : s'.type m = s.type m) :
    dequeuesInt s' e (.msg m) ↔ dequeuesInt s e (.msg m) := by
  unfold dequeuesInt
  constructor
  · rintro ⟨he, hrest⟩
    cases he
    exact ⟨rfl, by rwa [← hl, ← ht]⟩
  · rintro ⟨he, hrest⟩
    cases he
    exact ⟨rfl, by rwa [hl, ht]⟩

/-- A step that has one result ends with what holds of the result. -/
theorem Nucleus.ends_iff {P : Nucleus → Prop} (hs : Step s o s')
    (hu : ∀ r, Step s o r → r = s') :
    s.Ends o t P ↔ ∀ tr a, Run s' tr a → (∀ x ∈ tr, x.2.Leaves t) → P a := by
  constructor
  · rintro ⟨r, hr, hP⟩
    exact hu r hr ▸ hP
  · exact fun hP ↦ ⟨s', hs, hP⟩

/-- A message is handed to a task that waits first in a queue, or taken from a queue where it is
the first one: either way the task returns with the message and both queues lose that entry only,
but for a hand-off that takes null delay links, which faults. Who may send the message next is the
same exactly when both tests class it alike. -/
theorem delivery_of_paths (ht : TaskQueue h e (t :: ts)) (hm : MessageQueue h e [])
    (hl : h.DelayLinks t) (hacc : accepts h u m) (hpc : h.pc u = .user) (hf : h.mutex e = false)
    (qm : MessageQueue q e (m :: ms)) (qt : TaskQueue q e []) (qpc : q.pc t = .user)
    (qf : q.mutex e = false) (hlen : q.length m = h.length m) (htype : q.type m = h.type m)
    (ho : o = .reqwait t e d ∨ o = .reqacpt t e) :
    q.Ends o t (·.Delivered e t m ms []) ∧
    (h.Cancellable t → h.Ends (.reqsend u e m) t (·.Delivered e t m [] ts)) ∧
    (¬ h.Cancellable t → ∀ n, step n h (.reqsend u e m) = .error .fault) ∧
    (h.Ends (.reqsend u e m) t (fun a ↦ q.Ends o t fun b ↦ a.msgLink m = b.msgLink m) ↔
      h.Classed e m ∧ h.Cancellable t) ∧
    (ts = [] → ms = [] → (h.Ends (.reqsend u e m) t (fun a ↦ q.Ends o t fun b ↦ a.Agrees b e t m) ↔
      h.Classed e m ∧ h.Cancellable t)) := by
  have hstep := step_reqsend_eq hpc hf hacc ht hm
  obtain ⟨q', qs, qd, qlink⟩ := Step.dequeue ho qpc qf qm qt
  have hq := fun P ↦ Nucleus.ends_iff (t := t) (P := P) qs fun r hr ↦ hr.unique qs
  rcases handOff_ends (s := h) (e := e) (t := t) (m := m) with ⟨⟨h', hs⟩, hc⟩ | ⟨hfault, hc⟩
  · have hs' : Step h (.reqsend u e m) h' := ⟨0, (hstep 0).trans hs⟩
    have hh := fun P ↦ Nucleus.ends_iff (t := t) (P := P) hs' fun r hr ↦ hr.unique hs'
    obtain ⟨hd, hlink⟩ := handOff_delivers hs hl ht hm
    have hiff : h'.msgLink m = q'.msgLink m ↔ h.Classed e m := by
      rw [hlink, qlink]
      simp only [dequeuesInt_congr hlen htype]
      exact link_eq_iff
    -- nothing that the task does on its way out changes either side
    have hlinks : ∀ {tr tr' a b}, Run h' tr a → (∀ x ∈ tr, x.2.Leaves t) → Run q' tr' b →
        (∀ x ∈ tr', x.2.Leaves t) → (a.msgLink m = b.msgLink m ↔ h.Classed e m) := by
      intro tr tr' a b ha hta hb htb
      rw [Nucleus.msgLink, Nucleus.msgLink, (ha.keeps hta).word0, (hb.keeps htb).word0]
      exact hiff
    simp only [hh, hq]
    refine ⟨fun tr b hb htb ↦ qd.keep (hb.keeps htb),
      fun _ tr a ha hta ↦ hd.keep (ha.keeps hta), fun hn ↦ absurd hc hn, ?_, ?_⟩
    · constructor
      · exact fun hP ↦ ⟨hiff.mp (hP [] h' .nil (by simp) [] q' .nil (by simp)), hc⟩
      · exact fun hcl tr a ha hta tr' b hb htb ↦ (hlinks ha hta hb htb).mpr hcl.1
    · rintro rfl rfl
      constructor
      · intro hP
        exact ⟨hiff.mp (hP [] h' .nil (by simp) [] q' .nil (by simp)).msgLink, hc⟩
      · intro hcl tr a ha hta tr' b hb htb
        exact ((hd.keep (ha.keeps hta)).agrees (qd.keep (hb.keeps htb))).mpr
          ((hlinks ha hta hb htb).mpr hcl.1)
  · have hends : ∀ P, ¬ h.Ends (.reqsend u e m) t P := by
      rintro P ⟨r, ⟨n, hn⟩, -⟩
      rw [hstep, hfault] at hn
      cases hn
    simp only [hends, hc, and_false, not_false_iff, implies_true, false_implies, and_true,
      true_and, hq]
    exact ⟨fun tr b hb htb ↦ qd.keep (hb.keeps htb), fun _ n ↦ (hstep n).trans hfault⟩

/-- A task that waits alone. -/
theorem TaskQueue.single (h₁ : s.taskHead e = .task t) (h₂ : s.link t = .null)
    (h₃ : s.taskTail e = .task t) : TaskQueue s e [t] :=
  Fifo.singleton h₁ h₂ h₃ (by simp) (by simp)

/-- A message that is queued alone. -/
theorem MessageQueue.single (h₁ : s.messageHead e = .msg m) (h₂ : s.msgLink m = .null)
    (h₃ : s.messageTail e = .msg m) : MessageQueue s e [m] :=
  Fifo.singleton h₁ h₂ h₃ (by simp) (by simp)

/-- A message of type 64 comes to task 3 in both orders. -/
theorem delivery_of_paths_message : ∃ h q : Nucleus, ∃ tr tr',
    Run boot tr h ∧ tr.map Prod.snd = [.reqcmsg 5 0 24 0, .reqwait 3 7 4] ∧
    Run boot tr' q ∧ tr'.map Prod.snd = [.reqcmsg 5 0 24 0, .reqsend 5 7 (.user 0)] ∧
    h.Ends (.reqsend 5 7 (.user 0)) 3 fun a ↦ q.Ends (.reqwait 3 7 4) 3 fun b ↦
      a.Agrees b 7 3 (.user 0) := by
  obtain ⟨tr, h, hr, hos, -, hh⟩ := exists_run (n := 9) (c := fun _ _ ↦ true) (s := boot)
    (l := [.reqcmsg 5 0 24 0, .reqwait 3 7 4])
    (p := fun s ↦ (s.taskHead 7 = .task 3 ∧ s.link 3 = .null ∧ s.taskTail 7 = .task 3) ∧
      (s.messageHead 7 = .null ∧ s.messageTail 7 = .exch 7) ∧ s.DelayLinks 3 ∧
      (accepts s 5 (.user 0) ∧ s.pc 5 = .user ∧ s.mutex 7 = false) ∧
      (s.length (.user 0) = 24 ∧ s.type (.user 0) = 0x40) ∧ s.Cancellable 3) (by decide +kernel)
  obtain ⟨tr', q, qr, qos, -, hq⟩ := exists_run (n := 9) (c := fun _ _ ↦ true) (s := boot)
    (l := [.reqcmsg 5 0 24 0, .reqsend 5 7 (.user 0)])
    (p := fun s ↦ (s.messageHead 7 = .msg (.user 0) ∧ s.msgLink (.user 0) = .null ∧
        s.messageTail 7 = .msg (.user 0)) ∧
      (s.taskHead 7 = .null ∧ s.taskTail 7 = .exch 7) ∧ (s.pc 3 = .user ∧ s.mutex 7 = false) ∧
      (s.length (.user 0) = 24 ∧ s.type (.user 0) = 0x40)) (by decide +kernel)
  obtain ⟨⟨h1, h2, h3⟩, ⟨h4, h5⟩, hl, ⟨ha, hpc, hf⟩, ⟨hlen, htype⟩, hcan⟩ := of_decide_eq_true hh
  obtain ⟨⟨q1, q2, q3⟩, ⟨q4, q5⟩, ⟨qpc, qf⟩, qlen, qtype⟩ := of_decide_eq_true hq
  have hd := delivery_of_paths (d := 4) (.single h1 h2 h3) (Fifo.nil h4 h5 (by simp)) hl ha hpc hf
    (.single q1 q2 q3) (Fifo.nil q4 q5 (by simp)) qpc qf (qlen.trans hlen.symm)
    (qtype.trans htype.symm) (.inl rfl)
  have hc : h.Classed 7 (.user 0) := by
    left
    rw [htype]
    decide
  exact ⟨h, q, tr, tr', hr, hos, qr, qos, (hd.2.2.2.2 rfl rfl).mpr ⟨hc, hcan⟩⟩

/-- A message whose type was set to 0 is handed to task 3, and taken by task 3: in the first order
any task may send it afterwards, in the second one task 3 alone. A message of type 64 never comes
to a task that waits without a limit and was suspended meanwhile. -/
theorem delivery_paths_disagree : (∃ a b : Nucleus, ∃ tr tr', Run boot tr a ∧
    tr.map Prod.snd = [.reqcmsg 5 0 24 0, .setType 5 0 0, .reqwait 3 7 4, .reqsend 5 7 (.user 0),
      .wake 3, .exitRegion 3, .thaw 3] ∧
    Run boot tr' b ∧
    tr'.map Prod.snd = [.reqcmsg 5 0 24 0, .setType 5 0 0, .reqsend 5 7 (.user 0),
      .reqwait 3 7 4, .exitRegion 3, .thaw 3] ∧
    a.message 3 = .msg (.user 0) ∧ b.message 3 = .msg (.user 0) ∧ ¬ a.Agrees b 7 3 (.user 0) ∧
    accepts a 9 (.user 0) ∧ ¬ accepts b 9 (.user 0)) ∧
    ∃ h : Nucleus, ∃ tr, Run boot tr h ∧
      tr.map Prod.snd = [.reqcmsg 5 0 24 0, .reqwait 3 7 0, .reqsusp 4 3] ∧
      h.type (.user 0) = 0x40 ∧ ∀ n, step n h (.reqsend 5 7 (.user 0)) = .error .fault := by
  obtain ⟨tr, a, hr, hos, -, ha⟩ := exists_run (n := 9) (c := fun _ _ ↦ true) (s := boot)
    (l := [.reqcmsg 5 0 24 0, .setType 5 0 0, .reqwait 3 7 4, .reqsend 5 7 (.user 0),
      .wake 3, .exitRegion 3, .thaw 3])
    (p := fun s ↦ s.message 3 = .msg (.user 0) ∧ s.msgLink (.user 0) = .msg (.user 0))
    (by decide +kernel)
  obtain ⟨tr', b, hr', hos', -, hb⟩ := exists_run (n := 9) (c := fun _ _ ↦ true) (s := boot)
    (l := [.reqcmsg 5 0 24 0, .setType 5 0 0, .reqsend 5 7 (.user 0), .reqwait 3 7 4,
      .exitRegion 3, .thaw 3])
    (p := fun s ↦ s.message 3 = .msg (.user 0) ∧ s.msgLink (.user 0) = .task 3)
    (by decide +kernel)
  obtain ⟨trh, h, hrh, hosh, -, hh⟩ := exists_run (n := 9) (c := fun _ _ ↦ true) (s := boot)
    (l := [.reqcmsg 5 0 24 0, .reqwait 3 7 0, .reqsusp 4 3])
    (p := fun s ↦ (s.taskHead 7 = .task 3 ∧ s.link 3 = .null ∧ s.taskTail 7 = .task 3) ∧
      (s.messageHead 7 = .null ∧ s.messageTail 7 = .exch 7) ∧
      (accepts s 5 (.user 0) ∧ s.pc 5 = .user ∧ s.mutex 7 = false) ∧
      s.type (.user 0) = 0x40 ∧ ¬ s.Cancellable 3) (by decide +kernel)
  obtain ⟨ha, hla⟩ := of_decide_eq_true ha
  obtain ⟨hb, hlb⟩ := of_decide_eq_true hb
  obtain ⟨⟨h1, h2, h3⟩, ⟨h4, h5⟩, ⟨hacc, hpc, hf⟩, htype, hcan⟩ := of_decide_eq_true hh
  refine ⟨⟨a, b, tr, tr', hr, hos, hr', hos', ha, hb, fun hab ↦ ?_, .inr hla, ?_⟩,
    h, trh, hrh, hosh, htype, fun n ↦ ?_⟩
  · have hl := hab.msgLink
    rw [hla, hlb] at hl
    cases hl
  · rintro (hx | hx) <;> rw [hlb] at hx <;> cases hx
  · rw [step_reqsend_eq hpc hf hacc (.single h1 h2 h3) (Fifo.nil h4 h5 (by simp))]
    obtain ⟨-, hc⟩ | ⟨hfault, -⟩ := handOff_ends (s := h) (e := 7) (t := 3) (m := .user 0)
    · exact absurd hc hcan
    · exact hfault

end YRmx
