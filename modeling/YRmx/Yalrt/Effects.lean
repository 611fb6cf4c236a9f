import YRmx.Yalrt.Calls
import YRmx.Yalrt.Fuel

/-!
# What the system calls are for

Library `YRmx`. What each step is for, on the tasks in the order in which they became runnable
and on the suspended tasks, and that the lists agree with it after a system call, unless the call
comes to one of the wrong tests of the code.
-/

namespace YRmx

open Transition Intrusive Priority

variable {s s' : Yalrt} {R xs : List TaskId} {Q : ExchId → List TaskId}
  {D : List (TaskId × Nat)} {t : TaskId} {e : ExchId} {o : YalrtOp}
  {tr : List (Yalrt × YalrtOp)}

/-- The runnable tasks in the order in which they became so, and the suspended ones. -/
structure Classes where
  came : List TaskId
  suspended : List TaskId

namespace Classes

/-- A task that became able to run is suspended if its suspended bit is set. -/
def comes (c : Classes) (s : Yalrt) (t : TaskId) : Classes :=
  if s.isSuspended t then { c with suspended := c.suspended ++ [t] }
  else { c with came := c.came ++ [t] }

/-- The task that a pointer designates, if it is one, became able to run. -/
def comesAt (c : Classes) (s : Yalrt) : ThreadPtr → Classes
  | .task t => c.comes s t
  | _ => c

/-- No task is lost when one became able to run. -/
theorem comes_subset (c : Classes) (s : Yalrt) (t : TaskId) :
    c.came ⊆ (c.comes s t).came ∧ c.suspended ⊆ (c.comes s t).suspended := by
  rw [comes]
  split
  · exact ⟨List.Subset.refl _, List.subset_append_left _ _⟩
  · exact ⟨List.subset_append_left _ _, List.Subset.refl _⟩

/-- No task is lost when the designated one became able to run. -/
theorem comesAt_subset (c : Classes) (s : Yalrt) (p : ThreadPtr) :
    c.came ⊆ (c.comesAt s p).came ∧ c.suspended ⊆ (c.comesAt s p).suspended := by
  cases p with
  | task t => exact comes_subset c s t
  | null | exch _ | suspendListRoot => exact ⟨List.Subset.refl _, List.Subset.refl _⟩

/-- What a step does: the first waiting task is handed a message, the running task waits, a task
is suspended, resumed or expires. -/
def move (s : Yalrt) (c : Classes) : YalrtOp → Classes
  | .reqsend e _ => c.comesAt s (s.taskHead e)
  | .reqwait e _ =>
    if s.messageHead e = .null then { c with came := c.came.erase s.rqactv } else c
  | .reqsusp t =>
    if t ≠ idleTask ∧ t ∈ c.came then
      { came := c.came.erase t, suspended := c.suspended ++ [t] }
    else c
  | .reqresm t =>
    if t ∈ c.suspended then
      { came := c.came ++ [t], suspended := c.suspended.erase t }
    else c
  | .expire =>
    match s.next .delayHead with
    | .task t => c.comes s t
    | _ => c
  | .deliver => c.comesAt s (s.taskHead s.qIntMsg)
  | _ => c

/-- What a run does. -/
def after (c : Classes) (tr : List (Yalrt × YalrtOp)) : Classes :=
  tr.foldl (fun c x ↦ c.move x.1 x.2) c

/-- One more step. -/
theorem after_snoc (c : Classes) :
    c.after (tr ++ [(s, o)]) = (c.after tr).move s o := by
  rw [after, List.foldl_append]
  rfl

end Classes

namespace Yalrt

/-- `IdleTask` is the last one of the ready list. -/
def IdleLast (s : Yalrt) : Prop := ∃ xs, s.Lists s.ready (xs ++ [idleTask])

/-- The step comes to a test that goes wrong. `reqresm` is called for a suspended task with
another bit set, so that `enterlist` takes it for suspended, or for the last one of several, so
that `removelist` loses the tail; or `reqsend` hands a message to a suspended task that waits
without time limit, so that `cancel_delay` is called for a task that is not in the delay list. -/
def Slips (s : Yalrt) : YalrtOp → Prop
  | .reqresm t => ∃ xs, s.Lists s.headPtr xs ∧ t ∈ xs ∧
      (s.status t &&& ~~~suspended ≠ 0 ∨ ∃ l, l ≠ [] ∧ xs = l ++ [t])
  | .reqsend e _ => ∃ t, s.taskHead e = .task t ∧ s.isSuspended t = true ∧
      s.status t &&& delayed = 0
  | _ => False

/-- The handlers that are inside the critical region. -/
def inside (s : Yalrt) : Nat := s.irq.countP (· ≠ .enterRegion)

/-- `critical_region_flag` counts the lines inside the region, and outside of a system call the
first task of the ready list runs. -/
structure Region (s : Yalrt) (R : List TaskId) : Prop where
  flag : s.criticalRegionFlag = (if s.line = .user then 0 else 1) + s.inside
  active : s.line = .user ∨ s.line = .entered →
    R.head? = some s.rqactv ∧ s.status s.rqactv = 0

/-- After creation of these tasks, no task has run yet. -/
structure Started (s : Yalrt) (xs : List TaskId) : Prop where
  ready : s.Lists s.ready xs
  sorted : xs.Pairwise fun a b ↦ s.key a ≤ s.key b
  active : xs.head? = some s.rqactv
  headPtr : s.headPtr = .null
  queues : ∀ e, s.taskHead e = .null ∧ s.taskTail e = .exch e
  delays : DelayList s.next s.prev s.delay []
  status : ∀ t, s.status t = 0
  line : s.line = .user
  criticalRegionFlag : s.criticalRegionFlag = 0
  irq : s.irq = []

/-- The lists and the region agree with what the steps were for. -/
structure Kept (s : Yalrt) (c : Classes) (R : List TaskId) (Q : ExchId → List TaskId)
    (D : List (TaskId × Nat)) : Prop where
  lists : Classified s.toTaskLists R c.suspended Q D
  serves : Serves s.key c.came R
  region : Region s R

/-- No handler is inside. -/
theorem Outside.inside_eq (h : s.Outside) : s.inside = 0 :=
  List.countP_eq_zero.mpr fun l hl ↦ by simp [h l hl]

/-- Inside a system call, the region only depends on the flag and on the handlers. -/
theorem Region.busy {R' : List TaskId} (h : Region s R) (hl : s.line ≠ .user)
    (hl' : s'.line ≠ .user) (he : s'.line ≠ .entered)
    (hf : s'.criticalRegionFlag = s.criticalRegionFlag) (hi : s'.irq = s.irq) :
    Region s' R' where
  flag := by
    have hin : s'.inside = s.inside := by rw [inside, inside, hi]
    rw [hf, h.flag, hin, if_neg hl, if_neg hl']
  active ha := (ha.elim hl' he).elim

/-- The queue of runnable tasks only depends on the priorities. -/
theorem serves_congr {c : List TaskId} {T T' : Sched} (h : Serves T.key c R)
    (hp : T'.priority = T.priority) : Serves T'.key c R := by
  have hk : T'.key = T.key := by
    ext u
    rw [Sched.key, Sched.key, hp]
  rwa [hk]

/-- A task became able to run. -/
theorem comes_lists {c : Classes} {T : TaskLists}
    (h : Classified T (Classified.wokenReady s.toSched t R)
      (Classified.wokenSuspend s.toSched t c.suspended) Q D)
    (hs : Serves s.key c.came R) (hp : T.priority = s.priority) :
    ∃ R', Classified T R' (c.comes s t).suspended Q D ∧ Serves T.key (c.comes s t).came R' := by
  refine ⟨Classified.wokenReady s.toSched t R, ?_, serves_congr ?_ hp⟩
  · by_cases hb : s.isSuspended t
    · simpa only [Classes.comes, Classified.wokenReady, Classified.wokenSuspend, hb, if_true]
        using h
    · simpa only [Classes.comes, Classified.wokenReady, Classified.wokenSuspend, hb,
        Bool.false_eq_true, if_false] using h
  · by_cases hb : s.isSuspended t
    · simpa only [Classes.comes, Classified.wokenReady, hb, if_true] using hs
    · simpa only [Classes.comes, Classified.wokenReady, hb, Bool.false_eq_true, if_false]
        using hs.enqueue

/-- Where a line of the main program starts and ends. -/
theorem mainStep_ok {l l' : MainLine} {f : Yalrt → Exec Yalrt}
    (h : s.mainStep l l' f = .ok s') :
    s.line = l ∧ s.Outside ∧ ∃ s₁, f s = .ok s₁ ∧ s' = { s₁ with line := l' } := by
  obtain ⟨⟨hl, ho⟩, h⟩ := require_bind_eq_ok.mp h
  obtain ⟨s₁, hs₁, h⟩ := Exec.bind_eq_ok.mp h
  exact ⟨hl, ho, s₁, hs₁, (Except.ok.inj h).symm⟩

/-- A line of the main program that returns with enough fuel. -/
theorem mainStep_yields {k l : MainLine} {f : Nat → Yalrt → Exec Yalrt} {s₁ : Yalrt}
    (hl : s.line = k) (ho : s.Outside) (h : Yields (fun n ↦ f n s) s₁) :
    Yields (fun n ↦ s.mainStep k l (f n)) { s₁ with line := l } := by
  obtain ⟨N, hN⟩ := h
  refine ⟨N, fun n hn ↦ ?_⟩
  have hn := hN n hn
  dsimp only at hn
  simp only [mainStep, require, if_pos (And.intro hl ho), Exec.ok_bind, hn]

/-- The lists after a call: they agree with each other, and the rest of the state is as before. -/
theorem Kept.called {c d : Classes} {T : TaskLists} {P : List TaskId}
    {Q' : ExchId → List TaskId} {D' : List (TaskId × Nat)} (h : Kept s c R Q D)
    (hc : Classified T P d.suspended Q' D') (hv : Serves T.key d.came P)
    (hl : s.line ≠ .user) (ht : s'.toTaskLists = T) (hl' : s'.line ≠ .user)
    (he : s'.line ≠ .entered) (hf : s'.criticalRegionFlag = s.criticalRegionFlag)
    (hi : s'.irq = s.irq) : Kept s' d P Q' D' where
  lists := ht ▸ hc
  serves := ht ▸ hv
  region := h.region.busy hl hl' he hf hi

/-- The task queue of an exchange behind its head pointer. -/
theorem Kept.head {c : Classes} (h : Kept s c R Q D) (e : ExchId) :
    s.taskHead e = .null ∧ Q e = [] ∨ ∃ t r, s.taskHead e = .task t ∧ Q e = t :: r := by
  have hq := (h.lists.waits e).head_eq
  cases hQ : Q e with
  | nil => exact .inl ⟨by rw [taskHead, hq, hQ]; rfl, rfl⟩
  | cons t r => exact .inr ⟨t, r, by rw [taskHead, hq, hQ]; rfl, rfl⟩

/-- With the first task gone, an empty task queue is empty. -/
theorem update_nil {r : List TaskId} {x : ExchId} (hq : Q e = t :: r) (hx : Q x = []) :
    Function.update Q e r x = [] := by
  by_cases he : x = e
  · rw [he, hq] at hx
    cases hx
  · rwa [Function.update_of_ne he]

/-- No task waits behind a null head pointer. -/
theorem Kept.queue_nil {c : Classes} (h : Kept s c R Q D) (hh : s.taskHead e = .null) :
    Q e = [] := by
  simpa using (h.lists.waits e).head_null_iff.mp hh

/-- `reqsend` appends the message to the queue, or hands it to the first waiting task. -/
theorem Kept.reqsend_cases {c : Classes} {m : MsgId} (h : Kept s c R Q D) (hR : R ≠ [])
    (hn : ¬ s.Slips (.reqsend e m)) (hs : Step s (.reqsend e m) s') :
    s.accepts m ∧ s.line = .entered ∧
    (s.taskHead e = .null ∧ (∃ s₁, s.appendMessage e m = .ok s₁ ∧
        s' = { s₁ with line := .exitRegion }) ∨
      ∃ t r T, s.taskHead e = .task t ∧ Q e = t :: r ∧ s.messageHead e = .null ∧
        s' = { s with
          toTaskLists := T
          word0 := Function.update s.word0 (.msg m) (.task t)
          message := Function.update s.message t (.msg m)
          line := .exitRegion } ∧
        Classified T (Classified.wokenReady s.toSched t R)
          (Classified.wokenSuspend s.toSched t c.suspended) (Function.update Q e r)
          (D.filter (·.1 ≠ t)) ∧ T.priority = s.priority) := by
  have hs0 := hs
  obtain ⟨n, hs⟩ := hs
  obtain ⟨hl, ho, s₁, hs₁, rfl⟩ := mainStep_ok (f := (reqsend n · e m)) hs
  have ha : s.accepts m := by
    by_contra ha
    simp only [reqsend, if_pos ha] at hs₁
    cases hs₁
  refine ⟨ha, hl, ?_⟩
  rcases h.head e with ⟨hh, -⟩ | ⟨t, r, hh, hq⟩
  · refine .inl ⟨hh, s₁, ?_, rfl⟩
    simp only [reqsend, ha, not_true_eq_false, if_false, hh, if_true] at hs₁
    split at hs₁
    · cases hs₁
    · exact hs₁
  · have hb : s.status t &&& delayed ≠ 0 ∨ s.isSuspended t = false := by
      by_contra hb
      rw [not_or, not_not, Bool.not_eq_false] at hb
      exact hn ⟨t, hh, hb.2, hb.1⟩
    obtain ⟨T, hT, hc, hp⟩ := h.lists.handOff hR hq hb m
    have hne : s.taskHead e ≠ .null := by simp [hh]
    have hm : ¬ (s.messageHead e ≠ .null ∨ s.messageTail e ≠ .exch e) := by
      intro hm
      simp only [reqsend, ha, not_true_eq_false, if_false, if_neg hne, if_pos hm] at hs₁
      cases hs₁
    have hy := hs0.eq_of_yields (mainStep_yields (l := .exitRegion)
      (f := fun n s ↦ reqsend n s e m) hl ho (hT.congr fun n ↦ by
        simp only [reqsend, ha, not_true_eq_false, if_false, if_neg hne, if_neg hm]
        simp only [hh, ThreadPtr.asTask, Exec.ok_bind]))
    rw [not_or, not_not] at hm
    exact .inr ⟨t, r, T, hh, hq, hm.1, hy, hc, hp⟩

/-- `reqsend`. -/
theorem Kept.reqsend {c : Classes} {m : MsgId} (h : Kept s c R Q D) (hR : R ≠ [])
    (hn : ¬ s.Slips (.reqsend e m)) (hs : Step s (.reqsend e m) s') :
    ∃ R' Q' D', Kept s' (c.move s (.reqsend e m)) R' Q' D' ∧ ∀ x, Q x = [] → Q' x = [] := by
  obtain ⟨-, hl, ⟨hh, s₁, hs₁, rfl⟩ | ⟨t, r, T, hh, hq, -, rfl, hc, hp⟩⟩ :=
    h.reqsend_cases hR hn hs
  · obtain ⟨p, -, hs₁⟩ := Exec.bind_eq_ok.mp hs₁
    obtain rfl := Except.ok.inj hs₁
    refine ⟨R, Q, D, h.called (T := s.toTaskLists) ?_ ?_ (by simp [hl]) rfl (by simp) (by simp)
      rfl rfl, fun _ hx ↦ hx⟩
    · simpa only [Classes.move, hh, Classes.comesAt] using h.lists
    · simpa only [Classes.move, hh, Classes.comesAt] using h.serves
  · obtain ⟨R', hc, hv⟩ := comes_lists hc h.serves hp
    refine ⟨R', Function.update Q e r, D.filter (·.1 ≠ t), h.called (T := T) ?_ ?_ (by simp [hl])
      rfl (by simp) (by simp) rfl rfl, fun _ ↦ update_nil hq⟩
    · simpa only [Classes.move, hh, Classes.comesAt] using hc
    · simpa only [Classes.move, hh, Classes.comesAt] using hv

/-- What `reqdqmsg` changes. -/
theorem reqdqmsg_frame (h : s.reqdqmsg e = .ok s') : s' = { s with
    word0 := s'.word0, messageTail := s'.messageTail, message := s'.message, qint := s'.qint } := by
  rw [reqdqmsg] at h
  split at h
  · cases h
    rfl
  · obtain ⟨p, -, h⟩ := Exec.bind_eq_ok.mp h
    dsimp only at h
    split at h <;> split at h <;> cases h <;> rfl

/-- What `reqacpt` changes. -/
theorem reqacpt_frame (h : s.reqacpt e = .ok s') : s' = { s with
    exchange := Function.update s.exchange s.rqactv (.exch e)
    word0 := s'.word0, messageTail := s'.messageTail, message := s'.message, qint := s'.qint } := by
  rw [reqacpt] at h
  split at h
  · exact reqdqmsg_frame h
  · cases h
    rfl

/-- `reqacpt`. -/
theorem Kept.reqacpt {c : Classes} (h : Kept s c R Q D) (hs : Step s (.reqacpt e) s') :
    (∃ s₁, s.reqacpt e = .ok s₁ ∧ s' = { s₁ with line := .exitRegion }) ∧ Kept s' c R Q D := by
  obtain ⟨n, hs⟩ := hs
  obtain ⟨hl, -, s₁, hs₁, rfl⟩ := mainStep_ok (f := (Yalrt.reqacpt · e)) hs
  obtain ⟨hh, -⟩ := h.region.active (.inr hl)
  have hx := h.lists.setExchange (h.lists.ready_waits _ (List.mem_of_mem_head? hh)) (.exch e)
  refine ⟨⟨s₁, hs₁, rfl⟩, ?_⟩
  rw [reqacpt_frame hs₁]
  exact h.called hx h.serves (by simp [hl]) rfl (by simp) (by simp) rfl rfl

/-- `reqwait` puts the running task to the end of the queue, or takes a message. -/
theorem Kept.reqwait_cases {c : Classes} {d : BitVec 16} (h : Kept s c R Q D)
    (hs : Step s (.reqwait e d) s') :
    s.line = .entered ∧
    ((∃ R' T D', s.messageHead e = .null ∧ R = s.rqactv :: R' ∧
        s' = { s with toTaskLists := T, line := .exitRegion } ∧
        Classified T R' c.suspended (Function.update Q e (Q e ++ [s.rqactv])) D' ∧
        T.priority = s.priority) ∨
      s.messageHead e ≠ .null ∧ ∃ s₁, Yalrt.reqdqmsg { s with
        exchange := Function.update s.exchange s.rqactv (.exch e) } e = .ok s₁ ∧
        s' = { s₁ with line := .exitRegion }) := by
  have hs0 := hs
  obtain ⟨n, hs⟩ := hs
  obtain ⟨hl, ho, s₁, hs₁, rfl⟩ := mainStep_ok (f := (reqwait n · e d)) hs
  obtain ⟨hh, h0⟩ := h.region.active (.inr hl)
  obtain ⟨R', rfl⟩ : ∃ R', R = s.rqactv :: R' := ⟨R.tail, (List.cons_head?_tail hh).symm⟩
  refine ⟨hl, ?_⟩
  by_cases hm : s.messageHead e = .null
  · obtain ⟨T, D', hT, hc, hp⟩ := h.lists.reqwait h0 hm d
    exact .inl ⟨R', T, D', hm, rfl, hs0.eq_of_yields (mainStep_yields (l := .exitRegion)
      (f := fun n s ↦ reqwait n s e d) hl ho hT), hc, hp⟩
  · refine .inr ⟨hm, s₁, ?_, rfl⟩
    have hm' : ¬ s.word0 (.exch e) = .null := hm
    simp only [reqwait, messageHead, if_neg hm'] at hs₁
    obtain ⟨s₂, hs₂, hs₁⟩ := Exec.bind_eq_ok.mp hs₁
    split at hs₁
    · cases hs₁
    · rwa [← Except.ok.inj hs₁]

/-- `reqwait`. -/
theorem Kept.reqwait {c : Classes} {d : BitVec 16} (h : Kept s c R Q D)
    (hs : Step s (.reqwait e d) s') :
    ∃ R' Q' D', Kept s' (c.move s (.reqwait e d)) R' Q' D' ∧ (Q' = Q ∨
      s.messageHead e = .null ∧ Q' = Function.update Q e (Q e ++ [s.rqactv])) := by
  obtain ⟨hl, ⟨R', T, D', hm, rfl, rfl, hc, hp⟩ | ⟨hm, s₁, hs₁, rfl⟩⟩ := h.reqwait_cases hs
  · have hv := serves_congr (h.serves.erase (x := s.rqactv)) hp
    rw [List.erase_cons_head] at hv
    refine ⟨R', Function.update Q e (Q e ++ [s.rqactv]), D', h.called (T := T)
      (d := c.move s (.reqwait e d)) ?_ ?_ (by simp [hl]) rfl (by simp) (by simp) rfl rfl,
      .inr ⟨hm, rfl⟩⟩
    · simpa only [Classes.move, hm, if_true] using hc
    · simpa only [Classes.move, hm, if_true] using hv
  · obtain ⟨hh, -⟩ := h.region.active (.inr hl)
    have hx := h.lists.setExchange (h.lists.ready_waits _ (List.mem_of_mem_head? hh)) (.exch e)
    rw [reqdqmsg_frame hs₁]
    simp only [Classes.move, if_neg hm]
    exact ⟨R, Q, D, h.called hx h.serves (by simp [hl]) rfl (by simp) (by simp) rfl rfl, .inl rfl⟩

/-- `reqsusp`. -/
theorem Kept.reqsusp {c : Classes} (h : Kept s c R Q D) (hs : Step s (.reqsusp t) s') :
    (∃ T, s' = { s with toTaskLists := T, line := .exitRegion }) ∧
      ∃ R', Kept s' (c.move s (.reqsusp t)) R' Q D := by
  have hs0 := hs
  obtain ⟨n, hs⟩ := hs
  obtain ⟨hl, ho, -, -, -⟩ := mainStep_ok (f := (Yalrt.reqsusp n · t)) hs
  obtain ⟨T, hT, hc, hp⟩ := h.lists.reqsusp t
  obtain rfl := hs0.eq_of_yields (mainStep_yields (l := .exitRegion)
    (f := fun n s ↦ Yalrt.reqsusp n s t) hl ho hT)
  refine ⟨⟨T, rfl⟩, _, h.called (T := T) (d := c.move s (.reqsusp t))
    (P := if t ≠ idleTask ∧ t ∈ R then R.erase t else R) ?_ ?_ (by simp [hl]) rfl (by simp)
    (by simp) rfl rfl⟩
  · by_cases ht : t ≠ idleTask ∧ t ∈ c.came
    · rw [if_pos ⟨ht.1, h.serves.mem_iff.mpr ht.2⟩, if_pos ⟨ht.1, h.serves.mem_iff.mpr ht.2⟩] at hc
      rw [if_pos ⟨ht.1, h.serves.mem_iff.mpr ht.2⟩, Classes.move, if_pos ht]
      exact hc
    · have ht' : ¬ (t ≠ idleTask ∧ t ∈ R) := fun hx ↦ ht ⟨hx.1, h.serves.mem_iff.mp hx.2⟩
      rw [if_neg ht', if_neg ht'] at hc
      rw [if_neg ht', Classes.move, if_neg ht]
      exact hc
  · refine serves_congr ?_ hp
    by_cases ht : t ≠ idleTask ∧ t ∈ c.came
    · rw [if_pos ⟨ht.1, h.serves.mem_iff.mpr ht.2⟩, Classes.move, if_pos ht]
      exact h.serves.erase
    · rw [if_neg fun hx ↦ ht ⟨hx.1, h.serves.mem_iff.mp hx.2⟩, Classes.move, if_neg ht]
      exact h.serves

/-- `reqresm`. -/
theorem Kept.reqresm {c : Classes} (h : Kept s c R Q D) (hR : R ≠ [])
    (hn : ¬ s.Slips (.reqresm t)) (hs : Step s (.reqresm t) s') :
    (∃ T, s' = { s with toTaskLists := T, line := .exitRegion }) ∧
      ∃ R', Kept s' (c.move s (.reqresm t)) R' Q D := by
  have hs0 := hs
  obtain ⟨n, hs⟩ := hs
  obtain ⟨hl, ho, -, -, -⟩ := mainStep_ok (f := (Yalrt.reqresm n · t)) hs
  have hb : t ∈ c.suspended → s.status t &&& maskint = 0 := by
    intro ht
    by_contra hb
    have hm := (rests_bits _ (h.lists.rests t ht)).2.2.2.2.2 hb
    exact hn ⟨c.suspended, h.lists.suspend.lists, ht, .inl (by rw [hm]; decide)⟩
  have hlast : ∀ l, c.suspended = l ++ [t] → l = [] := by
    intro l hx
    by_contra hne
    exact hn ⟨c.suspended, h.lists.suspend.lists, by simp [hx], .inr ⟨l, hne, hx⟩⟩
  obtain ⟨T, hT, hc, hp⟩ := h.lists.reqresm hR hb hlast
  obtain rfl := hs0.eq_of_yields (mainStep_yields (l := .exitRegion)
    (f := fun n s ↦ Yalrt.reqresm n s t) hl ho hT)
  refine ⟨⟨T, rfl⟩, _, h.called (T := T) (d := c.move s (.reqresm t))
    (P := if t ∈ c.suspended then enqueue s.key t R else R) ?_ ?_ (by simp [hl]) rfl (by simp)
    (by simp) rfl rfl⟩
  · by_cases ht : t ∈ c.suspended
    · rw [if_pos ht] at hc ⊢
      rw [Classes.move, if_pos ht]
      exact hc
    · rw [if_neg ht, List.erase_of_not_mem ht] at hc
      rw [if_neg ht, Classes.move, if_neg ht]
      exact hc
  · refine serves_congr ?_ hp
    by_cases ht : t ∈ c.suspended
    · rw [if_pos ht, Classes.move, if_pos ht]
      exact h.serves.enqueue
    · rw [if_neg ht, Classes.move, if_neg ht]
      exact h.serves

/-- One turn of the loop of `rqdelaytask`. -/
theorem Kept.expire {c : Classes} (h : Kept s c R Q D) (hR : R ≠ []) (hs : Step s .expire s') :
    ∃ t, (∃ T, s' = { s with
      toTaskLists := T, message := Function.update s.message t (.msg .timeOut),
      line := .expiry }) ∧
      ∃ R' e D', Kept s' (c.move s .expire) R' (Function.update Q e ((Q e).erase t)) D' := by
  have hs0 := hs
  obtain ⟨n, hs⟩ := hs
  obtain ⟨hline, hs⟩ := require_bind_eq_ok.mp hs
  obtain ⟨-, ho, s₁, hs₁, -⟩ := mainStep_ok (f := (Yalrt.expire n ·)) hs
  obtain ⟨hk, -⟩ := require_bind_eq_ok.mp hs₁
  obtain ⟨t, D', hD, hn⟩ := h.lists.first_due hk
  obtain ⟨e, hq⟩ := h.lists.timed_waits (t := t) (by simp [hD])
  obtain ⟨T, hT, hc, hp⟩ := h.lists.expire hR hk hn hq
  have hy := mainStep_yields (l := .expiry) (f := fun n s ↦ Yalrt.expire n s) rfl ho hT
  obtain rfl := hs0.eq_of_yields (hy.congr fun n ↦ by
    simp only [step, require, if_pos hline, Exec.ok_bind])
  obtain ⟨R', hc, hv⟩ := comes_lists hc h.serves hp
  have hne : s.line ≠ .user := by
    rcases hline with hl | hl <;> simp [hl]
  refine ⟨t, ⟨T, rfl⟩, R', e, _, h.called (T := T) (d := c.move s .expire)
    (by simpa only [Classes.move, hn] using hc) (by simpa only [Classes.move, hn] using hv) hne
    rfl (by simp) (by simp) rfl rfl⟩

/-- The loop of `rqdelaytask` ends. -/
theorem Kept.expired {c : Classes} (h : Kept s c R Q D) (hs : Step s .expired s') :
    s' = { s with line := .exitRegion } ∧ Kept s' c R Q D := by
  obtain ⟨n, hs⟩ := hs
  obtain ⟨hline, hs⟩ := require_bind_eq_ok.mp hs
  obtain ⟨-, -, s₁, hs₁, rfl⟩ := mainStep_ok (f := Yalrt.expired) hs
  obtain ⟨-, hs₁⟩ := require_bind_eq_ok.mp hs₁
  obtain rfl := Except.ok.inj hs₁
  have hne : s.line ≠ .user := by
    rcases hline with hl | hl <;> simp [hl]
  exact ⟨rfl, h.called h.lists h.serves hne rfl (by simp) (by simp) rfl rfl⟩

end Yalrt

end YRmx
