import YRmx.Yalrt.Refine

/-!
# Every call returns

Library `YRmx`. In a state that follows the plan no pointer leads astray and no loop goes on for
ever: a step can be taken as soon as its line is reached, no handler is inside the critical region,
and, for `reqsend`, the message is the sender's.
-/

namespace YRmx

open Transition Intrusive Priority

variable {s s' s₀ : Yalrt} {p : Plan} {xs : List TaskId} {t : TaskId} {e : ExchId} {m : MsgId}
  {o : YalrtOp} {tr : List (Yalrt × YalrtOp)}

namespace Yalrt

/-- The step is next: its line is reached, a message that is sent is the sender's, and the handlers
that are inside one another are not too many. -/
def Enabled (s : Yalrt) : YalrtOp → Prop
  | .enterRegion => s.At .user
  | .reqsend _ m => s.At .entered ∧ s.accepts m
  | .reqacpt _ | .reqwait _ _ | .reqsusp _ | .reqresm _ => s.At .entered
  | .expire => (s.At .entered ∨ s.At .expiry) ∧ s.delay (s.next .delayHead) = 0
  | .expired => (s.At .entered ∨ s.At .expiry) ∧ s.delay (s.next .delayHead) ≠ 0
  | .exitRegion => s.At .exitRegion
  | .pop => s.At .drain ∧ s.queueIndex ≠ 0
  | .fetch => s.At .fetch
  | .deliver => s.At .deliver
  | .drained => s.At .drain ∧ s.queueIndex = 0
  | .close => s.At .switch
  | .reqisnd _ | .reqssnd _ | .timer => True
  | .irq i => ∃ l, s.irq[i]? = some l ∧ (l = .exitRegion → s.criticalRegionFlag ≤ 100)

/-- The step comes to `reqfreeze`: a message that is sent is another task's, or a handler ends while
more than 100 regions are nested. -/
def Freezes (s : Yalrt) : YalrtOp → Prop
  | .reqsend _ m => s.At .entered ∧ ¬ s.accepts m
  | .irq i => s.irq[i]? = some .exitRegion ∧ 100 < s.criticalRegionFlag
  | _ => False

/-- A line that is not reached is not taken. -/
theorem mainStep_blocked {l l' : MainLine} {f : Yalrt → Exec Yalrt} (h : ¬ s.At l) :
    s.mainStep l l' f = .error .blocked := by
  have h' : ¬ (s.line = l ∧ s.Outside) := h
  rw [mainStep, require, if_neg h', Exec.error_bind]

/-- A line whose test fails is not taken. -/
theorem mainStep_error {l l' : MainLine} {f : Yalrt → Exec Yalrt} {r : Stop} (h : s.At l)
    (hf : f s = .error r) : s.mainStep l l' f = .error r := by
  have h' : s.line = l ∧ s.Outside := h
  rw [mainStep, require, if_pos h', Exec.ok_bind, hf, Exec.error_bind]

/-- The code freezes in these steps. -/
theorem step_frozen (h : s.Freezes o) (n : Nat) : step n s o = .error .frozen := by
  cases o with
  | reqsend e m =>
    rw [Yalrt.step]
    apply mainStep_error h.1
    rw [Yalrt.reqsend, if_pos h.2]
  | irq i =>
    obtain ⟨hi, hf⟩ := h
    have h1 : s.criticalRegionFlag ≠ 1 := by omega
    simp only [Yalrt.step, irqStep, hi, exitRegion, if_pos h1, if_pos hf]
  | _ => exact h.elim

/-- A turn of `rqdelaytask` whose line is not reached is not taken. -/
theorem expiry_blocked {l' : MainLine} {f : Yalrt → Exec Yalrt} {p : Prop} [Decidable p]
    (h : ¬ ((s.At .entered ∨ s.At .expiry) ∧ p)) (hf : ¬ p → f s = .error .blocked) :
    (require (s.line = .entered ∨ s.line = .expiry) >>= fun _ ↦ s.mainStep s.line l' f) =
      .error .blocked := by
  by_cases hl : s.line = .entered ∨ s.line = .expiry
  · rw [require, if_pos hl, Exec.ok_bind]
    by_cases ho : s.Outside
    · exact mainStep_error ⟨rfl, ho⟩ (hf fun hp ↦ h ⟨hl.imp (⟨·, ho⟩) (⟨·, ho⟩), hp⟩)
    · exact mainStep_blocked fun ha ↦ ho ha.2
  · rw [require, if_neg hl, Exec.error_bind]

/-- A step that is not next waits for its line, unless it freezes. -/
theorem step_blocked (h : ¬ s.Enabled o) (hf : ¬ s.Freezes o) (n : Nat) :
    step n s o = .error .blocked := by
  cases o with
  | reqsend e m =>
    rw [Yalrt.step]
    exact mainStep_blocked fun ha ↦ hf ⟨ha, fun hm ↦ h ⟨ha, hm⟩⟩
  | enterRegion | reqacpt _ | reqwait _ _ | reqsusp _ | reqresm _ | fetch | deliver | close =>
    rw [Yalrt.step]
    exact mainStep_blocked h
  | expire =>
    apply expiry_blocked h
    intro hd
    rw [expire, require, if_neg hd, Exec.error_bind]
  | expired =>
    apply expiry_blocked h
    intro hd
    rw [expired, require, if_neg hd, Exec.error_bind]
  | exitRegion =>
    rw [Yalrt.step, mainStep_blocked h, Exec.error_bind]
  | pop =>
    by_cases ha : s.At .drain
    · have hq : s.queueIndex = 0 := by
        by_contra hq
        exact h ⟨ha, hq⟩
      exact mainStep_error ha (by simp only [pop, hq])
    · exact mainStep_blocked ha
  | drained =>
    by_cases ha : s.At .drain
    · apply mainStep_error ha
      rw [drained, require, if_neg fun hq ↦ h ⟨ha, hq⟩, Exec.error_bind]
    · exact mainStep_blocked ha
  | reqisnd _ | reqssnd _ | timer => exact absurd trivial h
  | irq i =>
    cases hi : s.irq[i]? with
    | none => simp only [Yalrt.step, irqStep, hi]
    | some l =>
      refine absurd ⟨l, hi, fun hl ↦ ?_⟩ h
      by_contra hn
      exact hf ⟨hl ▸ hi, by omega⟩

/-- The line of a call that has returned was reached. -/
theorem at_of_mainStep {l l' : MainLine} {f : Yalrt → Exec Yalrt}
    (h : s.mainStep l l' f = .ok s') : s.At l := by
  obtain ⟨hl, ho, -⟩ := mainStep_ok h
  exact ⟨hl, ho⟩

/-- The line of a turn of `rqdelaytask` that has returned was reached. -/
theorem at_of_expiry {l' : MainLine} {f : Yalrt → Exec Yalrt}
    (hl : s.line = .entered ∨ s.line = .expiry)
    (h : s.mainStep s.line l' f = .ok s') : s.At .entered ∨ s.At .expiry := by
  obtain ⟨-, ho⟩ := at_of_mainStep h
  exact hl.imp (⟨·, ho⟩) (⟨·, ho⟩)

/-- A step that is taken was next. -/
theorem Step.enabled (hs : Step s o s') : s.Enabled o := by
  obtain ⟨n, hs⟩ := hs
  rw [Yalrt.step.eq_def] at hs
  cases o with
  | reqsend e m =>
    refine ⟨at_of_mainStep hs, ?_⟩
    obtain ⟨-, -, s₁, hs₁, -⟩ := mainStep_ok hs
    by_contra ha
    simp only [reqsend, if_pos ha] at hs₁
    cases hs₁
  | enterRegion | reqacpt _ | reqwait _ _ | reqsusp _ | reqresm _ | fetch | deliver | close =>
    exact at_of_mainStep hs
  | expire =>
    obtain ⟨hl, hs⟩ := require_bind_eq_ok.mp hs
    obtain ⟨-, -, s₁, hs₁, -⟩ := mainStep_ok hs
    exact ⟨at_of_expiry hl hs, (require_bind_eq_ok.mp hs₁).1⟩
  | expired =>
    obtain ⟨hl, hs⟩ := require_bind_eq_ok.mp hs
    obtain ⟨-, -, s₁, hs₁, -⟩ := mainStep_ok hs
    exact ⟨at_of_expiry hl hs, (require_bind_eq_ok.mp hs₁).1⟩
  | exitRegion =>
    obtain ⟨s₁, hs₁, -⟩ := Exec.bind_eq_ok.mp hs
    exact at_of_mainStep hs₁
  | pop =>
    refine ⟨at_of_mainStep hs, fun h0 ↦ ?_⟩
    obtain ⟨-, -, s₁, hs₁, -⟩ := mainStep_ok hs
    simp only [pop, h0] at hs₁
    cases hs₁
  | drained =>
    obtain ⟨-, -, s₁, hs₁, -⟩ := mainStep_ok hs
    exact ⟨at_of_mainStep hs, (require_bind_eq_ok.mp hs₁).1⟩
  | reqisnd _ | reqssnd _ | timer => trivial
  | irq i =>
    cases hi : s.irq[i]? with
    | none =>
      simp only [irqStep, hi] at hs
      cases hs
    | some l =>
      refine ⟨l, hi, fun hl ↦ ?_⟩
      subst hl
      simp only [irqStep, hi, exitRegion] at hs
      by_contra hf
      rw [if_pos (by omega), if_pos (by omega)] at hs
      cases hs

/-- A call that returns with enough fuel can be taken. -/
theorem takes {l : MainLine} (l' : MainLine) {f : Nat → Yalrt → Exec Yalrt} {r : Yalrt}
    (hl : s.At l) (hf : Yields (fun n ↦ f n s) r)
    (hstep : ∀ n, step n s o = s.mainStep l l' (f n)) : ∃ s', Step s o s' := by
  have hy := mainStep_yields (k := l) (l := l') (f := f) hl.1 hl.2 hf
  exact ⟨_, step_of_yields (hy.congr hstep)⟩

namespace Follows

/-- `reqsend` returns. -/
theorem reqsend_returns (h : Follows s p) (ho : s.Lawful (.reqsend e m)) (hl : s.At .entered)
    (ha : s.accepts m) : ∃ s', Step s (.reqsend e m) s' := by
  rcases h.kept.head e with ⟨hh, hq⟩ | ⟨t, r, hh, hq⟩
  · have hw := h.kept.lists.waits e
    rw [hq] at hw
    have ht : s.taskTail e = .exch e := hw.tail_root_iff.mpr rfl
    have htail := (h.posted.queues e).tail_ne_null
    have hh' : s.thread (.exch e) = .null := hh
    refine takes .exitRegion (f := fun n s ↦ Yalrt.reqsend n s e m) (r := { s with
        word0 := Function.update (Function.update s.word0 (s.messageTail e) (.msg m)) (.msg m) .null
        messageTail := Function.update s.messageTail e (.msg m) }) hl
      ((Yields.const _).congr fun n ↦ ?_) fun _ ↦ rfl
    simp only [Yalrt.reqsend, ha, not_true_eq_false, if_false, taskHead, hh', if_true, ht, ne_eq,
      appendMessage, deref, if_neg htail, Exec.ok_bind]
  · have hb : s.status t &&& delayed ≠ 0 ∨ s.isSuspended t = false := by
      by_contra hb
      rw [not_or, not_not, Bool.not_eq_false] at hb
      exact ho.slips ⟨t, hh, hb.2, hb.1⟩
    obtain ⟨T, hT, -⟩ := h.kept.lists.handOff h.ready_ne_nil hq hb m
    have hM := h.posted.exclusive (e := e) (by simp [hq])
    have hm := h.posted.queues e
    rw [hM] at hm
    have htest : ¬ (s.word0 (.exch e) ≠ .null ∨ s.messageTail e ≠ .exch e) := by
      rw [not_or, not_not, not_not]
      exact ⟨hm.head_eq, hm.tail_root_iff.mpr rfl⟩
    have hh' : s.thread (.exch e) = .task t := hh
    refine takes .exitRegion (f := fun n s ↦ Yalrt.reqsend n s e m) hl
      (hT.congr fun n ↦ ?_) fun _ ↦ rfl
    simp only [Yalrt.reqsend, ha, not_true_eq_false, if_false, taskHead, hh', reduceCtorEq,
      messageHead, htest, ThreadPtr.asTask, Exec.ok_bind]

/-- `reqdqmsg` at an exchange with a message returns. -/
theorem reqdqmsg_returns {x : TaskId → ThreadPtr} {y : TaskId → Addr} (h : Follows s p)
    (hn : s.messageHead e ≠ .null) : ∃ s₁,
      Yalrt.reqdqmsg { s with exchange := x, message := y } e = .ok s₁ ∧
        s₁.message s.rqactv ≠ .null := by
  obtain ⟨m, ms, hM⟩ := List.exists_cons_of_ne_nil fun hx ↦ hn (h.mail_null.mpr hx)
  have htq : p.tq e = [] := by
    by_contra hq
    rw [h.posted.exclusive hq] at hM
    cases hM
  have hw := h.kept.lists.waits e
  rw [htq] at hw
  have hhead := (h.posted.queues e).head_eq
  rw [hM] at hhead
  refine ⟨_, reqdqmsg_cons (s := { s with exchange := x, message := y }) (e := e) (m := m)
    (h.head_null.mpr htq) (hw.tail_root_iff.mpr rfl) hhead, ?_⟩
  simp

/-- `reqacpt` returns. -/
theorem reqacpt_returns (h : Follows s p) (hl : s.At .entered) : ∃ s', Step s (.reqacpt e) s' := by
  by_cases hn : s.messageHead e = .null
  · have hn' : s.word0 (.exch e) = .null := hn
    refine takes .exitRegion (f := fun _ s ↦ Yalrt.reqacpt s e) (r := { s with
        exchange := Function.update s.exchange s.rqactv (.exch e)
        message := Function.update s.message s.rqactv .null }) hl
      ((Yields.const _).congr fun n ↦ ?_) fun _ ↦ rfl
    simp only [Yalrt.reqacpt, messageHead, hn', ne_eq, not_true_eq_false, if_false]
  · obtain ⟨s₁, hs₁, -⟩ := h.reqdqmsg_returns (x := Function.update s.exchange s.rqactv (.exch e))
      (y := Function.update s.message s.rqactv .null) hn
    have hn' : ¬ s.word0 (.exch e) = .null := hn
    refine takes .exitRegion (f := fun _ s ↦ Yalrt.reqacpt s e) hl
      ((Yields.const s₁).congr fun n ↦ ?_) fun _ ↦ rfl
    simp only [Yalrt.reqacpt, messageHead, ne_eq, hn', not_false_eq_true, if_true]
    exact hs₁

/-- `reqwait` returns. -/
theorem reqwait_returns {d : BitVec 16} (h : Follows s p) (hl : s.At .entered) :
    ∃ s', Step s (.reqwait e d) s' := by
  by_cases hn : s.messageHead e = .null
  · obtain ⟨hh, h0⟩ := h.kept.region.active (.inr hl.1)
    have hR : p.ready = s.rqactv :: p.ready.tail := (List.cons_head?_tail hh).symm
    have hlists := h.kept.lists
    rw [hR] at hlists
    obtain ⟨T, hT, -⟩ := hlists.reqwait_delays h0 hn d
    exact takes .exitRegion (f := fun n s ↦ Yalrt.reqwait n s e d) hl hT fun _ ↦ rfl
  · obtain ⟨s₁, hs₁, hne⟩ := h.reqdqmsg_returns
      (x := Function.update s.exchange s.rqactv (.exch e)) (y := s.message) hn
    have hn' : ¬ s.word0 (.exch e) = .null := hn
    refine takes .exitRegion (f := fun n s ↦ Yalrt.reqwait n s e d) hl
      ((Yields.const s₁).congr fun n ↦ ?_) fun _ ↦ rfl
    have hr : s₁.rqactv = s.rqactv := by rw [reqdqmsg_frame hs₁]
    simp only [Yalrt.reqwait, messageHead, if_neg hn']
    rw [hs₁, Exec.ok_bind, hr, if_neg hne]

/-- `reqresm` returns. -/
theorem reqresm_returns (h : Follows s p) (ho : s.Lawful (.reqresm t)) (hl : s.At .entered) :
    ∃ s', Step s (.reqresm t) s' := by
  have hb : t ∈ p.suspendList → s.status t &&& maskint = 0 := by
    intro ht
    by_contra hb
    have hm := (rests_bits _ (h.kept.lists.rests t ht)).2.2.2.2.2 hb
    exact ho.slips ⟨p.suspendList, h.kept.lists.suspend.lists, ht, .inl (by rw [hm]; decide)⟩
  have hlast : ∀ l, p.suspendList = l ++ [t] → l = [] := by
    intro l hx
    by_contra hne
    exact ho.slips
      ⟨p.suspendList, h.kept.lists.suspend.lists, by simp [hx], .inr ⟨l, hne, hx⟩⟩
  obtain ⟨T, hT, -⟩ := h.kept.lists.reqresm h.ready_ne_nil hb hlast
  exact takes .exitRegion (f := fun n s ↦ Yalrt.reqresm n s t) hl hT fun _ ↦ rfl

/-- A turn of the loop of `rqdelaytask` returns. -/
theorem expire_returns (h : Follows s p) (hl : s.At .entered ∨ s.At .expiry)
    (hk : s.delay (s.next .delayHead) = 0) : ∃ s', Step s .expire s' := by
  obtain ⟨t, D', hD, hn⟩ := h.kept.lists.first_due hk
  obtain ⟨e, hq⟩ := h.kept.lists.timed_waits (t := t) (by simp [hD])
  obtain ⟨T, hT, -⟩ := h.kept.lists.expire h.ready_ne_nil hk hn hq
  have hline : s.line = .entered ∨ s.line = .expiry := hl.imp And.left And.left
  have hout : s.Outside := hl.elim And.right And.right
  refine takes (l := s.line) .expiry (f := fun n s ↦ Yalrt.expire n s) ⟨rfl, hout⟩ hT
    fun n ↦ ?_
  simp only [Yalrt.step, require, if_pos hline, Exec.ok_bind]

/-- A step that is next can be taken. -/
theorem returns (h : Follows s p) (ho : s.Lawful o) (he : s.Enabled o) : ∃ s', Step s o s' := by
  cases o with
  | enterRegion =>
    exact takes .entered (f := fun _ s ↦
      .ok { s with criticalRegionFlag := s.criticalRegionFlag + 1 }) he (Yields.const _) fun _ ↦ rfl
  | reqsend e m => exact h.reqsend_returns ho he.1 he.2
  | reqacpt e => exact h.reqacpt_returns he
  | reqwait e d => exact h.reqwait_returns he
  | reqsusp t =>
    obtain ⟨T, hT, -⟩ := h.kept.lists.reqsusp t
    exact takes .exitRegion (f := fun n s ↦ Yalrt.reqsusp n s t) he hT fun _ ↦ rfl
  | reqresm t => exact h.reqresm_returns ho he
  | expire => exact h.expire_returns he.1 he.2
  | expired =>
    have hline : s.line = .entered ∨ s.line = .expiry := he.1.imp And.left And.left
    have hout : s.Outside := he.1.elim And.right And.right
    refine takes (l := s.line) .exitRegion (f := fun _ s ↦ Yalrt.expired s) ⟨rfl, hout⟩
      ((Yields.const s).congr fun _ ↦ ?_) fun n ↦ ?_
    · simp only [Yalrt.expired, require, if_pos he.2, Exec.ok_bind]
    · simp only [Yalrt.step, require, if_pos hline, Exec.ok_bind]
  | exitRegion =>
    have hf := h.kept.region.flag
    rw [he.1, he.2.inside_eq] at hf
    have h1 : ¬ s.criticalRegionFlag ≠ 1 := by
      rw [hf]
      decide
    refine ⟨{ s with line := .drain }, 0, ?_⟩
    have hat : s.line = .exitRegion ∧ s.Outside := he
    simp only [Yalrt.step, mainStep, require, if_pos hat, Exec.ok_bind, Yalrt.exitRegion, if_neg h1]
    rfl
  | pop =>
    obtain ⟨n, hn⟩ := Nat.exists_eq_succ_of_ne_zero he.2
    refine takes .fetch (f := fun _ s ↦ Yalrt.pop s)
      (r := { s with queueIndex := n, slot := n }) he.1
      ((Yields.const _).congr fun _ ↦ ?_) fun _ ↦ rfl
    simp only [Yalrt.pop, hn]
  | fetch => exact takes .deliver (f := fun _ s ↦ Yalrt.fetch s) he (Yields.const _) fun _ ↦ rfl
  | deliver =>
    obtain ⟨s', hy, -⟩ := h.kept.deliver_yields h.ready_ne_nil he.1 he.2 rfl
      fun _ _ ↦ (h.posted.queues _).tail_ne_null
    exact ⟨s', step_of_yields hy⟩
  | drained =>
    refine takes .switch (f := fun _ s ↦ Yalrt.drained s) he.1
      ((Yields.const s).congr fun _ ↦ ?_) fun _ ↦ rfl
    simp only [Yalrt.drained, require, if_pos he.2, Exec.ok_bind]
  | close =>
    obtain ⟨t, R, hR⟩ := List.exists_cons_of_ne_nil h.ready_ne_nil
    have hr : s.ready = .task t := by
      have hh := h.kept.lists.ready.head_eq
      rw [hR] at hh
      exact hh
    have hsw : ∃ s₁, s.switch = .ok s₁ := by
      rw [Yalrt.switch]
      split
      · rw [hr]
        exact ⟨_, rfl⟩
      · exact ⟨_, rfl⟩
    obtain ⟨s₁, hs₁⟩ := hsw
    refine takes .user (f := fun _ s ↦ Yalrt.close s)
      (r := { (if s₁.status s₁.rqactv &&& maskint = 0 then s₁
        else s₁.setStatus s₁.rqactv (s₁.status s₁.rqactv &&& ~~~maskint)) with
        criticalRegionFlag := 0, line := .user }) he
      ((Yields.const _).congr fun _ ↦ ?_) fun _ ↦ rfl
    simp only [Yalrt.close, hs₁, Exec.ok_bind]
  | reqisnd e => exact ⟨_, 0, rfl⟩
  | reqssnd e => exact ⟨_, 0, rfl⟩
  | timer =>
    obtain ⟨dl, hcd, -⟩ := h.kept.lists.countDown_ticked
    exact ⟨_, 0, by simp only [Yalrt.step, timerHandler, hcd, Exec.ok_bind]; rfl⟩
  | irq i =>
    obtain ⟨l, hi, hf⟩ := he
    cases l with
    | enterRegion => exact ⟨_, 0, by simp only [Yalrt.step, irqStep, hi]; rfl⟩
    | append e => exact ⟨_, 0, by simp only [Yalrt.step, irqStep, hi]; rfl⟩
    | exitRegion =>
      have hf : ¬ 100 < s.criticalRegionFlag := Nat.not_lt.mpr (hf rfl)
      by_cases h1 : s.criticalRegionFlag ≠ 1
      · exact ⟨_, 0, by
          simp only [Yalrt.step, irqStep, hi, Yalrt.exitRegion, if_pos h1, if_neg hf]; rfl⟩
      · exact ⟨_, 0, by simp only [Yalrt.step, irqStep, hi, Yalrt.exitRegion, if_neg h1]; rfl⟩

end Follows

/-- In every lawful run, a lawful step can be taken exactly when it is next; where it comes to
`reqfreeze` it freezes, and in all other cases it waits: the nucleus neither faults nor loops for
ever. -/
theorem progress_of_run (h0 : Started s₀ xs) (hx : idleTask ∈ xs) (hm : ∀ e, s₀.Mails e [])
    (hq : s₀.queueIndex = 0) (hr : Trace Step s₀ tr s)
    (ho : Throughout (fun _ s o ↦ s.Lawful o) tr) (hl : s.Lawful o) :
    ((∃ s', Step s o s') ↔ s.Enabled o) ∧
    ∀ n, (s.Freezes o → step n s o = .error .frozen) ∧
      (¬ s.Enabled o → ¬ s.Freezes o → step n s o = .error .blocked) :=
  ⟨⟨fun ⟨_, hs⟩ ↦ hs.enabled,
    fun he ↦ (follows_of_run h0 hx hm hq hr ho).last.returns hl he⟩,
    fun n ↦ ⟨(step_frozen · n), (step_blocked · · n)⟩⟩

/-- The higher task can send the message on. -/
theorem progress_of_run_handing : ∃ tr s, Trace Step oneMessage tr s ∧
    tr.map Prod.snd = handing ∧ ∃ s', Step s (.reqsend 8 (.user 0)) s' := by
  obtain ⟨tr, s, hr, hos, ho, hl, -, ha, h8, -⟩ := exists_handing
  exact ⟨tr, s, hr, hos, (progress_of_run oneMessage_started (by decide)
    (fun e ↦ Fifo.nil rfl rfl (by simp)) rfl hr ho (lawful_of_permits h8)).1.mpr ⟨hl, ha⟩⟩

end Yalrt

end YRmx
