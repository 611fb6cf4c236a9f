import YRmx.Yalrt.Effects

/-!
# The critical region and the interrupts

Library `YRmx`. Entering and leaving the region, the lines of `exit_region`, and the lines of the
handlers: the lists agree with what the steps were for, and `critical_region_flag` counts.
-/

namespace YRmx

open Transition Intrusive Priority

variable {s s' : Yalrt} {R : List TaskId} {Q : ExchId → List TaskId}
  {D : List (TaskId × Nat)} {e : ExchId}

namespace Yalrt

private theorem runs_unmasked : ∀ st, Runs st → st &&& maskint = 0 → st = 0 := by
  decide

private theorem countP_set {l : List IrqLine} {i : Nat} {x : IrqLine} {p : IrqLine → Bool}
    (h : l[i]? = some x) (y : IrqLine) :
    (l.set i y).countP p + (if p x then 1 else 0) = l.countP p + if p y then 1 else 0 := by
  obtain ⟨hi, rfl⟩ := List.getElem?_eq_some_iff.mp h
  have hl : l = l.take i ++ l[i] :: l.drop (i + 1) := by
    rw [List.getElem_cons_drop, List.take_append_drop]
  rw [List.set_eq_take_append_cons_drop, if_pos hi]
  conv_rhs => rw [hl]
  simp only [List.countP_append, List.countP_cons]
  omega

private theorem countP_eraseIdx {l : List IrqLine} {i : Nat} {x : IrqLine} {p : IrqLine → Bool}
    (h : l[i]? = some x) : (l.eraseIdx i).countP p + (if p x then 1 else 0) = l.countP p := by
  obtain ⟨hi, rfl⟩ := List.getElem?_eq_some_iff.mp h
  have hl : l = l.take i ++ l[i] :: l.drop (i + 1) := by
    rw [List.getElem_cons_drop, List.take_append_drop]
  rw [List.eraseIdx_eq_take_drop_succ]
  conv_rhs => rw [hl]
  simp only [List.countP_append, List.countP_cons]
  omega

/-- `enter_region` of a system call. -/
theorem Kept.enterRegion {c : Classes} (h : Kept s c R Q D) (hs : Step s .enterRegion s') :
    s' = { s with criticalRegionFlag := s.criticalRegionFlag + 1, line := .entered } ∧
      Kept s' c R Q D := by
  obtain ⟨n, hs⟩ := hs
  obtain ⟨hl, -, s₁, hs₁, rfl⟩ := mainStep_ok
    (f := fun s ↦ .ok { s with criticalRegionFlag := s.criticalRegionFlag + 1 }) hs
  obtain rfl := Except.ok.inj hs₁
  refine ⟨rfl, h.lists, h.serves, ?_, fun _ ↦ h.region.active (.inl hl)⟩
  have hf := h.region.flag
  rw [hl, if_pos rfl] at hf
  simp only [reduceCtorEq, if_false, inside] at hf ⊢
  omega

/-- `exit_region(0)` leaves the outermost region. -/
theorem Kept.exitRegion {c : Classes} (h : Kept s c R Q D) (hs : Step s .exitRegion s') :
    s' = { s with line := .drain } ∧ Kept s' c R Q D := by
  obtain ⟨n, hs⟩ := hs
  obtain ⟨s₁, hs₁, hs⟩ := Exec.bind_eq_ok.mp hs
  obtain ⟨hl, ho, s₂, hs₂, rfl⟩ := mainStep_ok hs₁
  obtain rfl := Except.ok.inj hs₂
  have hf := h.region.flag
  rw [hl, ho.inside_eq] at hf
  have h1 : ¬ s.criticalRegionFlag ≠ 1 := by
    rw [hf]
    decide
  simp only [Yalrt.exitRegion, if_neg h1] at hs
  obtain rfl := Except.ok.inj hs
  exact ⟨rfl, h.called h.lists h.serves (by simp [hl]) rfl (by simp) (by simp) rfl rfl⟩

/-- The queue of the interrupts is counted down. -/
theorem Kept.pop {c : Classes} (h : Kept s c R Q D) (hs : Step s .pop s') :
    (s.line = .drain ∧ ∃ n, s.queueIndex = n + 1 ∧
      s' = { s with queueIndex := n, slot := n, line := .fetch }) ∧
      Kept s' c R Q D := by
  obtain ⟨m, hs⟩ := hs
  obtain ⟨hl, -, s₁, hs₁, rfl⟩ := mainStep_ok hs
  cases hn : s.queueIndex with
  | zero =>
    simp only [Yalrt.pop, hn] at hs₁
    cases hs₁
  | succ n =>
    simp only [Yalrt.pop, hn] at hs₁
    obtain rfl := Except.ok.inj hs₁
    exact ⟨⟨hl, n, rfl, rfl⟩,
      h.called h.lists h.serves (by simp [hl]) rfl (by simp) (by simp) rfl rfl⟩

/-- The slot is read. -/
theorem Kept.fetch {c : Classes} (h : Kept s c R Q D) (hs : Step s .fetch s') :
    (s.line = .fetch ∧ s' = { s with qIntMsg := s.isndQueue s.slot, line := .deliver }) ∧
      Kept s' c R Q D := by
  obtain ⟨n, hs⟩ := hs
  obtain ⟨hl, -, s₁, hs₁, rfl⟩ := mainStep_ok hs
  obtain rfl := Except.ok.inj hs₁
  exact ⟨⟨hl, rfl⟩, h.called h.lists h.serves (by simp [hl]) rfl (by simp) (by simp) rfl rfl⟩

/-- The message of an interrupt is queued, missed, or handed to the first waiting task. -/
theorem Kept.deliver_yields {c : Classes} (h : Kept s c R Q D) (hR : R ≠ [])
    (hl : s.line = .deliver) (ho : s.Outside) (he : s.qIntMsg = e)
    (hm : s.taskHead e = .null → s.msgLink (.interrupt e) = .msg (.interrupt e) →
      s.messageTail e ≠ .null) :
    ∃ s', Yields (fun n ↦ step n s .deliver) s' ∧
    (s.taskHead e = .null ∧ s.msgLink (.interrupt e) = .msg (.interrupt e) ∧
        s' = { s with
          type := Function.update s.type (.interrupt e) intType
          messageTail := Function.update s.messageTail e (.msg (.interrupt e))
          word0 := Function.update (Function.update s.word0 (s.messageTail e)
            (.msg (.interrupt e))) (.msg (.interrupt e)) .null
          qint := Function.update s.qint e 1
          line := .drain } ∨
      s.taskHead e = .null ∧ s.msgLink (.interrupt e) ≠ .msg (.interrupt e) ∧
        s' = { s with
          type := Function.update s.type (.interrupt e) missedIntType, line := .drain } ∨
      ∃ t r T, s.taskHead e = .task t ∧ Q e = t :: r ∧ s' = { s with
          toTaskLists := T
          type := Function.update s.type (.interrupt e) intType
          word0 := Function.update s.word0 (.msg (.interrupt e)) (.msg (.interrupt e))
          message := Function.update s.message t (.msg (.interrupt e))
          line := .drain } ∧
        Classified T (Classified.wokenReady s.toSched t R)
          (Classified.wokenSuspend s.toSched t c.suspended) (Function.update Q e r)
          (D.filter (·.1 ≠ t)) ∧ T.priority = s.priority) := by
  rcases h.head e with ⟨hh, -⟩ | ⟨t, r, hh, hq⟩
  · have hh' : s.thread (.exch e) = .null := hh
    by_cases hk : s.msgLink (.interrupt e) = .msg (.interrupt e)
    · have hk' : s.word0 (.msg (.interrupt e)) = .msg (.interrupt e) := hk
      have hy : Yields (fun n ↦ s.deliver n) { s with
          type := Function.update s.type (.interrupt e) intType
          messageTail := Function.update s.messageTail e (.msg (.interrupt e))
          word0 := Function.update (Function.update s.word0 (s.messageTail e)
            (.msg (.interrupt e))) (.msg (.interrupt e)) .null
          qint := Function.update s.qint e 1 } := by
        apply (Yields.const _).congr
        intro n
        simp only [Yalrt.deliver, he, setType, taskHead, hh', msgLink, hk', if_true, queueInt,
          deref, if_neg (hm hh hk), Exec.ok_bind]
      exact ⟨_, mainStep_yields (l := .drain) (f := fun n s ↦ s.deliver n) hl ho hy,
        .inl ⟨hh, hk, rfl⟩⟩
    · have hk' : ¬ s.word0 (.msg (.interrupt e)) = .msg (.interrupt e) := hk
      have hy : Yields (fun n ↦ s.deliver n) { s with
          type := Function.update s.type (.interrupt e) missedIntType } := by
        apply (Yields.const _).congr
        intro n
        simp only [Yalrt.deliver, he, setType, taskHead, hh', msgLink, if_true, if_neg hk',
          Function.update_idem]
      exact ⟨_, mainStep_yields (l := .drain) (f := fun n s ↦ s.deliver n) hl ho hy,
        .inr (.inl ⟨hh, hk, rfl⟩)⟩
  · have hh' : s.thread (.exch e) = .task t := hh
    obtain ⟨T, hT, hc, hp⟩ := Classified.handInt (s := s.setType (.interrupt e) intType)
      h.lists hR hq
    have hy : Yields (fun n ↦ s.deliver n) _ := hT.congr fun n ↦ by
      simp only [Yalrt.deliver, he, setType, taskHead, hh', reduceCtorEq, if_false,
        ThreadPtr.asTask, Exec.ok_bind]
    exact ⟨_, mainStep_yields (l := .drain) (f := fun n s ↦ s.deliver n) hl ho hy,
      .inr (.inr ⟨t, r, T, hh, hq, rfl, hc, hp⟩)⟩

/-- The message of an interrupt is delivered. -/
theorem Kept.deliver {c : Classes} (h : Kept s c R Q D) (hR : R ≠ []) (hs : Step s .deliver s') :
    ∃ R' Q' D', Kept s' (c.move s .deliver) R' Q' D' ∧ ∀ x, Q x = [] → Q' x = [] := by
  have hs0 := hs
  obtain ⟨n, hs⟩ := hs
  obtain ⟨hl, ho, s₁, hs₁, -⟩ := mainStep_ok (f := (Yalrt.deliver n ·)) hs
  obtain ⟨e, he⟩ : ∃ e, s.qIntMsg = e := ⟨_, rfl⟩
  have hm : s.taskHead e = .null → s.msgLink (.interrupt e) = .msg (.interrupt e) →
      s.messageTail e ≠ .null := by
    intro hh hk hm
    have hh' : s.thread (.exch e) = .null := hh
    have hk' : s.word0 (.msg (.interrupt e)) = .msg (.interrupt e) := hk
    simp only [Yalrt.deliver, he, setType, taskHead, hh', msgLink, hk', if_true, queueInt, deref,
      hm] at hs₁
    cases hs₁
  obtain ⟨s'', hy, hcases⟩ := h.deliver_yields hR hl ho he hm
  obtain rfl := hs0.eq_of_yields hy
  rcases hcases with ⟨hh, -, rfl⟩ | ⟨hh, -, rfl⟩ | ⟨t, r, T, hh, hq, rfl, hc, hp⟩
  · refine ⟨R, Q, D, h.called (T := s.toTaskLists) (d := c.move s .deliver) ?_ ?_ (by simp [hl]) rfl
      (by simp) (by simp) rfl rfl, fun _ hx ↦ hx⟩
    · simpa only [Classes.move, he, hh, Classes.comesAt] using h.lists
    · simpa only [Classes.move, he, hh, Classes.comesAt] using h.serves
  · refine ⟨R, Q, D, h.called (T := s.toTaskLists) (d := c.move s .deliver) ?_ ?_ (by simp [hl]) rfl
      (by simp) (by simp) rfl rfl, fun _ hx ↦ hx⟩
    · simpa only [Classes.move, he, hh, Classes.comesAt] using h.lists
    · simpa only [Classes.move, he, hh, Classes.comesAt] using h.serves
  · obtain ⟨R', hc, hv⟩ := comes_lists hc h.serves hp
    refine ⟨R', Function.update Q e r, D.filter (·.1 ≠ t), h.called (T := T)
      (d := c.move s .deliver) ?_ ?_ (by simp [hl]) rfl (by simp) (by simp) rfl rfl,
      fun _ ↦ update_nil hq⟩
    · simpa only [Classes.move, he, hh, Classes.comesAt] using hc
    · simpa only [Classes.move, he, hh, Classes.comesAt] using hv

/-- The queue of the interrupts is empty. -/
theorem Kept.drained {c : Classes} (h : Kept s c R Q D) (hs : Step s .drained s') :
    (s.queueIndex = 0 ∧ s' = { s with line := .switch }) ∧ Kept s' c R Q D := by
  obtain ⟨n, hs⟩ := hs
  obtain ⟨hl, -, s₁, hs₁, rfl⟩ := mainStep_ok hs
  obtain ⟨hq, hs₁⟩ := require_bind_eq_ok.mp hs₁
  obtain rfl := Except.ok.inj hs₁
  exact ⟨⟨hq, rfl⟩, h.called h.lists h.serves (by simp [hl]) rfl (by simp) (by simp) rfl rfl⟩

/-- The end of `exit_region`: the first task of the ready list runs. -/
theorem Kept.close {c : Classes} (h : Kept s c R Q D) (hs : Step s .close s') :
    (s.line = .switch ∧ ∃ T t, s' = { s with
      toTaskLists := T, rqactv := t, criticalRegionFlag := 0, line := .user }) ∧
      Kept s' c R Q D := by
  obtain ⟨n, hs⟩ := hs
  obtain ⟨hl, ho, s₁, hs₁, rfl⟩ := mainStep_ok (f := (Yalrt.close ·)) hs
  obtain ⟨s₂, hs₂, hs₁⟩ := Exec.bind_eq_ok.mp hs₁
  obtain rfl := Except.ok.inj hs₁
  obtain ⟨t, hr, rfl⟩ : ∃ t, s.ready = .task t ∧ s₂ = { s with rqactv := t } := by
    rw [switch] at hs₂
    split at hs₂
    · obtain ⟨t, ht, hs₂⟩ := Exec.bind_eq_ok.mp hs₂
      refine ⟨t, ?_, (Except.ok.inj hs₂).symm⟩
      cases hp : s.ready with
      | task u =>
        rw [hp] at ht
        rw [Except.ok.inj ht]
      | null | exch _ | suspendListRoot =>
        rw [hp] at ht
        cases ht
    · rename_i hr
      exact ⟨s.rqactv, not_not.mp hr, (Except.ok.inj hs₂).symm⟩
  obtain ⟨R', rfl⟩ : ∃ R', R = t :: R' := by
    have hh := h.lists.ready.head_eq
    rw [hr] at hh
    cases R with
    | nil => cases hh
    | cons u R' => exact ⟨R', by rw [ThreadPtr.task.inj hh]⟩
  have hin := ho.inside_eq
  by_cases hb : s.status t &&& maskint = 0
  · refine ⟨⟨hl, s.toTaskLists, t, ?_⟩, ?_⟩
    · simp only [hb, if_true]
    · simp only [hb, if_true]
      refine ⟨h.lists, h.serves, ?_, fun _ ↦ ⟨rfl, ?_⟩⟩
      · exact hin.symm.trans (Nat.zero_add s.inside).symm
      · have hruns := h.lists.runs t (by simp)
        exact runs_unmasked _ hruns hb
  · have hc := h.lists.setMaskint (t := t) (by simp) (.inr rfl)
    refine ⟨⟨hl, (s.setStatus t (s.status t &&& ~~~maskint)).toTaskLists, t, ?_⟩, ?_⟩
    · simp only [if_neg hb]
      rfl
    · simp only [if_neg hb]
      refine ⟨hc, h.serves, ?_, fun _ ↦ ⟨rfl, ?_⟩⟩
      · exact hin.symm.trans (Nat.zero_add s.inside).symm
      · exact (Function.update_self ..).trans (runs_bits _ (h.lists.runs t (by simp))).2.2.2.2.2.2.2

private theorem Region.handler {R' : List TaskId} (h : Region s R)
    (hf : s'.criticalRegionFlag = s.criticalRegionFlag) (hl : s'.line = s.line)
    (hr : s'.rqactv = s.rqactv) (hst : s'.status = s.status)
    (hi : s'.irq = s.irq ∨ s'.irq = s.irq ++ [.enterRegion]) (hR : R' = R) : Region s' R' where
  flag := by
    have hin : s'.inside = s.inside := by
      rcases hi with hi | hi <;> simp [inside, hi]
    rw [hf, hl, hin, h.flag]
  active := by
    rw [hl, hr, hst, hR]
    exact h.active

/-- An interrupt, up to `enter_region`. -/
theorem Kept.reqisnd {c : Classes} (h : Kept s c R Q D) (hs : Step s (.reqisnd e) s') :
    s' = { s.signal e with irq := s.irq ++ [.enterRegion] } ∧ Kept s' c R Q D := by
  obtain ⟨n, hs⟩ := hs
  obtain rfl := Except.ok.inj hs
  refine ⟨rfl, ?_⟩
  rw [signal]
  split <;> exact ⟨h.lists, h.serves, h.region.handler rfl rfl rfl rfl (.inr rfl) rfl⟩

/-- A service request, up to its critical section. -/
theorem Kept.reqssnd {c : Classes} (h : Kept s c R Q D) (hs : Step s (.reqssnd e) s') :
    s' = { s with
      criticalRegionFlag := s.criticalRegionFlag + 1, irq := s.irq ++ [.append e] } ∧
      Kept s' c R Q D := by
  obtain ⟨n, hs⟩ := hs
  obtain rfl := Except.ok.inj hs
  refine ⟨rfl, h.lists, h.serves, ?_, h.region.active⟩
  have hf := h.region.flag
  simp only [inside, List.countP_append] at hf ⊢
  rw [hf]
  exact Nat.add_assoc _ _ 1

/-- A timer interrupt, up to `enter_region`. -/
theorem Kept.timer {c : Classes} (h : Kept s c R Q D) (hs : Step s .timer s') :
    ∃ dl due is D', s.countDown = .ok ({ s with delay := dl }, due) ∧
      s' = { (if due then Yalrt.appendInt { s with delay := dl } rqDelayExchange
        else { s with delay := dl }) with irq := is } ∧ Kept s' c R Q D' := by
  obtain ⟨n, hs⟩ := hs
  obtain ⟨dl, due, D', hcd, hc⟩ := h.lists.countDown
  simp only [step, timerHandler, hcd, Exec.ok_bind] at hs
  have hs := Except.ok.inj hs
  cases due with
  | true =>
    simp only [if_true, Bool.or_true] at hs
    subst hs
    exact ⟨dl, true, _, D', hcd, rfl, hc, h.serves,
      h.region.handler rfl rfl rfl rfl (.inr rfl) rfl⟩
  | false =>
    simp only [Bool.false_eq_true, if_false, Bool.or_false] at hs
    split at hs
    · subst hs
      exact ⟨dl, false, _, D', hcd, rfl, hc, h.serves,
        h.region.handler rfl rfl rfl rfl (.inr rfl) rfl⟩
    · subst hs
      exact ⟨dl, false, _, D', hcd, rfl, hc, h.serves,
        h.region.handler rfl rfl rfl rfl (.inl rfl) rfl⟩

/-- The next line of a handler. -/
theorem Kept.irq {c : Classes} {i : Nat} (h : Kept s c R Q D) (hs : Step s (.irq i) s') :
    ((∃ e is, s.irq[i]? = some (.append e) ∧ s' = { s.signal e with irq := is }) ∨
      ∃ T cf l is, (∀ e, s.irq[i]? ≠ some (.append e)) ∧
        (l = s.line ∨ s.line = .user ∧ l = .drain) ∧
        s' = { s with toTaskLists := T, criticalRegionFlag := cf, line := l, irq := is }) ∧
      Kept s' c R Q D := by
  obtain ⟨n, hs⟩ := hs
  have hf := h.region.flag
  simp only [step, irqStep] at hs
  split at hs
  · cases hs
  · -- `enter_region`
    rename_i hi
    obtain rfl := Except.ok.inj hs
    have hcount : (s.irq.set i .exitRegion).countP (· ≠ .enterRegion) = s.inside + 1 :=
      countP_set (p := fun l ↦ decide (l ≠ .enterRegion)) hi .exitRegion
    refine ⟨.inr ⟨s.toTaskLists, _, _, _, by simp [hi], .inl rfl, rfl⟩, h.lists, h.serves, ?_,
      h.region.active⟩
    have hc' : s.criticalRegionFlag + 1 = (if s.line = .user then 0 else 1) +
        (s.irq.set i .exitRegion).countP (· ≠ .enterRegion) := by omega
    exact hc'
  · -- the critical section of `reqssnd`
    rename_i e hi
    obtain rfl := Except.ok.inj hs
    refine ⟨.inl ⟨e, _, hi, rfl⟩, ?_⟩
    have hcount : (s.irq.set i .exitRegion).countP (· ≠ .enterRegion) = s.inside :=
      Nat.add_right_cancel (countP_set (p := fun l ↦ decide (l ≠ .enterRegion)) hi .exitRegion)
    rw [signal]
    split <;>
    · refine ⟨h.lists, h.serves, ?_, h.region.active⟩
      exact hf.trans (congrArg _ hcount.symm)
  · -- `exit_region(1)`
    rename_i hi
    have hcount : (s.irq.eraseIdx i).countP (· ≠ .enterRegion) + 1 = s.inside :=
      countP_eraseIdx (p := fun l ↦ decide (l ≠ .enterRegion)) hi
    rw [Yalrt.exitRegion] at hs
    split at hs
    · split at hs
      · cases hs
      · obtain rfl := Except.ok.inj hs
        refine ⟨.inr ⟨s.toTaskLists, _, _, _, by simp [hi], .inl rfl, rfl⟩, h.lists, h.serves, ?_,
          h.region.active⟩
        have hc' : s.criticalRegionFlag - 1 = (if s.line = .user then 0 else 1) +
            (s.irq.eraseIdx i).countP (· ≠ .enterRegion) := by omega
        exact hc'
    · rename_i h1
      obtain rfl := Except.ok.inj hs
      have h1 : s.criticalRegionFlag = 1 := not_not.mp h1
      have hl : s.line = .user := by
        by_contra hl
        rw [if_neg hl] at hf
        omega
      obtain ⟨hh, -⟩ := h.region.active (.inl hl)
      have hc := h.lists.setMaskint (List.mem_of_mem_head? hh) (.inl rfl)
      rw [if_pos hl] at hf
      refine ⟨.inr ⟨(s.setStatus s.rqactv (s.status s.rqactv ||| maskint)).toTaskLists, _, _, _,
        by simp [hi], .inr ⟨hl, rfl⟩, rfl⟩, hc, h.serves, ?_, fun ha ↦ by simp at ha⟩
      have hc' : s.criticalRegionFlag = 1 + (s.irq.eraseIdx i).countP (· ≠ .enterRegion) := by
        omega
      exact hc'

end Yalrt

end YRmx
