import YRmx.Yalrt.Runs

/-!
# The message queues of the exchanges

Library `YRmx`. The first word of an exchange and of a message links the message queues. A
message that is linked to itself or to a task stands in none of them, and each operation leaves
the link of such a message alone unless it is about this message. A run keeps the queues.
-/

namespace YRmx

open Transition Intrusive

variable {s s' : Yalrt} {Q Q' : ExchId → List TaskId} {M : ExchId → List MsgId}
  {w : Addr → Addr} {tail : ExchId → Addr} {e : ExchId} {m u : MsgId} {ms : List MsgId} {t : TaskId}

/-- The message queues. An interrupt message is only sent to its own exchange, and no message
stands at an exchange with a waiting task. -/
structure Posted (w : Addr → Addr) (tail : ExchId → Addr) (Q : ExchId → List TaskId)
    (M : ExchId → List MsgId) : Prop where
  queues : ∀ e, Fifo w .null (.exch e) (tail e) ((M e).map .msg)
  apart : ∀ {m e e'}, m ∈ M e → m ∈ M e' → e = e'
  home : ∀ {e e'}, .interrupt e ∈ M e' → e' = e
  exclusive : ∀ {e}, Q e ≠ [] → M e = []

namespace Posted

private theorem queue_congr {w' : Addr → Addr} {p : Addr}
    (h : Fifo w .null (.exch e) p (ms.map .msg)) (he : w' (.exch e) = w (.exch e))
    (hm : ∀ m ∈ ms, w' (.msg m) = w (.msg m)) : Fifo w' .null (.exch e) p (ms.map .msg) := by
  apply h.congr he
  intro a ha
  obtain ⟨m, hx, rfl⟩ := List.mem_map.mp ha
  exact hm m hx

/-- Fewer tasks wait. -/
theorem fewer (h : Posted w tail Q M) (hQ : ∀ e, Q e = [] → Q' e = []) :
    Posted w tail Q' M where
  queues := h.queues
  apart := h.apart
  home := h.home
  exclusive hq := h.exclusive (mt (hQ _) hq)

/-- A task waits at an exchange without a message. -/
theorem wait (h : Posted w tail Q M) (he : w (.exch e) = .null) (ts : List TaskId) :
    Posted w tail (Function.update Q e ts) M where
  queues := h.queues
  apart := h.apart
  home := h.home
  exclusive {e'} hq := by
    by_cases hx : e' = e
    · subst hx
      simpa using (h.queues e').head_null_iff.mp he
    · rw [Function.update_of_ne hx] at hq
      exact h.exclusive hq

/-- A message that is linked to itself or to a task stands in no queue. -/
theorem not_mem (h : Posted w tail Q M) (hm : w (.msg m) = .msg m ∨ ∃ t, w (.msg m) = .task t)
    (e : ExchId) : m ∉ M e := by
  intro hx
  obtain ⟨l, r, hl⟩ := List.append_of_mem hx
  have hq := h.queues e
  rw [hl, List.map_append, List.map_cons] at hq
  have hd := (List.nodup_append.mp hq.nodup).2.1
  have hlink := hq.link_eq
  cases r with
  | nil =>
    rw [hlink] at hm
    simp at hm
  | cons a r =>
    rw [hlink] at hm
    rcases hm with hm | ⟨t, hm⟩
    · obtain rfl : a = m := Addr.msg.inj hm
      simp at hd
    · cases hm

/-- The interrupt message of an exchange with a waiting task stands in no queue. -/
theorem interrupt_not_mem (h : Posted w tail Q M) (hq : Q e ≠ []) (x : ExchId) :
    .interrupt e ∉ M x := by
  intro hm
  obtain rfl := h.home hm
  rw [h.exclusive hq] at hm
  cases hm

/-- A message that stands in no queue gets another link. -/
theorem relink (h : Posted w tail Q M) (hm : ∀ e, m ∉ M e) (p : Addr) :
    Posted (Function.update w (.msg m) p) tail Q M where
  queues e := by
    apply queue_congr (h.queues e) (Function.update_of_ne (by simp) _ _)
    intro u hu
    refine Function.update_of_ne ?_ _ _
    rintro hx
    exact hm e (Addr.msg.inj hx ▸ hu)
  apart := h.apart
  home := h.home
  exclusive := h.exclusive

/-- A message that stands in no queue is appended to one. -/
theorem append (h : Posted w tail Q M) (hm : ∀ e, m ∉ M e) (hQ : Q e = [])
    (hhome : ∀ x, m = .interrupt x → e = x) :
    Posted (Function.update (Function.update w (tail e) (.msg m)) (.msg m) .null)
      (Function.update tail e (.msg m)) Q (Function.update M e (M e ++ [m])) := by
  have htail : tail e = .exch e ∨ ∃ u ∈ M e, tail e = .msg u := by
    simpa [eq_comm] using (h.queues e).tail_mem
  have hne : tail e ≠ .msg m := by
    rcases htail with hx | ⟨u, hu, hx⟩
    · simp [hx]
    · rw [hx]
      exact fun he ↦ hm e (Addr.msg.inj he ▸ hu)
  have hmem : ∀ {u e'}, u ∈ Function.update M e (M e ++ [m]) e' →
      u ∈ M e' ∨ u = m ∧ e' = e := by
    intro u e' hu
    by_cases he : e' = e
    · subst he
      rw [Function.update_self, List.mem_append, List.mem_singleton] at hu
      exact hu.imp_right fun hu ↦ ⟨hu, rfl⟩
    · rw [Function.update_of_ne he] at hu
      exact .inl hu
  refine ⟨fun e' ↦ ?_, fun {u e₁ e₂} h₁ h₂ ↦ ?_, fun {x e'} hx ↦ ?_, fun {e'} hq ↦ ?_⟩
  · by_cases he : e' = e
    · subst he
      have ha := (h.queues e').append (n := .msg m) (by simpa using hm e') (by simp)
      rw [Function.update_comm hne.symm] at ha
      simpa using ha
    · rw [Function.update_of_ne he, Function.update_of_ne he]
      refine queue_congr (h.queues e') ?_ fun u hu ↦ ?_
      · rw [Function.update_of_ne (by simp), Function.update_of_ne]
        rcases htail with hx | ⟨u, -, hx⟩ <;> simp [hx, he]
      · have hum : Addr.msg u ≠ .msg m := fun hx ↦ hm e' (Addr.msg.inj hx ▸ hu)
        rw [Function.update_of_ne hum, Function.update_of_ne]
        rcases htail with hx | ⟨u', hu', hx⟩
        · simp [hx]
        · rw [hx]
          rintro hxu
          exact he (h.apart hu (Addr.msg.inj hxu ▸ hu'))
  · rcases hmem h₁ with h₁ | ⟨rfl, rfl⟩ <;> rcases hmem h₂ with h₂ | ⟨h₂, h₂'⟩
    · exact h.apart h₁ h₂
    · exact absurd h₁ (h₂ ▸ hm e₁)
    · exact absurd h₂ (hm e₂)
    · exact h₂'.symm
  · rcases hmem hx with hx | ⟨hxm, he⟩
    · exact h.home hx
    · exact he.trans (hhome x hxm.symm)
  · by_cases he : e' = e
    · exact absurd (he ▸ hQ) hq
    · rw [Function.update_of_ne he]
      exact h.exclusive hq

/-- Appending leaves the link of a message that stands in no queue. -/
theorem append_other (h : Posted w tail Q M) (hu : u ∉ M e) (hne : u ≠ m) :
    Function.update (Function.update w (tail e) (.msg m)) (.msg m) .null (.msg u) = w (.msg u) := by
  rw [Function.update_of_ne (by simpa using hne), Function.update_of_ne]
  rintro hx
  have ht := (h.queues e).tail_mem
  rw [← hx] at ht
  exact hu (by simpa using ht)

/-- The first message leaves the queue and gets another link. -/
theorem pop (h : Posted w tail Q M) (hM : M e = m :: ms) (p : Addr) :
    Posted (Function.update (Function.update w (.exch e) (w (.msg m))) (.msg m) p)
      (if w (.msg m) = .null then Function.update tail e (.exch e) else tail) Q
      (Function.update M e ms) := by
  have hq := h.queues e
  rw [hM, List.map_cons] at hq
  have hd := (List.nodup_cons.mp hq.nodup).1
  have hmem : ∀ {u e'}, u ∈ Function.update M e ms e' → u ∈ M e' := by
    intro u e' hu
    by_cases he : e' = e
    · subst he
      rw [Function.update_self] at hu
      simp [hM, hu]
    · rwa [Function.update_of_ne he] at hu
  refine ⟨fun e' ↦ ?_, fun h₁ h₂ ↦ h.apart (hmem h₁) (hmem h₂), fun hx ↦ h.home (hmem hx),
    fun {e'} hq' ↦ ?_⟩
  · by_cases he : e' = e
    · subst he
      have hr := Fifo.remove (l := []) hq
      simp only [List.getLastD_nil, List.nil_append] at hr
      have ht : (if w (.msg m) = .null then Function.update tail e' (.exch e') else tail) e' =
          if w (.msg m) = .null then .exch e' else tail e' := by
        split <;> simp
      rw [ht, Function.update_self]
      apply hr.congr (Function.update_of_ne (by simp) _ _)
      intro a ha
      refine Function.update_of_ne ?_ _ _
      rintro rfl
      exact hd ha
    · have ht : (if w (.msg m) = .null then Function.update tail e (.exch e) else tail) e' =
          tail e' := by
        split <;> simp [he]
      rw [ht, Function.update_of_ne he]
      refine queue_congr (h.queues e') ?_ fun u hu ↦ ?_
      · rw [Function.update_of_ne (by simp), Function.update_of_ne (by simpa using he)]
      · have hum : Addr.msg u ≠ .msg m := by
          rintro hx
          exact he (h.apart hu (by simp [hM, Addr.msg.inj hx]))
        rw [Function.update_of_ne hum, Function.update_of_ne (by simp)]
  · have hne := h.exclusive hq'
    by_cases he : e' = e
    · subst he
      simp [hM] at hne
    · rwa [Function.update_of_ne he]

/-- `reqdqmsg` takes the first message out of the queue, or none. -/
theorem of_reqdqmsg (hs : s.reqdqmsg e = .ok s') (h : Posted s.word0 s.messageTail Q M) :
    ∃ M', Posted s'.word0 s'.messageTail Q M' ∧
      ∀ u, u ∉ M e → s'.word0 (.msg u) = s.word0 (.msg u) := by
  rw [Yalrt.reqdqmsg] at hs
  split at hs
  · obtain rfl := Except.ok.inj hs
    exact ⟨M, h, fun _ _ ↦ rfl⟩
  obtain ⟨p, hp, hs⟩ := Exec.bind_eq_ok.mp hs
  obtain ⟨hn, rfl⟩ := deref_eq_ok.mp hp
  obtain ⟨m, r, hM⟩ : ∃ m r, M e = m :: r :=
    List.exists_cons_of_ne_nil fun hM ↦ hn ((h.queues e).head_null_iff.mpr (by simp [hM]))
  have hq := h.queues e
  rw [hM, List.map_cons] at hq
  have hhead : s.word0 (.exch e) = .msg m := hq.head_eq
  obtain ⟨q, hw, ht⟩ : ∃ q, s'.word0 = Function.update (Function.update s.word0 (.exch e)
      (s.word0 (.msg m))) (.msg m) q ∧ s'.messageTail =
        if s.word0 (.msg m) = .null then Function.update s.messageTail e (.exch e)
        else s.messageTail := by
    have hne : Addr.msg m ≠ .exch e := by simp
    simp only [Yalrt.messageHead, hhead] at hs
    split at hs <;> simp only [Function.update_of_ne hne] at hs <;> split at hs <;> rename_i hl <;>
    · obtain rfl := Except.ok.inj hs
      exact ⟨_, rfl, by simp only [hl, if_true, if_false]⟩
  refine ⟨Function.update M e r, ?_, fun u hu ↦ ?_⟩
  · rw [hw, ht]
    exact h.pop hM q
  · have hum : Addr.msg u ≠ .msg m := by
      rintro hx
      exact hu (by simp [hM, Addr.msg.inj hx])
    rw [hw, Function.update_of_ne hum, Function.update_of_ne (by simp)]

end Posted

/-! ### Along a run -/

variable {R : List TaskId} {D : List (TaskId × Nat)} {c : Classes} {o : YalrtOp}

/-- `IdleTask` stays runnable if it does not wait. -/
theorem Classes.idle_move (h : idleTask ∈ c.came)
    (ho : ∀ e d, o = .reqwait e d → s.rqactv ≠ idleTask) : idleTask ∈ (c.move s o).came := by
  cases o with
  | reqsend _ _ | deliver => exact (comesAt_subset c s _).1 h
  | reqwait e d =>
    rw [Classes.move]
    split
    · exact (List.mem_erase_of_ne (ho e d rfl).symm).mpr h
    · exact h
  | reqsusp u =>
    rw [Classes.move]
    split
    · rename_i hu
      exact (List.mem_erase_of_ne hu.1.symm).mpr h
    · exact h
  | reqresm u =>
    rw [Classes.move]
    split
    · exact List.mem_append_left _ h
    · exact h
  | expire =>
    rw [Classes.move]
    split
    · exact (comes_subset c s _).1 h
    · exact h
  | enterRegion | reqacpt _ | expired | exitRegion | pop | fetch | drained | close | reqisnd _
  | reqssnd _ | timer | irq _ => exact h

namespace Yalrt

/-- The message of the exchange is linked to itself. -/
def Marked (s : Yalrt) (e : ExchId) : Prop := s.msgLink (.interrupt e) = .msg (.interrupt e)

instance (s : Yalrt) (e : ExchId) : Decidable (s.Marked e) := inferInstanceAs (Decidable (_ = _))

/-- `IdleTask` does not wait, tasks do not send the messages of interrupts, and no call comes to
a test that goes wrong. -/
structure Lawful (s : Yalrt) (o : YalrtOp) : Prop where
  slips : ¬ s.Slips o
  idle : ∀ e d, o = .reqwait e d → s.rqactv ≠ idleTask
  sends : ∀ e m x, o = .reqsend e m → m ≠ .interrupt x

/-- The lists agree with the steps, `IdleTask` is runnable, and the messages are in queues. -/
structure Sound (s : Yalrt) (c : Classes) : Prop where
  lists : ∃ R Q D M, Kept s c R Q D ∧ Posted s.word0 s.messageTail Q M
  idle : idleTask ∈ c.came

/-- An interrupt does not change the links of the messages. -/
@[simp] theorem signal_word0 : (s.signal e).word0 = s.word0 := by
  rw [signal]
  split <;> rfl

/-- An interrupt does not change the message queues. -/
@[simp] theorem signal_messageTail : (s.signal e).messageTail = s.messageTail := by
  rw [signal]
  split <;> rfl

/-- What `yalrt.c:985–988` changes. -/
theorem appendMessage_ok {m : MsgId} (h : s.appendMessage e m = .ok s') : s' = { s with
    word0 := Function.update (Function.update s.word0 (s.messageTail e) (.msg m)) (.msg m) .null
    messageTail := Function.update s.messageTail e (.msg m) } := by
  obtain ⟨p, hp, h⟩ := Exec.bind_eq_ok.mp h
  obtain ⟨-, rfl⟩ := deref_eq_ok.mp hp
  exact (Except.ok.inj h).symm

/-- What `deliver` changes. -/
theorem Kept.deliver_cases (hk : Kept s c R Q D) (hp : Posted s.word0 s.messageTail Q M)
    (hR : R ≠ []) (hs : Step s .deliver s') (he : s.qIntMsg = e) :
    s.line = .deliver ∧
    (s.taskHead e = .null ∧ s.Marked e ∧
        s' = { s with
          type := Function.update s.type (.interrupt e) intType
          messageTail := Function.update s.messageTail e (.msg (.interrupt e))
          word0 := Function.update (Function.update s.word0 (s.messageTail e)
            (.msg (.interrupt e))) (.msg (.interrupt e)) .null
          qint := Function.update s.qint e 1
          line := .drain } ∨
      s.taskHead e = .null ∧ ¬ s.Marked e ∧
        s' = { s with
          type := Function.update s.type (.interrupt e) missedIntType, line := .drain } ∨
      ∃ t r T, s.taskHead e = .task t ∧ Q e = t :: r ∧ s' = { s with
          toTaskLists := T
          type := Function.update s.type (.interrupt e) intType
          word0 := Function.update s.word0 (.msg (.interrupt e)) (.msg (.interrupt e))
          message := Function.update s.message t (.msg (.interrupt e))
          line := .drain } ∧
        Classified T (Classified.wokenReady s.toSched t R)
          (Classified.wokenSuspend s.toSched t c.suspended) (Function.update Q e r)
          (D.filter (·.1 ≠ t)) ∧ T.priority = s.priority) := by
  have hs0 := hs
  obtain ⟨n, hs⟩ := hs
  obtain ⟨hl, ho, -⟩ := mainStep_ok (f := (Yalrt.deliver n ·)) hs
  obtain ⟨s'', hy, hcases⟩ := hk.deliver_yields hR hl ho he
    fun _ _ ↦ (hp.queues e).tail_ne_null
  obtain rfl := hs0.eq_of_yields hy
  exact ⟨hl, hcases⟩

/-- A step keeps the lists and the messages, and the link of a message that is neither sent nor
delivered and leads to itself. -/
theorem Sound.step (h : Sound s c) (ho : s.Lawful o) (hs : Step s o s') :
    Sound s' (c.move s o) ∧ ∀ u, s.msgLink u = .msg u → (∀ e, o ≠ .reqsend e u) →
      (o = .deliver → u ≠ .interrupt s.qIntMsg) → s'.msgLink u = .msg u := by
  obtain ⟨⟨R, Q, D, M, hk, hp⟩, hi⟩ := h
  have hR := hk.ne_nil hi
  have hidle := Classes.idle_move hi ho.idle
  cases o with
  | enterRegion =>
    obtain ⟨rfl, hk'⟩ := hk.enterRegion hs
    exact ⟨⟨⟨R, Q, D, M, hk', hp⟩, hi⟩, fun _ hu _ _ ↦ hu⟩
  | reqsend e m =>
    obtain ⟨R', Q', D', hk', hQ⟩ := hk.reqsend hR ho.slips hs
    obtain ⟨hacc, -, hcases⟩ := hk.reqsend_cases hR ho.slips hs
    have hm : ∀ x, m ∉ M x := hp.not_mem (hacc.symm.imp_right fun hl ↦ ⟨_, hl⟩)
    rcases hcases with ⟨hh, s₁, hs₁, rfl⟩ | ⟨t, r, T, -, -, -, rfl, -, -⟩
    · obtain rfl := appendMessage_ok hs₁
      have happ := hp.append hm (hk.queue_nil hh) fun x hx ↦ absurd hx (ho.sends e m x rfl)
      refine ⟨⟨⟨R', Q', D', _, hk', happ.fewer hQ⟩, hidle⟩, fun u hu hne _ ↦ ?_⟩
      have hum : u ≠ m := by
        rintro rfl
        exact hne e rfl
      exact (hp.append_other (hp.not_mem (.inl hu) e) hum).trans hu
    · refine ⟨⟨⟨R', Q', D', M, hk', (hp.relink hm _).fewer hQ⟩, hidle⟩, fun u hu hne _ ↦ ?_⟩
      have hum : Addr.msg u ≠ .msg m := by
        rintro hx
        exact hne e (by rw [Addr.msg.inj hx])
      exact (Function.update_of_ne hum _ _).trans hu
  | reqacpt e =>
    obtain ⟨⟨s₁, hs₁, rfl⟩, hk'⟩ := hk.reqacpt hs
    rw [reqacpt] at hs₁
    split at hs₁
    · obtain ⟨M', hp', hw⟩ := Posted.of_reqdqmsg hs₁ hp
      exact ⟨⟨⟨R, Q, D, M', hk', hp'⟩, hi⟩,
        fun u hu _ _ ↦ (hw u (hp.not_mem (.inl hu) e)).trans hu⟩
    · obtain rfl := Except.ok.inj hs₁
      exact ⟨⟨⟨R, Q, D, M, hk', hp⟩, hi⟩, fun _ hu _ _ ↦ hu⟩
  | reqwait e d =>
    obtain ⟨R', Q', D', hk', hQ⟩ := hk.reqwait hs
    obtain ⟨-, ⟨R'', T, D'', hm, -, rfl, -, -⟩ | ⟨hm, s₁, hs₁, rfl⟩⟩ := hk.reqwait_cases hs
    · refine ⟨⟨⟨R', Q', D', M, hk', ?_⟩, hidle⟩, fun _ hu _ _ ↦ hu⟩
      rcases hQ with rfl | ⟨-, rfl⟩
      · exact hp
      · exact hp.wait hm _
    · obtain rfl := hQ.resolve_right fun hx ↦ hm hx.1
      obtain ⟨M', hp', hw⟩ := Posted.of_reqdqmsg hs₁ hp
      exact ⟨⟨⟨R', Q', D', M', hk', hp'⟩, hidle⟩,
        fun u hu _ _ ↦ (hw u (hp.not_mem (.inl hu) e)).trans hu⟩
  | reqsusp t =>
    obtain ⟨⟨T, rfl⟩, R', hk'⟩ := hk.reqsusp hs
    exact ⟨⟨⟨R', Q, D, M, hk', hp⟩, hidle⟩, fun _ hu _ _ ↦ hu⟩
  | reqresm t =>
    obtain ⟨⟨T, rfl⟩, R', hk'⟩ := hk.reqresm hR ho.slips hs
    exact ⟨⟨⟨R', Q, D, M, hk', hp⟩, hidle⟩, fun _ hu _ _ ↦ hu⟩
  | expire =>
    obtain ⟨t, ⟨T, rfl⟩, R', e, D', hk'⟩ := hk.expire hR hs
    refine ⟨⟨⟨R', _, D', M, hk', hp.fewer fun x hx ↦ ?_⟩, hidle⟩, fun _ hu _ _ ↦ hu⟩
    by_cases he : x = e
    · rw [he] at hx ⊢
      simp [hx]
    · rwa [Function.update_of_ne he]
  | expired =>
    obtain ⟨rfl, hk'⟩ := hk.expired hs
    exact ⟨⟨⟨R, Q, D, M, hk', hp⟩, hi⟩, fun _ hu _ _ ↦ hu⟩
  | exitRegion =>
    obtain ⟨rfl, hk'⟩ := hk.exitRegion hs
    exact ⟨⟨⟨R, Q, D, M, hk', hp⟩, hi⟩, fun _ hu _ _ ↦ hu⟩
  | pop =>
    obtain ⟨⟨-, n, -, rfl⟩, hk'⟩ := hk.pop hs
    exact ⟨⟨⟨R, Q, D, M, hk', hp⟩, hi⟩, fun _ hu _ _ ↦ hu⟩
  | fetch =>
    obtain ⟨⟨-, rfl⟩, hk'⟩ := hk.fetch hs
    exact ⟨⟨⟨R, Q, D, M, hk', hp⟩, hi⟩, fun _ hu _ _ ↦ hu⟩
  | deliver =>
    obtain ⟨R', Q', D', hk', hQ⟩ := hk.deliver hR hs
    obtain ⟨e, he⟩ : ∃ e, s.qIntMsg = e := ⟨_, rfl⟩
    obtain ⟨-, ⟨hh, hm, rfl⟩ | ⟨-, -, rfl⟩ | ⟨t, r, T, -, hq, rfl, -, -⟩⟩ :=
      hk.deliver_cases hp hR hs he
    · have happ := hp.append (hp.not_mem (.inl hm)) (hk.queue_nil hh)
        fun x hx ↦ MsgId.interrupt.inj hx
      refine ⟨⟨⟨R', Q', D', _, hk', happ.fewer hQ⟩, hidle⟩, fun u hu _ hne ↦ ?_⟩
      exact (hp.append_other (hp.not_mem (.inl hu) e) (he ▸ hne rfl)).trans hu
    · exact ⟨⟨⟨R', Q', D', M, hk', hp.fewer hQ⟩, hidle⟩, fun _ hu _ _ ↦ hu⟩
    · have hm := hp.interrupt_not_mem (e := e) (by simp [hq])
      refine ⟨⟨⟨R', Q', D', M, hk', (hp.relink hm _).fewer hQ⟩, hidle⟩, fun u hu _ hne ↦ ?_⟩
      exact (Function.update_of_ne (by simpa [he] using hne rfl) _ _).trans hu
  | drained =>
    obtain ⟨⟨-, rfl⟩, hk'⟩ := hk.drained hs
    exact ⟨⟨⟨R, Q, D, M, hk', hp⟩, hi⟩, fun _ hu _ _ ↦ hu⟩
  | close =>
    obtain ⟨⟨-, T, t, rfl⟩, hk'⟩ := hk.close hs
    exact ⟨⟨⟨R, Q, D, M, hk', hp⟩, hi⟩, fun _ hu _ _ ↦ hu⟩
  | reqisnd e =>
    obtain ⟨rfl, hk'⟩ := hk.reqisnd hs
    exact ⟨⟨⟨R, Q, D, M, hk', by simpa using hp⟩, hi⟩, fun _ hu _ _ ↦ by simpa using hu⟩
  | reqssnd e =>
    obtain ⟨rfl, hk'⟩ := hk.reqssnd hs
    exact ⟨⟨⟨R, Q, D, M, hk', hp⟩, hi⟩, fun _ hu _ _ ↦ hu⟩
  | timer =>
    obtain ⟨dl, due, is, D', -, rfl, hk'⟩ := hk.timer hs
    cases due <;> exact ⟨⟨⟨R, Q, D', M, hk', hp⟩, hi⟩, fun _ hu _ _ ↦ hu⟩
  | irq i =>
    obtain ⟨⟨e, is, -, rfl⟩ | ⟨T, cf, l, is, -, -, rfl⟩, hk'⟩ := hk.irq hs
    · exact ⟨⟨⟨R, Q, D, M, hk', by simpa using hp⟩, hi⟩, fun _ hu _ _ ↦ by simpa using hu⟩
    · exact ⟨⟨⟨R, Q, D, M, hk', hp⟩, hi⟩, fun _ hu _ _ ↦ hu⟩

end Yalrt

end YRmx
