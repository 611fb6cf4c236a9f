import YRmx.Spec.Effects

/-!
# Where messages go

Library `YRmx`. What a step accepts from a sender and hands to a receiver, the balance of the
two at every exchange, and everything that a step may do to the owner of one message.
-/

namespace YRmx.Board

variable {b b' : Board} {t u : TaskId} {o : Op} {e : ExchId} {m : MsgId}

/-! ### Acceptance and hand-over -/

/-- The message that a step accepts for an exchange. -/
def acceptedAt (b : Board) (e : ExchId) (o : Op) : List MsgId :=
  match b.sends o with
  | some (e', m) => if e' = e then [m] else []
  | none => []

/-- The message that a step hands over at an exchange, with the task that receives it. -/
def handedAt (b : Board) (e : ExchId) (o : Op) : List (MsgId × TaskId) :=
  match b.sends o, o with
  | some (e', m), _ => if e' = e then (b.tq e).head?.toList.map fun u ↦ (m, u) else []
  | none, .reqwait t e' _ => if e' = e then (b.mq e).head?.toList.map fun m ↦ (m, t) else []
  | none, .reqacpt t e' => if e' = e then (b.mq e).head?.toList.map fun m ↦ (m, t) else []
  | none, _ => []

private theorem head_append_tail {α : Type} (l : List α) : l.head?.toList ++ l.tail = l := by
  cases l <;> rfl

/-- What is queued and what is accepted is handed over first, and queued then. -/
theorem Inv.balance (hI : b.Inv) (o : Op) (e : ExchId) :
    b.mq e ++ b.acceptedAt e o = (b.handedAt e o).map Prod.fst ++
      messagesAfter (b.sends o) o e (b.mq e) (b.tq e) := by
  unfold acceptedAt handedAt messagesAfter
  cases hs : b.sends o with
  | some x =>
    obtain ⟨e', m⟩ := x
    simp only
    by_cases he : e' = e
    · subst he
      cases htq : b.tq e' with
      | nil => simp
      | cons u us =>
        have hmq : b.mq e' = [] := (hI.one_empty e').resolve_right (by simp [htq])
        simp [hmq]
    · simp [he]
  | none =>
    cases o with
    | reqwait t e' d =>
      by_cases he : e' = e
      · simp [he, head_append_tail, Function.comp_def]
      · simp [he]
    | reqacpt t e' =>
      by_cases he : e' = e
      · simp [he, head_append_tail, Function.comp_def]
      · simp [he]
    | _ => simp

private theorem mem_handed {l : List TaskId} {e' : ExchId} {m' : MsgId}
    (h : (m, u) ∈ if e' = e then l.head?.toList.map fun u ↦ (m', u) else []) :
    e' = e ∧ m' = m ∧ l.head? = some u := by
  split at h
  case isTrue he =>
    obtain ⟨w, hw, hx⟩ := List.mem_map.mp h
    obtain ⟨rfl, rfl⟩ := Prod.mk.inj hx
    exact ⟨he, rfl, Option.mem_toList.mp hw⟩
  case isFalse => cases h

private theorem mem_fetched {l : List MsgId} {e' : ExchId} {t : TaskId}
    (h : (m, u) ∈ if e' = e then l.head?.toList.map fun m ↦ (m, t) else []) :
    e' = e ∧ t = u ∧ l.head? = some m := by
  split at h
  case isTrue he =>
    obtain ⟨w, hw, hx⟩ := List.mem_map.mp h
    obtain ⟨rfl, rfl⟩ := Prod.mk.inj hx
    exact ⟨he, rfl, Option.mem_toList.mp hw⟩
  case isFalse => cases h

/-- A message that a step hands over is sent by it, or fetched from the queue. -/
theorem handedAt_cases (h : (m, u) ∈ b.handedAt e o) :
    b.sends o = some (e, m) ∧ (b.tq e).head? = some u ∨
      ((∃ d, o = .reqwait u e d) ∨ o = .reqacpt u e) ∧ (b.mq e).head? = some m := by
  unfold handedAt at h
  cases hs : b.sends o with
  | some x =>
    simp only [hs] at h
    obtain ⟨rfl, rfl, hu⟩ := mem_handed h
    exact .inl ⟨rfl, hu⟩
  | none =>
    rw [hs] at h
    cases o with
    | reqwait t e' d =>
      obtain ⟨rfl, rfl, hq⟩ := mem_fetched h
      exact .inr ⟨.inl ⟨d, rfl⟩, hq⟩
    | reqacpt t e' =>
      obtain ⟨rfl, rfl, hq⟩ := mem_fetched h
      exact .inr ⟨.inr rfl, hq⟩
    | _ => cases h

/-! ### One message -/

/-- Everything that a step may do to the owner of a message. -/
inductive MessageStep (b : Board) (o : Op) (m : MsgId) (b' : Board) : Prop
  /-- the step concerns other messages -/
  | kept (h : b'.own m = b.own m) (hq : b'.Queued m ↔ b.Queued m)
  /-- the message is created -/
  | created (t : TaskId) (n : Nat) (size now : BitVec 32) (ho : o = .reqcmsg t n size now)
      (hm : m = .user n) (h : b'.own m = .task t) (hq : b'.Queued m ↔ b.Queued m)
  /-- the message is accepted, and no task waits for it -/
  | queued (e : ExchId) (ho : b.sends o = some (e, m)) (hq : b'.Queued m)
  /-- the message is accepted and given to a waiting task -/
  | handed (e : ExchId) (u : TaskId) (ho : b.sends o = some (e, m))
      (hu : (b.tq e).head? = some u)
      (h : b'.own m = if b'.type m > timeoutType then .task u else .msg m)
      (hty : ∀ t, o = .reqsend t e m → b'.type m = b.type m) (hq : ¬ b'.Queued m)
  /-- the message is given to a task that asks for it -/
  | fetched (t : TaskId) (e : ExchId) (ho : (∃ d, o = .reqwait t e d) ∨ o = .reqacpt t e)
      (hm : (b.mq e).head? = some m)
      (h : b'.own m = if b.receivesInt e m then .msg m else .task t) (hq : ¬ b'.Queued m)

private theorem Sent.messageStep {a : Board} {m' : MsgId} (ho : b.sends o = some (e, m'))
    (hm : ¬ b.Queued m') (htq : a.tq = b.tq) (hmq : a.mq = b.mq) (hown : a.own = b.own)
    (hty : ∀ t, o = .reqsend t e m' → a.type m' = b.type m') (hs : Sent a e m' b') :
    MessageStep b o m b' := by
  have hq₁ : ∀ m, a.Queued m ↔ b.Queued m := fun m ↦ by unfold Queued; rw [hmq]
  cases hs with
  | kept h =>
    by_cases hx : m = m'
    · subst hx
      exact .queued e ho (queued_pushMessage.mpr (.inl rfl))
    · refine .kept ?_ ?_
      · simp [pushMessage, hx, hown]
      · rw [queued_pushMessage, or_iff_right hx, hq₁]
  | @handed u us h =>
    by_cases hx : m = m'
    · subst hx
      refine .handed e u ho ?_ ?_ hty ?_
      · rw [← htq, h]
        rfl
      · show Function.update a.own m (if a.type m > timeoutType then .task u else .msg m) m =
          if a.type m > timeoutType then .task u else .msg m
        exact Function.update_self _ _ _
      · exact fun hq ↦ hm ((hq₁ m).mp hq)
    · refine .kept ?_ (hq₁ m)
      simp [handOff, dropDelay, hx, hown]

/-- A message that is sent is not queued. -/
theorem Inv.not_queued_of_sends (hI : b.Inv) (ho : b.sends o = some (e, m)) : ¬ b.Queued m := by
  have hint : ∀ {e'}, b.sendsInt e' = some (e, m) → ¬ b.Queued m := by
    intro e' h
    obtain ⟨hown, he⟩ := Option.ite_none_right_eq_some.mp h
    cases he
    exact hI.not_queued_of_accepts (t := 0) (.inr hown.1)
  cases o with
  | reqsend t e' m' =>
    obtain ⟨h, he⟩ := Option.ite_none_right_eq_some.mp ho
    cases he
    exact hI.not_queued_of_accepts h.2.2
  | reqisnd t e' => exact hint (Option.ite_none_right_eq_some.mp ho).2
  | tick => exact hint (Option.ite_none_right_eq_some.mp ho).2
  | _ => cases ho

private theorem isnd_messageStep {b₁ : Board} (hI : b.Inv)
    (ho : b₁.sendsInt e = some (e, .interrupt e) → b.sends o = some (e, .interrupt e))
    (hn : ∀ t m, o ≠ .reqsend t e m) (htq : b₁.tq = b.tq) (hmq : b₁.mq = b.mq)
    (hown : b₁.own = b.own) (h : b₁.isnd t e = .ok b') : MessageStep b o m b' := by
  rcases isnd_cases h with ⟨hs, hsent⟩ | ⟨-, rfl⟩
  · exact Sent.messageStep (a := b₁.intSender e) (ho hs) (hI.not_queued_of_sends (ho hs)) htq hmq
      hown (fun t hx ↦ absurd hx (hn t _)) hsent
  · refine .kept (congrFun hown m) ?_
    unfold Queued
    rw [← hmq]

private theorem popMessage_messageStep {a : Board} (hI₁ : a.Inv)
    (ho : (∃ d, o = .reqwait t e d) ∨ o = .reqacpt t e) (hmq : a.mq = b.mq)
    (hown : a.own = b.own) (hty : a.type = b.type ∧ a.length = b.length)
    (hmq' : b'.mq = (a.popMessage e t).mq) (hown' : b'.own = (a.popMessage e t).own) :
    MessageStep b o m b' := by
  have hq' : b'.Queued m ↔ (a.popMessage e t).Queued m := by unfold Queued; rw [hmq']
  have hq₁ : a.Queued m ↔ b.Queued m := by unfold Queued; rw [hmq]
  cases hx : a.mq e with
  | nil =>
    have hp : a.popMessage e t = a := by simp only [popMessage, hx]
    rw [hp] at hq' hown'
    exact .kept (by rw [hown', hown]) (hq'.trans hq₁)
  | cons m' ms =>
    have hpop : (a.popMessage e t).Queued m ↔ _ := queued_popMessage hI₁ hx
    by_cases he : m = m'
    · subst he
      have hint : a.receivesInt e m ↔ b.receivesInt e m := by
        unfold receivesInt
        rw [hty.1, hty.2]
      refine .fetched t e ho (by simp [← hmq, hx]) ?_ ?_
      · rw [hown', popMessage_cons hx]
        exact (Function.update_self _ _ _).trans (if_congr hint rfl rfl)
      · exact fun hq ↦ (hpop.mp (hq'.mp hq)).1 rfl
    · refine .kept ?_ (hq'.trans (hpop.trans ((and_iff_right he).trans hq₁)))
      rw [hown', popMessage_cons hx]
      simp [he, hown]

/-- What a step does to a message is one of these things. -/
theorem step_message (hI : b.Inv) (h : b.step o = .ok b') (m : MsgId) :
    MessageStep b o m b' := by
  cases o with
  | reqcmsg t n size now =>
    obtain ⟨-, h⟩ := require_bind_eq_ok.mp h
    cases h
    by_cases hx : m = .user n
    · subst hx
      exact .created t n size now rfl rfl (Function.update_self _ _ _) .rfl
    · exact .kept (Function.update_of_ne hx _ _) .rfl
  | reqsend t e m' =>
    obtain ⟨hp, h⟩ := require_bind_eq_ok.mp h
    obtain ⟨hmx, ⟨hacc, hs⟩ | ⟨-, rfl⟩⟩ := send_cases h
    · exact hs.messageStep (if_pos ⟨hp, hmx, hacc⟩) (hI.not_queued_of_accepts hacc) rfl rfl rfl
        fun _ _ ↦ rfl
    · exact .kept rfl .rfl
  | reqisnd t e =>
    obtain ⟨hp, h⟩ := require_bind_eq_ok.mp h
    exact isnd_messageStep hI (fun hs ↦ (if_pos hp).trans hs) (by simp) rfl rfl rfl h
  | reqwait t e d =>
    obtain ⟨hp, h⟩ := require_bind_eq_ok.mp h
    obtain ⟨-, h⟩ := require_bind_eq_ok.mp h
    by_cases hmq : b.mq e = []
    · obtain rfl := Except.ok.inj ((if_pos hmq).symm.trans h)
      refine .kept (by rw [block_own]) ?_
      unfold Queued
      rw [block_mq]
    · obtain rfl := Except.ok.inj ((if_neg hmq).symm.trans h)
      exact popMessage_messageStep (a := b.ctl (·.setExchange t (.exch e)))
        (hI.setExchange (hI.free_of_user hp) _) (.inl ⟨d, rfl⟩) rfl rfl ⟨rfl, rfl⟩ rfl rfl
  | reqacpt t e =>
    obtain ⟨hp, h⟩ := require_bind_eq_ok.mp h
    obtain ⟨-, h⟩ := require_bind_eq_ok.mp h
    cases h
    refine popMessage_messageStep
      (a := b.ctl fun c ↦ (c.setExchange t (.exch e)).setMessage t .null) ?_ (.inr rfl) rfl rfl
      ⟨rfl, rfl⟩ rfl rfl
    exact (hI.setExchange (hI.free_of_user hp) (.exch e)).ctl_same (f := (·.setMessage t .null))
      fun u ↦ ⟨rfl, rfl, rfl, rfl⟩
  | tick =>
    obtain ⟨hp, h⟩ := require_bind_eq_ok.mp h
    have hcd := countDown_eq b
    have hsi : b.countDown.1.sendsInt rqDelayExchange = b.sendsInt rqDelayExchange := by
      rw [hcd]
      rfl
    have hmq : b.countDown.1.mq = b.mq := by rw [hcd]
    have hown : b.countDown.1.own = b.own := by rw [hcd]
    unfold tick at h
    by_cases hs : b.countDown.2 = true
    · rw [if_pos hs] at h
      exact isnd_messageStep hI (fun hx ↦ (if_pos ⟨hp, hs⟩).trans (hsi.symm.trans hx)) (by simp)
        (by rw [hcd]) hmq hown h
    · rw [if_neg hs] at h
      cases h
      refine .kept (congrFun hown m) ?_
      unfold Queued
      rw [hmq]
  | expiry =>
    obtain ⟨-, h⟩ := require_bind_eq_ok.mp h
    cases h
    obtain ⟨-, hmq, hown⟩ := foldl_expire_lists b.expired b
    refine .kept (congrFun hown m) ?_
    show (∃ e, m ∈ (b.expired.foldl expire b).mq e) ↔ _
    rw [hmq]
    rfl
  | reqdtsk t u =>
    obtain ⟨-, h⟩ := require_bind_eq_ok.mp h
    cases h
    unfold delete
    by_cases hb : b.status u &&& (waiting ||| delayed) ≠ 0
    · simp only [if_pos hb]
      refine .kept (congrFun (dropTask_own b u) m) ?_
      show (∃ e, m ∈ (b.dropTask u).mq e) ↔ _
      rw [dropTask_mq]
      rfl
    · simp only [if_neg hb]
      exact .kept rfl .rfl
  | _ =>
    obtain ⟨f, rfl⟩ := step_ctl h trivial
    exact .kept rfl .rfl

/-! ### One hand-over -/

private theorem Sent.message {b₁ : Board} (hs : Sent b₁ e m b')
    (hu : (b₁.tq e).head? = some u) :
    b'.message u = .msg m ∧ (timeoutType < b₁.type m → b'.own m = .task u) := by
  cases hs with
  | kept h => simp [h] at hu
  | @handed w us h =>
    obtain rfl : w = u := by simpa [h] using hu
    refine ⟨by simp [handOff, dropDelay], fun hty ↦ ?_⟩
    show Function.update b₁.own m (if b₁.type m > timeoutType then .task w else .msg m) m = _
    rw [Function.update_self, if_pos hty]

private theorem popMessage_message {a : Board} (hm : (a.mq e).head? = some m) :
    (a.popMessage e u).message u = .msg m ∧
      ∀ n, m = .user n → (a.popMessage e u).own m = .task u := by
  obtain ⟨m', ms, hms⟩ : ∃ m' ms, a.mq e = m' :: ms := by
    cases hx : a.mq e with
    | nil => simp [hx] at hm
    | cons m' ms => exact ⟨m', ms, rfl⟩
  obtain rfl : m' = m := by simpa [hms] using hm
  rw [popMessage_cons hms]
  refine ⟨by simp, ?_⟩
  rintro n rfl
  have hint : ¬ a.receivesInt e (.user n) := fun h ↦ by cases h.1
  simp [hint]

/-- A message that is handed over is stored in the descriptor of the task that receives it, and
a user message is its own. -/
theorem step_handed (h : b.step o = .ok b') (hm : (m, u) ∈ b.handedAt e o) :
    b'.message u = .msg m ∧ ∀ n, m = .user n →
      (∀ t, o = .reqsend t e m → timeoutType < b.type m) → b'.own m = .task u := by
  have hint : ∀ {t e'} {b₁ : Board}, b₁.isnd t e' = .ok b' → b₁.tq = b.tq →
      b₁.sendsInt e' = b.sendsInt e' → b.sends o = b.sendsInt e' → b.sends o = some (e, m) →
      (b.tq e).head? = some u → b'.message u = .msg m ∧ ∀ n, m ≠ .user n := by
    intro t e' b₁ h htq hsi ho hs hu
    rw [ho] at hs
    rcases isnd_cases h with ⟨-, hsent⟩ | ⟨hn, rfl⟩
    · obtain ⟨-, he⟩ := Option.ite_none_right_eq_some.mp hs
      cases he
      exact ⟨(hsent.message (by rw [← hu, ← htq]; rfl)).1, by simp⟩
    · rw [← hsi] at hs
      exact absurd (Option.ite_none_right_eq_some.mp hs).1.1 hn
  unfold handedAt at hm
  cases o with
  | reqsend t e' m' =>
    obtain ⟨hp, h⟩ := require_bind_eq_ok.mp h
    obtain ⟨hmx, ⟨hacc, hs⟩ | ⟨hacc, -⟩⟩ := send_cases h
    · rw [show b.sends (.reqsend t e' m') = some (e', m') from if_pos ⟨hp, hmx, hacc⟩] at hm
      obtain ⟨rfl, rfl, hu⟩ := mem_handed hm
      exact ⟨(hs.message hu).1, fun n _ hty ↦ (hs.message hu).2 (hty t rfl)⟩
    · rw [show b.sends (.reqsend t e' m') = none from if_neg fun hx ↦ hacc hx.2.2] at hm
      cases hm
  | reqisnd t e' =>
    obtain ⟨hp, h⟩ := require_bind_eq_ok.mp h
    cases hs : b.sends (.reqisnd t e') with
    | none =>
      rw [hs] at hm
      cases hm
    | some x =>
      rw [hs] at hm
      obtain ⟨rfl, rfl, hu⟩ := mem_handed hm
      obtain ⟨hmsg, hn⟩ := hint h rfl rfl (if_pos hp) hs hu
      exact ⟨hmsg, fun n hx ↦ absurd hx (hn n)⟩
  | tick =>
    obtain ⟨hp, h⟩ := require_bind_eq_ok.mp h
    have hcd := countDown_eq b
    cases hs : b.sends .tick with
    | none =>
      rw [hs] at hm
      cases hm
    | some x =>
      rw [hs] at hm
      obtain ⟨rfl, rfl, hu⟩ := mem_handed hm
      have hc := (Option.ite_none_right_eq_some.mp hs).1
      rw [tick, if_pos hc.2] at h
      obtain ⟨hmsg, hn⟩ := hint h (by rw [hcd]) (by rw [hcd]; rfl) (if_pos hc) hs hu
      exact ⟨hmsg, fun n hx ↦ absurd hx (hn n)⟩
  | reqwait t e' d =>
    obtain ⟨hp, h⟩ := require_bind_eq_ok.mp h
    obtain ⟨-, h⟩ := require_bind_eq_ok.mp h
    obtain ⟨rfl, rfl, hq⟩ := mem_fetched hm
    have hmq : b.mq e' ≠ [] := by
      intro hn
      rw [hn] at hq
      cases hq
    obtain rfl := Except.ok.inj ((if_neg hmq).symm.trans h)
    have hpop := popMessage_message (u := t) (a := b.ctl (·.setExchange t (.exch e'))) hq
    refine ⟨?_, fun n hn _ ↦ hpop.2 n hn⟩
    have hne : ((b.ctl (·.setExchange t (.exch e'))).popMessage e' t).message t ≠ .null := by
      rw [hpop.1]
      simp
    show Control.message (Control.waitDone _ t e' d) t = _
    rw [Control.waitDone, if_neg hne]
    exact hpop.1
  | reqacpt t e' =>
    obtain ⟨hp, h⟩ := require_bind_eq_ok.mp h
    obtain ⟨-, h⟩ := require_bind_eq_ok.mp h
    cases h
    obtain ⟨rfl, rfl, hq⟩ := mem_fetched hm
    have hpop := popMessage_message (u := t)
      (a := b.ctl fun c ↦ (c.setExchange t (.exch e')).setMessage t .null) hq
    exact ⟨hpop.1, fun n hn _ ↦ hpop.2 n hn⟩
  | _ => cases hm

end YRmx.Board
