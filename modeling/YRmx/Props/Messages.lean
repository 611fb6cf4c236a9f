import YRmx.Props.Plain
import YRmx.Spec.Owners

/-!
# Message conservation and ownership

Library `YRmx`. A message that was created is owned by one task or queued once at one
exchange, only its owner can send it, and at every exchange the messages that were accepted
are those that were handed over, in that order, followed by those that are queued.
-/

namespace YRmx

/-- User messages are sent with a type above `timeout_type`. -/
def Nucleus.Typed (s : Nucleus) : Op → Prop
  | .reqsend _ _ (.user n) => timeoutType < s.type (.user n)
  | _ => True

/-- The step initialises the message. -/
def Op.Creates (o : Op) (n : Nat) : Prop := ∃ t size now, o = .reqcmsg t n size now

/-- The messages that the steps of a run accepted for an exchange. -/
def accepted (tr : List (Nucleus × Op)) (e : ExchId) : List MsgId :=
  tr.flatMap fun x ↦ x.1.acceptedAt e x.2

/-- The messages that the steps of a run handed over at an exchange, with their receivers. -/
def handed (tr : List (Nucleus × Op)) (e : ExchId) : List (MsgId × TaskId) :=
  tr.flatMap fun x ↦ x.1.handedAt e x.2

/-- The message is owned by one task, and then it is queued nowhere. -/
def Nucleus.Owned (s : Nucleus) (m : MsgId) : Prop :=
  (∃ t, s.msgLink m = .task t) ∧ ¬ s.Queued m

/-- The message is queued once at one exchange, and then it has no owner. -/
def Nucleus.QueuedOnce (s : Nucleus) (m : MsgId) : Prop :=
  (∀ t, s.msgLink m ≠ .task t) ∧
    ∃ e ms, MessageQueue s e ms ∧ ms.count m = 1 ∧
      ∀ e' ms', MessageQueue s e' ms' → m ∈ ms' → e' = e

/-- The message was appended to the exchange or stored in the first waiting task. -/
def Delivered (s : Nucleus) (e : ExchId) (m : MsgId) (s' : Nucleus) : Prop :=
  (∃ ms, MessageQueue s' e (ms ++ [m])) ∨ ∃ u, s.taskHead e = .task u ∧ s'.message u = .msg m

variable {s₀ s s' : Nucleus} {b b' : Board} {o : Op} {e : ExchId} {m : MsgId} {t : TaskId}
variable {tr : List (Nucleus × Op)}

/-! ### The two sides agree -/

/-- `task_head` leads to the first waiting task. -/
theorem Sim.firstTask_eq (h : Sim s b) (e : ExchId) : s.firstTask e = (b.tq e).head? := by
  have hh : s.taskHead e = _ := (h.tasks e).head_eq
  unfold Nucleus.firstTask
  rw [hh]
  cases b.tq e <;> rfl

/-- `message_head` leads to the first message. -/
theorem Sim.firstMessage_eq (h : Sim s b) (e : ExchId) : s.firstMessage e = (b.mq e).head? := by
  have hh : s.messageHead e = _ := (h.messages e).head_eq
  unfold Nucleus.firstMessage
  rw [hh]
  cases b.mq e <;> rfl

/-- The exchange accepts what the board accepts. -/
theorem Sim.acceptedAt_eq (h : Sim s b) (hI : b.Inv) (e : ExchId) (o : Op) :
    s.acceptedAt e o = b.acceptedAt e o := by
  have hs := h.sends_eq hI o
  cases hb : b.sends o <;> simp only [Nucleus.acceptedAt, Board.acceptedAt, hs, hb]

/-- The exchange hands over what the board hands over. -/
theorem Sim.handedAt_eq (h : Sim s b) (hI : b.Inv) (e : ExchId) (o : Op) :
    s.handedAt e o = b.handedAt e o := by
  have hs := h.sends_eq hI o
  cases hb : b.sends o <;> cases o <;>
    simp only [Nucleus.handedAt, Board.handedAt, hs, hb, h.firstTask_eq, h.firstMessage_eq]

/-! ### What a run keeps -/

/-- What is true of the messages and the past of a run. -/
structure Conserved (tr : List (Nucleus × Op)) (b : Board) : Prop where
  history : ∀ e, accepted tr e = (handed tr e).map Prod.fst ++ b.mq e
  placed : ∀ n, (∃ x ∈ tr, x.2.Creates n) → b.Queued (.user n) ∨ ∃ t, b.own (.user n) = .task t
  timeOut : ¬ b.Queued .timeOut ∧ b.own .timeOut = .null

/-- Only its owner, or a sender of a self-linked message, sends a message. -/
theorem Board.own_of_sends (h : b.sends o = some (e, m)) :
    b.own m = .msg m ∨ ∃ t, b.own m = .task t := by
  have hint : ∀ {e'}, b.sendsInt e' = some (e, m) → b.own m = .msg m := by
    intro e' h
    obtain ⟨hown, he⟩ := Option.ite_none_right_eq_some.mp h
    cases he
    exact hown.1
  cases o with
  | reqsend t e' m' =>
    obtain ⟨hs, he⟩ := Option.ite_none_right_eq_some.mp h
    cases he
    exact hs.2.2.symm.imp_right fun h ↦ ⟨t, h⟩
  | reqisnd t e' => exact .inl (hint (Option.ite_none_right_eq_some.mp h).2)
  | tick => exact .inl (hint (Option.ite_none_right_eq_some.mp h).2)
  | _ => cases h

/-- A user message is sent by `reqsend` alone. -/
theorem Board.sends_user {n : Nat} (h : b.sends o = some (e, .user n)) :
    ∃ t, o = .reqsend t e (.user n) := by
  have hint : ∀ {e'}, b.sendsInt e' ≠ some (e, .user n) := by
    intro e' h
    cases (Option.ite_none_right_eq_some.mp h).2
  cases o with
  | reqsend t e' m' =>
    cases (Option.ite_none_right_eq_some.mp h).2
    exact ⟨t, rfl⟩
  | reqisnd t e' => exact absurd (Option.ite_none_right_eq_some.mp h).2 hint
  | tick => exact absurd (Option.ite_none_right_eq_some.mp h).2 hint
  | _ => cases h

/-- A message that has its place keeps it, or gets another one. -/
theorem Board.placed_step {n : Nat} (hI : b.Inv) (hty : ∀ t e, o = .reqsend t e (.user n) →
      timeoutType < b.type (.user n)) (h : b.step o = .ok b')
    (hp : b.Queued (.user n) ∨ ∃ t, b.own (.user n) = .task t) :
    b'.Queued (.user n) ∨ ∃ t, b'.own (.user n) = .task t := by
  cases step_message hI h (.user n) with
  | kept h hq => rwa [h, hq]
  | created t _ _ _ _ _ h => exact .inr ⟨t, h⟩
  | queued _ _ hq => exact .inl hq
  | handed e u ho _ hown hx =>
    obtain ⟨t, rfl⟩ := sends_user ho
    rw [hx t rfl, if_pos (hty t e rfl)] at hown
    exact .inr ⟨u, hown⟩
  | fetched t e _ _ hown =>
    have hint : ¬ b.receivesInt e (.user n) := fun hx ↦ by cases hx.1
    rw [if_neg hint] at hown
    exact .inr ⟨t, hown⟩

/-- A user message that has its place keeps it, or gets another one. -/
theorem Sim.placed {n : Nat} (h : Sim s b) (hI : b.Inv) (hty : s.Typed o)
    (hb : b.step o = .ok b') (hp : b.Queued (.user n) ∨ ∃ t, b.own (.user n) = .task t) :
    b'.Queued (.user n) ∨ ∃ t, b'.own (.user n) = .task t := by
  refine Board.placed_step hI ?_ hb hp
  rintro t e rfl
  rw [← h.type_eq]
  exact hty

/-- Nobody ever sends the time-out message. -/
theorem Board.timeOut_step (hI : b.Inv) (h : b.step o = .ok b')
    (ht : ¬ b.Queued .timeOut ∧ b.own .timeOut = .null) :
    ¬ b'.Queued .timeOut ∧ b'.own .timeOut = .null := by
  have hsend : ∀ {e}, b.sends o ≠ some (e, .timeOut) := by
    intro e hs
    rcases own_of_sends hs with hx | ⟨t, hx⟩ <;> simp [ht.2] at hx
  cases step_message hI h .timeOut with
  | kept h hq => rwa [h, hq]
  | created _ _ _ _ _ hm => cases hm
  | queued _ ho => exact absurd ho hsend
  | handed _ _ ho => exact absurd ho hsend
  | fetched t e _ hm => exact absurd ⟨e, List.mem_of_mem_head? hm⟩ ht.1

/-- A booted system has accepted nothing yet. -/
theorem Booted.conserved (h : Booted s) : Conserved [] s.board where
  history _ := rfl
  placed n hx := by
    obtain ⟨x, hx, -⟩ := hx
    cases hx
  timeOut := ⟨fun ⟨_, hx⟩ ↦ List.not_mem_nil hx, h.timeOut.1⟩

/-- Every step conserves the messages. -/
theorem Conserved.step (h : Conserved tr b) (hS : Sim s b) (hI : b.Inv) (hty : s.Typed o)
    (hb : b.step o = .ok b') : Conserved (tr ++ [(s, o)]) b' where
  history e := by
    have ha : accepted (tr ++ [(s, o)]) e = accepted tr e ++ b.acceptedAt e o := by
      simp [accepted, hS.acceptedAt_eq hI]
    have hh : handed (tr ++ [(s, o)]) e = handed tr e ++ b.handedAt e o := by
      simp [handed, hS.handedAt_eq hI]
    rw [ha, hh, h.history, List.map_append, List.append_assoc, List.append_assoc, hI.balance,
      (Board.step_lists hI hb e).1]
  placed n hx := by
    obtain ⟨x, hx, hc⟩ := hx
    rcases List.mem_append.mp hx with hx | hx
    · exact hS.placed hI hty hb (h.placed n ⟨x, hx, hc⟩)
    · rw [List.mem_singleton.mp hx] at hc
      obtain ⟨t, size, now, rfl⟩ := hc
      obtain ⟨-, hb⟩ := require_bind_eq_ok.mp hb
      cases hb
      exact .inr ⟨t, Function.update_self _ _ _⟩
  timeOut := Board.timeOut_step hI hb h.timeOut

/-! ### The states of a run -/

/-- A message in its place is owned or queued once, never both. -/
theorem Sim.owned_or_queued (h : Sim s b) (hI : b.Inv)
    (hp : b.Queued m ∨ ∃ t, b.own m = .task t) : s.Owned m ∨ s.QueuedOnce m := by
  by_cases hq : b.Queued m
  · refine .inr ⟨fun t ht ↦ ?_, ?_⟩
    · rcases h.msgLink_queued hI hq with hx | ⟨m', hx, -⟩ <;> rw [ht] at hx <;> cases hx
    · obtain ⟨e, he⟩ := hq
      refine ⟨e, b.mq e, h.messages e, List.count_eq_one_of_mem (hI.mq_nodup e) he, ?_⟩
      intro e' ms' hms hm
      rw [hms.unique (h.messages e')] at hm
      exact hI.mq_disjoint hm he
  · obtain ⟨t, ht⟩ := hp.resolve_left hq
    exact .inl ⟨⟨t, (h.own m hq).trans ht⟩, fun hx ↦ hq ((h.queued_iff m).mp hx)⟩

/-- A message that the sender may not send is refused. -/
theorem Step.refused (h : Step s (.reqsend t e m) s') (hn : ¬ accepts s t m) :
    s' = s.ctl (·.sendError t e) := by
  obtain ⟨n, h⟩ := h
  obtain ⟨-, h⟩ := require_bind_eq_ok.mp h
  obtain ⟨-, h⟩ := require_bind_eq_ok.mp h
  rw [if_pos hn] at h
  exact (Except.ok.inj h).symm

/-- A message that a step sends is delivered. -/
theorem Sim.delivered_of_sends (h : Sim s b) (hI : b.Inv) (h' : Sim s' b')
    (hb : b.step o = .ok b') (hs : b.sends o = some (e, m)) : Delivered s e m s' := by
  cases htq : b.tq e with
  | nil =>
    refine .inl ⟨b.mq e, ?_⟩
    have hmq := (Board.step_lists hI hb e).1
    rw [hs, htq] at hmq
    simp only [messagesAfter, and_self, if_true] at hmq
    exact hmq ▸ h'.messages e
  | cons u us =>
    have hm : (m, u) ∈ b.handedAt e o := by
      simp [Board.handedAt, hs, htq]
    refine .inr ⟨u, ?_, ?_⟩
    · have hh : s.taskHead e = _ := (h.tasks e).head_eq
      rw [hh, htq]
      rfl
    · rw [h'.message_eq]
      exact (Board.step_handed hb hm).1

/-- A message that the sender may send is delivered. -/
theorem Sim.delivered (h : Sim s b) (hI : b.Inv) (h' : Sim s' b')
    (hb : b.step (.reqsend t e m) = .ok b') (ha : accepts s t m) : Delivered s e m s' := by
  obtain ⟨hp, hb'⟩ := require_bind_eq_ok.mp hb
  obtain ⟨hmx, ⟨hacc, -⟩ | ⟨hacc, -⟩⟩ := Board.send_cases hb'
  · exact h.delivered_of_sends hI h' hb (if_pos ⟨hp, hmx, hacc⟩)
  · exact absurd ((h.accepts_iff hI).mp ha) hacc

/-- A message that a step hands over is stored in the descriptor of the task that receives it,
which is then the owner of a user message. -/
theorem Sim.handed {x : MsgId × TaskId} (h : Sim s b) (hI : b.Inv) (h' : Sim s' b')
    (hI' : b'.Inv) (hty : s.Typed o) (hb : b.step o = .ok b') (hx : x ∈ s.handedAt e o) :
    s'.message x.2 = .msg x.1 ∧ ∀ n, x.1 = .user n → s'.msgLink x.1 = .task x.2 := by
  rw [h.handedAt_eq hI] at hx
  obtain ⟨hmsg, hown⟩ := Board.step_handed hb hx
  refine ⟨h'.message_eq ▸ hmsg, fun n hn ↦ ?_⟩
  have hx' := hown n hn fun t ht ↦ by
    rw [hn] at ht ⊢
    rw [← h.type_eq]
    rw [ht] at hty
    exact hty
  have hq : ¬ b'.Queued x.1 := by
    rintro ⟨e', he'⟩
    rw [hI'.own_queued he'] at hx'
    cases hx'
  exact (h'.own _ hq).trans hx'

/-- In every state of a plain run each message that was created is owned by one task or queued
once, `reqsend` delivers it exactly for its owner and refuses it otherwise, the accepted
messages of an exchange are those handed over followed by those queued, and what a step hands
over is stored in its receiver, which is then the owner. -/
theorem messages_of_run (hb : Booted s₀) (hr : Run s₀ tr s)
    (hok : ∀ x ∈ tr, x.1.Proper x.2 ∧ x.1.Typed x.2) :
    (∀ n, (∃ x ∈ tr, x.2.Creates n) →
      (s.Owned (.user n) ∨ s.QueuedOnce (.user n)) ∧
      ∀ t e s', Step s (.reqsend t e (.user n)) s' →
        if s.msgLink (.user n) = .task t then Delivered s e (.user n) s'
        else s' = s.ctl (·.sendError t e)) ∧
    (∀ t e s', Step s (.reqsend t e .timeOut) s' → s' = s.ctl (·.sendError t e)) ∧
    (∀ e, ∃ ms, MessageQueue s e ms ∧ accepted tr e = (handed tr e).map Prod.fst ++ ms) ∧
    ∀ o s', s.Proper o → s.Typed o → Step s o s' → ∀ e, ∀ x ∈ s.handedAt e o,
      s'.message x.2 = .msg x.1 ∧ ∀ n, x.1 = .user n → s'.msgLink x.1 = .task x.2 := by
  obtain ⟨b, hS, hI, hU, hC⟩ := Run.plain (Q := fun tr _ b ↦ Conserved tr b)
    (R := fun s o ↦ s.Proper o ∧ s.Typed o) hb hr hb.conserved hok (fun _ _ h ↦ h.1)
    fun tr s b o s' b' hS hI _ hQ ho _ _ hb' ↦ hQ.step hS hI ho.2 hb'
  refine ⟨fun n hn ↦ ⟨?_, fun t e s' hs ↦ ?_⟩, fun t e s' hs ↦ ?_,
    fun e ↦ ⟨b.mq e, hS.messages e, hC.history e⟩, ?_⟩
  · exact hS.owned_or_queued hI (hC.placed n hn)
  · obtain ⟨b', hb', hS', -⟩ := hS.proper hI hU (o := .reqsend t e (.user n)) ⟨trivial, trivial⟩ hs
    have hself : s.msgLink (.user n) ≠ .msg (.user n) := by
      intro hx
      rcases hS.owned_or_queued hI (hC.placed n hn) with ⟨⟨t, ht⟩, -⟩ | ⟨-, e, ms, hms, hc, -⟩
      · rw [hx] at ht
        cases ht
      · have hq : b.Queued (.user n) :=
          (hS.queued_iff _).mp ⟨e, ms, hms, List.count_pos_iff.mp (by omega)⟩
        rcases hS.msgLink_queued hI hq with hl | ⟨m', hl, hne, -⟩ <;> rw [hx] at hl <;> cases hl
        exact hne rfl
    split
    case isTrue ht => exact hS.delivered hI hS' hb' (.inl ht)
    case isFalse ht => exact hs.refused (not_or.mpr ⟨ht, hself⟩)
  · apply hs.refused
    rw [hS.accepts_iff hI]
    unfold Board.Accepts
    simp [hC.timeOut.2]
  · intro o s' ho hty hs e x hx
    obtain ⟨b', hb', hS', hI', -⟩ := hS.proper hI hU ho hs
    exact hS.handed hI hS' hI' hty hb' hx

/-- A message is handed to a waiting task, which sends it on. -/
theorem messages_of_run_forward : ∃ tr s, Run boot tr s ∧
    tr.map Prod.snd = [.reqcmsg 5 0 24 0, .reqwait 3 7 0, .reqsend 5 7 (.user 0), .wake 3,
      .exitRegion 3, .thaw 3, .reqsend 3 8 (.user 0)] ∧
    (s.Owned (.user 0) ∨ s.QueuedOnce (.user 0)) ∧ MessageQueue s 8 [.user 0] ∧
    accepted tr 8 = (handed tr 8).map Prod.fst ++ [.user 0] := by
  obtain ⟨tr, s, hr, hos, hok, hs⟩ := exists_run (n := 9)
    (c := fun s o ↦ decide o.Plain && match o with
      | .reqsend _ _ (.user n) => decide (timeoutType < s.type (.user n))
      | _ => true)
    (s := boot) (l := [.reqcmsg 5 0 24 0, .reqwait 3 7 0, .reqsend 5 7 (.user 0), .wake 3,
      .exitRegion 3, .thaw 3, .reqsend 3 8 (.user 0)])
    (p := fun s ↦ s.messageHead 8 = .msg (.user 0) ∧ s.msgLink (.user 0) = .null ∧
      s.messageTail 8 = .msg (.user 0)) (by decide +kernel)
  obtain ⟨hhead, hlink, htail⟩ := of_decide_eq_true hs
  have hq : MessageQueue s 8 [.user 0] :=
    Intrusive.Fifo.singleton hhead hlink htail (by simp) (by simp)
  have hf := hr.fresh (fun e ↦ (boot_booted.exchanges e).messageHead) (by rw [hos]; decide)
  have hm := messages_of_run boot_booted hr fun x hx ↦ by
    obtain ⟨hp, ht⟩ := Bool.and_eq_true_iff.mp (hok x hx)
    refine ⟨⟨of_decide_eq_true hp, hf x hx⟩, ?_⟩
    unfold Nucleus.Typed
    split
    · rename_i ho
      rw [ho] at ht
      exact of_decide_eq_true ht
    · trivial
  have hc : ∃ x ∈ tr, x.2.Creates 0 := by
    have hmem : Op.reqcmsg 5 0 24 0 ∈ tr.map Prod.snd := by simp [hos]
    obtain ⟨x, hx, he⟩ := List.mem_map.mp hmem
    exact ⟨x, hx, 5, 24, 0, he⟩
  obtain ⟨ms, hms, hacc⟩ := hm.2.2.1 8
  rw [hms.unique hq] at hacc
  exact ⟨tr, s, hr, hos, (hm.1 0 hc).1, hq, hacc⟩

end YRmx
