import YRmx.Props.Messages
import YRmx.Transition.History

/-!
# The interrupt message of an exchange

Library `YRmx`. The message that is embedded in an interrupt exchange marks itself: its link
leads to itself exactly while it is not queued. `reqisnd` sends it then, and only sets its type
otherwise. `reqsend` and `reqdqmsg` mark it again when it is handed over, the one by its type,
the other by its address, its length and its type.
-/

namespace YRmx

open Transition

/-- `reqsend` is called for user messages with types above `timeout_type`. -/
def Nucleus.Regular (s : Nucleus) (o : Op) : Prop :=
  ∀ t e m, o = .reqsend t e m → ∃ n, m = .user n ∧ timeoutType < s.type (.user n)

/-- The step calls `reqisnd` for the exchange. -/
def Nucleus.Raises (s : Nucleus) (e : ExchId) : Op → Prop
  | .reqisnd _ e' => e' = e
  | .tick => rqDelayExchange = e ∧ s.signals = true
  | _ => False

/-- `reqisnd` has found the interrupt message queued, and it was not handed over since. -/
def Missed (e : ExchId) (tr : List (Nucleus × Op)) : Prop :=
  Since (fun x ↦ x.1.Raises e x.2 ∧ x.1.Queued (.interrupt e))
    (fun x ↦ ∀ u, (.interrupt e, u) ∉ x.1.handedAt e x.2) tr

variable {s₀ s s' : Nucleus} {b b' : Board} {o : Op} {e : ExchId} {m : MsgId} {t u : TaskId}
variable {tr : List (Nucleus × Op)}

/-- Regular sends carry user messages. -/
theorem Nucleus.Regular.typed (h : s.Regular o) : s.Typed o := by
  unfold Nucleus.Typed
  split
  · rename_i t e n
    obtain ⟨n', hn, hty⟩ := h t e _ rfl
    cases hn
    exact hty
  · trivial

namespace Board

/-- The step calls `reqisnd` for the exchange. -/
def Raises (b : Board) (e : ExchId) : Op → Prop
  | .reqisnd _ e' => e' = e
  | .tick => rqDelayExchange = e ∧ b.countDown.2 = true
  | _ => False

/-! ### The type and the length -/

/-- Freezing changes no message. -/
theorem reqfreeze_codes (c : Control) (t : TaskId) (k : Call) :
    (c.reqfreeze t k).type = c.type ∧ (c.reqfreeze t k).length = c.length := by
  obtain ⟨p, z, h, -⟩ := reqfreeze_cases c t k
  rw [h]
  exact ⟨rfl, rfl⟩

/-- The end of `reqwait` changes no message. -/
theorem waitDone_codes (c : Control) (t : TaskId) (e : ExchId) (d : BitVec 16) :
    (c.waitDone t e d).type = c.type ∧ (c.waitDone t e d).length = c.length := by
  unfold Control.waitDone
  split
  · exact reqfreeze_codes c t _
  · exact ⟨rfl, rfl⟩

/-- Time-outs change no message. -/
theorem foldl_expire_codes (ts : List TaskId) (b : Board) :
    (ts.foldl expire b).type = b.type ∧ (ts.foldl expire b).length = b.length := by
  induction ts generalizing b with
  | nil => exact ⟨rfl, rfl⟩
  | cons t ts ih =>
    obtain ⟨hty, hlen⟩ := ih (b.expire t)
    rw [List.foldl_cons, hty, hlen, expire_toControl]
    exact ⟨rfl, rfl⟩

/-- Fetching a message changes its owner only. -/
theorem popMessage_codes (b : Board) (e : ExchId) (t : TaskId) :
    (b.popMessage e t).type = b.type ∧ (b.popMessage e t).length = b.length := by
  unfold popMessage
  split <;> exact ⟨rfl, rfl⟩

/-- A message that is sent keeps its type. -/
theorem Sent.codes (h : Sent b e m b') : b'.type = b.type ∧ b'.length = b.length := by
  cases h <;> exact ⟨rfl, rfl⟩

/-- `reqisnd` sets the type of the interrupt message, by its link. -/
theorem isnd_codes (h : b.isnd t e = .ok b') :
    b'.length = b.length ∧ b'.type = Function.update b.type (.interrupt e)
      (if b.own (.interrupt e) = .msg (.interrupt e) then intType else missedIntType) := by
  rcases isnd_cases h with ⟨hs, hsent⟩ | ⟨hn, rfl⟩
  · obtain ⟨hty, hlen⟩ := hsent.codes
    have hown : b.own (.interrupt e) = .msg (.interrupt e) :=
      (Option.ite_none_right_eq_some.mp hs).1.1
    rw [hty, hlen, if_pos hown]
    exact ⟨rfl, rfl⟩
  · rw [if_neg hn]
    exact ⟨rfl, rfl⟩

private theorem reqwait_codes {d : BitVec 16} (h : b.step (.reqwait t e d) = .ok b') :
    b'.type = b.type ∧ b'.length = b.length := by
  obtain ⟨-, h⟩ := require_bind_eq_ok.mp h
  obtain ⟨-, h⟩ := require_bind_eq_ok.mp h
  by_cases hmq : b.mq e = []
  · obtain rfl := Except.ok.inj ((if_pos hmq).symm.trans h)
    unfold block
    split <;> exact ⟨rfl, rfl⟩
  · obtain rfl := Except.ok.inj ((if_neg hmq).symm.trans h)
    obtain ⟨hty, hlen⟩ := waitDone_codes
      ((b.ctl (·.setExchange t (.exch e))).popMessage e t).toControl t e d
    obtain ⟨hty', hlen'⟩ := popMessage_codes (b.ctl (·.setExchange t (.exch e))) e t
    exact ⟨hty.trans hty', hlen.trans hlen'⟩

private theorem reqdtsk_codes (h : b.step (.reqdtsk t u) = .ok b') :
    b'.type = b.type ∧ b'.length = b.length := by
  obtain ⟨-, h⟩ := require_bind_eq_ok.mp h
  cases h
  have hend : ∀ c : Control, (c.reqdtskEnd t u).type = c.type ∧
      (c.reqdtskEnd t u).length = c.length := fun c ↦ by
    unfold Control.reqdtskEnd
    dsimp only
    split <;> exact ⟨rfl, rfl⟩
  rw [delete]
  refine ⟨(hend _).1.trans ?_, (hend _).2.trans ?_⟩ <;> split
  · exact congrArg Control.type (dropTask_toControl b u)
  · rfl
  · exact congrArg Control.length (dropTask_toControl b u)
  · rfl

private theorem suspension_codes (c : Control) (t u : TaskId) :
    ((c.reqsusp t u).type = c.type ∧ (c.reqsusp t u).length = c.length) ∧
      (c.reqresm u).type = c.type ∧ (c.reqresm u).length = c.length := by
  constructor
  · unfold Control.reqsusp
    split <;> exact ⟨rfl, rfl⟩
  · unfold Control.reqresm
    dsimp only
    split
    · split <;> exact ⟨rfl, rfl⟩
    · exact ⟨rfl, rfl⟩

private theorem quiet_codes (h : b.step o = .ok b') (ho : Quiet o)
    (hn : ∀ t n type, o ≠ .setType t n type) : b'.type = b.type ∧ b'.length = b.length := by
  cases o with
  | setType t n type => exact absurd rfl (hn t n type)
  | wake t =>
    simp only [step_wake, wakeAt] at h
    split at h
    · obtain ⟨-, h⟩ := require_bind_eq_ok.mp h
      cases h
      exact waitDone_codes _ t _ _
    · cases h
  | exitRegion t =>
    simp only [step_exitRegion, exitAt] at h
    split at h <;> cases h
    show (Control.exitRegion b.toControl t _).type = _ ∧
      (Control.exitRegion b.toControl t _).length = _
    rw [exitRegion_eq]
    exact ⟨rfl, rfl⟩
  | heldWake t =>
    simp only [step_heldWake, heldAt] at h
    split at h
    · obtain ⟨-, h⟩ := require_bind_eq_ok.mp h
      cases h
      exact ⟨rfl, rfl⟩
    · cases h
  | thaw t =>
    obtain ⟨-, h⟩ := require_bind_eq_ok.mp h
    unfold thawAt at h
    split at h <;> cases h <;> exact ⟨rfl, rfl⟩
  | reqsusp t u =>
    obtain ⟨-, h⟩ := require_bind_eq_ok.mp h
    cases h
    exact (suspension_codes _ t u).1
  | reqresm t u =>
    obtain ⟨-, h⟩ := require_bind_eq_ok.mp h
    cases h
    exact (suspension_codes _ t u).2
  | reqfreeze t =>
    obtain ⟨-, h⟩ := require_bind_eq_ok.mp h
    cases h
    exact reqfreeze_codes _ t _
  | reqbake t =>
    obtain ⟨-, h⟩ := require_bind_eq_ok.mp h
    cases h
    show (Control.reqbake _).type = _ ∧ (Control.reqbake _).length = _
    unfold Control.reqbake
    split <;> exact ⟨rfl, rfl⟩
  | suspWake | cancelled =>
    obtain ⟨-, h⟩ := require_bind_eq_ok.mp h
    cases h
    exact ⟨rfl, rfl⟩
  | _ => exact ho.elim

private def Coded (b : Board) (o : Op) (b' : Board) (e : ExchId) : Prop :=
  b'.length (.interrupt e) = b.length (.interrupt e) ∧
    (¬ b.Raises e o ∧ b'.type (.interrupt e) = b.type (.interrupt e) ∨
      b.Raises e o ∧ b'.type (.interrupt e) =
        if b.own (.interrupt e) = .msg (.interrupt e) then intType else missedIntType)

private theorem Coded.keep (hn : ¬ b.Raises e o)
    (h : b'.type = b.type ∧ b'.length = b.length) : Coded b o b' e :=
  ⟨congrFun h.2 _, .inl ⟨hn, congrFun h.1 _⟩⟩

private theorem Coded.of_isnd {e' : ExchId} {b₁ : Board} (hr : b.Raises e o ↔ e' = e)
    (hty : b₁.type = b.type) (hlen : b₁.length = b.length) (hown : b₁.own = b.own)
    (h : b₁.isnd t e' = .ok b') : Coded b o b' e := by
  obtain ⟨hlen', hty'⟩ := isnd_codes h
  unfold Coded
  rw [hlen', hlen, hty', hty, hown, hr]
  by_cases he : e' = e
  · subst he
    exact ⟨rfl, .inr ⟨rfl, Function.update_self ..⟩⟩
  · exact ⟨rfl, .inl ⟨he, Function.update_of_ne (by simp [Ne.symm he]) _ _⟩⟩

private theorem Coded.of_tick (h : b.step .tick = .ok b') : Coded b .tick b' e := by
  obtain ⟨-, h⟩ := require_bind_eq_ok.mp h
  have hcd := countDown_eq b
  have hlen : b.countDown.1.length = b.length := by rw [hcd]
  have hty : b.countDown.1.type = b.type := by rw [hcd]
  unfold Board.tick at h
  by_cases hs : b.countDown.2 = true
  · rw [if_pos hs] at h
    exact .of_isnd (and_iff_left hs) hty hlen (by rw [hcd]) h
  · rw [if_neg hs] at h
    cases h
    exact .keep (fun hr ↦ hs hr.2) ⟨hty, hlen⟩

/-- Only `reqisnd` writes the type of an interrupt message, and nothing its length. -/
theorem step_codes (h : b.step o = .ok b') (e : ExchId) :
    b'.length (.interrupt e) = b.length (.interrupt e) ∧
    (¬ b.Raises e o ∧ b'.type (.interrupt e) = b.type (.interrupt e) ∨
      b.Raises e o ∧ b'.type (.interrupt e) =
        if b.own (.interrupt e) = .msg (.interrupt e) then intType else missedIntType) := by
  cases o with
  | reqcmsg t n size now =>
    obtain ⟨-, h⟩ := require_bind_eq_ok.mp h
    cases h
    exact ⟨by simp [initMessage, Control.initMessage],
      .inl ⟨id, by simp [initMessage, Control.initMessage]⟩⟩
  | setType t n type =>
    obtain ⟨-, h⟩ := require_bind_eq_ok.mp h
    cases h
    exact ⟨rfl, .inl ⟨id, by simp [Control.setType]⟩⟩
  | reqsend t e' m =>
    obtain ⟨-, h⟩ := require_bind_eq_ok.mp h
    obtain ⟨-, ⟨-, hs⟩ | ⟨-, rfl⟩⟩ := send_cases h
    · exact Coded.keep id hs.codes
    · exact Coded.keep id (reqfreeze_codes _ t _)
  | reqisnd t e' =>
    obtain ⟨-, h⟩ := require_bind_eq_ok.mp h
    exact Coded.of_isnd .rfl rfl rfl rfl h
  | tick => exact Coded.of_tick h
  | reqwait t e' d => exact Coded.keep id (reqwait_codes h)
  | reqacpt t e' =>
    obtain ⟨-, h⟩ := require_bind_eq_ok.mp h
    obtain ⟨-, h⟩ := require_bind_eq_ok.mp h
    cases h
    exact Coded.keep id (popMessage_codes _ e' t)
  | expiry =>
    obtain ⟨-, h⟩ := require_bind_eq_ok.mp h
    cases h
    exact Coded.keep id (foldl_expire_codes b.expired b)
  | reqdtsk t u => exact Coded.keep id (reqdtsk_codes h)
  | _ => exact Coded.keep id (quiet_codes h trivial (by simp))

/-- Interrupt messages are sent by `reqisnd` alone, to their own exchange. -/
theorem raises_of_sends {x : ExchId} (hreg : ∀ t e m, o = .reqsend t e m → ∃ n, m = .user n)
    (h : b.sends o = some (e, .interrupt x)) : e = x ∧ b.Raises x o := by
  cases o with
  | reqsend t e' m =>
    obtain ⟨n, rfl⟩ := hreg t e' m rfl
    cases (Option.ite_none_right_eq_some.mp h).2
  | reqisnd t e' =>
    cases (Option.ite_none_right_eq_some.mp (Option.ite_none_right_eq_some.mp h).2).2
    exact ⟨rfl, rfl⟩
  | tick =>
    obtain ⟨hs, h⟩ := Option.ite_none_right_eq_some.mp h
    cases (Option.ite_none_right_eq_some.mp h).2
    exact ⟨rfl, rfl, hs.2⟩
  | _ => cases h

/-- A message that a step accepts is one that it sends. -/
theorem mem_acceptedAt : m ∈ b.acceptedAt e o ↔ b.sends o = some (e, m) := by
  unfold acceptedAt
  cases hs : b.sends o with
  | none => simp
  | some y =>
    obtain ⟨e', m'⟩ := y
    by_cases he : e' = e
    · simp [he, eq_comm]
    · simp [he]

/-- A message that is queued after a step was queued there before or is accepted. -/
theorem Inv.queued_before (hI : b.Inv) (h : b.step o = .ok b') (hm : m ∈ b'.mq e) :
    m ∈ b.mq e ∨ b.sends o = some (e, m) := by
  rw [(step_lists hI h e).1] at hm
  rw [← mem_acceptedAt, ← List.mem_append, hI.balance]
  exact List.mem_append_right _ hm

/-- A message that was handed over is not queued at that exchange. -/
theorem Inv.not_queued_of_handed (hI : b.Inv) (h : b.step o = .ok b')
    (hm : (m, u) ∈ b.handedAt e o) : m ∉ b'.mq e := by
  rw [(step_lists hI h e).1]
  rcases handedAt_cases hm with ⟨hs, hu⟩ | ⟨ho, hq⟩
  · obtain ⟨us, hus⟩ : ∃ us, b.tq e = u :: us := List.head?_eq_some_iff.mp hu
    have hmq : b.mq e = [] := (hI.one_empty e).resolve_right (by simp [hus])
    simp [messagesAfter, hs, hmq, hus]
  · obtain ⟨ms, hms⟩ : ∃ ms, b.mq e = m :: ms := List.head?_eq_some_iff.mp hq
    have hd := hI.mq_nodup e
    rw [hms, List.nodup_cons] at hd
    rcases ho with ⟨d, rfl⟩ | rfl <;> simpa [messagesAfter, sends, hms] using hd.1

end Board

/-! ### The mark -/

/-- What is true of the interrupt message of an exchange and the past of a run. -/
structure Marked (x : ExchId) (tr : List (Nucleus × Op)) (b : Board) : Prop where
  length : b.length (.interrupt x) = intExchangeLength
  place : ∀ {e}, .interrupt x ∈ b.mq e → e = x
  idle : ¬ b.Queued (.interrupt x) → b.own (.interrupt x) = .msg (.interrupt x)
  missed : Missed x tr → b.Queued (.interrupt x) ∧ b.type (.interrupt x) = missedIntType
  first : b.Queued (.interrupt x) → ¬ Missed x tr → b.type (.interrupt x) = intType

variable {x : ExchId}

/-- Both sides agree about `reqisnd`. -/
theorem Sim.raises_iff (h : Sim s b) (hI : b.Inv) : s.Raises x o ↔ b.Raises x o := by
  unfold Nucleus.Raises Board.Raises
  rw [h.signals_eq hI]

/-- One more step of a run. -/
theorem Sim.missed_snoc (h : Sim s b) (hI : b.Inv) :
    Missed x (tr ++ [(s, o)]) ↔ b.Raises x o ∧ b.Queued (.interrupt x) ∨
      Missed x tr ∧ ∀ u, (.interrupt x, u) ∉ b.handedAt x o := by
  unfold Missed
  rw [since_snoc, h.raises_iff hI, h.queued_iff, h.handedAt_eq hI]

/-- A booted system has its interrupt messages marked. -/
theorem Booted.marked (h : Booted s) (x : ExchId) : Marked x [] s.board where
  length := (h.interrupts x).2.1
  place hm := absurd hm List.not_mem_nil
  idle _ := (h.interrupts x).1
  missed hm := absurd hm not_since_nil
  first := fun ⟨_, hm⟩ ↦ absurd hm List.not_mem_nil

/-- What the type of a queued message says still holds after a step that leaves it queued. -/
theorem Marked.stays (h : Marked x tr b) (hS : Sim s b) (hI : b.Inv) (hb : b.step o = .ok b')
    (hq : b.Queued (.interrupt x)) (hq' : .interrupt x ∈ b'.mq x) :
    (Missed x (tr ++ [(s, o)]) → b'.type (.interrupt x) = missedIntType) ∧
    (¬ Missed x (tr ++ [(s, o)]) → b'.type (.interrupt x) = intType) := by
  have hown : b.own (.interrupt x) ≠ .msg (.interrupt x) := by
    obtain ⟨e, he⟩ := hq
    simp [hI.own_queued he]
  have hh : ∀ u, (.interrupt x, u) ∉ b.handedAt x o := fun u hu ↦
    hI.not_queued_of_handed hb hu hq'
  rw [hS.missed_snoc hI]
  rcases (Board.step_codes hb x).2 with ⟨hr, hty⟩ | ⟨hr, hty⟩
  · rw [hty]
    refine ⟨fun hm ↦ ?_, fun hm ↦ h.first hq fun hx ↦ hm (.inr ⟨hx, hh⟩)⟩
    exact (h.missed (hm.resolve_left fun hx ↦ hr hx.1).1).2
  · rw [hty, if_neg hown]
    exact ⟨fun _ ↦ rfl, fun hm ↦ absurd (.inl ⟨hr, hq⟩) hm⟩

/-- An interrupt message is sent with the type of a single interrupt. -/
theorem Marked.sent (h : Marked x tr b) (hI : b.Inv) (hreg : s.Regular o)
    (hb : b.step o = .ok b') (hs : b.sends o = some (e, .interrupt x)) :
    b'.type (.interrupt x) = intType := by
  have hr : b.Raises x o :=
    (Board.raises_of_sends (fun t e m ho ↦ (hreg t e m ho).imp fun _ hn ↦ hn.1) hs).2
  rcases (Board.step_codes hb x).2 with ⟨hn, -⟩ | ⟨-, hty⟩
  · exact absurd hr hn
  · rw [hty, if_pos (h.idle (hI.not_queued_of_sends hs))]

/-- Every step keeps the mark. -/
theorem Marked.step (h : Marked x tr b) (hS : Sim s b) (hI : b.Inv) (hreg : s.Regular o)
    (hb : b.step o = .ok b') : Marked x (tr ++ [(s, o)]) b' := by
  have hsend : ∀ {e}, b.sends o = some (e, .interrupt x) → e = x ∧ b.Raises x o :=
    Board.raises_of_sends fun t e m ho ↦ (hreg t e m ho).imp fun _ hn ↦ hn.1
  have hplace : ∀ {e}, .interrupt x ∈ b'.mq e → e = x := fun hm ↦
    (hI.queued_before hb hm).elim h.place fun hs ↦ (hsend hs).1
  have hmem : b'.Queued (.interrupt x) → .interrupt x ∈ b'.mq x := fun ⟨e, he⟩ ↦
    hplace he ▸ he
  have hlen := (Board.step_codes hb x).1.trans h.length
  -- an interrupt message that was not queued was not missed either
  have hnew : ¬ b.Queued (.interrupt x) → ¬ Missed x (tr ++ [(s, o)]) := fun hq ↦ by
    rw [hS.missed_snoc hI]
    rintro (⟨-, hx⟩ | ⟨hx, -⟩)
    · exact hq hx
    · exact hq (h.missed hx).1
  have hint : ∀ {e}, b.sends o = some (e, .interrupt x) → b'.type (.interrupt x) = intType :=
    h.sent hI hreg hb
  cases Board.step_message hI hb (.interrupt x) with
  | kept hown hq =>
    refine ⟨hlen, hplace, fun hn ↦ hown.trans (h.idle fun hx ↦ hn (hq.mpr hx)), fun hm ↦ ?_, ?_⟩
    · have hx : b.Queued (.interrupt x) := not_not.mp fun hx ↦ hnew hx hm
      exact ⟨hq.mpr hx, (h.stays hS hI hb hx (hmem (hq.mpr hx))).1 hm⟩
    · exact fun hx ↦ (h.stays hS hI hb (hq.mp hx) (hmem hx)).2
  | created _ _ _ _ _ hm => cases hm
  | queued e hs hq =>
    have hn := hI.not_queued_of_sends hs
    exact ⟨hlen, hplace, fun hx ↦ absurd hq hx, fun hm ↦ absurd hm (hnew hn), fun _ _ ↦ hint hs⟩
  | handed e u hs hu hown _ hq =>
    have hn := hI.not_queued_of_sends hs
    rw [hint hs, if_neg (by decide)] at hown
    exact ⟨hlen, hplace, fun _ ↦ hown, fun hm ↦ absurd hm (hnew hn), fun hx ↦ absurd hx hq⟩
  | fetched t e ho hm hown hq =>
    have hx : b.Queued (.interrupt x) := ⟨e, List.mem_of_mem_head? hm⟩
    obtain rfl : e = x := h.place (List.mem_of_mem_head? hm)
    have hty : b.type (.interrupt e) < timeoutType := by
      by_cases hx' : Missed e tr
      · rw [(h.missed hx').2]
        decide
      · rw [h.first hx hx']
        decide
    rw [if_pos ⟨rfl, h.length, hty⟩] at hown
    refine ⟨hlen, hplace, fun _ ↦ hown, fun hm' ↦ ?_, fun hx ↦ absurd hx hq⟩
    have hh : (.interrupt e, t) ∈ b.handedAt e o := by
      rcases ho with ⟨d, rfl⟩ | rfl <;> simp [Board.handedAt, Board.sends, hm]
    rw [hS.missed_snoc hI] at hm'
    rcases hm' with ⟨hr, -⟩ | ⟨-, hn⟩
    · rcases ho with ⟨d, rfl⟩ | rfl <;> exact hr.elim
    · exact absurd hh (hn t)

/-- The type of an interrupt message that is handed over says whether another was missed. -/
theorem Marked.handed (h : Marked x tr b) (hI : b.Inv) (hreg : s.Regular o)
    (hb : b.step o = .ok b') (hm : (.interrupt x, u) ∈ b.handedAt x o) :
    (Missed x tr → b'.type (.interrupt x) = missedIntType) ∧
    (¬ Missed x tr → b'.type (.interrupt x) = intType) := by
  rcases Board.handedAt_cases hm with ⟨hs, -⟩ | ⟨ho, hq⟩
  · have hn : ¬ Missed x tr := fun hx ↦ hI.not_queued_of_sends hs (h.missed hx).1
    exact ⟨fun hx ↦ absurd hx hn, fun _ ↦ h.sent hI hreg hb hs⟩
  · have hr : ¬ b.Raises x o := by
      rcases ho with ⟨d, rfl⟩ | rfl <;> exact id
    obtain ⟨-, hty⟩ := (Board.step_codes hb x).2.resolve_right fun hx ↦ hr hx.1
    rw [hty]
    exact ⟨fun hx ↦ (h.missed hx).2, h.first ⟨x, List.mem_of_mem_head? hq⟩⟩

/-- `reqisnd` of a queued message only sets its type, and delivers it otherwise. -/
theorem Marked.reqisnd (h : Marked x tr b) (hS : Sim s b) (hI : b.Inv) (hS' : Sim s' b')
    (hb : b.step (.reqisnd t x) = .ok b') (hs : Step s (.reqisnd t x) s') :
    if .interrupt x ∈ b.mq x then s' = s.ctl (·.setType (.interrupt x) missedIntType)
    else Delivered s x (.interrupt x) s' ∧ s'.type (.interrupt x) = intType := by
  have hreg : s.Regular (.reqisnd t x) := fun _ _ _ ho ↦ by cases ho
  obtain ⟨hp, hb'⟩ := require_bind_eq_ok.mp hb
  split
  case isTrue hq =>
    have hown : s.msgLink (.interrupt x) ≠ .msg (.interrupt x) := by
      rw [Ne, hS.selfLinked_iff hI, hI.own_queued hq]
      simp
    obtain ⟨n, hs⟩ := hs
    obtain ⟨-, hs⟩ := require_bind_eq_ok.mp hs
    rw [YRmx.reqisnd, if_neg hown] at hs
    exact (Except.ok.inj hs).symm
  case isFalse hq =>
    have hn : ¬ b.Queued (.interrupt x) := fun ⟨e, he⟩ ↦ hq (h.place he ▸ he)
    have hsend : b.sends (.reqisnd t x) = some (x, .interrupt x) := by
      rcases Board.isnd_cases hb' with ⟨hx, -⟩ | ⟨hx, -⟩
      · exact (if_pos hp).trans hx
      · exact absurd (h.idle hn) hx
    refine ⟨hS.delivered_of_sends hI hS' hb hsend, ?_⟩
    rw [hS'.type_eq]
    exact h.sent hI hreg hb hsend

/-- In every state of a plain run with regular sends, the interrupt message of an exchange is
queued there at most once and linked to itself exactly while it is not queued; `reqisnd` sets its
type while it is queued and delivers it otherwise; it is handed over marked again, with a type
that says whether `reqisnd` has found it queued; and user messages keep their order and owners. -/
theorem interrupts_of_run (hb : Booted s₀) (hr : Run s₀ tr s)
    (hok : ∀ x ∈ tr, x.1.Proper x.2 ∧ x.1.Regular x.2) (x : ExchId) :
    (∃ ms, MessageQueue s x ms ∧ accepted tr x = (handed tr x).map Prod.fst ++ ms ∧
      ms.count (.interrupt x) ≤ 1 ∧
      (s.msgLink (.interrupt x) = .msg (.interrupt x) ↔ .interrupt x ∉ ms) ∧
      ∀ t s', Step s (.reqisnd t x) s' →
        if .interrupt x ∈ ms then s' = s.ctl (·.setType (.interrupt x) missedIntType)
        else Delivered s x (.interrupt x) s' ∧ s'.type (.interrupt x) = intType) ∧
    (∀ o s', s.Proper o → s.Regular o → Step s o s' →
      (∀ u, (.interrupt x, u) ∈ s.handedAt x o →
        s'.message u = .msg (.interrupt x) ∧ s'.msgLink (.interrupt x) = .msg (.interrupt x) ∧
        (Missed x tr → s'.type (.interrupt x) = missedIntType) ∧
        (¬ Missed x tr → s'.type (.interrupt x) = intType)) ∧
      ∀ n u, (.user n, u) ∈ s.handedAt x o →
        s'.message u = .msg (.user n) ∧ s'.msgLink (.user n) = .task u) ∧
    ∀ n, (∃ t, s₀.msgLink (.user n) = .task t) ∨ (∃ y ∈ tr, y.2.Creates n) →
      s.Owned (.user n) ∨ s.QueuedOnce (.user n) := by
  obtain ⟨b, hS, hI, hU, hC, hP, hM⟩ := Run.plain
    (Q := fun tr _ b ↦ Conserved tr b ∧
      (∀ n, (∃ t, s₀.msgLink (.user n) = .task t) →
        b.Queued (.user n) ∨ ∃ t, b.own (.user n) = .task t) ∧ Marked x tr b)
    (R := fun s o ↦ s.Proper o ∧ s.Regular o) hb hr
    ⟨hb.conserved, fun _ hn ↦ .inr hn, hb.marked x⟩ hok (fun _ _ h ↦ h.1)
    fun tr s b o s' b' hS hI _ hQ ho _ _ hb' ↦
      ⟨hQ.1.step hS hI ho.2.typed hb', fun n hn ↦ hS.placed hI ho.2.typed hb' (hQ.2.1 n hn),
        hQ.2.2.step hS hI ho.2 hb'⟩
  refine ⟨⟨b.mq x, hS.messages x, hC.history x, ?_⟩, fun o s' ho hreg hs ↦ ?_, fun n hn ↦ ?_⟩
  · refine ⟨List.nodup_iff_count_le_one.mp (hI.mq_nodup x) _, ?_, fun t s' hs ↦ ?_⟩
    · rw [hS.selfLinked_iff hI]
      constructor
      · intro hown hx
        rw [hI.own_queued hx] at hown
        cases hown
      · exact fun hx ↦ hM.idle fun ⟨e, he⟩ ↦ hx (hM.place he ▸ he)
    · obtain ⟨b', hb', hS', -⟩ := hS.proper hI hU (o := .reqisnd t x) ⟨trivial, trivial⟩ hs
      exact hM.reqisnd hS hI hS' hb' hs
  · obtain ⟨b', hb', hS', hI', -⟩ := hS.proper hI hU ho hs
    refine ⟨fun u hu ↦ ?_, fun n u hu ↦ ?_⟩
    · have hM' := hM.step hS hI hreg hb'
      have hu' := hS.handedAt_eq hI x o ▸ hu
      have hn : ¬ b'.Queued (.interrupt x) := fun ⟨e, he⟩ ↦
        hI.not_queued_of_handed hb' hu' (hM'.place he ▸ he)
      refine ⟨(hS.handed hI hS' hI' hreg.typed hb' hu).1, ?_, ?_⟩
      · rw [hS'.selfLinked_iff hI']
        exact hM'.idle hn
      · rw [hS'.type_eq]
        exact hM.handed hI hreg hb' hu'
    · obtain ⟨hmsg, hown⟩ := hS.handed hI hS' hI' hreg.typed hb' hu
      exact ⟨hmsg, hown n rfl⟩
  · exact hS.owned_or_queued hI (hn.elim (hP n) (hC.placed n))

/-- Messages that are sent are user messages with a type of their own. -/
def Nucleus.sendsUser (s : Nucleus) : Op → Bool
  | .reqsend _ _ (.user n) => decide (timeoutType < s.type (.user n))
  | .reqsend _ _ _ => false
  | _ => true

/-- An interrupt is missed while its message is queued in front of a user message. -/
theorem interrupts_of_run_missed : ∃ tr s, Run boot tr s ∧
    tr.map Prod.snd = [.reqcmsg 5 0 24 0, .reqisnd 5 7, .reqsend 5 7 (.user 0), .reqisnd 6 7,
      .reqacpt 3 7] ∧
    MessageQueue s 7 [.user 0] ∧ s.msgLink (.interrupt 7) = .msg (.interrupt 7) ∧
    accepted tr 7 = (handed tr 7).map Prod.fst ++ [.user 0] := by
  obtain ⟨tr, s, hr, hos, hok, hs⟩ := exists_run (n := 9)
    (c := fun s o ↦ decide o.Plain && s.sendsUser o)
    (s := boot) (l := [.reqcmsg 5 0 24 0, .reqisnd 5 7, .reqsend 5 7 (.user 0), .reqisnd 6 7,
      .reqacpt 3 7])
    (p := fun s ↦ s.messageHead 7 = .msg (.user 0) ∧ s.msgLink (.user 0) = .null ∧
      s.messageTail 7 = .msg (.user 0)) (by decide +kernel)
  obtain ⟨hhead, hlink, htail⟩ := of_decide_eq_true hs
  have hq : MessageQueue s 7 [.user 0] :=
    Intrusive.Fifo.singleton hhead hlink htail (by simp) (by simp)
  have hf := hr.fresh (fun e ↦ (boot_booted.exchanges e).messageHead) (by rw [hos]; decide)
  obtain ⟨⟨ms, hms, hacc, -, hlinked, -⟩, -⟩ := interrupts_of_run boot_booted hr (fun x hx ↦ by
    obtain ⟨hp, ht⟩ := Bool.and_eq_true_iff.mp (hok x hx)
    refine ⟨⟨of_decide_eq_true hp, hf x hx⟩, fun t e m ho ↦ ?_⟩
    rw [ho] at ht
    cases m with
    | user n => exact ⟨n, rfl, of_decide_eq_true ht⟩
    | _ => cases ht) 7
  rw [hms.unique hq] at hacc hlinked
  exact ⟨tr, s, hr, hos, hq, hlinked.mpr (by simp), hacc⟩

end YRmx
