import YRmx.Yalrt.Progress

/-!
# Messages between tasks and handlers

Library `YRmx`. At every exchange the messages that were accepted, from tasks and from the drain
of the interrupts, are those that were handed over, in that order, followed by those that are
queued; and only the task to which a message was handed last can send it.
-/

namespace YRmx

open Transition Intrusive Priority

variable {s s' s₀ : Yalrt} {p : Plan} {xs : List TaskId} {t : TaskId} {e : ExchId} {m : MsgId}
  {o : YalrtOp} {tr : List (Yalrt × YalrtOp)}

namespace Yalrt

/-- The first task that waits at the exchange. -/
def firstTask (s : Yalrt) (e : ExchId) : Option TaskId :=
  match s.taskHead e with
  | .task t => some t
  | _ => none

/-- The first message that is queued at the exchange. -/
def firstMessage (s : Yalrt) (e : ExchId) : Option MsgId :=
  match s.messageHead e with
  | .msg m => some m
  | _ => none

/-- The message that a step sends, with its exchange: that of a task, or that of an interrupt
which is not recorded as missed. -/
def sends (s : Yalrt) : YalrtOp → Option (ExchId × MsgId)
  | .reqsend e m => some (e, m)
  | .deliver =>
    if s.taskHead s.qIntMsg ≠ .null ∨ s.Marked s.qIntMsg then
      some (s.qIntMsg, .interrupt s.qIntMsg)
    else none
  | _ => none

/-- The exchange at which the running task looks for a message. -/
def fetches : YalrtOp → Option ExchId
  | .reqacpt e | .reqwait e _ => some e
  | _ => none

/-- The messages that a step accepts for an exchange. -/
def acceptedAt (s : Yalrt) (e : ExchId) (o : YalrtOp) : List MsgId :=
  match s.sends o with
  | some (e', m) => if e' = e then [m] else []
  | none => []

/-- The messages that a step hands over at an exchange, with their receivers. -/
def handedAt (s : Yalrt) (e : ExchId) (o : YalrtOp) : List (MsgId × TaskId) :=
  match s.sends o with
  | some (e', m) => if e' = e then (s.firstTask e).toList.map (m, ·) else []
  | none => if fetches o = some e then (s.firstMessage e).toList.map (·, s.rqactv) else []

/-- The messages that the steps of a run accepted for an exchange. -/
def accepted (tr : List (Yalrt × YalrtOp)) (e : ExchId) : List MsgId :=
  tr.flatMap fun x ↦ x.1.acceptedAt e x.2

/-- The messages that the steps of a run handed over at an exchange, with their receivers. -/
def handed (tr : List (Yalrt × YalrtOp)) (e : ExchId) : List (MsgId × TaskId) :=
  tr.flatMap fun x ↦ x.1.handedAt e x.2

end Yalrt

namespace Plan

/-- The message that an act sends, with its exchange. -/
def sends (p : Plan) : Act → Option (ExchId × MsgId)
  | .reqsend e m => if p.Accepts m then some (e, m) else none
  | .deliver =>
    match p.taken with
    | some e => if p.tq e ≠ [] ∨ p.Free e then some (e, .interrupt e) else none
    | none => none
  | _ => none

/-- The messages that an act takes from a queue. -/
def fetched (p : Plan) : Act → Option (ExchId × MsgId)
  | .reqacpt e | .reqwait e _ => (p.mq e).head?.map (e, ·)
  | _ => none

/-- The queues of messages after an act. -/
theorem step_mq (p : Plan) (a : Act) (e : ExchId) :
    (p.step a).mq e =
      match p.sends a with
      | some (e', m) => if e' = e ∧ p.tq e = [] then p.mq e ++ [m] else p.mq e
      | none =>
        match p.fetched a with
        | some (e', _) => if e' = e then (p.mq e).tail else p.mq e
        | none => p.mq e := by
  have hsend : ∀ (q : Plan) e' m owner, q.tq = p.tq → q.mq = p.mq → (q.send e' m owner).mq e =
      if e' = e ∧ p.tq e = [] then p.mq e ++ [m] else p.mq e := by
    intro q e' m owner hq hm
    rw [send]
    by_cases he : e' = e
    · subst he
      cases ht : q.tq e' with
      | nil => simp [← hq, ht, hm]
      | cons t ts => simp [← hq, ht, give, wake, hm]
    · cases ht : q.tq e' with
      | nil => simp [he, Ne.symm he, hm]
      | cons t ts => simp [he, give, wake, hm]
  have hreceive : ∀ e', (p.receive e').mq e =
      match (p.mq e').head?.map (e', ·) with
      | some (e', _) => if e' = e then (p.mq e).tail else p.mq e
      | none => p.mq e := by
    intro e'
    rw [receive]
    cases hM : p.mq e' with
    | nil => rfl
    | cons m ms =>
      by_cases he : e' = e
      · subst he
        simp [hM]
      · simp [he, Ne.symm he]
  cases a with
  | reqsend e' m =>
    by_cases ha : p.Accepts m
    · simp only [step, sends, if_pos ha]
      exact hsend p e' m _ rfl rfl
    · simp only [step, sends, if_neg ha, fetched]
  | deliver =>
    simp only [step, sends, fetched]
    cases ht : p.taken with
    | none => rfl
    | some e' =>
      simp only [deliver]
      by_cases hx : p.tq e' ≠ [] ∨ p.Free e'
      · simp only [if_pos hx]
        exact hsend _ e' _ _ rfl rfl
      · simp only [if_neg hx]
  | reqacpt e' => exact hreceive e'
  | reqwait e' d =>
    simp only [step]
    split
    · rename_i hM
      simp [sends, fetched, hM, block]
    · exact hreceive e'
  | reqsusp t =>
    simp only [step, sends, fetched]
    split
    · rfl
    · split <;> rfl
  | reqresm t =>
    simp only [step, sends, fetched]
    split <;> rfl
  | expire =>
    simp only [step, sends, fetched]
    split <;> rfl
  | switch =>
    simp only [step, sends, fetched]
    split <;> rfl
  | interrupt e' =>
    simp only [step, sends, fetched]
    split <;> rfl
  | tick =>
    simp only [step]
    split <;> rfl
  | pop | fetch | silent => rfl

/-- The messages that an act accepts for an exchange. -/
def acceptedAt (p : Plan) (e : ExchId) (a : Act) : List MsgId :=
  match p.sends a with
  | some (e', m) => if e' = e then [m] else []
  | none => []

/-- The messages that an act hands over at an exchange, with their receivers. -/
def handedAt (p : Plan) (e : ExchId) (a : Act) : List (MsgId × TaskId) :=
  match p.sends a with
  | some (e', m) => if e' = e then (p.tq e).head?.toList.map (m, ·) else []
  | none =>
    match p.fetched a with
    | some (e', m) => if e' = e then [(m, p.rqactv)] else []
    | none => []

variable {a : Act}

/-- The first message of its queue is fetched. -/
theorem head_of_fetched (h : p.fetched a = some (e, m)) : (p.mq e).head? = some m := by
  cases a with
  | reqacpt e' | reqwait e' _ =>
    obtain ⟨m', hm, hx⟩ := Option.map_eq_some_iff.mp h
    obtain ⟨rfl, rfl⟩ := Prod.mk.inj hx
    exact hm
  | _ => cases h

/-- What is accepted goes behind the queue, and what is handed over is in front of it, if no
message is queued where a task waits. -/
theorem mq_step (p : Plan) (a : Act) (e : ExchId) (hx : p.tq e ≠ [] → p.mq e = []) :
    p.mq e ++ p.acceptedAt e a = (p.handedAt e a).map Prod.fst ++ (p.step a).mq e := by
  rw [step_mq, acceptedAt, handedAt]
  cases hs : p.sends a with
  | some x =>
    obtain ⟨e', m⟩ := x
    dsimp only
    by_cases he : e' = e
    · subst he
      rw [if_pos rfl, if_pos rfl]
      cases ht : p.tq e' with
      | nil => simp
      | cons t ts => simp [hx (by simp [ht])]
    · simp [he]
  | none =>
    cases hf : p.fetched a with
    | some x =>
      obtain ⟨e', m⟩ := x
      dsimp only
      by_cases he : e' = e
      · subst he
        obtain ⟨ms, hM⟩ := List.head?_eq_some_iff.mp (head_of_fetched hf)
        simp [hM]
      · simp [he]
    | none => simp

/-- Handing a message over. -/
theorem send_message (owner : TaskId → Addr) {ts : List TaskId} (h : p.tq e = t :: ts) :
    (p.send e m owner).message t = .msg m ∧
      (p.send e m owner).own = Function.update p.own m (owner t) := by
  simp [send, h, give, wake]

/-- What is handed over is stored in its receiver, which is then the owner if the message belongs
to no exchange. -/
theorem handed_step {x : MsgId × TaskId} (h : x ∈ p.handedAt e a) :
    (p.step a).message x.2 = .msg x.1 ∧
      ((∀ e', x.1 ≠ .interrupt e') → (p.step a).own x.1 = .task x.2) := by
  rw [handedAt] at h
  cases hs : p.sends a with
  | some y =>
    obtain ⟨e', m⟩ := y
    simp only [hs] at h
    split at h
    · rename_i he
      subst he
      obtain ⟨t, ht, rfl⟩ := List.mem_map.mp h
      obtain ⟨ts, hq⟩ := List.head?_eq_some_iff.mp (Option.mem_toList.mp ht)
      cases a with
      | reqsend e₁ m₁ =>
        simp only [sends] at hs
        split at hs
        · rename_i ha
          obtain ⟨rfl, rfl⟩ := Prod.mk.inj (Option.some.inj hs)
          simp only [step, if_pos ha]
          obtain ⟨hmsg, hown⟩ := send_message (p := p) (m := m₁) .task hq
          exact ⟨hmsg, fun _ ↦ by rw [hown, Function.update_self]⟩
        · cases hs
      | deliver =>
        simp only [sends] at hs
        cases hk : p.taken with
        | none => simp [hk] at hs
        | some e₁ =>
          simp only [hk] at hs
          split at hs
          · rename_i hx
            obtain ⟨rfl, rfl⟩ := Prod.mk.inj (Option.some.inj hs)
            simp only [step, hk, deliver, if_pos hx]
            refine ⟨(send_message (p := { p with
              taken := none
              type := Function.update p.type (.interrupt e₁) intType }) _ hq).1,
              fun hn ↦ absurd rfl (hn e₁)⟩
          · cases hs
      | _ => cases hs
    · cases h
  | none =>
    simp only [hs] at h
    cases hf : p.fetched a with
    | none => simp [hf] at h
    | some y =>
      obtain ⟨e', m⟩ := y
      simp only [hf] at h
      split at h
      · obtain rfl := List.mem_singleton.mp h
        obtain ⟨ms, hM⟩ := List.head?_eq_some_iff.mp (head_of_fetched hf)
        have hreceive : p.step a = p.receive e' := by
          cases a with
          | reqacpt e₁ =>
            obtain ⟨m', -, hx⟩ := Option.map_eq_some_iff.mp hf
            rw [← (Prod.mk.inj hx).1]
            rfl
          | reqwait e₁ d =>
            obtain ⟨m', hm', hx⟩ := Option.map_eq_some_iff.mp hf
            obtain rfl := (Prod.mk.inj hx).1
            rw [step, if_neg (by rw [hM]; simp)]
          | _ => cases hf
        rw [hreceive]
        simp only [receive, hM]
        refine ⟨Function.update_self .., fun hn ↦ ?_⟩
        rw [Function.update_self, if_neg fun hx ↦ hn e' hx.1]
      · cases h

/-- The owner of a message only changes when the message is sent or handed over. -/
theorem own_step (hacc : ∀ e, m ∉ p.acceptedAt e a) (hh : ∀ e t, (m, t) ∉ p.handedAt e a) :
    (p.step a).own m = p.own m := by
  have hsend : ∀ (q : Plan) e' m' owner, q.own = p.own → m' ≠ m →
      (q.send e' m' owner).own m = p.own m := by
    intro q e' m' owner hq hne
    rw [send]
    split <;> simp [give, wake, Ne.symm hne, hq]
  have hreceive : ∀ e', p.sends a = none → p.fetched a = (p.mq e').head?.map (e', ·) →
      (p.receive e').own m = p.own m := by
    intro e' hs hf
    rw [receive]
    cases hM : p.mq e' with
    | nil => rfl
    | cons m' ms =>
      have hne : m ≠ m' := by
        rintro rfl
        apply hh e' p.rqactv
        simp [handedAt, hs, hf, hM]
      simp [hne]
  cases a with
  | reqsend e' m' =>
    simp only [step]
    split
    · rename_i ha
      apply hsend p e' m' _ rfl
      rintro rfl
      exact hacc e' (by simp [acceptedAt, sends, ha])
    · rfl
  | deliver =>
    simp only [step]
    cases hk : p.taken with
    | none => rfl
    | some e' =>
      simp only [deliver]
      split
      · rename_i hx
        refine hsend _ e' _ _ rfl ?_
        rintro rfl
        exact hacc e' (by simp only [acceptedAt, sends, hk, if_pos hx]; simp)
      · rfl
  | reqacpt e' => exact hreceive e' rfl rfl
  | reqwait e' d =>
    simp only [step]
    split
    · rfl
    · exact hreceive e' rfl rfl
  | reqsusp t =>
    simp only [step]
    split
    · rfl
    · split <;> rfl
  | reqresm t =>
    simp only [step]
    split <;> rfl
  | expire =>
    simp only [step]
    split <;> rfl
  | switch =>
    simp only [step]
    split <;> rfl
  | interrupt e' =>
    simp only [step]
    split <;> rfl
  | tick =>
    simp only [step]
    split <;> rfl
  | pop | fetch | silent => rfl

/-- A message that is accepted and not handed over is queued and has no owner. -/
theorem accepted_step (ha : m ∈ p.acceptedAt e a) (hh : ∀ t, (m, t) ∉ p.handedAt e a) :
    (p.step a).own m = .null := by
  rw [acceptedAt] at ha
  cases hs : p.sends a with
  | none => simp [hs] at ha
  | some y =>
    obtain ⟨e', m'⟩ := y
    simp only [hs] at ha
    split at ha
    · rename_i he
      subst he
      obtain rfl := List.mem_singleton.mp ha
      have hq : p.tq e' = [] := by
        cases hq : p.tq e' with
        | nil => rfl
        | cons t ts => exact absurd (by simp [handedAt, hs, hq]) (hh t)
      cases a with
      | reqsend e₁ m₁ =>
        simp only [sends] at hs
        split at hs
        · rename_i hx
          obtain ⟨rfl, rfl⟩ := Prod.mk.inj (Option.some.inj hs)
          simp [step, hx, send, hq]
        · cases hs
      | deliver =>
        simp only [sends] at hs
        cases hk : p.taken with
        | none => simp [hk] at hs
        | some e₁ =>
          simp only [hk] at hs
          split at hs
          · rename_i hx
            obtain ⟨rfl, rfl⟩ := Prod.mk.inj (Option.some.inj hs)
            simp only [step, hk, deliver, if_pos hx]
            simp [send, hq]
          · cases hs
      | _ => cases hs
    · cases ha

/-- Without being sent, a message that has an owner is not handed over. -/
theorem not_handed (hq : ∀ e, m ∈ p.mq e → p.own m = .null) (ho : p.own m ≠ .null)
    (hacc : ∀ e, m ∉ p.acceptedAt e a) (e : ExchId) (t : TaskId) : (m, t) ∉ p.handedAt e a := by
  intro hx
  rw [handedAt] at hx
  cases hs : p.sends a with
  | some y =>
    obtain ⟨e', m'⟩ := y
    simp only [hs] at hx
    split at hx
    · rename_i he
      obtain ⟨u, -, hu⟩ := List.mem_map.mp hx
      apply hacc e
      simp [acceptedAt, hs, he, (Prod.mk.inj hu).1]
    · cases hx
  | none =>
    simp only [hs] at hx
    cases hf : p.fetched a with
    | none => simp [hf] at hx
    | some y =>
      obtain ⟨e', m'⟩ := y
      simp only [hf] at hx
      split at hx
      · obtain ⟨rfl, -⟩ := Prod.mk.inj (List.mem_singleton.mp hx)
        exact ho (hq e' (List.mem_of_mem_head? (head_of_fetched hf)))
      · cases hx

end Plan

namespace Yalrt

namespace Follows

/-- The first task of a task queue. -/
theorem firstTask_eq (h : Follows s p) (e : ExchId) : s.firstTask e = (p.tq e).head? := by
  have hh : s.taskHead e = _ := (h.kept.lists.waits e).head_eq
  rw [firstTask, hh]
  cases p.tq e <;> rfl

/-- The first message of a queue. -/
theorem firstMessage_eq (h : Follows s p) (e : ExchId) : s.firstMessage e = (p.mq e).head? := by
  have hh : s.messageHead e = _ := (h.posted.queues e).head_eq
  rw [firstMessage, hh]
  cases p.mq e <;> rfl

/-- Both sides send the same. -/
theorem sends_eq (h : Follows s p) (hs : Step s o s') : p.sends (s.act o) = s.sends o := by
  have he := hs.enabled
  cases o with
  | reqsend e m => simp only [act, Plan.sends, sends, if_pos (h.accepts_iff.mp he.2)]
  | deliver =>
    have ht := h.signals.taken
    rw [inFlight, he.1] at ht
    obtain hk : p.taken = some s.qIntMsg := by
      cases hp : p.taken with
      | none => simp [hp] at ht
      | some x => simpa [hp, eq_comm] using ht
    have hiff : (p.tq s.qIntMsg ≠ [] ∨ p.Free s.qIntMsg) ↔
        (s.taskHead s.qIntMsg ≠ .null ∨ s.Marked s.qIntMsg) :=
      or_congr (not_congr h.head_null.symm) h.marked_iff.symm
    simp only [act, Plan.sends, sends, hk]
    exact if_congr hiff rfl rfl
  | irq i =>
    simp only [act, sends]
    split <;> rfl
  | _ => rfl

/-- Both sides accept the same. -/
theorem acceptedAt_eq (h : Follows s p) (hs : Step s o s') (e : ExchId) :
    p.acceptedAt e (s.act o) = s.acceptedAt e o := by
  rw [Plan.acceptedAt, acceptedAt, h.sends_eq hs]

/-- Both sides fetch the same. -/
theorem fetched_eq (h : Follows s p) (e : ExchId) :
    (match p.fetched (s.act o) with
      | some (e', m) => if e' = e then [(m, p.rqactv)] else []
      | none => []) =
      if fetches o = some e then (s.firstMessage e).toList.map (·, s.rqactv) else [] := by
  have hfetch : ∀ e', (match (p.mq e').head?.map (e', ·) with
      | some (e', m) => if e' = e then [(m, p.rqactv)] else []
      | none => []) =
      if e' = e then (s.firstMessage e).toList.map (·, s.rqactv) else [] := by
    intro e'
    by_cases he : e' = e
    · subst he
      rw [if_pos rfl, h.firstMessage_eq, h.rqactv]
      cases p.mq e' <;> simp
    · rw [if_neg he]
      cases p.mq e' <;> simp [he]
  cases o with
  | reqacpt e' | reqwait e' _ =>
    simp only [act, Plan.fetched, fetches, Option.some.injEq]
    exact hfetch e'
  | irq i =>
    have hf : p.fetched (s.act (.irq i)) = none := by
      simp only [act]
      split <;> rfl
    rw [hf]
    rfl
  | _ => rfl

/-- Both sides hand over the same. -/
theorem handedAt_eq (h : Follows s p) (hs : Step s o s') (e : ExchId) :
    p.handedAt e (s.act o) = s.handedAt e o := by
  rw [Plan.handedAt, handedAt, h.sends_eq hs, h.firstTask_eq]
  cases s.sends o with
  | some x => rfl
  | none => exact h.fetched_eq e

end Follows

/-- The message was handed to the task, and has not been sent since. -/
def Held (t : TaskId) (m : MsgId) (tr : List (Yalrt × YalrtOp)) : Prop :=
  Since (fun x ↦ ∃ e, (m, t) ∈ x.1.handedAt e x.2) (fun x ↦ ∀ e, m ∉ x.1.acceptedAt e x.2) tr

/-- The message has never been sent. -/
def Unsent (m : MsgId) (tr : List (Yalrt × YalrtOp)) : Prop :=
  ∀ x ∈ tr, ∀ e, m ∉ x.1.acceptedAt e x.2

/-- The history of the messages agrees with the plan. -/
structure Traced (s₀ : Yalrt) (tr : List (Yalrt × YalrtOp)) (s : Yalrt) (p : Plan) : Prop where
  follows : Follows s p
  history : ∀ e, accepted tr e = (handed tr e).map Prod.fst ++ p.mq e
  owner : ∀ {m t}, (∀ x, m ≠ .interrupt x) →
    (p.own m = .task t ↔ Held t m tr ∨ s₀.msgLink m = .task t ∧ Unsent m tr)
  self : ∀ {m}, (∀ x, m ≠ .interrupt x) → s₀.msgLink m ≠ .msg m → p.own m ≠ .msg m

/-- Nothing has been sent before the first step. -/
theorem Follows.traced (h : Follows s (firstPlan s xs)) : Traced s [] s (firstPlan s xs) where
  follows := h
  history _ := rfl
  owner {m t} _ := by
    refine ⟨fun hx ↦ .inr ⟨hx, fun _ hy ↦ by cases hy⟩, ?_⟩
    rintro (hx | ⟨hx, -⟩)
    · exact absurd hx not_since_nil
    · exact hx
  self _ hx := hx

/-- A step that does not send the message keeps its owner, unless it hands it over. -/
theorem Traced.step (h : Traced s₀ tr s p) (ho : s.Lawful o) (hs : Step s o s') :
    Traced s₀ (tr ++ [(s, o)]) s' (p.step (s.act o)) := by
  have hF := h.follows
  have hacc := hF.acceptedAt_eq hs
  have hhand := hF.handedAt_eq hs
  have hq : ∀ {m e}, m ∈ p.mq e → p.own m = .null := hF.owners.queued
  refine ⟨hF.step ho hs, fun e ↦ ?_, fun {m t} hm ↦ ?_, fun {m} hm h0 ↦ ?_⟩
  · have ha : accepted (tr ++ [(s, o)]) e = accepted tr e ++ s.acceptedAt e o := by
      simp [accepted]
    have hh : handed (tr ++ [(s, o)]) e = handed tr e ++ s.handedAt e o := by
      simp [handed]
    have hstep := p.mq_step (s.act o) e hF.posted.exclusive
    rw [hacc, hhand] at hstep
    rw [ha, hh, h.history, List.append_assoc, hstep, List.map_append, List.append_assoc]
  · have hunsent : Unsent m (tr ++ [(s, o)]) ↔
        Unsent m tr ∧ ∀ e, m ∉ s.acceptedAt e o := by
      simp only [Unsent, List.mem_append, List.mem_singleton]
      exact ⟨fun hx ↦ ⟨fun x hm ↦ hx x (.inl hm), hx (s, o) (.inr rfl)⟩,
        fun hx y hy ↦ hy.elim (hx.1 y) fun he ↦ he ▸ hx.2⟩
    rw [Held, since_snoc, hunsent]
    by_cases hx : ∃ e u, (m, u) ∈ s.handedAt e o
    · obtain ⟨e, u, hu⟩ := hx
      have hown := (Plan.handed_step (hhand e ▸ hu)).2 hm
      rw [hown]
      constructor
      · intro ht
        exact .inl (.inl ⟨e, Addr.task.inj ht ▸ hu⟩)
      · -- the step hands over one message only, and the owner is the receiver
        rintro ((⟨e', ht⟩ | ⟨ht, hn⟩) | ⟨h0, hun, hn⟩)
        · exact hown.symm.trans ((Plan.handed_step (hhand e' ▸ ht)).2 hm)
        · have hp := (h.owner hm).mpr (.inl ht)
          exact absurd (hhand e ▸ hu) (Plan.not_handed (fun e ↦ hq) (by simp [hp])
            (fun e ↦ hacc e ▸ hn e) e u)
        · have hp := (h.owner hm).mpr (.inr ⟨h0, hun⟩)
          exact absurd (hhand e ▸ hu) (Plan.not_handed (fun e ↦ hq) (by simp [hp])
            (fun e ↦ hacc e ▸ hn e) e u)
    · have hno : ∀ e u, (m, u) ∉ s.handedAt e o := fun e u hu ↦ hx ⟨e, u, hu⟩
      by_cases ha : ∃ e, m ∈ s.acceptedAt e o
      · obtain ⟨e, ha⟩ := ha
        rw [Plan.accepted_step (hacc e ▸ ha) fun u ↦ hhand e ▸ hno e u]
        constructor
        · intro hx
          cases hx
        · rintro ((⟨e', ht⟩ | ⟨-, hn⟩) | ⟨-, -, hn⟩)
          · exact absurd ht (hno e' t)
          · exact absurd ha (hn e)
          · exact absurd ha (hn e)
      · have hna : ∀ e, m ∉ s.acceptedAt e o := fun e hm ↦ ha ⟨e, hm⟩
        rw [Plan.own_step (fun e ↦ hacc e ▸ hna e) fun e u ↦ hhand e ▸ hno e u, h.owner hm]
        refine or_congr ⟨fun hx ↦ .inr ⟨hx, hna⟩, ?_⟩ (and_congr_right' (and_iff_left hna).symm)
        rintro (⟨e, ht⟩ | ⟨hx, -⟩)
        · exact absurd ht (hno e t)
        · exact hx
  · by_cases hx : ∃ e u, (m, u) ∈ s.handedAt e o
    · obtain ⟨e, u, hu⟩ := hx
      have hown := (Plan.handed_step (hhand e ▸ hu)).2 hm
      rw [hown]
      simp
    · have hno : ∀ e u, (m, u) ∉ s.handedAt e o := fun e u hu ↦ hx ⟨e, u, hu⟩
      by_cases ha : ∃ e, m ∈ s.acceptedAt e o
      · obtain ⟨e, ha⟩ := ha
        rw [Plan.accepted_step (hacc e ▸ ha) fun u ↦ hhand e ▸ hno e u]
        simp
      · have hna : ∀ e, m ∉ s.acceptedAt e o := fun e hm ↦ ha ⟨e, hm⟩
        rw [Plan.own_step (fun e ↦ hacc e ▸ hna e) fun e u ↦ hhand e ▸ hno e u]
        exact h.self hm h0

/-- The history agrees with the plan along every lawful run. -/
theorem traced_of_run (h0 : Started s₀ xs) (hx : idleTask ∈ xs) (hm : ∀ e, s₀.Mails e [])
    (hq : s₀.queueIndex = 0) (hr : Trace Step s₀ tr s)
    (ho : Throughout (fun _ s o ↦ s.Lawful o) tr) :
    Always (fun tr s ↦ Traced s₀ tr s (planned s₀ xs tr)) tr s := by
  refine hr.always (C := fun _ s o ↦ s.Lawful o) (h0.follows hx hm hq).traced
    (fun h ho hs ↦ ?_) ho
  rw [planned_snoc]
  exact h.step ho hs

/-- In every lawful run, with handlers at any point, the messages that an exchange accepted, from
tasks and from interrupts, are those that it handed over, in that order, followed by those that are
queued, and what a step hands over is stored in its receiver. -/
theorem mailboxes_of_run (h0 : Started s₀ xs) (hx : idleTask ∈ xs) (hm : ∀ e, s₀.Mails e [])
    (hq : s₀.queueIndex = 0) (hr : Trace Step s₀ tr s)
    (ho : Throughout (fun _ s o ↦ s.Lawful o) tr) :
    (∀ e, ∃ ms, s.Mails e ms ∧ accepted tr e = (handed tr e).map Prod.fst ++ ms) ∧
    ∀ o s', s.Lawful o → Step s o s' → ∀ e, ∀ x ∈ s.handedAt e o, s'.message x.2 = .msg x.1 := by
  have h := (traced_of_run h0 hx hm hq hr ho).last
  refine ⟨fun e ↦ ⟨_, h.follows.posted.queues e, h.history e⟩, fun o s' hl hs e x hx ↦ ?_⟩
  rw [(h.follows.step hl hs).message]
  exact (Plan.handed_step (h.follows.handedAt_eq hs e ▸ hx)).1

/-- A message is handed to the task that waits for it, and that of an interrupt is queued. -/
theorem mailboxes_of_run_handing : ∃ tr s, Trace Step oneMessage tr s ∧
    tr.map Prod.snd = handing ∧ s.Mails 9 [.interrupt 9] ∧
    accepted tr 9 = (handed tr 9).map Prod.fst ++ [.interrupt 9] := by
  obtain ⟨tr, s, hr, hos, ho, -, -, -, -, hhead, hlink, htail⟩ := exists_handing
  have hq : s.Mails 9 [.interrupt 9] := Fifo.singleton hhead hlink htail (by simp) (by simp)
  obtain ⟨ms, hms, hacc⟩ := (mailboxes_of_run oneMessage_started (by decide)
    (fun e ↦ Fifo.nil rfl rfl (by simp)) rfl hr ho).1 9
  obtain rfl : ms = [.interrupt 9] :=
    List.map_injective_iff.mpr (fun _ _ ↦ Addr.msg.inj) (Fifo.unique hms hq)
  exact ⟨tr, s, hr, hos, hq, hacc⟩

/-- A message that a task has created is held by one task at a time: whoever sends it is the task
to which it was handed last, or its creator if it has not been sent before. -/
theorem holder_of_run (h0 : Started s₀ xs) (hx : idleTask ∈ xs) (hm : ∀ e, s₀.Mails e [])
    (hq : s₀.queueIndex = 0) (hr : Trace Step s₀ tr s)
    (ho : Throughout (fun _ s o ↦ s.Lawful o) tr) (hu : s₀.msgLink m = .task t)
    (hi : ∀ x, m ≠ .interrupt x) :
    (∀ u v, Held u m tr → Held v m tr → u = v) ∧
    (∀ u, Held u m tr → ∀ e, ∃ ms, s.Mails e ms ∧ m ∉ ms) ∧
    ∀ e s', Step s (.reqsend e m) s' →
      Held s.rqactv m tr ∨ s.rqactv = t ∧ Unsent m tr := by
  have h := (traced_of_run h0 hx hm hq hr ho).last
  refine ⟨fun u v hu' hv ↦ ?_,
    fun u hu' e ↦ ⟨_, h.follows.posted.queues e, fun hmem ↦ ?_⟩, fun e s' hs ↦ ?_⟩
  · have h1 := (h.owner hi).mpr (.inl hu')
    have h2 := (h.owner hi).mpr (.inl hv)
    exact Addr.task.inj (h1.symm.trans h2)
  · have hn := h.follows.owners.queued hmem
    rw [(h.owner hi).mpr (.inl hu')] at hn
    cases hn
  · have ha := h.follows.accepts_iff.mp hs.enabled.2
    have hself := h.self hi (by simp [hu])
    have hown := ha.resolve_right hself
    rw [← h.follows.rqactv] at hown
    refine ((h.owner hi).mp hown).imp_right fun hx ↦ ⟨?_, hx.2⟩
    exact Addr.task.inj (hx.1.symm.trans hu)

/-- Whoever sends the message on holds it, or is its creator. -/
theorem holder_of_run_handing : ∃ tr s s', Trace Step oneMessage tr s ∧
    tr.map Prod.snd = handing ∧ Step s (.reqsend 8 (.user 0)) s' ∧ Held 6 (.user 0) tr := by
  obtain ⟨tr, s, hr, hos, ho, hl, h6, ha, h8, -⟩ := exists_handing
  have hm : ∀ e, oneMessage.Mails e [] := fun e ↦ Fifo.nil rfl rfl (by simp)
  obtain ⟨s', hs'⟩ := ((follows_of_run oneMessage_started (by decide) hm rfl hr ho).last).returns
    (lawful_of_permits h8) ⟨hl, ha⟩
  refine ⟨tr, s, s', hr, hos, hs', ?_⟩
  rcases (holder_of_run (t := 5) oneMessage_started (by decide) hm rfl hr ho rfl
    (by simp)).2.2 8 s' hs' with hx | ⟨hx, -⟩
  · rwa [h6] at hx
  · rw [h6] at hx
    exact absurd hx (by decide)

end Yalrt

end YRmx
