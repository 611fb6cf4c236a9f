import YRmx.Core.Machine

/-!
# What a step hands over

Library `YRmx`. The message that a step sends and the waiting task that receives it, read
off the state before the step.
-/

namespace YRmx.Nucleus

/-- The timer finds a task whose time has run out, after its count. -/
def signals (s : Nucleus) : Bool :=
  match countDown s with
  | .ok (_, isnd) => isnd
  | .error _ => false

/-- `reqisnd` finds its message self-linked and sends it. -/
def sendsInt (s : Nucleus) (e : ExchId) : Option (ExchId × MsgId) :=
  if s.msgLink (.interrupt e) = .msg (.interrupt e) ∧ s.mutex e = false then
    some (e, .interrupt e)
  else none

/-- The exchange and the message of a `reqsend` that passes the ownership test. -/
def sends (s : Nucleus) : Op → Option (ExchId × MsgId)
  | .reqsend t e m =>
    if s.pc t = .user ∧ s.mutex e = false ∧ accepts s t m then some (e, m) else none
  | .reqisnd t e => if s.pc t = .user then s.sendsInt e else none
  | .tick => if s.pc rqtimerTd = .user ∧ s.signals then s.sendsInt rqDelayExchange else none
  | _ => none

/-- The waiting task that a step gives a message to. -/
def handsTo (s : Nucleus) (o : Op) : Option TaskId :=
  match s.sends o with
  | some (e, _) =>
    match s.taskHead e with
    | .task u => some u
    | _ => none
  | none => none

/-- `reqsend` calls `cancel_delay` for the task that it gives its message to. -/
def cancels (s : Nucleus) (o : Op) : Bool :=
  match s.sends o with
  | some (e, m) =>
    match s.taskHead e with
    | .task u => sendCancels (giveMessage (unlinkFirst s e u) u m) u
    | _ => false
  | none => false

/-- No message is given to a task that waits without limit and was suspended meanwhile. -/
def Calm (s : Nucleus) (o : Op) : Prop :=
  ∀ u, s.handsTo o = some u → ¬ (s.status u &&& waiting ≠ 0 ∧ s.status u &&& suspended ≠ 0)

instance (s : Nucleus) (o : Op) : Decidable (s.Calm o) :=
  decidable_of_iff (∀ u ∈ s.handsTo o,
    ¬ (s.status u &&& waiting ≠ 0 ∧ s.status u &&& suspended ≠ 0)) Iff.rfl

/-- A step that sends nothing disturbs nobody. -/
theorem calm_of_sends {s : Nucleus} {o : Op} (h : s.sends o = none) : s.Calm o := by
  intro u hu
  unfold handsTo at hu
  rw [h] at hu
  cases hu

/-! ### Acceptance and hand-over at one exchange -/

/-- The message that a step accepts for an exchange. -/
def acceptedAt (s : Nucleus) (e : ExchId) (o : Op) : List MsgId :=
  match s.sends o with
  | some (e', m) => if e' = e then [m] else []
  | none => []

/-- The first waiting task of an exchange. -/
def firstTask (s : Nucleus) (e : ExchId) : Option TaskId :=
  match s.taskHead e with
  | .task u => some u
  | _ => none

/-- The first message of an exchange. -/
def firstMessage (s : Nucleus) (e : ExchId) : Option MsgId :=
  match s.messageHead e with
  | .msg m => some m
  | _ => none

/-- The message that a step hands over at an exchange, to the first waiting task or to the one
that asks for it. -/
def handedAt (s : Nucleus) (e : ExchId) (o : Op) : List (MsgId × TaskId) :=
  match s.sends o, o with
  | some (e', m), _ => if e' = e then (s.firstTask e).toList.map fun u ↦ (m, u) else []
  | none, .reqwait t e' _ => if e' = e then (s.firstMessage e).toList.map fun m ↦ (m, t) else []
  | none, .reqacpt t e' => if e' = e then (s.firstMessage e).toList.map fun m ↦ (m, t) else []
  | none, _ => []

end YRmx.Nucleus
