import YRmx.Core.DelayList
import YRmx.Core.Machine

/-!
# What the nucleus is for

Library `YRmx`. The abstract nucleus keeps a list of messages and a list of waiting tasks
for every exchange, the waiting times of the timed tasks in the order in which they are
due, and for every message that is not queued its owner. Calls that touch no list are
those of the control part.
-/

namespace YRmx

/-- The lists that the descriptors stand for. -/
structure Board extends Control where
  mq : ExchId → List MsgId
  tq : ExchId → List TaskId
  /-- the timed tasks with the ticks that remain -/
  dl : List (TaskId × Nat)
  /-- who may send a message that is not queued: a task, or anybody for a self-linked one -/
  own : MsgId → Addr

namespace Board

/-- A step of the control part alone. -/
abbrev ctl (b : Board) (f : Control → Control) : Board := { b with toControl := f b.toControl }

/-- The message waits at some exchange. -/
def Queued (b : Board) (m : MsgId) : Prop := ∃ e, m ∈ b.mq e

/-- The task waits at some exchange. -/
def Waits (b : Board) (t : TaskId) : Prop := ∃ e, t ∈ b.tq e

/-- The task waits with a time-out pending. -/
def Timed (b : Board) (t : TaskId) : Prop := t ∈ b.dl.map Prod.fst

/-! ### Lists -/

/-- A message is appended to an exchange. -/
def pushMessage (b : Board) (e : ExchId) (m : MsgId) : Board :=
  { b with
    mq := Function.update b.mq e (b.mq e ++ [m])
    own := Function.update b.own m .null }

/-- Exactly the appended message is new to the queues. -/
theorem queued_pushMessage {b : Board} {e : ExchId} {m m' : MsgId} :
    (b.pushMessage e m).Queued m' ↔ m' = m ∨ b.Queued m' := by
  constructor
  · rintro ⟨e', he⟩
    by_cases hx : e' = e
    · subst hx
      simp only [pushMessage, Function.update_self, List.mem_append, List.mem_singleton] at he
      exact he.symm.imp_right fun hm ↦ ⟨e', hm⟩
    · simp only [pushMessage, Function.update_of_ne hx] at he
      exact .inr ⟨e', he⟩
  · rintro (rfl | ⟨e', he⟩)
    · exact ⟨e, by simp [pushMessage]⟩
    · by_cases hx : e' = e
      · subst hx
        exact ⟨e', by simp [pushMessage, he]⟩
      · exact ⟨e', by simpa [pushMessage, hx] using he⟩

/-- A message that is received is embedded in its exchange and stays nobody's. -/
def receivesInt (b : Board) (e : ExchId) (m : MsgId) : Prop :=
  m = .interrupt e ∧ b.length (.interrupt e) = intExchangeLength ∧
    b.type (.interrupt e) < timeoutType

instance (b : Board) (e : ExchId) (m : MsgId) : Decidable (b.receivesInt e m) :=
  inferInstanceAs (Decidable (_ ∧ _ ∧ _))

/-- The first message of an exchange is given to a task. -/
def popMessage (b : Board) (e : ExchId) (t : TaskId) : Board :=
  match b.mq e with
  | [] => b
  | m :: ms =>
    { b.ctl (·.setMessage t (.msg m)) with
      mq := Function.update b.mq e ms
      own := Function.update b.own m (if b.receivesInt e m then .msg m else .task t) }

/-- What is left after the first message was given away. -/
theorem popMessage_cons {b : Board} {e : ExchId} {t : TaskId} {m : MsgId} {ms : List MsgId}
    (h : b.mq e = m :: ms) :
    b.popMessage e t = { b.ctl (·.setMessage t (.msg m)) with
      mq := Function.update b.mq e ms
      own := Function.update b.own m (if b.receivesInt e m then .msg m else .task t) } := by
  simp only [popMessage, h]

/-- A task is appended to the tasks waiting at an exchange. -/
def pushTask (b : Board) (e : ExchId) (t : TaskId) : Board :=
  { b with tq := Function.update b.tq e (b.tq e ++ [t]) }

/-- A task leaves the exchange that its descriptor names. -/
def dropTask (b : Board) (t : TaskId) : Board :=
  match b.exchange t with
  | .exch e => { b with tq := Function.update b.tq e ((b.tq e).erase t) }
  | _ => b

/-- Only the waiting tasks change. -/
@[simp] theorem dropTask_toControl (b : Board) (t : TaskId) :
    (b.dropTask t).toControl = b.toControl := by
  unfold dropTask
  split <;> rfl

/-- The messages stay when a task leaves the queues. -/
@[simp] theorem dropTask_mq (b : Board) (t : TaskId) : (b.dropTask t).mq = b.mq := by
  unfold dropTask
  split <;> rfl

/-- The remaining ticks stay when a task leaves the queues. -/
@[simp] theorem dropTask_dl (b : Board) (t : TaskId) : (b.dropTask t).dl = b.dl := by
  unfold dropTask
  split <;> rfl

/-- The owners of messages stay when a task leaves the queues. -/
@[simp] theorem dropTask_own (b : Board) (t : TaskId) : (b.dropTask t).own = b.own := by
  unfold dropTask
  split <;> rfl

/-- A task is to be woken after `d` ticks. -/
def insertDelay (b : Board) (t : TaskId) (d : Nat) : Board :=
  { b with dl := b.dl.orderedInsert due (t, d) }

/-- A task is not to be woken any more. -/
def dropDelay (b : Board) (t : TaskId) : Board := { b with dl := b.dl.filter (·.1 ≠ t) }

/-- A tick: nothing happens while a due task is not served yet, or when the first waiting
time cannot be told from the end of the list. -/
def countDown (b : Board) : Board × Bool :=
  match b.dl with
  | [] => (b, false)
  | (_, r) :: _ =>
    if r = 0xFFFF then (b, false)
    else if r = 0 then (b, true)
    else ({ b with dl := b.dl.map fun p ↦ (p.1, p.2 - 1) }, decide (r - 1 = 0))

/-! ### Calls -/

/-- The task may send the message. -/
def Accepts (b : Board) (t : TaskId) (m : MsgId) : Prop :=
  b.own m = .task t ∨ b.own m = .msg m

instance (b : Board) (t : TaskId) (m : MsgId) : Decidable (b.Accepts t m) :=
  inferInstanceAs (Decidable (_ ∨ _))

/-- A waiting task gets the message and neither waits nor is timed any more. -/
def handOff (b : Board) (e : ExchId) (u : TaskId) (m : MsgId) : Board :=
  { (b.dropDelay u).ctl fun c ↦ ((c.setMessage u (.msg m)).setStatus u
      (c.status u &&& ~~~(waiting ||| delayed))).semPost u with
    tq := Function.update b.tq e (b.tq e).tail
    own := Function.update b.own m (if b.type m > timeoutType then .task u else .msg m) }

/-- A message is handed to the first waiting task, or kept when there is none. -/
def send (b : Board) (t : TaskId) (e : ExchId) (m : MsgId) : Exec Board := do
  require (b.mutex e = false)
  if ¬ b.Accepts t m then .ok (b.ctl (·.sendError t e))
  else match b.tq e with
    | [] => .ok (b.pushMessage e m)
    | u :: _ => .ok (b.handOff e u m)

/-- The interrupt message of an exchange is sent, or marked as missed while it is queued. -/
def isnd (b : Board) (t : TaskId) (e : ExchId) : Exec Board :=
  if b.own (.interrupt e) = .msg (.interrupt e) then
    (b.ctl (·.setType (.interrupt e) intType)).send t e (.interrupt e)
  else .ok (b.ctl (·.setType (.interrupt e) missedIntType))

/-- A message is fetched if there is one. -/
def accept (b : Board) (t : TaskId) (e : ExchId) : Exec Board := do
  require (b.mutex e = false)
  let b := (b.ctl fun c ↦ (c.setExchange t (.exch e)).setMessage t .null).popMessage e t
  .ok (b.ctl (·.goto t (.exitRegion (.reqacpt e))))

/-- A task is put to wait, with or without a limit. -/
def block (b : Board) (t : TaskId) (e : ExchId) (d : BitVec 16) : Board :=
  let b := b.pushTask e t
  let b := if d ≠ 0 then (b.ctl (·.setStatus t delayed)).insertDelay t d.toNat
    else b.ctl (·.setStatus t waiting)
  b.ctl (·.goto t (.semWait e d))

/-- A message is fetched if there is one, else the task is put to wait. -/
def wait (b : Board) (t : TaskId) (e : ExchId) (d : BitVec 16) : Exec Board := do
  require (b.mutex e = false)
  let b := b.ctl (·.setExchange t (.exch e))
  if b.mq e = [] then .ok (b.block t e d)
  else .ok ((b.popMessage e t).ctl (·.waitDone t e d))

/-- The `sem_wait` of a waiting task returns. -/
def resume (b : Board) (t : TaskId) (e : ExchId) (d : BitVec 16) : Exec Board := do
  require (0 < b.sema t ∧ b.mutex e = false)
  .ok (b.ctl fun c ↦ ((c.semTake t).setStatus t 0).waitDone t e d)

/-- A tick of the timer. -/
def tick (b : Board) : Exec Board :=
  if b.countDown.2 then b.countDown.1.isnd rqtimerTd rqDelayExchange
  else .ok b.countDown.1

/-- A task whose time has run out gets the time-out message. -/
def expire (b : Board) (t : TaskId) : Board :=
  ((b.dropTask t).dropDelay t).ctl fun c ↦
    ((c.setStatus t (c.status t &&& ~~~delayed)).setMessage t (.msg .timeOut)).semPost t

/-- A time-out leaves the messages. -/
theorem expire_mq (b : Board) (t : TaskId) : (b.expire t).mq = b.mq := by
  simp only [expire, ctl, dropDelay, dropTask_mq]

/-- A time-out leaves the owners of messages. -/
theorem expire_own (b : Board) (t : TaskId) : (b.expire t).own = b.own := by
  simp only [expire, ctl, dropDelay, dropTask_own]

/-- A time-out takes the task off the delay list. -/
theorem expire_dl (b : Board) (t : TaskId) : (b.expire t).dl = b.dl.filter (·.1 ≠ t) := by
  simp only [expire, ctl, dropDelay, dropTask_dl]

/-- What a time-out does to its task. -/
theorem expire_toControl (b : Board) (t : TaskId) : (b.expire t).toControl =
    ((b.setStatus t (b.status t &&& ~~~delayed)).setMessage t (.msg .timeOut)).semPost t := by
  simp only [expire, ctl, dropDelay, dropTask_toControl]

/-- The tasks whose time has run out. -/
def expired (b : Board) : List TaskId := (b.dl.takeWhile (·.2 = 0)).map Prod.fst

/-- Every task whose time has run out gets the time-out message. -/
def expireAll (b : Board) : Board := b.expired.foldl expire b

/-- A task leaves the lists and is asked to end. -/
def delete (b : Board) (t u : TaskId) : Board :=
  let b := if b.status u &&& (waiting ||| delayed) ≠ 0 then (b.dropTask u).dropDelay u else b
  b.ctl (·.reqdtskEnd t u)

/-- A new or reused message belongs to the caller. -/
def initMessage (b : Board) (t : TaskId) (m : MsgId) (size now : BitVec 32) : Board :=
  { b.ctl (·.initMessage m size now) with own := Function.update b.own m (.task t) }

/-! ### What a step hands over -/

/-- An interrupt message that nobody holds is sent. -/
def sendsInt (b : Board) (e : ExchId) : Option (ExchId × MsgId) :=
  if b.own (.interrupt e) = .msg (.interrupt e) ∧ b.mutex e = false then
    some (e, .interrupt e)
  else none

/-- The exchange and the message of a send that is accepted. -/
def sends (b : Board) : Op → Option (ExchId × MsgId)
  | .reqsend t e m =>
    if b.pc t = .user ∧ b.mutex e = false ∧ b.Accepts t m then some (e, m) else none
  | .reqisnd t e => if b.pc t = .user then b.sendsInt e else none
  | .tick => if b.pc rqtimerTd = .user ∧ b.countDown.2 then b.sendsInt rqDelayExchange else none
  | _ => none

/-- The waiting task that a step gives a message to. -/
def handsTo (b : Board) (o : Op) : Option TaskId :=
  match b.sends o with
  | some (e, _) => (b.tq e).head?
  | none => none

/-- No message is given to a task that waits without limit and was suspended meanwhile. -/
def Calm (b : Board) (o : Op) : Prop :=
  ∀ u, b.handsTo o = some u → ¬ (b.status u &&& waiting ≠ 0 ∧ b.status u &&& suspended ≠ 0)

/-! ### Steps -/

/-- A waiting thread goes on. -/
def wakeAt (b : Board) (t : TaskId) : Pc → Exec Board
  | .semWait e d => b.resume t e d
  | _ => .error .blocked

/-- The suspension test of `exit_region`. -/
def exitAt (b : Board) (t : TaskId) : Pc → Exec Board
  | .exitRegion c => .ok (b.ctl (·.exitRegion t c))
  | _ => .error .blocked

/-- The `sem_wait` of `exit_region` returns. -/
def heldAt (b : Board) (t : TaskId) : Pc → Exec Board
  | .held c => do
    require (0 < b.sema t)
    .ok (b.ctl (·.heldWake t c))
  | _ => .error .blocked

/-- A thread that waits while `rqfrozen` goes on. -/
def thawAt (b : Board) (t : TaskId) : Pc → Exec Board
  | .freeze c => .ok (b.ctl (·.goto t c.resume))
  | .thaw _ => .ok (b.ctl (·.leaveRegion t))
  | _ => .error .blocked

/-- The steps of the threads, on lists. -/
def step (b : Board) : Op → Exec Board
  | .reqcmsg t n size now => do
    require (b.pc t = .user)
    .ok (b.initMessage t (.user n) size now)
  | .setType t n type => do
    require (b.pc t = .user)
    .ok (b.ctl (·.setType (.user n) type))
  | .reqsend t e m => do
    require (b.pc t = .user)
    b.send t e m
  | .reqisnd t e => do
    require (b.pc t = .user)
    b.isnd t e
  | .reqwait t e d => do
    require (b.pc t = .user)
    b.wait t e d
  | .wake t => b.wakeAt t (b.pc t)
  | .reqacpt t e => do
    require (b.pc t = .user)
    b.accept t e
  | .exitRegion t => b.exitAt t (b.pc t)
  | .heldWake t => b.heldAt t (b.pc t)
  | .thaw t => do
    require (b.rqfrozen = false)
    b.thawAt t (b.pc t)
  | .tick => do
    require (b.pc rqtimerTd = .user)
    b.tick
  | .expiry => do
    require (b.pc rqdelaytaskTd = .user)
    .ok (b.expireAll.ctl (·.goto rqdelaytaskTd (.exitRegion .rqdelaytask)))
  | .reqsusp t u => do
    require (b.pc t = .user)
    .ok (b.ctl (·.reqsusp t u))
  | .suspWake t => do
    require (b.pc t = .suspWait ∧ 0 < b.sema t)
    .ok (b.ctl (·.reqsuspResume t))
  | .reqresm t u => do
    require (b.pc t = .user)
    .ok (b.ctl (·.reqresm u))
  | .reqdtsk t u => do
    require (b.pc t = .user)
    .ok (b.delete t u)
  | .cancelled t => do
    require (b.cancel t = true ∧ b.pc t ≠ .dead)
    .ok (b.ctl (·.goto t .dead))
  | .reqfreeze t => do
    require (b.pc t = .user)
    .ok (b.ctl (·.reqfreeze t .reqfreeze))
  | .reqbake t => do
    require (b.pc t = .user)
    .ok (b.ctl (·.reqbake))

/-- A woken thread goes on where it stands. -/
theorem step_wake (b : Board) (t : TaskId) : b.step (.wake t) = b.wakeAt t (b.pc t) := rfl

/-- A thread ends its call where it stands. -/
theorem step_exitRegion (b : Board) (t : TaskId) :
    b.step (.exitRegion t) = b.exitAt t (b.pc t) := rfl

/-- A held thread goes on where it stands. -/
theorem step_heldWake (b : Board) (t : TaskId) : b.step (.heldWake t) = b.heldAt t (b.pc t) := rfl

end Board

end YRmx
