import YRmx.Race.Traffic

/-!
# The lists behind the interleaved calls

Library `YRmx`. In the middle of the calls the descriptors still denote lists: the queues of tasks
and messages at each exchange, the message that a sender has accepted and not stored yet, and the
delay list. The ledger adds who works on the queues of an exchange and who attends to a waiting
task. Every write of a call is one of the entries below.
-/

namespace YRmx.Traffic

open Intrusive Transition

/-- Who works on a queue or attends to a waiting task. -/
inductive Agent where
  | thread (t : TaskId)
  | delayTask
  deriving DecidableEq, Repr

/-- How far the wait of a task has come. -/
inductive Stage where
  /-- it does not wait -/
  | idle
  /-- it stands in the queue of an exchange -/
  | queued (e : ExchId)
  /-- it was unlinked from the queue, and its semaphore is not posted yet -/
  | taken (a : Agent)
  /-- its semaphore was posted -/
  | posted
  deriving DecidableEq, Repr

/-- What was done for a waiting task. -/
inductive Service where
  | unlinked
  | given (m : MsgId)
  | undelayed
  | posted
  deriving DecidableEq, Repr

/-! ### What happened -/

/-- The service that a turn does to a waiting task. -/
def service (x : Traffic) : Turn → Option (TaskId × Service)
  | .line u =>
    match x.place u with
    | .send _ _ (.setHead t _) => some (t, .unlinked)
    | .send _ m (.give t) => some (t, .given m)
    | .send _ _ (.cancel t) => some (t, .undelayed)
    | .send _ _ (.post t) => some (t, .posted)
    | _ => none
  | .expiry =>
    match x.expiry with
    | .writeLink t .. => some (t, .unlinked)
    | .cancel t => some (t, .undelayed)
    | .message t => some (t, .given .timeOut)
    | .post t => some (t, .posted)
    | _ => none
  | _ => none

/-- The task that begins to wait. -/
def begins (x : Traffic) : Turn → Option TaskId
  | .line t =>
    match x.place t with
    | .wait _ _ .clear => some t
    | _ => none
  | _ => none

/-- The message that a sender gets past the test of ownership. -/
def accepted (x : Traffic) : Turn → Option (ExchId × MsgId)
  | .line t =>
    match x.place t with
    | .send e m .lock => if accepts x.s t m then some (e, m) else none
    | _ => none
  | _ => none

/-- The message that goes to a task at an exchange. -/
def handed (x : Traffic) : Turn → Option (ExchId × MsgId × TaskId)
  | .line t =>
    match x.place t with
    | .send e m (.give u) => some (e, m, u)
    | .wait e _ .fetch | .acpt e .fetch =>
      match x.s.messageHead e with
      | .msg m => some (e, m, t)
      | _ => none
    | _ => none
  | _ => none

/-- The history of the waits and of the messages. -/
structure Log where
  past : TaskId → List Service
  accepted : ExchId → List MsgId
  handed : ExchId → List (MsgId × TaskId)

namespace Log

/-- Nothing has happened. -/
def empty : Log where
  past _ := []
  accepted _ := []
  handed _ := []

/-- A task begins to wait. -/
@[simps]
def begin (r : Log) (t : TaskId) : Log := { r with past := Function.update r.past t [] }

/-- A waiting task is attended to. -/
@[simps]
def attend (r : Log) (t : TaskId) (v : Service) : Log :=
  { r with past := Function.update r.past t (r.past t ++ [v]) }

/-- A message is accepted. -/
@[simps]
def accept (r : Log) (e : ExchId) (m : MsgId) : Log :=
  { r with accepted := Function.update r.accepted e (r.accepted e ++ [m]) }

/-- A message is handed over. -/
@[simps]
def hand (r : Log) (e : ExchId) (p : MsgId × TaskId) : Log :=
  { r with handed := Function.update r.handed e (r.handed e ++ [p]) }

/-- The history after one more turn. -/
def after (r : Log) (x : Traffic) (i : Turn) : Log :=
  let r := match x.begins i with
    | some t => r.begin t
    | none => r
  let r := match x.service i with
    | some (t, v) => r.attend t v
    | none => r
  let r := match x.accepted i with
    | some (e, m) => r.accept e m
    | none => r
  match x.handed i with
  | some (e, p) => r.hand e p
  | none => r

end Log

/-- The history of a run. -/
def log (tr : List (Traffic × Turn)) : Log := tr.foldl (fun r y ↦ r.after y.1 y.2) .empty

/-- One more turn. -/
@[simp] theorem log_snoc (tr : List (Traffic × Turn)) (x : Traffic) (i : Turn) :
    log (tr ++ [(x, i)]) = (log tr).after x i := by
  simp [log]

/-! ### The ledger -/

/-- The lists that the descriptors denote, and who works on them. -/
structure Ledger where
  tq : ExchId → List TaskId
  mq : ExchId → List MsgId
  /-- the accepted message that is neither queued nor given away yet -/
  carried : ExchId → List MsgId
  dl : List (TaskId × Nat)
  /-- who holds the mutex of the exchange, or works on its queue without it -/
  hold : ExchId → Option Agent
  serve : TaskId → Stage

namespace Ledger

/-- The messages that the exchange is to hand over. -/
abbrev pile (g : Ledger) (e : ExchId) : List MsgId := g.mq e ++ g.carried e

/-- The task stands in the delay list. -/
abbrev Timed (g : Ledger) (t : TaskId) : Prop := t ∈ g.dl.map Prod.fst

/-- Somebody begins or ceases to work on the queues of an exchange. -/
@[simps]
def setHold (g : Ledger) (e : ExchId) (a : Option Agent) : Ledger :=
  { g with hold := Function.update g.hold e a }

/-- The wait of a task comes to another stage. -/
@[simps]
def setServe (g : Ledger) (t : TaskId) (a : Stage) : Ledger :=
  { g with serve := Function.update g.serve t a }

/-- The queue of tasks changes. -/
@[simps]
def setTasks (g : Ledger) (e : ExchId) (ts : List TaskId) : Ledger :=
  { g with tq := Function.update g.tq e ts }

/-- The queue of messages changes. -/
@[simps]
def setMessages (g : Ledger) (e : ExchId) (ms : List MsgId) : Ledger :=
  { g with mq := Function.update g.mq e ms }

/-- The message on its way changes. -/
@[simps]
def setCarried (g : Ledger) (e : ExchId) (ms : List MsgId) : Ledger :=
  { g with carried := Function.update g.carried e ms }

/-- The delay list changes. -/
@[simps]
def setDelays (g : Ledger) (dl : List (TaskId × Nat)) : Ledger := { g with dl := dl }

end Ledger

/-- The last node of a queue, or the exchange itself. -/
def lastOf (e : ExchId) (ts : List TaskId) : Addr := (ts.map Addr.task).getLastD (.exch e)

/-- The first node of a queue, or null. -/
def firstOf (ts : List TaskId) : Addr := (ts.map Addr.task).headD .null

/-- The descriptors agree with the ledger, and the ledger with the history. -/
structure Books (s : Nucleus) (g : Ledger) (r : Log) : Prop where
  links : ∀ e, Fifo s.word2 .null (.exch e) (lastOf e (g.tq e)) ((g.tq e).map .task)
  messages : ∀ e, MessageQueue s e (g.mq e)
  pile_nodup : ∀ e, (g.pile e).Nodup
  pile_disjoint : ∀ {e e' m}, m ∈ g.pile e → m ∈ g.pile e' → e = e'
  timeOut : ∀ e, .timeOut ∉ g.pile e
  timeOut_link : s.msgLink .timeOut = .null
  one_empty : ∀ e, g.mq e = [] ∨ g.tq e = []
  mem_iff : ∀ {t e}, t ∈ g.tq e ↔ g.serve t = .queued e
  delays : DelayList s.word0 s.word1 s.delay g.dl
  dl_nodup : (g.dl.map Prod.fst).Nodup
  dl_bound : ∀ p ∈ g.dl, p.2 ≤ 0xFFFF
  timed : ∀ {t}, g.Timed t → g.serve t ≠ .idle ∧ g.serve t ≠ .posted
  sema : ∀ t, s.sema t = if g.serve t = .posted then 1 else 0
  mutex : ∀ {e t}, g.hold e = some (.thread t) → s.mutex e = true
  /-- a queue that nobody works on is complete -/
  free : ∀ {e}, g.hold e = none → s.taskTail e = lastOf e (g.tq e) ∧ g.carried e = []
  balance : ∀ e, r.accepted e = (r.handed e).map Prod.fst ++ g.pile e

end YRmx.Traffic
