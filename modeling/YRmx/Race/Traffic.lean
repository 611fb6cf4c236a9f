import YRmx.Race.Lines
import YRmx.Refine.Runs

/-!
# All calls on the exchanges, line by line

Library `YRmx`. `reqsend`, `reqwait` and `reqacpt` work on the queues of an exchange under
`exch->mutex` and take `delay_list_mutex` only while they change the delay list; `rqdelaytask`
works on both under `delay_list_mutex` alone. These are the lines of the four
(`ycore.c:461–485,1042–1118,1150–1220,1329–1352`), each of which may be followed by a line of any
other thread. The queue of messages is never touched without `exch->mutex`, so the lines that link
or unlink a message are taken as one.
-/

namespace YRmx

open Transition

/-! ### The lines of `reqsend` -/

/-- The next line of a `reqsend`, with the pointers that it has read. -/
inductive SendLine where
  /-- `pthread_mutex_lock(&exch->mutex)` and the test of ownership -/
  | lock
  /-- the test of `task_head` -/
  | head
  /-- the test of `task_tail` when no task waits -/
  | tail
  /-- `ycore.c:1066–1070` -/
  | append
  /-- the test of the message queue when a task waits, and `task = exch->task_head` -/
  | busy
  /-- `task->link` is read -/
  | readLink (task : TaskId)
  /-- `exch->task_head` is written, and tested -/
  | setHead (task : TaskId) (link : Addr)
  /-- `exch->task_tail = exch` -/
  | setTail (task : TaskId)
  /-- `ycore.c:1084–1086` -/
  | give (task : TaskId)
  /-- `task->status &= ~waiting` -/
  | status (task : TaskId)
  /-- the test of `task->status && delayed` -/
  | test (task : TaskId)
  /-- `cancel_delay(task)` -/
  | cancel (task : TaskId)
  /-- `pthread_mutex_unlock(&exch->mutex)` -/
  | unlock (task : TaskId)
  /-- `sem_post(&task->sema)` -/
  | post (task : TaskId)
  deriving DecidableEq, Repr

/-- The next line of a `reqacpt`. -/
inductive AcptLine where
  /-- `pthread_mutex_lock(&exch->mutex)` -/
  | lock
  /-- `ycore.c:1112–1113` and the test of `message_head` -/
  | enter
  /-- `reqdqmsg` -/
  | fetch
  /-- `pthread_mutex_unlock(&exch->mutex)`, then `exit_region` -/
  | release
  deriving DecidableEq, Repr

/-- Where a thread stands in a call on an exchange. -/
inductive Place where
  /-- in no such call -/
  | out
  | send (e : ExchId) (m : MsgId) (l : SendLine)
  | acpt (e : ExchId) (l : AcptLine)
  /-- `reqwait` up to `sem_wait`, or to the end of a call that finds a message -/
  | wait (e : ExchId) (d : BitVec 16) (l : Line)
  /-- `sem_wait(&rqactv->sema)` -/
  | asleep (e : ExchId) (d : BitVec 16)
  /-- `pthread_mutex_lock(&exch->mutex)` behind `sem_wait` -/
  | relock (e : ExchId) (d : BitVec 16)
  /-- `rqactv->status = 0` and the test of `rqactv->link` -/
  | wake (e : ExchId) (d : BitVec 16)
  /-- `pthread_mutex_unlock(&exch->mutex)`, then the end of the call -/
  | leave (e : ExchId) (d : BitVec 16)
  deriving DecidableEq, Repr

/-- One line of a `reqsend` of `m` by `t`, and the place after it; `free` tells that nobody holds
`delay_list_mutex`. A refused call freezes the system with `exch->mutex` locked. -/
def sendStep (free : Bool) (s : Nucleus) (t : TaskId) (e : ExchId) (m : MsgId) :
    SendLine → Exec (Nucleus × Place)
  | .lock => do
    require (s.mutex e = false)
    if accepts s t m then
      .ok ({ s with mutex := Function.update s.mutex e true }, .send e m .head)
    else .ok (s.ctl (·.sendError t e), .out)
  | .head => .ok (s, .send e m (if s.taskHead e = .null then .tail else .busy))
  | .tail =>
    if s.taskTail e ≠ .exch e then .ok (s.ctl (·.sendError t e), .out)
    else .ok (s, .send e m .append)
  | .append => do
    let s ← appendMessage s e m
    .ok ({ s with mutex := Function.update s.mutex e false }, .out)
  | .busy =>
    if s.messageHead e ≠ .null ∨ s.messageTail e ≠ .exch e then
      .ok (s.ctl (·.sendError t e), .out)
    else do
      let task ← asTask (s.taskHead e)
      .ok (s, .send e m (.readLink task))
  | .readLink task => .ok (s, .send e m (.setHead task (s.link task)))
  | .setHead task link =>
    .ok ({ s with word2 := Function.update s.word2 (.exch e) link },
      .send e m (if link = .null then .setTail task else .give task))
  | .setTail task =>
    .ok ({ s with taskTail := Function.update s.taskTail e (.exch e) }, .send e m (.give task))
  | .give task =>
    let s := { s with
      word0 := Function.update s.word0 (.msg m)
        (if s.type m > timeoutType then .task task else .msg m) }
    .ok (s.ctl (·.setMessage task (.msg m)), .send e m (.status task))
  | .status task =>
    .ok (s.ctl fun c ↦ c.setStatus task (c.status task &&& ~~~waiting), .send e m (.test task))
  | .test task => .ok (s, .send e m (if sendCancels s task then .cancel task else .unlock task))
  | .cancel task => do
    require (free = true)
    let s ← cancelDelay s task
    .ok (s, .send e m (.unlock task))
  | .unlock task =>
    .ok ({ s with mutex := Function.update s.mutex e false }, .send e m (.post task))
  | .post task => .ok (s.ctl (·.semPost task), .out)

/-- One line of a `reqacpt` by `t`, and the place after it. -/
def acptStep (s : Nucleus) (t : TaskId) (e : ExchId) : AcptLine → Exec (Nucleus × Place)
  | .lock => do
    require (s.mutex e = false)
    .ok ({ s with mutex := Function.update s.mutex e true }, .acpt e .enter)
  | .enter =>
    let s := s.ctl fun c ↦ (c.setExchange t (.exch e)).setMessage t .null
    .ok (s, .acpt e (if s.messageHead e ≠ .null then .fetch else .release))
  | .fetch => do
    let s ← reqdqmsg s e t
    .ok (s, .acpt e .release)
  | .release =>
    let s := { s with mutex := Function.update s.mutex e false }
    .ok (s.ctl (·.goto t (.exitRegion (.reqacpt e))), .out)

/-- One line of a `reqwait` up to `sem_wait`, or to the end of a call that finds a message. -/
def waitStep (fuel : Nat) (free : Bool) (s : Nucleus) (c : Caller) (l : Line) :
    Exec (Nucleus × Place) := do
  require (l = .delay → c.delay ≠ 0 → free = true)
  let (s, l') ← lineStep fuel s c l
  .ok (s, match l with
    | .unlock => .asleep c.exch c.delay
    | .release => .out
    | _ => .wait c.exch c.delay l')

/-- The next line of a thread that is in a call on an exchange. -/
def placeStep (fuel : Nat) (free : Bool) (s : Nucleus) (t : TaskId) :
    Place → Exec (Nucleus × Place)
  | .out => .error .blocked
  | .send e m l => sendStep free s t e m l
  | .acpt e l => acptStep s t e l
  | .wait e d l => waitStep fuel free s ⟨t, e, d⟩ l
  | .asleep e d => do
    require (0 < s.sema t)
    .ok (s.ctl (·.semTake t), .relock e d)
  | .relock e d => do
    require (s.mutex e = false)
    .ok ({ s with mutex := Function.update s.mutex e true }, .wake e d)
  | .wake e d =>
    let s := s.ctl (·.setStatus t 0)
    if s.link t = .task t then .error .frozen else .ok (s, .leave e d)
  | .leave e d =>
    let s := { s with mutex := Function.update s.mutex e false }
    .ok (s.ctl (·.waitDone t e d), .out)

/-! ### The lines of `rqdelaytask` -/

/-- The next line of the delay task, with the pointers that it has read. -/
inductive ExpiryLine where
  /-- outside of its loop -/
  | idle
  /-- `ycore.c:1330–1334` and `ycore.c:1349`: the first task of the delay list -/
  | first
  /-- the test of `curr_task->link` -/
  | search (delayTask : TaskId) (taskExch : ExchId) (currTask : Addr)
  /-- `delay_task->link` is read -/
  | readLink (delayTask : TaskId) (taskExch : ExchId) (currTask : Addr)
  /-- `curr_task->link` is written, and tested -/
  | writeLink (delayTask : TaskId) (taskExch : ExchId) (currTask link : Addr)
  /-- `task_exch->task_tail = curr_task` -/
  | setTail (delayTask : TaskId) (taskExch : ExchId) (currTask : Addr)
  /-- `cancel_delay_unsafe(delay_task)` -/
  | cancel (delayTask : TaskId)
  /-- `delay_task->message = &time_out_message` -/
  | message (delayTask : TaskId)
  /-- `sem_post(&delay_task->sema)` -/
  | post (delayTask : TaskId)
  deriving DecidableEq, Repr

/-- One line of the delay task, and the line after it. Nobody makes it wait for
`delay_list_mutex`: all others hold it within one line only. -/
def expiryStep (s : Nucleus) : ExpiryLine → Exec (Nucleus × ExpiryLine)
  | .idle => do
    require (s.pc rqdelaytaskTd = .user)
    .ok (s, .first)
  | .first => do
    let delayTask ← deref (s.word0 .delayHead)
    if s.delay delayTask = 0 then
      let t ← asTask delayTask
      let taskExch ← asExch (s.exchange t)
      .ok (s, .search t taskExch (.exch taskExch))
    else .ok (s.ctl (·.goto rqdelaytaskTd (.exitRegion .rqdelaytask)), .idle)
  | .search t taskExch currTask => do
    let currTask ← deref currTask
    if s.word2 currTask = .task t then .ok (s, .readLink t taskExch currTask)
    else .ok (s, .search t taskExch (s.word2 currTask))
  | .readLink t taskExch currTask => .ok (s, .writeLink t taskExch currTask (s.link t))
  | .writeLink t taskExch currTask link =>
    .ok ({ s with word2 := Function.update s.word2 currTask link },
      if link = .null then .setTail t taskExch currTask else .cancel t)
  | .setTail t taskExch currTask =>
    .ok ({ s with taskTail := Function.update s.taskTail taskExch currTask }, .cancel t)
  | .cancel t => do
    let s ← cancelDelayUnsafe s t
    .ok (s, .message t)
  | .message t => .ok (s.ctl (·.setMessage t (.msg .timeOut)), .post t)
  | .post t => .ok (s.ctl (·.semPost t), .first)

/-! ### Interleavings -/

/-- The threads in their calls, and the delay task. -/
structure Traffic where
  s : Nucleus
  place : TaskId → Place
  expiry : ExpiryLine

/-- The thread of a call that touches no queue and no waiting task. -/
def Op.local : Op → Option TaskId
  | .reqcmsg t .. | .setType t .. | .exitRegion t | .thaw t | .reqfreeze t | .reqbake t => some t
  | _ => none

/-- What happens next. -/
inductive Turn where
  /-- a thread calls `reqsend` -/
  | send (t : TaskId) (e : ExchId) (m : MsgId)
  /-- a thread calls `reqisnd` -/
  | isnd (t : TaskId) (e : ExchId)
  /-- a thread calls `reqacpt` -/
  | acpt (t : TaskId) (e : ExchId)
  /-- a thread calls `reqwait` -/
  | wait (t : TaskId) (e : ExchId) (d : BitVec 16)
  /-- a thread goes on in its call by one line -/
  | line (t : TaskId)
  /-- the delay task goes on by one line -/
  | expiry
  /-- the timer counts down, `ycore.c:1288–1299` -/
  | tick
  /-- a step of the nucleus that touches no queue and no waiting task -/
  | other (o : Op)
  deriving DecidableEq, Repr

namespace Traffic

/-- Nobody holds `delay_list_mutex`. -/
def free (x : Traffic) : Bool := x.expiry = .idle

/-- The thread is in user code. -/
def Calls (x : Traffic) (t : TaskId) : Prop :=
  x.place t = .out ∧ x.s.pc t = .user ∧ (t = rqdelaytaskTd → x.expiry = .idle)

instance (x : Traffic) (t : TaskId) : Decidable (x.Calls t) :=
  inferInstanceAs (Decidable (_ ∧ _ ∧ _))

/-- A thread goes to a place with a change of the state. -/
@[simps]
def go (x : Traffic) (t : TaskId) (s : Nucleus) (p : Place) : Traffic :=
  { x with s := s, place := Function.update x.place t p }

/-- One turn. -/
def next (fuel : Nat) (x : Traffic) : Turn → Exec Traffic
  | .send t e m => do
    require (x.Calls t)
    .ok (x.go t x.s (.send e m .lock))
  | .isnd t e => do
    require (x.Calls t)
    if x.s.msgLink (.interrupt e) = .msg (.interrupt e) then
      .ok (x.go t (x.s.ctl (·.setType (.interrupt e) intType)) (.send e (.interrupt e) .lock))
    else .ok { x with s := x.s.ctl (·.setType (.interrupt e) missedIntType) }
  | .acpt t e => do
    require (x.Calls t)
    .ok (x.go t x.s (.acpt e .lock))
  | .wait t e d => do
    require (x.Calls t)
    .ok (x.go t x.s (.wait e d .lock))
  | .line t => do
    let (s, p) ← placeStep fuel x.free x.s t (x.place t)
    .ok (x.go t s p)
  | .expiry => do
    require (x.place rqdelaytaskTd = .out)
    let (s, l) ← expiryStep x.s x.expiry
    .ok { x with s := s, expiry := l }
  | .tick => do
    require (x.place rqtimerTd = .out ∧ x.s.pc rqtimerTd = .user ∧ x.free = true)
    let (s, _) ← countDown x.s
    .ok { x with s := s }
  | .other o => do
    require (∃ t ∈ o.local, x.place t = .out)
    let s ← step fuel x.s o
    .ok { x with s := s }

/-- A turn is taken. -/
def Step (x : Traffic) (i : Turn) (x' : Traffic) : Prop := ∃ fuel, x.next fuel i = .ok x'

/-- The calls as they interleave, with the states that they went through. -/
abbrev Interleaved := Trace Step

/-- No thread is in a call. -/
def start (s : Nucleus) : Traffic where
  s := s
  place _ := .out
  expiry := .idle

end Traffic

end YRmx
