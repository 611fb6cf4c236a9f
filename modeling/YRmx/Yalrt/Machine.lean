import YRmx.Registry.TaskList
import YRmx.Yalrt.Sched

/-!
# The nucleus of `yalrt.c` as a state machine

Library `YRmx`. One processor runs the tasks, and interrupt handlers on top of them. Inside a
critical region, which `critical_region_flag` counts, handlers only append to `isnd_queue` and
count a delay down; the `exit_region` that leaves the outermost region drains the queue and
switches to the first task of the ready list. Handlers come in between any two steps. The body of
a system call, from `enter_region` to `exit_region`, is one step, and so is one turn of the loop of
`rqdelaytask`: ticks inside these are the subject of `Race.Countdown`. The loop of `exit_region`
goes in lines: `--queue_index`, the read of the slot, and the part behind
`ipipe_stall_pipeline_head`. `reqfreeze` is left out: a call that comes to it stops.
-/

namespace YRmx

open Transition

/-- What runs below the interrupt handlers. -/
inductive MainLine where
  /-- the code of a task, or Linux -/
  | user
  /-- a system call, behind `enter_region` -/
  | entered
  /-- the loop of `rqdelaytask` -/
  | expiry
  /-- a system call, before `exit_region(0)` -/
  | exitRegion
  /-- the loop of `exit_region` -/
  | drain
  /-- the loop of `exit_region`, behind `--queue_index` -/
  | fetch
  /-- the loop of `exit_region`, behind the read of the slot -/
  | deliver
  /-- `exit_region`, behind the loop -/
  | switch
  deriving DecidableEq, Repr

/-- The next line of an interrupt handler. -/
inductive IrqLine where
  | enterRegion
  /-- `reqssnd`, behind `enter_region` -/
  | append (e : ExchId)
  /-- `exit_region(1)` -/
  | exitRegion
  deriving DecidableEq, Repr

/-- The task lists, and the fields of the descriptors that link the other lists of tasks. -/
structure TaskLists extends Sched where
  taskTail : ExchId → ThreadPtr
  exchange : TaskId → ThreadPtr
  next : Addr → Addr
  prev : Addr → Addr
  delay : Addr → BitVec 16

/-- The variables of `yalrt.c` and the fields of the descriptors. -/
structure Yalrt extends TaskLists where
  rqactv : TaskId
  /-- offset 0: `message_head`, `msg->link` -/
  word0 : Addr → Addr
  messageTail : ExchId → Addr
  message : TaskId → Addr
  length : MsgId → BitVec 32
  type : MsgId → BitVec 32
  qint : ExchId → BitVec 8
  isndQueue : Nat → ExchId
  queueIndex : Nat
  /-- the value of `--queue_index` in `exit_region` -/
  slot : Nat
  /-- `Q_int_msg` of `exit_region` -/
  qIntMsg : ExchId
  criticalRegionFlag : Nat
  line : MainLine
  /-- the handlers that have not ended yet -/
  irq : List IrqLine

/-- A pointer followed as a task descriptor. -/
def ThreadPtr.asTask : ThreadPtr → Exec TaskId
  | .task t => .ok t
  | _ => .error .fault

/-- A pointer followed as an exchange descriptor. -/
def ThreadPtr.asExch : ThreadPtr → Exec ExchId
  | .exch e => .ok e
  | _ => .error .fault

namespace Yalrt

/-! ### Pointer fields under their names in `yalrt.h` -/

/-- The first task that waits at an exchange. -/
@[simp] abbrev taskHead (s : Yalrt) (e : ExchId) : ThreadPtr := s.thread (.exch e)

/-- The first message of an exchange. -/
@[simp] abbrev messageHead (s : Yalrt) (e : ExchId) : Addr := s.word0 (.exch e)

/-- The link of a message. -/
@[simp] abbrev msgLink (s : Yalrt) (m : MsgId) : Addr := s.word0 (.msg m)

/-- An operation on the lists of tasks. -/
def sched (s : Yalrt) (f : Sched → Exec Sched) : Exec Yalrt := do
  let c ← f s.toSched
  .ok { s with toSched := c }

/-- `task->status = st`. -/
def setStatus (s : Yalrt) (task : TaskId) (st : BitVec 8) : Yalrt :=
  { s with status := Function.update s.status task st }

/-- `msg->type = type`. -/
def setType (s : Yalrt) (m : MsgId) (type : BitVec 32) : Yalrt :=
  { s with type := Function.update s.type m type }

/-! ### The delay list -/

/-- `yalrt.c:361–378`, with `STOP_TIMER` undefined. -/
def cancelDelay (s : Yalrt) (task : TaskId) : Exec Yalrt := do
  let linktask ← deref (s.next (.task task))
  let s := { s with
    delay := Function.update s.delay linktask (s.delay linktask + s.delay (.task task)) }
  let s := { s with prev := Function.update s.prev linktask (s.prev (.task task)) }
  let linktask ← deref (s.prev (.task task))
  let s := { s with next := Function.update s.next linktask (s.next (.task task)) }
  let s := { s with delay := Function.update s.delay .delayTail 0xFFFF }
  .ok (s.setStatus task (s.status task &&& ~~~delayed))

/-- `cancel_delay` behind a test of the status byte. -/
def cancelDelayIf (s : Yalrt) (test : Bool) (task : TaskId) : Exec Yalrt :=
  if test then s.cancelDelay task else .ok s

/-- The loop `yalrt.c:1058–1061`, which also returns `t_delay`. -/
def insertLoop : Nat → Yalrt → Addr → Exec (Yalrt × Addr × BitVec 16)
  | 0, _, _ => .error .fuel
  | n + 1, s, delayTask => do
    let delayTask ← deref delayTask
    let tDelay := s.delay delayTask
    if s.delay (.task s.rqactv) > tDelay then
      let s := { s with
        delay := Function.update s.delay (.task s.rqactv)
          (s.delay (.task s.rqactv) - tDelay) }
      insertLoop n s (s.next delayTask)
    else .ok (s, delayTask, tDelay)

/-- `yalrt.c:1057–1068`: the running task is linked in front of the first one that is due no
earlier. -/
def insertDelay (fuel : Nat) (s : Yalrt) : Exec Yalrt := do
  let (s, delayTask, tDelay) ← insertLoop fuel s .delayHead
  let s := { s with
    delay := Function.update s.delay delayTask (tDelay - s.delay (.task s.rqactv)) }
  let s := { s with prev := Function.update s.prev (.task s.rqactv) (s.prev delayTask) }
  let s := { s with prev := Function.update s.prev delayTask (.task s.rqactv) }
  let s := { s with next := Function.update s.next (.task s.rqactv) delayTask }
  let delayTask ← deref (s.prev (.task s.rqactv))
  let s := { s with next := Function.update s.next delayTask (.task s.rqactv) }
  .ok { s with delay := Function.update s.delay .delayTail 0xFFFF }

/-! ### Messages -/

/-- The test of `yalrt.c:340–341`. -/
def dequeuesInt (s : Yalrt) (exch : ExchId) (msg : Addr) : Prop :=
  msg = .msg (.interrupt exch) ∧ s.length (.interrupt exch) = intExchangeLength ∧
    s.type (.interrupt exch) < timeoutType

instance (s : Yalrt) (exch : ExchId) (msg : Addr) : Decidable (s.dequeuesInt exch msg) :=
  inferInstanceAs (Decidable (_ ∧ _ ∧ _))

/-- `yalrt.c:326–352`. -/
def reqdqmsg (s : Yalrt) (exch : ExchId) : Exec Yalrt := do
  if s.taskHead exch ≠ .null ∨ s.taskTail exch ≠ .exch exch then
    .ok { s with message := Function.update s.message s.rqactv .null }
  else
    let s := { s with message := Function.update s.message s.rqactv (s.messageHead exch) }
    let msg ← deref (s.messageHead exch)
    let isInt := decide (s.dequeuesInt exch msg)
    let s := if isInt then { s with qint := Function.update s.qint exch 0 } else s
    let s := { s with word0 := Function.update s.word0 (.exch exch) (s.word0 msg) }
    let s := if s.word0 msg = .null then
        { s with messageTail := Function.update s.messageTail exch (.exch exch) }
      else s
    .ok { s with word0 := Function.update s.word0 msg (if isInt then msg else .task s.rqactv) }

/-- The ownership test of `yalrt.c:972`, passed. -/
def accepts (s : Yalrt) (m : MsgId) : Prop :=
  s.msgLink m = .task s.rqactv ∨ s.msgLink m = .msg m

instance (s : Yalrt) (m : MsgId) : Decidable (s.accepts m) :=
  inferInstanceAs (Decidable (_ ∨ _))

/-- `yalrt.c:985–988`. -/
def appendMessage (s : Yalrt) (exch : ExchId) (m : MsgId) : Exec Yalrt := do
  let previousMessage ← deref (s.messageTail exch)
  let s := { s with word0 := Function.update s.word0 previousMessage (.msg m) }
  let s := { s with messageTail := Function.update s.messageTail exch (.msg m) }
  .ok { s with word0 := Function.update s.word0 (.msg m) .null }

/-- `yalrt.c:901–904,998–1000`: the first waiting task leaves the task queue. -/
def unlinkFirst (s : Yalrt) (exch : ExchId) (task : TaskId) : Yalrt :=
  let s := { s with
    thread := Function.update s.thread (.exch exch) (s.thread (.task task)) }
  if s.taskHead exch = .null then
    { s with taskTail := Function.update s.taskTail exch (.exch exch) }
  else s

/-- `yalrt.c:998–1007`: the message is handed to the first waiting task. The test of line 1002
is `task->status && delayed`. -/
def handOff (fuel : Nat) (s : Yalrt) (exch : ExchId) (task : TaskId) (m : MsgId) :
    Exec Yalrt := do
  let s := s.unlinkFirst exch task
  let s := s.setStatus task (s.status task &&& ~~~waiting)
  let s ← s.cancelDelayIf (logicalAnd (s.status task) delayed) task
  let s ← s.sched (Sched.enterlist fuel · task)
  .ok { s with
    word0 := Function.update s.word0 (.msg m) (.task task),
    message := Function.update s.message task (.msg m) }

/-- `yalrt.c:972–1008`. -/
def reqsend (fuel : Nat) (s : Yalrt) (exch : ExchId) (m : MsgId) : Exec Yalrt :=
  if ¬ s.accepts m then .error .frozen
  else if s.taskHead exch = .null then
    if s.taskTail exch ≠ .exch exch then .error .frozen
    else s.appendMessage exch m
  else if s.messageHead exch ≠ .null ∨ s.messageTail exch ≠ .exch exch then .error .frozen
  else do
    let task ← (s.taskHead exch).asTask
    s.handOff fuel exch task m

/-- `yalrt.c:1022–1024`. -/
def reqacpt (s : Yalrt) (exch : ExchId) : Exec Yalrt :=
  let s := { s with
    exchange := Function.update s.exchange s.rqactv (.exch exch),
    message := Function.update s.message s.rqactv .null }
  if s.messageHead exch ≠ .null then s.reqdqmsg exch else .ok s

/-! ### Waiting and suspension -/

/-- `yalrt.c:1049–1053`: the running task becomes the last one of the task queue. -/
def appendTask (s : Yalrt) (exch : ExchId) : Exec Yalrt :=
  let s := { s with ready := s.thread (.task s.rqactv) }
  let s := { s with thread := Function.update s.thread (.task s.rqactv) .null }
  let tailTask := s.taskTail exch
  if tailTask = .null then .error .fault
  else .ok { s with
    thread := Function.update s.thread tailTask (.task s.rqactv),
    taskTail := Function.update s.taskTail exch (.task s.rqactv) }

/-- `yalrt.c:1054–1070`. -/
def delayActive (fuel : Nat) (s : Yalrt) (delay : BitVec 16) : Exec Yalrt :=
  if delay ≠ 0 then
    let s := s.setStatus s.rqactv (s.status s.rqactv ||| delayed)
    insertDelay fuel { s with delay := Function.update s.delay (.task s.rqactv) delay }
  else .ok s

/-- `yalrt.c:1054–1073`. -/
def startDelay (fuel : Nat) (s : Yalrt) (delay : BitVec 16) : Exec Yalrt := do
  let s ← s.delayActive fuel delay
  if s.status s.rqactv &&& delayed = 0 then
    .ok (s.setStatus s.rqactv (s.status s.rqactv ||| waiting))
  else .ok s

/-- `yalrt.c:1047–1077`. With a null message the call comes to `reqfreeze`, `yalrt.c:1080`. -/
def reqwait (fuel : Nat) (s : Yalrt) (exch : ExchId) (delay : BitVec 16) : Exec Yalrt := do
  let s := { s with exchange := Function.update s.exchange s.rqactv (.exch exch) }
  if s.messageHead exch = .null then
    let s ← s.appendTask exch
    s.startDelay fuel delay
  else
    let s ← s.reqdqmsg exch
    if s.message s.rqactv = .null then .error .frozen else .ok s

/-- The loop `yalrt.c:1220–1222`. -/
def findWaiting : Nat → Sched → TaskId → ThreadPtr → Exec ThreadPtr
  | 0, _, _, _ => .error .fuel
  | n + 1, s, delayTask, currTask =>
    if currTask = .null then .error .fault
    else if s.thread currTask ≠ .task delayTask then
      findWaiting n s delayTask (s.thread currTask)
    else .ok currTask

/-- `yalrt.c:1223–1225`. -/
def unlinkWaiting (s : Yalrt) (exch : ExchId) (task : TaskId) (currTask : ThreadPtr) : Yalrt :=
  let s := { s with thread := Function.update s.thread currTask (s.thread (.task task)) }
  if s.thread currTask = .null then
    { s with taskTail := Function.update s.taskTail exch currTask }
  else s

/-- One turn of the loop `yalrt.c:1214–1230`. -/
def expire (fuel : Nat) (s : Yalrt) : Exec Yalrt := do
  require (s.delay (s.next .delayHead) = 0)
  let delayTask ← asTask (s.next .delayHead)
  let taskExch ← (s.exchange delayTask).asExch
  let currTask ← findWaiting fuel s.toSched delayTask (.exch taskExch)
  let s := s.unlinkWaiting taskExch delayTask currTask
  let s ← s.cancelDelay delayTask
  let s ← s.sched (Sched.enterlist fuel · delayTask)
  .ok { s with message := Function.update s.message delayTask (.msg .timeOut) }

/-- The test of `yalrt.c:1215`, failed. -/
def expired (s : Yalrt) : Exec Yalrt := do
  require (s.delay (s.next .delayHead) ≠ 0)
  .ok s

/-- An operation on the lists if the scan has found the task. -/
def schedIf (s : Yalrt) (ctask : ThreadPtr) (task : TaskId) (f : Sched → Exec Sched) :
    Exec Yalrt :=
  if ctask = .task task then s.sched f else .ok s

/-- `yalrt.c:707–715`. -/
def reqsusp (fuel : Nat) (s : Yalrt) (task : TaskId) : Exec Yalrt :=
  if task ≠ idleTask then do
    let ctask ← Sched.scanList fuel s.toSched task s.ready
    let s ← s.schedIf ctask task (Sched.removelist fuel · task)
    let s := s.setStatus task (s.status task ||| suspended)
    s.schedIf ctask task (Sched.enterlist fuel · task)
  else .ok s

/-- `yalrt.c:734–740`. -/
def reqresm (fuel : Nat) (s : Yalrt) (task : TaskId) : Exec Yalrt := do
  let ctask ← Sched.scanList fuel s.toSched task s.headPtr
  let s ← s.schedIf ctask task (Sched.removelist fuel · task)
  let s := s.setStatus task (s.status task &&& ~~~suspended)
  s.schedIf ctask task (Sched.enterlist fuel · task)

/-! ### Interrupts -/

/-- `isnd_queue[queue_index++] = int_ex`. -/
def appendInt (s : Yalrt) (intEx : ExchId) : Yalrt :=
  { s with
    isndQueue := Function.update s.isndQueue s.queueIndex intEx,
    queueIndex := s.queueIndex + 1 }

/-- `yalrt.c:1255–1258,1287–1290`. -/
def signal (s : Yalrt) (intEx : ExchId) : Yalrt :=
  if s.msgLink (.interrupt intEx) = .msg (.interrupt intEx) then s.appendInt intEx
  else s.setType (.interrupt intEx) missedIntType

/-- `yalrt.c:1144–1152`: the delay of the first task is counted down; is it due? -/
def countDown (s : Yalrt) : Exec (Yalrt × Bool) := do
  let waitingTask ← deref (s.next .delayHead)
  if s.delay waitingTask = 0xFFFF then .ok (s, false)
  else if s.delay waitingTask = 0 then .ok (s, true)
  else
    let s := { s with
      delay := Function.update s.delay waitingTask (s.delay waitingTask - 1) }
    .ok (s, s.delay waitingTask = 0)

/-- `yalrt.c:1141–1155` up to `enter_region`. -/
def timerHandler (s : Yalrt) : Exec Yalrt := do
  let sendint := decide (s.queueIndex ≠ 0)
  let (s, due) ← s.countDown
  let s := if due then s.appendInt rqDelayExchange else s
  .ok (if sendint || due then { s with irq := s.irq ++ [.enterRegion] } else s)

/-- `yalrt.c:867–878`. -/
def exitRegion (s : Yalrt) (fromInt : Bool) : Exec Yalrt :=
  if s.criticalRegionFlag ≠ 1 then
    if 100 < s.criticalRegionFlag then .error .frozen
    else .ok { s with criticalRegionFlag := s.criticalRegionFlag - 1 }
  else
    let s := if fromInt then s.setStatus s.rqactv (s.status s.rqactv ||| maskint) else s
    .ok { s with line := .drain }

/-- The next line of the handler at a place of the list. -/
def irqStep (s : Yalrt) (i : Nat) : Exec Yalrt :=
  match s.irq[i]? with
  | none => .error .blocked
  | some .enterRegion =>
    .ok { s with
      criticalRegionFlag := s.criticalRegionFlag + 1, irq := s.irq.set i .exitRegion }
  | some (.append e) => .ok { s.signal e with irq := s.irq.set i .exitRegion }
  | some .exitRegion => { s with irq := s.irq.eraseIdx i }.exitRegion true

/-- `yalrt.c:888–892`. -/
def queueInt (s : Yalrt) (intEx : ExchId) : Exec Yalrt := do
  let tailMsg ← deref (s.messageTail intEx)
  let s := { s with
    messageTail := Function.update s.messageTail intEx (.msg (.interrupt intEx)) }
  let s := { s with word0 := Function.update s.word0 tailMsg (.msg (.interrupt intEx)) }
  .ok { s with
    word0 := Function.update s.word0 (.msg (.interrupt intEx)) .null,
    qint := Function.update s.qint intEx 1 }

/-- `yalrt.c:901–912`. -/
def handInt (fuel : Nat) (s : Yalrt) (intEx : ExchId) (waitingTask : TaskId) :
    Exec Yalrt := do
  let s := s.unlinkFirst intEx waitingTask
  let s := s.setStatus waitingTask (s.status waitingTask &&& ~~~waiting)
  let s ← s.cancelDelayIf (s.status waitingTask &&& delayed != 0) waitingTask
  let s := { s with
    word0 := Function.update s.word0 (.msg (.interrupt intEx)) (.msg (.interrupt intEx)),
    message := Function.update s.message waitingTask (.msg (.interrupt intEx)) }
  s.sched (Sched.enterlist fuel · waitingTask)

/-- `yalrt.c:879–880`: the test of the loop and `--queue_index`. -/
def pop (s : Yalrt) : Exec Yalrt :=
  match s.queueIndex with
  | 0 => .error .blocked
  | n + 1 => .ok { s with queueIndex := n, slot := n }

/-- `yalrt.c:880–881`: the slot is read, and interrupts are stalled. -/
def fetch (s : Yalrt) : Exec Yalrt := .ok { s with qIntMsg := s.isndQueue s.slot }

/-- `yalrt.c:882–913` for the entry that was read. -/
def deliver (fuel : Nat) (s : Yalrt) : Exec Yalrt :=
  let intEx := s.qIntMsg
  let s := s.setType (.interrupt intEx) intType
  if s.taskHead intEx = .null then
    if s.msgLink (.interrupt intEx) = .msg (.interrupt intEx) then s.queueInt intEx
    else .ok (s.setType (.interrupt intEx) missedIntType)
  else do
    let waitingTask ← (s.taskHead intEx).asTask
    s.handInt fuel intEx waitingTask

/-- The test of `yalrt.c:879`, failed. -/
def drained (s : Yalrt) : Exec Yalrt := do
  require (s.queueIndex = 0)
  .ok s

/-- `yalrt.c:916–929`: the processor is given to the first task of the ready list. -/
def switch (s : Yalrt) : Exec Yalrt :=
  if s.ready ≠ .task s.rqactv then do
    let t ← s.ready.asTask
    .ok { s with rqactv := t }
  else .ok s

/-- `yalrt.c:916–953`. -/
def close (s : Yalrt) : Exec Yalrt := do
  let s ← s.switch
  let s := if s.status s.rqactv &&& maskint = 0 then s
    else s.setStatus s.rqactv (s.status s.rqactv &&& ~~~maskint)
  .ok { s with criticalRegionFlag := 0, line := .user }

end Yalrt

/-! ### Steps -/

/-- The steps of the tasks and of the handlers. -/
inductive YalrtOp where
  /-- `enter_region` of a system call -/
  | enterRegion
  | reqsend (e : ExchId) (m : MsgId)
  | reqacpt (e : ExchId)
  | reqwait (e : ExchId) (d : BitVec 16)
  | reqsusp (t : TaskId)
  | reqresm (t : TaskId)
  /-- one turn of the loop of `rqdelaytask` -/
  | expire
  /-- the loop of `rqdelaytask` ends -/
  | expired
  /-- `exit_region(0)` of a system call -/
  | exitRegion
  /-- a turn of the loop of `exit_region` begins with `--queue_index` -/
  | pop
  /-- the slot is read -/
  | fetch
  /-- the rest of the turn -/
  | deliver
  /-- the loop of `exit_region` ends -/
  | drained
  /-- the rest of `exit_region` -/
  | close
  /-- an interrupt, up to `enter_region` -/
  | reqisnd (e : ExchId)
  /-- a service request, up to the critical section of `reqssnd` -/
  | reqssnd (e : ExchId)
  /-- a timer interrupt, up to `enter_region` -/
  | timer
  /-- the next line of a handler -/
  | irq (i : Nat)
  deriving DecidableEq, Repr

namespace Yalrt

/-- No handler is inside the critical region. A handler that is runs to its `exit_region` before
anything below it goes on. -/
def Outside (s : Yalrt) : Prop := ∀ l ∈ s.irq, l = .enterRegion

instance (s : Yalrt) : Decidable s.Outside := inferInstanceAs (Decidable (∀ l ∈ s.irq, _))

/-- The lines below the handlers go on from one point to another. -/
def mainStep (s : Yalrt) (from_ to_ : MainLine) (f : Yalrt → Exec Yalrt) : Exec Yalrt := do
  require (s.line = from_ ∧ s.Outside)
  let s ← f s
  .ok { s with line := to_ }

/-- One step. -/
def step (fuel : Nat) (s : Yalrt) : YalrtOp → Exec Yalrt
  | .enterRegion => s.mainStep .user .entered fun s ↦
    .ok { s with criticalRegionFlag := s.criticalRegionFlag + 1 }
  | .reqsend e m => s.mainStep .entered .exitRegion (reqsend fuel · e m)
  | .reqacpt e => s.mainStep .entered .exitRegion (reqacpt · e)
  | .reqwait e d => s.mainStep .entered .exitRegion (reqwait fuel · e d)
  | .reqsusp t => s.mainStep .entered .exitRegion (reqsusp fuel · t)
  | .reqresm t => s.mainStep .entered .exitRegion (reqresm fuel · t)
  | .expire => do
    require (s.line = .entered ∨ s.line = .expiry)
    s.mainStep s.line .expiry (expire fuel ·)
  | .expired => do
    require (s.line = .entered ∨ s.line = .expiry)
    s.mainStep s.line .exitRegion expired
  | .exitRegion => do
    let s ← s.mainStep .exitRegion .user .ok
    s.exitRegion false
  | .pop => s.mainStep .drain .fetch pop
  | .fetch => s.mainStep .fetch .deliver fetch
  | .deliver => s.mainStep .deliver .drain (deliver fuel ·)
  | .drained => s.mainStep .drain .switch drained
  | .close => s.mainStep .switch .user close
  | .reqisnd e => .ok { s.signal e with irq := s.irq ++ [.enterRegion] }
  | .reqssnd e => .ok { s with
    criticalRegionFlag := s.criticalRegionFlag + 1, irq := s.irq ++ [.append e] }
  | .timer => s.timerHandler
  | .irq i => s.irqStep i

/-- One step that returns. -/
def Step (s : Yalrt) (o : YalrtOp) (s' : Yalrt) : Prop := ∃ fuel, step fuel s o = .ok s'

end Yalrt

end YRmx
