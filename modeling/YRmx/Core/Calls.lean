import YRmx.Core.Delay

/-!
# The system calls

Library `YRmx`. The calls of `ycore.c`, each up to the next point at which its thread may
have to wait. `rqactv` is what `active_task()` returns in the calling thread; the debugging
output of the calls is left out. The build is the default one: `LSCHED`, no `BY_STEP`,
`EARLY_RUN`, `WITH_READY_LIST`, `DEL_FROM_LIST` or `STOP_TIMER`.
-/

namespace YRmx

/-- Where a thread goes on when `reqfreeze` lets it go. -/
def Call.resume : Call → Pc
  | .reqfreeze => .user
  | c => .exitRegion c

namespace Control

/-! ### Calls that touch no list -/

/-- `ycore.c:961–980`, called on the way to `k`. -/
def reqfreeze (c : Control) (rqactv : TaskId) (k : Call) : Control :=
  if c.rqfrozen then c.goto rqactv k.resume
  else
    let c := { c with rqfrozen := true }
    if rqactv ≠ rootTaskTd then c.goto rqactv (.freeze k) else c.goto rqactv k.resume

/-- `ycore.c:989–996`. -/
def reqbake (c : Control) : Control := if c.rqfrozen then { c with rqfrozen := false } else c

/-- `ycore.c:1009–1034` up to the test of `rqfrozen`. C reads the inner condition as
`task->status & (needpost == 0)`. -/
def exitRegion (c : Control) (task : TaskId) (k : Call) : Control :=
  if c.status task &&& suspended ≠ 0 then
    if c.status task &&& (if needpost = 0 then 1 else 0) ≠ 0 then
      (c.setStatus task (c.status task ||| needpost)).goto task (.held k)
    else c.goto task (.thaw k)
  else c.goto task (.thaw k)

/-- `ycore.c:1018–1020`: the `sem_wait` of `exit_region` returns. -/
def heldWake (c : Control) (task : TaskId) (k : Call) : Control :=
  let c := c.semTake task
  (c.setStatus task (c.status task &&& ~~~(suspended ||| needpost))).goto task (.thaw k)

/-- `ycore.c:1021–1033`: `exit_region` returns, and with it the call. -/
def leaveRegion (c : Control) (task : TaskId) : Control :=
  (c.setStatus task running).goto task .user

/-- The error branches of `reqsend` (`ycore.c:1053–1056,1061–1064,1074–1077`): the system is
frozen and `exit_region` entered while `exch->mutex` stays locked. -/
def sendError (c : Control) (rqactv : TaskId) (exch : ExchId) : Control :=
  { c with mutex := Function.update c.mutex exch true }.reqfreeze rqactv (.reqsend exch)

/-- `ycore.c:1216–1220`: a call to `reqwait` comes to `exit_region`. -/
def waitDone (c : Control) (rqactv : TaskId) (exch : ExchId) (delay : BitVec 16) : Control :=
  if c.message rqactv = .null then c.reqfreeze rqactv (.reqwait exch delay)
  else c.goto rqactv (.exitRegion (.reqwait exch delay))

/-- `ycore.c:900–916`, up to the `sem_wait` of a task that suspends itself. -/
def reqsusp (c : Control) (rqactv task : TaskId) : Control :=
  let c := c.setStatus task (c.status task ||| suspended)
  if task = rqactv then
    (c.setStatus task (c.status task ||| needpost)).goto task .suspWait
  else c

/-- `ycore.c:916–917`: the `sem_wait` of `reqsusp` returns. -/
def reqsuspResume (c : Control) (task : TaskId) : Control :=
  let c := c.semTake task
  (c.setStatus task (c.status task &&& ~~~(suspended ||| needpost))).goto task .user

/-- `ycore.c:930–949`. -/
def reqresm (c : Control) (task : TaskId) : Control :=
  if c.status task &&& suspended ≠ 0 then
    let c := c.setStatus task (c.status task &&& ~~~suspended)
    if c.status task &&& needpost ≠ 0 then
      (c.setStatus task (c.status task &&& ~~~needpost)).semPost task
    else c
  else c

/-- `ycore.c:842–846`. The caller's own thread exits, another one is only asked to end. -/
def reqdtskEnd (c : Control) (rqactv task : TaskId) : Control :=
  let c := c.setStatus task deleted
  if task = rqactv then c.goto task .dead
  else { c with cancel := Function.update c.cancel task true }

/-- `ycore.c:793,795–797`: the fields that `reqcmsg` sets beside the link. -/
def initMessage (c : Control) (m : MsgId) (msgsize now : BitVec 32) : Control :=
  { c with
    length := Function.update c.length m msgsize
    type := Function.update c.type m 0x40
    yltime := Function.update c.yltime m now
    homeExchange := Function.update c.homeExchange m .null
    responseExchange := Function.update c.responseExchange m .null }

end Control

/-! ### Messages -/

/-- `ycore.c:791–798`. -/
def reqcmsg (s : Nucleus) (rqactv : TaskId) (m : MsgId) (msgsize now : BitVec 32) : Nucleus :=
  { s.ctl (·.initMessage m msgsize now) with
    word0 := Function.update s.word0 (.msg m) (.task rqactv) }

/-- The test of `ycore.c:440–441`. -/
def dequeuesInt (s : Nucleus) (exch : ExchId) (msg : Addr) : Prop :=
  msg = .msg (.interrupt exch) ∧ s.length (.interrupt exch) = intExchangeLength ∧
    s.type (.interrupt exch) < timeoutType

instance (s : Nucleus) (exch : ExchId) (msg : Addr) : Decidable (dequeuesInt s exch msg) :=
  inferInstanceAs (Decidable (_ ∧ _ ∧ _))

/-- `ycore.c:426–452`. -/
def reqdqmsg (s : Nucleus) (exch : ExchId) (rqactv : TaskId) : Exec Nucleus := do
  if s.taskHead exch ≠ .null ∨ s.taskTail exch ≠ .exch exch then
    .ok (s.ctl (·.setMessage rqactv .null))
  else
    let s := s.ctl (·.setMessage rqactv (s.messageHead exch))
    let msg ← deref (s.messageHead exch)
    let isInt := decide (dequeuesInt s exch msg)
    let s := if isInt then { s with qint := Function.update s.qint exch 0 } else s
    let s := { s with word0 := Function.update s.word0 (.exch exch) (s.word0 msg) }
    let s := if s.word0 msg = .null then
        { s with word1 := Function.update s.word1 (.exch exch) (.exch exch) }
      else s
    .ok { s with word0 := Function.update s.word0 msg (if isInt then msg else .task rqactv) }

/-- The ownership test of `ycore.c:1052`, passed. -/
def accepts (s : Nucleus) (rqactv : TaskId) (m : MsgId) : Prop :=
  s.msgLink m = .task rqactv ∨ s.msgLink m = .msg m

instance (s : Nucleus) (rqactv : TaskId) (m : MsgId) : Decidable (accepts s rqactv m) :=
  inferInstanceAs (Decidable (_ ∨ _))

/-- `ycore.c:1066–1069`. -/
def appendMessage (s : Nucleus) (exch : ExchId) (m : MsgId) : Exec Nucleus := do
  let previousMessage ← deref (s.messageTail exch)
  let s := { s with word0 := Function.update s.word0 previousMessage (.msg m) }
  let s := { s with word1 := Function.update s.word1 (.exch exch) (.msg m) }
  .ok { s with word0 := Function.update s.word0 (.msg m) .null }

/-- `ycore.c:1081–1083`: the first waiting task leaves the task queue. -/
def unlinkFirst (s : Nucleus) (exch : ExchId) (task : TaskId) : Nucleus :=
  let s := { s with word2 := Function.update s.word2 (.exch exch) (s.link task) }
  if s.taskHead exch = .null then
    { s with taskTail := Function.update s.taskTail exch (.exch exch) }
  else s

/-- `ycore.c:1084–1087`: the message and the task are given to each other. -/
def giveMessage (s : Nucleus) (task : TaskId) (m : MsgId) : Nucleus :=
  let s := { s with
    word0 := Function.update s.word0 (.msg m)
      (if s.type m > timeoutType then .task task else .msg m) }
  s.ctl fun c ↦ (c.setMessage task (.msg m)).setStatus task (c.status task &&& ~~~waiting)

/-- The test of `ycore.c:1088`, `task->status && delayed`. -/
def sendCancels (s : Nucleus) (task : TaskId) : Bool := logicalAnd (s.status task) delayed

/-- `ycore.c:1081–1096`: the message is handed to the first waiting task. -/
def handOff (s : Nucleus) (exch : ExchId) (task : TaskId) (m : MsgId) : Exec Nucleus := do
  let s := giveMessage (unlinkFirst s exch task) task m
  let s ← if sendCancels s task then cancelDelay s task else .ok s
  .ok (s.ctl (·.semPost task))

/-- `ycore.c:1042–1099`. -/
def reqsend (s : Nucleus) (rqactv : TaskId) (exch : ExchId) (m : MsgId) : Exec Nucleus := do
  require (s.mutex exch = false)
  if ¬ accepts s rqactv m then .ok (s.ctl (·.sendError rqactv exch))
  else if s.taskHead exch = .null then
    if s.taskTail exch ≠ .exch exch then .ok (s.ctl (·.sendError rqactv exch))
    else appendMessage s exch m
  else if s.messageHead exch ≠ .null ∨ s.messageTail exch ≠ .exch exch then
    .ok (s.ctl (·.sendError rqactv exch))
  else
    let task ← asTask (s.taskHead exch)
    handOff s exch task m

/-- `ycore.c:1106–1117` up to `exit_region`. -/
def reqacpt (s : Nucleus) (rqactv : TaskId) (exch : ExchId) : Exec Nucleus := do
  require (s.mutex exch = false)
  let s := s.ctl fun c ↦ (c.setExchange rqactv (.exch exch)).setMessage rqactv .null
  let s ← if s.messageHead exch ≠ .null then reqdqmsg s exch rqactv else .ok s
  .ok (s.ctl (·.goto rqactv (.exitRegion (.reqacpt exch))))

/-! ### Waiting -/

/-- `ycore.c:1157–1170`: the caller becomes the last one of the task queue. -/
def appendTask (s : Nucleus) (exch : ExchId) (rqactv : TaskId) : Exec Nucleus := do
  let s := { s with word2 := Function.update s.word2 (.task rqactv) .null }
  let s ← if s.taskHead exch = .null then
      .ok { s with word2 := Function.update s.word2 (.exch exch) (.task rqactv) }
    else do
      let tailTask ← deref (s.taskTail exch)
      let s := { s with tailTask := tailTask }
      .ok { s with word2 := Function.update s.word2 s.tailTask (.task rqactv) }
  let s := { s with taskTail := Function.update s.taskTail exch (.task rqactv) }
  if s.link rqactv = .task rqactv then .error .frozen else .ok s

/-- `ycore.c:1171–1191`. -/
def startDelay (fuel : Nat) (s : Nucleus) (rqactv : TaskId) (delay : BitVec 16) :
    Exec Nucleus :=
  if delay ≠ 0 then
    let s := s.ctl (·.setStatus rqactv delayed)
    let s := { s with delay := Function.update s.delay (.task rqactv) delay }
    insertDelay fuel s rqactv
  else .ok (s.ctl (·.setStatus rqactv waiting))

/-- `ycore.c:1127–1222` up to `sem_wait`, or to `exit_region` when a message is there. -/
def reqwait (fuel : Nat) (s : Nucleus) (rqactv : TaskId) (exch : ExchId) (delay : BitVec 16) :
    Exec Nucleus := do
  require (s.mutex exch = false)
  let s := s.ctl (·.setExchange rqactv (.exch exch))
  if s.messageHead exch = .null then
    let s ← appendTask s exch rqactv
    let s ← startDelay fuel s rqactv delay
    .ok (s.ctl (·.goto rqactv (.semWait exch delay)))
  else
    let s ← reqdqmsg s exch rqactv
    .ok (s.ctl (·.waitDone rqactv exch delay))

/-- `ycore.c:1193–1220`: the `sem_wait` of `reqwait` returns. -/
def reqwaitResume (s : Nucleus) (rqactv : TaskId) (exch : ExchId) (delay : BitVec 16) :
    Exec Nucleus := do
  require (0 < s.sema rqactv ∧ s.mutex exch = false)
  let s := s.ctl fun c ↦ (c.semTake rqactv).setStatus rqactv 0
  if s.link rqactv = .task rqactv then .error .frozen
  else .ok (s.ctl (·.waitDone rqactv exch delay))

/-! ### The timer and the delay task -/

/-- `ycore.c:1365–1374`. -/
def reqisnd (s : Nucleus) (rqactv : TaskId) (intEx : ExchId) : Exec Nucleus :=
  if s.msgLink (.interrupt intEx) = .msg (.interrupt intEx) then
    reqsend (s.ctl (·.setType (.interrupt intEx) intType)) rqactv intEx (.interrupt intEx)
  else .ok (s.ctl (·.setType (.interrupt intEx) missedIntType))

/-- `ycore.c:1287–1299`: the first delay is counted down; the flag is `isnd`. -/
def countDown (s : Nucleus) : Exec (Nucleus × Bool) := do
  let waitingTask ← deref (s.word0 .delayHead)
  if s.delay waitingTask ≠ 0xFFFF then
    if s.delay waitingTask = 0 then .ok (s, true)
    else
      let s := { s with
        delay := Function.update s.delay waitingTask (s.delay waitingTask - 1) }
      .ok (s, decide (s.delay waitingTask = 0))
  else .ok (s, false)

/-- One pass of the loop of `rqtimer`, `ycore.c:1286–1301`. -/
def rqtimer (s : Nucleus) : Exec Nucleus := do
  let (s, isnd) ← countDown s
  if isnd then reqisnd s rqtimerTd rqDelayExchange else .ok s

/-- `ycore.c:1329–1352`: one expiry loop of `rqdelaytask`, up to `exit_region`. -/
def rqdelaytask (fuel : Nat) (s : Nucleus) : Exec Nucleus := do
  let s ← expiryLoop fuel fuel s
  .ok (s.ctl (·.goto rqdelaytaskTd (.exitRegion .rqdelaytask)))

/-! ### Deletion -/

/-- `ycore.c:813–819`: a task that waits at an exchange leaves it. -/
def dequeueDeleted (fuel : Nat) (s : Nucleus) (task : TaskId) : Exec Nucleus := do
  if s.status task &&& (waiting ||| delayed) ≠ 0 then
    if s.exchange task ≠ .null then
      let s ← reqdqtsk fuel s task
      if s.status task &&& delayed ≠ 0 then cancelDelay s task else .ok s
    else .ok s
  else .ok s

/-- `ycore.c:806–847`. -/
def reqdtsk (fuel : Nat) (s : Nucleus) (rqactv task : TaskId) : Exec Nucleus := do
  let s ← dequeueDeleted fuel s task
  .ok (s.ctl (·.reqdtskEnd rqactv task))

end YRmx
