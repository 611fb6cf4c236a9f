import YRmx.Core.State

/-!
# The delay list

Library `YRmx`. Insertion of a timed `reqwait` (`ycore.c:1173–1186`), removal by
`cancel_delay` (`ycore.c:461–485`) and the search loop over an exchange's task queue that
`reqdqtsk` and `rqdelaytask` share (`ycore.c:506–519,1332–1341`). Loops take an amount of
fuel; a loop that needs more stops with `Stop.fuel`.
-/

namespace YRmx

/-- `ycore.c:461–478`, with `STOP_TIMER` undefined. -/
def cancelDelayUnsafe (s : Nucleus) (task : TaskId) : Exec Nucleus := do
  let linktask ← deref (s.next task)
  let s := { s with
    delay := Function.update s.delay linktask (s.delay linktask + s.delay (.task task)) }
  let s := { s with word1 := Function.update s.word1 linktask (s.prev task) }
  let linktask ← deref (s.prev task)
  let s := { s with word0 := Function.update s.word0 linktask (s.next task) }
  let s := { s with delay := Function.update s.delay .delayTail 0xFFFF }
  .ok (s.ctl (·.setStatus task (s.status task &&& ~~~delayed)))

/-- `ycore.c:480–485`; the delay list mutex is free between calls. -/
def cancelDelay (s : Nucleus) (task : TaskId) : Exec Nucleus := cancelDelayUnsafe s task

/-- The loop of `ycore.c:1176–1179`, which also returns `t_delay`. -/
def insertLoop (rqactv : TaskId) : Nat → Nucleus → Addr → Exec (Nucleus × Addr × BitVec 16)
  | 0, _, _ => .error .fuel
  | n + 1, s, delayTask => do
    let delayTask ← deref delayTask
    let tDelay := s.delay delayTask
    if s.delay (.task rqactv) > tDelay then
      let s := { s with
        delay := Function.update s.delay (.task rqactv) (s.delay (.task rqactv) - tDelay) }
      insertLoop rqactv n s (s.word0 delayTask)
    else .ok (s, delayTask, tDelay)

/-- `ycore.c:1175–1186`: link the task in front of the first one that is due no earlier. -/
def insertDelay (fuel : Nat) (s : Nucleus) (rqactv : TaskId) : Exec Nucleus := do
  let (s, delayTask, tDelay) ← insertLoop rqactv fuel s .delayHead
  let s := { s with
    delay := Function.update s.delay delayTask (tDelay - s.delay (.task rqactv)) }
  let s := { s with word1 := Function.update s.word1 (.task rqactv) (s.word1 delayTask) }
  let s := { s with word1 := Function.update s.word1 delayTask (.task rqactv) }
  let s := { s with word0 := Function.update s.word0 (.task rqactv) delayTask }
  let delayTask ← deref (s.prev rqactv)
  let s := { s with word0 := Function.update s.word0 delayTask (.task rqactv) }
  .ok { s with delay := Function.update s.delay .delayTail 0xFFFF }

/-- `while (curr_task->link != delay_task) curr_task = curr_task->link`, from
`ycore.c:513–515` and `ycore.c:1336–1338`. -/
def findLink (s : Nucleus) (delayTask : TaskId) : Nat → Addr → Exec Addr
  | 0, _ => .error .fuel
  | n + 1, currTask => do
    let currTask ← deref currTask
    if s.word2 currTask = .task delayTask then .ok currTask
    else findLink s delayTask n (s.word2 currTask)

/-- `ycore.c:516–519` and `ycore.c:1339–1341`: unlink behind `curr_task`. -/
def unlinkTask (s : Nucleus) (taskExch : ExchId) (currTask : Addr) (delayTask : TaskId) :
    Nucleus :=
  let s := { s with word2 := Function.update s.word2 currTask (s.link delayTask) }
  if s.word2 currTask = .null then
    { s with taskTail := Function.update s.taskTail taskExch currTask }
  else s

/-- `ycore.c:494–521`. On an empty task queue the caller is frozen there. -/
def reqdqtsk (fuel : Nat) (s : Nucleus) (delayTask : TaskId) : Exec Nucleus := do
  let taskExch ← asExch (s.exchange delayTask)
  if s.taskHead taskExch = .null then .error .frozen
  else
    let currTask ← findLink s delayTask fuel (.exch taskExch)
    .ok (unlinkTask s taskExch currTask delayTask)

/-- One pass of the loop of `ycore.c:1331–1350`, for a task whose delay has run out. -/
def expireTask (fuel : Nat) (s : Nucleus) (delayTask : TaskId) : Exec Nucleus := do
  let taskExch ← asExch (s.exchange delayTask)
  let currTask ← findLink s delayTask fuel (.exch taskExch)
  let s := unlinkTask s taskExch currTask delayTask
  let s ← cancelDelayUnsafe s delayTask
  .ok (s.ctl fun c ↦ (c.setMessage delayTask (.msg .timeOut)).semPost delayTask)

/-- The loop of `ycore.c:1330–1350`; `fuel` bounds the search in each pass. -/
def expiryLoop (fuel : Nat) : Nat → Nucleus → Exec Nucleus
  | 0, _ => .error .fuel
  | n + 1, s => do
    let delayTask ← deref (s.word0 .delayHead)
    if s.delay delayTask = 0 then
      let t ← asTask delayTask
      let s ← expireTask fuel s t
      expiryLoop fuel n s
    else .ok s

end YRmx
