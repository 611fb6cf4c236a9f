import YRmx.Yalrt.InterruptQueue

/-!
# What `yalrt.c` is for

Library `YRmx`. The plan keeps the runnable tasks in the order in which they are to run, the
suspended ones, the waiting ones with the messages at every exchange, the delays, who may send
a message that is not queued, and the interrupts that are not delivered yet. Pointers, status
bytes, the lines of the system calls and those of the handlers have no place in it.
-/

namespace YRmx

open Priority

/-- What a step means to the tasks. -/
inductive Act where
  | reqsend (e : ExchId) (m : MsgId)
  | reqacpt (e : ExchId)
  | reqwait (e : ExchId) (d : BitVec 16)
  | reqsusp (t : TaskId)
  | reqresm (t : TaskId)
  /-- the delay task gives the first task of the delay list the time-out message -/
  | expire
  /-- the last interrupt is counted off -/
  | pop
  /-- its slot is read -/
  | fetch
  /-- the interrupt that was taken up is delivered -/
  | deliver
  /-- the processor is given to the first task of the ready list -/
  | switch
  | tick
  | interrupt (e : ExchId)
  /-- the nucleus goes on by a line -/
  | silent
  deriving DecidableEq, Repr

/-- The lists that the descriptors stand for. -/
structure Plan where
  ready : List TaskId
  suspendList : List TaskId
  rqactv : TaskId
  /-- who is to be suspended when it becomes able to run -/
  suspends : TaskId → Bool
  tq : ExchId → List TaskId
  mq : ExchId → List MsgId
  /-- the timed tasks with the ticks that remain -/
  dl : List (TaskId × Nat)
  /-- who may send a message that is not queued: a task, or anybody for a self-linked one -/
  own : MsgId → Addr
  message : TaskId → Addr
  type : MsgId → BitVec 32
  length : MsgId → BitVec 32
  /-- the exchanges whose interrupt is not counted off yet -/
  interrupts : List ExchId
  /-- the one that was counted off or taken up, if any -/
  taken : Option ExchId
  /-- it is not read yet, and the next interrupt takes its place -/
  exposed : Bool
  priority : TaskId → BitVec 8

namespace Plan

/-- A priority value as a number. -/
abbrev key (p : Plan) (t : TaskId) : Nat := (p.priority t).toNat

/-- A task became able to run. -/
def wake (p : Plan) (t : TaskId) : Plan :=
  { p with
    ready := if p.suspends t then p.ready else enqueue p.key t p.ready
    suspendList := if p.suspends t then p.suspendList ++ [t] else p.suspendList }

/-- A waiting task gets a message and becomes able to run. -/
def give (p : Plan) (t : TaskId) (m : MsgId) : Plan :=
  { p with
    dl := p.dl.filter (·.1 ≠ t)
    message := Function.update p.message t (.msg m) }.wake t

/-- A message is handed to the first waiting task, which becomes its owner or not, or it is
queued. -/
def send (p : Plan) (e : ExchId) (m : MsgId) (owner : TaskId → Addr) : Plan :=
  match p.tq e with
  | [] => { p with
      mq := Function.update p.mq e (p.mq e ++ [m])
      own := Function.update p.own m .null }
  | t :: ts => { p with
      tq := Function.update p.tq e ts
      own := Function.update p.own m (owner t) }.give t m

/-- A message that is received is embedded in its exchange and stays nobody's. -/
def receivesInt (p : Plan) (e : ExchId) (m : MsgId) : Prop :=
  m = .interrupt e ∧ p.length (.interrupt e) = intExchangeLength ∧
    p.type (.interrupt e) < timeoutType

instance (p : Plan) (e : ExchId) (m : MsgId) : Decidable (p.receivesInt e m) :=
  inferInstanceAs (Decidable (_ ∧ _ ∧ _))

/-- The running task gets the first message of an exchange, if there is one. -/
def receive (p : Plan) (e : ExchId) : Plan :=
  match p.mq e with
  | [] => { p with message := Function.update p.message p.rqactv .null }
  | m :: ms => { p with
      mq := Function.update p.mq e ms
      message := Function.update p.message p.rqactv (.msg m)
      own := Function.update p.own m
        (if p.receivesInt e m then .msg m else .task p.rqactv) }

/-- The running task begins to wait. -/
def block (p : Plan) (e : ExchId) (d : BitVec 16) : Plan :=
  { p with
    ready := p.ready.erase p.rqactv
    tq := Function.update p.tq e (p.tq e ++ [p.rqactv])
    dl := if d = 0 then p.dl else p.dl.orderedInsert due (p.rqactv, d.toNat) }

/-- The task may send the message. -/
def Accepts (p : Plan) (m : MsgId) : Prop := p.own m = .task p.rqactv ∨ p.own m = .msg m

instance (p : Plan) (m : MsgId) : Decidable (p.Accepts m) := inferInstanceAs (Decidable (_ ∨ _))

/-- Nobody holds the message of the exchange, and it is not queued. -/
def Free (p : Plan) (e : ExchId) : Prop := p.own (.interrupt e) = .msg (.interrupt e)

instance (p : Plan) (e : ExchId) : Decidable (p.Free e) := inferInstanceAs (Decidable (_ = _))

/-- The message of an exchange is delivered, or recorded as missed. -/
def deliver (p : Plan) (e : ExchId) : Plan :=
  if p.tq e ≠ [] ∨ p.Free e then
    { p with
      taken := none
      type := Function.update p.type (.interrupt e) intType }.send e (.interrupt e)
        fun _ ↦ .msg (.interrupt e)
  else
    { p with
      taken := none
      type := Function.update p.type (.interrupt e) missedIntType }

/-- An interrupt is appended, also in the place of one that was counted off and not read. -/
def append (p : Plan) (e : ExchId) : Plan :=
  { p with
    interrupts := p.interrupts ++ [e]
    taken := if p.exposed then some e else p.taken
    exposed := false }

/-- What the nucleus does for each act. -/
def step (p : Plan) : Act → Plan
  | .reqsend e m => if p.Accepts m then p.send e m .task else p
  | .reqacpt e => p.receive e
  | .reqwait e d => if p.mq e = [] then p.block e d else p.receive e
  | .reqsusp t =>
    if t = idleTask then p
    else if t ∈ p.ready then
      { p with
        ready := p.ready.erase t
        suspendList := p.suspendList ++ [t]
        suspends := Function.update p.suspends t true }
    else { p with suspends := Function.update p.suspends t true }
  | .reqresm t =>
    if t ∈ p.suspendList then
      { p with
        ready := enqueue p.key t p.ready
        suspendList := p.suspendList.erase t
        suspends := Function.update p.suspends t false }
    else { p with suspends := Function.update p.suspends t false }
  | .expire =>
    match p.dl with
    | (t, 0) :: _ => { p with tq := fun e ↦ (p.tq e).erase t }.give t .timeOut
    | _ => p
  | .pop => { p with
      interrupts := p.interrupts.dropLast
      taken := p.interrupts.getLast?
      exposed := true }
  | .fetch => { p with exposed := false }
  | .deliver =>
    match p.taken with
    | some e => p.deliver e
    | none => p
  | .switch =>
    match p.ready.head? with
    | some t => { p with rqactv := t }
    | none => p
  | .tick =>
    let q := { p with dl := (Classified.ticked p.dl).1 }
    if (Classified.ticked p.dl).2 then q.append rqDelayExchange else q
  | .interrupt e =>
    if p.Free e then p.append e
    else { p with type := Function.update p.type (.interrupt e) missedIntType }
  | .silent => p

/-- What the nucleus does for one act after the other. -/
def after (p : Plan) (acts : List Act) : Plan := acts.foldl step p

/-- One more act. -/
theorem after_concat (p : Plan) (acts : List Act) (a : Act) :
    p.after (acts ++ [a]) = (p.after acts).step a := by
  rw [after, List.foldl_append]
  rfl

end Plan

end YRmx
