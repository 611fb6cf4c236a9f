import YRmx.Core.Calls
import YRmx.Transition.Trace

/-!
# The nucleus as a state machine

Library `YRmx`. A step is what one thread does between two points at which it may have to
wait; `require` says when the thread is at the call. Any step may be followed by a step of
any other thread. A thread whose cancellation was asked for goes on until it is cancelled,
which may happen at any point outside a critical section.
-/

namespace YRmx

/-- The steps of the threads. -/
inductive Op where
  | reqcmsg (t : TaskId) (n : Nat) (size now : BitVec 32)
  /-- user code writes the type field of a message -/
  | setType (t : TaskId) (n : Nat) (type : BitVec 32)
  | reqsend (t : TaskId) (e : ExchId) (m : MsgId)
  | reqisnd (t : TaskId) (e : ExchId)
  | reqwait (t : TaskId) (e : ExchId) (d : BitVec 16)
  /-- the `sem_wait` of `reqwait` returns -/
  | wake (t : TaskId)
  | reqacpt (t : TaskId) (e : ExchId)
  /-- `exit_region` makes its suspension test -/
  | exitRegion (t : TaskId)
  /-- the `sem_wait` of `exit_region` returns -/
  | heldWake (t : TaskId)
  /-- `reqfreeze` or `exit_region` finds the system not frozen -/
  | thaw (t : TaskId)
  /-- one pass of the timer loop -/
  | tick
  /-- one expiry loop of the delay task -/
  | expiry
  | reqsusp (t u : TaskId)
  /-- the `sem_wait` of `reqsusp` returns -/
  | suspWake (t : TaskId)
  | reqresm (t u : TaskId)
  | reqdtsk (t u : TaskId)
  /-- a requested cancellation takes effect -/
  | cancelled (t : TaskId)
  | reqfreeze (t : TaskId)
  | reqbake (t : TaskId)
  deriving DecidableEq, Repr

/-- `reqwait`'s `sem_wait` returns to a thread that is in it. -/
def wakeAt (s : Nucleus) (t : TaskId) : Pc → Exec Nucleus
  | .semWait e d => reqwaitResume s t e d
  | _ => .error .blocked

/-- The suspension test of `exit_region`, by a thread that enters it. -/
def exitAt (s : Nucleus) (t : TaskId) : Pc → Exec Nucleus
  | .exitRegion c => .ok (s.ctl (·.exitRegion t c))
  | _ => .error .blocked

/-- `exit_region`'s `sem_wait` returns to a thread that is in it. -/
def heldAt (s : Nucleus) (t : TaskId) : Pc → Exec Nucleus
  | .held c => do
    require (0 < s.sema t)
    .ok (s.ctl (·.heldWake t c))
  | _ => .error .blocked

/-- A thread that waits while `rqfrozen` goes on. -/
def thawAt (s : Nucleus) (t : TaskId) : Pc → Exec Nucleus
  | .freeze c => .ok (s.ctl (·.goto t c.resume))
  | .thaw _ => .ok (s.ctl (·.leaveRegion t))
  | _ => .error .blocked

/-- The step of a thread, with fuel for each of its loops. -/
def step (fuel : Nat) (s : Nucleus) : Op → Exec Nucleus
  | .reqcmsg t n size now => do
    require (s.pc t = .user)
    .ok (reqcmsg s t (.user n) size now)
  | .setType t n type => do
    require (s.pc t = .user)
    .ok (s.ctl (·.setType (.user n) type))
  | .reqsend t e m => do
    require (s.pc t = .user)
    reqsend s t e m
  | .reqisnd t e => do
    require (s.pc t = .user)
    reqisnd s t e
  | .reqwait t e d => do
    require (s.pc t = .user)
    reqwait fuel s t e d
  | .wake t => wakeAt s t (s.pc t)
  | .reqacpt t e => do
    require (s.pc t = .user)
    reqacpt s t e
  | .exitRegion t => exitAt s t (s.pc t)
  | .heldWake t => heldAt s t (s.pc t)
  | .thaw t => do
    require (s.rqfrozen = false)
    thawAt s t (s.pc t)
  | .tick => do
    require (s.pc rqtimerTd = .user)
    rqtimer s
  | .expiry => do
    require (s.pc rqdelaytaskTd = .user)
    rqdelaytask fuel s
  | .reqsusp t u => do
    require (s.pc t = .user)
    .ok (s.ctl (·.reqsusp t u))
  | .suspWake t => do
    require (s.pc t = .suspWait ∧ 0 < s.sema t)
    .ok (s.ctl (·.reqsuspResume t))
  | .reqresm t u => do
    require (s.pc t = .user)
    .ok (s.ctl (·.reqresm u))
  | .reqdtsk t u => do
    require (s.pc t = .user)
    reqdtsk fuel s t u
  | .cancelled t => do
    require (s.cancel t = true ∧ s.pc t ≠ .dead)
    .ok (s.ctl (·.goto t .dead))
  | .reqfreeze t => do
    require (s.pc t = .user)
    .ok (s.ctl (·.reqfreeze t .reqfreeze))
  | .reqbake t => do
    require (s.pc t = .user)
    .ok (s.ctl (·.reqbake))

/-- A woken thread goes on where it stands. -/
theorem step_wake (n : Nat) (s : Nucleus) (t : TaskId) :
    step n s (.wake t) = wakeAt s t (s.pc t) := rfl

/-- A thread ends its call where it stands. -/
theorem step_exitRegion (n : Nat) (s : Nucleus) (t : TaskId) :
    step n s (.exitRegion t) = exitAt s t (s.pc t) := rfl

/-- A held thread goes on where it stands. -/
theorem step_heldWake (n : Nat) (s : Nucleus) (t : TaskId) :
    step n s (.heldWake t) = heldAt s t (s.pc t) := rfl

/-- A step comes to its end with enough fuel. -/
def Step (s : Nucleus) (o : Op) (s' : Nucleus) : Prop := ∃ fuel, step fuel s o = .ok s'

/-- Runs of the nucleus with the states and steps they went through. -/
abbrev Run := Transition.Trace Step

/-- The descriptor fields of an exchange as `reqcxch` sets them; `ycore.c:765–768,782`. -/
structure Initialised (s : Nucleus) (e : ExchId) : Prop where
  messageHead : s.messageHead e = .null
  messageTail : s.messageTail e = .exch e
  taskHead : s.taskHead e = .null
  taskTail : s.taskTail e = .exch e
  mutex : s.mutex e = false

/-- The system after `reqstart` (`ycore.c:1421–1484`), with every exchange initialised, every
task registered and running its own code, and interrupt exchanges as `ycore.c:203–220,1457`
sets up `rq_delay_exchange`. Fields that nothing initialises keep arbitrary contents. -/
structure Booted (s : Nucleus) : Prop where
  exchanges : ∀ e, Initialised s e
  delayNext : s.word0 .delayHead = .delayTail
  delayPrev : s.word1 .delayTail = .delayHead
  delayHead : s.delay .delayHead = 0
  delayTail : s.delay .delayTail = 0xFFFF
  interrupts : ∀ e, s.msgLink (.interrupt e) = .msg (.interrupt e) ∧
    s.length (.interrupt e) = intExchangeLength ∧ s.type (.interrupt e) = intType
  timeOut : s.msgLink .timeOut = .null ∧ s.type .timeOut = timeoutType
  tasks : ∀ t, s.status t = running ∧ s.sema t = 0 ∧ s.pc t = .user ∧ s.cancel t = false
  notFrozen : s.rqfrozen = false

/-- A booted system whose remaining storage is zero. -/
def boot : Nucleus where
  word0
    | .delayHead => .delayTail
    | .delayTail => .delayHead
    | .msg (.interrupt e) => .msg (.interrupt e)
    | _ => .null
  word1
    | .delayHead => .delayTail
    | .delayTail => .delayHead
    | .exch e => .exch e
    | _ => .null
  word2 _ := .null
  taskTail := .exch
  mutex _ := false
  qint _ := 0
  length
    | .interrupt _ => intExchangeLength
    | .timeOut => timeOutLength
    | _ => 0
  type
    | .interrupt _ => intType
    | .timeOut => timeoutType
    | _ => 0
  yltime _ := 0
  homeExchange _ := .null
  responseExchange _ := .null
  delay a := if a = .delayTail then 0xFFFF else 0
  message _ := .null
  exchange _ := .null
  sema _ := 0
  status _ := running
  tailTask := .null
  rqfrozen := false
  pc _ := .user
  cancel _ := false

/-- `boot` is a booted system. -/
theorem boot_booted : Booted boot where
  exchanges _ := ⟨rfl, rfl, rfl, rfl, rfl⟩
  delayNext := rfl
  delayPrev := rfl
  delayHead := rfl
  delayTail := rfl
  interrupts _ := ⟨rfl, rfl, rfl⟩
  timeOut := ⟨rfl, rfl⟩
  tasks _ := ⟨rfl, rfl, rfl, rfl⟩
  notFrozen := rfl

/-- The state after a list of steps, each of which is checked before it is taken. -/
def runOps (ok : Nucleus → Op → Bool) (fuel : Nat) : Nucleus → List Op → Exec Nucleus
  | s, [] => .ok s
  | s, o :: os => do
    require (ok s o)
    let s' ← step fuel s o
    runOps ok fuel s' os

/-- What `runOps` goes through is a run. -/
theorem runOps_run {ok : Nucleus → Op → Bool} {fuel : Nat} {s s' : Nucleus} {os : List Op}
    (h : runOps ok fuel s os = .ok s') :
    ∃ tr, Run s tr s' ∧ tr.map Prod.snd = os ∧ ∀ x ∈ tr, ok x.1 x.2 := by
  induction os generalizing s with
  | nil =>
    cases h
    exact ⟨[], .nil, rfl, by simp⟩
  | cons o os ih =>
    obtain ⟨ho, h⟩ := require_bind_eq_ok.mp h
    obtain ⟨m, hm, h⟩ := Exec.bind_eq_ok.mp h
    obtain ⟨tr, hr, hos, hok⟩ := ih h
    refine ⟨[(s, o)] ++ tr, Transition.Trace.append (.snoc .nil ⟨fuel, hm⟩) hr, ?_, ?_⟩
    · simp [hos]
    · simpa using ⟨ho, fun a b hx ↦ hok (a, b) hx⟩

/-- A computed run whose last state passes a test. -/
theorem exists_run {c : Nucleus → Op → Bool} {n : Nat} {s : Nucleus} {l : List Op}
    {p : Nucleus → Bool} (h : (runOps c n s l).toOption.any p = true) :
    ∃ tr s', Run s tr s' ∧ tr.map Prod.snd = l ∧ (∀ x ∈ tr, c x.1 x.2) ∧ p s' := by
  cases hr : runOps c n s l with
  | error r =>
    rw [hr] at h
    cases h
  | ok s' =>
    rw [hr] at h
    obtain ⟨tr, htr, hos, hok⟩ := runOps_run hr
    exact ⟨tr, s', htr, hos, hok, h⟩

/-- A computed step after which a test is passed. -/
theorem exists_step {fuel : Nat} {s : Nucleus} {o : Op} {p : Nucleus → Bool}
    (h : (step fuel s o).toOption.any p = true) : ∃ s', Step s o s' ∧ p s' := by
  cases hs : step fuel s o with
  | error r =>
    rw [hs] at h
    cases h
  | ok s' =>
    rw [hs] at h
    exact ⟨s', ⟨fuel, hs⟩, h⟩

end YRmx
