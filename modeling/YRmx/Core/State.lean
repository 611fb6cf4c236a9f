import Mathlib.Data.BitVec
import Mathlib.Logic.Function.Basic
import Mathlib.Tactic.Simps.Basic

/-!
# Descriptors, addresses and the state of the nucleus

Library `YRmx`. `ycore.h:42–67,80–150,183–225` declare the descriptors that the system
calls of `ycore.c` link together by pointers. The nucleus writes through a pointer to an
exchange as if it were a message or a task, so the state keeps the first three words of
every object by address: the word at offset 0 is `message_head`, `msg->link` and
`task->next` at once, the word at offset 16 is `task_head` and `task->link`.
-/

namespace YRmx

/-- Task descriptors. -/
abbrev TaskId := Nat

/-- Exchange descriptors. -/
abbrev ExchId := Nat

/-- Message objects: user messages, the message embedded in an interrupt exchange (at
`&exch->link`) and the shared `time_out_message`. -/
inductive MsgId where
  | user (n : Nat)
  | interrupt (e : ExchId)
  | timeOut
  deriving DecidableEq, Repr

/-- Addresses of the objects that the nucleus links; `ycore.c:142,177`. -/
inductive Addr where
  | null
  | exch (e : ExchId)
  | msg (m : MsgId)
  | task (t : TaskId)
  | delayHead
  | delayTail
  deriving DecidableEq, Repr

/-! ### Constants of `ycore.h` -/

/-- The task is in the delay list. -/
def delayed : BitVec 8 := 0x01

/-- The task is suspended, or is to be suspended. -/
def suspended : BitVec 8 := 0x02

/-- The task runs. -/
def running : BitVec 8 := 0x10

/-- The semaphore of the task is to be posted by `reqresm`. -/
def needpost : BitVec 8 := 0x20

/-- The task is deleted. -/
def deleted : BitVec 8 := 0x40

/-- The task waits at an exchange. -/
def waiting : BitVec 8 := 0x80

/-- The type of the message of an interrupt. -/
def intType : BitVec 32 := 1

/-- The type of a message that stands for several interrupts. -/
def missedIntType : BitVec 32 := 2

/-- The type of `time_out_message`. -/
def timeoutType : BitVec 32 := 3

/-- `sizeof(INT_EXCHANGE_DESCRIPTOR)` on x86-64. -/
def intExchangeLength : BitVec 32 := 128

/-- `sizeof(time_out_message)`, which is packed. -/
def timeOutLength : BitVec 32 := 20

/-- The root task, whose descriptor `ycore.c` itself defines. -/
def rootTaskTd : TaskId := 0

/-- The task of the timer. -/
def rqtimerTd : TaskId := 1

/-- The task that times others out. -/
def rqdelaytaskTd : TaskId := 2

/-- The exchange at which the timer wakes `rqdelaytask`. -/
def rqDelayExchange : ExchId := 0

/-! ### Where a thread stands -/

/-- The call that a thread is about to leave through `exit_region`. -/
inductive Call where
  | reqwait (e : ExchId) (d : BitVec 16)
  | reqacpt (e : ExchId)
  | reqsend (e : ExchId)
  | rqdelaytask
  | reqfreeze
  | reqctsk
  | reqdxch (e : ExchId)
  deriving DecidableEq, Repr

/-- Points between which a thread runs without giving way to another one. -/
inductive Pc where
  /-- outside the nucleus -/
  | user
  /-- `reqwait`, in `sem_wait` -/
  | semWait (e : ExchId) (d : BitVec 16)
  /-- `reqsusp` of the task itself, in `sem_wait` -/
  | suspWait
  /-- `reqfreeze`, waiting while `rqfrozen` -/
  | freeze (c : Call)
  /-- at the entry of `exit_region` -/
  | exitRegion (c : Call)
  /-- `exit_region`, in the `sem_wait` of its suspension test -/
  | held (c : Call)
  /-- `exit_region`, at the test of `rqfrozen` -/
  | thaw (c : Call)
  /-- cancelled or exited -/
  | dead
  deriving DecidableEq, Repr

/-- The fields that hold no list together, and the positions of the threads. -/
structure Control where
  /-- `exch->mutex` was left locked by a call that returned or blocked -/
  mutex : ExchId → Bool
  length : MsgId → BitVec 32
  type : MsgId → BitVec 32
  yltime : MsgId → BitVec 32
  homeExchange : MsgId → Addr
  responseExchange : MsgId → Addr
  message : TaskId → Addr
  exchange : TaskId → Addr
  sema : TaskId → Nat
  status : TaskId → BitVec 8
  rqfrozen : Bool
  pc : TaskId → Pc
  /-- `pthread_cancel` was called for the thread -/
  cancel : TaskId → Bool

/-- The whole state: the control part and the words that link the descriptors. -/
structure Nucleus extends Control where
  /-- offset 0: `message_head`, `msg->link`, `task->next`, `rq_delay_list_*.next` -/
  word0 : Addr → Addr
  /-- offset 8: `message_tail`, `task->prev`, `rq_delay_list_*.prev` -/
  word1 : Addr → Addr
  /-- offset 16: `task_head`, `task->link` -/
  word2 : Addr → Addr
  taskTail : ExchId → Addr
  qint : ExchId → BitVec 8
  delay : Addr → BitVec 16
  /-- the function-static `tail_task` of `reqwait` -/
  tailTask : Addr

/-- Why a call does not come to its end. -/
inductive Stop where
  /-- a pointer that is null or leads to an object of the wrong kind is followed -/
  | fault
  /-- a loop is still running -/
  | fuel
  /-- the thread is not at the call, or waits for a mutex, a semaphore or a thaw -/
  | blocked
  /-- the thread stays in `rqfreeze` in the middle of the call -/
  | frozen
  deriving DecidableEq, Repr

/-- A computation of the nucleus may stop. -/
abbrev Exec := Except Stop

namespace Exec

variable {α β : Type}

/-- A result is passed on. -/
@[simp] theorem ok_bind (a : α) (f : α → Exec β) : ((.ok a : Exec α) >>= f) = f a := rfl

/-- A stop is final. -/
@[simp] theorem error_bind (e : Stop) (f : α → Exec β) :
    ((.error e : Exec α) >>= f) = .error e := rfl

/-- A sequence has a result when both of its parts have. -/
theorem bind_eq_ok {x : Exec α} {f : α → Exec β} {v : β} :
    (x >>= f) = .ok v ↔ ∃ a, x = .ok a ∧ f a = .ok v := by
  cases x <;> simp

end Exec

namespace Nucleus

/-! ### Pointer fields under their names in `ycore.h` -/

/-- The first message of an exchange. -/
@[simp] abbrev messageHead (s : Nucleus) (e : ExchId) : Addr := s.word0 (.exch e)

/-- The last message of an exchange. -/
@[simp] abbrev messageTail (s : Nucleus) (e : ExchId) : Addr := s.word1 (.exch e)

/-- The first task that waits at an exchange. -/
@[simp] abbrev taskHead (s : Nucleus) (e : ExchId) : Addr := s.word2 (.exch e)

/-- The link of a message, which is its owner when it is in no queue. -/
@[simp] abbrev msgLink (s : Nucleus) (m : MsgId) : Addr := s.word0 (.msg m)

/-- The next task of the delay list. -/
@[simp] abbrev next (s : Nucleus) (t : TaskId) : Addr := s.word0 (.task t)

/-- The previous task of the delay list. -/
@[simp] abbrev prev (s : Nucleus) (t : TaskId) : Addr := s.word1 (.task t)

/-- The next task that waits at the same exchange. -/
@[simp] abbrev link (s : Nucleus) (t : TaskId) : Addr := s.word2 (.task t)

end Nucleus

/-- A pointer that is about to be followed. -/
def deref (p : Addr) : Exec Addr := if p = .null then .error .fault else .ok p

/-- Every pointer but the null pointer can be followed. -/
theorem deref_eq_ok {p q : Addr} : deref p = .ok q ↔ p ≠ .null ∧ p = q := by
  unfold deref
  by_cases hp : p = .null <;> simp [hp]

/-- A pointer followed as a task descriptor. -/
def asTask : Addr → Exec TaskId
  | .task t => .ok t
  | _ => .error .fault

/-- A pointer followed as an exchange descriptor. -/
def asExch : Addr → Exec ExchId
  | .exch e => .ok e
  | _ => .error .fault

/-- C's `&&` on two bytes. -/
def logicalAnd (a b : BitVec 8) : Bool := a != 0 && b != 0

/-- A state of the nucleus allows the thread to go on only under a condition. -/
def require (p : Prop) [Decidable p] : Exec Unit := if p then .ok () else .error .blocked

/-- What a condition guards has a result only under the condition. -/
theorem require_bind_eq_ok {α : Type} {p : Prop} [Decidable p] {x : Exec α} {v : α} :
    (require p >>= fun _ ↦ x) = .ok v ↔ p ∧ x = .ok v := by
  by_cases hp : p <;> simp [require, hp]

/-- What a condition guards stops at the condition, or later. -/
theorem require_bind_eq_error {α : Type} {p : Prop} [Decidable p] {x : Exec α} {r : Stop}
    (h : (require p >>= fun _ ↦ x) = .error r) : r = .blocked ∨ x = .error r := by
  by_cases hp : p
  · exact .inr (by simpa [require, hp] using h)
  · exact .inl (by simpa [require, hp, eq_comm] using h)

namespace Control

/-- `sem_post(&task->sema)`. -/
@[simps exchange status pc sema message cancel]
def semPost (c : Control) (task : TaskId) : Control :=
  { c with sema := Function.update c.sema task (c.sema task + 1) }

/-- The effect of a `sem_wait(&task->sema)` that returns. -/
@[simps exchange status pc sema message cancel]
def semTake (c : Control) (task : TaskId) : Control :=
  { c with sema := Function.update c.sema task (c.sema task - 1) }

/-- The thread moves on to another point. -/
@[simps exchange status pc sema message cancel]
def goto (c : Control) (task : TaskId) (p : Pc) : Control :=
  { c with pc := Function.update c.pc task p }

/-- The status byte is overwritten. -/
@[simps exchange status pc sema message cancel]
def setStatus (c : Control) (task : TaskId) (st : BitVec 8) : Control :=
  { c with status := Function.update c.status task st }

/-- `task->message = msg`. -/
@[simps exchange status pc sema message cancel]
def setMessage (c : Control) (task : TaskId) (msg : Addr) : Control :=
  { c with message := Function.update c.message task msg }

/-- `task->exchange = exch`. -/
@[simps exchange status pc sema message cancel]
def setExchange (c : Control) (task : TaskId) (exch : Addr) : Control :=
  { c with exchange := Function.update c.exchange task exch }

/-- `msg->type = type`. -/
def setType (c : Control) (m : MsgId) (type : BitVec 32) : Control :=
  { c with type := Function.update c.type m type }

/-- The thread of the task was asked to end, or has ended. -/
def Deleted (c : Control) (t : TaskId) : Prop := c.cancel t = true ∨ c.pc t = .dead

end Control

/-- A step of the control part alone. -/
abbrev Nucleus.ctl (s : Nucleus) (f : Control → Control) : Nucleus :=
  { s with toControl := f s.toControl }

end YRmx
