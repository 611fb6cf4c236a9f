import YRmx.Core.DelayList
import YRmx.Yalrt.Machine

/-!
# The delay list of `yalrt.c` under its timer

Library `YRmx`. A critical region keeps the other tasks out of the delay list, but not
`yalrt_timer_handler`, which may count the first task down between any two accesses of a call.
The handler reads `rq_delay_list_head.next` and the delay fields and writes the latter; lines of
a call that touch neither are joined with their neighbours.
-/

namespace YRmx

open Intrusive Transition

/-- The next line of `reqwait` or `cancel_delay`, with the values it has read in. -/
inductive DelayLine where
  | idle
  /-- `yalrt.c:1058`, the test of the loop -/
  | read (t : TaskId) (p : Addr)
  /-- `yalrt.c:1059–1060`, the body -/
  | pass (t : TaskId) (p : Addr) (tDelay : BitVec 16)
  /-- `yalrt.c:1062` -/
  | shorten (t : TaskId) (p : Addr) (tDelay : BitVec 16)
  /-- `yalrt.c:1063–1065` -/
  | links (t : TaskId) (p : Addr)
  /-- `yalrt.c:1066–1067` -/
  | link (t : TaskId)
  /-- `yalrt.c:1068` -/
  | insertTail
  /-- `yalrt.c:365–366`, the first operand -/
  | readNext (t : TaskId)
  /-- `yalrt.c:366`, the second operand -/
  | readOwn (t : TaskId) (nextDelay : BitVec 16)
  /-- `yalrt.c:366`, the assignment -/
  | lengthen (t : TaskId) (sum : BitVec 16)
  /-- `yalrt.c:367–370` -/
  | unlink (t : TaskId)
  /-- `yalrt.c:372` -/
  | cancelTail (t : TaskId)
  /-- `yalrt.c:377` -/
  | clear (t : TaskId)
  deriving DecidableEq, Repr

/-- The task that a call of `cancel_delay` takes off. -/
def DelayLine.clears : DelayLine → Option TaskId
  | .readNext t | .readOwn t _ | .lengthen t _ | .unlink t | .cancelTail t | .clear t => some t
  | _ => none

/-- The delay list, the status bytes and the call that is under way. -/
structure Countdown where
  next : Addr → Addr
  prev : Addr → Addr
  delay : Addr → BitVec 16
  status : TaskId → BitVec 8
  line : DelayLine

/-- What happens to the delay list next. -/
inductive DelayOp where
  /-- `reqwait` begins to queue its task for `d` ticks. -/
  | insert (t : TaskId) (d : BitVec 16)
  /-- `cancel_delay` begins. -/
  | cancel (t : TaskId)
  /-- `rqdelaytask` has found the first task due and begins to take it off. -/
  | expire
  /-- The call goes on by one line. -/
  | line
  /-- The timer handler counts down. -/
  | tick
  deriving DecidableEq, Repr

namespace Countdown

/-- A line of `yalrt.c:1058–1068` or `yalrt.c:365–377`. -/
def lineStep (s : Countdown) : DelayLine → Exec Countdown
  | .idle => .error .blocked
  | .read t p => do
    let p ← deref p
    let tDelay := s.delay p
    .ok { s with
      line := if s.delay (.task t) > tDelay then .pass t p tDelay else .shorten t p tDelay }
  | .pass t p tDelay =>
    .ok { s with
      delay := Function.update s.delay (.task t) (s.delay (.task t) - tDelay)
      line := .read t (s.next p) }
  | .shorten t p tDelay =>
    .ok { s with
      delay := Function.update s.delay p (tDelay - s.delay (.task t)), line := .links t p }
  | .links t p =>
    let s := { s with prev := Function.update s.prev (.task t) (s.prev p) }
    let s := { s with prev := Function.update s.prev p (.task t) }
    .ok { s with next := Function.update s.next (.task t) p, line := .link t }
  | .link t => do
    let p ← deref (s.prev (.task t))
    .ok { s with next := Function.update s.next p (.task t), line := .insertTail }
  | .insertTail =>
    .ok { s with delay := Function.update s.delay .delayTail 0xFFFF, line := .idle }
  | .readNext t => do
    let linktask ← deref (s.next (.task t))
    .ok { s with line := .readOwn t (s.delay linktask) }
  | .readOwn t nextDelay => .ok { s with line := .lengthen t (nextDelay + s.delay (.task t)) }
  | .lengthen t sum => do
    let linktask ← deref (s.next (.task t))
    .ok { s with delay := Function.update s.delay linktask sum, line := .unlink t }
  | .unlink t => do
    let linktask ← deref (s.next (.task t))
    let s := { s with prev := Function.update s.prev linktask (s.prev (.task t)) }
    let linktask ← deref (s.prev (.task t))
    .ok { s with
      next := Function.update s.next linktask (s.next (.task t)), line := .cancelTail t }
  | .cancelTail t =>
    .ok { s with delay := Function.update s.delay .delayTail 0xFFFF, line := .clear t }
  | .clear t =>
    .ok { s with
      status := Function.update s.status t (s.status t &&& ~~~delayed), line := .idle }

/-- `yalrt.c:1144–1152`. -/
def tick (s : Countdown) : Exec Countdown := do
  let waitingTask ← deref (s.next .delayHead)
  if s.delay waitingTask = 0xFFFF then .ok s
  else if s.delay waitingTask = 0 then .ok s
  else .ok { s with
    delay := Function.update s.delay waitingTask (s.delay waitingTask - 1) }

/-- A call begins between two calls, a line needs one under way, a tick comes in at any point. -/
def step (s : Countdown) : DelayOp → Exec Countdown
  | .insert t d => do
    require (s.line = .idle)
    .ok { s with
      status := Function.update s.status t (s.status t ||| delayed)
      delay := Function.update s.delay (.task t) d
      line := .read t .delayHead }
  | .cancel t => do
    require (s.line = .idle)
    .ok { s with line := .readNext t }
  | .expire => do
    require (s.line = .idle ∧ s.delay (s.next .delayHead) = 0)
    let delayTask ← asTask (s.next .delayHead)
    .ok { s with line := .readNext delayTask }
  | .line => s.lineStep s.line
  | .tick => s.tick

/-- The steps of the list. -/
def Step (s : Countdown) (o : DelayOp) (s' : Countdown) : Prop := s.step o = .ok s'

/-- `reqwait` queues a task that is not queued yet for a time that is not zero, and
`cancel_delay` is called on a queued one. -/
def Proper (s : Countdown) : DelayOp → Prop
  | .insert t d => d ≠ 0 ∧ s.status t &&& delayed = 0
  | .cancel t => s.status t &&& delayed ≠ 0
  | _ => True

instance (s : Countdown) : (o : DelayOp) → Decidable (s.Proper o)
  | .insert _ _ => inferInstanceAs (Decidable (_ ∧ _))
  | .cancel _ => inferInstanceAs (Decidable (_ ≠ _))
  | .expire | .line | .tick => inferInstanceAs (Decidable True)

/-- The empty list. -/
structure Start (s : Countdown) : Prop where
  list : DelayList s.next s.prev s.delay []
  status : ∀ t, s.status t &&& delayed = 0
  line : s.line = .idle

/-- The list that `reqnucl` sets up, `yalrt.c:1779–1785`. -/
def empty : Countdown where
  next a := if a = .delayHead then .delayTail else if a = .delayTail then .delayHead else .null
  prev a := if a = .delayHead then .delayTail else if a = .delayTail then .delayHead else .null
  delay a := if a = .delayTail then 0xFFFF else 0
  status _ := 0
  line := .idle

/-- It is the empty list. -/
theorem empty_start : Start empty where
  list := ⟨List.isChain_pair.mpr ⟨rfl, rfl⟩, trivial, rfl, rfl⟩
  status _ := BitVec.zero_and
  line := rfl

/-! ### The lines together -/

/-- The words of a state of the nucleus, and a line of a call. -/
def words (s : Yalrt) (l : DelayLine) : Countdown :=
  { next := s.next, prev := s.prev, delay := s.delay, status := s.status, line := l }

/-- A line without a tick. -/
def Goes (s s' : Countdown) : Prop := Step s .line s'

private theorem insertLoop_lines {n : Nat} {s s' : Yalrt} {p q : Addr} {v : BitVec 16}
    (h : Yalrt.insertLoop n s p = .ok (s', q, v)) :
    Relation.ReflTransGen Goes (words s (.read s.rqactv p)) (words s' (.shorten s.rqactv q v)) ∧
      s'.rqactv = s.rqactv := by
  induction n generalizing s p with
  | zero => cases h
  | succ n ih =>
    obtain ⟨p', hp, h⟩ := Exec.bind_eq_ok.mp h
    have hread : Goes (words s (.read s.rqactv p))
      (words s (if s.delay (.task s.rqactv) > s.delay p'
        then .pass s.rqactv p' (s.delay p') else .shorten s.rqactv p' (s.delay p'))) :=
      Exec.bind_eq_ok.mpr ⟨p', hp, rfl⟩
    simp only at h
    split at h
    · rename_i hgt
      rw [if_pos hgt] at hread
      obtain ⟨hl, hr⟩ := ih h
      exact ⟨.head hread (.head rfl hl), hr⟩
    · rename_i hle
      rw [if_neg hle] at hread
      cases h
      exact ⟨.single hread, rfl⟩

/-- Without a tick the lines of `reqwait` do what the call does. -/
theorem insertDelay_lines {fuel : Nat} {s s' : Yalrt} (h : Yalrt.insertDelay fuel s = .ok s') :
    Relation.ReflTransGen Goes (words s (.read s.rqactv .delayHead)) (words s' .idle) := by
  obtain ⟨⟨s₁, p, v⟩, h₁, h⟩ := Exec.bind_eq_ok.mp h
  obtain ⟨q, hq, h⟩ := Exec.bind_eq_ok.mp h
  obtain ⟨hl, hr⟩ := insertLoop_lines h₁
  simp only [hr] at hq h
  cases h
  refine hl.trans (.head rfl (.head rfl (.head (Exec.bind_eq_ok.mpr ⟨q, hq, rfl⟩) (.single rfl))))

/-- Without a tick the lines of `cancel_delay` do what the call does. -/
theorem cancelDelay_lines {s s' : Yalrt} {t : TaskId} (h : s.cancelDelay t = .ok s') :
    Relation.ReflTransGen Goes (words s (.readNext t)) (words s' .idle) := by
  obtain ⟨q, hq, h⟩ := Exec.bind_eq_ok.mp h
  obtain ⟨p, hp, h⟩ := Exec.bind_eq_ok.mp h
  cases h
  exact .head (Exec.bind_eq_ok.mpr ⟨q, hq, rfl⟩) (.head rfl
    (.head (Exec.bind_eq_ok.mpr ⟨q, hq, rfl⟩)
      (.head (Exec.bind_eq_ok.mpr ⟨q, hq, Exec.bind_eq_ok.mpr ⟨p, hp, rfl⟩⟩)
        (.head rfl (.single rfl)))))

end Countdown

end YRmx
