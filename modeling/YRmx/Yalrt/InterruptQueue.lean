import YRmx.Transition.Ahead
import YRmx.Yalrt.Messages
import YRmx.Yalrt.Preemption

/-!
# The queue of the interrupts

Library `YRmx`. Handlers append exchanges to `isnd_queue`, and the `exit_region` that leaves the
outermost region delivers their messages. The link of the message marks an exchange that may be
appended, but only the delivery changes it, and a timer tick does not look at it. Between
`--queue_index` and the read of the slot a handler appends to the very slot that is to be read.
-/

namespace YRmx

open Transition Intrusive Priority

variable {s s' s₀ : Yalrt} {xs : List TaskId} {e : ExchId} {o : YalrtOp} {c : Classes}
  {tr : List (Yalrt × YalrtOp)}

namespace Yalrt

/-! ### Interrupts and their entries -/

/-- The entries of `isnd_queue`. -/
def entries (s : Yalrt) : List ExchId := (List.range s.queueIndex).map s.isndQueue

/-- The entry that was counted off and is not delivered yet. -/
def inFlight (s : Yalrt) : List ExchId :=
  match s.line with
  | .fetch => [s.isndQueue s.slot]
  | .deliver => [s.qIntMsg]
  | _ => []

/-- The exchanges whose interrupt is not delivered yet. -/
def pending (s : Yalrt) : List ExchId := s.entries ++ s.inFlight

/-- The next tick ends the first delay, or it has ended already. -/
def Ticks (s : Yalrt) : Prop := s.delay (s.next .delayHead) = 0 ∨ s.delay (s.next .delayHead) = 1

instance (s : Yalrt) : Decidable s.Ticks := inferInstanceAs (Decidable (_ ∨ _))

/-- The exchange that an interrupt is for. -/
def raised (s : Yalrt) : YalrtOp → Option ExchId
  | .reqisnd e => some e
  | .irq i =>
    match s.irq[i]? with
    | some (.append e) => some e
    | _ => none
  | .timer => if s.Ticks then some rqDelayExchange else none
  | _ => none

/-- The exchange of an interrupt is appended. A tick does so without a test. -/
def Enqueues (s : Yalrt) (e : ExchId) (o : YalrtOp) : Prop := o = .timer ∨ s.Marked e

instance (s : Yalrt) (e : ExchId) (o : YalrtOp) : Decidable (s.Enqueues e o) :=
  inferInstanceAs (Decidable (_ ∨ _))

/-- These tasks wait at the exchange. -/
def Waits (s : Yalrt) (e : ExchId) (ts : List TaskId) : Prop :=
  Fifo s.thread .null (.exch e) (s.taskTail e) (Sched.ptrs ts)

/-- These messages are queued at the exchange. -/
def Mails (s : Yalrt) (e : ExchId) (ms : List MsgId) : Prop :=
  Fifo s.word0 .null (.exch e) (s.messageTail e) (ms.map .msg)

/-- The message of the exchange goes to the first waiting task, or to the end of the queue. -/
def Delivers (s s' : Yalrt) (e : ExchId) : Prop :=
  (∃ t ts ms, s.Waits e (t :: ts) ∧ s'.Waits e ts ∧ s'.message t = .msg (.interrupt e) ∧
    s.Mails e ms ∧ s'.Mails e ms) ∨
  ∃ ms, s.Waits e [] ∧ s'.Waits e [] ∧ s.Mails e ms ∧ s'.Mails e (ms ++ [.interrupt e])

/-- The steps of the handlers. -/
def Handles : YalrtOp → Prop
  | .reqisnd _ | .reqssnd _ | .timer | .irq _ => True
  | _ => False

/-- The loop of `exit_region`. -/
def Draining (s : Yalrt) : Prop := s.line = .drain ∨ s.line = .fetch ∨ s.line = .deliver

/-- The lines to the end of the loop of `exit_region`, if no handler comes in. -/
def linesLeft (s : Yalrt) : Nat :=
  3 * s.queueIndex +
    match s.line with
    | .drain => 1
    | .fetch => 3
    | .deliver => 2
    | _ => 0

/-- The exchanges that the handlers appended in a run. -/
def appended (tr : List (Yalrt × YalrtOp)) : List ExchId :=
  tr.flatMap fun x ↦ ((x.1.raised x.2).filter fun e ↦ x.1.Enqueues e x.2).toList

/-- The entries that were delivered in a run. -/
def delivered (tr : List (Yalrt × YalrtOp)) : List ExchId :=
  tr.flatMap fun x ↦ if x.2 = .deliver then [x.1.qIntMsg] else []

/-- No exchange has two entries, and they fit into `isnd_queue`. An interrupt for an exchange
with an entry is recorded as missed, each entry is delivered once, and `exit_region` leaves its
loop when all of them are, which it comes to unless further handlers come in. -/
structure Drains (tr : List (Yalrt × YalrtOp)) (s : Yalrt) : Prop where
  once : s.pending.Nodup
  fits : s.queueIndex ≤ 256
  missed : ∀ a m o e, tr = a ++ [(m, o)] → m.raised o = some e → e ∈ m.pending →
    s.type (.interrupt e) = missedIntType ∧ s.pending = m.pending
  delivers : ∀ a m, tr = a ++ [(m, .deliver)] →
    Delivers m s m.qIntMsg ∧ m.pending = s.pending ++ [m.qIntMsg]
  conserves : (appended tr).Perm (delivered tr ++ s.pending)
  leaves : ∀ a m, tr = a ++ [(m, .drained)] → s.queueIndex = 0 ∧ s.pending = []
  empties : s.Draining → s.Outside → Ahead Step (¬ Handles ·) Draining s.linesLeft
    (fun tr' s' ↦ s'.line = .switch ∧ s'.queueIndex = 0 ∧ delivered tr' = s.pending.reverse) s

/-- An interrupt appends an exchange without an entry to a queue with room for it, not between
`--queue_index` and the read of the slot, and the entry of a tick is delivered while the delay task
waits or its message is not queued. -/
def Admits (s : Yalrt) (o : YalrtOp) : Prop :=
  (∀ e ∈ s.raised o, s.Enqueues e o → e ∉ s.pending ∧ s.queueIndex < 256 ∧ s.line ≠ .fetch) ∧
  (o = .deliver → s.qIntMsg = rqDelayExchange →
    s.taskHead rqDelayExchange ≠ .null ∨ s.Marked rqDelayExchange)

instance (s : Yalrt) (o : YalrtOp) : Decidable (s.Admits o) := inferInstanceAs (Decidable (_ ∧ _))

/-! ### What a step does to the queue -/

variable {R : List TaskId} {Q : ExchId → List TaskId} {D : List (TaskId × Nat)}
  {M : ExchId → List MsgId}

/-- Appending an exchange. -/
theorem entries_appendInt : (s.appendInt e).entries = s.entries ++ [e] := by
  have hmap : (List.range s.queueIndex).map (Function.update s.isndQueue s.queueIndex e) =
      s.entries := by
    refine List.map_congr_left fun i hi ↦ Function.update_of_ne ?_ _ _
    exact (List.mem_range.mp hi).ne
  rw [entries, appendInt, List.range_succ, List.map_append, hmap]
  simp

/-- While the slot is to be read, nothing was appended behind it. -/
def Level (s : Yalrt) : Prop := s.line = .fetch → s.slot = s.queueIndex

/-- What a step does to the queue: it appends an exchange, records a missed interrupt, delivers
the entry that was counted off, or leaves the entries as they are. -/
inductive Turns (s : Yalrt) (o : YalrtOp) (s' : Yalrt) : Prop
  | append (e : ExchId) : s.raised o = some e → s.Enqueues e o →
      s'.entries = s.entries ++ [e] → (s.line ≠ .fetch → s'.inFlight = s.inFlight) →
      (s.line = .fetch → s.Level → e ∈ s'.inFlight) → s'.line = s.line →
      s'.queueIndex = s.queueIndex + 1 → Turns s o s'
  | miss (e : ExchId) : s.raised o = some e → ¬ s.Enqueues e o →
      s'.type (.interrupt e) = missedIntType → s'.pending = s.pending → (s.Level → s'.Level) →
      s'.queueIndex = s.queueIndex → Turns s o s'
  | deliver : o = .deliver → s.pending = s'.pending ++ [s.qIntMsg] → s'.line = .drain →
      s'.queueIndex = s.queueIndex → Turns s o s'
  | keep : s.raised o = none → o ≠ .deliver → s'.pending = s.pending → (s.Level → s'.Level) →
      s'.queueIndex ≤ s.queueIndex → Turns s o s'

/-- An interrupt appends an exchange. -/
theorem appendInt_turns (hr : s.raised o = some e) (he : s.Enqueues e o)
    (hs : ∃ dl is, s' = { Yalrt.appendInt { s with delay := dl } e with irq := is }) :
    Turns s o s' := by
  obtain ⟨dl, is, rfl⟩ := hs
  refine .append e hr he entries_appendInt (fun hl ↦ ?_) (fun hl hv ↦ ?_) rfl rfl
  · unfold inFlight
    dsimp only [appendInt]
    split
    · exact absurd ‹_› hl
    · rfl
    · rfl
  · unfold inFlight
    dsimp only [appendInt]
    rw [hl, hv hl, Function.update_self]
    exact List.mem_singleton.mpr rfl

/-- An interrupt that looks at the link of the message. -/
theorem signal_turns (hr : s.raised o = some e) (ht : o ≠ .timer)
    (hs : ∃ is, s' = { s.signal e with irq := is }) : Turns s o s' := by
  obtain ⟨is, rfl⟩ := hs
  by_cases hm : s.Marked e
  · have hm' : s.msgLink (.interrupt e) = .msg (.interrupt e) := hm
    rw [signal, if_pos hm']
    exact appendInt_turns hr (.inr hm) ⟨s.delay, is, rfl⟩
  · have hm' : ¬ s.msgLink (.interrupt e) = .msg (.interrupt e) := hm
    rw [signal, if_neg hm']
    exact .miss e hr (fun ha ↦ ha.elim ht hm) (Function.update_self ..) rfl id rfl

/-- The entries only depend on the queue outside of the loop of `exit_region`. -/
theorem pending_congr (hq : s'.queueIndex = s.queueIndex) (hi : s'.isndQueue = s.isndQueue)
    (hf : s'.inFlight = s.inFlight) : s'.pending = s.pending := by
  rw [pending, pending, entries, entries, hq, hi, hf]

/-- The tick that ends the first delay. -/
theorem countDown_due {dl : Addr → BitVec 16} {due : Bool}
    (h : s.countDown = .ok ({ s with delay := dl }, due)) : due = true ↔ s.Ticks := by
  obtain ⟨p, hp, h⟩ := Exec.bind_eq_ok.mp h
  obtain ⟨-, rfl⟩ := deref_eq_ok.mp hp
  rw [Ticks]
  generalize hd : s.delay (s.next .delayHead) = d at h ⊢
  split at h
  · rename_i hx
    obtain rfl : false = due := congrArg Prod.snd (Except.ok.inj h)
    simp [hx]
  split at h
  · rename_i h0
    obtain rfl : true = due := congrArg Prod.snd (Except.ok.inj h)
    simp [h0]
  · rename_i h0
    obtain rfl := congrArg Prod.snd (Except.ok.inj h)
    simp only [Function.update_self, decide_eq_true_eq, h0, false_or]
    constructor <;> intro hx <;> bv_omega

/-- The lines of the running code. -/
theorem Step.line_eq (hs : Step s o s') (hh : ¬ Handles o) :
    s.Outside ∧
    (s.line = .drain → o = .pop ∧ s.queueIndex ≠ 0 ∨ o = .drained ∧ s.queueIndex = 0) ∧
    (s.line = .fetch → o = .fetch) ∧ (s.line = .deliver → o = .deliver) ∧
    (s.line = .switch → o = .close) := by
  obtain ⟨n, hs⟩ := hs
  cases o with
  | reqisnd _ | reqssnd _ | timer | irq _ => exact absurd trivial hh
  | expire | expired =>
    obtain ⟨hx, hs⟩ := require_bind_eq_ok.mp hs
    obtain ⟨-, ho, -⟩ := mainStep_ok hs
    refine ⟨ho, ?_, ?_, ?_, ?_⟩ <;> intro hl <;> rw [hl] at hx <;> simp at hx
  | exitRegion =>
    obtain ⟨s₁, hs₁, -⟩ := Exec.bind_eq_ok.mp hs
    obtain ⟨hx, ho, -⟩ := mainStep_ok hs₁
    refine ⟨ho, ?_, ?_, ?_, ?_⟩ <;> intro hl <;> rw [hl] at hx <;> cases hx
  | pop =>
    obtain ⟨hx, ho, s₁, hs₁, -⟩ := mainStep_ok hs
    refine ⟨ho, fun _ ↦ .inl ⟨rfl, fun h0 ↦ ?_⟩, ?_, ?_, ?_⟩
    · simp only [Yalrt.pop, h0] at hs₁
      cases hs₁
    all_goals intro hl; rw [hl] at hx; cases hx
  | drained =>
    obtain ⟨hx, ho, s₁, hs₁, -⟩ := mainStep_ok hs
    refine ⟨ho, fun _ ↦ .inr ⟨rfl, (require_bind_eq_ok.mp hs₁).1⟩, ?_, ?_, ?_⟩
    all_goals intro hl; rw [hl] at hx; cases hx
  | enterRegion | reqsend _ _ | reqacpt _ | reqwait _ _ | reqsusp _ | reqresm _ | fetch | deliver
  | close =>
    rw [Yalrt.step] at hs
    obtain ⟨hx, ho, -⟩ := mainStep_ok hs
    refine ⟨ho, ?_, ?_, ?_, ?_⟩ <;> intro hl <;> rw [hl] at hx <;> cases hx

/-- Outside of a turn of the loop of `exit_region` no entry is counted off. -/
theorem Step.inFlight_nil (hs : Step s o s') (hh : ¬ Handles o) (hf : o ≠ .fetch)
    (hd : o ≠ .deliver) : s.inFlight = [] := by
  obtain ⟨-, -, h₁, h₂, -⟩ := hs.line_eq hh
  unfold inFlight
  split
  · rename_i hl
    exact absurd (h₁ hl) hf
  · rename_i hl
    exact absurd (h₂ hl) hd
  · rfl

/-- A step of the tasks that leaves the interrupts alone. -/
theorem Step.keep_turns (hs : Step s o s') (hf : o ≠ .fetch) (ho : o ≠ .deliver)
    (hh : ¬ Handles o) (hq : s'.queueIndex = s.queueIndex) (hi : s'.isndQueue = s.isndQueue)
    (hl : s'.inFlight = []) : Turns s o s' := by
  refine .keep ?_ ho (pending_congr hq hi (hl.trans (hs.inFlight_nil hh hf ho).symm)) ?_ hq.le
  · cases o <;> first | rfl | exact absurd trivial hh
  · intro _ hl'
    rw [inFlight, hl'] at hl
    cases hl

/-- What a step does to the queue. -/
theorem Sound.turns (h : Sound s c) (ho : s.Lawful o) (hs : Step s o s') : Turns s o s' := by
  obtain ⟨⟨R, Q, D, M, hk, hp⟩, hi⟩ := h
  have hR := hk.ne_nil hi
  cases o with
  | enterRegion =>
    obtain ⟨rfl, -⟩ := hk.enterRegion hs
    exact hs.keep_turns (by simp) (by simp) id rfl rfl rfl
  | reqsend e m =>
    obtain ⟨-, -, ⟨-, s₁, hs₁, rfl⟩ | ⟨t, r, T, -, -, -, rfl, -, -⟩⟩ :=
      hk.reqsend_cases hR ho.slips hs
    · obtain rfl := appendMessage_ok hs₁
      exact hs.keep_turns (by simp) (by simp) id rfl rfl rfl
    · exact hs.keep_turns (by simp) (by simp) id rfl rfl rfl
  | reqacpt e =>
    obtain ⟨⟨s₁, hs₁, rfl⟩, -⟩ := hk.reqacpt hs
    rw [reqacpt_frame hs₁] at hs ⊢
    exact hs.keep_turns (by simp) (by simp) id rfl rfl rfl
  | reqwait e d =>
    obtain ⟨-, ⟨R'', T, D'', -, -, rfl, -, -⟩ | ⟨-, s₁, hs₁, rfl⟩⟩ := hk.reqwait_cases hs
    · exact hs.keep_turns (by simp) (by simp) id rfl rfl rfl
    · rw [reqdqmsg_frame hs₁] at hs ⊢
      exact hs.keep_turns (by simp) (by simp) id rfl rfl rfl
  | reqsusp t =>
    obtain ⟨⟨T, rfl⟩, -⟩ := hk.reqsusp hs
    exact hs.keep_turns (by simp) (by simp) id rfl rfl rfl
  | reqresm t =>
    obtain ⟨⟨T, rfl⟩, -⟩ := hk.reqresm hR ho.slips hs
    exact hs.keep_turns (by simp) (by simp) id rfl rfl rfl
  | expire =>
    obtain ⟨t, ⟨T, rfl⟩, -⟩ := hk.expire hR hs
    exact hs.keep_turns (by simp) (by simp) id rfl rfl rfl
  | expired =>
    obtain ⟨rfl, -⟩ := hk.expired hs
    exact hs.keep_turns (by simp) (by simp) id rfl rfl rfl
  | exitRegion =>
    obtain ⟨rfl, -⟩ := hk.exitRegion hs
    exact hs.keep_turns (by simp) (by simp) id rfl rfl rfl
  | pop =>
    obtain ⟨⟨hl, n, hn, rfl⟩, -⟩ := hk.pop hs
    refine .keep rfl (by simp) ?_ (fun _ _ ↦ rfl) (by simp [hn])
    simp [pending, entries, inFlight, hl, hn, List.range_succ]
  | fetch =>
    obtain ⟨⟨hl, rfl⟩, -⟩ := hk.fetch hs
    refine .keep rfl (by simp) ?_ (fun _ hl' ↦ by cases hl') le_rfl
    simp [pending, entries, inFlight, hl]
  | deliver =>
    obtain ⟨hl, hcases⟩ := hk.deliver_cases hp hR hs rfl
    have hpend : s.pending = s.entries ++ [s.qIntMsg] := by rw [pending, inFlight, hl]
    rcases hcases with ⟨-, -, rfl⟩ | ⟨-, -, rfl⟩ | ⟨t, r, T, -, -, rfl, -, -⟩ <;>
    · refine .deliver rfl (hpend.trans ?_) rfl rfl
      simp [pending, entries, inFlight]
  | drained =>
    obtain ⟨⟨-, rfl⟩, -⟩ := hk.drained hs
    exact hs.keep_turns (by simp) (by simp) id rfl rfl rfl
  | close =>
    obtain ⟨⟨-, T, t, rfl⟩, -⟩ := hk.close hs
    exact hs.keep_turns (by simp) (by simp) id rfl rfl rfl
  | reqisnd e => exact signal_turns rfl (by simp) ⟨_, (hk.reqisnd hs).1⟩
  | reqssnd e =>
    obtain ⟨rfl, -⟩ := hk.reqssnd hs
    exact .keep rfl (by simp) rfl id le_rfl
  | timer =>
    obtain ⟨dl, due, is, D', hcd, rfl, -⟩ := hk.timer hs
    have hdue := countDown_due hcd
    cases due with
    | true => exact appendInt_turns (if_pos (hdue.mp rfl)) (.inl rfl) ⟨dl, is, rfl⟩
    | false => exact .keep (if_neg fun hx ↦ by simpa using hdue.mpr hx) (by simp) rfl id le_rfl
  | irq i =>
    obtain ⟨⟨e, is, hi, rfl⟩ | ⟨T, cf, l, is, hn, hl, rfl⟩, -⟩ := hk.irq hs
    · exact signal_turns (by simp only [raised, hi]) (by simp) ⟨is, rfl⟩
    · have hr : s.raised (.irq i) = none := by
        rw [raised]
        split
        · rename_i e he
          exact absurd he (hn e)
        · rfl
      rcases hl with rfl | ⟨hl, rfl⟩
      · exact .keep hr (by simp) rfl id le_rfl
      · refine .keep hr (by simp) (pending_congr rfl rfl ?_) (fun _ hl' ↦ by cases hl') le_rfl
        rw [inFlight, inFlight, hl]

/-- The message is delivered unless no task waits and the message is queued already. -/
theorem Sound.delivers_iff (h : Sound s c) (hs : Step s .deliver s') (he : s.qIntMsg = e) :
    Delivers s s' e ↔ s.taskHead e ≠ .null ∨ s.Marked e := by
  obtain ⟨⟨R, Q, D, M, hk, hp⟩, hi⟩ := h
  have hR := hk.ne_nil hi
  have hq := hk.lists.waits e
  obtain ⟨-, ⟨hh, hm, rfl⟩ | ⟨hh, hm, rfl⟩ | ⟨t, r, T, hh, hQ, rfl, hc, -⟩⟩ :=
    hk.deliver_cases hp hR hs he
  · have hQ := hk.queue_nil hh
    rw [hQ] at hq
    have happ := (hp.append (hp.not_mem (.inl hm)) hQ fun x hx ↦ MsgId.interrupt.inj hx).queues e
    rw [Function.update_self, Function.update_self] at happ
    refine iff_of_true (.inr ⟨M e, hq, hq, hp.queues e, ?_⟩) (.inr hm)
    simpa only [Mails, Function.update_self] using happ
  · refine iff_of_false ?_ (not_or.mpr ⟨not_not.mpr hh, hm⟩)
    rintro (⟨t, ts, ms, hw, -⟩ | ⟨ms, -, -, hx, hx'⟩)
    · exact absurd (hw.head_eq.symm.trans hh) (by simp)
    · have hms := congrArg List.length (Fifo.unique hx hx')
      simp at hms
  · have hm := hp.interrupt_not_mem (e := e) (by simp [hQ])
    rw [hQ] at hq
    have hw := hc.waits e
    rw [Function.update_self] at hw
    refine iff_of_true (.inl ⟨t, r, M e, hq, hw, Function.update_self .., hp.queues e, ?_⟩)
      (.inl (by simp [hh]))
    exact (hp.relink hm _).queues e

/-- The loop of `exit_region` leaves no choice, nor does the end of it. -/
theorem determined : Determined Step (¬ Handles ·) fun s ↦ s.Draining ∨ s.line = .switch := by
  intro t i u j v hl hi hj hu hv
  suffices hij : i = j by
    subst hij
    exact ⟨rfl, hu.unique hv⟩
  obtain ⟨-, h₁, h₂, h₃, h₄⟩ := hu.line_eq hi
  obtain ⟨-, k₁, k₂, k₃, k₄⟩ := hv.line_eq hj
  rcases hl with (hl | hl | hl) | hl
  · rcases h₁ hl with ⟨rfl, hn⟩ | ⟨rfl, hn⟩ <;> rcases k₁ hl with ⟨rfl, hk⟩ | ⟨rfl, hk⟩
    · rfl
    · exact absurd hk hn
    · exact absurd hn hk
    · rfl
  · rw [h₂ hl, k₂ hl]
  · rw [h₃ hl, k₃ hl]
  · rw [h₄ hl, k₄ hl]

/-- A line of the loop of `exit_region`: what is pending stays so or is delivered, and there is a
line less to go. -/
structure Goes (s : Yalrt) (o : YalrtOp) (s' : Yalrt) : Prop where
  step : Step s o s'
  main : ¬ Handles o
  outside : s'.Outside
  line : s'.Draining ∨ s'.line = .switch ∧ s'.queueIndex = 0
  less : s'.linesLeft + 1 = s.linesLeft
  pending : s.pending = s'.pending ++ delivered [(s, o)]

/-- A line of the loop of `exit_region` is reached, and no handler is inside. -/
theorem Sound.goes (h : Sound s c) (hl : s.Draining) (ho : s.Outside) : ∃ o s', Goes s o s' := by
  rcases hl with hl | hl | hl
  · cases hn : s.queueIndex with
    | zero =>
      refine ⟨.drained, { s with line := .switch }, ⟨0, ?_⟩, id, ho, .inr ⟨rfl, hn⟩, ?_, ?_⟩
      · simp only [Yalrt.step, mainStep, require, if_pos (And.intro hl ho), Exec.ok_bind,
          Yalrt.drained, hn, if_true]
      · simp [linesLeft, hl, hn]
      · simp [Yalrt.pending, entries, inFlight, hl, hn, delivered]
    | succ n =>
      refine ⟨.pop, { s with queueIndex := n, slot := n, line := .fetch }, ⟨0, ?_⟩, id, ho,
        .inl (.inr (.inl rfl)), ?_, ?_⟩
      · simp only [Yalrt.step, mainStep, require, if_pos (And.intro hl ho), Exec.ok_bind,
          Yalrt.pop, hn]
      · simp only [linesLeft, hl, hn]
        omega
      · simp [Yalrt.pending, entries, inFlight, hl, hn, List.range_succ, delivered]
  · refine ⟨.fetch, { s with qIntMsg := s.isndQueue s.slot, line := .deliver }, ⟨0, ?_⟩, id, ho,
      .inl (.inr (.inr rfl)), ?_, ?_⟩
    · simp only [Yalrt.step, mainStep, require, if_pos (And.intro hl ho), Exec.ok_bind,
        Yalrt.fetch]
    · simp [linesLeft, hl]
    · simp [Yalrt.pending, entries, inFlight, hl, delivered]
  · obtain ⟨⟨R, Q, D, M, hk, hp⟩, hi⟩ := h
    obtain ⟨s', hy, hcases⟩ := hk.deliver_yields (hk.ne_nil hi) hl ho rfl
      fun _ _ ↦ (hp.queues s.qIntMsg).tail_ne_null
    obtain ⟨hl', hirq, hq, hi⟩ : s'.line = .drain ∧ s'.irq = s.irq ∧
        s'.queueIndex = s.queueIndex ∧ s'.isndQueue = s.isndQueue := by
      rcases hcases with ⟨-, -, rfl⟩ | ⟨-, -, rfl⟩ | ⟨t, r, T, -, -, rfl, -⟩ <;>
        exact ⟨rfl, rfl, rfl, rfl⟩
    refine ⟨.deliver, s', step_of_yields hy, id, ?_, .inl (.inl hl'), ?_, ?_⟩
    · rwa [Outside, hirq]
    · simp [linesLeft, hl, hl', hq]
    · simp [Yalrt.pending, entries, inFlight, hl, hl', hq, hi, delivered]

/-- The lines of the loop of `exit_region` are lawful. -/
theorem Step.lawful (hs : Step s o s') (hl : s.Draining) (hh : ¬ Handles o) : s.Lawful o := by
  obtain ⟨-, h₁, h₂, h₃, -⟩ := hs.line_eq hh
  rcases hl with hl | hl | hl
  · rcases h₁ hl with ⟨rfl, -⟩ | ⟨rfl, -⟩ <;> exact ⟨id, by simp, by simp⟩
  · rw [h₂ hl]
    exact ⟨id, by simp, by simp⟩
  · rw [h₃ hl]
    exact ⟨id, by simp, by simp⟩

/-- The lines of the loop of `exit_region`, one after the other. -/
theorem Sound.path {n : Nat} (h : Sound s c) (hl : s.Draining) (ho : s.Outside)
    (hn : s.linesLeft = n) : ∃ tr s', Trace Step s tr s' ∧ tr.length = n ∧
      (∀ x ∈ tr, ¬ Handles x.2) ∧ (∀ x ∈ tr, x.1.Draining) ∧ s'.line = .switch ∧ s'.Outside ∧
      s'.queueIndex = 0 ∧ delivered tr = s.pending.reverse := by
  induction n generalizing s c with
  | zero =>
    rcases hl with hl | hl | hl <;> simp [linesLeft, hl] at hn
  | succ n ih =>
    obtain ⟨o, m, hg⟩ := h.goes hl ho
    have hfirst : Trace Step s ([] ++ [(s, o)]) m := .snoc .nil hg.step
    have hless := hg.less
    have hd : delivered [(s, o)] = (delivered [(s, o)]).reverse := by
      simp only [delivered, List.flatMap_cons, List.flatMap_nil, List.append_nil]
      split <;> rfl
    rcases hg.line with hl' | ⟨hl', hq⟩
    · obtain ⟨tr, s', hr, hlen, hK, hP, hend, ho', hq, hdel⟩ :=
        ih (h.step (hg.step.lawful hl hg.main) hg.step).1 hl' hg.outside (by omega)
      refine ⟨_, s', hfirst.append hr, by simp [hlen], ?_, ?_, hend, ho', hq, ?_⟩
      · simpa using ⟨hg.main, fun a b hx ↦ hK (a, b) hx⟩
      · simpa using ⟨hl, fun a b hx ↦ hP (a, b) hx⟩
      · rw [hg.pending, List.reverse_append, ← hdel, ← hd]
        simp [delivered]
    · have hp : m.pending = [] := by simp [Yalrt.pending, entries, inFlight, hl', hq]
      have hleft : m.linesLeft = 0 := by simp [linesLeft, hl', hq]
      refine ⟨_, m, hfirst, ?_, by simpa using hg.main, by simpa using hl, hl', hg.outside, hq, ?_⟩
      · simp only [List.nil_append, List.length_singleton]
        omega
      · rw [hg.pending, hp]
        exact hd

/-- Unless a handler comes in, `exit_region` delivers what is pending and leaves its loop. -/
theorem Sound.empties (h : Sound s c) (hl : s.Draining) (ho : s.Outside) :
    Ahead Step (¬ Handles ·) Draining s.linesLeft
      (fun tr' s' ↦ s'.line = .switch ∧ s'.queueIndex = 0 ∧
        delivered tr' = s.pending.reverse) s := by
  obtain ⟨tr, s', hr, hlen, hK, hP, hl', -, hq, hd⟩ := h.path hl ho rfl
  rw [← hlen]
  exact hr.ahead (determined.mono fun _ ↦ .inl) hK hP ⟨hl', hq, hd⟩

/-! ### Runs -/

/-- The entries are marked, except that of a tick, and drained as they should be. -/
structure Serving (xs : List TaskId) (tr : List (Yalrt × YalrtOp)) (s : Yalrt) : Prop where
  sound : Sound s (Classes.after ⟨xs, []⟩ tr)
  level : s.Level
  marked : ∀ e ∈ s.pending, e ≠ rqDelayExchange → s.Marked e
  drains : Drains tr s

/-- Appending an exchange adds an entry. -/
theorem pending_perm (he : s'.entries = s.entries ++ [e]) (hf : s'.inFlight = s.inFlight) :
    s'.pending.Perm (e :: s.pending) := by
  rw [pending, pending, he, hf, List.append_assoc]
  exact List.perm_middle

/-- One more step is one more exchange appended, or none. -/
theorem appended_snoc : appended (tr ++ [(s, o)]) =
    appended tr ++ ((s.raised o).filter fun e ↦ s.Enqueues e o).toList := by
  simp [appended]

/-- One more step is one more entry delivered, or none. -/
theorem delivered_snoc : delivered (tr ++ [(s, o)]) =
    delivered tr ++ if o = .deliver then [s.qIntMsg] else [] := by
  simp [delivered]

/-- The last step is the new one. -/
theorem drains_snoc (hd : s'.pending.Nodup) (hf : s'.queueIndex ≤ 256)
    (hm : ∀ e, s.raised o = some e → e ∈ s.pending →
      s'.type (.interrupt e) = missedIntType ∧ s'.pending = s.pending)
    (hv : o = .deliver → Delivers s s' s.qIntMsg ∧ s.pending = s'.pending ++ [s.qIntMsg])
    (hc : (appended (tr ++ [(s, o)])).Perm (delivered (tr ++ [(s, o)]) ++ s'.pending))
    (hl : o = .drained → s'.queueIndex = 0 ∧ s'.pending = []) (hs : Sound s' c) :
    Drains (tr ++ [(s, o)]) s' where
  once := hd
  fits := hf
  missed a m o' e htr := by
    obtain ⟨-, hx⟩ := List.append_inj' htr rfl
    obtain ⟨rfl, rfl⟩ := Prod.mk.inj (List.singleton_inj.mp hx)
    exact hm e
  delivers a m htr := by
    obtain ⟨-, hx⟩ := List.append_inj' htr rfl
    obtain ⟨rfl, rfl⟩ := Prod.mk.inj (List.singleton_inj.mp hx)
    exact hv rfl
  conserves := hc
  leaves a m htr := by
    obtain ⟨-, hx⟩ := List.append_inj' htr rfl
    obtain ⟨rfl, rfl⟩ := Prod.mk.inj (List.singleton_inj.mp hx)
    exact hl rfl
  empties := hs.empties

/-- The delivery is no interrupt. -/
theorem ne_deliver_of_raised (h : s.raised o = some e) : o ≠ .deliver := by
  rintro rfl
  cases h

/-- The end of the loop is no interrupt. -/
theorem ne_drained_of_raised (h : s.raised o = some e) : o ≠ .drained := by
  rintro rfl
  cases h

/-- A step that neither appends nor delivers keeps what is pending. -/
theorem Drains.conserved (h : Drains tr s)
    (ha : ((s.raised o).filter fun e ↦ s.Enqueues e o) = none) (ho : o ≠ .deliver)
    (hp : s'.pending = s.pending) :
    (appended (tr ++ [(s, o)])).Perm (delivered (tr ++ [(s, o)]) ++ s'.pending) := by
  rw [appended_snoc, delivered_snoc, ha, if_neg ho, hp, Option.toList_none, List.append_nil,
    List.append_nil]
  exact h.conserves

/-- The loop of `exit_region` is left with nothing pending. -/
theorem Sound.leaves (h : Sound s c) (hs : Step s .drained s') :
    s'.queueIndex = 0 ∧ s'.pending = [] := by
  obtain ⟨⟨R, Q, D, M, hk, -⟩, -⟩ := h
  obtain ⟨⟨hq, rfl⟩, -⟩ := hk.drained hs
  exact ⟨hq, by simp [Yalrt.pending, entries, inFlight, hq]⟩

/-- One more step that meets the condition. -/
theorem Serving.snoc (h : Serving xs tr s) (ho : s.Lawful o) (ha : s.Admits o)
    (hs : Step s o s') : Serving xs (tr ++ [(s, o)]) s' := by
  obtain ⟨hsound, hlinks⟩ := h.sound.step ho hs
  rw [← Classes.after_snoc] at hsound
  have hkeep : ∀ x, s.Marked x → (o = .deliver → x ≠ s.qIntMsg) → s'.Marked x := by
    intro x hx hne
    exact hlinks (.interrupt x) hx (fun e he ↦ ho.sends e _ x he rfl)
      fun hd he ↦ hne hd (MsgId.interrupt.inj he)
  cases h.sound.turns ho hs with
  | append e hr hpass he hf _ hline hq =>
    obtain ⟨hne, hroom, hfetch⟩ := ha.1 e hr hpass
    have hd := ne_deliver_of_raised hr
    have hperm := pending_perm he (hf hfetch)
    refine ⟨hsound, fun hl ↦ absurd (hline ▸ hl) hfetch, fun x hx hxd ↦ ?_,
      drains_snoc ?_ (by omega) (fun x hx hxp ↦ ?_) (fun hx ↦ absurd hx hd) ?_
        (fun hx ↦ absurd hx (ne_drained_of_raised hr)) hsound⟩
    · refine hkeep x ?_ fun hx ↦ absurd hx hd
      rcases List.mem_cons.mp (hperm.mem_iff.mp hx) with rfl | hx
      · refine hpass.resolve_left fun ht ↦ hxd ?_
        rw [ht, raised] at hr
        split at hr
        · exact (Option.some.inj hr).symm
        · cases hr
      · exact h.marked x hx hxd
    · exact hperm.nodup_iff.mpr (List.nodup_cons.mpr ⟨hne, h.drains.once⟩)
    · exact absurd (Option.some.inj (hx.symm.trans hr) ▸ hxp) hne
    · have happ : ((s.raised o).filter fun e ↦ s.Enqueues e o) = some e := by simp [hr, hpass]
      rw [appended_snoc, delivered_snoc, if_neg hd, List.append_nil, happ]
      apply (h.drains.conserves.append_right [e]).trans
      rw [List.append_assoc]
      exact ((List.perm_append_singleton e s.pending).trans hperm.symm).append_left _
  | miss e hr hna hty hp hv hq =>
    have hd := ne_deliver_of_raised hr
    refine ⟨hsound, hv h.level,
      fun x hx hxd ↦ hkeep x (h.marked x (hp ▸ hx) hxd) fun hx ↦ absurd hx hd,
      drains_snoc (hp ▸ h.drains.once) (hq ▸ h.drains.fits) (fun x hx hxp ↦ ?_)
        (fun hx ↦ absurd hx hd) (h.drains.conserved (by simp [hr, hna]) hd hp)
        (fun hx ↦ absurd hx (ne_drained_of_raised hr)) hsound⟩
    obtain rfl := Option.some.inj (hr.symm.trans hx)
    exact ⟨hty, hp⟩
  | deliver hd hp hline hq =>
    have hn := h.drains.once
    rw [hp] at hn
    have hmem : ∀ x ∈ s'.pending, x ≠ s.qIntMsg :=
      fun x hx he ↦ (List.nodup_append.mp hn).2.2 x hx _ (by simp) he
    refine ⟨hsound, fun hl ↦ ?_, fun x hx hxd ↦ ?_, drains_snoc (List.nodup_append.mp hn).1
      (hq ▸ h.drains.fits) (fun x hr _ ↦ absurd hd (ne_deliver_of_raised hr)) (fun _ ↦ ⟨?_, hp⟩) ?_
        (fun hx ↦ ?_) hsound⟩
    · rw [hline] at hl
      cases hl
    · exact hkeep x (h.marked x (by simp [hp, hx]) hxd) fun _ ↦ hmem x hx
    · -- the entry of a tick is not marked
      subst hd
      apply (h.sound.delivers_iff hs rfl).mpr
      by_cases he : s.qIntMsg = rqDelayExchange
      · rw [he]
        exact ha.2 rfl he
      · exact .inr (h.marked _ (by simp [hp]) he)
    · have hnone : s.raised o = none := by
        subst hd
        rfl
      rw [appended_snoc, delivered_snoc, hnone, if_pos hd]
      apply (h.drains.conserves.append_right []).trans
      rw [hp, List.append_nil, List.append_assoc]
      exact (List.perm_append_comm).append_left _
    · subst hd
      cases hx
  | keep hr hd hp hv hq =>
    refine ⟨hsound, hv h.level, fun x hx hxd ↦
      hkeep x (h.marked x (hp ▸ hx) hxd) fun hx ↦ absurd hx hd,
      drains_snoc (hp ▸ h.drains.once) (hq.trans h.drains.fits) (fun x hx ↦ by simp [hr] at hx)
        (fun hx ↦ absurd hx hd) (h.drains.conserved (by simp [hr]) hd hp) ?_ hsound⟩
    rintro rfl
    exact h.sound.leaves hs

/-- The higher task waits for an interrupt, and the lower one is in a system call. -/
def inCall : List YalrtOp :=
  [.enterRegion, .reqwait 9 0, .exitRegion, .drained, .close, .enterRegion]

end Yalrt

end YRmx
