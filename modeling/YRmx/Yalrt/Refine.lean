import YRmx.Yalrt.Marks
import YRmx.Yalrt.Plan

/-!
# The lists of `yalrt.c` follow the plan

Library `YRmx`. Each step keeps the lists, the messages and the interrupts of the nucleus equal to
those of the plan, whatever handlers come in between.
-/

namespace YRmx

open Transition Intrusive Priority

variable {s s' s₀ : Yalrt} {p : Plan} {xs : List TaskId} {t : TaskId} {e : ExchId} {m : MsgId}
  {o : YalrtOp} {tr : List (Yalrt × YalrtOp)}

namespace Yalrt

/-- The line of the main program is reached, and no handler is inside the region. -/
def At (s : Yalrt) (l : MainLine) : Prop := s.line = l ∧ s.Outside

instance (s : Yalrt) (l : MainLine) : Decidable (s.At l) := inferInstanceAs (Decidable (_ ∧ _))

/-- What a step means to the tasks. -/
def act (s : Yalrt) : YalrtOp → Act
  | .reqsend e m => .reqsend e m
  | .reqacpt e => .reqacpt e
  | .reqwait e d => .reqwait e d
  | .reqsusp t => .reqsusp t
  | .reqresm t => .reqresm t
  | .expire => .expire
  | .pop => .pop
  | .fetch => .fetch
  | .deliver => .deliver
  | .close => .switch
  | .timer => .tick
  | .reqisnd e => .interrupt e
  | .irq i =>
    match s.irq[i]? with
    | some (.append e) => .interrupt e
    | _ => .silent
  | .enterRegion | .expired | .exitRegion | .drained | .reqssnd _ => .silent

/-- The interrupts are those of the plan. -/
structure Signals (s : Yalrt) (p : Plan) : Prop where
  entries : s.entries = p.interrupts
  taken : s.inFlight = p.taken.toList
  exposed : p.exposed = true ↔ s.line = .fetch ∧ s.slot = s.queueIndex
  slot : s.line = .fetch → s.slot ≤ s.queueIndex

/-- An exchange is appended on both sides. -/
theorem Signals.append (h : Signals s p) (dl : Addr → BitVec 16) (is : List IrqLine) (e : ExchId) :
    Signals { Yalrt.appendInt { s with delay := dl } e with irq := is } (p.append e) where
  entries := by
    rw [Plan.append, ← h.entries]
    exact entries_appendInt
  taken := by
    have ht := h.taken
    unfold inFlight at ht ⊢
    dsimp only [appendInt, Plan.append] at ht ⊢
    split
    · -- the slot is overwritten unless one was appended before
      rename_i hl
      simp only [hl] at ht
      by_cases hs : s.slot = s.queueIndex
      · rw [if_pos (h.exposed.mpr ⟨hl, hs⟩), hs, Function.update_self]
        rfl
      · rw [if_neg fun hx ↦ hs (h.exposed.mp hx).2, Function.update_of_ne hs]
        exact ht
    · rename_i hl
      simp only [hl] at ht
      rw [if_neg fun hx ↦ by simp [(h.exposed.mp hx).1] at hl]
      exact ht
    · rename_i hl hl'
      rw [if_neg fun hx ↦ hl (h.exposed.mp hx).1, ← ht]
      split
      · exact absurd ‹_› hl
      · exact absurd ‹_› hl'
      · rfl
  exposed := by
    apply iff_of_false (by simp [Plan.append])
    rintro ⟨hl, hs⟩
    have hle := h.slot hl
    dsimp only [appendInt] at hs
    omega
  slot hl := (h.slot hl).trans (Nat.le_succ _)

/-- The link of a message that is not queued is its owner. -/
structure Owners (w : Addr → Addr) (M : ExchId → List MsgId) (own : MsgId → Addr) : Prop where
  link : ∀ {m}, (∀ e, m ∉ M e) → w (.msg m) = own m
  queued : ∀ {e m}, m ∈ M e → own m = .null

namespace Owners

variable {w : Addr → Addr} {tail : ExchId → Addr} {Q : ExchId → List TaskId}
  {M : ExchId → List MsgId} {own : MsgId → Addr} {u : MsgId} {ms : List MsgId}

/-- A message that is not queued is appended to a queue. -/
theorem append (h : Owners w M own) (hp : Posted w tail Q M) (hm : ∀ e, m ∉ M e) (e : ExchId) :
    Owners (Function.update (Function.update w (tail e) (.msg m)) (.msg m) .null)
      (Function.update M e (M e ++ [m])) (Function.update own m .null) := by
  have hmem : ∀ {e' u}, u ∈ Function.update M e (M e ++ [m]) e' ↔
      u ∈ M e' ∨ e' = e ∧ u = m := by
    intro e' u
    by_cases he : e' = e
    · subst he
      simp
    · simp [he]
  refine ⟨fun {u} hu ↦ ?_, fun {e' u} hu ↦ ?_⟩
  · have hue : u ∉ M e := fun hx ↦ hu e (hmem.mpr (.inl hx))
    have hum : u ≠ m := fun hx ↦ hu e (hmem.mpr (.inr ⟨rfl, hx⟩))
    rw [hp.append_other hue hum, Function.update_of_ne hum]
    exact h.link fun e' hx ↦ hu e' (hmem.mpr (.inl hx))
  · rcases hmem.mp hu with hu | ⟨-, rfl⟩
    · have hum : u ≠ m := fun hx ↦ hm e' (hx ▸ hu)
      rw [Function.update_of_ne hum]
      exact h.queued hu
    · exact Function.update_self ..

/-- A message that is not queued gets another owner. -/
theorem relink (h : Owners w M own) (hm : ∀ e, m ∉ M e) (q : Addr) :
    Owners (Function.update w (.msg m) q) M (Function.update own m q) := by
  refine ⟨fun {u} hu ↦ ?_, fun {e' u} hu ↦ ?_⟩
  · by_cases hum : u = m
    · rw [hum, Function.update_self, Function.update_self]
    · rw [Function.update_of_ne hum, Function.update_of_ne fun hx ↦ hum (Addr.msg.inj hx)]
      exact h.link hu
  · have hum : u ≠ m := fun hx ↦ hm e' (hx ▸ hu)
    rw [Function.update_of_ne hum]
    exact h.queued hu

/-- The first message of a queue gets an owner. -/
theorem pop (h : Owners w M own) (hp : Posted w tail Q M) (hM : M e = m :: ms) (q : Addr) :
    Owners (Function.update (Function.update w (.exch e) (w (.msg m))) (.msg m) q)
      (Function.update M e ms) (Function.update own m q) := by
  have hd : m ∉ ms := by
    have hq := (hp.queues e).nodup
    rw [hM, List.map_cons] at hq
    intro hx
    exact (List.nodup_cons.mp hq).1 (List.mem_map_of_mem hx)
  have hmem : ∀ {e' u}, u ∈ Function.update M e ms e' ↔ u ∈ M e' ∧ u ≠ m := by
    intro e' u
    by_cases he : e' = e
    · subst he
      rw [Function.update_self, hM, List.mem_cons]
      constructor
      · intro hu
        exact ⟨.inr hu, fun hx ↦ hd (hx ▸ hu)⟩
      · rintro ⟨hu, hum⟩
        exact hu.resolve_left hum
    · rw [Function.update_of_ne he]
      refine (and_iff_left_of_imp fun hu hx ↦ he ?_).symm
      exact hp.apart hu (by simp [hM, hx])
  refine ⟨fun {u} hu ↦ ?_, fun {e' u} hu ↦ ?_⟩
  · by_cases hum : u = m
    · rw [hum, Function.update_self, Function.update_self]
    · rw [Function.update_of_ne hum, Function.update_of_ne fun hx ↦ hum (Addr.msg.inj hx),
        Function.update_of_ne (by simp)]
      exact h.link fun e' hx ↦ hu e' (hmem.mpr ⟨hx, hum⟩)
  · obtain ⟨hu, hum⟩ := hmem.mp hu
    rw [Function.update_of_ne hum]
    exact h.queued hu

end Owners

/-- The lists are those of the plan. -/
structure Follows (s : Yalrt) (p : Plan) : Prop where
  kept : Kept s ⟨p.ready, p.suspendList⟩ p.ready p.tq p.dl
  posted : Posted s.word0 s.messageTail p.tq p.mq
  idle : idleTask ∈ p.ready
  suspends : s.isSuspended = p.suspends
  rqactv : s.rqactv = p.rqactv
  message : s.message = p.message
  type : s.type = p.type
  length : s.length = p.length
  priority : s.priority = p.priority
  owners : Owners s.word0 p.mq p.own
  signals : Signals s p

namespace Follows

/-- The same priorities. -/
theorem key_eq (h : Follows s p) : s.key = p.key := by
  ext t
  rw [Sched.key, Plan.key, h.priority]

/-- The message of the exchange is linked to itself as long as nobody holds it. -/
theorem marked_iff (h : Follows s p) : s.Marked e ↔ p.Free e := by
  constructor
  · intro hm
    exact (h.owners.link (h.posted.not_mem (.inl hm))).symm.trans hm
  · intro hf
    refine (h.owners.link fun e' hx ↦ ?_).trans hf
    have hq := (h.owners.queued hx).symm.trans hf
    cases hq

/-- The ownership test of `yalrt.c:972`. -/
theorem accepts_iff (h : Follows s p) : s.accepts m ↔ p.Accepts m := by
  constructor
  · intro ha
    have hq := h.owners.link (h.posted.not_mem (ha.symm.imp_right fun hl ↦ ⟨_, hl⟩))
    rwa [accepts, msgLink, hq, h.rqactv] at ha
  · intro ha
    have hq := h.owners.link (m := m) fun e hx ↦ by
      have hn := h.owners.queued hx
      rw [Plan.Accepts, hn] at ha
      simp at ha
    rwa [accepts, msgLink, hq, h.rqactv]

/-- A task queue behind its head pointer. -/
theorem head_null (h : Follows s p) : s.taskHead e = .null ↔ p.tq e = [] := by
  simpa using (h.kept.lists.waits e).head_null_iff

/-- A message queue behind its head pointer. -/
theorem mail_null (h : Follows s p) : s.messageHead e = .null ↔ p.mq e = [] := by
  simpa using (h.posted.queues e).head_null_iff

/-- The ready list of the plan is sorted. -/
theorem serves {c : Sched} (hk : c.key = p.key) {R : List TaskId}
    (h : R.Pairwise fun a b ↦ p.key a ≤ p.key b) : Serves c.key R R := by
  rw [hk]
  exact Serves.refl h

/-- The lists agree with the steps. -/
theorem sound (h : Follows s p) : Sound s ⟨p.ready, p.suspendList⟩ :=
  ⟨⟨_, _, _, _, h.kept, h.posted⟩, h.idle⟩

/-- The ready list is not empty. -/
theorem ready_ne_nil (h : Follows s p) : p.ready ≠ [] := List.ne_nil_of_mem h.idle

/-- Nothing that the plan speaks of has changed but the lists of tasks. -/
structure Still (s s' : Yalrt) : Prop where
  rqactv : s'.rqactv = s.rqactv
  word0 : s'.word0 = s.word0
  messageTail : s'.messageTail = s.messageTail
  message : s'.message = s.message
  type : s'.type = s.type
  length : s'.length = s.length

/-- The same for the plan. -/
structure Rests (p q : Plan) : Prop where
  rqactv : q.rqactv = p.rqactv
  mq : q.mq = p.mq
  own : q.own = p.own
  message : q.message = p.message
  type : q.type = p.type
  length : q.length = p.length
  priority : q.priority = p.priority

/-- A step outside of the handlers and of the delivery leaves the interrupts as they are. -/
theorem quiet {q : Plan} (h : Follows s p) (hs : Step s o s') (ho : o ≠ .deliver) (hh : ¬ Handles o)
    (hf : o ≠ .fetch) (hq : s'.queueIndex = s.queueIndex) (hi : s'.isndQueue = s.isndQueue)
    (hl : s'.inFlight = []) (he : q.interrupts = p.interrupts) (ht : q.taken = p.taken)
    (hx : q.exposed = p.exposed) : Signals s' q where
  entries := by
    rw [he, ← h.signals.entries, Yalrt.entries, Yalrt.entries, hq, hi]
  taken := by
    rw [ht, ← h.signals.taken, hl, hs.inFlight_nil hh hf ho]
  exposed := by
    rw [hx, h.signals.exposed]
    refine iff_of_false (fun hx ↦ ?_) (fun hx ↦ ?_)
    · exact hf ((hs.line_eq hh).2.2.1 hx.1)
    · rw [inFlight, hx.1] at hl
      cases hl
  slot hl' := by
    rw [inFlight, hl'] at hl
    cases hl

/-- A step that moves tasks only. -/
theorem moves {q : Plan} (h : Follows s p) (hs : Step s o s')
    (hk : Kept s' ⟨q.ready, q.suspendList⟩ q.ready q.tq q.dl)
    (hq : Posted s.word0 s.messageTail q.tq p.mq) (hi : idleTask ∈ q.ready)
    (hsus : s.marksAfter o = q.suspends) (hst : Still s s') (hr : Rests p q)
    (hsig : Signals s' q) : Follows s' q where
  kept := hk
  posted := by rwa [hst.word0, hst.messageTail, hr.mq]
  idle := hi
  suspends := (Prod.mk.inj hs.tags).1.trans hsus
  rqactv := by rw [hst.rqactv, hr.rqactv, h.rqactv]
  message := by rw [hst.message, hr.message, h.message]
  type := by rw [hst.type, hr.type, h.type]
  length := by rw [hst.length, hr.length, h.length]
  priority := by rw [(Prod.mk.inj hs.tags).2, hr.priority, h.priority]
  owners := by
    rw [hst.word0, hr.mq, hr.own]
    exact h.owners
  signals := hsig

/-- The lists of a task that became able to run. -/
theorem wake_lists (h : Follows s p) {T : TaskLists} {Q : ExchId → List TaskId}
    {D : List (TaskId × Nat)}
    (hc : Classified T (Classified.wokenReady s.toSched t p.ready)
      (Classified.wokenSuspend s.toSched t p.suspendList) Q D) (hp : T.priority = s.priority) :
    Classified T (p.wake t).ready (p.wake t).suspendList Q D ∧
      Serves T.key (p.wake t).ready (p.wake t).ready ∧ idleTask ∈ (p.wake t).ready := by
  have hkey : T.key = p.key := by
    rw [← h.key_eq]
    ext u
    rw [Sched.key, Sched.key, hp]
  have hsorted := h.kept.serves.sorted
  rw [h.key_eq] at hsorted
  simp only [Classified.wokenReady, Classified.wokenSuspend, h.suspends, h.key_eq] at hc
  refine ⟨hc, serves hkey ?_, ?_⟩
  · rw [Plan.wake]
    dsimp only
    split
    · exact hsorted
    · exact enqueue_sorted hsorted
  · rw [Plan.wake]
    dsimp only
    split
    · exact h.idle
    · exact mem_enqueue.mpr (.inr h.idle)

/-- `reqsend`. -/
theorem reqsend (h : Follows s p) (ho : s.Lawful (.reqsend e m))
    (hs : Step s (.reqsend e m) s') : Follows s' (p.step (.reqsend e m)) := by
  obtain ⟨hacc, hl, hcases⟩ := h.kept.reqsend_cases h.ready_ne_nil ho.slips hs
  have hm := h.posted.not_mem (hacc.symm.imp_right fun hl ↦ ⟨_, hl⟩)
  simp only [Plan.step, if_pos (h.accepts_iff.mp hacc), Plan.send]
  rcases hcases with ⟨hh, s₁, hs₁, rfl⟩ | ⟨t, r, T, hh, hq, -, rfl, hc, hp⟩
  · obtain rfl := appendMessage_ok hs₁
    have hq := h.head_null.mp hh
    simp only [hq]
    exact
      { kept := h.kept.called (d := ⟨p.ready, p.suspendList⟩) h.kept.lists h.kept.serves
          (by simp [hl]) rfl (by simp) (by simp) rfl rfl
        posted := h.posted.append hm hq fun x hx ↦ absurd hx (ho.sends e m x rfl)
        idle := h.idle
        suspends := h.suspends
        rqactv := h.rqactv
        message := h.message
        type := h.type
        length := h.length
        priority := h.priority
        owners := h.owners.append h.posted hm e
        signals := h.quiet hs (by simp) id (by simp) rfl rfl rfl rfl rfl rfl }
  · obtain ⟨hc, hv, hi⟩ := h.wake_lists hc hp
    simp only [hq]
    exact
      { kept := h.kept.called (d := ⟨(p.wake t).ready, (p.wake t).suspendList⟩) hc hv
          (by simp [hl]) rfl (by simp) (by simp) rfl rfl
        posted := (h.posted.relink hm _).fewer fun x hx ↦ update_nil hq hx
        idle := hi
        suspends := (Prod.mk.inj hs.tags).1.trans h.suspends
        rqactv := h.rqactv
        message := congrArg (Function.update · t (.msg m)) h.message
        type := h.type
        length := h.length
        priority := hp.trans h.priority
        owners := h.owners.relink hm _
        signals := h.quiet hs (by simp) id (by simp) rfl rfl rfl rfl rfl rfl }

/-! ### Messages that are fetched -/

/-- `reqdqmsg` at an exchange with a message. -/
theorem reqdqmsg_cons (hh : s.taskHead e = .null) (ht : s.taskTail e = .exch e)
    (hm : s.messageHead e = .msg m) : s.reqdqmsg e = .ok { s with
      message := Function.update s.message s.rqactv (.msg m)
      qint := if s.dequeuesInt e (.msg m) then Function.update s.qint e 0 else s.qint
      word0 := Function.update (Function.update s.word0 (.exch e) (s.word0 (.msg m))) (.msg m)
        (if s.dequeuesInt e (.msg m) then .msg m else .task s.rqactv)
      messageTail := if s.word0 (.msg m) = .null then Function.update s.messageTail e (.exch e)
        else s.messageTail } := by
  have htest : ¬ (s.thread (.exch e) ≠ .null ∨ s.taskTail e ≠ .exch e) := by
    rw [not_or, not_not, not_not]
    exact ⟨hh, ht⟩
  have hne : Addr.msg m ≠ .exch e := by simp
  have hint : ∀ y, dequeuesInt { s with message := y } e (.msg m) = s.dequeuesInt e (.msg m) :=
    fun _ ↦ rfl
  by_cases hi : s.dequeuesInt e (.msg m) <;> by_cases hl : s.word0 (.msg m) = .null
  all_goals
    rw [Yalrt.reqdqmsg]
    simp only [taskHead, htest, if_false, messageHead] at hm ⊢
    simp only [hm, deref, reduceCtorEq, if_false, Exec.ok_bind, hint, hi, hl,
      decide_true, decide_false,
      if_true, Bool.false_eq_true, Function.update_of_ne hne]

/-- The running task fetches the first message. -/
theorem receives {x : TaskId → ThreadPtr} {y : TaskId → Addr} {s₁ : Yalrt} (h : Follows s p)
    (hs : Step s o s') (hn : s.messageHead e ≠ .null)
    (hk : Kept s' ⟨p.ready, p.suspendList⟩ p.ready p.tq p.dl) (ho : o ≠ .deliver)
    (hh : ¬ Handles o) (hf : o ≠ .fetch) (hsus : s.marksAfter o = s.isSuspended)
    (hy : ∀ v, Function.update y s.rqactv v = Function.update s.message s.rqactv v)
    (hd : Yalrt.reqdqmsg { s with exchange := x, message := y } e = .ok s₁)
    (hs' : s' = { s₁ with line := .exitRegion }) : Follows s' (p.receive e) := by
  obtain ⟨m, ms, hM⟩ := List.exists_cons_of_ne_nil fun hx ↦ hn (h.mail_null.mpr hx)
  have htq : p.tq e = [] := by
    by_contra hq
    rw [h.posted.exclusive hq] at hM
    cases hM
  have hw := h.kept.lists.waits e
  rw [htq] at hw
  have hhead := (h.posted.queues e).head_eq
  rw [hM] at hhead
  have htail : s.taskTail e = .exch e := hw.tail_root_iff.mpr rfl
  have hq := reqdqmsg_cons (s := { s with exchange := x, message := y }) (e := e) (m := m)
    (h.head_null.mpr htq) htail hhead
  obtain rfl := Except.ok.inj (hq.symm.trans hd)
  have hint : s.dequeuesInt e (.msg m) ↔ p.receivesInt e m := by
    rw [dequeuesInt, Plan.receivesInt, h.length, h.type, Addr.msg.injEq]
  have hown : (if dequeuesInt { s with exchange := x, message := y } e (.msg m) then Addr.msg m
      else .task s.rqactv) = if p.receivesInt e m then .msg m else .task p.rqactv := by
    rw [h.rqactv]
    exact if_congr hint rfl rfl
  subst hs'
  simp only [Plan.receive, hM]
  exact
    { kept := hk
      posted := h.posted.pop hM _
      idle := h.idle
      suspends := (Prod.mk.inj hs.tags).1.trans (hsus.trans h.suspends)
      rqactv := h.rqactv
      message := by
        dsimp only
        rw [hy, h.message, h.rqactv]
      type := h.type
      length := h.length
      priority := h.priority
      owners := by
        dsimp only
        rw [hown]
        exact h.owners.pop h.posted hM _
      signals := h.quiet hs ho hh hf rfl rfl rfl rfl rfl rfl }

/-- `reqacpt`. -/
theorem reqacpt (h : Follows s p) (hs : Step s (.reqacpt e) s') :
    Follows s' (p.step (.reqacpt e)) := by
  obtain ⟨⟨s₁, hs₁, hs'⟩, hk⟩ := h.kept.reqacpt hs
  rw [Yalrt.reqacpt] at hs₁
  split at hs₁
  · rename_i hn
    exact h.receives hs hn hk (by simp) id (by simp) rfl (fun v ↦ Function.update_idem ..) hs₁ hs'
  · rename_i hn
    have hM := h.mail_null.mp (not_not.mp hn)
    obtain rfl := Except.ok.inj hs₁
    subst hs'
    simp only [Plan.step, Plan.receive, hM]
    exact
      { kept := hk
        posted := h.posted
        idle := h.idle
        suspends := h.suspends
        rqactv := h.rqactv
        message := by
          dsimp only
          rw [h.message, h.rqactv]
        type := h.type
        length := h.length
        priority := h.priority
        owners := h.owners
        signals := h.quiet hs (by simp) id (by simp) rfl rfl rfl rfl rfl rfl }

/-- `reqwait`. -/
theorem reqwait {d : BitVec 16} (h : Follows s p) (ho : s.Lawful (.reqwait e d))
    (hs : Step s (.reqwait e d) s') : Follows s' (p.step (.reqwait e d)) := by
  obtain ⟨hl, hcases⟩ := h.kept.reqwait_cases hs
  rcases hcases with ⟨R', T, D', hm, hR, rfl, hc, hp⟩ | ⟨hm, s₁, hs₁, rfl⟩
  · have hM := h.mail_null.mp hm
    obtain ⟨hh, h0⟩ := h.kept.region.active (.inr hl)
    have hlists := h.kept.lists
    rw [hR] at hlists
    obtain ⟨T', hT', hc', hp'⟩ := hlists.reqwait_delays h0 hm d
    have hs0 := hs
    obtain ⟨n, hn⟩ := hs
    obtain ⟨-, hout, -⟩ := mainStep_ok (f := (Yalrt.reqwait n · e d)) hn
    have hy := hs0.eq_of_yields (mainStep_yields (l := .exitRegion)
      (f := fun n s ↦ Yalrt.reqwait n s e d) hl hout hT')
    obtain rfl : T = T' := congrArg Yalrt.toTaskLists hy
    have hready : p.ready.erase p.rqactv = R' := by
      rw [hR, h.rqactv, List.erase_cons_head]
    have hsorted := h.kept.serves.sorted
    have hkey : T.key = s.key := by
      ext u
      rw [Sched.key, Sched.key, hp]
    rw [h.rqactv] at hc'
    simp only [Plan.step, if_pos hM, Plan.block]
    refine h.moves hs0 (h.kept.called (T := T)
      (d := ⟨p.ready.erase p.rqactv, p.suspendList⟩) ?_ ?_ (by simp [hl]) rfl (by simp) (by simp)
      rfl rfl) (h.posted.wait hm _) ?_ h.suspends ⟨rfl, rfl, rfl, rfl, rfl, rfl⟩
      ⟨rfl, rfl, rfl, rfl, rfl, rfl, rfl⟩
      (h.quiet hs0 (by simp) id (by simp) rfl rfl rfl rfl rfl rfl)
    · rw [hready]
      exact hc'
    · rw [hready]
      apply serves (hkey.trans h.key_eq)
      rw [h.key_eq, hR] at hsorted
      exact (List.pairwise_cons.mp hsorted).2
    · exact (List.mem_erase_of_ne (h.rqactv ▸ ho.idle e d rfl).symm).mpr h.idle
  · have hM : p.mq e ≠ [] := fun hx ↦ hm (h.mail_null.mpr hx)
    have hk : Kept { s₁ with line := .exitRegion } ⟨p.ready, p.suspendList⟩ p.ready p.tq p.dl := by
      obtain ⟨hh, -⟩ := h.kept.region.active (.inr hl)
      have hx := h.kept.lists.setExchange
        (h.kept.lists.ready_waits _ (List.mem_of_mem_head? hh)) (.exch e)
      rw [reqdqmsg_frame hs₁]
      exact h.kept.called (d := ⟨p.ready, p.suspendList⟩) hx h.kept.serves (by simp [hl]) rfl
        (by simp) (by simp) rfl rfl
    simp only [Plan.step, if_neg hM]
    exact h.receives hs hm hk (by simp) id (by simp) rfl (fun _ ↦ rfl) hs₁ rfl

/-! ### Suspension and time-outs -/

/-- `reqsusp`. -/
theorem reqsusp (h : Follows s p) (hs : Step s (.reqsusp t) s') :
    Follows s' (p.step (.reqsusp t)) := by
  have hs0 := hs
  obtain ⟨n, hn⟩ := hs
  obtain ⟨hl, hout, -, -, -⟩ := mainStep_ok (f := (Yalrt.reqsusp n · t)) hn
  obtain ⟨T, hT, hc, hp⟩ := h.kept.lists.reqsusp t
  obtain rfl := hs0.eq_of_yields (mainStep_yields (l := .exitRegion)
    (f := fun n s ↦ Yalrt.reqsusp n s t) hl hout hT)
  have hkey : T.key = p.key := by
    rw [← h.key_eq]
    ext u
    rw [Sched.key, Sched.key, hp]
  have hsorted := h.kept.serves.sorted
  rw [h.key_eq] at hsorted
  have hsig : Signals { s with toTaskLists := T, line := .exitRegion } p :=
    h.quiet hs0 (by simp) id (by simp) rfl rfl rfl rfl rfl rfl
  simp only [Plan.step]
  by_cases hi : t = idleTask
  · rw [if_neg fun hx ↦ hx.1 hi, if_neg fun hx ↦ hx.1 hi] at hc
    rw [if_pos hi]
    refine h.moves hs0 (h.kept.called (T := T) (d := ⟨p.ready, p.suspendList⟩) hc
      (serves hkey hsorted) (by simp [hl]) rfl (by simp) (by simp) rfl rfl) h.posted h.idle ?_
      ⟨rfl, rfl, rfl, rfl, rfl, rfl⟩ ⟨rfl, rfl, rfl, rfl, rfl, rfl, rfl⟩ hsig
    rw [marksAfter, if_pos hi, h.suspends]
  rw [if_neg hi]
  have hsus : s.marksAfter (.reqsusp t) = Function.update p.suspends t true := by
    rw [marksAfter, if_neg hi, h.suspends]
  by_cases ht : t ∈ p.ready
  · rw [if_pos ⟨hi, ht⟩, if_pos ⟨hi, ht⟩] at hc
    rw [if_pos ht]
    exact h.moves hs0 (h.kept.called (T := T) (d := ⟨p.ready.erase t, p.suspendList ++ [t]⟩) hc
      (serves hkey (hsorted.sublist List.erase_sublist)) (by simp [hl]) rfl (by simp) (by simp)
      rfl rfl) h.posted ((List.mem_erase_of_ne (Ne.symm hi)).mpr h.idle) hsus
      ⟨rfl, rfl, rfl, rfl, rfl, rfl⟩ ⟨rfl, rfl, rfl, rfl, rfl, rfl, rfl⟩
        ⟨hsig.entries, hsig.taken, hsig.exposed, hsig.slot⟩
  · rw [if_neg fun hx ↦ ht hx.2, if_neg fun hx ↦ ht hx.2] at hc
    rw [if_neg ht]
    exact h.moves hs0 (h.kept.called (T := T) (d := ⟨p.ready, p.suspendList⟩) hc
      (serves hkey hsorted) (by simp [hl]) rfl (by simp) (by simp) rfl rfl) h.posted h.idle hsus
      ⟨rfl, rfl, rfl, rfl, rfl, rfl⟩ ⟨rfl, rfl, rfl, rfl, rfl, rfl, rfl⟩
        ⟨hsig.entries, hsig.taken, hsig.exposed, hsig.slot⟩

/-- `reqresm`. -/
theorem reqresm (h : Follows s p) (ho : s.Lawful (.reqresm t)) (hs : Step s (.reqresm t) s') :
    Follows s' (p.step (.reqresm t)) := by
  have hs0 := hs
  obtain ⟨n, hn⟩ := hs
  obtain ⟨hl, hout, -, -, -⟩ := mainStep_ok (f := (Yalrt.reqresm n · t)) hn
  have hb : t ∈ p.suspendList → s.status t &&& maskint = 0 := by
    intro ht
    by_contra hb
    have hm := (rests_bits _ (h.kept.lists.rests t ht)).2.2.2.2.2 hb
    exact ho.slips ⟨p.suspendList, h.kept.lists.suspend.lists, ht, .inl (by rw [hm]; decide)⟩
  have hlast : ∀ l, p.suspendList = l ++ [t] → l = [] := by
    intro l hx
    by_contra hne
    exact ho.slips
      ⟨p.suspendList, h.kept.lists.suspend.lists, by simp [hx], .inr ⟨l, hne, hx⟩⟩
  obtain ⟨T, hT, hc, hp⟩ := h.kept.lists.reqresm h.ready_ne_nil hb hlast
  obtain rfl := hs0.eq_of_yields (mainStep_yields (l := .exitRegion)
    (f := fun n s ↦ Yalrt.reqresm n s t) hl hout hT)
  have hkey : T.key = p.key := by
    rw [← h.key_eq]
    ext u
    rw [Sched.key, Sched.key, hp]
  have hsorted := h.kept.serves.sorted
  rw [h.key_eq] at hsorted hc
  have hsig : Signals { s with toTaskLists := T, line := .exitRegion } p :=
    h.quiet hs0 (by simp) id (by simp) rfl rfl rfl rfl rfl rfl
  have hsus : s.marksAfter (.reqresm t) = Function.update p.suspends t false := by
    rw [marksAfter, h.suspends]
  simp only [Plan.step]
  by_cases ht : t ∈ p.suspendList
  · rw [if_pos ht] at hc ⊢
    exact h.moves hs0 (h.kept.called (T := T)
      (d := ⟨enqueue p.key t p.ready, p.suspendList.erase t⟩) hc
      (serves hkey (enqueue_sorted hsorted)) (by simp [hl]) rfl (by simp) (by simp) rfl rfl)
      h.posted (mem_enqueue.mpr (.inr h.idle)) hsus
      ⟨rfl, rfl, rfl, rfl, rfl, rfl⟩ ⟨rfl, rfl, rfl, rfl, rfl, rfl, rfl⟩
        ⟨hsig.entries, hsig.taken, hsig.exposed, hsig.slot⟩
  · rw [if_neg ht, List.erase_of_not_mem ht] at hc
    rw [if_neg ht]
    exact h.moves hs0 (h.kept.called (T := T) (d := ⟨p.ready, p.suspendList⟩) hc
      (serves hkey hsorted) (by simp [hl]) rfl (by simp) (by simp) rfl rfl) h.posted h.idle hsus
      ⟨rfl, rfl, rfl, rfl, rfl, rfl⟩ ⟨rfl, rfl, rfl, rfl, rfl, rfl, rfl⟩
        ⟨hsig.entries, hsig.taken, hsig.exposed, hsig.slot⟩

/-- One turn of the loop of `rqdelaytask`. -/
theorem expire (h : Follows s p) (hs : Step s .expire s') : Follows s' (p.step .expire) := by
  have hs0 := hs
  obtain ⟨n, hs⟩ := hs
  obtain ⟨hline, hs⟩ := require_bind_eq_ok.mp hs
  obtain ⟨-, hout, s₁, hs₁, -⟩ := mainStep_ok (f := (Yalrt.expire n ·)) hs
  obtain ⟨hk, -⟩ := require_bind_eq_ok.mp hs₁
  obtain ⟨t, D', hD, hn⟩ := h.kept.lists.first_due hk
  obtain ⟨e, hq⟩ := h.kept.lists.timed_waits (t := t) (by simp [hD])
  obtain ⟨T, hT, hc, hp⟩ := h.kept.lists.expire h.ready_ne_nil hk hn hq
  have hy := mainStep_yields (l := .expiry) (f := fun n s ↦ Yalrt.expire n s) rfl hout hT
  obtain rfl := hs0.eq_of_yields (hy.congr fun n ↦ by
    simp only [Yalrt.step, require, if_pos hline, Exec.ok_bind])
  have hne : s.line ≠ .user := by
    rcases hline with hl | hl <;> simp [hl]
  -- the task waits at one exchange only
  have herase : Function.update p.tq e ((p.tq e).erase t) = fun e' ↦ (p.tq e').erase t := by
    ext e'
    by_cases he : e' = e
    · rw [he, Function.update_self]
    · rw [Function.update_of_ne he, List.erase_of_not_mem]
      exact fun hx ↦ he (h.kept.lists.apart hx hq)
  rw [herase] at hc
  obtain ⟨hc, hv, hi⟩ := h.wake_lists hc hp
  simp only [Plan.step, hD]
  rw [hD] at hc
  exact
    { kept := h.kept.called (d := ⟨(p.wake t).ready, (p.wake t).suspendList⟩) hc hv hne rfl
        (by simp) (by simp) rfl rfl
      posted := h.posted.fewer fun x hx ↦ congrArg (List.erase · t) hx
      idle := hi
      suspends := (Prod.mk.inj hs0.tags).1.trans h.suspends
      rqactv := h.rqactv
      message := congrArg (Function.update · t (.msg .timeOut)) h.message
      type := h.type
      length := h.length
      priority := hp.trans h.priority
      owners := h.owners
      signals := h.quiet hs0 (by simp) id (by simp) rfl rfl rfl rfl rfl rfl }

/-! ### Interrupts -/

/-- The message of an interrupt is delivered. -/
theorem deliver (h : Follows s p) (hs : Step s .deliver s') : Follows s' (p.step .deliver) := by
  obtain ⟨e, he⟩ : ∃ e, s.qIntMsg = e := ⟨_, rfl⟩
  obtain ⟨hl, hcases⟩ := h.kept.deliver_cases h.posted h.ready_ne_nil hs he
  have htaken : p.taken = some e := by
    have ht := h.signals.taken
    rw [inFlight, hl, he] at ht
    cases hp : p.taken with
    | none => simp [hp] at ht
    | some x => simpa [hp, eq_comm] using ht
  have hsig : ∀ s' : Yalrt, s'.queueIndex = s.queueIndex → s'.isndQueue = s.isndQueue →
      s'.line = .drain → Signals s' { p with taken := none } := by
    intro s' hq hi hl'
    refine ⟨?_, ?_, iff_of_false ?_ (by simp [hl']), by simp [hl']⟩
    · rw [← h.signals.entries, Yalrt.entries, Yalrt.entries, hq, hi]
    · rw [inFlight, hl']
      rfl
    · intro hx
      have hx := (h.signals.exposed.mp hx).1
      rw [hl] at hx
      cases hx
  simp only [Plan.step, htaken, Plan.deliver, Plan.send]
  rcases hcases with ⟨hh, hm, rfl⟩ | ⟨hh, hm, rfl⟩ | ⟨t, r, T, hh, hq, rfl, hc, hp⟩
  · have hq := h.head_null.mp hh
    have hn := h.posted.not_mem (.inl hm)
    rw [if_pos (.inr (h.marked_iff.mp hm))]
    simp only [hq]
    have hsg := hsig { s with
      type := Function.update s.type (.interrupt e) intType
      messageTail := Function.update s.messageTail e (.msg (.interrupt e))
      word0 := Function.update (Function.update s.word0 (s.messageTail e)
        (.msg (.interrupt e))) (.msg (.interrupt e)) .null
      qint := Function.update s.qint e 1
      line := .drain } rfl rfl rfl
    exact
      { kept := h.kept.called (d := ⟨p.ready, p.suspendList⟩) h.kept.lists h.kept.serves
          (by simp [hl]) rfl (by simp) (by simp) rfl rfl
        posted := h.posted.append hn hq fun x hx ↦ MsgId.interrupt.inj hx
        idle := h.idle
        suspends := h.suspends
        rqactv := h.rqactv
        message := h.message
        type := congrArg (Function.update · (.interrupt e) intType) h.type
        length := h.length
        priority := h.priority
        owners := h.owners.append h.posted hn e
        signals := ⟨hsg.entries, hsg.taken, hsg.exposed, hsg.slot⟩ }
  · have hq := h.head_null.mp hh
    have hno : ¬ (p.tq e ≠ [] ∨ p.Free e) := by
      rintro (hx | hx)
      · exact hx hq
      · exact hm (h.marked_iff.mpr hx)
    rw [if_neg hno]
    have hsg := hsig { s with
      type := Function.update s.type (.interrupt e) missedIntType, line := .drain } rfl rfl rfl
    exact
      { kept := h.kept.called (d := ⟨p.ready, p.suspendList⟩) h.kept.lists h.kept.serves
          (by simp [hl]) rfl (by simp) (by simp) rfl rfl
        posted := h.posted
        idle := h.idle
        suspends := h.suspends
        rqactv := h.rqactv
        message := h.message
        type := congrArg (Function.update · (.interrupt e) missedIntType) h.type
        length := h.length
        priority := h.priority
        owners := h.owners
        signals := ⟨hsg.entries, hsg.taken, hsg.exposed, hsg.slot⟩ }
  · have hn := h.posted.interrupt_not_mem (e := e) (by simp [hq])
    obtain ⟨hc, hv, hi⟩ := h.wake_lists hc hp
    rw [if_pos (.inl (by simp [hq]))]
    simp only [hq]
    have hsg := hsig { s with
      toTaskLists := T
      type := Function.update s.type (.interrupt e) intType
      word0 := Function.update s.word0 (.msg (.interrupt e)) (.msg (.interrupt e))
      message := Function.update s.message t (.msg (.interrupt e))
      line := .drain } rfl rfl rfl
    exact
      { kept := h.kept.called (d := ⟨(p.wake t).ready, (p.wake t).suspendList⟩) hc hv
          (by simp [hl]) rfl (by simp) (by simp) rfl rfl
        posted := (h.posted.relink hn _).fewer fun x hx ↦ update_nil hq hx
        idle := hi
        suspends := (Prod.mk.inj hs.tags).1.trans h.suspends
        rqactv := h.rqactv
        message := congrArg (Function.update · t (.msg (.interrupt e))) h.message
        type := congrArg (Function.update · (.interrupt e) intType) h.type
        length := h.length
        priority := hp.trans h.priority
        owners := h.owners.relink hn _
        signals := ⟨hsg.entries, hsg.taken, hsg.exposed, hsg.slot⟩ }

/-- The last interrupt is taken up. -/
theorem pop (h : Follows s p) (hs : Step s .pop s') : Follows s' (p.step .pop) := by
  obtain ⟨⟨hl, n, hn, rfl⟩, hk⟩ := h.kept.pop hs
  have hentries : p.interrupts = (List.range n).map s.isndQueue ++ [s.isndQueue n] := by
    rw [← h.signals.entries, Yalrt.entries, hn, List.range_succ, List.map_append]
    rfl
  exact h.moves hs hk h.posted h.idle h.suspends ⟨rfl, rfl, rfl, rfl, rfl, rfl⟩
    ⟨rfl, rfl, rfl, rfl, rfl, rfl, rfl⟩
    ⟨by simp [Plan.step, hentries, Yalrt.entries], by simp [Plan.step, hentries, inFlight],
      by simp [Plan.step], fun _ ↦ le_rfl⟩

/-- The slot is read. -/
theorem fetch (h : Follows s p) (hs : Step s .fetch s') : Follows s' (p.step .fetch) := by
  obtain ⟨⟨hl, rfl⟩, hk⟩ := h.kept.fetch hs
  have ht := h.signals.taken
  rw [inFlight, hl] at ht
  exact h.moves hs hk h.posted h.idle h.suspends ⟨rfl, rfl, rfl, rfl, rfl, rfl⟩
    ⟨rfl, rfl, rfl, rfl, rfl, rfl, rfl⟩ ⟨h.signals.entries, ht, by simp [Plan.step], by simp⟩

/-- The end of `exit_region`. -/
theorem close (h : Follows s p) (hs : Step s .close s') : Follows s' (p.step .switch) := by
  obtain ⟨⟨hl, T, t, rfl⟩, hk⟩ := h.kept.close hs
  obtain ⟨hh, -⟩ := hk.region.active (.inl rfl)
  have hh : p.ready.head? = some t := hh
  have hsig := h.quiet (q := p) hs (by simp) id (by simp) rfl rfl rfl rfl rfl rfl
  simp only [Plan.step, hh]
  exact
    { kept := hk
      posted := h.posted
      idle := h.idle
      suspends := (Prod.mk.inj hs.tags).1.trans h.suspends
      rqactv := rfl
      message := h.message
      type := h.type
      length := h.length
      priority := (Prod.mk.inj hs.tags).2.trans h.priority
      owners := h.owners
      signals := ⟨hsig.entries, hsig.taken, hsig.exposed, hsig.slot⟩ }

/-- A timer interrupt. -/
theorem timer (h : Follows s p) (hs : Step s .timer s') : Follows s' (p.step .tick) := by
  obtain ⟨dl, due, is, D', hcd, hs', hk⟩ := h.kept.timer hs
  obtain ⟨dl', hcd', hc⟩ := h.kept.lists.countDown_ticked
  obtain ⟨hdl, rfl⟩ := Prod.mk.inj (Except.ok.inj (hcd.symm.trans hcd'))
  obtain rfl : dl = dl' := congrArg (fun s : Yalrt ↦ s.delay) hdl
  have hT : s'.toTaskLists = { s.toTaskLists with delay := dl } := by
    rw [hs']
    dsimp only
    split <;> rfl
  have hstill : Still s s' := by
    rw [hs']
    dsimp only
    split <;> exact ⟨rfl, rfl, rfl, rfl, rfl, rfl⟩
  by_cases hd : (Classified.ticked p.dl).2
  · simp only [hd, if_true] at hs'
    simp only [Plan.step, hd, if_true]
    refine h.moves hs ⟨hT ▸ hc, hk.serves, hk.region⟩ h.posted h.idle h.suspends hstill
      ⟨rfl, rfl, rfl, rfl, rfl, rfl, rfl⟩ ?_
    subst hs'
    have hsig := h.signals.append dl is rqDelayExchange
    exact ⟨hsig.entries, hsig.taken, hsig.exposed, hsig.slot⟩
  · simp only [hd, Bool.false_eq_true, if_false] at hs'
    simp only [Plan.step, hd, Bool.false_eq_true, if_false]
    refine h.moves hs ⟨hT ▸ hc, hk.serves, hk.region⟩ h.posted h.idle h.suspends hstill
      ⟨rfl, rfl, rfl, rfl, rfl, rfl, rfl⟩ ?_
    subst hs'
    exact ⟨h.signals.entries, h.signals.taken, h.signals.exposed, h.signals.slot⟩

/-- An interrupt that looks at the link of the message. -/
theorem signal {is : List IrqLine} (h : Follows s p) (hs : Step s o s')
    (hs' : s' = { s.signal e with irq := is })
    (hk : Kept s' ⟨p.ready, p.suspendList⟩ p.ready p.tq p.dl) :
    Follows s' (p.step (.interrupt e)) := by
  by_cases hm : s.Marked e
  · have hm' : s.msgLink (.interrupt e) = .msg (.interrupt e) := hm
    rw [Yalrt.signal, if_pos hm'] at hs'
    subst hs'
    simp only [Plan.step, if_pos (h.marked_iff.mp hm)]
    exact
      { kept := hk
        posted := h.posted
        idle := h.idle
        suspends := h.suspends
        rqactv := h.rqactv
        message := h.message
        type := h.type
        length := h.length
        priority := h.priority
        owners := h.owners
        signals := h.signals.append s.delay is e }
  · have hm' : ¬ s.msgLink (.interrupt e) = .msg (.interrupt e) := hm
    rw [Yalrt.signal, if_neg hm'] at hs'
    subst hs'
    simp only [Plan.step, if_neg fun hx ↦ hm (h.marked_iff.mpr hx)]
    exact
      { kept := hk
        posted := h.posted
        idle := h.idle
        suspends := h.suspends
        rqactv := h.rqactv
        message := h.message
        type := by
          dsimp only [setType]
          rw [h.type]
        length := h.length
        priority := h.priority
        owners := h.owners
        signals := ⟨h.signals.entries, h.signals.taken, h.signals.exposed, h.signals.slot⟩ }

/-- The next line of a handler. -/
theorem irq {i : Nat} (h : Follows s p) (hs : Step s (.irq i) s') :
    Follows s' (p.step (s.act (.irq i))) := by
  obtain ⟨⟨e, is, hi, hs'⟩ | ⟨T, cf, l, is, hn, hl, rfl⟩, hk⟩ := h.kept.irq hs
  · simp only [act, hi]
    exact h.signal hs hs' hk
  · have hact : s.act (.irq i) = .silent := by simp only [act]
    rw [hact, show p.step .silent = p from rfl]
    refine h.moves hs hk h.posted h.idle h.suspends ⟨rfl, rfl, rfl, rfl, rfl, rfl⟩
      ⟨rfl, rfl, rfl, rfl, rfl, rfl, rfl⟩ ?_
    rcases hl with rfl | ⟨hl, rfl⟩
    · exact ⟨h.signals.entries, h.signals.taken, h.signals.exposed, h.signals.slot⟩
    · have ht := h.signals.taken
      rw [inFlight, hl] at ht
      refine ⟨h.signals.entries, ht, iff_of_false (fun hx ↦ ?_) (by simp), by simp⟩
      have hx := (h.signals.exposed.mp hx).1
      rw [hl] at hx
      cases hx

/-- A line of the nucleus at which nothing happens to the tasks. -/
theorem silent (h : Follows s p) (hs : Step s o s') (ho : o ≠ .deliver) (hh : ¬ Handles o)
    (hf : o ≠ .fetch) (hk : Kept s' ⟨p.ready, p.suspendList⟩ p.ready p.tq p.dl)
    (hsus : s.marksAfter o = s.isSuspended)
    (hst : Still s s') (hq : s'.queueIndex = s.queueIndex) (hi : s'.isndQueue = s.isndQueue)
    (hl : s'.inFlight = []) : Follows s' p :=
  h.moves hs hk h.posted h.idle (hsus.trans h.suspends) hst ⟨rfl, rfl, rfl, rfl, rfl, rfl, rfl⟩
    (h.quiet hs ho hh hf hq hi hl rfl rfl rfl)

/-- A step of the nucleus is the step of the plan for what it means to the tasks. -/
theorem step (h : Follows s p) (ho : s.Lawful o) (hs : Step s o s') :
    Follows s' (p.step (s.act o)) := by
  cases o with
  | enterRegion =>
    obtain ⟨rfl, hk⟩ := h.kept.enterRegion hs
    exact h.silent hs (by simp) id (by simp) hk rfl ⟨rfl, rfl, rfl, rfl, rfl, rfl⟩ rfl rfl rfl
  | reqsend e m => exact h.reqsend ho hs
  | reqacpt e => exact h.reqacpt hs
  | reqwait e d => exact h.reqwait ho hs
  | reqsusp t => exact h.reqsusp hs
  | reqresm t => exact h.reqresm ho hs
  | expire => exact h.expire hs
  | expired =>
    obtain ⟨rfl, hk⟩ := h.kept.expired hs
    exact h.silent hs (by simp) id (by simp) hk rfl ⟨rfl, rfl, rfl, rfl, rfl, rfl⟩ rfl rfl rfl
  | exitRegion =>
    obtain ⟨rfl, hk⟩ := h.kept.exitRegion hs
    exact h.silent hs (by simp) id (by simp) hk rfl ⟨rfl, rfl, rfl, rfl, rfl, rfl⟩ rfl rfl rfl
  | pop => exact h.pop hs
  | fetch => exact h.fetch hs
  | deliver => exact h.deliver hs
  | drained =>
    obtain ⟨⟨-, rfl⟩, hk⟩ := h.kept.drained hs
    exact h.silent hs (by simp) id (by simp) hk rfl ⟨rfl, rfl, rfl, rfl, rfl, rfl⟩ rfl rfl rfl
  | close => exact h.close hs
  | reqisnd e =>
    obtain ⟨hs', hk⟩ := h.kept.reqisnd hs
    exact h.signal hs hs' hk
  | reqssnd e =>
    obtain ⟨rfl, hk⟩ := h.kept.reqssnd hs
    exact h.moves hs hk h.posted h.idle h.suspends ⟨rfl, rfl, rfl, rfl, rfl, rfl⟩
      ⟨rfl, rfl, rfl, rfl, rfl, rfl, rfl⟩
      ⟨h.signals.entries, h.signals.taken, h.signals.exposed, h.signals.slot⟩
  | timer => exact h.timer hs
  | irq i => exact h.irq hs

end Follows

/-! ### Runs -/

/-- Before the first step, the tasks are runnable and nothing else has happened. -/
def firstPlan (s : Yalrt) (xs : List TaskId) : Plan where
  ready := xs
  suspendList := []
  rqactv := s.rqactv
  suspends _ := false
  tq _ := []
  mq _ := []
  dl := []
  own m := s.msgLink m
  message := s.message
  type := s.type
  length := s.length
  interrupts := []
  taken := none
  exposed := false
  priority := s.priority

/-- The plan after a run. -/
def planned (s : Yalrt) (xs : List TaskId) (tr : List (Yalrt × YalrtOp)) : Plan :=
  (firstPlan s xs).after (tr.map fun x ↦ x.1.act x.2)

/-- One more step. -/
theorem planned_snoc : planned s xs (tr ++ [(s', o)]) = (planned s xs tr).step (s'.act o) := by
  rw [planned, List.map_append, List.map_singleton, Plan.after_concat]
  rfl

/-- The descriptors and the variables stand for these lists. -/
structure Represents (s : Yalrt) (p : Plan) : Prop where
  ready : s.Lists s.ready p.ready
  suspendList : s.Suspends p.suspendList
  waits : ∀ e, s.Waits e (p.tq e)
  mails : ∀ e, s.Mails e (p.mq e)
  delays : DelayList s.next s.prev s.delay p.dl
  suspends : ∀ t, s.isSuspended t = p.suspends t
  rqactv : s.rqactv = p.rqactv
  message : ∀ t, s.message t = p.message t
  own : ∀ m, (∀ e, m ∉ p.mq e) → s.msgLink m = p.own m
  interrupts : s.entries = p.interrupts
  taken : s.inFlight = p.taken.toList

/-- The first state follows the first plan. -/
theorem Started.follows (h : Started s xs) (hx : idleTask ∈ xs) (hm : ∀ e, s.Mails e [])
    (hq : s.queueIndex = 0) : Follows s (firstPlan s xs) where
  kept := h.kept
  posted := ⟨hm, by simp [firstPlan], by simp [firstPlan], by simp [firstPlan]⟩
  idle := hx
  suspends := by
    ext t
    rw [Sched.isSuspended, h.status]
    rfl
  rqactv := rfl
  message := rfl
  type := rfl
  length := rfl
  priority := rfl
  owners := ⟨fun _ ↦ rfl, by simp [firstPlan]⟩
  signals := ⟨by simp [Yalrt.entries, hq, firstPlan], by simp [inFlight, h.line, firstPlan],
    by simp [h.line, firstPlan], by simp [h.line]⟩

/-- The state follows the plan along every lawful run. -/
theorem follows_of_run (h0 : Started s₀ xs) (hx : idleTask ∈ xs) (hm : ∀ e, s₀.Mails e [])
    (hq : s₀.queueIndex = 0) (hr : Trace Step s₀ tr s)
    (ho : Throughout (fun _ s o ↦ s.Lawful o) tr) :
    Always (fun tr s ↦ Follows s (planned s₀ xs tr)) tr s := by
  refine hr.always (C := fun _ s o ↦ s.Lawful o) (h0.follows hx hm hq)
    (fun h ho hs ↦ ?_) ho
  rw [planned_snoc]
  exact h.step ho hs

/-- What follows the plan represents it. -/
theorem Follows.represents (h : Follows s p) : Represents s p where
  ready := h.kept.lists.ready
  suspendList := h.kept.lists.suspend
  waits := h.kept.lists.waits
  mails := h.posted.queues
  delays := h.kept.lists.delays
  suspends _ := congrFun h.suspends _
  rqactv := h.rqactv
  message _ := congrFun h.message _
  own _ hm := h.owners.link hm
  interrupts := h.signals.entries
  taken := h.signals.taken

/-- In every lawful run, with handlers at any point, the descriptors stand for the lists of the
plan: what a step means to the tasks is all that counts. -/
theorem plan_of_run (h0 : Started s₀ xs) (hx : idleTask ∈ xs) (hm : ∀ e, s₀.Mails e [])
    (hq : s₀.queueIndex = 0) (hr : Trace Step s₀ tr s)
    (ho : Throughout (fun _ s o ↦ s.Lawful o) tr) :
    Always (fun tr s ↦ Represents s (planned s₀ xs tr)) tr s :=
  (follows_of_run h0 hx hm hq hr ho).mono fun _ _ h ↦ h.represents

/-! ### A run on fixed inputs -/

/-- The call is lawful, as far as it can be computed. -/
def permits (s : Yalrt) : YalrtOp → Bool
  | .reqsend e (.user _) =>
    match s.taskHead e with
    | .task t => !(s.isSuspended t && s.status t &&& delayed == 0)
    | _ => true
  | .reqwait _ _ => s.rqactv != idleTask
  | o => s.passes o

/-- What is permitted is lawful. -/
theorem lawful_of_permits (h : s.permits o = true) : s.Lawful o := by
  cases o with
  | reqsend e m =>
    cases m with
    | user n =>
      refine ⟨?_, by simp, fun _ _ _ ho ↦ by cases ho; simp⟩
      rintro ⟨t, ht, hs, hd⟩
      simp only [permits, ht, hs, hd] at h
      cases h
    | interrupt x => cases h
    | timeOut => cases h
  | reqwait e d => exact ⟨id, fun _ _ _ ↦ bne_iff_ne.mp h, by simp⟩
  | _ => exact ⟨not_slips_of_passes h, by simp, by simp⟩

/-- The lower one of two tasks has created a message. -/
def oneMessage : Yalrt := { twoTasks with
  word0
    | .msg (.user 0) => .task 5
    | .msg m => .msg m
    | _ => .null }

/-- No task has run. -/
theorem oneMessage_started : Started oneMessage [6, 5, idleTask] where
  ready := lists_of_collect (n := 9) (by decide)
  sorted := by decide
  active := rfl
  headPtr := rfl
  queues _ := ⟨rfl, rfl⟩
  delays := ⟨List.isChain_pair.mpr ⟨rfl, rfl⟩, trivial, rfl, rfl⟩
  status _ := rfl
  line := rfl
  criticalRegionFlag := rfl
  irq := rfl

/-- The message goes to the higher task, which waits for it, and an interrupt comes in. -/
def handing : List YalrtOp := [.enterRegion, .reqwait 7 3, .exitRegion, .drained, .close,
  .timer, .enterRegion, .reqsend 7 (.user 0), .reqisnd 9, .exitRegion, .pop, .fetch, .deliver,
  .drained, .close, .enterRegion]

/-- The run can be taken. -/
theorem exists_handing : ∃ tr s, Trace Step oneMessage tr s ∧ tr.map Prod.snd = handing ∧
    Throughout (fun _ s o ↦ s.Lawful o) tr ∧ s.At .entered ∧ s.rqactv = 6 ∧
      s.accepts (.user 0) ∧ s.permits (.reqsend 8 (.user 0)) ∧
      s.messageHead 9 = .msg (.interrupt 9) ∧ s.msgLink (.interrupt 9) = .null ∧
      s.messageTail 9 = .msg (.interrupt 9) := by
  obtain ⟨tr, s, hr, hos, ho, hp⟩ := Trace.exists_of_checked (s := oneMessage) (f := step 9)
    (r := .blocked) (Q := fun s o ↦ s.Lawful o) (q := fun s o ↦ s.permits o) (l := handing)
    (p := fun s ↦ decide (s.At .entered ∧ s.rqactv = 6 ∧ s.accepts (.user 0) ∧
      s.permits (.reqsend 8 (.user 0)) ∧ s.messageHead 9 = .msg (.interrupt 9) ∧
      s.msgLink (.interrupt 9) = .null ∧ s.messageTail 9 = .msg (.interrupt 9)))
    (fun s o s' h ↦ (⟨9, h⟩ : Step s o s')) (fun _ _ ↦ lawful_of_permits) (by decide)
  exact ⟨tr, s, hr, hos, ho, of_decide_eq_true hp⟩

/-- A message is handed over and an interrupt is delivered as planned. -/
theorem plan_of_run_handing : ∃ tr s, Trace Step oneMessage tr s ∧ tr.map Prod.snd = handing ∧
    Always (fun tr s ↦ Represents s (planned oneMessage [6, 5, idleTask] tr)) tr s := by
  obtain ⟨tr, s, hr, hos, ho, -⟩ := exists_handing
  exact ⟨tr, s, hr, hos, plan_of_run oneMessage_started (by decide)
    (fun e ↦ Fifo.nil rfl rfl (by simp)) rfl hr ho⟩

end Yalrt

end YRmx
