import YRmx.Race.Expiries

/-!
# Calls under contention

Library `YRmx`. Whatever the order in which threads, the delay task and the timer take their lines,
as long as every turn is orderly the queues and the delay list stay whole, every wait is attended to
once and every message that was accepted is handed over once and in order. A delay task that takes
up a task which a sender has just unlinked looks for it in vain.
-/

namespace YRmx.Traffic

open Intrusive Transition

variable {x x' : Traffic} {g : Ledger} {r : Log} {t u : TaskId} {e : ExchId} {i : Turn}

/-! ### Turns outside of the lines -/

/-- A thread that is in no call, with a change of the state. -/
theorem go_out (hp : x.place t = .out) (s' : Nucleus) : x.go t s' .out = { x with s := s' } := by
  unfold go
  rw [← hp, Function.update_eq_self]

/-- A thread that is in no call changes its own task only. -/
theorem Inv.local (h : Inv x g r) (hp : x.place t = .out) {c : Control}
    (hm : c.mutex = x.s.mutex) (hse : c.sema = x.s.sema) (hst : ∀ u ≠ t, c.status u = x.s.status u)
    (hmsg : c.message = x.s.message) (hex : c.exchange = x.s.exchange) :
    Inv { x with s := { x.s with toControl := c } } g r := by
  have ht := h.thread t
  rw [hp] at ht
  have hnone : ∀ e', g.hold e' ≠ some (.thread t) := by
    intro e' he'
    have hold : (x.place t).holds e' := h.held (a := .thread t) he'
    rw [hp] at hold
    exact hold
  rw [← go_out hp]
  exact h.goes (by simp [hp]) 0 (by simp [hp, Place.exch]) (by simp [hp, Place.serves])
    (h.books.congr rfl rfl rfl rfl hse (fun _ _ he ↦ by rwa [hm]) fun _ _ ↦ rfl)
    (h.up (by simp [hp])).1 (.inl ⟨rfl, rfl, rfl, rfl, rfl, fun _ _ ↦ rfl⟩)
    (fun _ _ ↦ ⟨rfl, rfl, rfl, rfl, rfl, fun _ _ ↦ rfl⟩)
    (fun u hu ↦ ⟨rfl, .rfl, rfl, hst u hu, congrFun hmsg u, congrFun hex u, fun _ ↦ rfl⟩)
    (fun hh ↦ absurd hh (hnone 0)) (.inl rfl) ht

/-- A thread enters a call. -/
theorem Inv.enter (h : Inv x g r) (hp : x.place t = .out) (p' : Place) {c : Control}
    (hm : c.mutex = x.s.mutex) (hse : c.sema = x.s.sema) (hst : c.status = x.s.status)
    (hmsg : c.message = x.s.message) (hex : c.exchange = x.s.exchange)
    (hown : g.serve t = .idle → PlaceOk (x.go t { x.s with toControl := c } p') g r t p') :
    Inv (x.go t { x.s with toControl := c } p') g r := by
  have ht := h.thread t
  rw [hp] at ht
  have hnone : ∀ e', g.hold e' ≠ some (.thread t) := by
    intro e' he'
    have hold : (x.place t).holds e' := h.held (a := .thread t) he'
    rw [hp] at hold
    exact hold
  exact h.goes (by simp [hp]) 0 (by simp [hp, Place.exch]) (by simp [hp, Place.serves])
    (h.books.congr rfl rfl rfl rfl hse (fun _ _ he ↦ by rwa [hm]) fun _ _ ↦ rfl)
    (h.up (by simp [hp])).1 (.inl ⟨rfl, rfl, rfl, rfl, rfl, fun _ _ ↦ rfl⟩)
    (fun _ _ ↦ ⟨rfl, rfl, rfl, rfl, rfl, fun _ _ ↦ rfl⟩)
    (fun u _ ↦ ⟨rfl, .rfl, rfl, congrFun hst u, congrFun hmsg u, congrFun hex u, fun _ ↦ rfl⟩)
    (fun hh ↦ absurd hh (hnone 0)) (.inl rfl) (hown ht)

/-- `reqsend` is called. -/
theorem Inv.send (h : Inv x g r) (t : TaskId) (e : ExchId) (m : MsgId) :
    x.Proceeds (.send t e m) fun x' ↦ ∃ g', Inv x' g' (r.after x (.send t e m)) := by
  by_cases hc : x.Calls t
  case neg => exact .inr fun n ↦ by simp [next, require, hc]
  exact .now (x.go t x.s (.send e m .lock)) (fun n ↦ by simp [next, require, hc])
    ⟨g, h.enter hc.1 _ rfl rfl rfl rfl rfl fun h0 ↦ ⟨h0, trivial⟩⟩

/-- `reqisnd` sends the message of the interrupt exchange, or marks it as missed. -/
theorem Inv.isnd (h : Inv x g r) (t : TaskId) (e : ExchId) :
    x.Proceeds (.isnd t e) fun x' ↦ ∃ g', Inv x' g' (r.after x (.isnd t e)) := by
  by_cases hc : x.Calls t
  case neg => exact .inr fun n ↦ by simp [next, require, hc]
  by_cases hl : x.s.msgLink (.interrupt e) = .msg (.interrupt e)
  · exact .now (x.go t (x.s.ctl (·.setType (.interrupt e) intType)) (.send e (.interrupt e) .lock))
      (fun n ↦ by simp [next, require, hc, hl])
      ⟨g, h.enter hc.1 _ rfl rfl rfl rfl rfl fun h0 ↦ ⟨h0, trivial⟩⟩
  · exact .now { x with s := x.s.ctl (·.setType (.interrupt e) missedIntType) }
      (fun n ↦ by simp [next, require, hc, hl]) ⟨g, h.local hc.1 rfl rfl (fun _ _ ↦ rfl) rfl rfl⟩

/-- `reqacpt` is called. -/
theorem Inv.acpt (h : Inv x g r) (t : TaskId) (e : ExchId) :
    x.Proceeds (.acpt t e) fun x' ↦ ∃ g', Inv x' g' (r.after x (.acpt t e)) := by
  by_cases hc : x.Calls t
  case neg => exact .inr fun n ↦ by simp [next, require, hc]
  exact .now (x.go t x.s (.acpt e .lock)) (fun n ↦ by simp [next, require, hc])
    ⟨g, h.enter hc.1 _ rfl rfl rfl rfl rfl fun h0 ↦ ⟨h0, trivial⟩⟩

/-- `reqwait` is called. -/
theorem Inv.wait (h : Inv x g r) (t : TaskId) (e : ExchId) (d : BitVec 16) :
    x.Proceeds (.wait t e d) fun x' ↦ ∃ g', Inv x' g' (r.after x (.wait t e d)) := by
  by_cases hc : x.Calls t
  case neg => exact .inr fun n ↦ by simp [next, require, hc]
  exact .now (x.go t x.s (.wait e d .lock)) (fun n ↦ by simp [next, require, hc])
    ⟨g, h.enter hc.1 _ rfl rfl rfl rfl rfl fun h0 ↦ h0⟩

/-- The timer counts down while nobody works on the delay list. -/
theorem Inv.tick (h : Inv x g r) :
    x.Proceeds .tick fun x' ↦ ∃ g', Inv x' g' (r.after x .tick) := by
  by_cases hc : x.place rqtimerTd = .out ∧ x.s.pc rqtimerTd = .user ∧ x.free = true
  case neg => exact .inr fun n ↦ by simp only [next, require, if_neg hc, Exec.error_bind]
  obtain ⟨s', b, dl, hs', hctl, hsame, hdl, hb⟩ := h.books.countDown
  have hout := hc.1
  refine .now { x with s := s' } (fun n ↦ ?_) ⟨g.setDelays dl, ?_⟩
  · simp only [next, require, if_pos hc, hs', Exec.ok_bind]
  rw [← go_out hout]
  refine h.goes (by simp [hout]) 0 (by simp [hout, Place.exch]) (by simp [hout, Place.serves]) hb
    (h.up (by simp [hout])).1 (.inl ?_) (fun e _ ↦ ?_) (fun u _ ↦ ?_) (fun hh ↦ ?_)
    (.inl hsame.tailTask) ?_
  · exact ⟨rfl, rfl, rfl, rfl, congrFun hsame.taskTail _,
      fun m _ ↦ hsame.word0 _ (by simp) (by simp)⟩
  · exact ⟨rfl, rfl, rfl, rfl, congrFun hsame.taskTail _,
      fun m _ ↦ hsame.word0 _ (by simp) (by simp)⟩
  · refine ⟨rfl, ?_, rfl, by rw [hctl], by rw [hctl], by rw [hctl],
      fun _ ↦ congrFun hsame.word2 _⟩
    show u ∈ dl.map Prod.fst ↔ u ∈ g.dl.map Prod.fst
    rw [hdl]
  · have hold : (x.place rqtimerTd).holds 0 := h.held (a := .thread rqtimerTd) hh
    rw [hout] at hold
    exact hold.elim
  · have ht := h.thread rqtimerTd
    rw [hout] at ht
    exact ht

/-- A message that is created is neither queued nor on its way. -/
theorem Inv.reqcmsg (h : Inv x g r) (hp : x.place t = .out) {n : Nat} {size now : BitVec 32}
    (hq : ¬ x.s.Queued (.user n)) (hc : ∀ u, ¬ (x.place u).carries (.user n)) :
    Inv { x with s := reqcmsg x.s t (.user n) size now } g r := by
  have hmq : ∀ e, .user n ∉ g.mq e := fun e hm ↦ hq ⟨e, g.mq e, h.books.messages e, hm⟩
  have hb : Books { x.s with word0 := Function.update x.s.word0 (.msg (.user n)) (.task t) } g r :=
    h.books.setOwner hmq (by simp) (.task t)
  have hlink : ∀ {e m}, m ∈ g.carried e → m ≠ .user n := by
    rintro e m hm rfl
    obtain ⟨u, hu, -⟩ := h.carried hm
    exact hc u hu
  have ht := h.thread t
  rw [hp] at ht
  rw [← go_out hp]
  refine h.goes (by simp [hp]) 0 (by simp [hp, Place.exch]) (by simp [hp, Place.serves])
    (hb.congr rfl rfl rfl rfl rfl (fun _ _ he ↦ he) fun _ _ ↦ rfl) (h.up (by simp [hp])).1
    (.inl ⟨rfl, rfl, rfl, rfl, rfl, fun m hm ↦ ?_⟩)
    (fun _ _ ↦ ⟨rfl, rfl, rfl, rfl, rfl, fun m hm ↦ ?_⟩)
    (fun _ _ ↦ ⟨rfl, .rfl, rfl, rfl, rfl, rfl, fun _ ↦ rfl⟩) (fun hh ↦ ?_) (.inl rfl) ht
  · simp [YRmx.reqcmsg, hlink hm]
  · simp [YRmx.reqcmsg, hlink hm]
  · have hold : (x.place t).holds 0 := h.held (a := .thread t) hh
    rw [hp] at hold
    exact hold.elim

/-- A step that touches no queue and no waiting task. -/
theorem Inv.other (h : Inv x g r) {o : Op} (ho : x.Orderly (.other o)) :
    x.Proceeds (.other o) fun x' ↦ ∃ g', Inv x' g' (r.after x (.other o)) := by
  by_cases hl : ∃ t ∈ o.local, x.place t = .out
  case neg => exact .inr fun n ↦ by simp only [next, require, if_neg hl, Exec.error_bind]
  have hnext : ∀ n, x.next n (.other o) = (do
      let s ← step n x.s o
      .ok { x with s := s }) := fun n ↦ by simp only [next, require, if_pos hl, Exec.ok_bind]
  have blocked : (∀ n, step n x.s o = .error .blocked) →
      x.Proceeds (.other o) fun x' ↦ ∃ g', Inv x' g' (r.after x (.other o)) := fun hb ↦
    .inr fun n ↦ by rw [hnext, hb]; rfl
  have goes : ∀ s', (∀ n, step n x.s o = .ok s') → Inv { x with s := s' } g r →
      x.Proceeds (.other o) fun x' ↦ ∃ g', Inv x' g' (r.after x (.other o)) := fun s' hs hI ↦
    .now { x with s := s' } (fun n ↦ by rw [hnext, hs]; rfl) ⟨g, hI⟩
  obtain ⟨t, ht, hp⟩ := hl
  cases o with
  | reqcmsg u n size now =>
    obtain rfl := Option.some.inj ht
    by_cases hpc : x.s.pc u = .user
    case neg => exact blocked fun k ↦ by simp [step, require, hpc]
    exact goes _ (fun k ↦ by simp [step, require, hpc]; rfl)
      (h.reqcmsg hp ho.1 (ho.2 u n size now rfl))
  | setType u n type =>
    obtain rfl := Option.some.inj ht
    by_cases hpc : x.s.pc u = .user
    case neg => exact blocked fun k ↦ by simp [step, require, hpc]
    exact goes (x.s.ctl (·.setType (.user n) type)) (fun k ↦ by simp [step, require, hpc])
      (h.local hp rfl rfl (fun _ _ ↦ rfl) rfl rfl)
  | exitRegion u =>
    obtain rfl := Option.some.inj ht
    cases hpc : x.s.pc u with
    | exitRegion c =>
      apply goes (x.s.ctl (·.exitRegion u c)) (fun k ↦ by simp [step, exitAt, hpc])
      have he := Board.exitRegion_eq x.s.toControl u c
      show Inv { x with s := { x.s with toControl := x.s.toControl.exitRegion u c } } g r
      rw [he]
      exact h.local hp rfl rfl (fun _ _ ↦ rfl) rfl rfl
    | _ => exact blocked fun k ↦ by simp [step, exitAt, hpc]
  | thaw u =>
    obtain rfl := Option.some.inj ht
    by_cases hz : x.s.rqfrozen = false
    case neg => exact blocked fun k ↦ by simp [step, require, hz]
    cases hpc : x.s.pc u with
    | freeze c =>
      exact goes (x.s.ctl (·.goto u c.resume)) (fun k ↦ by simp [step, require, thawAt, hz, hpc])
        (h.local hp rfl rfl (fun _ _ ↦ rfl) rfl rfl)
    | thaw c =>
      refine goes (x.s.ctl (·.leaveRegion u)) (fun k ↦ by simp [step, require, thawAt, hz, hpc])
        (h.local hp rfl rfl (fun v hv ↦ ?_) rfl rfl)
      exact Function.update_of_ne hv _ _
    | _ => exact blocked fun k ↦ by simp [step, require, thawAt, hz, hpc]
  | reqfreeze u =>
    obtain rfl := Option.some.inj ht
    by_cases hpc : x.s.pc u = .user
    case neg => exact blocked fun k ↦ by simp [step, require, hpc]
    obtain ⟨p, z, hz, -⟩ := Board.reqfreeze_cases x.s.toControl u .reqfreeze
    apply goes (x.s.ctl (·.reqfreeze u .reqfreeze)) (fun k ↦ by simp [step, require, hpc])
    show Inv { x with s := { x.s with toControl := x.s.toControl.reqfreeze u .reqfreeze } } g r
    rw [hz]
    exact h.local hp rfl rfl (fun _ _ ↦ rfl) rfl rfl
  | reqbake u =>
    obtain rfl := Option.some.inj ht
    by_cases hpc : x.s.pc u = .user
    case neg => exact blocked fun k ↦ by simp [step, require, hpc]
    apply goes (x.s.ctl (·.reqbake)) (fun k ↦ by simp [step, require, hpc])
    show Inv { x with s := { x.s with toControl := x.s.toControl.reqbake } } g r
    rw [Board.reqbake_eq]
    exact h.local hp rfl rfl (fun _ _ ↦ rfl) rfl rfl
  | _ => cases ht

/-- Every orderly turn. -/
theorem Inv.turn (h : Inv x g r) (ho : x.Orderly i) :
    x.Proceeds i fun x' ↦ ∃ g', Inv x' g' (r.after x i) := by
  cases i with
  | send t e m => exact h.send t e m
  | isnd t e => exact h.isnd t e
  | acpt t e => exact h.acpt t e
  | wait t e d => exact h.wait t e d
  | line t => exact h.line ho
  | expiry => exact h.expiry_turn ho
  | tick => exact h.tick
  | other o => exact h.other ho

end YRmx.Traffic
