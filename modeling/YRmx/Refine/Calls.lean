import YRmx.Core.Observe
import YRmx.Refine.Delays
import YRmx.Refine.Tasks
import YRmx.Spec.Steps

/-!
# The system calls refine the steps on lists

Library `YRmx`. Every call comes to its end with enough fuel and does to the lists what the
abstract nucleus does, provided that `reqsend` cancels no delay which is not pending.
-/

namespace YRmx

open Intrusive Transition

/-- A computation on descriptors does what its abstract counterpart does on lists. -/
def Refines (f : Nat → Exec Nucleus) : Exec Board → Prop
  | .ok b' => ∃ s', Yields f s' ∧ Sim s' b'
  | .error r => ∀ n, f n = .error r

/-- Both sides test the same condition. -/
theorem Refines.require {p q : Prop} [Decidable p] [Decidable q] {f : Nat → Exec Nucleus}
    {y : Exec Board} (hpq : p ↔ q) (h : q → Refines f y) :
    Refines (fun n ↦ YRmx.require p >>= fun _ ↦ f n) (YRmx.require q >>= fun _ ↦ y) := by
  by_cases hq : q
  · have hp := hpq.mpr hq
    simp only [YRmx.require, if_pos hp, if_pos hq, Exec.ok_bind]
    exact h hq
  · have hp : ¬ p := fun hp ↦ hq (hpq.mp hp)
    simp only [YRmx.require, if_neg hp, if_neg hq, Exec.error_bind]
    exact fun _ ↦ rfl

/-- A result without loops. -/
theorem Refines.ok {s' : Nucleus} {b' : Board} (h : Sim s' b') :
    Refines (fun _ ↦ .ok s') (.ok b') := ⟨s', .const s', h⟩

variable {s : Nucleus} {b : Board} {t u : TaskId} {e : ExchId} {m : MsgId}

/-! ### The control part -/

/-- The fields of the control part are the same on both sides. -/
theorem Sim.pc_eq (h : Sim s b) : s.pc = b.pc := congrArg Control.pc h.control

/-- The status bytes are those of the board. -/
theorem Sim.status_eq (h : Sim s b) : s.status = b.status := congrArg Control.status h.control

/-- The locked exchanges are those of the board. -/
theorem Sim.mutex_eq (h : Sim s b) : s.mutex = b.mutex := congrArg Control.mutex h.control

/-- The exchanges waited at are those of the board. -/
theorem Sim.exchange_eq (h : Sim s b) : s.exchange = b.exchange :=
  congrArg Control.exchange h.control

/-- The messages handed over are those of the board. -/
theorem Sim.message_eq (h : Sim s b) : s.message = b.message :=
  congrArg Control.message h.control

/-- The semaphores are those of the board. -/
theorem Sim.sema_eq (h : Sim s b) : s.sema = b.sema := congrArg Control.sema h.control

/-- The types of messages are those of the board. -/
theorem Sim.type_eq (h : Sim s b) : s.type = b.type := congrArg Control.type h.control

/-! ### Messages -/

/-- The link of a queued message is no owner. -/
theorem Sim.msgLink_queued (h : Sim s b) (hI : b.Inv) (hm : b.Queued m) :
    s.msgLink m = .null ∨ ∃ m', s.msgLink m = .msg m' ∧ m' ≠ m ∧ b.Queued m' := by
  obtain ⟨e, hm⟩ := hm
  obtain ⟨l, r, hlr⟩ := List.append_of_mem hm
  have hq := h.messages e
  rw [MessageQueue, hlr, List.map_append, List.map_cons] at hq
  have hlink : s.msgLink m = (r.map Addr.msg).headD .null := hq.link_eq
  cases r with
  | nil => exact .inl hlink
  | cons m' r =>
    refine .inr ⟨m', hlink, ?_, e, by simp [hlr]⟩
    rintro rfl
    have hd := hI.mq_nodup e
    rw [hlr] at hd
    exact (List.nodup_cons.mp (List.nodup_append.mp hd).2.1).1 (by simp)

/-- The ownership test accepts exactly the messages that the caller owns. -/
theorem Sim.accepts_iff (h : Sim s b) (hI : b.Inv) : accepts s t m ↔ b.Accepts t m := by
  by_cases hm : b.Queued m
  · have hb : ¬ b.Accepts t m := fun ha ↦ hI.not_queued_of_accepts ha hm
    have hs : ¬ accepts s t m := by
      unfold accepts
      rcases h.msgLink_queued hI hm with hn | ⟨m', hl, hne, -⟩
      · simp [hn]
      · simp [hl, hne]
    simp only [hs, hb]
  · unfold accepts Board.Accepts
    rw [h.own m hm]

/-- A message that is not queued changes hands. -/
theorem Sim.setOwner (h : Sim s b) (hm : ¬ b.Queued m) (a : Addr) :
    Sim { s with word0 := Function.update s.word0 (.msg m) a }
      { b with own := Function.update b.own m a } where
  control := h.control
  messages e := by
    refine (h.messages e).frame (by simp) (fun m' hm' ↦ ?_) rfl
    have hne : m' ≠ m := fun he ↦ hm ⟨e, he ▸ hm'⟩
    simp [Nucleus.msgLink, hne]
  tasks e := (h.tasks e).frame rfl (fun _ _ ↦ rfl) rfl
  delays := h.delays.frame (by simp) (by simp) rfl (fun _ ↦ rfl)
  own m' hm' := by
    by_cases hx : m' = m
    · subst hx
      simp [Nucleus.msgLink]
    · simpa [Nucleus.msgLink, hx] using h.own m' hm'
  link := h.link

/-- A new message belongs to the caller. -/
theorem Sim.reqcmsg (h : Sim s b) (hm : ¬ b.Queued m) (size now : BitVec 32) :
    Sim (reqcmsg s t m size now) (b.initMessage t m size now) :=
  (h.setOwner hm (.task t)).ctl (·.initMessage m size now) (.of_pc rfl)

/-! ### Sending -/

/-- The test of `reqsend` finds some bit that is left beside `waiting`. -/
theorem sendCancels_iff : sendCancels s u = true ↔ s.status u ≠ 0 := by
  simp only [sendCancels, logicalAnd, Bool.and_eq_true, bne_iff_ne]
  exact and_iff_left (by decide)

/-- The test of `reqsend` is right about a waiting task, unless that task waits without
limit and was suspended. -/
theorem Board.TaskInv.cancels_iff (h : b.TaskInv u) (hw : b.Waits u)
    (hc : ¬ (b.status u &&& waiting ≠ 0 ∧ b.status u &&& suspended ≠ 0)) :
    b.status u &&& ~~~waiting ≠ 0 ↔ b.Timed u := by
  by_cases ht : b.Timed u
  · simp only [ht, iff_true]
    rcases h.status_timed ht with hs | hs <;> rw [hs] <;> decide
  · simp only [ht, iff_false, not_not]
    rcases h.status_untimed hw ht with hs | hs <;> rw [hs] at hc ⊢
    · decide
    · exact absurd (by decide) hc

/-- A task that is not timed is not in the delay list. -/
theorem Board.dropDelay_of_not_timed (h : ¬ b.Timed u) : b.dropDelay u = b := by
  have hf : b.dl.filter (·.1 ≠ u) = b.dl := by
    apply List.filter_eq_self.mpr
    intro p hp
    simpa using fun hx : p.1 = u ↦ h (hx ▸ List.mem_map_of_mem hp)
  rw [Board.dropDelay, hf]

/-- The first waiting task gets the message, and its delay is cancelled if it has one. -/
theorem Sim.handOff (h : Sim s b) (hI : b.Inv) {us : List TaskId} (htq : b.tq e = u :: us)
    (hm : ¬ b.Queued m)
    (hc : ¬ (b.status u &&& waiting ≠ 0 ∧ b.status u &&& suspended ≠ 0)) :
    ∃ s', YRmx.handOff s e u m = .ok s' ∧ Sim s' (b.handOff e u m) := by
  have hw : b.Waits u := ⟨e, by simp [htq]⟩
  have hgive : Sim (giveMessage (YRmx.unlinkFirst s e u) u m)
      { b.ctl fun c ↦ (c.setMessage u (.msg m)).setStatus u (c.status u &&& ~~~waiting) with
        tq := Function.update b.tq e (b.tq e).tail
        own := Function.update b.own m (if b.type m > timeoutType then .task u else .msg m) } := by
    have hfirst := h.unlinkFirst htq
    have hg := (hfirst.setOwner hm (if b.type m > timeoutType then .task u else .msg m)).ctl
      (fun c ↦ (c.setMessage u (.msg m)).setStatus u (c.status u &&& ~~~waiting)) (.of_pc rfl)
    have ht : (YRmx.unlinkFirst s e u).type = b.type := hfirst.type_eq
    simpa only [giveMessage, ht] using hg
  have hst : (giveMessage (YRmx.unlinkFirst s e u) u m).status u = b.status u &&& ~~~waiting := by
    rw [hgive.status_eq]
    simp
  have hcancel : sendCancels (giveMessage (YRmx.unlinkFirst s e u) u m) u = true ↔ b.Timed u := by
    rw [sendCancels_iff, hst]
    exact (hI.task u).cancels_iff hw hc
  have hbits : ∀ st : BitVec 8,
      st &&& ~~~waiting &&& ~~~delayed = st &&& ~~~(waiting ||| delayed) := by decide
  unfold YRmx.handOff
  by_cases ht : b.Timed u
  · obtain ⟨s', hs', hS⟩ := hgive.cancelDelay hI.dl_nodup hI.dl_bound ht
    refine ⟨s'.ctl (·.semPost u), ?_, ?_⟩
    · simp only [if_pos (hcancel.mpr ht), hs', Exec.ok_bind]
    · have hp := hS.ctl (·.semPost u) (.of_pc rfl)
      have heq : (((({ b.ctl fun c ↦ (c.setMessage u (.msg m)).setStatus u
          (c.status u &&& ~~~waiting) with
          tq := Function.update b.tq e (b.tq e).tail
          own := Function.update b.own m
            (if b.type m > timeoutType then .task u else .msg m) } : Board).dropDelay u).ctl
          (·.setStatus u (b.status u &&& ~~~waiting &&& ~~~delayed))).ctl (·.semPost u)) =
          b.handOff e u m := by
        rw [hbits]
        simp [Board.handOff, Board.dropDelay, Control.setStatus]
      rw [← heq]
      simpa using hp
  · refine ⟨(giveMessage (YRmx.unlinkFirst s e u) u m).ctl (·.semPost u), ?_, ?_⟩
    · simp only [if_neg (fun hx ↦ ht (hcancel.mp hx)), Exec.ok_bind]
    · have hp := hgive.ctl (·.semPost u) (.of_pc rfl)
      have hnd : b.status u &&& ~~~waiting = b.status u &&& ~~~(waiting ||| delayed) := by
        rcases (hI.task u).status_untimed hw ht with hs | hs <;> rw [hs] <;> decide
      simpa [Board.handOff, Board.dropDelay_of_not_timed ht, hnd] using hp

/-- `reqsend` sends. -/
theorem Sim.reqsend (h : Sim s b) (hI : b.Inv)
    (hc : b.mutex e = false → b.Accepts t m → ∀ u ∈ (b.tq e).head?,
      ¬ (b.status u &&& waiting ≠ 0 ∧ b.status u &&& suspended ≠ 0)) :
    Refines (fun _ ↦ YRmx.reqsend s t e m) (b.send t e m) := by
  unfold YRmx.reqsend Board.send
  apply Refines.require (by rw [h.mutex_eq])
  intro hmx
  by_cases hacc : b.Accepts t m
  · have hm := hI.not_queued_of_accepts hacc
    simp only [(h.accepts_iff hI).mpr hacc, hacc, not_true_eq_false, if_false]
    cases htq : b.tq e with
    | nil =>
      have hhead := (h.taskHead_null e).mpr htq
      have htail := (h.taskTail_exch e).mpr htq
      obtain ⟨s', hs', hS⟩ := h.appendMessage (e := e) hI hm
      simp only [hhead, htail, if_true, ne_eq, not_true_eq_false, if_false, hs']
      exact .ok hS
    | cons u us =>
      have hhead : s.taskHead e = .task u := by
        have hq := h.tasks e
        rw [TaskQueue, htq] at hq
        exact hq.head_eq
      have hmq : b.mq e = [] := (hI.one_empty e).resolve_right (by simp [htq])
      have hmh := (h.messageHead_null e).mpr hmq
      have hmt := (h.messageTail_exch e).mpr hmq
      obtain ⟨s', hs', hS⟩ := h.handOff hI htq hm (hc hmx hacc u (by simp [htq]))
      simp only [hhead, hmh, hmt, reduceCtorEq, if_false, ne_eq, not_true_eq_false, or_self,
        asTask, Exec.ok_bind, hs']
      exact .ok hS
  · have hs : ¬ accepts s t m := fun ha ↦ hacc ((h.accepts_iff hI).mp ha)
    simp only [hs, hacc, not_false_eq_true, if_true]
    exact .ok (h.ctl (·.sendError t e) (.reqfreeze rfl))

/-- An interrupt message that is linked to itself is nobody's. -/
theorem Sim.selfLinked_iff (h : Sim s b) (hI : b.Inv) :
    s.msgLink m = .msg m ↔ b.own m = .msg m := by
  by_cases hm : b.Queued m
  · have hb : b.own m ≠ .msg m := by
      obtain ⟨e, hm⟩ := hm
      simp [hI.own_queued hm]
    have hs : s.msgLink m ≠ .msg m := by
      rcases h.msgLink_queued hI hm with hn | ⟨m', hl, hne, -⟩
      · simp [hn]
      · simp [hl, hne]
    simp only [hs, hb]
  · rw [h.own m hm]

/-- `reqisnd` sends the interrupt message. -/
theorem Sim.reqisnd (h : Sim s b) (hI : b.Inv)
    (hc : b.own (.interrupt e) = .msg (.interrupt e) → b.mutex e = false →
      ∀ u ∈ (b.tq e).head?, ¬ (b.status u &&& waiting ≠ 0 ∧ b.status u &&& suspended ≠ 0)) :
    Refines (fun _ ↦ YRmx.reqisnd s t e) (b.isnd t e) := by
  unfold YRmx.reqisnd Board.isnd
  have hself := h.selfLinked_iff hI (m := .interrupt e)
  have hset : ∀ ty, (b.ctl (·.setType (.interrupt e) ty)).Inv := fun _ ↦
    hI.ctl_same fun _ ↦ ⟨rfl, rfl, rfl, rfl⟩
  by_cases ho : b.own (.interrupt e) = .msg (.interrupt e)
  · simp only [hself.mpr ho, ho, if_true]
    exact (h.ctl (·.setType (.interrupt e) intType) (.of_pc rfl)).reqsend (hset intType)
      fun hmx _ ↦ hc ho hmx
  · have hs : ¬ s.msgLink (.interrupt e) = .msg (.interrupt e) := fun hx ↦ ho (hself.mp hx)
    simp only [hs, ho, if_false]
    exact .ok (h.ctl (·.setType (.interrupt e) missedIntType) (.of_pc rfl))

/-! ### Waiting -/

/-- `reqacpt` accepts. -/
theorem Sim.reqacpt (h : Sim s b) (hI : b.Inv) (ha : b.Free t) :
    Refines (fun _ ↦ YRmx.reqacpt s t e) (b.accept t e) := by
  unfold YRmx.reqacpt Board.accept
  apply Refines.require (by rw [h.mutex_eq])
  intro _
  have hx : (b.ctl fun c ↦ (c.setExchange t (.exch e)).setMessage t .null).Inv :=
    (hI.setExchange ha (.exch e)).ctl_same (f := (·.setMessage t .null))
      fun _ ↦ ⟨rfl, rfl, rfl, rfl⟩
  have hS := h.ctl (fun c ↦ (c.setExchange t (.exch e)).setMessage t .null) (.of_pc rfl)
  by_cases hmq : b.mq e = []
  · have hmh := (hS.messageHead_null e).mpr hmq
    have hpop : (b.ctl fun c ↦ (c.setExchange t (.exch e)).setMessage t .null).popMessage e t =
        b.ctl fun c ↦ (c.setExchange t (.exch e)).setMessage t .null := by
      simp [Board.popMessage, hmq]
    simp only [hmh, ne_eq, not_true_eq_false, if_false, Exec.ok_bind, hpop]
    exact .ok (hS.ctl (·.goto t (.exitRegion (.reqacpt e))) (.goto rfl (by simp)))
  · have hmh : ¬ (s.ctl fun c ↦ (c.setExchange t (.exch e)).setMessage t .null).messageHead e =
        .null := fun hx ↦ hmq ((hS.messageHead_null e).mp hx)
    obtain ⟨s', hs', hS'⟩ := hS.reqdqmsg hx t hmq
    simp only [hmh, ne_eq, not_false_eq_true, if_true, hs', Exec.ok_bind]
    exact .ok (hS'.ctl (·.goto t (.exitRegion (.reqacpt e))) (.goto rfl (by simp)))

/-- `ycore.c:1156–1191` puts the caller to wait. -/
theorem Sim.block (h : Sim s b) (hI : b.Inv) (ha : b.Free t) (d : BitVec 16) :
    ∃ s', Yields (fun n ↦ (YRmx.appendTask s e t >>= fun s ↦ startDelay n s t d) >>= fun s ↦
      .ok (s.ctl (·.goto t (.semWait e d)))) s' ∧ Sim s' (b.block t e d) := by
  obtain ⟨s₁, hs₁, hS₁⟩ := h.appendTask (e := e) hI ha.1
  simp only [hs₁, Exec.ok_bind]
  have hw : (b.pushTask e t).Waits t := ⟨e, by simp [Board.pushTask]⟩
  by_cases hd : d = 0
  · have hstart : ∀ n, startDelay n s₁ t d = .ok (s₁.ctl (·.setStatus t waiting)) := fun n ↦ by
      simp [startDelay, hd]
    refine ⟨_, (Yields.const (s₁.ctl fun c ↦ (c.setStatus t waiting).goto t (.semWait e d))).congr
      fun n ↦ ?_, ?_⟩
    · rw [hstart]
      rfl
    · have hS₂ := (hS₁.ctl (·.setStatus t waiting) (.of_pc rfl)).ctl
        (·.goto t (.semWait e d)) (.wait hw)
      simpa [Board.block, hd] using hS₂
  · have hS₂ := hS₁.ctl (·.setStatus t delayed) (.of_pc rfl)
    obtain ⟨s₃, hs₃, hS₃⟩ := hS₂.insertDelay hI.dl_nodup ha.2.1 hd
    refine ⟨s₃.ctl (·.goto t (.semWait e d)), ?_, ?_⟩
    · exact Yields.bind (hs₃.congr fun n ↦ if_pos hd) (.const _)
    · have hb : b.block t e d = (((b.pushTask e t).ctl (·.setStatus t delayed)).insertDelay t
          d.toNat).ctl (·.goto t (.semWait e d)) := by
        unfold Board.block
        simp only [if_pos (show d ≠ 0 from hd)]
      exact hb ▸ hS₃.ctl (·.goto t (.semWait e d)) (.wait hw)

/-- `reqwait` fetches a message or waits. -/
theorem Sim.reqwait (h : Sim s b) (hI : b.Inv) (ha : b.Free t) {d : BitVec 16} :
    Refines (fun n ↦ YRmx.reqwait n s t e d) (b.wait t e d) := by
  unfold YRmx.reqwait Board.wait
  apply Refines.require (by rw [h.mutex_eq])
  intro _
  have hx := hI.setExchange ha (.exch e)
  have hS := h.ctl (·.setExchange t (.exch e)) (.of_pc rfl)
  by_cases hmq : b.mq e = []
  · have hmh := (hS.messageHead_null e).mpr hmq
    simp only [hmh, hmq, if_true]
    have hf : (b.ctl (·.setExchange t (.exch e))).Free t := ha
    obtain ⟨s', hs', hS'⟩ := hS.block (e := e) hx hf d
    exact ⟨s', hs'.congr fun n ↦ by rw [bind_assoc], hS'⟩
  · have hmh : ¬ (s.ctl (·.setExchange t (.exch e))).messageHead e = .null :=
      fun hn ↦ hmq ((hS.messageHead_null e).mp hn)
    obtain ⟨s', hs', hS'⟩ := hS.reqdqmsg hx t hmq
    simp only [hmh, hmq, if_false, hs', Exec.ok_bind]
    exact .ok (hS'.ctl (·.waitDone t e d) (.waitDone rfl))

end YRmx
