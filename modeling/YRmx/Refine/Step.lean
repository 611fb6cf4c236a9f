import YRmx.Refine.Calls

/-!
# Every step refines its abstract counterpart

Library `YRmx`. The loops of the delay task and of deletion end and find what they look for,
and from a state that stands for lists which satisfy the invariant every step of the machine
does what the abstract nucleus does.
-/

namespace YRmx

open Intrusive Transition

variable {s : Nucleus} {b : Board} {t u : TaskId} {e : ExchId} {m : MsgId}

/-! ### Time-outs -/

/-- One pass of the expiry loop takes the task out of both lists and posts it. -/
theorem Sim.expireTask (h : Sim s b) (hI : b.Inv) (ht : b.Timed t) :
    ∃ s', Yields (fun n ↦ YRmx.expireTask n s t) s' ∧ Sim s' (b.expire t) := by
  obtain ⟨e, he⟩ := (hI.task t).waits ht
  have hx : s.exchange t = .exch e := by
    rw [h.exchange_eq]
    exact (hI.task t).exchange he
  obtain ⟨p, hp, hS⟩ := h.findLink hI he
  rw [← Board.dropTask_eq hI he] at hS
  have hdl : (b.dropTask t).dl = b.dl := Board.dropTask_dl b t
  obtain ⟨s', hs', hS'⟩ := hS.cancelDelay (t := t) (hdl ▸ hI.dl_nodup) (hdl ▸ hI.dl_bound)
    (by rwa [Board.Timed, hdl])
  refine ⟨s'.ctl fun c ↦ (c.setMessage t (.msg .timeOut)).semPost t, ?_,
    hS'.ctl (fun c ↦ (c.setMessage t (.msg .timeOut)).semPost t) (.of_pc rfl)⟩
  simp only [YRmx.expireTask, hx, asExch, Exec.ok_bind]
  refine hp.bind (Yields.congr (.const _) fun n ↦ ?_)
  show (YRmx.cancelDelay (unlinkTask s e p t) t >>= fun s ↦ _) = _
  rw [hs', Exec.ok_bind]

/-- The tasks that are due come first, and after one of them the others. -/
theorem Board.expired_cons (hI : b.Inv) {ts : List TaskId} (h : b.expired = t :: ts) :
    (∃ r, b.dl = (t, 0) :: r) ∧ (b.expire t).expired = ts := by
  have hd := hI.dl_nodup
  unfold Board.expired at h
  cases hdl : b.dl with
  | nil => simp [hdl] at h
  | cons p r =>
    obtain ⟨u, k⟩ := p
    rw [hdl] at h hd
    by_cases hk : k = 0
    · subst hk
      simp only [decide_true, List.takeWhile_cons_of_pos, List.map_cons, List.cons.injEq] at h
      obtain ⟨rfl, hts⟩ := h
      refine ⟨⟨r, rfl⟩, ?_⟩
      have hr : r.filter (·.1 ≠ u) = r := by
        apply List.filter_eq_self.mpr
        intro p hp
        have hne : p.1 ≠ u := by
          rintro rfl
          exact (List.nodup_cons.mp hd).1 (List.mem_map.mpr ⟨p, hp, rfl⟩)
        simpa using hne
      have he : (b.expire u).dl = r := by
        show (b.dropTask u).dl.filter (·.1 ≠ u) = r
        rw [Board.dropTask_dl, hdl, List.filter_cons_of_neg (by simp), hr]
      rw [Board.expired, he, hts]
    · simp [hk] at h

/-- The expiry loop ends and serves all tasks that are due. -/
theorem Sim.expiryLoop (h : Sim s b) (hI : b.Inv) :
    ∃ s', Yields (fun n ↦ YRmx.expiryLoop n n s) s' ∧ Sim s' b.expireAll := by
  unfold Board.expireAll
  generalize hts : b.expired = ts
  induction ts generalizing b s with
  | nil =>
    refine ⟨s, Yields.succ ⟨0, fun n _ ↦ ?_⟩, h⟩
    have hchain : Threads s.word0
        (.delayHead :: (b.dl.map (fun p ↦ Addr.task p.1) ++ [Addr.delayTail])) :=
      h.delays.linked.imp fun _ _ hab ↦ hab.1
    cases hdl : b.dl with
    | nil =>
      rw [hdl] at hchain
      have hnext : s.word0 .delayHead = .delayTail := threads_pair.mp hchain
      simp [YRmx.expiryLoop, hnext, deref, h.delays.tail]
    | cons p r =>
      obtain ⟨u, k⟩ := p
      rw [hdl] at hchain
      have hnext : s.word0 .delayHead = .task u := (threads_cons_cons.mp hchain).1
      have hk : k ≠ 0 := by
        rintro rfl
        simp [Board.expired, hdl] at hts
      have hds := h.delays.deltas
      rw [hdl] at hds
      have h1 : 0 + (s.delay (.task u)).toNat = k := hds.1
      have hne : s.delay (.task u) ≠ 0 := by
        intro hz
        rw [hz] at h1
        exact hk h1.symm
      simp only [YRmx.expiryLoop, hnext, deref, reduceCtorEq, if_false, Exec.ok_bind, hne]
  | cons t ts ih =>
    obtain ⟨⟨r, hdl⟩, hrest⟩ := Board.expired_cons hI hts
    have ht : b.Timed t := by simp [Board.Timed, hdl]
    obtain ⟨s₁, ⟨N₁, hs₁⟩, hS₁⟩ := h.expireTask hI ht
    obtain ⟨s', ⟨N₂, hs'⟩, hS'⟩ := ih hS₁ (hI.expire ht) hrest
    refine ⟨s', (expiryLoop_mono s).yields (n := max N₁ N₂ + 1) ?_, hS'⟩
    have hchain : Threads s.word0
        (.delayHead :: (b.dl.map (fun p ↦ Addr.task p.1) ++ [Addr.delayTail])) :=
      h.delays.linked.imp fun _ _ hab ↦ hab.1
    rw [hdl] at hchain
    have hnext : s.word0 .delayHead = .task t := (threads_cons_cons.mp hchain).1
    have hds := h.delays.deltas
    rw [hdl] at hds
    have h1 : 0 + (s.delay (.task t)).toNat = 0 := hds.1
    have hz : s.delay (.task t) = 0 := by
      apply BitVec.eq_of_toNat_eq
      simpa using h1
    simp only [YRmx.expiryLoop, hnext, deref, reduceCtorEq, if_false, Exec.ok_bind, hz, if_true,
      asTask]
    exact Exec.bind_eq_ok.mpr ⟨s₁, hs₁ _ (by omega),
      expiryLoop_le (by omega) (by omega) (hs' N₂ le_rfl)⟩

/-! ### Deletion -/

/-- What a deletion leaves does not depend on the status before. -/
theorem Control.reqdtskEnd_setStatus (c : Control) (st : BitVec 8) :
    (c.setStatus u st).reqdtskEnd t u = c.reqdtskEnd t u := by
  simp [Control.reqdtskEnd, Control.setStatus]

/-- `reqdtsk` deletes. -/
theorem Sim.reqdtsk (h : Sim s b) (hI : b.Inv) :
    ∃ s', Yields (fun n ↦ YRmx.reqdtsk n s t u) s' ∧ Sim s' (b.delete t u) := by
  have hst : s.status u = b.status u := congrFun h.status_eq u
  have hw := (hI.task u).waits_iff
  rw [← hst] at hw
  unfold YRmx.reqdtsk YRmx.dequeueDeleted Board.delete
  by_cases hx : b.Waits u
  · obtain ⟨e, he⟩ := hx
    have hexch : s.exchange u = .exch e := by
      rw [h.exchange_eq]
      exact (hI.task u).exchange he
    have hhead : ¬ s.taskHead e = .null := by
      rw [h.taskHead_null]
      rintro hnil
      simp [hnil] at he
    obtain ⟨p, hp, hS⟩ := h.findLink hI he
    rw [← Board.dropTask_eq hI he] at hS
    have hdl : (b.dropTask u).dl = b.dl := Board.dropTask_dl b u
    have hbits := hw.mp ⟨e, he⟩
    have hdq : Yields (fun n ↦ reqdqtsk n s u) (unlinkTask s e p u) := by
      simp only [reqdqtsk, hexch, asExch, Exec.ok_bind, hhead, if_false]
      exact hp.bind (.const _)
    have hstu : (unlinkTask s e p u).status u = s.status u := by
      rw [hS.status_eq, Board.dropTask_toControl, ← h.status_eq]
    have ht := (hI.task u).timed_iff
    rw [← hst, ← hstu] at ht
    simp only [hbits, ← hst, hexch, ne_eq, reduceCtorEq, not_false_eq_true, if_true]
    by_cases htd : b.Timed u
    · obtain ⟨s', hs', hS'⟩ := hS.cancelDelay (t := u) (hdl ▸ hI.dl_nodup) (hdl ▸ hI.dl_bound)
        (by rwa [Board.Timed, hdl])
      refine ⟨s'.ctl (·.reqdtskEnd t u), ?_, ?_⟩
      · refine Yields.bind (hdq.bind (Yields.congr (.const s') fun n ↦ ?_)) (.const _)
        rw [if_pos (ht.mp htd), hs']
      · have hfin := hS'.ctl (·.reqdtskEnd t u) (.reqdtskEnd rfl)
        simpa only [Board.ctl, Control.reqdtskEnd_setStatus] using hfin
    · refine ⟨(unlinkTask s e p u).ctl (·.reqdtskEnd t u), ?_, ?_⟩
      · refine Yields.bind (hdq.bind (Yields.congr (.const (unlinkTask s e p u)) fun n ↦ ?_))
          (.const _)
        rw [if_neg (fun hb ↦ htd (ht.mpr hb))]
      · have hnt : ¬ (b.dropTask u).Timed u := by rwa [Board.Timed, hdl]
        rw [Board.dropDelay_of_not_timed hnt]
        exact hS.ctl (·.reqdtskEnd t u) (.reqdtskEnd rfl)
  · have hbits : ¬ s.status u &&& (waiting ||| delayed) ≠ 0 := fun hb ↦ hx (hw.mpr hb)
    simp only [← hst, hbits, if_false, Exec.ok_bind]
    exact ⟨_, .const _, h.ctl (·.reqdtskEnd t u) (.reqdtskEnd rfl)⟩

/-! ### Waiting threads -/

/-- The `sem_wait` of `reqwait` returns. -/
theorem Sim.reqwaitResume (h : Sim s b) {d : BitVec 16} (hp : b.pc t = .semWait e d) :
    Refines (fun _ ↦ YRmx.reqwaitResume s t e d) (b.resume t e d) := by
  unfold YRmx.reqwaitResume Board.resume
  apply Refines.require (by rw [h.sema_eq, h.mutex_eq])
  intro _
  have hl : ¬ (s.ctl fun c ↦ (c.semTake t).setStatus t 0).link t = .task t := h.link hp
  simp only [hl, if_false]
  exact .ok (h.ctl (fun c ↦ ((c.semTake t).setStatus t 0).waitDone t e d) (.waitDone rfl))

/-- A thread in `reqwait` goes on. -/
theorem Sim.wakeAt (h : Sim s b) :
    Refines (fun _ ↦ YRmx.wakeAt s t (s.pc t)) (b.wakeAt t (b.pc t)) := by
  rw [h.pc_eq]
  cases hp : b.pc t with
  | semWait e d => exact h.reqwaitResume hp
  | _ => exact fun _ ↦ rfl

/-- A thread at the entry of `exit_region` goes on. -/
theorem Sim.exitAt (h : Sim s b) :
    Refines (fun _ ↦ YRmx.exitAt s t (s.pc t)) (b.exitAt t (b.pc t)) := by
  rw [h.pc_eq]
  cases b.pc t with
  | exitRegion c =>
    refine .ok (h.ctl (·.exitRegion t c) ?_)
    rw [Board.exitRegion_eq]
    exact .goto rfl (by simp)
  | _ => exact fun _ ↦ rfl

/-- A thread that waits while the system is frozen goes on. -/
theorem Sim.thawAt (h : Sim s b) :
    Refines (fun _ ↦ YRmx.thawAt s t (s.pc t)) (b.thawAt t (b.pc t)) := by
  rw [h.pc_eq]
  cases b.pc t with
  | freeze c =>
    refine .ok (h.ctl (·.goto t c.resume) (.goto rfl fun e d ↦ ?_))
    unfold Call.resume
    split <;> simp
  | thaw c => exact .ok (h.ctl (·.leaveRegion t) (.goto rfl (by simp)))
  | _ => exact fun _ ↦ rfl

/-- The timer ticks. -/
theorem Sim.rqtimer (h : Sim s b) (hI : b.Inv)
    (hc : b.countDown.2 = true → b.own (.interrupt rqDelayExchange) =
      .msg (.interrupt rqDelayExchange) → b.mutex rqDelayExchange = false →
      ∀ u ∈ (b.tq rqDelayExchange).head?,
        ¬ (b.status u &&& waiting ≠ 0 ∧ b.status u &&& suspended ≠ 0)) :
    Refines (fun _ ↦ YRmx.rqtimer s) b.tick := by
  obtain ⟨s', hs', hS⟩ := h.countDown hI.dl_nodup
  unfold YRmx.rqtimer Board.tick
  simp only [hs', Exec.ok_bind]
  by_cases hsig : b.countDown.2 = true
  · simp only [hsig, if_true]
    apply hS.reqisnd hI.countDown
    rw [Board.countDown_eq]
    exact hc hsig
  · simp only [hsig]
    exact .ok hS

/-! ### Steps -/

/-- Both sides agree about what a step sends. -/
theorem Sim.sendsInt_eq (h : Sim s b) (hI : b.Inv) : s.sendsInt e = b.sendsInt e := by
  unfold Nucleus.sendsInt Board.sendsInt
  simp only [h.selfLinked_iff hI, h.mutex_eq]

/-- Both sides agree about the tick that signals. -/
theorem Sim.signals_eq (h : Sim s b) (hI : b.Inv) : s.signals = b.countDown.2 := by
  obtain ⟨s', hs', -⟩ := h.countDown hI.dl_nodup
  simp only [Nucleus.signals, hs']

/-- Both sides agree about the message that a step sends. -/
theorem Sim.sends_eq (h : Sim s b) (hI : b.Inv) (o : Op) : s.sends o = b.sends o := by
  cases o with
  | reqsend t e m =>
    simp only [Nucleus.sends, Board.sends, h.accepts_iff hI, h.pc_eq, h.mutex_eq]
  | reqisnd t e => simp only [Nucleus.sends, Board.sends, h.sendsInt_eq hI, h.pc_eq]
  | tick =>
    simp only [Nucleus.sends, Board.sends, h.sendsInt_eq hI, h.pc_eq, h.signals_eq hI]
  | _ => rfl

/-- Both sides agree about the task that a step hands a message to. -/
theorem Sim.handsTo_eq (h : Sim s b) (hI : b.Inv) (o : Op) : s.handsTo o = b.handsTo o := by
  unfold Nucleus.handsTo Board.handsTo
  rw [h.sends_eq hI]
  cases b.sends o with
  | none => rfl
  | some x =>
    have hhead : s.taskHead x.1 = ((b.tq x.1).map Addr.task).headD .null := (h.tasks x.1).head_eq
    simp only [hhead]
    cases b.tq x.1 <;> rfl

/-- Both sides agree about calm steps. -/
theorem Sim.calm_iff (h : Sim s b) (hI : b.Inv) (o : Op) : s.Calm o ↔ b.Calm o := by
  unfold Nucleus.Calm Board.Calm
  rw [h.handsTo_eq hI, h.status_eq]

/-- A calm step does to the descriptors what its abstract counterpart does to the lists. -/
theorem Sim.step (h : Sim s b) (hI : b.Inv) {o : Op} (hc : b.Calm o) (hf : b.Fresh o) :
    Refines (fun n ↦ YRmx.step n s o) (b.step o) := by
  cases o with
  | reqcmsg t n size now =>
    apply Refines.require (by rw [h.pc_eq])
    intro _
    exact .ok (h.reqcmsg hf size now)
  | setType t n type =>
    apply Refines.require (by rw [h.pc_eq])
    intro _
    exact .ok (h.ctl (·.setType (.user n) type) (.of_pc rfl))
  | reqsend t e m =>
    apply Refines.require (by rw [h.pc_eq])
    intro hp
    refine h.reqsend hI fun hmx ha u hu ↦ hc u ?_
    simpa [Board.handsTo, Board.sends, hp, hmx, ha] using hu
  | reqisnd t e =>
    apply Refines.require (by rw [h.pc_eq])
    intro hp
    refine h.reqisnd hI fun ho hmx u hu ↦ hc u ?_
    simpa [Board.handsTo, Board.sends, Board.sendsInt, hp, hmx, ho] using hu
  | reqwait t e d =>
    apply Refines.require (by rw [h.pc_eq])
    intro hp
    exact h.reqwait hI (hI.free_of_user hp)
  | wake t => exact h.wakeAt
  | reqacpt t e =>
    apply Refines.require (by rw [h.pc_eq])
    intro hp
    exact h.reqacpt hI (hI.free_of_user hp)
  | exitRegion t => exact h.exitAt
  | heldWake t =>
    show Refines (fun _ ↦ YRmx.heldAt s t (s.pc t)) (b.heldAt t (b.pc t))
    rw [h.pc_eq]
    cases hp : b.pc t with
    | held c => exact absurd hp (hI.task t).not_held
    | _ => exact fun _ ↦ rfl
  | thaw t =>
    have hz : s.rqfrozen = b.rqfrozen := congrArg Control.rqfrozen h.control
    exact Refines.require (by rw [hz]) fun _ ↦ h.thawAt
  | tick =>
    apply Refines.require (by rw [h.pc_eq])
    intro hp
    refine h.rqtimer hI fun hsig ho hmx u hu ↦ hc u ?_
    simpa [Board.handsTo, Board.sends, Board.sendsInt, hp, hsig, hmx, ho] using hu
  | expiry =>
    apply Refines.require (by rw [h.pc_eq])
    intro _
    obtain ⟨s', hs', hS'⟩ := h.expiryLoop hI
    exact ⟨_, hs'.bind (.const _),
      hS'.ctl (·.goto rqdelaytaskTd (.exitRegion .rqdelaytask)) (.goto rfl (by simp))⟩
  | reqsusp t u =>
    apply Refines.require (by rw [h.pc_eq])
    intro _
    exact .ok (h.ctl (·.reqsusp t u) (.reqsusp rfl))
  | suspWake t =>
    apply Refines.require (by rw [h.pc_eq, h.sema_eq])
    intro _
    exact .ok (h.ctl (·.reqsuspResume t) (.goto rfl (by simp)))
  | reqresm t u =>
    apply Refines.require (by rw [h.pc_eq])
    intro _
    exact .ok (h.ctl (·.reqresm u) (.of_pc (Control.reqresm_pc _ u)))
  | reqdtsk t u =>
    apply Refines.require (by rw [h.pc_eq])
    intro _
    exact h.reqdtsk hI
  | cancelled t =>
    have hcan : s.cancel = b.cancel := congrArg Control.cancel h.control
    apply Refines.require (by rw [h.pc_eq, hcan])
    intro _
    exact .ok (h.ctl (·.goto t .dead) (.goto rfl (by simp)))
  | reqfreeze t =>
    apply Refines.require (by rw [h.pc_eq])
    intro _
    exact .ok (h.ctl (·.reqfreeze t .reqfreeze) (.reqfreeze rfl))
  | reqbake t =>
    apply Refines.require (by rw [h.pc_eq])
    intro _
    refine .ok (h.ctl (·.reqbake) (.of_pc ?_))
    unfold Control.reqbake
    split <;> rfl

end YRmx
