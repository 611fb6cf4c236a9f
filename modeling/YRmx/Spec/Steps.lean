import YRmx.Spec.Preserve

/-!
# Steps of the abstract nucleus keep the invariant

Library `YRmx`. The calls are put together from the list operations, and every step of the
machine is one of them. Only the creation of a message needs a condition: that the message
is not queued at the time.
-/

namespace YRmx.Board

variable {b b' : Board} {t u : TaskId} {f : Control → Control}

/-- `reqcmsg` is only used on a message that is not queued. -/
def Fresh (b : Board) : Op → Prop
  | .reqcmsg _ n _ _ => ¬ b.Queued (.user n)
  | _ => True

/-! ### Control steps by cases -/

/-- C's precedence makes the inner condition of `exit_region` false. -/
theorem exitRegion_eq (c : Control) (t : TaskId) (k : Call) :
    c.exitRegion t k = c.goto t (.thaw k) := by
  have hn : ¬ needpost = 0 := by decide
  unfold Control.exitRegion
  rw [if_neg hn]
  simp

/-- A task suspends itself. -/
theorem reqsusp_self (c : Control) (t : TaskId) :
    c.reqsusp t t = (c.setStatus t (c.status t ||| suspended ||| needpost)).goto t .suspWait := by
  simp [Control.reqsusp, Control.setStatus]

/-- A task suspends another one. -/
theorem reqsusp_other (c : Control) (h : u ≠ t) :
    c.reqsusp t u = c.setStatus u (c.status u ||| suspended) := by
  simp [Control.reqsusp, h]

private theorem susp_bits : ∀ st : BitVec 8,
    (st ||| suspended) &&& (waiting ||| delayed) = st &&& (waiting ||| delayed) ∧
    (st &&& ~~~suspended) &&& (waiting ||| delayed) = st &&& (waiting ||| delayed) ∧
    (st ||| suspended) &&& needpost = st &&& needpost ∧
    (st &&& ~~~suspended) &&& needpost = st &&& needpost := by decide

/-- A task that is not suspended is not resumed. -/
theorem reqresm_idle {c : Control} (h : c.status u &&& suspended = 0) : c.reqresm u = c := by
  unfold Control.reqresm
  rw [if_neg (not_not_intro h)]

/-- A task that was suspended by another one is resumed. -/
theorem reqresm_other {c : Control} (h : c.status u &&& suspended ≠ 0)
    (hn : c.status u &&& needpost = 0) :
    c.reqresm u = c.setStatus u (c.status u &&& ~~~suspended) := by
  have hs : (c.setStatus u (c.status u &&& ~~~suspended)).status u &&& needpost = 0 := by
    rw [Control.setStatus_status, Function.update_self]
    exact (susp_bits _).2.2.2.trans hn
  unfold Control.reqresm
  simp only [if_pos h, if_neg (not_not_intro hs)]

/-- A task that suspended itself is resumed. -/
theorem reqresm_self {c : Control} (h : c.status u &&& suspended ≠ 0)
    (hn : c.status u &&& needpost ≠ 0) :
    c.reqresm u = (c.setStatus u (c.status u &&& ~~~suspended &&& ~~~needpost)).semPost u := by
  have hs : (c.setStatus u (c.status u &&& ~~~suspended)).status u &&& needpost ≠ 0 := by
    rw [Control.setStatus_status, Function.update_self, (susp_bits _).2.2.2]
    exact hn
  unfold Control.reqresm
  simp only [if_pos h, if_pos hs]
  simp [Control.setStatus]

/-- Control steps with the same outcome. -/
theorem Inv.of_eq {c : Control} (he : f b.toControl = c)
    (hI : ({ b with toControl := c } : Board).Inv) : (b.ctl f).Inv := by
  subst he
  exact hI

/-- After `reqbake` nothing is frozen. -/
theorem reqbake_eq (c : Control) : c.reqbake = { c with rqfrozen := false } := by
  unfold Control.reqbake
  split
  · rfl
  · rename_i hz
    rw [← Bool.eq_false_of_not_eq_true hz]

/-- Where `reqfreeze` leaves the calling thread. -/
theorem reqfreeze_cases (c : Control) (t : TaskId) (k : Call) :
    ∃ p z, c.reqfreeze t k = ({ c with rqfrozen := z } : Control).goto t p ∧
      (p = k.resume ∨ p = .freeze k) := by
  unfold Control.reqfreeze
  by_cases hz : c.rqfrozen = true
  · exact ⟨k.resume, c.rqfrozen, if_pos hz, .inl rfl⟩
  · by_cases ht : t = rootTaskTd
    · exact ⟨k.resume, true, by simp [hz, ht], .inl rfl⟩
    · exact ⟨.freeze k, true, by simp [hz, ht], .inr rfl⟩

/-- Where the last part of `reqwait` leaves the calling thread. -/
theorem waitDone_cases (c : Control) (t : TaskId) (e : ExchId) (d : BitVec 16) :
    (c.message t ≠ .null ∧ c.waitDone t e d = c.goto t (.exitRegion (.reqwait e d))) ∨
    (c.message t = .null ∧ ∃ p z, c.waitDone t e d = ({ c with rqfrozen := z } : Control).goto t p ∧
      (p = .exitRegion (.reqwait e d) ∨ p = .freeze (.reqwait e d))) := by
  by_cases hm : c.message t = .null
  · have he : c.waitDone t e d = c.reqfreeze t (.reqwait e d) := if_pos hm
    exact .inr ⟨hm, he ▸ reqfreeze_cases c t (.reqwait e d)⟩
  · exact .inl ⟨hm, by simp only [Control.waitDone, if_neg hm]⟩

/-! ### Threads outside the queues -/

/-- The task of a thread outside the nucleus is free. -/
theorem Inv.free_of_user (hI : b.Inv) (h : b.pc t = .user) : b.Free t := by
  apply (hI.task t).active
  rw [h]
  exact ⟨by simp, by simp, by simp⟩

/-- `reqfreeze` moves the calling thread on. -/
theorem Inv.reqfreeze (hI : b.Inv) (ha : b.Free t) (k : Call) :
    (b.ctl (·.reqfreeze t k)).Inv := by
  have hgo : ∀ p : Pc, (∀ c, p ≠ .held c) → (b.ctl (·.goto t p)).Inv := fun p hp ↦ hI.goto ha hp
  have hr : ∀ c, k.resume ≠ .held c := by
    intro c
    unfold Call.resume
    split <;> simp
  by_cases hz : b.rqfrozen
  · have he : b.ctl (·.reqfreeze t k) = b.ctl (·.goto t k.resume) := by
      simp [Control.reqfreeze, hz]
    exact he ▸ hgo _ hr
  · have hf : ∀ p : Pc, (∀ c, p ≠ .held c) →
        (b.ctl fun c ↦ { c with rqfrozen := true }.goto t p).Inv := fun p hp ↦
      (hgo p hp).ctl_same (f := fun c ↦ { c with rqfrozen := true }) fun _ ↦ ⟨rfl, rfl, rfl, rfl⟩
    by_cases hr0 : t = rootTaskTd
    · have he : b.ctl (·.reqfreeze t k) =
          b.ctl fun c ↦ { c with rqfrozen := true }.goto t k.resume := by
        simp [Control.reqfreeze, hz, hr0]
      exact he ▸ hf _ hr
    · have he : b.ctl (·.reqfreeze t k) =
          b.ctl fun c ↦ { c with rqfrozen := true }.goto t (.freeze k) := by
        simp [Control.reqfreeze, hz, hr0]
      exact he ▸ hf _ (by simp)

/-- `reqwait` comes to its last part. -/
theorem Inv.waitDone (hI : b.Inv) (ha : b.Free t) (e : ExchId) (d : BitVec 16) :
    (b.ctl (·.waitDone t e d)).Inv := by
  by_cases hm : b.message t = .null
  · have he : b.ctl (·.waitDone t e d) = b.ctl (·.reqfreeze t (.reqwait e d)) := by
      simp [Control.waitDone, hm]
    exact he ▸ hI.reqfreeze ha _
  · have he : b.ctl (·.waitDone t e d) = b.ctl (·.goto t (.exitRegion (.reqwait e d))) := by
      simp [Control.waitDone, hm]
    exact he ▸ hI.goto ha (by simp)

/-- `exit_region` returns. -/
theorem Inv.leaveRegion (hI : b.Inv) (ha : b.Free t) : (b.ctl (·.leaveRegion t)).Inv := by
  refine hI.move ha (fun u hu ↦ ?_) ?_ ?_ rfl ?_
  · constructor <;> simp [Control.leaveRegion, Control.goto, Control.setStatus, hu]
  · simp only [Control.leaveRegion, Control.goto, Control.setStatus, Function.update_self]
    decide
  · simp only [Control.leaveRegion, Control.goto, Control.setStatus, Function.update_self]
    decide
  · simp [Control.leaveRegion, Control.goto]

/-! ### Suspension -/

/-- A task whose suspended bit is changed keeps its place. -/
theorem TaskInv.suspend {st : BitVec 8} (h : b.TaskInv t)
    (hst : st = b.status t ||| suspended ∨ st = b.status t &&& ~~~suspended) :
    (b.ctl (·.setStatus t st)).TaskInv t := by
  have hs : (b.ctl (·.setStatus t st)).status t = st := by simp [Control.setStatus]
  have hi : st &&& (waiting ||| delayed) = b.status t &&& (waiting ||| delayed) ∧
      st &&& needpost = b.status t &&& needpost := by
    obtain ⟨h1, h2, h3, h4⟩ := susp_bits (b.status t)
    rcases hst with rfl | rfl
    · exact ⟨h1, h3⟩
    · exact ⟨h2, h4⟩
  constructor
  case exchange => exact h.exchange
  case waits => exact h.waits
  case status_timed =>
    intro ht
    rw [hs]
    rcases hst with rfl | rfl <;> rcases h.status_timed ht with hb | hb <;> rw [hb] <;> decide
  case status_untimed =>
    intro hw ht
    rw [hs]
    rcases hst with rfl | rfl <;> rcases h.status_untimed hw ht with hb | hb <;> rw [hb] <;> decide
  case status_idle =>
    intro hw
    rw [hs, hi.1]
    exact h.status_idle hw
  case pc_waits => exact h.pc_waits
  case sema_waits => exact h.sema_waits
  case sema_le => exact h.sema_le
  case sema_pc => exact h.sema_pc
  case needpost_pc =>
    rw [hs, hi.2]
    exact h.needpost_pc
  case not_held => exact h.not_held

private theorem same_setStatus {st : BitVec 8} :
    ∀ v ≠ u, Same b.toControl (b.setStatus u st) v := by
  intro v hv
  constructor <;> simp [Control.setStatus, hv]

/-- A task is suspended, by itself or by another one. -/
theorem Inv.reqsusp (hI : b.Inv) (ha : b.Free t) (u : TaskId) :
    (b.ctl (·.reqsusp t u)).Inv := by
  by_cases hu : u = t
  · subst hu
    obtain ⟨hw, hd, hs, -⟩ := ha
    suffices h : (b.ctl fun c ↦ (c.setStatus u (c.status u ||| suspended ||| needpost)).goto u
        .suspWait).Inv from .of_eq (reqsusp_self _ u) h
    refine hI.ctl (fun v hv ↦ ?_) (TaskInv.idle hw hd ?_ ?_ ?_ ?_ ?_)
    · constructor <;> simp [Control.goto, Control.setStatus, hv]
    · have hi : ∀ st : BitVec 8, (st ||| suspended ||| needpost) &&& (waiting ||| delayed) =
          st &&& (waiting ||| delayed) := by decide
      simpa [Control.goto, Control.setStatus, hi] using (hI.task u).status_idle hw
    · exact hs ▸ Nat.zero_le 1
    · exact fun _ ↦ .inr (.inl (by simp [Control.goto]))
    · exact fun _ ↦ ⟨.inl (by simp [Control.goto]), hs⟩
    · simp [Control.goto]
  · refine .of_eq (reqsusp_other _ hu) ?_
    exact hI.ctl same_setStatus ((hI.task u).suspend (.inl rfl))

/-- A task is resumed. -/
theorem Inv.reqresm (hI : b.Inv) (u : TaskId) : (b.ctl (·.reqresm u)).Inv := by
  by_cases hs : b.status u &&& suspended = 0
  · exact .of_eq (reqresm_idle hs) hI
  · by_cases hn : b.status u &&& needpost = 0
    · refine .of_eq (reqresm_other hs hn) ?_
      exact hI.ctl same_setStatus ((hI.task u).suspend (.inr rfl))
    · obtain ⟨hpc, hz⟩ := (hI.task u).needpost_pc hn
      have hw : ¬ b.Waits u := fun hw ↦ hn ((hI.task u).needpost_of_waits hw)
      suffices h : (b.ctl fun c ↦
          (c.setStatus u (c.status u &&& ~~~suspended &&& ~~~needpost)).semPost u).Inv from
        .of_eq (reqresm_self hs hn) h
      refine hI.ctl (fun v hv ↦ ?_) (TaskInv.idle hw (fun h ↦ hw ((hI.task u).waits h)) ?_ ?_ ?_
        ?_ ?_)
      · constructor <;> simp [Control.semPost, Control.setStatus, hv]
      · have hi : ∀ st : BitVec 8, st &&& ~~~suspended &&& ~~~needpost &&& (waiting ||| delayed) =
            st &&& (waiting ||| delayed) := by decide
        simpa [Control.semPost, Control.setStatus, hi] using (hI.task u).status_idle hw
      · simp [Control.semPost, Control.setStatus, hz]
      · exact fun _ ↦ .inr hpc
      · intro h
        have hi : ∀ st : BitVec 8, st &&& ~~~suspended &&& ~~~needpost &&& needpost = 0 := by
          decide
        simp [Control.semPost, Control.setStatus, hi] at h
      · exact fun c ↦ (hI.task u).not_held

/-! ### Wake-ups -/

/-- A `sem_wait` returns, and the status byte is written. -/
theorem Inv.semTake (hI : b.Inv) (hpos : 0 < b.sema t) {k : BitVec 8}
    (hst : k &&& (waiting ||| delayed) = 0) (hnp : k &&& needpost = 0) :
    (b.ctl fun c ↦ (c.semTake t).setStatus t k).Inv ∧
      (b.ctl fun c ↦ (c.semTake t).setStatus t k).Free t := by
  have hw : ¬ b.Waits t := fun hw ↦ by
    have := (hI.task t).sema_waits hw
    omega
  have hd : ¬ b.Timed t := fun h ↦ hw ((hI.task t).waits h)
  have hle := (hI.task t).sema_le
  have hz : b.sema t - 1 = 0 := by omega
  refine ⟨hI.ctl (fun v hv ↦ ?_) (TaskInv.idle hw hd ?_ ?_ ?_ ?_ ?_), hw, hd, ?_, ?_⟩
  · constructor <;> simp [hv]
  · simpa using hst
  · simp [hz]
  · intro h
    simp [hz] at h
  · intro h
    simp [hnp] at h
  · exact fun c ↦ (hI.task t).not_held
  · simp [hz]
  · simp [hnp]

/-! ### Calls -/

/-- A message that its sender owns is not queued. -/
theorem Inv.not_queued_of_accepts (hI : b.Inv) {m : MsgId} (h : b.Accepts t m) :
    ¬ b.Queued m := by
  rintro ⟨e, hm⟩
  have hn := hI.own_queued hm
  rcases h with h | h <;> rw [hn] at h <;> cases h

/-- A message is sent. -/
theorem Inv.send (hI : b.Inv) (ha : b.Free t) {e : ExchId} {m : MsgId}
    (h : b.send t e m = .ok b') : b'.Inv := by
  unfold Board.send at h
  obtain ⟨-, h⟩ := require_bind_eq_ok.mp h
  by_cases hacc : b.Accepts t m
  · rw [if_neg (not_not_intro hacc)] at h
    have hm := hI.not_queued_of_accepts hacc
    cases htq : b.tq e with
    | nil =>
      rw [htq] at h
      cases h
      exact hI.pushMessage hm htq
    | cons u us =>
      rw [htq] at h
      cases h
      exact hI.handOff htq hm
  · rw [if_pos hacc] at h
    cases h
    have hb := hI.ctl_same (f := fun c ↦ { c with mutex := Function.update c.mutex e true })
      fun _ ↦ ⟨rfl, rfl, rfl, rfl⟩
    exact hb.reqfreeze ha (.reqsend e)

/-- An interrupt message is sent. -/
theorem Inv.isnd (hI : b.Inv) (ha : b.Free t) {e : ExchId} (h : b.isnd t e = .ok b') :
    b'.Inv := by
  unfold Board.isnd at h
  have hb : ∀ ty, (b.ctl (·.setType (.interrupt e) ty)).Inv := fun _ ↦
    hI.ctl_same fun _ ↦ ⟨rfl, rfl, rfl, rfl⟩
  split at h
  · exact (hb intType).send ha h
  · cases h
    exact hb missedIntType

/-- The exchange of a free task is set. -/
theorem Inv.setExchange (hI : b.Inv) (ha : b.Free t) (a : Addr) :
    (b.ctl (·.setExchange t a)).Inv := by
  refine hI.ctl (fun u hu ↦ ?_) (TaskInv.idle ha.1 ha.2.1 ((hI.task t).status_idle ha.1)
    (hI.task t).sema_le (hI.task t).sema_pc (hI.task t).needpost_pc fun c ↦ (hI.task t).not_held)
  constructor <;> simp [hu]

/-- A task that is given a message stays free. -/
theorem Free.popMessage (h : b.Free t) (e : ExchId) : (b.popMessage e t).Free t := by
  unfold Board.popMessage
  split <;> exact h

/-- A message is accepted, or there is none. -/
theorem Inv.accept (hI : b.Inv) (ha : b.Free t) {e : ExchId} (h : b.accept t e = .ok b') :
    b'.Inv := by
  unfold Board.accept at h
  obtain ⟨-, h⟩ := require_bind_eq_ok.mp h
  cases h
  have hx : (b.ctl fun c ↦ (c.setExchange t (.exch e)).setMessage t .null).Inv :=
    (hI.setExchange ha (.exch e)).ctl_same (f := (·.setMessage t .null))
      fun _ ↦ ⟨rfl, rfl, rfl, rfl⟩
  have hf : (b.ctl fun c ↦ (c.setExchange t (.exch e)).setMessage t .null).Free t := ha
  exact (hx.popMessage e t).goto (hf.popMessage e) (by simp)

/-- A message is fetched, or the task is put to wait. -/
theorem Inv.wait (hI : b.Inv) (ha : b.Free t) {e : ExchId} {d : BitVec 16}
    (h : b.wait t e d = .ok b') : b'.Inv := by
  unfold Board.wait at h
  obtain ⟨-, h⟩ := require_bind_eq_ok.mp h
  have hx := hI.setExchange ha (.exch e)
  have hf : (b.ctl (·.setExchange t (.exch e))).Free t := ha
  by_cases hmq : b.mq e = []
  · obtain rfl := Except.ok.inj ((if_pos hmq).symm.trans h)
    exact hx.block hf hmq (by simp) d
  · obtain rfl := Except.ok.inj ((if_neg hmq).symm.trans h)
    exact (hx.popMessage e t).waitDone (hf.popMessage e) e d

/-- A waiting task goes on. -/
theorem Inv.resume (hI : b.Inv) {e : ExchId} {d : BitVec 16}
    (h : b.resume t e d = .ok b') : b'.Inv := by
  unfold Board.resume at h
  obtain ⟨⟨hpos, -⟩, h⟩ := require_bind_eq_ok.mp h
  cases h
  obtain ⟨hb, hf⟩ := hI.semTake hpos (k := 0) (by decide) (by decide)
  exact hb.waitDone hf e d

/-! ### Time -/

/-- Counting down keeps the listed tasks. -/
theorem timed_countDown : b.countDown.1.Timed u ↔ b.Timed u := by
  unfold countDown
  split
  · rfl
  · split
    · rfl
    · split
      · rfl
      · rw [Timed, List.map_map]
        rfl

/-- Only the delays are counted down. -/
theorem countDown_eq (b : Board) : b.countDown.1 = { b with dl := b.countDown.1.dl } := by
  unfold countDown
  split
  · rfl
  · split
    · rfl
    · split <;> rfl

/-- Time goes on. -/
theorem Inv.countDown (hI : b.Inv) : b.countDown.1.Inv := by
  have hdl : b.countDown.1.dl = b.dl ∨
      b.countDown.1.dl = b.dl.map fun p ↦ (p.1, p.2 - 1) := by
    unfold Board.countDown
    split
    · exact .inl rfl
    · split
      · exact .inl rfl
      · split
        · exact .inl rfl
        · exact .inr rfl
  have ht := fun u ↦ timed_countDown (b := b) (u := u)
  rw [countDown_eq] at ht ⊢
  constructor
  case mq_nodup => exact hI.mq_nodup
  case mq_disjoint => exact hI.mq_disjoint
  case own_queued => exact hI.own_queued
  case tq_nodup => exact hI.tq_nodup
  case one_empty => exact hI.one_empty
  case dl_nodup =>
    rcases hdl with hdl | hdl <;> rw [hdl]
    · exact hI.dl_nodup
    · rw [List.map_map]
      exact hI.dl_nodup
  case dl_sorted =>
    rcases hdl with hdl | hdl <;> rw [hdl]
    · exact hI.dl_sorted
    · exact hI.dl_sorted.map _ fun p q h ↦ Nat.sub_le_sub_right h 1
  case dl_bound =>
    rcases hdl with hdl | hdl <;> rw [hdl]
    · exact hI.dl_bound
    · intro p hp
      obtain ⟨q, hq, rfl⟩ := List.mem_map.mp hp
      exact (Nat.sub_le q.2 1).trans (hI.dl_bound q hq)
  case task => exact fun u ↦ (hI.task u).congr (fun _ ↦ .rfl) (ht u) rfl rfl rfl rfl

/-- A tick of the timer. -/
theorem Inv.tick (hI : b.Inv) (ha : b.Free rqtimerTd) (h : b.tick = .ok b') : b'.Inv := by
  unfold Board.tick at h
  split at h
  · refine hI.countDown.isnd ?_ h
    have ht := timed_countDown (b := b) (u := rqtimerTd)
    rw [countDown_eq] at ht ⊢
    exact ⟨ha.1, fun hx ↦ ha.2.1 (ht.mp hx), ha.2.2⟩
  · cases h
    exact hI.countDown

/-- A time-out leaves all other tasks timed. -/
theorem timed_expire : (b.expire t).Timed u ↔ u ≠ t ∧ b.Timed u := by
  have hd : (b.expire t).dl = (b.dropDelay t).dl := expire_dl b t
  rw [Timed, hd]
  exact timed_dropDelay

/-- A sequence of time-outs. -/
theorem Inv.foldl_expire {ts : List TaskId} (hI : b.Inv) (hn : ts.Nodup)
    (ht : ∀ t ∈ ts, b.Timed t) : (ts.foldl Board.expire b).Inv := by
  induction ts generalizing b with
  | nil => exact hI
  | cons t ts ih =>
    rw [List.nodup_cons] at hn
    refine ih (hI.expire (ht t List.mem_cons_self)) hn.2 fun u hu ↦ timed_expire.mpr ⟨?_, ?_⟩
    · rintro rfl
      exact hn.1 hu
    · exact ht u (List.mem_cons_of_mem _ hu)

/-- The tasks whose time has run out are listed once. -/
theorem Inv.expired (hI : b.Inv) : b.expired.Nodup ∧ ∀ t ∈ b.expired, b.Timed t := by
  have hs : b.expired.Sublist (b.dl.map Prod.fst) := (List.takeWhile_sublist _).map _
  exact ⟨hI.dl_nodup.sublist hs, fun t ht ↦ hs.subset ht⟩

/-- All time-outs that are due. -/
theorem Inv.expireAll (hI : b.Inv) : b.expireAll.Inv :=
  hI.foldl_expire hI.expired.1 hI.expired.2

/-- Time-outs move no thread. -/
theorem foldl_expire_pc (ts : List TaskId) (b : Board) : (ts.foldl expire b).pc = b.pc := by
  induction ts generalizing b with
  | nil => rfl
  | cons t ts ih =>
    rw [List.foldl_cons, ih (b.expire t), expire_toControl]
    rfl

/-- The time-outs of one tick move no thread. -/
theorem expireAll_pc (b : Board) : b.expireAll.pc = b.pc := foldl_expire_pc _ b

/-! ### Steps -/

/-- A self-suspended task goes on. -/
theorem Inv.suspWake (hI : b.Inv) (hpos : 0 < b.sema t) :
    (b.ctl (·.reqsuspResume t)).Inv := by
  have hw : ¬ b.Waits t := fun hw ↦ by
    have := (hI.task t).sema_waits hw
    omega
  have hbits : ∀ st : BitVec 8,
      (st &&& ~~~(suspended ||| needpost)) &&& (waiting ||| delayed) =
        st &&& (waiting ||| delayed) ∧
      (st &&& ~~~(suspended ||| needpost)) &&& needpost = 0 := by decide
  obtain ⟨hb, hf⟩ := hI.semTake hpos (k := b.status t &&& ~~~(suspended ||| needpost))
    ((hbits _).1.trans ((hI.task t).status_idle hw)) (hbits _).2
  exact hb.goto hf (p := .user) (by simp)

/-- A thread is cancelled. -/
theorem Inv.cancel (hI : b.Inv) (t : TaskId) : (b.ctl (·.goto t .dead)).Inv := by
  have h := hI.task t
  have hp : (b.ctl (·.goto t .dead)).pc t = .dead := by simp
  apply hI.ctl (t := t) (fun u hu ↦ by constructor <;> simp [hu])
  constructor
  case exchange => exact h.exchange
  case waits => exact h.waits
  case status_timed => exact h.status_timed
  case status_untimed => exact h.status_untimed
  case status_idle => exact h.status_idle
  case pc_waits => exact fun _ ↦ .inr hp
  case sema_waits => exact h.sema_waits
  case sema_le => exact h.sema_le
  case sema_pc => exact fun _ ↦ .inr (.inr hp)
  case needpost_pc => exact fun hn ↦ ⟨.inr hp, (h.needpost_pc hn).2⟩
  case not_held => simp

/-- Every step keeps the invariant. -/
theorem Inv.step (hI : b.Inv) {o : Op} (hf : b.Fresh o) (h : b.step o = .ok b') : b'.Inv := by
  cases o with
  | reqcmsg t n size now =>
    obtain ⟨-, h⟩ := require_bind_eq_ok.mp h
    cases h
    exact (hI.setOwner hf (.task t)).ctl_same (f := (·.initMessage (.user n) size now))
      fun _ ↦ ⟨rfl, rfl, rfl, rfl⟩
  | setType t n type =>
    obtain ⟨-, h⟩ := require_bind_eq_ok.mp h
    cases h
    exact hI.ctl_same fun _ ↦ ⟨rfl, rfl, rfl, rfl⟩
  | reqsend t e m =>
    obtain ⟨hp, h⟩ := require_bind_eq_ok.mp h
    exact hI.send (hI.free_of_user hp) h
  | reqisnd t e =>
    obtain ⟨hp, h⟩ := require_bind_eq_ok.mp h
    exact hI.isnd (hI.free_of_user hp) h
  | reqwait t e d =>
    obtain ⟨hp, h⟩ := require_bind_eq_ok.mp h
    exact hI.wait (hI.free_of_user hp) h
  | wake t =>
    simp only [Board.step] at h
    unfold wakeAt at h
    split at h
    · exact hI.resume h
    · cases h
  | reqacpt t e =>
    obtain ⟨hp, h⟩ := require_bind_eq_ok.mp h
    exact hI.accept (hI.free_of_user hp) h
  | exitRegion t =>
    simp only [Board.step] at h
    unfold exitAt at h
    split at h
    case h_1 c hp =>
      cases h
      have ha : b.Free t := (hI.task t).active (by rw [hp]; exact ⟨by simp, by simp, by simp⟩)
      exact .of_eq (exitRegion_eq _ t c) (hI.goto ha (by simp))
    case h_2 => cases h
  | heldWake t =>
    simp only [Board.step] at h
    unfold heldAt at h
    split at h
    case h_1 c hp => exact absurd hp (hI.task t).not_held
    case h_2 => cases h
  | thaw t =>
    obtain ⟨-, h⟩ := require_bind_eq_ok.mp h
    unfold thawAt at h
    split at h
    case h_1 c hp =>
      cases h
      have ha : b.Free t := (hI.task t).active (by rw [hp]; exact ⟨by simp, by simp, by simp⟩)
      apply hI.goto ha
      intro c'
      unfold Call.resume
      split <;> simp
    case h_2 c hp =>
      cases h
      have ha : b.Free t := (hI.task t).active (by rw [hp]; exact ⟨by simp, by simp, by simp⟩)
      exact hI.leaveRegion ha
    case h_3 => cases h
  | tick =>
    obtain ⟨hp, h⟩ := require_bind_eq_ok.mp h
    exact hI.tick (hI.free_of_user hp) h
  | expiry =>
    obtain ⟨hp, h⟩ := require_bind_eq_ok.mp h
    cases h
    have ha : b.expireAll.pc rqdelaytaskTd = .user := (congrFun (expireAll_pc b) _).trans hp
    exact hI.expireAll.goto (hI.expireAll.free_of_user ha) (by simp)
  | reqsusp t u =>
    obtain ⟨hp, h⟩ := require_bind_eq_ok.mp h
    cases h
    exact hI.reqsusp (hI.free_of_user hp) u
  | suspWake t =>
    obtain ⟨⟨-, hpos⟩, h⟩ := require_bind_eq_ok.mp h
    cases h
    exact hI.suspWake hpos
  | reqresm t u =>
    obtain ⟨hp, h⟩ := require_bind_eq_ok.mp h
    cases h
    exact hI.reqresm u
  | reqdtsk t u =>
    obtain ⟨hp, h⟩ := require_bind_eq_ok.mp h
    cases h
    exact hI.delete (hI.free_of_user hp) u
  | cancelled t =>
    obtain ⟨-, h⟩ := require_bind_eq_ok.mp h
    cases h
    exact hI.cancel t
  | reqfreeze t =>
    obtain ⟨hp, h⟩ := require_bind_eq_ok.mp h
    cases h
    exact hI.reqfreeze (hI.free_of_user hp) .reqfreeze
  | reqbake t =>
    obtain ⟨hp, h⟩ := require_bind_eq_ok.mp h
    cases h
    apply hI.ctl_same
    intro u
    unfold Control.reqbake
    split <;> exact ⟨rfl, rfl, rfl, rfl⟩

/-! ### Stops -/

/-- A send is refused only while the exchange is locked. -/
theorem send_error {e : ExchId} {m : MsgId} {r : Stop} (h : b.send t e m = .error r) :
    r = .blocked := by
  apply (require_bind_eq_error h).resolve_right
  intro h
  split at h
  · cases h
  · split at h <;> cases h

/-- The abstract nucleus waits, but never fails. -/
theorem step_error {o : Op} {r : Stop} (h : b.step o = .error r) : r = .blocked := by
  have hisnd : ∀ {b : Board} {t e}, b.isnd t e = .error r → r = .blocked := by
    intro b t e h
    unfold isnd at h
    split at h
    · exact send_error h
    · cases h
  cases o with
  | reqsend t e m => exact (require_bind_eq_error h).elim id send_error
  | reqisnd t e => exact (require_bind_eq_error h).elim id hisnd
  | reqwait t e d =>
    refine (require_bind_eq_error h).elim id fun h ↦ (require_bind_eq_error h).elim id fun h ↦ ?_
    simp only at h
    split at h <;> cases h
  | wake t =>
    simp only [step, wakeAt] at h
    split at h
    · exact (require_bind_eq_error h).elim id nofun
    · exact (Except.error.inj h).symm
  | reqacpt t e =>
    exact (require_bind_eq_error h).elim id fun h ↦ (require_bind_eq_error h).elim id nofun
  | exitRegion t =>
    simp only [step, exitAt] at h
    split at h
    · cases h
    · exact (Except.error.inj h).symm
  | heldWake t =>
    simp only [step, heldAt] at h
    split at h
    · exact (require_bind_eq_error h).elim id nofun
    · exact (Except.error.inj h).symm
  | thaw t =>
    apply (require_bind_eq_error h).elim id
    intro h
    unfold thawAt at h
    split at h
    · cases h
    · cases h
    · exact (Except.error.inj h).symm
  | tick =>
    apply (require_bind_eq_error h).elim id
    intro h
    unfold tick at h
    split at h
    · exact hisnd h
    · cases h
  | _ => exact (require_bind_eq_error h).elim id nofun

end YRmx.Board
