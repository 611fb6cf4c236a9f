import YRmx.Spec.Invariant

/-!
# The invariant is kept

Library `YRmx`. Every step of the abstract nucleus keeps its invariant. A step of the
control part concerns the fields of one task; the others are framed away.
-/

namespace YRmx.Board

variable {b : Board} {t u : TaskId} {f : Control → Control}

/-! ### Control steps -/

/-- The fields of a task that the invariant looks at are the same. -/
structure Same (c c' : Control) (u : TaskId) : Prop where
  exchange : c'.exchange u = c.exchange u
  status : c'.status u = c.status u
  pc : c'.pc u = c.pc u
  sema : c'.sema u = c.sema u

/-- A control step that concerns one task has to keep the invariant of that task only. -/
theorem Inv.ctl (hI : b.Inv) (ho : ∀ u ≠ t, Same b.toControl (f b.toControl) u)
    (ht : (b.ctl f).TaskInv t) : (b.ctl f).Inv where
  mq_nodup := hI.mq_nodup
  mq_disjoint := hI.mq_disjoint
  own_queued := hI.own_queued
  tq_nodup := hI.tq_nodup
  one_empty := hI.one_empty
  dl_nodup := hI.dl_nodup
  dl_sorted := hI.dl_sorted
  dl_bound := hI.dl_bound
  task u := by
    by_cases hu : u = t
    · exact hu ▸ ht
    · obtain ⟨he, hs, hp, hm⟩ := ho u hu
      exact (hI.task u).congr (fun _ ↦ .rfl) .rfl he hs hp hm

/-- A free task moves on to a point at which nothing was posted for it. -/
theorem Inv.move (hI : b.Inv) (ha : b.Free t)
    (ho : ∀ u ≠ t, Same b.toControl (f b.toControl) u)
    (hst : (f b.toControl).status t &&& (waiting ||| delayed) = 0)
    (hnp : (f b.toControl).status t &&& needpost = 0)
    (hs : (f b.toControl).sema t = b.sema t) (hh : ∀ c, (f b.toControl).pc t ≠ .held c) :
    (b.ctl f).Inv := by
  obtain ⟨hw, hd, h0, -⟩ := ha
  refine hI.ctl ho (TaskInv.idle hw hd hst ?_ ?_ ?_ hh)
  · show (f b.toControl).sema t ≤ 1
    rw [hs, h0]
    exact Nat.zero_le 1
  · intro hx
    exact absurd (hs.trans h0) hx
  · intro hx
    exact absurd hnp hx

/-- The thread of a free task changes its position only. -/
theorem Inv.goto (hI : b.Inv) (ha : b.Free t) {p : Pc} (hh : ∀ c, p ≠ .held c) :
    (b.ctl (·.goto t p)).Inv := by
  refine hI.move ha (fun u hu ↦ ⟨rfl, rfl, ?_, rfl⟩) ((hI.task t).status_idle ha.1) ha.2.2.2
    rfl fun c ↦ ?_
  · exact Function.update_of_ne hu _ _
  · simpa [Control.goto] using hh c

/-- Fields that the invariant does not look at. -/
theorem Inv.ctl_same (hI : b.Inv) (ho : ∀ u, Same b.toControl (f b.toControl) u) :
    (b.ctl f).Inv := by
  apply hI.ctl (t := 0) (fun u _ ↦ ho u)
  obtain ⟨he, hs, hp, hm⟩ := ho 0
  exact (hI.task 0).congr (fun _ ↦ .rfl) .rfl he hs hp hm

/-! ### Messages -/

/-- A message that is not queued changes hands. -/
theorem Inv.setOwner (hI : b.Inv) {m : MsgId} (hm : ¬ b.Queued m) (a : Addr) :
    ({ b with own := Function.update b.own m a } : Board).Inv where
  mq_nodup := hI.mq_nodup
  mq_disjoint := hI.mq_disjoint
  own_queued {e m'} h := by
    have hne : m' ≠ m := fun he ↦ hm ⟨e, he ▸ h⟩
    simpa [hne] using hI.own_queued h
  tq_nodup := hI.tq_nodup
  one_empty := hI.one_empty
  dl_nodup := hI.dl_nodup
  dl_sorted := hI.dl_sorted
  dl_bound := hI.dl_bound
  task u := (hI.task u).congr (fun _ ↦ .rfl) .rfl rfl rfl rfl rfl

/-- A message is appended to an exchange at which no task waits. -/
theorem Inv.pushMessage (hI : b.Inv) {e : ExchId} {m : MsgId} (hm : ¬ b.Queued m)
    (he : b.tq e = []) : (b.pushMessage e m).Inv where
  mq_nodup e' := by
    by_cases hx : e' = e
    · subst hx
      simp only [Board.pushMessage, Function.update_self]
      exact (hI.mq_nodup e').append (List.nodup_singleton m)
        (List.disjoint_singleton.mpr fun h ↦ hm ⟨e', h⟩)
    · simpa [Board.pushMessage, hx] using hI.mq_nodup e'
  mq_disjoint {e₁ e₂ m'} h₁ h₂ := by
    by_cases hx : m' = m
    · subst hx
      have heq : ∀ e', m' ∈ (b.pushMessage e m').mq e' → e' = e := by
        intro e' h
        by_contra hne
        exact hm ⟨e', by simpa [Board.pushMessage, hne] using h⟩
      rw [heq e₁ h₁, heq e₂ h₂]
    · have hmem : ∀ e', m' ∈ (b.pushMessage e m).mq e' → m' ∈ b.mq e' := by
        intro e' h
        by_cases hne : e' = e
        · subst hne
          simpa [Board.pushMessage, hx] using h
        · simpa [Board.pushMessage, hne] using h
      exact hI.mq_disjoint (hmem e₁ h₁) (hmem e₂ h₂)
  own_queued {e' m'} h := by
    by_cases hx : m' = m
    · subst hx
      simp [Board.pushMessage]
    · have hq := (queued_pushMessage.mp ⟨e', h⟩).resolve_left hx
      obtain ⟨e'', hq⟩ := hq
      simpa [Board.pushMessage, hx] using hI.own_queued hq
  tq_nodup := hI.tq_nodup
  one_empty e' := by
    by_cases hx : e' = e
    · exact .inr (hx ▸ he)
    · simpa [Board.pushMessage, hx] using hI.one_empty e'
  dl_nodup := hI.dl_nodup
  dl_sorted := hI.dl_sorted
  dl_bound := hI.dl_bound
  task u := (hI.task u).congr (fun _ ↦ .rfl) .rfl rfl rfl rfl rfl

/-- The first message of an exchange is given away. -/
theorem Inv.popMessage (hI : b.Inv) (e : ExchId) (t : TaskId) : (b.popMessage e t).Inv := by
  cases h : b.mq e with
  | nil => simpa only [Board.popMessage, h] using hI
  | cons m ms =>
    have hq : ∀ m', (b.popMessage e t).Queued m' ↔ m' ≠ m ∧ b.Queued m' :=
      fun _ ↦ queued_popMessage hI h
    have hmem : ∀ {e' m'}, m' ∈ (b.popMessage e t).mq e' → m' ≠ m ∧ m' ∈ b.mq e' := by
      intro e' m' hm
      refine ⟨((hq m').mp ⟨e', hm⟩).1, ?_⟩
      rw [popMessage_cons h] at hm
      by_cases hx : e' = e
      · subst hx
        exact h ▸ List.mem_cons_of_mem _ (by simpa using hm)
      · simpa [hx] using hm
    constructor
    case mq_nodup =>
      intro e'
      rw [popMessage_cons h]
      by_cases hx : e' = e
      · subst hx
        have hd := hI.mq_nodup e'
        rw [h] at hd
        simpa using (List.nodup_cons.mp hd).2
      · simpa [hx] using hI.mq_nodup e'
    case mq_disjoint => exact fun h₁ h₂ ↦ hI.mq_disjoint (hmem h₁).2 (hmem h₂).2
    case own_queued =>
      intro e' m' hm
      obtain ⟨hne, hm⟩ := hmem hm
      rw [popMessage_cons h]
      simpa [hne] using hI.own_queued hm
    case tq_nodup =>
      rw [popMessage_cons h]
      exact hI.tq_nodup
    case one_empty =>
      intro e'
      rw [popMessage_cons h]
      by_cases hx : e' = e
      · subst hx
        exact .inr ((hI.one_empty e').resolve_left (by simp [h]))
      · simpa [hx] using hI.one_empty e'
    case dl_nodup => rw [popMessage_cons h]; exact hI.dl_nodup
    case dl_sorted => rw [popMessage_cons h]; exact hI.dl_sorted
    case dl_bound => rw [popMessage_cons h]; exact hI.dl_bound
    case task =>
      intro u
      rw [popMessage_cons h]
      exact (hI.task u).congr (fun _ ↦ .rfl) .rfl rfl rfl rfl rfl

/-! ### Waiting tasks -/

/-- A task that waits has its exchange in its descriptor. -/
theorem dropTask_eq (hI : b.Inv) {e : ExchId} (ht : t ∈ b.tq e) :
    b.dropTask t = { b with tq := Function.update b.tq e ((b.tq e).erase t) } := by
  rw [dropTask, (hI.task t).exchange ht]

/-- Exactly the dropped task is missing from the queues. -/
theorem mem_dropTask (hI : b.Inv) (ht : b.Waits t) {e : ExchId} :
    u ∈ (b.dropTask t).tq e ↔ u ≠ t ∧ u ∈ b.tq e := by
  obtain ⟨e₀, ht⟩ := ht
  rw [dropTask_eq hI ht]
  by_cases he : e = e₀
  · subst he
    simpa using (hI.tq_nodup e).mem_erase_iff
  · simp only [Function.update_of_ne he, iff_and_self]
    rintro hu rfl
    exact he ((hI.task u).tq_disjoint hu ht)

/-- Exactly the dropped task is missing from the delays. -/
theorem timed_dropDelay : (b.dropDelay t).Timed u ↔ u ≠ t ∧ b.Timed u := by
  simp only [Timed, dropDelay, List.mem_map, List.mem_filter, decide_eq_true_eq]
  constructor
  · rintro ⟨p, ⟨hp, hne⟩, rfl⟩
    exact ⟨hne, p, hp, rfl⟩
  · rintro ⟨hne, p, hp, rfl⟩
    exact ⟨p, ⟨hp, hne⟩, rfl⟩

/-- A task leaves its exchange and the delay list. -/
theorem Inv.leave (hI : b.Inv) (ht : b.Waits t)
    (ho : ∀ u ≠ t, Same b.toControl (f b.toControl) u)
    (hst : (f b.toControl).status t &&& (waiting ||| delayed) = 0)
    (hnp : (f b.toControl).status t &&& needpost = 0)
    (hle : (f b.toControl).sema t ≤ 1) (hp : (f b.toControl).pc t = b.pc t) :
    (((b.dropTask t).dropDelay t).ctl f).Inv := by
  have htq : ∀ e, ((b.dropTask t).tq e).Sublist (b.tq e) := by
    intro e
    obtain ⟨e₀, ht⟩ := ht
    rw [dropTask_eq hI ht]
    by_cases he : e = e₀
    · subst he
      simpa using List.erase_sublist
    · simp [he]
  have hpc := (hI.task t).pc_of_waits ht
  constructor
  case mq_nodup =>
    simp only [dropDelay, dropTask_mq]
    exact hI.mq_nodup
  case mq_disjoint =>
    simp only [dropDelay, dropTask_mq]
    exact hI.mq_disjoint
  case own_queued =>
    simp only [dropDelay, dropTask_mq, dropTask_own]
    exact hI.own_queued
  case tq_nodup => exact fun e ↦ (hI.tq_nodup e).sublist (htq e)
  case one_empty =>
    intro e
    simp only [dropDelay, dropTask_mq]
    apply (hI.one_empty e).imp_right
    intro h
    have hs := htq e
    rw [h] at hs
    exact List.sublist_nil.mp hs
  case dl_nodup =>
    simp only [dropDelay, dropTask_dl]
    exact hI.dl_nodup.sublist (List.filter_sublist.map _)
  case dl_sorted =>
    simp only [dropDelay, dropTask_dl]
    exact hI.dl_sorted.sublist List.filter_sublist
  case dl_bound =>
    simp only [dropDelay, dropTask_dl]
    exact fun p hm ↦ hI.dl_bound p (List.mem_filter.mp hm).1
  case task =>
    intro u
    by_cases hu : u = t
    · subst hu
      refine TaskInv.idle ?_ ?_ ?_ ?_ ?_ ?_ ?_
      · rintro ⟨e, he⟩
        exact ((mem_dropTask hI ht).mp he).1 rfl
      · exact fun h ↦ (timed_dropDelay.mp h).1 rfl
      · simpa [dropDelay] using hst
      · simpa [dropDelay] using hle
      · intro _
        simp only [dropDelay, dropTask_toControl, hp]
        exact hpc.imp_right .inr
      · intro h
        simp only [dropDelay, dropTask_toControl] at h
        exact absurd hnp h
      · intro c
        simp only [dropDelay, dropTask_toControl, hp]
        exact (hI.task u).not_held
    · obtain ⟨he, hs, hpc, hm⟩ := ho u hu
      refine (hI.task u).congr (fun e ↦ ?_) ?_ ?_ ?_ ?_ ?_
      · exact (mem_dropTask hI ht).trans (and_iff_right hu)
      · refine timed_dropDelay.trans ((and_iff_right hu).trans ?_)
        rw [Timed, Timed, dropTask_dl]
      all_goals simpa only [dropDelay, dropTask_toControl]

/-! ### Status bytes -/

private theorem and_not_and_self : ∀ st m : BitVec 8, st &&& ~~~m &&& m = 0 := by
  intro st m
  rw [BitVec.and_assoc, BitVec.and_comm (~~~m), BitVec.and_not_self]
  simp

/-- The status byte of a waiting task. -/
theorem TaskInv.status_of_waits (h : b.TaskInv t) (hw : b.Waits t) :
    b.status t = delayed ∨ b.status t = delayed ||| suspended ∨
      b.status t = waiting ∨ b.status t = waiting ||| suspended := by
  by_cases ht : b.Timed t
  · rcases h.status_timed ht with hs | hs <;> simp [hs]
  · rcases h.status_untimed hw ht with hs | hs <;> simp [hs]

/-- The bits of a waiting task tell where it waits. -/
theorem TaskInv.waits_iff (h : b.TaskInv t) :
    b.Waits t ↔ b.status t &&& (waiting ||| delayed) ≠ 0 := by
  constructor
  · intro hw
    rcases h.status_of_waits hw with hs | hs | hs | hs <;> rw [hs] <;> decide
  · intro hs
    by_contra hw
    exact hs (h.status_idle hw)

/-- The bits of a timed task. -/
theorem TaskInv.timed_iff (h : b.TaskInv t) : b.Timed t ↔ b.status t &&& delayed ≠ 0 := by
  constructor
  · intro ht
    rcases h.status_timed ht with hs | hs <;> rw [hs] <;> decide
  · intro hs
    by_contra ht
    by_cases hw : b.Waits t
    · rcases h.status_untimed hw ht with hst | hst <;> rw [hst] at hs <;> exact hs (by decide)
    · have hz := h.status_idle hw
      apply hs
      have hd : b.status t &&& delayed = b.status t &&& (waiting ||| delayed) &&& delayed := by
        rw [BitVec.and_assoc]
        rfl
      rw [hd, hz]
      decide

/-- A waiting task has not suspended itself. -/
theorem TaskInv.needpost_of_waits (h : b.TaskInv t) (hw : b.Waits t) :
    b.status t &&& needpost = 0 := by
  rcases h.status_of_waits hw with hs | hs | hs | hs <;> rw [hs] <;> decide

/-! ### Hand-off, time-out and deletion -/

/-- A task that leaves is handed a message. -/
theorem handOff_eq (hI : b.Inv) {e : ExchId} {us : List TaskId} (h : b.tq e = u :: us)
    (m : MsgId) :
    b.handOff e u m = { ((b.dropTask u).dropDelay u).ctl fun c ↦
      ((c.setMessage u (.msg m)).setStatus u
        (c.status u &&& ~~~(waiting ||| delayed))).semPost u with
      own := Function.update (b.dropTask u).own m
        (if b.type m > timeoutType then .task u else .msg m) } := by
  have hu : u ∈ b.tq e := by simp [h]
  rw [dropTask_eq hI hu, h, List.erase_cons_head]
  simp [handOff, dropDelay, h]

/-- A message is handed to a waiting task. -/
theorem Inv.handOff (hI : b.Inv) {e : ExchId} {us : List TaskId} {m : MsgId}
    (h : b.tq e = u :: us) (hm : ¬ b.Queued m) : (b.handOff e u m).Inv := by
  have hw : b.Waits u := ⟨e, by simp [h]⟩
  have hs := (hI.task u).sema_waits hw
  have hnp := (hI.task u).needpost_of_waits hw
  rw [handOff_eq hI h]
  apply Inv.setOwner
  · refine hI.leave hw (fun v hv ↦ ?_) ?_ ?_ ?_ rfl
    · constructor <;> simp [Control.semPost, Control.setStatus, Control.setMessage, hv]
    · simpa [Control.semPost, Control.setStatus, Control.setMessage] using and_not_and_self _ _
    · simp only [Control.semPost, Control.setStatus, Control.setMessage, Function.update_self]
      rw [BitVec.and_assoc, BitVec.and_comm _ needpost, ← BitVec.and_assoc, hnp]
      simp
    · simp [Control.semPost, Control.setStatus, Control.setMessage, hs]
  · rintro ⟨e', hm'⟩
    exact hm ⟨e', by simpa [dropDelay] using hm'⟩

/-- A time-out takes the task out of the lists. -/
theorem Inv.expire (hI : b.Inv) (ht : b.Timed t) : (b.expire t).Inv := by
  have hw := (hI.task t).waits ht
  have hs := (hI.task t).sema_waits hw
  have hst : b.status t &&& ~~~delayed = 0 ∨ b.status t &&& ~~~delayed = suspended := by
    rcases (hI.task t).status_timed ht with hst | hst <;> rw [hst] <;> decide
  unfold Board.expire
  refine hI.leave hw (fun v hv ↦ ?_) ?_ ?_ ?_ ?_
  · constructor <;> simp [Control.semPost, Control.setStatus, Control.setMessage, hv]
  · simp only [Control.semPost, Control.setStatus, Control.setMessage, Function.update_self]
    rcases hst with hst | hst <;> rw [hst] <;> decide
  · simp only [Control.semPost, Control.setStatus, Control.setMessage, Function.update_self]
    rcases hst with hst | hst <;> rw [hst] <;> decide
  · simp [Control.semPost, Control.setStatus, Control.setMessage, hs]
  · rfl

/-- A deletion takes a waiting task out of the lists, and nothing else. -/
theorem Inv.delete (hI : b.Inv) (ha : b.Free t) (u : TaskId) : (b.delete t u).Inv := by
  have hend : ∀ v ≠ u, Same b.toControl (b.reqdtskEnd t u) v := by
    intro v hv
    unfold Control.reqdtskEnd
    simp only
    split <;> constructor <;> simp [Control.setStatus, Control.goto, hv]
  have hst : (b.reqdtskEnd t u).status u = deleted := by
    unfold Control.reqdtskEnd
    simp only
    split <;> simp [Control.setStatus, Control.goto]
  have hsema : (b.reqdtskEnd t u).sema = b.sema := by
    unfold Control.reqdtskEnd
    simp only
    split <;> rfl
  unfold Board.delete
  simp only
  split
  case isTrue hw =>
    rw [← (hI.task u).waits_iff] at hw
    apply hI.leave hw hend
    · rw [hst]
      decide
    · rw [hst]
      decide
    · rw [hsema]
      exact (hI.task u).sema_le
    · have hut : u ≠ t := by
        rintro rfl
        exact ha.1 hw
      simp [Control.reqdtskEnd, Control.setStatus, hut]
  case isFalse hw =>
    rw [← (hI.task u).waits_iff] at hw
    refine hI.ctl hend (TaskInv.idle hw (fun h ↦ hw ((hI.task u).waits h)) ?_ ?_ ?_ ?_ ?_)
    · rw [hst]
      decide
    · rw [hsema]
      exact (hI.task u).sema_le
    · rw [hsema]
      intro hs
      unfold Control.reqdtskEnd
      simp only
      split
      · simp [Control.goto]
      · exact (hI.task u).sema_pc hs
    · rw [hst]
      intro h
      exact absurd (by decide) h
    · intro c
      unfold Control.reqdtskEnd
      simp only
      split
      · simp [Control.goto]
      · exact (hI.task u).not_held

/-! ### Waiting -/

/-- The parts of a task's being put to wait. -/
theorem block_toControl (b : Board) (t : TaskId) (e : ExchId) (d : BitVec 16) :
    (b.block t e d).toControl =
      (b.setStatus t (if d ≠ 0 then delayed else waiting)).goto t (.semWait e d) := by
  unfold block
  simp only
  split <;> rfl

/-- A task that blocks leaves the messages. -/
theorem block_mq (b : Board) (t : TaskId) (e : ExchId) (d : BitVec 16) :
    (b.block t e d).mq = b.mq := by
  unfold block
  simp only
  split <;> rfl

/-- A task that blocks leaves the owners of messages. -/
theorem block_own (b : Board) (t : TaskId) (e : ExchId) (d : BitVec 16) :
    (b.block t e d).own = b.own := by
  unfold block
  simp only
  split <;> rfl

/-- A task that blocks is the last of its queue. -/
theorem block_tq (b : Board) (t : TaskId) (e : ExchId) (d : BitVec 16) :
    (b.block t e d).tq = Function.update b.tq e (b.tq e ++ [t]) := by
  unfold block
  simp only
  split <;> rfl

/-- A task that blocks with a limit enters the delay list. -/
theorem block_dl (b : Board) (t : TaskId) (e : ExchId) (d : BitVec 16) :
    (b.block t e d).dl = if d ≠ 0 then b.dl.orderedInsert due (t, d.toNat) else b.dl := by
  unfold block
  simp only
  split <;> rfl

/-- Exactly the new waiting task is added to the queues. -/
theorem mem_block {e e' : ExchId} {d : BitVec 16} :
    u ∈ (b.block t e d).tq e' ↔ u ∈ b.tq e' ∨ u = t ∧ e' = e := by
  rw [block_tq]
  by_cases he : e' = e
  · subst he
    simp
  · simp [he]

/-- Exactly the new task is added to the delays, when it has a limit. -/
theorem timed_block {e : ExchId} {d : BitVec 16} :
    (b.block t e d).Timed u ↔ b.Timed u ∨ u = t ∧ d ≠ 0 := by
  rw [Timed, block_dl]
  split
  case isTrue hd =>
    rw [((List.perm_orderedInsert due (t, d.toNat) b.dl).map Prod.fst).mem_iff, List.map_cons,
      List.mem_cons, or_comm, and_iff_left hd, Timed]
  case isFalse hd =>
    simp only [hd, and_false, or_false]
    rfl

/-- A free task is put to wait at an exchange that has no message. -/
theorem Inv.block (hI : b.Inv) (ha : b.Free t) {e : ExchId} (he : b.mq e = [])
    (hx : b.exchange t = .exch e) (d : BitVec 16) : (b.block t e d).Inv := by
  obtain ⟨hw, ht, hs, -⟩ := ha
  constructor
  case mq_nodup => exact block_mq b t e d ▸ hI.mq_nodup
  case mq_disjoint => rw [block_mq]; exact hI.mq_disjoint
  case own_queued => rw [block_mq, block_own]; exact hI.own_queued
  case tq_nodup =>
    intro e'
    rw [block_tq]
    by_cases hx' : e' = e
    · subst hx'
      simp only [Function.update_self]
      exact (hI.tq_nodup e').append (List.nodup_singleton t)
        (List.disjoint_singleton.mpr fun h ↦ hw ⟨e', h⟩)
    · simpa [hx'] using hI.tq_nodup e'
  case one_empty =>
    intro e'
    rw [block_mq]
    by_cases hx' : e' = e
    · exact .inl (hx' ▸ he)
    · apply (hI.one_empty e').imp_right
      intro h
      apply List.eq_nil_iff_forall_not_mem.mpr
      intro u hu
      rcases mem_block.mp hu with hu | ⟨-, hu⟩
      · simp [h] at hu
      · exact hx' hu
  case dl_nodup =>
    rw [block_dl]
    split
    · apply ((List.perm_orderedInsert due (t, d.toNat) b.dl).map Prod.fst).nodup_iff.mpr
      exact List.nodup_cons.mpr ⟨ht, hI.dl_nodup⟩
    · exact hI.dl_nodup
  case dl_sorted =>
    rw [block_dl]
    split
    · exact hI.dl_sorted.orderedInsert _ _
    · exact hI.dl_sorted
  case dl_bound =>
    rw [block_dl]
    intro p hp
    split at hp
    · rcases (List.mem_orderedInsert due).mp hp with rfl | hp
      · have := d.isLt
        simp only
        omega
      · exact hI.dl_bound p hp
    · exact hI.dl_bound p hp
  case task =>
    intro u
    by_cases hu : u = t
    · subst hu
      have hstatus : (b.block u e d).status u = if d ≠ 0 then delayed else waiting := by
        rw [block_toControl]
        simp [Control.goto, Control.setStatus]
      have hpc : (b.block u e d).pc u = .semWait e d := by
        rw [block_toControl]
        simp [Control.goto]
      have hsema : (b.block u e d).sema u = 0 := by
        rw [block_toControl]
        exact hs
      have hwaits : (b.block u e d).Waits u := ⟨e, mem_block.mpr (.inr ⟨rfl, rfl⟩)⟩
      have htimed : (b.block u e d).Timed u ↔ d ≠ 0 := by
        rw [timed_block]
        simp [ht]
      constructor
      case exchange =>
        intro e' h
        rcases mem_block.mp h with h | ⟨-, rfl⟩
        · exact absurd ⟨e', h⟩ hw
        · rw [block_toControl]
          exact hx
      case waits => exact fun _ ↦ hwaits
      case status_timed =>
        intro h
        rw [hstatus, if_pos (htimed.mp h)]
        exact .inl rfl
      case status_untimed =>
        intro _ h
        rw [hstatus, if_neg (fun hd ↦ h (htimed.mpr hd))]
        exact .inl rfl
      case status_idle => exact fun h ↦ absurd hwaits h
      case pc_waits =>
        intro e' h
        rcases mem_block.mp h with h | ⟨-, rfl⟩
        · exact absurd ⟨e', h⟩ hw
        · exact .inl ⟨d, hpc, htimed⟩
      case sema_waits => exact fun _ ↦ hsema
      case sema_le => exact hsema ▸ Nat.zero_le 1
      case sema_pc => exact fun h ↦ absurd hsema h
      case needpost_pc =>
        rw [hstatus]
        intro h
        split at h <;> exact absurd (by decide) h
      case not_held => simp [hpc]
    · refine (hI.task u).congr (fun e' ↦ ?_) ?_ ?_ ?_ ?_ ?_
      · simp [mem_block, hu]
      · simp [timed_block, hu]
      all_goals
        rw [block_toControl]
        simp [Control.goto, Control.setStatus, hu]

end YRmx.Board
