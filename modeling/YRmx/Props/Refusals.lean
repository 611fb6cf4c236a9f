import YRmx.Spec.Steps

/-!
# What a refused message leaves behind

Library `YRmx`. The error branches of `reqsend` freeze the system and come to `exit_region` while
they hold `exch->mutex`. Nothing else is changed by the call, but no step of any thread ever
unlocks the mutex again.
-/

namespace YRmx

open Transition

variable {s s' s₁ : Nucleus} {c : Control} {t u : TaskId} {e x : ExchId} {m : MsgId} {o : Op}
  {n : Nat} {tr : List (Nucleus × Op)}

/-- `reqsend` takes one of its error branches, `ycore.c:1052,1060,1073`. -/
def Nucleus.Refuses (s : Nucleus) (t : TaskId) (e : ExchId) (m : MsgId) : Prop :=
  ¬ accepts s t m ∨ s.taskHead e = .null ∧ s.taskTail e ≠ .exch e ∨
    s.taskHead e ≠ .null ∧ (s.messageHead e ≠ .null ∨ s.messageTail e ≠ .exch e)

instance (s : Nucleus) (t : TaskId) (e : ExchId) (m : MsgId) : Decidable (s.Refuses t e m) :=
  inferInstanceAs (Decidable (_ ∨ _ ∨ _))

/-- Nobody gets past the lock of the exchange. -/
structure Nucleus.Stuck (s : Nucleus) (e : ExchId) : Prop where
  mutex : s.mutex e = true
  reqsend : ∀ n t m, step n s (.reqsend t e m) = .error .blocked
  reqwait : ∀ n t d, step n s (.reqwait t e d) = .error .blocked
  reqacpt : ∀ n t, step n s (.reqacpt t e) = .error .blocked

/-- The queues, the messages, the delay list and what belongs to other tasks are as before. -/
structure Nucleus.Same (s s' : Nucleus) (t : TaskId) : Prop where
  word0 : s'.word0 = s.word0
  word1 : s'.word1 = s.word1
  word2 : s'.word2 = s.word2
  taskTail : s'.taskTail = s.taskTail
  delay : s'.delay = s.delay
  type : s'.type = s.type
  message : s'.message = s.message
  sema : s'.sema = s.sema
  status : ∀ u ≠ t, s'.status u = s.status u

/-- What the caller goes through until its call returns, and the bakes of other tasks. -/
def Op.Returning (t : TaskId) : Op → Prop
  | .thaw u | .exitRegion u => u = t
  | .reqbake u => u ≠ t
  | _ => False

/-- A thaw is the return of its own thread. -/
@[simp] theorem Op.returning_thaw : (Op.thaw u).Returning t ↔ u = t := .rfl

/-- The end of a critical region is the return of its own thread. -/
@[simp] theorem Op.returning_exitRegion : (Op.exitRegion u).Returning t ↔ u = t := .rfl

/-- A broadcast is the return of the other threads. -/
@[simp] theorem Op.returning_reqbake : (Op.reqbake u).Returning t ↔ u ≠ t := .rfl

/-- When the call has returned, everything is as before it and the exchange is unlocked. -/
def Nucleus.ErrorAtomic (s : Nucleus) (t : TaskId) (e : ExchId) (m : MsgId) : Prop :=
  ∀ s₁, Step s (.reqsend t e m) s₁ → ∀ tr s', Run s₁ tr s' → (∀ x ∈ tr, x.2.Returning t) →
    s'.pc t = .user → s.Same s' t ∧ s'.mutex e = false

/-! ### No step unlocks -/

namespace Control

/-- A thread that goes on leaves the exchanges. -/
@[simp] theorem goto_mutex (c : Control) (p : Pc) : (c.goto t p).mutex = c.mutex := rfl

/-- A post leaves the exchanges. -/
@[simp] theorem semPost_mutex (c : Control) : (c.semPost t).mutex = c.mutex := rfl

/-- A wait on a semaphore leaves the exchanges. -/
@[simp] theorem semTake_mutex (c : Control) : (c.semTake t).mutex = c.mutex := rfl

/-- A status byte does not lock an exchange. -/
@[simp] theorem setStatus_mutex (c : Control) (st : BitVec 8) :
    (c.setStatus t st).mutex = c.mutex := rfl

/-- `reqfreeze` locks and unlocks no exchange. -/
@[simp] theorem reqfreeze_mutex (c : Control) (k : Call) :
    (c.reqfreeze t k).mutex = c.mutex := by
  simp only [reqfreeze, apply_ite Control.mutex, goto_mutex, ite_self]

/-- `reqbake` locks and unlocks no exchange. -/
@[simp] theorem reqbake_mutex (c : Control) : c.reqbake.mutex = c.mutex := by
  simp only [reqbake, apply_ite Control.mutex, ite_self]

/-- `exit_region` locks and unlocks no exchange. -/
@[simp] theorem exitRegion_mutex (c : Control) (k : Call) :
    (c.exitRegion t k).mutex = c.mutex := by
  simp only [exitRegion, apply_ite Control.mutex, goto_mutex, setStatus_mutex, ite_self]

/-- The end of `reqwait` locks and unlocks no exchange. -/
@[simp] theorem waitDone_mutex (c : Control) (d : BitVec 16) :
    (c.waitDone t e d).mutex = c.mutex := by
  simp only [waitDone, apply_ite Control.mutex, goto_mutex, reqfreeze_mutex, ite_self]

/-- `reqsusp` locks and unlocks no exchange. -/
@[simp] theorem reqsusp_mutex (c : Control) : (c.reqsusp t u).mutex = c.mutex := by
  simp only [reqsusp, apply_ite Control.mutex, goto_mutex, setStatus_mutex, ite_self]

/-- `reqresm` locks and unlocks no exchange. -/
@[simp] theorem reqresm_mutex (c : Control) : (c.reqresm u).mutex = c.mutex := by
  simp only [reqresm, apply_ite Control.mutex, semPost_mutex, setStatus_mutex, ite_self]

/-- The end of `reqdtsk` locks and unlocks no exchange. -/
@[simp] theorem reqdtskEnd_mutex (c : Control) : (c.reqdtskEnd t u).mutex = c.mutex := by
  simp only [reqdtskEnd, apply_ite Control.mutex, goto_mutex, setStatus_mutex, ite_self]

end Control

/-- What a computation keeps locked. -/
def Locks (s : Nucleus) (r : Exec Nucleus) : Prop :=
  ∀ s', r = .ok s' → ∀ x, s.mutex x = true → s'.mutex x = true

namespace Locks

/-- A state with the same mutexes. -/
theorem ok (h : s'.mutex = s.mutex) : Locks s (.ok s') := by
  intro s'' hs x hx
  cases hs
  rwa [h]

/-- A stop. -/
theorem error {r : Stop} : Locks s (.error r) := fun _ h ↦ by cases h

/-- A condition. -/
theorem require {p : Prop} [Decidable p] {r : Exec Nucleus} (h : p → Locks s r) :
    Locks s (YRmx.require p >>= fun _ ↦ r) := by
  intro s' hs
  obtain ⟨hp, hs⟩ := require_bind_eq_ok.mp hs
  exact h hp s' hs

/-- A value that is computed without a step. -/
theorem pure_bind {α : Type} {v : Exec α} {f : α → Exec Nucleus} (h : ∀ a, Locks s (f a)) :
    Locks s (v >>= f) := by
  intro s' hs
  obtain ⟨a, -, hs⟩ := Exec.bind_eq_ok.mp hs
  exact h a s' hs

/-- A sequence. -/
theorem bind {r : Exec Nucleus} {f : Nucleus → Exec Nucleus} (hr : Locks s r)
    (hf : ∀ s', Locks s' (f s')) : Locks s (r >>= f) := by
  intro s'' hs x hx
  obtain ⟨s', hs', hs⟩ := Exec.bind_eq_ok.mp hs
  exact hf s' s'' hs x (hr s' hs' x hx)

/-- From a state with the same mutexes. -/
theorem of_eq {r : Exec Nucleus} (h : Locks s r) (hs : s.mutex = s'.mutex) : Locks s' r :=
  fun s'' h'' x hx ↦ h s'' h'' x (hs ▸ hx)

end Locks

/-- `cancel_delay` unlocks nothing. -/
theorem cancelDelayUnsafe_locks (s : Nucleus) (t : TaskId) : Locks s (cancelDelayUnsafe s t) :=
  .pure_bind fun _ ↦ .pure_bind fun _ ↦ .ok rfl

/-- The loop of the insertion changes delay fields only. -/
theorem insertLoop_mutex {p q : Addr} {v : BitVec 16} (h : insertLoop t n s p = .ok (s', q, v)) :
    s'.mutex = s.mutex := by
  induction n generalizing s p with
  | zero => cases h
  | succ n ih =>
    obtain ⟨a, -, h⟩ := Exec.bind_eq_ok.mp h
    dsimp only at h
    split at h
    · have hm := ih h
      exact hm
    · cases h
      rfl

/-- The delay part of `reqwait` unlocks nothing. -/
theorem startDelay_locks (n : Nat) (s : Nucleus) (t : TaskId) (d : BitVec 16) :
    Locks s (startDelay n s t d) := by
  rw [startDelay]
  split
  · intro s' hs x hx
    obtain ⟨⟨s₁, p, v⟩, h₁, hs⟩ := Exec.bind_eq_ok.mp hs
    obtain ⟨a, -, hs⟩ := Exec.bind_eq_ok.mp hs
    cases hs
    show s₁.mutex x = true
    rw [insertLoop_mutex h₁]
    exact hx
  · exact .ok rfl

/-- Joining the task queue unlocks nothing. -/
theorem appendTask_locks (s : Nucleus) (e : ExchId) (t : TaskId) : Locks s (appendTask s e t) := by
  have hend : ∀ s' : Nucleus, s'.mutex = s.mutex →
      Locks s (if s'.link t = .task t then .error .frozen else .ok s') := by
    intro s' hm
    split
    · exact .error
    · exact .ok hm
  unfold appendTask
  dsimp only
  split
  · exact hend _ rfl
  · exact .pure_bind fun _ ↦ hend _ rfl

/-- Unlinking a task unlocks nothing. -/
@[simp] theorem unlinkTask_mutex (s : Nucleus) (p : Addr) :
    (unlinkTask s e p t).mutex = s.mutex := by
  rw [unlinkTask]
  dsimp only
  split <;> rfl

/-- One pass of the expiry loop unlocks nothing. -/
theorem expireTask_locks (n : Nat) (s : Nucleus) (t : TaskId) : Locks s (expireTask n s t) := by
  refine .pure_bind fun e ↦ .pure_bind fun p ↦ ?_
  refine .bind ((cancelDelayUnsafe_locks _ t).of_eq (unlinkTask_mutex s p)) fun s' ↦ .ok rfl

/-- The expiry loop unlocks nothing. -/
theorem expiryLoop_locks (k n : Nat) (s : Nucleus) : Locks s (expiryLoop k n s) := by
  induction n generalizing s with
  | zero => exact .error
  | succ n ih =>
    refine .pure_bind fun p ↦ ?_
    split
    · exact .pure_bind fun t ↦ .bind (expireTask_locks k s t) ih
    · exact .ok rfl

/-- `reqdqmsg` unlocks nothing. -/
theorem reqdqmsg_locks (s : Nucleus) (e : ExchId) (t : TaskId) : Locks s (reqdqmsg s e t) := by
  rw [reqdqmsg]
  split
  · exact .ok rfl
  · refine .pure_bind fun p ↦ .ok ?_
    split <;> split <;> rfl

/-- Handing a message over unlocks nothing. -/
theorem handOff_locks (s : Nucleus) (e : ExchId) (t : TaskId) (m : MsgId) :
    Locks s (handOff s e t m) := by
  have hg : (giveMessage (unlinkFirst s e t) t m).mutex = s.mutex := by
    rw [unlinkFirst]
    dsimp only
    split <;> rfl
  unfold handOff
  dsimp only
  split
  · exact .bind ((cancelDelayUnsafe_locks _ t).of_eq hg) fun s' ↦ .ok rfl
  · exact .ok hg

/-- `reqsend` locks the exchange at most. -/
theorem reqsend_locks (s : Nucleus) (t : TaskId) (e : ExchId) (m : MsgId) :
    Locks s (reqsend s t e m) := by
  have herr : Locks s (.ok (s.ctl (·.sendError t e))) := by
    intro s' hs x hx
    cases hs
    simp only [Control.sendError, Control.reqfreeze_mutex, Function.update_apply]
    split
    · rfl
    · exact hx
  refine .require fun _ ↦ ?_
  split
  · exact herr
  · split
    · split
      · exact herr
      · exact .pure_bind fun _ ↦ .ok rfl
    · split
      · exact herr
      · exact .pure_bind fun u ↦ handOff_locks s e u m

/-- `reqisnd` locks the exchange at most. -/
theorem reqisnd_locks (s : Nucleus) (t : TaskId) (e : ExchId) : Locks s (reqisnd s t e) := by
  rw [reqisnd]
  split
  · exact (reqsend_locks _ t e _).of_eq rfl
  · exact .ok rfl

/-- A tick of the timer unlocks nothing. -/
theorem rqtimer_locks (s : Nucleus) : Locks s (rqtimer s) := by
  intro s' hs x hx
  obtain ⟨⟨s₁, isnd⟩, h₁, hs⟩ := Exec.bind_eq_ok.mp hs
  have hm : s₁.mutex = s.mutex := by
    obtain ⟨p, -, h₁⟩ := Exec.bind_eq_ok.mp h₁
    split at h₁
    · split at h₁ <;> cases h₁ <;> rfl
    · cases h₁
      rfl
  rw [← hm] at hx
  dsimp only at hs
  split at hs
  · exact reqisnd_locks s₁ _ _ s' hs x hx
  · cases hs
    exact hx

/-- The end of a wait unlocks nothing that another call left locked. -/
theorem wakeAt_locks (s : Nucleus) (t : TaskId) (p : Pc) : Locks s (wakeAt s t p) := by
  unfold wakeAt
  split
  · refine .require fun _ ↦ ?_
    dsimp only
    split
    · exact .error
    · exact .ok (by simp)
  · exact .error

/-- `reqwait` unlocks nothing that another call left locked. -/
theorem reqwait_locks (n : Nat) (s : Nucleus) (t : TaskId) (e : ExchId) (d : BitVec 16) :
    Locks s (reqwait n s t e d) := by
  refine .require fun _ ↦ ?_
  dsimp only
  split
  · refine .bind ((appendTask_locks _ e t).of_eq rfl) fun s' ↦ ?_
    exact .bind (startDelay_locks n s' t d) fun s'' ↦ .ok rfl
  · exact .bind ((reqdqmsg_locks _ e t).of_eq rfl) fun s' ↦ .ok (by simp)

/-- `reqacpt` unlocks nothing that another call left locked. -/
theorem reqacpt_locks (s : Nucleus) (t : TaskId) (e : ExchId) : Locks s (reqacpt s t e) := by
  refine .require fun _ ↦ ?_
  dsimp only
  split
  · exact .bind ((reqdqmsg_locks _ e t).of_eq rfl) fun s' ↦ .ok rfl
  · exact .ok rfl

/-- `reqdtsk` unlocks nothing. -/
theorem reqdtsk_locks (n : Nat) (s : Nucleus) (t u : TaskId) : Locks s (reqdtsk n s t u) := by
  refine .bind ?_ fun s' ↦ .ok (by simp)
  rw [dequeueDeleted]
  split
  · split
    · refine .bind ?_ fun s' ↦ ?_
      · refine .pure_bind fun e ↦ ?_
        split
        · exact .error
        · exact .pure_bind fun p ↦ .ok (unlinkTask_mutex s p)
      · split
        · exact cancelDelayUnsafe_locks s' u
        · exact .ok rfl
    · exact .ok rfl
  · exact .ok rfl

/-- No step unlocks an exchange that was left locked. -/
theorem step_locks (n : Nat) (s : Nucleus) (o : Op) : Locks s (step n s o) := by
  cases o with
  | reqcmsg | setType | suspWake | cancelled => exact .require fun _ ↦ .ok rfl
  | reqfreeze | reqbake | reqsusp | reqresm => exact .require fun _ ↦ .ok (by simp)
  | reqsend t e m => exact .require fun _ ↦ reqsend_locks s t e m
  | reqisnd t e => exact .require fun _ ↦ reqisnd_locks s t e
  | reqwait t e d => exact .require fun _ ↦ reqwait_locks n s t e d
  | wake t => exact wakeAt_locks s t _
  | reqacpt t e => exact .require fun _ ↦ reqacpt_locks s t e
  | tick => exact .require fun _ ↦ rqtimer_locks s
  | expiry => exact .require fun _ ↦ .bind (expiryLoop_locks n n s) fun s' ↦ .ok rfl
  | reqdtsk t u => exact .require fun _ ↦ reqdtsk_locks n s t u
  | exitRegion t =>
    simp only [step_exitRegion, exitAt]
    split
    · exact .ok (by simp)
    · exact .error
  | heldWake t =>
    simp only [step_heldWake, heldAt]
    split
    · exact .require fun _ ↦ .ok rfl
    · exact .error
  | thaw t =>
    refine .require fun _ ↦ ?_
    unfold thawAt
    split
    · exact .ok rfl
    · exact .ok rfl
    · exact .error

/-! ### A refused call and its return -/

/-- An error branch changes the control part only. -/
theorem reqsend_refused (hm : s.mutex e = false) (hr : s.Refuses t e m) :
    reqsend s t e m = .ok (s.ctl (·.sendError t e)) := by
  unfold reqsend require
  rw [if_pos hm, Exec.ok_bind]
  rcases hr with ha | ⟨hh, ht⟩ | ⟨hh, hq⟩
  · rw [if_pos ha]
  · by_cases ha : accepts s t m
    · rw [if_neg (not_not.mpr ha), if_pos hh, if_pos ht]
    · rw [if_pos ha]
  · by_cases ha : accepts s t m
    · rw [if_neg (not_not.mpr ha), if_neg hh, if_pos hq]
    · rw [if_pos ha]

/-- What a condition guards is blocked if it is blocked under the condition. -/
theorem require_bind_blocked {p : Prop} [Decidable p] {r : Exec Nucleus}
    (h : p → r = .error .blocked) : (require p >>= fun _ ↦ r) = .error .blocked := by
  by_cases hp : p
  · simp [require, hp, h hp]
  · simp [require, hp]

namespace Nucleus

/-- Nobody gets past a locked exchange. -/
theorem stuck_of_mutex (h : s.mutex e = true) : s.Stuck e := by
  have hf : ¬ s.mutex e = false := by simp [h]
  constructor
  · exact h
  · exact fun n t m ↦ require_bind_blocked fun _ ↦ require_bind_blocked fun hm ↦ absurd hm hf
  · exact fun n t d ↦ require_bind_blocked fun _ ↦ require_bind_blocked fun hm ↦ absurd hm hf
  · exact fun n t ↦ require_bind_blocked fun _ ↦ require_bind_blocked fun hm ↦ absurd hm hf

namespace Same

/-- Nothing has happened. -/
theorem refl (s : Nucleus) (t : TaskId) : s.Same s t :=
  ⟨rfl, rfl, rfl, rfl, rfl, rfl, rfl, rfl, fun _ _ ↦ rfl⟩

/-- One after the other. -/
theorem trans (h : s.Same s₁ t) (h' : s₁.Same s' t) : s.Same s' t where
  word0 := h'.word0.trans h.word0
  word1 := h'.word1.trans h.word1
  word2 := h'.word2.trans h.word2
  taskTail := h'.taskTail.trans h.taskTail
  delay := h'.delay.trans h.delay
  type := h'.type.trans h.type
  message := h'.message.trans h.message
  sema := h'.sema.trans h.sema
  status u hu := (h'.status u hu).trans (h.status u hu)

/-- A change of the control part that keeps these fields. -/
theorem ctl {c : Control} (ht : c.type = s.type) (hm : c.message = s.message)
    (hs : c.sema = s.sema) (hst : ∀ u ≠ t, c.status u = s.status u) :
    s.Same { s with toControl := c } t :=
  ⟨rfl, rfl, rfl, rfl, rfl, ht, hm, hs, hst⟩

/-- A refused call leaves everything else alone. -/
theorem sendError (s : Nucleus) (t : TaskId) (e : ExchId) :
    s.Same (s.ctl (·.sendError t e)) t := by
  show s.Same { s with toControl := s.toControl.sendError t e } t
  rw [Control.sendError, Control.reqfreeze]
  split
  · exact .ctl rfl rfl rfl fun _ _ ↦ rfl
  · split
    · exact .ctl rfl rfl rfl fun _ _ ↦ rfl
    · exact .ctl rfl rfl rfl fun _ _ ↦ rfl

/-- The return of the caller and the bakes of other tasks leave everything else alone. -/
theorem returning (hs : Step s o s') (ho : o.Returning t) : s.Same s' t := by
  obtain ⟨n, hs⟩ := hs
  cases o with
  | thaw u =>
    obtain rfl : u = t := ho
    obtain ⟨-, hs⟩ := require_bind_eq_ok.mp hs
    unfold thawAt at hs
    split at hs
    · cases hs
      exact .ctl rfl rfl rfl fun _ _ ↦ rfl
    · cases hs
      exact .ctl rfl rfl rfl fun v hv ↦ Function.update_of_ne hv _ _
    · cases hs
  | exitRegion u =>
    obtain rfl : u = t := ho
    simp only [step_exitRegion, exitAt] at hs
    split at hs
    · cases hs
      show s.Same { s with toControl := s.toControl.exitRegion u _ } u
      rw [Board.exitRegion_eq]
      exact .ctl rfl rfl rfl fun _ _ ↦ rfl
    · cases hs
  | reqbake u =>
    obtain ⟨-, hs⟩ := require_bind_eq_ok.mp hs
    cases hs
    show s.Same { s with toControl := s.toControl.reqbake } t
    rw [Control.reqbake]
    split
    · exact .ctl rfl rfl rfl fun _ _ ↦ rfl
    · exact refl s t
  | _ => exact ho.elim

end Same

end Nucleus

/-- A caller that was refused stands in `reqfreeze`, or at `exit_region`. -/
theorem sendError_pc (c : Control) (t : TaskId) (e : ExchId) :
    (c.sendError t e).pc = Function.update c.pc t (.freeze (.reqsend e)) ∨
      (c.sendError t e).pc = Function.update c.pc t (.exitRegion (.reqsend e)) := by
  rw [Control.sendError, Control.reqfreeze]
  split
  · exact .inr rfl
  · split
    · exact .inl rfl
    · exact .inr rfl

/-- A bake lets everybody go. -/
theorem reqbake_spec (c : Control) : c.reqbake.rqfrozen = false ∧ c.reqbake.pc = c.pc := by
  rw [Control.reqbake]
  split
  · exact ⟨rfl, rfl⟩
  · rename_i hf
    exact ⟨by simpa using hf, rfl⟩

/-- From `exit_region` of a system that is not frozen the caller returns. -/
theorem exitRegion_returns {k : Call} (hf : s.rqfrozen = false) (hp : s.pc t = .exitRegion k) :
    ∃ tr s', Run s tr s' ∧ (∀ x ∈ tr, x.2.Returning t) ∧ s'.pc t = .user := by
  have h₁ : Step s (.exitRegion t) (s.ctl (·.goto t (.thaw k))) := by
    refine ⟨0, ?_⟩
    simp only [step_exitRegion, exitAt, hp, Board.exitRegion_eq]
  have h₂ : Step (s.ctl (·.goto t (.thaw k))) (.thaw t)
      ((s.ctl (·.goto t (.thaw k))).ctl (·.leaveRegion t)) :=
    ⟨0, require_bind_eq_ok.mpr ⟨hf, by simp [thawAt]⟩⟩
  have hr : Run s ([] ++ [(s, Op.exitRegion t)] ++ [(_, Op.thaw t)]) _ := .snoc (.snoc .nil h₁) h₂
  refine ⟨_, _, hr, ?_, ?_⟩
  · simp
  · simp [Control.leaveRegion]

/-- The run of a caller that is let go when another task bakes the system. -/
theorem exists_return (hu : u ≠ t) (hpu : s.pc u = .user) :
    ∃ tr s', Run (s.ctl (·.sendError t e)) tr s' ∧ (∀ x ∈ tr, x.2.Returning t) ∧
      s'.pc t = .user := by
  obtain ⟨hf, hpc⟩ := reqbake_spec (s.toControl.sendError t e)
  have hpb : (s.toControl.sendError t e).pc u = .user := by
    rcases sendError_pc s.toControl t e with h | h <;>
      rw [h, Function.update_of_ne hu, hpu]
  have hb : Step (s.ctl (·.sendError t e)) (.reqbake u)
      ((s.ctl (·.sendError t e)).ctl (·.reqbake)) := ⟨0, require_bind_eq_ok.mpr ⟨hpb, rfl⟩⟩
  have hr : Run (s.ctl (·.sendError t e)) ([] ++ [(_, Op.reqbake u)]) _ := .snoc .nil hb
  rcases sendError_pc s.toControl t e with h | h
  · -- the caller is let go in `reqfreeze` first
    have hp : (s.toControl.sendError t e).reqbake.pc t = .freeze (.reqsend e) := by
      rw [hpc, h, Function.update_self]
    have ht : Step ((s.ctl (·.sendError t e)).ctl (·.reqbake)) (.thaw t)
        (((s.ctl (·.sendError t e)).ctl (·.reqbake)).ctl
          (·.goto t (.exitRegion (.reqsend e)))) := by
      refine ⟨0, require_bind_eq_ok.mpr ⟨hf, ?_⟩⟩
      show thawAt _ t ((s.toControl.sendError t e).reqbake.pc t) = _
      rw [hp]
      rfl
    obtain ⟨tr, s', hr', hok, hs'⟩ := exitRegion_returns (t := t) (k := .reqsend e)
      (s := ((s.ctl (·.sendError t e)).ctl (·.reqbake)).ctl (·.goto t (.exitRegion (.reqsend e))))
      hf (by simp)
    refine ⟨_, s', (hr.snoc ht).append hr', ?_, hs'⟩
    simpa [hu] using hok
  · have hp : ((s.ctl (·.sendError t e)).ctl (·.reqbake)).pc t = .exitRegion (.reqsend e) := by
      show (s.toControl.sendError t e).reqbake.pc t = _
      rw [hpc, h, Function.update_self]
    obtain ⟨tr, s', hr', hok, hs'⟩ := exitRegion_returns hf hp
    refine ⟨_, s', hr.append hr', ?_, hs'⟩
    simpa [hu] using hok

/-- A refused call leaves the exchange locked. -/
theorem sendError_mutex (c : Control) (t : TaskId) (e : ExchId) :
    (c.sendError t e).mutex e = true := by
  rw [Control.sendError, Control.reqfreeze_mutex]
  exact Function.update_self ..

/-- A refused `reqsend` comes to its error exit. -/
theorem eq_sendError (h : Step s (.reqsend t e m) s₁) (hr : s.Refuses t e m) :
    s₁ = s.ctl (·.sendError t e) := by
  obtain ⟨n, h⟩ := h
  obtain ⟨-, h⟩ := require_bind_eq_ok.mp h
  obtain ⟨hm, -⟩ := require_bind_eq_ok.mp h
  rw [reqsend_refused hm hr] at h
  cases h
  rfl

/-- After the error exit the exchange is locked in every run. -/
theorem stuck_of_sendError (h : Run (s.ctl (·.sendError t e)) tr s') : s'.Stuck e := by
  apply Nucleus.stuck_of_mutex
  exact h.invariant (P := fun a ↦ a.mutex e = true) (Q := fun _ _ ↦ True)
    (sendError_mutex s.toControl t e) (fun _ _ ↦ trivial)
    fun a o b ha _ hab ↦ by
      obtain ⟨k, hab⟩ := hab
      exact step_locks k a o b hab e ha

/-- When another task may bake the system, a refused `reqsend` is not undone. -/
theorem not_errorAtomic (h : Step s (.reqsend t e m) s₁) (hr : s.Refuses t e m) (hu : u ≠ t)
    (hpu : s.pc u = .user) : ¬ s.ErrorAtomic t e m := by
  intro hatomic
  obtain ⟨tr, s', hrun, hret, hp⟩ := exists_return (e := e) hu hpu
  rw [eq_sendError h hr] at h
  have hfree := (hatomic _ h tr s' hrun hret hp).2
  rw [(stuck_of_sendError hrun).mutex] at hfree
  cases hfree

/-- A refused `reqsend` locks its exchange for good: after it nobody gets past that lock in any
run, though queues, messages and the other tasks are left alone. So the call, which returns as
soon as another task bakes the system, is never undone. -/
theorem refused_of_run (h : Step s (.reqsend t e m) s₁) (hr : s.Refuses t e m) :
    (∀ tr s', Run s₁ tr s' → s'.Stuck e ∧ ((∀ x ∈ tr, x.2.Returning t) → s.Same s' t)) ∧
    ∀ u ≠ t, s.pc u = .user →
      (∃ tr s', Run s₁ tr s' ∧ (∀ x ∈ tr, x.2.Returning t) ∧ s'.pc t = .user) ∧
      ¬ s.ErrorAtomic t e m := by
  have hna := fun u hu hpu ↦ not_errorAtomic (u := u) h hr hu hpu
  obtain rfl := eq_sendError h hr
  refine ⟨fun tr s' hrun ↦ ⟨stuck_of_sendError hrun, fun hret ↦ ?_⟩, fun u hu hpu ↦ ?_⟩
  · exact hrun.invariant (P := fun a ↦ s.Same a t) (Q := fun _ o ↦ o.Returning t)
      (.sendError s t e) hret fun a o b ha ho hab ↦ ha.trans (.returning hab ho)
  · exact ⟨exists_return hu hpu, hna u hu hpu⟩

/-- Message 0 of the users does not belong to task 3. -/
theorem boot_refuses : boot.Refuses 3 7 (.user 0) := .inl (by decide)

/-- Task 3 sends a message that it does not own. -/
theorem step_sendError : Step boot (.reqsend 3 7 (.user 0)) (boot.ctl (·.sendError 3 7)) :=
  ⟨0, require_bind_eq_ok.mpr ⟨rfl, reqsend_refused rfl boot_refuses⟩⟩

/-- Task 3 sends a message that it does not own, and task 4 may bake the system. -/
theorem refused_of_run_foreign : ∃ s₁, Step boot (.reqsend 3 7 (.user 0)) s₁ ∧
    boot.Refuses 3 7 (.user 0) ∧ ¬ boot.ErrorAtomic 3 7 (.user 0) ∧
    ∃ tr s', Run s₁ tr s' ∧ (∀ x ∈ tr, x.2.Returning 3) ∧ s'.pc 3 = .user ∧ s'.Stuck 7 := by
  have h := refused_of_run step_sendError boot_refuses
  obtain ⟨⟨tr, s', hrun, hret, hp⟩, hna⟩ := h.2 4 (by decide) rfl
  exact ⟨_, step_sendError, boot_refuses, hna, tr, s', hrun, hret, hp, (h.1 tr s' hrun).1⟩

/-- Task 3 sends a message that it does not own to exchange 7, task 4 bakes the system and the
call returns: task 5, which sends its own message to exchange 7, waits for the mutex forever. -/
theorem refused_send_keeps_lock : ∃ s, boot.Refuses 3 7 (.user 0) ∧
    Step boot (.reqsend 3 7 (.user 0)) s ∧ ¬ boot.ErrorAtomic 3 7 (.user 0) ∧
    ∃ tr s', Run s tr s' ∧ tr.map Prod.snd = [.reqbake 4, .thaw 3, .exitRegion 3, .thaw 3,
      .reqcmsg 5 1 24 0] ∧
    s'.pc 3 = .user ∧ accepts s' 5 (.user 1) ∧
    ∀ n, step n s' (.reqsend 5 7 (.user 1)) = .error .blocked := by
  refine ⟨_, boot_refuses, step_sendError,
    not_errorAtomic (u := 4) step_sendError boot_refuses (by decide) rfl, ?_⟩
  obtain ⟨tr, s', hrun, hos, -, hp⟩ := exists_run (n := 0) (c := fun _ _ ↦ true)
    (s := boot.ctl (·.sendError 3 7))
    (l := [.reqbake 4, .thaw 3, .exitRegion 3, .thaw 3, .reqcmsg 5 1 24 0])
    (p := fun s ↦ s.pc 3 = .user ∧ accepts s 5 (.user 1)) (by decide +kernel)
  obtain ⟨hp, ha⟩ := of_decide_eq_true hp
  exact ⟨tr, s', hrun, hos, hp, ha, fun n ↦ (stuck_of_sendError hrun).reqsend n 5 _⟩

end YRmx
