import YRmx.Yalrt.Effects

/-!
# The suspended bits and the priorities

Library `YRmx`. Only `reqsusp` and `reqresm` change a suspended bit, and no step changes a
priority, whatever lists the tasks stand in and whether the call goes wrong or not.
-/

namespace YRmx

variable {n : Nat} {o : YalrtOp} {t : TaskId} {e : ExchId}

namespace Sched

variable {s s' : Sched}

/-- The suspended bits and the priorities. -/
def tags (s : Sched) : (TaskId → Bool) × (TaskId → BitVec 8) := (s.isSuspended, s.priority)

/-- They stay when a task is listed. -/
theorem enterlist_tags (h : s.enterlist n t = .ok s') : s'.tags = s.tags := by
  rw [enterlist] at h
  split at h
  · obtain ⟨p, -, h⟩ := Exec.bind_eq_ok.mp h
    split at h
    · exact Except.ok.inj h ▸ rfl
    · obtain ⟨q, -, h⟩ := Exec.bind_eq_ok.mp h
      exact Except.ok.inj h ▸ rfl
  · rw [enterSuspended] at h
    split at h
    · exact Except.ok.inj h ▸ rfl
    split at h
    · cases h
    · exact Except.ok.inj h ▸ rfl

/-- They stay when a task is taken out of a list. -/
theorem removelist_tags (h : s.removelist n t = .ok s') : s'.tags = s.tags := by
  rw [removelist] at h
  split at h
  · rw [removeReady] at h
    split at h
    · exact Except.ok.inj h ▸ rfl
    · obtain ⟨q, -, h⟩ := Exec.bind_eq_ok.mp h
      rw [unlinkReady] at h
      split at h <;> exact Except.ok.inj h ▸ rfl
  · rw [removeSuspended] at h
    split at h
    · exact Except.ok.inj h ▸ rfl
    split at h
    · exact Except.ok.inj h ▸ rfl
    · obtain ⟨q, -, h⟩ := Exec.bind_eq_ok.mp h
      rw [unlinkSuspended] at h
      split at h <;> exact Except.ok.inj h ▸ rfl

end Sched

namespace Yalrt

variable {s s' : Yalrt}

private theorem other_bits : ∀ st : BitVec 8,
    st &&& ~~~waiting &&& suspended = st &&& suspended ∧
    st &&& ~~~delayed &&& suspended = st &&& suspended ∧
    (st ||| waiting) &&& suspended = st &&& suspended ∧
    (st ||| delayed) &&& suspended = st &&& suspended ∧
    (st ||| maskint) &&& suspended = st &&& suspended ∧
    st &&& ~~~maskint &&& suspended = st &&& suspended ∧
    (st ||| suspended) &&& suspended ≠ 0 ∧ st &&& ~~~suspended &&& suspended = 0 := by
  decide

/-- A new status with the suspended bit as it was. -/
theorem setStatus_tags {v : BitVec 8} (hv : v &&& suspended = s.status t &&& suspended) :
    (s.setStatus t v).tags = s.tags := by
  refine Prod.ext (funext fun u ↦ ?_) rfl
  by_cases hu : u = t
  · subst hu
    simp only [Sched.tags, Sched.isSuspended, setStatus, Function.update_self, hv]
  · simp only [Sched.tags, Sched.isSuspended, setStatus, Function.update_of_ne hu]

/-- `cancel_delay` clears the delayed bit. -/
theorem cancelDelay_tags (h : s.cancelDelay t = .ok s') : s'.tags = s.tags := by
  obtain ⟨p, -, h⟩ := Exec.bind_eq_ok.mp h
  obtain ⟨q, -, h⟩ := Exec.bind_eq_ok.mp h
  rw [← Except.ok.inj h]
  exact setStatus_tags (other_bits _).2.1

/-- `cancel_delay` behind a test. -/
theorem cancelDelayIf_tags {b : Bool} (h : s.cancelDelayIf b t = .ok s') :
    s'.tags = s.tags := by
  rw [cancelDelayIf] at h
  split at h
  · exact cancelDelay_tags h
  · rw [← Except.ok.inj h]

/-- A list operation that keeps the suspended bits and the priorities. -/
theorem sched_tags {f : Sched → Exec Sched} (h : s.sched f = .ok s')
    (hf : ∀ c, f s.toSched = .ok c → c.tags = s.tags) : s'.tags = s.tags := by
  obtain ⟨c, hc, h⟩ := Exec.bind_eq_ok.mp h
  rw [← Except.ok.inj h]
  exact hf c hc

/-- The first waiting task is handed a message. -/
theorem handOff_tags {m : MsgId} (h : s.handOff n e t m = .ok s') :
    s'.tags = s.tags := by
  obtain ⟨s₁, h₁, h⟩ := Exec.bind_eq_ok.mp h
  obtain ⟨s₂, h₂, h⟩ := Exec.bind_eq_ok.mp h
  rw [← Except.ok.inj h]
  refine (sched_tags h₂ fun _ ↦ Sched.enterlist_tags).trans ((cancelDelayIf_tags h₁).trans ?_)
  apply (setStatus_tags (other_bits _).1).trans
  rw [unlinkFirst_eq, unlinkWaiting_eq]
  rfl

/-- The first waiting task is handed the message of an interrupt. -/
theorem handInt_tags (h : s.handInt n e t = .ok s') : s'.tags = s.tags := by
  obtain ⟨s₁, h₁, h⟩ := Exec.bind_eq_ok.mp h
  refine (sched_tags h fun _ ↦ Sched.enterlist_tags).trans ((cancelDelayIf_tags h₁).trans ?_)
  apply (setStatus_tags (other_bits _).1).trans
  rw [unlinkFirst_eq, unlinkWaiting_eq]
  rfl

/-- `reqsend`. -/
theorem reqsend_tags {m : MsgId} (h : s.reqsend n e m = .ok s') :
    s'.tags = s.tags := by
  rw [reqsend] at h
  split at h
  · cases h
  split at h
  · split at h
    · cases h
    · obtain ⟨p, -, h⟩ := Exec.bind_eq_ok.mp h
      rw [← Except.ok.inj h]
  split at h
  · cases h
  · obtain ⟨t, -, h⟩ := Exec.bind_eq_ok.mp h
    exact handOff_tags h

/-- The loop of the insertion changes the delay of the running task. -/
theorem insertLoop_tags {p q : Addr} {d : BitVec 16} (h : insertLoop n s p = .ok (s', q, d)) :
    s'.tags = s.tags := by
  induction n generalizing s p with
  | zero => cases h
  | succ n ih =>
    obtain ⟨p', -, h⟩ := Exec.bind_eq_ok.mp h
    dsimp only at h
    split at h
    · exact (ih h).trans rfl
    · rw [← (Prod.mk.inj (Except.ok.inj h)).1]

/-- `reqwait`. -/
theorem reqwait_tags {d : BitVec 16} (h : s.reqwait n e d = .ok s') :
    s'.tags = s.tags := by
  rw [reqwait] at h
  split at h
  · obtain ⟨s₁, h₁, h⟩ := Exec.bind_eq_ok.mp h
    obtain ⟨s₂, h₂, h⟩ := Exec.bind_eq_ok.mp h
    have hs₁ : s₁.tags = s.tags := by
      rw [appendTask] at h₁
      split at h₁
      · cases h₁
      · rw [← Except.ok.inj h₁]
        rfl
    have hs₂ : s₂.tags = s₁.tags := by
      rw [delayActive] at h₂
      split at h₂
      · obtain ⟨⟨s₃, p, d'⟩, h₃, h₂⟩ := Exec.bind_eq_ok.mp h₂
        obtain ⟨q, -, h₂⟩ := Exec.bind_eq_ok.mp h₂
        rw [← Except.ok.inj h₂]
        exact (insertLoop_tags h₃).trans (setStatus_tags (other_bits _).2.2.2.1)
      · rw [← Except.ok.inj h₂]
    refine Eq.trans ?_ (hs₂.trans hs₁)
    split at h <;> rw [← Except.ok.inj h]
    exact setStatus_tags (other_bits _).2.2.1
  · obtain ⟨s₁, h₁, h⟩ := Exec.bind_eq_ok.mp h
    split at h
    · cases h
    · rw [← Except.ok.inj h, reqdqmsg_frame h₁]

/-- One turn of the loop of `rqdelaytask`. -/
theorem expire_tags (h : s.expire n = .ok s') : s'.tags = s.tags := by
  obtain ⟨-, h⟩ := require_bind_eq_ok.mp h
  obtain ⟨t, -, h⟩ := Exec.bind_eq_ok.mp h
  obtain ⟨e, -, h⟩ := Exec.bind_eq_ok.mp h
  obtain ⟨p, -, h⟩ := Exec.bind_eq_ok.mp h
  obtain ⟨s₁, h₁, h⟩ := Exec.bind_eq_ok.mp h
  obtain ⟨s₂, h₂, h⟩ := Exec.bind_eq_ok.mp h
  rw [← Except.ok.inj h]
  refine (sched_tags h₂ fun _ ↦ Sched.enterlist_tags).trans ((cancelDelay_tags h₁).trans ?_)
  rw [unlinkWaiting_eq]
  rfl

/-- `deliver`. -/
theorem deliver_tags (h : s.deliver n = .ok s') : s'.tags = s.tags := by
  rw [deliver] at h
  split at h
  · split at h
    · obtain ⟨p, -, h⟩ := Exec.bind_eq_ok.mp h
      rw [← Except.ok.inj h]
      rfl
    · rw [← Except.ok.inj h]
      rfl
  · obtain ⟨t, -, h⟩ := Exec.bind_eq_ok.mp h
    exact (handInt_tags h).trans rfl

/-- A list operation behind a test of what the scan has found. -/
theorem schedIf_tags {p : ThreadPtr} {f : Sched → Exec Sched} (h : s.schedIf p t f = .ok s')
    (hf : ∀ c, f s.toSched = .ok c → c.tags = s.tags) : s'.tags = s.tags := by
  rw [schedIf] at h
  split at h
  · exact sched_tags h hf
  · rw [← Except.ok.inj h]

private theorem setStatus_tag {v : BitVec 8} {b : Bool} (hv : (v &&& suspended != 0) = b) :
    (s.setStatus t v).tags = (Function.update s.isSuspended t b, s.priority) := by
  refine Prod.ext (funext fun u ↦ ?_) rfl
  by_cases hu : u = t
  · subst hu
    simp only [Sched.tags, Sched.isSuspended, setStatus, Function.update_self, hv]
  · simp only [Sched.tags, Sched.isSuspended, setStatus, Function.update_of_ne hu]

/-- `reqsusp` sets the bit of its task. -/
theorem reqsusp_tags (h : s.reqsusp n t = .ok s') : s'.tags =
    (if t = idleTask then s.isSuspended else Function.update s.isSuspended t true,
      s.priority) := by
  rw [reqsusp] at h
  split at h
  · rename_i ht
    obtain ⟨p, -, h⟩ := Exec.bind_eq_ok.mp h
    obtain ⟨s₁, h₁, h⟩ := Exec.bind_eq_ok.mp h
    have htags := schedIf_tags h₁ fun _ ↦ Sched.removelist_tags
    rw [if_neg ht, schedIf_tags h fun _ ↦ Sched.enterlist_tags,
      setStatus_tag (bne_iff_ne.mpr (other_bits _).2.2.2.2.2.2.1), (Prod.mk.inj htags).1,
      (Prod.mk.inj htags).2]
  · rename_i ht
    rw [if_pos (not_not.mp ht), ← Except.ok.inj h]
    rfl

/-- `reqresm` clears the bit of its task. -/
theorem reqresm_tags (h : s.reqresm n t = .ok s') :
    s'.tags = (Function.update s.isSuspended t false, s.priority) := by
  obtain ⟨p, -, h⟩ := Exec.bind_eq_ok.mp h
  obtain ⟨s₁, h₁, h⟩ := Exec.bind_eq_ok.mp h
  have htags := schedIf_tags h₁ fun _ ↦ Sched.removelist_tags
  rw [schedIf_tags h fun _ ↦ Sched.enterlist_tags,
    setStatus_tag (bne_eq_false_iff_eq.mpr (other_bits _).2.2.2.2.2.2.2), (Prod.mk.inj htags).1,
    (Prod.mk.inj htags).2]

/-- The end of `exit_region` clears the interrupt bit. -/
theorem close_tags (h : s.close = .ok s') : s'.tags = s.tags := by
  obtain ⟨s₁, h₁, h⟩ := Exec.bind_eq_ok.mp h
  have hs₁ : s₁.tags = s.tags := by
    rw [switch] at h₁
    split at h₁
    · obtain ⟨t, -, h₁⟩ := Exec.bind_eq_ok.mp h₁
      rw [← Except.ok.inj h₁]
    · rw [← Except.ok.inj h₁]
  rw [← hs₁, ← Except.ok.inj h]
  dsimp only
  split
  · rfl
  · exact setStatus_tags (other_bits _).2.2.2.2.2.1

/-- An interrupt does not look at the status bytes. -/
theorem signal_tags : (s.signal e).tags = s.tags := by
  rw [signal]
  split <;> rfl

/-- `exit_region` sets the interrupt bit. -/
theorem exitRegion_tags {b : Bool} (h : s.exitRegion b = .ok s') :
    s'.tags = s.tags := by
  rw [exitRegion] at h
  split at h
  · split at h
    · cases h
    · rw [← Except.ok.inj h]
  · rw [← Except.ok.inj h]
    dsimp only
    split
    · exact setStatus_tags (other_bits _).2.2.2.2.1
    · rfl

/-- The next line of a handler. -/
theorem irqStep_tags {i : Nat} (h : s.irqStep i = .ok s') : s'.tags = s.tags := by
  rw [irqStep] at h
  split at h
  · cases h
  · rw [← Except.ok.inj h]
  · rw [← Except.ok.inj h]
    exact signal_tags
  · exact (exitRegion_tags h).trans rfl

/-- A timer interrupt. -/
theorem timerHandler_tags (h : s.timerHandler = .ok s') : s'.tags = s.tags := by
  obtain ⟨⟨s₁, due⟩, h₁, h⟩ := Exec.bind_eq_ok.mp h
  have hs₁ : s₁.tags = s.tags := by
    obtain ⟨p, -, h₁⟩ := Exec.bind_eq_ok.mp h₁
    split at h₁
    · rw [← (Prod.mk.inj (Except.ok.inj h₁)).1]
    split at h₁ <;> rw [← (Prod.mk.inj (Except.ok.inj h₁)).1]
  rw [← hs₁, ← Except.ok.inj h]
  split <;> split <;> rfl

/-- A line of the main program changes the suspended bits as its call does. -/
theorem mainStep_tags {l l' : MainLine} {f : Yalrt → Exec Yalrt}
    {x : (TaskId → Bool) × (TaskId → BitVec 8)} (h : s.mainStep l l' f = .ok s')
    (hf : ∀ s₁, f s = .ok s₁ → s₁.tags = x) : s'.tags = x := by
  obtain ⟨-, -, s₁, h₁, rfl⟩ := mainStep_ok h
  exact Eq.trans rfl (hf s₁ h₁)

/-- The suspended bits after a step. -/
def marksAfter (s : Yalrt) : YalrtOp → TaskId → Bool
  | .reqsusp t => if t = idleTask then s.isSuspended else Function.update s.isSuspended t true
  | .reqresm t => Function.update s.isSuspended t false
  | _ => s.isSuspended

/-- Only `reqsusp` and `reqresm` change a suspended bit, and no step changes a priority. -/
theorem Step.tags (h : Step s o s') : s'.tags = (s.marksAfter o, s.priority) := by
  obtain ⟨n, h⟩ := h
  rw [Yalrt.step.eq_def] at h
  cases o with
  | enterRegion => exact mainStep_tags h fun _ h₁ ↦ by rw [← Except.ok.inj h₁]; rfl
  | reqsend e m => exact mainStep_tags h fun _ ↦ reqsend_tags
  | reqacpt e => exact mainStep_tags h fun _ h₁ ↦ by rw [reqacpt_frame h₁]; rfl
  | reqwait e d => exact mainStep_tags h fun _ ↦ reqwait_tags
  | reqsusp t => exact mainStep_tags h fun _ ↦ reqsusp_tags
  | reqresm t => exact mainStep_tags h fun _ ↦ reqresm_tags
  | expire =>
    obtain ⟨-, h⟩ := require_bind_eq_ok.mp h
    exact mainStep_tags h fun _ ↦ expire_tags
  | expired =>
    obtain ⟨-, h⟩ := require_bind_eq_ok.mp h
    apply mainStep_tags h
    intro _ h₁
    obtain ⟨-, h₁⟩ := require_bind_eq_ok.mp h₁
    rw [← Except.ok.inj h₁]
    rfl
  | exitRegion =>
    obtain ⟨s₁, h₁, h⟩ := Exec.bind_eq_ok.mp h
    refine (exitRegion_tags h).trans (mainStep_tags h₁ fun _ h₂ ↦ ?_)
    rw [← Except.ok.inj h₂]
    rfl
  | pop =>
    apply mainStep_tags h
    intro _ h₁
    rw [pop] at h₁
    split at h₁
    · cases h₁
    · rw [← Except.ok.inj h₁]
      rfl
  | fetch =>
    apply mainStep_tags h
    intro _ h₁
    rw [← Except.ok.inj h₁]
    rfl
  | deliver => exact mainStep_tags h fun _ ↦ deliver_tags
  | drained =>
    apply mainStep_tags h
    intro _ h₁
    obtain ⟨-, h₁⟩ := require_bind_eq_ok.mp h₁
    rw [← Except.ok.inj h₁]
    rfl
  | close => exact mainStep_tags h fun _ ↦ close_tags
  | reqisnd e =>
    rw [← Except.ok.inj h]
    exact signal_tags
  | reqssnd e =>
    rw [← Except.ok.inj h]
    rfl
  | timer => exact timerHandler_tags h
  | irq i => exact irqStep_tags h

end Yalrt

end YRmx
