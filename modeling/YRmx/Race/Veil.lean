import YRmx.Race.Withdrawal

/-!
# The calls as if nobody had been suspended or deleted

Library `YRmx`. The calls on exchanges use the bits of a status byte that tell of a wait, and the
semaphores of the tasks that wait at an exchange. A state is veiled when everything else is blotted
out of the status bytes and the semaphores; a line that is taken in a state is taken in the veiled
state as well.
-/

namespace YRmx

open Transition

/-- Only what tells of a wait is left in the status bytes, and the semaphores of these tasks are
taken to be zero. -/
def Control.veil (c : Control) (Z : TaskId → Bool) : Control :=
  { c with
    status := fun t ↦ c.status t &&& waitBits
    sema := fun t ↦ if Z t then 0 else c.sema t }

/-- A veiled state. -/
abbrev Nucleus.veil (s : Nucleus) (Z : TaskId → Bool) : Nucleus := s.ctl (·.veil Z)

variable {s s' : Nucleus} {c : Control} {Z : TaskId → Bool} {t u : TaskId} {e : ExchId} {m : MsgId}
  {d : BitVec 16} {n : Nat} {k : BitVec 8}

namespace Control

/-- A status byte that is written. -/
theorem veil_setStatus (c : Control) (Z : TaskId → Bool) (t : TaskId) (k : BitVec 8) :
    (c.setStatus t k).veil Z = (c.veil Z).setStatus t (k &&& waitBits) := by
  have hs : (fun u ↦ Function.update c.status t k u &&& waitBits) =
      Function.update (fun u ↦ c.status u &&& waitBits) t (k &&& waitBits) := by
    ext u
    by_cases hu : u = t
    · subst hu
      simp
    · simp [hu]
  simp only [veil, setStatus, hs]

/-- A status byte in which bits are cleared. -/
theorem veil_clear (c : Control) (Z : TaskId → Bool) (t : TaskId) (k : BitVec 8) :
    (c.setStatus t (c.status t &&& ~~~k)).veil Z =
      (c.veil Z).setStatus t ((c.veil Z).status t &&& ~~~k) := by
  rw [veil_setStatus]
  congr 1
  show c.status t &&& ~~~k &&& waitBits = c.status t &&& waitBits &&& ~~~k
  rw [BitVec.and_assoc, BitVec.and_comm (~~~k), ← BitVec.and_assoc]

/-- A semaphore that is posted is in sight. -/
theorem veil_semPost (c : Control) (hz : Z t = false) :
    (c.semPost t).veil Z = (c.veil Z).semPost t := by
  have hs : (fun u ↦ if Z u then 0 else Function.update c.sema t (c.sema t + 1) u) =
      Function.update (fun u ↦ if Z u then 0 else c.sema u) t
        ((if Z t then 0 else c.sema t) + 1) := by
    ext u
    by_cases hu : u = t
    · subst hu
      simp [hz]
    · simp [hu]
  simp only [veil, semPost, hs]

/-- A semaphore that is taken is in sight. -/
theorem veil_semTake (c : Control) (hz : Z t = false) :
    (c.semTake t).veil Z = (c.veil Z).semTake t := by
  have hs : (fun u ↦ if Z u then 0 else Function.update c.sema t (c.sema t - 1) u) =
      Function.update (fun u ↦ if Z u then 0 else c.sema u) t
        ((if Z t then 0 else c.sema t) - 1) := by
    ext u
    by_cases hu : u = t
    · subst hu
      simp [hz]
    · simp [hu]
  simp only [veil, semTake, hs]

/-- A bit that tells of a wait is in sight. -/
theorem veil_status_and (c : Control) (Z : TaskId → Bool) (t : TaskId) (hk : waitBits &&& k = k) :
    (c.veil Z).status t &&& k = c.status t &&& k := by
  show c.status t &&& waitBits &&& k = _
  rw [BitVec.and_assoc, hk]

/-- How `reqfreeze` goes on does not depend on what is veiled. -/
theorem veil_reqfreeze (c : Control) (Z : TaskId → Bool) (t : TaskId) (k : Call) :
    (c.reqfreeze t k).veil Z = (c.veil Z).reqfreeze t k := by
  unfold reqfreeze
  by_cases hf : c.rqfrozen
  · rw [if_pos hf, if_pos (show (c.veil Z).rqfrozen = true from hf)]
    rfl
  · rw [if_neg hf, if_neg (show ¬ (c.veil Z).rqfrozen = true from hf)]
    by_cases ht : t ≠ rootTaskTd
    · simp only [if_pos ht]
      rfl
    · simp only [if_neg ht]
      rfl

/-- How `reqwait` ends does not depend on what is veiled. -/
theorem veil_waitDone (c : Control) (Z : TaskId → Bool) (t : TaskId) (e : ExchId) (d : BitVec 16) :
    (c.waitDone t e d).veil Z = (c.veil Z).waitDone t e d := by
  unfold waitDone
  by_cases hm : c.message t = .null
  · rw [if_pos hm, if_pos (show (c.veil Z).message t = .null from hm), veil_reqfreeze]
  · rw [if_neg hm, if_neg (show ¬ (c.veil Z).message t = .null from hm)]
    rfl

end Control

/-! ### The parts of a call -/

private theorem map_bind {α : Type} {x : Exec α} {f : α → Exec Nucleus} {f' : α → Exec Nucleus}
    (hf : ∀ a s', f a = .ok s' → f' a = .ok (s'.veil Z)) (h : (x >>= f) = .ok s') :
    (x >>= f') = .ok (s'.veil Z) := by
  obtain ⟨a, ha, h⟩ := Exec.bind_eq_ok.mp h
  exact Exec.bind_eq_ok.mpr ⟨a, ha, hf a s' h⟩

/-- A message is stored. -/
theorem appendMessage_veil (h : appendMessage s e m = .ok s') :
    appendMessage (s.veil Z) e m = .ok (s'.veil Z) :=
  map_bind (fun a s' h ↦ by cases h; rfl) h

/-- A message is fetched. -/
theorem reqdqmsg_veil (h : reqdqmsg s e t = .ok s') :
    reqdqmsg (s.veil Z) e t = .ok (s'.veil Z) := by
  unfold reqdqmsg at h ⊢
  split at h
  · rename_i hc
    cases h
    rw [if_pos hc]
    rfl
  · rename_i hc
    rw [if_neg hc]
    refine map_bind (fun a s' h ↦ ?_) h
    cases h
    apply congrArg Except.ok
    have hx : dequeuesInt ((s.veil Z).ctl (·.setMessage t (s.messageHead e))) e a ↔
        dequeuesInt (s.ctl (·.setMessage t (s.messageHead e))) e a := .rfl
    by_cases hd : dequeuesInt (s.ctl (·.setMessage t (s.messageHead e))) e a <;>
      by_cases hl : Function.update s.word0 (.exch e) (s.word0 a) a = .null <;>
      simp only [hx, hd, hl, decide_true, decide_false, if_true, if_false,
        Bool.false_eq_true] <;> rfl

private theorem bind_map {α : Type} {x : Exec α} {f f' : α → Exec Nucleus}
    (hf : ∀ a, f' a = (f a).map (·.veil Z)) : (x >>= f') = (x >>= f).map (·.veil Z) := by
  cases x with
  | ok a => exact hf a
  | error a => rfl

/-- Taking a task off the delay list does not depend on what is veiled. -/
theorem veil_cancelDelayUnsafe (s : Nucleus) (Z : TaskId → Bool) (t : TaskId) :
    cancelDelayUnsafe (s.veil Z) t = (cancelDelayUnsafe s t).map (·.veil Z) := by
  refine bind_map fun a ↦ bind_map fun b ↦ congrArg Except.ok ?_
  have hc := Control.veil_clear s.toControl Z t delayed
  simp only [Nucleus.mk.injEq, and_true]
  exact hc.symm

/-- A task is taken off the delay list. -/
theorem cancelDelayUnsafe_veil (h : cancelDelayUnsafe s t = .ok s') :
    cancelDelayUnsafe (s.veil Z) t = .ok (s'.veil Z) := by
  rw [veil_cancelDelayUnsafe, h]
  rfl

/-- The loop of the insertion does not depend on what is veiled. -/
theorem insertLoop_veil {p q : Addr} {v : BitVec 16} (h : insertLoop t n s p = .ok (s', q, v)) :
    insertLoop t n (s.veil Z) p = .ok (s'.veil Z, q, v) := by
  induction n generalizing s p with
  | zero => cases h
  | succ n ih =>
    obtain ⟨a, ha, h⟩ := Exec.bind_eq_ok.mp h
    refine Exec.bind_eq_ok.mpr ⟨a, ha, ?_⟩
    dsimp only at h ⊢
    split at h
    · rename_i hc
      rw [if_pos hc]
      exact ih h
    · rename_i hc
      cases h
      rw [if_neg hc]

/-- The delay part of `reqwait`. -/
theorem startDelay_veil (h : startDelay n s t d = .ok s') :
    startDelay n (s.veil Z) t d = .ok (s'.veil Z) := by
  have hw : ∀ k, k &&& waitBits = k → (s.setStatus t k).veil Z = (s.veil Z).setStatus t k :=
    fun k hk ↦ (Control.veil_setStatus _ Z t k).trans (by rw [hk])
  unfold startDelay at h ⊢
  by_cases hd : d ≠ 0
  · rw [if_pos hd] at h ⊢
    obtain ⟨⟨s₁, p, v⟩, h₁, h⟩ := Exec.bind_eq_ok.mp h
    have h₂ := insertLoop_veil (Z := Z) h₁
    rw [show ({ s.ctl (·.setStatus t delayed) with
        delay := Function.update s.delay (.task t) d } : Nucleus).veil Z =
        { (s.veil Z).ctl (·.setStatus t delayed) with
          delay := Function.update s.delay (.task t) d } from by
      simp only [Nucleus.mk.injEq, and_true]
      exact hw delayed (by decide)] at h₂
    refine Exec.bind_eq_ok.mpr ⟨_, h₂, map_bind (fun a s' h ↦ ?_) h⟩
    cases h
    rfl
  · rw [if_neg hd] at h ⊢
    cases h
    apply congrArg Except.ok
    simp only [Nucleus.mk.injEq, and_true]
    exact (hw waiting (by decide)).symm

/-- The timer counts down. -/
theorem countDown_veil {i : Bool} (h : countDown s = .ok (s', i)) :
    countDown (s.veil Z) = .ok (s'.veil Z, i) := by
  obtain ⟨p, hp, h⟩ := Exec.bind_eq_ok.mp h
  refine Exec.bind_eq_ok.mpr ⟨p, hp, ?_⟩
  split at h
  · rename_i h1
    rw [if_pos h1]
    split at h
    · rename_i h2
      cases h
      exact if_pos h2
    · rename_i h2
      cases h
      exact if_neg h2
  · rename_i h1
    cases h
    exact if_neg h1

/-- The search for a task. -/
theorem findLink_veil (x : Addr) : findLink (s.veil Z) t n x = findLink s t n x := by
  induction n generalizing x with
  | zero => rfl
  | succ n ih =>
    apply bind_congr
    intro a
    show (if s.word2 a = .task t then _ else findLink (s.veil Z) t n (s.word2 a)) = _
    rw [ih]

/-- Taking a task out of its queue does not depend on what is veiled. -/
theorem veil_reqdqtsk (n : Nat) (s : Nucleus) (Z : TaskId → Bool) (t : TaskId) :
    reqdqtsk n (s.veil Z) t = (reqdqtsk n s t).map (·.veil Z) := by
  apply bind_map
  intro e
  by_cases hh : s.taskHead e = .null
  · exact (if_pos hh).trans (by rw [if_pos hh]; rfl)
  · apply (if_neg hh).trans
    rw [if_neg hh, findLink_veil]
    refine bind_map fun a ↦ congrArg Except.ok ?_
    unfold unlinkTask
    dsimp only
    split <;> rfl

/-- Taking a task that is deleted out of the lists does not depend on what is veiled. -/
theorem veil_dequeueDeleted (n : Nat) (s : Nucleus) (Z : TaskId → Bool) (t : TaskId) :
    dequeueDeleted n (s.veil Z) t = (dequeueDeleted n s t).map (·.veil Z) := by
  have hw : (s.veil Z).status t &&& (waiting ||| delayed) = s.status t &&& (waiting ||| delayed) :=
    s.veil_status_and Z t (by decide)
  have hd : ∀ s : Nucleus, (s.veil Z).status t &&& delayed = s.status t &&& delayed :=
    fun s ↦ s.veil_status_and Z t (by decide)
  unfold dequeueDeleted
  rw [hw]
  by_cases h1 : s.status t &&& (waiting ||| delayed) ≠ 0
  case neg =>
    rw [if_neg h1, if_neg h1]
    rfl
  rw [if_pos h1, if_pos h1]
  by_cases h2 : s.exchange t ≠ .null
  case neg => exact (if_neg h2).trans (by rw [if_neg h2]; rfl)
  apply (if_pos h2).trans
  rw [if_pos h2, veil_reqdqtsk]
  cases reqdqtsk n s t with
  | error a => rfl
  | ok s₁ =>
    show (if (s₁.veil Z).status t &&& delayed ≠ 0 then _ else _) =
      Except.map _ (if s₁.status t &&& delayed ≠ 0 then _ else _)
    rw [hd]
    split
    · exact veil_cancelDelayUnsafe s₁ Z t
    · rfl

/-- A task is taken out of the lists if it is so in the veiled state. -/
theorem dequeueDeleted_yields (h : Yields (fun n ↦ dequeueDeleted n (s.veil Z) t) s') :
    ∃ s₁, Yields (fun n ↦ dequeueDeleted n s t) s₁ ∧ s₁.veil Z = s' := by
  obtain ⟨N, hN⟩ := h
  have hn : dequeueDeleted N (s.veil Z) t = .ok s' := hN N le_rfl
  rw [veil_dequeueDeleted] at hn
  cases hs : dequeueDeleted N s t with
  | error a =>
    rw [hs] at hn
    cases hn
  | ok s₁ =>
    rw [hs] at hn
    exact ⟨s₁, (dequeueDeleted_mono s t).yields hs, Except.ok.inj hn⟩

/-! ### The lines -/

/-- A line of `reqsend`. The test of the status byte comes out the same way for a task whose status
byte is zero or tells that it is delayed. -/
theorem sendStep_veil {b : Bool} {l : SendLine} {p : Place}
    (h : sendStep b s t e m l = .ok (s', p)) (hz : ∀ u, l = .post u → Z u = false)
    (hu : ∀ u, l = .test u → s.status u = 0 ∨ s.status u &&& delayed ≠ 0) :
    sendStep b (s.veil Z) t e m l = .ok (s'.veil Z, p) := by
  have herr : (s.ctl (·.sendError t e)).veil Z = (s.veil Z).ctl (·.sendError t e) := by
    simp only [Nucleus.mk.injEq, and_true]
    exact Control.veil_reqfreeze _ Z t _
  cases l with
  | lock =>
    obtain ⟨hm, h⟩ := require_bind_eq_ok.mp h
    refine require_bind_eq_ok.mpr ⟨hm, ?_⟩
    split at h
    · rename_i ha
      cases h
      exact if_pos ha
    · rename_i ha
      cases h
      rw [herr]
      exact if_neg ha
  | tail =>
    simp only [sendStep] at h ⊢
    split at h
    · rename_i ha
      cases h
      rw [herr]
      exact if_pos ha
    · rename_i ha
      cases h
      exact if_neg ha
  | append =>
    obtain ⟨s₁, h₁, h⟩ := Exec.bind_eq_ok.mp h
    cases h
    exact Exec.bind_eq_ok.mpr ⟨_, appendMessage_veil h₁, rfl⟩
  | busy =>
    simp only [sendStep] at h ⊢
    split at h
    · rename_i ha
      cases h
      rw [herr]
      exact if_pos ha
    · rename_i ha
      obtain ⟨v, hv, h⟩ := Exec.bind_eq_ok.mp h
      cases h
      rw [if_neg ha]
      exact Exec.bind_eq_ok.mpr ⟨v, hv, rfl⟩
  | status v =>
    cases h
    refine congrArg Except.ok (Prod.ext ?_ rfl)
    simp only [Nucleus.mk.injEq, and_true]
    exact (Control.veil_clear s.toControl Z v waiting).symm
  | test v =>
    cases h
    refine congrArg Except.ok (Prod.ext rfl ?_)
    have hc : sendCancels (s.veil Z) v = sendCancels s v := by
      have hv := hu v rfl
      show logicalAnd (s.status v &&& waitBits) delayed = logicalAnd (s.status v) delayed
      rcases hv with hv | hv
      · rw [hv]
        rfl
      · have hne : s.status v ≠ 0 := fun h0 ↦ hv (by rw [h0]; rfl)
        have hne' : s.status v &&& waitBits ≠ 0 := fun h0 ↦ hv (by
          rw [← s.veil_status_and Z v (k := delayed) (by decide)]
          show s.status v &&& waitBits &&& delayed = 0
          rw [h0]
          rfl)
        rw [logicalAnd, logicalAnd, bne_iff_ne.mpr hne, bne_iff_ne.mpr hne']
    dsimp only
    rw [hc]
  | cancel v =>
    obtain ⟨hb, h⟩ := require_bind_eq_ok.mp h
    obtain ⟨s₁, h₁, h⟩ := Exec.bind_eq_ok.mp h
    cases h
    exact require_bind_eq_ok.mpr ⟨hb, Exec.bind_eq_ok.mpr ⟨_, cancelDelayUnsafe_veil h₁, rfl⟩⟩
  | post v =>
    cases h
    refine congrArg Except.ok (Prod.ext ?_ rfl)
    simp only [Nucleus.mk.injEq, and_true]
    exact (Control.veil_semPost s.toControl (hz v rfl)).symm
  | head | readLink | setHead | setTail | give | unlock =>
    cases h
    rfl

/-- A line of `reqwait` up to `sem_wait`. -/
theorem lineStep_veil {k : Caller} {l l' : Line} (h : lineStep n s k l = .ok (s', l')) :
    lineStep n (s.veil Z) k l = .ok (s'.veil Z, l') := by
  cases l with
  | lock =>
    obtain ⟨hm, h⟩ := require_bind_eq_ok.mp h
    cases h
    exact require_bind_eq_ok.mpr ⟨hm, rfl⟩
  | writeLink =>
    obtain ⟨p, hp, h⟩ := Exec.bind_eq_ok.mp h
    cases h
    exact Exec.bind_eq_ok.mpr ⟨p, hp, rfl⟩
  | check =>
    simp only [lineStep] at h ⊢
    split at h <;> cases h
    rename_i hl
    exact if_neg hl
  | delay =>
    obtain ⟨s₁, h₁, h⟩ := Exec.bind_eq_ok.mp h
    cases h
    exact Exec.bind_eq_ok.mpr ⟨_, startDelay_veil h₁, rfl⟩
  | fetch =>
    obtain ⟨s₁, h₁, h⟩ := Exec.bind_eq_ok.mp h
    cases h
    exact Exec.bind_eq_ok.mpr ⟨_, reqdqmsg_veil h₁, rfl⟩
  | release =>
    cases h
    refine congrArg Except.ok (Prod.ext ?_ rfl)
    simp only [Nucleus.mk.injEq, and_true]
    exact (Control.veil_waitDone { s.toControl with
      mutex := Function.update s.mutex k.exch false } Z _ _ _).symm
  | done => cases h
  | enter | clear | test | setHead | readTail | setTail | unlock =>
    cases h
    rfl

/-- A line of a thread. -/
theorem placeStep_veil {b : Bool} {p p' : Place} (h : placeStep n b s t p = .ok (s', p'))
    (hs : ∀ e d, p = .asleep e d → Z t = false)
    (hz : ∀ e m u, p = .send e m (.post u) → Z u = false)
    (hu : ∀ e m u, p = .send e m (.test u) → s.status u = 0 ∨ s.status u &&& delayed ≠ 0) :
    placeStep n b (s.veil Z) t p = .ok (s'.veil Z, p') := by
  cases p with
  | out => cases h
  | send e m l =>
    exact sendStep_veil h (fun u hl ↦ hz e m u (by rw [hl])) fun u hl ↦ hu e m u (by rw [hl])
  | acpt e l =>
    cases l with
    | lock =>
      obtain ⟨hm, h⟩ := require_bind_eq_ok.mp h
      cases h
      exact require_bind_eq_ok.mpr ⟨hm, rfl⟩
    | fetch =>
      obtain ⟨s₁, h₁, h⟩ := Exec.bind_eq_ok.mp h
      cases h
      exact Exec.bind_eq_ok.mpr ⟨_, reqdqmsg_veil h₁, rfl⟩
    | enter | release =>
      cases h
      rfl
  | wait e d l =>
    obtain ⟨hm, h⟩ := require_bind_eq_ok.mp h
    obtain ⟨⟨s₁, l₁⟩, h₁, h⟩ := Exec.bind_eq_ok.mp h
    cases h
    exact require_bind_eq_ok.mpr ⟨hm, Exec.bind_eq_ok.mpr ⟨_, lineStep_veil h₁, rfl⟩⟩
  | asleep e d =>
    obtain ⟨hm, h⟩ := require_bind_eq_ok.mp h
    cases h
    have hz := hs e d rfl
    refine require_bind_eq_ok.mpr ⟨?_, congrArg Except.ok (Prod.ext ?_ rfl)⟩
    · show 0 < if Z t then 0 else s.sema t
      rwa [hz]
    · simp only [Nucleus.mk.injEq, and_true]
      exact (Control.veil_semTake s.toControl hz).symm
  | relock e d =>
    obtain ⟨hm, h⟩ := require_bind_eq_ok.mp h
    cases h
    exact require_bind_eq_ok.mpr ⟨hm, rfl⟩
  | wake e d =>
    simp only [placeStep] at h ⊢
    split at h <;> cases h
    rename_i hl
    refine (if_neg hl).trans (congrArg Except.ok (Prod.ext ?_ rfl))
    simp only [Nucleus.mk.injEq, and_true]
    exact (Control.veil_setStatus s.toControl Z t 0).symm
  | leave e d =>
    cases h
    refine congrArg Except.ok (Prod.ext ?_ rfl)
    simp only [Nucleus.mk.injEq, and_true]
    exact (Control.veil_waitDone { s.toControl with
      mutex := Function.update s.mutex e false } Z _ _ _).symm

/-- A line of the delay task. -/
theorem expiryStep_veil {l l' : ExpiryLine} (h : expiryStep s l = .ok (s', l'))
    (hz : ∀ u, l = .post u → Z u = false) : expiryStep (s.veil Z) l = .ok (s'.veil Z, l') := by
  cases l with
  | idle =>
    obtain ⟨hm, h⟩ := require_bind_eq_ok.mp h
    cases h
    exact require_bind_eq_ok.mpr ⟨hm, rfl⟩
  | first =>
    obtain ⟨p, hp, h⟩ := Exec.bind_eq_ok.mp h
    refine Exec.bind_eq_ok.mpr ⟨p, hp, ?_⟩
    split at h
    · rename_i hd
      apply (if_pos hd).trans
      obtain ⟨v, hv, h⟩ := Exec.bind_eq_ok.mp h
      obtain ⟨e, he, h⟩ := Exec.bind_eq_ok.mp h
      cases h
      exact Exec.bind_eq_ok.mpr ⟨v, hv, Exec.bind_eq_ok.mpr ⟨e, he, rfl⟩⟩
    · rename_i hd
      cases h
      exact if_neg hd
  | search v e a =>
    obtain ⟨p, hp, h⟩ := Exec.bind_eq_ok.mp h
    refine Exec.bind_eq_ok.mpr ⟨p, hp, ?_⟩
    split at h
    · rename_i hd
      cases h
      exact if_pos hd
    · rename_i hd
      cases h
      exact if_neg hd
  | cancel v =>
    obtain ⟨s₁, h₁, h⟩ := Exec.bind_eq_ok.mp h
    cases h
    exact Exec.bind_eq_ok.mpr ⟨_, cancelDelayUnsafe_veil h₁, rfl⟩
  | post v =>
    cases h
    refine congrArg Except.ok (Prod.ext ?_ rfl)
    simp only [Nucleus.mk.injEq, and_true]
    exact (Control.veil_semPost s.toControl (hz v rfl)).symm
  | readLink | writeLink | setTail | message =>
    cases h
    rfl

end YRmx
