import YRmx.Race.Turns

/-!
# Calls on other tasks, between the lines

Library `YRmx`. `reqsusp`, `reqresm` and `reqdtsk` look at another task's descriptor without a
mutex of an exchange, so they come in between any two lines of the calls that the other task is in
(`ycore.c:806–847,900–949`). Each of them is one step, and so is each `sem_wait` that returns. A
cancellation takes effect in a `sem_wait`, or outside of the calls on exchanges. `reqctsk` and
`reqdxch` touch no queue; what counts here is that they end in `exit_region`.
-/

namespace YRmx

open Transition

/-- What happens next among the calls on exchanges and the calls on tasks. -/
inductive Event where
  /-- a line of a call on an exchange, of the delay task or of the timer -/
  | turn (i : Turn)
  /-- `reqctsk` comes to `exit_region`, `ycore.c:751` -/
  | reqctsk (t : TaskId)
  /-- `reqdxch` comes to `exit_region`, `ycore.c:880` -/
  | reqdxch (t : TaskId) (e : ExchId)
  | reqsusp (t u : TaskId)
  /-- the `sem_wait` of `reqsusp` returns -/
  | suspWake (t : TaskId)
  /-- the `sem_wait` of `exit_region` returns -/
  | heldWake (t : TaskId)
  | reqresm (t u : TaskId)
  | reqdtsk (t u : TaskId)
  /-- a requested cancellation takes effect -/
  | cancelled (t : TaskId)
  deriving DecidableEq, Repr

/-- The thread is in no call on an exchange, or sleeps in one. -/
def Place.Yields : Place → Prop
  | .out | .asleep .. => True
  | _ => False

instance (p : Place) : Decidable p.Yields := by
  cases p <;> first | exact .isTrue trivial | exact .isFalse not_false

namespace Traffic

/-- A change of the control part. -/
abbrev ctl (x : Traffic) (f : Control → Control) : Traffic := { x with s := x.s.ctl f }

/-- The thread that is to go on has not ended. -/
def Lives (x : Traffic) : Turn → Prop
  | .line t => x.s.pc t ≠ .dead
  | _ => True

instance (x : Traffic) (i : Turn) : Decidable (x.Lives i) :=
  match i with
  | .line _ => inferInstanceAs (Decidable (_ ≠ _))
  | .send .. | .isnd .. | .acpt .. | .wait .. | .expiry | .tick | .other _ => .isTrue trivial

/-- One event. `reqdtsk` locks `delay_list_mutex` for a task that is `delayed`. -/
def react (fuel : Nat) (x : Traffic) : Event → Exec Traffic
  | .turn i => do
    require (x.Lives i)
    x.next fuel i
  | .reqctsk t => do
    require (x.Calls t)
    .ok (x.ctl (·.goto t (.exitRegion .reqctsk)))
  | .reqdxch t e => do
    require (x.Calls t)
    .ok (x.ctl (·.goto t (.exitRegion (.reqdxch e))))
  | .reqsusp t u => do
    require (x.Calls t)
    .ok (x.ctl (·.reqsusp t u))
  | .suspWake t => do
    require (x.place t = .out ∧ x.s.pc t = .suspWait ∧ 0 < x.s.sema t)
    .ok (x.ctl (·.reqsuspResume t))
  | .heldWake t => do
    require (x.place t = .out)
    let s ← heldAt x.s t (x.s.pc t)
    .ok { x with s := s }
  | .reqresm t u => do
    require (x.Calls t)
    .ok (x.ctl (·.reqresm u))
  | .reqdtsk t u => do
    require (x.Calls t)
    require (x.s.status u &&& delayed ≠ 0 → x.free = true)
    let s ← reqdtsk fuel x.s t u
    .ok { x with s := s }
  | .cancelled t => do
    require (x.s.cancel t = true ∧ x.s.pc t ≠ .dead ∧ (x.place t).Yields ∧
      (t = rqdelaytaskTd → x.expiry = .idle))
    .ok (x.ctl (·.goto t .dead))

/-- An event takes place. -/
def Reacts (x : Traffic) (v : Event) (x' : Traffic) : Prop := ∃ fuel, x.react fuel v = .ok x'

/-- The calls on exchanges and on tasks as they interleave, with the states that they went
through. -/
abbrev Course := Trace Reacts

end Traffic

/-! ### What the parts of a call do to the control part -/

variable {s s' : Nucleus} {c c' c'' : Control} {t u : TaskId} {e : ExchId} {m : MsgId} {n : Nat}
  {w : Prop}

/-- Storing a message changes links only. -/
theorem appendMessage_control (h : appendMessage s e m = .ok s') : s'.toControl = s.toControl := by
  obtain ⟨p, -, h⟩ := Exec.bind_eq_ok.mp h
  cases h
  rfl

/-- `cancel_delay` clears the `delayed` bit. -/
theorem cancelDelayUnsafe_control (h : cancelDelayUnsafe s t = .ok s') :
    s'.toControl = s.setStatus t (s.status t &&& ~~~delayed) := by
  obtain ⟨p, -, h⟩ := Exec.bind_eq_ok.mp h
  obtain ⟨q, -, h⟩ := Exec.bind_eq_ok.mp h
  cases h
  rfl

/-- The caller of `reqdqmsg` is told what it found. -/
theorem reqdqmsg_control (h : reqdqmsg s e t = .ok s') :
    ∃ p, s'.toControl = s.setMessage t p := by
  unfold reqdqmsg at h
  split at h
  · cases h
    exact ⟨_, rfl⟩
  · obtain ⟨p, -, h⟩ := Exec.bind_eq_ok.mp h
    simp only [Except.ok.injEq] at h
    subst h
    refine ⟨s.messageHead e, ?_⟩
    split <;> split <;> rfl

/-- The loop of the insertion changes delay fields only. -/
theorem insertLoop_control {p q : Addr} {v : BitVec 16}
    (h : insertLoop t n s p = .ok (s', q, v)) : s'.toControl = s.toControl := by
  induction n generalizing s p with
  | zero => cases h
  | succ n ih =>
    obtain ⟨a, -, h⟩ := Exec.bind_eq_ok.mp h
    dsimp only at h
    split at h
    · have hc := ih h
      exact hc
    · cases h
      rfl

/-- The delay part of `reqwait` overwrites the status byte. -/
theorem startDelay_control {d : BitVec 16} (h : startDelay n s t d = .ok s') :
    s'.toControl = s.setStatus t (if d ≠ 0 then delayed else waiting) := by
  unfold startDelay at h
  split at h
  · rename_i hd
    obtain ⟨⟨s₁, p, v⟩, h₁, h⟩ := Exec.bind_eq_ok.mp h
    obtain ⟨q, -, h⟩ := Exec.bind_eq_ok.mp h
    cases h
    rw [if_pos hd]
    exact insertLoop_control h₁
  · rename_i hd
    cases h
    rw [if_neg hd]

/-- The timer counts in delay fields only. -/
theorem countDown_control {i : Bool} (h : countDown s = .ok (s', i)) :
    s'.toControl = s.toControl := by
  obtain ⟨p, -, h⟩ := Exec.bind_eq_ok.mp h
  split at h
  · split at h <;> cases h <;> rfl
  · cases h
    rfl

/-- A task that is deleted while it waits loses its `delayed` bit at most. -/
theorem dequeueDeleted_control (h : dequeueDeleted n s u = .ok s') :
    s'.toControl = s.toControl ∨ s'.toControl = s.setStatus u (s.status u &&& ~~~delayed) := by
  have hq : ∀ {s₁}, reqdqtsk n s u = .ok s₁ → s₁.toControl = s.toControl := by
    intro s₁ h₁
    obtain ⟨e, -, h₁⟩ := Exec.bind_eq_ok.mp h₁
    split at h₁
    · cases h₁
    · obtain ⟨p, -, h₁⟩ := Exec.bind_eq_ok.mp h₁
      cases h₁
      rw [unlinkTask]
      dsimp only
      split <;> rfl
  unfold dequeueDeleted at h
  split at h
  · split at h
    · obtain ⟨s₁, h₁, h⟩ := Exec.bind_eq_ok.mp h
      split at h
      · right
        rw [cancelDelayUnsafe_control h, hq h₁]
      · cases h
        exact .inl (hq h₁)
    · cases h
      exact .inl rfl
  · cases h
    exact .inl rfl

/-! ### Status bytes and the test of `exit_region` -/

/-- The bits of a status byte that tell of a wait. -/
abbrev waitBits : BitVec 8 := waiting ||| delayed

private theorem nothing_cleared {a b : BitVec 8} (h : a = b) :
    ∃ k, k &&& ~~~waitBits = 0 ∧ a = b &&& ~~~k := by
  refine ⟨0, by decide, h.trans ?_⟩
  exact BitVec.and_allOnes.symm

/-- In a task's status byte a bit that tells of a wait is cleared at most, unless `w`, and the task
was not let past the test of `exit_region`. -/
structure Control.Spares (w : Prop) (c c' : Control) (u : TaskId) : Prop where
  status : ¬ w → ∃ b, b &&& ~~~waitBits = 0 ∧ c'.status u = c.status u &&& ~~~b
  pc : c'.pc u = c.pc u ∨ ∀ k, c'.pc u ≠ .thaw k ∧ c'.pc u ≠ .held k

namespace Control.Spares

/-- A bit that tells of no wait is as it was. -/
theorem bit {k : BitVec 8} (h : Spares w c c' u) (hw : ¬ w) (hk : k &&& waitBits = 0) :
    c'.status u &&& k = c.status u &&& k := by
  obtain ⟨b, hb, hs⟩ := h.status hw
  rw [hs]
  ext i hi
  have hbi := congrArg (·.getLsbD i) hb
  have hki := congrArg (·.getLsbD i) hk
  simp only [BitVec.getLsbD_eq_getElem, hi, BitVec.getElem_and, BitVec.getElem_not] at hbi hki ⊢
  grind

/-- A bit that is clear is not set. -/
theorem clear {k : BitVec 8} (h : Spares w c c' u) (hw : ¬ w) (hk : c.status u &&& k = 0) :
    c'.status u &&& k = 0 := by
  obtain ⟨b, -, hs⟩ := h.status hw
  rw [hs, BitVec.and_assoc, BitVec.and_comm (~~~b), ← BitVec.and_assoc, hk]
  exact BitVec.zero_and

/-- Nothing has changed for the task. -/
theorem same (hs : c'.status u = c.status u) (hp : c'.pc u = c.pc u) : Spares w c c' u :=
  ⟨fun _ ↦ nothing_cleared hs, .inl hp⟩

/-- One change after another. -/
theorem trans (c' : Control) (h : Spares w c c' u) (h' : Spares w c' c'' u) : Spares w c c'' u where
  status hw := by
    obtain ⟨a, ha, hs⟩ := h.status hw
    obtain ⟨b, hb, hs'⟩ := h'.status hw
    refine ⟨a ||| b, ?_, ?_⟩
    · ext i hi
      have hai := congrArg (·.getLsbD i) ha
      have hbi := congrArg (·.getLsbD i) hb
      simp only [BitVec.getLsbD_eq_getElem, hi, BitVec.getElem_and, BitVec.getElem_not,
        BitVec.getElem_or] at hai hbi ⊢
      grind
    · rw [hs', hs, BitVec.not_or, BitVec.and_assoc]
  pc := by
    rcases h'.pc with hp | hp
    · rw [hp]
      exact h.pc
    · exact .inr hp

/-- A thread goes on to a point that is not behind the test of `exit_region`. -/
theorem goto {p : Pc} (hs : c'.status = c.status) (hc : c'.pc = Function.update c.pc t p)
    (hp : ∀ k, p ≠ .thaw k ∧ p ≠ .held k) : Spares w c c' u := by
  refine ⟨fun _ ↦ nothing_cleared (congrFun hs u), ?_⟩
  rw [hc]
  by_cases hu : u = t
  · subst hu
    exact .inr (by simpa using hp)
  · exact .inl (Function.update_of_ne hu _ _)

/-- A status byte is written. -/
theorem setStatus {st : BitVec 8}
    (h : ¬ w → u = t → ∃ b, b &&& ~~~waitBits = 0 ∧ st = c.status t &&& ~~~b) :
    Spares w c (c.setStatus t st) u := by
  refine ⟨fun hw ↦ ?_, .inl rfl⟩
  rw [Control.setStatus_status]
  by_cases hu : u = t
  · subst hu
    rw [Function.update_self]
    exact h hw rfl
  · exact nothing_cleared (Function.update_of_ne hu _ _)

/-- A frozen thread is not behind the test yet. -/
theorem reqfreeze {k : Call} : Spares w c (c.reqfreeze t k) u := by
  obtain ⟨p, z, h, hp⟩ := Board.reqfreeze_cases c t k
  rw [h]
  refine goto (p := p) rfl rfl fun k' ↦ ?_
  rcases hp with rfl | rfl
  · cases k <;> simp [Call.resume]
  · simp

/-- The end of `reqwait` leads to `exit_region`. -/
theorem waitDone {d : BitVec 16} : Spares w c (c.waitDone t e d) u := by
  unfold Control.waitDone
  split
  · exact reqfreeze
  · exact goto rfl rfl (by simp)

end Control.Spares

/-- At this line the task overwrites its own status byte, `ycore.c:1172,1190,1199`. -/
def Place.Wipes : Place → Prop
  | .wait _ _ .delay | .wake .. => True
  | _ => False

instance (p : Place) : Decidable p.Wipes :=
  match p with
  | .wait _ _ l => decidable_of_iff (l = .delay) (by cases l <;> simp [Place.Wipes])
  | .wake .. => .isTrue trivial
  | .out | .send .. | .acpt .. | .asleep .. | .relock .. | .leave .. => .isFalse not_false

/-- The thread is behind the suspension test of `exit_region`. -/
def Pc.Passed : Pc → Prop
  | .thaw _ => True
  | _ => False

instance (p : Pc) : Decidable p.Passed :=
  match p with
  | .thaw _ => .isTrue trivial
  | .user | .semWait .. | .suspWait | .freeze _ | .exitRegion _ | .held _ | .dead =>
    .isFalse not_false

/-- A line of `reqsend` spares everybody. -/
theorem sendStep_spares {b : Bool} {l : SendLine} {p' : Place}
    (h : sendStep b s t e m l = .ok (s', p')) : s.toControl.Spares w s'.toControl u := by
  have herr : s.toControl.Spares w (s.sendError t e) u :=
    .trans { s.toControl with mutex := Function.update s.mutex e true } (.same rfl rfl)
      .reqfreeze
  cases l with
  | lock =>
    obtain ⟨-, h⟩ := require_bind_eq_ok.mp h
    split at h <;> cases h
    · exact .same rfl rfl
    · exact herr
  | tail =>
    simp only [sendStep] at h
    split at h <;> cases h
    · exact herr
    · exact .same rfl rfl
  | append =>
    obtain ⟨s₁, h₁, h⟩ := Exec.bind_eq_ok.mp h
    cases h
    have hc := appendMessage_control h₁
    exact .same (congrFun (congrArg Control.status hc) u) (congrFun (congrArg Control.pc hc) u)
  | busy =>
    simp only [sendStep] at h
    split at h
    · cases h
      exact herr
    · obtain ⟨v, -, h⟩ := Exec.bind_eq_ok.mp h
      cases h
      exact .same rfl rfl
  | status v =>
    cases h
    exact .setStatus fun _ _ ↦ ⟨waiting, by decide, rfl⟩
  | cancel v =>
    obtain ⟨-, h⟩ := require_bind_eq_ok.mp h
    obtain ⟨s₁, h₁, h⟩ := Exec.bind_eq_ok.mp h
    cases h
    rw [cancelDelayUnsafe_control h₁]
    exact .setStatus fun _ _ ↦ ⟨delayed, by decide, rfl⟩
  | head | readLink | setHead | setTail | give | test | unlock | post =>
    cases h
    exact .same rfl rfl

/-- A line of `reqwait` up to `sem_wait` spares everybody, unless it is the one that overwrites the
caller's status byte. -/
theorem lineStep_spares {k : Caller} {l l' : Line} (h : lineStep n s k l = .ok (s', l'))
    (hw : u = k.task → l = .delay → w) : s.toControl.Spares w s'.toControl u := by
  cases l with
  | lock =>
    obtain ⟨-, h⟩ := require_bind_eq_ok.mp h
    cases h
    exact .same rfl rfl
  | writeLink =>
    obtain ⟨p, -, h⟩ := Exec.bind_eq_ok.mp h
    cases h
    exact .same rfl rfl
  | check =>
    simp only [lineStep] at h
    split at h <;> cases h
    exact .same rfl rfl
  | delay =>
    obtain ⟨s₁, h₁, h⟩ := Exec.bind_eq_ok.mp h
    cases h
    rw [startDelay_control h₁]
    exact .setStatus fun hn hu ↦ absurd (hw hu rfl) hn
  | unlock =>
    cases h
    exact .goto rfl rfl (by simp)
  | fetch =>
    obtain ⟨s₁, h₁, h⟩ := Exec.bind_eq_ok.mp h
    cases h
    obtain ⟨p, hp⟩ := reqdqmsg_control h₁
    rw [hp]
    exact .same rfl rfl
  | release =>
    cases h
    exact .trans { s.toControl with mutex := Function.update s.mutex k.exch false }
      (.same rfl rfl) .waitDone
  | done => cases h
  | enter | clear | test | setHead | readTail | setTail =>
    cases h
    exact .same rfl rfl

/-- A line of a thread spares everybody, unless it is one that overwrites its own status byte. -/
theorem placeStep_spares {b : Bool} {p p' : Place} (h : placeStep n b s t p = .ok (s', p')) :
    s.toControl.Spares (u = t ∧ p.Wipes) s'.toControl u := by
  cases p with
  | out => cases h
  | send e m l => exact sendStep_spares h
  | acpt e l =>
    cases l with
    | lock =>
      obtain ⟨-, h⟩ := require_bind_eq_ok.mp h
      cases h
      exact .same rfl rfl
    | enter =>
      cases h
      exact .same rfl rfl
    | fetch =>
      obtain ⟨s₁, h₁, h⟩ := Exec.bind_eq_ok.mp h
      cases h
      obtain ⟨p, hp⟩ := reqdqmsg_control h₁
      rw [hp]
      exact .same rfl rfl
    | release =>
      cases h
      exact .goto rfl rfl (by simp)
  | wait e d l =>
    obtain ⟨-, h⟩ := require_bind_eq_ok.mp h
    obtain ⟨⟨s₁, l'⟩, h₁, h⟩ := Exec.bind_eq_ok.mp h
    cases h
    exact lineStep_spares h₁ fun hu hl ↦ ⟨hu, hl ▸ trivial⟩
  | asleep e d =>
    obtain ⟨-, h⟩ := require_bind_eq_ok.mp h
    cases h
    exact .same rfl rfl
  | relock e d =>
    obtain ⟨-, h⟩ := require_bind_eq_ok.mp h
    cases h
    exact .same rfl rfl
  | wake e d =>
    simp only [placeStep] at h
    split at h <;> cases h
    exact .setStatus fun hn hu ↦ absurd ⟨hu, trivial⟩ hn
  | leave e d =>
    cases h
    exact .trans { s.toControl with mutex := Function.update s.mutex e false }
      (.same rfl rfl) .waitDone

/-- A line of the delay task spares everybody. -/
theorem expiryStep_spares {l l' : ExpiryLine} (h : expiryStep s l = .ok (s', l')) :
    s.toControl.Spares w s'.toControl u := by
  cases l with
  | idle =>
    obtain ⟨-, h⟩ := require_bind_eq_ok.mp h
    cases h
    exact .same rfl rfl
  | first =>
    obtain ⟨p, -, h⟩ := Exec.bind_eq_ok.mp h
    split at h
    · obtain ⟨v, -, h⟩ := Exec.bind_eq_ok.mp h
      obtain ⟨e, -, h⟩ := Exec.bind_eq_ok.mp h
      cases h
      exact .same rfl rfl
    · cases h
      exact .goto rfl rfl (by simp)
  | search v e a =>
    obtain ⟨p, -, h⟩ := Exec.bind_eq_ok.mp h
    split at h <;> cases h <;> exact .same rfl rfl
  | cancel v =>
    obtain ⟨s₁, h₁, h⟩ := Exec.bind_eq_ok.mp h
    cases h
    rw [cancelDelayUnsafe_control h₁]
    exact .setStatus fun _ _ ↦ ⟨delayed, by decide, rfl⟩
  | readLink | writeLink | setTail | message | post =>
    cases h
    exact .same rfl rfl

namespace Event

/-- The task that another one suspends. -/
def suspends : Event → Option TaskId
  | .reqsusp t u => if t = u then none else some u
  | _ => none

/-- The task that is resumed. -/
def resumes : Event → Option TaskId
  | .reqresm _ u => some u
  | _ => none

/-- The task that is deleted. -/
def deletes : Event → Option TaskId
  | .reqdtsk _ u => some u
  | _ => none

/-- The task that an event suspends, resumes or deletes. -/
def marks : Event → Option TaskId
  | .reqsusp _ u | .reqresm _ u | .reqdtsk _ u => some u
  | _ => none

end Event

namespace Traffic

variable {x x' : Traffic} {i : Turn} {v : Event}

/-- The task writes its own status byte and its `suspended` bit is lost,
`ycore.c:917,1020,1031,1172,1190,1199`. -/
def Wipes (x : Traffic) (t : TaskId) : Event → Prop
  | .turn (.line u) => u = t ∧ (x.place u).Wipes
  | .turn (.other (.thaw u)) => u = t ∧ (x.s.pc u).Passed
  | .suspWake u | .heldWake u => u = t
  | _ => False

/-- A turn spares everybody but a thread that writes its own status byte or makes the test of
`exit_region`. -/
theorem next_spares (h : x.next n i = .ok x') (hu : i ≠ .other (.exitRegion u)) :
    x.s.toControl.Spares (x.Wipes u (.turn i)) x'.s.toControl u := by
  cases i with
  | send | acpt | wait =>
    obtain ⟨-, h⟩ := require_bind_eq_ok.mp h
    cases h
    exact .same rfl rfl
  | isnd =>
    obtain ⟨-, h⟩ := require_bind_eq_ok.mp h
    split at h <;> cases h <;> exact .same rfl rfl
  | line t =>
    obtain ⟨⟨s', p'⟩, h₁, h⟩ := Exec.bind_eq_ok.mp h
    cases h
    have hs := placeStep_spares (u := u) h₁
    exact ⟨fun hw ↦ hs.status fun ⟨he, hp⟩ ↦ hw ⟨he.symm, hp⟩, hs.pc⟩
  | expiry =>
    obtain ⟨-, h⟩ := require_bind_eq_ok.mp h
    obtain ⟨⟨s', l'⟩, h₁, h⟩ := Exec.bind_eq_ok.mp h
    cases h
    exact expiryStep_spares h₁
  | tick =>
    obtain ⟨-, h⟩ := require_bind_eq_ok.mp h
    obtain ⟨⟨s', b⟩, h₁, h⟩ := Exec.bind_eq_ok.mp h
    cases h
    have hc := countDown_control h₁
    exact .same (congrFun (congrArg Control.status hc) u) (congrFun (congrArg Control.pc hc) u)
  | other o =>
    obtain ⟨⟨t, ht, -⟩, h⟩ := require_bind_eq_ok.mp h
    obtain ⟨s', h₁, h⟩ := Exec.bind_eq_ok.mp h
    cases h
    cases o with
    | reqcmsg | setType =>
      obtain ⟨-, h₁⟩ := require_bind_eq_ok.mp h₁
      cases h₁
      exact .same rfl rfl
    | exitRegion v =>
      have hvu : u ≠ v := fun he ↦ hu (by rw [he])
      simp only [step, exitAt] at h₁
      split at h₁
      · rename_i c _
        cases h₁
        show x.s.toControl.Spares _ (x.s.toControl.exitRegion v c) u
        rw [Board.exitRegion_eq]
        exact .same rfl (Function.update_of_ne hvu _ _)
      · cases h₁
    | thaw v =>
      obtain ⟨-, h₁⟩ := require_bind_eq_ok.mp h₁
      unfold thawAt at h₁
      split at h₁
      · rename_i c _
        cases h₁
        exact .goto rfl rfl fun k ↦ by cases c <;> simp [Call.resume]
      · rename_i c hc
        cases h₁
        refine .trans (x.s.setStatus v running) (.setStatus fun hn he ↦ ?_)
          (.goto rfl rfl (by simp))
        exact absurd ⟨he.symm, hc ▸ trivial⟩ hn
      · cases h₁
    | reqfreeze v =>
      obtain ⟨-, h₁⟩ := require_bind_eq_ok.mp h₁
      cases h₁
      exact .reqfreeze
    | reqbake v =>
      obtain ⟨-, h₁⟩ := require_bind_eq_ok.mp h₁
      cases h₁
      refine .same ?_ ?_ <;> simp only [Control.reqbake] <;> split <;> rfl
    | _ => cases ht

/-- An event spares everybody but a thread that writes its own status byte or makes the test of
`exit_region`, and the task that is suspended, resumed or deleted. -/
theorem react_spares (h : x.react n v = .ok x') (hu : v ≠ .turn (.other (.exitRegion u)))
    (hh : ∀ c, x.s.pc u ≠ .held c) :
    x.s.toControl.Spares (x.Wipes u v ∨ v.marks = some u) x'.s.toControl u := by
  cases v with
  | turn i =>
    obtain ⟨-, h⟩ := require_bind_eq_ok.mp h
    have hs := next_spares h fun hi ↦ hu (by rw [hi])
    exact ⟨fun hw ↦ hs.status fun hn ↦ hw (.inl hn), hs.pc⟩
  | reqctsk | reqdxch =>
    obtain ⟨-, h⟩ := require_bind_eq_ok.mp h
    cases h
    exact .goto rfl rfl (by simp)
  | reqsusp t w =>
    obtain ⟨-, h⟩ := require_bind_eq_ok.mp h
    cases h
    show x.s.toControl.Spares _ (x.s.toControl.reqsusp t w) u
    have hm : ∀ st, x.s.toControl.Spares (x.Wipes u (.reqsusp t w) ∨ some w = some u)
        (x.s.setStatus w st) u :=
      fun st ↦ .setStatus fun hn he ↦ absurd (.inr (he ▸ rfl)) hn
    by_cases ht : w = t
    · subst ht
      rw [Board.reqsusp_self]
      exact .trans _ (hm _) (.goto rfl rfl (by simp))
    · rw [Board.reqsusp_other _ ht]
      exact hm _
  | suspWake t =>
    obtain ⟨-, h⟩ := require_bind_eq_ok.mp h
    cases h
    refine .trans ((x.s.semTake t).setStatus t
      (x.s.status t &&& ~~~(suspended ||| needpost))) ?_ (.goto rfl rfl (by simp))
    exact .trans (x.s.semTake t) (.same rfl rfl)
      (.setStatus fun hn he ↦ absurd (.inl he.symm) hn)
  | heldWake t =>
    obtain ⟨-, h⟩ := require_bind_eq_ok.mp h
    obtain ⟨s', h₁, h⟩ := Exec.bind_eq_ok.mp h
    cases h
    unfold heldAt at h₁
    split at h₁
    · rename_i c hc
      obtain ⟨-, h₁⟩ := require_bind_eq_ok.mp h₁
      cases h₁
      have ht : u ≠ t := fun he ↦ hh c (he ▸ hc)
      exact .same (Function.update_of_ne ht _ _) (Function.update_of_ne ht _ _)
    · cases h₁
  | reqresm t w =>
    obtain ⟨-, h⟩ := require_bind_eq_ok.mp h
    cases h
    show x.s.toControl.Spares _ (x.s.toControl.reqresm w) u
    have hm : ∀ st, x.s.toControl.Spares (x.Wipes u (.reqresm t w) ∨ some w = some u)
        (x.s.setStatus w st) u :=
      fun st ↦ .setStatus fun hn he ↦ absurd (.inr (he ▸ rfl)) hn
    by_cases hs : x.s.status w &&& suspended = 0
    · rw [Board.reqresm_idle hs]
      exact .same rfl rfl
    by_cases hn : x.s.status w &&& needpost = 0
    · rw [Board.reqresm_other hs hn]
      exact hm _
    · rw [Board.reqresm_self hs hn]
      exact .trans _ (hm _) (.same rfl rfl)
  | reqdtsk t w =>
    obtain ⟨-, h⟩ := require_bind_eq_ok.mp h
    obtain ⟨-, h⟩ := require_bind_eq_ok.mp h
    obtain ⟨s', h₁, h⟩ := Exec.bind_eq_ok.mp h
    cases h
    obtain ⟨s₁, h₂, h₁⟩ := Exec.bind_eq_ok.mp h₁
    cases h₁
    refine .trans s₁.toControl ?_ ?_
    · rcases dequeueDeleted_control h₂ with hc | hc <;> rw [hc]
      · exact .same rfl rfl
      · exact .setStatus fun hn he ↦ absurd (.inr (he ▸ rfl)) hn
    · show s₁.toControl.Spares _ (s₁.toControl.reqdtskEnd t w) u
      refine .trans (s₁.setStatus w deleted)
        (.setStatus fun hn he ↦ absurd (.inr (he ▸ rfl)) hn) ?_
      unfold Control.reqdtskEnd
      dsimp only
      split
      · exact .goto rfl rfl (by simp)
      · exact .same rfl rfl
  | cancelled t =>
    obtain ⟨-, h⟩ := require_bind_eq_ok.mp h
    cases h
    exact .goto rfl rfl (by simp)

end Traffic

end YRmx
