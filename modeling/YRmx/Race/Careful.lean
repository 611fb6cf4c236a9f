import YRmx.Race.Calm

/-!
# Careful runs

Library `YRmx`. While the tasks are deleted with care, what holds at the lines of the calls on
exchanges holds of the calm system throughout, and a task that is deleted is in no list of it. Each
event preserves that: the turns because they are turns of the calm system, the calls on tasks
because all that they do there is to take a task out of its lists.
-/

namespace YRmx

open Intrusive Transition

variable {s s' : Nucleus} {c : Control} {Z : TaskId → Bool} {t u : TaskId} {e : ExchId} {n : Nat}

namespace Traffic

variable {x x' : Traffic} {G : TaskId → Bool} {i : Turn}

/-! ### What holds behind the calls on tasks -/

variable {g g' : Ledger} {r r' : Log}

/-- The fields of the threads that no call on an exchange looks at. -/
theorem Inv.control (h : Inv x g r) (hm : c.mutex = x.s.mutex) (hse : c.sema = x.s.sema)
    (hst : c.status = x.s.status) (hmsg : c.message = x.s.message)
    (hex : c.exchange = x.s.exchange) : Inv { x with s := { x.s with toControl := c } } g r := by
  have hE : ∀ e, SameExch x.s { x.s with toControl := c } g g e :=
    fun _ ↦ ⟨rfl, rfl, rfl, rfl, rfl, fun _ _ ↦ rfl⟩
  have hT : ∀ t, SameTask x.s { x.s with toControl := c } g g r r t := fun t ↦
    ⟨rfl, .rfl, rfl, congrFun hst t, congrFun hmsg t, congrFun hex t, fun _ ↦ rfl⟩
  show Inv { x with s := { x.s with toControl := c }, expiry := x.expiry } g r
  exact h.expiry_same
    (h.books.congr rfl rfl rfl rfl hse (fun _ _ he ↦ by rwa [hm]) fun _ _ ↦ rfl)
    hE hT (fun _ ↦ id) (fun _ ↦ id) rfl
    (h.expiry.frame (fun e _ ↦ hE e) (fun t _ ↦ ⟨hT t, rfl⟩) fun t _ _ _ ↦ ⟨hT t, rfl⟩)

/-- Only the places of the agents and the queues tell whether a task is left. -/
theorem Left.congr (h : Left x g t) (hp : x'.place = x.place) (hx : x'.expiry = x.expiry) :
    Left x' g t where
  queued := h.queued
  ends a ha := h.ends a (by
    cases a with
    | thread u =>
      show (x.place u).ends t
      rw [← hp]
      exact ha
    | delayTask =>
      show x.expiry.ends t
      rw [← hx]
      exact ha)

/-- No event by which a task that is deleted comes to stay in a list, or a list is torn: the queues
are worked on in an orderly way, a task that was suspended or deleted meanwhile is not tested for a
delay that it does not have, a thread that is to end does not queue itself, and `reqdtsk` comes
neither while the task is about to write its status byte in `reqwait`, nor while its hand-off or its
time-out is under way, nor while another agent works on the queue that it stands in. -/
def Careful (x : Traffic) : Event → Prop
  | .turn i => x.Orderly i ∧
      (∀ t e m u, i = .line t → x.place t = .send e m (.test u) →
        x.s.status u = 0 ∨ x.s.status u &&& delayed ≠ 0) ∧
      ∀ t, i = .line t → (x.place t).Joins → x.s.cancel t = false
  | .reqdtsk _ u => ¬ (x.place u).Joining ∧ (∀ a : Agent, ¬ a.ends x u) ∧
      (x.s.status u &&& waitBits ≠ 0 → ∀ e, x.s.exchange u = .exch e →
        (∀ v ≠ u, ¬ (x.place v).holds e) ∧ ¬ x.expiry.worksOn e)
  | _ => True

/-- The calls on exchanges go on in the calm system, the threads `G` rest in a queue that they were
taken out of, and the tasks `Z` were woken out of their own suspension and have not gone on yet. -/
structure Calmed (x : Traffic) (G Z : TaskId → Bool) (g : Ledger) (r : Log) : Prop where
  inv : Inv (x.calm G Z) g r
  tidy : Tidy (x.calm G Z) g
  rests : ∀ {t}, G t = true → (x.place t).Rests
  /-- who is to be woken out of its own suspension sleeps there -/
  asked : ∀ {t}, x.s.status t &&& needpost ≠ 0 →
    x.place t = .out ∧ (x.s.pc t).Still ∧ Z t = false
  woken : ∀ {t}, Z t = true → x.place t = .out ∧ (x.s.pc t).Still ∧ x.s.sema t = 1
  /-- the delay task in its loop is in no other call -/
  loop : x.expiry ≠ .idle → x.place rqdelaytaskTd = .out ∧ ¬ (x.s.pc rqdelaytaskTd).Still

/-- A bit of a status byte that is clear, when a thread that is in no call goes on. -/
theorem other_clear {k : BitVec 8} {o : Op} (hk : running &&& k = 0)
    (h : x.next n (.other o) = .ok x') (h0 : x.s.status t &&& k = 0) : x'.s.status t &&& k = 0 := by
  by_cases hi : o = .exitRegion t
  · subst hi
    obtain ⟨-, h⟩ := require_bind_eq_ok.mp h
    obtain ⟨s', h₁, h⟩ := Exec.bind_eq_ok.mp h
    cases h
    simp only [step, exitAt] at h₁
    split at h₁
    · cases h₁
      simp only [Board.exitRegion_eq]
      exact h0
    · cases h₁
  by_cases hw : x.Wipes t (.turn (.other o))
  · cases o with
    | thaw u =>
      obtain ⟨rfl, hw⟩ := hw
      obtain ⟨-, h⟩ := require_bind_eq_ok.mp h
      obtain ⟨s', h₁, h⟩ := Exec.bind_eq_ok.mp h
      cases h
      obtain ⟨-, h₁⟩ := require_bind_eq_ok.mp h₁
      unfold thawAt at h₁
      split at h₁
      · cases h₁
        exact h0
      · cases h₁
        show Function.update x.s.status u running u &&& k = 0
        rwa [Function.update_self]
      · cases h₁
    | _ => exact hw.elim
  · exact (next_spares h fun he ↦ hi (Turn.other.inj he)).clear hw h0

/-- A bit of a status byte that no turn sets. -/
theorem next_clear {k : BitVec 8} (hk : (delayed ||| waiting ||| running) &&& k = 0)
    (h : x.next n i = .ok x') (h0 : x.s.status t &&& k = 0) : x'.s.status t &&& k = 0 := by
  have of : ∀ {b : BitVec 8}, (delayed ||| waiting ||| running) &&& b = b → b &&& k = 0 :=
    fun hb ↦ by
      rw [← hb, BitVec.and_assoc, BitVec.and_comm _ k, ← BitVec.and_assoc, hk]
      exact BitVec.zero_and
  cases i with
  | other o => exact other_clear (of (by decide)) h h0
  | line u =>
    by_cases hw : x.Wipes t (.turn (.line u))
    case neg => exact (next_spares h Turn.noConfusion).clear hw h0
    obtain ⟨rfl, hw⟩ := hw
    obtain ⟨⟨s', p'⟩, h₁, h⟩ := Exec.bind_eq_ok.mp h
    cases h
    cases hp : x.place u with
    | wait e d l =>
      rw [hp] at hw h₁
      cases l with
      | delay =>
        obtain ⟨-, h₁⟩ := require_bind_eq_ok.mp h₁
        obtain ⟨⟨s₁, l'⟩, h₂, h₁⟩ := Exec.bind_eq_ok.mp h₁
        cases h₁
        obtain ⟨s₂, h₃, h₂⟩ := Exec.bind_eq_ok.mp h₂
        cases h₂
        have hc := startDelay_control h₃
        show Control.status _ u &&& k = 0
        rw [go_s, hc, Control.setStatus_status, Function.update_self]
        apply of
        split <;> decide
      | _ => exact hw.elim
    | wake e d =>
      rw [hp] at h₁
      simp only [placeStep] at h₁
      split at h₁ <;> cases h₁
      simp
    | _ =>
      rw [hp] at hw
      exact hw.elim
  | _ => exact (next_spares h Turn.noConfusion).clear not_false h0

/-- A thread that neither sleeps in `reqsusp` nor has ended, and takes no line. -/
theorem next_awake (h : x.next n i = .ok x') (hp : ¬ (x.s.pc t).Still) (hi : i ≠ .line t)
    (hx : x'.expiry ≠ .idle) : ¬ (x'.s.pc t).Still := by
  cases i with
  | send | acpt | wait =>
    obtain ⟨-, h⟩ := require_bind_eq_ok.mp h
    cases h
    exact hp
  | isnd =>
    obtain ⟨-, h⟩ := require_bind_eq_ok.mp h
    split at h <;> cases h <;> exact hp
  | line u =>
    obtain ⟨⟨s', p'⟩, h₁, h⟩ := Exec.bind_eq_ok.mp h
    cases h
    have htu : t ≠ u := fun he ↦ hi (he ▸ rfl)
    exact (placeStep_moves h₁).pc t htu ▸ hp
  | expiry =>
    obtain ⟨-, h⟩ := require_bind_eq_ok.mp h
    obtain ⟨⟨s', l'⟩, h₁, h⟩ := Exec.bind_eq_ok.mp h
    cases h
    obtain ⟨hm, hpc⟩ := expiryStep_moves h₁
    by_cases ht : t = rqdelaytaskTd
    · subst ht
      exact hpc.resolve_right hx ▸ hp
    · exact hm.pc t ht ▸ hp
  | tick =>
    obtain ⟨-, h⟩ := require_bind_eq_ok.mp h
    obtain ⟨⟨s', b⟩, h₁, h⟩ := Exec.bind_eq_ok.mp h
    cases h
    exact congrFun (congrArg Control.pc (countDown_control h₁)) t ▸ hp
  | other o =>
    obtain ⟨⟨u, hu, -⟩, h⟩ := require_bind_eq_ok.mp h
    obtain ⟨s', h₁, h⟩ := Exec.bind_eq_ok.mp h
    cases h
    obtain ⟨hm, -, hs⟩ := local_moves hu h₁
    by_cases htu : t = u
    · exact htu ▸ hs
    · exact hm.pc t htu ▸ hp

private theorem rests_elim {P : Place → Prop} (hr : (x.place u).Rests)
    (hP : P (x.place u).calm ∨ P (x.place u)) (ha : ∀ e, ¬ P (.acpt e .release)) (ho : ¬ P .out)
    (hs : ∀ e d, ¬ P (.asleep e d)) (hw : ∀ e d, ¬ P (.wait e d .unlock)) : False := by
  cases hp : x.place u with
  | wait e' d l =>
    rw [hp] at hr hP
    cases l with
    | unlock => exact hP.elim (ha e') (hw e' d)
    | _ => exact hr
  | asleep e' d =>
    rw [hp] at hP
    exact hP.elim ho (hs e' d)
  | _ =>
    rw [hp] at hr
    exact hr

private theorem delete_waitBits {v : TaskId} {k : BitVec 8}
    (h : v ≠ u ∧ x.s.status v &&& waitBits &&& k = 0 ∨ v = u) :
    Function.update x.s.status u deleted v &&& waitBits &&& k = 0 := by
  rcases h with ⟨hv, h0⟩ | rfl
  · rwa [Function.update_of_ne hv]
  · rw [Function.update_self, show deleted &&& waitBits = 0 by decide]
    exact BitVec.zero_and

/-- `reqdtsk` has taken the task out of the lists, and asks its thread to end. -/
def erase (x : Traffic) (s₁ : Nucleus) (u : TaskId) (k : TaskId → Bool) : Traffic :=
  { x with s := { s₁ with toControl := { x.s.toControl.setStatus u deleted with cancel := k } } }

/-- In the calm system the thread of the task stands outside of its call. -/
theorem calm_erase {s₁ : Nucleus} {st : BitVec 8} {k : TaskId → Bool} (hg : G u = false)
    (hctl : s₁.toControl = x.s.toControl.setStatus u st) :
    (x.erase s₁ u k).calm (Function.update G u true) Z =
      (x.calm G Z).go u ((s₁.veil Z).ctl fun c ↦
        { c.setStatus u 0 with pc := x.s.pc, cancel := k }) ((x.calm G Z).place u).calm := by
  have hpl : (fun v ↦ if Function.update G u true v then (x.place v).calm else x.place v) =
      Function.update (x.calm G Z).place u ((x.calm G Z).place u).calm := by
    ext v
    by_cases hvu : v = u
    · subst hvu
      simp [calm_place hg]
    · simp [calm, hvu]
  have hc : ({ x.s.toControl.setStatus u deleted with cancel := k } : Control).veil Z =
      { (s₁.toControl.veil Z).setStatus u 0 with pc := x.s.pc, cancel := k } := by
    rw [hctl, Control.veil_setStatus]
    refine (congrArg (fun c : Control ↦ { c with cancel := k })
      (Control.veil_setStatus x.s.toControl Z u deleted)).trans ?_
    simp [Control.setStatus, show deleted &&& waitBits = 0 by decide]
    rfl
  have hs : Nucleus.veil { s₁ with
      toControl := { x.s.toControl.setStatus u deleted with cancel := k } } Z =
      (s₁.veil Z).ctl fun c ↦ { c.setStatus u 0 with pc := x.s.pc, cancel := k } :=
    congrArg (fun c ↦ { s₁ with toControl := c }) hc
  show Traffic.mk (Nucleus.veil { s₁ with
    toControl := { x.s.toControl.setStatus u deleted with cancel := k } } Z) (fun v ↦
      if Function.update G u true v then (x.place v).calm else x.place v) x.expiry = _
  rw [hs, hpl]
  rfl

/-- Nobody is about to end a task because of the deletion. -/
theorem ends_erase {s₁ : Nucleus} {st : BitVec 8} {k : TaskId → Bool} (hg : G u = false)
    (hr : (x.place u).Rests) (hctl : s₁.toControl = x.s.toControl.setStatus u st) (a : Agent)
    (v : TaskId) : a.ends ((x.erase s₁ u k).calm (Function.update G u true) Z) v ↔
      a.ends (x.calm G Z) v := by
  rw [calm_erase hg hctl]
  cases a with
  | delayTask => exact .rfl
  | thread w =>
    by_cases hwu : w = u
    · subst hwu
      simp only [Agent.ends, go_place, Function.update_self, calm_place hg]
      refine iff_of_false (fun ha ↦ ?_) (fun ha ↦ ?_)
      · exact rests_elim (P := Place.ends v) hr (.inl ha) (fun _ ↦ id) id (fun _ _ ↦ id)
          fun _ _ ↦ id
      · exact rests_elim (P := Place.ends v) hr (.inr ha) (fun _ ↦ id) id (fun _ _ ↦ id)
          fun _ _ ↦ id
    · simp [Agent.ends, hwu]

namespace Calmed

/-- A semaphore that nobody waits for is zero. -/
theorem sema (h : Calmed x G Z g r) (hz : Z t = false)
    (hp : ∀ e d, (x.calm G Z).place t ≠ .asleep e d) : x.s.sema t = 0 := by
  have hs : (if Z t then 0 else x.s.sema t) = 0 := h.inv.intact.awake hp
  rwa [hz] at hs

/-- A thread that rests in no queue sleeps for ever. -/
theorem gone (h : Calmed x G Z g r) (hg : G t = true) : x.s.sema t = 0 := by
  have hr := h.rests hg
  refine h.sema ?_ fun e d hp ↦ ?_
  · by_contra hz
    rw [(h.woken (Bool.eq_true_of_not_eq_false hz)).1] at hr
    exact hr
  · simp only [calm, hg, if_true] at hp
    cases hx : x.place t with
    | wait e' d' l =>
      rw [hx] at hr hp
      cases l <;> first | exact hr.elim | cases hp
    | asleep =>
      rw [hx] at hp
      cases hp
    | _ =>
      rw [hx] at hr
      exact hr.elim

/-- The thread of a task whose semaphore is posted sleeps in `reqwait`. -/
theorem posts (h : Calmed x G Z g r) (hp : x.Posts t i) : ∃ e d, x.place t = .asleep e d := by
  have back : ∀ {e d}, (x.calm G Z).place t = .asleep e d → ∃ e d, x.place t = .asleep e d :=
    fun hx ↦ ⟨_, _, calm_imp (P := fun p ↦ p = .asleep _ _) hx (by simp) (by simp)⟩
  cases i with
  | line u =>
    obtain ⟨e, m, hp⟩ := hp
    have hg : G u = false := Bool.eq_false_iff.mpr fun hg ↦ by
      have hr := h.rests hg
      rw [hp] at hr
      exact hr
    have hu := h.inv.thread u
    rw [calm_place hg, hp] at hu
    obtain ⟨-, -, d, hv, -⟩ := hu
    exact back hv.place
  | expiry =>
    have he := h.inv.expiry
    rw [show (x.calm G Z).expiry = .post t from hp] at he
    obtain ⟨e, d, -, hv, -⟩ := he
    exact back hv.place
  | _ => exact hp.elim

/-- The threads that sleep in `reqsusp` or have ended, and the delay task, after one turn. -/
theorem turn_threads (h : Calmed x G Z g r) (hs : x.next n i = .ok x') :
    (∀ t, x.place t = .out → (x.s.pc t).Still →
      x'.place t = .out ∧ (x'.s.pc t).Still ∧ x'.s.sema t = x.s.sema t) ∧
    (x'.expiry ≠ .idle → x'.place rqdelaytaskTd = .out ∧ ¬ (x'.s.pc rqdelaytaskTd).Still) := by
  refine ⟨fun t hp ht ↦ ?_, fun hx' ↦ ?_⟩
  · have hline : i ≠ .line t := by
      rintro rfl
      obtain ⟨q, hq, -⟩ := Exec.bind_eq_ok.mp hs
      rw [hp] at hq
      cases hq
    have h2 : t = rqdelaytaskTd → x.expiry = .idle := by
      rintro rfl
      by_contra hx
      exact (h.loop hx).2 ht
    obtain ⟨hpc, hsema⟩ := (next_still hs).2 t ht hline h2
    refine ⟨?_, hpc ▸ ht, hsema fun hpost ↦ ?_⟩
    · rcases next_place hs t with hx | ⟨hc, -⟩ | ⟨rfl, -⟩
      · rw [hx, hp]
      · rw [hc.2.1] at ht
        exact ht.elim
      · exact absurd rfl hline
    · obtain ⟨e, d, hx⟩ := h.posts hpost
      rw [hp] at hx
      cases hx
  · have hloop : x.place rqdelaytaskTd = .out ∧ ¬ (x.s.pc rqdelaytaskTd).Still := by
      by_cases hx : x.expiry = .idle
      · rcases next_expiry hs with he | ⟨rfl, he⟩
        · exact absurd (he.trans hx) hx'
        · obtain ⟨hp, -⟩ := require_bind_eq_ok.mp hs
          rw [hx] at he
          obtain ⟨hpc, -⟩ := require_bind_eq_ok.mp he
          exact ⟨hp, by simp [hpc, Pc.Still]⟩
      · exact h.loop hx
    obtain ⟨hp, hpc⟩ := hloop
    have hline : i ≠ .line rqdelaytaskTd := by
      rintro rfl
      obtain ⟨q, hq, -⟩ := Exec.bind_eq_ok.mp hs
      rw [hp] at hq
      cases hq
    refine ⟨?_, next_awake hs hpc hline hx'⟩
    rcases next_place hs rqdelaytaskTd with hx | ⟨hc, he⟩ | ⟨rfl, -⟩
    · rw [hx, hp]
    · rcases next_expiry hs with hx | ⟨rfl, -⟩
      · exact absurd (hx.trans (hc.2.2 rfl)) hx'
      · obtain ⟨-, hs⟩ := require_bind_eq_ok.mp hs
        obtain ⟨q, -, hs⟩ := Exec.bind_eq_ok.mp hs
        cases hs
        exact hp
    · exact absurd rfl hline

/-- A thread that rests in no queue unlocks the mutex at most. -/
theorem resting_line (h : Calmed x G Z g r) (hg : G t = true) (hs : x.next n (.line t) = .ok x') :
    (∃ e d, x'.place t = .asleep e d) ∧ ∃ y, (x.calm G Z).next n (.line t) = .ok y ∧
      ∃ pc, x'.calm G Z = y.ctl fun c ↦ { c with pc := pc } := by
  have hr := h.rests hg
  obtain ⟨⟨s', p'⟩, h₁, hs⟩ := Exec.bind_eq_ok.mp hs
  cases hs
  cases hp : x.place t with
  | asleep e d =>
    rw [hp] at h₁
    obtain ⟨hsema, -⟩ := require_bind_eq_ok.mp h₁
    rw [h.gone hg] at hsema
    cases hsema
  | wait e d l =>
    rw [hp] at hr h₁
    cases l with
    | unlock =>
      cases h₁
      have hpl : (fun u ↦ if G u then (Function.update x.place t (.asleep e d) u).calm
          else Function.update x.place t (.asleep e d) u) =
          Function.update (x.calm G Z).place t .out := by
        ext u
        by_cases hu : u = t
        · subst hu
          simp [hg, Place.calm]
        · simp [calm, hu]
      refine ⟨⟨e, d, Function.update_self ..⟩, (x.calm G Z).go t (Nucleus.ctl
        { (x.calm G Z).s with mutex := Function.update x.s.mutex e false }
        (·.goto t (.exitRegion (.reqacpt e)))) .out, ?_,
          Function.update x.s.pc t (.semWait e d), ?_⟩
      · have hc : (x.calm G Z).place t = .acpt e .release := by
          simp [calm, hg, hp, Place.calm]
        simp only [next, hc, placeStep, acptStep]
        rfl
      · simp only [calm, go, hpl]
        rfl
    | _ => exact hr.elim
  | _ =>
    rw [hp] at hr
    exact hr.elim

/-- A turn in which a thread that rests in no queue goes on. -/
theorem turn_resting (h : Calmed x G Z g r) (hc : x.Orderly (.line t)) (hg : G t = true)
    (hs : x.next n (.line t) = .ok x') : ∃ g' r', Inv (x'.calm G Z) g' r' ∧ Tidy (x'.calm G Z) g' ∧
      ∀ u, Left (x.calm G Z) g u → Left (x'.calm G Z) g' u := by
  obtain ⟨-, y, hy, pc, he⟩ := h.resting_line hg hs
  obtain ⟨g', hI⟩ := (h.inv.turn (orderly_calm hc)).of_step ⟨n, hy⟩
  have hT := h.tidy.step h.inv hy (by simp) hI
  rw [he]
  refine ⟨g', _, hI.control rfl rfl rfl rfl rfl, ⟨fun hl ↦ hT.left (hl.congr rfl rfl), hT.cancels⟩,
    fun u hu ↦ (hu.step h.inv hy hI fun hi ↦ ?_).congr rfl rfl⟩
  cases hi
  have hr := h.rests hg
  intro hj
  have hj := calm_imp (P := Place.Joins) hj not_false fun _ ↦ not_false
  cases hp : x.place t with
  | wait e d l =>
    rw [hp] at hr hj
    cases l <;> first | exact hr | exact hj
  | _ =>
    rw [hp] at hj
    exact hj

/-- A turn of a thread that is in no call. -/
theorem turn_other {o : Op} (h : Calmed x G Z g r) (hc : x.Orderly (.other o))
    (hs : x.next n (.other o) = .ok x') : Inv (x'.calm G Z) g r ∧ Tidy (x'.calm G Z) g ∧
      ∀ u, Left (x.calm G Z) g u → Left (x'.calm G Z) g u := by
  have hp : (x'.calm G Z).place = (x.calm G Z).place ∧
    (x'.calm G Z).expiry = (x.calm G Z).expiry := by
    obtain ⟨-, hs⟩ := require_bind_eq_ok.mp hs
    obtain ⟨s', -, hs⟩ := Exec.bind_eq_ok.mp hs
    cases hs
    exact ⟨rfl, rfl⟩
  have hbit : ∀ {u k}, waitBits &&& k = k → running &&& k = 0 →
      (x.calm G Z).s.status u &&& k = 0 → (x'.calm G Z).s.status u &&& k = 0 := by
    intro u k hk hr h0
    have h0 : (x.s.toControl.veil Z).status u &&& k = 0 := h0
    show (x'.s.toControl.veil Z).status u &&& k = 0
    rw [Control.veil_status_and _ _ _ hk] at h0 ⊢
    exact other_clear hr hs h0
  refine ⟨h.inv.other_calm hc hs, ⟨fun hl ↦ ?_, fun {u a} ha ↦ ?_⟩, fun u hu ↦ hu.congr hp.1 hp.2⟩
  · exact hbit (by decide) (by decide) (h.tidy.left (hl.congr hp.1.symm hp.2.symm))
  · refine hbit (by decide) (by decide) (h.tidy.cancels (a := a) ?_)
    cases a with
    | thread v =>
      obtain ⟨e, m, ha⟩ := ha
      exact ⟨e, m, by rw [← hp.1, ha]⟩
    | delayTask =>
      show (x.calm G Z).expiry.ends u
      rw [← hp.2]
      exact ha

/-- A turn of another thread, of the delay task or of the timer. -/
theorem turn_awake (h : Calmed x G Z g r) (hc : Careful x (.turn i)) (hi : ∀ o, i ≠ .other o)
    (hg : ∀ t, i = .line t → G t = false) (hs : x.next n i = .ok x') :
    ∃ g' r', Inv (x'.calm G Z) g' r' ∧ Tidy (x'.calm G Z) g' ∧
      ∀ u, (i = .line u → ¬ (x.place u).Joins) → Left (x.calm G Z) g u →
        Left (x'.calm G Z) g' u := by
  obtain ⟨ho, hu, -⟩ := hc
  have out : ∀ {t}, x.place t ≠ .out → Z t = false := fun hp ↦
    Bool.eq_false_iff.mpr fun hz ↦ hp (h.woken hz).1
  have post : ∀ {t}, x.Posts t i → Z t = false := fun hp ↦ by
    obtain ⟨e, d, hp⟩ := h.posts hp
    exact out (by simp [hp])
  have hy : (x.calm G Z).next n i = .ok (x'.calm G Z) := by
    refine next_calm hs hi hg (fun t ht hp ↦ ?_) (fun t e d _ hp ↦ out (by simp [hp]))
      (fun t e m u hi hp ↦ post ?_) (fun u hi hx ↦ post ?_) hu
    · have hr := h.rests ht
      rw [hp] at hr
      exact hr
    · subst hi
      exact ⟨e, m, hp⟩
    · subst hi
      exact hx
  obtain ⟨g', hI⟩ := (h.inv.turn (orderly_calm ho)).of_step ⟨n, hy⟩
  refine ⟨g', _, hI, h.tidy.step h.inv hy hi hI, fun u hj hl ↦ hl.step h.inv hy hI fun hi hx ↦ ?_⟩
  exact hj hi (calm_imp (P := Place.Joins) hx not_false fun _ ↦ not_false)

/-- A turn that a careful run may take. -/
theorem turn (h : Calmed x G Z g r) (hc : Careful x (.turn i)) (hs : x.next n i = .ok x') :
    ∃ g' r', Calmed x' G Z g' r' ∧
      ∀ u, (i = .line u → ¬ (x.place u).Joins) → Left (x.calm G Z) g u →
        Left (x'.calm G Z) g' u := by
  obtain ⟨hthreads, hloop⟩ := h.turn_threads hs
  have asked : ∀ {t}, x'.s.status t &&& needpost ≠ 0 →
      x'.place t = .out ∧ (x'.s.pc t).Still ∧ Z t = false := by
    intro t ht
    obtain ⟨hp, hpc, hz⟩ := h.asked (t := t) fun h0 ↦ ht (next_clear (by decide) hs h0)
    obtain ⟨hp, hpc, -⟩ := hthreads t hp hpc
    exact ⟨hp, hpc, hz⟩
  have woken : ∀ {t}, Z t = true → x'.place t = .out ∧ (x'.s.pc t).Still ∧ x'.s.sema t = 1 := by
    intro t ht
    obtain ⟨hp, hpc, hse⟩ := h.woken ht
    obtain ⟨hp, hpc, he⟩ := hthreads t hp hpc
    exact ⟨hp, hpc, he.trans hse⟩
  have rests : ∀ {t}, G t = true → (x'.place t).Rests := by
    intro t ht
    rcases next_place hs t with hx | ⟨⟨hx, -⟩, -⟩ | ⟨rfl, -⟩
    · rw [hx]
      exact h.rests ht
    · have hr := h.rests ht
      rw [hx] at hr
      exact hr.elim
    · obtain ⟨⟨e, d, hp⟩, -⟩ := h.resting_line ht hs
      rw [hp]
      trivial
  obtain ⟨g', r', hI, hT, hl⟩ : ∃ g' r', Inv (x'.calm G Z) g' r' ∧ Tidy (x'.calm G Z) g' ∧
      ∀ u, (i = .line u → ¬ (x.place u).Joins) → Left (x.calm G Z) g u →
        Left (x'.calm G Z) g' u := by
    by_cases hi : ∃ o, i = .other o
    · obtain ⟨o, rfl⟩ := hi
      obtain ⟨hI, hT, hl⟩ := h.turn_other hc.1 hs
      exact ⟨g, r, hI, hT, fun u _ ↦ hl u⟩
    push Not at hi
    by_cases hg : ∃ t, i = .line t ∧ G t = true
    · obtain ⟨t, rfl, hg⟩ := hg
      obtain ⟨g', r', hI, hT, hl⟩ := h.turn_resting hc.1 hg hs
      exact ⟨g', r', hI, hT, fun u _ ↦ hl u⟩
    · push Not at hg
      exact h.turn_awake hc hi (fun t ht ↦ Bool.eq_false_iff.mpr (hg t ht)) hs
  exact ⟨g', r', ⟨hI, hT, rests, asked, woken, hloop⟩, hl⟩

/-! ### The other events -/

/-- A change of the control part that the calls on exchanges do not see. -/
theorem control {Z' : TaskId → Bool} (h : Calmed x G Z g r) (hm : c.mutex = x.s.mutex)
    (hse : ∀ t, (if Z' t then 0 else c.sema t) = if Z t then 0 else x.s.sema t)
    (hst : ∀ t, c.status t &&& waitBits = x.s.status t &&& waitBits)
    (hmsg : c.message = x.s.message) (hex : c.exchange = x.s.exchange)
    (ha : ∀ t, c.status t &&& needpost ≠ 0 → x.place t = .out ∧ (c.pc t).Still ∧ Z' t = false)
    (hw : ∀ t, Z' t = true → x.place t = .out ∧ (c.pc t).Still ∧ c.sema t = 1)
    (hl : x.expiry ≠ .idle → ¬ (c.pc rqdelaytaskTd).Still) :
    Calmed { x with s := { x.s with toControl := c } } G Z' g r ∧
      ∀ u, Left (x.calm G Z) g u →
        Left (({ x with s := { x.s with toControl := c } } : Traffic).calm G Z') g u where
  left :=
    { inv := h.inv.control (c := c.veil Z') hm (funext hse) (funext hst) hmsg hex
      tidy :=
        { left := fun {t} hl ↦ by
            show c.status t &&& waitBits &&& waitBits = 0
            rw [hst]
            exact h.tidy.left (hl.congr rfl rfl)
          cancels := fun {t a} ha ↦ by
            show c.status t &&& waitBits &&& waiting = 0
            rw [hst]
            exact h.tidy.cancels (a := a) ha }
      rests := h.rests
      asked := fun {t} ↦ ha t
      woken := fun {t} ↦ hw t
      loop := fun hx ↦ ⟨(h.loop hx).1, hl hx⟩ }
  right _ hu := hu.congr rfl rfl

/-- A thread in user code goes on. -/
theorem goes_on {p : Pc} (h : Calmed x G Z g r) (ht : x.Calls t) (hp : ¬ p.Still) :
    Calmed (x.ctl (·.goto t p)) G Z g r ∧
      ∀ u, Left (x.calm G Z) g u → Left ((x.ctl (·.goto t p)).calm G Z) g u := by
  have hne : ∀ {u}, (x.s.pc u).Still → u ≠ t := by
    rintro u hu rfl
    rw [ht.2.1] at hu
    exact hu
  refine h.control rfl (fun _ ↦ rfl) (fun _ ↦ rfl) rfl rfl (fun u hu ↦ ?_) (fun u hu ↦ ?_)
    (fun hx ↦ ?_)
  · obtain ⟨hout, hpc, hz⟩ := h.asked hu
    exact ⟨hout, by simpa [hne hpc] using hpc, hz⟩
  · obtain ⟨hout, hpc, hse⟩ := h.woken hu
    exact ⟨hout, by simpa [hne hpc] using hpc, hse⟩
  · by_cases hd : t = rqdelaytaskTd
    · simpa [hd] using hp
    · simpa [Ne.symm hd] using (h.loop hx).2

/-- A task is suspended. -/
theorem reqsusp (h : Calmed x G Z g r) (ht : x.Calls t) (u : TaskId) :
    Calmed (x.ctl (·.reqsusp t u)) G Z g r ∧
      ∀ v, Left (x.calm G Z) g v → Left ((x.ctl (·.reqsusp t u)).calm G Z) g v := by
  have hbits : ∀ k : BitVec 8, (k ||| suspended) &&& waitBits = k &&& waitBits ∧
      (k ||| suspended ||| needpost) &&& waitBits = k &&& waitBits ∧
      (k ||| suspended) &&& needpost = k &&& needpost := by decide
  by_cases hu : u = t
  · subst hu
    have hz : Z u = false := Bool.eq_false_iff.mpr fun hz ↦ by
      have hs := (h.woken hz).2.1
      rw [ht.2.1] at hs
      exact hs
    rw [show x.ctl (·.reqsusp u u) = x.ctl fun c ↦ (c.setStatus u
      (c.status u ||| suspended ||| needpost)).goto u .suspWait from
        congrArg (fun c ↦ { x with s := { x.s with toControl := c } }) (Board.reqsusp_self _ u)]
    refine h.control rfl (fun _ ↦ rfl) (fun v ↦ ?_) rfl rfl (fun v hv ↦ ?_) (fun v hv ↦ ?_)
      (fun hx ↦ ?_)
    · by_cases hvu : v = u
      · simpa [hvu] using (hbits _).2.1
      · simp [hvu]
    · by_cases hvu : v = u
      · subst hvu
        exact ⟨ht.1, by simp [Pc.Still], hz⟩
      · obtain ⟨hout, hpc, hz⟩ := h.asked (t := v) (by simpa [hvu] using hv)
        exact ⟨hout, by simpa [hvu] using hpc, hz⟩
    · have hvu : v ≠ u := by
        rintro rfl
        rw [hz] at hv
        cases hv
      obtain ⟨hout, hpc, hse⟩ := h.woken hv
      exact ⟨hout, by simpa [hvu] using hpc, hse⟩
    · have hd : rqdelaytaskTd ≠ u := fun hd ↦ hx (ht.2.2 hd.symm)
      simpa [hd] using (h.loop hx).2
  · rw [show x.ctl (·.reqsusp t u) = x.ctl fun c ↦ c.setStatus u (c.status u ||| suspended) from
        congrArg (fun c ↦ { x with s := { x.s with toControl := c } }) (Board.reqsusp_other _ hu)]
    refine h.control rfl (fun _ ↦ rfl) (fun v ↦ ?_) rfl rfl (fun v hv ↦ h.asked fun h0 ↦ hv ?_)
      (fun v hv ↦ h.woken hv) (fun hx ↦ (h.loop hx).2)
    · by_cases hvu : v = u
      · simpa [hvu] using (hbits _).1
      · simp [hvu]
    · by_cases hvu : v = u
      · subst hvu
        simpa [(hbits _).2.2] using h0
      · simpa [hvu] using h0

/-- A task that was woken out of its own suspension goes on. -/
theorem suspWake (h : Calmed x G Z g r) (hp : x.place t = .out) (hpc : x.s.pc t = .suspWait)
    (hse : 0 < x.s.sema t) :
    Calmed (x.ctl (·.reqsuspResume t)) G (Function.update Z t false) g r ∧
      ∀ u, Left (x.calm G Z) g u →
        Left ((x.ctl (·.reqsuspResume t)).calm G (Function.update Z t false)) g u := by
  have hbits : ∀ k : BitVec 8, (k &&& ~~~(suspended ||| needpost)) &&& waitBits = k &&& waitBits ∧
      (k &&& ~~~(suspended ||| needpost)) &&& needpost = 0 := by decide
  have hz : Z t = true := by
    by_contra hz
    rw [h.sema (Bool.eq_false_iff.mpr hz) fun e d ↦ by simp [calm_out hp]] at hse
    exact Nat.lt_irrefl 0 hse
  have h1 : x.s.sema t = 1 := (h.woken hz).2.2
  refine h.control rfl (fun v ↦ ?_) (fun v ↦ ?_) rfl rfl (fun v hv ↦ ?_) (fun v hv ↦ ?_)
    (fun hx ↦ ?_)
  · by_cases hvt : v = t
    · simp [Control.reqsuspResume, hvt, hz, h1]
    · simp [Control.reqsuspResume, hvt]
  · by_cases hvt : v = t
    · simpa [Control.reqsuspResume, hvt] using (hbits _).1
    · simp [Control.reqsuspResume, hvt]
  · by_cases hvt : v = t
    · subst hvt
      exact absurd (by simpa [Control.reqsuspResume] using (hbits (x.s.status v)).2) hv
    · obtain ⟨hout, hpc, hz⟩ := h.asked (t := v) (by simpa [Control.reqsuspResume, hvt] using hv)
      exact ⟨hout, by simpa [Control.reqsuspResume, hvt] using hpc, by simpa [hvt] using hz⟩
  · by_cases hvt : v = t
    · simp [hvt] at hv
    · obtain ⟨hout, hpc, hse⟩ := h.woken (t := v) (by simpa [hvt] using hv)
      exact ⟨hout, by simpa [Control.reqsuspResume, hvt] using hpc,
        by simpa [Control.reqsuspResume, hvt] using hse⟩
  · have hd : rqdelaytaskTd ≠ t := by
      rintro rfl
      exact (h.loop hx).2 (by simp [hpc, Pc.Still])
    simpa [Control.reqsuspResume, hd] using (h.loop hx).2

/-- A task is resumed. -/
theorem reqresm (h : Calmed x G Z g r) (u : TaskId) : ∃ Z', Calmed (x.ctl (·.reqresm u)) G Z' g r ∧
    ∀ v, Left (x.calm G Z) g v → Left ((x.ctl (·.reqresm u)).calm G Z') g v := by
  have hbits : ∀ k : BitVec 8, (k &&& ~~~suspended) &&& waitBits = k &&& waitBits ∧
      (k &&& ~~~suspended &&& ~~~needpost) &&& waitBits = k &&& waitBits ∧
      (k &&& ~~~suspended) &&& needpost = k &&& needpost ∧
      (k &&& ~~~suspended &&& ~~~needpost) &&& needpost = 0 := by decide
  by_cases hs : x.s.status u &&& suspended = 0
  · rw [show x.ctl (·.reqresm u) = x from
      congrArg (fun c ↦ { x with s := { x.s with toControl := c } }) (Board.reqresm_idle hs)]
    exact ⟨Z, h, fun _ ↦ id⟩
  by_cases hn : x.s.status u &&& needpost = 0
  · rw [show x.ctl (·.reqresm u) = x.ctl fun c ↦ c.setStatus u (c.status u &&& ~~~suspended) from
      congrArg (fun c ↦ { x with s := { x.s with toControl := c } }) (Board.reqresm_other hs hn)]
    refine ⟨Z, h.control rfl (fun _ ↦ rfl) (fun v ↦ ?_) rfl rfl (fun v hv ↦ h.asked fun h0 ↦ hv ?_)
      (fun v hv ↦ h.woken hv) (fun hx ↦ (h.loop hx).2)⟩
    · by_cases hvu : v = u
      · simpa [hvu] using (hbits _).1
      · simp [hvu]
    · by_cases hvu : v = u
      · subst hvu
        simpa [(hbits _).2.2.1] using h0
      · simpa [hvu] using h0
  · rw [show x.ctl (·.reqresm u) = x.ctl fun c ↦
      (c.setStatus u (c.status u &&& ~~~suspended &&& ~~~needpost)).semPost u from
      congrArg (fun c ↦ { x with s := { x.s with toControl := c } }) (Board.reqresm_self hs hn)]
    obtain ⟨hp, hpc, hz⟩ := h.asked hn
    have h0 : x.s.sema u = 0 := h.sema hz fun e d ↦ by simp [calm_out hp]
    refine ⟨Function.update Z u true, h.control rfl (fun v ↦ ?_) (fun v ↦ ?_) rfl rfl
      (fun v hv ↦ ?_)
      (fun v hv ↦ ?_) (fun hx ↦ (h.loop hx).2)⟩
    · by_cases hvu : v = u
      · simp [hvu, h0]
      · simp [hvu]
    · by_cases hvu : v = u
      · simpa [hvu] using (hbits _).2.1
      · simp [hvu]
    · by_cases hvu : v = u
      · subst hvu
        exact absurd (by simpa using (hbits (x.s.status v)).2.2.2) hv
      · obtain ⟨hout, hpc, hz⟩ := h.asked (t := v) (by simpa [hvu] using hv)
        exact ⟨hout, hpc, by simpa [hvu] using hz⟩
    · by_cases hvu : v = u
      · subst hvu
        exact ⟨hp, hpc, by simp [h0]⟩
      · obtain ⟨hout, hpc, hse⟩ := h.woken (t := v) (by simpa [hvu] using hv)
        exact ⟨hout, hpc, by simpa [hvu] using hse⟩

/-- A requested cancellation takes effect. -/
theorem cancelled (h : Calmed x G Z g r) (hd : t = rqdelaytaskTd → x.expiry = .idle) :
    Calmed (x.ctl (·.goto t .dead)) G Z g r ∧
      ∀ u, Left (x.calm G Z) g u → Left ((x.ctl (·.goto t .dead)).calm G Z) g u := by
  have hpc : ∀ {u}, (x.s.pc u).Still → (Function.update x.s.pc t .dead u).Still := fun {u} hu ↦ by
    by_cases hut : u = t
    · simp [hut, Pc.Still]
    · simpa [hut] using hu
  refine h.control rfl (fun _ ↦ rfl) (fun _ ↦ rfl) rfl rfl (fun u hu ↦ ?_) (fun u hu ↦ ?_)
    (fun hx ↦ ?_)
  · obtain ⟨hout, hs, hz⟩ := h.asked hu
    exact ⟨hout, hpc hs, hz⟩
  · obtain ⟨hout, hs, hse⟩ := h.woken hu
    exact ⟨hout, hpc hs, hse⟩
  · have hne : rqdelaytaskTd ≠ t := fun he ↦ hx (hd he.symm)
    simpa [hne] using (h.loop hx).2

/-- What is left of a call of `reqdtsk` for a task that is in no list. -/
theorem reqdtskEnd (h : Calmed x G Z g r) (ht : x.Calls t)
    (h0 : x.s.status u &&& waitBits = 0) : Calmed (x.ctl (·.reqdtskEnd t u)) G Z g r ∧
      ∀ v, Left (x.calm G Z) g v → Left ((x.ctl (·.reqdtskEnd t u)).calm G Z) g v := by
  obtain ⟨p, k, he, hp⟩ : ∃ p k, x.s.toControl.reqdtskEnd t u =
      { x.s.toControl.setStatus u deleted with pc := p, cancel := k } ∧
        (p = x.s.pc ∨ p = Function.update x.s.pc t .dead) := by
    unfold Control.reqdtskEnd
    by_cases hu : u = t
    · subst hu
      exact ⟨_, _, if_pos rfl, .inr rfl⟩
    · exact ⟨_, _, if_neg hu, .inl rfl⟩
  have hstill : ∀ v, (x.s.pc v).Still → (p v).Still := by
    rintro v hv
    rcases hp with rfl | rfl
    · exact hv
    · by_cases hvt : v = t
      · simp [hvt, Pc.Still]
      · simpa [hvt] using hv
  rw [show x.ctl (·.reqdtskEnd t u) = { x with s := { x.s with toControl :=
      { x.s.toControl.setStatus u deleted with pc := p, cancel := k } } } from
        congrArg (fun c ↦ { x with s := { x.s with toControl := c } }) he]
  refine h.control rfl (fun _ ↦ rfl) (fun v ↦ ?_) rfl rfl (fun v hv ↦ ?_) (fun v hv ↦ ?_)
    (fun hx ↦ ?_)
  · by_cases hvu : v = u
    · subst hvu
      simpa [h0] using (by decide : deleted &&& waitBits = 0)
    · simp [hvu]
  · by_cases hvu : v = u
    · subst hvu
      simp [show deleted &&& needpost = 0 by decide] at hv
    · obtain ⟨hout, hpc, hz⟩ := h.asked (t := v) (by simpa [hvu] using hv)
      exact ⟨hout, hstill v hpc, hz⟩
  · obtain ⟨hout, hpc, hse⟩ := h.woken hv
    exact ⟨hout, hstill v hpc, hse⟩
  · have hd : rqdelaytaskTd ≠ t := fun hd ↦ hx (ht.2.2 hd.symm)
    rcases hp with rfl | rfl
    · exact (h.loop hx).2
    · simpa [hd] using (h.loop hx).2

/-- Who holds a mutex in the calm system holds it in the system. -/
theorem calm_holds : ((x.calm G Z).place u).holds e ↔ (x.place u).holds e := by
  simp only [calm]
  split
  · rcases calm_cases (x.place u) with hc | ⟨e', d, hp, hc⟩ | ⟨e', d, hp, hc⟩ <;> rw [hc]
    · rw [hp]
      exact .rfl
    · rw [hp]
      simp [Place.holds]
  · exact .rfl

/-- Where a task stands that is queued in the calm system. -/
theorem queued_awake (h : Calmed x G Z g r) (hq : g.serve u = .queued e)
    (hj : ¬ (x.place u).Joining) : G u = false ∧ (x.place u).Rests := by
  have hg : G u = false := Bool.eq_false_iff.mpr fun hg ↦ by
    have hr := h.rests hg
    have hp : (x.calm G Z).place u = (x.place u).calm := if_pos hg
    rcases calm_cases (x.place u) with hc | ⟨e', d, -, hc⟩ | ⟨e', d, -, hc⟩
    · rw [← hc] at hr
      cases hx : x.place u with
      | wait e' d l =>
        rw [hx] at hr
        cases l <;> exact hr
      | _ =>
        rw [hx] at hr
        exact hr
    · rcases h.inv.queued_place hq with ⟨d', hp', -⟩ | ⟨d', l, hp', -⟩ <;>
        rw [hp, hc] at hp' <;> cases hp'
    · rcases h.inv.queued_place hq with ⟨d', hp', -⟩ | ⟨d', l, hp', -⟩ <;>
        rw [hp, hc] at hp' <;> cases hp'
  refine ⟨hg, ?_⟩
  rcases h.inv.queued_place hq with ⟨d, hp, -⟩ | ⟨d, l, hp, hl⟩ <;> rw [calm_place hg] at hp <;>
    rw [hp]
  · trivial
  · rw [hp] at hj
    cases l <;> first | exact hl.elim | exact (hj trivial).elim | trivial

/-- A task that was queued was taken out of the lists, and its thread is asked to end. -/
theorem unlinked {s₁ : Nucleus} {st : BitVec 8} {k : TaskId → Bool} (h : Calmed x G Z g r)
    (hg : G u = false) (hr : (x.place u).Rests)
    (hctl : s₁.toControl = x.s.toControl.setStatus u st)
    (hI : ∀ pc k, Inv ((x.calm G Z).go u ((s₁.veil Z).ctl fun c ↦
      { c.setStatus u 0 with pc := pc, cancel := k }) ((x.calm G Z).place u).calm)
        (g.remove u e) r) :
    Calmed (x.erase s₁ u k) (Function.update G u true) Z (g.remove u e) r where
  inv := by
    rw [calm_erase hg hctl]
    exact hI _ _
  tidy :=
    { left := fun {v} hl ↦ delete_waitBits (by
        by_cases hvu : v = u
        · exact .inr hvu
        · refine .inl ⟨hvu, h.tidy.left ⟨fun e' he' ↦ hl.queued e' ?_, fun a ha ↦
            hl.ends a ((ends_erase hg hr hctl a v).mpr ha)⟩⟩
          simpa [Ledger.remove, hvu] using he')
      cancels := fun {v a} ha ↦ delete_waitBits (by
        by_cases hvu : v = u
        · exact .inr hvu
        · refine .inl ⟨hvu, h.tidy.cancels (a := a) ?_⟩
          rw [calm_erase hg hctl] at ha
          cases a with
          | delayTask => exact ha
          | thread w =>
            obtain ⟨e', m, ha⟩ := ha
            by_cases hwu : w = u
            · subst hwu
              rw [go_place, Function.update_self, calm_place hg] at ha
              exact (rests_elim (P := fun p ↦ p = .send e' m (.cancel v)) hr (.inl ha) (by simp)
                (by simp) (by simp) (by simp)).elim
            · exact ⟨e', m, by simpa [hwu] using ha⟩) }
  rests {v} hv := by
    by_cases hvu : v = u
    · exact hvu ▸ hr
    · exact h.rests (by simpa [hvu] using hv)
  asked {v} hv := by
    by_cases hvu : v = u
    · subst hvu
      simp [erase, show deleted &&& needpost = 0 by decide] at hv
    · exact h.asked (t := v) (by simpa [erase, hvu] using hv)
  woken := h.woken
  loop := h.loop

/-- A deletion that a careful run may make comes to its end. It takes the task out of its queue and
off the delay list, and no other. -/
theorem reqdtsk (h : Calmed x G Z g r) (ht : x.Calls t) (hc : Careful x (.reqdtsk t u)) :
    ∃ s', Yields (fun n ↦ YRmx.reqdtsk n x.s t u) s' ∧ ∃ G' g',
      Calmed { x with s := s' } G' Z g' r ∧ Left (({ x with s := s' } : Traffic).calm G' Z) g' u ∧
      (∀ v, Left (x.calm G Z) g v → Left (({ x with s := s' } : Traffic).calm G' Z) g' v) ∧
      (∀ e, g'.tq e = (g.tq e).erase u) ∧ g'.mq = g.mq ∧ g'.dl = g.dl.filter (·.1 ≠ u) := by
  obtain ⟨hj, hends, hheld⟩ := hc
  have hends : ∀ a : Agent, ¬ a.ends (x.calm G Z) u := by
    intro a ha
    cases a with
    | thread v =>
      exact hends (.thread v) (calm_imp (P := Place.ends u) ha not_false fun _ ↦ not_false)
    | delayTask => exact hends .delayTask ha
  by_cases hq : ∃ e, g.serve u = .queued e
  case neg =>
    push Not at hq
    have hl : Left (x.calm G Z) g u := ⟨hq, hends⟩
    have h0 : x.s.status u &&& waitBits = 0 := by
      rw [← Control.veil_status_and x.s.toControl Z u (by decide)]
      exact h.tidy.left hl
    obtain ⟨hC, hleft⟩ := h.reqdtskEnd (u := u) ht h0
    refine ⟨x.s.ctl (·.reqdtskEnd t u), ⟨0, fun n _ ↦ ?_⟩, G, g, hC, hleft u hl, hleft, fun e ↦ ?_,
      rfl, ?_⟩
    · have hd : dequeueDeleted n x.s u = .ok x.s := if_neg (not_not_intro h0)
      show (dequeueDeleted n x.s u >>= fun s ↦ .ok (s.ctl (·.reqdtskEnd t u))) = _
      rw [hd]
      rfl
    · exact (List.erase_of_not_mem fun hm ↦ hq e (h.inv.books.mem_iff.mp hm)).symm
    · refine (List.filter_eq_self.mpr fun p hp ↦ decide_eq_true ?_).symm
      rintro rfl
      exact h.inv.untimed hl (List.mem_map_of_mem hp)
  obtain ⟨e, hq⟩ := hq
  obtain ⟨hg, hr⟩ := h.queued_awake hq hj
  have hplace : (x.calm G Z).place u = x.place u := calm_place hg
  have hut : u ≠ t := by
    rintro rfl
    rw [ht.1] at hr
    exact hr
  obtain ⟨d, hst, -, -⟩ := h.inv.resting hq (hplace ▸ hr)
  have hwait : x.s.status u &&& waitBits ≠ 0 := by
    rw [← Control.veil_status_and x.s.toControl Z u (by decide)]
    show (x.calm G Z).s.status u &&& waitBits ≠ 0
    rw [hst, limitStatus]
    split <;> decide
  obtain ⟨hh, hw⟩ := hheld hwait e (h.inv.queued_exchange hq)
  obtain ⟨s₂, hv, -, hI⟩ := h.inv.dequeued hq (hplace ▸ hr)
    (fun v hv hx ↦ hh v hv (calm_holds.mp hx)) hw
  obtain ⟨s₁, hy, rfl⟩ := dequeueDeleted_yields hv
  obtain ⟨st, hctl⟩ : ∃ st, s₁.toControl = x.s.toControl.setStatus u st := by
    obtain ⟨N, hN⟩ := hy
    rcases dequeueDeleted_control (hN N le_rfl) with hc | hc
    · refine ⟨x.s.status u, hc.trans ?_⟩
      simp [Control.setStatus]
    · exact ⟨_, hc⟩
  have hend : s₁.ctl (·.reqdtskEnd t u) = { s₁ with toControl := {
      x.s.toControl.setStatus u deleted with cancel := Function.update x.s.cancel u true } } := by
    have he : s₁.toControl.reqdtskEnd t u = { s₁.toControl.setStatus u deleted with
      cancel := Function.update s₁.cancel u true } := if_neg hut
    show { s₁ with toControl := s₁.toControl.reqdtskEnd t u } = _
    rw [he, hctl]
    simp [Control.setStatus]
  have hends' := ends_erase (x := x) (Z := Z) (k := Function.update x.s.cancel u true) hg hr hctl
  have hC := h.unlinked (k := Function.update x.s.cancel u true) hg hr hctl hI
  refine ⟨_, hy.bind (.const _), Function.update G u true, g.remove u e,
    hend ▸ hC, ?_, fun v hv ↦ ?_,
    fun e' ↦ ?_, rfl, rfl⟩
  · rw [hend]
    exact ⟨fun e' ↦ by simp [Ledger.remove], fun a ha ↦ hends a ((hends' a u).mp ha)⟩
  · rw [hend]
    refine ⟨fun e' he' ↦ ?_, fun a ha ↦ hv.ends a ((hends' a v).mp ha)⟩
    by_cases hvu : v = u
    · simp [Ledger.remove, hvu] at he'
    · exact hv.queued e' (by simpa [Ledger.remove, hvu] using he')
  · by_cases he : e' = e
    · simp [Ledger.remove, he]
    · rw [List.erase_of_not_mem fun hm ↦ he ?_]
      · simp [Ledger.remove, he]
      · exact Stage.queued.inj ((h.inv.books.mem_iff.mp hm).symm.trans hq)

/-- Nobody is held by `exit_region` and released. -/
theorem not_released (h : Calmed x G Z g r) : x.react n (.heldWake t) ≠ .ok x' := by
  intro hs
  obtain ⟨hp, hs⟩ := require_bind_eq_ok.mp hs
  obtain ⟨s', h₁, -⟩ := Exec.bind_eq_ok.mp hs
  unfold heldAt at h₁
  split at h₁
  · rename_i c hc
    obtain ⟨h0, -⟩ := require_bind_eq_ok.mp h₁
    have hz : Z t = false := Bool.eq_false_iff.mpr fun hz ↦ by
      have hst := (h.woken hz).2.1
      rw [hc] at hst
      exact hst
    rw [h.sema hz fun e d ↦ by simp [calm_out hp]] at h0
    exact Nat.lt_irrefl 0 h0
  · cases h₁

/-- A deleted task stays deleted. -/
theorem deleted {v : Event} (h : Calmed x G Z g r) (hs : x.react n v = .ok x')
    (hd : x.s.Deleted u) : x'.s.Deleted u := by
  have user : ∀ {t p}, x.Calls t → x.s.pc u = .dead → Function.update x.s.pc t p u = .dead :=
    fun {t p} ht hp ↦ by
      have hut : u ≠ t := by
        rintro rfl
        rw [ht.2.1] at hp
        cases hp
      rwa [Function.update_of_ne hut]
  cases v with
  | turn i =>
    obtain ⟨hl, hs⟩ := require_bind_eq_ok.mp hs
    apply hd.imp (fun hc ↦ (congrFun (next_still hs).1 u).trans hc)
    intro hp
    refine ((next_still hs).2 u (by simp [hp, Pc.Still]) ?_ ?_).1.trans hp
    · rintro rfl
      exact hl hp
    · rintro rfl
      by_contra hx
      exact (h.loop hx).2 (by simp [hp, Pc.Still])
  | reqctsk | reqdxch =>
    obtain ⟨ht, hs⟩ := require_bind_eq_ok.mp hs
    cases hs
    exact hd.imp id (user ht)
  | reqsusp t w =>
    obtain ⟨ht, hs⟩ := require_bind_eq_ok.mp hs
    cases hs
    by_cases hw : w = t
    · subst hw
      simp only [Board.reqsusp_self]
      exact hd.imp id (user ht)
    · simp only [Board.reqsusp_other _ hw]
      exact hd
  | suspWake t =>
    obtain ⟨⟨-, hpc, -⟩, hs⟩ := require_bind_eq_ok.mp hs
    cases hs
    apply hd.imp id
    intro hp
    have hut : u ≠ t := by
      rintro rfl
      rw [hpc] at hp
      cases hp
    simpa [Control.reqsuspResume, hut] using hp
  | heldWake t => exact absurd hs h.not_released
  | reqresm t w =>
    obtain ⟨-, hs⟩ := require_bind_eq_ok.mp hs
    cases hs
    have hp : (x.s.toControl.reqresm w).pc = x.s.pc ∧
        (x.s.toControl.reqresm w).cancel = x.s.cancel := by
      unfold Control.reqresm
      split
      · dsimp only
        split <;> exact ⟨rfl, rfl⟩
      · exact ⟨rfl, rfl⟩
    exact hd.imp (fun hc ↦ (congrFun hp.2 u).trans hc) fun hc ↦ (congrFun hp.1 u).trans hc
  | reqdtsk t w =>
    obtain ⟨ht, hs⟩ := require_bind_eq_ok.mp hs
    obtain ⟨-, hs⟩ := require_bind_eq_ok.mp hs
    obtain ⟨s', h₁, hs⟩ := Exec.bind_eq_ok.mp hs
    cases hs
    obtain ⟨s₁, h₂, hs⟩ := Exec.bind_eq_ok.mp h₁
    cases hs
    obtain ⟨hp, hc⟩ : s₁.pc = x.s.pc ∧ s₁.cancel = x.s.cancel := by
      rcases dequeueDeleted_control h₂ with hc | hc <;> rw [hc] <;> exact ⟨rfl, rfl⟩
    show (s₁.toControl.reqdtskEnd t w).Deleted u
    unfold Control.reqdtskEnd
    by_cases hw : w = t
    · subst hw
      refine (if_pos (c := w = w) rfl) ▸ hd.imp (fun hx ↦ (congrFun hc u).trans hx) fun hx ↦ ?_
      show Function.update s₁.pc w .dead u = .dead
      rw [hp]
      exact user ht hx
    · simp only [if_neg hw]
      refine hd.imp (fun hx ↦ ?_) fun hx ↦ (congrFun hp u).trans hx
      show Function.update s₁.cancel w true u = true
      by_cases huw : u = w
      · simp [huw]
      · rw [Function.update_of_ne huw, hc, hx]
  | cancelled t =>
    obtain ⟨-, hs⟩ := require_bind_eq_ok.mp hs
    cases hs
    apply hd.imp id
    intro hp
    by_cases hut : u = t
    · simp [hut]
    · simpa [hut] using hp

/-- Every event of a careful run. -/
theorem step {v : Event} (h : Calmed x G Z g r) (hc : Careful x v) (hs : x.react n v = .ok x') :
    ∃ G' Z' g' r', Calmed x' G' Z' g' r' ∧
      (∀ u, x.s.Deleted u → Left (x.calm G Z) g u → Left (x'.calm G' Z') g' u) ∧
      ∀ u, v.deletes = some u → Left (x'.calm G' Z') g' u := by
  cases v with
  | turn i =>
    obtain ⟨hl, hs⟩ := require_bind_eq_ok.mp hs
    obtain ⟨g', r', hC, hleft⟩ := h.turn hc hs
    refine ⟨G, Z, g', r', hC, fun u hd hu ↦ hleft u (fun hi hj ↦ ?_) hu, fun u hu ↦ by cases hu⟩
    subst hi
    rcases hd with hd | hd
    · rw [hc.2.2 u rfl hj] at hd
      cases hd
    · exact hl hd
  | reqctsk | reqdxch =>
    obtain ⟨ht, hs⟩ := require_bind_eq_ok.mp hs
    cases hs
    obtain ⟨hC, hleft⟩ := h.goes_on (p := .exitRegion _) ht not_false
    exact ⟨G, Z, g, r, hC, fun u _ ↦ hleft u, fun u hu ↦ by cases hu⟩
  | reqsusp t w =>
    obtain ⟨ht, hs⟩ := require_bind_eq_ok.mp hs
    cases hs
    obtain ⟨hC, hleft⟩ := h.reqsusp ht w
    exact ⟨G, Z, g, r, hC, fun u _ ↦ hleft u, fun u hu ↦ by cases hu⟩
  | suspWake t =>
    obtain ⟨⟨hp, hpc, hse⟩, hs⟩ := require_bind_eq_ok.mp hs
    cases hs
    obtain ⟨hC, hleft⟩ := h.suspWake hp hpc hse
    exact ⟨G, _, g, r, hC, fun u _ ↦ hleft u, fun u hu ↦ by cases hu⟩
  | heldWake t => exact absurd hs h.not_released
  | reqresm t w =>
    obtain ⟨-, hs⟩ := require_bind_eq_ok.mp hs
    cases hs
    obtain ⟨Z', hC, hleft⟩ := h.reqresm w
    exact ⟨G, Z', g, r, hC, fun u _ ↦ hleft u, fun u hu ↦ by cases hu⟩
  | reqdtsk t w =>
    obtain ⟨ht, hs⟩ := require_bind_eq_ok.mp hs
    obtain ⟨-, hs⟩ := require_bind_eq_ok.mp hs
    obtain ⟨s', h₁, hs⟩ := Exec.bind_eq_ok.mp hs
    cases hs
    obtain ⟨s₁, hy, G', g', hC, hw, hleft, -⟩ := h.reqdtsk ht hc
    obtain rfl := ((reqdtsk_mono x.s t w).yields h₁).unique hy
    exact ⟨G', Z, g', r, hC, fun u _ ↦ hleft u, fun u hu ↦ Option.some.inj hu ▸ hw⟩
  | cancelled t =>
    obtain ⟨⟨-, -, -, hd⟩, hs⟩ := require_bind_eq_ok.mp hs
    cases hs
    obtain ⟨hC, hleft⟩ := h.cancelled (t := t) hd
    exact ⟨G, Z, g, r, hC, fun u _ ↦ hleft u, fun u hu ↦ by cases hu⟩

/-- What is done for waiting tasks is done in the calm system. -/
theorem service (h : Calmed x G Z g r) (i : Turn) : (x.calm G Z).service i = x.service i := by
  cases i with
  | line t =>
    by_cases hg : G t = true
    · have hr := h.rests hg
      simp only [Traffic.service, calm, if_pos hg]
      cases hp : x.place t with
      | wait e d l =>
        rw [hp] at hr
        cases l <;> first | exact hr.elim | rfl
      | asleep => rfl
      | _ =>
        rw [hp] at hr
        exact hr.elim
    · simp only [Traffic.service, calm, if_neg hg]
  | _ => rfl

/-- In a booted system nobody has been suspended, resumed or deleted. -/
theorem start {s : Nucleus} (h : Booted s) :
    Calmed (start s) (fun _ ↦ false) (fun _ ↦ false) .empty .empty where
  inv :=
    { books := (inv_start h).books.congr rfl rfl rfl rfl rfl (fun _ _ hm ↦ hm) fun _ _ ↦ rfl
      held := fun ha ↦ by cases ha
      taken := fun ha ↦ by cases ha
      thread := fun _ ↦ rfl
      expiry := trivial }
  tidy :=
    { left := fun {t} _ ↦ by
        show s.status t &&& waitBits &&& waitBits = 0
        rw [(h.tasks t).1]
        decide
      cancels := fun {t a} ha ↦ by
        cases a with
        | thread u =>
          obtain ⟨e, m, ha⟩ := ha
          cases ha
        | delayTask => exact ha.elim }
  rests ht := by cases ht
  asked {t} ht := by
    refine absurd ?_ ht
    show s.status t &&& needpost = 0
    rw [(h.tasks t).1]
    decide
  woken ht := by cases ht
  loop hx := absurd rfl hx

end Calmed

/-- A task that `reqdtsk` was called for has its thread asked to end. -/
theorem react_deletes {v : Event} (hs : x.react n v = .ok x') (hu : v.deletes = some u) :
    x'.s.Deleted u := by
  cases v with
  | reqdtsk t w =>
    cases hu
    obtain ⟨-, hs⟩ := require_bind_eq_ok.mp hs
    obtain ⟨-, hs⟩ := require_bind_eq_ok.mp hs
    obtain ⟨s', h₁, hs⟩ := Exec.bind_eq_ok.mp hs
    cases hs
    obtain ⟨s₁, -, hs⟩ := Exec.bind_eq_ok.mp h₁
    cases hs
    show (s₁.toControl.reqdtskEnd t u).Deleted u
    unfold Control.reqdtskEnd
    by_cases hut : u = t
    · subst hut
      exact .inr (by simp)
    · exact .inl (by simp [hut])
  | _ => cases hu

end Traffic

end YRmx
