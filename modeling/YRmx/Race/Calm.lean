import YRmx.Race.Veil

/-!
# Calls on tasks behind the calls on exchanges

Library `YRmx`. Suspensions, resumptions and deletions come in between the lines of the calls on
exchanges. Those go on in the calm system, in which nobody was suspended and a task that was deleted
while it waited had never queued itself.
-/

namespace YRmx

open Intrusive Transition

variable {s s' : Nucleus} {c : Control} {Z : TaskId → Bool} {t u : TaskId} {e : ExchId} {n : Nat}

/-- The thread sleeps in `reqsusp`, or has ended. -/
def Pc.Still : Pc → Prop
  | .suspWait | .dead => True
  | _ => False

/-! ### What a line leaves of the other threads -/

/-- The thread asks for no cancellation and moves no other thread, and posts no semaphore but those
of `P`. -/
structure Control.Moves (u : TaskId) (P : TaskId → Prop) (c c' : Control) : Prop where
  cancel : c'.cancel = c.cancel
  pc : ∀ t ≠ u, c'.pc t = c.pc t
  sema : ∀ t ≠ u, ¬ P t → c'.sema t = c.sema t

namespace Control.Moves

variable {c' c'' : Control} {P : TaskId → Prop}

/-- Nothing has changed. -/
theorem same (hc : c'.cancel = c.cancel) (hp : c'.pc = c.pc) (hs : c'.sema = c.sema) :
    Moves u P c c' :=
  ⟨hc, fun t _ ↦ congrFun hp t, fun t _ _ ↦ congrFun hs t⟩

/-- A part of the call that changes other fields. -/
theorem of_eq {f : Control} (h : c' = f) (hc : f.cancel = c.cancel) (hp : f.pc = c.pc)
    (hs : f.sema = c.sema) : Moves u P c c' := h ▸ same hc hp hs

/-- The thread goes on. -/
theorem goto {p : Pc} (hc : c'.cancel = c.cancel) (hp : c'.pc = Function.update c.pc u p)
    (hs : c'.sema = c.sema) : Moves u P c c' :=
  ⟨hc, fun _ ht ↦ hp ▸ Function.update_of_ne ht _ _, fun t _ _ ↦ congrFun hs t⟩

/-- A frozen thread. -/
theorem reqfreeze {k : Call} (c : Control) : Moves u P c (c.reqfreeze u k) := by
  obtain ⟨p, z, h, -⟩ := Board.reqfreeze_cases c u k
  rw [h]
  exact goto (p := p) rfl rfl rfl

/-- The end of `reqwait`. -/
theorem waitDone {d : BitVec 16} (hc : c'.cancel = c.cancel) (hp : c'.pc = c.pc)
    (hs : c'.sema = c.sema) : Moves u P c (c'.waitDone u e d) := by
  obtain ⟨p, z, h⟩ := Traffic.waitDone_eq c' u e d
  rw [h]
  exact goto (p := p) hc (show Function.update c'.pc u p = _ by rw [hp]) hs

end Control.Moves

/-- A line of `reqsend` posts the semaphore of the task that it attends to. -/
theorem sendStep_moves {b : Bool} {m : MsgId} {l : SendLine} {p' : Place}
    (h : sendStep b s u e m l = .ok (s', p')) :
    s.toControl.Moves u (fun t ↦ l = .post t) s'.toControl := by
  have herr : s.toControl.Moves u (fun t ↦ l = .post t) (s.sendError u e) := by
    obtain ⟨p, z, he⟩ := Traffic.sendError_eq s.toControl u e
    rw [he]
    exact .goto (p := p) rfl rfl rfl
  cases l with
  | lock =>
    obtain ⟨-, h⟩ := require_bind_eq_ok.mp h
    split at h <;> cases h
    · exact .same rfl rfl rfl
    · exact herr
  | tail =>
    simp only [sendStep] at h
    split at h <;> cases h
    · exact herr
    · exact .same rfl rfl rfl
  | append =>
    obtain ⟨s₁, h₁, h⟩ := Exec.bind_eq_ok.mp h
    cases h
    exact .of_eq (congrArg (fun c : Control ↦ ({ c with
      mutex := Function.update s₁.mutex e false } : Control))
        (appendMessage_control h₁)) rfl rfl rfl
  | busy =>
    simp only [sendStep] at h
    split at h
    · cases h
      exact herr
    · obtain ⟨v, -, h⟩ := Exec.bind_eq_ok.mp h
      cases h
      exact .same rfl rfl rfl
  | cancel v =>
    obtain ⟨-, h⟩ := require_bind_eq_ok.mp h
    obtain ⟨s₁, h₁, h⟩ := Exec.bind_eq_ok.mp h
    cases h
    exact .of_eq (cancelDelayUnsafe_control h₁) rfl rfl rfl
  | post v =>
    cases h
    refine ⟨rfl, fun _ _ ↦ rfl, fun t _ hp ↦ Function.update_of_ne ?_ _ _⟩
    rintro rfl
    exact hp rfl
  | head | readLink | setHead | setTail | give | status | test | unlock =>
    cases h
    exact .same rfl rfl rfl

/-- A line of a thread. -/
theorem placeStep_moves {b : Bool} {p p' : Place} (h : placeStep n b s u p = .ok (s', p')) :
    s.toControl.Moves u (fun t ↦ ∃ e m, p = .send e m (.post t)) s'.toControl := by
  cases p with
  | out => cases h
  | send e m l =>
    obtain ⟨hc, hp, hs⟩ := sendStep_moves h
    exact ⟨hc, hp, fun t ht hn ↦ hs t ht fun hl ↦ hn ⟨e, m, by rw [hl]⟩⟩
  | acpt e l =>
    cases l with
    | lock =>
      obtain ⟨-, h⟩ := require_bind_eq_ok.mp h
      cases h
      exact .same rfl rfl rfl
    | enter =>
      cases h
      exact .same rfl rfl rfl
    | fetch =>
      obtain ⟨s₁, h₁, h⟩ := Exec.bind_eq_ok.mp h
      cases h
      obtain ⟨p, hp⟩ := reqdqmsg_control h₁
      exact .of_eq hp rfl rfl rfl
    | release =>
      cases h
      exact .goto rfl rfl rfl
  | wait e d l =>
    obtain ⟨-, h⟩ := require_bind_eq_ok.mp h
    obtain ⟨⟨s₁, l'⟩, h₁, h⟩ := Exec.bind_eq_ok.mp h
    cases h
    cases l with
    | lock =>
      obtain ⟨-, h₁⟩ := require_bind_eq_ok.mp h₁
      cases h₁
      exact .same rfl rfl rfl
    | writeLink =>
      obtain ⟨p, -, h₁⟩ := Exec.bind_eq_ok.mp h₁
      cases h₁
      exact .same rfl rfl rfl
    | check =>
      simp only [lineStep] at h₁
      split at h₁ <;> cases h₁
      exact .same rfl rfl rfl
    | delay =>
      obtain ⟨s₂, h₂, h₁⟩ := Exec.bind_eq_ok.mp h₁
      cases h₁
      exact .of_eq (startDelay_control h₂) rfl rfl rfl
    | fetch =>
      obtain ⟨s₂, h₂, h₁⟩ := Exec.bind_eq_ok.mp h₁
      cases h₁
      obtain ⟨p, hp⟩ := reqdqmsg_control h₂
      exact .of_eq hp rfl rfl rfl
    | unlock =>
      cases h₁
      exact .goto rfl rfl rfl
    | release =>
      cases h₁
      exact .waitDone rfl rfl rfl
    | done => cases h₁
    | enter | clear | test | setHead | readTail | setTail =>
      cases h₁
      exact .same rfl rfl rfl
  | asleep e d =>
    obtain ⟨-, h⟩ := require_bind_eq_ok.mp h
    cases h
    exact ⟨rfl, fun _ _ ↦ rfl, fun t ht _ ↦ Function.update_of_ne ht _ _⟩
  | relock e d =>
    obtain ⟨-, h⟩ := require_bind_eq_ok.mp h
    cases h
    exact .same rfl rfl rfl
  | wake e d =>
    simp only [placeStep] at h
    split at h <;> cases h
    exact .same rfl rfl rfl
  | leave e d =>
    cases h
    exact .waitDone rfl rfl rfl

/-- A line of the delay task, which moves its thread when it leaves the loop. -/
theorem expiryStep_moves {l l' : ExpiryLine} (h : expiryStep s l = .ok (s', l')) :
    s.toControl.Moves rqdelaytaskTd (fun t ↦ l = .post t) s'.toControl ∧
      (s'.pc rqdelaytaskTd = s.pc rqdelaytaskTd ∨ l' = .idle) := by
  cases l with
  | idle =>
    obtain ⟨-, h⟩ := require_bind_eq_ok.mp h
    cases h
    exact ⟨.same rfl rfl rfl, .inl rfl⟩
  | first =>
    obtain ⟨p, -, h⟩ := Exec.bind_eq_ok.mp h
    split at h
    · obtain ⟨v, -, h⟩ := Exec.bind_eq_ok.mp h
      obtain ⟨e, -, h⟩ := Exec.bind_eq_ok.mp h
      cases h
      exact ⟨.same rfl rfl rfl, .inl rfl⟩
    · cases h
      exact ⟨.goto rfl rfl rfl, .inr rfl⟩
  | search v e a =>
    obtain ⟨p, -, h⟩ := Exec.bind_eq_ok.mp h
    split at h <;> cases h <;> exact ⟨.same rfl rfl rfl, .inl rfl⟩
  | cancel v =>
    obtain ⟨s₁, h₁, h⟩ := Exec.bind_eq_ok.mp h
    cases h
    have hc := cancelDelayUnsafe_control h₁
    exact ⟨.of_eq hc rfl rfl rfl, .inl (by rw [hc]; rfl)⟩
  | post v =>
    cases h
    refine ⟨⟨rfl, fun _ _ ↦ rfl, fun t _ hp ↦ Function.update_of_ne ?_ _ _⟩, .inl rfl⟩
    rintro rfl
    exact hp rfl
  | readLink | writeLink | setTail | message =>
    cases h
    exact ⟨.same rfl rfl rfl, .inl rfl⟩

/-- A step of a thread in no call, which neither sleeps nor has ended. -/
theorem local_moves {o : Op} (hl : o.local = some u) (h : step n s o = .ok s') :
    s.toControl.Moves u (fun _ ↦ False) s'.toControl ∧ ¬ (s.pc u).Still ∧ ¬ (s'.pc u).Still := by
  have user : ∀ {t}, s.pc t = .user → ¬ (s.pc t).Still := fun hp ↦ by simp [hp, Pc.Still]
  cases o with
  | reqcmsg | setType =>
    obtain rfl := Option.some.inj hl
    obtain ⟨hp, h⟩ := require_bind_eq_ok.mp h
    cases h
    exact ⟨.same rfl rfl rfl, user hp, user hp⟩
  | reqbake =>
    obtain rfl := Option.some.inj hl
    obtain ⟨hp, h⟩ := require_bind_eq_ok.mp h
    cases h
    simp only [Board.reqbake_eq]
    exact ⟨.same rfl rfl rfl, user hp, user hp⟩
  | exitRegion u =>
    obtain rfl := Option.some.inj hl
    simp only [step, exitAt] at h
    split at h
    · rename_i c hc
      cases h
      have he := Board.exitRegion_eq s.toControl u c
      simp only [he, hc]
      exact ⟨.goto rfl rfl rfl, by simp [Pc.Still], by simp [Pc.Still]⟩
    · cases h
  | thaw u =>
    obtain rfl := Option.some.inj hl
    obtain ⟨-, h⟩ := require_bind_eq_ok.mp h
    unfold thawAt at h
    split at h
    · rename_i c hc
      cases h
      refine ⟨.goto rfl rfl rfl, by simp [hc, Pc.Still], ?_⟩
      cases c <;> simp [Call.resume, Pc.Still]
    · rename_i c hc
      cases h
      exact ⟨.goto rfl rfl rfl, by simp [hc, Pc.Still], by simp [Control.leaveRegion, Pc.Still]⟩
    · cases h
  | reqfreeze u =>
    obtain rfl := Option.some.inj hl
    obtain ⟨hp, h⟩ := require_bind_eq_ok.mp h
    cases h
    obtain ⟨p, z, hz, hpz⟩ := Board.reqfreeze_cases s.toControl u .reqfreeze
    simp only [hz]
    refine ⟨.goto rfl rfl rfl, user hp, ?_⟩
    rcases hpz with rfl | rfl <;> simp [Call.resume, Pc.Still]
  | _ => cases hl

namespace Traffic

/-- The system in which the tasks `G` have not queued themselves and the tasks `Z` were not woken
out of a suspension, with nothing in sight but what tells of a wait. -/
def calm (x : Traffic) (G Z : TaskId → Bool) : Traffic where
  s := x.s.veil Z
  place t := if G t then (x.place t).calm else x.place t
  expiry := x.expiry

variable {x x' : Traffic} {G : TaskId → Bool} {i : Turn}

/-- The semaphore of the task is posted in this turn. -/
def Posts (x : Traffic) (t : TaskId) : Turn → Prop
  | .line u => ∃ e m, x.place u = .send e m (.post t)
  | .expiry => x.expiry = .post t
  | _ => False

/-- A turn leaves a thread alone that sleeps in `reqsusp` or has ended. -/
theorem next_still (h : x.next n i = .ok x') : x'.s.cancel = x.s.cancel ∧
    ∀ t, (x.s.pc t).Still → i ≠ .line t → (t = rqdelaytaskTd → x.expiry = .idle) →
      x'.s.pc t = x.s.pc t ∧ (¬ x.Posts t i → x'.s.sema t = x.s.sema t) := by
  cases i with
  | send | acpt | wait =>
    obtain ⟨-, h⟩ := require_bind_eq_ok.mp h
    cases h
    exact ⟨rfl, fun _ _ _ _ ↦ ⟨rfl, fun _ ↦ rfl⟩⟩
  | isnd =>
    obtain ⟨-, h⟩ := require_bind_eq_ok.mp h
    split at h <;> cases h <;> exact ⟨rfl, fun _ _ _ _ ↦ ⟨rfl, fun _ ↦ rfl⟩⟩
  | line u =>
    obtain ⟨⟨s', p'⟩, h₁, h⟩ := Exec.bind_eq_ok.mp h
    cases h
    have hm := placeStep_moves h₁
    refine ⟨hm.cancel, fun t _ hi _ ↦ ?_⟩
    have htu : t ≠ u := fun he ↦ hi (he ▸ rfl)
    exact ⟨hm.pc t htu, hm.sema t htu⟩
  | expiry =>
    obtain ⟨-, h⟩ := require_bind_eq_ok.mp h
    obtain ⟨⟨s', l'⟩, h₁, h⟩ := Exec.bind_eq_ok.mp h
    cases h
    obtain ⟨hm, -⟩ := expiryStep_moves h₁
    refine ⟨hm.cancel, fun t ht _ h2 ↦ ?_⟩
    have ht2 : t ≠ rqdelaytaskTd := by
      rintro rfl
      rw [h2 rfl] at h₁
      obtain ⟨hp, -⟩ := require_bind_eq_ok.mp h₁
      rw [hp] at ht
      exact ht
    exact ⟨hm.pc t ht2, hm.sema t ht2⟩
  | tick =>
    obtain ⟨-, h⟩ := require_bind_eq_ok.mp h
    obtain ⟨⟨s', b⟩, h₁, h⟩ := Exec.bind_eq_ok.mp h
    cases h
    have hc := countDown_control h₁
    exact ⟨congrArg Control.cancel hc, fun t _ _ _ ↦
      ⟨congrFun (congrArg Control.pc hc) t, fun _ ↦ congrFun (congrArg Control.sema hc) t⟩⟩
  | other o =>
    obtain ⟨⟨u, hu, -⟩, h⟩ := require_bind_eq_ok.mp h
    obtain ⟨s', h₁, h⟩ := Exec.bind_eq_ok.mp h
    cases h
    obtain ⟨hm, hs, -⟩ := local_moves hu h₁
    refine ⟨hm.cancel, fun t ht _ _ ↦ ?_⟩
    have htu : t ≠ u := fun he ↦ hs (he ▸ ht)
    exact ⟨hm.pc t htu, fun _ ↦ hm.sema t htu id⟩

/-- Where a task stands that has queued itself after all. -/
theorem calm_place (hG : G t = false) : (x.calm G Z).place t = x.place t := by
  simp [calm, hG]

/-- A thread in no call. -/
theorem calm_out (h : x.place t = .out) : (x.calm G Z).place t = .out := by
  simp only [calm, h]
  split <;> rfl

/-- A thread goes on. -/
theorem calm_go (hG : G t = false) (s' : Nucleus) (p : Place) :
    (x.go t s' p).calm G Z = (x.calm G Z).go t (s'.veil Z) p := by
  have hp : (fun u ↦ if G u then (Function.update x.place t p u).calm else
      Function.update x.place t p u) =
      Function.update (fun u ↦ if G u then (x.place u).calm else x.place u) t p := by
    ext u
    by_cases hu : u = t
    · subst hu
      simp [hG]
    · simp [hu]
  simp only [calm, go, hp]

/-- A turn of a thread that is not veiled, of the delay task or of the timer. -/
theorem next_calm (h : x.next n i = .ok x') (hi : ∀ o, i ≠ .other o)
    (hG : ∀ t, i = .line t → G t = false) (hout : ∀ t, G t = true → x.place t ≠ .out)
    (hs : ∀ t e d, i = .line t → x.place t = .asleep e d → Z t = false)
    (hz : ∀ t e m u, i = .line t → x.place t = .send e m (.post u) → Z u = false)
    (hx : ∀ u, i = .expiry → x.expiry = .post u → Z u = false)
    (hu : ∀ t e m u, i = .line t → x.place t = .send e m (.test u) →
      x.s.status u = 0 ∨ x.s.status u &&& delayed ≠ 0) :
    (x.calm G Z).next n i = .ok (x'.calm G Z) := by
  have calls : ∀ {t}, x.Calls t → (x.calm G Z).Calls t ∧ G t = false := fun hc ↦
    ⟨⟨calm_out hc.1, hc.2⟩, Bool.eq_false_iff.mpr fun hg ↦ hout _ hg hc.1⟩
  cases i with
  | send t e m | acpt t e | wait t e d =>
    obtain ⟨hc, h⟩ := require_bind_eq_ok.mp h
    cases h
    obtain ⟨hc, hg⟩ := calls hc
    refine require_bind_eq_ok.mpr ⟨hc, ?_⟩
    rw [calm_go hg]
    rfl
  | isnd t e =>
    obtain ⟨hc, h⟩ := require_bind_eq_ok.mp h
    obtain ⟨hc, hg⟩ := calls hc
    refine require_bind_eq_ok.mpr ⟨hc, ?_⟩
    split at h
    · rename_i hl
      cases h
      apply (if_pos hl).trans
      rw [calm_go hg]
      rfl
    · rename_i hl
      cases h
      exact if_neg hl
  | line t =>
    obtain ⟨⟨s', p'⟩, h₁, h⟩ := Exec.bind_eq_ok.mp h
    cases h
    have hg := hG t rfl
    refine Exec.bind_eq_ok.mpr ⟨(s'.veil Z, p'), ?_, ?_⟩
    · rw [calm_place hg]
      exact placeStep_veil h₁ (hs t · · rfl) (hz t · · · rfl) (hu t · · · rfl)
    · rw [calm_go hg]
  | expiry =>
    obtain ⟨hc, h⟩ := require_bind_eq_ok.mp h
    obtain ⟨⟨s', l'⟩, h₁, h⟩ := Exec.bind_eq_ok.mp h
    cases h
    exact require_bind_eq_ok.mpr ⟨calm_out hc, Exec.bind_eq_ok.mpr
      ⟨_, expiryStep_veil h₁ (hx · rfl), rfl⟩⟩
  | tick =>
    obtain ⟨hc, h⟩ := require_bind_eq_ok.mp h
    obtain ⟨⟨s', b⟩, h₁, h⟩ := Exec.bind_eq_ok.mp h
    cases h
    exact require_bind_eq_ok.mpr ⟨⟨calm_out hc.1, hc.2⟩, Exec.bind_eq_ok.mpr
      ⟨_, countDown_veil h₁, rfl⟩⟩
  | other o => exact absurd rfl (hi o)

/-- What is not at a place is not at the calm one. -/
theorem calm_cases (p : Place) : p.calm = p ∨ (∃ e d, p = .asleep e d ∧ p.calm = .out) ∨
    ∃ e d, p = .wait e d .unlock ∧ p.calm = .acpt e .release := by
  cases p with
  | asleep e d => exact .inr (.inl ⟨e, d, rfl, rfl⟩)
  | wait e d l =>
    cases l with
    | unlock => exact .inr (.inr ⟨e, d, rfl, rfl⟩)
    | _ => exact .inl rfl
  | _ => exact .inl rfl

/-- Where a thread stands in the calm system it stands there in the system. -/
theorem calm_imp {P : Place → Prop} (h : P ((x.calm G Z).place u)) (ho : ¬ P .out)
    (hr : ∀ e, ¬ P (.acpt e .release)) : P (x.place u) := by
  simp only [calm] at h
  split at h
  · rcases calm_cases (x.place u) with hc | ⟨e, d, -, hc⟩ | ⟨e, d, -, hc⟩ <;> rw [hc] at h
    · exact h
    · exact absurd h ho
    · exact absurd h (hr e)
  · exact h

/-- An orderly turn is orderly in the calm system. -/
theorem orderly_calm (h : x.Orderly i) : (x.calm G Z).Orderly i := by
  cases i with
  | line t =>
    obtain ⟨h1, h2, h3⟩ := h
    refine ⟨fun e hl ↦ ?_, fun e d hp u e' d' hu ↦ ?_, fun e m hp hm u hu ↦ ?_⟩
    · exact h1 e (calm_imp (P := fun p ↦ p.locks e) hl id fun _ ↦ id)
    · exact h2 e d (calm_imp (P := fun p ↦ p = .wait e d .readTail) hp (by simp) (by simp)) u e' d'
        (calm_imp (P := fun p ↦ p = .wait e' d' .writeLink) hu (by simp) (by simp))
    · exact h3 e m (calm_imp (P := fun p ↦ p = .send e m .lock) hp (by simp) (by simp)) hm u
        (calm_imp (P := fun p ↦ p.carries m) hu id fun _ ↦ id)
  | other o =>
    exact ⟨h.1, fun t n size now ho u hu ↦ h.2 t n size now ho u
      (calm_imp (P := fun p ↦ p.carries (.user n)) hu id fun _ ↦ id)⟩
  | _ => exact h

/-- A turn that touches no queue and no waiting task. -/
theorem Inv.other_calm {g : Ledger} {r : Log} {o : Op} (h : Inv (x.calm G Z) g r)
    (ho : x.Orderly (.other o)) (hs : x.next n (.other o) = .ok x') : Inv (x'.calm G Z) g r := by
  obtain ⟨⟨t, ht, hp⟩, hs⟩ := require_bind_eq_ok.mp hs
  obtain ⟨s', h₁, hs⟩ := Exec.bind_eq_ok.mp hs
  cases hs
  have go : ∀ c : Control, c.mutex = x.s.mutex → c.sema = x.s.sema →
      (∀ u ≠ t, c.status u = x.s.status u) → c.message = x.s.message →
      c.exchange = x.s.exchange →
      Inv (({ x with s := { x.s with toControl := c } } : Traffic).calm G Z) g r := by
    intro c hm hse hst hmsg hex
    refine h.local (calm_out hp) (c := c.veil Z) hm ?_ (fun u hu ↦ ?_) hmsg hex
    · show (fun u ↦ if Z u then 0 else c.sema u) = _
      rw [hse]
      rfl
    · show c.status u &&& waitBits = _
      rw [hst u hu]
      rfl
  cases o with
  | reqcmsg u k size now =>
    obtain rfl := Option.some.inj ht
    obtain ⟨-, h₁⟩ := require_bind_eq_ok.mp h₁
    cases h₁
    obtain ⟨ho, hc⟩ := orderly_calm (G := G) (Z := Z) ho
    exact h.reqcmsg (calm_out hp) ho (hc u k size now rfl)
  | setType u k type =>
    obtain ⟨-, h₁⟩ := require_bind_eq_ok.mp h₁
    cases h₁
    exact go _ rfl rfl (fun _ _ ↦ rfl) rfl rfl
  | exitRegion u =>
    simp only [step, exitAt] at h₁
    split at h₁
    · rename_i c _
      cases h₁
      have he := Board.exitRegion_eq x.s.toControl u c
      show Inv (({ x with s := { x.s with
        toControl := x.s.toControl.exitRegion u c } } : Traffic).calm G Z) g r
      rw [he]
      exact go _ rfl rfl (fun _ _ ↦ rfl) rfl rfl
    · cases h₁
  | thaw u =>
    obtain rfl := Option.some.inj ht
    obtain ⟨-, h₁⟩ := require_bind_eq_ok.mp h₁
    unfold thawAt at h₁
    split at h₁
    · cases h₁
      exact go _ rfl rfl (fun _ _ ↦ rfl) rfl rfl
    · cases h₁
      exact go _ rfl rfl (fun v hv ↦ Function.update_of_ne hv _ _) rfl rfl
    · cases h₁
  | reqfreeze u =>
    obtain ⟨-, h₁⟩ := require_bind_eq_ok.mp h₁
    cases h₁
    obtain ⟨p, z, hz, -⟩ := Board.reqfreeze_cases x.s.toControl u .reqfreeze
    show Inv (({ x with s := { x.s with
      toControl := x.s.toControl.reqfreeze u .reqfreeze } } : Traffic).calm G Z) g r
    rw [hz]
    exact go _ rfl rfl (fun _ _ ↦ rfl) rfl rfl
  | reqbake u =>
    obtain ⟨-, h₁⟩ := require_bind_eq_ok.mp h₁
    cases h₁
    show Inv
      (({ x with s := { x.s with toControl := x.s.toControl.reqbake } } : Traffic).calm G Z) g r
    rw [Board.reqbake_eq]
    exact go _ rfl rfl (fun _ _ ↦ rfl) rfl rfl
  | _ => cases ht

end Traffic

end YRmx
