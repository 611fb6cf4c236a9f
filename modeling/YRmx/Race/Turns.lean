import YRmx.Race.Crossing

/-!
# Turns that come to their end

Library `YRmx`. What a run has to keep to so that the queues stay intact: the delay task takes a
task up only while it could lock the mutex of the exchange, nobody locks the exchange that it works
on, `tail_task` is not overwritten while another caller is about to use it, and no message is sent
by two threads at a time. A turn proceeds when it comes to its end, unless it has to wait.
-/

namespace YRmx

open Transition

/-- The thread is about to lock `exch->mutex`. -/
def Place.locks (e : ExchId) : Place → Prop
  | .send e' _ .lock | .acpt e' .lock | .wait e' _ .lock | .relock e' _ => e' = e
  | _ => False

/-- The sender has accepted the message, and neither stored it nor given it away. -/
def Place.carries (m : MsgId) : Place → Prop
  | .send _ m' .head | .send _ m' .tail | .send _ m' .append | .send _ m' .busy
  | .send _ m' (.readLink _) | .send _ m' (.setHead ..) | .send _ m' (.setTail _)
  | .send _ m' (.give _) => m' = m
  | _ => False

namespace Traffic

/-- The turn is one that the calls should allow. -/
def Orderly (x : Traffic) : Turn → Prop
  | .line t =>
    (∀ e, (x.place t).locks e → ¬ x.expiry.worksOn e) ∧
    (∀ e d, x.place t = .wait e d .readTail → ∀ u e' d', x.place u ≠ .wait e' d' .writeLink) ∧
    ∀ e m, x.place t = .send e m .lock → x.s.msgLink m = .msg m → ∀ u, ¬ (x.place u).carries m
  | .expiry => x.expiry = .first → ∀ t e, x.s.word0 .delayHead = .task t →
      x.s.delay (.task t) = 0 → x.s.exchange t = .exch e → x.s.mutex e = false
  | .other o => x.s.Fresh o ∧
      ∀ t n size now, o = .reqcmsg t n size now → ∀ u, ¬ (x.place u).carries (.user n)
  | _ => True

/-- The turn comes to its end, and then `P` holds, or it has to wait. -/
def Proceeds (x : Traffic) (i : Turn) (P : Traffic → Prop) : Prop :=
  (∃ x', Yields (fun n ↦ x.next n i) x' ∧ P x') ∨ ∀ n, x.next n i = .error .blocked

variable {x x' : Traffic} {g : Ledger} {r : Log} {i : Turn} {t : TaskId} {e : ExchId} {m : MsgId}
  {s' : Nucleus} {p' : Place} {P : Traffic → Prop}

/-! ### Fuel -/

/-- A line of a thread is monotone. -/
theorem placeStep_mono (b : Bool) (s : Nucleus) (t : TaskId) (p : Place) :
    FuelMono fun n ↦ placeStep n b s t p := by
  cases p with
  | wait e d l =>
    refine (FuelMono.const _).bind fun _ ↦ FuelMono.bind ?_ fun _ ↦ .const _
    cases l with
    | delay =>
      exact FuelMono.bind (.ite _ (insertDelay_mono _ t) (.const _)) fun _ ↦ .const _
    | _ => exact .const _
  | _ => exact .const _

/-- Every turn is monotone. -/
theorem next_mono (x : Traffic) (i : Turn) : FuelMono fun n ↦ x.next n i := by
  cases i with
  | line t => exact (placeStep_mono x.free x.s t (x.place t)).bind fun _ ↦ .const _
  | other o => exact (FuelMono.const _).bind fun _ ↦ (step_mono x.s o).bind fun _ ↦ .const _
  | _ => exact .const _

/-- A turn that proceeds ends as it does whenever it comes to its end. -/
theorem Proceeds.of_step (h : x.Proceeds i P) (hs : Step x i x') : P x' := by
  obtain ⟨n, hn⟩ := hs
  rcases h with ⟨y, hy, hP⟩ | h
  · rwa [((next_mono x i).yields hn).unique hy]
  · rw [h n] at hn
    cases hn

/-! ### One line -/

/-- A turn that comes to its end at once. -/
theorem Proceeds.now (x' : Traffic) (h : ∀ n, x.next n i = .ok x') (hP : P x') : x.Proceeds i P :=
  .inl ⟨x', ⟨0, fun n _ ↦ h n⟩, hP⟩

/-- A line of a thread that has to wait. -/
theorem Proceeds.waits (h : ∀ n, placeStep n x.free x.s t (x.place t) = .error .blocked) :
    x.Proceeds (.line t) P :=
  .inr fun n ↦ by simp only [next, h n, Exec.error_bind]

/-- A line of a thread that comes to its end with enough fuel. -/
theorem Proceeds.yields (s' : Nucleus) (p' : Place)
    (h : Yields (fun n ↦ placeStep n x.free x.s t (x.place t)) (s', p'))
    (hP : P (x.go t s' p')) : x.Proceeds (.line t) P :=
  .inl ⟨_, h.bind (.const _), hP⟩

/-- A line of a thread that comes to its end. -/
theorem Proceeds.line (s' : Nucleus) (p' : Place)
    (h : ∀ n, placeStep n x.free x.s t (x.place t) = .ok (s', p')) (hP : P (x.go t s' p')) :
    x.Proceeds (.line t) P :=
  .yields s' p' ⟨0, fun n _ ↦ h n⟩ hP

/-- A line of the delay task that comes to its end. -/
theorem Proceeds.expiry (s' : Nucleus) (l' : ExpiryLine) (h0 : x.place rqdelaytaskTd = .out)
    (h : expiryStep x.s x.expiry = .ok (s', l')) (hP : P { x with s := s', expiry := l' }) :
    x.Proceeds .expiry P :=
  .inl ⟨_, ⟨0, fun n _ ↦ by simp only [next, require, h0, if_pos, h, Exec.ok_bind]⟩, hP⟩

/-! ### Who has what -/

/-- The thread that has locked an exchange is on its way with one message there, or with none. -/
theorem Inv.locked (h : Inv x g r) (hh : (x.place t).holds e) :
    ∃ ms, Locked x g t e ms ∧ ∀ m ∈ ms, (x.place t).carries m := by
  have hp := h.thread t
  cases hpl : x.place t with
  | out | asleep | relock =>
    rw [hpl] at hh
    exact hh.elim
  | wake e' d | leave e' d =>
    rw [hpl] at hh hp
    obtain rfl : e' = e := hh
    exact ⟨[], hp.2.1, by simp⟩
  | acpt e' l =>
    rw [hpl] at hh hp
    obtain ⟨rfl, hl⟩ := hh
    have hp := hp.2
    cases l with
    | lock => exact absurd rfl hl
    | enter | release | fetch => exact ⟨[], hp.1, by simp⟩
  | wait e' d l =>
    rw [hpl] at hh hp
    obtain ⟨rfl, hl, hd⟩ := hh
    cases l with
    | lock => exact absurd rfl hl
    | done => exact absurd rfl hd
    | enter | clear | fetch | release => exact ⟨[], hp.2.1, by simp⟩
    | test | readTail => exact ⟨[], Joins.locked hp, by simp⟩
    | setHead | writeLink | setTail | check | delay | unlock => exact ⟨[], hp.1.locked, by simp⟩
  | send e' m l =>
    rw [hpl] at hh hp
    obtain ⟨rfl, hl, hd⟩ := hh
    have hp := hp.2
    cases l with
    | lock => exact absurd rfl hl
    | post u => exact absurd rfl (hd u)
    | head | tail | append | busy | readLink | setHead | setTail | give =>
      exact ⟨[m], hp.1, fun m' hm ↦ (List.mem_singleton.mp hm).symm⟩
    | status | test | cancel | unlock => exact ⟨[], hp.1, by simp⟩

/-- The delay task works on a queue without a message on its way. -/
theorem Inv.searched (h : Inv x g r) (hh : x.expiry.worksOn e) :
    g.hold e = some .delayTask ∧ g.carried e = [] := by
  have hp := h.expiry
  cases hl : x.expiry with
  | search t e' a | readLink t e' a | writeLink t e' a p =>
    rw [hl] at hh hp
    obtain rfl : e' = e := hh
    exact ⟨hp.1.hold, hp.1.carried⟩
  | setTail t e' a =>
    rw [hl] at hh hp
    obtain rfl : e' = e := hh
    exact ⟨hp.1, hp.2.1⟩
  | idle | first | cancel | message | post =>
    rw [hl] at hh
    exact hh.elim

/-- An accepted message is on its way with its sender. -/
theorem Inv.carried (h : Inv x g r) (hm : m ∈ g.carried e) :
    ∃ t, (x.place t).carries m ∧ accepts x.s t m := by
  cases hh : g.hold e with
  | none =>
    rw [(h.books.free hh).2] at hm
    cases hm
  | some a =>
    cases a with
    | delayTask =>
      rw [(h.searched (h.held hh)).2] at hm
      cases hm
    | thread t =>
      obtain ⟨ms, hl, hc⟩ := h.locked (h.held hh)
      rw [hl.carried] at hm
      exact ⟨t, hc m hm, hl.accepts m hm⟩

/-- Nobody works on an exchange whose mutex is free, unless the delay task does. -/
theorem Inv.unheld (h : Inv x g r) (hm : x.s.mutex e = false) (hx : ¬ x.expiry.worksOn e) :
    g.hold e = none := by
  cases hh : g.hold e with
  | none => rfl
  | some a =>
    cases a with
    | delayTask => exact absurd (h.held hh) hx
    | thread t => simp [h.books.mutex hh] at hm

/-- A thread that is not asleep is not taken, and it waits in no queue that another agent works
on. -/
theorem Inv.up (h : Inv x g r) (hp : ∀ e d, x.place t ≠ .asleep e d) :
    (∀ a, g.serve t ≠ .taken a) ∧ g.serve t ≠ .posted ∧
      ∀ e, g.serve t = .queued e → g.hold e = some (.thread t) := by
  have ht := h.thread t
  have idle : g.serve t = .idle → (∀ a, g.serve t ≠ .taken a) ∧ g.serve t ≠ .posted ∧
      ∀ e, g.serve t = .queued e → g.hold e = some (.thread t) := fun h0 ↦ by simp [h0]
  have joined : ∀ {e}, Joined x g r t e → (∀ a, g.serve t ≠ .taken a) ∧ g.serve t ≠ .posted ∧
      ∀ e, g.serve t = .queued e → g.hold e = some (.thread t) := by
    intro e hj
    rw [hj.serve]
    refine ⟨by simp, by simp, fun e' he ↦ ?_⟩
    cases he
    exact hj.locked.hold
  cases hpl : x.place t with
  | asleep e d => exact absurd hpl (hp e d)
  | out =>
    rw [hpl] at ht
    exact idle ht
  | send | acpt =>
    rw [hpl] at ht
    exact idle ht.1
  | relock | wake | leave =>
    rw [hpl] at ht
    first
    | exact idle ht.serve
    | exact idle ht.1.serve
  | wait e d l =>
    rw [hpl] at ht
    cases l with
    | lock => exact idle ht
    | done => exact ht.elim
    | enter | clear | fetch | release => exact idle ht.1
    | test | readTail => exact idle (Joins.serve ht)
    | setHead | writeLink => exact idle ht.1.serve
    | setTail | check | delay | unlock => exact joined ht.1

/-- A task that waits in a queue is asleep, unless it holds the exchange itself. -/
theorem Inv.queued_asleep (h : Inv x g r) (hq : g.serve t = .queued e)
    (hh : g.hold e ≠ some (.thread t)) :
    ∃ d, x.place t = .asleep e d ∧ x.s.exchange t = .exch e ∧ x.s.status t = limitStatus d ∧
      (g.Timed t ↔ d ≠ 0) ∧ r.past t = [] := by
  by_cases hp : ∀ e d, x.place t ≠ .asleep e d
  · exact absurd ((h.up hp).2.2 e hq) hh
  · push Not at hp
    obtain ⟨e', d, hp⟩ := hp
    have ht := h.thread t
    rw [hp] at ht
    obtain ⟨hx, ht⟩ := ht
    rw [hq] at ht
    obtain ⟨rfl, ht⟩ := ht
    exact ⟨d, hp, hx, ht⟩

/-- A task that was taken is as it was when it fell asleep. -/
theorem Taken.asleep {a : Agent} {d : BitVec 16} {l : List Service} {p : Prop} (h : Inv x g r)
    (ht : Taken x g r a t e d l p) : x.s.exchange t = .exch e ∧ x.s.link t ≠ .task t := by
  have hp := h.thread t
  rw [ht.place] at hp
  obtain ⟨hx, hp⟩ := hp
  rw [ht.serve] at hp
  exact ⟨hx, hp⟩

/-! ### A line at one exchange -/

section

variable {g' : Ledger} {r' : Log} {u : TaskId} {a b : Agent} {d : BitVec 16}

/-- A thread goes on at one exchange, and attends to no task. -/
theorem Inv.goes (h : Inv x g r) (hp : ∀ e d, x.place u ≠ .asleep e d) (e : ExchId)
    (hat : ∀ e', (x.place u).exch = some e' → e' = e) (hsv : ∀ t, ¬ (x.place u).serves t)
    (hb : Books s' g' r') (hu : ∀ a, g'.serve u ≠ .taken a)
    (he : SameExch x.s s' g g' e ∨ (g.hold e = none ∨ g.hold e = some (.thread u)) ∧
      (g'.hold e = none ∨ g'.hold e = some (.thread u)))
    (hE : ∀ e' ≠ e, SameExch x.s s' g g' e') (hT : ∀ t ≠ u, SameTask x.s s' g g' r r' t)
    (hH : g'.hold e = some (.thread u) → p'.holds e)
    (hW : s'.tailTask = x.s.tailTask ∨ ∀ t e d, t ≠ u → x.place t ≠ .wait e d .writeLink)
    (hown : PlaceOk (x.go u s' p') g' r' u p') : Inv (x.go u s' p') g' r' := by
  obtain ⟨h1, -, h2⟩ := h.up hp
  refine h.moves h1 hu (fun e he ↦ ?_) hb (fun e' ↦ ?_)
    (fun t ht ↦ .inl (hT t ht)) (fun e' he' ↦ ?_)
    (fun t ht ↦ ?_) hW hown
  · rw [h2 e he]
    simp
  · by_cases he' : e' = e
    · subst he'
      exact he
    · exact .inl (hE e' he')
  · by_cases hee : e' = e
    · subst hee
      exact hH he'
    · have hold : (x.place u).holds e' := h.held (a := .thread u) ((hE e' hee).hold ▸ he')
      exact absurd (hat e' hold.exch) hee
  · by_cases htu : t = u
    · exact absurd (htu ▸ ht) (hu _)
    · have hold : (x.place u).serves t := h.taken (a := .thread u) ((hT t htu).serve ▸ ht)
      exact absurd hold (hsv t)

/-- A thread goes on at one exchange, and attends to a task that waits there. -/
theorem Inv.attends (h : Inv x g r) (hp : ∀ e d, x.place u ≠ .asleep e d) (e : ExchId)
    (hat : ∀ e', (x.place u).exch = some e' → e' = e) {v : TaskId}
    (hsv : ∀ w, (x.place u).serves w → w = v)
    (hv : g.serve v = .taken (.thread u) ∨ ∃ e, g.serve v = .queued e ∧ g.hold e = some (.thread u))
    (hb : Books s' g' r') (hu : ∀ a, g'.serve u ≠ .taken a)
    (he : SameExch x.s s' g g' e ∨ (g.hold e = none ∨ g.hold e = some (.thread u)) ∧
      (g'.hold e = none ∨ g'.hold e = some (.thread u)))
    (hE : ∀ e' ≠ e, SameExch x.s s' g g' e')
    (hT : ∀ t ≠ u, t ≠ v → SameTask x.s s' g g' r r' t)
    (hv' : ∀ a, g'.serve v = .taken a → a = .thread u ∧ p'.serves v)
    (hok : PlaceOk (x.go u s' p') g' r' v (x.place v))
    (hH : g'.hold e = some (.thread u) → p'.holds e) (hW : s'.tailTask = x.s.tailTask)
    (hown : PlaceOk (x.go u s' p') g' r' u p') : Inv (x.go u s' p') g' r' := by
  obtain ⟨h1, -, h2⟩ := h.up hp
  refine h.moves h1 hu (fun e he ↦ ?_) hb (fun e' ↦ ?_) (fun t ht ↦ ?_) (fun e' he' ↦ ?_)
    (fun t ht ↦ ?_) (.inl hW) hown
  · rw [h2 e he]
    simp
  · by_cases he' : e' = e
    · subst he'
      exact he
    · exact .inl (hE e' he')
  · by_cases htv : t = v
    · subst htv
      exact .inr ⟨hv, fun a ha ↦ (hv' a ha).1, hok⟩
    · exact .inl (hT t ht htv)
  · by_cases hee : e' = e
    · subst hee
      exact hH he'
    · have hold : (x.place u).holds e' := h.held (a := .thread u) ((hE e' hee).hold ▸ he')
      exact absurd (hat e' hold.exch) hee
  · by_cases htu : t = u
    · exact absurd (htu ▸ ht) (hu _)
    by_cases htv : t = v
    · subst htv
      exact (hv' _ ht).2
    · have hold : (x.place u).serves t := h.taken (a := .thread u) ((hT t htu htv).serve ▸ ht)
      exact absurd (hsv t hold) htv

/-- A task that was taken is no task that runs. -/
theorem Taken.ne {l : List Service} {p : Prop} (ht : Taken x g r a t e d l p)
    (hu : g.serve u = .idle) : t ≠ u := by
  rintro rfl
  rw [ht.serve] at hu
  cases hu

/-- A task stays taken. -/
theorem Taken.placeOk {l : List Service} {p : Prop} (h : Inv x g r)
    (ht : Taken x g r a t e d l p) (hs : g'.serve t = .taken b)
    (hx : x'.s.exchange t = x.s.exchange t) (hl : x'.s.link t = x.s.link t) :
    PlaceOk x' g' r' t (x.place t) := by
  obtain ⟨h1, h2⟩ := ht.asleep h
  rw [ht.place]
  refine ⟨hx.trans h1, ?_⟩
  rw [hs]
  exact hl ▸ h2

end

end Traffic

end YRmx
