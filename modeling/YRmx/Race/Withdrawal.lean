import YRmx.Race.Removal

/-!
# Tasks that are in no list

Library `YRmx`. A task is left when it stands in no queue and nobody is between unlinking it and
cancelling its delay: then it is in no list, its status byte tells of no wait, and nothing is done
for it any more but what comes after that. A turn brings it back into a list only when its own
thread links it again.
-/

namespace YRmx

open Intrusive Transition

/-- The thread has linked itself into the queue of the exchange. -/
def Line.Joined : Line → Prop
  | .setTail | .check | .delay | .unlock => True
  | _ => False

/-- The thread is about to link itself into the queue of its exchange. -/
def Place.Joins : Place → Prop
  | .wait _ _ .setHead | .wait _ _ .writeLink => True
  | _ => False

instance (p : Place) : Decidable p.Joins :=
  match p with
  | .wait _ _ l => decidable_of_iff (l = .setHead ∨ l = .writeLink) (by
      cases l <;> simp [Place.Joins])
  | .out | .send .. | .acpt .. | .asleep .. | .relock .. | .wake .. | .leave .. =>
    .isFalse not_false

/-- The thread has linked itself and not yet written its status byte. -/
def Place.Joining : Place → Prop
  | .wait _ _ .setTail | .wait _ _ .check | .wait _ _ .delay => True
  | _ => False

/-- The sender has unlinked the task, and its delay may not be cancelled yet. -/
def Place.ends (t : TaskId) : Place → Prop
  | .send _ _ (.setTail u) | .send _ _ (.give u) | .send _ _ (.status u) | .send _ _ (.test u)
  | .send _ _ (.cancel u) => u = t
  | _ => False

/-- The delay task has unlinked the task, and its delay is not cancelled yet. -/
def ExpiryLine.ends (t : TaskId) : ExpiryLine → Prop
  | .setTail u .. | .cancel u => u = t
  | _ => False

/-- The thread has just entered a call. -/
def Place.Enters : Place → Prop
  | .send _ _ .lock | .acpt _ .lock | .wait _ _ .lock => True
  | _ => False

private theorem undelayed {k : BitVec 8} (h : k &&& waiting = 0) :
    k &&& ~~~delayed &&& waitBits = 0 := by
  have hb : ~~~delayed &&& waitBits = waiting := by decide
  rw [BitVec.and_assoc, hb, h]

namespace Traffic

variable {s s' : Nucleus} {x x' : Traffic} {g g' : Ledger} {r r' : Log} {t u : TaskId} {e : ExchId}
  {d : BitVec 16} {n : Nat} {i : Turn}

/-- An agent has unlinked the task, and its delay may not be cancelled yet. -/
def Agent.ends (x : Traffic) (t : TaskId) : Agent → Prop
  | .thread u => (x.place u).ends t
  | .delayTask => x.expiry.ends t

/-- What has been done for a task that was taken. -/
theorem Inv.taken_by (h : Inv x g r) {a : Agent} (hs : g.serve t = .taken a) :
    r.past t ≠ [] ∧ (g.Timed t → a.ends x t) := by
  have hserve := h.taken hs
  have of : ∀ {e d l p}, Taken x g r a t e d l p → l ≠ [] → (p → a.ends x t) →
      r.past t ≠ [] ∧ (g.Timed t → a.ends x t) :=
    fun ht hl hp ↦ ⟨ht.past ▸ hl, fun htm ↦ hp (ht.timed.mp htm)⟩
  cases a with
  | delayTask =>
    have hx := h.expiry
    have hserve : x.expiry.serves t := hserve
    cases hl : x.expiry with
    | setTail v e a =>
      rw [hl] at hx hserve
      obtain rfl : v = t := hserve
      obtain ⟨-, -, -, d, -, hv⟩ := hx
      exact of hv (by simp) fun _ ↦ by simp [Agent.ends, hl, ExpiryLine.ends]
    | cancel v =>
      rw [hl] at hx hserve
      obtain rfl : v = t := hserve
      obtain ⟨e, d, -, hv⟩ := hx
      exact of hv (by simp) fun _ ↦ by simp [Agent.ends, hl, ExpiryLine.ends]
    | message v =>
      rw [hl] at hx hserve
      obtain rfl : v = t := hserve
      obtain ⟨e, d, -, hv⟩ := hx
      exact of hv (by simp) False.elim
    | post v =>
      rw [hl] at hx hserve
      obtain rfl : v = t := hserve
      obtain ⟨e, d, -, hv, -⟩ := hx
      exact of hv (by simp [timeOutServices]) False.elim
    | idle | first | search | readLink | writeLink =>
      rw [hl] at hserve
      exact hserve.elim
  | thread u =>
    have hu := h.thread u
    have hserve : (x.place u).serves t := hserve
    cases hp : x.place u with
    | send e m l =>
      rw [hp] at hu hserve
      have hu := hu.2
      cases l with
      | setTail v | give v | status v | test v =>
        obtain rfl : v = t := hserve
        obtain ⟨-, -, -, d, hv, -⟩ := hu
        exact of hv (by simp) fun _ ↦ by simp [Agent.ends, hp, Place.ends]
      | cancel v =>
        obtain rfl : v = t := hserve
        obtain ⟨-, -, -, d, -, hv, -⟩ := hu
        exact of hv (by simp) fun _ ↦ by simp [Agent.ends, hp, Place.ends]
      | unlock v =>
        obtain rfl : v = t := hserve
        obtain ⟨-, -, -, d, hv, -⟩ := hu
        exact of hv (by simp [sendServices]) False.elim
      | post v =>
        obtain rfl : v = t := hserve
        obtain ⟨-, d, hv, -⟩ := hu
        exact of hv (by simp [sendServices]) False.elim
      | lock | head | tail | append | busy | readLink | setHead => exact hserve.elim
    | out | acpt | wait | asleep | relock | wake | leave =>
      rw [hp] at hserve
      exact hserve.elim

/-- Where a queued task stands. -/
theorem Inv.queued_place (h : Inv x g r) (hq : g.serve t = .queued e) :
    (∃ d, x.place t = .asleep e d ∧ r.past t = []) ∨ ∃ d l, x.place t = .wait e d l ∧ l.Joined := by
  have ht := h.thread t
  have idle : g.serve t ≠ .idle := by simp [hq]
  cases hp : x.place t with
  | asleep e' d =>
    rw [hp] at ht
    obtain ⟨-, ht⟩ := ht
    rw [hq] at ht
    obtain ⟨rfl, -, -, hpast⟩ := ht
    exact .inl ⟨d, rfl, hpast⟩
  | wait e' d l =>
    rw [hp] at ht
    have joined : Joined x g r t e' → e' = e := fun hj ↦ Stage.queued.inj (hj.serve.symm.trans hq)
    cases l with
    | lock => exact absurd ht idle
    | done => exact ht.elim
    | enter | clear | fetch | release => exact absurd ht.1 idle
    | test | readTail => exact absurd (Joins.serve ht) idle
    | setHead | writeLink => exact absurd ht.1.serve idle
    | setTail | check | delay | unlock =>
      obtain rfl := joined ht.1
      exact .inr ⟨d, _, rfl, trivial⟩
  | out =>
    rw [hp] at ht
    exact absurd ht idle
  | send | acpt =>
    rw [hp] at ht
    exact absurd ht.1 idle
  | relock =>
    rw [hp] at ht
    exact absurd (Awake.serve ht) idle
  | wake | leave =>
    rw [hp] at ht
    exact absurd ht.1.serve idle

/-- A task that has linked itself is queued. -/
theorem Inv.joined_queued (h : Inv x g r) {l : Line} (hp : x.place t = .wait e d l)
    (hl : l.Joined) : g.serve t = .queued e := by
  have ht := h.thread t
  rw [hp] at ht
  cases l with
  | setTail | check | delay | unlock => exact ht.1.serve
  | _ => exact hl.elim

/-- The task is in no queue, and no agent is between taking it and cancelling its delay. -/
structure Left (x : Traffic) (g : Ledger) (t : TaskId) : Prop where
  queued : ∀ e, g.serve t ≠ .queued e
  ends : ∀ a : Agent, ¬ a.ends x t

/-- A task that is left is in no list. -/
theorem Inv.untimed (h : Inv x g r) (ht : Left x g t) : ¬ g.Timed t := by
  intro htm
  obtain ⟨hi, hp⟩ := h.books.timed htm
  cases hs : g.serve t with
  | idle => exact hi hs
  | posted => exact hp hs
  | queued e => exact ht.queued e hs
  | taken a => exact ht.ends a ((h.taken_by hs).2 htm)

/-- A task that sleeps in no queue was attended to. -/
theorem Inv.past_ne (h : Inv x g r) (hq : ∀ e, g.serve t ≠ .queued e)
    (hp : x.place t = .asleep e d) : r.past t ≠ [] := by
  have ht := h.thread t
  rw [hp] at ht
  obtain ⟨-, ht⟩ := ht
  cases hs : g.serve t with
  | idle =>
    rw [hs] at ht
    exact ht.elim
  | queued e' => exact absurd hs (hq e')
  | taken a => exact (h.taken_by hs).1
  | posted =>
    rw [hs] at ht
    obtain ⟨-, m, -, ⟨-, hl⟩ | ⟨-, -, hl⟩⟩ := ht <;> simp [hl]

/-! ### One turn -/

/-- Where a line of `reqsend` leads to. -/
theorem sendStep_place {b : Bool} {m : MsgId} {l : SendLine} {p' : Place}
    (h : sendStep b s u e m l = .ok (s', p')) : p' = .out ∨ ∃ l', p' = .send e m l' ∧
      ∀ t, (Place.send e m l').ends t → (Place.send e m l).ends t ∨ ∃ a, l = .setHead t a := by
  cases l with
  | lock =>
    obtain ⟨-, h⟩ := require_bind_eq_ok.mp h
    split at h <;> cases h
    · exact .inr ⟨_, rfl, fun _ ↦ False.elim⟩
    · exact .inl rfl
  | head =>
    cases h
    refine .inr ⟨_, rfl, fun _ ht ↦ ?_⟩
    split at ht <;> exact ht.elim
  | tail =>
    simp only [sendStep] at h
    split at h <;> cases h
    · exact .inl rfl
    · exact .inr ⟨_, rfl, fun _ ↦ False.elim⟩
  | append =>
    obtain ⟨s₁, -, h⟩ := Exec.bind_eq_ok.mp h
    cases h
    exact .inl rfl
  | busy =>
    simp only [sendStep] at h
    split at h
    · cases h
      exact .inl rfl
    · obtain ⟨v, -, h⟩ := Exec.bind_eq_ok.mp h
      cases h
      exact .inr ⟨_, rfl, fun _ ↦ False.elim⟩
  | readLink v =>
    cases h
    exact .inr ⟨_, rfl, fun _ ↦ False.elim⟩
  | setHead v a =>
    cases h
    refine .inr ⟨_, rfl, fun t ht ↦ .inr ⟨a, ?_⟩⟩
    split at ht <;> exact congrArg (SendLine.setHead · a) ht
  | test v =>
    cases h
    refine .inr ⟨_, rfl, fun t ht ↦ .inl ?_⟩
    split at ht
    · exact ht
    · exact ht.elim
  | cancel v =>
    obtain ⟨-, h⟩ := require_bind_eq_ok.mp h
    obtain ⟨s₁, -, h⟩ := Exec.bind_eq_ok.mp h
    cases h
    exact .inr ⟨_, rfl, fun _ ↦ False.elim⟩
  | setTail v | give v | status v =>
    cases h
    exact .inr ⟨_, rfl, fun _ ht ↦ .inl ht⟩
  | unlock v =>
    cases h
    exact .inr ⟨_, rfl, fun _ ↦ False.elim⟩
  | post v =>
    cases h
    exact .inl rfl

/-- A thread that has linked itself by a line, or falls asleep by it. -/
theorem placeStep_waits {b : Bool} {p p' : Place} (h : placeStep n b s t p = .ok (s', p')) :
    (∀ e d l', p' = .wait e d l' → l'.Joined → p.Joins ∨ ∃ l, p = .wait e d l ∧ l.Joined) ∧
    ∀ e d, p' = .asleep e d → p = .wait e d .unlock := by
  cases p with
  | out => cases h
  | send e m l =>
    rcases sendStep_place h with rfl | ⟨l', rfl, -⟩ <;> simp
  | acpt e l =>
    cases l with
    | lock =>
      obtain ⟨-, h⟩ := require_bind_eq_ok.mp h
      cases h
      simp
    | fetch =>
      obtain ⟨s₁, -, h⟩ := Exec.bind_eq_ok.mp h
      cases h
      simp
    | enter | release =>
      cases h
      simp
  | wait e d l =>
    obtain ⟨-, h⟩ := require_bind_eq_ok.mp h
    obtain ⟨⟨s₁, l₁⟩, h₁, h⟩ := Exec.bind_eq_ok.mp h
    cases h
    cases l with
    | lock =>
      obtain ⟨-, h₁⟩ := require_bind_eq_ok.mp h₁
      cases h₁
      simp [Line.Joined]
    | enter | test =>
      cases h₁
      simp only [Place.wait.injEq, reduceCtorEq, false_implies, implies_true, and_true]
      rintro e' d' l' ⟨rfl, rfl, rfl⟩ hl
      split at hl <;> exact hl.elim
    | clear | readTail =>
      cases h₁
      simp [Line.Joined]
    | setHead =>
      cases h₁
      simp [Place.Joins]
    | writeLink => simp [Place.Joins]
    | setTail | check | delay => simp [Line.Joined]
    | unlock => simp
    | fetch =>
      obtain ⟨s₂, -, h₁⟩ := Exec.bind_eq_ok.mp h₁
      cases h₁
      simp [Line.Joined]
    | release => simp
    | done => cases h₁
  | asleep e d | relock e d =>
    obtain ⟨-, h⟩ := require_bind_eq_ok.mp h
    cases h
    simp
  | wake e d =>
    simp only [placeStep] at h
    split at h <;> cases h
    simp
  | leave e d =>
    cases h
    simp

/-- Which task a sender has just unlinked. -/
theorem placeStep_ends {b : Bool} {p p' : Place} (h : placeStep n b s u p = .ok (s', p'))
    (ht : p'.ends t) : p.ends t ∨ ∃ e m a, p = .send e m (.setHead t a) := by
  cases p with
  | out => cases h
  | send e m l =>
    rcases sendStep_place h with rfl | ⟨l', rfl, hends⟩
    · exact ht.elim
    · exact (hends t ht).imp_right fun ha ↦ ha.elim fun a hl ↦ ⟨e, m, a, by rw [hl]⟩
  | acpt e l =>
    cases l with
    | lock =>
      obtain ⟨-, h⟩ := require_bind_eq_ok.mp h
      cases h
      exact ht.elim
    | fetch =>
      obtain ⟨s₁, -, h⟩ := Exec.bind_eq_ok.mp h
      cases h
      exact ht.elim
    | enter | release =>
      cases h
      exact ht.elim
  | wait e d l =>
    obtain ⟨-, h⟩ := require_bind_eq_ok.mp h
    obtain ⟨⟨s₁, l₁⟩, -, h⟩ := Exec.bind_eq_ok.mp h
    cases h
    cases l <;> exact ht.elim
  | asleep e d | relock e d =>
    obtain ⟨-, h⟩ := require_bind_eq_ok.mp h
    cases h
    exact ht.elim
  | wake e d =>
    simp only [placeStep] at h
    split at h <;> cases h
    exact ht.elim
  | leave e d =>
    cases h
    exact ht.elim

/-- What was done for a task after one more turn. -/
theorem after_past (r : Log) (x : Traffic) (i : Turn) (t : TaskId) : (r.after x i).past t =
    (if x.begins i = some t then [] else r.past t) ++
      ((x.service i).toList.filter (·.1 = t)).map Prod.snd := by
  have begun : ∀ u, (r.begin u).past t = if u = t then [] else r.past t := fun u ↦ by
    by_cases hut : u = t
    · simp [hut]
    · simp [hut, Ne.symm hut]
  have served : ∀ (r₁ : Log) (p : TaskId × Service), (r₁.attend p.1 p.2).past t =
      r₁.past t ++ ([p].filter (·.1 = t)).map Prod.snd := fun r₁ p ↦ by
    by_cases hut : p.1 = t
    · simp [hut]
    · simp [hut, Ne.symm hut]
  unfold Log.after
  cases x.begins i <;> cases x.service i <;> cases x.accepted i <;> cases x.handed i <;>
    simp only [served, begun, Log.accept_past, Log.hand_past, Option.toList_none,
      Option.toList_some, List.filter_nil, List.map_nil, List.append_nil, reduceCtorEq, if_false,
      Option.some.injEq]

/-- A task that begins to wait does not sleep yet. -/
theorem begins_place (h : x.begins i = some t) : ∃ e d, x.place t = .wait e d .clear := by
  unfold begins at h
  split at h
  · split at h
    · rename_i e d hp
      cases h
      exact ⟨e, d, hp⟩
    · cases h
  · cases h

/-- Where a turn leaves the threads. -/
theorem next_place (h : x.next n i = .ok x') (t : TaskId) :
    x'.place t = x.place t ∨ x.Calls t ∧ (x'.place t).Enters ∨
      i = .line t ∧ placeStep n x.free x.s t (x.place t) = .ok (x'.s, x'.place t) := by
  have enter : ∀ {u s' p}, x.Calls u → x' = x.go u s' p → p.Enters →
      x'.place t = x.place t ∨ x.Calls t ∧ (x'.place t).Enters := by
    rintro u s' p hc rfl hp
    by_cases htu : t = u
    · exact .inr ⟨htu ▸ hc, by simpa [htu] using hp⟩
    · exact .inl (by simp [htu])
  cases i with
  | send | acpt | wait =>
    obtain ⟨hc, h⟩ := require_bind_eq_ok.mp h
    exact (enter hc (Except.ok.inj h).symm trivial).imp_right .inl
  | isnd =>
    obtain ⟨hc, h⟩ := require_bind_eq_ok.mp h
    split at h
    · exact (enter hc (Except.ok.inj h).symm trivial).imp_right .inl
    · cases h
      exact .inl rfl
  | line u =>
    obtain ⟨⟨s', p'⟩, h₁, h⟩ := Exec.bind_eq_ok.mp h
    cases h
    by_cases htu : t = u
    · subst htu
      exact .inr (.inr ⟨rfl, by simpa using h₁⟩)
    · exact .inl (by simp [htu])
  | expiry =>
    obtain ⟨-, h⟩ := require_bind_eq_ok.mp h
    obtain ⟨⟨s', l'⟩, -, h⟩ := Exec.bind_eq_ok.mp h
    cases h
    exact .inl rfl
  | tick =>
    obtain ⟨-, h⟩ := require_bind_eq_ok.mp h
    obtain ⟨⟨s', b⟩, -, h⟩ := Exec.bind_eq_ok.mp h
    cases h
    exact .inl rfl
  | other o =>
    obtain ⟨-, h⟩ := require_bind_eq_ok.mp h
    obtain ⟨s', -, h⟩ := Exec.bind_eq_ok.mp h
    cases h
    exact .inl rfl

/-- Where a turn leaves the delay task. -/
theorem next_expiry (h : x.next n i = .ok x') : x'.expiry = x.expiry ∨
    i = .expiry ∧ expiryStep x.s x.expiry = .ok (x'.s, x'.expiry) := by
  cases i with
  | send | acpt | wait =>
    obtain ⟨-, h⟩ := require_bind_eq_ok.mp h
    cases h
    exact .inl rfl
  | isnd =>
    obtain ⟨-, h⟩ := require_bind_eq_ok.mp h
    split at h <;> cases h <;> exact .inl rfl
  | line u =>
    obtain ⟨⟨s', p'⟩, h₁, h⟩ := Exec.bind_eq_ok.mp h
    cases h
    exact .inl rfl
  | expiry =>
    obtain ⟨-, h⟩ := require_bind_eq_ok.mp h
    obtain ⟨⟨s', l'⟩, h₁, h⟩ := Exec.bind_eq_ok.mp h
    cases h
    exact .inr ⟨rfl, h₁⟩
  | tick =>
    obtain ⟨-, h⟩ := require_bind_eq_ok.mp h
    obtain ⟨⟨s', b⟩, -, h⟩ := Exec.bind_eq_ok.mp h
    cases h
    exact .inl rfl
  | other o =>
    obtain ⟨-, h⟩ := require_bind_eq_ok.mp h
    obtain ⟨s', -, h⟩ := Exec.bind_eq_ok.mp h
    cases h
    exact .inl rfl

/-- Which task the delay task has just unlinked. -/
theorem expiryStep_ends {l l' : ExpiryLine} (h : expiryStep s l = .ok (s', l')) (ht : l'.ends t) :
    l.ends t ∨ ∃ e a p, l = .writeLink t e a p := by
  cases l with
  | idle =>
    obtain ⟨-, h⟩ := require_bind_eq_ok.mp h
    cases h
    exact ht.elim
  | first =>
    obtain ⟨p, -, h⟩ := Exec.bind_eq_ok.mp h
    split at h
    · obtain ⟨v, -, h⟩ := Exec.bind_eq_ok.mp h
      obtain ⟨e, -, h⟩ := Exec.bind_eq_ok.mp h
      cases h
      exact ht.elim
    · cases h
      exact ht.elim
  | search v e a =>
    obtain ⟨p, -, h⟩ := Exec.bind_eq_ok.mp h
    split at h <;> cases h <;> exact ht.elim
  | writeLink v e a p =>
    cases h
    right
    split at ht <;> exact ⟨e, a, p, congrArg (ExpiryLine.writeLink · e a p) ht⟩
  | setTail v e a =>
    cases h
    exact .inl ht
  | cancel v =>
    obtain ⟨s₁, -, h⟩ := Exec.bind_eq_ok.mp h
    cases h
    exact ht.elim
  | readLink | message | post =>
    cases h
    exact ht.elim

/-- A task that is in no list comes into none, unless it queues itself. -/
theorem Left.step (hl : Left x g t) (h : Inv x g r) (hs : x.next n i = .ok x')
    (h' : Inv x' g' (r.after x i)) (hj : i = .line t → ¬ (x.place t).Joins) : Left x' g' t where
  queued e hq := by
    have hline : ∀ {e d l}, x.place t = .wait e d l → ¬ l.Joined := fun hp hl' ↦
      hl.queued _ (h.joined_queued hp hl')
    rcases h'.queued_place hq with ⟨d, hp, hpast⟩ | ⟨d, l, hp, hl'⟩
    · rcases next_place hs t with hx | ⟨-, hx⟩ | ⟨rfl, hx⟩
      · rw [after_past, List.append_eq_nil_iff] at hpast
        obtain ⟨hpast, -⟩ := hpast
        split at hpast
        · rename_i hb
          obtain ⟨e', d', hb⟩ := begins_place hb
          rw [hx, hb] at hp
          cases hp
        · exact h.past_ne hl.queued (hx ▸ hp) hpast
      · rw [hp] at hx
        exact hx.elim
      · exact hline ((placeStep_waits hx).2 _ _ hp) trivial
    · rcases next_place hs t with hx | ⟨-, hx⟩ | ⟨rfl, hx⟩
      · exact hline (hx ▸ hp) hl'
      · rw [hp] at hx
        cases l <;> first | exact hx.elim | exact hl'.elim
      · rcases (placeStep_waits hx).1 _ _ _ hp hl' with hx | ⟨l₁, hx, hl₁⟩
        · exact hj rfl hx
        · exact hline hx hl₁
  ends a ha := by
    cases a with
    | thread u =>
      have ha : (x'.place u).ends t := ha
      rcases next_place hs u with hx | ⟨-, hx⟩ | ⟨rfl, hx⟩
      · rw [hx] at ha
        exact hl.ends (.thread u) ha
      · cases hp : x'.place u with
        | send e m l =>
          rw [hp] at ha hx
          cases l <;> first | exact hx.elim | exact ha.elim
        | _ =>
          rw [hp] at ha
          exact ha.elim
      · rcases placeStep_ends hx ha with hx | ⟨e, m, a, hx⟩
        · exact hl.ends (.thread u) hx
        · have hu := h.thread u
          rw [hx] at hu
          obtain ⟨-, -, -, ts, hq, -⟩ := hu
          exact hl.queued e (h.books.mem_iff.mp (by simp [hq]))
    | delayTask =>
      have ha : x'.expiry.ends t := ha
      rcases next_expiry hs with hx | ⟨rfl, hx⟩
      · rw [hx] at ha
        exact hl.ends .delayTask ha
      · rcases expiryStep_ends hx ha with hx | ⟨e, a, p, hx⟩
        · exact hl.ends .delayTask hx
        · have he := h.expiry
          rw [hx] at he
          exact hl.queued e he.1.serve

/-- The status byte of a task that is in no list tells of no wait any more. -/
theorem Left.status (hl : Left x g t) (h : Inv x g r) (hs : x.next n i = .ok x')
    (hi : ∀ o, i ≠ .other o) (h0 : x.s.status t &&& waitBits = 0) :
    x'.s.status t &&& waitBits = 0 := by
  by_cases hw : x.Wipes t (.turn i)
  · cases i with
    | line u =>
      obtain ⟨rfl, hw⟩ := hw
      obtain ⟨⟨s', p'⟩, h₁, hs⟩ := Exec.bind_eq_ok.mp hs
      cases hs
      cases hp : x.place u with
      | wait e d l =>
        rw [hp] at hw
        cases l with
        | delay => exact absurd (h.joined_queued hp trivial) (hl.queued e)
        | _ => exact hw.elim
      | wake e d =>
        rw [hp] at h₁
        simp only [placeStep] at h₁
        split at h₁ <;> cases h₁
        simp
      | _ =>
        rw [hp] at hw
        exact hw.elim
    | other o => exact absurd rfl (hi o)
    | _ => exact hw.elim
  · exact (next_spares hs (hi _)).clear hw h0

/-- What may still be done for a task that is in no list. -/
theorem Left.service {v : Service} (hl : Left x g t) (h : Inv x g r)
    (hs : x.service i = some (t, v)) : v = .posted ∨ v = .given .timeOut ∧ i = .expiry := by
  unfold Traffic.service at hs
  split at hs
  · rename_i u
    have hu := h.thread u
    split at hs <;> cases hs
    · rename_i e m a hp
      rw [hp] at hu
      obtain ⟨-, -, -, ts, hq, -⟩ := hu
      exact absurd (h.books.mem_iff.mp (by simp [hq])) (hl.queued e)
    · rename_i hp
      exact absurd (show (x.place u).ends t by simp [hp, Place.ends]) (hl.ends (.thread u))
    · rename_i hp
      exact absurd (show (x.place u).ends t by simp [hp, Place.ends]) (hl.ends (.thread u))
    · exact .inl rfl
  · have he := h.expiry
    split at hs <;> cases hs
    · rename_i hx
      rw [hx] at he
      exact absurd he.1.serve (hl.queued _)
    · rename_i hx
      exact absurd (show x.expiry.ends t by simp [hx, ExpiryLine.ends]) (hl.ends .delayTask)
    · exact .inr ⟨rfl, rfl⟩
    · exact .inl rfl
  · cases hs

/-- An agent is about to cancel the delay of the task. -/
def Agent.cancels (x : Traffic) (t : TaskId) : Agent → Prop
  | .thread u => ∃ e m, x.place u = .send e m (.cancel t)
  | .delayTask => x.expiry.ends t

/-- The status bytes tell of a wait for as long as a task is in a list, and no longer. -/
structure Tidy (x : Traffic) (g : Ledger) : Prop where
  left : ∀ {t}, Left x g t → x.s.status t &&& waitBits = 0
  cancels : ∀ {t} {a : Agent}, a.cancels x t → x.s.status t &&& waiting = 0

/-- The first thing that is done for a queued task is that it is unlinked. -/
theorem Inv.service_queued {v : Service} (h : Inv x g r) (hs : x.next n i = .ok x')
    (hq : g.serve t = .queued e) (hv : x.service i = some (t, v)) : ∃ a : Agent, a.ends x' t := by
  have thread : ∀ {u}, ¬ (x.place u).serves t := fun hu ↦ by
    rw [h.serving hu] at hq
    cases hq
  have delayTask : ¬ x.expiry.serves t := fun hx ↦ by
    rw [h.expiring hx] at hq
    cases hq
  unfold Traffic.service at hv
  split at hv
  · rename_i u
    split at hv <;> cases hv
    · rename_i e m a hp
      obtain ⟨⟨s', p'⟩, h₁, hs⟩ := Exec.bind_eq_ok.mp hs
      rw [hp] at h₁
      cases h₁
      cases hs
      refine ⟨.thread u, ?_⟩
      show (Function.update x.place u _ u).ends t
      rw [Function.update_self]
      split <;> rfl
    all_goals
      rename_i hp
      exact absurd (by rw [hp]; rfl) (thread (u := u))
  · split at hv <;> cases hv
    · rename_i e a p hx
      obtain ⟨-, hs⟩ := require_bind_eq_ok.mp hs
      obtain ⟨⟨s', l'⟩, h₁, hs⟩ := Exec.bind_eq_ok.mp hs
      rw [hx] at h₁
      cases h₁
      cases hs
      refine ⟨.delayTask, ?_⟩
      show (if p = .null then ExpiryLine.setTail t e a else .cancel t).ends t
      split <;> rfl
    all_goals
      rename_i hx
      exact absurd (by rw [hx]; rfl) delayTask
  · cases hv

/-- A thread that has linked itself goes on to the next line, and falls asleep. -/
theorem joined_next {b : Bool} {l : Line} {p' : Place} (hl : l.Joined)
    (h : placeStep n b s t (.wait e d l) = .ok (s', p')) :
    p' = .asleep e d ∨ ∃ l', p' = .wait e d l' ∧ l'.Joined := by
  obtain ⟨-, h⟩ := require_bind_eq_ok.mp h
  obtain ⟨⟨s₁, l₁⟩, h₁, h⟩ := Exec.bind_eq_ok.mp h
  cases h
  cases l with
  | setTail =>
    cases h₁
    exact .inr ⟨_, rfl, trivial⟩
  | check =>
    simp only [lineStep] at h₁
    split at h₁ <;> cases h₁
    exact .inr ⟨_, rfl, trivial⟩
  | delay =>
    obtain ⟨s₂, -, h₁⟩ := Exec.bind_eq_ok.mp h₁
    cases h₁
    exact .inr ⟨_, rfl, trivial⟩
  | unlock => exact .inl rfl
  | _ => exact hl.elim

/-- A task that was queued is queued still, unless somebody has just unlinked it. -/
theorem Inv.unqueued (h : Inv x g r) (hs : x.next n i = .ok x') (h' : Inv x' g' (r.after x i))
    (hq : g.serve t = .queued e) : (∃ e, g'.serve t = .queued e) ∨ ∃ a : Agent, a.ends x' t := by
  by_cases hq' : ∃ e, g'.serve t = .queued e
  · exact .inl hq'
  push Not at hq'
  have asleep : ∀ d, x'.place t = .asleep e d → x.begins i ≠ some t → r.past t = [] →
      ∃ a : Agent, a.ends x' t := by
    intro d hp hb hpast
    have hne := h'.past_ne hq' hp
    rw [after_past, if_neg hb, hpast, List.nil_append] at hne
    obtain ⟨v, hv⟩ : ∃ v, x.service i = some (t, v) := by
      cases hv : x.service i with
      | none => simp [hv] at hne
      | some q =>
        obtain ⟨u, v⟩ := q
        by_cases hut : u = t
        · exact ⟨v, by rw [hut]⟩
        · simp [hv, hut] at hne
    exact h.service_queued hs hq hv
  have begins : ∀ e' d' l, x.place t = .wait e' d' l → l.Joined → x.begins i ≠ some t := by
    intro e' d' l hp hl hb
    obtain ⟨e₁, d₁, hb⟩ := begins_place hb
    rw [hp] at hb
    cases hb
    exact hl.elim
  rcases h.queued_place hq with ⟨d, hp, hpast⟩ | ⟨d, l, hp, hl⟩
  · refine .inr (asleep d ?_ (fun hb ↦ ?_) hpast)
    · rcases next_place hs t with hx | ⟨⟨hx, -⟩, -⟩ | ⟨rfl, hx⟩
      · rw [hx, hp]
      · rw [hp] at hx
        cases hx
      · rw [hp] at hx
        obtain ⟨hsema, -⟩ := require_bind_eq_ok.mp hx
        rw [h.books.sema, hq] at hsema
        simp at hsema
    · obtain ⟨e₁, d₁, hb⟩ := begins_place hb
      rw [hp] at hb
      cases hb
  · rcases next_place hs t with hx | ⟨⟨hx, -⟩, -⟩ | ⟨rfl, hx⟩
    · exact absurd (h'.joined_queued (hx.trans hp) hl) (hq' e)
    · rw [hp] at hx
      cases hx
    · rw [hp] at hx
      rcases joined_next hl hx with hp' | ⟨l', hp', hl'⟩
      · refine .inr (asleep d hp' (begins e d l hp hl) ?_)
        have ht := h.thread t
        rw [hp] at ht
        cases l with
        | setTail | check | delay | unlock => exact ht.1.past
        | _ => exact hl.elim
      · exact absurd (h'.joined_queued hp' hl') (hq' e)

/-- When the sender is done with the delay of the task, the status byte tells of no wait. -/
theorem sendStep_done {b : Bool} {m : MsgId} {l : SendLine} {p' : Place}
    (h : sendStep b s u e m l = .ok (s', p')) (he : (Place.send e m l).ends t)
    (hc : l = .cancel t → s.status t &&& waiting = 0) :
    p'.ends t ∨ s'.status t &&& waitBits = 0 := by
  cases l with
  | setTail v | give v | status v =>
    cases h
    exact .inl he
  | test v =>
    obtain rfl : v = t := he
    cases h
    by_cases hs : sendCancels s v = true
    · rw [if_pos hs]
      exact .inl rfl
    · have h0 : s.status v = 0 := by
        by_contra hne
        exact hs (by rw [sendCancels, logicalAnd, bne_iff_ne.mpr hne]; rfl)
      exact .inr (by rw [h0]; rfl)
  | cancel v =>
    obtain rfl : v = t := he
    obtain ⟨-, h⟩ := require_bind_eq_ok.mp h
    obtain ⟨s₁, h₁, h⟩ := Exec.bind_eq_ok.mp h
    cases h
    have hctl := cancelDelayUnsafe_control h₁
    right
    rw [hctl, Control.setStatus_status, Function.update_self]
    exact undelayed (hc rfl)
  | _ => exact he.elim

/-- A sender that is about to cancel a delay has tested the status byte. -/
theorem placeStep_cancel {b : Bool} {m : MsgId} {p : Place}
    (h : placeStep n b s u p = .ok (s', .send e m (.cancel t))) : p = .send e m (.test t) := by
  rcases placeStep_ends h rfl with hp | ⟨e₁, m₁, a, rfl⟩
  · cases p with
    | send e₁ m₁ l =>
      cases l with
      | setTail v | give v | status v => cases h
      | test v =>
        have hx := (Prod.mk.inj (Except.ok.inj h)).2
        split at hx <;> cases hx
        rfl
      | cancel v =>
        obtain ⟨-, h⟩ := require_bind_eq_ok.mp h
        obtain ⟨s₁, -, h⟩ := Exec.bind_eq_ok.mp h
        cases h
      | _ => exact hp.elim
    | _ => exact hp.elim
  · have hx := (Prod.mk.inj (Except.ok.inj h)).2
    split at hx <;> cases hx

/-- A task that the delay task has unlinked sleeps. -/
theorem Inv.ends_asleep (h : Inv x g r) (ha : x.expiry.ends t) :
    ∃ e d, x.place t = .asleep e d := by
  have he := h.expiry
  cases hx : x.expiry with
  | setTail v e a =>
    rw [hx] at ha he
    obtain rfl : v = t := ha
    obtain ⟨-, -, -, d, -, hv⟩ := he
    exact ⟨e, d, hv.place⟩
  | cancel v =>
    rw [hx] at ha he
    obtain rfl : v = t := ha
    obtain ⟨e, d, -, hv⟩ := he
    exact ⟨e, d, hv.place⟩
  | _ =>
    rw [hx] at ha
    exact ha.elim

/-- The status byte of a task is clear when the agent that unlinked it is done. -/
theorem Tidy.ended {a : Agent} (hT : Tidy x g) (hs : x.next n i = .ok x') (ha : a.ends x t)
    (hn : ¬ a.ends x' t) : x'.s.status t &&& waitBits = 0 := by
  cases a with
  | thread u =>
    have ha : (x.place u).ends t := ha
    rcases next_place hs u with hx | ⟨⟨hx, -⟩, -⟩ | ⟨rfl, hx⟩
    · exact absurd (show (x'.place u).ends t by rwa [hx]) hn
    · rw [hx] at ha
      exact ha.elim
    · cases hp : x.place u with
      | send e m l =>
        rw [hp] at ha hx
        refine (sendStep_done hx ha fun hc ↦ ?_).resolve_left hn
        exact hT.cancels (a := .thread u) ⟨e, m, by rw [hp, hc]⟩
      | _ =>
        rw [hp] at ha
        exact ha.elim
  | delayTask =>
    have ha : x.expiry.ends t := ha
    rcases next_expiry hs with hx | ⟨rfl, hx⟩
    · exact absurd (show x'.expiry.ends t by rwa [hx]) hn
    · have hw := hT.cancels (a := .delayTask) ha
      cases hl : x.expiry with
      | setTail v e a =>
        rw [hl] at ha hx
        refine absurd ?_ hn
        show x'.expiry.ends t
        rw [← (Prod.mk.inj (Except.ok.inj hx)).2]
        exact ha
      | cancel v =>
        rw [hl] at ha hx
        obtain rfl : v = t := ha
        obtain ⟨s₁, h₁, hx⟩ := Exec.bind_eq_ok.mp hx
        rw [← (Prod.mk.inj (Except.ok.inj hx)).1, cancelDelayUnsafe_control h₁,
          Control.setStatus_status, Function.update_self]
        exact undelayed hw
      | _ =>
        rw [hl] at ha
        exact ha.elim

/-- A task that was taken sleeps, so its own line cannot set the bit. -/
theorem asleep_clear (hs : x.next n i = .ok x') (hi : ∀ o, i ≠ .other o)
    (hp : x.place t = .asleep e d) (h0 : x.s.status t &&& waiting = 0) :
    x'.s.status t &&& waiting = 0 := by
  refine (next_spares hs (hi _)).clear (fun hw ↦ ?_) h0
  cases i with
  | line u =>
    obtain ⟨rfl, hw⟩ := hw
    rw [hp] at hw
    exact hw
  | other o => exact hi o rfl
  | _ => exact hw

/-- A delay is cancelled behind the `waiting` bit. -/
theorem Tidy.cancels_step {a : Agent} (hT : Tidy x g) (h : Inv x g r) (hs : x.next n i = .ok x')
    (hi : ∀ o, i ≠ .other o) (ha : a.cancels x' t) : x'.s.status t &&& waiting = 0 := by
  cases a with
  | thread u =>
    obtain ⟨e, m, ha⟩ := ha
    have hu := h.thread u
    rcases next_place hs u with hx | ⟨-, hx⟩ | ⟨rfl, hx⟩
    · have hp := hx.symm.trans ha
      rw [hp] at hu
      obtain ⟨-, -, -, -, d, -, hv, -⟩ := hu
      exact asleep_clear hs hi hv.place (hT.cancels (a := .thread u) ⟨e, m, hp⟩)
    · rw [ha] at hx
      exact hx.elim
    · rw [ha] at hx
      rw [placeStep_cancel hx] at hu
      obtain ⟨-, -, -, -, d, hv, hst, -⟩ := hu
      apply asleep_clear hs hi hv.place
      rw [hst]
      split <;> decide
  | delayTask =>
    have ha : x'.expiry.ends t := ha
    have same : x.expiry.ends t → x'.s.status t &&& waiting = 0 := fun hl ↦ by
      obtain ⟨e, d, hp⟩ := h.ends_asleep hl
      exact asleep_clear hs hi hp (hT.cancels (a := .delayTask) hl)
    rcases next_expiry hs with hx | ⟨rfl, hx⟩
    · exact same (hx ▸ ha)
    · rcases expiryStep_ends hx ha with hl | ⟨e, a, p, hl⟩
      · exact same hl
      · have he := h.expiry
        rw [hl] at he
        obtain ⟨d, hp, -, hst, htm, -⟩ := h.queued_asleep he.1.serve (by simp [he.1.hold])
        apply asleep_clear hs hi hp
        rw [hst, limitStatus, if_pos (htm.mp he.1.timed)]
        decide

/-- Every turn leaves the status bytes tidy. -/
theorem Tidy.step (hT : Tidy x g) (h : Inv x g r) (hs : x.next n i = .ok x')
    (hi : ∀ o, i ≠ .other o) (h' : Inv x' g' (r.after x i)) : Tidy x' g' where
  left {t} hl' := by
    by_cases hl : Left x g t
    · exact hl.status h hs hi (hT.left hl)
    by_cases hq : ∃ e, g.serve t = .queued e
    · obtain ⟨e, hq⟩ := hq
      rcases h.unqueued hs h' hq with ⟨e, hq⟩ | ⟨a, ha⟩
      · exact absurd hq (hl'.queued e)
      · exact absurd ha (hl'.ends a)
    · push Not at hq
      by_cases ha : ∃ a : Agent, a.ends x t
      · obtain ⟨a, ha⟩ := ha
        exact hT.ended hs ha (hl'.ends a)
      · push Not at ha
        exact absurd ⟨hq, ha⟩ hl
  cancels := hT.cancels_step h hs hi

end Traffic

end YRmx
