import YRmx.Race.Stations

/-!
# One turn at a time

Library `YRmx`. As long as `rqdelaytask` works on a queue only while nobody holds the mutex of the
exchange, every turn keeps what holds at the lines of all agents: it makes an entry in the ledger,
and touches nothing but what its own agent holds or has taken.
-/

namespace YRmx.Traffic

open Intrusive Transition

variable {x x' : Traffic} {g g' : Ledger} {r r' : Log} {t u : TaskId} {e : ExchId} {m : MsgId}
  {d : BitVec 16} {s' : Nucleus} {p p' : Place}

/-! ### What a turn may touch -/

/-- A thread goes on: it touches its own task, the exchange that it holds, and the task that it
attends to. -/
theorem Inv.moves (h : Inv x g r) (hu : ∀ a, g.serve u ≠ .taken a)
    (hu' : ∀ a, g'.serve u ≠ .taken a)
    (huq : ∀ e, g.serve u = .queued e → g.hold e ≠ some .delayTask)
    (hb : Books s' g' r')
    (hE : ∀ e, SameExch x.s s' g g' e ∨
      (g.hold e = none ∨ g.hold e = some (.thread u)) ∧
        (g'.hold e = none ∨ g'.hold e = some (.thread u)))
    (hT : ∀ t ≠ u, SameTask x.s s' g g' r r' t ∨
      (g.serve t = .taken (.thread u) ∨
          ∃ e, g.serve t = .queued e ∧ g.hold e = some (.thread u)) ∧
        (∀ a, g'.serve t = .taken a → a = .thread u) ∧
        PlaceOk (x.go u s' p') g' r' t (x.place t))
    (hH : ∀ e, g'.hold e = some (.thread u) → p'.holds e)
    (hS : ∀ t, g'.serve t = .taken (.thread u) → p'.serves t)
    (hW : s'.tailTask = x.s.tailTask ∨ ∀ t e d, t ≠ u → x.place t ≠ .wait e d .writeLink)
    (hown : PlaceOk (x.go u s' p') g' r' u p') : Inv (x.go u s' p') g' r' := by
  have hplace : ∀ t, t ≠ u → (x.go u s' p').place t = x.place t :=
    fun t ht ↦ Function.update_of_ne ht _ _
  have hself : (x.go u s' p').place u = p' := Function.update_self ..
  -- another agent finds its exchange and its task as they were
  have hexch : ∀ {a}, a ≠ .thread u → ∀ e, g.hold e = some a → SameExch x.s s' g g' e := by
    intro a ha e he
    apply (hE e).resolve_right
    intro hx
    rcases hx.1 with h0 | h0 <;> rw [he] at h0
    · cases h0
    · exact ha (Option.some.inj h0)
  have htask : ∀ {a}, a ≠ .thread u → ∀ v, g.serve v = .taken a →
      SameTask x.s s' g g' r r' v ∧ (x.go u s' p').place v = x.place v := by
    intro a ha v hv
    have hvu : v ≠ u := fun he ↦ hu a (he ▸ hv)
    refine ⟨(hT v hvu).resolve_right fun hx ↦ ?_, hplace v hvu⟩
    rcases hx.1 with h0 | ⟨e, h0, -⟩ <;> rw [hv] at h0
    · exact ha (Stage.taken.inj h0)
    · cases h0
  refine ⟨hb, fun {e a} ha ↦ ?_, fun {v a} ha ↦ ?_, fun v ↦ ?_, ?_⟩
  · rcases hE e with hx | ⟨-, hx⟩
    · by_cases hau : a = .thread u
      · subst hau
        show ((x.go u s' p').place u).holds e
        rw [hself]
        exact hH e ha
      · have hold := h.held (hx.hold ▸ ha)
        cases a with
        | thread v =>
          show ((x.go u s' p').place v).holds e
          rw [hplace v fun he ↦ hau (by rw [he])]
          exact hold
        | delayTask => exact hold
    · rcases hx with hx | hx <;> rw [ha] at hx
      · cases hx
      · obtain rfl := Option.some.inj hx
        show ((x.go u s' p').place u).holds e
        rw [hself]
        exact hH e ha
  · by_cases hau : a = .thread u
    · subst hau
      show ((x.go u s' p').place u).serves v
      rw [hself]
      exact hS v ha
    · have hvu : v ≠ u := fun he ↦ hu' a (he ▸ ha)
      have hsame : SameTask x.s s' g g' r r' v :=
        (hT v hvu).resolve_right fun hx ↦ hau (hx.2.1 a ha)
      have hold := h.taken (hsame.serve ▸ ha)
      cases a with
      | thread w =>
        show ((x.go u s' p').place w).serves v
        rw [hplace w fun he ↦ hau (by rw [he])]
        exact hold
      | delayTask => exact hold
  · by_cases hvu : v = u
    · subst hvu
      rw [hself]
      exact hown
    · rw [hplace v hvu]
      have hne : Agent.thread v ≠ .thread u := fun he ↦ hvu (Agent.thread.inj he)
      rcases hT v hvu with hsame | ⟨-, -, hok⟩
      · refine (h.thread v).frame hsame (hexch hne) (htask hne) fun ⟨e, d, hp⟩ ↦ ?_
        exact hW.resolve_right fun hx ↦ hx v e d hvu hp
      · exact hok
  · have hne : Agent.delayTask ≠ .thread u := by simp
    apply h.expiry.frame (hexch hne) (htask hne)
    intro v e hv he
    have hvu : v ≠ u := fun hx ↦ huq e (hx ▸ hv) he
    refine ⟨(hT v hvu).resolve_right fun hx ↦ ?_, hplace v hvu⟩
    rcases hx.1 with h0 | ⟨e', h0, h1⟩ <;> rw [hv] at h0
    · cases h0
    · cases h0
      rw [he] at h1
      cases h1

/-- The delay task goes on: it touches the exchange that it works on and the task that it has
taken or takes there. -/
theorem Inv.expires {l : ExpiryLine} (h : Inv x g r) (hb : Books s' g' r')
    (hE : ∀ e, SameExch x.s s' g g' e ∨
      (g.hold e = none ∨ g.hold e = some .delayTask) ∧
        (g'.hold e = none ∨ g'.hold e = some .delayTask))
    (hT : ∀ t, SameTask x.s s' g g' r r' t ∨
      (g.serve t = .taken .delayTask ∨ ∃ e, g.serve t = .queued e ∧ g.hold e = some .delayTask) ∧
        (∀ a, g'.serve t = .taken a → a = .delayTask) ∧
        PlaceOk { x with s := s', expiry := l } g' r' t (x.place t))
    (hH : ∀ e, g'.hold e = some .delayTask → l.worksOn e)
    (hS : ∀ t, g'.serve t = .taken .delayTask → l.serves t)
    (hW : s'.tailTask = x.s.tailTask)
    (hown : ExpiryOk { x with s := s', expiry := l } g' r' l) :
    Inv { x with s := s', expiry := l } g' r' := by
  refine ⟨hb, fun {e a} ha ↦ ?_, fun {v a} ha ↦ ?_, fun v ↦ ?_, hown⟩
  · cases a with
    | delayTask => exact hH e ha
    | thread v =>
      rcases hE e with hx | ⟨-, hx⟩
      · exact h.held (hx.hold ▸ ha)
      · rcases hx with hx | hx <;> rw [ha] at hx <;> cases hx
  · cases a with
    | delayTask => exact hS v ha
    | thread w =>
      rcases hT v with hx | ⟨-, hx, -⟩
      · exact h.taken (hx.serve ▸ ha)
      · cases hx _ ha
  · rcases hT v with hx | ⟨-, -, hok⟩
    · refine (h.thread v).frame hx (fun e he ↦ ?_) (fun w hw ↦ ⟨?_, rfl⟩) fun _ ↦ hW
      · apply (hE e).resolve_right
        intro hx
        rcases hx.1 with h0 | h0 <;> rw [he] at h0 <;> cases h0
      · apply (hT w).resolve_right
        intro hx
        rcases hx.1 with h0 | ⟨e, h0, -⟩ <;> rw [hw] at h0 <;> cases h0
    · exact hok

end YRmx.Traffic
