import YRmx.Race.Careful

/-!
# Deleted tasks

Library `YRmx`. `reqdtsk` takes a task out of the lists when its status byte says that it is in
them, and only asks for the end of its thread. It locks no exchange (`ycore.c:501`), and it comes
in between any two lines of the calls that the task is in. A task that links itself after that
look at its status byte, or has linked itself and not yet written the byte, stays in its queue when
its thread ends, and the next message is handed to it. In a careful run a task is in no list from
the call of `reqdtsk` on.
-/

namespace YRmx

open Intrusive Transition

/-- The thread that enters a call on an exchange. -/
def Event.enters : Event → Option TaskId
  | .turn (.send t ..) | .turn (.isnd t ..) | .turn (.acpt t ..) | .turn (.wait t ..) => some t
  | _ => none

namespace Traffic

variable {x x' : Traffic} {G Z : TaskId → Bool} {g : Ledger} {r : Log} {s₀ : Nucleus} {v : Event}
  {vs : List Event} {tr : List (Traffic × Event)} {t u : TaskId} {n : Nat}

/-- The descriptors denote these queues of tasks and messages, and these tasks with the ticks that
are left to them. -/
structure Lists (x : Traffic) (tq : ExchId → List TaskId) (mq : ExchId → List MsgId)
    (dl : List (TaskId × Nat)) : Prop where
  tasks : ∀ e, Fifo x.s.word2 .null (.exch e) (lastOf e (tq e)) ((tq e).map .task)
  /-- the tail pointer of a queue that nobody works on is up to date -/
  tail : ∀ {e}, (∀ t, ¬ (x.place t).holds e) → ¬ x.expiry.worksOn e → TaskQueue x.s e (tq e)
  messages : ∀ e, MessageQueue x.s e (mq e)
  delays : DelayList x.s.word0 x.s.word1 x.s.delay dl
  dl_nodup : (dl.map Prod.fst).Nodup

/-- The lists of the calm system are those of the system. -/
theorem Calmed.lists (h : Calmed x G Z g r) : Lists x g.tq g.mq g.dl where
  tasks := h.inv.books.links
  tail ht hx := h.inv.intact.tail (fun t hh ↦ ht t (calm_holds.mp hh)) hx
  messages := h.inv.books.messages
  delays := h.inv.books.delays
  dl_nodup := h.inv.books.dl_nodup

/-- What holds at every point of a careful run, with the tasks that `reqdtsk` was called for. -/
def Cleared (vs : List Event) (x : Traffic) (G Z : TaskId → Bool) (g : Ledger) (r : Log) : Prop :=
  Calmed x G Z g r ∧ ∀ t, Removed vs t → x.s.Deleted t ∧ Left (x.calm G Z) g t

/-- Every event of a careful run keeps the deleted tasks out of the lists. -/
theorem Cleared.step (h : Cleared vs x G Z g r) (hc : Careful x v) (hs : x.Reacts v x') :
    ∃ G' Z' g' r', Cleared (vs ++ [v]) x' G' Z' g' r' := by
  obtain ⟨n, hs⟩ := hs
  obtain ⟨G', Z', g', r', hC, hkept, hnew⟩ := h.1.step hc hs
  refine ⟨G', Z', g', r', hC, fun t ht ↦ ?_⟩
  rcases removed_snoc.mp ht with ht | ht
  · obtain ⟨hd, hl⟩ := h.2 t ht
    exact ⟨h.1.deleted hs hd, hkept t hd hl⟩
  · exact ⟨react_deletes hs ht, hnew t ht⟩

/-- Only these threads are in a call on an exchange. -/
def Within (k : Nat) (x : Traffic) : Prop := ∀ t, k ≤ t → x.place t = .out

/-- No other thread enters a call. -/
theorem Within.step {k : Nat} (h : Within k x) (hv : ∀ t, v.enters = some t → t < k)
    (hs : x.Reacts v x') : Within k x' := by
  obtain ⟨n, hs⟩ := hs
  intro t ht
  have hp := h t ht
  have goes : ∀ {u s' p}, v.enters = some u → (x.go u s' p).place t = .out := fun hu ↦ by
    have hlt := hv _ hu
    simpa [Nat.ne_of_gt (Nat.lt_of_lt_of_le hlt ht)] using hp
  cases v with
  | turn i =>
    obtain ⟨-, hs⟩ := require_bind_eq_ok.mp hs
    cases i with
    | send | acpt | wait =>
      obtain ⟨-, hs⟩ := require_bind_eq_ok.mp hs
      cases hs
      exact goes rfl
    | isnd =>
      obtain ⟨-, hs⟩ := require_bind_eq_ok.mp hs
      split at hs <;> cases hs
      · exact goes rfl
      · exact hp
    | line u =>
      obtain ⟨⟨s', p'⟩, h₁, hs⟩ := Exec.bind_eq_ok.mp hs
      cases hs
      have hne : t ≠ u := by
        rintro rfl
        rw [hp] at h₁
        cases h₁
      simpa [hne] using hp
    | expiry | tick | other =>
      obtain ⟨-, hs⟩ := require_bind_eq_ok.mp hs
      obtain ⟨y, -, hs⟩ := Exec.bind_eq_ok.mp hs
      cases hs
      exact hp
  | heldWake =>
    obtain ⟨-, hs⟩ := require_bind_eq_ok.mp hs
    obtain ⟨y, -, hs⟩ := Exec.bind_eq_ok.mp hs
    cases hs
    exact hp
  | reqdtsk =>
    obtain ⟨-, hs⟩ := require_bind_eq_ok.mp hs
    obtain ⟨-, hs⟩ := require_bind_eq_ok.mp hs
    obtain ⟨y, -, hs⟩ := Exec.bind_eq_ok.mp hs
    cases hs
    exact hp
  | _ =>
    obtain ⟨-, hs⟩ := require_bind_eq_ok.mp hs
    cases hs
    exact hp

end Traffic

end YRmx
