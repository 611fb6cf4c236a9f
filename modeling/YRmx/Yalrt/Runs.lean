import YRmx.Transition.Always
import YRmx.Yalrt.Regions

/-!
# The lists along a run

Library `YRmx`. The lists agree with what the steps were for as long as no step comes to one of
the wrong tests of the code.
-/

namespace YRmx

open Transition Intrusive Priority

variable {s s' s₀ : Yalrt} {R xs : List TaskId} {Q : ExchId → List TaskId}
  {D : List (TaskId × Nat)} {o : YalrtOp} {tr : List (Yalrt × YalrtOp)}

namespace Yalrt

/-- A step that does not go wrong does what it is for. -/
theorem Kept.step {c : Classes} (h : Kept s c R Q D) (hR : R ≠ []) (hn : ¬ s.Slips o)
    (hs : Step s o s') : ∃ R' Q' D', Kept s' (c.move s o) R' Q' D' := by
  cases o with
  | enterRegion => exact ⟨R, Q, D, (h.enterRegion hs).2⟩
  | reqsend e m =>
    obtain ⟨R', Q', D', hk, -⟩ := h.reqsend hR hn hs
    exact ⟨R', Q', D', hk⟩
  | reqacpt e => exact ⟨R, Q, D, (h.reqacpt hs).2⟩
  | reqwait e d =>
    obtain ⟨R', Q', D', hk, -⟩ := h.reqwait hs
    exact ⟨R', Q', D', hk⟩
  | reqsusp t =>
    obtain ⟨-, R', hk⟩ := h.reqsusp hs
    exact ⟨R', Q, D, hk⟩
  | reqresm t =>
    obtain ⟨-, R', hk⟩ := h.reqresm hR hn hs
    exact ⟨R', Q, D, hk⟩
  | expire =>
    obtain ⟨t, -, R', e, D', hk⟩ := h.expire hR hs
    exact ⟨R', _, D', hk⟩
  | expired => exact ⟨R, Q, D, (h.expired hs).2⟩
  | exitRegion => exact ⟨R, Q, D, (h.exitRegion hs).2⟩
  | pop => exact ⟨R, Q, D, (h.pop hs).2⟩
  | fetch => exact ⟨R, Q, D, (h.fetch hs).2⟩
  | deliver =>
    obtain ⟨R', Q', D', hk, -⟩ := h.deliver hR hs
    exact ⟨R', Q', D', hk⟩
  | drained => exact ⟨R, Q, D, (h.drained hs).2⟩
  | close => exact ⟨R, Q, D, (h.close hs).2⟩
  | reqisnd e => exact ⟨R, Q, D, (h.reqisnd hs).2⟩
  | reqssnd e => exact ⟨R, Q, D, (h.reqssnd hs).2⟩
  | timer =>
    obtain ⟨-, -, -, D', -, -, hk⟩ := h.timer hs
    exact ⟨R, Q, D', hk⟩
  | irq i => exact ⟨R, Q, D, (h.irq hs).2⟩

/-- With `IdleTask` in it, the ready list is not empty. -/
theorem Kept.ready_ne_nil {c : Classes} (h : Kept s c R Q D) (hi : s.IdleLast) : R ≠ [] := by
  rintro rfl
  obtain ⟨xs, hx⟩ := hi
  exact List.concat_ne_nil _ xs (hx.unique h.lists.ready)

/-- While `IdleTask` is runnable, the ready list is not empty. -/
theorem Kept.ne_nil {c : Classes} (h : Kept s c R Q D) (hi : idleTask ∈ c.came) : R ≠ [] :=
  List.ne_nil_of_mem (h.serves.mem_iff.mpr hi)

/-- Before the first step, all tasks are runnable and in the order of the ready list. -/
theorem Started.kept (h : Started s xs) : Kept s ⟨xs, []⟩ xs (fun _ ↦ []) [] where
  lists :=
    { ready := h.ready
      suspend := ⟨Headed.nil h.headPtr, endsAt_nil⟩
      waits := fun e ↦ Fifo.nil (h.queues e).1 (h.queues e).2 (by simp)
      ready_suspend := by simp
      ready_waits := by simp
      suspend_waits := by simp
      apart := by simp
      delays := h.delays
      timed := List.nodup_nil
      due := by simp
      delayed_iff := by
        intro t
        rw [h.status]
        simp
      timed_waits := by simp
      runs := fun t _ ↦ by
        rw [h.status]
        decide
      rests := by simp
      awaits := by simp
      exchange := by simp }
  serves := Serves.refl h.sorted
  region :=
    { flag := by rw [h.criticalRegionFlag, h.line, inside, h.irq]; rfl
      active := fun _ ↦ ⟨h.active, h.status _⟩ }

end Yalrt

end YRmx
