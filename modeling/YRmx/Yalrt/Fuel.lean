import YRmx.Yalrt.Machine

/-!
# More fuel

Library `YRmx`. A step of `yalrt.c` that returns does so with more fuel, too, and ends in the
same state.
-/

namespace YRmx

open Transition

namespace Yalrt

variable {s s' : Yalrt} {o : YalrtOp}

private theorem sched_mono (s : Yalrt) {f : Nat → Sched → Exec Sched}
    (hf : FuelMono fun n ↦ f n s.toSched) : FuelMono fun n ↦ s.sched (f n) :=
  hf.bind fun _ ↦ FuelMono.const _

private theorem schedIf_mono (s : Yalrt) (p : ThreadPtr) (t : TaskId)
    {f : Nat → Sched → Exec Sched} (hf : FuelMono fun n ↦ f n s.toSched) :
    FuelMono fun n ↦ s.schedIf p t (f n) :=
  FuelMono.ite _ (sched_mono s hf) (FuelMono.const _)

private theorem findWaiting_mono (c : Sched) (t : TaskId) (p : ThreadPtr) :
    FuelMono fun n ↦ findWaiting n c t p := by
  intro n m q hnm h
  induction n generalizing p m with
  | zero => cases h
  | succ n ih =>
    obtain ⟨m, rfl⟩ : ∃ k, m = k + 1 := ⟨m - 1, by omega⟩
    simp only [findWaiting] at h ⊢
    by_cases hp : p = .null
    · rw [if_pos hp] at h
      cases h
    · rw [if_neg hp] at h ⊢
      split at h
      · rename_i hq
        rw [if_pos hq]
        exact ih _ _ (by omega) h
      · rename_i hq
        rwa [if_neg hq]

private theorem insertLoop_mono (s : Yalrt) (p : Addr) : FuelMono fun n ↦ insertLoop n s p := by
  intro n m v hnm h
  induction n generalizing s p m with
  | zero => cases h
  | succ n ih =>
    obtain ⟨m, rfl⟩ : ∃ k, m = k + 1 := ⟨m - 1, by omega⟩
    simp only [insertLoop] at h ⊢
    obtain ⟨a, ha, h⟩ := Exec.bind_eq_ok.mp h
    refine Exec.bind_eq_ok.mpr ⟨a, ha, ?_⟩
    split at h
    · rename_i hq
      rw [if_pos hq]
      exact ih _ _ _ (by omega) h
    · rename_i hq
      rwa [if_neg hq]

private theorem handOff_mono (s : Yalrt) (e : ExchId) (t : TaskId) (m : MsgId) :
    FuelMono fun n ↦ s.handOff n e t m :=
  (FuelMono.const _).bind fun _ ↦
    (sched_mono _ (Sched.enterlist_mono _ t)).bind fun _ ↦ FuelMono.const _

private theorem reqsend_mono (s : Yalrt) (e : ExchId) (m : MsgId) :
    FuelMono fun n ↦ s.reqsend n e m :=
  FuelMono.ite _ (FuelMono.const _) (FuelMono.ite _ (FuelMono.const _)
    (FuelMono.ite _ (FuelMono.const _) ((FuelMono.const _).bind fun t ↦ handOff_mono s e t m)))

private theorem insertDelay_mono (s : Yalrt) : FuelMono fun n ↦ s.insertDelay n :=
  (insertLoop_mono s _).bind fun _ ↦ FuelMono.const _

private theorem startDelay_mono (s : Yalrt) (d : BitVec 16) :
    FuelMono fun n ↦ s.startDelay n d :=
  (FuelMono.ite (d ≠ 0) (insertDelay_mono _) (FuelMono.const _)).bind fun _ ↦ FuelMono.const _

private theorem reqwait_mono (s : Yalrt) (e : ExchId) (d : BitVec 16) :
    FuelMono fun n ↦ s.reqwait n e d :=
  FuelMono.ite _ ((FuelMono.const _).bind fun s ↦ startDelay_mono s d) (FuelMono.const _)

private theorem reqsusp_mono (s : Yalrt) (t : TaskId) : FuelMono fun n ↦ s.reqsusp n t :=
  FuelMono.ite _ ((Sched.scanList_mono _ t _).bind fun p ↦
    (schedIf_mono _ p t (Sched.removelist_mono _ t)).bind fun _ ↦
      schedIf_mono _ p t (Sched.enterlist_mono _ t)) (FuelMono.const _)

private theorem reqresm_mono (s : Yalrt) (t : TaskId) : FuelMono fun n ↦ s.reqresm n t :=
  (Sched.scanList_mono _ t _).bind fun p ↦
    (schedIf_mono _ p t (Sched.removelist_mono _ t)).bind fun _ ↦
      schedIf_mono _ p t (Sched.enterlist_mono _ t)

private theorem expire_mono (s : Yalrt) : FuelMono fun n ↦ s.expire n :=
  (FuelMono.const _).bind fun _ ↦ (FuelMono.const _).bind fun t ↦ (FuelMono.const _).bind fun _ ↦
    (findWaiting_mono _ t _).bind fun _ ↦ (FuelMono.const _).bind fun _ ↦
      (sched_mono _ (Sched.enterlist_mono _ t)).bind fun _ ↦ FuelMono.const _

private theorem deliver_mono (s : Yalrt) : FuelMono fun n ↦ s.deliver n :=
  FuelMono.ite _ (FuelMono.const _) ((FuelMono.const _).bind fun t ↦
    (FuelMono.const _).bind fun _ ↦ sched_mono _ (Sched.enterlist_mono _ t))

private theorem mainStep_mono (s : Yalrt) (l l' : MainLine) {f : Nat → Yalrt → Exec Yalrt}
    (hf : FuelMono fun n ↦ f n s) : FuelMono fun n ↦ s.mainStep l l' (f n) :=
  (FuelMono.const _).bind fun _ ↦ hf.bind fun _ ↦ FuelMono.const _

/-- More fuel leads to the same state. -/
theorem step_mono (s : Yalrt) (o : YalrtOp) : FuelMono fun n ↦ step n s o := by
  cases o with
  | enterRegion => exact FuelMono.const _
  | reqsend e m => exact mainStep_mono s _ _ (f := (reqsend · · e m)) (reqsend_mono s e m)
  | reqacpt e => exact FuelMono.const _
  | reqwait e d => exact mainStep_mono s _ _ (f := (reqwait · · e d)) (reqwait_mono s e d)
  | reqsusp t => exact mainStep_mono s _ _ (f := (reqsusp · · t)) (reqsusp_mono s t)
  | reqresm t => exact mainStep_mono s _ _ (f := (reqresm · · t)) (reqresm_mono s t)
  | expire => exact (FuelMono.const _).bind fun _ ↦ mainStep_mono s _ _ (expire_mono s)
  | expired => exact FuelMono.const _
  | exitRegion => exact FuelMono.const _
  | pop => exact FuelMono.const _
  | fetch => exact FuelMono.const _
  | deliver => exact mainStep_mono s _ _ (deliver_mono s)
  | drained => exact FuelMono.const _
  | close => exact FuelMono.const _
  | reqisnd e => exact FuelMono.const _
  | reqssnd e => exact FuelMono.const _
  | timer => exact FuelMono.const _
  | irq i => exact FuelMono.const _

/-- A step goes where the computation goes with enough fuel. -/
theorem Step.eq_of_yields {s'' : Yalrt} (h : Step s o s')
    (hy : Yields (fun n ↦ step n s o) s'') : s' = s'' := by
  obtain ⟨n, h⟩ := h
  exact ((step_mono s o).yields h).unique hy

/-- A step leads to one state. -/
theorem Step.unique {s'' : Yalrt} (h : Step s o s') (h' : Step s o s'') : s' = s'' := by
  obtain ⟨n, h'⟩ := h'
  exact h.eq_of_yields ((step_mono s o).yields h')

/-- A computation that returns with enough fuel is a step. -/
theorem step_of_yields (hy : Yields (fun n ↦ step n s o) s') : Step s o s' := by
  obtain ⟨N, hN⟩ := hy
  exact ⟨N, hN N le_rfl⟩

end Yalrt

end YRmx
