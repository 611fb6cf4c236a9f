import YRmx.Core.Machine
import YRmx.Transition.Fuel

/-!
# Fuel does not matter

Library `YRmx`. A loop that ended keeps its result when it is given more fuel, and so does
every step of the machine. What a step does is therefore a partial function of the state.
-/

namespace YRmx

open Transition

/-! ### Loops -/

/-- The insertion loop is monotone. -/
theorem insertLoop_mono (t : TaskId) (s : Nucleus) (x : Addr) :
    FuelMono fun n ↦ insertLoop t n s x := by
  intro n m v hnm h
  induction n generalizing m s x with
  | zero => cases h
  | succ n ih =>
    obtain ⟨m, rfl⟩ : ∃ k, m = k + 1 := ⟨m - 1, by omega⟩
    simp only [insertLoop, Exec.bind_eq_ok] at h ⊢
    obtain ⟨y, hy, h⟩ := h
    refine ⟨y, hy, ?_⟩
    split at h
    case isTrue hlt =>
      rw [if_pos hlt]
      exact ih _ _ _ (by omega) h
    case isFalse hlt =>
      rwa [if_neg hlt]

/-- Inserting into the delay list is monotone. -/
theorem insertDelay_mono (s : Nucleus) (t : TaskId) : FuelMono fun n ↦ insertDelay n s t :=
  (insertLoop_mono t s .delayHead).bind fun _ ↦ .const _

/-- The search loop is monotone. -/
theorem findLink_mono (s : Nucleus) (t : TaskId) (x : Addr) :
    FuelMono fun n ↦ findLink s t n x := by
  intro n m v hnm h
  induction n generalizing m x with
  | zero => cases h
  | succ n ih =>
    obtain ⟨m, rfl⟩ : ∃ k, m = k + 1 := ⟨m - 1, by omega⟩
    simp only [findLink, Exec.bind_eq_ok] at h ⊢
    obtain ⟨y, hy, h⟩ := h
    refine ⟨y, hy, ?_⟩
    split at h
    case isTrue hlink =>
      rwa [if_pos hlink]
    case isFalse hlink =>
      rw [if_neg hlink]
      exact ih _ _ (by omega) h

/-- Leaving an exchange is monotone. -/
theorem reqdqtsk_mono (s : Nucleus) (t : TaskId) : FuelMono fun n ↦ reqdqtsk n s t :=
  (FuelMono.const _).bind fun e ↦
    .ite _ (.const _) ((findLink_mono s t (.exch e)).bind fun _ ↦ .const _)

/-- One time-out is monotone. -/
theorem expireTask_mono (s : Nucleus) (t : TaskId) : FuelMono fun n ↦ expireTask n s t :=
  (FuelMono.const _).bind fun e ↦ (findLink_mono s t (.exch e)).bind fun _ ↦ .const _

/-- The expiry loop is monotone in the fuel of its searches and in its own. -/
theorem expiryLoop_le {k k' n m : Nat} {s v : Nucleus} (hk : k ≤ k') (hm : n ≤ m)
    (h : expiryLoop k n s = .ok v) : expiryLoop k' m s = .ok v := by
  induction n generalizing m s with
  | zero => cases h
  | succ n ih =>
    obtain ⟨m, rfl⟩ : ∃ j, m = j + 1 := ⟨m - 1, by omega⟩
    simp only [expiryLoop, Exec.bind_eq_ok] at h ⊢
    obtain ⟨y, hy, h⟩ := h
    refine ⟨y, hy, ?_⟩
    split at h
    case isTrue hz =>
      rw [if_pos hz]
      simp only [Exec.bind_eq_ok] at h ⊢
      obtain ⟨t, ht, s', hs', h⟩ := h
      exact ⟨t, ht, s', expireTask_mono s t _ _ _ hk hs', ih (by omega) h⟩
    case isFalse hz =>
      rwa [if_neg hz]

/-- The expiry loop is monotone. -/
theorem expiryLoop_mono (s : Nucleus) : FuelMono fun n ↦ expiryLoop n n s :=
  fun _ _ _ hnm h ↦ expiryLoop_le hnm hnm h

/-! ### Steps -/

/-- A wait is monotone. -/
theorem reqwait_mono (s : Nucleus) (t : TaskId) (e : ExchId) (d : BitVec 16) :
    FuelMono fun n ↦ reqwait n s t e d :=
  (FuelMono.const _).bind fun _ ↦ .ite _
    ((FuelMono.const _).bind fun _ ↦
      (FuelMono.ite _ (insertDelay_mono _ t) (.const _)).bind fun _ ↦ .const _)
    (.const _)

/-- Taking a deleted task out of the lists is monotone. -/
theorem dequeueDeleted_mono (s : Nucleus) (u : TaskId) : FuelMono fun n ↦ dequeueDeleted n s u :=
  .ite _ (.ite _ ((reqdqtsk_mono s u).bind fun _ ↦ .const _) (.const _)) (.const _)

/-- A deletion is monotone. -/
theorem reqdtsk_mono (s : Nucleus) (t u : TaskId) : FuelMono fun n ↦ reqdtsk n s t u :=
  (dequeueDeleted_mono s u).bind fun _ ↦ .const _

/-- Every step is monotone. -/
theorem step_mono (s : Nucleus) (o : Op) : FuelMono fun n ↦ step n s o := by
  cases o with
  | reqwait t e d => exact (FuelMono.const _).bind fun _ ↦ reqwait_mono s t e d
  | expiry =>
    exact (FuelMono.const _).bind fun _ ↦ (expiryLoop_mono s).bind fun _ ↦ .const _
  | reqdtsk t u => exact (FuelMono.const _).bind fun _ ↦ reqdtsk_mono s t u
  | _ => exact .const _

/-- A step is what the machine yields. -/
theorem step_iff_yields {s s' : Nucleus} {o : Op} :
    Step s o s' ↔ Yields (fun n ↦ step n s o) s' := by
  constructor
  · rintro ⟨n, h⟩
    exact (step_mono s o).yields h
  · rintro ⟨N, h⟩
    exact ⟨N, h N le_rfl⟩

/-- A step has one outcome. -/
theorem Step.unique {s s₁ s₂ : Nucleus} {o : Op} (h₁ : Step s o s₁) (h₂ : Step s o s₂) :
    s₁ = s₂ :=
  (step_iff_yields.mp h₁).unique (step_iff_yields.mp h₂)

end YRmx
