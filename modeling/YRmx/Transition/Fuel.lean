import Mathlib.Logic.Function.Basic

/-!
# Loops with fuel

Library `Transition`. A computation that takes fuel is monotone when more fuel never changes
a result, and yields a value when it returns it from some amount of fuel on.
-/

namespace Transition

variable {ε α β : Type}

/-- More fuel never changes a result. -/
def FuelMono (f : Nat → Except ε α) : Prop :=
  ∀ n m v, n ≤ m → f n = .ok v → f m = .ok v

/-- The value is returned from some amount of fuel on. -/
def Yields (f : Nat → Except ε α) (v : α) : Prop := ∃ N, ∀ n, N ≤ n → f n = .ok v

/-- A computation without fuel is monotone. -/
theorem FuelMono.const (r : Except ε α) : FuelMono fun _ ↦ r := fun _ _ _ _ h ↦ h

/-- Monotone computations compose. -/
theorem FuelMono.bind {f : Nat → Except ε α} {g : Nat → α → Except ε β} (hf : FuelMono f)
    (hg : ∀ a, FuelMono fun n ↦ g n a) : FuelMono fun n ↦ f n >>= g n := by
  intro n m v hnm h
  cases hr : f n with
  | error e =>
    simp only [hr] at h
    cases h
  | ok a =>
    simp only [hr] at h
    simp only [hf n m a hnm hr]
    exact hg a n m v hnm h

/-- A case distinction that does not look at the fuel is monotone. -/
theorem FuelMono.ite {f g : Nat → Except ε α} (p : Prop) [Decidable p] (hf : FuelMono f)
    (hg : FuelMono g) : FuelMono fun n ↦ if p then f n else g n := by
  intro n m v hnm h
  by_cases hp : p
  · simp only [if_pos hp] at h ⊢
    exact hf n m v hnm h
  · simp only [if_neg hp] at h ⊢
    exact hg n m v hnm h

/-- One result of a monotone computation is its yield. -/
theorem FuelMono.yields {f : Nat → Except ε α} {n : Nat} {v : α} (hf : FuelMono f)
    (h : f n = .ok v) : Yields f v := ⟨n, fun m hm ↦ hf n m v hm h⟩

namespace Yields

variable {f : Nat → Except ε α} {v w : α}

/-- A result that does not depend on the fuel. -/
theorem const (v : α) : Yields (fun _ ↦ (.ok v : Except ε α)) v := ⟨0, fun _ _ ↦ rfl⟩

/-- What a computation yields is unique. -/
theorem unique (h : Yields f v) (h' : Yields f w) : v = w := by
  obtain ⟨N, hN⟩ := h
  obtain ⟨M, hM⟩ := h'
  have h1 := hN (max N M) (Nat.le_max_left N M)
  rw [hM (max N M) (Nat.le_max_right N M)] at h1
  exact (Except.ok.inj h1).symm

/-- Yields compose. -/
theorem bind {g : Nat → α → Except ε β} {w : β} (h : Yields f v)
    (hg : Yields (fun n ↦ g n v) w) : Yields (fun n ↦ f n >>= g n) w := by
  obtain ⟨N, hN⟩ := h
  obtain ⟨M, hM⟩ := hg
  refine ⟨max N M, fun n hn ↦ ?_⟩
  simp only [hN n (Nat.le_trans (Nat.le_max_left N M) hn)]
  exact hM n (Nat.le_trans (Nat.le_max_right N M) hn)

/-- A computation that agrees with a yielding one yields the same. -/
theorem congr {f' : Nat → Except ε α} (h : Yields f v) (he : ∀ n, f' n = f n) :
    Yields f' v := by
  obtain ⟨N, hN⟩ := h
  exact ⟨N, fun n hn ↦ (he n).trans (hN n hn)⟩

/-- Fuel that is used up by a loop header shifts the bound by one. -/
theorem succ (h : Yields (fun n ↦ f (n + 1)) v) : Yields f v := by
  obtain ⟨N, hN⟩ := h
  refine ⟨N + 1, fun n hn ↦ ?_⟩
  obtain ⟨m, rfl⟩ : ∃ m, n = m + 1 := ⟨n - 1, by omega⟩
  exact hN m (by omega)

end Yields

end Transition
