import Mathlib.Data.List.Basic
import Mathlib.Data.List.Induction

/-!
# Histories

Library `Transition`. Statements about the past of a run: how a history that grew by one
entry splits, and what holds since some entry.
-/

namespace Transition

variable {α : Type} {p q : α → Prop} {l a b : List α} {x y : α}

/-- A history that grew by one entry splits at the new entry or at an older one. -/
theorem snoc_eq_append_cons :
    l ++ [y] = a ++ x :: b ↔ (l = a ∧ y = x ∧ b = []) ∨ ∃ b', b = b' ++ [y] ∧ l = a ++ x :: b' := by
  constructor
  · intro h
    rcases List.eq_nil_or_concat' b with rfl | ⟨b', z, rfl⟩
    · obtain ⟨rfl, hy⟩ := List.append_inj' h rfl
      exact .inl ⟨rfl, List.singleton_inj.mp hy, rfl⟩
    · rw [← List.cons_append, ← List.append_assoc] at h
      obtain ⟨rfl, hy⟩ := List.append_inj' h rfl
      rw [List.singleton_inj.mp hy]
      exact .inr ⟨b', rfl, rfl⟩
  · rintro (⟨rfl, rfl, rfl⟩ | ⟨b', rfl, rfl⟩)
    · rfl
    · simp

/-- Some entry satisfies `p`, and all entries after it satisfy `q`. -/
def Since (p q : α → Prop) (l : List α) : Prop :=
  ∃ a x b, l = a ++ x :: b ∧ p x ∧ ∀ y ∈ b, q y

/-- Nothing has happened in an empty history. -/
theorem not_since_nil : ¬ Since p q [] := by
  rintro ⟨a, x, b, h, -⟩
  simp at h

/-- The new entry satisfies `p`, or an older one does and the new one satisfies `q`. -/
theorem since_snoc : Since p q (l ++ [y]) ↔ p y ∨ Since p q l ∧ q y := by
  constructor
  · rintro ⟨a, x, b, h, hp, hq⟩
    rcases snoc_eq_append_cons.mp h with ⟨-, rfl, -⟩ | ⟨b', rfl, rfl⟩
    · exact .inl hp
    · exact .inr ⟨⟨a, x, b', rfl, hp, fun z hz ↦ hq z (by simp [hz])⟩, hq y (by simp)⟩
  · rintro (hp | ⟨⟨a, x, b, rfl, hp, hq⟩, hy⟩)
    · exact ⟨l, y, [], rfl, hp, by simp⟩
    · refine ⟨a, x, b ++ [y], by simp, hp, fun z hz ↦ ?_⟩
      rcases List.mem_append.mp hz with hz | hz
      · exact hq z hz
      · rwa [List.mem_singleton.mp hz]

/-- Whether some entry satisfies `p` and all entries after it satisfy `q` is found in one pass. -/
theorem since_iff_foldl [DecidablePred p] [DecidablePred q] :
    Since p q l ↔ l.foldl (fun b y ↦ decide (p y) || b && decide (q y)) false = true := by
  induction l using List.reverseRecOn with
  | nil => simp [not_since_nil]
  | append_singleton l y ih => simp [since_snoc, ih]

instance [DecidablePred p] [DecidablePred q] : Decidable (Since p q l) :=
  decidable_of_iff _ since_iff_foldl.symm

/-- Exactly one entry satisfies `p`. -/
def Once (p : α → Prop) (l : List α) : Prop :=
  ∃ a x b, l = a ++ x :: b ∧ p x ∧ ∀ y ∈ a ++ b, ¬ p y

/-- The first entry that satisfies `p` is new. -/
theorem Once.snoc_new (h : ∀ x ∈ l, ¬ p x) (hy : p y) : Once p (l ++ [y]) :=
  ⟨l, y, [], rfl, hy, by simpa using h⟩

/-- A new entry that does not satisfy `p` does not count. -/
theorem Once.snoc (h : Once p l) (hy : ¬ p y) : Once p (l ++ [y]) := by
  obtain ⟨a, x, b, rfl, hx, hab⟩ := h
  refine ⟨a, x, b ++ [y], by simp, hx, fun z hz ↦ ?_⟩
  rw [← List.append_assoc] at hz
  rcases List.mem_append.mp hz with hz | hz
  · exact hab z hz
  · rwa [List.mem_singleton.mp hz]

end Transition
