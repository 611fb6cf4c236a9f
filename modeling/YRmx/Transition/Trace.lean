import Mathlib.Data.List.Induction

/-!
# Labelled steps and their traces

Library `Transition`. A trace records, for every step of a run, the state before the step
and its label, so that statements about the past are statements about a list.
-/

namespace Transition

variable {σ ι : Type} {step : σ → ι → σ → Prop}

/-- A run from one state to another with the states and labels it went through. -/
inductive Trace (step : σ → ι → σ → Prop) (s : σ) : List (σ × ι) → σ → Prop where
  | nil : Trace step s [] s
  | snoc {tr s' i s''} : Trace step s tr s' → step s' i s'' →
      Trace step s (tr ++ [(s', i)]) s''

namespace Trace

variable {s t u : σ} {tr tr' : List (σ × ι)}

/-- Traces compose. -/
theorem append (h : Trace step s tr t) (h' : Trace step t tr' u) :
    Trace step s (tr ++ tr') u := by
  induction h' with
  | nil => rwa [List.append_nil]
  | snoc _ hs ih =>
    rw [← List.append_assoc]
    exact ih.snoc hs

/-- The empty trace stays where it is. -/
theorem nil_iff : Trace step s [] t ↔ t = s := by
  constructor
  · intro h
    generalize hl : ([] : List (σ × ι)) = l at h
    cases h with
    | nil => rfl
    | snoc => simp at hl
  · rintro rfl
    exact .nil

/-- The last recorded step of a trace. -/
theorem snoc_iff {m : σ} {i : ι} :
    Trace step s (tr ++ [(m, i)]) t ↔ Trace step s tr m ∧ step m i t := by
  constructor
  · intro h
    generalize hl : tr ++ [(m, i)] = l at h
    cases h with
    | nil => simp at hl
    | snoc h hs =>
      obtain ⟨rfl, he⟩ := List.append_inj' hl rfl
      cases he
      exact ⟨h, hs⟩
  · exact fun h ↦ h.1.snoc h.2

/-- A trace splits at any of its entries. -/
theorem split {a b : List (σ × ι)} {m : σ} {i : ι} (h : Trace step s (a ++ (m, i) :: b) t) :
    ∃ m', Trace step s a m ∧ step m i m' ∧ Trace step m' b t := by
  induction b using List.reverseRecOn generalizing t with
  | nil =>
    obtain ⟨h, hs⟩ := snoc_iff.mp h
    exact ⟨t, h, hs, .nil⟩
  | append_singleton b x ih =>
    rw [← List.cons_append, ← List.append_assoc] at h
    obtain ⟨h, hs⟩ := snoc_iff.mp h
    obtain ⟨m', ha, hm, hb⟩ := ih h
    exact ⟨m', ha, hm, hb.snoc hs⟩

/-- What holds first and is kept by every step with an admissible label holds at the end. -/
theorem invariant {P : σ → Prop} {Q : σ → ι → Prop} (h : Trace step s tr t) (h0 : P s)
    (hQ : ∀ x ∈ tr, Q x.1 x.2)
    (hstep : ∀ a i b, P a → Q a i → step a i b → P b) : P t := by
  induction h with
  | nil => exact h0
  | @snoc tr m i n _ hs ih =>
    have hm := hQ (m, i) (by simp)
    exact hstep m i n (ih fun x hx ↦ hQ x (by simp [hx])) hm hs

/-- The states a trace goes through satisfy every such invariant, too. -/
theorem invariant_mem {P : σ → Prop} {Q : σ → ι → Prop} (h : Trace step s tr t) (h0 : P s)
    (hQ : ∀ x ∈ tr, Q x.1 x.2)
    (hstep : ∀ a i b, P a → Q a i → step a i b → P b) : ∀ x ∈ tr, P x.1 := by
  rintro ⟨m, i⟩ hx
  obtain ⟨a, b, rfl⟩ := List.append_of_mem hx
  obtain ⟨m', ha, -, -⟩ := h.split
  exact ha.invariant h0 (fun x hx ↦ hQ x (by simp [hx])) hstep

/-- A computed run after which a test is passed. -/
theorem exists_of_foldlM {ε : Type} {f : σ → ι → Except ε σ} {p : σ → Bool} {l : List ι}
    (hf : ∀ a i b, f a i = .ok b → step a i b)
    (h : (l.foldlM f s).toOption.any p = true) :
    ∃ tr t, Trace step s tr t ∧ tr.map Prod.snd = l ∧ p t = true := by
  induction l generalizing s with
  | nil => exact ⟨[], s, .nil, rfl, h⟩
  | cons i l ih =>
    rw [List.foldlM_cons] at h
    cases hs : f s i with
    | error r =>
      rw [hs] at h
      cases h
    | ok m =>
      rw [hs] at h
      obtain ⟨tr, t, ht, hl, hp⟩ := ih h
      exact ⟨[(s, i)] ++ tr, t, Trace.append (.snoc .nil (hf s i m hs)) ht, by simp [hl], hp⟩

end Trace

end Transition
