import YRmx.Transition.Trace

/-!
# What lies ahead

Library `Transition`. From a state a system may be left to steps of one kind. When these leave
no choice on the way, one path to a state is all that can happen.
-/

namespace Transition

variable {σ ι : Type} {step : σ → ι → σ → Prop} {K : ι → Prop} {P : σ → Prop}
  {Q : List (σ × ι) → σ → Prop} {n : Nat} {s t : σ} {tr tr' : List (σ × ι)}

/-- Whatever steps of a kind are taken, another one can be taken until there were `n`, and `P`
holds until then; `Q` holds after the last one. -/
def Ahead (step : σ → ι → σ → Prop) (K : ι → Prop) (P : σ → Prop) (n : Nat)
    (Q : List (σ × ι) → σ → Prop) (s : σ) : Prop :=
  ∀ tr t, Trace step s tr t → (∀ x ∈ tr, K x.2) →
    (tr.length < n → P t ∧ ∃ i u, K i ∧ step t i u) ∧ (tr.length = n → Q tr t)

/-- The steps of a kind leave no choice where `P` holds. -/
def Determined (step : σ → ι → σ → Prop) (K : ι → Prop) (P : σ → Prop) : Prop :=
  ∀ t i u j v, P t → K i → K j → step t i u → step t j v → i = j ∧ u = v

/-- What lies ahead has consequences. -/
theorem Ahead.mono {Q' : List (σ × ι) → σ → Prop} (h : Ahead step K P n Q s)
    (hQ : ∀ tr t, Q tr t → Q' tr t) : Ahead step K P n Q' s :=
  fun tr t hr hK ↦ (h tr t hr hK).imp_right fun h hn ↦ hQ tr t (h hn)

/-- Fewer states leave no more choice. -/
theorem Determined.mono {P' : σ → Prop} (h : Determined step K P) (hP : ∀ s, P' s → P s) :
    Determined step K P' := fun t i u j v ht ↦ h t i u j v (hP t ht)

/-- A path through states that leave no choice goes on where another run of that kind has
stopped. -/
theorem Trace.rest (hd : Determined step K P) (h : Trace step s tr t) (hK : ∀ x ∈ tr, K x.2)
    (hP : ∀ x ∈ tr, P x.1) {u : σ} (h' : Trace step s tr' u) (hK' : ∀ x ∈ tr', K x.2)
    (hn : tr'.length ≤ tr.length) : ∃ b, tr = tr' ++ b ∧ Trace step u b t := by
  induction h' with
  | nil => exact ⟨tr, rfl, h⟩
  | @snoc a m i u _ hs ih =>
    rw [List.length_append, List.length_singleton] at hn
    obtain ⟨b, rfl, hb⟩ := ih (fun x hx ↦ hK' x (by simp [hx])) (by omega)
    cases b with
    | nil =>
      rw [List.append_nil] at hn
      omega
    | cons x b =>
      obtain ⟨m', hm, hx, hb⟩ := Trace.split (a := []) (b := b) (m := x.1) (i := x.2) hb
      have hm := nil_iff.mp hm
      obtain ⟨hi, rfl⟩ := hd x.1 x.2 m' i u (hP x (by simp)) (hK x (by simp))
        (hK' (m, i) (by simp)) hx (hm ▸ hs)
      refine ⟨b, ?_, hb⟩
      rw [List.append_assoc, ← hm, ← hi]
      rfl

/-- The one path there is leads on to its end. -/
theorem Trace.ahead (hd : Determined step K P) (h : Trace step s tr t) (hK : ∀ x ∈ tr, K x.2)
    (hP : ∀ x ∈ tr, P x.1) (hQ : Q tr t) : Ahead step K P tr.length Q s := by
  intro tr' u h' hK'
  refine ⟨fun hn ↦ ?_, fun hn ↦ ?_⟩
  · obtain ⟨b, rfl, hb⟩ := h.rest hd hK hP h' hK' (Nat.le_of_lt hn)
    cases b with
    | nil => simp at hn
    | cons x b =>
      obtain ⟨m, hm, hx, -⟩ := Trace.split (a := []) (b := b) (m := x.1) (i := x.2) hb
      have hm := nil_iff.mp hm
      exact ⟨hm ▸ hP x (by simp), x.2, m, hK x (by simp), hm ▸ hx⟩
  · obtain ⟨b, rfl, hb⟩ := h.rest hd hK hP h' hK' (Nat.le_of_eq hn)
    obtain rfl : b = [] := by simpa using hn
    rw [List.append_nil] at hQ
    rwa [nil_iff.mp hb] at hQ

end Transition
