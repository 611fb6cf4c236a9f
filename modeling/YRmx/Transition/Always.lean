import YRmx.Transition.History
import YRmx.Transition.Trace

/-!
# What holds at every point of a run

Library `Transition`. A statement about the history and the state may hold at every point
of a run, and a condition on the history, the state and the label at every step of it. The
last rule settles when the two are the same.
-/

namespace Transition

variable {σ ι : Type} {step : σ → ι → σ → Prop} {P J : List (σ × ι) → σ → Prop}
  {C H : List (σ × ι) → σ → ι → Prop} {tr : List (σ × ι)} {s t m : σ} {i : ι}

/-- A statement holds at the end of a run and before each of its steps. -/
def Always (P : List (σ × ι) → σ → Prop) (tr : List (σ × ι)) (t : σ) : Prop :=
  P tr t ∧ ∀ a x b, tr = a ++ x :: b → P a x.1

/-- Each step of a run satisfies a condition on what came before it. -/
def Throughout (C : List (σ × ι) → σ → ι → Prop) (tr : List (σ × ι)) : Prop :=
  ∀ a x b, tr = a ++ x :: b → C a x.1 x.2

/-- A run that has not started yet has one point. -/
theorem always_nil : Always P [] t ↔ P [] t := by
  simp [Always]

/-- No step has been taken yet. -/
theorem throughout_nil : Throughout C [] := by
  simp [Throughout]

/-- One more step is one more point. -/
theorem always_snoc :
    Always P (tr ++ [(m, i)]) t ↔ Always P tr m ∧ P (tr ++ [(m, i)]) t := by
  simp only [Always, snoc_eq_append_cons]
  constructor
  · rintro ⟨ht, ha⟩
    exact ⟨⟨ha tr (m, i) [] (.inl ⟨rfl, rfl, rfl⟩),
      fun a x b h ↦ ha a x (b ++ [(m, i)]) (.inr ⟨b, rfl, h⟩)⟩, ht⟩
  · rintro ⟨⟨hm, ha⟩, ht⟩
    refine ⟨ht, ?_⟩
    rintro a x b (⟨rfl, rfl, rfl⟩ | ⟨b', rfl, h⟩)
    · exact hm
    · exact ha a x b' h

/-- One more step is one more condition. -/
theorem throughout_snoc :
    Throughout C (tr ++ [(m, i)]) ↔ Throughout C tr ∧ C tr m i := by
  simp only [Throughout, snoc_eq_append_cons]
  constructor
  · intro h
    exact ⟨fun a x b ha ↦ h a x (b ++ [(m, i)]) (.inr ⟨b, rfl, ha⟩),
      h tr (m, i) [] (.inl ⟨rfl, rfl, rfl⟩)⟩
  · rintro ⟨ha, hm⟩ a x b (⟨rfl, rfl, rfl⟩ | ⟨b', rfl, h⟩)
    · exact hm
    · exact ha a x b' h

/-- What holds always holds at the end. -/
theorem Always.last (h : Always P tr t) : P tr t := h.1

/-- A stronger statement that holds always. -/
theorem Always.mono {Q : List (σ × ι) → σ → Prop} (h : Always P tr t)
    (hPQ : ∀ tr s, P tr s → Q tr s) : Always Q tr t :=
  ⟨hPQ _ _ h.1, fun a x b hx ↦ hPQ _ _ (h.2 a x b hx)⟩

/-- A condition on each entry of a list and the entries before it. -/
def Each (D : List ι → ι → Prop) : List ι → List ι → Prop
  | _, [] => True
  | is, j :: js => D is j ∧ Each D (is ++ [j]) js

/-- Each entry satisfies the condition together with the entries before it. -/
theorem Each.at {D : List ι → ι → Prop} {is a b : List ι} (h : Each D is (a ++ i :: b)) :
    D (is ++ a) i := by
  induction a generalizing is with
  | nil => simpa using h.1
  | cons j a ih => simpa using ih h.2

/-- A condition on the labels alone is one on the list of labels. -/
theorem throughout_of_each {D : List ι → ι → Prop} (h : Each D [] (tr.map Prod.snd)) :
    Throughout (fun tr _ i ↦ D (tr.map Prod.snd) i) tr := by
  intro a x b hx
  rw [hx, List.map_append, List.map_cons] at h
  exact h.at

namespace Trace

/-- What holds first and is kept by every step under a condition holds always under it. -/
theorem always (h : Trace step s tr t) (h0 : J [] s)
    (keep : ∀ {tr m i n}, J tr m → C tr m i → step m i n → J (tr ++ [(m, i)]) n)
    (hC : Throughout C tr) : Always J tr t := by
  induction h with
  | nil => exact always_nil.mpr h0
  | snoc _ hs ih =>
    obtain ⟨hC, hc⟩ := throughout_snoc.mp hC
    have hJ := ih hC
    exact always_snoc.mpr ⟨hJ, keep hJ.last hc hs⟩

/-- In a run whose steps were checked, each step passes the check. -/
theorem of_checked {Q : σ → ι → Prop} (h : Trace (fun a i b ↦ Q a i ∧ step a i b) s tr t) :
    Trace step s tr t ∧ Throughout (fun _ a i ↦ Q a i) tr := by
  induction h with
  | nil => exact ⟨.nil, throughout_nil⟩
  | snoc _ hs ih => exact ⟨ih.1.snoc hs.2, throughout_snoc.mpr ⟨ih.2, hs.1⟩⟩

/-- A step behind a check. -/
def checked {ε : Type} (q : σ → ι → Bool) (r : ε) (f : σ → ι → Except ε σ) (s : σ) (i : ι) :
    Except ε σ :=
  if q s i then f s i else .error r

/-- A computed run whose steps are checked, and after which a test is passed. -/
theorem exists_of_checked {ε : Type} {f : σ → ι → Except ε σ} {r : ε} {q : σ → ι → Bool}
    {Q : σ → ι → Prop} {p : σ → Bool} {l : List ι} (hf : ∀ a i b, f a i = .ok b → step a i b)
    (hq : ∀ a i, q a i = true → Q a i)
    (h : (l.foldlM (checked q r f) s).toOption.any p = true) :
    ∃ tr t, Trace step s tr t ∧ tr.map Prod.snd = l ∧ Throughout (fun _ a i ↦ Q a i) tr ∧
      p t = true := by
  obtain ⟨tr, t, hr, hl, hp⟩ := exists_of_foldlM
    (fun a i b hab ↦ show Q a i ∧ step a i b by
      rw [checked] at hab
      split at hab
      · rename_i hqa
        exact ⟨hq a i hqa, hf a i b hab⟩
      · cases hab) h
  obtain ⟨hr, hQ⟩ := of_checked hr
  exact ⟨tr, t, hr, hl, hQ, hp⟩

/-- A step behind a check that may look at the history, with the history. -/
def traced {ε : Type} (q : List (σ × ι) → σ → ι → Bool) (r : ε) (f : σ → ι → Except ε σ)
    (x : List (σ × ι) × σ) (i : ι) : Except ε (List (σ × ι) × σ) :=
  if q x.1 x.2 i then (f x.2 i).map fun s ↦ (x.1 ++ [(x.2, i)], s) else .error r

/-- A computed run whose steps are checked against the history, and after which a test is
passed. -/
theorem exists_of_traced {ε : Type} {f : σ → ι → Except ε σ} {r : ε}
    {q : List (σ × ι) → σ → ι → Bool} {Q : List (σ × ι) → σ → ι → Prop}
    {p : List (σ × ι) × σ → Bool} {l : List ι} (hf : ∀ a i b, f a i = .ok b → step a i b)
    (hq : ∀ a m i, q a m i = true → Q a m i)
    (h : (l.foldlM (traced q r f) ([], s)).toOption.any p = true) :
    ∃ tr t, Trace step s tr t ∧ tr.map Prod.snd = l ∧ Throughout Q tr ∧ p (tr, t) = true := by
  have go : ∀ (l : List ι) {tr m}, Trace step s tr m → Throughout Q tr →
      (l.foldlM (traced q r f) (tr, m)).toOption.any p = true →
      ∃ tr' t, Trace step s tr' t ∧ tr'.map Prod.snd = tr.map Prod.snd ++ l ∧
        Throughout Q tr' ∧ p (tr', t) = true := by
    intro l
    induction l with
    | nil => exact fun {tr m} ht hQ h ↦ ⟨tr, m, ht, by simp, hQ, h⟩
    | cons i l ih =>
      intro tr m ht hQ h
      rw [List.foldlM_cons, traced] at h
      split at h
      · rename_i hqi
        cases hs : f m i with
        | error e =>
          rw [hs] at h
          cases h
        | ok n =>
          rw [hs] at h
          obtain ⟨tr', t, ht', hl, hQ', hp⟩ := ih (ht.snoc (hf m i n hs))
            (throughout_snoc.mpr ⟨hQ, hq tr m i hqi⟩) h
          exact ⟨tr', t, ht', by simpa using hl, hQ', hp⟩
      · cases h
  obtain ⟨tr, t, ht, hl, hQ, hp⟩ := go l .nil throughout_nil h
  exact ⟨tr, t, ht, by simpa using hl, hQ, hp⟩

/-- If an invariant is kept exactly as long as a condition holds, then a statement that
follows from it and fails with the condition holds always exactly under the condition. -/
theorem always_iff (h : Trace step s tr t) (h0 : J [] s) (hH : Throughout H tr)
    (keep : ∀ {tr m i n}, J tr m → H tr m i → C tr m i → step m i n → J (tr ++ [(m, i)]) n)
    (good : ∀ {tr m}, J tr m → P tr m)
    (bad : ∀ {tr m i n}, J tr m → H tr m i → ¬ C tr m i → step m i n → ¬ P (tr ++ [(m, i)]) n) :
    Always P tr t ↔ Throughout C tr := by
  have along : ∀ {tr t}, Trace step s tr t → Throughout H tr → Throughout C tr →
      Always J tr t := by
    intro tr t h hH hC
    refine h.always (C := fun tr m i ↦ H tr m i ∧ C tr m i) h0
      (fun hJ hc hs ↦ keep hJ hc.1 hc.2 hs) fun a x b hx ↦ ⟨hH a x b hx, hC a x b hx⟩
  refine ⟨fun hP ↦ ?_, fun hC ↦ (along h hH hC).mono fun _ _ ↦ good⟩
  induction h with
  | nil => exact throughout_nil
  | snoc hm hs ih =>
    obtain ⟨hH, hh⟩ := throughout_snoc.mp hH
    obtain ⟨hP, hp⟩ := always_snoc.mp hP
    have hC := ih hH hP
    refine throughout_snoc.mpr ⟨hC, ?_⟩
    by_contra hc
    exact bad (along hm hH hC).last hh hc hs hp

end Trace

end Transition
