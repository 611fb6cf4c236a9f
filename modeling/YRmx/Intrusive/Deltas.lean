import Mathlib.Algebra.GroupWithZero.Nat
import Mathlib.Data.List.Sort

/-!
# Delta-encoded waiting times

Library `Intrusive`. A list of nodes with absolute waiting times is stored with one
relative time for each node: the time that is left once the node before it is due.
Insertion and removal rewrite the relative time of the next node only.
-/

namespace Intrusive

variable {α : Type}

/-- Each relative time leads from the waiting time of the node before to its own. -/
def Deltas (delay : α → Nat) : Nat → List (α × Nat) → Prop
  | _, [] => True
  | b, (x, r) :: xs => b + delay x = r ∧ Deltas delay r xs

/-- The waiting time of the last node, or the start when there is none. -/
def lastTime (b : Nat) (xs : List (α × Nat)) : Nat := (xs.map Prod.snd).getLastD b

/-- The last node of a list that ends in it. -/
theorem lastTime_concat {b : Nat} {xs : List (α × Nat)} {p : α × Nat} :
    lastTime b (xs ++ [p]) = p.2 := by
  simp [lastTime]

/-- A tick less for every node is one less for the last. -/
theorem lastTime_map (xs : List (α × Nat)) :
    lastTime 0 (xs.map fun p ↦ (p.1, p.2 - 1)) = lastTime 0 xs - 1 := by
  rcases List.eq_nil_or_concat' xs with rfl | ⟨l, p, rfl⟩
  · rfl
  · rw [List.map_append, List.map_singleton, lastTime_concat, lastTime_concat]

namespace Deltas

variable {delay delay' : α → Nat} {b : Nat} {xs : List (α × Nat)}

/-- The encoding only depends on the relative times of the listed nodes. -/
theorem congr (h : Deltas delay b xs) (he : ∀ p ∈ xs, delay' p.1 = delay p.1) :
    Deltas delay' b xs := by
  induction xs generalizing b with
  | nil => trivial
  | cons p xs ih =>
    refine ⟨?_, ih h.2 fun q hq ↦ he q (List.mem_cons_of_mem _ hq)⟩
    rw [he p List.mem_cons_self]
    exact h.1

/-- The nodes determine the waiting times. -/
theorem unique {ys : List (α × Nat)} (h : Deltas delay b xs) (h' : Deltas delay b ys)
    (he : xs.map Prod.fst = ys.map Prod.fst) : xs = ys := by
  induction xs generalizing b ys with
  | nil => exact (List.map_eq_nil_iff.mp he.symm).symm
  | cons p xs ih =>
    cases ys with
    | nil => cases he
    | cons q ys =>
      obtain ⟨hpq, he⟩ := List.cons.inj he
      have ht : p.2 = q.2 := by
        rw [← h.1, ← h'.1, hpq]
      rw [Prod.ext hpq ht, ih h.2 (ht ▸ h'.2) he]

/-- The encoding of a concatenation continues from the last time of the first part. -/
theorem append_iff {ys : List (α × Nat)} :
    Deltas delay b (xs ++ ys) ↔ Deltas delay b xs ∧ Deltas delay (lastTime b xs) ys := by
  induction xs generalizing b with
  | nil => simp [Deltas, lastTime]
  | cons p xs ih =>
    simp only [List.cons_append, Deltas, ih, lastTime, List.map_cons, List.getLastD_cons]
    tauto

/-- Waiting times never decrease along the list, and none is below the start. -/
theorem sorted (h : Deltas delay b xs) :
    (∀ p ∈ xs, b ≤ p.2) ∧ xs.Pairwise (fun p q ↦ p.2 ≤ q.2) := by
  induction xs generalizing b with
  | nil => simp
  | cons p xs ih =>
    obtain ⟨hle, hs⟩ := ih h.2
    have hp : b ≤ p.2 := by
      have := h.1
      omega
    refine ⟨fun q hq ↦ ?_, List.pairwise_cons.mpr ⟨hle, hs⟩⟩
    rcases List.mem_cons.mp hq with rfl | hq
    · exact hp
    · exact hp.trans (hle q hq)

/-- A waiting time is the sum of the relative times up to and including its node. -/
theorem sum_eq {l r : List (α × Nat)} {x : α} {t : Nat}
    (h : Deltas delay b (l ++ (x, t) :: r)) :
    b + ((l.map Prod.fst ++ [x]).map delay).sum = t := by
  induction l generalizing b with
  | nil => simpa [Deltas] using h.1
  | cons p l ih =>
    have := ih h.2
    have := h.1
    simp only [List.map_cons, List.cons_append, List.sum_cons] at *
    omega

/-- The last time is not below the start. -/
theorem start_le_lastTime (h : Deltas delay b xs) : b ≤ lastTime b xs := by
  rcases List.eq_nil_or_concat' xs with rfl | ⟨l, p, rfl⟩
  · exact le_refl b
  · rw [lastTime_concat]
    exact h.sorted.1 p (by simp)

/-- Inserting a node shortens the relative time of its successor by its own. -/
theorem insert {l r : List (α × Nat)} {n : α} {d : Nat} (h : Deltas delay b (l ++ r))
    (hn : lastTime b l + delay' n = d) (hq : ∀ p ∈ r.head?, d + delay' p.1 = p.2)
    (hl : ∀ p ∈ l, delay' p.1 = delay p.1) (hr : ∀ p ∈ r.tail, delay' p.1 = delay p.1) :
    Deltas delay' b (l ++ (n, d) :: r) := by
  obtain ⟨h₁, h₂⟩ := append_iff.mp h
  refine append_iff.mpr ⟨h₁.congr hl, hn, ?_⟩
  cases r with
  | nil => trivial
  | cons p r => exact ⟨hq p rfl, h₂.2.congr hr⟩

/-- Removing a node lengthens the relative time of its successor by its own. -/
theorem remove {l r : List (α × Nat)} {x : α} {t : Nat} (h : Deltas delay b (l ++ (x, t) :: r))
    (hq : ∀ p ∈ r.head?, delay' p.1 = delay p.1 + delay x)
    (hl : ∀ p ∈ l, delay' p.1 = delay p.1) (hr : ∀ p ∈ r.tail, delay' p.1 = delay p.1) :
    Deltas delay' b (l ++ r) := by
  obtain ⟨h₁, hx, h₂⟩ := append_iff.mp h
  refine append_iff.mpr ⟨h₁.congr hl, ?_⟩
  cases r with
  | nil => trivial
  | cons p r =>
    refine ⟨?_, h₂.2.congr hr⟩
    have := hq p rfl
    have := h₂.1
    omega

/-- Shortening the first relative time by one lowers every waiting time by one. -/
theorem tick {x : α} {t : Nat} {r : List (α × Nat)} (h : Deltas delay b ((x, t) :: r))
    (hx : delay' x + 1 = delay x) (hr : ∀ p ∈ r, delay' p.1 = delay p.1) :
    Deltas delay' b (((x, t) :: r).map fun p ↦ (p.1, p.2 - 1)) := by
  have shift : ∀ (r : List (α × Nat)) (c : Nat), 0 < c → Deltas delay c r →
      Deltas delay (c - 1) (r.map fun p ↦ (p.1, p.2 - 1)) := by
    intro r
    induction r with
    | nil => intros; trivial
    | cons p r ih =>
      intro c hc hp
      have hp1 := hp.1
      exact ⟨by omega, ih _ (by omega) hp.2⟩
  have h1 := h.1
  refine ⟨by simp only; omega, ?_⟩
  apply (shift r t (by omega) h.2).congr
  intro p hp
  obtain ⟨q, hq, rfl⟩ := List.mem_map.mp hp
  exact hr q hq

end Deltas

end Intrusive
