import YRmx.Intrusive.Headed
import YRmx.Transition.Fuel

/-!
# The search for a predecessor

Library `Intrusive`. `while (p && p->link != x) p = p->link` follows the link fields from the
head of a list to the node in front of `x`, or off the end of the list. The first node of a list
stands behind no other one, so that the search misses it as it misses a node of another list.
-/

namespace Intrusive

open Transition

variable {α ε : Type}

/-- Every node behind the first one stands behind some node. -/
theorem exists_pred {xs : List α} {x : α} (h : x ∈ xs.tail) :
    ∃ l p r, xs = l ++ p :: x :: r := by
  cases xs with
  | nil => cases h
  | cons a xs =>
    obtain ⟨l, r, hlr⟩ := List.append_of_mem h
    have hlr : xs = l ++ x :: r := hlr
    subst hlr
    rcases List.eq_nil_or_concat' l with rfl | ⟨l, p, rfl⟩
    · exact ⟨[], a, r, rfl⟩
    · exact ⟨a :: l, p, r, by simp⟩

/-- The turns of the loop that looks for the node in front of `x`. -/
structure Searches (link : α → α) (null x : α) (loop : Nat → α → Except ε α) : Prop where
  zero : ∀ p q, loop 0 p ≠ .ok q
  next : ∀ n p, p ≠ null → link p ≠ x → loop (n + 1) p = loop n (link p)
  stop : ∀ n p, p = null ∨ link p = x → loop (n + 1) p = .ok p

namespace Searches

variable {link : α → α} {null x head : α} {loop : Nat → α → Except ε α} {xs : List α}

/-- More turns find the same node. -/
theorem mono (h : Searches link null x loop) (p : α) : FuelMono fun n ↦ loop n p := by
  intro n m q hnm hq
  dsimp only at hq ⊢
  induction n generalizing p m with
  | zero => exact absurd hq (h.zero p q)
  | succ n ih =>
    obtain ⟨m, rfl⟩ : ∃ k, m = k + 1 := ⟨m - 1, by omega⟩
    by_cases hp : p = null ∨ link p = x
    · rw [h.stop n p hp] at hq
      rwa [h.stop m p hp]
    · obtain ⟨hp, hx⟩ := not_or.mp hp
      rw [h.next n p hp hx] at hq
      rw [h.next m p hp hx]
      exact ih _ _ (by omega) hq

/-- The loop stops at the node in front of the one it looks for. -/
theorem pred {l r : List α} {p : α} (h : Searches link null x loop)
    (hl : Headed link null head (l ++ p :: x :: r)) : Yields (fun n ↦ loop n head) p := by
  induction l generalizing head with
  | nil =>
    have hh : head = p := hl.head_eq
    have hp : link p = x := Headed.link_eq (l := []) hl
    refine Yields.succ ((Yields.const p).congr fun n ↦ ?_)
    rw [hh, h.stop n p (.inr hp)]
  | cons a l ih =>
    have hh : head = a := hl.head_eq
    have hs := Headed.suffix (l := []) hl
    have ha : a ≠ null := fun he ↦ hl.fresh (by simp [he])
    have hax : link a ≠ x := by
      rw [hs.head_eq]
      have hd := (List.nodup_cons.mp hl.nodup).2
      cases l with
      | nil =>
        intro he
        have hp : p = x := he
        exact (List.nodup_cons.mp hd).1 (by simp [hp])
      | cons b l =>
        intro he
        have hb : b = x := he
        exact (List.nodup_cons.mp hd).1 (by simp [hb])
    refine Yields.succ ((ih hs).congr fun n ↦ ?_)
    rw [hh, h.next n a ha hax]

/-- The loop runs off the end of a list in which the node stands behind no other one. -/
theorem off (h : Searches link null x loop) (hl : Headed link null head xs) (hn : x ≠ null)
    (hx : x ∉ xs.tail) : Yields (fun n ↦ loop n head) null := by
  induction xs generalizing head with
  | nil =>
    have hh : head = null := hl.head_eq
    refine Yields.succ ((Yields.const null).congr fun n ↦ ?_)
    rw [hh, h.stop n null (.inl rfl)]
  | cons a xs ih =>
    have hh : head = a := hl.head_eq
    have hs := Headed.suffix (l := []) hl
    have ha : a ≠ null := fun he ↦ hl.fresh (by simp [he])
    have hax : link a ≠ x := by
      rw [hs.head_eq]
      cases xs with
      | nil => exact hn.symm
      | cons b xs => exact (List.ne_of_not_mem_cons hx).symm
    refine Yields.succ ((ih hs fun hm ↦ hx (List.mem_of_mem_tail hm)).congr fun n ↦ ?_)
    rw [hh, h.next n a ha hax]

end Searches

end Intrusive
