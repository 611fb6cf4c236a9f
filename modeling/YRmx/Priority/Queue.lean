import Mathlib.Data.List.Sort
import Mathlib.Order.Defs.LinearOrder

/-!
# Priority queues that are fair among equals

Library `Priority`. Every element has a key, and smaller keys are served first. A new element is
put behind all elements whose keys are not above its own, so that those of one key are served in
the order in which they came.
-/

namespace Priority

variable {α κ : Type} [LinearOrder κ] {key : α → κ} {came queue : List α} {x y : α}

/-- A new element is put in front of the first one with a larger key. -/
abbrev enqueue (key : α → κ) (x : α) (queue : List α) : List α :=
  queue.orderedInsert (fun a b ↦ key a < key b) x

/-- The queue is sorted, and the elements of one key stand in the order in which they came. -/
structure Serves (key : α → κ) (came queue : List α) : Prop where
  sorted : queue.Pairwise fun a b ↦ key a ≤ key b
  order : ∀ k, queue.filter (key · = k) = came.filter (key · = k)

/-- A new element is put in front of a larger key. -/
theorem enqueue_cons_of_lt (h : key x < key y) : enqueue key x (y :: queue) = x :: y :: queue :=
  List.orderedInsert_cons_of_le _ queue h

/-- A new element goes behind a key that is not above its own. -/
theorem enqueue_cons_of_le (h : key y ≤ key x) :
    enqueue key x (y :: queue) = y :: enqueue key x queue :=
  List.orderedInsert_of_not_le _ queue (not_lt.mpr h)

/-- The elements of a queue with one more. -/
theorem mem_enqueue : y ∈ enqueue key x queue ↔ y = x ∨ y ∈ queue := List.mem_orderedInsert _

/-- A new element leaves the queue sorted. -/
theorem enqueue_sorted (h : queue.Pairwise fun a b ↦ key a ≤ key b) :
    (enqueue key x queue).Pairwise fun a b ↦ key a ≤ key b := by
  induction queue with
  | nil => exact List.pairwise_singleton _ _
  | cons a queue ih =>
    obtain ⟨ha, hq⟩ := List.pairwise_cons.mp h
    rcases lt_or_ge (key x) (key a) with hx | hx
    · rw [enqueue_cons_of_lt hx]
      refine List.pairwise_cons.mpr ⟨fun b hb ↦ ?_, h⟩
      rcases List.mem_cons.mp hb with rfl | hb
      · exact hx.le
      · exact hx.le.trans (ha b hb)
    · rw [enqueue_cons_of_le hx]
      refine List.pairwise_cons.mpr ⟨fun b hb ↦ ?_, ih hq⟩
      rcases mem_enqueue.mp hb with rfl | hb
      · exact hx
      · exact ha b hb

/-- A new element is the last one of its key. -/
theorem enqueue_filter (h : queue.Pairwise fun a b ↦ key a ≤ key b) (k : κ) :
    (enqueue key x queue).filter (key · = k) = (queue ++ [x]).filter (key · = k) := by
  induction queue with
  | nil => rfl
  | cons a queue ih =>
    obtain ⟨ha, hq⟩ := List.pairwise_cons.mp h
    rcases lt_or_ge (key x) (key a) with hx | hx
    · -- nothing behind the new element has its key
      have hgt : ∀ b ∈ a :: queue, key x < key b := by
        intro b hb
        rcases List.mem_cons.mp hb with rfl | hb
        · exact hx
        · exact hx.trans_le (ha b hb)
      rw [enqueue_cons_of_lt hx, List.filter_append, List.filter_cons]
      by_cases hk : key x = k
      · have hn : (a :: queue).filter (key · = k) = [] :=
          List.filter_eq_nil_iff.mpr fun b hb ↦ by simpa using ((hk ▸ hgt b hb).ne')
        rw [hn]
        simp [hk]
      · simp [hk]
    · rw [enqueue_cons_of_le hx, List.cons_append, List.filter_cons, List.filter_cons, ih hq]

namespace Serves

/-- Nobody has come. -/
theorem nil : Serves key [] ([] : List α) := ⟨List.Pairwise.nil, fun _ ↦ rfl⟩

/-- A sorted queue serves those who came in its own order. -/
theorem refl (h : queue.Pairwise fun a b ↦ key a ≤ key b) : Serves key queue queue :=
  ⟨h, fun _ ↦ rfl⟩

/-- The queue holds exactly those who came. -/
theorem mem_iff (h : Serves key came queue) : x ∈ queue ↔ x ∈ came := by
  have hx : x ∈ queue.filter (key · = key x) ↔ x ∈ came.filter (key · = key x) := by
    rw [h.order]
  simpa using hx

/-- One more has come. -/
theorem enqueue (h : Serves key came queue) :
    Serves key (came ++ [x]) (enqueue key x queue) where
  sorted := enqueue_sorted h.sorted
  order k := by rw [enqueue_filter h.sorted, List.filter_append, List.filter_append, h.order]

/-- One has left. -/
theorem erase [DecidableEq α] (h : Serves key came queue) :
    Serves key (came.erase x) (queue.erase x) where
  sorted := h.sorted.sublist List.erase_sublist
  order k := by rw [← List.erase_filter, ← List.erase_filter, h.order]

end Serves

end Priority
