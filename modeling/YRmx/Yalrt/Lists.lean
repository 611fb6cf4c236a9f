import YRmx.Priority.Queue
import YRmx.Yalrt.Sched

/-!
# What the list operations do

Library `YRmx`. Each operation of `Yalrt.Sched` as an operation on the lists that the `thread`
fields denote, with the fields that it leaves alone.
-/

namespace YRmx

open Transition Intrusive Priority

namespace Sched

variable {s s' : Sched} {t : TaskId} {p : ThreadPtr} {xs : List TaskId}

/-- Between two states, `thread` differs within a set of addresses only. -/
structure Keeps (s s' : Sched) (S : ThreadPtr → Prop) : Prop where
  thread : ∀ p, ¬ S p → s'.thread p = s.thread p
  status : s'.status = s.status
  priority : s'.priority = s.priority

/-- Nothing has changed. -/
theorem Keeps.refl (s : Sched) (S : ThreadPtr → Prop) : s.Keeps s S := ⟨fun _ _ ↦ rfl, rfl, rfl⟩

/-- A list outside the set is kept. -/
theorem Keeps.lists {S : ThreadPtr → Prop} (h : s.Keeps s' S) (hl : s.Lists p xs)
    (hx : ∀ t ∈ xs, ¬ S (.task t)) : s'.Lists p xs :=
  hl.congr fun t ht ↦ h.thread _ (hx t ht)

/-! ### The suspend list -/

/-- The suspend list with a tail that designates its last task. -/
structure Suspends (s : Sched) (xs : List TaskId) : Prop where
  lists : s.Lists s.headPtr xs
  ends : EndsAt s.tailPtr (ptrs xs)

/-- The tail of a list with a last task. -/
theorem ends_concat {l : List TaskId} : EndsAt p (ptrs (l ++ [t])) ↔ p = .task t := by
  rw [ptrs_append]
  exact endsAt_concat

/-- Appending to a suspend list with a null head. -/
theorem enterSuspended_of_null (h : s.headPtr = .null) :
    s.enterSuspended t = .ok { s with
      headPtr := .task t, tailPtr := .task t,
      thread := Function.update s.thread (.task t) .null } := by
  rw [enterSuspended, if_pos h]
  rfl

/-- Appending to a suspend list through its tail. -/
theorem enterSuspended_of_tail (h : s.headPtr ≠ .null) (hp : s.tailPtr = p) (hn : p ≠ .null) :
    s.enterSuspended t = .ok { s with
      tailPtr := .task t,
      thread := Function.update (Function.update s.thread p (.task t)) (.task t) .null } := by
  subst hp
  rw [enterSuspended, if_neg h, if_neg hn]
  rfl

/-- A task that is not in the suspend list is appended to it. -/
theorem Suspends.enter (h : s.Suspends xs) (ht : t ∉ xs) :
    ∃ s', s.enterSuspended t = .ok s' ∧ s'.Suspends (xs ++ [t]) ∧
      s.Keeps s' (· ∈ ptrs (xs ++ [t])) ∧ s'.ready = s.ready := by
  rcases List.eq_nil_or_concat' xs with rfl | ⟨l, u, rfl⟩
  · refine ⟨_, enterSuspended_of_null (h.lists.head_null_iff.mpr rfl),
      ⟨Headed.singleton (by simp), (ends_concat (l := [])).mpr rfl⟩, ⟨fun p hp ↦ ?_, rfl, rfl⟩,
      rfl⟩
    exact Function.update_of_ne (fun he ↦ hp (by simp [he])) _ _
  · have hh : s.headPtr ≠ .null := fun he ↦ by simpa using h.lists.head_null_iff.mp he
    refine ⟨_, enterSuspended_of_tail hh (ends_concat.mp h.ends) (by simp),
      ⟨?_, ends_concat.mpr rfl⟩, ⟨fun p hp ↦ ?_, rfl, rfl⟩, rfl⟩
    · have hl := h.lists
      rw [Lists, ptrs_append] at hl ⊢
      rw [ptrs_append]
      exact hl.concat (fun hm ↦ ht (by simpa [ptrs] using hm)) (by simp)
    · dsimp only
      rw [Function.update_of_ne fun he ↦ hp (by simp [he]),
        Function.update_of_ne fun he ↦ hp (by simp [he])]

/-- The tail of the suspend list without a task, when `tailPtr` is set as the code sets it. -/
theorem Suspends.ends_erase (h : s.Suspends xs) (ht : t ∈ xs) :
    EndsAt (s.tailAfter t) (ptrs (xs.erase t)) ↔ ∀ l, xs = l ++ [t] → l = [] := by
  rw [ptrs, List.map_erase task_injective, tailAfter,
    Headed.endsAt_erase h.lists h.ends (mem_ptrs.mpr ht) (not_mem_ptrs (by simp))]
  constructor
  · intro hl l hx
    have hn := hl (ptrs l) (by simp [hx])
    simpa using hn
  · intro hl l hx
    obtain ⟨l', r', hx', rfl, hr⟩ := List.map_eq_append_iff.mp hx
    obtain ⟨u, hu, hut⟩ := List.map_eq_singleton_iff.mp hr
    rw [hu, ThreadPtr.task.inj hut] at hx'
    rw [hl l' hx', List.map_nil]

/-- A task that is not in the suspend list is not taken out of it. -/
theorem Suspends.remove_absent (h : s.Suspends xs) (ht : t ∉ xs) :
    Yields (fun n ↦ s.removeSuspended n t) s := by
  rcases List.eq_nil_or_concat' xs with rfl | ⟨l, u, rfl⟩
  · apply (Yields.const _).congr
    intro n
    rw [removeSuspended, if_pos (h.lists.head_null_iff.mpr rfl)]
  · have hh : s.headPtr ≠ .null := fun he ↦ by simpa using h.lists.head_null_iff.mp he
    have hht : s.headPtr ≠ .task t := by
      rw [h.lists.head_eq]
      cases l <;> simp_all [eq_comm]
    have hu : s.thread (.task u) ≠ .task t := by
      rw [h.lists.thread_eq (r := [])]
      simp
    have hb : s.unlinkSuspended t (.task u) = .ok s := by rw [unlinkSuspended, if_neg hu]
    apply ((h.lists.find_absent ht).bind ((Yields.const s).congr fun _ ↦ hb)).congr
    intro n
    rw [removeSuspended, if_neg hh, if_neg hht]

/-- The state after a task was taken out of the suspend list. -/
theorem Suspends.remove_mem (h : s.Suspends xs) (ht : t ∈ xs) :
    ∃ s', Yields (fun n ↦ s.removeSuspended n t) s' ∧ s'.Lists s'.headPtr (xs.erase t) ∧
      s'.tailPtr = s.tailAfter t ∧ s.Keeps s' (· ∈ ptrs xs) ∧ s'.ready = s.ready := by
  obtain ⟨l, r, rfl⟩ := List.append_of_mem ht
  have hl := h.lists
  have hh : s.headPtr ≠ .null := fun he ↦ by simpa using hl.head_null_iff.mp he
  rw [hl.erase_eq]
  rcases List.eq_nil_or_concat' l with rfl | ⟨l, u, rfl⟩
  · have hht : s.headPtr = .task t := hl.head_eq
    refine ⟨{ s with headPtr := s.thread (.task t), tailPtr := s.tailAfter t },
      (Yields.const _).congr fun n ↦ ?_, hl.suffix (l := []), rfl, ⟨fun _ _ ↦ rfl, rfl, rfl⟩, rfl⟩
    rw [removeSuspended, if_neg hh, if_pos hht]
  · rw [List.append_assoc, List.singleton_append] at hl ⊢
    have hht : s.headPtr ≠ .task t := by
      have hd := hl.nodup
      rw [hl.head_eq]
      cases l <;> simp_all
    have hu : s.thread (.task u) = .task t := hl.thread_eq
    have hb : s.unlinkSuspended t (.task u) = .ok { s with
        thread := Function.update s.thread (.task u) (s.thread (.task t)),
        tailPtr := s.tailAfter t } := by
      rw [unlinkSuspended, if_pos hu]
    refine ⟨_, (hl.find_pred.bind ((Yields.const _).congr fun _ ↦ hb)).congr fun n ↦ ?_, ?_, rfl,
      ⟨fun p hp ↦ Function.update_of_ne (fun he ↦ hp (by simp [he])) _ _, rfl, rfl⟩, rfl⟩
    · rw [removeSuspended, if_neg hh, if_neg hht]
    · rw [Lists, ptrs_append] at hl ⊢
      exact hl.remove

/-! ### The ready list -/

/-- A priority value as a number. -/
abbrev key (s : Sched) (t : TaskId) : Nat := (s.priority t).toNat

/-- The loop of `enterlist` ends at the task that the new one is put behind. -/
theorem Lists.insertLoop_yields {a : TaskId} (h : s.Lists p (a :: xs))
    (ha : s.key a ≤ s.key t) :
    ∃ l u r, a :: xs = l ++ u :: r ∧ enqueue s.key t (a :: xs) = l ++ u :: t :: r ∧
      Yields (fun n ↦ insertLoop n s t (.task a)) (.task u) := by
  induction xs generalizing a p with
  | nil =>
    have hn : s.thread (.task a) = .null := h.thread_eq (l := [])
    refine ⟨[], a, [], rfl, enqueue_cons_of_le ha, ?_⟩
    refine Yields.succ ((Yields.const (ThreadPtr.task a)).congr fun n ↦ ?_)
    simp only [insertLoop, hn, if_true]
  | cons b xs ih =>
    have hb : s.thread (.task a) = .task b := h.thread_eq (l := [])
    by_cases hle : s.priority b ≤ s.priority t
    · have hs : s.Lists (s.thread (.task a)) (b :: xs) := h.suffix (l := [])
      obtain ⟨l, u, r, hx, hp, hy⟩ := ih hs (BitVec.le_def.mp hle)
      refine ⟨a :: l, u, r, by rw [hx, List.cons_append], ?_, ?_⟩
      · rw [enqueue_cons_of_le ha, hp]
        rfl
      · refine Yields.succ (hy.congr fun n ↦ ?_)
        simp only [insertLoop, hb, priorityAt, reduceCtorEq, if_false, Exec.ok_bind, if_pos hle]
    · refine ⟨[], a, b :: xs, rfl, ?_, ?_⟩
      · have hlt : s.key t < s.key b := Nat.lt_of_not_le fun h ↦ hle (BitVec.le_def.mpr h)
        rw [enqueue_cons_of_le ha, enqueue_cons_of_lt hlt]
        rfl
      · refine Yields.succ ((Yields.const (ThreadPtr.task a)).congr fun n ↦ ?_)
        simp only [insertLoop, hb, priorityAt, reduceCtorEq, if_false, Exec.ok_bind, if_neg hle]

/-- A task that is not in the ready list is put at its place. -/
theorem Lists.enterReady (h : s.Lists s.ready xs) (hne : xs ≠ []) (ht : t ∉ xs) :
    ∃ s', Yields (fun n ↦ s.enterReady n t) s' ∧ s'.Lists s'.ready (enqueue s.key t xs) ∧
      s.Keeps s' (· ∈ ptrs (t :: xs)) ∧ s'.headPtr = s.headPtr ∧ s'.tailPtr = s.tailPtr := by
  obtain ⟨a, xs, rfl⟩ := List.exists_cons_of_ne_nil hne
  have hr : s.ready = .task a := h.head_eq
  by_cases ha : s.priority t < s.priority a
  · refine ⟨{ s with
        thread := Function.update s.thread (.task t) s.ready, ready := .task t },
      (Yields.const _).congr fun n ↦ ?_, ?_, ⟨fun q hq ↦ ?_, rfl, rfl⟩, rfl, rfl⟩
    · simp only [Sched.enterReady, hr, priorityAt, Exec.ok_bind, if_pos ha]
    · have hlt : s.key t < s.key a := BitVec.lt_def.mp ha
      rw [enqueue_cons_of_lt hlt]
      exact Headed.cons h (by rwa [mem_ptrs]) (by simp)
    · exact Function.update_of_ne (fun he ↦ hq (by simp [he])) _ _
  · obtain ⟨l, u, r, hx, hp, hy⟩ := h.insertLoop_yields
      (Nat.le_of_not_lt fun hl ↦ ha (BitVec.lt_def.mpr hl))
    have hb : Yields (fun n ↦ s.enterReady n t) { s with
        thread := Function.update (Function.update s.thread (.task t) (s.thread (.task u)))
          (.task u) (.task t) } := by
      obtain ⟨N, hN⟩ := hy
      refine ⟨N, fun n hn ↦ ?_⟩
      simp only [Sched.enterReady, hr, priorityAt, Exec.ok_bind, if_neg ha, hN n hn]
    refine ⟨_, hb, ?_, ⟨fun q hq ↦ ?_, rfl, rfl⟩, rfl, rfl⟩
    · rw [hp]
      rw [hx] at h ht
      rw [Lists, ptrs_append] at h ⊢
      exact Headed.insert h (by rwa [← List.map_cons, ← ptrs_append, mem_ptrs]) (by simp)
    · rw [hx] at hq
      dsimp only
      rw [Function.update_of_ne fun he ↦ hq (by simp [he]),
        Function.update_of_ne fun he ↦ hq (by simp [he])]

/-- A task of the ready list is taken out. -/
theorem Lists.removeReady (h : s.Lists s.ready xs) (ht : t ∈ xs) :
    ∃ s', Yields (fun n ↦ s.removeReady n t) s' ∧ s'.Lists s'.ready (xs.erase t) ∧
      s.Keeps s' (· ∈ ptrs xs) ∧ s'.headPtr = s.headPtr ∧ s'.tailPtr = s.tailPtr := by
  obtain ⟨l, r, rfl⟩ := List.append_of_mem ht
  rw [h.erase_eq]
  rcases List.eq_nil_or_concat' l with rfl | ⟨l, u, rfl⟩
  · have hht : s.ready = .task t := h.head_eq
    refine ⟨{ s with ready := s.thread (.task t) }, (Yields.const _).congr fun n ↦ ?_,
      h.suffix (l := []), ⟨fun _ _ ↦ rfl, rfl, rfl⟩, rfl, rfl⟩
    rw [Sched.removeReady, if_pos hht]
  · rw [List.append_assoc, List.singleton_append] at h ⊢
    have hht : s.ready ≠ .task t := by
      have hd := h.nodup
      rw [h.head_eq]
      cases l <;> simp_all
    have hu : s.thread (.task u) = .task t := h.thread_eq
    have hb : s.unlinkReady t (.task u) = .ok { s with
        thread := Function.update s.thread (.task u) (s.thread (.task t)) } := by
      rw [unlinkReady, if_pos hu]
    refine ⟨_, (h.find_pred.bind ((Yields.const _).congr fun _ ↦ hb)).congr fun n ↦ ?_, ?_,
      ⟨fun q hq ↦ Function.update_of_ne (fun he ↦ hq (by simp [he])) _ _, rfl, rfl⟩, rfl, rfl⟩
    · rw [Sched.removeReady, if_neg hht]
    · rw [Lists, ptrs_append] at h ⊢
      exact h.remove

end Sched

end YRmx
