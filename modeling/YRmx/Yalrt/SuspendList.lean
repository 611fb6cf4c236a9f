import YRmx.Transition.Always
import YRmx.Yalrt.Lists

/-!
# The suspend list over whole runs

Library `YRmx`. `removelist` resets `tailPtr` to the root whenever the removed task was the
last one, which is right only if it was the only one. The next `enterlist` then writes its task
beyond the root instead of behind the last task of the list.
-/

namespace YRmx

open Transition Intrusive

namespace Sched

variable {s s' : Sched} {t : TaskId} {xs : List TaskId}

/-- The two operations on the lists. -/
inductive ListOp where
  | enterlist (task : TaskId)
  | removelist (task : TaskId)
  deriving DecidableEq, Repr

variable {o : ListOp} {tr : List (Sched × ListOp)}

/-- The task of an operation. -/
def ListOp.task : ListOp → TaskId
  | .enterlist task => task
  | .removelist task => task

/-- One operation. -/
def listOp (fuel : Nat) (s : Sched) : ListOp → Exec Sched
  | .enterlist task => enterlist fuel s task
  | .removelist task => removelist fuel s task

/-- One operation that returns. -/
def ListStep (s : Sched) (o : ListOp) (s' : Sched) : Prop := ∃ fuel, listOp fuel s o = .ok s'

/-- The tasks that were entered and not removed yet, in order of entry. -/
def ListOp.entered (xs : List TaskId) : ListOp → List TaskId
  | .enterlist task => xs ++ [task]
  | .removelist task => xs.erase task

/-- The tasks that were entered and not removed yet after some operations. -/
def entered (os : List ListOp) : List TaskId := os.foldl ListOp.entered []

/-- The operations of a trace. -/
abbrev listOps (tr : List (Sched × ListOp)) : List ListOp := tr.map Prod.snd

/-- The operation is on a task with the suspended bit, and enters no task a second time. -/
def ListOp.OnSuspended (s : Sched) (xs : List TaskId) (o : ListOp) : Prop :=
  s.isSuspended o.task ∧ ∀ t, o = .enterlist t → t ∉ xs

/-- The operation removes the last one of several tasks. -/
def ListOp.RemovesLast (xs : List TaskId) (o : ListOp) : Prop :=
  ∃ t l, o = .removelist t ∧ l ≠ [] ∧ xs = l ++ [t]

/-- The suspend list holds these tasks, `tailPtr` designates the last of them and is written
through only at a task, and `reqresm` finds exactly these tasks. Each operation returns. -/
structure SuspendsExactly (xs : List TaskId) (s : Sched) : Prop where
  lists : s.Lists s.headPtr xs
  ends : EndsAt s.tailPtr (ptrs xs)
  writes : s.headPtr ≠ .null → ∃ t ∈ xs, s.tailPtr = .task t
  found : ∀ t, Yields (fun n ↦ scanList n s t s.headPtr) (if t ∈ xs then .task t else .null)
  returns : ∀ o, s.isSuspended o.task → ∃ s', ListStep s o s'

/-- The suspend list at the start, `yalrt.c:173,1769–1770`. -/
structure Unused (s : Sched) : Prop where
  headPtr : s.headPtr = .null
  tailPtr : s.tailPtr = .suspendListRoot

/-- An operation that does not remove the last one of several tasks. -/
theorem Suspends.listOp (h : s.Suspends xs) (ho : o.OnSuspended s xs) (hc : ¬ o.RemovesLast xs)
    (hs : ListStep s o s') : s'.Suspends (o.entered xs) := by
  obtain ⟨fuel, hs⟩ := hs
  cases o with
  | enterlist t =>
    obtain ⟨s'', he, hx, -⟩ := h.enter (ho.2 t rfl)
    have hb : s.isSuspended t = true := ho.1
    rw [Sched.listOp, enterlist_suspended hb] at hs
    obtain rfl := Except.ok.inj (he.symm.trans hs)
    exact hx
  | removelist t =>
    have hb : s.isSuspended t = true := ho.1
    rw [Sched.listOp, removelist_suspended hb] at hs
    have hy' := (removeSuspended_mono s t).yields hs
    by_cases ht : t ∈ xs
    · obtain ⟨s'', hy, hl, htail, -⟩ := h.remove_mem ht
      obtain rfl := hy.unique hy'
      refine ⟨hl, ?_⟩
      rw [htail]
      exact (h.ends_erase ht).mpr fun l hx ↦ by_contra fun hne ↦ hc ⟨t, l, rfl, hne, hx⟩
    · obtain rfl := (h.remove_absent ht).unique hy'
      rw [ListOp.entered, List.erase_of_not_mem ht]
      exact h

/-- Removing the last one of several tasks loses the tail. -/
theorem Suspends.removesLast (h : s.Suspends xs) (ho : o.OnSuspended s xs)
    (hc : o.RemovesLast xs) (hs : ListStep s o s') :
    ¬ EndsAt s'.tailPtr (ptrs (o.entered xs)) := by
  obtain ⟨t, l, rfl, hne, rfl⟩ := hc
  obtain ⟨fuel, hs⟩ := hs
  have hb : s.isSuspended t = true := ho.1
  rw [Sched.listOp, removelist_suspended hb] at hs
  obtain ⟨s'', hy, -, htail, -⟩ := h.remove_mem (t := t) (by simp)
  obtain rfl := hy.unique ((removeSuspended_mono s t).yields hs)
  rw [htail]
  exact fun he ↦ hne ((h.ends_erase (by simp)).mp he l rfl)

/-- What follows for `reqresm`, and for the next operation. -/
theorem Suspends.exactly (h : s.Suspends xs) : s.SuspendsExactly xs where
  lists := h.lists
  ends := h.ends
  writes hh := by
    rcases List.eq_nil_or_concat' xs with rfl | ⟨l, t, rfl⟩
    · exact absurd (h.lists.head_null_iff.mpr rfl) hh
    · exact ⟨t, by simp, ends_concat.mp h.ends⟩
  found t := by
    by_cases ht : t ∈ xs
    · rw [if_pos ht]
      exact h.lists.scan_mem ht
    · rw [if_neg ht]
      exact h.lists.scan_absent ht
  returns o ho := by
    cases o with
    | enterlist t =>
      have hb : s.isSuspended t = true := ho
      have he : ∃ s', s.enterSuspended t = .ok s' := by
        rcases List.eq_nil_or_concat' xs with rfl | ⟨l, u, rfl⟩
        · exact ⟨_, enterSuspended_of_null (h.lists.head_null_iff.mpr rfl)⟩
        · have hh : s.headPtr ≠ .null := fun he ↦ by simpa using h.lists.head_null_iff.mp he
          exact ⟨_, enterSuspended_of_tail hh (ends_concat.mp h.ends) (by simp)⟩
      obtain ⟨s', he⟩ := he
      exact ⟨s', 0, by rw [Sched.listOp, enterlist_suspended hb, he]⟩
    | removelist t =>
      have hb : s.isSuspended t = true := ho
      have hy : ∃ s', Yields (fun n ↦ s.removeSuspended n t) s' := by
        by_cases ht : t ∈ xs
        · obtain ⟨s', hy, -⟩ := h.remove_mem ht
          exact ⟨s', hy⟩
        · exact ⟨s, h.remove_absent ht⟩
      obtain ⟨s', n, hn⟩ := hy
      exact ⟨s', n, by rw [Sched.listOp, removelist_suspended hb]; exact hn n le_rfl⟩

/-- The suspend list holds exactly the tasks that were entered and not removed in exactly those
runs in which no `removelist` is applied to the last one of several tasks. -/
theorem suspendList_of_run {s₀ : Sched} (h0 : s₀.Unused) (hr : Trace ListStep s₀ tr s)
    (ho : Throughout (fun tr s o ↦ o.OnSuspended s (entered (listOps tr))) tr) :
    Always (fun tr s ↦ SuspendsExactly (entered (listOps tr)) s) tr s ↔
      Throughout (fun tr _ o ↦ ¬ o.RemovesLast (entered (listOps tr))) tr := by
  refine hr.always_iff (J := fun tr s ↦ s.Suspends (entered (listOps tr)))
    ⟨Headed.nil h0.headPtr, endsAt_nil⟩ ho ?_ (fun h ↦ h.exactly) ?_
  · intro tr m o n h ho hc hs
    rw [listOps, List.map_append, entered, List.foldl_append]
    exact h.listOp ho hc hs
  · intro tr m o n h ho hc hs hP
    rw [listOps, List.map_append, entered, List.foldl_append] at hP
    exact h.removesLast ho (not_not.mp hc) hs hP.ends

/-- No operation changes a status. -/
theorem ListStep.status (h : ListStep s o s') : s'.status = s.status := by
  obtain ⟨fuel, h⟩ := h
  cases o <;> simp only [Sched.listOp, enterlist, enterReady, enterSuspended, removelist,
    removeReady, unlinkReady, removeSuspended, unlinkSuspended] at h
  all_goals grind [Exec.bind_eq_ok]

/-- An empty suspend list, and tasks that are all to be suspended. -/
def unusedSched : Sched where
  ready := .null
  headPtr := .null
  tailPtr := .suspendListRoot
  thread _ := .null
  status _ := suspended
  priority _ := 0

/-- With all tasks to be suspended, it only matters which tasks are entered. -/
theorem onSuspended_of_each (hr : Trace ListStep unusedSched tr s)
    (h : Each (fun os o ↦ ∀ t, o = .enterlist t → t ∉ entered os) [] (listOps tr)) :
    Throughout (fun tr s o ↦ o.OnSuspended s (entered (listOps tr))) tr := by
  have hb : ∀ x ∈ tr, x.1.status = unusedSched.status :=
    hr.invariant_mem (P := fun s ↦ s.status = unusedSched.status) rfl (fun _ _ ↦ by trivial)
      fun _ _ _ hp (_ : True) hs ↦ hs.status.trans hp
  intro a x b hx
  refine ⟨?_, throughout_of_each h a x b hx⟩
  simp [isSuspended, hb x (by simp [hx]), unusedSched, suspended]

/-- Two suspended tasks are entered, and the first one is removed and entered again. -/
theorem suspendList_of_run_first : ∃ tr s, Trace ListStep unusedSched tr s ∧
    listOps tr = [.enterlist 5, .enterlist 6, .removelist 5, .enterlist 5] ∧
    Always (fun tr s ↦ SuspendsExactly (entered (listOps tr)) s) tr s := by
  obtain ⟨tr, s, hr, hos, -⟩ := Trace.exists_of_foldlM (f := listOp 9) (s := unusedSched)
    (l := [.enterlist 5, .enterlist 6, .removelist 5, .enterlist 5]) (p := fun _ ↦ true)
    (fun s o s' h ↦ (⟨9, h⟩ : ListStep s o s')) (by decide)
  refine ⟨tr, s, hr, hos, (suspendList_of_run ⟨rfl, rfl⟩ hr (onSuspended_of_each hr ?_)).mpr
    (throughout_of_each (D := fun os (o : ListOp) ↦ ¬ o.RemovesLast (entered os)) ?_)⟩
  · rw [listOps, hos]
    simp [Each, entered, ListOp.entered]
  · rw [hos]
    simp only [Each, ListOp.RemovesLast, reduceCtorEq, false_and, exists_false, not_false_eq_true,
      and_true, true_and]
    rintro ⟨t, l, ho, -, hl⟩
    cases ho
    simpa [entered, ListOp.entered] using congrArg List.getLast? hl

/-- Two suspended tasks are entered, the second one is removed, and a third one is entered: it
is not found in the list. -/
theorem suspendList_loses_task : ∃ tr s, Trace ListStep unusedSched tr s ∧
    listOps tr = [.enterlist 5, .enterlist 6, .removelist 6, .enterlist 7] ∧
    (Throughout (fun tr s o ↦ o.OnSuspended s (entered (listOps tr))) tr) ∧
    entered (listOps tr) = [5, 7] ∧ Yields (fun n ↦ scanList n s 7 s.headPtr) .null := by
  obtain ⟨tr, s, hr, hos, hp⟩ := Trace.exists_of_foldlM (f := listOp 9) (s := unusedSched)
    (l := [.enterlist 5, .enterlist 6, .removelist 6, .enterlist 7])
    (p := fun s ↦ s.headPtr = .task 5 ∧ s.thread (.task 5) = .null)
    (fun s o s' h ↦ (⟨9, h⟩ : ListStep s o s')) (by decide)
  obtain ⟨hh, h5⟩ := of_decide_eq_true hp
  refine ⟨tr, s, hr, hos, onSuspended_of_each hr ?_, by rw [listOps, hos]; rfl, 2, fun n hn ↦ ?_⟩
  · rw [listOps, hos]
    simp [Each, entered, ListOp.entered]
  · obtain ⟨m, rfl⟩ := Nat.exists_eq_add_of_le' hn
    simp [scanList, hh, h5]

end Sched

end YRmx
