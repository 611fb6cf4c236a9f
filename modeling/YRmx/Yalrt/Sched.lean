import YRmx.Core.State
import YRmx.Intrusive.Headed
import YRmx.Transition.Fuel

/-!
# The ready list and the suspend list

Library `YRmx`. In `yalrt.c` a runnable task stands in the ready list, or in the suspend list
while its suspended bit is set. Both go through the `thread` field, which also links the tasks
that wait at an exchange; `task_head` of an exchange stands at the same offset.
-/

namespace YRmx

open Transition Intrusive

/-- What a `thread` field designates, `yalrt.h`. -/
inductive ThreadPtr where
  | null
  | task (t : TaskId)
  | exch (e : ExchId)
  /-- `(void *)&suspend_list_root`, which is no task descriptor -/
  | suspendListRoot
  deriving DecidableEq, Repr

/-- `yalrt.h`: the task was interrupted. -/
def maskint : BitVec 8 := 0x04

/-- `ready`, `suspend_list_root` and the fields that the lists depend on. -/
structure Sched where
  ready : ThreadPtr
  headPtr : ThreadPtr
  tailPtr : ThreadPtr
  /-- the word at the offset of `thread` from an address; `task_head` of an exchange -/
  thread : ThreadPtr → ThreadPtr
  status : TaskId → BitVec 8
  priority : TaskId → BitVec 8

namespace Sched

variable {s s' : Sched} {fuel : Nat} {t task : TaskId} {p : ThreadPtr}

/-- The suspended bit of a task. -/
def isSuspended (s : Sched) (t : TaskId) : Bool := s.status t &&& suspended != 0

/-- `task->priority` through a pointer. -/
def priorityAt (s : Sched) : ThreadPtr → Exec (BitVec 8)
  | .task t => .ok (s.priority t)
  | _ => .error .fault

/-- The loop `yalrt.c:399–403`; it ends with `prtask`. -/
def insertLoop : Nat → Sched → TaskId → ThreadPtr → Exec ThreadPtr
  | 0, _, _, _ => .error .fuel
  | n + 1, s, task, prtask =>
    if s.thread prtask = .null then .ok prtask
    else do
      let p ← s.priorityAt (s.thread prtask)
      if p ≤ s.priority task then insertLoop n s task (s.thread prtask) else .ok prtask

/-- `yalrt.c:394–407`. -/
def enterReady (fuel : Nat) (s : Sched) (task : TaskId) : Exec Sched := do
  let p ← s.priorityAt s.ready
  if s.priority task < p then
    .ok { s with thread := Function.update s.thread (.task task) s.ready, ready := .task task }
  else do
    let prtask ← insertLoop fuel s task s.ready
    .ok { s with
      thread := Function.update (Function.update s.thread (.task task) (s.thread prtask))
        prtask (.task task) }

/-- `yalrt.c:410–418`, `ycore.c:562–570` with `WITH_READY_LIST`. -/
def enterSuspended (s : Sched) (task : TaskId) : Exec Sched := do
  let s ←
    if s.headPtr = .null then .ok { s with headPtr := .task task }
    else if s.tailPtr = .null then .error .fault
    else .ok { s with thread := Function.update s.thread s.tailPtr (.task task) }
  .ok { s with
    thread := Function.update s.thread (.task task) .null, tailPtr := .task task }

/-- `yalrt.c:389–420`, with the test `task->status && suspended`. -/
def enterlist (fuel : Nat) (s : Sched) (task : TaskId) : Exec Sched :=
  if !logicalAnd (s.status task) suspended then enterReady fuel s task
  else enterSuspended s task

/-- The loops `yalrt.c:435–438,452–455`. -/
def findThread : Nat → Sched → TaskId → ThreadPtr → Exec ThreadPtr
  | 0, _, _, _ => .error .fuel
  | n + 1, s, task, currTask =>
    if currTask = .null then .error .fault
    else if s.thread currTask ≠ .task task ∧ s.thread currTask ≠ .null then
      findThread n s task (s.thread currTask)
    else .ok currTask

/-- `yalrt.c:439–441`. -/
def unlinkReady (s : Sched) (task : TaskId) (currTask : ThreadPtr) : Exec Sched :=
  if s.thread currTask = .task task then
    .ok { s with thread := Function.update s.thread currTask (s.thread (.task task)) }
  else .ok s

/-- `yalrt.c:431–442`. -/
def removeReady (fuel : Nat) (s : Sched) (task : TaskId) : Exec Sched :=
  if s.ready = .task task then .ok { s with ready := s.thread (.task task) }
  else do
    let currTask ← findThread fuel s task s.ready
    s.unlinkReady task currTask

/-- `tailPtr` after a task was taken out of the suspend list, `yalrt.c:447–449,458–460`. -/
def tailAfter (s : Sched) (task : TaskId) : ThreadPtr :=
  if s.thread (.task task) = .null then .suspendListRoot else s.tailPtr

/-- `yalrt.c:456–461`. -/
def unlinkSuspended (s : Sched) (task : TaskId) (currTask : ThreadPtr) : Exec Sched :=
  if s.thread currTask = .task task then
    .ok { s with
      thread := Function.update s.thread currTask (s.thread (.task task)),
      tailPtr := s.tailAfter task }
  else .ok s

/-- `yalrt.c:444–463`, `ycore.c:596–615` with `WITH_READY_LIST`. -/
def removeSuspended (fuel : Nat) (s : Sched) (task : TaskId) : Exec Sched :=
  if s.headPtr = .null then .ok s
  else if s.headPtr = .task task then
    .ok { s with headPtr := s.thread (.task task), tailPtr := s.tailAfter task }
  else do
    let currTask ← findThread fuel s task s.headPtr
    s.unlinkSuspended task currTask

/-- `yalrt.c:428–464`. -/
def removelist (fuel : Nat) (s : Sched) (task : TaskId) : Exec Sched :=
  if !s.isSuspended task then removeReady fuel s task else removeSuspended fuel s task

/-- The scans of a list for a task, `yalrt.c:708–711,734–737`. -/
def scanList : Nat → Sched → TaskId → ThreadPtr → Exec ThreadPtr
  | 0, _, _, _ => .error .fuel
  | n + 1, s, task, ctask =>
    if ctask ≠ .task task ∧ ctask ≠ .null then scanList n s task (s.thread ctask)
    else .ok ctask

/-! ### The lists -/

/-- The tasks as pointers. -/
abbrev ptrs (xs : List TaskId) : List ThreadPtr := xs.map .task

/-- From a head, the `thread` fields go through these tasks up to `NULL`. -/
abbrev Lists (s : Sched) (head : ThreadPtr) (xs : List TaskId) : Prop :=
  Headed s.thread .null head (ptrs xs)

/-- Different tasks are at different addresses. -/
theorem task_injective : Function.Injective ThreadPtr.task := fun _ _ ↦ ThreadPtr.task.inj

/-- A task is listed as a pointer to it. -/
theorem mem_ptrs {xs : List TaskId} : ThreadPtr.task t ∈ ptrs xs ↔ t ∈ xs := by
  simp [ptrs]

/-- Pointers to two lists. -/
theorem ptrs_append {xs ys : List TaskId} : ptrs (xs ++ ys) = ptrs xs ++ ptrs ys :=
  List.map_append

/-- Only tasks are listed. -/
theorem not_mem_ptrs {xs : List TaskId} (hp : ∀ t, p ≠ .task t) : p ∉ ptrs xs := by
  simpa [ptrs] using fun t _ ↦ (hp t).symm

namespace Lists

variable {xs l r : List TaskId} {head : ThreadPtr} {u : TaskId}

/-- A list holds no task twice. -/
theorem nodup (h : s.Lists head xs) : xs.Nodup := List.Nodup.of_map _ (Headed.nodup h)

/-- Two lists from one head are the same. -/
theorem unique {ys : List TaskId} (hx : s.Lists head xs) (hy : s.Lists head ys) : xs = ys :=
  List.map_injective_iff.mpr task_injective (Headed.unique hx hy)

/-- Taking a task out of a list without repetitions. -/
theorem erase_eq (h : s.Lists head (l ++ t :: r)) : (l ++ t :: r).erase t = l ++ r := by
  have hx : t ∉ l := fun hm ↦ (List.nodup_append.mp h.nodup).2.2 t hm t (by simp) rfl
  rw [List.erase_append_right _ hx, List.erase_cons_head]

/-- The `thread` field of a task is the task after it. -/
theorem thread_eq (h : s.Lists head (l ++ t :: r)) :
    s.thread (.task t) = (ptrs r).headD .null := by
  rw [Lists, ptrs_append] at h
  exact h.link_eq

/-- The rest of a list. -/
theorem suffix (h : s.Lists head (l ++ t :: r)) : s.Lists (s.thread (.task t)) r := by
  rw [Lists, ptrs_append] at h
  exact Headed.suffix h

/-- A list only depends on the fields of its tasks. -/
theorem congr (h : s.Lists head xs) (hx : ∀ t ∈ xs, s'.thread (.task t) = s.thread (.task t)) :
    s'.Lists head xs := by
  apply Headed.congr h
  intro p hp
  obtain ⟨t, ht, rfl⟩ := List.mem_map.mp hp
  exact hx t ht

/-- A scan finds a task of the list. -/
theorem scan_mem (h : s.Lists head xs) (ht : t ∈ xs) :
    Yields (fun n ↦ scanList n s t head) (.task t) := by
  induction xs generalizing head with
  | nil => cases ht
  | cons a xs ih =>
    have hh : head = .task a := h.head_eq
    by_cases ha : a = t
    · subst ha
      refine Yields.succ ((Yields.const (ThreadPtr.task a)).congr fun n ↦ ?_)
      simp only [scanList, hh, ne_eq, not_true_eq_false, false_and, if_false]
    · have hat := (List.mem_cons.mp ht).resolve_left (Ne.symm ha)
      have hs : s.Lists (s.thread (.task a)) xs := suffix (l := []) h
      refine Yields.succ ((ih hs hat).congr fun n ↦ ?_)
      simp only [scanList, hh, ne_eq, ThreadPtr.task.injEq, ha, not_false_eq_true, reduceCtorEq,
        and_self, if_true]

/-- A scan for a task that is not in the list runs to its end. -/
theorem scan_absent (h : s.Lists head xs) (ht : t ∉ xs) :
    Yields (fun n ↦ scanList n s t head) .null := by
  induction xs generalizing head with
  | nil =>
    have hh : head = .null := h.head_eq
    refine Yields.succ ((Yields.const ThreadPtr.null).congr fun n ↦ ?_)
    simp only [scanList, hh, ne_eq, not_true_eq_false, and_false, if_false]
  | cons a xs ih =>
    have hh : head = .task a := h.head_eq
    rw [List.mem_cons, not_or] at ht
    have hs : s.Lists (s.thread (.task a)) xs := suffix (l := []) h
    refine Yields.succ ((ih hs ht.2).congr fun n ↦ ?_)
    simp only [scanList, hh, ne_eq, ThreadPtr.task.injEq, Ne.symm ht.1, not_false_eq_true,
      reduceCtorEq, and_self, if_true]

/-- The search for a task ends at the one in front of it. -/
theorem find_pred (h : s.Lists head (l ++ u :: t :: r)) :
    Yields (fun n ↦ findThread n s t head) (.task u) := by
  induction l generalizing head with
  | nil =>
    have hh : head = .task u := h.head_eq
    have hu : s.thread (.task u) = .task t := thread_eq (l := []) h
    refine Yields.succ ((Yields.const (ThreadPtr.task u)).congr fun n ↦ ?_)
    simp only [findThread, hh, hu, ne_eq, not_true_eq_false, false_and, if_false, reduceCtorEq]
  | cons a l ih =>
    have hh : head = .task a := h.head_eq
    have hs : s.Lists (s.thread (.task a)) (l ++ u :: t :: r) := suffix (l := []) h
    have hd := h.nodup
    have ha : s.thread (.task a) ≠ .task t ∧ s.thread (.task a) ≠ .null := by
      rw [hs.head_eq]
      cases l <;> simp_all
    refine Yields.succ ((ih hs).congr fun n ↦ ?_)
    simp only [findThread, hh, reduceCtorEq, if_false]
    rw [if_pos ha]

/-- The search for a task that is not in the list ends at the last one. -/
theorem find_absent (h : s.Lists head (l ++ [u])) (ht : t ∉ l ++ [u]) :
    Yields (fun n ↦ findThread n s t head) (.task u) := by
  induction l generalizing head with
  | nil =>
    have hh : head = .task u := h.head_eq
    have hu : s.thread (.task u) = .null := thread_eq (l := []) (r := []) h
    refine Yields.succ ((Yields.const (ThreadPtr.task u)).congr fun n ↦ ?_)
    simp only [findThread, hh, hu, ne_eq, not_true_eq_false, and_false, if_false, reduceCtorEq]
  | cons a l ih =>
    have hh : head = .task a := h.head_eq
    have hs : s.Lists (s.thread (.task a)) (l ++ [u]) := suffix (l := []) h
    rw [List.cons_append, List.mem_cons, not_or] at ht
    have ha : s.thread (.task a) ≠ .task t ∧ s.thread (.task a) ≠ .null := by
      rw [hs.head_eq]
      cases l <;> simp_all [eq_comm]
    refine Yields.succ ((ih hs ht.2).congr fun n ↦ ?_)
    simp only [findThread, hh, reduceCtorEq, if_false]
    rw [if_pos ha]

end Lists

/-! ### More fuel -/

/-- More turns of the scan find the same. -/
theorem scanList_mono (s : Sched) (t : TaskId) (p : ThreadPtr) :
    FuelMono fun n ↦ scanList n s t p := by
  intro n m q hnm h
  induction n generalizing p m with
  | zero => cases h
  | succ n ih =>
    obtain ⟨m, rfl⟩ : ∃ k, m = k + 1 := ⟨m - 1, by omega⟩
    simp only [scanList] at h ⊢
    split at h
    · rename_i hp
      rw [if_pos hp]
      exact ih _ _ (by omega) h
    · rename_i hp
      rwa [if_neg hp]

/-- More turns of the search find the same. -/
theorem findThread_mono (s : Sched) (t : TaskId) (p : ThreadPtr) :
    FuelMono fun n ↦ findThread n s t p := by
  intro n m q hnm h
  induction n generalizing p m with
  | zero => cases h
  | succ n ih =>
    obtain ⟨m, rfl⟩ : ∃ k, m = k + 1 := ⟨m - 1, by omega⟩
    simp only [findThread] at h ⊢
    by_cases hp : p = .null
    · rw [if_pos hp] at h
      cases h
    · rw [if_neg hp] at h ⊢
      split at h
      · rename_i hq
        rw [if_pos hq]
        exact ih _ _ (by omega) h
      · rename_i hq
        rwa [if_neg hq]

/-- More turns of the loop find the same place. -/
theorem insertLoop_mono (s : Sched) (t : TaskId) (p : ThreadPtr) :
    FuelMono fun n ↦ insertLoop n s t p := by
  intro n m q hnm h
  induction n generalizing p m with
  | zero => cases h
  | succ n ih =>
    obtain ⟨m, rfl⟩ : ∃ k, m = k + 1 := ⟨m - 1, by omega⟩
    simp only [insertLoop] at h ⊢
    by_cases hp : s.thread p = .null
    · rwa [if_pos hp] at h ⊢
    · rw [if_neg hp] at h ⊢
      obtain ⟨v, hv, h⟩ := Exec.bind_eq_ok.mp h
      refine Exec.bind_eq_ok.mpr ⟨v, hv, ?_⟩
      split at h
      · rename_i hle
        rw [if_pos hle]
        exact ih _ _ (by omega) h
      · rename_i hle
        rwa [if_neg hle]

/-- More turns enter the task at the same place. -/
theorem enterlist_mono (s : Sched) (t : TaskId) : FuelMono fun n ↦ enterlist n s t :=
  FuelMono.ite _
    (FuelMono.bind (FuelMono.const _) fun _ ↦ FuelMono.ite _ (FuelMono.const _)
      (FuelMono.bind (insertLoop_mono s t _) fun _ ↦ FuelMono.const _))
    (FuelMono.const _)

/-- More turns take the task out of the same place. -/
theorem removeReady_mono (s : Sched) (t : TaskId) : FuelMono fun n ↦ removeReady n s t :=
  FuelMono.ite _ (FuelMono.const _)
    (FuelMono.bind (findThread_mono s t _) fun _ ↦ FuelMono.const _)

/-- More turns take the task out of the same place. -/
theorem removeSuspended_mono (s : Sched) (t : TaskId) : FuelMono fun n ↦ removeSuspended n s t :=
  FuelMono.ite _ (FuelMono.const _) (FuelMono.ite _ (FuelMono.const _)
    (FuelMono.bind (findThread_mono s t _) fun _ ↦ FuelMono.const _))

/-- More turns take the task out of the same place. -/
theorem removelist_mono (s : Sched) (t : TaskId) : FuelMono fun n ↦ removelist n s t :=
  FuelMono.ite _ (removeReady_mono s t) (removeSuspended_mono s t)

/-! ### The suspended bit -/

/-- A task with the suspended bit goes to the suspend list. -/
theorem enterlist_suspended (h : s.isSuspended t = true) :
    enterlist fuel s t = enterSuspended s t := by
  have hb : s.status t &&& suspended ≠ 0 := by simpa [isSuspended] using h
  have hn : s.status t ≠ 0 := fun he ↦ hb (by simp [he])
  have hs : logicalAnd (s.status t) suspended = true := by
    simp only [logicalAnd, bne_iff_ne, ne_eq, Bool.and_eq_true]
    exact ⟨hn, by decide⟩
  simp only [enterlist, hs, Bool.not_true, Bool.false_eq_true, if_false]

/-- A task with the suspended bit is looked for in the suspend list. -/
theorem removelist_suspended (h : s.isSuspended t = true) :
    removelist fuel s t = removeSuspended fuel s t := by
  simp only [removelist, h, Bool.not_true, Bool.false_eq_true, if_false]

/-- A task without the suspended bit is looked for in the ready list. -/
theorem removelist_ready (h : s.isSuspended t = false) :
    removelist fuel s t = removeReady fuel s t := by
  simp only [removelist, h, Bool.not_false, if_true]

end Sched

end YRmx
