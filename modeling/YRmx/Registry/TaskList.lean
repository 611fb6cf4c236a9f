import Mathlib.Data.Fintype.Defs
import YRmx.Core.State
import YRmx.Intrusive.Search
import YRmx.Transition.Always
import YRmx.Transition.Fuel

/-!
# The list of all tasks

Library `YRmx`. `reqctsk` appends every task to the list from `rq_task_head` through
`tasklink`, and `active_task` finds the descriptor of the running thread there. Three
versions of the code maintain it: `ycore.c` as it is built, `ycore.c` with `DEL_FROM_LIST`,
and `yalrt.c`. What `reqdtsk` does to the exchange and to the delay list is in `Core.Calls`.
-/

namespace YRmx

open Transition Intrusive

/-- The versions of the code. -/
inductive Build where
  /-- `ycore.c` -/
  | ycore
  /-- `ycore.c` with `DEL_FROM_LIST` -/
  | delFromList
  | yalrt
  deriving DecidableEq, Repr

/-- What a `TASK_LIST_PTR` of the list designates. -/
inductive TaskPtr where
  | null
  /-- `(void *)&rq_task_head`, which is no task descriptor -/
  | rqTaskHead
  | task (t : TaskId)
  deriving DecidableEq, Repr

/-- `IdleTask` of `yalrt.c:220`. -/
def idleTask : TaskId := 0

/-- The list variables and the fields of the descriptors that belong to them. -/
structure Registry where
  rqTaskHead : TaskPtr
  rqTaskTail : TaskPtr
  /-- the word at the offset of `tasklink` from an address -/
  tasklink : TaskPtr → TaskPtr
  /-- `ycore.h`: the thread of the task -/
  thread : TaskId → Nat
  /-- `yalrt.h`: the stack of the task, if it has one -/
  marker : TaskId → Option Nat

namespace Registry

/-- The system calls on the list. For `reqctsk` it is known what `pthread_create` or `kmalloc`
returns: the thread or the stack of the task, or that there is none. -/
inductive Call where
  | reqctsk (td : TaskId) (made : Option Nat)
  | reqdtsk (task : TaskId)
  deriving DecidableEq, Repr

variable {b : Build} {s s' : Registry} {c : Call} {fuel : Nat} {t td : TaskId}

/-- `ycore.c:741–748`, `yalrt.c:528–535`. -/
def append (s : Registry) (td : TaskId) : Exec Registry := do
  let s ←
    if s.rqTaskHead = .null then
      .ok { s with rqTaskHead := .task td, rqTaskTail := .task td }
    else if s.rqTaskTail = .null then
      .error .fault
    else
      .ok { s with
        tasklink := Function.update s.tasklink s.rqTaskTail (.task td), rqTaskTail := .task td }
  .ok { s with tasklink := Function.update s.tasklink (.task td) .null }

/-- `ycore.c:660–752`, `yalrt.c:475–538`: `handle_error` ends the program. -/
def reqctsk (b : Build) (s : Registry) (td : TaskId) : Option Nat → Exec Registry
  | none =>
    if b = .yalrt then .ok { s with marker := Function.update s.marker td none }
    else .error .blocked
  | some made =>
    if b = .yalrt then append { s with marker := Function.update s.marker td (some made) } td
    else append { s with thread := Function.update s.thread td made } td

/-- The loop `ycore.c:829–832`, `yalrt.c:625–628`. -/
def findTask : Nat → Registry → TaskId → TaskPtr → Exec TaskPtr
  | 0, _, _, _ => .error .fuel
  | n + 1, s, task, ctask =>
    if ctask ≠ .null ∧ s.tasklink ctask ≠ .task task then findTask n s task (s.tasklink ctask)
    else .ok ctask

/-- The tail after a task was taken out, `ycore.c:825–827,835–837`. -/
def tailAfter (s : Registry) (task : TaskId) : TaskPtr :=
  if s.tasklink (.task task) = .null then .rqTaskHead else s.rqTaskTail

/-- `ycore.c:833–838`, `yalrt.c:629–634`. -/
def unlinkBehind (s : Registry) (task : TaskId) (ctask : TaskPtr) : Exec Registry :=
  if ctask = .null then
    .error .fault
  else if s.tasklink ctask = .task task then
    .ok { s with
      tasklink := Function.update s.tasklink ctask (s.tasklink (.task task)),
      rqTaskTail := s.tailAfter task }
  else .ok s

/-- `ycore.c:823–839`, `yalrt.c:619–635`. -/
def unlink (fuel : Nat) (s : Registry) (task : TaskId) : Exec Registry :=
  if s.rqTaskHead = .task task then
    .ok { s with rqTaskHead := s.tasklink (.task task), rqTaskTail := s.tailAfter task }
  else do
    let ctask ← findTask fuel s task s.rqTaskHead
    s.unlinkBehind task ctask

/-- `ycore.c:806–847`, `yalrt.c:592–648`. The stack of a task that deletes itself is freed by the
`exit_region` that the call ends with, `yalrt.c:925–928`. -/
def reqdtsk (fuel : Nat) (b : Build) (s : Registry) (task : TaskId) : Exec Registry :=
  match b with
  | .ycore => .ok s
  | .delFromList => unlink fuel s task
  | .yalrt =>
    if s.marker task = none then .ok s
    else if task = idleTask then .ok s
    else do
      let s ← unlink fuel s task
      .ok { s with marker := Function.update s.marker task none }

/-- One system call. -/
def call (fuel : Nat) (b : Build) (s : Registry) : Call → Exec Registry
  | .reqctsk td made => reqctsk b s td made
  | .reqdtsk task => reqdtsk fuel b s task

/-- The loop of `active_task`, `ycore.c:367–375`. -/
def activeTaskLoop : Nat → Registry → Nat → TaskPtr → Exec TaskPtr
  | 0, _, _, _ => .error .fuel
  | n + 1, s, thread, thisTask =>
    match thisTask with
    | .null => .ok .null
    | .rqTaskHead => .error .fault
    | .task t =>
      if s.thread t = thread then .ok (.task t)
      else activeTaskLoop n s thread (s.tasklink (.task t))

/-- `ycore.c:356–377`. -/
def activeTask (fuel : Nat) (s : Registry) (thread : Nat) : Exec TaskPtr :=
  activeTaskLoop fuel s thread s.rqTaskHead

/-! ### The tasks that are there -/

/-- The created and not deleted tasks after one more call, in creation order. -/
def Call.register (b : Build) (xs : List TaskId) : Call → List TaskId
  | .reqctsk td (some _) => xs ++ [td]
  | .reqctsk _ none => xs
  | .reqdtsk task => if b = .yalrt ∧ task = idleTask then xs else xs.erase task

/-- The created and not deleted tasks after some calls. `reqstart` registers the root task,
`ycore.c:1421`, and `yalrt.c:215` starts with no task at all. -/
def registered (b : Build) (cs : List Call) : List TaskId :=
  cs.foldl (Call.register b) (if b = .yalrt then [] else [rootTaskTd])

/-- The calls of a trace. -/
abbrev calls (tr : List (Registry × Call)) : List Call := tr.map Prod.snd

/-- The list variables after `ycore.c:1421–1432` in the thread `root`, or after the module
has been loaded, `yalrt.c:215–216`. -/
def start (b : Build) (root : Nat) : Registry where
  rqTaskHead := if b = .yalrt then .null else .task rootTaskTd
  rqTaskTail := if b = .yalrt then .rqTaskHead else .task rootTaskTd
  tasklink _ := .null
  thread t := if b ≠ .yalrt ∧ t = rootTaskTd then root else 0
  marker _ := none

/-! ### Following the list -/

/-- The tasks as pointers. -/
abbrev ptrs (xs : List TaskId) : List TaskPtr := xs.map .task

/-- The list from `rq_task_head` through `tasklink` up to `NULL`. -/
abbrev Lists (s : Registry) (xs : List TaskId) : Prop :=
  Headed s.tasklink .null s.rqTaskHead (ptrs xs)

/-- `rq_task_tail` designates the last task, if there is one. -/
abbrev Ends (s : Registry) (xs : List TaskId) : Prop := EndsAt s.rqTaskTail (ptrs xs)

/-- A task is listed as a pointer to it. -/
theorem mem_ptrs {xs : List TaskId} : TaskPtr.task t ∈ ptrs xs ↔ t ∈ xs := by
  simp [ptrs]

/-- Different tasks are at different addresses. -/
theorem task_injective : Function.Injective TaskPtr.task := fun _ _ ↦ TaskPtr.task.inj

/-- Pointers to two lists. -/
theorem ptrs_append {xs ys : List TaskId} : ptrs (xs ++ ys) = ptrs xs ++ ptrs ys :=
  List.map_append

/-- A list holds no task twice. -/
theorem Lists.nodup {xs : List TaskId} (h : s.Lists xs) : xs.Nodup :=
  List.Nodup.of_map _ (Headed.nodup h)

/-- There is one list only. -/
theorem Lists.unique {xs ys : List TaskId} (hx : s.Lists xs) (hy : s.Lists ys) : xs = ys :=
  List.map_injective_iff.mpr task_injective (Headed.unique hx hy)

/-- Taking a task out of a list without repetitions. -/
theorem Lists.erase_eq {l r : List TaskId} (h : s.Lists (l ++ t :: r)) :
    (l ++ t :: r).erase t = l ++ r := by
  have hx : t ∉ l := fun hm ↦ (List.nodup_append.mp h.nodup).2.2 t hm t (by simp) rfl
  rw [List.erase_append_right _ hx, List.erase_cons_head]

/-- The list that a registry starts with. -/
theorem start_lists (b : Build) (root : Nat) : (start b root).Lists (registered b []) := by
  unfold start registered
  split
  · exact Headed.nil rfl
  · exact ⟨threads_pair.mpr rfl, rfl, by simp⟩

/-- The tail that a registry starts with. -/
theorem start_ends (b : Build) (root : Nat) : (start b root).Ends (registered b []) := by
  unfold start registered
  split
  · exact endsAt_nil
  · exact fun x hx ↦ by simpa using hx

/-- Appending to a list with a null head. -/
theorem append_of_null (h : s.rqTaskHead = .null) :
    s.append td = .ok { s with
      rqTaskHead := .task td, rqTaskTail := .task td,
      tasklink := Function.update s.tasklink (.task td) .null } := by
  rw [append, if_pos h]
  rfl

/-- Appending through the tail. -/
theorem append_of_tail {p : TaskPtr} (h : s.rqTaskHead ≠ .null) (hp : s.rqTaskTail = p)
    (hn : p ≠ .null) :
    s.append td = .ok { s with
      rqTaskTail := .task td,
      tasklink :=
        Function.update (Function.update s.tasklink p (.task td)) (.task td) .null } := by
  subst hp
  rw [append, if_neg h, if_neg hn]
  rfl

/-- The tail of a list with a last task. -/
theorem ends_concat {l : List TaskId} : s.Ends (l ++ [t]) ↔ s.rqTaskTail = .task t := by
  rw [Ends, ptrs_append]
  exact endsAt_concat

/-- Appending a task that is not in the list, while the tail is right. -/
theorem Lists.append {xs : List TaskId} (h : s.Lists xs) (ht : s.Ends xs) (hn : td ∉ xs)
    (hs : s.append td = .ok s') : s'.Lists (xs ++ [td]) ∧ s'.Ends (xs ++ [td]) := by
  have ha := Headed.append h ht (n := .task td) (fun hm ↦ hn (by simpa [ptrs] using hm)) (by simp)
  rw [Lists, ptrs_append]
  by_cases hh : s.rqTaskHead = .null
  · rw [append_of_null hh] at hs
    cases hs
    rw [if_pos hh, if_pos hh] at ha
    exact ⟨ha, ends_concat.mpr rfl⟩
  · rw [if_neg hh, if_neg hh] at ha
    by_cases hnull : s.rqTaskTail = .null
    · rw [Registry.append, if_neg hh, if_pos hnull] at hs
      cases hs
    · rw [append_of_tail hh rfl hnull] at hs
      cases hs
      exact ⟨ha, ends_concat.mpr rfl⟩

/-- Appending changes the list only. -/
theorem append_fields (hs : s.append td = .ok s') :
    s'.thread = s.thread ∧ s'.marker = s.marker := by
  by_cases hh : s.rqTaskHead = .null
  · rw [append_of_null hh] at hs
    cases hs
    exact ⟨rfl, rfl⟩
  · by_cases ht : s.rqTaskTail = .null
    · rw [Registry.append, if_neg hh, if_pos ht] at hs
      cases hs
    · rw [append_of_tail hh rfl ht] at hs
      cases hs
      exact ⟨rfl, rfl⟩

/-- Appending returns while the tail is right. -/
theorem Lists.append_ok {xs : List TaskId} (h : s.Lists xs) (ht : s.Ends xs) (td : TaskId) :
    ∃ s', s.append td = .ok s' := by
  rcases List.eq_nil_or_concat' xs with rfl | ⟨l, t, rfl⟩
  · exact ⟨_, append_of_null (h.head_null_iff.mpr rfl)⟩
  · have hh : s.rqTaskHead ≠ .null := fun he ↦ by simpa using h.head_null_iff.mp he
    exact ⟨_, append_of_tail hh (ends_concat.mp ht) (by simp)⟩

/-- The loop follows the links to the task in front of the one it looks for. -/
theorem findTask_searches (s : Registry) (t : TaskId) :
    Searches s.tasklink .null (.task t) fun n p ↦ findTask n s t p where
  zero _ _ h := by cases h
  next _ _ hp ht := if_pos ⟨hp, ht⟩
  stop _ _ h := if_neg fun hc ↦ h.elim hc.1 hc.2

/-- More turns of the loop find the same task. -/
theorem findTask_mono (s : Registry) (t : TaskId) (p : TaskPtr) :
    FuelMono fun n ↦ findTask n s t p := (findTask_searches s t).mono p

/-- The loop stops at the task in front of the one it looks for. -/
theorem findTask_pred {l r : List TaskId} {p : TaskId} {h : TaskPtr}
    (hl : Headed s.tasklink .null h (ptrs (l ++ p :: t :: r))) :
    Yields (fun n ↦ findTask n s t h) (.task p) := by
  rw [ptrs_append] at hl
  exact (findTask_searches s t).pred hl

/-- The loop runs off the end of a list without the task. -/
theorem findTask_absent {xs : List TaskId} {h : TaskPtr}
    (hl : Headed s.tasklink .null h (ptrs xs)) (ht : t ∉ xs) :
    Yields (fun n ↦ findTask n s t h) .null := by
  refine (findTask_searches s t).off hl (by simp) fun hm ↦ ht ?_
  simpa [ptrs] using List.mem_of_mem_tail hm

/-- `unlink` reaches a task of the list, takes it out and resets the tail if it was the last. -/
theorem Lists.unlink {l r : List TaskId} (h : s.Lists (l ++ t :: r)) :
    ∃ s', Yields (fun n ↦ s.unlink n t) s' ∧ s'.Lists (l ++ r) ∧
      s'.rqTaskTail = s.tailAfter t ∧ s'.marker = s.marker := by
  rcases List.eq_nil_or_concat' l with rfl | ⟨l, p, rfl⟩
  · have hh : s.rqTaskHead = .task t := h.head_eq
    refine ⟨{ s with rqTaskHead := s.tasklink (.task t), rqTaskTail := s.tailAfter t },
      (Yields.const _).congr fun n ↦ ?_, Headed.suffix (l := []) h, rfl, rfl⟩
    rw [Registry.unlink, if_pos hh]
  · rw [List.append_assoc, List.singleton_append] at h ⊢
    have hp := findTask_pred h
    rw [Lists, ptrs_append] at h
    have hpt : s.tasklink (.task p) = .task t := h.link_eq
    have hh : s.rqTaskHead ≠ .task t := by
      have hd := h.nodup
      rw [h.head_eq]
      cases l <;> simp_all [ptrs]
    refine ⟨{ s with
        tasklink := Function.update s.tasklink (.task p) (s.tasklink (.task t)),
        rqTaskTail := s.tailAfter t }, ?_, ?_, rfl, rfl⟩
    · have hb : s.unlinkBehind t (.task p) = .ok { s with
          tasklink := Function.update s.tasklink (.task p) (s.tasklink (.task t)),
          rqTaskTail := s.tailAfter t } := by
        rw [unlinkBehind, if_neg (by simp), if_pos hpt]
      apply (hp.bind ((Yields.const _).congr fun n ↦ hb)).congr
      intro n
      rw [Registry.unlink, if_neg hh]
    · rw [Lists, ptrs_append]
      exact h.remove

end Registry

end YRmx
