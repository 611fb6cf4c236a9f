import YRmx.Registry.TaskList

/-!
# Deletion that unlinks

Library `YRmx`. With `DEL_FROM_LIST` and in `yalrt.c`, `reqdtsk` takes the task out of the
list. The tail is reset to `&rq_task_head` whenever the task was the last one, which is right
only if it was the only one: `rq_task_tail->tasklink = td` of the next `reqctsk` then writes
beyond `rq_task_head`.
-/

namespace YRmx

open Transition Intrusive

namespace Registry

variable {b : Build} {s s' : Registry} {c : Call} {fuel root : Nat} {t td : TaskId}
  {xs : List TaskId} {tr : List (Registry × Call)}

/-- A system call. -/
def Step (b : Build) (s : Registry) (c : Call) (s' : Registry) : Prop :=
  ∃ fuel, call fuel b s c = .ok s'

/-- `reqctsk` is applied to no descriptor that is registered already. -/
def Call.Fresh (xs : List TaskId) (c : Call) : Prop := ∀ td made, c = .reqctsk td made → td ∉ xs

/-- The call takes the last one of several tasks out of the list. -/
def Call.TakesLast (b : Build) (xs : List TaskId) (c : Call) : Prop :=
  ∃ t l, c = .reqdtsk t ∧ c.register b xs = l ∧ l ≠ [] ∧ xs = l ++ [t]

/-- The list from `rq_task_head` holds these tasks in this order, each of them is reached, and
`rq_task_tail` designates the last one. The next system call returns. -/
structure Intact (b : Build) (xs : List TaskId) (s : Registry) : Prop where
  lists : s.Lists xs
  ends : s.Ends xs
  reachable : ∀ t ∈ xs, Relation.ReflTransGen (Leads s.tasklink .null) s.rqTaskHead (.task t)
  creates : ∀ td made, td ∉ xs → ∃ s', Step b s (.reqctsk td (some made)) s'
  deletes : ∀ t ∈ xs, ∃ s', Step b s (.reqdtsk t) s'

/-- What the system calls keep: in `yalrt.c`, the registered tasks are those with a stack. -/
structure Kept (b : Build) (xs : List TaskId) (s : Registry) : Prop where
  lists : s.Lists xs
  ends : s.Ends xs
  marked : b = .yalrt → ∀ t, s.marker t ≠ none ↔ t ∈ xs

/-- A registry starts so. -/
theorem start_kept (b : Build) (root : Nat) : Kept b (registered b []) (start b root) where
  lists := start_lists b root
  ends := start_ends b root
  marked h t := by simp [start, registered, h]

/-- More turns of the loop take the same task out. -/
theorem unlink_mono (s : Registry) (t : TaskId) : FuelMono fun n ↦ s.unlink n t := by
  refine FuelMono.ite _ (FuelMono.const _) (FuelMono.bind (findTask_mono s t _) fun _ ↦ ?_)
  exact FuelMono.const _

/-- A task that is not in the list is not taken out of it. -/
theorem Lists.unlink_absent (h : s.Lists xs) (ht : t ∉ xs) : s.unlink fuel t ≠ .ok s' := by
  intro hs
  have hh : s.rqTaskHead ≠ .task t := by
    intro he
    have hr := h.head_eq
    rw [he] at hr
    cases xs with
    | nil => cases hr
    | cons x xs => exact ht (by simp [TaskPtr.task.inj hr])
  rw [Registry.unlink, if_neg hh] at hs
  obtain ⟨p, hp, hu⟩ := Exec.bind_eq_ok.mp hs
  obtain rfl := ((findTask_mono s t _).yields hp).unique (findTask_absent h ht)
  cases hu

/-- What taking a task out does. -/
theorem Lists.unlink_spec (h : s.Lists xs) (hs : s.unlink fuel t = .ok s') :
    t ∈ xs ∧ s'.Lists (xs.erase t) ∧ s'.rqTaskTail = s.tailAfter t ∧ s'.marker = s.marker := by
  have ht : t ∈ xs := by
    by_contra ht
    exact h.unlink_absent ht hs
  obtain ⟨l, r, rfl⟩ := List.append_of_mem ht
  obtain ⟨s'', hy, hl, htail, hm⟩ := h.unlink
  obtain rfl := hy.unique ((unlink_mono s t).yields hs)
  rw [h.erase_eq]
  exact ⟨ht, hl, htail, hm⟩

/-- The tail is right after a task was taken out, unless it was the last one of several. -/
theorem Lists.ends_erase (h : s.Lists xs) (he : s.Ends xs) (ht : t ∈ xs)
    (htail : s'.rqTaskTail = s.tailAfter t) :
    s'.Ends (xs.erase t) ↔ ∀ l, xs = l ++ [t] → l = [] := by
  rw [Ends, ptrs, List.map_erase task_injective, htail, tailAfter,
    Headed.endsAt_erase h he (mem_ptrs.mpr ht) (by simp)]
  constructor
  · intro hl l hx
    have hn := hl (ptrs l) (by simp [hx])
    simpa using hn
  · intro hl l hx
    obtain ⟨l', r', hx', rfl, hr⟩ := List.map_eq_append_iff.mp hx
    obtain ⟨u, hu, hut⟩ := List.map_eq_singleton_iff.mp hr
    rw [hu, TaskPtr.task.inj hut] at hx'
    rw [hl l' hx', List.map_nil]

/-! ### The calls -/

/-- A fresh task joins the registered ones. -/
theorem Kept.reqctsk {made : Option Nat} (h : Kept b xs s) (ht : td ∉ xs)
    (hs : s.reqctsk b td made = .ok s') : Kept b ((Call.reqctsk td made).register b xs) s' := by
  cases made with
  | none =>
    rw [Registry.reqctsk] at hs
    split at hs
    · cases hs
      refine ⟨h.lists, h.ends, fun hb t ↦ ?_⟩
      by_cases he : t = td
      · simp [he, Call.register, ht]
      · simp [Function.update_of_ne he, Call.register, h.marked hb]
    · cases hs
  | some m =>
    rw [Registry.reqctsk] at hs
    split at hs
    · have hk : Registry.Lists { s with marker := Function.update s.marker td (some m) } xs :=
        h.lists
      obtain ⟨hl, he⟩ := hk.append h.ends ht hs
      refine ⟨hl, he, fun hb t ↦ ?_⟩
      rw [(append_fields hs).2]
      by_cases he : t = td
      · simp [he, Call.register]
      · simp [Call.register, h.marked hb, he]
    · rename_i hb
      have hk : Registry.Lists { s with thread := Function.update s.thread td m } xs := h.lists
      obtain ⟨hl, he⟩ := hk.append h.ends ht hs
      exact ⟨hl, he, fun hb' ↦ absurd hb' hb⟩

/-- What a deletion leaves behind: nothing has changed, or the task was taken out. -/
theorem Kept.reqdtsk_cases (h : Kept b xs s) (hb : b ≠ .ycore)
    (hs : s.reqdtsk fuel b t = .ok s') :
    (s' = s ∧ (Call.reqdtsk t).register b xs = xs) ∨
    (t ∈ xs ∧ (Call.reqdtsk t).register b xs = xs.erase t ∧ s'.Lists (xs.erase t) ∧
      s'.rqTaskTail = s.tailAfter t ∧
      (b = .yalrt → s'.marker = Function.update s.marker t none)) := by
  unfold Registry.reqdtsk at hs
  cases b with
  | ycore => exact absurd rfl hb
  | delFromList =>
    obtain ⟨ht, hl, htail, -⟩ := h.lists.unlink_spec hs
    exact .inr ⟨ht, by simp [Call.register], hl, htail, fun h ↦ by cases h⟩
  | yalrt =>
    simp only at hs
    split at hs
    · rename_i hm
      cases hs
      have ht : t ∉ xs := fun ht ↦ (h.marked rfl t).mpr ht hm
      exact .inl ⟨rfl, by simp [Call.register, List.erase_of_not_mem ht]⟩
    · split at hs
      · rename_i hi
        cases hs
        exact .inl ⟨rfl, by simp [Call.register, hi]⟩
      · rename_i hi
        obtain ⟨s'', hu, hs⟩ := Exec.bind_eq_ok.mp hs
        cases hs
        obtain ⟨ht, hl, htail, hm⟩ := h.lists.unlink_spec hu
        exact .inr ⟨ht, by simp [Call.register, hi], hl, htail, fun _ ↦ by rw [hm]⟩

/-- A deletion that does not take the last one of several tasks out keeps the list intact. -/
theorem Kept.reqdtsk (h : Kept b xs s) (hb : b ≠ .ycore)
    (hc : ¬ (Call.reqdtsk t).TakesLast b xs) (hs : s.reqdtsk fuel b t = .ok s') :
    Kept b ((Call.reqdtsk t).register b xs) s' := by
  rcases h.reqdtsk_cases hb hs with ⟨rfl, hx⟩ | ⟨ht, hx, hl, htail, hm⟩
  · rwa [hx]
  · rw [hx]
    refine ⟨hl, (h.lists.ends_erase h.ends ht htail).mpr fun l hl ↦ ?_, fun hb u ↦ ?_⟩
    · by_contra hne
      refine hc ⟨t, l, rfl, ?_, hne, hl⟩
      have hlists := h.lists
      rw [hl] at hlists
      rw [hx, hl, hlists.erase_eq, List.append_nil]
    · rw [hm hb, h.lists.nodup.mem_erase_iff]
      by_cases hu : u = t
      · simp [hu]
      · simp [h.marked hb, hu]

/-- The next system call returns. -/
theorem Kept.intact (h : Kept b xs s) (hb : b ≠ .ycore) : Intact b xs s where
  lists := h.lists
  ends := h.ends
  reachable t ht := (h.lists.reaches_iff (by simp)).mpr (mem_ptrs.mpr ht)
  creates td made ht := by
    by_cases hy : b = .yalrt
    · have hk : Registry.Lists { s with marker := Function.update s.marker td (some made) } xs :=
        h.lists
      obtain ⟨s', hs⟩ := hk.append_ok h.ends td
      exact ⟨s', 0, by rw [call, Registry.reqctsk, if_pos hy, hs]⟩
    · have hk : Registry.Lists { s with thread := Function.update s.thread td made } xs :=
        h.lists
      obtain ⟨s', hs⟩ := hk.append_ok h.ends td
      exact ⟨s', 0, by rw [call, Registry.reqctsk, if_neg hy, hs]⟩
  deletes t ht := by
    obtain ⟨l, r, rfl⟩ := List.append_of_mem ht
    obtain ⟨s', ⟨n, hn⟩, -⟩ := h.lists.unlink
    have hu : s.unlink n t = .ok s' := hn n le_rfl
    cases b with
    | ycore => exact absurd rfl hb
    | delFromList => exact ⟨s', n, hu⟩
    | yalrt =>
      have hm := (h.marked rfl t).mpr ht
      by_cases hi : t = idleTask
      · exact ⟨s, n, by simp [call, Registry.reqdtsk, hi]⟩
      · exact ⟨_, n, by rw [call, Registry.reqdtsk, if_neg hm, if_neg hi, hu]; rfl⟩

end Registry

end YRmx
