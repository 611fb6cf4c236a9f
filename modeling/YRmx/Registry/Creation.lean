import Mathlib.Data.List.TakeWhile
import YRmx.Registry.Deletion

/-!
# Creation after deletion that unlinks nothing

Library `YRmx`. As it is built, `reqdtsk` of `ycore.c` leaves the task in the list, and
`reqctsk` clears the link field of the descriptor it appends. A descriptor that is created
again while it still stands in the list takes all tasks behind it out of the list.
-/

namespace YRmx

open Transition Intrusive

namespace Registry

variable {s s' : Registry} {c : Call} {fuel root : Nat} {t td u : TaskId} {xs : List TaskId}
  {tr : List (Registry × Call)}

/-- The threads that have been created, the root thread first. They are neither joined nor
detached, so that none of their identifiers is used again. -/
def threads (root : Nat) (cs : List Call) : List Nat :=
  root :: cs.filterMap fun | .reqctsk _ made => made | .reqdtsk _ => none

/-- `reqctsk` creates a new thread. -/
def Call.Starts (root : Nat) (cs : List Call) (c : Call) : Prop :=
  ∀ td m, c = .reqctsk td (some m) → m ∉ threads root cs

/-- `reqctsk` is applied to a descriptor that is not live and creates a new thread. -/
def Call.Creates (root : Nat) (cs : List Call) (c : Call) : Prop :=
  c.Fresh (registered .ycore cs) ∧ c.Starts root cs

/-- The call creates a descriptor that still stands in the list, with a live task behind it. -/
def Call.Cuts (s : Registry) (live : List TaskId) (c : Call) : Prop :=
  ∃ td made, c = .reqctsk td made ∧
    Relation.ReflTransGen (Leads s.tasklink .null) s.rqTaskHead (.task td) ∧
    ∃ u ∈ live, Relation.TransGen (Leads s.tasklink .null) (.task td) (.task u)

/-- The list from `rq_task_head` is finite and acyclic, ends at `rq_task_tail`, and holds every
live task once; `active_task` finds each of them from its thread. -/
def Complete (live : List TaskId) (s : Registry) : Prop :=
  (∃ xs, xs ≠ [] ∧ s.Lists xs ∧ s.Ends xs ∧ xs.Nodup ∧ ∀ t ∈ live, t ∈ xs) ∧
    ∀ t ∈ live, Yields (fun n ↦ s.activeTask n (s.thread t)) (.task t)

/-- What the calls keep: the tasks of the list have threads of their own. -/
structure Tidy (root : Nat) (cs : List Call) (s : Registry) (xs : List TaskId) : Prop where
  ne_nil : xs ≠ []
  lists : s.Lists xs
  ends : s.Ends xs
  issued : ∀ t ∈ xs, s.thread t ∈ threads root cs
  distinct : ∀ t ∈ xs, ∀ u ∈ xs, s.thread t = s.thread u → t = u

/-- What the calls keep while no live task is cut off. -/
structure Chained (root : Nat) (cs : List Call) (s : Registry) (xs : List TaskId) : Prop
    extends Tidy root cs s xs where
  live : ∀ t ∈ registered .ycore cs, t ∈ xs

/-- The tasks that stand in the list after one more call. -/
def Call.chain (xs : List TaskId) : Call → List TaskId
  | .reqctsk td (some _) => xs.takeWhile (· ≠ td) ++ [td]
  | .reqctsk _ none => xs
  | .reqdtsk _ => xs

/-- One more call. -/
theorem threads_snoc {cs : List Call} :
    threads root (cs ++ [c]) =
      threads root cs ++ (match c with | .reqctsk _ made => made.toList | .reqdtsk _ => []) := by
  cases c with
  | reqctsk td made => cases made <;> simp [threads]
  | reqdtsk t => simp [threads]

/-- The registry after `reqstart` has set the list up. -/
theorem start_chained (root : Nat) : Chained root [] (start .ycore root) [rootTaskTd] where
  ne_nil := by simp
  lists := start_lists .ycore root
  ends := start_ends .ycore root
  live t ht := ht
  issued t ht := by simp [start, threads, List.mem_singleton.mp ht]
  distinct t ht u hu _ := (List.mem_singleton.mp ht).trans (List.mem_singleton.mp hu).symm

/-- Appending a task that stands in the list cuts the list off behind it. -/
theorem Lists.append_again {l r : List TaskId} (h : s.Lists (l ++ td :: r))
    (ht : s.Ends (l ++ td :: r)) (hs : s.append td = .ok s') :
    s'.Lists (l ++ [td]) ∧ s'.Ends (l ++ [td]) := by
  obtain ⟨-, -, hd⟩ := List.nodup_append.mp h.nodup
  have hh : s.rqTaskHead ≠ .null := fun he ↦ by simpa using h.head_null_iff.mp he
  obtain ⟨m, t, hm⟩ : ∃ m t, td :: r = m ++ [t] :=
    (List.eq_nil_or_concat' (td :: r)).resolve_left (by simp)
  have htail : s.rqTaskTail = .task t := by
    rw [hm, ← List.append_assoc] at ht
    exact ends_concat.mp ht
  rw [append_of_tail hh htail (by simp)] at hs
  cases hs
  refine ⟨?_, ends_concat.mpr rfl⟩
  rw [Lists, ptrs_append] at h ⊢
  apply Headed.congr h.cut
  intro a ha
  dsimp only
  by_cases he : a = .task td
  · rw [he, Function.update_self, Function.update_self]
  · have hal : a ∈ ptrs l := by simpa [he] using ha
    obtain ⟨v, hv, rfl⟩ := List.mem_map.mp hal
    have hvt : TaskPtr.task v ≠ .task t := fun hvt ↦
      hd v hv t (by simp [hm]) (TaskPtr.task.inj hvt)
    rw [Function.update_of_ne he, Function.update_of_ne he, Function.update_of_ne hvt]

/-- The search for a thread finds the only task of the list that has it. -/
theorem activeTaskLoop_yields {p : TaskPtr} (h : Headed s.tasklink .null p (ptrs xs))
    (ht : t ∈ xs) (hd : ∀ u ∈ xs, s.thread u = s.thread t → u = t) :
    Yields (fun n ↦ activeTaskLoop n s (s.thread t) p) (.task t) := by
  induction xs generalizing p with
  | nil => cases ht
  | cons a xs ih =>
    have hp : p = .task a := h.head_eq
    by_cases ha : s.thread a = s.thread t
    · obtain rfl := hd a (by simp) ha
      refine Yields.succ ((Yields.const (TaskPtr.task a)).congr fun n ↦ ?_)
      simp only [activeTaskLoop, hp, if_true]
    · have hat : t ∈ xs := (List.mem_cons.mp ht).resolve_left fun he ↦ ha (by rw [he])
      have hy := ih (Headed.suffix (l := []) h) hat fun u hu ↦ hd u (by simp [hu])
      refine Yields.succ (hy.congr fun n ↦ ?_)
      simp only [activeTaskLoop, hp, if_neg ha]

/-- A list with all live tasks is what `active_task` needs. -/
theorem Chained.complete {cs : List Call} (h : Chained root cs s xs) :
    Complete (registered .ycore cs) s :=
  ⟨⟨xs, h.ne_nil, h.lists, h.ends, h.lists.nodup, h.live⟩, fun t ht ↦
    activeTaskLoop_yields h.lists (h.live t ht) fun u hu he ↦ h.distinct u hu t (h.live t ht) he⟩

/-- The part of a list in front of a task of it. -/
theorem Lists.takeWhile_eq {l r : List TaskId} (h : s.Lists (l ++ td :: r)) :
    (l ++ td :: r).takeWhile (· ≠ td) = l := by
  have hx : ∀ a ∈ l, a ≠ td := fun a ha ↦
    (List.nodup_append.mp h.nodup).2.2 a ha td (by simp)
  rw [List.takeWhile_append_of_pos fun a ha ↦ by simpa using hx a ha]
  simp

/-- A task that is not in a list has all of it in front. -/
theorem takeWhile_absent (ht : td ∉ xs) : xs.takeWhile (· ≠ td) = xs :=
  List.takeWhile_eq_self_iff.mpr fun a ha ↦ by simpa using fun he : a = td ↦ ht (he ▸ ha)

/-- The list after a task was created. -/
theorem Tidy.append_spec {cs : List Call} {m : Nat} (h : Tidy root cs s xs)
    (hs : s.reqctsk .ycore td (some m) = .ok s') :
    s'.Lists (xs.takeWhile (· ≠ td) ++ [td]) ∧ s'.Ends (xs.takeWhile (· ≠ td) ++ [td]) ∧
      s'.thread = Function.update s.thread td m := by
  rw [reqctsk, if_neg (by decide)] at hs
  have hl : Registry.Lists { s with thread := Function.update s.thread td m } xs := h.lists
  refine (and_assoc.mp ⟨?_, (append_fields hs).1⟩)
  by_cases ht : td ∈ xs
  · obtain ⟨l, r, rfl⟩ := List.append_of_mem ht
    rw [h.lists.takeWhile_eq]
    exact hl.append_again h.ends hs
  · rw [takeWhile_absent ht]
    exact hl.append h.ends ht hs

/-- From a task of the list, the pointers lead to the tasks behind it. -/
theorem Lists.behind_iff {l r : List TaskId} (h : s.Lists (l ++ td :: r)) :
    Relation.TransGen (Leads s.tasklink .null) (.task td) (.task t) ↔ t ∈ r := by
  rw [Lists, ptrs_append] at h
  rw [Headed.behind_iff h (by simp), mem_ptrs]

/-- A task of the list stands in front of the one that is created, or behind it. -/
theorem Lists.front_or_behind (h : s.Lists xs) (ht : t ∈ xs) (hne : t ≠ td) :
    t ∈ xs.takeWhile (· ≠ td) ∨
      Relation.ReflTransGen (Leads s.tasklink .null) s.rqTaskHead (.task td) ∧
        Relation.TransGen (Leads s.tasklink .null) (.task td) (.task t) := by
  by_cases htd : td ∈ xs
  · refine (or_iff_not_imp_left.mpr fun hn ↦
      ⟨(h.reaches_iff (by simp)).mpr (mem_ptrs.mpr htd), ?_⟩)
    obtain ⟨l, r, rfl⟩ := List.append_of_mem htd
    rw [h.takeWhile_eq] at hn
    rw [h.behind_iff]
    exact (List.mem_cons.mp ((List.mem_append.mp ht).resolve_left hn)).resolve_left hne
  · exact .inl (by rwa [takeWhile_absent htd])

/-- A call with a new thread keeps the threads of the tasks apart. -/
theorem Tidy.step {cs : List Call} (h : Tidy root cs s xs) (hf : c.Starts root cs)
    (hs : Step .ycore s c s') : Tidy root (cs ++ [c]) s' (c.chain xs) := by
  obtain ⟨fuel, hs⟩ := hs
  cases c with
  | reqctsk td made =>
    cases made with
    | none => cases hs
    | some m =>
      obtain ⟨hl, he, hth⟩ := h.append_spec hs
      have hfront : ∀ t ∈ xs.takeWhile (· ≠ td), t ≠ td ∧ t ∈ xs := fun t ht ↦
        ⟨by simpa using List.mem_takeWhile_imp ht, List.takeWhile_subset _ ht⟩
      have hm := hf td m rfl
      refine ⟨by simp [Call.chain], hl, he, ?_, ?_⟩
      · intro t ht
        rw [threads_snoc, hth]
        rcases List.mem_append.mp ht with ht | ht
        · obtain ⟨hne, htx⟩ := hfront t ht
          rw [Function.update_of_ne hne]
          exact List.mem_append_left _ (h.issued t htx)
        · rw [List.mem_singleton.mp ht, Function.update_self]
          simp
      · intro t ht u hu
        rw [hth]
        rcases List.mem_append.mp ht with ht | ht <;> rcases List.mem_append.mp hu with hu | hu
        · obtain ⟨hnt, htx⟩ := hfront t ht
          obtain ⟨hnu, hux⟩ := hfront u hu
          rw [Function.update_of_ne hnt, Function.update_of_ne hnu]
          exact h.distinct t htx u hux
        · obtain ⟨hnt, htx⟩ := hfront t ht
          rw [List.mem_singleton.mp hu, Function.update_of_ne hnt, Function.update_self]
          exact fun he ↦ absurd (he ▸ h.issued t htx) hm
        · obtain ⟨hnu, hux⟩ := hfront u hu
          rw [List.mem_singleton.mp ht, Function.update_of_ne hnu, Function.update_self]
          exact fun he ↦ absurd (he ▸ h.issued u hux) hm
        · exact fun _ ↦ (List.mem_singleton.mp ht).trans (List.mem_singleton.mp hu).symm
  | reqdtsk t =>
    cases hs
    refine ⟨h.ne_nil, h.lists, h.ends, fun u hu ↦ ?_, h.distinct⟩
    rw [threads_snoc, List.append_nil]
    exact h.issued u hu

/-- A call that cuts no live task off keeps all live tasks in the list. -/
theorem Chained.step {cs : List Call} (h : Chained root cs s xs) (hf : c.Creates root cs)
    (hc : ¬ c.Cuts s (registered .ycore cs)) (hs : Step .ycore s c s') :
    Chained root (cs ++ [c]) s' (c.chain xs) := by
  refine ⟨h.toTidy.step hf.2 hs, fun t ht ↦ ?_⟩
  rw [registered, List.foldl_concat] at ht
  cases c with
  | reqctsk td made =>
    cases made with
    | none => exact h.live t ht
    | some m =>
      refine List.mem_append.mpr ((List.mem_append.mp ht).imp_left fun ht ↦ ?_)
      have hne : t ≠ td := fun he ↦ hf.1 td (some m) rfl (he ▸ ht)
      apply (h.lists.front_or_behind (h.live t ht) hne).resolve_right
      intro hb
      exact hc ⟨td, some m, rfl, hb.1, t, ht, hb.2⟩
  | reqdtsk u => exact h.live t (List.mem_of_mem_erase ht)

/-- The list of any run in which every thread is a new one. -/
theorem tidy_of_run (hr : Trace (Step .ycore) (start .ycore root) tr s)
    (hf : Throughout (fun tr _ c ↦ c.Starts root (calls tr)) tr) :
    ∃ xs, Tidy root (calls tr) s xs := by
  refine (hr.always (J := fun tr s ↦ ∃ xs, Tidy root (calls tr) s xs)
    ⟨_, (start_chained root).toTidy⟩ ?_ hf).last
  rintro tr m c n ⟨xs, h⟩ hf hs
  rw [calls, List.map_append]
  exact ⟨_, h.step hf hs⟩

/-- A call that cuts a live task off loses it. -/
theorem Chained.cuts {cs : List Call} (h : Chained root cs s xs)
    (hc : c.Cuts s (registered .ycore cs)) (hs : Step .ycore s c s') :
    ¬ Complete (registered .ycore (cs ++ [c])) s' := by
  obtain ⟨td, made, rfl, hr, u, hu, hb⟩ := hc
  obtain ⟨fuel, hs⟩ := hs
  cases made with
  | none => cases hs
  | some m =>
    rintro ⟨⟨ys, -, hy, -, -, hall⟩, -⟩
    obtain ⟨l, r, rfl⟩ := List.append_of_mem (mem_ptrs.mp ((h.lists.reaches_iff (by simp)).mp hr))
    obtain ⟨hl, -, -⟩ := h.append_spec hs
    obtain ⟨-, hnd, hd⟩ := List.nodup_append.mp h.lists.nodup
    rw [h.lists.takeWhile_eq] at hl
    have hur : u ∈ r := h.lists.behind_iff.mp hb
    have hy' : u ∈ ys := hall u (by
      rw [registered, List.foldl_concat]
      exact List.mem_append_left _ hu)
    rw [hy.unique hl] at hy'
    rcases List.mem_append.mp hy' with hul | hut
    · exact hd u hul u (by simp [hur]) rfl
    · rw [List.mem_singleton.mp hut] at hur
      exact (List.nodup_cons.mp hnd).1 hur

/-- In the default build, the task list holds all live tasks in exactly those runs in which no
descriptor is created again with a live task behind it in the list. -/
theorem creation_of_run (hr : Trace (Step .ycore) (start .ycore root) tr s)
    (hf : Throughout (fun tr _ c ↦ c.Creates root (calls tr)) tr) :
    Always (fun tr s ↦ Complete (registered .ycore (calls tr)) s) tr s ↔
      Throughout (fun tr s c ↦ ¬ c.Cuts s (registered .ycore (calls tr))) tr := by
  refine hr.always_iff (J := fun tr s ↦ ∃ xs, Chained root (calls tr) s xs)
    ⟨_, start_chained root⟩ hf ?_ (fun ⟨_, h⟩ ↦ h.complete) ?_
  · rintro tr m c n ⟨xs, h⟩ hf hc hs
    rw [calls, List.map_append]
    exact ⟨_, h.step hf hc hs⟩
  · rintro tr m c n ⟨xs, h⟩ _ hc hs
    rw [calls, List.map_append]
    exact h.cuts (not_not.mp hc) hs

/-- A task is created, deleted and created again. -/
theorem creation_of_run_again : ∃ tr s,
    calls tr = [.reqctsk 5 (some 50), .reqdtsk 5, .reqctsk 5 (some 51)] ∧
    Trace (Step .ycore) (start .ycore 1) tr s ∧
    Always (fun tr s ↦ Complete (registered .ycore (calls tr)) s) tr s := by
  have hr : Trace (Step .ycore) (start .ycore 1) ([] ++ [(_, Call.reqctsk 5 (some 50))] ++
      [(_, Call.reqdtsk 5)] ++ [(_, Call.reqctsk 5 (some 51))]) _ :=
    .snoc (.snoc (.snoc .nil ⟨9, rfl⟩) ⟨9, rfl⟩) ⟨9, rfl⟩
  refine ⟨_, _, rfl, hr, (creation_of_run hr ?_).mpr ?_⟩
  · simp only [throughout_snoc]
    simp [throughout_nil, Call.Creates, Call.Starts, Call.Fresh, threads, registered,
      Call.register, rootTaskTd]
  · simp only [throughout_snoc]
    refine ⟨⟨⟨throughout_nil, ?_⟩, ?_⟩, ?_⟩ <;> rintro ⟨td, made, hc, -, u, -, hb⟩ <;> cases hc
    all_goals cases behind_null hb rfl

/-- Two tasks are created, the first one is deleted and created again: the thread of the second
one does not find its task any more. -/
theorem creation_loses_task : ∃ tr s, Trace (Step .ycore) (start .ycore 1) tr s ∧
    calls tr =
      [.reqctsk 5 (some 50), .reqctsk 6 (some 60), .reqdtsk 5, .reqctsk 5 (some 51)] ∧
    Throughout (fun tr _ c ↦ c.Creates 1 (calls tr)) tr ∧
    6 ∈ registered .ycore (calls tr) ∧
    ¬ Relation.ReflTransGen (Leads s.tasklink .null) s.rqTaskHead (.task 6) ∧
    Yields (fun n ↦ s.activeTask n (s.thread 6)) .null := by
  obtain ⟨tr, s, hr, hc, hp⟩ := Trace.exists_of_foldlM (f := call 9 .ycore) (s := start .ycore 1)
    (l := [.reqctsk 5 (some 50), .reqctsk 6 (some 60), .reqdtsk 5, .reqctsk 5 (some 51)])
    (p := fun s ↦ s.rqTaskHead = .task 0 ∧ s.tasklink (.task 0) = .task 5 ∧
      s.tasklink (.task 5) = .null ∧ s.thread 0 ≠ s.thread 6 ∧ s.thread 5 ≠ s.thread 6)
    (fun s c s' h ↦ (⟨9, h⟩ : Step .ycore s c s')) (by decide)
  obtain ⟨h0, h1, h5, ht0, ht5⟩ := of_decide_eq_true hp
  refine ⟨tr, s, hr, hc, throughout_of_each ?_, ?_, fun h ↦ ?_, 3, fun n hn ↦ ?_⟩
  · rw [hc]
    simp [Each, Call.Creates, Call.Starts, Call.Fresh, threads, registered,
      Call.register, rootTaskTd]
  · rw [calls, hc]
    simp [registered, Call.register, rootTaskTd]
  · rw [h0] at h
    rcases h.cases_head with he | ⟨p, ⟨-, rfl⟩, h⟩
    · cases he
    · rw [h1] at h
      rcases reaches_null h h5 with he | he <;> cases he
  · obtain ⟨m, rfl⟩ := Nat.exists_eq_add_of_le' hn
    simp only [activeTask, h0, activeTaskLoop, if_neg ht0, h1, if_neg ht5, h5]

end Registry

end YRmx
