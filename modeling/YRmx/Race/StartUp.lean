import Mathlib.Data.Finset.Card
import YRmx.Core.State
import YRmx.Transition.Always

/-!
# The start-up barrier

Library `YRmx`. `reqstart` (`ycore.c:1411–1484`) counts the tasks of the table, sets up
`task_barrier` for so many threads and creates them. A new thread waits at the barrier if it
finds `rqstarting` set (`ycore.c:639–648`), which is cleared only by threads that the barrier
has released. A thread that is created later and still finds it set waits as well.
-/

namespace YRmx

open Transition

/-- The next line of a thread in `reqrun`. -/
inductive StartLine where
  /-- not created yet -/
  | none
  /-- `if (rqstarting)` -/
  | test
  /-- `pthread_barrier_wait(&task_barrier)` -/
  | barrier
  /-- in `pthread_barrier_wait` -/
  | waiting
  /-- `rqstarting = false`, then `usleep` -/
  | released
  /-- `td->thread_start()`, after the barrier or without it -/
  | user (waited : Bool)
  deriving DecidableEq, Repr

/-- The count of `reqstart`, `ycore.c:1413–1417`. -/
def barrierCount (itt : List (Option TaskId)) : Nat :=
  itt.foldl (fun count a_task ↦ if a_task ≠ Option.none then count + 1 else count) 2

/-- The tasks that `reqstart` creates, `ycore.c:1471–1484`. -/
def startCalls (itt : List (Option TaskId)) : List TaskId :=
  rqtimerTd :: rqdelaytaskTd :: itt.filterMap id

/-- `reqstart` counts as many tasks as it creates. -/
theorem barrierCount_eq (itt : List (Option TaskId)) :
    barrierCount itt = (startCalls itt).length := by
  have h : ∀ n, itt.foldl (fun count a_task ↦ if a_task ≠ Option.none then count + 1 else count) n =
      n + (itt.filterMap id).length := by
    induction itt with
    | nil => simp
    | cons a itt ih =>
      intro n
      cases a with
      | none =>
        rw [List.foldl_cons, if_neg (by simp), ih]
        rfl
      | some t =>
        rw [List.foldl_cons, if_pos (by simp), ih]
        have hl : ((some t :: itt).filterMap id).length = (itt.filterMap id).length + 1 := rfl
        omega
  rw [barrierCount, h, startCalls]
  simp only [List.length_cons]
  omega

/-- The barrier, `rqstarting`, the root task and the threads in the order of their creation. -/
structure StartUp where
  rqstarting : Bool
  /-- how many threads wait at the barrier -/
  arrived : Nat
  /-- how many groups the barrier has released -/
  trips : Nat
  /-- the calls of `reqctsk` that `reqstart` has still to make -/
  todo : List TaskId
  /-- how many threads there are -/
  created : Nat
  line : Nat → StartLine

/-- The steps of the root task and of the threads. -/
inductive StartUpOp where
  /-- `reqctsk`, in `reqstart` or later -/
  | reqctsk (td : TaskId)
  /-- the next line of a thread -/
  | next (k : Nat)
  deriving DecidableEq, Repr

namespace StartUp

variable {itt : List (Option TaskId)} {x x' : StartUp} {o : StartUpOp} {k count : Nat}
  {tr : List (StartUp × StartUpOp)}

/-- `pthread_barrier_wait` is entered: the last one of a group releases the group. -/
def arrive (count : Nat) (x : StartUp) (k : Nat) : StartUp :=
  let x := { x with line := Function.update x.line k .waiting }
  if x.arrived + 1 = count then
    { x with
      arrived := 0, trips := x.trips + 1,
      line := fun j ↦ if x.line j = .waiting then .released else x.line j }
  else { x with arrived := x.arrived + 1 }

/-- The next line of a thread. -/
def lineStep (count : Nat) (x : StartUp) (k : Nat) : Exec StartUp :=
  match x.line k with
  | .none => .error .blocked
  | .test =>
    .ok { x with
      line := Function.update x.line k (if x.rqstarting then .barrier else .user false) }
  | .barrier => .ok (x.arrive count k)
  | .waiting => .error .blocked
  | .released =>
    .ok { x with rqstarting := false, line := Function.update x.line k (.user true) }
  | .user _ => .error .blocked

/-- One step. -/
def step (count : Nat) (x : StartUp) : StartUpOp → Exec StartUp
  | .reqctsk td => do
    require (x.todo = [] ∨ x.todo.head? = some td)
    .ok { x with
      todo := x.todo.tail, created := x.created + 1,
      line := Function.update x.line x.created .test }
  | .next k => x.lineStep count k

/-- The steps with the barrier that `reqstart` sets up for a table. -/
def Step (itt : List (Option TaskId)) (x : StartUp) (o : StartUpOp) (x' : StartUp) : Prop :=
  x.step (barrierCount itt) o = .ok x'

/-- After `pthread_barrier_init`, `ycore.c:1418`. -/
def start (itt : List (Option TaskId)) : StartUp where
  rqstarting := true
  arrived := 0
  trips := 0
  todo := startCalls itt
  created := 0
  line _ := .none

/-- The thread has come to the barrier, or is about to. -/
def Waits (x : StartUp) (k : Nat) : Prop :=
  x.line k = .barrier ∨ x.line k = .waiting ∨ x.line k = .released ∨ x.line k = .user true

/-- The barrier holds back the threads that `reqstart` creates, and no others, until all of
them are there, trips once, and leaves nobody behind. -/
structure Sound (itt : List (Option TaskId)) (x : StartUp) : Prop where
  only : ∀ k, x.Waits k → k < barrierCount itt
  all : ∀ k < barrierCount itt, x.line k ≠ .user false
  once : x.trips ≤ 1
  trips : (∀ k < barrierCount itt, x.line k ≠ .none ∧ x.line k ≠ .test ∧ x.line k ≠ .barrier) →
    x.trips = 1
  free : x.trips = 1 → ∀ k, x.line k ≠ .barrier ∧ x.line k ≠ .waiting
  user : ∀ k waited, x.line k = .user waited → x.todo = [] ∧ barrierCount itt ≤ x.created

/-- A thread that was not created by `reqstart` finds `rqstarting` set. -/
def Late (itt : List (Option TaskId)) (x : StartUp) (o : StartUpOp) : Prop :=
  ∃ k, o = .next k ∧ barrierCount itt ≤ k ∧ x.line k = .test ∧ x.rqstarting = true

/-! ### Before and after the barrier trips -/

/-- The threads of the table that wait at the barrier. -/
def waiting (count : Nat) (x : StartUp) : Finset Nat :=
  (Finset.range count).filter fun k ↦ x.line k = .waiting

/-- Not all threads of the table are at the barrier yet. -/
structure Before (count : Nat) (x : StartUp) : Prop where
  trips : x.trips = 0
  rqstarting : x.rqstarting = true
  arrived : x.arrived = (x.waiting count).card
  few : x.arrived < count
  lines : ∀ k, x.line k = .none ∨ x.line k = .test ∨
    k < count ∧ (x.line k = .barrier ∨ x.line k = .waiting)

/-- The barrier has released the threads of the table. -/
structure After (count : Nat) (x : StartUp) : Prop where
  trips : x.trips = 1
  arrived : x.arrived = 0
  table : ∀ k < count, x.line k = .released ∨ x.line k = .user true
  late : ∀ k, count ≤ k → x.line k = .none ∨ x.line k = .test ∨ x.line k = .user false

/-- The threads that there are, and those that `reqstart` has still to create. -/
structure Created (count : Nat) (x : StartUp) : Prop where
  todo : x.created + x.todo.length = count ∨ x.todo = [] ∧ count ≤ x.created
  none_iff : ∀ k, x.line k = .none ↔ x.created ≤ k

/-- The threads of the table that wait. -/
theorem mem_waiting : k ∈ x.waiting count ↔ k < count ∧ x.line k = .waiting := by
  rw [waiting, Finset.mem_filter, Finset.mem_range]

/-- A thread goes on to a line that is not in the barrier. -/
theorem waiting_update {l : StartLine} (hk : x.line k ≠ .waiting) (hl : l ≠ .waiting) :
    waiting count { x with line := Function.update x.line k l } = x.waiting count := by
  apply Finset.filter_congr
  intro j _
  by_cases hj : j = k
  · simp [hj, hk, hl]
  · simp [Function.update_of_ne hj]

/-- A thread of the table comes to wait. -/
theorem waiting_insert (hk : k < count) :
    waiting count { x with line := Function.update x.line k .waiting } =
      insert k (x.waiting count) := by
  ext j
  simp only [waiting, Finset.mem_filter, Finset.mem_range, Finset.mem_insert]
  by_cases hj : j = k
  · simp [hj, hk]
  · simp [hj]

/-- The last thread of the table to come finds all others waiting. -/
theorem Before.full (h : x.Before count) (hk : k < count) (hl : x.line k = .barrier)
    (ha : x.arrived + 1 = count) : ∀ j < count, j = k ∨ x.line j = .waiting := by
  have hn : k ∉ x.waiting count := by simp [waiting, hl]
  have hs : insert k (x.waiting count) ⊆ Finset.range count := by
    intro j hj
    rcases Finset.mem_insert.mp hj with rfl | hj
    · exact Finset.mem_range.mpr hk
    · exact Finset.mem_range.mpr (mem_waiting.mp hj).1
  have he : insert k (x.waiting count) = Finset.range count := by
    apply Finset.eq_of_subset_of_card_le hs
    rw [Finset.card_insert_of_notMem hn, Finset.card_range, ← h.arrived, ha]
  intro j hj
  rw [← Finset.mem_range, ← he] at hj
  exact (Finset.mem_insert.mp hj).imp_right fun hw ↦ (mem_waiting.mp hw).2

/-- A thread of the table comes to the barrier. -/
theorem Before.arrive (h : x.Before count) (hk : k < count) (hl : x.line k = .barrier) :
    (x.arrive count k).Before count ∨ (x.arrive count k).After count := by
  rw [StartUp.arrive]
  split
  · rename_i ha
    have hfull := h.full hk hl ha
    refine .inr ⟨by simp [h.trips], rfl, fun j hj ↦ .inl ?_, fun j hj ↦ ?_⟩
    · rcases hfull j hj with rfl | hw
      · simp
      · by_cases hjk : j = k
        · simp [hjk]
        · simp [Function.update_of_ne hjk, hw]
    · have hjk : j ≠ k := by omega
      rcases h.lines j with hj' | hj' | ⟨hj', -⟩
      · simp [Function.update_of_ne hjk, hj']
      · simp [Function.update_of_ne hjk, hj']
      · omega
  · rename_i ha
    have hn : k ∉ x.waiting count := by simp [waiting, hl]
    refine .inl ⟨h.trips, h.rqstarting, ?_, ?_, fun j ↦ ?_⟩
    · have hw : (waiting count { x with line := Function.update x.line k .waiting }).card =
          x.arrived + 1 := by
        rw [waiting_insert hk, Finset.card_insert_of_notMem hn, h.arrived]
      exact hw.symm
    · have hf := h.few
      simp only at ha ⊢
      omega
    · by_cases hjk : j = k
      · exact .inr (.inr (by simp [hjk, hk]))
      · simpa only [Function.update_of_ne hjk] using h.lines j

/-- A step before the barrier trips. -/
theorem Before.step (h : x.Before count) (hm : x.Created count)
    (hc : ∀ k, o = .next k → x.line k = .test → k < count) (hs : x.step count o = .ok x') :
    x'.Before count ∨ x'.After count := by
  cases o with
  | reqctsk td =>
    obtain ⟨-, hs⟩ := require_bind_eq_ok.mp hs
    cases hs
    have hn := (hm.none_iff x.created).mpr le_rfl
    refine .inl ⟨h.trips, h.rqstarting, ?_, h.few, fun j ↦ ?_⟩
    · exact h.arrived.trans (congrArg Finset.card
        (waiting_update (by simp [hn]) (l := .test) (by simp)).symm)
    · by_cases hj : j = x.created
      · simp [hj]
      · simpa only [Function.update_of_ne hj] using h.lines j
  | next k =>
    simp only [StartUp.step, StartUp.lineStep] at hs
    cases hl : x.line k <;> rw [hl] at hs <;> simp only at hs
    case none => cases hs
    case test =>
      cases hs
      have hk := hc k rfl hl
      have hb : (if x.rqstarting then StartLine.barrier else .user false) = .barrier := by
        rw [h.rqstarting, if_pos rfl]
      rw [hb]
      refine .inl ⟨h.trips, h.rqstarting, ?_, h.few, fun j ↦ ?_⟩
      · exact h.arrived.trans (congrArg Finset.card
          (waiting_update (by simp [hl]) (l := .barrier) (by simp)).symm)
      · by_cases hj : j = k
        · exact .inr (.inr (by simp [hj, hk]))
        · simpa only [Function.update_of_ne hj] using h.lines j
    case barrier =>
      cases hs
      have hk : k < count := by
        rcases h.lines k with hk | hk | ⟨hk, -⟩
        · simp [hl] at hk
        · simp [hl] at hk
        · exact hk
      exact h.arrive hk hl
    case waiting => cases hs
    case released => simpa [hl] using h.lines k
    case user w => cases hs

/-- A step after the barrier has tripped. -/
theorem After.step (h : x.After count) (hm : x.Created count)
    (hc : ∀ k, o = .next k → count ≤ k → x.line k = .test → x.rqstarting = false)
    (hs : x.step count o = .ok x') : x'.After count := by
  cases o with
  | reqctsk td =>
    obtain ⟨-, hs⟩ := require_bind_eq_ok.mp hs
    cases hs
    have hn := (hm.none_iff x.created).mpr le_rfl
    have hk : count ≤ x.created := by
      by_contra hk
      simpa [hn] using h.table x.created (by omega)
    refine ⟨h.trips, h.arrived, fun j hj ↦ ?_, fun j hj ↦ ?_⟩
    · have hj' : j ≠ x.created := by omega
      simpa only [Function.update_of_ne hj'] using h.table j hj
    · by_cases hj' : j = x.created
      · simp [hj']
      · simpa only [Function.update_of_ne hj'] using h.late j hj
  | next k =>
    simp only [StartUp.step, StartUp.lineStep] at hs
    by_cases hk : k < count
    · rcases h.table k hk with hl | hl <;> rw [hl] at hs <;> cases hs
      refine ⟨h.trips, h.arrived, fun j hj ↦ ?_, fun j hj ↦ ?_⟩
      · by_cases hj' : j = k
        · simp [hj']
        · simpa only [Function.update_of_ne hj'] using h.table j hj
      · have hj' : j ≠ k := by omega
        simpa only [Function.update_of_ne hj'] using h.late j hj
    · have hk : count ≤ k := by omega
      rcases h.late k hk with hl | hl | hl <;> rw [hl] at hs <;> cases hs
      rw [hc k rfl hk hl]
      refine ⟨h.trips, h.arrived, fun j hj ↦ ?_, fun j hj ↦ ?_⟩
      · have hj' : j ≠ k := by omega
        simpa only [Function.update_of_ne hj'] using h.table j hj
      · by_cases hj' : j = k
        · simp [hj']
        · simpa only [Function.update_of_ne hj'] using h.late j hj

/-- The root task creates the threads one after the other, and no thread undoes it. -/
theorem Created.step (h : x.Created count) (hs : x.step count o = .ok x') :
    x'.Created count := by
  cases o with
  | reqctsk td =>
    obtain ⟨ht, hs⟩ := require_bind_eq_ok.mp hs
    cases hs
    have hd := h.todo
    refine ⟨?_, fun j ↦ ?_⟩
    · cases htd : x.todo with
      | nil => simp only [htd, List.length_nil, List.tail_nil] at hd ⊢; grind
      | cons a l => simp only [htd, List.length_cons, List.tail_cons] at hd ⊢; grind
    · have hj := h.none_iff j
      by_cases hj' : j = x.created
      · simp [hj']
      · simp only [Function.update_of_ne hj', hj]
        omega
  | next k =>
    simp only [StartUp.step, StartUp.lineStep] at hs
    have hupd : ∀ l, x.line k ≠ .none → l ≠ .none → ∀ j,
        Function.update x.line k l j = .none ↔ x.created ≤ j := by
      intro l hk hl j
      by_cases hj : j = k
      · subst hj
        simpa [hl] using fun hc ↦ hk ((h.none_iff j).mpr hc)
      · rw [Function.update_of_ne hj, h.none_iff]
    cases hl : x.line k <;> rw [hl] at hs <;> simp only at hs
    case none => cases hs
    case test =>
      cases hs
      exact ⟨h.todo, hupd _ (by simp [hl]) (by split <;> simp)⟩
    case barrier =>
      cases hs
      rw [StartUp.arrive]
      split
      · refine ⟨h.todo, fun j ↦ ?_⟩
        rw [← hupd .waiting (by simp [hl]) (by simp) j]
        simp only
        split <;> simp_all
      · exact ⟨h.todo, hupd _ (by simp [hl]) (by simp)⟩
    case waiting => cases hs
    case released =>
      cases hs
      exact ⟨h.todo, hupd _ (by simp [hl]) (by simp)⟩
    case user w => cases hs

/-! ### Whole runs -/

/-- What every step keeps that is not late. -/
structure Kept (itt : List (Option TaskId)) (x : StartUp) : Prop where
  created : x.Created (barrierCount itt)
  phase : x.Before (barrierCount itt) ∨ x.After (barrierCount itt)

/-- The root task in `reqstart`. -/
theorem start_kept (itt : List (Option TaskId)) : Kept itt (start itt) where
  created := ⟨.inl (by simp [start, barrierCount_eq]), fun k ↦ by simp [start]⟩
  phase := .inl ⟨rfl, rfl, by simp [start, waiting], by
    rw [barrierCount_eq]
    simp [start, startCalls], fun k ↦ .inl rfl⟩

/-- A step that is not late. -/
theorem Kept.step (h : x.Kept itt) (hc : ¬ x.Late itt o) (hs : x.Step itt o x') :
    x'.Kept itt := by
  refine ⟨h.created.step hs, ?_⟩
  rcases h.phase with hb | ha
  · refine hb.step h.created (fun k ho hl ↦ ?_) hs
    by_contra hk
    exact hc ⟨k, ho, by omega, hl, hb.rqstarting⟩
  · refine .inr (ha.step h.created (fun k ho hk hl ↦ ?_) hs)
    by_contra hr
    exact hc ⟨k, ho, hk, hl, by simpa using hr⟩

/-- What is kept is sound. -/
theorem Kept.sound (h : x.Kept itt) : x.Sound itt := by
  rcases h.phase with hb | ha
  · refine ⟨fun k hk ↦ ?_, fun k hk hl ↦ ?_, by simp [hb.trips], fun hall ↦ ?_,
      fun ht ↦ by simp [hb.trips] at ht, fun k w hl ↦ ?_⟩
    · rcases hb.lines k with hl | hl | ⟨hl, -⟩
      · simp [Waits, hl] at hk
      · simp [Waits, hl] at hk
      · exact hl
    · simpa [hl] using hb.lines k
    · have hw : ∀ j ∈ Finset.range (barrierCount itt), x.line j = .waiting := by
        intro j hj
        have hn := hall j (Finset.mem_range.mp hj)
        rcases hb.lines j with hl | hl | ⟨-, hl | hl⟩
        · exact absurd hl hn.1
        · exact absurd hl hn.2.1
        · exact absurd hl hn.2.2
        · exact hl
      have ha := hb.arrived
      rw [waiting, Finset.filter_true_of_mem hw, Finset.card_range] at ha
      exact absurd hb.few (by omega)
    · simpa [hl] using hb.lines k
  · refine ⟨fun k hk ↦ ?_, fun k hk hl ↦ ?_, by simp [ha.trips], fun _ ↦ ha.trips,
      fun _ k ↦ ?_, fun k w _ ↦ ?_⟩
    · by_contra hn
      rcases ha.late k (by omega) with hl | hl | hl <;> simp [Waits, hl] at hk
    · simpa [hl] using ha.table k hk
    · by_cases hk : k < barrierCount itt
      · rcases ha.table k hk with hl | hl <;> simp [hl]
      · rcases ha.late k (by omega) with hl | hl | hl <;> simp [hl]
    · have hle : barrierCount itt ≤ x.created := by
        by_contra hn
        have hno := (h.created.none_iff x.created).mpr le_rfl
        simpa [hno] using ha.table x.created (by omega)
      refine ⟨?_, hle⟩
      rcases h.created.todo with ht | ht
      · exact List.length_eq_zero_iff.mp (by omega)
      · exact ht.1

/-- A thread that finds `rqstarting` set waits. -/
theorem late_waits (hc : x.Late itt o) (hs : x.Step itt o x') : ¬ x'.Sound itt := by
  obtain ⟨k, rfl, hk, hl, hr⟩ := hc
  simp only [Step, StartUp.step, StartUp.lineStep, hl, hr, if_true] at hs
  cases hs
  intro h
  have hlt := h.only k (.inl (Function.update_self ..))
  omega

/-- The start-up barrier holds back exactly the threads of the table and strands nobody in
exactly those runs in which no thread that is created later finds `rqstarting` still set. -/
theorem startUp_of_run (hr : Trace (Step itt) (start itt) tr x) :
    Always (fun _ x ↦ x.Sound itt) tr x ↔ Throughout (fun _ x o ↦ ¬ x.Late itt o) tr :=
  hr.always_iff (J := fun _ x ↦ x.Kept itt) (H := fun _ _ _ ↦ True) (start_kept itt)
    (fun _ _ _ _ ↦ trivial) (fun h _ hc hs ↦ h.step hc hs) (fun h ↦ h.sound)
    (fun _ _ hc hs ↦ late_waits (not_not.mp hc) hs)

/-- Without any task in the table: the two system tasks come to the barrier, one of them goes on,
and a task that is created then does not wait. -/
theorem startUp_of_run_empty : ∃ tr x, Trace (Step []) (start []) tr x ∧
    tr.map Prod.snd = [.reqctsk 1, .reqctsk 2, .next 0, .next 1, .next 0, .next 1, .next 0,
      .reqctsk 7, .next 2] ∧
    Always (fun _ x ↦ x.Sound []) tr x ∧ x.line 2 = .user false := by
  have hs (x : StartUp) (o : StartUpOp) (x' : StartUp) (h : x.step 2 o = .ok x') :
      Step [] x o x' := h
  have hr : Trace (Step []) (start []) _ _ :=
    .snoc (.snoc (.snoc (.snoc (.snoc (.snoc (.snoc (.snoc (.snoc .nil
      (hs _ (.reqctsk 1) _ rfl)) (hs _ (.reqctsk 2) _ rfl)) (hs _ (.next 0) _ rfl))
      (hs _ (.next 1) _ rfl)) (hs _ (.next 0) _ rfl)) (hs _ (.next 1) _ rfl))
      (hs _ (.next 0) _ rfl)) (hs _ (.reqctsk 7) _ rfl)) (hs _ (.next 2) _ rfl)
  refine ⟨_, _, hr, rfl, (startUp_of_run hr).mpr ?_, rfl⟩
  simp only [throughout_snoc]
  refine ⟨⟨⟨⟨⟨⟨⟨⟨⟨throughout_nil, ?_⟩, ?_⟩, ?_⟩, ?_⟩, ?_⟩, ?_⟩, ?_⟩, ?_⟩, ?_⟩ <;>
    rintro ⟨k, ho, hk, -, hst⟩ <;> cases ho
  all_goals first | exact absurd hk (by decide) | cases hst

/-- Without any task in the table: the root task creates a task while the two system tasks come
to the barrier. The new task takes the place of a system task, which waits for ever. -/
theorem startUp_strands_thread : ∃ tr x, Trace (Step []) (start []) tr x ∧
    tr.map Prod.snd = [.reqctsk 1, .reqctsk 2, .reqctsk 7, .next 0, .next 1, .next 2, .next 2,
      .next 0, .next 0, .next 1] ∧
    x.Waits 2 ∧ x.trips = 1 ∧ x.rqstarting = false ∧ x.line 1 = .waiting := by
  obtain ⟨tr, x, hr, hos, hp⟩ := Trace.exists_of_foldlM (f := step 2) (s := start [])
    (l := [.reqctsk 1, .reqctsk 2, .reqctsk 7, .next 0, .next 1, .next 2, .next 2, .next 0,
      .next 0, .next 1])
    (p := fun x ↦ x.line 2 = .released ∧ x.trips = 1 ∧ x.rqstarting = false ∧
      x.line 1 = .waiting)
    (fun x o x' h ↦ (h : Step [] x o x')) (by decide)
  obtain ⟨h2, ht, hf, h1⟩ := of_decide_eq_true hp
  exact ⟨tr, x, hr, hos, .inr (.inr (.inl h2)), ht, hf, h1⟩

end StartUp

end YRmx
