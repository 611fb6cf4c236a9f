import YRmx.Yalrt.Runs

/-!
# Which list a task stands in

Library `YRmx`. Interrupts set a bit of the status byte while a task is runnable or suspended.
`enterlist` takes any bit for the suspended one, so that `reqresm` puts a task that was
preempted when it was suspended back to the suspend list.
-/

namespace YRmx

open Transition Intrusive Priority

variable {s s' s₀ : Yalrt} {xs : List TaskId} {t : TaskId} {o : YalrtOp} {c : Classes}
  {tr : List (Yalrt × YalrtOp)}

/-- A suspended task stays suspended until it is resumed. -/
theorem Classes.suspended_move (h : t ∈ c.suspended) (ho : o ≠ .reqresm t) :
    t ∈ (c.move s o).suspended := by
  cases o with
  | reqsend _ _ | deliver => exact (comesAt_subset c s _).2 h
  | reqwait e d =>
    rw [Classes.move]
    split <;> exact h
  | reqsusp u =>
    rw [Classes.move]
    split
    · exact List.mem_append_left _ h
    · exact h
  | reqresm u =>
    have hu : t ≠ u := by
      rintro rfl
      exact ho rfl
    rw [Classes.move]
    split
    · exact (List.mem_erase_of_ne hu).mpr h
    · exact h
  | expire =>
    rw [Classes.move]
    split
    · exact (comes_subset c s _).2 h
    · exact h
  | enterRegion | reqacpt _ | expired | exitRegion | pop | fetch | drained | close | reqisnd _
  | reqssnd _ | timer | irq _ => exact h

namespace Yalrt

/-- The task is on the ready list. -/
def Runnable (s : Yalrt) (t : TaskId) : Prop := ∃ R, s.Lists s.ready R ∧ t ∈ R

/-- The task was runnable when it was suspended, and has not been resumed since. -/
def Paused (t : TaskId) (tr : List (Yalrt × YalrtOp)) : Prop :=
  Since (fun x ↦ x.2 = .reqsusp t ∧ x.1.Runnable t) (fun x ↦ x.2 ≠ .reqresm t) tr

/-- The ready list holds the runnable tasks, sorted by priority and in order of arrival among
equals; the suspend list holds the suspended ones; and the suspended bits agree with it. -/
structure Sorts (s : Yalrt) (c : Classes) : Prop where
  ready : ∃ R, s.Lists s.ready R ∧ Serves s.key c.came R
  suspend : s.Suspends c.suspended
  runs : ∀ t ∈ c.came, s.isSuspended t = false
  rests : ∀ t ∈ c.suspended, s.isSuspended t = true

/-- If the last step has resumed a task that was runnable when it was suspended, it is on the
ready list and not on the suspend list. -/
def Resumes (tr : List (Yalrt × YalrtOp)) (s : Yalrt) : Prop :=
  ∀ a m t, tr = a ++ [(m, .reqresm t)] → Paused t a →
    s.Runnable t ∧ ∀ S, s.Lists s.headPtr S → t ∉ S

/-- The lists agree with the steps, and a task that was runnable when it was suspended is still
suspended. -/
structure Pauses (xs : List TaskId) (tr : List (Yalrt × YalrtOp)) (s : Yalrt) : Prop where
  kept : ∃ R Q D, Kept s (Classes.after ⟨xs, []⟩ tr) R Q D
  paused : ∀ t, Paused t tr → t = idleTask ∨ t ∈ (Classes.after ⟨xs, []⟩ tr).suspended
  resumes : Resumes tr s

variable {R : List TaskId} {Q : ExchId → List TaskId} {D : List (TaskId × Nat)}

/-- What the lists are when they agree with the steps. -/
theorem Kept.sorts (h : Kept s c R Q D) : s.Sorts c where
  ready := ⟨R, h.lists.ready, h.serves⟩
  suspend := h.lists.suspend
  runs _ ht := h.lists.isSuspended_ready (h.serves.mem_iff.mpr ht)
  rests _ ht := h.lists.isSuspended_suspend ht

/-- The task of an entry that came is on the ready list only. -/
theorem Kept.runnable (h : Kept s c R Q D) (ht : t ∈ c.came) :
    s.Runnable t ∧ ∀ S, s.Lists s.headPtr S → t ∉ S := by
  have hR : t ∈ R := h.serves.mem_iff.mpr ht
  refine ⟨⟨R, h.lists.ready, hR⟩, fun S hS ↦ ?_⟩
  rw [hS.unique h.lists.suspend.lists]
  exact h.lists.ready_suspend t hR

/-- A runnable task came and has not left. -/
theorem Kept.came_of_runnable (h : Kept s c R Q D) (ht : s.Runnable t) : t ∈ c.came := by
  obtain ⟨R', hR', ht⟩ := ht
  rw [hR'.unique h.lists.ready] at ht
  exact h.serves.mem_iff.mp ht

/-- One more step. -/
theorem Pauses.snoc (h : Pauses xs tr s) (hi : s.IdleLast) (hn : ¬ s.Slips o)
    (hs : Step s o s') : Pauses xs (tr ++ [(s, o)]) s' := by
  obtain ⟨R, Q, D, hk⟩ := h.kept
  obtain ⟨R', Q', D', hk'⟩ := hk.step (hk.ready_ne_nil hi) hn hs
  refine ⟨⟨R', Q', D', by rwa [Classes.after_snoc]⟩, fun t ht ↦ ?_, fun a m t ha ht ↦ ?_⟩
  · rw [Classes.after_snoc]
    rcases since_snoc.mp ht with ⟨ho, hr⟩ | ⟨ht, ho⟩
    · obtain rfl : o = .reqsusp t := ho
      apply or_iff_not_imp_left.mpr
      intro hne
      rw [Classes.move, if_pos ⟨hne, hk.came_of_runnable hr⟩]
      exact List.mem_append_right _ (List.mem_singleton_self t)
    · exact (h.paused t ht).imp_right fun hm ↦ Classes.suspended_move hm ho
  · obtain ⟨rfl, hx⟩ := List.append_inj' ha rfl
    obtain ⟨rfl, rfl⟩ := Prod.mk.inj (List.singleton_inj.mp hx)
    apply hk'.runnable
    by_cases hm : t ∈ (Classes.after ⟨xs, []⟩ tr).suspended
    · rw [Classes.move, if_pos hm]
      exact List.mem_append_right _ (List.mem_singleton_self t)
    · -- `IdleTask` is never suspended
      obtain rfl := (h.paused t ht).resolve_right hm
      rw [Classes.move, if_neg hm]
      obtain ⟨l, hl⟩ := hi
      exact hk.came_of_runnable ⟨_, hl, by simp⟩

/-- The ready list is sorted, each task stands in the list that its suspended bit says, and
`reqresm` makes a task runnable again, in every run in which no step comes to a test that goes
wrong. -/
theorem preemption_of_run (h0 : Started s₀ xs) (hr : Trace Step s₀ tr s)
    (hi : Throughout (fun _ s _ ↦ s.IdleLast) tr)
    (hc : Throughout (fun _ s o ↦ ¬ s.Slips o) tr) :
    Always (fun tr s ↦ s.Sorts (Classes.after ⟨xs, []⟩ tr) ∧ Resumes tr s) tr s := by
  refine (hr.always (J := Pauses xs) (C := fun _ s o ↦ s.IdleLast ∧ ¬ s.Slips o)
    ⟨⟨_, _, _, h0.kept⟩, fun t ht ↦ absurd ht not_since_nil, fun a m t ha ↦ by simp at ha⟩
    (fun hJ hc hs ↦ hJ.snoc hc.1 hc.2 hs) fun a x b hx ↦ ⟨hi a x b hx, hc a x b hx⟩).mono ?_
  rintro tr s ⟨⟨R, Q, D, hk⟩, -, hres⟩
  exact ⟨hk.sorts, hres⟩

/-! ### Runs on fixed inputs -/

/-- The tasks of a list. -/
def collect : Nat → Sched → ThreadPtr → Option (List TaskId)
  | _, _, .null => some []
  | n + 1, s, .task t => (collect n s (s.thread (.task t))).map (t :: ·)
  | _, _, _ => none

/-- The tasks that were collected are those of the list. -/
theorem lists_of_collect {n : Nat} {c : Sched} {p : ThreadPtr} (h : collect n c p = some xs) :
    c.Lists p xs := by
  induction n generalizing p xs with
  | zero =>
    cases p with
    | null =>
      obtain rfl := Option.some.inj h
      exact Headed.nil rfl
    | task _ | exch _ | suspendListRoot => cases h
  | succ n ih =>
    cases p with
    | null =>
      obtain rfl := Option.some.inj h
      exact Headed.nil rfl
    | task t =>
      obtain ⟨ys, hy, rfl⟩ := Option.map_eq_some_iff.mp h
      exact Headed.of_link (ih hy) (by simp)
    | exch _ | suspendListRoot => cases h

/-- `IdleTask` is found at the end of the ready list. -/
def idleLast (s : Yalrt) : Bool :=
  (collect 9 s.toSched s.ready).any (·.getLast? == some idleTask)

/-- No test goes wrong: a task is resumed only if it is the only suspended one and has no other
bit, and no message is sent. -/
def passes (s : Yalrt) : YalrtOp → Bool
  | .reqresm t => (collect 9 s.toSched s.headPtr).any
      (· == [t]) && s.status t &&& ~~~suspended == 0
  | .reqsend _ _ => false
  | _ => true

/-- What is found is so. -/
theorem idleLast_iff (h : s.idleLast = true) : s.IdleLast := by
  obtain ⟨xs, hx, hl⟩ := (Option.any_eq_true ..).mp h
  obtain ⟨l, rfl⟩ := List.getLast?_eq_some_iff.mp (beq_iff_eq.mp hl)
  exact ⟨l, lists_of_collect hx⟩

/-- What passes does not go wrong. -/
theorem not_slips_of_passes (h : s.passes o = true) : ¬ s.Slips o := by
  cases o with
  | reqresm t =>
    obtain ⟨hc, h0⟩ := Bool.and_eq_true_iff.mp h
    obtain ⟨xs, hx, he⟩ := (Option.any_eq_true ..).mp hc
    obtain rfl := beq_iff_eq.mp he
    rintro ⟨ys, hy, -, hs | ⟨l, hl, hx'⟩⟩
    · exact hs (beq_iff_eq.mp h0)
    · rw [hy.unique (lists_of_collect hx)] at hx'
      exact hl (List.append_inj' hx' rfl).1.symm
  | reqsend e m => cases h
  | _ => exact id

/-- Two tasks above `IdleTask`, and no message. -/
def twoTasks : Yalrt where
  ready := .task 6
  headPtr := .null
  tailPtr := .suspendListRoot
  thread
    | .task 6 => .task 5
    | .task 5 => .task idleTask
    | _ => .null
  status _ := 0
  priority t := if t = idleTask then 255 else if t = 5 then 20 else 10
  taskTail := .exch
  exchange _ := .null
  next p := if p = .delayHead then .delayTail else .null
  prev p := if p = .delayTail then .delayHead else .null
  delay p := if p = .delayTail then 0xFFFF else 0
  rqactv := 6
  word0
    | .msg m => .msg m
    | _ => .null
  messageTail := .exch
  message _ := .null
  length _ := intExchangeLength
  type _ := intType
  qint _ := 0
  isndQueue _ := 0
  queueIndex := 0
  slot := 0
  qIntMsg := 0
  criticalRegionFlag := 0
  line := .user
  irq := []

/-- The tasks are created and none has run. -/
theorem twoTasks_started : Started twoTasks [6, 5, idleTask] where
  ready := lists_of_collect (n := 9) (by decide)
  sorted := by decide
  active := rfl
  headPtr := rfl
  queues _ := ⟨rfl, rfl⟩
  delays := ⟨List.isChain_pair.mpr ⟨rfl, rfl⟩, trivial, rfl, rfl⟩
  status _ := rfl
  line := rfl
  criticalRegionFlag := rfl
  irq := rfl

/-- The higher task waits for an interrupt, which comes while the lower one runs. -/
def preempt : List YalrtOp := [.enterRegion, .reqwait 9 0, .exitRegion, .drained, .close,
  .reqisnd 9, .irq 0, .irq 0, .pop, .fetch, .deliver, .drained, .close]

/-- A task is suspended and resumed by one that was not interrupted. -/
theorem preemption_of_run_first : ∃ tr s, Trace Step twoTasks tr s ∧
    tr.map Prod.snd = preempt ++ [.enterRegion, .reqwait 9 0, .exitRegion, .drained, .close,
      .enterRegion, .reqsusp 5, .exitRegion, .drained, .close, .reqisnd 9, .irq 0, .irq 0, .pop,
      .fetch, .deliver, .drained, .close, .enterRegion, .reqresm 5] ∧
    Always (fun tr s ↦ s.Sorts (Classes.after ⟨[6, 5, idleTask], []⟩ tr) ∧ Resumes tr s) tr s := by
  obtain ⟨tr, s, hr, ho, hc, -⟩ := Trace.exists_of_checked (s := twoTasks) (f := step 9)
    (r := .blocked) (q := fun s o ↦ s.idleLast && s.passes o) (p := fun _ ↦ true)
    (Q := fun s o ↦ s.IdleLast ∧ ¬ s.Slips o)
    (l := preempt ++ [YalrtOp.enterRegion, .reqwait 9 0, .exitRegion, .drained, .close,
      .enterRegion, .reqsusp 5, .exitRegion, .drained, .close, .reqisnd 9, .irq 0, .irq 0, .pop,
      .fetch, .deliver, .drained, .close, .enterRegion, .reqresm 5])
    (fun s o s' h ↦ (⟨9, h⟩ : Step s o s'))
    (fun s o h ↦ (Bool.and_eq_true_iff.mp h).imp idleLast_iff not_slips_of_passes) (by decide)
  exact ⟨tr, s, hr, ho, preemption_of_run twoTasks_started hr (fun a x b hx ↦ (hc a x b hx).1)
    fun a x b hx ↦ (hc a x b hx).2⟩

/-- A task that was preempted is suspended, and resumed to the suspend list. -/
theorem preemption_loses_task : ∃ tr s, Started twoTasks [6, 5, idleTask] ∧
    Trace Step twoTasks tr s ∧
    tr.map Prod.snd = preempt ++ [.enterRegion, .reqsusp 5, .exitRegion, .drained, .close,
      .enterRegion, .reqresm 5] ∧
    Throughout (fun _ s _ ↦ s.IdleLast) tr ∧ s.Lists s.ready [6, idleTask] ∧
    s.Lists s.headPtr [5] ∧ s.isSuspended 5 = false ∧
    ¬ Always (fun tr s ↦ s.Sorts (Classes.after ⟨[6, 5, idleTask], []⟩ tr) ∧ Resumes tr s)
      tr s := by
  obtain ⟨tr, s, hr, ho, hi, hp⟩ := Trace.exists_of_checked (s := twoTasks) (f := step 9)
    (r := .blocked) (q := fun s _ ↦ s.idleLast) (Q := fun s _ ↦ s.IdleLast)
    (p := fun s ↦ decide (collect 9 s.toSched s.ready = some [6, idleTask] ∧
      collect 9 s.toSched s.headPtr = some [5] ∧ s.isSuspended 5 = false))
    (l := preempt ++ [YalrtOp.enterRegion, .reqsusp 5, .exitRegion, .drained, .close, .enterRegion,
      .reqresm 5])
    (fun s o s' h ↦ (⟨9, h⟩ : Step s o s')) (fun _ _ ↦ idleLast_iff) (by decide)
  obtain ⟨hR, hS, h5⟩ := of_decide_eq_true hp
  refine ⟨tr, s, twoTasks_started, hr, ho, hi, lists_of_collect hR, lists_of_collect hS, h5,
    fun hP ↦ ?_⟩
  have hsorts := hP.last.1
  have hl := hsorts.suspend.lists.unique (lists_of_collect hS)
  have hb := hsorts.rests 5 (by simp [hl])
  exact absurd (hb.symm.trans h5) (by simp)

end Yalrt

end YRmx
