import YRmx.Core.Calls
import YRmx.Transition.Always

/-!
# Freezing and baking line by line

Library `YRmx`. The tasks that find the system frozen wait for `unfreeze` under `fmutex`
(`ycore.c:970–978,1021–1029`), and `reqbake` clears `rqfrozen` and broadcasts without holding
it. A broadcast that comes between the test of `rqfrozen` and `pthread_cond_wait` of a task
does not wake that task.
-/

namespace YRmx

open Transition

/-- The next line of a thread; the first test of a call belongs to the call. -/
inductive FreezeLine where
  /-- outside of these calls -/
  | out
  /-- `rqfrozen = true` of `reqfreeze` -/
  | freezeSet
  /-- `pthread_mutex_lock(&fmutex)` -/
  | lock
  /-- `while (rqfrozen)` -/
  | test
  /-- `pthread_cond_wait(&unfreeze,&fmutex)` -/
  | condWait
  /-- in `pthread_cond_wait`, without a wake-up -/
  | asleep
  /-- in `pthread_cond_wait`, woken up -/
  | woken
  /-- `pthread_mutex_unlock(&fmutex)` -/
  | unlock
  /-- `rqfrozen = false` of `reqbake` -/
  | bakeClear
  /-- `pthread_cond_broadcast(&unfreeze)` -/
  | bakeBroadcast
  deriving DecidableEq, Repr

/-- `rqfrozen`, the owner of `fmutex`, and the threads. -/
structure Freeze where
  rqfrozen : Bool
  fmutex : Option TaskId
  line : TaskId → FreezeLine

/-- What a thread does. -/
inductive FreezeOp where
  /-- `reqfreeze` with its first test, `ycore.c:965` -/
  | reqfreeze (t : TaskId)
  /-- the test of `exit_region`, `ycore.c:1021` -/
  | exitRegion (t : TaskId)
  /-- `reqbake` with its test, `ycore.c:991` -/
  | reqbake (t : TaskId)
  /-- the next line of a call -/
  | next (t : TaskId)
  /-- `pthread_cond_wait` may return without a broadcast -/
  | spurious (t : TaskId)
  deriving DecidableEq, Repr

namespace Freeze

variable {x x' : Freeze} {o : FreezeOp} {t u : TaskId} {tr : List (Freeze × FreezeOp)}

/-- A thread comes to a line. -/
def goto (x : Freeze) (t : TaskId) (l : FreezeLine) : Freeze :=
  { x with line := Function.update x.line t l }

/-- `pthread_cond_broadcast(&unfreeze)`. -/
def broadcast (x : Freeze) : Freeze :=
  { x with line := fun u ↦ if x.line u = .asleep then .woken else x.line u }

/-- The next line of a thread. -/
def lineStep (x : Freeze) (t : TaskId) : FreezeLine → Exec Freeze
  | .out => .error .blocked
  | .freezeSet =>
    .ok ({ x with rqfrozen := true }.goto t (if t ≠ rootTaskTd then .lock else .out))
  | .lock => do
    require (x.fmutex = none)
    .ok ({ x with fmutex := some t }.goto t .test)
  | .test => .ok (x.goto t (if x.rqfrozen then .condWait else .unlock))
  | .condWait => .ok ({ x with fmutex := none }.goto t .asleep)
  | .asleep => .error .blocked
  | .woken => do
    require (x.fmutex = none)
    .ok ({ x with fmutex := some t }.goto t .test)
  | .unlock => .ok ({ x with fmutex := none }.goto t .out)
  | .bakeClear => .ok ({ x with rqfrozen := false }.goto t .bakeBroadcast)
  | .bakeBroadcast => .ok (x.broadcast.goto t .out)

/-- One step of one thread. -/
def step (x : Freeze) : FreezeOp → Exec Freeze
  | .reqfreeze t => do
    require (x.line t = .out)
    .ok (x.goto t (if x.rqfrozen then .out else .freezeSet))
  | .exitRegion t => do
    require (x.line t = .out)
    .ok (x.goto t (if x.rqfrozen then .lock else .out))
  | .reqbake t => do
    require (x.line t = .out)
    .ok (x.goto t (if x.rqfrozen then .bakeClear else .out))
  | .next t => x.lineStep t (x.line t)
  | .spurious t => do
    require (x.line t = .asleep)
    .ok (x.goto t .woken)

/-- The steps of the threads. -/
def Step (x : Freeze) (o : FreezeOp) (x' : Freeze) : Prop := x.step o = .ok x'

/-- Before the first call. -/
def start : Freeze where
  rqfrozen := false
  fmutex := none
  line _ := .out

/-- The thread is in a `reqbake` that found the system frozen. -/
def Bakes (x : Freeze) (t : TaskId) : Prop := x.line t = .bakeClear ∨ x.line t = .bakeBroadcast

/-- A task sleeps without a wake-up while the system is not frozen and nobody is baking it. -/
def Stranded (x : Freeze) : Prop :=
  x.rqfrozen = false ∧ (∀ t, ¬ x.Bakes t) ∧ ∃ t, x.line t = .asleep

/-- The broadcast comes after the test of `rqfrozen` of some task and before its
`pthread_cond_wait`, with the system not frozen again and no other `reqbake` under way. -/
def Misses (x : Freeze) (o : FreezeOp) : Prop :=
  ∃ b, o = .next b ∧ x.line b = .bakeBroadcast ∧ x.rqfrozen = false ∧
    (∀ t ≠ b, ¬ x.Bakes t) ∧ ∃ t, x.line t = .condWait

/-- The thread has found `rqfrozen` set and sleeps, or is about to. -/
def Waits (x : Freeze) (t : TaskId) : Prop := x.line t = .condWait ∨ x.line t = .asleep

/-- Nobody waits, unless `rqfrozen` is set still or a broadcast is to come. -/
def Kept (x : Freeze) : Prop := ∀ t, x.Waits t → x.rqfrozen = true ∨ ∃ b, x.Bakes b

/-! ### One step -/

/-- The line of a thread after a thread went on. -/
theorem line_goto (x : Freeze) (t u : TaskId) (l : FreezeLine) :
    (x.goto t l).line u = if u = t then l else x.line u := by
  simp only [goto, Function.update_apply]

/-- A broadcast is seen by the sleeping threads only. -/
theorem line_broadcast (x : Freeze) (t : TaskId) :
    x.broadcast.line t = if x.line t = .asleep then .woken else x.line t := rfl

/-- While the system is frozen, everybody may wait. -/
theorem kept_of_frozen (h : x.rqfrozen = true) : x.Kept := fun _ _ ↦ .inl h

/-- While a broadcast is to come, everybody may wait. -/
theorem kept_of_bakes (h : x.Bakes t) : x.Kept := fun _ _ ↦ .inr ⟨t, h⟩

/-- A broadcast lets no thread into `reqbake`. -/
theorem bakes_broadcast : x.broadcast.Bakes t ↔ x.Bakes t := by
  simp only [Bakes, line_broadcast]
  cases x.line t <;> simp

/-- A thread that goes on outside of `reqbake` is the only one that may leave it. -/
theorem bakes_goto {l : FreezeLine} (hl : l ≠ .bakeClear ∧ l ≠ .bakeBroadcast) :
    (x.goto t l).Bakes u ↔ u ≠ t ∧ x.Bakes u := by
  simp only [Bakes, line_goto]
  by_cases he : u = t <;> simp [he, hl]

/-- A thread outside of `reqbake` may go on to any line but those on which it waits. -/
theorem Kept.goto {l : FreezeLine} {m : Option TaskId} (h : x.Kept) (ht : ¬ x.Bakes t)
    (hl : l = .condWait ∨ l = .asleep → x.Waits t) :
    Kept ({ x with fmutex := m }.goto t l) := by
  intro u hu
  have hw : x.Waits u := by
    simp only [Waits, line_goto] at hu
    by_cases he : u = t
    · rw [if_pos he] at hu
      exact he ▸ hl hu
    · rwa [if_neg he] at hu
  refine (h u hw).imp_right fun ⟨b, hb⟩ ↦ ⟨b, ?_⟩
  have hbt : b ≠ t := fun he ↦ ht (he ▸ hb)
  simpa only [Bakes, line_goto, if_neg hbt] using hb

/-- A broadcast that misses nobody leaves nobody behind. -/
theorem Kept.broadcast (hm : ¬ x.Misses (.next t)) (hl : x.line t = .bakeBroadcast) :
    Kept (x.broadcast.goto t .out) := by
  intro u hu
  by_contra hn
  rw [not_or, not_exists] at hn
  have hf : x.rqfrozen ≠ true := hn.1
  refine hm ⟨t, rfl, hl, by simpa using hf, fun b hb hbk ↦ hn.2 b ?_, u, ?_⟩
  · exact (bakes_goto (by decide)).mpr ⟨hb, bakes_broadcast.mpr hbk⟩
  · simp only [Waits, line_goto, line_broadcast] at hu
    grind

/-- A step that misses nobody leaves nobody behind. -/
theorem Kept.step (h : x.Kept) (hm : ¬ x.Misses o) (hs : x.Step o x') : x'.Kept := by
  unfold Step at hs
  cases o with
  | reqfreeze t =>
    obtain ⟨ho, hs⟩ := require_bind_eq_ok.mp hs
    cases hs
    exact h.goto (by simp [Bakes, ho]) (by split <;> simp)
  | exitRegion t =>
    obtain ⟨ho, hs⟩ := require_bind_eq_ok.mp hs
    cases hs
    exact h.goto (by simp [Bakes, ho]) (by split <;> simp)
  | reqbake t =>
    obtain ⟨ho, hs⟩ := require_bind_eq_ok.mp hs
    cases hs
    cases hf : x.rqfrozen with
    | true => exact kept_of_frozen hf
    | false => exact h.goto (by simp [Bakes, ho]) (by simp)
  | next t =>
    simp only [Freeze.step] at hs
    cases hl : x.line t <;> rw [hl] at hs <;> simp only [lineStep] at hs
    case out => cases hs
    case freezeSet =>
      cases hs
      exact kept_of_frozen rfl
    case lock =>
      obtain ⟨-, hs⟩ := require_bind_eq_ok.mp hs
      cases hs
      exact h.goto (by simp [Bakes, hl]) (by simp)
    case test =>
      cases hs
      cases hf : x.rqfrozen with
      | true => exact kept_of_frozen hf
      | false => exact h.goto (by simp [Bakes, hl]) (by simp)
    case condWait =>
      cases hs
      exact h.goto (by simp [Bakes, hl]) fun _ ↦ .inl hl
    case asleep => cases hs
    case woken =>
      obtain ⟨-, hs⟩ := require_bind_eq_ok.mp hs
      cases hs
      exact h.goto (by simp [Bakes, hl]) (by simp)
    case unlock =>
      cases hs
      exact h.goto (by simp [Bakes, hl]) (by simp)
    case bakeClear =>
      cases hs
      exact kept_of_bakes (t := t) (.inr (by simp [line_goto]))
    case bakeBroadcast =>
      cases hs
      exact Kept.broadcast hm hl
  | spurious t =>
    obtain ⟨ha, hs⟩ := require_bind_eq_ok.mp hs
    cases hs
    exact h.goto (by simp [Bakes, ha]) (by simp)

/-- A task that was missed goes to sleep in the next step, and nothing will wake it. -/
theorem Misses.stranded (hm : x.Misses o) (hs : x.Step o x') :
    ∃ o' x'', x'.Step o' x'' ∧ x''.Stranded := by
  obtain ⟨b, rfl, hb, hf, ho, t, ht⟩ := hm
  have htb : t ≠ b := fun he ↦ by simp [he, hb] at ht
  simp only [Step, Freeze.step, hb, lineStep] at hs
  cases hs
  have hl : (x.broadcast.goto b .out).line t = .condWait := by
    rw [line_goto, if_neg htb, line_broadcast, ht, if_neg (by decide)]
  refine ⟨.next t, { x.broadcast.goto b .out with fmutex := none }.goto t .asleep, ?_, hf,
    fun u hu ↦ ?_, t, by rw [line_goto, if_pos rfl]⟩
  · rw [Step, Freeze.step, hl]
    rfl
  · have hu' : (x.broadcast.goto b .out).Bakes u := ((bakes_goto (by decide)).mp hu).2
    obtain ⟨hub, hu'⟩ := (bakes_goto (by decide)).mp hu'
    exact ho u hub (bakes_broadcast.mp hu')

/-! ### The lines together -/

/-- The thread goes on by itself. -/
def Goes (t : TaskId) (x x' : Freeze) : Prop :=
  ∃ o, (o = .reqfreeze t ∨ o = .reqbake t ∨ o = .next t) ∧ x.Step o x'

/-- A `reqbake` that is not disturbed does what the nucleus does in one step, and wakes up all
sleeping tasks if the system was frozen. -/
theorem reqbake_lines {c : Control} (hc : c.rqfrozen = x.rqfrozen) (ho : x.line t = .out) :
    ∃ x', Relation.ReflTransGen (Goes t) x x' ∧ c.reqbake.rqfrozen = x'.rqfrozen ∧
      x'.line t = .out ∧ (x.rqfrozen = true → ∀ u, x'.line u ≠ .asleep) := by
  cases hf : x.rqfrozen with
  | false =>
    rw [hf] at hc
    have h₁ : x.Step (.reqbake t) (x.goto t .out) := by
      simp [Step, Freeze.step, require, ho, hf]
    refine ⟨_, .single ⟨_, .inr (.inl rfl), h₁⟩, ?_, by rw [line_goto, if_pos rfl], by simp⟩
    simp [Control.reqbake, hc, Freeze.goto, hf]
  | true =>
    rw [hf] at hc
    have h₁ : x.Step (.reqbake t) (x.goto t .bakeClear) := by
      simp [Step, Freeze.step, require, ho, hf]
    let y := { x.goto t .bakeClear with rqfrozen := false }.goto t .bakeBroadcast
    have h₂ : (x.goto t .bakeClear).Step (.next t) y := by
      simp only [Step, Freeze.step, line_goto, if_true, lineStep, y]
    have h₃ : y.Step (.next t) (y.broadcast.goto t .out) := by
      simp only [Step, Freeze.step, y, line_goto, if_true, lineStep]
    refine ⟨_, .head ⟨_, .inr (.inl rfl), h₁⟩ (.head ⟨_, .inr (.inr rfl), h₂⟩
      (.single ⟨_, .inr (.inr rfl), h₃⟩)), ?_, by rw [line_goto, if_pos rfl], fun _ u ↦ ?_⟩
    · rw [Control.reqbake, if_pos hc]
      rfl
    · rw [line_goto, line_broadcast]
      split
      · simp
      · split <;> simp_all

/-- A `reqfreeze` that is not disturbed does what the nucleus does in one step, and comes to
the lock where the nucleus waits. -/
theorem reqfreeze_lines {c : Control} {k : Call} (hc : c.rqfrozen = x.rqfrozen)
    (ho : x.line t = .out) :
    ∃ x', Relation.ReflTransGen (Goes t) x x' ∧ (c.reqfreeze t k).rqfrozen = x'.rqfrozen ∧
      (x'.line t = .lock ∧ (c.reqfreeze t k).pc t = .freeze k ∨
        x'.line t = .out ∧ (c.reqfreeze t k).pc t = k.resume) := by
  cases hf : x.rqfrozen with
  | true =>
    rw [hf] at hc
    have h₁ : x.Step (.reqfreeze t) (x.goto t .out) := by
      simp [Step, Freeze.step, require, ho, hf]
    refine ⟨_, .single ⟨_, .inl rfl, h₁⟩, ?_, .inr ⟨by rw [line_goto, if_pos rfl], ?_⟩⟩
    · simp [Control.reqfreeze, hc, Freeze.goto, hf, Control.goto]
    · simp [Control.reqfreeze, hc]
  | false =>
    rw [hf] at hc
    have h₁ : x.Step (.reqfreeze t) (x.goto t .freezeSet) := by
      simp [Step, Freeze.step, require, ho, hf]
    have h₂ : (x.goto t .freezeSet).Step (.next t)
        ({ x.goto t .freezeSet with rqfrozen := true }.goto t
          (if t ≠ rootTaskTd then .lock else .out)) := by
      simp only [Step, Freeze.step, line_goto, if_true, lineStep]
    refine ⟨_, .head ⟨_, .inl rfl, h₁⟩ (.single ⟨_, .inr (.inr rfl), h₂⟩), ?_, ?_⟩
    · by_cases ht : t = rootTaskTd <;> simp [Control.reqfreeze, hc, Freeze.goto, ht, Control.goto]
    · by_cases ht : t = rootTaskTd
      · refine .inr ⟨by rw [line_goto, if_pos rfl, if_neg (by simpa using ht)], ?_⟩
        simp [Control.reqfreeze, hc, ht]
      · refine .inl ⟨by rw [line_goto, if_pos rfl, if_pos ht], ?_⟩
        simp [Control.reqfreeze, hc, ht]

/-! ### Whole runs -/

/-- In every run whose broadcasts miss nobody, no task is ever left asleep in a system that is
not frozen; and a broadcast that misses a task leaves it so after one more step. -/
theorem baking_of_run (hr : Trace Step start tr x) :
    (Throughout (fun _ x o ↦ ¬ x.Misses o) tr → Always (fun _ x ↦ ¬ x.Stranded) tr x) ∧
      ∀ o x', x.Misses o → x.Step o x' → ∃ o' x'', x'.Step o' x'' ∧ x''.Stranded := by
  refine ⟨fun hm ↦ ?_, fun _ _ hm hs ↦ hm.stranded hs⟩
  have hk : Always (fun _ x ↦ x.Kept) tr x :=
    hr.always (C := fun _ x o ↦ ¬ x.Misses o) (fun t ht ↦ by simp [Waits, start] at ht)
      (fun h hm hs ↦ h.step hm hs) hm
  apply hk.mono
  intro _ x h
  rintro ⟨hf, hb, t, ht⟩
  rcases h t (.inr ht) with hf' | ⟨b, hb'⟩
  · simp [hf] at hf'
  · exact hb b hb'

/-- The root task freezes the system, task 5 sleeps in `exit_region`, and the root task bakes
the system again. -/
theorem baking_of_run_asleep : ∃ tr x, Trace Step start tr x ∧
    tr.map Prod.snd = [.reqfreeze 0, .next 0, .exitRegion 5, .next 5, .next 5, .next 5,
      .reqbake 0, .next 0, .next 0] ∧
    Always (fun _ x ↦ ¬ x.Stranded) tr x ∧ x.line 5 = .woken := by
  have hs (x : Freeze) (o : FreezeOp) (x' : Freeze) (h : x.step o = .ok x') : Step x o x' := h
  have hr : Trace Step start _ _ :=
    .snoc (.snoc (.snoc (.snoc (.snoc (.snoc (.snoc (.snoc (.snoc .nil
      (hs _ (.reqfreeze 0) _ rfl)) (hs _ (.next 0) _ rfl)) (hs _ (.exitRegion 5) _ rfl))
      (hs _ (.next 5) _ rfl)) (hs _ (.next 5) _ rfl)) (hs _ (.next 5) _ rfl))
      (hs _ (.reqbake 0) _ rfl)) (hs _ (.next 0) _ rfl)) (hs _ (.next 0) _ rfl)
  refine ⟨_, _, hr, rfl, (baking_of_run hr).1 ?_, rfl⟩
  simp only [throughout_snoc]
  refine ⟨⟨⟨⟨⟨⟨⟨⟨⟨throughout_nil, ?_⟩, ?_⟩, ?_⟩, ?_⟩, ?_⟩, ?_⟩, ?_⟩, ?_⟩, ?_⟩ <;>
    rintro ⟨b, hb, hl, -, -, t, ht⟩ <;> cases hb
  all_goals try cases hl
  by_cases h5 : t = 5
  · subst h5
    cases ht
  · by_cases h0 : t = 0
    · subst h0
      cases ht
    · simp [line_goto, h5, h0, start] at ht

/-- The root task freezes the system, task 5 finds it frozen in `exit_region`, and the root
task bakes it before task 5 sleeps. -/
theorem baking_strands_task : ∃ tr x, Trace Step start tr x ∧
    tr.map Prod.snd = [.reqfreeze 0, .next 0, .exitRegion 5, .next 5, .next 5, .reqbake 0,
      .next 0, .next 0, .next 5] ∧ x.Stranded := by
  have hs (x : Freeze) (o : FreezeOp) (x' : Freeze) (h : x.step o = .ok x') : Step x o x' := h
  refine ⟨[] ++ [_] ++ [_] ++ [_] ++ [_] ++ [_] ++ [_] ++ [_] ++ [_] ++ [_], _,
    .snoc (.snoc (.snoc (.snoc (.snoc (.snoc (.snoc (.snoc (.snoc .nil (hs _ _ _ rfl))
      (hs _ _ _ rfl)) (hs _ _ _ rfl)) (hs _ _ _ rfl)) (hs _ _ _ rfl)) (hs _ _ _ rfl))
      (hs _ _ _ rfl)) (hs _ _ _ rfl)) (hs _ _ _ rfl), rfl, rfl, fun t ht ↦ ?_, 5, rfl⟩
  by_cases h5 : t = 5
  · subst h5
    rcases ht with ht | ht <;> cases ht
  · by_cases h0 : t = 0
    · subst h0
      rcases ht with ht | ht <;> cases ht
    · simp [Bakes, line_goto, line_broadcast, h5, h0, start] at ht

end Freeze

end YRmx
