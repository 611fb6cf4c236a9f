import YRmx.Clock.Timespec
import YRmx.Core.Machine

/-!
# The loop of the timer

Library `YRmx`. `rqtimer` sleeps until `tnext`, which it moves on by `rqtick` at the end of every
pass in which the sleep succeeded (`ycore.c:1242–1305`). Between the sleep and that end stands one
tick of the nucleus, during which other threads go on, and `reqisnd` may hold the timer back.
`timetest` only counts for the debugger and is left out.
-/

namespace YRmx

open Transition Timespec

/-- One millisecond, `ycore.c:163`. -/
def rqtick : Timespec := ⟨0, 1000000⟩

/-- The nucleus and the variables of the timer. -/
structure Timer where
  s : Nucleus
  timeOrigin : Timespec
  tnext : Timespec
  /-- the sleep succeeded, and `tnext` was not moved on yet -/
  awake : Bool

/-- What the timer and the other threads do. -/
inductive TimerOp where
  /-- `clock_nanosleep` returns an error -/
  | interrupted
  /-- `clock_nanosleep` succeeds; up to the end of `reqisnd` -/
  | tick
  /-- `tnext = tsAdd(tnext,rqtick)` -/
  | advance
  /-- a step of the nucleus -/
  | other (o : Op)
  deriving DecidableEq, Repr

namespace Timer

/-- The timer up to its loop, when `clock_gettime` gives `origin`. -/
def start (s : Nucleus) (origin : Timespec) : Timer where
  s := s
  timeOrigin := origin
  tnext := tsAdd origin rqtick
  awake := false

/-- One step. -/
def step (fuel : Nat) (x : Timer) : TimerOp → Exec Timer
  | .interrupted => do
    require (x.awake = false)
    .ok x
  | .tick => do
    require (x.awake = false)
    let s ← YRmx.step fuel x.s .tick
    .ok { x with s := s, awake := true }
  | .advance => do
    require (x.awake = true ∧ x.s.pc rqtimerTd = .user)
    .ok { x with tnext := tsAdd x.tnext rqtick, awake := false }
  | .other o => do
    require (o ≠ .tick)
    let s ← YRmx.step fuel x.s o
    .ok { x with s := s }

/-- A step comes to its end with enough fuel. -/
def Step (x : Timer) (o : TimerOp) (x' : Timer) : Prop := ∃ fuel, x.step fuel o = .ok x'

/-- The passes of the loop in which the sleep succeeded. -/
def passes (tr : List (Timer × TimerOp)) : Nat := tr.countP (·.2 = .advance)

variable {x x' : Timer} {o : TimerOp} {origin : Timespec} {s : Nucleus}
  {tr : List (Timer × TimerOp)} {n : Nat}

/-- The functions on two times give the numbers of nanoseconds that they are to give. -/
structure Exact (a b : Timespec) : Prop where
  add : a.ns + b.ns < nsLimit → (tsAdd a b).Normalised ∧ (tsAdd a b).ns = a.ns + b.ns
  subtract : (tsSubtract a b).Normalised ∧ (tsSubtract a b).ns = max 0 (a.ns - b.ns)
  compare : tsCompare a b = Int.sign (a.ns - b.ns)
  cancel : a.ns + b.ns < nsLimit → tsSubtract (tsAdd a b) b = a

/-- The timer is to wake up after `n` ticks from `TimeOrigin`. -/
structure Due (x : Timer) (origin : Timespec) (n : Nat) : Prop where
  timeOrigin : x.timeOrigin = origin
  normalised : x.tnext.Normalised
  exact : x.tnext.ns = origin.ns + n * rqtick.ns

/-- A tick is normalised. -/
theorem rqtick_normalised : rqtick.Normalised := ⟨by decide, by decide⟩

/-- A tick is a million nanoseconds. -/
theorem rqtick_ns : rqtick.ns = 1000000 := by decide

/-- Adding a tick. -/
theorem tsAdd_rqtick {t : Timespec} (ht : t.Normalised) (h : t.ns = origin.ns + n * rqtick.ns)
    (h0 : 0 ≤ origin.ns) (hfit : origin.ns + (n + 1 : Nat) * rqtick.ns < nsLimit) :
    (tsAdd t rqtick).Normalised ∧
      (tsAdd t rqtick).ns = origin.ns + (n + 1 : Nat) * rqtick.ns := by
  rw [rqtick_ns] at *
  push_cast at hfit ⊢
  have hr := rqtick_ns
  obtain ⟨hn, hs⟩ := tsAdd_spec ht rqtick_normalised (by omega) (by omega) (by omega)
  exact ⟨hn, by omega⟩

/-- A step moves `tnext` on by a tick if it ends a pass, and else leaves it alone. -/
theorem step_cases (h : Step x o x') :
    x'.timeOrigin = x.timeOrigin ∧
      x'.tnext = if o = .advance then tsAdd x.tnext rqtick else x.tnext := by
  obtain ⟨fuel, h⟩ := h
  cases o with
  | interrupted =>
    obtain ⟨-, h⟩ := require_bind_eq_ok.mp h
    cases h
    exact ⟨rfl, rfl⟩
  | tick =>
    obtain ⟨-, h⟩ := require_bind_eq_ok.mp h
    obtain ⟨s, -, h⟩ := Exec.bind_eq_ok.mp h
    cases h
    exact ⟨rfl, rfl⟩
  | advance =>
    obtain ⟨-, h⟩ := require_bind_eq_ok.mp h
    cases h
    refine ⟨rfl, ?_⟩
    rw [if_pos rfl]
  | other o =>
    obtain ⟨-, h⟩ := require_bind_eq_ok.mp h
    obtain ⟨s, -, h⟩ := Exec.bind_eq_ok.mp h
    cases h
    exact ⟨rfl, rfl⟩

/-- The timer starts one tick from `TimeOrigin`. -/
theorem start_due (s : Nucleus) (ho : origin.Normalised) (h0 : 0 ≤ origin.ns)
    (hfit : origin.ns + (1 : Nat) * rqtick.ns < nsLimit) : Due (start s origin) origin 1 := by
  have hz : origin.ns = origin.ns + (0 : Nat) * rqtick.ns := by
    rw [Nat.cast_zero, zero_mul, add_zero]
  obtain ⟨hn, hs⟩ := tsAdd_rqtick (n := 0) ho hz h0 hfit
  rw [zero_add] at hs
  refine ⟨rfl, ?_, ?_⟩
  · dsimp only [start]
    exact hn
  · dsimp only [start]
    exact hs

/-- After any run, `tnext` is one tick later than the completed passes. -/
theorem due_of_run (ho : origin.Normalised) (h0 : 0 ≤ origin.ns)
    (hr : Trace Step (start s origin) tr x)
    (hfit : origin.ns + (passes tr + 1 : Nat) * rqtick.ns < nsLimit) :
    Due x origin (passes tr + 1) := by
  induction hr with
  | nil => exact start_due s ho h0 hfit
  | @snoc tr y o z _ hs ih =>
    have hp : passes (tr ++ [(y, o)]) = passes tr + if o = .advance then 1 else 0 := by
      rw [passes, List.countP_append, List.countP_singleton]
      simp [passes]
    rw [hp] at hfit ⊢
    obtain ⟨horigin, hnext⟩ := step_cases hs
    split at hnext
    · rename_i hadv
      rw [if_pos hadv] at hfit ⊢
      have hd := ih (by rw [rqtick_ns] at *; push_cast at *; omega)
      obtain ⟨hn, hx⟩ := tsAdd_rqtick hd.normalised hd.exact h0 hfit
      rw [← hnext] at hn hx
      exact ⟨horigin.trans hd.timeOrigin, hn, hx⟩
    · rename_i hadv
      rw [if_neg hadv] at hfit ⊢
      have hd := ih hfit
      exact ⟨horigin.trans hd.timeOrigin, hnext ▸ hd.normalised, hnext ▸ hd.exact⟩

/-- The functions on normalised times that are not negative are exact as long as the sum fits,
milliseconds survive as a time, and after any run in which the sleep succeeded `n` times, `tnext`
is `n + 1` ticks from `TimeOrigin`. -/
theorem exact_of_run :
    (∀ a b : Timespec, a.Normalised → b.Normalised → 0 ≤ a.ns → 0 ≤ b.ns → Exact a b) ∧
    (∀ t : UInt32, ts2Ms (ms2Ts t) = t) ∧
    ∀ (s : Nucleus) (origin : Timespec) (tr : List (Timer × TimerOp)) (x : Timer),
      origin.Normalised → 0 ≤ origin.ns → Trace Step (start s origin) tr x →
      origin.ns + (passes tr + 1 : Nat) * rqtick.ns < nsLimit → Due x origin (passes tr + 1) := by
  refine ⟨fun a b ha hb hna hnb ↦ ?_, ts2Ms_ms2Ts, fun s origin tr x ho h0 hr hfit ↦ ?_⟩
  · exact ⟨tsAdd_spec ha hb hna hnb, tsSubtract_spec ha hb hna hnb, tsCompare_eq ha hb,
      tsSubtract_tsAdd ha hb hna hnb⟩
  · exact due_of_run ho h0 hr hfit

/-- Two passes over the end of a second, with an interrupted sleep between them. -/
theorem exact_of_run_carry : ∃ tr x, Trace Step (start boot ⟨5, 998000000⟩) tr x ∧
    tr.map Prod.snd = [.tick, .advance, .interrupted, .tick, .advance] ∧
    Due x ⟨5, 998000000⟩ 3 ∧ Exact ⟨5, 998000000⟩ ⟨0, 2000000⟩ := by
  obtain ⟨tr, x, hr, hos, -⟩ := Trace.exists_of_foldlM (f := step 9)
    (s := start boot ⟨5, 998000000⟩) (l := [.tick, .advance, .interrupted, .tick, .advance])
    (p := fun _ ↦ true) (fun x o x' h ↦ (⟨9, h⟩ : Step x o x')) (by decide +kernel)
  have hp : passes tr = 2 := by
    have hc : passes tr = (tr.map Prod.snd).countP (· = .advance) := by
      rw [passes, List.countP_map]
      rfl
    rw [hc, hos]
    decide
  have hd := exact_of_run.2.2 boot ⟨5, 998000000⟩ tr x ⟨by decide, by decide⟩ (by decide) hr
    (by rw [hp]; decide)
  rw [hp] at hd
  exact ⟨tr, x, hr, hos, hd, exact_of_run.1 _ _ ⟨by decide, by decide⟩ ⟨by decide, by decide⟩
    (by decide) (by decide)⟩

end Timer

end YRmx
