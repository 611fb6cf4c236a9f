import Mathlib.Logic.Relation
import YRmx.Core.Fuel

/-!
# `reqwait` line by line

Library `YRmx`. Two threads in `reqwait` hold the mutexes of their own exchanges only, so each
may come in between any two lines of the other one. The lines of `ycore.c:1150–1192` up to
`sem_wait`; `tail_task` is static and read and written through by both threads.
-/

namespace YRmx

open Transition

/-- A call `reqwait(exch, delay)` of a task. -/
structure Caller where
  task : TaskId
  exch : ExchId
  delay : BitVec 16

/-- The next line of a call. -/
inductive Line where
  /-- `pthread_mutex_lock(&exch->mutex)` -/
  | lock
  /-- `rqactv->exchange = exch` and the test of `message_head` -/
  | enter
  /-- `rqactv->link = NULL` -/
  | clear
  /-- the test of `task_head` -/
  | test
  /-- `exch->task_head = rqactv` -/
  | setHead
  /-- `tail_task = exch->task_tail` -/
  | readTail
  /-- `tail_task->link = rqactv` -/
  | writeLink
  /-- `exch->task_tail = rqactv` -/
  | setTail
  /-- the test of `rqactv->link` -/
  | check
  /-- `ycore.c:1171–1191` under `delay_list_mutex` -/
  | delay
  /-- `pthread_mutex_unlock(&exch->mutex)`, then `sem_wait` -/
  | unlock
  /-- `reqdqmsg` -/
  | fetch
  /-- `pthread_mutex_unlock(&exch->mutex)`, then the end of the call -/
  | release
  | done
  deriving DecidableEq, Repr

/-- One line of a call, and the line after it. -/
def lineStep (fuel : Nat) (s : Nucleus) (c : Caller) : Line → Exec (Nucleus × Line)
  | .lock => do
    require (s.mutex c.exch = false)
    .ok ({ s with mutex := Function.update s.mutex c.exch true }, .enter)
  | .enter =>
    let s := s.ctl (·.setExchange c.task (.exch c.exch))
    .ok (s, if s.messageHead c.exch = .null then .clear else .fetch)
  | .clear => .ok ({ s with word2 := Function.update s.word2 (.task c.task) .null }, .test)
  | .test => .ok (s, if s.taskHead c.exch = .null then .setHead else .readTail)
  | .setHead =>
    .ok ({ s with word2 := Function.update s.word2 (.exch c.exch) (.task c.task) }, .setTail)
  | .readTail => .ok ({ s with tailTask := s.taskTail c.exch }, .writeLink)
  | .writeLink => do
    let tailTask ← deref s.tailTask
    .ok ({ s with word2 := Function.update s.word2 tailTask (.task c.task) }, .setTail)
  | .setTail =>
    .ok ({ s with taskTail := Function.update s.taskTail c.exch (.task c.task) }, .check)
  | .check => if s.link c.task = .task c.task then .error .frozen else .ok (s, .delay)
  | .delay => do
    let s ← startDelay fuel s c.task c.delay
    .ok (s, .unlock)
  | .unlock =>
    let s := { s with mutex := Function.update s.mutex c.exch false }
    .ok (s.ctl (·.goto c.task (.semWait c.exch c.delay)), .done)
  | .fetch => do
    let s ← reqdqmsg s c.exch c.task
    .ok (s, .release)
  | .release =>
    let s := { s with mutex := Function.update s.mutex c.exch false }
    .ok (s.ctl (·.waitDone c.task c.exch c.delay), .done)
  | .done => .error .blocked

/-- Two calls under way. -/
structure Calls where
  s : Nucleus
  line : Bool → Line

variable {c : Bool → Caller} {x x' : Calls} {i : Bool} {s s' : Nucleus} {l : Line}

/-- One of the two threads goes on by one line. -/
def Calls.Step (c : Bool → Caller) (x : Calls) (i : Bool) (x' : Calls) : Prop :=
  ∃ fuel s' l, lineStep fuel x.s (c i) (x.line i) = .ok (s', l) ∧
    x' = ⟨s', Function.update x.line i l⟩

/-- Interleavings of the two calls with the states they went through. -/
abbrev Interleaving (c : Bool → Caller) := Trace (Calls.Step c)

/-- The calls after a list of turns, each of which is checked before it is taken. -/
def runTurns (ok : Calls → Bool → Bool) (fuel : Nat) (c : Bool → Caller) :
    Calls → List Bool → Exec Calls
  | x, [] => .ok x
  | x, i :: is => do
    require (ok x i)
    let (s, l) ← lineStep fuel x.s (c i) (x.line i)
    runTurns ok fuel c ⟨s, Function.update x.line i l⟩ is

/-- A computed interleaving after which a test is passed. -/
theorem exists_interleaving {ok : Calls → Bool → Bool} {fuel : Nat} {is : List Bool}
    {p : Calls → Bool} (h : (runTurns ok fuel c x is).toOption.any p = true) :
    ∃ tr x', Interleaving c x tr x' ∧ tr.map Prod.snd = is ∧ (∀ y ∈ tr, ok y.1 y.2) ∧ p x' := by
  induction is generalizing x with
  | nil => exact ⟨[], x, .nil, rfl, by simp, h⟩
  | cons i is ih =>
    cases hs : runTurns ok fuel c x (i :: is) with
    | error r =>
      rw [hs] at h
      cases h
    | ok x' =>
      obtain ⟨ho, hs'⟩ := require_bind_eq_ok.mp hs
      obtain ⟨⟨s, l⟩, hl, hs'⟩ := Exec.bind_eq_ok.mp hs'
      rw [hs, ← hs'] at h
      obtain ⟨tr, y, hr, his, hok, hp⟩ := ih h
      refine ⟨[(x, i)] ++ tr, y, Trace.append (.snoc .nil ⟨fuel, s, l, hl, rfl⟩) hr, ?_, ?_, hp⟩
      · simp [his]
      · exact fun z hz ↦ (List.mem_cons.mp hz).elim (fun he ↦ he ▸ ho) (hok z)

/-! ### The lines together -/

/-- A call goes on by one line. -/
def Caller.Step (c : Caller) (p q : Nucleus × Line) : Prop :=
  ∃ fuel, lineStep fuel p.1 c p.2 = .ok q

/-- A call that is not disturbed appends its task as `reqwait` does. -/
theorem appendTask_lines {c : Caller} (h : appendTask s c.exch c.task = .ok s') :
    Relation.ReflTransGen c.Step (s, .clear) (s', .delay) := by
  unfold appendTask at h
  refine .head ⟨0, rfl⟩ (.head ⟨0, rfl⟩ ?_)
  by_cases hh : (Function.update s.word2 (.task c.task) Addr.null) (.exch c.exch) = .null
  · simp only [Nucleus.taskHead, if_pos hh, Exec.ok_bind] at h ⊢
    refine .head ⟨0, rfl⟩ (.head ⟨0, rfl⟩ (.single ⟨0, ?_⟩))
    split at h
    · cases h
    · rename_i hne
      cases h
      exact if_neg hne
  · simp only [Nucleus.taskHead, if_neg hh] at h ⊢
    obtain ⟨p, hp, h⟩ := Exec.bind_eq_ok.mp h
    obtain ⟨-, rfl⟩ := deref_eq_ok.mp hp
    simp only [Exec.ok_bind] at h
    refine .head ⟨0, rfl⟩ (.head ⟨0, Exec.bind_eq_ok.mpr ⟨_, hp, rfl⟩⟩
      (.head ⟨0, rfl⟩ (.single ⟨0, ?_⟩)))
    split at h
    · cases h
    · rename_i hne
      cases h
      exact if_neg hne

/-! ### What a line leaves alone -/

private theorem insertLoop_words {t : TaskId} {n : Nat} {y p : Addr} {v : BitVec 16}
    (h : insertLoop t n s y = .ok (s', p, v)) :
    s'.word2 = s.word2 ∧ s'.taskTail = s.taskTail ∧ s'.tailTask = s.tailTask := by
  induction n generalizing s y with
  | zero => cases h
  | succ n ih =>
    obtain ⟨q, -, h⟩ := Exec.bind_eq_ok.mp h
    simp only at h
    split at h
    · have hw := ih h
      exact hw
    · cases h
      exact ⟨rfl, rfl, rfl⟩

/-- The delay part of `reqwait` writes to no task queue. -/
theorem startDelay_words {fuel : Nat} {t : TaskId} {d : BitVec 16}
    (h : startDelay fuel s t d = .ok s') :
    s'.word2 = s.word2 ∧ s'.taskTail = s.taskTail ∧ s'.tailTask = s.tailTask := by
  unfold startDelay at h
  split at h
  · simp only [insertDelay] at h
    obtain ⟨⟨s₁, p, v⟩, h₁, h⟩ := Exec.bind_eq_ok.mp h
    obtain ⟨q, -, h⟩ := Exec.bind_eq_ok.mp h
    cases h
    have hw := insertLoop_words h₁
    exact hw
  · cases h
    exact ⟨rfl, rfl, rfl⟩

/-- What `reqdqmsg` writes beside the fields of its caller. -/
theorem reqdqmsg_words {e : ExchId} {t : TaskId} (h : reqdqmsg s e t = .ok s') :
    s'.word2 = s.word2 ∧ s'.taskTail = s.taskTail ∧ s'.tailTask = s.tailTask ∧
    s'.delay = s.delay ∧ (∀ a, a ≠ .exch e → a ≠ s.messageHead e → s'.word0 a = s.word0 a) ∧
    ∀ a, a ≠ .exch e → s'.word1 a = s.word1 a := by
  unfold reqdqmsg at h
  split at h
  · cases h
    exact ⟨rfl, rfl, rfl, rfl, fun _ _ _ ↦ rfl, fun _ _ ↦ rfl⟩
  · obtain ⟨p, hp, h⟩ := Exec.bind_eq_ok.mp h
    obtain ⟨-, hpe⟩ := deref_eq_ok.mp hp
    simp only [Except.ok.injEq] at h
    subst h
    refine ⟨?_, ?_, ?_, ?_, fun a ha hap ↦ ?_, fun a ha ↦ ?_⟩
    · split <;> split <;> rfl
    · split <;> split <;> rfl
    · split <;> split <;> rfl
    · split <;> split <;> rfl
    · rw [hpe] at hap
      split <;> split <;> simp [ha, hap]
    · split <;> split <;> simp [ha]

end YRmx
