import YRmx.Core.Calls
import YRmx.Transition.Always

/-!
# Suspending oneself and being resumed line by line

Library `YRmx`. `reqsusp` of a task on itself (`ycore.c:910–917`) and `reqresm` of other
threads on it (`ycore.c:939–948`) share two status bits and the semaphore of the task without
a lock. If `reqresm` clears the suspended bit and tests `needpost` before the task has set it,
the task waits with a clear suspended bit, and `reqresm` does nothing for it any more.
-/

namespace YRmx

open Transition

/-- The next line of the task in `reqsusp` on itself. -/
inductive SuspLine where
  /-- outside of `reqsusp` -/
  | out
  /-- `task->status |= needpost` -/
  | needpost
  /-- `sem_wait(&task->sema)` -/
  | semWait
  /-- `task->status &=~(suspended | needpost)` -/
  | clear
  deriving DecidableEq, Repr

/-- The next line of another thread in `reqresm` on the task. -/
inductive ResmLine where
  /-- outside of `reqresm` -/
  | out
  /-- the test of `needpost`, and clearing it -/
  | test
  /-- `sem_post(&task->sema)` -/
  | post
  deriving DecidableEq, Repr

/-- The descriptor fields of the task, the task, and the threads that resume it. -/
structure Handshake where
  status : BitVec 8
  sema : Nat
  line : SuspLine
  resumer : TaskId → ResmLine

/-- The steps of the task and of the other threads. -/
inductive HandshakeOp where
  /-- the task calls `reqsusp` on itself, `task->status |= suspended` -/
  | reqsusp
  /-- the next line of the task -/
  | next
  /-- another system call of the task writes its status -/
  | overwrite (st : BitVec 8)
  /-- `reqsusp` of another thread on the task -/
  | suspend
  /-- `reqresm` of another thread: the test of the suspended bit, and clearing it -/
  | reqresm (r : TaskId)
  /-- the next line of that thread -/
  | resume (r : TaskId)
  deriving DecidableEq, Repr

namespace Handshake

variable {x x' : Handshake} {o : HandshakeOp} {r : TaskId} {tr : List (Handshake × HandshakeOp)}

/-- The next line of the task. -/
def lineStep (x : Handshake) : Exec Handshake :=
  match x.line with
  | .out => .error .blocked
  | .needpost => .ok { x with status := x.status ||| YRmx.needpost, line := .semWait }
  | .semWait => do
    require (0 < x.sema)
    .ok { x with sema := x.sema - 1, line := .clear }
  | .clear => .ok { x with status := x.status &&& ~~~(suspended ||| YRmx.needpost), line := .out }

/-- The next line of a thread that resumes the task. -/
def resumeStep (x : Handshake) (r : TaskId) : Exec Handshake :=
  match x.resumer r with
  | .out => .error .blocked
  | .test =>
    if x.status &&& YRmx.needpost ≠ 0 then
      .ok { x with
        status := x.status &&& ~~~YRmx.needpost, resumer := Function.update x.resumer r .post }
    else .ok { x with resumer := Function.update x.resumer r .out }
  | .post => .ok { x with sema := x.sema + 1, resumer := Function.update x.resumer r .out }

/-- The status bytes that the task's own system calls write, `ycore.c:1031,1172,1190,1199`. -/
def written : List (BitVec 8) := [running, delayed, waiting, 0]

/-- One step. -/
def step (x : Handshake) : HandshakeOp → Exec Handshake
  | .reqsusp => do
    require (x.line = .out)
    .ok { x with status := x.status ||| suspended, line := .needpost }
  | .next => x.lineStep
  | .overwrite st => do
    require (x.line = .out ∧ st ∈ written)
    .ok { x with status := st }
  | .suspend => .ok { x with status := x.status ||| suspended }
  | .reqresm r => do
    require (x.resumer r = .out)
    if x.status &&& suspended ≠ 0 then
      .ok { x with
        status := x.status &&& ~~~suspended, resumer := Function.update x.resumer r .test }
    else .ok x
  | .resume r => x.resumeStep r

/-- The steps of the task and of the other threads. -/
def Step (x : Handshake) (o : HandshakeOp) (x' : Handshake) : Prop := x.step o = .ok x'

/-- Before the first call. -/
def start : Handshake where
  status := running
  sema := 0
  line := .out
  resumer _ := .out

/-- The suspended bit is set. -/
abbrev Susp (x : Handshake) : Prop := x.status &&& suspended ≠ 0

/-- The bit that asks for a post is set. -/
abbrev Need (x : Handshake) : Prop := x.status &&& YRmx.needpost ≠ 0

/-- The task waits in `reqsusp` and nothing is under way that would wake it. -/
def Blocked (x : Handshake) : Prop := x.line = .semWait ∧ x.sema = 0 ∧ ∀ r, x.resumer r = .out

/-- A blocked task has both bits set, so that any `reqresm` posts its semaphore; and outside of
the `sem_wait` of `reqsusp` no post is there or to come. -/
structure Sound (x : Handshake) : Prop where
  bits : x.Blocked → x.Susp ∧ x.Need
  released : x.Blocked → ∀ r, ∃ tr x', Trace Step x tr x' ∧
    tr.map Prod.snd = [.reqresm r, .resume r, .resume r] ∧ x'.sema = 1
  none_left : x.line ≠ .semWait → x.sema = 0 ∧ ∀ r, x.resumer r ≠ .post

/-- The task sets `needpost` after its suspended bit was cleared again, with no `reqresm` that
has yet to test `needpost`. -/
def Overtaken (x : Handshake) (o : HandshakeOp) : Prop :=
  o = .next ∧ x.line = .needpost ∧ ¬ x.Susp ∧ ∀ r, x.resumer r ≠ .test

/-! ### The post -/

/-- Nobody asks for a post, and none is there or to come. -/
def Idle (x : Handshake) : Prop := ¬ x.Need ∧ x.sema = 0 ∧ ∀ r, x.resumer r ≠ .post

/-- A post is asked for, or to come, or there; each excludes the others. -/
inductive Owed (x : Handshake) : Prop where
  | asked : x.Need → x.sema = 0 → (∀ r, x.resumer r ≠ .post) → Owed x
  | coming (r : TaskId) : ¬ x.Need → x.sema = 0 → x.resumer r = .post →
      (∀ q ≠ r, x.resumer q ≠ .post) → Owed x
  | there : ¬ x.Need → x.sema = 1 → (∀ r, x.resumer r ≠ .post) → Owed x

/-- One post is owed to a task in `sem_wait`, and none to any other. -/
structure Counted (x : Handshake) : Prop where
  owed : x.line = .semWait → x.Owed
  idle : x.line ≠ .semWait → x.Idle

private theorem susp_or_need : ∀ st : BitVec 8,
    ((st ||| suspended) &&& needpost = st &&& needpost) ∧
    (st &&& ~~~suspended) &&& needpost = st &&& needpost := by decide

private theorem need_bits : ∀ st : BitVec 8, (st ||| needpost) &&& needpost ≠ 0 ∧
    (st &&& ~~~needpost) &&& needpost = 0 ∧
    (st &&& ~~~(suspended ||| needpost)) &&& needpost = 0 ∧
    (st ||| needpost) &&& suspended = st &&& suspended := by decide

private theorem written_need : ∀ st ∈ written, st &&& needpost = 0 := by decide

/-- What is owed does not depend on the suspended bit, nor on a thread that is not about to
post. -/
theorem Owed.frame (h : x.Owed) (hn : x'.Need ↔ x.Need) (hs : x'.sema = x.sema)
    (hp : ∀ q, x'.resumer q = .post ↔ x.resumer q = .post) : x'.Owed := by
  cases h with
  | asked h₁ h₂ h₃ => exact .asked (hn.mpr h₁) (hs ▸ h₂) fun q hq ↦ h₃ q ((hp q).mp hq)
  | coming r h₁ h₂ h₃ h₄ =>
    exact .coming r (fun hn' ↦ h₁ (hn.mp hn')) (hs ▸ h₂) ((hp r).mpr h₃)
      fun q hq hq' ↦ h₄ q hq ((hp q).mp hq')
  | there h₁ h₂ h₃ =>
    exact .there (fun hn' ↦ h₁ (hn.mp hn')) (hs ▸ h₂) fun q hq ↦ h₃ q ((hp q).mp hq)

/-- Steps that the post does not depend on. -/
theorem Counted.frame (h : x.Counted) (hl : x'.line = .semWait ↔ x.line = .semWait)
    (hn : x'.Need ↔ x.Need) (hs : x'.sema = x.sema)
    (hp : ∀ q, x'.resumer q = .post ↔ x.resumer q = .post) : x'.Counted where
  owed hw := (h.owed (hl.mp hw)).frame hn hs hp
  idle hw := by
    obtain ⟨h₁, h₂, h₃⟩ := h.idle fun he ↦ hw (hl.mpr he)
    exact ⟨fun hn' ↦ h₁ (hn.mp hn'), hs ▸ h₂, fun q hq ↦ h₃ q ((hp q).mp hq)⟩

/-- The next line of the task. -/
theorem Counted.lineStep (h : x.Counted) (hs : x.lineStep = .ok x') : x'.Counted := by
  unfold Handshake.lineStep at hs
  cases hl : x.line <;> rw [hl] at hs
  case out => cases hs
  case needpost =>
    cases hs
    obtain ⟨-, h₂, h₃⟩ := h.idle (by simp [hl])
    exact ⟨fun _ ↦ .asked (need_bits x.status).1 h₂ h₃, fun hw ↦ absurd rfl hw⟩
  case semWait =>
    obtain ⟨hp, hs⟩ := require_bind_eq_ok.mp hs
    cases hs
    refine ⟨by simp, fun _ ↦ ?_⟩
    cases h.owed hl with
    | asked h₁ h₂ h₃ => omega
    | coming r h₁ h₂ h₃ h₄ => omega
    | there h₁ h₂ h₃ => exact ⟨h₁, by simp [h₂], h₃⟩
  case clear =>
    cases hs
    obtain ⟨-, h₂, h₃⟩ := h.idle (by simp [hl])
    exact ⟨by simp, fun _ ↦ ⟨not_not.mpr (need_bits x.status).2.2.1, h₂, h₃⟩⟩

/-- The next line of a thread that resumes the task. -/
theorem Counted.resumeStep (h : x.Counted) (hs : x.resumeStep r = .ok x') : x'.Counted := by
  unfold Handshake.resumeStep at hs
  cases hr : x.resumer r <;> rw [hr] at hs
  case out => cases hs
  case test =>
    simp only at hs
    split at hs
    · rename_i hn
      cases hs
      have hw : x.line = .semWait := by
        by_contra hw
        exact (h.idle hw).1 hn
      refine ⟨fun _ ↦ ?_, fun hw' ↦ absurd hw hw'⟩
      cases h.owed hw with
      | asked h₁ h₂ h₃ =>
        refine .coming r (not_not.mpr (need_bits x.status).2.1) h₂ (Function.update_self ..)
          fun q hq ↦ ?_
        simpa only [Function.update_of_ne hq] using h₃ q
      | coming q h₁ h₂ h₃ h₄ => exact absurd hn h₁
      | there h₁ h₂ h₃ => exact absurd hn h₁
    · cases hs
      refine h.frame Iff.rfl Iff.rfl rfl fun q ↦ ?_
      by_cases hq : q = r
      · simp [hq, hr]
      · simp [Function.update_of_ne hq]
  case post =>
    cases hs
    have hw : x.line = .semWait := by
      by_contra hw
      exact (h.idle hw).2.2 r hr
    refine ⟨fun _ ↦ ?_, fun hw' ↦ absurd hw hw'⟩
    cases h.owed hw with
    | asked h₁ h₂ h₃ => exact absurd hr (h₃ r)
    | coming q h₁ h₂ h₃ h₄ =>
      have hq : r = q := by
        by_contra hq
        exact h₄ r hq hr
      refine .there h₁ (by simp [h₂]) fun p ↦ ?_
      by_cases hp : p = r
      · simp [hp]
      · simpa only [Function.update_of_ne hp] using h₄ p (hq ▸ hp)
    | there h₁ h₂ h₃ => exact absurd hr (h₃ r)

/-- Each step of any thread keeps the count of posts. -/
theorem Counted.step (h : x.Counted) (hs : x.Step o x') : x'.Counted := by
  unfold Step at hs
  cases o with
  | reqsusp =>
    obtain ⟨hl, hs⟩ := require_bind_eq_ok.mp hs
    cases hs
    exact h.frame (by simp [hl]) (by rw [Need, (susp_or_need x.status).1]) rfl fun _ ↦ Iff.rfl
  | next => exact h.lineStep hs
  | overwrite st =>
    obtain ⟨⟨hl, hst⟩, hs⟩ := require_bind_eq_ok.mp hs
    cases hs
    obtain ⟨-, h₂, h₃⟩ := h.idle (by simp [hl])
    exact ⟨by simp [hl], fun _ ↦ ⟨not_not.mpr (written_need st hst), h₂, h₃⟩⟩
  | suspend =>
    cases hs
    exact h.frame Iff.rfl (by rw [Need, (susp_or_need x.status).1]) rfl fun _ ↦ Iff.rfl
  | reqresm r =>
    obtain ⟨hr, hs⟩ := require_bind_eq_ok.mp hs
    split at hs
    · cases hs
      refine h.frame Iff.rfl (by rw [Need, (susp_or_need x.status).2]) rfl fun q ↦ ?_
      by_cases hq : q = r
      · simp [hq, hr]
      · simp [Function.update_of_ne hq]
    · cases hs
      exact h
  | resume r => exact h.resumeStep hs

/-! ### The suspended bit -/

/-- While a post is asked for, the suspended bit is set, or a thread that has cleared it is about
to find that out. -/
def Pending (x : Handshake) : Prop :=
  x.line = .semWait → x.Need → x.Susp ∨ ∃ r, x.resumer r = .test

private theorem susp_set : ∀ st : BitVec 8, (st ||| suspended) &&& suspended ≠ 0 := by decide

private theorem need_susp : ∀ st : BitVec 8,
    (st ||| needpost) &&& suspended = st &&& suspended ∧
    (st &&& ~~~needpost) &&& needpost = 0 := by decide

/-- Each step that is not overtaken keeps the task resumable. -/
theorem Pending.step (h : x.Pending) (hc : ¬ x.Overtaken o) (hs : x.Step o x') : x'.Pending := by
  intro hw hn
  unfold Step at hs
  cases o with
  | reqsusp =>
    obtain ⟨-, hs⟩ := require_bind_eq_ok.mp hs
    cases hs
    exact .inl (susp_set x.status)
  | next =>
    simp only [Handshake.step, Handshake.lineStep] at hs
    cases hl : x.line <;> rw [hl] at hs
    case out => cases hs
    case needpost =>
      cases hs
      by_contra hb
      rw [not_or, not_exists] at hb
      refine hc ⟨rfl, hl, fun hsusp ↦ hb.1 ?_, hb.2⟩
      simpa only [Susp, (need_susp x.status).1] using hsusp
    case semWait =>
      obtain ⟨-, hs⟩ := require_bind_eq_ok.mp hs
      cases hs
      cases hw
    case clear =>
      cases hs
      cases hw
  | overwrite st =>
    obtain ⟨⟨hl, -⟩, hs⟩ := require_bind_eq_ok.mp hs
    cases hs
    rw [hl] at hw
    cases hw
  | suspend =>
    cases hs
    exact .inl (susp_set x.status)
  | reqresm r =>
    obtain ⟨-, hs⟩ := require_bind_eq_ok.mp hs
    split at hs
    · cases hs
      exact .inr ⟨r, Function.update_self ..⟩
    · cases hs
      exact h hw hn
  | resume r =>
    simp only [Handshake.step, Handshake.resumeStep] at hs
    cases hr : x.resumer r <;> rw [hr] at hs <;> simp only at hs
    case out => cases hs
    case test =>
      split at hs
      · cases hs
        exact absurd (need_susp x.status).2 hn
      · rename_i hz
        cases hs
        exact absurd hn hz
    case post =>
      cases hs
      refine (h hw hn).imp_right fun ⟨q, hq⟩ ↦ ⟨q, ?_⟩
      have hqr : q ≠ r := fun he ↦ by simp [he, hr] at hq
      simpa only [Function.update_of_ne hqr] using hq

/-- A task that is blocked with both bits set is released by any `reqresm`. -/
theorem released (hb : x.Blocked) (hs : x.Susp) (hn : x.Need) (r : TaskId) :
    ∃ tr x', Trace Step x tr x' ∧ tr.map Prod.snd = [.reqresm r, .resume r, .resume r] ∧
      x'.sema = 1 := by
  obtain ⟨-, hz, hr⟩ := hb
  let y : Handshake := { x with
    status := x.status &&& ~~~suspended, resumer := Function.update x.resumer r .test }
  let z : Handshake := { y with
    status := y.status &&& ~~~YRmx.needpost, resumer := Function.update y.resumer r .post }
  have h₁ : x.Step (.reqresm r) y := by
    simp only [Step, Handshake.step, require, hr r, if_true, Exec.ok_bind, if_pos hs, y]
  have h₂ : y.Step (.resume r) z := by
    have hy : y.status &&& YRmx.needpost ≠ 0 := by
      simpa only [y, (susp_or_need x.status).2] using hn
    have hl : y.resumer r = .test := Function.update_self ..
    simp only [Step, Handshake.step, Handshake.resumeStep, hl, if_pos hy, z]
  have h₃ : z.Step (.resume r)
      { z with sema := z.sema + 1, resumer := Function.update z.resumer r .out } := by
    have hl : z.resumer r = .post := Function.update_self ..
    simp only [Step, Handshake.step, Handshake.resumeStep, hl]
  exact ⟨[] ++ [_] ++ [_] ++ [_], _, .snoc (.snoc (.snoc .nil h₁) h₂) h₃, rfl, by simp [z, y, hz]⟩

/-- What keeps the posts counted and the task resumable is sound. -/
theorem Counted.sound (h : x.Counted) (hp : x.Pending) : x.Sound := by
  have bits : x.Blocked → x.Susp ∧ x.Need := by
    rintro ⟨hw, hz, hr⟩
    have hn : x.Need := by
      cases h.owed hw with
      | asked h₁ _ _ => exact h₁
      | coming r _ _ h₃ _ => simp [hr r] at h₃
      | there _ h₂ _ => omega
    refine ⟨(hp hw hn).resolve_right ?_, hn⟩
    rintro ⟨r, ht⟩
    simp [hr r] at ht
  exact ⟨bits, fun hb r ↦ released hb (bits hb).1 (bits hb).2 r, fun hw ↦ (h.idle hw).2⟩

/-- A task that was overtaken is blocked for good. -/
theorem Counted.overtaken (h : x.Counted) (hc : x.Overtaken o) (hs : x.Step o x') :
    ¬ x'.Sound := by
  obtain ⟨rfl, hl, hsusp, hr⟩ := hc
  obtain ⟨-, hz, hp⟩ := h.idle (by simp [hl])
  simp only [Step, Handshake.step, Handshake.lineStep, hl] at hs
  cases hs
  intro hsound
  have hout : ∀ r, x.resumer r = .out := fun r ↦ by
    have h₁ := hr r
    have h₂ := hp r
    cases hx : x.resumer r <;> simp_all
  have hb := (hsound.bits ⟨rfl, hz, hout⟩).1
  rw [Susp, (need_susp x.status).1] at hb
  exact hsusp hb

/-! ### The lines together -/

/-- The two lines of `reqsusp` up to `sem_wait`, undisturbed, are the call of the nucleus. -/
theorem reqsusp_lines {c : Control} {t : TaskId} (hst : c.status t = x.status)
    (hl : x.line = .out) :
    ∃ x₁ x₂, x.Step .reqsusp x₁ ∧ x₁.Step .next x₂ ∧ x₂.line = .semWait ∧
      (c.reqsusp t t).pc t = .suspWait ∧ (c.reqsusp t t).status t = x₂.status := by
  refine ⟨{ x with status := x.status ||| suspended, line := .needpost },
    { x with status := x.status ||| suspended ||| YRmx.needpost, line := .semWait },
    ?_, rfl, rfl, ?_, ?_⟩
  · simp only [Step, Handshake.step, require, hl, if_true, Exec.ok_bind]
  · simp [Control.reqsusp]
  · simp [Control.reqsusp, hst]

/-- The two lines after it, undisturbed, are the return of the call. -/
theorem reqsuspResume_lines {c : Control} {t : TaskId} (hst : c.status t = x.status)
    (hz : c.sema t = x.sema) (hl : x.line = .semWait) (hp : 0 < x.sema) :
    ∃ x₁ x₂, x.Step .next x₁ ∧ x₁.Step .next x₂ ∧ x₂.line = .out ∧
      (c.reqsuspResume t).status t = x₂.status ∧ (c.reqsuspResume t).sema t = x₂.sema := by
  refine ⟨{ x with sema := x.sema - 1, line := .clear }, { x with
    sema := x.sema - 1, status := x.status &&& ~~~(suspended ||| YRmx.needpost), line := .out },
    ?_, rfl, rfl, ?_, ?_⟩
  · simp only [Step, Handshake.step, Handshake.lineStep, hl, require, if_pos hp, Exec.ok_bind]
  · simp [Control.reqsuspResume, hst]
  · simp [Control.reqsuspResume, hz]

/-- The lines of `reqresm`, undisturbed, are the call of the nucleus. -/
theorem reqresm_lines {c : Control} {t : TaskId} (hst : c.status t = x.status)
    (hz : c.sema t = x.sema) (hr : x.resumer r = .out) :
    ∃ x', Relation.ReflTransGen (fun x x' ↦ x.Step (.reqresm r) x' ∨ x.Step (.resume r) x') x x' ∧
      x'.resumer r = .out ∧ (c.reqresm t).status t = x'.status ∧
        (c.reqresm t).sema t = x'.sema := by
  by_cases hs : x.Susp
  · let y : Handshake := { x with
      status := x.status &&& ~~~suspended, resumer := Function.update x.resumer r .test }
    have h₁ : x.Step (.reqresm r) y := by
      simp only [Step, Handshake.step, require, hr, if_true, Exec.ok_bind, if_pos hs, y]
    have hy : y.resumer r = .test := Function.update_self ..
    have hs' : c.status t &&& suspended ≠ 0 := by rwa [hst]
    have hc : (c.setStatus t (c.status t &&& ~~~suspended)).status t =
        x.status &&& ~~~suspended := by simp [hst]
    by_cases hn : y.status &&& YRmx.needpost ≠ 0
    · let z : Handshake := { y with
        status := y.status &&& ~~~YRmx.needpost, resumer := Function.update y.resumer r .post }
      have h₂ : y.Step (.resume r) z := by
        simp only [Step, Handshake.step, Handshake.resumeStep, hy, if_pos hn, z]
      have h₃ : z.Step (.resume r)
          { z with sema := z.sema + 1, resumer := Function.update z.resumer r .out } := by
        have hl : z.resumer r = .post := Function.update_self ..
        simp only [Step, Handshake.step, Handshake.resumeStep, hl]
      have hc : c.reqresm t = ((c.setStatus t (c.status t &&& ~~~suspended)).setStatus t
          (x.status &&& ~~~suspended &&& ~~~YRmx.needpost)).semPost t := by
        rw [Control.reqresm, if_pos hs']
        dsimp only
        rw [hc, if_pos hn]
      refine ⟨_, .head (.inl h₁) (.head (.inr h₂) (.single (.inr h₃))),
        Function.update_self .., ?_, ?_⟩
      · simp [hc, hst, z, y]
      · simp [hc, hz, z, y]
    · have h₂ : y.Step (.resume r) { y with resumer := Function.update y.resumer r .out } := by
        simp only [Step, Handshake.step, Handshake.resumeStep, hy, if_neg hn]
      have hc : c.reqresm t = c.setStatus t (c.status t &&& ~~~suspended) := by
        rw [Control.reqresm, if_pos hs']
        dsimp only
        rw [hc, if_neg hn]
      refine ⟨_, .head (.inl h₁) (.single (.inr h₂)), Function.update_self .., ?_, ?_⟩
      · simp [hc, hst, y]
      · simp [hc, hz, y]
  · have h₁ : x.Step (.reqresm r) x := by
      simp only [Step, Handshake.step, require, hr, if_true, Exec.ok_bind, if_neg hs]
    have hs' : ¬ c.status t &&& suspended ≠ 0 := by rwa [hst]
    refine ⟨x, .single (.inl h₁), hr, ?_, ?_⟩
    · rw [Control.reqresm, if_neg hs', hst]
    · rw [Control.reqresm, if_neg hs', hz]

/-! ### Whole runs -/

/-- A task that suspends itself can be resumed, and no post is left over, in exactly those runs
in which it is never overtaken between its two flags. -/
theorem resuming_of_run (hr : Trace Step start tr x) :
    Always (fun _ x ↦ x.Sound) tr x ↔ Throughout (fun _ x o ↦ ¬ x.Overtaken o) tr := by
  refine hr.always_iff (J := fun _ x ↦ x.Counted ∧ x.Pending) (H := fun _ _ _ ↦ True) ?_
    (fun _ _ _ _ ↦ trivial) (fun h _ hc hs ↦ ⟨h.1.step hs, h.2.step hc hs⟩)
    (fun h ↦ h.1.sound h.2) (fun h _ hc hs ↦ h.1.overtaken (not_not.mp hc) hs)
  refine ⟨⟨fun hw ↦ ?_, fun _ ↦ ⟨by decide, rfl, fun _ ↦ by simp [start]⟩⟩, fun hw ↦ ?_⟩ <;>
    cases hw

/-- The task suspends itself, is resumed, and goes on. -/
theorem resuming_of_run_resumed : ∃ tr x, Trace Step start tr x ∧
    tr.map Prod.snd = [.reqsusp, .next, .reqresm 6, .resume 6, .resume 6, .next, .next] ∧
    Always (fun _ x ↦ x.Sound) tr x := by
  have hs (x : Handshake) (o : HandshakeOp) (x' : Handshake) (h : x.step o = .ok x') :
      Step x o x' := h
  have hr : Trace Step start _ _ :=
    .snoc (.snoc (.snoc (.snoc (.snoc (.snoc (.snoc .nil (hs _ .reqsusp _ rfl))
      (hs _ .next _ rfl)) (hs _ (.reqresm 6) _ rfl)) (hs _ (.resume 6) _ rfl))
      (hs _ (.resume 6) _ rfl)) (hs _ .next _ rfl)) (hs _ .next _ rfl)
  refine ⟨_, _, hr, rfl, (resuming_of_run hr).mpr ?_⟩
  simp only [throughout_snoc]
  refine ⟨⟨⟨⟨⟨⟨⟨throughout_nil, ?_⟩, ?_⟩, ?_⟩, ?_⟩, ?_⟩, ?_⟩, ?_⟩ <;>
    rintro ⟨ho, hl, hb, -⟩ <;> cases ho <;> cases hl
  exact hb (by decide)

/-- Task 6 calls `reqresm` between the two flags of the task: it is blocked with a clear
suspended bit. -/
theorem resuming_overtaken : ∃ tr x, Trace Step start tr x ∧
    tr.map Prod.snd = [.reqsusp, .reqresm 6, .resume 6, .next] ∧ x.Blocked ∧ ¬ x.Susp := by
  have hs (x : Handshake) (o : HandshakeOp) (x' : Handshake) (h : x.step o = .ok x') :
      Step x o x' := h
  refine ⟨[] ++ [_] ++ [_] ++ [_] ++ [_], _, .snoc (.snoc (.snoc (.snoc .nil (hs _ _ _ rfl))
    (hs _ _ _ rfl)) (hs _ _ _ rfl)) (hs _ _ _ rfl), rfl, ⟨rfl, rfl, fun r ↦ ?_⟩, by decide⟩
  by_cases h6 : r = 6
  · subst h6
    rfl
  · simp [Function.update_of_ne h6, start]

end Handshake

end YRmx
