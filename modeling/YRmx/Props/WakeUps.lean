import YRmx.Props.Unlinks
import YRmx.Props.Messages

/-!
# Wake-up accounting

Library `YRmx`. One semaphore for each task serves message waits and self-suspension. In a
plain run without deletions it is posted once for every wait, by the step that unlinks the
task or by the `reqresm` that releases it, and the message of the wait is the one that the
unlinking step stored.
-/

namespace YRmx

open Transition

/-- The step deletes a task, or ends one that was deleted. -/
def Op.Deletes : Op → Prop
  | .reqdtsk .. | .cancelled .. => True
  | _ => False

/-- The `sem_wait` in which the task is returns to it. -/
def Op.Resumes (o : Op) (t : TaskId) : Prop := o = .wake t ∨ o = .suspWake t ∨ o = .heldWake t

/-- The step unlinks the task, or resumes it from suspending itself. -/
def Nucleus.Releases (s : Nucleus) (o : Op) (t : TaskId) : Prop :=
  (∃ μ, s.Unlinks o t μ) ∨
    ∃ u, o = .reqresm u t ∧ s.status t &&& suspended ≠ 0 ∧ s.status t &&& needpost ≠ 0

/-- The thread is in a `sem_wait`, and nothing was posted for it. -/
structure Nucleus.Blocked (s : Nucleus) (t : TaskId) : Prop where
  pc : (∃ e d, s.pc t = .semWait e d) ∨ s.pc t = .suspWait
  sema : s.sema t = 0

/-- The wait that began before the steps `tr` goes on, or was ended by one of them. -/
def Nucleus.Awaits (s : Nucleus) (tr : List (Nucleus × Op)) (t : TaskId) (e : ExchId)
    (d : BitVec 16) : Prop :=
  (∃ ts, TaskQueue s e ts ∧ t ∈ ts) ∧ (∀ x ∈ tr, ∀ μ, ¬ x.1.Unlinks x.2 t μ) ∨
    ∃ μ, s.message t = .msg μ ∧ (μ = .timeOut → d ≠ 0) ∧
      Once (fun x ↦ ∃ ν, x.1.Unlinks x.2 t ν) tr ∧ ∃ x ∈ tr, x.1.Unlinks x.2 t μ

variable {s₀ s s' : Nucleus} {b b' : Board} {o : Op} {t : TaskId} {e : ExchId} {d : BitVec 16}
variable {tr : List (Nucleus × Op)}

/-- A thread that is blocked takes no step. -/
theorem Nucleus.Blocked.stuck (h : s.Blocked t) (n : Nat) :
    step n s (.wake t) = .error .blocked ∧ step n s (.suspWake t) = .error .blocked ∧
      s.pc t ≠ .user := by
  have hs : ¬ (s.pc t = .suspWait ∧ 0 < s.sema t) := fun hx ↦ by
    have := h.sema
    omega
  have hw : wakeAt s t (s.pc t) = .error .blocked := by
    unfold wakeAt
    split
    · unfold reqwaitResume require
      rw [if_neg fun hx ↦ by have := h.sema; omega]
      rfl
    · rfl
  refine ⟨hw, ?_, ?_⟩
  · show (require _ >>= fun _ ↦ _) = _
    unfold require
    rw [if_neg hs]
    rfl
  · rcases h.pc with ⟨e, d, hp⟩ | hp <;> simp [hp]

/-! ### What a step does to the semaphore -/

namespace Board

/-- A `sem_wait` that returns takes what was posted. -/
theorem sema_of_resumes (hI : b.Inv) (h : b.step o = .ok b') (hr : o.Resumes t) :
    b'.sema t = 0 := by
  have hle := (hI.task t).sema_le
  rcases hr with rfl | rfl | rfl
  · simp only [step_wake, wakeAt] at h
    split at h
    · obtain ⟨-, h⟩ := require_bind_eq_ok.mp h
      cases h
      rcases waitDone_cases ((b.semTake t).setStatus t 0) t _ _ with ⟨-, he⟩ | ⟨-, p, z, he, -⟩ <;>
        · show ((b.semTake t).setStatus t 0 |>.waitDone t _ _).sema t = 0
          rw [he]
          simp
          omega
    · cases h
  · obtain ⟨-, h⟩ := require_bind_eq_ok.mp h
    cases h
    simp [Control.reqsuspResume]
    omega
  · simp only [step_heldWake, heldAt] at h
    split at h
    · rename_i c hp
      exact absurd hp (hI.task t).not_held
    · cases h

/-- A posted semaphore was posted before, or is posted by a release. -/
theorem sema_cases (hI : b.Inv) (h : b.step o = .ok b') (hs : b'.sema t ≠ 0) :
    b.sema t ≠ 0 ∨ (∃ μ, b.Unlinks o t μ) ∨
      ∃ u, o = .reqresm u t ∧ b.status t &&& YRmx.suspended ≠ 0 ∧ b.status t &&& needpost ≠ 0 := by
  have hkeep : b'.sema t = b.sema t → b.sema t ≠ 0 := fun he ↦ he ▸ hs
  cases step_task hI h t with
  | handed e m ho hu => exact .inr (.inl ⟨m, .inl ⟨e, ho, hu⟩⟩)
  | expired ho _ hu => exact .inr (.inl ⟨.timeOut, .inr ⟨ho, rfl, hI.mem_expired.mp hu⟩⟩)
  | released u ho _ hn => exact .inr (.inr ⟨u, ho, hn⟩)
  | woken _ _ _ _ _ hm => exact .inl (by omega)
  | roused _ _ hm => exact .inl (by omega)
  | kept _ hv | moved _ _ _ _ hv | returned _ _ _ _ hv | slept _ _ _ hv | resumed _ _ _ _ _ hv
  | suspended _ _ _ _ _ hv | accepted _ _ _ _ hv | fetched _ _ _ _ _ _ _ hv
  | blocked _ _ _ _ _ _ _ hv | deleted _ _ _ _ _ hv | ended _ _ _ _ hv =>
    exact .inl (hkeep (congrArg TaskState.sema hv))

/-- Only a deletion ends a thread. -/
theorem alive_step (hI : b.Inv) (h : b.step o = .ok b') (ho : ¬ o.Deletes)
    (hp : b.pc t ≠ .dead) : b'.pc t ≠ .dead := by
  have hkeep : b'.pc t = b.pc t → b'.pc t ≠ .dead := fun he ↦ he ▸ hp
  have hgo : ∀ {p}, b'.pc t = p → p ≠ .dead → b'.pc t ≠ .dead := fun he hn ↦ he ▸ hn
  cases step_task hI h t with
  | kept _ hv | handed _ _ _ _ _ _ hv | expired _ _ _ _ _ hv | suspended _ _ _ _ _ hv
  | resumed _ _ _ _ _ hv | released _ _ _ _ _ hv => exact hkeep (congrArg TaskState.pc hv)
  | blocked _ _ _ _ _ _ _ hv | fetched _ _ _ _ _ _ _ hv | accepted _ _ _ _ hv
  | returned _ _ _ _ hv | slept _ _ _ hv | roused _ _ _ _ hv =>
    exact hgo (congrArg TaskState.pc hv) (by simp)
  | woken _ _ p _ _ _ _ hpc hv =>
    apply hgo (congrArg TaskState.pc hv)
    rcases hpc with rfl | rfl <;> simp
  | moved _ _ _ hpc hv => exact hgo (congrArg TaskState.pc hv) hpc.2.2
  | deleted _ hx => exact absurd (by rw [hx]; trivial) ho
  | ended hx => exact absurd (by rw [hx]; trivial) ho

/-- A task that does not wait and is not at the start of a call keeps its message. -/
theorem message_step (hI : b.Inv) (h : b.step o = .ok b') (hw : ¬ b.Waits t)
    (hp : b.pc t ≠ .user) : b'.message t = b.message t ∧ ¬ b'.Waits t := by
  have hstays : Stays b b' t → ¬ b'.Waits t := fun hs ⟨e, he⟩ ↦ hw ⟨e, (hs.tq e).mp he⟩
  cases step_task hI h t with
  | handed e _ _ hu => exact absurd ⟨e, List.mem_of_mem_head? hu⟩ hw
  | expired _ _ hu => exact absurd ((hI.task t).waits (hI.expired.2 t hu)) hw
  | blocked _ _ _ hx | fetched _ _ _ _ hx | accepted _ _ hx => exact absurd hx hp
  | deleted _ _ _ hn _ hv => exact ⟨congrArg TaskState.message hv, hn⟩
  | kept hs hv | moved _ hs _ _ hv | returned _ _ _ hs hv | slept _ _ hs hv
  | resumed _ _ _ _ hs hv | suspended _ _ _ _ hs hv | woken _ _ _ _ _ _ hs _ hv
  | roused _ _ _ hs hv | released _ _ _ _ hs hv | ended _ _ _ hs hv =>
    exact ⟨congrArg TaskState.message hv, hstays hs⟩

/-- A task that suspended itself stays in `reqsusp` until it is resumed. -/
theorem slept_step (hI : b.Inv) (h : b.step o = .ok b') (hplain : o.Plain) (hdel : ¬ o.Deletes)
    (hp : b.pc t = .suspWait) (hn : b.status t &&& needpost ≠ 0) (ho : ∀ u, o ≠ .reqresm u t) :
    b'.pc t = .suspWait ∧ b'.status t &&& needpost ≠ 0 := by
  have hs0 := ((hI.task t).needpost_pc hn).2
  have hw : ¬ b.Waits t := by
    intro hw
    rcases (hI.task t).pc_of_waits hw with ⟨e, d, hx⟩ | hx <;> rw [hp] at hx <;> cases hx
  have hpc : ∀ {p}, b.pc t = p → p ≠ .suspWait → False := fun he hne ↦ hne (he.symm.trans hp)
  cases step_task hI h t with
  | kept _ hv =>
    exact ⟨(congrArg TaskState.pc hv).trans hp,
      fun hz ↦ hn ((congrArg (TaskState.status · &&& needpost) hv).symm.trans hz)⟩
  | handed e _ _ hu => exact absurd ⟨e, List.mem_of_mem_head? hu⟩ hw
  | expired _ _ hu => exact absurd ((hI.task t).waits (hI.expired.2 t hu)) hw
  | blocked _ _ _ hx | fetched _ _ _ _ hx | woken _ _ _ _ hx | accepted _ _ hx
  | returned _ _ hx | slept _ hx => exact (hpc hx (by simp)).elim
  | moved _ _ hx =>
    rcases hx with ⟨hx, -⟩ | ⟨c, hx, -⟩ | ⟨c, hx, -⟩ <;> exact (hpc hx (by simp)).elim
  | roused _ _ hm => omega
  | suspended u hx _ hu =>
    subst hx
    exact absurd hplain.symm hu
  | resumed u hx | released u hx => exact absurd hx (ho u)
  | deleted _ hx => exact absurd (by rw [hx]; trivial) hdel
  | ended hx => exact absurd (by rw [hx]; trivial) hdel

end Board

private theorem or_needpost : ∀ st : BitVec 8,
    (st ||| suspended ||| needpost) &&& needpost ≠ 0 := by decide

/-! ### What a run keeps -/

/-- What is true of the semaphores and the past of a run. -/
structure Accounted (tr : List (Nucleus × Op)) (b : Board) : Prop where
  alive : ∀ t, b.pc t ≠ .dead
  released : ∀ t, b.sema t ≠ 0 →
    Since (fun x ↦ x.1.Releases x.2 t) (fun x ↦ ¬ x.2.Resumes t) tr
  slept : ∀ t, Since (fun x ↦ x.2 = .reqsusp t t) (fun x ↦ ∀ u, x.2 ≠ .reqresm u t) tr →
    b.pc t = .suspWait ∧ b.status t &&& needpost ≠ 0
  waited : ∀ tr₁ m t e d tr₂, tr = tr₁ ++ (m, .reqwait t e d) :: tr₂ → m.messageHead e = .null →
    (∀ x ∈ tr₂, x.1.pc t ≠ .user) →
    t ∈ b.tq e ∧ b.pc t = .semWait e d ∧ (∀ x ∈ tr₂, ∀ μ, ¬ x.1.Unlinks x.2 t μ) ∨
    ¬ b.Waits t ∧ ∃ μ, b.message t = .msg μ ∧ (μ = .timeOut → d ≠ 0) ∧
      Once (fun x ↦ ∃ ν, x.1.Unlinks x.2 t ν) tr₂ ∧ ∃ x ∈ tr₂, x.1.Unlinks x.2 t μ
  timeOut : ¬ b.Queued .timeOut ∧ b.own .timeOut = .null

/-- A booted system has no past. -/
theorem Booted.accounted (h : Booted s) : Accounted [] s.board where
  alive t := by
    rw [show s.board.pc t = .user from (h.tasks t).2.2.1]
    simp
  released t hs := absurd (h.tasks t).2.1 hs
  slept t hs := absurd hs not_since_nil
  waited _ _ _ _ _ _ he := by simp at he
  timeOut := ⟨fun ⟨_, hx⟩ ↦ List.not_mem_nil hx, h.timeOut.1⟩

/-- Only the expiry of a timed task hands out the time-out message. -/
theorem Board.Unlinks.timed (h : b.Unlinks o t .timeOut) (hI : b.Inv)
    (ht : b.own .timeOut = .null) (hp : b.pc t = .semWait e d) : d ≠ 0 := by
  rcases h with ⟨e', hs, -⟩ | ⟨-, -, hx⟩
  · rcases own_of_sends hs with hx | ⟨u, hx⟩ <;> rw [ht] at hx <;> cases hx
  · have htm : b.Timed t := List.mem_map_of_mem hx
    obtain ⟨e', he'⟩ := (hI.task t).waits htm
    rcases (hI.task t).pc_waits he' with ⟨d', hd, hiff⟩ | hd
    · rw [hp] at hd
      cases hd
      exact hiff.mp htm
    · rw [hp] at hd
      cases hd

/-- Every step keeps the account. -/
theorem Accounted.step (h : Accounted tr b) (hS : Sim s b) (hI : b.Inv) (hplain : o.Plain)
    (hdel : ¬ o.Deletes) (hb : b.step o = .ok b') : Accounted (tr ++ [(s, o)]) b' where
  alive t := Board.alive_step hI hb hdel (h.alive t)
  released t hs := by
    have hr : ¬ o.Resumes t := fun hr ↦ hs (Board.sema_of_resumes hI hb hr)
    apply since_snoc.mpr
    rcases Board.sema_cases hI hb hs with hs | ⟨μ, hu⟩ | ⟨u, ho, hn⟩
    · exact .inr ⟨h.released t hs, hr⟩
    · exact .inl (.inl ⟨μ, (hS.unlinks_iff hI o t μ).mpr hu⟩)
    · refine .inl (.inr ⟨u, ho, ?_⟩)
      rwa [hS.status_eq]
  slept t hs := by
    rcases since_snoc.mp hs with ho | ⟨hs, ho⟩
    · obtain rfl : o = .reqsusp t t := ho
      obtain ⟨-, hb⟩ := require_bind_eq_ok.mp hb
      cases hb
      show (b.reqsusp t t).pc t = _ ∧ (b.reqsusp t t).status t &&& _ ≠ 0
      rw [Board.reqsusp_self]
      refine ⟨by simp, ?_⟩
      rw [Control.goto_status, Control.setStatus_status, Function.update_self]
      exact or_needpost _
    · obtain ⟨hp, hn⟩ := h.slept t hs
      exact Board.slept_step hI hb hplain hdel hp hn ho
  waited tr₁ m t e d tr₂ he hm hpc := by
    rcases snoc_eq_append_cons.mp he with ⟨-, hx, rfl⟩ | ⟨tr₃, rfl, rfl⟩
    · cases hx
      obtain ⟨ht, hp⟩ := Board.waits_of_reqwait hI hb ((hS.messageHead_null e).mp hm)
      exact .inl ⟨ht, hp, by simp⟩
    · have hp : b.pc t ≠ .user := by
        rw [← hS.pc_eq]
        exact hpc (s, o) (by simp)
      have hun : ∀ ν, s.Unlinks o t ν ↔ b.Unlinks o t ν := fun ν ↦ hS.unlinks_iff hI o t ν
      rcases h.waited tr₁ m t e d tr₃ rfl hm fun x hx ↦ hpc x (by simp [hx]) with
        ⟨ht, hw, hno⟩ | ⟨hw, μ, hmsg, hd, honce, x, hx, hux⟩
      · cases Board.step_waiter hI hb ⟨e, ht⟩ with
        | stays hs hpc' =>
          refine .inl ⟨(hs.tq e).mpr ht, hpc'.trans hw, fun x hx ν ↦ ?_⟩
          rcases List.mem_append.mp hx with hx | hx
          · exact hno x hx ν
          · rw [List.mem_singleton.mp hx, hun]
            exact hs.not_unlinks hI hb
        | unlinked μ hu hw' _ _ hmsg =>
          refine .inr ⟨hw', μ, hmsg, ?_, ?_, (s, o), by simp, (hun μ).mpr hu⟩
          · rintro rfl
            exact hu.timed hI h.timeOut.2 hw
          · exact .snoc_new (fun x hx ⟨ν, hν⟩ ↦ hno x hx ν hν) ⟨μ, (hun μ).mpr hu⟩
        | deleted u ho => exact absurd (by rw [ho]; trivial) hdel
        | ended ho => exact absurd (by rw [ho]; trivial) hdel
      · obtain ⟨hmsg', hw'⟩ := Board.message_step hI hb hw hp
        refine .inr ⟨hw', μ, hmsg'.trans hmsg, hd, honce.snoc ?_, x, by simp [hx], hux⟩
        rintro ⟨ν, hν⟩
        exact hw (((hun ν).mp hν).waits hI)
  timeOut := Board.timeOut_step hI hb h.timeOut

/-- In every state of a plain run without deletions a semaphore is 0 or 1, and 1 only since a
release that was not taken yet; tasks that are queued, or suspended by themselves and not
resumed, are blocked; and a wait that began without a message goes on, or was ended by exactly
one step, whose message is the one that the task finds. -/
theorem wakeUps_of_run (hb : Booted s₀) (hr : Run s₀ tr s)
    (hok : ∀ x ∈ tr, x.1.Proper x.2 ∧ ¬ x.2.Deletes) (t : TaskId) :
    s.sema t ≤ 1 ∧
    (s.sema t = 1 → Since (fun x ↦ x.1.Releases x.2 t) (fun x ↦ ¬ x.2.Resumes t) tr) ∧
    ((∃ e ts, TaskQueue s e ts ∧ t ∈ ts) ∨
      Since (fun x ↦ x.2 = .reqsusp t t) (fun x ↦ ∀ u, x.2 ≠ .reqresm u t) tr → s.Blocked t) ∧
    ∀ tr₁ m e d tr₂, tr = tr₁ ++ (m, .reqwait t e d) :: tr₂ → m.messageHead e = .null →
      (∀ x ∈ tr₂, x.1.pc t ≠ .user) → s.Awaits tr₂ t e d := by
  obtain ⟨b, hS, hI, -, hA⟩ := Run.plain (Q := fun tr _ b ↦ Accounted tr b)
    (R := fun s o ↦ s.Proper o ∧ ¬ o.Deletes) hb hr hb.accounted hok (fun _ _ h ↦ h.1)
    fun tr s b o s' b' hS hI _ hQ ho _ _ hb' ↦ hQ.step hS hI ho.1.1 ho.2 hb'
  refine ⟨?_, fun hs ↦ ?_, ?_, fun tr₁ m e d tr₂ he hm hpc ↦ ?_⟩
  · rw [hS.sema_eq]
    exact (hI.task t).sema_le
  · rw [hS.sema_eq] at hs
    exact hA.released t (by omega)
  · rintro (⟨e, ts, hq, ht⟩ | hs)
    · have hw : b.Waits t := ⟨e, (hS.tasks e).unique hq ▸ ht⟩
      constructor
      · rw [hS.pc_eq]
        exact .inl (((hI.task t).pc_of_waits hw).resolve_right (hA.alive t))
      · rw [hS.sema_eq]
        exact (hI.task t).sema_waits hw
    · obtain ⟨hp, hn⟩ := hA.slept t hs
      constructor
      · rw [hS.pc_eq]
        exact .inr hp
      · rw [hS.sema_eq]
        exact ((hI.task t).needpost_pc hn).2
  · rcases hA.waited tr₁ m t e d tr₂ he hm hpc with ⟨ht, -, hno⟩ | ⟨-, μ, hmsg, hd, honce, hx⟩
    · exact .inl ⟨⟨b.tq e, hS.tasks e, ht⟩, hno⟩
    · rw [← hS.message_eq] at hmsg
      exact .inr ⟨μ, hmsg, hd, honce, hx⟩

/-- One task is handed a message while another one is resumed from suspending itself. -/
theorem wakeUps_of_run_release : ∃ tr s, Run boot tr s ∧
    tr.map Prod.snd = [.reqcmsg 5 0 24 0, .reqsusp 4 4, .reqwait 3 7 9, .reqsend 5 7 (.user 0),
      .reqresm 5 4] ∧
    s.sema 4 = 1 ∧ Since (fun x ↦ x.1.Releases x.2 4) (fun x ↦ ¬ x.2.Resumes 4) tr := by
  obtain ⟨tr, s, hr, hos, hok, hs⟩ := exists_run (n := 9)
    (c := fun _ o ↦ decide o.Plain && match o with
      | .reqdtsk .. | .cancelled .. => false
      | _ => true)
    (s := boot) (l := [.reqcmsg 5 0 24 0, .reqsusp 4 4, .reqwait 3 7 9, .reqsend 5 7 (.user 0),
      .reqresm 5 4]) (p := fun s ↦ s.sema 4 = 1) (by decide +kernel)
  have hf := hr.fresh (fun e ↦ (boot_booted.exchanges e).messageHead) (by rw [hos]; decide)
  have hw := wakeUps_of_run boot_booted hr (fun x hx ↦ by
    obtain ⟨hp, hd⟩ := Bool.and_eq_true_iff.mp (hok x hx)
    refine ⟨⟨of_decide_eq_true hp, hf x hx⟩, fun hdel ↦ ?_⟩
    unfold Op.Deletes at hdel
    split at hdel
    · rename_i ho
      rw [ho] at hd
      cases hd
    · rename_i ho
      rw [ho] at hd
      cases hd
    · exact hdel) 4
  exact ⟨tr, s, hr, hos, of_decide_eq_true hs, hw.2.1 (of_decide_eq_true hs)⟩

end YRmx
