import YRmx.Race.Removal
import YRmx.Transition.Always

/-!
# Suspension by another task

Library `YRmx`. `exit_region` is to hold a task that another one suspended. Its inner test
`task->status & needpost == 0` compares first and never passes, so nobody is ever held there, and on
the way to it the task overwrites its status byte. A suspended task is kept from returning exactly
as long as it comes neither to that test nor to a line by which its `suspended` bit is lost.
-/

namespace YRmx

open Transition

/-- Another task has suspended the task, and nobody has resumed it since. -/
def Suspended (vs : List Event) (t : TaskId) : Prop :=
  Since (fun v ↦ v.suspends = some t) (fun v ↦ v.resumes ≠ some t) vs

instance (vs : List Event) (t : TaskId) : Decidable (Suspended vs t) :=
  inferInstanceAs (Decidable (Since _ _ _))

variable {s₀ : Nucleus} {x x' : Traffic} {v : Event} {vs : List Event} {t u : TaskId} {n : Nat}
  {tr : List (Traffic × Event)}

/-- One more event begins a suspension, or lets it last. -/
theorem suspended_snoc : Suspended (vs ++ [v]) t ↔
    v.suspends = some t ∨ Suspended vs t ∧ v.resumes ≠ some t := since_snoc

/-- Who suspends another task. -/
theorem suspends_eq_some : v.suspends = some t ↔ ∃ u ≠ t, v = .reqsusp u t := by
  cases v with
  | reqsusp u w =>
    by_cases hu : u = w
    · simp only [Event.suspends, if_pos hu, reduceCtorEq, Event.reqsusp.injEq, false_iff]
      rintro ⟨u', hn, rfl, rfl⟩
      exact hn hu
    · simp only [Event.suspends, if_neg hu, Option.some.injEq, Event.reqsusp.injEq]
      exact ⟨fun h ↦ ⟨u, h ▸ hu, rfl, h⟩, fun ⟨_, _, _, h⟩ ↦ h⟩
  | _ => simp [Event.suspends]

namespace Traffic

/-- A task that is suspended by another one is not behind the test of `exit_region`, and as long
as it is suspended it comes neither to that test nor, unless it was deleted, to a line by which its
`suspended` bit is lost. -/
structure Heeds (vs : List Event) (x : Traffic) (v : Event) : Prop where
  early : ∀ {t}, v.suspends = some t → ¬ (x.s.pc t).Passed
  inside : ∀ {t}, Suspended vs t → v ≠ .turn (.other (.exitRegion t))
  marked : ∀ {t}, Suspended vs t → ¬ Removed vs t → ¬ x.Wipes t v

/-- A call ends in `exit_region` and returns to the task. -/
def Returns (x : Traffic) (t : TaskId) (v : Event) : Prop :=
  v = .turn (.other (.thaw t)) ∧ (x.s.pc t).Passed

/-- The task is not let past the test of `exit_region` and no call returns to it; its `suspended`
bit is set unless it was deleted. A second suspension changes nothing, and the first `reqresm`
clears the bit and posts the semaphore of a task that sleeps in `reqsusp`. -/
structure Honours (vs : List Event) (x : Traffic) (t : TaskId) : Prop where
  inside : ¬ (x.s.pc t).Passed
  stays : ∀ v x', x.Reacts v x' → ¬ x.Returns t v
  marked : x.s.status t &&& suspended ≠ 0 ∨ Removed vs t
  again : x.s.status t &&& suspended ≠ 0 → ∀ u x', u ≠ t → x.Reacts (.reqsusp u t) x' → x' = x
  itself : x.s.status t &&& suspended ≠ 0 → ∀ x', x.Reacts (.reqsusp t t) x' →
    x' = x.ctl fun c ↦ (c.setStatus t (c.status t ||| needpost)).goto t .suspWait
  released : x.s.status t &&& suspended ≠ 0 → ∀ u x', x.Reacts (.reqresm u t) x' →
    x'.s.status t &&& suspended = 0 ∧
      x'.s.sema t = if x.s.status t &&& needpost = 0 then x.s.sema t else x.s.sema t + 1

end Traffic

/-! ### Repeated suspension and resumption -/

private theorem susp_set : ∀ st : BitVec 8, st &&& suspended ≠ 0 → st ||| suspended = st := by
  decide

private theorem susp_kept : ∀ st : BitVec 8, (st ||| suspended) &&& suspended ≠ 0 ∧
    (st ||| suspended ||| needpost) &&& suspended ≠ 0 := by decide

private theorem susp_cleared : ∀ st : BitVec 8, (st &&& ~~~suspended) &&& suspended = 0 ∧
    (st &&& ~~~suspended &&& ~~~needpost) &&& suspended = 0 ∧
    (st &&& ~~~(suspended ||| needpost)) &&& suspended = 0 := by decide

section

variable {c : Control}

/-- Suspending a suspended task changes nothing. -/
theorem reqsusp_suspended (h : c.status t &&& suspended ≠ 0) (hu : u ≠ t) :
    c.reqsusp u t = c := by
  rw [Board.reqsusp_other c hu.symm, susp_set _ h]
  unfold Control.setStatus
  rw [Function.update_eq_self]

/-- A suspended task that suspends itself goes to sleep, and its byte says so. -/
theorem reqsusp_asleep (h : c.status t &&& suspended ≠ 0) :
    c.reqsusp t t = (c.setStatus t (c.status t ||| needpost)).goto t .suspWait := by
  rw [Board.reqsusp_self, susp_set _ h]

/-- A suspended task is resumed; a post wakes the one that sleeps in `reqsusp`. -/
theorem reqresm_suspended (h : c.status t &&& suspended ≠ 0) :
    (c.reqresm t).status t &&& suspended = 0 ∧
      (c.reqresm t).sema t = if c.status t &&& needpost = 0 then c.sema t else c.sema t + 1 := by
  by_cases hn : c.status t &&& needpost = 0
  · rw [Board.reqresm_other h hn, if_pos hn]
    refine ⟨?_, rfl⟩
    rw [Control.setStatus_status, Function.update_self]
    exact (susp_cleared _).1
  · rw [Board.reqresm_self h hn, if_neg hn]
    constructor
    · rw [Control.semPost_status, Control.setStatus_status, Function.update_self]
      exact (susp_cleared _).2.1
    · simp

end

namespace Traffic

/-- What a suspension by any task does to the bit. -/
theorem react_reqsusp (h : x.react n (.reqsusp u t) = .ok x') :
    x'.s.status t &&& suspended ≠ 0 ∧ (u ≠ t → x'.s.pc t = x.s.pc t) := by
  obtain ⟨-, h⟩ := require_bind_eq_ok.mp h
  cases h
  show (x.s.reqsusp u t).status t &&& _ ≠ 0 ∧ (u ≠ t → (x.s.reqsusp u t).pc t = x.s.pc t)
  by_cases hu : u = t
  · subst hu
    rw [Board.reqsusp_self, Control.goto_status, Control.setStatus_status, Function.update_self]
    exact ⟨(susp_kept _).2, fun hn ↦ absurd rfl hn⟩
  · rw [Board.reqsusp_other _ (Ne.symm hu), Control.setStatus_status, Function.update_self]
    exact ⟨(susp_kept _).1, fun _ ↦ rfl⟩

/-- The test of `exit_region` lets everybody pass. -/
theorem react_exitRegion (h : x.react n (.turn (.other (.exitRegion t))) = .ok x') :
    ∃ c, x.s.pc t = .exitRegion c ∧ x'.s.pc t = .thaw c := by
  obtain ⟨-, h⟩ := require_bind_eq_ok.mp h
  obtain ⟨-, h⟩ := require_bind_eq_ok.mp h
  obtain ⟨s', h₁, h⟩ := Exec.bind_eq_ok.mp h
  cases h
  simp only [step, exitAt] at h₁
  split at h₁
  · rename_i c hc
    cases h₁
    refine ⟨c, hc, ?_⟩
    show (x.s.toControl.exitRegion t c).pc t = .thaw c
    rw [Board.exitRegion_eq, Control.goto_pc, Function.update_self]
  · cases h₁

/-- At a line that writes the task's own status byte the `suspended` bit is lost. -/
theorem react_wipes (h : x.react n v = .ok x') (hw : x.Wipes t v) :
    x'.s.status t &&& suspended = 0 := by
  cases v with
  | suspWake u =>
    obtain rfl : u = t := hw
    obtain ⟨-, h⟩ := require_bind_eq_ok.mp h
    cases h
    show Function.update x.s.status u _ u &&& _ = 0
    rw [Function.update_self]
    exact (susp_cleared _).2.2
  | heldWake u =>
    obtain rfl : u = t := hw
    obtain ⟨-, h⟩ := require_bind_eq_ok.mp h
    obtain ⟨s', h₁, h⟩ := Exec.bind_eq_ok.mp h
    cases h
    unfold heldAt at h₁
    split at h₁
    · obtain ⟨-, h₁⟩ := require_bind_eq_ok.mp h₁
      cases h₁
      show Function.update x.s.status u _ u &&& _ = 0
      rw [Function.update_self]
      exact (susp_cleared _).2.2
    · cases h₁
  | turn i =>
    obtain ⟨-, h⟩ := require_bind_eq_ok.mp h
    cases i with
    | line u =>
      obtain ⟨rfl, hp⟩ := hw
      obtain ⟨⟨s', p'⟩, h₁, h⟩ := Exec.bind_eq_ok.mp h
      cases h
      show s'.status u &&& suspended = 0
      cases hpl : x.place u with
      | wait e d l =>
        rw [hpl] at hp h₁
        cases l with
        | delay =>
          obtain ⟨-, h₁⟩ := require_bind_eq_ok.mp h₁
          obtain ⟨⟨s₁, l'⟩, h₂, h₁⟩ := Exec.bind_eq_ok.mp h₁
          cases h₁
          obtain ⟨s₂, h₃, h₂⟩ := Exec.bind_eq_ok.mp h₂
          cases h₂
          rw [startDelay_control h₃, Control.setStatus_status, Function.update_self]
          split <;> decide
        | _ => exact hp.elim
      | wake e d =>
        rw [hpl] at h₁
        simp only [placeStep] at h₁
        split at h₁ <;> cases h₁
        show Function.update x.s.status u 0 u &&& _ = 0
        rw [Function.update_self]
        decide
      | _ =>
        rw [hpl] at hp
        exact hp.elim
    | other o =>
      cases o with
      | thaw u =>
        obtain ⟨rfl, hp⟩ := hw
        obtain ⟨-, h⟩ := require_bind_eq_ok.mp h
        obtain ⟨s', h₁, h⟩ := Exec.bind_eq_ok.mp h
        cases h
        obtain ⟨-, h₁⟩ := require_bind_eq_ok.mp h₁
        unfold thawAt at h₁
        split at h₁
        · rename_i c hc
          rw [hc] at hp
          exact hp.elim
        · cases h₁
          show Function.update x.s.status u running u &&& _ = 0
          rw [Function.update_self]
          decide
        · cases h₁
      | _ => exact hw.elim
    | _ => exact hw.elim
  | _ => exact hw.elim

/-! ### Runs -/

/-- Nobody is held in `exit_region`, a suspended task is not behind its test, and its `suspended`
bit is set unless the task was deleted. -/
structure Kept (vs : List Event) (x : Traffic) : Prop where
  held : ∀ t c, x.s.pc t ≠ .held c
  inside : ∀ {t}, Suspended vs t → ¬ (x.s.pc t).Passed
  marked : ∀ {t}, Suspended vs t → x.s.status t &&& suspended ≠ 0 ∨ Removed vs t

/-- What is kept is honoured. -/
theorem Kept.honours (h : Kept vs x) (ht : Suspended vs t) : Honours vs x t where
  inside := h.inside ht
  stays v x' _ hv := by
    exact h.inside ht hv.2
  marked := h.marked ht
  again hb u x' hu hs := by
    obtain ⟨n, hs⟩ := hs
    obtain ⟨-, hs⟩ := require_bind_eq_ok.mp hs
    rw [← Except.ok.inj hs]
    show ({ x with s := { x.s with toControl := x.s.toControl.reqsusp u t } } : Traffic) = x
    rw [reqsusp_suspended hb hu]
  itself hb x' hs := by
    obtain ⟨n, hs⟩ := hs
    obtain ⟨-, hs⟩ := require_bind_eq_ok.mp hs
    rw [← Except.ok.inj hs]
    show ({ x with s := { x.s with toControl := x.s.toControl.reqsusp t t } } : Traffic) = _
    rw [reqsusp_asleep hb]
  released hb u x' hs := by
    obtain ⟨n, hs⟩ := hs
    obtain ⟨-, hs⟩ := require_bind_eq_ok.mp hs
    rw [← Except.ok.inj hs]
    exact reqresm_suspended hb

/-- Nobody comes to be held. -/
theorem react_held (h : ∀ t c, x.s.pc t ≠ .held c) (hs : x.Reacts v x') (t : TaskId) (c : Call) :
    x'.s.pc t ≠ .held c := by
  obtain ⟨n, hs⟩ := hs
  by_cases hv : v = .turn (.other (.exitRegion t))
  · obtain ⟨c', -, hp⟩ := react_exitRegion (hv ▸ hs)
    rw [hp]
    simp
  · rcases (react_spares hs hv (h t)).pc with hx | hx
    · rw [hx]
      exact h t c
    · exact (hx c).2

/-- Every event that heeds the suspended tasks keeps them suspended. -/
theorem Kept.step (h : Kept vs x) (hc : Heeds vs x v) (hs : x.Reacts v x') :
    Kept (vs ++ [v]) x' := by
  refine ⟨react_held h.held hs, fun {t} ht hp ↦ ?_, fun {t} ht ↦ ?_⟩ <;> obtain ⟨n, hs⟩ := hs
  · rcases suspended_snoc.mp ht with hv | ⟨ht, -⟩
    · obtain ⟨u, hu, rfl⟩ := suspends_eq_some.mp hv
      rw [(react_reqsusp hs).2 hu] at hp
      exact hc.early hv hp
    · rcases (react_spares hs (hc.inside ht) (h.held t)).pc with hx | hx
      · exact h.inside ht (hx ▸ hp)
      · cases hpc : x'.s.pc t with
        | thaw c => exact (hx c).1 hpc
        | _ =>
          rw [hpc] at hp
          exact hp
  · rw [removed_snoc]
    rcases suspended_snoc.mp ht with hv | ⟨hts, hr⟩
    · obtain ⟨u, -, rfl⟩ := suspends_eq_some.mp hv
      exact .inl (react_reqsusp hs).1
    · rcases h.marked hts with hb | hd
      · by_cases hd : Removed vs t
        · exact .inr (.inl hd)
        cases v with
        | reqsusp u w =>
          by_cases hw : w = t
          · exact .inl (hw ▸ react_reqsusp hs).1
          · refine .inl ?_
            rwa [(react_spares hs (by simp) (h.held t)).bit (by simp [Wipes, Event.marks, hw])
              (by decide)]
        | reqdtsk u w =>
          by_cases hw : w = t
          · exact .inr (.inr (hw ▸ rfl))
          · refine .inl ?_
            rwa [(react_spares hs (by simp) (h.held t)).bit (by simp [Wipes, Event.marks, hw])
              (by decide)]
        | reqresm u w =>
          have hw : w ≠ t := fun he ↦ hr (he ▸ rfl)
          refine .inl ?_
          rwa [(react_spares hs (by simp) (h.held t)).bit (by simp [Wipes, Event.marks, hw])
              (by decide)]
        | turn | reqctsk | reqdxch | suspWake | heldWake | cancelled =>
          refine .inl ?_
          rwa [(react_spares hs (hc.inside hts) (h.held t)).bit ?_ (by decide)]
          rintro (hn | hn)
          · exact hc.marked hts hd hn
          · cases hn
      · exact .inr (.inl hd)

/-- An event that does not heed a suspended task lets it past the test of `exit_region`, or its
`suspended` bit is lost. -/
theorem heeds_of_honours (hs : x.Reacts v x')
    (hp : ∀ t, Suspended (vs ++ [v]) t → Honours (vs ++ [v]) x' t) : Heeds vs x v := by
  obtain ⟨n, hs⟩ := hs
  refine ⟨fun {t} hv hc ↦ ?_, fun {t} ht hv ↦ ?_, fun {t} ht hd hw ↦ ?_⟩
  · obtain ⟨u, hu, rfl⟩ := suspends_eq_some.mp hv
    apply (hp t (suspended_snoc.mpr (.inl hv))).inside
    rwa [(react_reqsusp hs).2 hu]
  · subst hv
    obtain ⟨c, -, hc⟩ := react_exitRegion hs
    exact (hp t (suspended_snoc.mpr (.inr ⟨ht, by simp [Event.resumes]⟩))).inside (hc ▸ trivial)
  · have hr : v.resumes ≠ some t := fun hx ↦ by
      cases v with
      | reqresm => exact hw
      | _ => cases hx
    have hd' : ¬ Removed (vs ++ [v]) t := by
      rw [removed_snoc]
      rintro (hx | hx)
      · exact hd hx
      · cases v with
        | reqdtsk => exact hw
        | _ => cases hx
    exact ((hp t (suspended_snoc.mpr (.inr ⟨ht, hr⟩))).marked.resolve_right hd')
      (react_wipes hs hw)

/-- Suspension is honoured at every point of a run exactly as long as no task is suspended between
the test of `exit_region` and the end of its call and no suspended task comes to that test or to a
line that overwrites its status byte. Nobody is ever held in `exit_region`: the test lets every
task pass. -/
theorem suspension_of_run (hb : Booted s₀) (hr : Course (start s₀) tr x) :
    (Always (fun tr x ↦ ∀ t, Suspended (tr.map Prod.snd) t → Honours (tr.map Prod.snd) x t) tr x ↔
      Throughout (fun tr x v ↦ Heeds (tr.map Prod.snd) x v) tr) ∧
    Always (fun _ x ↦ ∀ t c, x.s.pc t ≠ .held c ∧ ∀ x',
      x.Reacts (.turn (.other (.exitRegion t))) x' → x.s.pc t = .exitRegion c →
        x'.s.pc t = .thaw c) tr x := by
  have hheld : ∀ t c, (start s₀).s.pc t ≠ .held c := fun t c ↦ by
    show s₀.pc t ≠ .held c
    rw [(hb.tasks t).2.2.1]
    simp
  have hnil : ∀ t, ¬ Suspended [] t := fun t ↦ not_since_nil
  refine ⟨?_, ?_⟩
  · refine hr.always_iff (J := fun tr x ↦ Kept (tr.map Prod.snd) x) (H := fun _ _ _ ↦ True)
      ⟨hheld, fun ht ↦ absurd ht (hnil _), fun ht ↦ absurd ht (hnil _)⟩ (fun _ _ _ _ ↦ trivial)
      (fun hJ _ hc hs ↦ ?_) (fun hJ t ht ↦ hJ.honours ht) fun _ _ hc hs hp ↦ hc ?_
    · rw [List.map_append]
      exact hJ.step hc hs
    · rw [List.map_append] at hp
      exact heeds_of_honours hs hp
  · refine (hr.always (J := fun _ x ↦ ∀ t c, x.s.pc t ≠ .held c) (C := fun _ _ _ ↦ True) hheld
      (fun h _ hs ↦ react_held h hs) fun _ _ _ _ ↦ trivial).mono fun _ y h t c ↦ ⟨h t c, ?_⟩
    rintro x' ⟨n, hs⟩ hp
    obtain ⟨c', hc, hp'⟩ := react_exitRegion hs
    rw [hp] at hc
    cases hc
    exact hp'

/-- A test that an event passes when no task that was ever suspended by another one comes to a
line that `Heeds` is about. -/
def heedful (vs : List Event) (x : Traffic) : Event → Bool
  | .reqsusp _ t => ¬ (x.s.pc t).Passed
  | .turn (.line t) => t ∉ vs.filterMap Event.suspends ∨ ¬ (x.place t).Wipes
  | .turn (.send ..) | .turn (.wait ..) | .turn .tick | .turn (.other (.reqcmsg ..)) => true
  | .reqresm .. => true
  | _ => false

/-- The test is right. -/
theorem heeds_of_heedful (h : heedful vs x v = true) : Heeds vs x v := by
  have hmem : ∀ {t}, Suspended vs t → t ∈ vs.filterMap Event.suspends := by
    rintro t ⟨a, w, b, rfl, hw, -⟩
    exact List.mem_filterMap.mpr ⟨w, by simp, hw⟩
  refine ⟨fun {t} hv ↦ ?_, fun {t} _ hv ↦ ?_, fun {t} ht _ hw ↦ ?_⟩
  · obtain ⟨u, -, rfl⟩ := suspends_eq_some.mp hv
    exact of_decide_eq_true h
  · subst hv
    cases h
  · cases v with
    | turn i =>
      cases i with
      | line u =>
        obtain ⟨rfl, hp⟩ := hw
        exact (of_decide_eq_true h).elim (fun hn ↦ hn (hmem ht)) fun hn ↦ hn hp
      | other o =>
        cases o with
        | thaw => cases h
        | _ => exact hw
      | _ => exact hw
    | suspWake | heldWake => cases h
    | _ => exact hw

/-- Task 3 is suspended in `reqwait` behind the write of its status byte, and once more while it
is delayed; a message goes to another exchange, and task 3 is resumed. -/
def suspendedWait : List Event :=
  .turn (.other (.reqcmsg 7 0 36 0)) :: .turn (.wait 3 1 5) ::
  List.replicate 8 (.turn (.line 3)) ++ .reqsusp 7 3 :: .turn (.line 3) :: .turn .tick ::
  .reqsusp 6 3 :: .turn (.send 7 2 (.user 0)) :: List.replicate 4 (.turn (.line 7)) ++
  [.reqresm 7 3]

/-- `suspendedWait` is a run that honours the suspension. -/
theorem suspension_of_run_delayed : ∃ tr x, Course (start boot) tr x ∧
    tr.map Prod.snd = suspendedWait ∧
    Always (fun tr x ↦ ∀ t, Suspended (tr.map Prod.snd) t → Honours (tr.map Prod.snd) x t) tr x ∧
    x.s.status 3 = delayed ∧ x.place 3 = .asleep 1 5 := by
  obtain ⟨tr, x, hr, hl, hq, hp⟩ := Trace.exists_of_traced (s := start boot) (f := react 9)
    (r := .blocked) (q := fun tr x v ↦ heedful (tr.map Prod.snd) x v)
    (Q := fun tr x v ↦ Heeds (tr.map Prod.snd) x v)
    (p := fun y ↦ decide (y.2.s.status 3 = delayed ∧ y.2.place 3 = .asleep 1 5))
    (l := suspendedWait) (fun a i b h ↦ show Reacts a i b from ⟨9, h⟩)
    (fun _ _ _ h ↦ heeds_of_heedful h) (by decide +kernel)
  exact ⟨tr, x, hr, hl, (suspension_of_run boot_booted hr).1.mpr hq, of_decide_eq_true hp⟩

/-- Task 3 is suspended while it is delayed and is handed a message, task 4 is suspended in
`reqwait` before the write of its status byte, and task 5 at the end of a `reqdxch`. -/
def suspendedThrice : List Event :=
  .turn (.other (.reqcmsg 7 0 36 0)) :: .turn (.wait 3 1 5) ::
  List.replicate 9 (.turn (.line 3)) ++ .reqsusp 7 3 :: .turn (.send 7 1 (.user 0)) ::
  List.replicate 12 (.turn (.line 7)) ++ List.replicate 4 (.turn (.line 3)) ++
  [.turn (.other (.exitRegion 3)), .turn (.other (.thaw 3))] ++
  .turn (.wait 4 2 0) :: List.replicate 7 (.turn (.line 4)) ++ .reqsusp 7 4 ::
  List.replicate 2 (.turn (.line 4)) ++
  [.reqdxch 5 2, .reqsusp 7 5, .turn (.other (.exitRegion 5))]

/-- Nobody resumes the three tasks. Task 3 has returned with the message, task 4 has lost its
`suspended` bit, and task 5 is past the test of `exit_region` with the bit set. -/
theorem suspension_not_honoured : ∃ tr x, Course (start boot) tr x ∧
    tr.map Prod.snd = suspendedThrice ∧
    (∀ t, t = 3 ∨ t = 4 ∨ t = 5 →
      Suspended (tr.map Prod.snd) t ∧ ¬ Honours (tr.map Prod.snd) x t) ∧
    x.s.pc 3 = .user ∧ x.s.message 3 = .msg (.user 0) ∧
    x.s.pc 4 = .semWait 2 0 ∧ x.s.status 4 = waiting ∧
    x.s.pc 5 = .thaw (.reqdxch 2) ∧ x.s.status 5 &&& suspended ≠ 0 := by
  obtain ⟨tr, x, hr, hl, hp⟩ := Trace.exists_of_foldlM (s := start boot) (f := react 9)
    (p := fun y ↦ decide (y.s.pc 3 = .user ∧ y.s.message 3 = .msg (.user 0) ∧
      y.s.status 3 = running ∧ y.s.pc 4 = .semWait 2 0 ∧ y.s.status 4 = waiting ∧
      y.s.pc 5 = .thaw (.reqdxch 2) ∧ y.s.status 5 &&& suspended ≠ 0))
    (l := suspendedThrice) (fun a i b h ↦ show Reacts a i b from ⟨9, h⟩) (by decide +kernel)
  obtain ⟨h1, h2, h3, h4, h5, h6, h7⟩ := of_decide_eq_true hp
  have hlost : ∀ t, x.s.status t &&& suspended = 0 → ¬ Removed (tr.map Prod.snd) t →
      ¬ Honours (tr.map Prod.snd) x t :=
    fun t hb hd hh ↦ hh.marked.elim (fun hx ↦ hx hb) hd
  refine ⟨tr, x, hr, hl, ?_, h1, h2, h4, h5, h6, h7⟩
  rintro t (rfl | rfl | rfl)
  · exact ⟨hl ▸ by decide, hlost 3 (by rw [h3]; decide) (hl ▸ by decide)⟩
  · exact ⟨hl ▸ by decide, hlost 4 (by rw [h5]; decide) (hl ▸ by decide)⟩
  · exact ⟨hl ▸ by decide, fun hh ↦ hh.inside (by rw [h6]; trivial)⟩

end Traffic

end YRmx
