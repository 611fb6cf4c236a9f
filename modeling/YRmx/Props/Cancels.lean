import YRmx.Props.Delays

/-!
# Suspension and the delay list

Library `YRmx`. `reqsend` tests `task->status && delayed`, where the sibling tests in
`reqdtsk` use the bit. The test is right about every waiting task but one that waits without
limit and was suspended meanwhile: the delay list is kept intact as long as no message is
handed to such a task, and a hand-off to one tears it.
-/

namespace YRmx

variable {s₀ s s' : Nucleus} {b b' : Board} {o : Op} {u : TaskId} {tr : List (Nucleus × Op)}

/-- A message is handed to the first waiting task. -/
theorem Sim.handsTo_cases (h : Sim s b) (hI : b.Inv) (hu : s.handsTo o = some u) :
    ∃ e m, s.sends o = some (e, m) ∧ s.taskHead e = .task u ∧ u ∈ b.tq e := by
  rw [h.handsTo_eq hI] at hu
  unfold Board.handsTo at hu
  split at hu
  case h_1 e m ho =>
    obtain ⟨us, hus⟩ := List.head?_eq_some_iff.mp hu
    refine ⟨e, m, (h.sends_eq hI o).trans ho, ?_, by simp [hus]⟩
    have hh : s.taskHead e = _ := (h.tasks e).head_eq
    rw [hh, hus]
    rfl
  case h_2 => cases hu

/-- `reqsend` clears the `waiting` bit before it tests the status byte. -/
theorem giveMessage_status (s : Nucleus) (e : ExchId) (u : TaskId) (m : MsgId) :
    (giveMessage (unlinkFirst s e u) u m).status u = s.status u &&& ~~~waiting := by
  have hun : (unlinkFirst s e u).status = s.status := by
    unfold unlinkFirst
    simp only
    split <;> rfl
  simp [giveMessage, hun]

/-- The test of `reqsend` looks at the bits beside `waiting`. -/
theorem Sim.cancels_eq (h : Sim s b) (hI : b.Inv) (hu : s.handsTo o = some u) :
    s.cancels o = true ↔ b.status u &&& ~~~waiting ≠ 0 := by
  obtain ⟨e, m, ho, ht, -⟩ := h.handsTo_cases hI hu
  unfold Nucleus.cancels
  rw [ho]
  simp only [ht]
  rw [sendCancels_iff, giveMessage_status, h.status_eq]

/-- Exactly an undisturbed hand-off cancels the delay of those who have one. -/
theorem Sim.cancels_iff (h : Sim s b) (hI : b.Inv) (hu : s.handsTo o = some u) :
    (s.cancels o = true ↔ b.Timed u) ↔ s.Calm o := by
  obtain ⟨e, m, -, -, hmem⟩ := h.handsTo_cases hI hu
  have hw : b.Waits u := ⟨e, hmem⟩
  rw [h.cancels_eq hI hu]
  constructor
  · intro hc v hv
    obtain rfl : u = v := Option.some.inj (hu.symm.trans hv)
    rw [h.status_eq]
    rintro ⟨h1, h2⟩
    by_cases ht : b.Timed u
    · rcases (hI.task u).status_timed ht with hs | hs <;> rw [hs] at h1 <;>
        exact h1 (by decide)
    · rcases (hI.task u).status_untimed hw ht with hs | hs <;> rw [hs] at h2 hc
      · exact h2 (by decide)
      · exact ht (hc.mp (by decide))
  · intro hc
    apply (hI.task u).cancels_iff hw
    rw [← h.status_eq]
    exact hc u hu

/-- As long as every hand-off is undisturbed, the delay list holds exactly the tasks that wait
with a time-out pending and every step acts on it as it should; and the next hand-off cancels
the right delay if and only if it is undisturbed, too. -/
theorem cancels_of_run (hb : Booted s₀) (hr : Run s₀ tr s)
    (hok : ∀ x ∈ tr, x.1.Calm x.2 ∧ x.1.Fresh x.2) :
    ∃ dl, DelayMap s dl ∧
      (∀ t e d, s.pc t = .semWait e d → (t ∈ dl.map Prod.fst ↔
        d ≠ 0 ∧ ∃ ts, TaskQueue s e ts ∧ t ∈ ts)) ∧
      (∀ t ∈ dl.map Prod.fst, (∃ e d, s.pc t = .semWait e d) ∨ s.pc t = .dead) ∧
      (∀ o u, s.handsTo o = some u →
        ((s.cancels o = true ↔ u ∈ dl.map Prod.fst) ↔ s.Calm o)) ∧
      ∀ o s', s.Calm o → s.Fresh o → Step s o s' →
        ∃ dl', DelayMap s' dl' ∧ ∀ u k, (u, k) ∈ dl' ↔ s.Remains dl o u k := by
  obtain ⟨b, hS, hI⟩ := hr.calm hb hok
  refine ⟨b.dl, hS.delayMap hI, fun t e d hp ↦ ?_, fun t ht ↦ ?_, fun o u hu ↦ ?_, ?_⟩
  · rw [hS.pc_eq] at hp
    constructor
    · intro ht
      obtain ⟨e', he'⟩ := (hI.task t).waits ht
      rcases (hI.task t).pc_waits he' with ⟨d', hd, hiff⟩ | hd
      · rw [hp] at hd
        cases hd
        exact ⟨hiff.mp ht, b.tq e, hS.tasks e, he'⟩
      · rw [hp] at hd
        cases hd
    · rintro ⟨hd, ts, hq, ht⟩
      rw [hq.unique (hS.tasks e)] at ht
      rcases (hI.task t).pc_waits ht with ⟨d', hd', hiff⟩ | hd'
      · rw [hp] at hd'
        cases hd'
        exact hiff.mpr hd
      · rw [hp] at hd'
        cases hd'
  · rw [hS.pc_eq]
    exact (hI.task t).pc_of_waits ((hI.task t).waits ht)
  · exact hS.cancels_iff hI hu
  · intro o s' hc hf hs
    obtain ⟨b', hb', hS', hI'⟩ := hS.forward hI hc hf hs
    exact ⟨b'.dl, hS'.delayMap hI', hS.remains_iff hI hb'⟩

/-- A timed task is suspended while it waits, and handed a message. -/
theorem cancels_of_run_timed : ∃ tr s, Run boot tr s ∧
    tr.map Prod.snd = [.reqcmsg 7 0 36 0, .reqwait 3 1 5, .reqwait 4 1 9, .reqsusp 6 3,
      .reqsend 7 1 (.user 0)] ∧
    ∃ dl, DelayMap s dl ∧ 3 ∉ dl.map Prod.fst ∧ 4 ∈ dl.map Prod.fst := by
  obtain ⟨tr, s, hr, hos, hok, hs⟩ := exists_run (n := 9) (c := fun s o ↦ decide (s.Calm o))
    (s := boot) (l := [.reqcmsg 7 0 36 0, .reqwait 3 1 5, .reqwait 4 1 9, .reqsusp 6 3,
      .reqsend 7 1 (.user 0)])
    (p := fun s ↦ s.status 3 &&& delayed = 0 ∧ s.status 4 &&& delayed ≠ 0) (by decide +kernel)
  have hf := hr.fresh (fun e ↦ (boot_booted.exchanges e).messageHead) (by rw [hos]; decide)
  obtain ⟨dl, hd, -⟩ := cancels_of_run boot_booted hr
    fun x hx ↦ ⟨of_decide_eq_true (hok x hx), hf x hx⟩
  obtain ⟨h3, h4⟩ := of_decide_eq_true hs
  exact ⟨tr, s, hr, hos, dl, hd, fun hx ↦ (hd.mem_iff 3).mp hx h3, (hd.mem_iff 4).mpr h4⟩

/-- Task 3 was timed once, waits without limit now and is suspended: the hand-off to it calls
`cancel_delay` on its stale links, and task 4, whose time-out is pending, drops out of the
chain. -/
theorem cancels_stale_links : ∃ tr s s', Run boot tr s ∧ (∀ x ∈ tr, x.1.Fresh x.2) ∧
    tr.map Prod.snd = [.reqcmsg 7 0 36 0, .reqcmsg 7 1 36 0, .reqwait 3 1 5,
      .reqsend 7 1 (.user 0), .wake 3, .exitRegion 3, .thaw 3, .reqwait 4 2 10, .reqwait 3 1 0,
      .reqsusp 7 3] ∧
    Step s (.reqsend 7 1 (.user 1)) s' ∧ s.handsTo (.reqsend 7 1 (.user 1)) = some 3 ∧
    s.cancels (.reqsend 7 1 (.user 1)) = true ∧
    s.word0 .delayHead = .task 4 ∧ s.next 4 = .delayTail ∧
    s'.word0 .delayHead = .delayTail ∧ s'.pc 4 = .semWait 2 10 ∧ s'.status 4 = delayed := by
  obtain ⟨tr, s, hr, hos, -, hs⟩ := exists_run (n := 9) (c := fun _ _ ↦ true)
    (s := boot) (l := [.reqcmsg 7 0 36 0, .reqcmsg 7 1 36 0, .reqwait 3 1 5,
      .reqsend 7 1 (.user 0), .wake 3, .exitRegion 3, .thaw 3, .reqwait 4 2 10, .reqwait 3 1 0,
      .reqsusp 7 3])
    (p := fun s ↦ s.handsTo (.reqsend 7 1 (.user 1)) = some 3 ∧
      s.cancels (.reqsend 7 1 (.user 1)) = true ∧
      s.word0 .delayHead = .task 4 ∧ s.next 4 = .delayTail ∧
      (step 9 s (.reqsend 7 1 (.user 1))).toOption.any fun s' ↦
        s'.word0 .delayHead = .delayTail ∧ s'.pc 4 = .semWait 2 10 ∧ s'.status 4 = delayed)
    (by decide +kernel)
  obtain ⟨h1, h2, h3, h4, h5⟩ := of_decide_eq_true hs
  have hf := hr.fresh (fun e ↦ (boot_booted.exchanges e).messageHead) (by rw [hos]; decide)
  obtain ⟨s', hstep, h5⟩ := exists_step h5
  exact ⟨tr, s, s', hr, hf, hos, hstep, h1, h2, h3, h4, of_decide_eq_true h5⟩

end YRmx
