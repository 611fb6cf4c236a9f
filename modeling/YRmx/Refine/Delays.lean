import YRmx.Refine.Sim

/-!
# Changes of the delay list

Library `YRmx`. `cancel_delay`, the insertion of a timed `reqwait` and the count down of a tick
do to the delay list what their namesakes do to the abstract one.
-/

namespace YRmx

open Intrusive Transition

variable {s s' : Nucleus} {b : Board}

/-- A change of the delay list leaves the queues as they are. -/
theorem Sim.withDelays (h : Sim s b) {c : Control} {dl : List (TaskId × Nat)}
    (hc : s'.toControl = c) (hp : c.pc = b.pc) (h2 : s'.word2 = s.word2)
    (h3 : s'.taskTail = s.taskTail)
    (h0 : ∀ a, (∀ t, a ≠ .task t) → a ≠ .delayHead → s'.word0 a = s.word0 a)
    (h1 : ∀ e, s'.word1 (.exch e) = s.word1 (.exch e))
    (hd : DelayList s'.word0 s'.word1 s'.delay dl) :
    Sim s' { b with toControl := c, dl := dl } where
  control := hc
  messages e := (h.messages e).frame (h0 _ (by simp) (by simp))
    (fun m _ ↦ h0 _ (by simp) (by simp)) (h1 e)
  tasks e := (h.tasks e).frame (by simp [h2]) (by simp [h2]) (by simp [h3])
  delays := hd
  own m hm := by rw [← h.own m hm, Nucleus.msgLink, h0 _ (by simp) (by simp)]
  link {t e d} ht := by
    rw [Nucleus.link, h2]
    exact h.link (hp ▸ ht : b.pc t = .semWait e d)

/-! ### Removal -/

/-- `cancel_delay` on a listed task takes it out of the delay list and clears its bit. -/
theorem Sim.cancelDelay (h : Sim s b) {t : TaskId} (hd : (b.dl.map Prod.fst).Nodup)
    (hk : ∀ p ∈ b.dl, p.2 ≤ 0xFFFF) (ht : b.Timed t) :
    ∃ s', YRmx.cancelDelay s t = .ok s' ∧
      Sim s' ((b.dropDelay t).ctl (·.setStatus t (b.status t &&& ~~~delayed))) := by
  obtain ⟨hnt, hp, hn, hrem⟩ := h.delays.cancel hd hk ht
  have hn0 : s.word0 (.task t) ≠ .null := by
    rcases hn with hn | ⟨x, hn⟩ <;> simp [hn]
  have hp0 : s.word1 (.task t) ≠ .null := by
    rcases hp with hp | ⟨x, hp⟩ <;> simp [hp]
  have hst : s.status = b.status := congrArg Control.status h.control
  have hrun : ∃ s', YRmx.cancelDelay s t = .ok s' ∧
      s'.toControl = s.setStatus t (s.status t &&& ~~~delayed) ∧
      s'.word0 = Function.update s.word0 (s.word1 (.task t)) (s.word0 (.task t)) ∧
      s'.word1 = Function.update s.word1 (s.word0 (.task t)) (s.word1 (.task t)) ∧
      s'.delay = Function.update (Function.update s.delay (s.word0 (.task t))
        (s.delay (s.word0 (.task t)) + s.delay (.task t))) .delayTail 0xFFFF ∧
      s'.word2 = s.word2 ∧ s'.taskTail = s.taskTail := by
    simp only [YRmx.cancelDelay, cancelDelayUnsafe, Nucleus.next, Nucleus.prev, deref,
      if_neg hn0, Function.update_of_ne hnt.symm, if_neg hp0, Exec.ok_bind]
    exact ⟨_, rfl, rfl, rfl, rfl, rfl, rfl, rfl⟩
  obtain ⟨s', hs', hc, h0, h1, h4, h2, h3⟩ := hrun
  rw [hst, h.control] at hc
  rw [← h0, ← h1, ← h4] at hrem
  refine ⟨s', hs', ?_⟩
  refine h.withDelays hc rfl h2 h3 (fun a ha hah ↦ ?_) (fun e ↦ ?_) hrem
  · rw [h0]
    refine Function.update_of_ne ?_ _ _
    rcases hp with hp | ⟨x, hp⟩
    · rwa [hp]
    · rw [hp]
      exact ha x
  · rw [h1]
    refine Function.update_of_ne ?_ _ _
    rcases hn with hn | ⟨x, hn⟩ <;> simp [hn]

/-! ### Insertion -/

/-- What an insertion into the delay list leaves alone, and what it does. -/
structure Inserts (s : Nucleus) (dl : List (TaskId × Nat)) (s' : Nucleus) : Prop where
  control : s'.toControl = s.toControl
  word2 : s'.word2 = s.word2
  taskTail : s'.taskTail = s.taskTail
  word0 : ∀ a, (∀ t, a ≠ .task t) → a ≠ .delayHead → s'.word0 a = s.word0 a
  word1 : ∀ e, s'.word1 (.exch e) = s.word1 (.exch e)
  delays : DelayList s'.word0 s'.word1 s'.delay dl

/-- `ycore.c:1175–1186` puts the caller into the delay list in front of the tasks that are
due no earlier. -/
theorem DelayList.insertDelay {dl : List (TaskId × Nat)}
    (hdl : DelayList s.word0 s.word1 s.delay dl) {t : TaskId} {d : BitVec 16}
    (hd : (dl.map Prod.fst).Nodup) (ht : t ∉ dl.map Prod.fst) (h0 : d ≠ 0) :
    ∃ s', Yields (fun n ↦ YRmx.insertDelay n
      { s with delay := Function.update s.delay (.task t) d } t) s' ∧
      Inserts s (dl.orderedInsert due (t, d.toNat)) s' := by
  have hloop : DelayList.Compares s.word0 s.delay t (insertLoop t)
      fun v ↦ { s with delay := Function.update s.delay (.task t) v } := by
    intro n v p hp hpt
    simp only [insertLoop, deref, if_neg hp, Exec.ok_bind, Function.update_self,
      Function.update_of_ne hpt, Function.update_idem]
  obtain ⟨v', hv', N, hN⟩ := hloop.search hdl ht h0
  obtain ⟨hq, hp, hins⟩ := hdl.insert hd ht hv' rfl
  generalize DelayList.front _ = q at *
  have hqt : q ≠ .task t := by
    rcases hq with rfl | ⟨u, hu, rfl⟩
    · simp
    · simpa using hu
  have hp0 : s.word1 q ≠ .null := by
    rcases hp with hp | ⟨u, -, hp⟩ <;> simp [hp]
  have hone : ∃ s', YRmx.insertDelay N
      { s with delay := Function.update s.delay (.task t) d } t = .ok s' ∧
      s'.toControl = s.toControl ∧
      s'.word0 = Function.update (Function.update s.word0 (.task t) q) (s.word1 q) (.task t) ∧
      s'.word1 = Function.update (Function.update s.word1 (.task t) (s.word1 q)) q (.task t) ∧
      s'.delay = Function.update (Function.update (Function.update s.delay (.task t) v') q
        (s.delay q - v')) .delayTail 0xFFFF ∧
      s'.word2 = s.word2 ∧ s'.taskTail = s.taskTail := by
    simp only [YRmx.insertDelay, hN N le_rfl, Exec.ok_bind, Nucleus.prev,
      Function.update_self, Function.update_of_ne hqt.symm, deref, if_neg hp0]
    exact ⟨_, rfl, rfl, rfl, rfl, rfl, rfl, rfl⟩
  obtain ⟨s', hs', hc, h0, h1, h4, h2, h3⟩ := hone
  refine ⟨s', (insertDelay_mono _ t).yields hs', hc, h2, h3, fun a ha hah ↦ ?_, fun e ↦ ?_, ?_⟩
  · have hap : a ≠ s.word1 q := by
      rcases hp with hp | ⟨u, -, hp⟩ <;> rw [hp]
      · exact hah
      · exact ha u
    rw [h0, Function.update_of_ne hap, Function.update_of_ne (ha t)]
  · have heq : Addr.exch e ≠ q := by
      rcases hq with rfl | ⟨u, -, rfl⟩ <;> simp
    rw [h1, Function.update_of_ne heq, Function.update_of_ne (by simp)]
  · rw [h0, h1, h4]
    exact hins

/-- The same for the whole state. -/
theorem Sim.insertDelay (h : Sim s b) {t : TaskId} {d : BitVec 16}
    (hd : (b.dl.map Prod.fst).Nodup) (ht : ¬ b.Timed t) (h0 : d ≠ 0) :
    ∃ s', Yields (fun n ↦ YRmx.insertDelay n
      { s with delay := Function.update s.delay (.task t) d } t) s' ∧
      Sim s' (b.insertDelay t d.toNat) := by
  obtain ⟨s', hs', hi⟩ := h.delays.insertDelay hd ht h0
  exact ⟨s', hs', h.withDelays (hi.control.trans h.control) rfl hi.word2 hi.taskTail hi.word0
    hi.word1 hi.delays⟩

/-! ### Ticks -/

/-- `ycore.c:1287–1299` counts the remaining times down. -/
theorem Sim.countDown (h : Sim s b) (hd : (b.dl.map Prod.fst).Nodup) :
    ∃ s', YRmx.countDown s = .ok (s', b.countDown.2) ∧ Sim s' b.countDown.1 := by
  have hdl := h.delays
  have hnext := hdl.next_head
  cases hb : b.dl with
  | nil =>
    rw [hb] at hnext
    exact ⟨s, by simp [YRmx.countDown, Board.countDown, hb, hnext, DelayList.front, deref,
      hdl.tail], by simpa [Board.countDown, hb] using h⟩
  | cons p r =>
    obtain ⟨t, k⟩ := p
    rw [hb] at hdl hd hnext
    have hnext : s.word0 .delayHead = .task t := hnext
    have hk := hdl.delay_head
    have hmax : s.delay (.task t) = 0xFFFF ↔ k = 0xFFFF := by
      rw [← hk, ← BitVec.toNat_inj]
      rfl
    have hzero : s.delay (.task t) = 0 ↔ k = 0 := by
      rw [← hk, ← BitVec.toNat_inj]
      rfl
    simp only [YRmx.countDown, Board.countDown, hb, hnext, deref, reduceCtorEq, if_false,
      Exec.ok_bind, ne_eq, hmax, hzero]
    by_cases h1 : k = 0xFFFF
    · exact ⟨s, by simp [h1], by simpa [h1] using h⟩
    · by_cases h2 : k = 0
      · exact ⟨s, by simp [h2], by simpa [h2] using h⟩
      · have hpos : 0 < (s.delay (.task t)).toNat := by omega
        have hdec : (s.delay (.task t) - 1).toNat = k - 1 := by
          rw [BitVec.toNat_sub_of_le (by rw [BitVec.le_def]; exact hpos), hk]
          rfl
        have hdec0 : s.delay (.task t) - 1 = 0 ↔ k - 1 = 0 := by
          rw [← hdec, ← BitVec.toNat_inj]
          rfl
        simp only [h1, h2, not_false_eq_true, if_true, if_false, Function.update_self, hdec0]
        refine ⟨_, rfl, ?_⟩
        exact h.withDelays h.control rfl rfl rfl (fun _ _ _ ↦ rfl) (fun _ ↦ rfl) (hdl.tick hd h2)

end YRmx
