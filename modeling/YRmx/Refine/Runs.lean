import YRmx.Refine.Step

/-!
# Runs of the nucleus stand for runs on lists

Library `YRmx`. From a booted system on, as long as no message is created while it is queued
and no hand-off goes to a task that was suspended while it waits without limit, every state
stands for lists that satisfy the invariant, and every step is the step on these lists.
-/

namespace YRmx

open Intrusive Transition

variable {s s' : Nucleus} {b : Board} {o : Op}

/-! ### Side conditions -/

/-- The message waits at some exchange. -/
def Nucleus.Queued (s : Nucleus) (m : MsgId) : Prop := ∃ e ms, MessageQueue s e ms ∧ m ∈ ms

/-- `reqcmsg` is only used on a message that is not queued. -/
def Nucleus.Fresh (s : Nucleus) : Op → Prop
  | .reqcmsg _ n _ _ => ¬ s.Queued (.user n)
  | _ => True

/-- The message queue of an exchange is determined by the descriptors. -/
theorem MessageQueue.unique {e : ExchId} {ms ms' : List MsgId} (h : MessageQueue s e ms)
    (h' : MessageQueue s e ms') : ms = ms' :=
  List.map_injective_iff.mpr (fun _ _ he ↦ Addr.msg.inj he) (Fifo.unique h h')

/-- The task queue of an exchange is determined by the descriptors. -/
theorem TaskQueue.unique {e : ExchId} {ts ts' : List TaskId} (h : TaskQueue s e ts)
    (h' : TaskQueue s e ts') : ts = ts' :=
  List.map_injective_iff.mpr (fun _ _ he ↦ Addr.task.inj he) (Fifo.unique h h')

/-- The remaining ticks are determined by the descriptors. -/
theorem DelayList.unique {next prev : Addr → Addr} {delay : Addr → BitVec 16}
    {dl dl' : List (TaskId × Nat)} (h : DelayList next prev delay dl)
    (h' : DelayList next prev delay dl') : dl = dl' := by
  apply h.deltas.unique h'.deltas
  have ht : ∀ {l : List (TaskId × Nat)}, .delayTail ∉ l.map fun p ↦ Addr.task p.1 := by simp
  have hth := Threads.unique (h.linked.imp fun _ _ hx ↦ hx.1) (h'.linked.imp fun _ _ hx ↦ hx.1)
    ht ht
  apply List.map_injective_iff.mpr (fun _ _ he ↦ Addr.task.inj he)
  rw [List.map_map, List.map_map]
  exact hth

/-- Both sides agree about what is queued. -/
theorem Sim.queued_iff (h : Sim s b) (m : MsgId) : s.Queued m ↔ b.Queued m := by
  constructor
  · rintro ⟨e, ms, hq, hm⟩
    exact ⟨e, (h.messages e).unique hq ▸ hm⟩
  · rintro ⟨e, hm⟩
    exact ⟨e, b.mq e, h.messages e, hm⟩

/-- Both sides agree about the creation of messages. -/
theorem Sim.fresh_iff (h : Sim s b) : s.Fresh o ↔ b.Fresh o := by
  cases o with
  | reqcmsg t n size now => exact not_congr (h.queued_iff _)
  | _ => exact .rfl

/-! ### Creation of messages -/

/-- The step creates a message. -/
def Op.creates : Op → Bool
  | .reqcmsg .. => true
  | _ => false

/-- Where no message is queued, every creation is one of a message that is not. -/
theorem Nucleus.fresh_of_empty (h : ∀ e, s.messageHead e = .null) (o : Op) : s.Fresh o := by
  have hq : ∀ m, ¬ s.Queued m := by
    rintro m ⟨e, ms, hms, hm⟩
    have hnil := hms.head_null_iff.mp (h e)
    rw [List.map_eq_nil_iff] at hnil
    rw [hnil] at hm
    cases hm
  cases o with
  | reqcmsg t n size now => exact hq _
  | _ => trivial

/-- Only the creation of a message has to be fresh. -/
theorem Nucleus.fresh_of_not_creates (ho : o.creates = false) : s.Fresh o := by
  cases o with
  | reqcmsg => cases ho
  | _ => trivial

/-- A message that is created is not queued by that. -/
theorem Step.messageHead_of_creates (h : Step s o s') (ho : o.creates = true) (e : ExchId) :
    s'.messageHead e = s.messageHead e := by
  cases o with
  | reqcmsg t n size now =>
    obtain ⟨k, hs⟩ := h
    obtain ⟨-, hs⟩ := require_bind_eq_ok.mp hs
    rw [← Except.ok.inj hs]
    show Function.update s.word0 (.msg (.user n)) (.task t) (.exch e) = _
    exact Function.update_of_ne (by simp) _ _
  | _ => cases ho

/-- A run that starts with the creation of its messages creates none that is queued. -/
theorem Run.fresh {tr : List (Nucleus × Op)} (hr : Run s tr s')
    (h : ∀ e, s.messageHead e = .null)
    (hc : ((tr.map Prod.snd).dropWhile Op.creates).all (!Op.creates ·) = true) :
    ∀ x ∈ tr, x.1.Fresh x.2 := by
  induction tr generalizing s with
  | nil => simp
  | cons x tr ih =>
    obtain ⟨m, o⟩ := x
    obtain ⟨m', hm, hs, hr'⟩ := Trace.split (a := []) hr
    obtain rfl := Trace.nil_iff.mp hm
    by_cases ho : o.creates = true
    · have hm' : ∀ e, m'.messageHead e = .null := fun e ↦
        (hs.messageHead_of_creates ho e).trans (h e)
      rw [List.map_cons, List.dropWhile_cons_of_pos ho] at hc
      intro x hx
      rcases List.mem_cons.mp hx with rfl | hx
      · exact Nucleus.fresh_of_empty h o
      · exact ih hr' hm' hc x hx
    · rw [List.map_cons, List.dropWhile_cons_of_neg ho] at hc
      intro x hx
      exact Nucleus.fresh_of_not_creates
        (by simpa using List.all_eq_true.mp hc x.2 (List.mem_map_of_mem hx))

/-! ### The booted system -/

/-- The lists of a booted system are empty. -/
def Nucleus.board (s : Nucleus) : Board where
  toControl := s.toControl
  mq _ := []
  tq _ := []
  dl := []
  own := s.msgLink

/-- A booted system stands for empty lists. -/
theorem Booted.sim (h : Booted s) : Sim s s.board where
  control := rfl
  messages e := Fifo.nil (h.exchanges e).messageHead (h.exchanges e).messageTail (by simp)
  tasks e := Fifo.nil (h.exchanges e).taskHead (h.exchanges e).taskTail (by simp)
  delays := by
    refine ⟨?_, trivial, h.delayHead, h.delayTail⟩
    refine List.isChain_cons_cons.mpr ⟨⟨h.delayNext, h.delayPrev⟩, List.isChain_singleton _⟩
  own _ _ := rfl
  link {t e d} hp := by
    have hu : s.pc t = .user := (h.tasks t).2.2.1
    rw [show s.pc t = .semWait e d from hp] at hu
    cases hu

/-- Empty lists satisfy the invariant. -/
theorem Booted.inv (h : Booted s) : s.board.Inv where
  mq_nodup _ := List.nodup_nil
  mq_disjoint hm := absurd hm List.not_mem_nil
  own_queued hm := absurd hm List.not_mem_nil
  tq_nodup _ := List.nodup_nil
  one_empty _ := .inl rfl
  dl_nodup := List.nodup_nil
  dl_sorted := .nil
  dl_bound := by simp [Nucleus.board]
  task t := by
    obtain ⟨hst, hs, hp, -⟩ := h.tasks t
    refine Board.TaskInv.idle ?_ List.not_mem_nil ?_ ?_ ?_ ?_ ?_
    · rintro ⟨e, he⟩
      exact List.not_mem_nil he
    · show s.status t &&& _ = 0
      rw [hst]
      decide
    · show s.sema t ≤ 1
      omega
    · exact fun hx ↦ absurd hs hx
    · intro hx
      rw [show s.board.status t = running from hst] at hx
      exact absurd (by decide) hx
    · intro c
      show s.pc t ≠ _
      rw [hp]
      simp

/-! ### Steps -/

/-- A step of the descriptors is a step on the lists. -/
theorem Sim.forward (h : Sim s b) (hI : b.Inv) (hc : s.Calm o) (hf : s.Fresh o)
    (hs : Step s o s') : ∃ b', b.step o = .ok b' ∧ Sim s' b' ∧ b'.Inv := by
  have hr := h.step hI ((h.calm_iff hI o).mp hc) (h.fresh_iff.mp hf)
  cases hb : b.step o with
  | error r =>
    rw [hb] at hr
    obtain ⟨n, hn⟩ := hs
    cases (hr n).symm.trans hn
  | ok b' =>
    rw [hb] at hr
    obtain ⟨s'', hy, hS⟩ := hr
    obtain rfl := (step_iff_yields.mp hs).unique hy
    exact ⟨b', rfl, hS, hI.step (h.fresh_iff.mp hf) hb⟩

/-- A step on the lists is a step of the descriptors: loops end, and no pointer is followed
that leads nowhere. -/
theorem Sim.backward (h : Sim s b) (hI : b.Inv) (hc : s.Calm o) (hf : s.Fresh o) {b' : Board}
    (hb : b.step o = .ok b') : ∃ s', Step s o s' ∧ Sim s' b' := by
  have hr := h.step hI ((h.calm_iff hI o).mp hc) (h.fresh_iff.mp hf)
  rw [hb] at hr
  obtain ⟨s', hy, hS⟩ := hr
  exact ⟨s', step_iff_yields.mpr hy, hS⟩

/-- Every step comes to its end or waits. -/
theorem Sim.ends_or_blocked (h : Sim s b) (hI : b.Inv) (hc : s.Calm o) (hf : s.Fresh o) :
    (∃ s', Step s o s') ∨ ∀ n, YRmx.step n s o = .error .blocked := by
  cases hb : b.step o with
  | ok b' =>
    obtain ⟨s', hs, -⟩ := h.backward hI hc hf hb
    exact .inl ⟨s', hs⟩
  | error r =>
    have hr := h.step hI ((h.calm_iff hI o).mp hc) (h.fresh_iff.mp hf)
    rw [hb] at hr
    obtain rfl : r = .blocked := Board.step_error hb
    exact .inr hr

/-! ### Runs -/

/-- What holds of the descriptors and the lists together at first and is kept by every
admissible step holds at the end of a run, and so does the invariant. -/
theorem Run.sim {s₀ : Nucleus} {tr : List (Nucleus × Op)}
    {Q : List (Nucleus × Op) → Nucleus → Board → Prop} {R : Nucleus → Op → Prop}
    (hb : Booted s₀) (hr : Run s₀ tr s) (h0 : Q [] s₀ s₀.board) (hok : ∀ x ∈ tr, R x.1 x.2)
    (hside : ∀ tr s b o, Sim s b → b.Inv → Q tr s b → R s o → s.Calm o ∧ s.Fresh o)
    (hstep : ∀ tr s b o s' b', Sim s b → b.Inv → Q tr s b → R s o → Sim s' b' → b'.Inv →
      b.step o = .ok b' → Q (tr ++ [(s, o)]) s' b') :
    ∃ b, Sim s b ∧ b.Inv ∧ Q tr s b := by
  induction hr with
  | nil => exact ⟨_, hb.sim, hb.inv, h0⟩
  | @snoc tr s o s' _ hs ih =>
    obtain ⟨b, hS, hI, hQ⟩ := ih fun x hx ↦ hok x (by simp [hx])
    have ho := hok (s, o) (by simp)
    obtain ⟨hc, hf⟩ := hside tr s b o hS hI hQ ho
    obtain ⟨b', hb', hS', hI'⟩ := hS.forward hI hc hf hs
    exact ⟨b', hS', hI', hstep tr s b o s' b' hS hI hQ ho hS' hI' hb'⟩

/-- The states of such a run stand for lists. -/
theorem Run.calm {s₀ : Nucleus} {tr : List (Nucleus × Op)} (hb : Booted s₀) (hr : Run s₀ tr s)
    (hok : ∀ x ∈ tr, x.1.Calm x.2 ∧ x.1.Fresh x.2) : ∃ b, Sim s b ∧ b.Inv := by
  obtain ⟨b, hS, hI, -⟩ := Run.sim (Q := fun _ _ _ ↦ True)
    (R := fun s o ↦ s.Calm o ∧ s.Fresh o) hb hr trivial hok (fun _ _ _ _ _ _ _ h ↦ h)
    fun _ _ _ _ _ _ _ _ _ _ _ _ _ ↦ trivial
  exact ⟨b, hS, hI⟩

end YRmx
