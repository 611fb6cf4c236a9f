import YRmx.Yalrt.Progress

/-!
# Which task runs

Library `YRmx`. Outside of the nucleus the most urgent runnable task runs. Unless a handler comes
in, the end of `exit_region` is reached after three lines for every interrupt that is not counted
off yet and a few more: the tasks that wait for these interrupts are runnable then.
-/

namespace YRmx

open Transition Intrusive Priority

variable {s s' s₀ : Yalrt} {p : Plan} {xs : List TaskId} {t : TaskId} {e : ExchId}
  {o : YalrtOp} {tr : List (Yalrt × YalrtOp)}

namespace Plan

/-- The interrupt is not delivered yet. -/
def Awaits (p : Plan) (e : ExchId) : Prop := e ∈ p.interrupts ∨ p.taken = some e

/-- The task is runnable with the message of the interrupt, or it is the first one to get it. -/
def Served (p : Plan) (e : ExchId) (t : TaskId) : Prop :=
  t ∈ p.ready ∧ p.message t = .msg (.interrupt e) ∨
    p.Awaits e ∧ (p.tq e).head? = some t ∧ p.suspends t = false

/-- Delivering an interrupt takes no task off the ready list. -/
theorem deliver_ready (x : ExchId) : p.ready ⊆ (p.deliver x).ready := by
  rw [deliver]
  split
  · rw [send]
    split
    · exact List.Subset.refl _
    · simp only [give, wake]
      split
      · exact List.Subset.refl _
      · exact fun u hu ↦ mem_enqueue.mpr (.inr hu)
  · exact List.Subset.refl _

/-- Counting an interrupt off keeps it for delivery. -/
theorem Served.pop (h : p.Served e t) (ht : p.taken = none) : (p.step .pop).Served e t := by
  refine h.imp_right (And.imp_left fun he ↦ ?_)
  have he : e ∈ p.interrupts := he.resolve_right (by simp [ht])
  obtain ⟨l, x, hl⟩ := (List.eq_nil_or_concat' p.interrupts).resolve_left (List.ne_nil_of_mem he)
  rw [hl, List.mem_append, List.mem_singleton] at he
  simp only [Awaits, step, hl, List.dropLast_concat, List.getLast?_concat]
  exact he.imp_right fun hx ↦ by rw [hx]

/-- Delivering an interrupt serves the first task that waits for it, and keeps the tasks that are
served or about to be. -/
theorem Served.deliver (h : p.Served e t) (hw : t ∈ p.ready → ∀ x, t ∉ p.tq x) {x : ExchId}
    (hx : p.taken = some x) : (p.step .deliver).Served e t := by
  simp only [step, hx]
  rcases h with ⟨ht, hm⟩ | ⟨he, hh, hs⟩
  · refine .inl ⟨deliver_ready x ht, ?_⟩
    rw [Plan.deliver]
    split
    · rw [send]
      split
      · exact hm
      · rename_i u us hq
        have hut : t ≠ u := by
          rintro rfl
          have hq' : p.tq x = t :: us := hq
          exact hw ht x (by simp [hq'])
        simp only [give, wake, Function.update_of_ne hut]
        exact hm
    · exact hm
  · obtain ⟨ts, hq⟩ := List.head?_eq_some_iff.mp hh
    by_cases hex : x = e
    · subst hex
      refine .inl ?_
      have hne : p.tq x ≠ [] := by simp [hq]
      rw [Plan.deliver, if_pos (.inl hne), send]
      simp only [hq, give, wake, hs, Bool.false_eq_true, if_false, Function.update_self, and_true]
      exact mem_enqueue.mpr (.inl rfl)
    · refine .inr ?_
      have hl : e ∈ p.interrupts := he.resolve_right fun h' ↦
        hex (Option.some.inj (hx.symm.trans h'))
      rw [Plan.deliver]
      split
      · rw [send]
        split
        · exact ⟨.inl hl, hh, hs⟩
        · simp only [give, wake, Function.update_of_ne (Ne.symm hex)]
          exact ⟨.inl hl, hh, hs⟩
      · exact ⟨.inl hl, hh, hs⟩

end Plan

namespace Yalrt

/-- A task of the ready list. -/
theorem Follows.runnable_iff (h : Follows s p) : s.Runnable t ↔ t ∈ p.ready := by
  constructor
  · rintro ⟨R, hR, ht⟩
    rwa [hR.unique h.kept.lists.ready] at ht
  · exact fun ht ↦ ⟨_, h.kept.lists.ready, ht⟩

/-- Outside of the nucleus the most urgent runnable task runs. -/
theorem Follows.most_urgent (h : Follows s p) (hl : s.line = .user) :
    s.ready = .task s.rqactv ∧ ∀ u, s.Runnable u → s.key s.rqactv ≤ s.key u := by
  obtain ⟨hh, -⟩ := h.kept.region.active (.inl hl)
  obtain ⟨R, hR⟩ := List.head?_eq_some_iff.mp hh
  have hsorted := h.kept.serves.sorted
  have hhead := h.kept.lists.ready.head_eq
  rw [hR] at hsorted hhead
  refine ⟨hhead, fun u hu ↦ ?_⟩
  rw [h.runnable_iff, hR] at hu
  rcases List.mem_cons.mp hu with rfl | hu
  · exact le_rfl
  · exact (List.pairwise_cons.mp hsorted).1 u hu

/-- What a plan has reached in the loop of `exit_region`. -/
structure Advances (p q : Plan) : Prop where
  ready : p.ready ⊆ q.ready
  served : ∀ e t, p.Served e t → q.Served e t

/-- A line of the loop of `exit_region`. -/
theorem Follows.advances (h : Follows s p) (hl : s.Draining) (hh : ¬ Handles o)
    (hs : Step s o s') : Advances p (p.step (s.act o)) := by
  obtain ⟨-, h₁, h₂, h₃, -⟩ := hs.line_eq hh
  have ht := h.signals.taken
  rcases hl with hl | hl | hl
  · rw [inFlight, hl] at ht
    have ht : p.taken = none := by
      cases hp : p.taken with
      | none => rfl
      | some x => simp [hp] at ht
    rcases h₁ hl with ⟨rfl, -⟩ | ⟨rfl, -⟩
    · exact ⟨List.Subset.refl _, fun _ _ hx ↦ hx.pop ht⟩
    · exact ⟨List.Subset.refl _, fun _ _ hx ↦ hx⟩
  · rw [h₂ hl]
    exact ⟨List.Subset.refl _, fun _ _ hx ↦ hx⟩
  · rw [h₃ hl]
    rw [inFlight, hl] at ht
    obtain ⟨x, hx⟩ : ∃ x, p.taken = some x := by
      cases hp : p.taken with
      | none => simp [hp] at ht
      | some x => exact ⟨x, rfl⟩
    refine ⟨?_, fun e t hsv ↦ hsv.deliver (h.kept.lists.ready_waits t) hx⟩
    simp only [act, Plan.step, hx]
    exact Plan.deliver_ready x

/-- The lines of the loop of `exit_region`. -/
theorem Follows.drains (h : Follows s p) (hr : Trace Step s tr s') (hh : ∀ x ∈ tr, ¬ Handles x.2)
    (hl : ∀ x ∈ tr, x.1.Draining) : ∃ p', Follows s' p' ∧ Advances p p' := by
  refine hr.invariant (P := fun s ↦ ∃ p', Follows s p' ∧ Advances p p')
    (Q := fun s o ↦ s.Draining ∧ ¬ Handles o) ⟨p, h, List.Subset.refl _, fun _ _ hx ↦ hx⟩
    (fun x hx ↦ ⟨hl x hx, hh x hx⟩) ?_
  rintro m o n ⟨q, hq, ha⟩ ⟨hl, hh⟩ hs
  have hb := hq.advances hl hh hs
  exact ⟨_, hq.step (hs.lawful hl hh) hs, fun u hu ↦ hb.ready (ha.ready hu),
    fun e t hx ↦ hb.served e t (ha.served e t hx)⟩

/-- What `exit_region` has done for the tasks when it returns. -/
structure Responds (s s' : Yalrt) : Prop where
  line : s'.line = .user
  entries : s'.entries = []
  running : s'.ready = .task s'.rqactv
  urgent : ∀ u, s'.Runnable u → s'.key s'.rqactv ≤ s'.key u
  runnable : ∀ u, s.Runnable u → s'.Runnable u
  served : ∀ e ∈ s.pending, ∀ t ts, s.Waits e (t :: ts) → s.isSuspended t = false →
    s'.Runnable t ∧ s'.message t = .msg (.interrupt e)

/-- In every lawful run, the most urgent runnable task runs outside of the nucleus. From the loop of
`exit_region`, whatever the running code does unless a handler comes in, three lines for every
interrupt to count off and two more lead there: then no interrupt is pending, no task has become
unable to run, and the first task that waited for an interrupt is runnable with its message unless
it is to be suspended. -/
theorem response_of_run (h0 : Started s₀ xs) (hx : idleTask ∈ xs) (hm : ∀ e, s₀.Mails e [])
    (hq : s₀.queueIndex = 0) (hr : Trace Step s₀ tr s)
    (ho : Throughout (fun _ s o ↦ s.Lawful o) tr) :
    (s.line = .user →
      s.ready = .task s.rqactv ∧ ∀ u, s.Runnable u → s.key s.rqactv ≤ s.key u) ∧
    (s.Draining → s.Outside → Ahead Step (¬ Handles ·) (fun s ↦ s.Draining ∨ s.line = .switch)
      (s.linesLeft + 1) (fun _ s' ↦ Responds s s') s) := by
  have h := (follows_of_run h0 hx hm hq hr ho).last
  refine ⟨h.most_urgent, fun hl hout ↦ ?_⟩
  obtain ⟨tr₁, s₁, hr₁, hlen, hK, hP, hl₁, ho₁, hn₁, -⟩ := h.sound.path hl hout rfl
  obtain ⟨p₁, h₁, ha⟩ := h.drains hr₁ hK hP
  obtain ⟨s₂, hs₂⟩ := h₁.returns (o := .close) ⟨id, by simp, by simp⟩ ⟨hl₁, ho₁⟩
  obtain ⟨⟨-, T, t, hs₂'⟩, -⟩ := h₁.kept.close hs₂
  have h₂ := h₁.close hs₂
  have hready : (p₁.step .switch).ready = p₁.ready := by
    simp only [Plan.step]
    split <;> rfl
  have hmessage : (p₁.step .switch).message = p₁.message := by
    simp only [Plan.step]
    split <;> rfl
  have hl₂ : s₂.line = .user := by rw [hs₂']
  have he₁ : s₁.entries = [] := by simp [entries, hn₁]
  have he₂ : s₂.entries = [] := by simp [hs₂', entries, hn₁]
  obtain ⟨hrun, hurgent⟩ := h₂.most_urgent hl₂
  have hresp : Responds s s₂ := by
    refine ⟨hl₂, he₂, hrun, hurgent, fun u hu ↦ ?_, fun e he t ts hw hs ↦ ?_⟩
    · rw [h₂.runnable_iff, hready]
      exact ha.ready (h.runnable_iff.mp hu)
    · have hhead : ((planned s₀ xs tr).tq e).head? = some t := by
        have hq' := List.map_injective_iff.mpr Sched.task_injective
          (Fifo.unique (h.kept.lists.waits e) hw)
        rw [hq']
        rfl
      have haw : (planned s₀ xs tr).Awaits e := by
        rw [Yalrt.pending, h.signals.entries, h.signals.taken, List.mem_append,
          Option.mem_toList] at he
        exact he
      rcases ha.served e t (.inr ⟨haw, hhead, by rw [← h.suspends, hs]⟩) with ⟨ht, hmsg⟩ | ⟨hx, -⟩
      · rw [h₂.runnable_iff, hready, h₂.message, hmessage]
        exact ⟨ht, hmsg⟩
      · have ht₁ := h₁.signals.taken
        rw [inFlight, hl₁] at ht₁
        rcases hx with hx | hx
        · rw [← h₁.signals.entries, he₁] at hx
          cases hx
        · rw [hx] at ht₁
          cases ht₁
  have hpath : Trace Step s (tr₁ ++ [(s₁, YalrtOp.close)]) s₂ := hr₁.snoc hs₂
  have hahead := hpath.ahead (Q := fun _ s' ↦ Responds s s') determined
    (fun x hx ↦ (List.mem_append.mp hx).elim (hK x) fun hx ↦ by
      rw [List.mem_singleton.mp hx]
      exact id)
    (fun x hx ↦ (List.mem_append.mp hx).elim (fun hx ↦ .inl (hP x hx)) fun hx ↦ by
      rw [List.mem_singleton.mp hx]
      exact .inr hl₁) hresp
  rwa [List.length_append, List.length_singleton, hlen] at hahead

/-- An interrupt comes in while the lower task runs, and the higher one waits for it: five lines
later it can run. -/
theorem response_of_run_preempt : ∃ tr s, Trace Step twoTasks tr s ∧
    tr.map Prod.snd = preempt.take 8 ∧
    Ahead Step (¬ Handles ·) (fun s ↦ s.Draining ∨ s.line = .switch) 5
      (fun _ s' ↦ s'.Runnable 6 ∧ s'.message 6 = .msg (.interrupt 9)) s := by
  obtain ⟨tr, s, hr, hos, ho, hp⟩ := Trace.exists_of_checked (s := twoTasks) (f := step 9)
    (r := .blocked) (Q := fun s o ↦ s.Lawful o) (q := fun s o ↦ s.permits o) (l := preempt.take 8)
    (p := fun s ↦ decide (s.At .drain ∧ s.queueIndex = 1 ∧ s.isndQueue 0 = 9 ∧
      s.thread (.exch 9) = .task 6 ∧ s.thread (.task 6) = .null ∧ s.taskTail 9 = .task 6 ∧
      s.isSuspended 6 = false))
    (fun s o s' h ↦ (⟨9, h⟩ : Step s o s')) (fun _ _ ↦ lawful_of_permits) (by decide)
  obtain ⟨⟨hl, hout⟩, hq, h9, hh, ht, htail, hs⟩ := of_decide_eq_true hp
  have hahead := (response_of_run twoTasks_started (by decide)
    (fun e ↦ Fifo.nil rfl rfl (by simp)) rfl hr ho).2 (.inl hl) hout
  have hleft : s.linesLeft + 1 = 5 := by simp [linesLeft, hl, hq]
  rw [hleft] at hahead
  refine ⟨tr, s, hr, hos, hahead.mono fun _ s' hresp ↦ hresp.served 9 ?_ 6 [] ?_ hs⟩
  · simp [Yalrt.pending, entries, hq, h9]
  · exact ⟨threads_cons_cons.mpr ⟨hh, threads_pair.mpr ht⟩, htail, by simp⟩

end Yalrt

end YRmx
