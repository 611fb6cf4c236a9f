import YRmx.Props.Unlinks
import YRmx.Props.Delays

/-!
# Time-outs are on time

Library `YRmx`. When the expiry loop runs after every tick that signals it, a task that waits
with a limit of `d` ticks is given the time-out message by the expiry loop that follows the
`d`-th tick. The timer takes a first delay field of `0xFFFF` for the end of the list, so a
single task with the greatest limit is never counted down.
-/

namespace YRmx

open Transition

/-- The ticks of a run. -/
def ticks (tr : List (Nucleus × Op)) : Nat := tr.countP (·.2 = .tick)

/-- A tick signalled the delay task, which has not run its loop since. -/
def Signalled (tr : List (Nucleus × Op)) : Prop :=
  Since (fun x ↦ x.2 = .tick ∧ x.1.signals = true) (fun x ↦ x.2 ≠ .expiry) tr

/-- The expiry loop comes to its end after every tick that signals it and before the next. -/
def Disciplined (tr : List (Nucleus × Op)) : Prop :=
  ∀ a m c, tr = a ++ (m, .tick) :: c → ¬ Signalled a

/-- A tick would find no task at all, or a first delay field that is not `0xFFFF`. -/
def Nucleus.Countable (s : Nucleus) : Prop :=
  s.word0 .delayHead = .delayTail ∨ s.firstDelay ≠ 0xFFFF

instance (s : Nucleus) : Decidable s.Countable := inferInstanceAs (Decidable (_ ∨ _))

/-- The ticks of a run that are not taken for ticks on an empty list. -/
def counted (tr : List (Nucleus × Op)) : Nat := tr.countP fun x ↦ x.2 = .tick ∧ x.1.Countable

/-- The task was given the time-out message and waits no more. -/
def Nucleus.TimedOut (s : Nucleus) (t : TaskId) : Prop :=
  s.message t = .msg .timeOut ∧ ∀ e ts, TaskQueue s e ts → t ∉ ts

variable {s₀ s s' m : Nucleus} {b b' : Board} {o : Op} {t : TaskId} {e : ExchId}
variable {d : BitVec 16} {tr tr₁ tr₂ : List (Nucleus × Op)}

/-- One more step is one more tick that counts, or none. -/
theorem counted_snoc :
    counted (tr ++ [(s, o)]) = counted tr + if o = .tick ∧ s.Countable then 1 else 0 := by
  unfold counted
  rw [List.countP_append, List.countP_singleton]
  simp only [decide_eq_true_eq]

/-- No more ticks count than there are. -/
theorem counted_le (tr : List (Nucleus × Op)) : counted tr ≤ ticks tr :=
  List.countP_mono_left fun _ _ hx ↦ decide_eq_true (of_decide_eq_true hx).1

/-- All ticks count when each of them does. -/
theorem counted_eq_ticks : counted tr = ticks tr ↔ ∀ x ∈ tr, x.2 = .tick → x.1.Countable := by
  induction tr with
  | nil => simp [counted, ticks]
  | cons x tr ih =>
    have hle := counted_le tr
    have hc : counted (x :: tr) = counted tr + if x.2 = .tick ∧ x.1.Countable then 1 else 0 := by
      unfold counted
      rw [List.countP_cons]
      simp only [decide_eq_true_eq]
    have ht : ticks (x :: tr) = ticks tr + if x.2 = .tick then 1 else 0 := by
      unfold ticks
      rw [List.countP_cons]
      simp only [decide_eq_true_eq]
    rw [hc, ht, List.forall_mem_cons, ← ih]
    by_cases h1 : x.2 = .tick <;> by_cases h2 : x.1.Countable <;> simp [h1, h2]
    omega

/-- A longer run is disciplined when the shorter one is and the new step is not a tick that
comes too early. -/
theorem disciplined_snoc :
    Disciplined (tr ++ [(s, o)]) ↔ Disciplined tr ∧ (o = .tick → ¬ Signalled tr) := by
  constructor
  · intro h
    refine ⟨fun a m c he ↦ h a m (c ++ [(s, o)]) (by simp [he]), ?_⟩
    rintro rfl
    exact h tr s [] rfl
  · rintro ⟨h, ho⟩ a m c he
    rcases snoc_eq_append_cons.mp he with ⟨rfl, hx, -⟩ | ⟨c', -, he'⟩
    · cases hx
      exact ho rfl
    · exact h a m c' he'

/-- Without a tick that signals there is no signal. -/
theorem not_signalled (h : ∀ x ∈ tr, x.2 = .tick → x.1.signals = false) : ¬ Signalled tr := by
  rintro ⟨a, x, c, rfl, ⟨hx, hs⟩, -⟩
  rw [h x (by simp) hx] at hs
  cases hs

/-- Without a tick that signals there is nothing to wait for. -/
theorem disciplined_of_quiet (h : ∀ x ∈ tr, x.2 = .tick → x.1.signals = false) :
    Disciplined tr := by
  rintro a m c rfl
  exact not_signalled fun x hx ↦ h x (by simp [hx])

namespace Board

/-- Some task has no ticks left. -/
def AnyDue (b : Board) : Prop := ∃ u, (u, 0) ∈ b.dl

/-- Without a due task the first waiting time is not spent. -/
theorem firstDelay_ne_zero (h : ¬ b.AnyDue) : b.firstDelay ≠ 0 := by
  unfold firstDelay
  cases hd : b.dl with
  | nil => simp
  | cons p r =>
    obtain ⟨u, k⟩ := p
    rintro rfl
    exact h ⟨u, by simp [hd]⟩

/-- A tick that leaves a due task behind signals it. -/
theorem countDown_signals (hI : b.Inv) (h : b.countDown.1.AnyDue) : b.countDown.2 = true := by
  obtain ⟨u, hu⟩ := h
  unfold Board.countDown at hu ⊢
  have hs := hI.dl_sorted
  cases hd : b.dl with
  | nil => simp [hd] at hu
  | cons p r =>
    obtain ⟨w, k⟩ := p
    rw [hd] at hu hs
    simp only at hu ⊢
    have hle : ∀ q ∈ (w, k) :: r, k ≤ q.2 := by
      intro q hq
      rcases List.mem_cons.mp hq with rfl | hq
      · exact le_rfl
      · exact (List.pairwise_cons.mp hs).1 q hq
    by_cases h1 : k = 0xFFFF
    · rw [if_pos h1, hd] at hu
      have := hle _ hu
      simp only at this
      omega
    · by_cases h2 : k = 0
      · rw [if_neg h1, if_pos h2]
      · rw [if_neg h1, if_neg h2] at hu ⊢
        obtain ⟨q, hq, he⟩ := List.mem_map.mp hu
        have := hle q hq
        have hq0 : q.2 - 1 = 0 := (Prod.mk.inj he).2
        simp only [decide_eq_true_eq]
        omega

/-- A due task is left behind by a tick that signals it, or was due before. -/
theorem anyDue_step (hI : b.Inv) (h : b.step o = .ok b') (hd : b'.AnyDue) :
    (o = .tick ∧ b.countDown.2 = true) ∨ b.AnyDue ∧ o ≠ .expiry := by
  obtain ⟨u, hu⟩ := hd
  rw [(step_lists hI h 0).2.2] at hu
  by_cases ho : o = .tick
  · subst ho
    refine .inl ⟨rfl, countDown_signals hI ⟨u, ?_⟩⟩
    exact hI.mem_counted.mpr (hI.mem_delaysAfter.mp hu).2
  · have hm := (hI.mem_delaysAfter.mp hu).2
    cases o with
    | tick => exact absurd rfl ho
    | reqwait t e d =>
      rcases hm with hm | ⟨-, hd, -, hz⟩
      · exact .inr ⟨⟨u, hm⟩, by simp⟩
      · exact absurd (BitVec.eq_of_toNat_eq hz.symm) hd
    | expiry => exact absurd rfl hm.2
    | reqdtsk t w => exact .inr ⟨⟨u, hm.1⟩, by simp⟩
    | _ => exact .inr ⟨⟨u, hm⟩, by simp⟩

/-- A tick that counts lowers the remaining ticks of every task that is not handed anything. -/
theorem tick_remaining {k : Nat} (hI : b.Inv) (h : b.step .tick = .ok b') (hn : ¬ b.AnyDue)
    (hc : b.dl = [] ∨ b.firstDelay ≠ 0xFFFF) (ht : (t, k) ∈ b.dl)
    (hu : b.handsTo .tick ≠ some t) : 0 < k ∧ (t, k - 1) ∈ b'.dl := by
  have hk : 0 < k := Nat.pos_of_ne_zero fun hz ↦ hn ⟨t, hz ▸ ht⟩
  have hne : b.dl ≠ [] := List.ne_nil_of_mem ht
  refine ⟨hk, ?_⟩
  rw [(step_lists hI h 0).2.2]
  refine hI.mem_delaysAfter.mpr ⟨hu, ?_⟩
  simp only
  rw [if_neg (not_or.mpr ⟨firstDelay_ne_zero hn, hc.resolve_left hne⟩), Nat.sub_add_cancel hk]
  exact ht

/-- A tick that does not count leaves the remaining ticks. -/
theorem tick_uncounted {k : Nat} (hI : b.Inv) (h : b.step .tick = .ok b')
    (hc : ¬ (b.dl = [] ∨ b.firstDelay ≠ 0xFFFF)) (ht : (t, k) ∈ b.dl)
    (hu : b.handsTo .tick ≠ some t) : (t, k) ∈ b'.dl := by
  rw [(step_lists hI h 0).2.2]
  refine hI.mem_delaysAfter.mpr ⟨hu, ?_⟩
  simp only
  rw [if_pos (.inr (not_not.mp (not_or.mp hc).2))]
  exact ht

/-- Any other step leaves the remaining ticks of a task that it neither unlinks nor deletes. -/
theorem other_remaining {k : Nat} (hI : b.Inv) (h : b.step o = .ok b') (ho : o ≠ .tick)
    (ht : (t, k) ∈ b.dl) (hu : ∀ μ, ¬ b.Unlinks o t μ) (hdel : ∀ u, o ≠ .reqdtsk u t) :
    (t, k) ∈ b'.dl := by
  rw [(step_lists hI h 0).2.2]
  refine hI.mem_delaysAfter.mpr ⟨?_, ?_⟩
  · intro hx
    unfold handsTo at hx
    split at hx
    case h_1 e m hs => exact hu m (.inl ⟨e, hs, hx⟩)
    case h_2 => cases hx
  · cases o with
    | tick => exact absurd rfl ho
    | reqwait => exact .inl ht
    | expiry =>
      refine ⟨ht, ?_⟩
      rintro rfl
      exact hu .timeOut (.inr ⟨rfl, rfl, ht⟩)
    | reqdtsk u w =>
      refine ⟨ht, ?_⟩
      rintro rfl
      exact hdel u rfl
    | _ => exact ht

end Board

/-! ### What a run keeps -/

/-- What is true of the timed waits that a run began. -/
structure Timely (tr : List (Nucleus × Op)) (b : Board) : Prop where
  due : b.AnyDue → Signalled tr
  waited : ∀ tr₁ m t e d tr₂, tr = tr₁ ++ (m, .reqwait t e d) :: tr₂ → d ≠ 0 →
    m.messageHead e = .null →
    (∀ x ∈ tr₂, (∀ μ, ¬ x.1.Unlinks x.2 t μ) ∧ ∀ u, x.2 ≠ .reqdtsk u t) →
    t ∈ b.tq e ∧ counted tr₂ ≤ d.toNat ∧ (t, d.toNat - counted tr₂) ∈ b.dl

/-- A booted system waits for nothing. -/
theorem Booted.timely (_ : Booted s) : Timely [] s.board where
  due h := by
    obtain ⟨u, hu⟩ := h
    cases hu
  waited _ _ _ _ _ _ he := by simp at he

/-- The lists are empty together. -/
theorem Sim.dl_nil_iff (h : Sim s b) : s.word0 .delayHead = .delayTail ↔ b.dl = [] := by
  have hl := h.delays.linked
  cases hb : b.dl with
  | nil =>
    rw [hb] at hl
    exact iff_of_true (List.isChain_cons_cons.mp hl).1.1 rfl
  | cons p r =>
    rw [hb] at hl
    have hn : s.word0 .delayHead = .task p.1 := (List.isChain_cons_cons.mp hl).1.1
    simp [hn]

/-- A tick would count on both sides. -/
theorem Sim.countable_iff (h : Sim s b) : s.Countable ↔ b.dl = [] ∨ b.firstDelay ≠ 0xFFFF := by
  unfold Nucleus.Countable
  rw [h.dl_nil_iff, ← h.firstDelay, ne_eq, ← BitVec.toNat_inj]
  rfl

/-- Every step of a disciplined run keeps its waits timely. -/
theorem Timely.step (h : Timely tr b) (hS : Sim s b) (hI : b.Inv)
    (ho : o = .tick → ¬ Signalled tr) (hb : b.step o = .ok b') : Timely (tr ++ [(s, o)]) b' where
  due hd := by
    apply since_snoc.mpr
    rcases Board.anyDue_step hI hb hd with ⟨rfl, hs⟩ | ⟨hd, hne⟩
    · exact .inl ⟨rfl, (hS.signals_eq hI).trans hs⟩
    · exact .inr ⟨h.due hd, hne⟩
  waited tr₁ m t e d tr₂ he hd hm hx := by
    rcases snoc_eq_append_cons.mp he with ⟨-, hso, rfl⟩ | ⟨tr₃, rfl, rfl⟩
    · cases hso
      have hq := (hS.messageHead_null e).mp hm
      refine ⟨(Board.waits_of_reqwait hI hb hq).1, Nat.zero_le _, ?_⟩
      rw [(Board.step_lists hI hb 0).2.2]
      refine hI.mem_delaysAfter.mpr ⟨by simp [Board.handsTo, Board.sends], ?_⟩
      exact .inr ⟨hq, hd, rfl, rfl⟩
    · obtain ⟨hu, hdel⟩ := hx (s, o) (by simp)
      have hu' : ∀ μ, ¬ b.Unlinks o t μ := fun μ hμ ↦ hu μ ((hS.unlinks_iff hI o t μ).mpr hμ)
      obtain ⟨ht, hle, hrem⟩ := h.waited tr₁ m t e d tr₃ rfl hd hm fun x hx' ↦ hx x (by simp [hx'])
      have ht' : t ∈ b'.tq e := by
        cases Board.step_waiter hI hb ⟨e, ht⟩ with
        | stays hs => exact (hs.tq e).mpr ht
        | unlinked μ hμ => exact absurd hμ (hu' μ)
        | deleted u hx => exact absurd hx (hdel u)
        | ended _ hs => exact (hs.tq e).mpr ht
      rw [counted_snoc]
      by_cases htick : o = .tick
      · subst htick
        have hn : ¬ b.AnyDue := fun hx ↦ ho rfl (h.due hx)
        have hhand : b.handsTo .tick ≠ some t := by
          intro hx
          unfold Board.handsTo at hx
          split at hx
          case h_1 e' m' hs => exact hu' m' (.inl ⟨e', hs, hx⟩)
          case h_2 => cases hx
        by_cases hc : s.Countable
        · obtain ⟨hk, hrem'⟩ := Board.tick_remaining hI hb hn (hS.countable_iff.mp hc) hrem hhand
          rw [if_pos ⟨rfl, hc⟩]
          exact ⟨ht', by omega, by rwa [Nat.sub_sub] at hrem'⟩
        · rw [if_neg fun hx ↦ hc hx.2]
          refine ⟨ht', hle, ?_⟩
          exact Board.tick_uncounted hI hb (fun hx ↦ hc (hS.countable_iff.mpr hx)) hrem hhand
      · rw [if_neg fun hx ↦ htick hx.1]
        exact ⟨ht', hle, Board.other_remaining hI hb htick hrem hu' hdel⟩

/-- The expiry loop ends the wait of a task with no ticks left, and no other one. -/
theorem Sim.expiry_waiter (h : Sim s' b') (hI : b.Inv) (hb : b.step .expiry = .ok b')
    (ht : t ∈ b.tq e) :
    if (t, 0) ∈ b.dl then s'.TimedOut t
    else ∃ ts, TaskQueue s' e ts ∧ t ∈ ts := by
  have hun : ∀ {μ}, b.Unlinks .expiry t μ → μ = .timeOut ∧ (t, 0) ∈ b.dl := by
    rintro μ (⟨e', hs, -⟩ | ⟨-, hμ, hd⟩)
    · cases hs
    · exact ⟨hμ, hd⟩
  cases Board.step_waiter hI hb ⟨e, ht⟩ with
  | stays hs =>
    rw [if_neg fun hd ↦ hs.not_unlinks hI hb (.inr ⟨rfl, rfl, hd⟩)]
    exact ⟨b'.tq e, h.tasks e, (hs.tq e).mpr ht⟩
  | unlinked μ hμ hw _ _ hm =>
    obtain ⟨rfl, hd⟩ := hun hμ
    rw [if_pos hd]
    refine ⟨h.message_eq ▸ hm, fun e' ts hq hts ↦ hw ⟨e', ?_⟩⟩
    rwa [hq.unique (h.tasks e')] at hts
  | deleted u ho => cases ho
  | ended ho => cases ho

/-- In a disciplined run, a task that waits with a limit of `d` ticks, and was neither unlinked
nor deleted so far, is given the time-out message by the expiry loop after the `d`-th tick, and
not before, exactly when all these ticks count; after the `d`-th one a signal is pending then,
so that the loop comes before the next tick. -/
theorem timeOut_of_run (hb : Booted s₀) (hr : Run s₀ tr s) (hok : ∀ x ∈ tr, x.1.Proper x.2)
    (hdisc : Disciplined tr) (he : tr = tr₁ ++ (m, .reqwait t e d) :: tr₂) (hd : d ≠ 0)
    (hm : m.messageHead e = .null)
    (hx : ∀ x ∈ tr₂, (∀ μ, ¬ x.1.Unlinks x.2 t μ) ∧ ∀ u, x.2 ≠ .reqdtsk u t) :
    (∃ ts, TaskQueue s e ts ∧ t ∈ ts) ∧
    ((∀ x ∈ tr₂, x.2 = .tick → x.1.Countable) →
      ticks tr₂ ≤ d.toNat ∧ (ticks tr₂ = d.toNat → Signalled tr)) ∧
    (s.pc rqdelaytaskTd = .user → ∃ s', Step s .expiry s') ∧
    ∀ s', Step s .expiry s' →
      (ticks tr₂ = d.toNat → (s'.TimedOut t ↔ ∀ x ∈ tr₂, x.2 = .tick → x.1.Countable)) ∧
      (ticks tr₂ < d.toNat → ∃ ts, TaskQueue s' e ts ∧ t ∈ ts) := by
  obtain ⟨b, hS, hI, hU, hT⟩ := Run.plain (Q := fun tr _ b ↦ Disciplined tr → Timely tr b)
    hb hr (fun _ ↦ hb.timely) hok (fun _ _ h ↦ h)
    fun tr s b o s' b' hS hI _ hQ ho _ _ hb' hdisc ↦
      (hQ (disciplined_snoc.mp hdisc).1).step hS hI (disciplined_snoc.mp hdisc).2 hb'
  obtain ⟨ht, hle, hrem⟩ := (hT hdisc).waited tr₁ m t e d tr₂ he hd hm hx
  have hdue : (t, 0) ∈ b.dl ↔ counted tr₂ = d.toNat := by
    constructor
    · intro h0
      have hk := congrArg Prod.snd (List.inj_on_of_nodup_map hI.dl_nodup h0 hrem rfl)
      simp only at hk
      omega
    · intro hn
      rwa [hn, Nat.sub_self] at hrem
  have hproper : s.Proper .expiry := ⟨trivial, trivial⟩
  refine ⟨⟨b.tq e, hS.tasks e, ht⟩, fun hc ↦ ?_, fun hp ↦ ?_, fun s' hs ↦ ?_⟩
  · rw [← counted_eq_ticks] at hc
    rw [← hc]
    exact ⟨hle, fun hn ↦ (hT hdisc).due ⟨t, hdue.mpr hn⟩⟩
  · rw [hS.pc_eq] at hp
    obtain ⟨s', hs, -⟩ := hS.backward hI ((hS.calm_iff hI _).mpr (hU.calm _)) hproper.2
      (require_bind_eq_ok.mpr ⟨hp, rfl⟩)
    exact ⟨s', hs⟩
  · obtain ⟨b', hb', hS', -⟩ := hS.proper hI hU hproper hs
    have hexp := hS'.expiry_waiter hI hb' ht
    have hcl := counted_le tr₂
    refine ⟨fun hn ↦ ?_, fun hn ↦ ?_⟩
    · rw [← counted_eq_ticks, hn, ← hdue]
      split at hexp
      case isTrue h0 => exact iff_of_true hexp h0
      case isFalse h0 =>
        obtain ⟨ts, hq, hts⟩ := hexp
        exact iff_of_false (fun h ↦ h.2 e ts hq hts) h0
    · rw [if_neg fun h0 ↦ by have := hdue.mp h0; omega] at hexp
      exact hexp

/-- The ticks of a run are those of its steps. -/
theorem ticks_map (tr : List (Nucleus × Op)) : ticks tr = (tr.map Prod.snd).countP (· = .tick) := by
  simp [ticks, List.countP_map, Function.comp_def]

/-- Task 3 waits for three ticks, while task 4, which is due before it, is handed a message and
task 5, which is due after it, is deleted. -/
def thirdTick : List Op := [.reqcmsg 6 0 24 0, .reqwait 4 2 2, .reqwait 3 1 3, .tick,
  .reqsend 6 2 (.user 0), .reqwait 5 1 7, .tick, .reqdtsk 6 5]

/-- The expiry loop after the third tick ends the wait of task 3. -/
theorem timeOut_of_run_third : ∃ tr s s', Run boot tr s ∧
    tr.map Prod.snd = thirdTick ++ [.tick] ∧ Step s .expiry s' ∧ s'.TimedOut 3 := by
  obtain ⟨tr, m, hr, hos, hok, hm⟩ := exists_run (n := 9)
    (c := fun s o ↦ (o.Plain ∧ s.Countable ∧ s.handsTo o ≠ some 3) ∧
      (o = .tick → s.signals = false) ∧ (o = .reqwait 3 1 3 → s.messageHead 1 = .null))
    (s := boot) (l := thirdTick)
    (p := fun s ↦ s.Countable ∧ s.handsTo .tick ≠ some 3 ∧
      (step 9 s .tick).toOption.any fun s ↦ s.pc rqdelaytaskTd = .user) (by decide +kernel)
  obtain ⟨hc, hh, hs⟩ := of_decide_eq_true hm
  obtain ⟨s, hs, hp⟩ := exists_step hs
  have hr' : Run boot (tr ++ [(m, Op.tick)]) s := hr.snoc hs
  have hf := hr'.fresh (fun e ↦ (boot_booted.exchanges e).messageHead) (by
    rw [List.map_append, hos]
    rfl)
  have hok' : ∀ x ∈ tr ++ [(m, Op.tick)],
      x.2.Plain ∧ x.1.Countable ∧ x.1.handsTo x.2 ≠ some 3 := by
    intro x hx
    rcases List.mem_append.mp hx with hx | hx
    · exact (of_decide_eq_true (hok x hx)).1
    · rw [List.mem_singleton.mp hx]
      exact ⟨trivial, hc, hh⟩
  have hquiet : ∀ x ∈ tr, x.2 = .tick → x.1.signals = false :=
    fun x hx ↦ (of_decide_eq_true (hok x hx)).2.1
  have hdisc : Disciplined (tr ++ [(m, Op.tick)]) :=
    disciplined_snoc.mpr ⟨disciplined_of_quiet hquiet, fun _ ↦ not_signalled hquiet⟩
  -- the run up to task 3's `reqwait`, and what follows
  obtain ⟨tr₁, x, rfl, h₁, hrest⟩ := List.map_eq_append_iff.mp
    (show tr.map Prod.snd = [.reqcmsg 6 0 24 0, .reqwait 4 2 2] ++ _ from hos)
  obtain ⟨⟨m₃, o⟩, tr₂, rfl, ho, h₂⟩ := List.map_eq_cons_iff.mp hrest
  obtain rfl : o = .reqwait 3 1 3 := ho
  have ht : ticks (tr₂ ++ [(m, Op.tick)]) = 3 := by
    rw [ticks_map, List.map_append, h₂]
    rfl
  have hmem : ∀ x ∈ tr₂ ++ [(m, Op.tick)],
      x ∈ (tr₁ ++ (m₃, Op.reqwait 3 1 3) :: tr₂) ++ [(m, Op.tick)] := by
    intro x hx
    rw [List.append_assoc, List.cons_append]
    exact List.mem_append_right _ (List.mem_cons_of_mem _ hx)
  have hwaits : ∀ x ∈ tr₂ ++ [(m, Op.tick)],
      (∀ μ, ¬ x.1.Unlinks x.2 3 μ) ∧ ∀ u, x.2 ≠ .reqdtsk u 3 := by
    intro x hx
    have hop : x.2 ∈ thirdTick.drop 3 ++ [.tick] := by
      have h₃ := List.mem_map_of_mem (f := Prod.snd) hx
      rwa [List.map_append, h₂] at h₃
    refine ⟨fun μ hμ ↦ (hok' x (hmem x hx)).2.2 (hμ.handsTo fun he ↦ ?_), fun u hu ↦ ?_⟩
    · rw [he] at hop
      exact absurd hop (by decide)
    · rw [hu] at hop
      simp [thirdTick] at hop
  obtain ⟨-, -, hex, hexp⟩ := timeOut_of_run boot_booted hr'
    (fun x hx ↦ ⟨(hok' x hx).1, hf x hx⟩) hdisc
    (show _ = tr₁ ++ (m₃, Op.reqwait 3 1 3) :: (tr₂ ++ [(m, Op.tick)]) by simp) (by decide)
    ((of_decide_eq_true (hok (m₃, .reqwait 3 1 3) (by simp))).2.2 rfl) hwaits
  obtain ⟨s', hs'⟩ := hex (of_decide_eq_true hp)
  have hops : (tr₁ ++ (m₃, Op.reqwait 3 1 3) :: tr₂ ++ [(m, Op.tick)]).map Prod.snd =
      thirdTick ++ [.tick] := by
    rw [List.map_append, hos]
    rfl
  exact ⟨_, s, s', hr', hops, hs',
    ((hexp s' hs').1 ht).mpr fun x hx _ ↦ (hok' x (hmem x hx)).2.1⟩

/-- The timer passes over a first task with `0xFFFF` ticks to go. -/
theorem tick_uncounted (hp : s.pc rqtimerTd = .user) (hn : s.word0 .delayHead ≠ .null)
    (hf : s.firstDelay = 0xFFFF) : Step s .tick s ∧ s.signals = false := by
  have hc : countDown s = .ok (s, false) := by
    unfold countDown deref
    rw [if_neg hn]
    show (if s.firstDelay ≠ 0xFFFF then _ else _) = _
    rw [if_neg (not_not_intro hf)]
  refine ⟨⟨0, ?_⟩, ?_⟩
  · refine require_bind_eq_ok.mpr ⟨hp, ?_⟩
    unfold rqtimer
    rw [hc]
    rfl
  · unfold Nucleus.signals
    rw [hc]

/-- Alone with the greatest limit, task 3 is not counted down: the `0xFFFF` ticks that its wait
may last go by, and the expiry loop that follows finds nothing to do. -/
theorem timeOut_missed : ∃ tr s s', Run boot tr s ∧ Disciplined tr ∧
    (∃ m, tr = (boot, .reqwait 3 1 0xFFFF) :: List.replicate 0xFFFF (m, .tick)) ∧
    Step s .expiry s' ∧ s'.message 3 = .null ∧ s'.pc 3 = .semWait 1 0xFFFF ∧
    s'.status 3 = delayed ∧ s'.taskHead 1 = .task 3 := by
  obtain ⟨tr, m, hr, hos, -, hs⟩ := exists_run (n := 9) (c := fun _ _ ↦ true)
    (s := boot) (l := [.reqwait 3 1 0xFFFF])
    (p := fun s ↦ s.pc rqtimerTd = .user ∧ s.word0 .delayHead ≠ .null ∧ s.firstDelay = 0xFFFF ∧
      (step 9 s .expiry).toOption.any fun s' ↦ s'.message 3 = .null ∧
        s'.pc 3 = .semWait 1 0xFFFF ∧ s'.status 3 = delayed ∧ s'.taskHead 1 = .task 3)
    (by decide +kernel)
  obtain ⟨h1, h2, h3, h4⟩ := of_decide_eq_true hs
  rcases tr with _ | ⟨⟨m₀, o⟩, _ | ⟨z, tr⟩⟩ <;> simp at hos
  subst hos
  obtain ⟨_, hm, -⟩ := Trace.split (a := []) hr
  obtain rfl := Trace.nil_iff.mp hm
  obtain ⟨htick, hsig⟩ := tick_uncounted h1 h2 h3
  have hrun : ∀ n, Run boot ((boot, .reqwait 3 1 0xFFFF) :: List.replicate n (m, .tick)) m := by
    intro n
    induction n with
    | zero => exact hr
    | succ n ih =>
      rw [List.replicate_succ', ← List.cons_append]
      exact ih.snoc htick
  have hquiet : ∀ n, ∀ x ∈ (boot, Op.reqwait 3 1 0xFFFF) :: List.replicate n (m, Op.tick),
      x.2 = .tick → x.1.signals = false := by
    intro n x hx ht
    rcases List.mem_cons.mp hx with rfl | hx
    · cases ht
    · rw [List.eq_of_mem_replicate hx]
      exact hsig
  obtain ⟨s', hstep, h4⟩ := exists_step h4
  exact ⟨_, m, s', hrun _, disciplined_of_quiet (hquiet _), ⟨m, rfl⟩, hstep,
    of_decide_eq_true h4⟩

end YRmx
