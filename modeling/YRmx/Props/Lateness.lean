import YRmx.Props.TimeOuts

/-!
# How late a time-out is

Library `YRmx`. Whenever the delay task comes to run its loop, a task that waits with a limit of
`d` ticks is given the time-out message after `d` ticks and those that found the delay list
standing: a due task that the loop had not fetched yet, or a first delay field that reads as the
end of the list. It is never given earlier.
-/

namespace YRmx

open Transition

/-- A tick would count the delay list down. -/
def Nucleus.CountsDown (s : Nucleus) : Prop := s.firstDelay ≠ 0 ∧ s.firstDelay ≠ 0xFFFF

instance (s : Nucleus) : Decidable s.CountsDown := inferInstanceAs (Decidable (_ ∧ _))

/-- The ticks of a run that counted the delay list down. -/
def elapsed (tr : List (Nucleus × Op)) : Nat := tr.countP fun x ↦ x.2 = .tick ∧ x.1.CountsDown

/-- The ticks that found a due task in the delay list. -/
def overdue (tr : List (Nucleus × Op)) : Nat :=
  tr.countP fun x ↦ x.2 = .tick ∧ x.1.firstDelay = 0

/-- The ticks that took the first task for the end of the delay list. -/
def passedOver (tr : List (Nucleus × Op)) : Nat :=
  tr.countP fun x ↦ x.2 = .tick ∧ x.1.firstDelay = 0xFFFF

variable {s₀ s m : Nucleus} {b b' : Board} {o : Op} {t : TaskId} {e : ExchId} {d : BitVec 16}
variable {tr tr₁ tr₂ : List (Nucleus × Op)}

/-- One more step is one more tick that counts down, or none. -/
theorem elapsed_snoc :
    elapsed (tr ++ [(s, o)]) = elapsed tr + if o = .tick ∧ s.CountsDown then 1 else 0 := by
  unfold elapsed
  rw [List.countP_append, List.countP_singleton]
  simp only [decide_eq_true_eq]

/-- Every tick counts down, finds a due task or takes the first one for the end. -/
theorem ticks_eq (tr : List (Nucleus × Op)) :
    ticks tr = elapsed tr + overdue tr + passedOver tr := by
  induction tr with
  | nil => rfl
  | cons x tr ih =>
    have hcons : ∀ (p : Nucleus × Op → Prop) [DecidablePred p],
        (x :: tr).countP (fun y ↦ p y) = tr.countP (fun y ↦ p y) + if p x then 1 else 0 := by
      intro p _
      rw [List.countP_cons]
      simp only [decide_eq_true_eq]
    have hone : (if x.2 = .tick then 1 else 0) =
        (if x.2 = .tick ∧ x.1.CountsDown then 1 else 0) +
          (if x.2 = .tick ∧ x.1.firstDelay = 0 then 1 else 0) +
          if x.2 = .tick ∧ x.1.firstDelay = 0xFFFF then 1 else 0 := by
      have hc : x.1.CountsDown ↔ x.1.firstDelay ≠ 0 ∧ x.1.firstDelay ≠ 0xFFFF := .rfl
      have hne : (0 : BitVec 16) ≠ 0xFFFF := by decide
      by_cases ht : x.2 = .tick
      · by_cases h0 : x.1.firstDelay = 0
        · simp only [ht, hc, h0, hne, true_and, ne_eq, not_true_eq_false, false_and, if_true,
            if_false]
        · by_cases h1 : x.1.firstDelay = 0xFFFF
          · simp only [ht, hc, h1, hne.symm, true_and, ne_eq, not_true_eq_false, and_false,
              if_true, if_false]
          · simp only [ht, hc, h0, h1, true_and, ne_eq, not_false_eq_true, if_true, if_false]
      · simp only [ht, false_and, if_false]
    unfold ticks elapsed overdue passedOver at ih ⊢
    rw [hcons, hcons, hcons, hcons, ih, hone]
    omega

namespace Board

/-- When the first waiting time is not spent, none is. -/
theorem Inv.pos_of_firstDelay {k : Nat} (hI : b.Inv) (h0 : b.firstDelay ≠ 0) (ht : (t, k) ∈ b.dl) :
    0 < k := by
  have hs := hI.dl_sorted
  unfold firstDelay at h0
  cases hd : b.dl with
  | nil =>
    rw [hd] at ht
    cases ht
  | cons p r =>
    rw [hd] at hs h0 ht
    rcases List.mem_cons.mp ht with rfl | ht
    · exact Nat.pos_of_ne_zero h0
    · have hle : p.2 ≤ k := (List.pairwise_cons.mp hs).1 _ ht
      simp only at h0
      omega

/-- A tick that counts down lowers the remaining ticks of every task that it hands nothing. -/
theorem tick_countsDown {k : Nat} (hI : b.Inv) (h : b.step .tick = .ok b')
    (hc : b.firstDelay ≠ 0 ∧ b.firstDelay ≠ 0xFFFF) (ht : (t, k) ∈ b.dl)
    (hu : b.handsTo .tick ≠ some t) : 0 < k ∧ (t, k - 1) ∈ b'.dl := by
  have hk := hI.pos_of_firstDelay hc.1 ht
  refine ⟨hk, ?_⟩
  rw [(step_lists hI h 0).2.2]
  refine hI.mem_delaysAfter.mpr ⟨hu, ?_⟩
  simp only
  rwa [if_neg (not_or.mpr hc), Nat.sub_add_cancel hk]

/-- Any other tick leaves the remaining ticks. -/
theorem tick_stands {k : Nat} (hI : b.Inv) (h : b.step .tick = .ok b')
    (hc : ¬ (b.firstDelay ≠ 0 ∧ b.firstDelay ≠ 0xFFFF)) (ht : (t, k) ∈ b.dl)
    (hu : b.handsTo .tick ≠ some t) : (t, k) ∈ b'.dl := by
  rw [(step_lists hI h 0).2.2]
  refine hI.mem_delaysAfter.mpr ⟨hu, ?_⟩
  simp only
  rwa [if_pos (or_iff_not_and_not.mpr hc)]

end Board

/-- Both sides count down at the same ticks. -/
theorem Sim.countsDown_iff (h : Sim s b) :
    s.CountsDown ↔ b.firstDelay ≠ 0 ∧ b.firstDelay ≠ 0xFFFF := by
  unfold Nucleus.CountsDown
  rw [← h.firstDelay, ne_eq, ne_eq, ← BitVec.toNat_inj, ← BitVec.toNat_inj]
  rfl

/-- The timed waits that a run began, and that nothing has ended, with the ticks that remain. -/
def Counted (tr : List (Nucleus × Op)) (b : Board) : Prop :=
  ∀ tr₁ m t e d tr₂, tr = tr₁ ++ (m, .reqwait t e d) :: tr₂ → d ≠ 0 → m.messageHead e = .null →
    (∀ x ∈ tr₂, (∀ μ, ¬ x.1.Unlinks x.2 t μ) ∧ ∀ u, x.2 ≠ .reqdtsk u t) →
    t ∈ b.tq e ∧ elapsed tr₂ ≤ d.toNat ∧ (t, d.toNat - elapsed tr₂) ∈ b.dl

/-- Every step keeps the count. -/
theorem Counted.step (h : Counted tr b) (hS : Sim s b) (hI : b.Inv) (hb : b.step o = .ok b') :
    Counted (tr ++ [(s, o)]) b' := by
  intro tr₁ m t e d tr₂ he hd hm hx
  rcases snoc_eq_append_cons.mp he with ⟨-, hso, rfl⟩ | ⟨tr₃, rfl, rfl⟩
  · cases hso
    have hq := (hS.messageHead_null e).mp hm
    refine ⟨(Board.waits_of_reqwait hI hb hq).1, Nat.zero_le _, ?_⟩
    rw [(Board.step_lists hI hb 0).2.2]
    refine hI.mem_delaysAfter.mpr ⟨by simp [Board.handsTo, Board.sends], ?_⟩
    exact .inr ⟨hq, hd, rfl, rfl⟩
  obtain ⟨hu, hdel⟩ := hx (s, o) (by simp)
  have hu' : ∀ μ, ¬ b.Unlinks o t μ := fun μ hμ ↦ hu μ ((hS.unlinks_iff hI o t μ).mpr hμ)
  obtain ⟨ht, hle, hrem⟩ := h tr₁ m t e d tr₃ rfl hd hm fun x hx' ↦ hx x (by simp [hx'])
  have ht' : t ∈ b'.tq e := by
    cases Board.step_waiter hI hb ⟨e, ht⟩ with
    | stays hs => exact (hs.tq e).mpr ht
    | unlinked μ hμ => exact absurd hμ (hu' μ)
    | deleted u hx => exact absurd hx (hdel u)
    | ended _ hs => exact (hs.tq e).mpr ht
  refine ⟨ht', ?_⟩
  rw [elapsed_snoc]
  by_cases htick : o = .tick
  · subst htick
    have hhand : b.handsTo .tick ≠ some t := by
      intro hx
      obtain ⟨μ, hμ⟩ := Nucleus.unlinks_of_handsTo ((hS.handsTo_eq hI .tick).trans hx)
      exact hu μ hμ
    by_cases hc : s.CountsDown
    · obtain ⟨hk, hrem'⟩ := Board.tick_countsDown hI hb (hS.countsDown_iff.mp hc) hrem hhand
      rw [if_pos ⟨rfl, hc⟩]
      exact ⟨by omega, by rwa [Nat.sub_sub] at hrem'⟩
    · rw [if_neg fun hx ↦ hc hx.2]
      exact ⟨hle, Board.tick_stands hI hb (fun hx ↦ hc (hS.countsDown_iff.mpr hx)) hrem hhand⟩
  · rw [if_neg fun hx ↦ htick hx.1]
    exact ⟨hle, Board.other_remaining hI hb htick hrem hu' hdel⟩

/-- In any run in which no task suspends another one and no queued message is created, a task that
waits with a limit of `d` ticks and was neither unlinked nor deleted since has `d` less the ticks
that counted down to go, and the expiry loop gives it the time-out message exactly when there were
`d` ticks beside those that found a due task or the end of the list. -/
theorem lateness_of_run (hb : Booted s₀) (hr : Run s₀ tr s) (hok : ∀ x ∈ tr, x.1.Proper x.2)
    (he : tr = tr₁ ++ (m, .reqwait t e d) :: tr₂) (hd : d ≠ 0) (hm : m.messageHead e = .null)
    (hx : ∀ x ∈ tr₂, (∀ μ, ¬ x.1.Unlinks x.2 t μ) ∧ ∀ u, x.2 ≠ .reqdtsk u t) :
    (∃ ts, TaskQueue s e ts ∧ t ∈ ts) ∧
    (∃ dl k, DelayMap s dl ∧ (t, k) ∈ dl ∧
      ticks tr₂ + k = d.toNat + overdue tr₂ + passedOver tr₂) ∧
    ∀ s', Step s .expiry s' →
      (s'.TimedOut t ↔ ticks tr₂ = d.toNat + overdue tr₂ + passedOver tr₂) := by
  obtain ⟨b, hS, hI, hU, hC⟩ := Run.plain (Q := fun tr _ b ↦ Counted tr b) hb hr
    (fun _ _ _ _ _ _ he ↦ by simp at he) hok (fun _ _ h ↦ h)
    fun tr s b o s' b' hS hI _ hQ _ _ _ hb' ↦ hQ.step hS hI hb'
  obtain ⟨ht, hle, hrem⟩ := hC tr₁ m t e d tr₂ he hd hm hx
  have hticks := ticks_eq tr₂
  refine ⟨⟨b.tq e, hS.tasks e, ht⟩, ⟨b.dl, _, hS.delayMap hI, hrem, by omega⟩, fun s' hs ↦ ?_⟩
  have hdue : (t, 0) ∈ b.dl ↔ ticks tr₂ = d.toNat + overdue tr₂ + passedOver tr₂ := by
    constructor
    · intro h0
      have hk := congrArg Prod.snd (List.inj_on_of_nodup_map hI.dl_nodup h0 hrem rfl)
      simp only at hk
      omega
    · intro hn
      obtain hz : d.toNat - elapsed tr₂ = 0 := by omega
      rwa [hz] at hrem
  have hproper : s.Proper .expiry := ⟨trivial, trivial⟩
  obtain ⟨b', hb', hS', -⟩ := hS.proper hI hU hproper hs
  have hexp := hS'.expiry_waiter hI hb' ht
  rw [← hdue]
  split at hexp
  case isTrue h0 => exact iff_of_true hexp h0
  case isFalse h0 =>
    obtain ⟨ts, hq, hts⟩ := hexp
    exact iff_of_false (fun h ↦ h.2 e ts hq hts) h0

/-- Three ticks go by while the delay task does not run, for a task that waits for two. -/
theorem lateness_of_run_late : ∃ tr s, Run boot ((boot, .reqwait 3 1 2) :: tr) s ∧
    tr.map Prod.snd = [.tick, .tick, .tick] ∧
    ∃ dl k, DelayMap s dl ∧ (3, k) ∈ dl ∧ 3 + k = 2 + overdue tr + passedOver tr := by
  obtain ⟨tr, s, hr, hos, hok, -⟩ := exists_run (n := 9)
    (c := fun s o ↦ o.Plain ∧ s.handsTo o = none)
    (s := boot) (l := [.reqwait 3 1 2, .tick, .tick, .tick]) (p := fun _ ↦ true)
    (by decide +kernel)
  have hf := hr.fresh (fun e ↦ (boot_booted.exchanges e).messageHead) (by rw [hos]; decide)
  rcases tr with _ | ⟨⟨m, o⟩, tr⟩
  · cases hos
  obtain ⟨rfl, htr⟩ : o = .reqwait 3 1 2 ∧ tr.map Prod.snd = [.tick, .tick, .tick] := by
    simpa using hos
  obtain ⟨_, hm, -⟩ := Trace.split (a := []) hr
  obtain rfl := Trace.nil_iff.mp hm
  obtain ⟨-, ⟨dl, k, hdl, hk, he⟩, -⟩ := lateness_of_run boot_booted hr
    (fun x hx ↦ ⟨(of_decide_eq_true (hok x hx)).1, hf x hx⟩)
    (show (boot, Op.reqwait 3 1 2) :: tr = [] ++ (boot, Op.reqwait 3 1 2) :: tr from rfl)
    (by decide) rfl (fun x hx ↦ by
      have ht : x.2 ∈ [Op.tick, .tick, .tick] := htr ▸ List.mem_map_of_mem hx
      have ht : x.2 = .tick := by simpa using ht
      have hn := (of_decide_eq_true (hok x (List.mem_cons_of_mem _ hx))).2
      refine ⟨fun μ hμ ↦ ?_, fun u h ↦ by simp [ht] at h⟩
      rw [hμ.handsTo (by simp [ht])] at hn
      cases hn)
  have hticks : ticks tr = 3 := by
    have hc : ticks tr = (tr.map Prod.snd).countP (· = .tick) := by
      rw [List.countP_map]
      rfl
    rw [hc, htr]
    rfl
  rw [hticks] at he
  exact ⟨tr, s, hr, htr, dl, k, hdl, hk, he⟩

end YRmx
