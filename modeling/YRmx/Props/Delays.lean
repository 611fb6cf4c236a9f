import YRmx.Props.Queues

/-!
# The delay list as a finite map

Library `YRmx`. The delta-encoded list between the two sentinels denotes, in every state of a
plain run, a finite map from the timed tasks to their remaining ticks, and every step acts on
the map and not on the encoding.
-/

namespace YRmx

open Intrusive

/-- The delay list denotes these remaining ticks, in the order of the list. -/
structure DelayMap (s : Nucleus) (dl : List (TaskId × Nat)) : Prop where
  /-- a doubly linked chain between the sentinels -/
  linked : Linked s.word0 s.word1
    (.delayHead :: (dl.map (fun p ↦ Addr.task p.1) ++ [.delayTail]))
  head : s.delay .delayHead = 0
  tail : s.delay .delayTail = 0xFFFF
  nodup : (dl.map Prod.fst).Nodup
  mem_iff : ∀ t, t ∈ dl.map Prod.fst ↔ s.status t &&& delayed ≠ 0
  sorted : dl.Pairwise fun p q ↦ p.2 ≤ q.2
  /-- the remaining ticks of a task are the sum of the delay fields up to its own -/
  sum_eq : ∀ l t k r, dl = l ++ (t, k) :: r →
    ((l.map Prod.fst ++ [t]).map fun u ↦ (s.delay (.task u)).toNat).sum = k
  bound : ∀ p ∈ dl, p.2 ≤ 0xFFFF

/-- The first delay field, that of the tail sentinel when no task is timed. -/
def Nucleus.firstDelay (s : Nucleus) : BitVec 16 := s.delay (s.word0 .delayHead)

/-- After the step `k` ticks remain for the task, when `dl` are the remaining ticks before. -/
def Nucleus.Remains (s : Nucleus) (dl : List (TaskId × Nat)) (o : Op) (u : TaskId) (k : Nat) :
    Prop :=
  s.handsTo o ≠ some u ∧
  match o with
  | .reqwait t e d => (u, k) ∈ dl ∨ s.messageHead e = .null ∧ d ≠ 0 ∧ u = t ∧ k = d.toNat
  | .tick =>
    if s.firstDelay = 0 ∨ s.firstDelay = 0xFFFF then (u, k) ∈ dl else (u, k + 1) ∈ dl
  | .expiry => (u, k) ∈ dl ∧ k ≠ 0
  | .reqdtsk _ w => (u, k) ∈ dl ∧ u ≠ w
  | _ => (u, k) ∈ dl

namespace Board

variable {b : Board} {o : Op} {u : TaskId} {k : Nat}

/-- The first waiting time, `0xFFFF` when there is none. -/
def firstDelay (b : Board) : Nat :=
  match b.dl with
  | [] => 0xFFFF
  | (_, r) :: _ => r

/-- A tick changes the waiting times unless the first one is spent or reads as the end. -/
theorem Inv.mem_counted (hI : b.Inv) : (u, k) ∈ b.countDown.1.dl ↔
    if b.firstDelay = 0 ∨ b.firstDelay = 0xFFFF then (u, k) ∈ b.dl else (u, k + 1) ∈ b.dl := by
  unfold firstDelay Board.countDown
  cases hd : b.dl with
  | nil => simp [hd]
  | cons p r =>
    obtain ⟨t, c⟩ := p
    simp only
    by_cases h1 : c = 0xFFFF
    · rw [if_pos h1, if_pos (.inr h1), hd]
    · by_cases h2 : c = 0
      · rw [if_neg h1, if_pos h2, if_pos (.inl h2), hd]
      · rw [if_neg h1, if_neg h2, if_neg (not_or.mpr ⟨h2, h1⟩)]
        have hpos : ∀ p ∈ (t, c) :: r, 0 < p.2 := by
          have hs := List.pairwise_cons.mp (hd ▸ hI.dl_sorted)
          intro p hp
          rcases List.mem_cons.mp hp with rfl | hp
          · exact Nat.pos_of_ne_zero h2
          · have hle : c ≤ p.2 := hs.1 p hp
            omega
        constructor
        · intro h
          obtain ⟨p, hp, he⟩ := List.mem_map.mp h
          have hp0 := hpos p hp
          obtain ⟨rfl, rfl⟩ := Prod.mk.inj he
          rwa [Nat.sub_add_cancel hp0]
        · intro h
          exact List.mem_map.mpr ⟨(u, k + 1), h, rfl⟩

private theorem mem_filter_ne {w : TaskId} {l : List (TaskId × Nat)} :
    (u, k) ∈ l.filter (·.1 ≠ w) ↔ some w ≠ some u ∧ (u, k) ∈ l := by
  rw [List.mem_filter, and_comm]
  apply and_congr_left
  intro _
  rw [decide_eq_true_eq, ne_eq, ne_eq, Option.some.injEq, eq_comm]

/-- The waiting times after a step. -/
theorem Inv.mem_delaysAfter (hI : b.Inv) : (u, k) ∈ b.delaysAfter o ↔
    b.handsTo o ≠ some u ∧
    match o with
    | .reqwait t e d => (u, k) ∈ b.dl ∨ b.mq e = [] ∧ d ≠ 0 ∧ u = t ∧ k = d.toNat
    | .tick =>
      if b.firstDelay = 0 ∨ b.firstDelay = 0xFFFF then (u, k) ∈ b.dl else (u, k + 1) ∈ b.dl
    | .expiry => (u, k) ∈ b.dl ∧ k ≠ 0
    | .reqdtsk _ w => (u, k) ∈ b.dl ∧ u ≠ w
    | _ => (u, k) ∈ b.dl := by
  cases o with
  | reqwait t e d =>
    show (u, k) ∈ (if b.mq e = [] ∧ d ≠ 0 then _ else _) ↔ _
    by_cases hc : b.mq e = [] ∧ d ≠ 0
    · rw [if_pos hc, List.mem_orderedInsert]
      simp only [handsTo, sends, Prod.mk.injEq, ne_eq, reduceCtorEq, not_false_eq_true, true_and]
      exact or_comm.trans (or_congr .rfl ⟨fun h ↦ ⟨hc.1, hc.2, h⟩, fun h ↦ h.2.2⟩)
    · rw [if_neg hc]
      simp only [handsTo, sends, ne_eq, reduceCtorEq, not_false_eq_true, true_and]
      exact ⟨.inl, fun h ↦ h.resolve_right fun h ↦ hc ⟨h.1, h.2.1⟩⟩
  | expiry => simp [delaysAfter, handsTo, sends]
  | reqdtsk t w => simp [delaysAfter, handsTo, sends]
  | tick =>
    rw [← hI.mem_counted]
    unfold delaysAfter
    cases b.handsTo .tick with
    | none => simp [counted]
    | some w => exact mem_filter_ne
  | reqsend t e m =>
    unfold delaysAfter
    cases b.handsTo (.reqsend t e m) with
    | none => simp [counted]
    | some w => exact mem_filter_ne
  | reqisnd t e =>
    unfold delaysAfter
    cases b.handsTo (.reqisnd t e) with
    | none => simp [counted]
    | some w => exact mem_filter_ne
  | _ => simp [delaysAfter, handsTo, sends, counted]

end Board

variable {s₀ s s' : Nucleus} {b b' : Board} {o : Op}

/-- The first delay field is the first waiting time. -/
theorem Sim.firstDelay (h : Sim s b) : s.firstDelay.toNat = b.firstDelay := by
  have hl := h.delays.linked
  have hd := h.delays.deltas
  unfold Nucleus.firstDelay Board.firstDelay
  cases hb : b.dl with
  | nil =>
    rw [hb] at hl
    have hn : s.word0 .delayHead = .delayTail := (List.isChain_cons_cons.mp hl).1.1
    rw [hn, h.delays.tail]
    rfl
  | cons p r =>
    obtain ⟨t, k⟩ := p
    rw [hb] at hl hd
    have hn : s.word0 .delayHead = .task t := (List.isChain_cons_cons.mp hl).1.1
    rw [hn, ← hd.1, Nat.zero_add]

/-- The lists of the abstract nucleus are the map of the delay list. -/
theorem Sim.delayMap (h : Sim s b) (hI : b.Inv) : DelayMap s b.dl where
  linked := h.delays.linked
  head := h.delays.head
  tail := h.delays.tail
  nodup := hI.dl_nodup
  mem_iff t := by
    rw [h.status_eq]
    exact (hI.task t).timed_iff
  sorted := hI.dl_sorted
  sum_eq l t k r he := by
    have hd := h.delays.deltas
    rw [he] at hd
    simpa using hd.sum_eq
  bound := hI.dl_bound

/-- The remaining ticks after a step. -/
theorem Sim.remains_iff (h : Sim s b) (hI : b.Inv) (hb' : b.step o = .ok b') (u : TaskId)
    (k : Nat) : (u, k) ∈ b'.dl ↔ s.Remains b.dl o u k := by
  have hfirst : ∀ c : BitVec 16, s.firstDelay = c ↔ b.firstDelay = c.toNat := by
    intro c
    rw [← h.firstDelay, BitVec.toNat_inj]
  rw [(Board.step_lists hI hb' 0).2.2, hI.mem_delaysAfter]
  unfold Nucleus.Remains
  rw [h.handsTo_eq hI]
  apply and_congr_right
  intro _
  cases o with
  | reqwait t e d => exact or_congr .rfl (and_congr (h.messageHead_null e).symm .rfl)
  | tick =>
    simp only [hfirst]
    rfl
  | _ => exact .rfl

/-- In every state of a plain run the delay list denotes a map of remaining ticks; every call
comes to its end or waits, and acts on the map as it should. -/
theorem delays_of_run {tr : List (Nucleus × Op)} (hb : Booted s₀) (hr : Run s₀ tr s)
    (hok : ∀ x ∈ tr, x.1.Proper x.2) :
    ∃ dl, DelayMap s dl ∧ (s.firstDelay ≠ 0 → ∀ p ∈ dl, 0 < p.2) ∧
      ∀ o, s.Proper o → ((∃ s', Step s o s') ∨ ∀ n, step n s o = .error .blocked) ∧
        ∀ s', Step s o s' → ∃ dl', DelayMap s' dl' ∧ ∀ u k, (u, k) ∈ dl' ↔ s.Remains dl o u k := by
  obtain ⟨b, hS, hI, hU⟩ := hr.lists hb hok
  refine ⟨b.dl, hS.delayMap hI, ?_, fun o ho ↦ ⟨?_, fun s' hs ↦ ?_⟩⟩
  · intro hne p hp
    have hf : b.firstDelay ≠ 0 := by
      rw [← hS.firstDelay]
      exact fun hz ↦ hne (BitVec.eq_of_toNat_eq hz)
    unfold Board.firstDelay at hf
    have hs := hI.dl_sorted
    cases hd : b.dl with
    | nil =>
      rw [hd] at hp
      cases hp
    | cons q r =>
      rw [hd] at hp hf hs
      rcases List.mem_cons.mp hp with rfl | hp
      · exact Nat.pos_of_ne_zero hf
      · have hle : q.2 ≤ p.2 := (List.pairwise_cons.mp hs).1 p hp
        simp only at hf
        omega
  · exact hS.ends_or_blocked hI ((hS.calm_iff hI o).mpr (hU.calm o)) ho.2
  · obtain ⟨b', hb', hS', hI', -⟩ := hS.proper hI hU ho hs
    exact ⟨b'.dl, hS'.delayMap hI', hS.remains_iff hI hb'⟩

/-- Three timed tasks, a tick, and the deletion of the one in the middle. -/
theorem delays_of_run_deletion : ∃ tr s, Run boot tr s ∧
    tr.map Prod.snd = [.reqwait 3 7 5, .reqwait 4 7 2, .reqwait 5 8 9, .tick, .reqdtsk 6 3] ∧
    ∃ dl, DelayMap s dl ∧ 3 ∉ dl.map Prod.fst ∧ 5 ∈ dl.map Prod.fst := by
  obtain ⟨tr, s, hr, hos, hok, hs⟩ := exists_run (c := fun _ o ↦ decide o.Plain) (n := 9)
    (s := boot)
    (l := [.reqwait 3 7 5, .reqwait 4 7 2, .reqwait 5 8 9, .tick, .reqdtsk 6 3])
    (p := fun s ↦ s.status 3 &&& delayed = 0 ∧ s.status 5 &&& delayed ≠ 0) (by decide +kernel)
  have hf := hr.fresh (fun e ↦ (boot_booted.exchanges e).messageHead) (by rw [hos]; decide)
  obtain ⟨dl, hd, -⟩ := delays_of_run boot_booted hr
    fun x hx ↦ ⟨of_decide_eq_true (hok x hx), hf x hx⟩
  obtain ⟨h3, h5⟩ := of_decide_eq_true hs
  exact ⟨tr, s, hr, hos, dl, hd, fun hx ↦ (hd.mem_iff 3).mp hx h3, (hd.mem_iff 5).mpr h5⟩

end YRmx
