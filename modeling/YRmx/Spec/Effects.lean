import YRmx.Spec.Inversion

/-!
# What a step does to the lists

Library `YRmx`. The queues of an exchange and the delay list after a step, as functions of
the lists before it: append, remove the first, remove this element, insert by due time,
count down.
-/

namespace YRmx

/-- The messages of an exchange after a step that sends `sent`. -/
def messagesAfter (sent : Option (ExchId × MsgId)) (o : Op) (e : ExchId) (ms : List MsgId)
    (ts : List TaskId) : List MsgId :=
  match sent, o with
  | some (e', m), _ => if e' = e ∧ ts = [] then ms ++ [m] else ms
  | none, .reqwait _ e' _ => if e' = e then ms.tail else ms
  | none, .reqacpt _ e' => if e' = e then ms.tail else ms
  | none, _ => ms

/-- The waiting tasks of an exchange after a step that sends `sent`, when the times of `due`
have run out. -/
def tasksAfter (sent : Option (ExchId × MsgId)) (o : Op) (e : ExchId) (ms : List MsgId)
    (ts due : List TaskId) : List TaskId :=
  match sent, o with
  | some (e', _), _ => if e' = e then ts.tail else ts
  | none, .reqwait t e' _ => if e' = e ∧ ms = [] then ts ++ [t] else ts
  | none, .expiry => ts.filter (· ∉ due)
  | none, .reqdtsk _ u => ts.erase u
  | none, _ => ts

namespace Board

/-- The waiting times that the timer leaves. -/
def counted (b : Board) : Op → List (TaskId × Nat)
  | .tick => b.countDown.1.dl
  | _ => b.dl

/-- The delay list after a step. -/
def delaysAfter (b : Board) (o : Op) : List (TaskId × Nat) :=
  match b.handsTo o, o with
  | some u, _ => (b.counted o).filter (·.1 ≠ u)
  | none, .reqwait t e d =>
    if b.mq e = [] ∧ d ≠ 0 then b.dl.orderedInsert due (t, d.toNat) else b.dl
  | none, .expiry => b.dl.filter (·.2 ≠ 0)
  | none, .reqdtsk _ u => b.dl.filter (·.1 ≠ u)
  | none, _ => b.counted o

variable {b b' : Board} {t u : TaskId} {o : Op} {e : ExchId} {m : MsgId}

/-! ### The tasks whose time has run out -/

/-- The tasks that are due are those with no ticks left. -/
theorem Inv.mem_expired (hI : b.Inv) : u ∈ b.expired ↔ (u, 0) ∈ b.dl := by
  have hs := hI.dl_sorted
  unfold Board.expired
  generalize b.dl = l at hs
  induction l with
  | nil => simp
  | cons p r ih =>
    obtain ⟨hp, hr⟩ := List.pairwise_cons.mp hs
    by_cases hz : p.2 = 0
    · rw [List.takeWhile_cons_of_pos (by simpa using hz), List.map_cons, List.mem_cons,
        List.mem_cons]
      refine or_congr ⟨fun h ↦ ?_, fun h ↦ ?_⟩ (ih hr)
      · rw [h, ← hz]
      · rw [← h]
    · rw [List.takeWhile_cons_of_neg (by simpa using hz)]
      apply iff_of_false List.not_mem_nil
      rw [List.mem_cons, not_or]
      refine ⟨?_, fun h ↦ ?_⟩
      · rintro rfl
        exact hz rfl
      · have hle : p.2 ≤ 0 := hp _ h
        exact hz (Nat.le_zero.mp hle)

/-- A sequence of time-outs removes its tasks from every queue. -/
theorem foldl_expire_tq {ts : List TaskId} (hI : b.Inv) (hn : ts.Nodup)
    (ht : ∀ t ∈ ts, b.Timed t) (e : ExchId) :
    (ts.foldl expire b).tq e = (b.tq e).filter (· ∉ ts) := by
  induction ts generalizing b with
  | nil => simp
  | cons t ts ih =>
    rw [List.nodup_cons] at hn
    have htt := ht t List.mem_cons_self
    have hts : ∀ t' ∈ ts, (b.expire t).Timed t' := by
      intro t' ht'
      refine timed_expire.mpr ⟨?_, ht t' (List.mem_cons_of_mem _ ht')⟩
      rintro rfl
      exact hn.1 ht'
    have htq : (b.expire t).tq e = (b.tq e).filter (· ≠ t) := by
      obtain ⟨e₀, he₀⟩ := (hI.task t).waits htt
      show (b.dropTask t).tq e = _
      rw [dropTask_eq hI he₀]
      by_cases he : e = e₀
      · subst he
        simp only [Function.update_self]
        rw [(hI.tq_nodup e).erase_eq_filter]
        exact List.filter_congr fun u _ ↦ by
          rw [Bool.eq_iff_iff]
          simp
      · simp only [Function.update_of_ne he]
        refine (List.filter_eq_self.mpr fun u hu ↦ ?_).symm
        have hne : u ≠ t := by
          rintro rfl
          exact he ((hI.task u).tq_disjoint hu he₀)
        simpa using hne
    rw [List.foldl_cons, ih (hI.expire htt) hn.2 hts, htq, List.filter_filter]
    apply List.filter_congr
    intro u _
    simp [Bool.and_comm]

/-- A sequence of time-outs removes its tasks from the delay list and changes no message. -/
theorem foldl_expire_lists (ts : List TaskId) (b : Board) :
    (ts.foldl expire b).dl = b.dl.filter (·.1 ∉ ts) ∧ (ts.foldl expire b).mq = b.mq ∧
      (ts.foldl expire b).own = b.own := by
  induction ts generalizing b with
  | nil => simp
  | cons t ts ih =>
    obtain ⟨hdl, hmq, hown⟩ := ih (b.expire t)
    rw [List.foldl_cons, hdl, hmq, hown, expire_dl, expire_mq, expire_own, List.filter_filter]
    refine ⟨List.filter_congr fun p _ ↦ ?_, rfl, rfl⟩
    simp [Bool.and_comm]

/-- Serving all due tasks leaves those with ticks left. -/
theorem Inv.expireAll_dl (hI : b.Inv) : b.expireAll.dl = b.dl.filter (·.2 ≠ 0) := by
  rw [Board.expireAll, (foldl_expire_lists _ b).1]
  apply List.filter_congr
  intro p hp
  have hmem : p.1 ∈ b.expired ↔ p.2 = 0 := by
    rw [hI.mem_expired]
    constructor
    · intro h
      have hnd := hI.dl_nodup
      exact (congrArg Prod.snd (List.inj_on_of_nodup_map hnd hp h rfl))
    · intro h
      rw [← h]
      exact hp
  simp [hmem]

/-! ### Sends -/

/-- A send that passes the ownership test appends the message or serves the first task. -/
theorem Sent.lists (hs : Sent b e m b') (e' : ExchId) :
    b'.mq e' = (if e = e' ∧ b.tq e' = [] then b.mq e' ++ [m] else b.mq e') ∧
    b'.tq e' = (if e = e' then (b.tq e').tail else b.tq e') ∧
    b'.dl = (match (b.tq e).head? with
      | some u => b.dl.filter (·.1 ≠ u)
      | none => b.dl) := by
  cases hs with
  | kept h =>
    refine ⟨?_, ?_, ?_⟩
    · by_cases he : e = e'
      · subst he
        simp [pushMessage, h]
      · simp [pushMessage, he, Ne.symm he]
    · by_cases he : e = e'
      · subst he
        simp [pushMessage, h]
      · simp [pushMessage, he]
    · simp [pushMessage, h]
  | @handed w us h =>
    refine ⟨?_, ?_, ?_⟩
    · by_cases he : e = e'
      · subst he
        simp [handOff, dropDelay, h]
      · simp [handOff, dropDelay, he]
    · by_cases he : e = e'
      · subst he
        simp [handOff, dropDelay]
      · simp [handOff, dropDelay, he, Ne.symm he]
    · simp [handOff, dropDelay, h]

private theorem isnd_lists (h : b.isnd t e = .ok b') (e' : ExchId) :
    b'.mq e' = messagesAfter (b.sendsInt e) .tick e' (b.mq e') (b.tq e') ∧
    b'.tq e' = tasksAfter (b.sendsInt e) .tick e' (b.mq e') (b.tq e') [] ∧
    b'.dl = (match b.sendsInt e with
      | some (e, _) => match (b.tq e).head? with
        | some u => b.dl.filter (·.1 ≠ u)
        | none => b.dl
      | none => b.dl) := by
  rcases isnd_cases h with ⟨hs, hsent⟩ | ⟨hn, rfl⟩
  · rw [hs]
    exact hsent.lists e'
  · have hs : b.sendsInt e = none := if_neg fun hx ↦ hn hx.1
    rw [hs]
    exact ⟨rfl, rfl, rfl⟩

private def Determined (b : Board) (o : Op) (b' : Board) (e' : ExchId) : Prop :=
  b'.mq e' = messagesAfter (b.sends o) o e' (b.mq e') (b.tq e') ∧
    b'.tq e' = tasksAfter (b.sends o) o e' (b.mq e') (b.tq e') b.expired ∧
    b'.dl = b.delaysAfter o

private theorem Determined.of_reqsend {e' : ExchId} (h : b.step (.reqsend t e m) = .ok b') :
    Determined b (.reqsend t e m) b' e' := by
  obtain ⟨hp, h⟩ := require_bind_eq_ok.mp h
  obtain ⟨hmx, ⟨hacc, hs⟩ | ⟨hacc, rfl⟩⟩ := send_cases h
  · have ho : b.sends (.reqsend t e m) = some (e, m) := if_pos ⟨hp, hmx, hacc⟩
    obtain ⟨hmq, htq, hdl⟩ := hs.lists e'
    unfold Determined delaysAfter handsTo
    rw [ho]
    refine ⟨hmq, htq, hdl.trans ?_⟩
    simp only
    cases (b.tq e).head? <;> rfl
  · have ho : b.sends (.reqsend t e m) = none := if_neg fun hx ↦ hacc hx.2.2
    unfold Determined delaysAfter handsTo
    rw [ho]
    exact ⟨rfl, rfl, rfl⟩

private theorem Determined.of_reqisnd {e' : ExchId} (h : b.step (.reqisnd t e) = .ok b') :
    Determined b (.reqisnd t e) b' e' := by
  obtain ⟨hp, h⟩ := require_bind_eq_ok.mp h
  have ho : b.sends (.reqisnd t e) = b.sendsInt e := if_pos hp
  obtain ⟨hmq, htq, hdl⟩ := isnd_lists h e'
  unfold Determined delaysAfter handsTo
  rw [ho]
  cases hs : b.sendsInt e with
  | none =>
    rw [hs] at hmq htq hdl
    exact ⟨hmq, htq, hdl⟩
  | some x =>
    rw [hs] at hmq htq hdl
    refine ⟨hmq, htq, hdl.trans ?_⟩
    simp only
    cases (b.tq x.1).head? <;> rfl

private theorem Determined.of_reqwait {e' : ExchId} {d : BitVec 16}
    (h : b.step (.reqwait t e d) = .ok b') : Determined b (.reqwait t e d) b' e' := by
  obtain ⟨hp, h⟩ := require_bind_eq_ok.mp h
  obtain ⟨-, h⟩ := require_bind_eq_ok.mp h
  by_cases hmq : b.mq e = []
  · obtain rfl := Except.ok.inj ((if_pos hmq).symm.trans h)
    refine ⟨?_, ?_, ?_⟩
    · rw [block_mq]
      by_cases he : e = e'
      · subst he
        simp [messagesAfter, sends, hmq]
      · simp [messagesAfter, sends, he]
    · rw [block_tq]
      by_cases he : e = e'
      · subst he
        simp [tasksAfter, sends, hmq]
      · simp [tasksAfter, sends, he, Ne.symm he]
    · rw [block_dl]
      by_cases hd : d = 0 <;> simp [delaysAfter, handsTo, sends, hmq, hd]
  · obtain rfl := Except.ok.inj ((if_neg hmq).symm.trans h)
    obtain ⟨m, ms, hms⟩ := List.exists_cons_of_ne_nil hmq
    have hms' : (b.ctl (·.setExchange t (.exch e))).mq e = m :: ms := hms
    rw [popMessage_cons hms']
    refine ⟨?_, ?_, ?_⟩
    · by_cases he : e = e'
      · subst he
        simp [messagesAfter, sends, hms]
      · simp [messagesAfter, sends, he, Ne.symm he]
    · by_cases he : e = e'
      · subst he
        simp [tasksAfter, sends, hms]
      · simp [tasksAfter, sends, he]
    · simp [delaysAfter, handsTo, sends, hms]

private theorem Determined.of_reqacpt {e' : ExchId} (h : b.step (.reqacpt t e) = .ok b') :
    Determined b (.reqacpt t e) b' e' := by
  obtain ⟨hp, h⟩ := require_bind_eq_ok.mp h
  obtain ⟨-, h⟩ := require_bind_eq_ok.mp h
  cases h
  unfold popMessage
  cases hmq : b.mq e with
  | nil =>
    refine ⟨?_, rfl, rfl⟩
    by_cases he : e = e'
    · subst he
      simp [messagesAfter, sends, hmq]
    · simp [messagesAfter, sends, he]
  | cons m ms =>
    refine ⟨?_, ?_, ?_⟩
    · by_cases he : e = e'
      · subst he
        simp [messagesAfter, sends, hmq]
      · simp [messagesAfter, sends, he, Ne.symm he]
    · simp [tasksAfter, sends]
    · simp [delaysAfter, handsTo, sends, counted]

private theorem Determined.of_tick {e' : ExchId} (h : b.step .tick = .ok b') :
    Determined b .tick b' e' := by
  obtain ⟨hp, h⟩ := require_bind_eq_ok.mp h
  have hcd := countDown_eq b
  have hmq : b.countDown.1.mq = b.mq := by rw [hcd]
  have htq : b.countDown.1.tq = b.tq := by rw [hcd]
  have hsi : b.countDown.1.sendsInt rqDelayExchange = b.sendsInt rqDelayExchange := by
    rw [hcd]
    rfl
  unfold tick at h
  by_cases hs : b.countDown.2 = true
  · rw [if_pos hs] at h
    have ho : b.sends .tick = b.sendsInt rqDelayExchange := if_pos ⟨hp, hs⟩
    obtain ⟨h1, h2, h3⟩ := isnd_lists h e'
    rw [hsi, hmq, htq] at h1 h2
    rw [hsi, htq] at h3
    unfold Determined delaysAfter handsTo
    rw [ho]
    cases hx : b.sendsInt rqDelayExchange with
    | none =>
      rw [hx] at h1 h2 h3
      exact ⟨h1, h2, h3⟩
    | some x =>
      rw [hx] at h1 h2 h3
      refine ⟨h1, h2, h3.trans ?_⟩
      simp only
      cases (b.tq x.1).head? <;> rfl
  · rw [if_neg hs] at h
    cases h
    have ho : b.sends .tick = none := if_neg fun hx ↦ hs hx.2
    unfold Determined delaysAfter handsTo
    rw [ho]
    exact ⟨congrFun hmq e', congrFun htq e', rfl⟩

private theorem Determined.of_reqdtsk {e' : ExchId} (hI : b.Inv)
    (h : b.step (.reqdtsk t u) = .ok b') : Determined b (.reqdtsk t u) b' e' := by
  obtain ⟨-, h⟩ := require_bind_eq_ok.mp h
  cases h
  unfold delete
  by_cases hb : b.status u &&& (waiting ||| delayed) ≠ 0
  · simp only [if_pos hb]
    obtain ⟨e, he⟩ := (hI.task u).waits_iff.mpr hb
    refine ⟨congrFun (dropTask_mq b u) e', ?_, ?_⟩
    · show (b.dropTask u).tq e' = (b.tq e').erase u
      rw [dropTask_eq hI he]
      by_cases hx : e' = e
      · subst hx
        simp
      · have hu : u ∉ b.tq e' := fun hu ↦ hx ((hI.task u).tq_disjoint hu he)
        simp [hx, List.erase_of_not_mem hu]
    · show (b.dropTask u).dl.filter _ = _
      rw [dropTask_dl]
      rfl
  · have hw : ¬ b.Waits u := fun hw ↦ hb ((hI.task u).waits_iff.mp hw)
    simp only [if_neg hb]
    refine ⟨rfl, ?_, ?_⟩
    · show b.tq e' = (b.tq e').erase u
      rw [List.erase_of_not_mem fun hu ↦ hw ⟨e', hu⟩]
    · show b.dl = b.dl.filter _
      refine (List.filter_eq_self.mpr fun p hp ↦ ?_).symm
      have hne : p.1 ≠ u := by
        rintro rfl
        exact hw ((hI.task _).waits (List.mem_map_of_mem hp))
      simpa using hne

/-- The queues and the delay list after a step are determined by those before it. -/
theorem step_lists (hI : b.Inv) (h : b.step o = .ok b') (e' : ExchId) :
    b'.mq e' = messagesAfter (b.sends o) o e' (b.mq e') (b.tq e') ∧
    b'.tq e' = tasksAfter (b.sends o) o e' (b.mq e') (b.tq e') b.expired ∧
    b'.dl = b.delaysAfter o := by
  cases o with
  | reqsend => exact Determined.of_reqsend h
  | reqisnd => exact Determined.of_reqisnd h
  | reqwait => exact Determined.of_reqwait h
  | reqacpt => exact Determined.of_reqacpt h
  | tick => exact Determined.of_tick h
  | expiry =>
    obtain ⟨-, h⟩ := require_bind_eq_ok.mp h
    cases h
    exact ⟨congrFun (foldl_expire_lists _ b).2.1 e',
      foldl_expire_tq hI hI.expired.1 hI.expired.2 e', hI.expireAll_dl⟩
  | reqdtsk => exact Determined.of_reqdtsk hI h
  | reqcmsg =>
    obtain ⟨-, h⟩ := require_bind_eq_ok.mp h
    cases h
    exact ⟨rfl, rfl, rfl⟩
  | _ =>
    obtain ⟨f, rfl⟩ := step_ctl h trivial
    exact ⟨rfl, rfl, rfl⟩

end Board

end YRmx
