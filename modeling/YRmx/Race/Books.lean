import YRmx.Race.Ledger
import YRmx.Refine.Delays
import YRmx.Refine.Tasks

/-!
# Entries of the ledger

Library `YRmx`. What the pointers tell about the lists, and what each write of a call does to the
lists. A queue that somebody works on may have a stale tail pointer; nothing else about the
descriptors is ever out of date.
-/

namespace YRmx.Traffic

open Intrusive Transition

variable {s s' : Nucleus} {g g' : Ledger} {r r' : Log} {e e' : ExchId} {t u : TaskId} {m : MsgId}

namespace Books

/-! ### Reading -/

/-- No task stands twice in a queue. -/
theorem tq_nodup (h : Books s g r) (e : ExchId) : (g.tq e).Nodup := (h.links e).nodup.of_map

/-- The whole queue, when its tail is up to date. -/
theorem taskQueue (h : Books s g r) (ht : s.taskTail e = lastOf e (g.tq e)) :
    TaskQueue s e (g.tq e) := by
  show Fifo s.word2 .null (.exch e) (s.taskTail e) _
  rw [ht]
  exact h.links e

/-- The head pointer is the first task, or null. -/
theorem taskHead (h : Books s g r) (e : ExchId) : s.taskHead e = firstOf (g.tq e) :=
  (h.links e).head_eq

/-- The head pointer is null for the empty queue. -/
theorem taskHead_null_iff (h : Books s g r) : s.taskHead e = .null ↔ g.tq e = [] :=
  (h.links e).head_null_iff.trans List.map_eq_nil_iff

/-- The tail pointer of an exchange without a waiting task is the exchange. -/
theorem lastOf_eq_exch_iff {ts : List TaskId} : lastOf e ts = .exch e ↔ ts = [] := by
  constructor
  · intro h
    rcases List.eq_nil_or_concat' ts with rfl | ⟨ts, t, rfl⟩
    · rfl
    · simp [lastOf] at h
  · rintro rfl
    rfl

/-- The link of a queued task is the next one, or null. -/
theorem link_eq (h : Books s g r) {l ts : List TaskId} (hq : g.tq e = l ++ t :: ts) :
    s.link t = firstOf ts := by
  have hf := h.links e
  rw [hq, List.map_append, List.map_cons] at hf
  exact hf.link_eq

/-- A queued task is not linked to itself. -/
theorem link_ne (h : Books s g r) (ht : t ∈ g.tq e) : s.link t ≠ .task t := by
  obtain ⟨l, ts, hq⟩ := List.append_of_mem ht
  have hd := h.tq_nodup e
  rw [hq] at hd
  have hn := (List.nodup_cons.mp (List.nodup_append.mp hd).2.1).1
  rw [h.link_eq hq]
  cases ts with
  | nil => simp [firstOf]
  | cons u ts =>
    intro he
    exact hn (by simp [Addr.task.inj he])

/-- The message pointers of an exchange with an empty queue of messages. -/
theorem messageHead_null_iff (h : Books s g r) : s.messageHead e = .null ↔ g.mq e = [] :=
  (h.messages e).head_null_iff.trans List.map_eq_nil_iff

/-- The tail pointer of an exchange with an empty queue of messages. -/
theorem messageTail_iff (h : Books s g r) : s.messageTail e = .exch e ↔ g.mq e = [] :=
  (h.messages e).tail_root_iff.trans List.map_eq_nil_iff

/-- The head of the queue of messages. -/
theorem messageHead (h : Books s g r) {ms : List MsgId} (hq : g.mq e = m :: ms) :
    s.messageHead e = .msg m := by
  have hf : s.messageHead e = ((g.mq e).map Addr.msg).headD .null := (h.messages e).head_eq
  rw [hf, hq]
  rfl

/-- A queued message is owned by nobody. -/
theorem not_accepts (h : Books s g r) (hm : m ∈ g.mq e) : ¬ accepts s t m := by
  obtain ⟨l, ms, hq⟩ := List.append_of_mem hm
  have hf : Fifo s.word0 .null (.exch e) (s.messageTail e) ((g.mq e).map .msg) := h.messages e
  rw [hq, List.map_append, List.map_cons] at hf
  have hl : s.msgLink m = (ms.map Addr.msg).headD .null := hf.link_eq
  have hd := h.pile_nodup e
  rw [Ledger.pile, hq, List.append_assoc] at hd
  have hn := (List.nodup_cons.mp (List.nodup_append.mp hd).2.1).1
  unfold accepts
  rw [hl]
  cases ms with
  | nil => simp
  | cons m' ms =>
    simp only [List.map_cons, List.headD_cons, reduceCtorEq, false_or, Addr.msg.injEq]
    rintro rfl
    exact hn (by simp)

/-- The time-out message is owned by nobody. -/
theorem not_accepts_timeOut (h : Books s g r) : ¬ accepts s t .timeOut := by
  unfold accepts
  rw [h.timeOut_link]
  simp

/-! ### Entries -/

/-- The ledger only looks at some fields. -/
theorem congr (h : Books s g r) (h0 : s'.word0 = s.word0) (h1 : s'.word1 = s.word1)
    (h2 : s'.word2 = s.word2) (hd : s'.delay = s.delay) (hs : s'.sema = s.sema)
    (hm : ∀ e, g.hold e ≠ none → s.mutex e = true → s'.mutex e = true)
    (ht : ∀ e, g.hold e = none → s'.taskTail e = s.taskTail e) : Books s' g r where
  links e := h2 ▸ h.links e
  messages e := (h.messages e).frame (by rw [h0]) (fun _ _ ↦ by simp [h0]) (by simp [h1])
  pile_nodup := h.pile_nodup
  pile_disjoint := h.pile_disjoint
  timeOut := h.timeOut
  timeOut_link := by simpa [h0] using h.timeOut_link
  one_empty := h.one_empty
  mem_iff := h.mem_iff
  delays := by
    rw [h0, h1, hd]
    exact h.delays
  dl_nodup := h.dl_nodup
  dl_bound := h.dl_bound
  timed := h.timed
  sema t := by rw [hs, h.sema]
  mutex ha := hm _ (by simp [ha]) (h.mutex ha)
  free ha := ⟨(ht _ ha).trans (h.free ha).1, (h.free ha).2⟩
  balance := h.balance

/-- Somebody begins to work on a queue that nobody works on. -/
theorem hold (h : Books s g r) {a : Agent} (ha : ∀ t, a = .thread t → s.mutex e = true) :
    Books s (g.setHold e (some a)) r :=
  { h with
    mutex := by
      intro e' t he
      simp only [Ledger.setHold_hold, Function.update_apply] at he
      split at he
      case isTrue hx => exact hx ▸ ha t (Option.some.inj he)
      case isFalse => exact h.mutex he
    free := by
      intro e' he
      simp only [Ledger.setHold_hold, Function.update_apply] at he
      split at he
      case isTrue => cases he
      case isFalse => exact h.free he }

/-- A complete queue is left. -/
theorem release (h : Books s g r) (ht : s.taskTail e = lastOf e (g.tq e)) (hc : g.carried e = []) :
    Books s (g.setHold e none) r :=
  { h with
    mutex := by
      intro e' t he
      simp only [Ledger.setHold_hold, Function.update_apply] at he
      split at he
      case isTrue => cases he
      case isFalse => exact h.mutex he
    free := by
      intro e' he
      simp only [Ledger.setHold_hold, Function.update_apply] at he
      split at he
      case isTrue hx =>
        subst hx
        exact ⟨ht, hc⟩
      case isFalse => exact h.free he }

/-- A thread locks the mutex of an exchange. -/
theorem lock (h : Books s g r) (t : TaskId) :
    Books { s with mutex := Function.update s.mutex e true }
      (g.setHold e (some (.thread t))) r := by
  have hb : Books { s with mutex := Function.update s.mutex e true } g r :=
    h.congr rfl rfl rfl rfl rfl (fun e' _ he ↦ by
      simp only [Function.update_apply]
      split <;> simp [he]) fun _ _ ↦ rfl
  exact hb.hold fun _ _ ↦ by simp

/-- A thread unlocks the mutex of an exchange. -/
theorem unlock (h : Books s g r) (ht : s.taskTail e = lastOf e (g.tq e)) (hc : g.carried e = []) :
    Books { s with mutex := Function.update s.mutex e false } (g.setHold e none) r :=
  (h.release ht hc).congr rfl rfl rfl rfl rfl (fun e' hn he ↦ by
    have hne : e' ≠ e := fun hx ↦ hn (by simp [hx])
    simpa [hne] using he) fun _ _ ↦ rfl

/-- The waits are no part of the ledger. -/
theorem log (h : Books s g r) (ha : r'.accepted = r.accepted) (hh : r'.handed = r.handed) :
    Books s g r' :=
  { h with
    balance := fun e ↦ by
      rw [ha, hh]
      exact h.balance e }

/-- A sender accepts a message that nobody has. -/
theorem accept (h : Books s g r) (hn : g.hold e ≠ none) (hc : g.carried e = [])
    (hm : ∀ e', m ∉ g.pile e') (ht : m ≠ .timeOut) :
    Books s (g.setCarried e [m]) (r.accept e m) := by
  have hp : ∀ e', (g.setCarried e [m]).pile e' = g.pile e' ++ if e' = e then [m] else [] := by
    intro e'
    by_cases he : e' = e
    · subst he
      simp [Ledger.pile, hc]
    · simp [Ledger.pile, he]
  have hmem : ∀ {e' m'}, m' ∈ (g.setCarried e [m]).pile e' ↔
      m' ∈ g.pile e' ∨ e' = e ∧ m' = m := by
    intro e' m'
    rw [hp, List.mem_append]
    by_cases he : e' = e <;> simp [he]
  exact
    { h with
      pile_nodup := fun e' ↦ by
        rw [hp]
        refine List.nodup_append.mpr ⟨h.pile_nodup e', by split <;> simp, ?_⟩
        rintro a ha b hb rfl
        split at hb
        · rw [List.mem_singleton.mp hb] at ha
          exact hm e' ha
        · cases hb
      pile_disjoint := by
        intro e₁ e₂ m' h₁ h₂
        rcases hmem.mp h₁ with ho | ⟨he, hx⟩ <;> rcases hmem.mp h₂ with ho' | ⟨he', hx'⟩
        · exact h.pile_disjoint ho ho'
        · exact absurd (hx' ▸ ho) (hm e₁)
        · exact absurd (hx ▸ ho') (hm e₂)
        · rw [he, he']
      timeOut := fun e' he' ↦ by
        rcases hmem.mp he' with he' | ⟨-, he'⟩
        · exact h.timeOut e' he'
        · exact ht he'.symm
      free := by
        intro e' he'
        have he : e' ≠ e := fun he ↦ hn (he ▸ he')
        simpa [he] using h.free he'
      balance := fun e' ↦ by
        rw [hp]
        by_cases he : e' = e
        · subst he
          simp [h.balance e']
        · simp [he, h.balance e'] }

private theorem pile_store (hc : g.carried e = [m]) (e' : ExchId) :
    ((g.setMessages e (g.mq e ++ [m])).setCarried e []).pile e' = g.pile e' := by
  by_cases he : e' = e
  · subst he
    simp [Ledger.pile, hc]
  · simp [Ledger.pile, he]

/-- `ycore.c:1066–1069` stores the message that is on its way. -/
theorem append (h : Books s g r) (hn : g.hold e ≠ none) (hc : g.carried e = [m])
    (htq : g.tq e = []) :
    ∃ s', appendMessage s e m = .ok s' ∧ s'.toControl = s.toControl ∧ s'.word2 = s.word2 ∧
      s'.taskTail = s.taskTail ∧ s'.tailTask = s.tailTask ∧
      (∀ m', m' ∉ g.pile e → s'.msgLink m' = s.msgLink m') ∧
      Books s' ((g.setMessages e (g.mq e ++ [m])).setCarried e []) r := by
  have hq := h.messages e
  have hmp : m ∈ g.pile e := by simp [Ledger.pile, hc]
  have hm : m ∉ g.mq e := fun hm ↦ by
    have hd := h.pile_nodup e
    rw [Ledger.pile, hc] at hd
    exact (List.nodup_append.mp hd).2.2 m hm m (by simp) rfl
  have htail : s.messageTail e = .exch e ∨ ∃ m' ∈ g.mq e, s.messageTail e = .msg m' := by
    rcases List.mem_cons.mp hq.tail_mem with he | hm
    · exact .inl he
    · obtain ⟨m', hm', he⟩ := List.mem_map.mp hm
      exact .inr ⟨m', hm', he.symm⟩
  have hnull : s.messageTail e ≠ .null := hq.tail_ne_null
  generalize hp : s.messageTail e = p at *
  have hpm : p ≠ .msg m := by
    rcases htail with he | ⟨m', hm', he⟩
    · simp [he]
    · rintro rfl
      cases he
      exact hm hm'
  have hother : ∀ m', m' ∉ g.pile e → Addr.msg m' ≠ p ∧ m' ≠ m := by
    refine fun m' hm' ↦ ⟨?_, fun he ↦ hm' (he ▸ hmp)⟩
    rcases htail with he | ⟨m'', hm'', he⟩
    · simp [he]
    · rintro rfl
      cases he
      exact hm' (List.mem_append_left _ hm'')
  refine ⟨{ s with
      word0 := Function.update (Function.update s.word0 p (.msg m)) (.msg m) .null
      word1 := Function.update s.word1 (.exch e) (.msg m) }, ?_, rfl, rfl, rfl, rfl, ?_, ?_⟩
  · simp only [appendMessage, hp, deref, if_neg hnull, Exec.ok_bind]
  · intro m' hm'
    obtain ⟨h1, h2⟩ := hother m' hm'
    simp [h1, h2]
  have hpt : ∀ a, a = .delayHead ∨ (∃ t, a = .task t) → a ≠ p ∧ a ≠ .msg m := by
    rintro a (rfl | ⟨t, rfl⟩) <;> rcases htail with he | ⟨m', -, he⟩ <;> simp [he]
  exact
    { h with
      messages := fun e' ↦ by
        by_cases he : e' = e
        · subst he
          have ha := hq.append (n := .msg m) (by simpa using hm) (by simp)
          rw [hp, Function.update_comm hpm.symm] at ha
          simpa [MessageQueue] using ha
        · have hpe : Addr.exch e' ≠ p := by
            rcases htail with hx | ⟨m', -, hx⟩ <;> simp [hx, he]
          have hq' : MessageQueue s e' (g.mq e') := h.messages e'
          simp only [Ledger.setCarried_mq, Ledger.setMessages_mq, Function.update_of_ne he]
          refine hq'.frame (by simp [hpe]) (fun m' hm' ↦ ?_) (by simp [he])
          obtain ⟨h1, h2⟩ := hother m' fun hm'' ↦
            he (h.pile_disjoint (List.mem_append_left _ hm') hm'')
          simp [h1, h2]
      pile_nodup := fun e' ↦ by
        rw [pile_store hc]
        exact h.pile_nodup e'
      pile_disjoint := fun h₁ h₂ ↦ by
        rw [pile_store hc] at h₁ h₂
        exact h.pile_disjoint h₁ h₂
      timeOut := fun e' ↦ by
        rw [pile_store hc]
        exact h.timeOut e'
      timeOut_link := by
        obtain ⟨h1, h2⟩ := hother _ (h.timeOut e)
        simpa [h1, h2] using h.timeOut_link
      one_empty := fun e' ↦ by
        by_cases he : e' = e
        · exact .inr (he ▸ htq)
        · simpa [he] using h.one_empty e'
      delays := h.delays.frame (by simp [hpt .delayHead (.inl rfl)])
        (fun t ↦ by simp [hpt (.task t) (.inr ⟨t, rfl⟩)]) (by simp) (fun _ ↦ by simp)
      free := by
        intro e' he'
        have he : e' ≠ e := fun he ↦ hn (he ▸ he')
        simpa [he] using h.free he'
      balance := fun e' ↦ by
        rw [pile_store hc]
        exact h.balance e' }

/-- A message that is in no queue gets another owner. -/
theorem setOwner (h : Books s g r) (hm : ∀ e, m ∉ g.mq e) (ht : m ≠ .timeOut) (a : Addr) :
    Books { s with word0 := Function.update s.word0 (.msg m) a } g r :=
  { h with
    messages := fun e ↦ (h.messages e).frame (by simp)
      (fun m' hm' ↦ by
        have hne : m' ≠ m := fun he ↦ hm e (he ▸ hm')
        simp [hne]) rfl
    timeOut_link := by simpa [Ne.symm ht] using h.timeOut_link
    delays := h.delays.frame (by simp) (by simp) rfl fun _ ↦ rfl }

private theorem shrink (h : Books s g r) (g' : Ledger) {p : MsgId × TaskId}
    (hp : ∀ e', g'.pile e' = if e' = e then (g.pile e).tail else g.pile e')
    (hhead : (g.pile e).head? = some p.1) :
    (∀ e', (g'.pile e').Nodup) ∧
    (∀ {e₁ e₂ m'}, m' ∈ g'.pile e₁ → m' ∈ g'.pile e₂ → e₁ = e₂) ∧
    (∀ e', .timeOut ∉ g'.pile e') ∧
    ∀ e', (r.hand e p).accepted e' =
      ((r.hand e p).handed e').map Prod.fst ++ g'.pile e' := by
  have hsub : ∀ {e' m'}, m' ∈ g'.pile e' → m' ∈ g.pile e' := by
    intro e' m' hm'
    rw [hp] at hm'
    split at hm'
    · next he => exact he ▸ List.mem_of_mem_tail hm'
    · exact hm'
  refine ⟨fun e' ↦ ?_, fun h₁ h₂ ↦ h.pile_disjoint (hsub h₁) (hsub h₂),
    fun e' he' ↦ h.timeOut e' (hsub he'), fun e' ↦ ?_⟩
  · rw [hp]
    split
    · exact (h.pile_nodup e).tail
    · exact h.pile_nodup e'
  · rw [hp]
    by_cases he : e' = e
    · subst he
      have hcons : g.pile e' = p.1 :: (g.pile e').tail :=
        (List.cons_head?_tail (Option.mem_def.mpr hhead)).symm
      rw [if_pos rfl, Log.hand_accepted, Log.hand_handed, Function.update_self, h.balance e',
        List.map_append, List.append_assoc]
      exact congrArg (_ ++ ·) hcons
    · simp [he, h.balance e']

/-- A message that is on its way goes to a waiting task. -/
theorem give (h : Books s g r) (hn : g.hold e ≠ none) (hc : g.carried e = [m])
    (hq : g.mq e = []) : Books s (g.setCarried e []) (r.hand e (m, t)) := by
  obtain ⟨h1, h2, h3, h4⟩ := h.shrink (g.setCarried e []) (e := e) (p := (m, t))
    (fun e' ↦ by
      by_cases he : e' = e
      · subst he
        simp [Ledger.pile, hc, hq]
      · simp [Ledger.pile, he]) (by simp [Ledger.pile, hc, hq])
  exact
    { h with
      pile_nodup := h1
      pile_disjoint := h2
      timeOut := h3
      free := by
        intro e' he'
        have he : e' ≠ e := fun he ↦ hn (he ▸ he')
        simpa [he] using h.free he'
      balance := h4 }

/-- `reqdqmsg` hands the first message over. -/
theorem fetch (h : Books s g r) {ms : List MsgId} (hq : g.mq e = m :: ms)
    (hc : g.carried e = []) (htail : s.taskTail e = lastOf e (g.tq e)) (t : TaskId) :
    ∃ s', reqdqmsg s e t = .ok s' ∧ s'.toControl = s.setMessage t (.msg m) ∧
      s'.word2 = s.word2 ∧ s'.taskTail = s.taskTail ∧
      (∀ m', m' ∉ g.pile e → s'.msgLink m' = s.msgLink m') ∧
      Books s' (g.setMessages e ms) (r.hand e (m, t)) := by
  have htq : g.tq e = [] := (h.one_empty e).resolve_left (by simp [hq])
  have hmq := h.messages e
  rw [hq] at hmq
  obtain ⟨s', hs', hctl, h0, h1, h2, h3, h4⟩ := reqdqmsg_ok t (h.messageHead hq)
    (h.taskHead_null_iff.mpr htq) (htail.trans (lastOf_eq_exch_iff.mpr htq))
  have hpile : g.pile e = m :: ms := by simp [Ledger.pile, hq, hc]
  obtain ⟨i1, i2, i3, i4⟩ := h.shrink (g.setMessages e ms) (e := e) (p := (m, t))
    (fun e' ↦ by
      by_cases he : e' = e
      · subst he
        simp [Ledger.pile, hq, hc]
      · simp [Ledger.pile, he]) (by simp [hpile])
  refine ⟨s', hs', hctl, h2, h3, fun m' hm' ↦ ?_, ?_⟩
  · have hne : m' ≠ m := fun he ↦ hm' (by simp [hpile, he])
    simp [h0, hne]
  exact
    { h with
      links := fun e' ↦ h2 ▸ h.links e'
      messages := fun e' ↦ by
        by_cases he : e' = e
        · subst he
          simpa using hmq.dequeue h0 h1
        · have hq' : MessageQueue s e' (g.mq e') := h.messages e'
          simp only [Ledger.setMessages_mq, Function.update_of_ne he]
          refine hq'.frame (by simp [h0, he]) (fun m' hm' ↦ ?_) ?_
          · have hne : m' ≠ m := by
              rintro rfl
              exact he (h.pile_disjoint (List.mem_append_left _ hm') (by simp [hpile]))
            simp [h0, hne]
          · simp only [Nucleus.messageTail, h1]
            split <;> simp [he]
      pile_nodup := i1
      pile_disjoint := i2
      timeOut := i3
      timeOut_link := by
        have hne : MsgId.timeOut ≠ m := by
          rintro rfl
          exact h.timeOut e (by simp [hpile])
        simpa [h0, hne] using h.timeOut_link
      one_empty := fun e' ↦ by
        by_cases he : e' = e
        · exact .inr (he ▸ htq)
        · simpa [he] using h.one_empty e'
      delays := by
        rw [h4]
        refine h.delays.frame (by simp [h0]) (fun _ ↦ by simp [h0]) ?_ fun _ ↦ ?_ <;> rw [h1] <;>
          split <;> simp
      sema := fun u ↦ (congrFun (congrArg Control.sema hctl) u).trans (h.sema u)
      mutex := fun ha ↦ (congrFun (congrArg Control.mutex hctl) _).trans (h.mutex ha)
      free := by
        intro e' he'
        rw [h3]
        exact h.free he'
      balance := i4 }

/-! ### Tasks -/

/-- A word of one queue is no word of another one. -/
theorem queue_disjoint (h : Books s g r) {a : Addr} (ha : a ∈ .exch e :: (g.tq e).map .task)
    (ha' : a ∈ .exch e' :: (g.tq e').map .task) : e = e' := by
  rcases List.mem_cons.mp ha with rfl | ha <;> rcases List.mem_cons.mp ha' with he | ha'
  · exact Addr.exch.inj he
  · simp at ha'
  · simp [he] at ha
  · obtain ⟨u, hu, rfl⟩ := List.mem_map.mp ha
    obtain ⟨v, hv, he⟩ := List.mem_map.mp ha'
    obtain rfl := Addr.task.inj he
    exact Stage.queued.inj ((h.mem_iff.mp hu).symm.trans (h.mem_iff.mp hv))

private theorem links_of_ne (h : Books s g r) {p a : Addr}
    (hp : p ∉ .exch e :: (g.tq e).map .task) :
    Fifo (Function.update s.word2 p a) .null (.exch e) (lastOf e (g.tq e))
      ((g.tq e).map .task) :=
  (h.links e).congr (Function.update_of_ne (fun he ↦ hp (by simp [he])) _ _)
    fun b hb ↦ Function.update_of_ne (fun he ↦ hp (by simp [← he, hb])) _ _

/-- The link of a task that does not wait is cleared. -/
theorem clear (h : Books s g r) (ht : ∀ e, g.serve t ≠ .queued e) :
    Books { s with word2 := Function.update s.word2 (.task t) .null } g r :=
  { h with
    links := fun e ↦ h.links_of_ne (by simpa using fun hm ↦ ht e (h.mem_iff.mp hm)) }

/-- A task leaves the queue of its exchange. -/
theorem unlink (h : Books s g r) {l ts : List TaskId} (hn : g.hold e ≠ none)
    (hq : g.tq e = l ++ t :: ts) (a : Agent) :
    Books { s with word2 := Function.update s.word2 (lastOf e l) (firstOf ts) }
      ((g.setTasks e (l ++ ts)).setServe t (.taken a)) r := by
  have ht : g.serve t = .queued e := h.mem_iff.mp (by simp [hq])
  have hd := h.tq_nodup e
  rw [hq] at hd
  have hlast : lastOf e l ∈ .exch e :: (g.tq e).map .task := by
    have hm : lastOf e l ∈ Addr.exch e :: l.map .task := List.getLastD_mem_cons
    refine List.cons_subset_cons _ ?_ hm
    simp [hq]
  exact
    { h with
      links := fun e' ↦ by
        by_cases he : e' = e
        · subst he
          have hf := h.links e'
          rw [hq, List.map_append, List.map_cons] at hf
          have hr := hf.remove
          have hl : s.word2 (.task t) = firstOf ts := h.link_eq hq
          rw [hl, hr.tail_eq] at hr
          simpa [lastOf] using hr
        · simp only [Ledger.setServe_tq, Ledger.setTasks_tq, Function.update_of_ne he]
          exact h.links_of_ne fun hm ↦ he (h.queue_disjoint hm hlast)
      one_empty := fun e' ↦ by
        by_cases he : e' = e
        · subst he
          exact .inl ((h.one_empty e').resolve_right (by simp [hq]))
        · simpa [he] using h.one_empty e'
      mem_iff := by
        intro u e'
        have hu : u ∈ g.tq e' ↔ _ := h.mem_iff
        by_cases hut : u = t
        · subst hut
          have hnot : u ∉ l ++ ts := (List.nodup_cons.mp (List.nodup_middle.mp hd)).1
          by_cases he : e' = e
          · simpa [he] using hnot
          · simp [he, hu, ht, Ne.symm he]
        · by_cases he : e' = e
          · subst he
            rw [hq] at hu
            simpa [hut] using hu
          · simpa [he, hut] using hu
      timed := by
        intro u hu
        by_cases hut : u = t
        · simp [hut]
        · simpa [hut] using h.timed hu
      sema := fun u ↦ by
        have hu := h.sema u
        by_cases hut : u = t
        · subst hut
          simpa [ht] using hu
        · simpa [hut] using hu
      free := by
        intro e' he'
        have he : e' ≠ e := fun he ↦ hn (he ▸ he')
        simpa [he] using h.free he' }

/-- A task is linked behind the last one of the queue. -/
theorem enqueue (h : Books s g r) (hn : g.hold e ≠ none) (hq : g.mq e = [])
    (ht : g.serve t = .idle) (hl : s.link t = .null) :
    Books { s with word2 := Function.update s.word2 (lastOf e (g.tq e)) (.task t) }
      ((g.setTasks e (g.tq e ++ [t])).setServe t (.queued e)) r := by
  have hout : ∀ e', t ∉ g.tq e' := fun e' hm ↦ by simpa [ht] using h.mem_iff.mp hm
  have hlast : lastOf e (g.tq e) ∈ .exch e :: (g.tq e).map .task := List.getLastD_mem_cons
  exact
    { h with
      links := fun e' ↦ by
        by_cases he : e' = e
        · subst he
          have hf := (h.links e').append_cleared (n := .task t)
            (by simpa using hout e') (by simp) hl
          rw [hf.tail_eq] at hf
          simpa [lastOf] using hf
        · simp only [Ledger.setServe_tq, Ledger.setTasks_tq, Function.update_of_ne he]
          exact h.links_of_ne fun hm ↦ he (h.queue_disjoint hm hlast)
      one_empty := fun e' ↦ by
        by_cases he : e' = e
        · exact .inl (he ▸ hq)
        · simpa [he] using h.one_empty e'
      mem_iff := by
        intro u e'
        have hu : u ∈ g.tq e' ↔ _ := h.mem_iff
        by_cases hut : u = t
        · subst hut
          by_cases he : e' = e
          · simp [he]
          · simp [he, hout, Ne.symm he]
        · by_cases he : e' = e
          · subst he
            simpa [hut] using hu
          · simpa [he, hut] using hu
      timed := by
        intro u hu
        by_cases hut : u = t
        · simp [hut]
        · simpa [hut] using h.timed hu
      sema := fun u ↦ by
        have hu := h.sema u
        by_cases hut : u = t
        · subst hut
          simpa [ht] using hu
        · simpa [hut] using hu
      free := by
        intro e' he'
        have he : e' ≠ e := fun he ↦ hn (he ▸ he')
        simpa [he] using h.free he' }

/-- The semaphore of a task is posted. -/
theorem post (h : Books s g r) {a : Agent} (ht : g.serve t = .taken a) (hd : ¬ g.Timed t) :
    Books (s.ctl (·.semPost t)) (g.setServe t .posted) r :=
  { h with
    mem_iff := by
      intro u e'
      have hu : u ∈ g.tq e' ↔ _ := h.mem_iff
      by_cases hut : u = t
      · subst hut
        simpa [ht] using hu
      · simpa [hut] using hu
    timed := by
      intro u hu
      by_cases hut : u = t
      · exact absurd (hut ▸ hu) hd
      · simpa [hut] using h.timed hu
    sema := fun u ↦ by
      have hu := h.sema u
      by_cases hut : u = t
      · subst hut
        simpa [ht] using hu
      · simpa [hut] using hu }

/-- `sem_wait` returns to a task. -/
theorem take (h : Books s g r) (ht : g.serve t = .posted) :
    Books (s.ctl (·.semTake t)) (g.setServe t .idle) r :=
  { h with
    mem_iff := by
      intro u e'
      have hu : u ∈ g.tq e' ↔ _ := h.mem_iff
      by_cases hut : u = t
      · subst hut
        simpa [ht] using hu
      · simpa [hut] using hu
    timed := by
      intro u hu
      by_cases hut : u = t
      · exact absurd (hut ▸ ht) (h.timed hu).2
      · simpa [hut] using h.timed hu
    sema := fun u ↦ by
      have hu := h.sema u
      by_cases hut : u = t
      · subst hut
        simp [hu, ht]
      · simpa [hut] using hu }

/-! ### Delays -/

/-- What a change of the delay list leaves alone. -/
structure SameQueues (s s' : Nucleus) : Prop where
  word2 : s'.word2 = s.word2
  taskTail : s'.taskTail = s.taskTail
  tailTask : s'.tailTask = s.tailTask
  word0 : ∀ a, (∀ t, a ≠ .task t) → a ≠ .delayHead → s'.word0 a = s.word0 a
  word1 : ∀ e, s'.word1 (.exch e) = s.word1 (.exch e)
  sema : s'.sema = s.sema
  mutex : s'.mutex = s.mutex

/-- A change of the delay list leaves the queues as they are. -/
theorem withDelays (h : Books s g r) {dl : List (TaskId × Nat)} (hs : SameQueues s s')
    (hd : DelayList s'.word0 s'.word1 s'.delay dl) (hn : (dl.map Prod.fst).Nodup)
    (hb : ∀ p ∈ dl, p.2 ≤ 0xFFFF)
    (ht : ∀ t, t ∈ dl.map Prod.fst → g.serve t ≠ .idle ∧ g.serve t ≠ .posted) :
    Books s' (g.setDelays dl) r where
  links e := hs.word2 ▸ h.links e
  messages e := (h.messages e).frame (hs.word0 _ (by simp) (by simp))
    (fun m _ ↦ hs.word0 _ (by simp) (by simp)) (hs.word1 e)
  pile_nodup := h.pile_nodup
  pile_disjoint := h.pile_disjoint
  timeOut := h.timeOut
  timeOut_link := (hs.word0 _ (by simp) (by simp)).trans h.timeOut_link
  one_empty := h.one_empty
  mem_iff := h.mem_iff
  delays := hd
  dl_nodup := hn
  dl_bound := hb
  timed := ht _
  sema t := by
    rw [hs.sema]
    exact h.sema t
  mutex ha := by
    rw [hs.mutex]
    exact h.mutex ha
  free ha := by
    rw [hs.taskTail]
    exact h.free ha
  balance := h.balance

/-- Being timed after a task was taken off the delay list. -/
theorem timed_filter : t ∈ (g.dl.filter (·.1 ≠ u)).map Prod.fst ↔ t ≠ u ∧ g.Timed t := by
  simp only [Ledger.Timed, List.mem_map, List.mem_filter, ne_eq, decide_not, Bool.not_eq_true',
    decide_eq_false_iff_not]
  constructor
  · rintro ⟨p, ⟨hp, hne⟩, rfl⟩
    exact ⟨hne, p, hp, rfl⟩
  · rintro ⟨hne, p, hp, rfl⟩
    exact ⟨p, ⟨hp, hne⟩, rfl⟩

/-- A task is taken off the delay list. -/
theorem undelay (h : Books s g r) (ht : g.Timed t) :
    ∃ s', cancelDelayUnsafe s t = .ok s' ∧
      s'.toControl = s.setStatus t (s.status t &&& ~~~delayed) ∧ SameQueues s s' ∧
      Books s' (g.setDelays (g.dl.filter (·.1 ≠ t))) r := by
  obtain ⟨hnt, hp, hn, hrem⟩ := h.delays.cancel h.dl_nodup h.dl_bound ht
  have hn0 : s.word0 (.task t) ≠ .null := by
    rcases hn with hn | ⟨x, hn⟩ <;> simp [hn]
  have hp0 : s.word1 (.task t) ≠ .null := by
    rcases hp with hp | ⟨x, hp⟩ <;> simp [hp]
  have hrun : ∃ s', cancelDelayUnsafe s t = .ok s' ∧
      s'.toControl = s.setStatus t (s.status t &&& ~~~delayed) ∧
      s'.word0 = Function.update s.word0 (s.word1 (.task t)) (s.word0 (.task t)) ∧
      s'.word1 = Function.update s.word1 (s.word0 (.task t)) (s.word1 (.task t)) ∧
      s'.delay = Function.update (Function.update s.delay (s.word0 (.task t))
        (s.delay (s.word0 (.task t)) + s.delay (.task t))) .delayTail 0xFFFF ∧
      s'.word2 = s.word2 ∧ s'.taskTail = s.taskTail ∧ s'.tailTask = s.tailTask := by
    simp only [cancelDelayUnsafe, Nucleus.next, Nucleus.prev, deref, if_neg hn0,
      Function.update_of_ne hnt.symm, if_neg hp0, Exec.ok_bind]
    exact ⟨_, rfl, rfl, rfl, rfl, rfl, rfl, rfl, rfl⟩
  obtain ⟨s', hs', hc, h0, h1, h4, h2, h3, h5⟩ := hrun
  have hsame : SameQueues s s' := by
    refine ⟨h2, h3, h5, fun a ha hah ↦ ?_, fun e ↦ ?_, (congrArg Control.sema hc).trans rfl,
      (congrArg Control.mutex hc).trans rfl⟩
    · rw [h0]
      refine Function.update_of_ne ?_ _ _
      rcases hp with hp | ⟨x, hp⟩ <;> rw [hp]
      · exact hah
      · exact ha x
    · rw [h1]
      refine Function.update_of_ne ?_ _ _
      rcases hn with hn | ⟨x, hn⟩ <;> simp [hn]
  rw [← h0, ← h1, ← h4] at hrem
  refine ⟨s', hs', hc, hsame, h.withDelays hsame hrem ?_ ?_ ?_⟩
  · exact h.dl_nodup.sublist (List.filter_sublist.map _)
  · exact fun p hp ↦ h.dl_bound p (List.mem_of_mem_filter hp)
  · exact fun u hu ↦ h.timed (timed_filter.mp hu).2

/-- The delay list after a wait with a limit began, or one without. -/
def delaysWith (dl : List (TaskId × Nat)) (t : TaskId) (d : BitVec 16) : List (TaskId × Nat) :=
  if d ≠ 0 then dl.orderedInsert due (t, d.toNat) else dl

/-- Being timed after a wait began. -/
theorem timed_delaysWith {d : BitVec 16} :
    t ∈ (delaysWith g.dl u d).map Prod.fst ↔ (t = u ∧ d ≠ 0) ∨ g.Timed t := by
  unfold delaysWith
  split
  case isTrue hd =>
    have hp : (g.dl.orderedInsert due (u, d.toNat)).Perm ((u, d.toNat) :: g.dl) :=
      List.perm_orderedInsert ..
    rw [(hp.map Prod.fst).mem_iff, List.map_cons, List.mem_cons, and_iff_left hd]
  case isFalse hd => rw [or_iff_right fun hx ↦ hd hx.2]

/-- A task begins to be timed, or to wait without limit. -/
theorem startDelay (h : Books s g r) (ht : ¬ g.Timed t) (hs : g.serve t = .queued e)
    (d : BitVec 16) :
    ∃ s', Yields (fun n ↦ YRmx.startDelay n s t d) s' ∧
      s'.toControl = s.setStatus t (if d ≠ 0 then delayed else waiting) ∧ SameQueues s s' ∧
      Books s' (g.setDelays (delaysWith g.dl t d)) r := by
  by_cases hd : d = 0
  · subst hd
    refine ⟨s.ctl (·.setStatus t waiting), .const _, rfl,
      ⟨rfl, rfl, rfl, fun _ _ _ ↦ rfl, fun _ ↦ rfl, rfl, rfl⟩, ?_⟩
    exact h.congr rfl rfl rfl rfl rfl (fun _ _ ha ↦ ha) fun _ _ ↦ rfl
  · obtain ⟨s', hs', hi⟩ := DelayList.insertDelay (s := s.ctl (·.setStatus t delayed)) h.delays
      h.dl_nodup ht hd
    have hy : Yields (fun n ↦ YRmx.startDelay n s t d) s' :=
      hs'.congr fun n ↦ by simp only [YRmx.startDelay, if_pos hd]
    have hsame : SameQueues s s' := by
      obtain ⟨N, hN⟩ := hy
      refine ⟨hi.word2, hi.taskTail, (startDelay_words (hN N le_rfl)).2.2, hi.word0, hi.word1,
        (congrArg Control.sema hi.control).trans rfl,
        (congrArg Control.mutex hi.control).trans rfl⟩
    refine ⟨s', hy, by rw [if_pos hd]; exact hi.control, hsame, ?_⟩
    have hl : delaysWith g.dl t d = g.dl.orderedInsert due (t, d.toNat) := if_pos hd
    have hp : (delaysWith g.dl t d).Perm ((t, d.toNat) :: g.dl) :=
      hl ▸ List.perm_orderedInsert ..
    apply h.withDelays hsame (hl ▸ hi.delays)
    · exact (hp.map Prod.fst).nodup_iff.mpr (List.nodup_cons.mpr ⟨ht, h.dl_nodup⟩)
    · intro p hp'
      rcases List.mem_cons.mp (hp.mem_iff.mp hp') with rfl | hp'
      · exact Nat.le_of_lt_succ d.isLt
      · exact h.dl_bound p hp'
    · intro u hu
      rcases timed_delaysWith.mp hu with ⟨rfl, -⟩ | hu
      · simp [hs]
      · exact h.timed hu

/-- The timer counts the delay list down. -/
theorem countDown (h : Books s g r) :
    ∃ s' b dl, YRmx.countDown s = .ok (s', b) ∧ s'.toControl = s.toControl ∧ SameQueues s s' ∧
      dl.map Prod.fst = g.dl.map Prod.fst ∧ Books s' (g.setDelays dl) r := by
  have hnext := h.delays.next_head
  have hrefl : SameQueues s s := ⟨rfl, rfl, rfl, fun _ _ _ ↦ rfl, fun _ ↦ rfl, rfl, rfl⟩
  cases hdl : g.dl with
  | nil =>
    rw [hdl] at hnext
    refine ⟨s, false, g.dl, ?_, rfl, hrefl, by rw [hdl], h⟩
    simp [YRmx.countDown, hnext, DelayList.front, deref, h.delays.tail]
  | cons p dl =>
    obtain ⟨t, k⟩ := p
    have hd := h.delays
    have hn := h.dl_nodup
    have hb := h.dl_bound
    rw [hdl] at hnext hd hn hb
    have hnext : s.word0 .delayHead = .task t := hnext
    simp only [YRmx.countDown, hnext, deref, reduceCtorEq, if_false, Exec.ok_bind]
    by_cases h1 : s.delay (.task t) = 0xFFFF
    · exact ⟨s, false, g.dl, by simp [h1], rfl, hrefl, by rw [hdl], h⟩
    by_cases h2 : s.delay (.task t) = 0
    · exact ⟨s, true, g.dl, by simp [h2], rfl, hrefl, by rw [hdl], h⟩
    have hk : k ≠ 0 := by
      intro hk
      have hz := hd.delay_head
      rw [hk] at hz
      exact h2 (BitVec.eq_of_toNat_eq hz)
    have hfst : (((t, k) :: dl).map fun p ↦ (p.1, p.2 - 1)).map Prod.fst =
        ((t, k) :: dl).map Prod.fst := by
      rw [List.map_map]
      rfl
    have hsame : SameQueues s { s with
        delay := Function.update s.delay (.task t) (s.delay (.task t) - 1) } :=
      ⟨rfl, rfl, rfl, fun _ _ _ ↦ rfl, fun _ ↦ rfl, rfl, rfl⟩
    rw [if_pos h1, if_neg h2]
    refine ⟨_, _, ((t, k) :: dl).map fun p ↦ (p.1, p.2 - 1), rfl, rfl, hsame, hfst,
      h.withDelays hsame (hd.tick hn hk) (by rwa [hfst]) ?_ ?_⟩
    · intro p hp
      obtain ⟨q, hq, rfl⟩ := List.mem_map.mp hp
      exact (Nat.sub_le ..).trans (hb q hq)
    · intro u hu
      rw [hfst, ← hdl] at hu
      exact h.timed hu

end Books

end YRmx.Traffic
