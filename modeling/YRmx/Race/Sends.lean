import YRmx.Race.Turns

/-!
# The lines of `reqsend`

Library `YRmx`. A sender accepts a message that nobody else has and appends it to the queue of
messages, or it takes the first waiting task from the exchange, gives it the message, ends its
delay and posts its semaphore.
-/

namespace YRmx.Traffic

open Intrusive Transition

variable {x : Traffic} {g : Ledger} {r : Log} {t u : TaskId} {e : ExchId} {m : MsgId}

/-- A refused sender is stopped with the mutex locked. -/
theorem sendError_eq (c : Control) (t : TaskId) (e : ExchId) :
    ∃ p z, c.sendError t e = ({ c with
      mutex := Function.update c.mutex e true, rqfrozen := z } : Control).goto t p := by
  obtain ⟨p, z, h, -⟩ :=
    Board.reqfreeze_cases { c with mutex := Function.update c.mutex e true } t (.reqsend e)
  exact ⟨p, z, h⟩

/-- A sender that passes the test of ownership has a message that nobody else has. -/
theorem Inv.accepts_new (h : Inv x g r) (ho : x.Orderly (.line t))
    (hp : x.place t = .send e m .lock) (ha : accepts x.s t m) : ∀ e', m ∉ g.pile e' := by
  intro e' hm
  rcases List.mem_append.mp hm with hm | hm
  · exact h.books.not_accepts hm ha
  · obtain ⟨u, hu, hau⟩ := h.carried hm
    by_cases hs : x.s.msgLink m = .msg m
    · exact ho.2.2 e m hp hs u hu
    · have h1 := ha.resolve_right hs
      rw [hau.resolve_right hs] at h1
      obtain rfl := Addr.task.inj h1
      rw [hp] at hu
      exact hu

/-- `ycore.c:1050–1057`. -/
theorem Inv.send_lock (h : Inv x g r) (ho : x.Orderly (.line t))
    (hp : x.place t = .send e m .lock) :
    x.Proceeds (.line t) fun x' ↦ ∃ g', Inv x' g' (r.after x (.line t)) := by
  have hown := h.thread t
  rw [hp] at hown
  have ht : g.serve t = .idle := hown.1
  by_cases hm : x.s.mutex e = false
  case neg => exact .waits fun n ↦ by simp [hp, placeStep, sendStep, require, hm]
  have h0 := h.unheld hm (ho.1 e (by simp [hp, Place.locks]))
  by_cases ha : accepts x.s t m
  case pos =>
    refine .line { x.s with mutex := Function.update x.s.mutex e true } (.send e m .head)
      (fun n ↦ by simp [hp, placeStep, sendStep, require, hm, ha])
      ⟨(g.setHold e (some (.thread t))).setCarried e [m], ?_⟩
    have hr : r.after x (.line t) = r.accept e m := by
      simp [Log.after, begins, service, accepted, handed, hp, ha]
    obtain ⟨htail, hc⟩ := h.books.free h0
    rw [hr]
    refine h.goes (by simp [hp]) e (by simp [hp, Place.exch]) (by simp [hp, Place.serves])
      ((h.books.lock t).accept (by simp) hc (h.accepts_new ho hp ha) ?_) (by simp [ht])
        (.inr ⟨.inl h0, by simp⟩) (fun e' he ↦ ?_)
      (fun u _ ↦ ⟨rfl, .rfl, rfl, rfl, rfl, rfl, fun _ ↦ rfl⟩) (fun _ ↦ by simp [Place.holds])
      (.inl rfl) ⟨ht, ⟨by simp, by simp, ?_⟩, htail⟩
    · rintro rfl
      exact h.books.not_accepts_timeOut ha
    · exact ⟨by simp [he], rfl, rfl, by simp [he], rfl, fun _ _ ↦ rfl⟩
    · intro m' hm'
      rw [List.mem_singleton.mp hm']
      exact ha
  case neg =>
    obtain ⟨p, z, hc⟩ := sendError_eq x.s.toControl t e
    refine .line (x.s.ctl (·.sendError t e)) .out
      (fun n ↦ by simp [hp, placeStep, sendStep, require, hm, ha]) ⟨g, ?_⟩
    have hr : r.after x (.line t) = r := by
      simp [Log.after, begins, service, accepted, handed, hp, ha]
    rw [hr]
    show Inv (x.go t { x.s with toControl := x.s.toControl.sendError t e } .out) g r
    rw [hc]
    refine h.goes (by simp [hp]) e (by simp [hp, Place.exch]) (by simp [hp, Place.serves])
      (h.books.congr rfl rfl rfl rfl rfl (fun e' _ he' ↦ ?_) fun _ _ ↦ rfl) (by simp [ht])
      (.inr ⟨.inl h0, .inl h0⟩) (fun _ _ ↦ ⟨rfl, rfl, rfl, rfl, rfl, fun _ _ ↦ rfl⟩)
      (fun u _ ↦ ⟨rfl, .rfl, rfl, rfl, rfl, rfl, fun _ ↦ rfl⟩) (by simp [h0]) (.inl rfl) ht
    show Function.update x.s.mutex e true e' = true
    rw [Function.update_apply]
    split <;> simp [he']

/-- The first tests of `reqsend` change nothing. -/
theorem Inv.send_test (h : Inv x g r) {l : SendLine} (l' : SendLine)
    (hp : x.place t = .send e m l) (hl : Locked x g t e [m])
    (hs : ∀ u, ¬ (Place.send e m l).serves u)
    (hrun : sendStep x.free x.s t e m l = .ok (x.s, .send e m l'))
    (hr : r.after x (.line t) = r) (hl' : l' ≠ .lock ∧ ∀ u, l' ≠ .post u)
    (hown : SendOk x g r t e m l') :
    x.Proceeds (.line t) fun x' ↦ ∃ g', Inv x' g' (r.after x (.line t)) := by
  have ht := h.thread t
  rw [hp] at ht
  refine .line x.s (.send e m l') (fun n ↦ by rw [hp]; exact hrun) ⟨g, ?_⟩
  rw [hr]
  refine h.goes (by simp [hp]) e (by simp [hp, Place.exch]) (by rwa [hp]) h.books (by simp [ht.1])
    (.inr ⟨.inr hl.hold, .inr hl.hold⟩) (fun _ _ ↦ ⟨rfl, rfl, rfl, rfl, rfl, fun _ _ ↦ rfl⟩)
    (fun _ _ ↦ ⟨rfl, .rfl, rfl, rfl, rfl, rfl, fun _ ↦ rfl⟩) (fun _ ↦ ⟨rfl, hl'⟩) (.inl rfl)
    ⟨ht.1, hown.frame (fun _ ↦ ⟨rfl, rfl, rfl, rfl, rfl, fun _ _ ↦ rfl⟩) fun u hu ↦ ?_⟩
  have hne : u ≠ t := fun he ↦ by simp [he, ht.1] at hu
  exact ⟨⟨rfl, .rfl, rfl, rfl, rfl, rfl, fun _ ↦ rfl⟩, Function.update_of_ne hne _ _⟩

/-- `ycore.c:1059`. -/
theorem Inv.send_head (h : Inv x g r) (hp : x.place t = .send e m .head) :
    x.Proceeds (.line t) fun x' ↦ ∃ g', Inv x' g' (r.after x (.line t)) := by
  have ht := h.thread t
  rw [hp] at ht
  obtain ⟨-, hl, hc⟩ := ht
  have hr : r.after x (.line t) = r := by simp [Log.after, begins, service, accepted, handed, hp]
  by_cases h0 : x.s.taskHead e = .null
  · exact h.send_test .tail hp hl (by simp [Place.serves]) (by rw [sendStep, if_pos h0]) hr
      (by simp) ⟨hl, hc, h.books.taskHead_null_iff.mp h0⟩
  · exact h.send_test .busy hp hl (by simp [Place.serves]) (by rw [sendStep, if_neg h0]) hr
      (by simp) ⟨hl, hc, mt h.books.taskHead_null_iff.mpr h0⟩

/-- `ycore.c:1060–1065`: the tail pointer of an empty queue is the exchange. -/
theorem Inv.send_tail (h : Inv x g r) (hp : x.place t = .send e m .tail) :
    x.Proceeds (.line t) fun x' ↦ ∃ g', Inv x' g' (r.after x (.line t)) := by
  have ht := h.thread t
  rw [hp] at ht
  obtain ⟨-, hl, hc, hq⟩ := ht
  have htail : x.s.taskTail e = .exch e := hc.trans (Books.lastOf_eq_exch_iff.mpr hq)
  exact h.send_test .append hp hl (by simp [Place.serves])
    (by rw [sendStep, if_neg (not_not_intro htail)])
    (by simp [Log.after, begins, service, accepted, handed, hp]) (by simp) ⟨hl, hc, hq⟩

/-- `ycore.c:1066–1070`. -/
theorem Inv.send_append (h : Inv x g r) (hp : x.place t = .send e m .append) :
    x.Proceeds (.line t) fun x' ↦ ∃ g', Inv x' g' (r.after x (.line t)) := by
  have ht := h.thread t
  rw [hp] at ht
  obtain ⟨ht, hl, hc, hq⟩ := ht
  obtain ⟨s', hs', hctl, h2, htail, htt, hlink, hb⟩ :=
    h.books.append (by simp [hl.hold]) hl.carried hq
  have hr : r.after x (.line t) = r := by simp [Log.after, begins, service, accepted, handed, hp]
  refine .line { s' with mutex := Function.update s'.mutex e false } .out
    (fun n ↦ by simp [hp, placeStep, sendStep, hs'])
    ⟨((g.setMessages e (g.mq e ++ [m])).setCarried e []).setHold e none, ?_⟩
  rw [hr]
  have hc' : s'.taskTail e = lastOf e (g.tq e) := htail ▸ hc
  refine h.goes (by simp [hp]) e (by simp [hp, Place.exch]) (by simp [hp, Place.serves])
    (hb.unlock hc' (by simp)) (by simp [ht]) (.inr ⟨.inr hl.hold, by simp⟩) (fun e' he ↦ ?_)
    (fun u _ ↦ ?_) (by simp) (.inl htt) ht
  · refine ⟨by simp [he], rfl, by simp [he], by simp [he], congrFun htail e', fun m' hm' ↦ ?_⟩
    exact hlink m' fun hm ↦ he (h.books.pile_disjoint (List.mem_append_right _ hm') hm)
  · exact ⟨rfl, .rfl, rfl, congrFun (congrArg Control.status hctl) u,
      congrFun (congrArg Control.message hctl) u, congrFun (congrArg Control.exchange hctl) u,
      fun _ ↦ congrFun h2 (.task u)⟩

/-- `ycore.c:1073–1079`: while a task waits, no message does. -/
theorem Inv.send_busy (h : Inv x g r) (hp : x.place t = .send e m .busy) :
    x.Proceeds (.line t) fun x' ↦ ∃ g', Inv x' g' (r.after x (.line t)) := by
  have ht := h.thread t
  rw [hp] at ht
  obtain ⟨-, hl, hc, hq⟩ := ht
  obtain ⟨u, ts, hts⟩ := List.exists_cons_of_ne_nil hq
  have hm := (h.books.one_empty e).resolve_right hq
  have hne : ¬ (x.s.messageHead e ≠ .null ∨ x.s.messageTail e ≠ .exch e) := by
    rw [not_or, not_not, not_not]
    exact ⟨h.books.messageHead_null_iff.mpr hm, h.books.messageTail_iff.mpr hm⟩
  have hu : x.s.taskHead e = .task u := by
    rw [h.books.taskHead, hts]
    rfl
  refine h.send_test (.readLink u) hp hl (by simp [Place.serves]) ?_
    (by simp [Log.after, begins, service, accepted, handed, hp]) (by simp) ⟨hl, hc, ts, hts⟩
  rw [sendStep, if_neg hne, hu]
  rfl

/-- The link of the first task is read. -/
theorem Inv.send_readLink (h : Inv x g r) (hp : x.place t = .send e m (.readLink u)) :
    x.Proceeds (.line t) fun x' ↦ ∃ g', Inv x' g' (r.after x (.line t)) := by
  have ht := h.thread t
  rw [hp] at ht
  obtain ⟨-, hl, hc, ts, hq⟩ := ht
  exact h.send_test (.setHead u (x.s.link u)) hp hl (by simp [Place.serves]) rfl
    (by simp [Log.after, begins, service, accepted, handed, hp]) (by simp)
    ⟨hl, hc, ts, hq, h.books.link_eq (l := []) hq⟩

/-! ### The sender and the task that it takes -/

/-- The first task leaves the queue. -/
theorem Inv.send_setHead (h : Inv x g r) {p : Addr} (hp : x.place t = .send e m (.setHead u p)) :
    x.Proceeds (.line t) fun x' ↦ ∃ g', Inv x' g' (r.after x (.line t)) := by
  have ht := h.thread t
  rw [hp] at ht
  obtain ⟨ht, hl, hc, ts, hq, rfl⟩ := ht
  have hu : g.serve u = .queued e := h.books.mem_iff.mp (by simp [hq])
  have hne : u ≠ t := fun he ↦ by simp [he, ht] at hu
  obtain ⟨d, hpu, hx, hst, htm, hpast⟩ := h.queued_asleep hu (by simpa [hl.hold] using hne.symm)
  have hm := (h.books.one_empty e).resolve_right (by simp [hq])
  have hlu : x.s.link u ≠ .task u := h.books.link_ne (e := e) (by simp [hq])
  have hr : r.after x (.line t) = r.attend u .unlinked := by
    simp [Log.after, begins, service, accepted, handed, hp]
  let s' : Nucleus := { x.s with word2 := Function.update x.s.word2 (.exch e) (firstOf ts) }
  let g' : Ledger := (g.setTasks e ts).setServe u (.taken (.thread t))
  -- the next line finds the task taken and the mutex locked
  have go : ∀ l', (Place.send e m l').serves u → (Place.send e m l').holds e →
      (Locked (x.go t s' (.send e m l')) g' t e [m] →
        Taken (x.go t s' (.send e m l')) g' (r.attend u .unlinked) (.thread t) u e d [.unlinked]
          (d ≠ 0) → SendOk (x.go t s' (.send e m l')) g' (r.attend u .unlinked) t e m l') →
      Inv (x.go t s' (.send e m l')) g' (r.attend u .unlinked) := by
    intro l' hs hh hok
    refine h.attends (by simp [hp]) e (by simp [hp, Place.exch]) (by simp [hp, Place.serves])
      (.inr ⟨e, hu, hl.hold⟩)
      ((h.books.unlink (l := []) (by simp [hl.hold]) hq (.thread t)).log rfl rfl)
      (by simp [g', hne.symm, ht]) (.inr ⟨.inr hl.hold, .inr hl.hold⟩)
      (fun e' he ↦ ⟨rfl, by simp [g', he], rfl, rfl, rfl, fun _ _ ↦ rfl⟩)
      (fun w _ hw ↦ ⟨by simp [g', hw], .rfl, by simp [hw], rfl, rfl, rfl, fun _ ↦ by simp [s']⟩)
      (fun a ha ↦ ?_) ?_ (fun _ ↦ hh) rfl ⟨by simp [g', hne.symm, ht], hok ?_ ?_⟩
    · rw [Ledger.setServe_serve, Function.update_self] at ha
      exact ⟨(Stage.taken.inj ha).symm, hs⟩
    · rw [hpu]
      refine ⟨hx, ?_⟩
      simpa [g', s'] using hlu
    · exact ⟨hl.hold, hl.carried, hl.accepts⟩
    · exact ⟨by simp [g'], (Function.update_of_ne hne _ _).trans hpu, by simp [hpast], htm⟩
  by_cases hts : ts = []
  · subst hts
    refine .line s' (.send e m (.setTail u)) (fun n ↦ by rw [hp]; rfl) ⟨g', ?_⟩
    rw [hr]
    exact go _ rfl ⟨rfl, by simp, by simp⟩ fun hl' ht' ↦ ⟨hl', by simp [g'], hm, d, ht', hst⟩
  · have hnull : firstOf ts ≠ .null := by
      cases ts with
      | nil => exact absurd rfl hts
      | cons => simp [firstOf]
    have hlast : lastOf e (u :: ts) = lastOf e ts := by
      cases ts with
      | nil => exact absurd rfl hts
      | cons => simp [lastOf]
    refine .line s' (.send e m (.give u)) (fun n ↦ ?_) ⟨g', ?_⟩
    · rw [hp]
      simp [placeStep, sendStep, hnull, s']
    rw [hr]
    refine go _ rfl ⟨rfl, by simp, by simp⟩ fun hl' ht' ↦ ⟨hl', ?_, hm, d, ht', hst⟩
    have hc : x.s.taskTail e = lastOf e (g.tq e) := hc
    rw [hq, hlast] at hc
    simpa [Complete, g'] using hc

/-- The sender goes on with the task that it has taken. -/
theorem Inv.send_serve (h : Inv x g r) {l : SendLine} (l' : SendLine) {g' : Ledger} {r' : Log}
    {s' : Nucleus} {d : BitVec 16} {ls : List Service} {q : Prop} (hp : x.place t = .send e m l)
    (hl : g.hold e = some (.thread t)) (hu : Taken x g r (.thread t) u e d ls q)
    (hs : ∀ w, (Place.send e m l).serves w → w = u) (hb : Books s' g' r')
    (hserve : g'.serve = g.serve) (hhold : g'.hold = g.hold)
    (hE : ∀ e' ≠ e, SameExch x.s s' g g' e')
    (hT : ∀ w ≠ u, SameTask x.s s' g g' r r' w)
    (hx : s'.exchange u = x.s.exchange u) (hlk : s'.link u = x.s.link u)
    (htt : s'.tailTask = x.s.tailTask)
    (hs' : (Place.send e m l').serves u) (hh : (Place.send e m l').holds e)
    (hok : SendOk (x.go t s' (.send e m l')) g' r' t e m l') :
    Inv (x.go t s' (.send e m l')) g' r' := by
  have ht := h.thread t
  rw [hp] at ht
  refine h.attends (by simp [hp]) e (by simp [hp, Place.exch]) (by rwa [hp]) (.inl hu.serve) hb
    (by simp [hserve, ht.1]) (.inr ⟨.inr hl, .inr (hhold ▸ hl)⟩) hE (fun w _ hw ↦ hT w hw)
    (fun a ha ↦ ?_) (hu.placeOk h ((congrFun hserve u).trans hu.serve) hx hlk) (fun _ ↦ hh) htt
    ⟨(congrFun hserve t).trans ht.1, hok⟩
  rw [hserve, hu.serve] at ha
  exact ⟨(Stage.taken.inj ha).symm, hs'⟩

/-- `exch->task_tail = exch` when no task is left. -/
theorem Inv.send_setTail (h : Inv x g r) (hp : x.place t = .send e m (.setTail u)) :
    x.Proceeds (.line t) fun x' ↦ ∃ g', Inv x' g' (r.after x (.line t)) := by
  have ht := h.thread t
  rw [hp] at ht
  obtain ⟨ht, hl, hq, hm, d, hu, hst⟩ := ht
  have hr : r.after x (.line t) = r := by simp [Log.after, begins, service, accepted, handed, hp]
  refine .line { x.s with taskTail := Function.update x.s.taskTail e (.exch e) }
    (.send e m (.give u)) (fun n ↦ by rw [hp]; rfl) ⟨g, ?_⟩
  rw [hr]
  refine h.send_serve (.give u) hp hl.hold hu (fun _ hw ↦ hw.symm)
    (h.books.congr rfl rfl rfl rfl rfl (fun _ _ he ↦ he) fun e' he' ↦ ?_) rfl rfl
    (fun e' he ↦ ⟨rfl, rfl, rfl, rfl, by simp [he], fun _ _ ↦ rfl⟩)
    (fun _ _ ↦ ⟨rfl, .rfl, rfl, rfl, rfl, rfl, fun _ ↦ rfl⟩) rfl rfl rfl rfl
    ⟨rfl, by simp, by simp⟩ ⟨⟨hl.hold, hl.carried, hl.accepts⟩, ?_, hm, d, ?_, hst⟩
  · have hne : e' ≠ e := fun he ↦ by simp [he, hl.hold] at he'
    exact Function.update_of_ne hne _ _
  · simp [Complete, hq, lastOf]
  · exact hu.frame ⟨rfl, .rfl, rfl, rfl, rfl, rfl, fun _ ↦ rfl⟩
      (Function.update_of_ne (hu.ne ht) _ _)

/-- `ycore.c:1084–1086`. -/
theorem Inv.send_give (h : Inv x g r) (hp : x.place t = .send e m (.give u)) :
    x.Proceeds (.line t) fun x' ↦ ∃ g', Inv x' g' (r.after x (.line t)) := by
  have ht := h.thread t
  rw [hp] at ht
  obtain ⟨ht, hl, hc, hm, d, hu, hst⟩ := ht
  have hpile : ∀ {e'}, m ∈ g.pile e' → e' = e := fun hx ↦
    h.books.pile_disjoint hx (List.mem_append_right _ (by simp [hl.carried]))
  have hmq : ∀ e', m ∉ g.mq e' := by
    intro e' hx
    obtain rfl := hpile (List.mem_append_left _ hx)
    rw [hm] at hx
    cases hx
  have hmt : m ≠ .timeOut := by
    rintro rfl
    exact h.books.timeOut e (List.mem_append_right _ (by simp [hl.carried]))
  have hr : r.after x (.line t) = (r.attend u (.given m)).hand e (m, u) := by
    simp [Log.after, begins, service, accepted, handed, hp]
  have hb := (h.books.setOwner hmq hmt
    (if x.s.type m > timeoutType then .task u else .msg m)).give (t := u) (by simp [hl.hold])
      hl.carried hm
  refine .line ({ x.s with
      word0 := Function.update x.s.word0 (.msg m)
        (if x.s.type m > timeoutType then .task u else .msg m) }.ctl (·.setMessage u (.msg m)))
    (.send e m (.status u)) (fun n ↦ by rw [hp]; rfl) ⟨g.setCarried e [], ?_⟩
  rw [hr]
  refine h.send_serve (.status u) hp hl.hold hu (fun _ hw ↦ hw.symm)
    (Books.log (hb.congr rfl rfl rfl rfl rfl (fun _ _ he ↦ he) fun _ _ ↦ rfl) rfl rfl) rfl rfl
    (fun e' he ↦ ⟨rfl, rfl, rfl, by simp [he], rfl, fun m' hm' ↦ ?_⟩)
    (fun w hw ↦ ⟨rfl, .rfl, by simp [hw], rfl, by simp [hw], rfl, fun _ ↦ rfl⟩) rfl rfl rfl rfl
    ⟨rfl, by simp, by simp⟩ ⟨⟨hl.hold, by simp, by simp⟩, hc, hmt, d, ?_, hst, by simp⟩
  · have hne : m' ≠ m := fun hx ↦ he (hpile (List.mem_append_right _ (hx ▸ hm')))
    simp [hne]
  · exact ⟨hu.serve, (Function.update_of_ne (hu.ne ht) _ _).trans hu.place, by simp [hu.past],
      hu.timed⟩

/-- The status byte after a hand-off. -/
theorem limitStatus_and (d : BitVec 16) :
    limitStatus d &&& ~~~waiting = if d ≠ 0 then delayed else 0 := by
  unfold limitStatus
  split <;> decide

/-- `ycore.c:1087`. -/
theorem Inv.send_status (h : Inv x g r) (hp : x.place t = .send e m (.status u)) :
    x.Proceeds (.line t) fun x' ↦ ∃ g', Inv x' g' (r.after x (.line t)) := by
  have ht := h.thread t
  rw [hp] at ht
  obtain ⟨ht, hl, hc, hm, d, hu, hst, hmu⟩ := ht
  have hr : r.after x (.line t) = r := by simp [Log.after, begins, service, accepted, handed, hp]
  refine .line (x.s.ctl fun c ↦ c.setStatus u (c.status u &&& ~~~waiting)) (.send e m (.test u))
    (fun n ↦ by rw [hp]; rfl) ⟨g, ?_⟩
  rw [hr]
  refine h.send_serve (.test u) hp hl.hold hu (fun _ hw ↦ hw.symm)
    (h.books.congr rfl rfl rfl rfl rfl (fun _ _ he ↦ he) fun _ _ ↦ rfl) rfl rfl
    (fun _ _ ↦ ⟨rfl, rfl, rfl, rfl, rfl, fun _ _ ↦ rfl⟩)
    (fun w hw ↦ ⟨rfl, .rfl, rfl, by simp [hw], rfl, rfl, fun _ ↦ rfl⟩) rfl rfl rfl rfl
    ⟨rfl, by simp, by simp⟩ ⟨⟨hl.hold, hl.carried, hl.accepts⟩, hc, hm, d, ?_, ?_, hmu⟩
  · exact ⟨hu.serve, (Function.update_of_ne (hu.ne ht) _ _).trans hu.place, hu.past, hu.timed⟩
  · simp only [go_s, Control.setStatus_status, Function.update_self, hst]
    exact limitStatus_and d

/-- `ycore.c:1088`: the delay is cancelled exactly for a wait with a limit. -/
theorem Inv.send_sendCancels (h : Inv x g r) (hp : x.place t = .send e m (.test u)) :
    x.Proceeds (.line t) fun x' ↦ ∃ g', Inv x' g' (r.after x (.line t)) := by
  have ht := h.thread t
  rw [hp] at ht
  obtain ⟨ht, hl, hc, hm, d, hu, hst, hmu⟩ := ht
  have hr : r.after x (.line t) = r := by simp [Log.after, begins, service, accepted, handed, hp]
  have go : ∀ l', (Place.send e m l').serves u → (Place.send e m l').holds e →
      (Taken (x.go t x.s (.send e m l')) g r (.thread t) u e d [.unlinked, .given m] (d ≠ 0) →
        SendOk (x.go t x.s (.send e m l')) g r t e m l') → Inv (x.go t x.s (.send e m l')) g r := by
    intro l' hs hh hok
    exact h.send_serve l' hp hl.hold hu (fun _ hw ↦ hw.symm) h.books rfl rfl
      (fun _ _ ↦ ⟨rfl, rfl, rfl, rfl, rfl, fun _ _ ↦ rfl⟩)
      (fun _ _ ↦ ⟨rfl, .rfl, rfl, rfl, rfl, rfl, fun _ ↦ rfl⟩) rfl rfl rfl hs hh
      (hok ⟨hu.serve, (Function.update_of_ne (hu.ne ht) _ _).trans hu.place, hu.past, hu.timed⟩)
  by_cases hd : d = 0
  · subst hd
    refine .line x.s (.send e m (.unlock u)) (fun n ↦ ?_) ⟨g, ?_⟩
    · simp [hp, placeStep, sendStep, sendCancels, hst, logicalAnd]
    rw [hr]
    exact go _ rfl ⟨rfl, by simp, by simp⟩ fun hu' ↦ ⟨⟨hl.hold, hl.carried, hl.accepts⟩, hc, hm, 0,
      ⟨hu'.serve, hu'.place, hu'.past, hu'.timed.trans (by simp)⟩, hmu⟩
  · have hd' : d ≠ 0#16 := hd
    refine .line x.s (.send e m (.cancel u)) (fun n ↦ ?_) ⟨g, ?_⟩
    · simp [hp, placeStep, sendStep, sendCancels, hst, hd', logicalAnd, delayed]
    rw [hr]
    exact go _ rfl ⟨rfl, by simp, by simp⟩ fun hu' ↦ ⟨⟨hl.hold, hl.carried, hl.accepts⟩, hc, hm, d,
      hd, ⟨hu'.serve, hu'.place, hu'.past, hu'.timed.trans (iff_true_intro hd)⟩, hmu⟩

/-- `ycore.c:1089` under `delay_list_mutex`. -/
theorem Inv.send_cancel (h : Inv x g r) (hp : x.place t = .send e m (.cancel u)) :
    x.Proceeds (.line t) fun x' ↦ ∃ g', Inv x' g' (r.after x (.line t)) := by
  have ht := h.thread t
  rw [hp] at ht
  obtain ⟨ht, hl, hc, hm, d, hd, hu, hmu⟩ := ht
  by_cases hf : x.free = true
  case neg => exact .waits fun n ↦ by simp [hp, placeStep, sendStep, require, hf]
  obtain ⟨s', hs', hctl, hsame, hb⟩ := h.books.undelay (hu.timed.mpr trivial)
  have hr : r.after x (.line t) = r.attend u .undelayed := by
    simp [Log.after, begins, service, accepted, handed, hp]
  refine .line s' (.send e m (.unlock u))
    (fun n ↦ by simp [hp, placeStep, sendStep, require, hf, cancelDelay, hs'])
    ⟨g.setDelays (g.dl.filter (·.1 ≠ u)), ?_⟩
  rw [hr]
  have hmsg : ∀ w, s'.message w = x.s.message w := fun w ↦ by rw [hctl]; rfl
  have hex : ∀ w, s'.exchange w = x.s.exchange w := fun w ↦ by rw [hctl]; rfl
  refine h.send_serve (.unlock u) hp hl.hold hu (fun _ hw ↦ hw.symm) (hb.log rfl rfl) rfl rfl
    (fun e' _ ↦ ⟨rfl, rfl, rfl, rfl, congrFun hsame.taskTail e',
      fun m' _ ↦ hsame.word0 _ (by simp) (by simp)⟩)
    (fun w hw ↦ ⟨rfl, ?_, by simp [hw], ?_, hmsg w, hex w,
      fun _ ↦ congrFun hsame.word2 _⟩) (hex u)
    (congrFun hsame.word2 _) hsame.tailTask rfl ⟨rfl, by simp, by simp⟩
    ⟨⟨hl.hold, hl.carried, by simp⟩, (congrFun hsame.taskTail e).trans hc, hm, d, ?_,
      (hmsg u).trans hmu⟩
  · exact Books.timed_filter.trans (and_iff_right hw)
  · rw [hctl]
    simp [hw]
  · refine ⟨hu.serve, (Function.update_of_ne (hu.ne ht) _ _).trans hu.place, ?_, ?_⟩
    · rw [sendServices, if_pos hd]
      simp [hu.past]
    · exact Books.timed_filter.trans (by simp)

/-- `ycore.c:1096`. -/
theorem Inv.send_unlock (h : Inv x g r) (hp : x.place t = .send e m (.unlock u)) :
    x.Proceeds (.line t) fun x' ↦ ∃ g', Inv x' g' (r.after x (.line t)) := by
  have ht := h.thread t
  rw [hp] at ht
  obtain ⟨ht, hl, hc, hm, d, hu, hmu⟩ := ht
  have hr : r.after x (.line t) = r := by simp [Log.after, begins, service, accepted, handed, hp]
  refine .line { x.s with mutex := Function.update x.s.mutex e false } (.send e m (.post u))
    (fun n ↦ by rw [hp]; rfl) ⟨g.setHold e none, ?_⟩
  rw [hr]
  refine h.attends (by simp [hp]) e (by simp [hp, Place.exch])
    (by simp [hp, Place.serves]) (.inl hu.serve) (h.books.unlock hc hl.carried)
    (by simp [ht]) (.inr ⟨.inr hl.hold, by simp⟩)
    (fun e' he ↦ ⟨by simp [he], rfl, rfl, rfl, rfl, fun _ _ ↦ rfl⟩)
    (fun _ _ _ ↦ ⟨rfl, .rfl, rfl, rfl, rfl, rfl, fun _ ↦ rfl⟩) (fun a ha ↦ ?_)
    (hu.placeOk h hu.serve rfl rfl) (by simp) rfl ⟨ht, hm, d, ?_, hmu⟩
  · rw [Ledger.setHold_serve, hu.serve] at ha
    exact ⟨(Stage.taken.inj ha).symm, rfl⟩
  · exact ⟨hu.serve, (Function.update_of_ne (hu.ne ht) _ _).trans hu.place, hu.past, hu.timed⟩

/-- `ycore.c:1097`. -/
theorem Inv.send_post (h : Inv x g r) (hp : x.place t = .send e m (.post u)) :
    x.Proceeds (.line t) fun x' ↦ ∃ g', Inv x' g' (r.after x (.line t)) := by
  have ht := h.thread t
  rw [hp] at ht
  obtain ⟨ht, hm, d, hu, hmu⟩ := ht
  obtain ⟨hx, hlk⟩ := hu.asleep h
  have hne := hu.ne ht
  have hr : r.after x (.line t) = r.attend u .posted := by
    simp [Log.after, begins, service, accepted, handed, hp]
  refine .line (x.s.ctl (·.semPost u)) .out (fun n ↦ by rw [hp]; rfl) ⟨g.setServe u .posted, ?_⟩
  rw [hr]
  refine h.attends (by simp [hp]) e (by simp [hp, Place.exch])
    (by simp [hp, Place.serves]) (.inl hu.serve)
    ((h.books.post hu.serve (by simp [hu.timed])).log rfl rfl) (by simp [hne.symm, ht])
    (.inl ⟨rfl, rfl, rfl, rfl, rfl, fun _ _ ↦ rfl⟩)
    (fun _ _ ↦ ⟨rfl, rfl, rfl, rfl, rfl, fun _ _ ↦ rfl⟩)
    (fun w _ hw ↦ ⟨by simp [hw], .rfl, by simp [hw], rfl, rfl, rfl, fun _ ↦ rfl⟩) (by simp)
    ?_ (fun hh ↦ ?_) rfl (by simp [PlaceOk, hne.symm, ht])
  · rw [hu.place]
    refine ⟨hx, ?_⟩
    simp only [Ledger.setServe_serve, Function.update_self]
    exact ⟨hlk, m, hmu, .inl ⟨hm, by simp [hu.past]⟩⟩
  · have hold : (x.place t).holds e := h.held (a := .thread t) hh
    rw [hp] at hold
    exact absurd rfl (hold.2.2 u)

/-- Every line of `reqsend`. -/
theorem Inv.send_line (h : Inv x g r) (ho : x.Orderly (.line t)) {l : SendLine}
    (hp : x.place t = .send e m l) :
    x.Proceeds (.line t) fun x' ↦ ∃ g', Inv x' g' (r.after x (.line t)) := by
  cases l with
  | lock => exact h.send_lock ho hp
  | head => exact h.send_head hp
  | tail => exact h.send_tail hp
  | append => exact h.send_append hp
  | busy => exact h.send_busy hp
  | readLink => exact h.send_readLink hp
  | setHead => exact h.send_setHead hp
  | setTail => exact h.send_setTail hp
  | give => exact h.send_give hp
  | status => exact h.send_status hp
  | test => exact h.send_sendCancels hp
  | cancel => exact h.send_cancel hp
  | unlock => exact h.send_unlock hp
  | post => exact h.send_post hp

end YRmx.Traffic
