import YRmx.Race.Waits

/-!
# The lines of `rqdelaytask`

Library `YRmx`. The delay task takes up the first task of the delay list once its delay has come
down to zero, looks for it in the queue of its exchange, unlinks it there, ends its delay, gives it
the time-out message and posts its semaphore.
-/

namespace YRmx.Traffic

open Intrusive Transition

variable {x : Traffic} {g g' : Ledger} {r r' : Log} {t : TaskId} {e : ExchId} {s' : Nucleus}
  {l' : ExpiryLine}

/-! ### What a task with a limit is about -/

/-- The exchange that a queued task waits for. -/
theorem Inv.queued_exchange (h : Inv x g r) (hq : g.serve t = .queued e) :
    x.s.exchange t = .exch e := by
  have ht := h.thread t
  cases hp : x.place t with
  | asleep e' d =>
    rw [hp] at ht
    obtain ⟨hx, ht⟩ := ht
    rw [hq] at ht
    exact hx.trans (by rw [ht.1])
  | wait e' d l =>
    rw [hp] at ht
    have idle : g.serve t = .idle → x.s.exchange t = .exch e := fun h0 ↦ by simp [hq] at h0
    have joined : Joined x g r t e' → x.s.exchange t = .exch e := by
      intro hj
      have hs := hj.serve
      rw [hq] at hs
      cases hs
      exact hj.exchange
    cases l with
    | lock => exact idle ht
    | done => exact ht.elim
    | enter | clear | fetch | release => exact idle ht.1
    | test | readTail => exact idle (Joins.serve ht)
    | setHead | writeLink => exact idle ht.1.serve
    | setTail | check | delay | unlock => exact joined ht.1
  | out =>
    rw [hp, PlaceOk, hq] at ht
    cases ht
  | send | acpt =>
    rw [hp, PlaceOk, hq] at ht
    cases ht.1
  | relock =>
    rw [hp] at ht
    have ht := Awake.serve ht
    rw [hq] at ht
    cases ht
  | wake | leave =>
    rw [hp] at ht
    have ht := ht.1.serve
    rw [hq] at ht
    cases ht

/-- As long as a task that a sender has taken has a limit, the sender holds the exchange. -/
theorem Inv.taken_exchange (h : Inv x g r) {u : TaskId} (hs : g.serve t = .taken (.thread u))
    (ht : g.Timed t) : ∃ e, x.s.exchange t = .exch e ∧ x.s.mutex e = true := by
  have hu := h.thread u
  have hserve : (x.place u).serves t := h.taken (a := .thread u) hs
  cases hp : x.place u with
  | send e m l =>
    rw [hp] at hu hserve
    have hu := hu.2
    cases l with
    | setTail v =>
      obtain rfl : v = t := hserve
      obtain ⟨hl, -, -, d, hv, -⟩ := hu
      exact ⟨e, (hv.asleep h).1, h.books.mutex hl.hold⟩
    | give v | status v | test v =>
      obtain rfl : v = t := hserve
      obtain ⟨hl, -, -, d, hv, -⟩ := hu
      exact ⟨e, (hv.asleep h).1, h.books.mutex hl.hold⟩
    | cancel v =>
      obtain rfl : v = t := hserve
      obtain ⟨hl, -, -, d, -, hv, -⟩ := hu
      exact ⟨e, (hv.asleep h).1, h.books.mutex hl.hold⟩
    | unlock v =>
      obtain rfl : v = t := hserve
      obtain ⟨-, -, -, d, hv, -⟩ := hu
      exact (hv.timed.mp ht).elim
    | post v =>
      obtain rfl : v = t := hserve
      obtain ⟨-, d, hv, -⟩ := hu
      exact (hv.timed.mp ht).elim
    | lock | head | tail | append | busy | readLink | setHead => exact hserve.elim
  | out | acpt | wait | asleep | relock | wake | leave =>
    rw [hp] at hserve
    exact hserve.elim

/-! ### One line -/

/-- A line of the delay task that has to wait. -/
theorem Proceeds.expiry_waits {P : Traffic → Prop}
    (h : expiryStep x.s x.expiry = .error .blocked) : x.Proceeds .expiry P := by
  by_cases h0 : x.place rqdelaytaskTd = .out
  · exact .inr fun n ↦ by simp only [next, require, h0, if_pos, h, Exec.ok_bind, Exec.error_bind]
  · exact .inr fun n ↦ by simp only [next, require, h0, if_false, Exec.error_bind]

/-- A line of the delay task. -/
theorem Proceeds.expiry_line {P : Traffic → Prop} (s' : Nucleus) (l' : ExpiryLine)
    (h : expiryStep x.s x.expiry = .ok (s', l')) (hP : P { x with s := s', expiry := l' }) :
    x.Proceeds .expiry P := by
  by_cases h0 : x.place rqdelaytaskTd = .out
  · exact .expiry s' l' h0 h hP
  · exact .inr fun n ↦ by simp only [next, require, h0, if_false, Exec.error_bind]

/-- The delay task goes on without a change to any task or exchange. -/
theorem Inv.expiry_same (h : Inv x g r) (hb : Books s' g r)
    (hE : ∀ e, SameExch x.s s' g g e) (hT : ∀ t, SameTask x.s s' g g r r t)
    (hH : ∀ e, x.expiry.worksOn e → l'.worksOn e) (hS : ∀ t, x.expiry.serves t → l'.serves t)
    (hW : s'.tailTask = x.s.tailTask)
    (hown : ExpiryOk { x with s := s', expiry := l' } g r l') :
    Inv { x with s := s', expiry := l' } g r :=
  h.expires hb (fun e ↦ .inl (hE e)) (fun t ↦ .inl (hT t))
    (fun e he ↦ hH e (h.held (a := .delayTask) he)) (fun t ht ↦ hS t (h.taken (a := .delayTask) ht))
    hW hown

/-- The delay task enters its loop. -/
theorem Inv.expiry_idle (h : Inv x g r) (hl : x.expiry = .idle) :
    x.Proceeds .expiry fun x' ↦ ∃ g', Inv x' g' (r.after x .expiry) := by
  have hr : r.after x .expiry = r := by simp [Log.after, begins, service, accepted, handed, hl]
  by_cases hpc : x.s.pc rqdelaytaskTd = .user
  case neg => exact .expiry_waits (by simp [hl, expiryStep, require, hpc])
  refine .expiry_line x.s .first (by simp [hl, expiryStep, require, hpc]) ⟨g, ?_⟩
  rw [hr]
  exact h.expiry_same h.books (fun _ ↦ ⟨rfl, rfl, rfl, rfl, rfl, fun _ _ ↦ rfl⟩)
    (fun _ ↦ ⟨rfl, .rfl, rfl, rfl, rfl, rfl, fun _ ↦ rfl⟩)
    (by simp [hl, ExpiryLine.worksOn]) (by simp [hl, ExpiryLine.serves]) rfl trivial

/-- The delay task takes up the first task of the delay list, or leaves its loop. -/
theorem Inv.expiry_first (h : Inv x g r) (ho : x.Orderly .expiry) (hl : x.expiry = .first) :
    x.Proceeds .expiry fun x' ↦ ∃ g', Inv x' g' (r.after x .expiry) := by
  have hr : r.after x .expiry = r := by simp [Log.after, begins, service, accepted, handed, hl]
  have hw : ∀ e, ¬ x.expiry.worksOn e := by simp [hl, ExpiryLine.worksOn]
  have hnext := h.books.delays.next_head
  have hn0 : x.s.word0 .delayHead ≠ .null := by
    rw [hnext]
    exact DelayList.front_ne_null _
  by_cases hz : x.s.delay (x.s.word0 .delayHead) = 0
  case neg =>
    refine .expiry_line (x.s.ctl (·.goto rqdelaytaskTd (.exitRegion .rqdelaytask))) .idle
      (by simp only [hl, expiryStep, deref, if_neg hn0, Exec.ok_bind, if_neg hz]) ⟨g, ?_⟩
    rw [hr]
    exact h.expiry_same (h.books.congr rfl rfl rfl rfl rfl (fun _ _ he ↦ he) fun _ _ ↦ rfl)
      (fun _ ↦ ⟨rfl, rfl, rfl, rfl, rfl, fun _ _ ↦ rfl⟩)
      (fun _ ↦ ⟨rfl, .rfl, rfl, rfl, rfl, rfl, fun _ ↦ rfl⟩)
      (by simp [hl, ExpiryLine.worksOn]) (by simp [hl, ExpiryLine.serves]) rfl trivial
  -- the first node is a task, since the delay of the tail sentinel is not zero
  obtain ⟨t, ht, htm⟩ : ∃ t, x.s.word0 .delayHead = .task t ∧ g.Timed t := by
    cases hdl : g.dl with
    | nil =>
      rw [hdl] at hnext
      have hx : x.s.word0 .delayHead = .delayTail := hnext
      rw [hx, h.books.delays.tail] at hz
      cases hz
    | cons p dl =>
      rw [hdl] at hnext
      exact ⟨p.1, hnext, by simp [Ledger.Timed, hdl]⟩
  rw [ht] at hz
  have hfree : ∀ e, x.s.exchange t = .exch e → x.s.mutex e = false := fun e he ↦ ho hl t e ht hz he
  -- the task waits in the queue of its exchange
  obtain ⟨e, hq⟩ : ∃ e, g.serve t = .queued e := by
    obtain ⟨hi, hpo⟩ := h.books.timed htm
    cases hs : g.serve t with
    | idle => exact absurd hs hi
    | posted => exact absurd hs hpo
    | queued e => exact ⟨e, rfl⟩
    | taken a =>
      cases a with
      | thread u =>
        obtain ⟨e, he, hm⟩ := h.taken_exchange hs htm
        rw [hfree e he] at hm
        cases hm
      | delayTask =>
        have hserve : x.expiry.serves t := h.taken (a := .delayTask) hs
        rw [hl] at hserve
        exact hserve.elim
  have he := h.queued_exchange hq
  have h0 := h.unheld (hfree e he) (hw e)
  obtain ⟨d, hp, -, -, hd, -⟩ := h.queued_asleep hq (by simp [h0])
  obtain ⟨htail, hc⟩ := h.books.free h0
  obtain ⟨l, ts, hlt⟩ := List.append_of_mem (h.books.mem_iff.mpr hq)
  refine .expiry_line x.s (.search t e (.exch e))
    (by simp [hl, expiryStep, ht, deref, hz, asTask, he, asExch])
    ⟨g.setHold e (some .delayTask), ?_⟩
  rw [hr]
  refine h.expires (h.books.hold (by simp)) (fun e' ↦ ?_)
    (fun _ ↦ .inl ⟨rfl, .rfl, rfl, rfl, rfl, rfl, fun _ ↦ rfl⟩) (fun e' he' ↦ ?_)
      (fun u hu ↦ ?_) rfl
    ⟨⟨by simp, hc, htail, hq, ⟨d, hd.mp htm, hp⟩, htm⟩, l, ts, hlt, by simp⟩
  · by_cases hee : e' = e
    · subst hee
      exact .inr ⟨.inl h0, by simp⟩
    · exact .inl ⟨by simp [hee], rfl, rfl, rfl, rfl, fun _ _ ↦ rfl⟩
  · by_cases hee : e' = e
    · exact hee.symm
    · rw [Ledger.setHold_hold, Function.update_of_ne hee] at he'
      exact absurd (h.held (a := .delayTask) he') (hw e')
  · have hserve : x.expiry.serves u := h.taken (a := .delayTask) hu
    rw [hl] at hserve
    exact hserve.elim

/-- The search comes closer to the task that it looks for. -/
theorem Inv.expiry_search (h : Inv x g r) {a : Addr} (hl : x.expiry = .search t e a) :
    x.Proceeds .expiry fun x' ↦ ∃ g', Inv x' g' (r.after x .expiry) := by
  have hr : r.after x .expiry = r := by simp [Log.after, begins, service, accepted, handed, hl]
  have hx := h.expiry
  rw [hl] at hx
  obtain ⟨hs, l, ts, hq, ha⟩ := hx
  have hf := h.books.links e
  have ha0 : a ≠ .null := by
    rintro rfl
    simp at ha
  rw [hq, List.map_append, List.map_cons] at hf
  have go : ∀ l', ExpiryLine.worksOn e l' → ExpiryOk { x with s := x.s, expiry := l' } g r l' →
      Inv { x with s := x.s, expiry := l' } g r := by
    intro l' hw hok
    refine h.expiry_same h.books (fun _ ↦ ⟨rfl, rfl, rfl, rfl, rfl, fun _ _ ↦ rfl⟩)
      (fun _ ↦ ⟨rfl, .rfl, rfl, rfl, rfl, rfl, fun _ ↦ rfl⟩) (fun e' he ↦ ?_)
      (by simp [hl, ExpiryLine.serves]) rfl hok
    rw [hl] at he
    obtain rfl : e = e' := he
    exact hw
  rw [hr]
  rcases hf.toward ha with ⟨hn, hlast⟩ | ⟨hn, hm⟩
  · refine .expiry_line x.s (.readLink t e a) ?_ ⟨g, go (.readLink t e a) rfl ?_⟩
    · simp only [hl, expiryStep, deref, if_neg ha0, Exec.ok_bind, if_pos hn]
    · exact ⟨⟨hs.hold, hs.carried, hs.complete, hs.serve, hs.place, hs.timed⟩, l, ts, hq, hlast⟩
  · refine .expiry_line x.s (.search t e (x.s.word2 a)) ?_
      ⟨g, go (.search t e (x.s.word2 a)) rfl ?_⟩
    · simp only [hl, expiryStep, deref, if_neg ha0, Exec.ok_bind, if_neg hn]
    · exact ⟨⟨hs.hold, hs.carried, hs.complete, hs.serve, hs.place, hs.timed⟩, l, ts, hq,
        List.mem_cons_of_mem _ hm⟩

/-- `delay_task->link` is read. -/
theorem Inv.expiry_readLink (h : Inv x g r) {a : Addr} (hl : x.expiry = .readLink t e a) :
    x.Proceeds .expiry fun x' ↦ ∃ g', Inv x' g' (r.after x .expiry) := by
  have hr : r.after x .expiry = r := by simp [Log.after, begins, service, accepted, handed, hl]
  have hx := h.expiry
  rw [hl] at hx
  obtain ⟨hs, l, ts, hq, ha⟩ := hx
  refine .expiry_line x.s (.writeLink t e a (x.s.link t)) (by simp [hl, expiryStep]) ⟨g, ?_⟩
  rw [hr]
  exact h.expiry_same h.books (fun _ ↦ ⟨rfl, rfl, rfl, rfl, rfl, fun _ _ ↦ rfl⟩)
    (fun _ ↦ ⟨rfl, .rfl, rfl, rfl, rfl, rfl, fun _ ↦ rfl⟩) (by simp [hl, ExpiryLine.worksOn])
    (by simp [hl, ExpiryLine.serves]) rfl
    ⟨⟨hs.hold, hs.carried, hs.complete, hs.serve, hs.place, hs.timed⟩, l, ts, hq, ha,
      h.books.link_eq hq⟩

/-- The task is unlinked from the queue. -/
theorem Inv.expiry_writeLink (h : Inv x g r) {a p : Addr} (hl : x.expiry = .writeLink t e a p) :
    x.Proceeds .expiry fun x' ↦ ∃ g', Inv x' g' (r.after x .expiry) := by
  have hr : r.after x .expiry = r.attend t .unlinked := by
    simp [Log.after, begins, service, accepted, handed, hl]
  have hx := h.expiry
  rw [hl] at hx
  obtain ⟨hs, l, ts, hq, rfl, rfl⟩ := hx
  obtain ⟨d, hpl, hex, -, htm, hpast⟩ := h.queued_asleep hs.serve (by simp [hs.hold])
  have hlu : x.s.link t ≠ .task t := h.books.link_ne (e := e) (by simp [hq])
  have hlast : lastOf e l ∈ Addr.exch e :: l.map .task := List.getLastD_mem_cons
  have htl : t ∉ l := by
    have hd := h.books.tq_nodup e
    rw [hq] at hd
    exact fun hm ↦ (List.nodup_append.mp hd).2.2 t hm t (by simp) rfl
  have hlt : lastOf e l ≠ .task t := by
    intro hx
    rw [hx] at hlast
    exact htl (by simpa using hlast)
  let s' : Nucleus := { x.s with word2 := Function.update x.s.word2 (lastOf e l) (firstOf ts) }
  let g₁ : Ledger := (g.setTasks e (l ++ ts)).setServe t (.taken .delayTask)
  have hb : Books s' g₁ (r.attend t .unlinked) :=
    (h.books.unlink (by simp [hs.hold]) hq .delayTask).log rfl rfl
  -- the exchange is left at once unless its tail pointer is to be corrected
  have go : ∀ l' o, Books s' (g₁.setHold e o) (r.attend t .unlinked) → o = none ∨
    o = some .delayTask →
      (o ≠ none → l'.worksOn e) → l'.serves t →
      (Taken { x with s := s', expiry := l' } (g₁.setHold e o)
        (r.attend t .unlinked) .delayTask t e d
          [.unlinked] True →
        ExpiryOk { x with s := s', expiry := l' } (g₁.setHold e o) (r.attend t .unlinked) l') →
      Inv { x with s := s', expiry := l' } (g₁.setHold e o) (r.attend t .unlinked) := by
    intro l' o hb ho hw hsv hok
    refine h.expires hb (fun e' ↦ ?_) (fun u ↦ ?_) (fun e' he' ↦ ?_) (fun u hu ↦ ?_) rfl (hok ?_)
    · by_cases hee : e' = e
      · subst hee
        exact .inr ⟨.inr hs.hold, by simpa [g₁] using ho⟩
      · exact .inl ⟨by simp [g₁, hee], by simp [g₁, hee], rfl, rfl, rfl, fun _ _ ↦ rfl⟩
    · by_cases hut : u = t
      · subst hut
        refine .inr ⟨.inr ⟨e, hs.serve, hs.hold⟩, fun a ha ↦ ?_, ?_⟩
        · simpa [g₁, eq_comm] using ha
        · rw [hpl]
          refine ⟨hex, ?_⟩
          simpa [g₁, s', hlt.symm] using hlu
      · refine .inl ⟨by simp [g₁, hut], .rfl, by simp [hut], rfl, rfl, rfl, fun hnq ↦ ?_⟩
        refine Function.update_of_ne (fun hx ↦ ?_) _ _
        rw [← hx] at hlast
        exact hnq e (h.books.mem_iff.mp (by simp [hq, show u ∈ l by simpa using hlast]))
    · by_cases hee : e' = e
      · subst hee
        have ho' : o = some .delayTask := by simpa using he'
        exact hw (by simp [ho'])
      · have he' : g.hold e' = some .delayTask := by simpa [g₁, hee] using he'
        have hold : x.expiry.worksOn e' := h.held (a := .delayTask) he'
        rw [hl] at hold
        exact absurd (show e = e' from hold).symm hee
    · by_cases hut : u = t
      · exact hut ▸ hsv
      · have hu : g.serve u = .taken .delayTask := by simpa [g₁, hut] using hu
        have hold : x.expiry.serves u := h.taken (a := .delayTask) hu
        rw [hl] at hold
        exact hold.elim
    · exact ⟨by simp [g₁], hpl, by simp [hpast], iff_true_intro hs.timed⟩
  have hd : d ≠ 0 := htm.mp hs.timed
  by_cases hts : ts = []
  · subst hts
    have hold : g₁.setHold e (some .delayTask) = g₁ := by
      have he : Function.update g.hold e (some .delayTask) = g.hold := by
        rw [← hs.hold, Function.update_eq_self]
      exact congrArg (fun f ↦ ({ g₁ with hold := f } : Ledger)) he
    refine .expiry_line s' (.setTail t e (lastOf e l)) (by simp [hl, expiryStep, s', firstOf])
      ⟨g₁.setHold e (some .delayTask), ?_⟩
    rw [hr]
    refine go _ _ (by rwa [hold]) (.inr rfl) (fun _ ↦ rfl) rfl fun htk ↦
      ⟨by simp, ?_, ?_, d, hd, htk⟩
    · exact hs.carried
    · simp [g₁]
  · have hnull : firstOf ts ≠ .null := by
      cases ts with
      | nil => exact absurd rfl hts
      | cons => simp [firstOf]
    refine .expiry_line s' (.cancel t) (by simp [hl, expiryStep, s', hnull])
      ⟨g₁.setHold e none, ?_⟩
    rw [hr]
    refine go _ _ (hb.release ?_ hs.carried) (.inl rfl) (by simp) rfl fun htk ↦ ⟨e, d, hd, htk⟩
    have hc : x.s.taskTail e = lastOf e (g.tq e) := hs.complete
    show x.s.taskTail e = lastOf e (g₁.tq e)
    rw [hc, hq]
    cases ts with
    | nil => exact absurd rfl hts
    | cons u ts => simp [g₁, lastOf]

/-- `task_exch->task_tail = curr_task`. -/
theorem Inv.expiry_setTail (h : Inv x g r) {a : Addr} (hl : x.expiry = .setTail t e a) :
    x.Proceeds .expiry fun x' ↦ ∃ g', Inv x' g' (r.after x .expiry) := by
  have hr : r.after x .expiry = r := by simp [Log.after, begins, service, accepted, handed, hl]
  have hx := h.expiry
  rw [hl] at hx
  obtain ⟨hh, hc, ha, d, hd, ht⟩ := hx
  refine .expiry_line { x.s with taskTail := Function.update x.s.taskTail e a } (.cancel t)
    (by simp [hl, expiryStep]) ⟨g.setHold e none, ?_⟩
  rw [hr]
  have hb : Books { x.s with taskTail := Function.update x.s.taskTail e a } g r := by
    refine h.books.congr rfl rfl rfl rfl rfl (fun _ _ he ↦ he) fun e' he' ↦ ?_
    have hne : e' ≠ e := fun he ↦ by simp [he, hh] at he'
    exact Function.update_of_ne hne _ _
  refine h.expires (hb.release (by simp [ha]) hc) (fun e' ↦ ?_)
    (fun _ ↦ .inl ⟨rfl, .rfl, rfl, rfl, rfl, rfl, fun _ ↦ rfl⟩) (fun e' he' ↦ ?_)
      (fun u hu ↦ ?_) rfl
    ⟨e, d, hd, ht.serve, ht.place, ht.past, ht.timed⟩
  · by_cases hee : e' = e
    · subst hee
      exact .inr ⟨.inr hh, by simp⟩
    · exact .inl ⟨by simp [hee], rfl, rfl, rfl, by simp [hee], fun _ _ ↦ rfl⟩
  · by_cases hee : e' = e
    · simp [hee] at he'
    · have he' : g.hold e' = some .delayTask := by simpa [hee] using he'
      have hold : x.expiry.worksOn e' := h.held (a := .delayTask) he'
      rw [hl] at hold
      exact absurd (show e = e' from hold).symm hee
  · have hold : x.expiry.serves u := h.taken (a := .delayTask) hu
    rwa [hl] at hold

/-- The delay task goes on with the task that it has taken. -/
theorem Inv.expiry_attends (h : Inv x g r) {l : ExpiryLine} {d : BitVec 16} {ls : List Service}
    {q : Prop} (hl : x.expiry = l) (ht : Taken x g r .delayTask t e d ls q)
    (hw : ∀ e, ¬ l.worksOn e) (hs : ∀ u, l.serves u → u = t) (hb : Books s' g' r')
    (hE : ∀ e, SameExch x.s s' g g' e) (hT : ∀ u ≠ t, SameTask x.s s' g g' r r' u)
    (hW : s'.tailTask = x.s.tailTask)
    (hv : ∀ a, g'.serve t = .taken a → a = .delayTask ∧ l'.serves t)
    (hok : PlaceOk { x with s := s', expiry := l' } g' r' t (x.place t))
    (hown : ExpiryOk { x with s := s', expiry := l' } g' r' l') :
    Inv { x with s := s', expiry := l' } g' r' := by
  refine h.expires hb (fun e ↦ .inl (hE e)) (fun u ↦ ?_) (fun e he ↦ ?_) (fun u hu ↦ ?_) hW hown
  · by_cases hut : u = t
    · subst hut
      exact .inr ⟨.inl ht.serve, fun a ha ↦ (hv a ha).1, hok⟩
    · exact .inl (hT u hut)
  · have hold : x.expiry.worksOn e := h.held (a := .delayTask) ((hE e).hold ▸ he)
    rw [hl] at hold
    exact absurd hold (hw e)
  · by_cases hut : u = t
    · subst hut
      exact (hv _ hu).2
    · have hold : x.expiry.serves u := h.taken (a := .delayTask) ((hT u hut).serve ▸ hu)
      rw [hl] at hold
      exact absurd (hs u hold) hut

/-- `cancel_delay_unsafe(delay_task)`. -/
theorem Inv.expiry_cancel (h : Inv x g r) (hl : x.expiry = .cancel t) :
    x.Proceeds .expiry fun x' ↦ ∃ g', Inv x' g' (r.after x .expiry) := by
  have hr : r.after x .expiry = r.attend t .undelayed := by
    simp [Log.after, begins, service, accepted, handed, hl]
  have hx := h.expiry
  rw [hl] at hx
  obtain ⟨e, d, hd, ht⟩ := hx
  obtain ⟨s', hs', hctl, hsame, hb⟩ := h.books.undelay (ht.timed.mpr trivial)
  have hmsg : ∀ u, s'.message u = x.s.message u := fun u ↦ by rw [hctl]; rfl
  have hex : ∀ u, s'.exchange u = x.s.exchange u := fun u ↦ by rw [hctl]; rfl
  refine .expiry_line s' (.message t) (by simp [hl, expiryStep, hs'])
    ⟨g.setDelays (g.dl.filter (·.1 ≠ t)), ?_⟩
  rw [hr]
  refine h.expiry_attends hl ht (by simp [ExpiryLine.worksOn]) (fun _ hu ↦ hu.symm) (hb.log rfl rfl)
    (fun e' ↦ ⟨rfl, rfl, rfl, rfl, congrFun hsame.taskTail e',
      fun _ _ ↦ hsame.word0 _ (by simp) (by simp)⟩)
    (fun u hu ↦ ⟨rfl, ?_, by simp [hu], ?_, hmsg u, hex u, fun _ ↦ congrFun hsame.word2 _⟩)
    hsame.tailTask (fun a ha ↦ ?_) (ht.placeOk h ht.serve (hex t) (congrFun hsame.word2 _))
    ⟨e, d, hd, ht.serve, ht.place, by simp [ht.past], Books.timed_filter.trans (by simp)⟩
  · exact Books.timed_filter.trans (and_iff_right hu)
  · rw [hctl]
    simp [hu]
  · rw [Ledger.setDelays_serve, ht.serve] at ha
    exact ⟨(Stage.taken.inj ha).symm, rfl⟩

/-- `delay_task->message = &time_out_message`. -/
theorem Inv.expiry_message (h : Inv x g r) (hl : x.expiry = .message t) :
    x.Proceeds .expiry fun x' ↦ ∃ g', Inv x' g' (r.after x .expiry) := by
  have hr : r.after x .expiry = r.attend t (.given .timeOut) := by
    simp [Log.after, begins, service, accepted, handed, hl]
  have hx := h.expiry
  rw [hl] at hx
  obtain ⟨e, d, hd, ht⟩ := hx
  refine .expiry_line (x.s.ctl (·.setMessage t (.msg .timeOut))) (.post t)
    (by simp [hl, expiryStep]) ⟨g, ?_⟩
  rw [hr]
  refine h.expiry_attends hl ht (by simp [ExpiryLine.worksOn]) (fun _ hu ↦ hu.symm)
    (Books.log (h.books.congr rfl rfl rfl rfl rfl (fun _ _ he ↦ he) fun _ _ ↦ rfl) rfl rfl)
    (fun _ ↦ ⟨rfl, rfl, rfl, rfl, rfl, fun _ _ ↦ rfl⟩)
    (fun u hu ↦ ⟨rfl, .rfl, by simp [hu], rfl, by simp [hu], rfl, fun _ ↦ rfl⟩) rfl (fun a ha ↦ ?_)
    (ht.placeOk h ht.serve rfl rfl)
    ⟨e, d, hd, ⟨ht.serve, ht.place, by simp [ht.past, timeOutServices], ht.timed⟩, by simp⟩
  rw [ht.serve] at ha
  exact ⟨(Stage.taken.inj ha).symm, rfl⟩

/-- `sem_post(&delay_task->sema)`. -/
theorem Inv.expiry_post (h : Inv x g r) (hl : x.expiry = .post t) :
    x.Proceeds .expiry fun x' ↦ ∃ g', Inv x' g' (r.after x .expiry) := by
  have hr : r.after x .expiry = r.attend t .posted := by
    simp [Log.after, begins, service, accepted, handed, hl]
  have hx := h.expiry
  rw [hl] at hx
  obtain ⟨e, d, hd, ht, hm⟩ := hx
  obtain ⟨hex, hlk⟩ := ht.asleep h
  refine .expiry_line (x.s.ctl (·.semPost t)) .first (by simp [hl, expiryStep])
    ⟨g.setServe t .posted, ?_⟩
  rw [hr]
  refine h.expiry_attends hl ht (by simp [ExpiryLine.worksOn]) (fun _ hu ↦ hu.symm)
    ((h.books.post ht.serve ht.timed.mp).log rfl rfl)
    (fun _ ↦ ⟨rfl, rfl, rfl, rfl, rfl, fun _ _ ↦ rfl⟩)
    (fun u hu ↦ ⟨by simp [hu], .rfl, by simp [hu], rfl, rfl, rfl, fun _ ↦ rfl⟩) rfl (by simp)
    ?_ trivial
  rw [ht.place]
  refine ⟨hex, ?_⟩
  simp only [Ledger.setServe_serve, Function.update_self]
  exact ⟨hlk, .timeOut, hm, .inr ⟨rfl, hd, by simp [ht.past]⟩⟩

/-- Every line of the delay task. -/
theorem Inv.expiry_turn (h : Inv x g r) (ho : x.Orderly .expiry) :
    x.Proceeds .expiry fun x' ↦ ∃ g', Inv x' g' (r.after x .expiry) := by
  cases hl : x.expiry with
  | idle => exact h.expiry_idle hl
  | first => exact h.expiry_first ho hl
  | search => exact h.expiry_search hl
  | readLink => exact h.expiry_readLink hl
  | writeLink => exact h.expiry_writeLink hl
  | setTail => exact h.expiry_setTail hl
  | cancel => exact h.expiry_cancel hl
  | message => exact h.expiry_message hl
  | post => exact h.expiry_post hl

end YRmx.Traffic
