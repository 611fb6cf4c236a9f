import YRmx.Race.Sends

/-!
# The lines of `reqwait` and `reqacpt`

Library `YRmx`. A caller takes the first message, or joins the queue of tasks and falls asleep
until somebody has attended to it.
-/

namespace YRmx.Traffic

open Intrusive Transition

variable {x : Traffic} {g : Ledger} {r : Log} {t : TaskId} {e : ExchId} {m : MsgId}
  {d : BitVec 16} {p' : Place}

/-! ### Mutexes -/

/-- A caller locks the mutex of its exchange. -/
theorem Inv.locks (h : Inv x g r) (ho : x.Orderly (.line t)) (p' : Place)
    (hp : (x.place t).locks e) (hat : ∀ e', (x.place t).exch = some e' → e' = e)
    (hrun : ∀ n, placeStep n x.free x.s t (x.place t) = (do
      require (x.s.mutex e = false)
      .ok ({ x.s with mutex := Function.update x.s.mutex e true }, p')))
    (hs : g.serve t = .idle) (hr : r.after x (.line t) = r) (hh : p'.holds e)
    (hown : Locked (x.go t { x.s with mutex := Function.update x.s.mutex e true } p')
        (g.setHold e (some (.thread t))) t e [] → Complete x g e →
      PlaceOk (x.go t { x.s with mutex := Function.update x.s.mutex e true } p')
        (g.setHold e (some (.thread t))) r t p') :
    x.Proceeds (.line t) fun x' ↦ ∃ g', Inv x' g' (r.after x (.line t)) := by
  by_cases hm : x.s.mutex e = false
  case neg => exact .waits fun n ↦ by simp [hrun, require, hm]
  have h0 := h.unheld hm (ho.1 e hp)
  obtain ⟨htail, hc⟩ := h.books.free h0
  have hnot : ∀ e d, x.place t ≠ .asleep e d := fun e d he ↦ by simp [he, Place.locks] at hp
  have hsv : ∀ u, ¬ (x.place t).serves u := by
    intro u hu
    cases hpl : x.place t with
    | send e m l =>
      rw [hpl] at hp hu
      cases l with
      | lock => exact hu
      | _ => exact hp
    | _ => rw [hpl] at hu; exact hu
  refine .line { x.s with mutex := Function.update x.s.mutex e true } p'
    (fun n ↦ by simp [hrun, require, hm]) ⟨g.setHold e (some (.thread t)), ?_⟩
  rw [hr]
  refine h.goes hnot e hat hsv (h.books.lock t) (by simp [hs]) (.inr ⟨.inl h0, by simp⟩)
    (fun e' he ↦ ⟨by simp [he], rfl, rfl, rfl, rfl, fun _ _ ↦ rfl⟩)
    (fun u _ ↦ ⟨rfl, .rfl, rfl, rfl, rfl, rfl, fun _ ↦ rfl⟩) (fun _ ↦ hh) (.inl rfl)
    (hown ⟨by simp, hc, by simp⟩ htail)

/-- A caller unlocks the mutex of its exchange and goes on. -/
theorem Inv.unlocks (h : Inv x g r) (hl : Locked x g t e []) (hc : Complete x g e)
    (hnot : ∀ e d, x.place t ≠ .asleep e d) (hat : ∀ e', (x.place t).exch = some e' → e' = e)
    (hsv : ∀ u, ¬ (x.place t).serves u) (pc : TaskId → Pc) (z : Bool)
    (hown : PlaceOk (x.go t { x.s with
        mutex := Function.update x.s.mutex e false
        pc := pc
        rqfrozen := z } p') (g.setHold e none) r t p') :
    Inv (x.go t { x.s with
        mutex := Function.update x.s.mutex e false
        pc := pc
        rqfrozen := z } p') (g.setHold e none) r := by
  refine h.goes hnot e hat hsv ?_ (h.up hnot).1 (.inr ⟨.inr hl.hold, by simp⟩)
    (fun e' he ↦ ⟨by simp [he], rfl, rfl, rfl, rfl, fun _ _ ↦ rfl⟩)
    (fun u _ ↦ ⟨rfl, .rfl, rfl, rfl, rfl, rfl, fun _ ↦ rfl⟩) (by simp) (.inl rfl) hown
  exact (h.books.unlock hc hl.carried).congr rfl rfl rfl rfl rfl (fun _ _ he ↦ he) fun _ _ ↦ rfl

/-- How `reqwait` leaves its last part. -/
theorem waitDone_eq (c : Control) (t : TaskId) (e : ExchId) (d : BitVec 16) :
    ∃ p z, c.waitDone t e d = ({ c with rqfrozen := z } : Control).goto t p := by
  rcases Board.waitDone_cases c t e d with ⟨-, h⟩ | ⟨-, p, z, h, -⟩
  · exact ⟨_, c.rqfrozen, h⟩
  · exact ⟨p, z, h⟩

/-! ### Messages -/

/-- `reqdqmsg` in `reqwait` or `reqacpt`. -/
theorem Inv.fetches (h : Inv x g r) (hl : Locked x g t e []) (hc : Complete x g e)
    (hm : g.mq e ≠ []) (hs : g.serve t = .idle) (hat : ∀ e', (x.place t).exch = some e' → e' = e)
    (hnot : ∀ e d, x.place t ≠ .asleep e d) (hsv : ∀ u, ¬ (x.place t).serves u) (p' : Place)
    (hrun : ∀ n, placeStep n x.free x.s t (x.place t) = (do
      let s ← reqdqmsg x.s e t
      .ok (s, p')))
    (hr : ∀ m, x.s.messageHead e = .msg m → r.after x (.line t) = r.hand e (m, t))
    (hh : p'.holds e)
    (hown : ∀ m ms s', Locked (x.go t s' p') (g.setMessages e ms) t e [] →
      Complete (x.go t s' p') (g.setMessages e ms) e → s'.message t = .msg m →
      PlaceOk (x.go t s' p') (g.setMessages e ms) (r.hand e (m, t)) t p') :
    x.Proceeds (.line t) fun x' ↦ ∃ g', Inv x' g' (r.after x (.line t)) := by
  obtain ⟨m, ms, hq⟩ := List.exists_cons_of_ne_nil hm
  obtain ⟨s', hs', hctl, h2, htail, hlink, hb⟩ := h.books.fetch hq hl.carried hc t
  refine .line s' p' (fun n ↦ by rw [hrun, hs']; rfl) ⟨g.setMessages e ms, ?_⟩
  rw [hr m (h.books.messageHead hq)]
  refine h.goes hnot e hat hsv hb (by simp [hs]) (.inr ⟨.inr hl.hold, .inr hl.hold⟩)
    (fun e' he ↦ ?_) (fun u hu ↦ ?_) (fun _ ↦ hh) (.inl (reqdqmsg_words hs').2.2.1)
    (hown m ms s' ⟨hl.hold, hl.carried, by simp⟩ ((congrFun htail e).trans hc) ?_)
  · refine ⟨rfl, rfl, by simp [he], rfl, congrFun htail e', fun m' hm' ↦ hlink m' fun hx ↦ he ?_⟩
    exact h.books.pile_disjoint (List.mem_append_right _ hm') hx
  · refine ⟨rfl, .rfl, rfl, ?_, ?_, ?_, fun _ ↦ congrFun h2 _⟩ <;> rw [hctl]
    · rfl
    · simp [hu]
    · rfl
  · rw [hctl]
    simp

/-! ### `reqacpt` -/

/-- Every line of `reqacpt`. -/
theorem Inv.acpt_line (h : Inv x g r) (ho : x.Orderly (.line t)) {l : AcptLine}
    (hp : x.place t = .acpt e l) :
    x.Proceeds (.line t) fun x' ↦ ∃ g', Inv x' g' (r.after x (.line t)) := by
  have ht := h.thread t
  rw [hp] at ht
  obtain ⟨ht, hl⟩ := ht
  have hnot : ∀ e d, x.place t ≠ .asleep e d := by simp [hp]
  have hat : ∀ e', (x.place t).exch = some e' → e' = e := by simp [hp, Place.exch]
  have hsv : ∀ u, ¬ (x.place t).serves u := by simp [hp, Place.serves]
  cases l with
  | lock =>
    exact h.locks ho (.acpt e .enter) (by simp [hp, Place.locks]) hat (fun n ↦ by rw [hp]; rfl) ht
      (by simp [Log.after, begins, service, accepted, handed, hp]) (by simp [Place.holds])
      fun hl hc ↦ ⟨ht, hl, hc⟩
  | enter =>
    obtain ⟨hl, hc⟩ := hl
    have hr : r.after x (.line t) = r := by
      simp [Log.after, begins, service, accepted, handed, hp]
    refine .line (x.s.ctl fun c ↦ (c.setExchange t (.exch e)).setMessage t .null)
      (.acpt e (if x.s.messageHead e ≠ .null then .fetch else .release))
      (fun n ↦ by rw [hp]; rfl) ⟨g, ?_⟩
    rw [hr]
    refine h.goes hnot e hat hsv
      (h.books.congr rfl rfl rfl rfl rfl (fun _ _ he ↦ he) fun _ _ ↦ rfl) (by simp [ht])
      (.inr ⟨.inr hl.hold, .inr hl.hold⟩) (fun _ _ ↦ ⟨rfl, rfl, rfl, rfl, rfl, fun _ _ ↦ rfl⟩)
      (fun u hu ↦ ⟨rfl, .rfl, rfl, rfl, by simp [hu], by simp [hu], fun _ ↦ rfl⟩)
      (fun _ ↦ ⟨rfl, by split <;> simp⟩) (.inl rfl) ⟨ht, ?_⟩
    by_cases hm : x.s.messageHead e ≠ .null
    · rw [if_pos hm]
      exact ⟨⟨hl.hold, hl.carried, hl.accepts⟩, hc, mt h.books.messageHead_null_iff.mpr hm⟩
    · rw [if_neg hm]
      exact ⟨⟨hl.hold, hl.carried, hl.accepts⟩, hc⟩
  | fetch =>
    obtain ⟨hl, hc, hm⟩ := hl
    exact h.fetches hl hc hm ht hat hnot hsv (.acpt e .release) (fun n ↦ by rw [hp]; rfl)
      (fun m hm ↦ by simp [Log.after, begins, service, accepted, handed, hp, hm])
      (by simp [Place.holds]) fun _ _ _ hl' hc' _ ↦ ⟨ht, hl', hc'⟩
  | release =>
    obtain ⟨hl, hc⟩ := hl
    refine .line ({ x.s with mutex := Function.update x.s.mutex e false }.ctl
      (·.goto t (.exitRegion (.reqacpt e)))) .out (fun n ↦ by rw [hp]; rfl) ⟨g.setHold e none, ?_⟩
    have hr : r.after x (.line t) = r := by
      simp [Log.after, begins, service, accepted, handed, hp]
    rw [hr]
    exact h.unlocks hl hc hnot hat hsv _ x.s.rqfrozen ht

/-! ### `reqwait` up to `sem_wait` -/

/-- A line of `reqwait` that stays in the critical section. -/
theorem Proceeds.wait {P : Traffic → Prop} {l : Line} (s' : Nucleus) (l' : Line)
    (hp : x.place t = .wait e d l) (hl : l ≠ .delay ∧ l ≠ .unlock ∧ l ≠ .release)
    (h : ∀ n, lineStep n x.s ⟨t, e, d⟩ l = .ok (s', l')) (hP : P (x.go t s' (.wait e d l'))) :
    x.Proceeds (.line t) P := by
  obtain ⟨h1, h2, h3⟩ := hl
  refine .line s' (.wait e d l') (fun n ↦ ?_) hP
  rw [hp]
  simp only [placeStep, waitStep, h1, false_implies, require, if_true, h n, Exec.ok_bind]

/-- The line of `reqwait` behind its locking of the mutex. -/
theorem Inv.wait_goes (h : Inv x g r) {l l' : Line} {s' : Nucleus} {g' : Ledger} {r' : Log}
    (hp : x.place t = .wait e d l) (hl : g.hold e = some (.thread t)) (hb : Books s' g' r')
    (hu : ∀ a, g'.serve t ≠ .taken a) (hh : g'.hold e = g.hold e)
    (hE : ∀ e' ≠ e, SameExch x.s s' g g' e') (hT : ∀ u ≠ t, SameTask x.s s' g g' r r' u)
    (hl' : l' ≠ .lock ∧ l' ≠ .done)
    (hW : s'.tailTask = x.s.tailTask ∨ ∀ u e d, u ≠ t → x.place u ≠ .wait e d .writeLink)
    (hown : WaitOk (x.go t s' (.wait e d l')) g' r' t e d l') :
    Inv (x.go t s' (.wait e d l')) g' r' :=
  h.goes (by simp [hp]) e (by simp [hp, Place.exch]) (by simp [hp, Place.serves]) hb hu
    (.inr ⟨.inr hl, .inr (hh.trans hl)⟩) hE hT (fun _ ↦ ⟨rfl, hl'⟩) hW hown

/-- `rqactv->exchange = exch` and the test of `message_head`. -/
theorem Inv.wait_enter (h : Inv x g r) (hp : x.place t = .wait e d .enter) :
    x.Proceeds (.line t) fun x' ↦ ∃ g', Inv x' g' (r.after x (.line t)) := by
  have ht := h.thread t
  rw [hp] at ht
  obtain ⟨ht, hl, hc⟩ := ht
  have hr : r.after x (.line t) = r := by
    simp [Log.after, begins, service, accepted, handed, hp]
  refine .wait (x.s.ctl (·.setExchange t (.exch e)))
    (if x.s.messageHead e = .null then .clear else .fetch) hp (by simp) (fun _ ↦ rfl) ⟨g, ?_⟩
  rw [hr]
  refine h.wait_goes hp hl.hold
    (h.books.congr rfl rfl rfl rfl rfl (fun _ _ he ↦ he) fun _ _ ↦ rfl) (by simp [ht]) rfl
    (fun _ _ ↦ ⟨rfl, rfl, rfl, rfl, rfl, fun _ _ ↦ rfl⟩)
    (fun u hu ↦ ⟨rfl, .rfl, rfl, rfl, rfl, by simp [hu], fun _ ↦ rfl⟩)
    (by split <;> simp) (.inl rfl) ?_
  by_cases hm : x.s.messageHead e = .null
  · rw [if_pos hm]
    exact ⟨ht, ⟨hl.hold, hl.carried, hl.accepts⟩, hc, h.books.messageHead_null_iff.mp hm, by simp⟩
  · rw [if_neg hm]
    exact ⟨ht, ⟨hl.hold, hl.carried, hl.accepts⟩, hc, mt h.books.messageHead_null_iff.mpr hm⟩

/-- `rqactv->link = NULL`. -/
theorem Inv.wait_clear (h : Inv x g r) (hp : x.place t = .wait e d .clear) :
    x.Proceeds (.line t) fun x' ↦ ∃ g', Inv x' g' (r.after x (.line t)) := by
  have ht := h.thread t
  rw [hp] at ht
  obtain ⟨ht, hl, hc, hm, hx⟩ := ht
  have hr : r.after x (.line t) = r.begin t := by
    simp [Log.after, begins, service, accepted, handed, hp]
  refine .wait { x.s with word2 := Function.update x.s.word2 (.task t) .null } .test hp (by simp)
    (fun _ ↦ rfl) ⟨g, ?_⟩
  rw [hr]
  exact h.wait_goes hp hl.hold ((h.books.clear (by simp [ht])).log rfl rfl) (by simp [ht]) rfl
    (fun _ _ ↦ ⟨rfl, rfl, rfl, rfl, rfl, fun _ _ ↦ rfl⟩)
    (fun u hu ↦ ⟨rfl, .rfl, by simp [hu], rfl, rfl, rfl, fun _ ↦ by simp [hu]⟩) (by simp)
    (.inl rfl) ⟨ht, ⟨hl.hold, hl.carried, hl.accepts⟩, hc, hm, hx, by simp, by simp⟩

/-- The test of `task_head`. -/
theorem Inv.wait_test (h : Inv x g r) (hp : x.place t = .wait e d .test) :
    x.Proceeds (.line t) fun x' ↦ ∃ g', Inv x' g' (r.after x (.line t)) := by
  have ht := h.thread t
  rw [hp] at ht
  have ht : Joins x g r t e := ht
  have hr : r.after x (.line t) = r := by
    simp [Log.after, begins, service, accepted, handed, hp]
  refine .wait x.s (if x.s.taskHead e = .null then .setHead else .readTail) hp (by simp)
    (fun _ ↦ rfl) ⟨g, ?_⟩
  rw [hr]
  refine h.wait_goes hp ht.locked.hold h.books (by simp [ht.serve]) rfl
    (fun _ _ ↦ ⟨rfl, rfl, rfl, rfl, rfl, fun _ _ ↦ rfl⟩)
    (fun _ _ ↦ ⟨rfl, .rfl, rfl, rfl, rfl, rfl, fun _ ↦ rfl⟩) (by split <;> simp) (.inl rfl) ?_
  have hj : ∀ p, Joins (x.go t x.s p) g r t e := fun p ↦
    ht.frame ⟨rfl, .rfl, rfl, rfl, rfl, rfl, fun _ ↦ rfl⟩
      fun _ ↦ ⟨rfl, rfl, rfl, rfl, rfl, fun _ _ ↦ rfl⟩
  by_cases hm : x.s.taskHead e = .null
  · rw [if_pos hm]
    exact ⟨hj _, h.books.taskHead_null_iff.mp hm⟩
  · rw [if_neg hm]
    exact hj _

/-- The caller is linked behind the last task. -/
theorem Inv.wait_enqueue (h : Inv x g r) {l : Line} (hp : x.place t = .wait e d l)
    (ht : Joins x g r t e) :
    Inv (x.go t { x.s with
        word2 := Function.update x.s.word2 (lastOf e (g.tq e)) (.task t) } (.wait e d .setTail))
      ((g.setTasks e (g.tq e ++ [t])).setServe t (.queued e)) r := by
  refine h.wait_goes hp ht.locked.hold
    (h.books.enqueue (by simp [ht.locked.hold]) ht.mq ht.serve ht.link) (by simp) rfl
    (fun e' he ↦ ⟨rfl, by simp [he], rfl, rfl, rfl, fun _ _ ↦ rfl⟩)
    (fun u hu ↦ ⟨by simp [hu], .rfl, rfl, rfl, rfl, rfl, fun hq ↦ ?_⟩) (by simp) (.inl rfl)
    ⟨⟨by simp, ⟨ht.locked.hold, ht.locked.carried, by simp⟩, ht.exchange, ht.past⟩, fun hx ↦ ?_, ?_⟩
  · refine Function.update_of_ne (fun hx ↦ ?_) _ _
    have hm : lastOf e (g.tq e) ∈ Addr.exch e :: (g.tq e).map .task := List.getLastD_mem_cons
    rw [← hx] at hm
    exact hq e (h.books.mem_iff.mp (by simpa using hm))
  · exact (h.books.timed hx).1 ht.serve
  · simp [lastOf]

/-- `exch->task_head = rqactv`. -/
theorem Inv.wait_setHead (h : Inv x g r) (hp : x.place t = .wait e d .setHead) :
    x.Proceeds (.line t) fun x' ↦ ∃ g', Inv x' g' (r.after x (.line t)) := by
  have ht := h.thread t
  rw [hp] at ht
  obtain ⟨ht, hq⟩ := ht
  have hr : r.after x (.line t) = r := by
    simp [Log.after, begins, service, accepted, handed, hp]
  refine .wait _ .setTail hp (by simp) (fun _ ↦ ?_) ⟨_, hr ▸ h.wait_enqueue hp ht⟩
  rw [hq]
  rfl

/-- `tail_task = exch->task_tail`: nobody else is about to use `tail_task`. -/
theorem Inv.wait_readTail (h : Inv x g r) (ho : x.Orderly (.line t))
    (hp : x.place t = .wait e d .readTail) :
    x.Proceeds (.line t) fun x' ↦ ∃ g', Inv x' g' (r.after x (.line t)) := by
  have ht := h.thread t
  rw [hp] at ht
  have ht : Joins x g r t e := ht
  have hr : r.after x (.line t) = r := by
    simp [Log.after, begins, service, accepted, handed, hp]
  refine .wait { x.s with tailTask := x.s.taskTail e } .writeLink hp (by simp) (fun _ ↦ rfl) ⟨g, ?_⟩
  rw [hr]
  exact h.wait_goes hp ht.locked.hold
    (h.books.congr rfl rfl rfl rfl rfl (fun _ _ he ↦ he) fun _ _ ↦ rfl) (by simp [ht.serve]) rfl
    (fun _ _ ↦ ⟨rfl, rfl, rfl, rfl, rfl, fun _ _ ↦ rfl⟩)
    (fun _ _ ↦ ⟨rfl, .rfl, rfl, rfl, rfl, rfl, fun _ ↦ rfl⟩) (by simp)
    (.inr fun u e' d' _ ↦ ho.2.1 e d hp u e' d')
    ⟨ht.frame ⟨rfl, .rfl, rfl, rfl, rfl, rfl, fun _ ↦ rfl⟩
      fun _ ↦ ⟨rfl, rfl, rfl, rfl, rfl, fun _ _ ↦ rfl⟩, ht.complete⟩

/-- `tail_task->link = rqactv`. -/
theorem Inv.wait_writeLink (h : Inv x g r) (hp : x.place t = .wait e d .writeLink) :
    x.Proceeds (.line t) fun x' ↦ ∃ g', Inv x' g' (r.after x (.line t)) := by
  have ht := h.thread t
  rw [hp] at ht
  obtain ⟨ht, htt⟩ := ht
  have hr : r.after x (.line t) = r := by
    simp [Log.after, begins, service, accepted, handed, hp]
  refine .wait _ .setTail hp (by simp) (fun _ ↦ ?_) ⟨_, hr ▸ h.wait_enqueue hp ht⟩
  have hn : lastOf e (g.tq e) ≠ .null := (h.books.links e).tail_ne_null
  simp only [lineStep, htt, deref, if_neg hn, Exec.ok_bind]

/-- `exch->task_tail = rqactv`. -/
theorem Inv.wait_setTail (h : Inv x g r) (hp : x.place t = .wait e d .setTail) :
    x.Proceeds (.line t) fun x' ↦ ∃ g', Inv x' g' (r.after x (.line t)) := by
  have ht := h.thread t
  rw [hp] at ht
  obtain ⟨ht, hd, hlast⟩ := ht
  have hr : r.after x (.line t) = r := by
    simp [Log.after, begins, service, accepted, handed, hp]
  refine .wait { x.s with taskTail := Function.update x.s.taskTail e (.task t) } .check hp (by simp)
    (fun _ ↦ rfl) ⟨g, ?_⟩
  rw [hr]
  refine h.wait_goes hp ht.locked.hold
    (h.books.congr rfl rfl rfl rfl rfl (fun _ _ he ↦ he) fun e' he' ↦ ?_) (by simp [ht.serve]) rfl
    (fun e' he ↦ ⟨rfl, rfl, rfl, rfl, by simp [he], fun _ _ ↦ rfl⟩)
    (fun _ _ ↦ ⟨rfl, .rfl, rfl, rfl, rfl, rfl, fun _ ↦ rfl⟩) (by simp) (.inl rfl)
    ⟨⟨ht.serve, ⟨ht.locked.hold, ht.locked.carried, by simp⟩, ht.exchange, ht.past⟩, hd, ?_⟩
  · have hne : e' ≠ e := fun he ↦ by simp [he, ht.locked.hold] at he'
    exact Function.update_of_ne hne _ _
  · simp [Complete, hlast]

/-- The caller is not linked to itself. -/
theorem Inv.wait_check (h : Inv x g r) (hp : x.place t = .wait e d .check) :
    x.Proceeds (.line t) fun x' ↦ ∃ g', Inv x' g' (r.after x (.line t)) := by
  have ht := h.thread t
  rw [hp] at ht
  obtain ⟨ht, hd, hc⟩ := ht
  have hr : r.after x (.line t) = r := by
    simp [Log.after, begins, service, accepted, handed, hp]
  have hlink : x.s.link t ≠ .task t := h.books.link_ne (h.books.mem_iff.mpr ht.serve)
  refine .wait x.s .delay hp (by simp) (fun _ ↦ if_neg hlink) ⟨g, ?_⟩
  rw [hr]
  exact h.wait_goes hp ht.locked.hold h.books (by simp [ht.serve]) rfl
    (fun _ _ ↦ ⟨rfl, rfl, rfl, rfl, rfl, fun _ _ ↦ rfl⟩)
    (fun _ _ ↦ ⟨rfl, .rfl, rfl, rfl, rfl, rfl, fun _ ↦ rfl⟩) (by simp) (.inl rfl)
    ⟨⟨ht.serve, ⟨ht.locked.hold, ht.locked.carried, by simp⟩, ht.exchange, ht.past⟩, hd, hc⟩

/-- `ycore.c:1171–1191`. -/
theorem Inv.wait_delay (h : Inv x g r) (hp : x.place t = .wait e d .delay) :
    x.Proceeds (.line t) fun x' ↦ ∃ g', Inv x' g' (r.after x (.line t)) := by
  have ht := h.thread t
  rw [hp] at ht
  obtain ⟨ht, hd, hc⟩ := ht
  have hr : r.after x (.line t) = r := by
    simp [Log.after, begins, service, accepted, handed, hp]
  by_cases hf : d ≠ 0 → x.free = true
  case neg =>
    refine .waits fun n ↦ ?_
    rw [hp]
    simp only [placeStep, waitStep, require, true_implies, if_neg hf, Exec.error_bind]
  obtain ⟨s', hs', hctl, hsame, hb⟩ := h.books.startDelay hd ht.serve d
  have hstat : ∀ u, s'.status u = if u = t then limitStatus d else x.s.status u := by
    intro u
    rw [hctl]
    by_cases hu : u = t <;> simp [hu, limitStatus]
  obtain ⟨N, hN⟩ := hs'
  refine .yields s' (.wait e d .unlock) ⟨N, fun n hn ↦ ?_⟩
    ⟨g.setDelays (Books.delaysWith g.dl t d), ?_⟩
  · simp only [hp, placeStep, waitStep, lineStep, require, true_implies, if_pos hf, hN n hn,
      Exec.ok_bind]
  rw [hr]
  refine h.wait_goes hp ht.locked.hold hb (by simp [ht.serve]) rfl
    (fun e' _ ↦ ⟨rfl, rfl, rfl, rfl, congrFun hsame.taskTail e',
      fun m' _ ↦ hsame.word0 _ (by simp) (by simp)⟩)
    (fun u hu ↦ ⟨rfl, ?_, rfl, by simp [hstat, hu], by rw [hctl]; rfl, by rw [hctl]; rfl,
      fun _ ↦ congrFun hsame.word2 _⟩) (by simp) (.inl hsame.tailTask)
    ⟨⟨ht.serve, ⟨ht.locked.hold, ht.locked.carried, by simp⟩, ?_, ht.past⟩, ?_, ?_, ?_⟩
  · exact Books.timed_delaysWith.trans (or_iff_right fun hx ↦ hu hx.1)
  · exact (congrArg (Control.exchange · t) hctl).trans ht.exchange
  · exact (congrFun hsame.taskTail e).trans hc
  · simp [hstat]
  · exact Books.timed_delaysWith.trans ⟨fun hx ↦ (hx.resolve_right hd).2, fun hx ↦ .inl ⟨rfl, hx⟩⟩

/-- The mutex is unlocked, and the caller falls asleep. -/
theorem Inv.wait_unlock (h : Inv x g r) (hp : x.place t = .wait e d .unlock) :
    x.Proceeds (.line t) fun x' ↦ ∃ g', Inv x' g' (r.after x (.line t)) := by
  have ht := h.thread t
  rw [hp] at ht
  obtain ⟨ht, hc, hst, htm⟩ := ht
  have hr : r.after x (.line t) = r := by
    simp [Log.after, begins, service, accepted, handed, hp]
  refine .line ({ x.s with mutex := Function.update x.s.mutex e false }.ctl
      (·.goto t (.semWait e d))) (.asleep e d) (fun n ↦ ?_) ⟨g.setHold e none, ?_⟩
  · simp [hp, placeStep, waitStep, lineStep, require]
  rw [hr]
  refine h.unlocks ht.locked hc (by simp [hp]) (by simp [hp, Place.exch])
    (by simp [hp, Place.serves])
    _ x.s.rqfrozen ⟨ht.exchange, ?_⟩
  rw [Ledger.setHold_serve, ht.serve]
  exact ⟨rfl, hst, htm, ht.past⟩

/-- Every line of `reqwait` up to `sem_wait`. -/
theorem Inv.wait_line (h : Inv x g r) (ho : x.Orderly (.line t)) {l : Line}
    (hp : x.place t = .wait e d l) :
    x.Proceeds (.line t) fun x' ↦ ∃ g', Inv x' g' (r.after x (.line t)) := by
  have hnot : ∀ e d, x.place t ≠ .asleep e d := by simp [hp]
  have hat : ∀ e', (x.place t).exch = some e' → e' = e := by simp [hp, Place.exch]
  have hsv : ∀ u, ¬ (x.place t).serves u := by simp [hp, Place.serves]
  have ht := h.thread t
  rw [hp] at ht
  cases l with
  | lock =>
    exact h.locks ho (.wait e d .enter) (by simp [hp, Place.locks]) hat
      (fun n ↦ by simp [hp, placeStep, waitStep, lineStep, require])
      ht (by simp [Log.after, begins, service, accepted, handed, hp]) (by simp [Place.holds])
      fun hl hc ↦ ⟨ht, hl, hc⟩
  | enter => exact h.wait_enter hp
  | clear => exact h.wait_clear hp
  | test => exact h.wait_test hp
  | setHead => exact h.wait_setHead hp
  | readTail => exact h.wait_readTail ho hp
  | writeLink => exact h.wait_writeLink hp
  | setTail => exact h.wait_setTail hp
  | check => exact h.wait_check hp
  | delay => exact h.wait_delay hp
  | unlock => exact h.wait_unlock hp
  | fetch =>
    obtain ⟨ht, hl, hc, hm⟩ := ht
    exact h.fetches hl hc hm ht hat hnot hsv (.wait e d .release)
      (fun n ↦ by simp [hp, placeStep, waitStep, lineStep, require])
      (fun m hm ↦ by simp [Log.after, begins, service, accepted, handed, hp, hm])
      (by simp [Place.holds]) fun m _ _ hl' hc' hm' ↦ ⟨ht, hl', hc', m, hm'⟩
  | release =>
    obtain ⟨ht, hl, hc, -⟩ := ht
    obtain ⟨p, z, hw⟩ :=
      waitDone_eq { x.s.toControl with mutex := Function.update x.s.mutex e false } t e d
    refine .line ({ x.s with mutex := Function.update x.s.mutex e false }.ctl (·.waitDone t e d))
      .out (fun n ↦ by simp [hp, placeStep, waitStep, lineStep, require]) ⟨g.setHold e none, ?_⟩
    have hr : r.after x (.line t) = r := by
      simp [Log.after, begins, service, accepted, handed, hp]
    rw [hr]
    show Inv (x.go t { x.s with
      toControl := Control.waitDone
        { x.s.toControl with mutex := Function.update x.s.mutex e false } t e d } .out) _ r
    rw [hw]
    exact h.unlocks hl hc hnot hat hsv _ z ht
  | done => exact ht.elim

/-! ### `reqwait` from `sem_wait` on -/

/-- `sem_wait` returns to a task whose semaphore was posted. -/
theorem Inv.wait_asleep (h : Inv x g r) (hp : x.place t = .asleep e d) :
    x.Proceeds (.line t) fun x' ↦ ∃ g', Inv x' g' (r.after x (.line t)) := by
  have ht := h.thread t
  rw [hp] at ht
  obtain ⟨-, ht⟩ := ht
  have hsema := h.books.sema t
  by_cases hs : g.serve t = .posted
  case neg =>
    refine .waits fun n ↦ ?_
    simp [hp, placeStep, hsema, hs, require]
  rw [if_pos hs] at hsema
  rw [hs] at ht
  obtain ⟨hlk, m, hm, hserved⟩ := ht
  have hr : r.after x (.line t) = r := by
    simp [Log.after, begins, service, accepted, handed, hp]
  refine .line (x.s.ctl (·.semTake t)) (.relock e d)
    (fun n ↦ by simp [hp, placeStep, hsema, require]) ⟨g.setServe t .idle, ?_⟩
  rw [hr]
  refine h.moves (by simp [hs]) (by simp) (by simp [hs]) (h.books.take hs)
    (fun _ ↦ .inl ⟨rfl, rfl, rfl, rfl, rfl, fun _ _ ↦ rfl⟩)
    (fun u hu ↦ .inl ⟨by simp [hu], .rfl, rfl, rfl, rfl, rfl, fun _ ↦ rfl⟩) (fun e' he ↦ ?_)
    (fun u hu ↦ ?_) (.inl rfl) ⟨by simp, hlk, m, hm, hserved⟩
  · have hold : (x.place t).holds e' := h.held (a := .thread t) he
    rw [hp] at hold
    exact hold.elim
  · by_cases hut : u = t
    · simp [hut] at hu
    · rw [Ledger.setServe_serve, Function.update_of_ne hut] at hu
      have hold : (x.place t).serves u := h.taken (a := .thread t) hu
      rw [hp] at hold
      exact hold.elim

/-- `pthread_mutex_lock(&exch->mutex)` behind `sem_wait`. -/
theorem Inv.wait_relock (h : Inv x g r) (ho : x.Orderly (.line t)) (hp : x.place t = .relock e d) :
    x.Proceeds (.line t) fun x' ↦ ∃ g', Inv x' g' (r.after x (.line t)) := by
  have ht := h.thread t
  rw [hp] at ht
  have ht : Awake x g r t d := ht
  exact h.locks ho (.wake e d) (by simp [hp, Place.locks]) (by simp [hp, Place.exch])
    (fun n ↦ by rw [hp]; rfl) ht.serve (by simp [Log.after, begins, service, accepted, handed, hp])
    (by simp [Place.holds]) fun hl hc ↦
      ⟨ht.frame ⟨rfl, .rfl, rfl, rfl, rfl, rfl, fun _ ↦ rfl⟩, hl, hc⟩

/-- `rqactv->status = 0`, and the caller is not linked to itself. -/
theorem Inv.wait_wake (h : Inv x g r) (hp : x.place t = .wake e d) :
    x.Proceeds (.line t) fun x' ↦ ∃ g', Inv x' g' (r.after x (.line t)) := by
  have ht := h.thread t
  rw [hp] at ht
  obtain ⟨ht, hl, hc⟩ := ht
  have hr : r.after x (.line t) = r := by
    simp [Log.after, begins, service, accepted, handed, hp]
  refine .line (x.s.ctl (·.setStatus t 0)) (.leave e d) (fun n ↦ ?_) ⟨g, ?_⟩
  · rw [hp]
    exact if_neg ht.link
  rw [hr]
  exact h.goes (by simp [hp]) e (by simp [hp, Place.exch]) (by simp [hp, Place.serves])
    (h.books.congr rfl rfl rfl rfl rfl (fun _ _ he ↦ he) fun _ _ ↦ rfl) (by simp [ht.serve])
    (.inr ⟨.inr hl.hold, .inr hl.hold⟩) (fun _ _ ↦ ⟨rfl, rfl, rfl, rfl, rfl, fun _ _ ↦ rfl⟩)
    (fun u hu ↦ ⟨rfl, .rfl, rfl, by simp [hu], rfl, rfl, fun _ ↦ rfl⟩)
    (fun _ ↦ rfl) (.inl rfl) ⟨⟨ht.serve, ht.link, ht.served⟩, ⟨hl.hold, hl.carried, by simp⟩, hc⟩

/-- The mutex is unlocked, and the call comes to its end. -/
theorem Inv.wait_leave (h : Inv x g r) (hp : x.place t = .leave e d) :
    x.Proceeds (.line t) fun x' ↦ ∃ g', Inv x' g' (r.after x (.line t)) := by
  have ht := h.thread t
  rw [hp] at ht
  obtain ⟨ht, hl, hc⟩ := ht
  have hr : r.after x (.line t) = r := by
    simp [Log.after, begins, service, accepted, handed, hp]
  obtain ⟨p, z, hw⟩ :=
    waitDone_eq { x.s.toControl with mutex := Function.update x.s.mutex e false } t e d
  refine .line ({ x.s with mutex := Function.update x.s.mutex e false }.ctl (·.waitDone t e d)) .out
    (fun n ↦ by rw [hp]; rfl) ⟨g.setHold e none, ?_⟩
  rw [hr]
  show Inv (x.go t { x.s with
    toControl := Control.waitDone
      { x.s.toControl with mutex := Function.update x.s.mutex e false } t e d } .out) _ r
  rw [hw]
  exact h.unlocks hl hc (by simp [hp]) (by simp [hp, Place.exch]) (by simp [hp, Place.serves]) _ z
    ht.serve

/-- Every line of a thread. -/
theorem Inv.line (h : Inv x g r) (ho : x.Orderly (.line t)) :
    x.Proceeds (.line t) fun x' ↦ ∃ g', Inv x' g' (r.after x (.line t)) := by
  cases hp : x.place t with
  | out => exact .waits fun n ↦ by rw [hp]; rfl
  | send e m l => exact h.send_line ho hp
  | acpt e l => exact h.acpt_line ho hp
  | wait e d l => exact h.wait_line ho hp
  | asleep e d => exact h.wait_asleep hp
  | relock e d => exact h.wait_relock ho hp
  | wake e d => exact h.wait_wake hp
  | leave e d => exact h.wait_leave hp

end YRmx.Traffic
