import YRmx.Race.Books

/-!
# What holds at each line

Library `YRmx`. At each line of a call its thread can rely on something about its exchange and
about the task that it attends to, and so can the delay task in its loop. Nobody else touches
either as long as the exchange is held and the task is taken.
-/

namespace YRmx

open Transition

/-! ### Where the agents stand -/

/-- The exchange of the call that the thread is in. -/
def Place.exch : Place → Option ExchId
  | .out => none
  | .send e .. | .acpt e _ | .wait e .. | .asleep e _ | .relock e _ | .wake e _ | .leave e _ =>
    some e

/-- The thread has locked `exch->mutex`. -/
def Place.holds (e : ExchId) : Place → Prop
  | .send e' _ l => e' = e ∧ l ≠ .lock ∧ ∀ t, l ≠ .post t
  | .acpt e' l => e' = e ∧ l ≠ .lock
  | .wait e' _ l => e' = e ∧ l ≠ .lock ∧ l ≠ .done
  | .wake e' _ | .leave e' _ => e' = e
  | _ => False

/-- A thread holds at most the mutex of its exchange. -/
theorem Place.holds.exch {e : ExchId} {p : Place} (h : p.holds e) : p.exch = some e := by
  cases p with
  | out | asleep | relock => exact h.elim
  | send | acpt | wait => exact congrArg some h.1
  | wake | leave => exact congrArg some h

/-- The sender has unlinked the task and not yet posted its semaphore. -/
def Place.serves (t : TaskId) : Place → Prop
  | .send _ _ (.setTail u) | .send _ _ (.give u) | .send _ _ (.status u) | .send _ _ (.test u)
  | .send _ _ (.cancel u) | .send _ _ (.unlock u) | .send _ _ (.post u) => u = t
  | _ => False

/-- The delay task works on the task queue of the exchange. -/
def ExpiryLine.worksOn (e : ExchId) : ExpiryLine → Prop
  | .search _ e' _ | .readLink _ e' _ | .writeLink _ e' .. | .setTail _ e' _ => e' = e
  | _ => False

/-- The delay task has unlinked the task and not yet posted its semaphore. -/
def ExpiryLine.serves (t : TaskId) : ExpiryLine → Prop
  | .setTail u .. | .cancel u | .message u | .post u => u = t
  | _ => False

namespace Traffic

/-- An agent works on the queues of an exchange. -/
def Agent.holds (x : Traffic) (e : ExchId) : Agent → Prop
  | .thread t => (x.place t).holds e
  | .delayTask => x.expiry.worksOn e

/-- An agent attends to a task. -/
def Agent.serves (x : Traffic) (t : TaskId) : Agent → Prop
  | .thread u => (x.place u).serves t
  | .delayTask => x.expiry.serves t

/-! ### Waits -/

/-- The status byte of a task that waits with a limit, or without one. -/
def limitStatus (d : BitVec 16) : BitVec 8 := if d ≠ 0 then delayed else waiting

/-- What a sender does for a task before it posts the semaphore. -/
def sendServices (m : MsgId) (d : BitVec 16) : List Service :=
  .unlinked :: .given m :: if d ≠ 0 then [.undelayed] else []

/-- What the delay task does for a task before it posts the semaphore. -/
def timeOutServices : List Service := [.unlinked, .undelayed, .given .timeOut]

/-- A wait that came to its end with a message: everything was done once. -/
def Served (d : BitVec 16) (m : MsgId) (l : List Service) : Prop :=
  m ≠ .timeOut ∧ l = sendServices m d ++ [.posted] ∨
    m = .timeOut ∧ d ≠ 0 ∧ l = timeOutServices ++ [.posted]

section

variable (x : Traffic) (g : Ledger) (r : Log)

/-- The tail pointer of a queue of tasks is up to date. -/
def Complete (e : ExchId) : Prop := x.s.taskTail e = lastOf e (g.tq e)

/-- The thread has locked the exchange, and is on its way with these messages of its own. -/
structure Locked (t : TaskId) (e : ExchId) (ms : List MsgId) : Prop where
  hold : g.hold e = some (.thread t)
  carried : g.carried e = ms
  accepts : ∀ m ∈ ms, accepts x.s t m

/-- An agent has taken the task from the exchange, and has done so much for it. -/
structure Taken (a : Agent) (t : TaskId) (e : ExchId) (d : BitVec 16) (l : List Service)
    (timed : Prop) : Prop where
  serve : g.serve t = .taken a
  place : x.place t = .asleep e d
  past : r.past t = l
  timed : g.Timed t ↔ timed

/-- At a line of `reqsend`. -/
def SendOk (t : TaskId) (e : ExchId) (m : MsgId) : SendLine → Prop
  | .lock => True
  | .head => Locked x g t e [m] ∧ Complete x g e
  | .tail | .append => Locked x g t e [m] ∧ Complete x g e ∧ g.tq e = []
  | .busy => Locked x g t e [m] ∧ Complete x g e ∧ g.tq e ≠ []
  | .readLink u => Locked x g t e [m] ∧ Complete x g e ∧ ∃ ts, g.tq e = u :: ts
  | .setHead u p => Locked x g t e [m] ∧ Complete x g e ∧ ∃ ts, g.tq e = u :: ts ∧ p = firstOf ts
  | .setTail u => Locked x g t e [m] ∧ g.tq e = [] ∧ g.mq e = [] ∧
      ∃ d, Taken x g r (.thread t) u e d [.unlinked] (d ≠ 0) ∧ x.s.status u = limitStatus d
  | .give u => Locked x g t e [m] ∧ Complete x g e ∧ g.mq e = [] ∧
      ∃ d, Taken x g r (.thread t) u e d [.unlinked] (d ≠ 0) ∧ x.s.status u = limitStatus d
  | .status u => Locked x g t e [] ∧ Complete x g e ∧ m ≠ .timeOut ∧
      ∃ d, Taken x g r (.thread t) u e d [.unlinked, .given m] (d ≠ 0) ∧
        x.s.status u = limitStatus d ∧ x.s.message u = .msg m
  | .test u => Locked x g t e [] ∧ Complete x g e ∧ m ≠ .timeOut ∧
      ∃ d, Taken x g r (.thread t) u e d [.unlinked, .given m] (d ≠ 0) ∧
        x.s.status u = (if d ≠ 0 then delayed else 0) ∧ x.s.message u = .msg m
  | .cancel u => Locked x g t e [] ∧ Complete x g e ∧ m ≠ .timeOut ∧
      ∃ d ≠ 0, Taken x g r (.thread t) u e d [.unlinked, .given m] True ∧ x.s.message u = .msg m
  | .unlock u => Locked x g t e [] ∧ Complete x g e ∧ m ≠ .timeOut ∧
      ∃ d, Taken x g r (.thread t) u e d (sendServices m d) False ∧ x.s.message u = .msg m
  | .post u => m ≠ .timeOut ∧
      ∃ d, Taken x g r (.thread t) u e d (sendServices m d) False ∧ x.s.message u = .msg m

/-- At a line of `reqacpt`. -/
def AcptOk (t : TaskId) (e : ExchId) : AcptLine → Prop
  | .lock => True
  | .enter | .release => Locked x g t e [] ∧ Complete x g e
  | .fetch => Locked x g t e [] ∧ Complete x g e ∧ g.mq e ≠ []

/-- The caller of `reqwait` finds no message and is about to join the queue. -/
structure Joins (t : TaskId) (e : ExchId) : Prop where
  serve : g.serve t = .idle
  locked : Locked x g t e []
  complete : Complete x g e
  mq : g.mq e = []
  exchange : x.s.exchange t = .exch e
  link : x.s.link t = .null
  past : r.past t = []

/-- The caller of `reqwait` has joined the queue. -/
structure Joined (t : TaskId) (e : ExchId) : Prop where
  serve : g.serve t = .queued e
  locked : Locked x g t e []
  exchange : x.s.exchange t = .exch e
  past : r.past t = []

/-- At a line of `reqwait` up to `sem_wait`. -/
def WaitOk (t : TaskId) (e : ExchId) (d : BitVec 16) : Line → Prop
  | .lock => g.serve t = .idle
  | .enter => g.serve t = .idle ∧ Locked x g t e [] ∧ Complete x g e
  | .clear => g.serve t = .idle ∧ Locked x g t e [] ∧ Complete x g e ∧ g.mq e = [] ∧
      x.s.exchange t = .exch e
  | .test | .readTail => Joins x g r t e
  | .setHead => Joins x g r t e ∧ g.tq e = []
  | .writeLink => Joins x g r t e ∧ x.s.tailTask = lastOf e (g.tq e)
  | .setTail => Joined x g r t e ∧ ¬ g.Timed t ∧ lastOf e (g.tq e) = .task t
  | .check | .delay => Joined x g r t e ∧ ¬ g.Timed t ∧ Complete x g e
  | .unlock => Joined x g r t e ∧ Complete x g e ∧ x.s.status t = limitStatus d ∧
      (g.Timed t ↔ d ≠ 0)
  | .fetch => g.serve t = .idle ∧ Locked x g t e [] ∧ Complete x g e ∧ g.mq e ≠ []
  | .release => g.serve t = .idle ∧ Locked x g t e [] ∧ Complete x g e ∧
      ∃ m, x.s.message t = .msg m
  | .done => False

/-- At the `sem_wait` of `reqwait`. -/
def AsleepOk (t : TaskId) (e : ExchId) (d : BitVec 16) : Prop :=
  x.s.exchange t = .exch e ∧
    match g.serve t with
    | .idle => False
    | .queued e' => e' = e ∧ x.s.status t = limitStatus d ∧ (g.Timed t ↔ d ≠ 0) ∧ r.past t = []
    | .taken _ => x.s.link t ≠ .task t
    | .posted => x.s.link t ≠ .task t ∧ ∃ m, x.s.message t = .msg m ∧ Served d m (r.past t)

/-- Behind the `sem_wait` of `reqwait`. -/
structure Awake (t : TaskId) (d : BitVec 16) : Prop where
  serve : g.serve t = .idle
  link : x.s.link t ≠ .task t
  served : ∃ m, x.s.message t = .msg m ∧ Served d m (r.past t)

/-- At the line of a thread. -/
def PlaceOk (t : TaskId) : Place → Prop
  | .out => g.serve t = .idle
  | .send e m l => g.serve t = .idle ∧ SendOk x g r t e m l
  | .acpt e l => g.serve t = .idle ∧ AcptOk x g t e l
  | .wait e d l => WaitOk x g r t e d l
  | .asleep e d => AsleepOk x g r t e d
  | .relock _ d => Awake x g r t d
  | .wake e d | .leave e d => Awake x g r t d ∧ Locked x g t e [] ∧ Complete x g e

/-- The delay task works on the queue in which a task with a limit stands. -/
structure Searches (t : TaskId) (e : ExchId) : Prop where
  hold : g.hold e = some .delayTask
  carried : g.carried e = []
  complete : Complete x g e
  serve : g.serve t = .queued e
  place : ∃ d ≠ 0, x.place t = .asleep e d
  timed : g.Timed t

/-- At the line of the delay task. -/
def ExpiryOk : ExpiryLine → Prop
  | .idle | .first => True
  | .search t e a => Searches x g t e ∧
      ∃ l ts, g.tq e = l ++ t :: ts ∧ a ∈ Addr.exch e :: l.map .task
  | .readLink t e a => Searches x g t e ∧ ∃ l ts, g.tq e = l ++ t :: ts ∧ a = lastOf e l
  | .writeLink t e a p => Searches x g t e ∧
      ∃ l ts, g.tq e = l ++ t :: ts ∧ a = lastOf e l ∧ p = firstOf ts
  | .setTail t e a => g.hold e = some .delayTask ∧ g.carried e = [] ∧ a = lastOf e (g.tq e) ∧
      ∃ d ≠ 0, Taken x g r .delayTask t e d [.unlinked] True
  | .cancel t => ∃ e, ∃ d ≠ 0, Taken x g r .delayTask t e d [.unlinked] True
  | .message t => ∃ e, ∃ d ≠ 0, Taken x g r .delayTask t e d [.unlinked, .undelayed] False
  | .post t => ∃ e, ∃ d ≠ 0, Taken x g r .delayTask t e d timeOutServices False ∧
      x.s.message t = .msg .timeOut

/-- What holds throughout. -/
structure Inv : Prop where
  books : Books x.s g r
  held : ∀ {e a}, g.hold e = some a → a.holds x e
  taken : ∀ {t a}, g.serve t = .taken a → a.serves x t
  thread : ∀ t, PlaceOk x g r t (x.place t)
  expiry : ExpiryOk x g r x.expiry

end

/-! ### What the others leave alone -/

/-- Nothing about the task has changed that its thread or the one who took it relies on. -/
structure SameTask (s s' : Nucleus) (g g' : Ledger) (r r' : Log) (t : TaskId) : Prop where
  serve : g'.serve t = g.serve t
  timed : g'.Timed t ↔ g.Timed t
  past : r'.past t = r.past t
  status : s'.status t = s.status t
  message : s'.message t = s.message t
  exchange : s'.exchange t = s.exchange t
  link : (∀ e, g.serve t ≠ .queued e) → s'.link t = s.link t

/-- Nothing about the exchange has changed that its holder relies on. -/
structure SameExch (s s' : Nucleus) (g g' : Ledger) (e : ExchId) : Prop where
  hold : g'.hold e = g.hold e
  tq : g'.tq e = g.tq e
  mq : g'.mq e = g.mq e
  carried : g'.carried e = g.carried e
  taskTail : s'.taskTail e = s.taskTail e
  owner : ∀ m ∈ g.carried e, s'.msgLink m = s.msgLink m

variable {x x' : Traffic} {g g' : Ledger} {r r' : Log} {t u : TaskId} {e : ExchId} {m : MsgId}
  {d : BitVec 16} {a : Agent}

/-- Whether the tail pointer is complete depends on the exchange alone. -/
theorem Complete.frame (h : Complete x g e) (he : SameExch x.s x'.s g g' e) : Complete x' g' e := by
  unfold Complete at h ⊢
  rw [he.taskTail, he.tq]
  exact h

/-- What the holder of an exchange relies on depends on the exchange alone. -/
theorem Locked.frame {ms : List MsgId} (h : Locked x g t e ms)
    (he : g.hold e = some (.thread t) → SameExch x.s x'.s g g' e) : Locked x' g' t e ms where
  hold := (he h.hold).hold.trans h.hold
  carried := (he h.hold).carried.trans h.carried
  accepts m hm := by
    unfold YRmx.accepts
    rw [(he h.hold).owner m (h.carried ▸ hm)]
    exact h.accepts m hm

/-- What is known of a task that is attended to depends on the task alone. -/
theorem Taken.frame {l : List Service} {p : Prop} (h : Taken x g r a t e d l p)
    (ht : SameTask x.s x'.s g g' r r' t) (hp : x'.place t = x.place t) :
    Taken x' g' r' a t e d l p where
  serve := ht.serve.trans h.serve
  place := hp.trans h.place
  past := ht.past.trans h.past
  timed := ht.timed.trans h.timed

/-- A sender relies on its exchange and on the task that it has taken. -/
theorem SendOk.frame {l : SendLine} (h : SendOk x g r t e m l)
    (he : g.hold e = some (.thread t) → SameExch x.s x'.s g g' e)
    (hs : ∀ u, g.serve u = .taken (.thread t) →
      SameTask x.s x'.s g g' r r' u ∧ x'.place u = x.place u) : SendOk x' g' r' t e m l := by
  cases l with
  | lock => trivial
  | head =>
    obtain ⟨hl, hc⟩ := h
    exact ⟨hl.frame he, hc.frame (he hl.hold)⟩
  | tail | append | busy =>
    obtain ⟨hl, hc, hq⟩ := h
    exact ⟨hl.frame he, hc.frame (he hl.hold), (he hl.hold).tq ▸ hq⟩
  | readLink u =>
    obtain ⟨hl, hc, ts, hq⟩ := h
    exact ⟨hl.frame he, hc.frame (he hl.hold), ts, (he hl.hold).tq ▸ hq⟩
  | setHead u p =>
    obtain ⟨hl, hc, ts, hq, hp⟩ := h
    exact ⟨hl.frame he, hc.frame (he hl.hold), ts, (he hl.hold).tq ▸ hq, hp⟩
  | setTail u =>
    obtain ⟨hl, hq, hm, d, hu, hst⟩ := h
    obtain ⟨hsu, hp⟩ := hs u hu.serve
    exact ⟨hl.frame he, (he hl.hold).tq ▸ hq, (he hl.hold).mq ▸ hm, d, hu.frame hsu hp,
      hsu.status.trans hst⟩
  | give u =>
    obtain ⟨hl, hc, hm, d, hu, hst⟩ := h
    obtain ⟨hsu, hp⟩ := hs u hu.serve
    exact ⟨hl.frame he, hc.frame (he hl.hold), (he hl.hold).mq ▸ hm, d, hu.frame hsu hp,
      hsu.status.trans hst⟩
  | status u | test u =>
    obtain ⟨hl, hc, hm, d, hu, hst, hmu⟩ := h
    obtain ⟨hsu, hp⟩ := hs u hu.serve
    exact ⟨hl.frame he, hc.frame (he hl.hold), hm, d, hu.frame hsu hp, hsu.status.trans hst,
      hsu.message.trans hmu⟩
  | cancel u =>
    obtain ⟨hl, hc, hm, d, hd, hu, hmu⟩ := h
    obtain ⟨hsu, hp⟩ := hs u hu.serve
    exact ⟨hl.frame he, hc.frame (he hl.hold), hm, d, hd, hu.frame hsu hp,
      hsu.message.trans hmu⟩
  | unlock u =>
    obtain ⟨hl, hc, hm, d, hu, hmu⟩ := h
    obtain ⟨hsu, hp⟩ := hs u hu.serve
    exact ⟨hl.frame he, hc.frame (he hl.hold), hm, d, hu.frame hsu hp, hsu.message.trans hmu⟩
  | post u =>
    obtain ⟨hm, d, hu, hmu⟩ := h
    obtain ⟨hsu, hp⟩ := hs u hu.serve
    exact ⟨hm, d, hu.frame hsu hp, hsu.message.trans hmu⟩

/-- A caller that is about to join a queue relies on itself and on the exchange it holds. -/
theorem Joins.frame (h : Joins x g r t e) (ht : SameTask x.s x'.s g g' r r' t)
    (he : g.hold e = some (.thread t) → SameExch x.s x'.s g g' e) : Joins x' g' r' t e where
  serve := ht.serve.trans h.serve
  locked := h.locked.frame he
  complete := h.complete.frame (he h.locked.hold)
  mq := (he h.locked.hold).mq.trans h.mq
  exchange := ht.exchange.trans h.exchange
  link := (ht.link fun e' ↦ by simp [h.serve]).trans h.link
  past := ht.past.trans h.past

/-- A caller that has joined a queue relies on itself and on the exchange it holds. -/
theorem Joined.frame (h : Joined x g r t e) (ht : SameTask x.s x'.s g g' r r' t)
    (he : g.hold e = some (.thread t) → SameExch x.s x'.s g g' e) : Joined x' g' r' t e where
  serve := ht.serve.trans h.serve
  locked := h.locked.frame he
  exchange := ht.exchange.trans h.exchange
  past := ht.past.trans h.past

/-- A caller of `reqwait` relies on its exchange and its own task. -/
theorem WaitOk.frame {l : Line} (h : WaitOk x g r t e d l) (ht : SameTask x.s x'.s g g' r r' t)
    (he : g.hold e = some (.thread t) → SameExch x.s x'.s g g' e)
    (hw : l = .writeLink → x'.s.tailTask = x.s.tailTask) : WaitOk x' g' r' t e d l := by
  cases l with
  | lock => exact ht.serve.trans h
  | enter =>
    obtain ⟨h0, hl, hc⟩ := h
    exact ⟨ht.serve.trans h0, hl.frame he, hc.frame (he hl.hold)⟩
  | clear =>
    obtain ⟨h0, hl, hc, hq, hx⟩ := h
    exact ⟨ht.serve.trans h0, hl.frame he, hc.frame (he hl.hold), (he hl.hold).mq.trans hq,
      ht.exchange.trans hx⟩
  | test | readTail => exact Joins.frame h ht he
  | setHead => exact ⟨h.1.frame ht he, (he h.1.locked.hold).tq.trans h.2⟩
  | writeLink =>
    refine ⟨h.1.frame ht he, ?_⟩
    rw [hw rfl, (he h.1.locked.hold).tq]
    exact h.2
  | setTail =>
    refine ⟨h.1.frame ht he, fun hx ↦ h.2.1 (ht.timed.mp hx), ?_⟩
    rw [(he h.1.locked.hold).tq]
    exact h.2.2
  | check | delay =>
    exact ⟨h.1.frame ht he, fun hx ↦ h.2.1 (ht.timed.mp hx), h.2.2.frame (he h.1.locked.hold)⟩
  | unlock =>
    exact ⟨h.1.frame ht he, h.2.1.frame (he h.1.locked.hold), ht.status.trans h.2.2.1,
      ht.timed.trans h.2.2.2⟩
  | fetch =>
    obtain ⟨h0, hl, hc, hq⟩ := h
    exact ⟨ht.serve.trans h0, hl.frame he, hc.frame (he hl.hold), (he hl.hold).mq ▸ hq⟩
  | release =>
    obtain ⟨h0, hl, hc, m, hm⟩ := h
    exact ⟨ht.serve.trans h0, hl.frame he, hc.frame (he hl.hold), m, ht.message.trans hm⟩
  | done => exact h

/-- What is known of a task that was woken depends on the task alone. -/
theorem Awake.frame (h : Awake x g r t d) (ht : SameTask x.s x'.s g g' r r' t) :
    Awake x' g' r' t d where
  serve := ht.serve.trans h.serve
  link := by
    rw [ht.link fun e' ↦ by simp [h.serve]]
    exact h.link
  served := by
    rw [ht.message, ht.past]
    exact h.served

/-- A sleeping task relies on its own fields. -/
theorem AsleepOk.frame (h : AsleepOk x g r t e d) (ht : SameTask x.s x'.s g g' r r' t) :
    AsleepOk x' g' r' t e d := by
  obtain ⟨hx, h⟩ := h
  refine ⟨ht.exchange.trans hx, ?_⟩
  rw [ht.serve]
  cases hs : g.serve t with
  | idle =>
    rw [hs] at h
    exact h
  | queued e' =>
    rw [hs] at h
    obtain ⟨he, hst, htm, hp⟩ := h
    exact ⟨he, ht.status.trans hst, ht.timed.trans htm, ht.past.trans hp⟩
  | taken a =>
    rw [hs] at h
    have hl := ht.link fun e' ↦ by simp [hs]
    simpa only [hl] using h
  | posted =>
    rw [hs] at h
    have hl := ht.link fun e' ↦ by simp [hs]
    simpa only [hl, ht.message, ht.past] using h

/-- A thread relies on its own task, on the exchange that it holds and on the task that it has
taken. -/
theorem PlaceOk.frame {p : Place} (h : PlaceOk x g r t p) (ht : SameTask x.s x'.s g g' r r' t)
    (he : ∀ e, g.hold e = some (.thread t) → SameExch x.s x'.s g g' e)
    (hs : ∀ u, g.serve u = .taken (.thread t) →
      SameTask x.s x'.s g g' r r' u ∧ x'.place u = x.place u)
    (hw : (∃ e d, p = .wait e d .writeLink) → x'.s.tailTask = x.s.tailTask) :
    PlaceOk x' g' r' t p := by
  cases p with
  | out => exact ht.serve.trans h
  | send e m l => exact ⟨ht.serve.trans h.1, h.2.frame (he e) hs⟩
  | acpt e l =>
    refine ⟨ht.serve.trans h.1, ?_⟩
    have h := h.2
    cases l with
    | lock => trivial
    | enter | release => exact ⟨h.1.frame (he e), h.2.frame (he e h.1.hold)⟩
    | fetch =>
      obtain ⟨hl, hc, hq⟩ := h
      exact ⟨hl.frame (he e), hc.frame (he e hl.hold), (he e hl.hold).mq ▸ hq⟩
  | wait e d l => exact WaitOk.frame h ht (he e) fun hl ↦ hw ⟨e, d, by rw [hl]⟩
  | asleep e d => exact AsleepOk.frame h ht
  | relock e d => exact Awake.frame h ht
  | wake e d | leave e d =>
    exact ⟨h.1.frame ht, h.2.1.frame (he e), h.2.2.frame (he e h.2.1.hold)⟩

/-- The search relies on the exchange and on the task that is looked for. -/
theorem Searches.frame (h : Searches x g t e)
    (he : g.hold e = some .delayTask → SameExch x.s x'.s g g' e)
    (hq : g.serve t = .queued e → g.hold e = some .delayTask →
      SameTask x.s x'.s g g' r r' t ∧ x'.place t = x.place t) : Searches x' g' t e where
  hold := (he h.hold).hold.trans h.hold
  carried := (he h.hold).carried.trans h.carried
  complete := h.complete.frame (he h.hold)
  serve := (hq h.serve h.hold).1.serve.trans h.serve
  place := (hq h.serve h.hold).2 ▸ h.place
  timed := (hq h.serve h.hold).1.timed.mpr h.timed

/-- The delay task relies on the exchange that it works on and on the task that it has taken or
looks for. -/
theorem ExpiryOk.frame {l : ExpiryLine} (h : ExpiryOk x g r l)
    (he : ∀ e, g.hold e = some .delayTask → SameExch x.s x'.s g g' e)
    (hs : ∀ u, g.serve u = .taken .delayTask →
      SameTask x.s x'.s g g' r r' u ∧ x'.place u = x.place u)
    (hq : ∀ u e, g.serve u = .queued e → g.hold e = some .delayTask →
      SameTask x.s x'.s g g' r r' u ∧ x'.place u = x.place u) : ExpiryOk x' g' r' l := by
  cases l with
  | idle | first => trivial
  | search t e a | readLink t e a | writeLink t e a p =>
    obtain ⟨h, l, ts, hl⟩ := h
    refine ⟨h.frame (he e) (hq t e), l, ts, ?_⟩
    rw [(he e h.hold).tq]
    exact hl
  | setTail t e a =>
    obtain ⟨hh, hc, ha, d, hd, ht⟩ := h
    obtain ⟨hst, hp⟩ := hs t ht.serve
    refine ⟨(he e hh).hold.trans hh, (he e hh).carried.trans hc, ?_, d, hd, ht.frame hst hp⟩
    rw [(he e hh).tq]
    exact ha
  | cancel t | message t =>
    obtain ⟨e, d, hd, ht⟩ := h
    obtain ⟨hst, hp⟩ := hs t ht.serve
    exact ⟨e, d, hd, ht.frame hst hp⟩
  | post t =>
    obtain ⟨e, d, hd, ht, hm⟩ := h
    obtain ⟨hst, hp⟩ := hs t ht.serve
    exact ⟨e, d, hd, ht.frame hst hp, hst.message.trans hm⟩

end Traffic

end YRmx
