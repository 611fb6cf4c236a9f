import YRmx.Race.Contention
import YRmx.Transition.Always

/-!
# What orderly calls guarantee

Library `YRmx`. At every point of every run whose turns are orderly the queues and the delay list
are whole and no line leads astray, every wait is attended to once, and every message that was
accepted is handed over once and in order. The delay task that takes up a task which a sender has
just unlinked runs off the end of the queue.
-/

namespace YRmx.Traffic

open Intrusive Transition

variable {s : Nucleus} {x : Traffic} {g : Ledger} {r : Log} {t u : TaskId} {e : ExchId} {i : Turn}
  {m : MsgId} {tr : List (Traffic × Turn)}

/-! ### Runs -/

/-- The ledger of a system that has just started. -/
def Ledger.empty : Ledger where
  tq _ := []
  mq _ := []
  carried _ := []
  dl := []
  hold _ := none
  serve _ := .idle

/-- Nothing waits and nobody is in a call. -/
theorem inv_start (h : Booted s) : Inv (start s) .empty .empty where
  books :=
    { links := fun e ↦ Fifo.nil (h.exchanges e).taskHead rfl (by simp)
      messages := fun e ↦ Fifo.nil (h.exchanges e).messageHead (h.exchanges e).messageTail (by simp)
      pile_nodup := fun _ ↦ List.nodup_nil
      pile_disjoint := fun hm _ ↦ absurd hm List.not_mem_nil
      timeOut := fun _ ↦ List.not_mem_nil
      timeOut_link := h.timeOut.1
      one_empty := fun _ ↦ .inl rfl
      mem_iff := by simp [Ledger.empty]
      delays := h.sim.delays
      dl_nodup := List.nodup_nil
      dl_bound := by simp [Ledger.empty]
      timed := fun ht ↦ absurd ht List.not_mem_nil
      sema := fun t ↦ (h.tasks t).2.1
      mutex := fun ht ↦ by cases ht
      free := fun {e} _ ↦ ⟨(h.exchanges e).taskTail, rfl⟩
      balance := fun _ ↦ rfl }
  held ha := by cases ha
  taken ha := by cases ha
  thread _ := rfl
  expiry := trivial

/-- Every orderly run keeps its ledger. -/
theorem always_inv (h : Booted s) (hr : Interleaved (start s) tr x)
    (ho : Throughout (fun _ y i ↦ Orderly y i) tr) :
    Always (fun tr y ↦ ∃ g, Inv y g (log tr)) tr x :=
  hr.always (C := fun _ y i ↦ Orderly y i) ⟨.empty, inv_start h⟩
    (fun ⟨_, hI⟩ hc hs ↦ by
      rw [log_snoc]
      exact (hI.turn hc).of_step hs) ho

/-- A test that an orderly turn passes when no caller finds a queue of tasks, no message is linked
to itself and none is created. -/
def plain (x : Traffic) : Turn → Bool
  | .line t =>
    match x.place t with
    | .send _ m .lock => x.expiry == .idle && x.s.msgLink m != .msg m
    | .acpt _ .lock | .wait _ _ .lock | .relock .. => x.expiry == .idle
    | .wait _ _ .readTail => false
    | _ => true
  | .expiry =>
    x.expiry != .first || match x.s.word0 .delayHead with
    | .task t =>
      match x.s.exchange t with
      | .exch e => x.s.mutex e == false
      | _ => true
    | _ => true
  | .other o => !o.creates
  | _ => true

/-- The test is right. -/
theorem plain.orderly (h : plain x i = true) : x.Orderly i := by
  cases i with
  | line t =>
    have hi : ∀ e, x.expiry = .idle → ¬ x.expiry.worksOn e := fun e he ↦ by
      simp [he, ExpiryLine.worksOn]
    refine ⟨fun e hl ↦ ?_, fun e d hp ↦ ?_, fun e m hp hm ↦ ?_⟩
    · cases hp : x.place t with
      | send e' m l =>
        rw [hp] at hl
        cases l with
        | lock =>
          simp only [plain, hp, Bool.and_eq_true, beq_iff_eq] at h
          exact hi e h.1
        | _ => exact hl.elim
      | acpt e' l =>
        rw [hp] at hl
        cases l with
        | lock => exact hi e (by simpa [plain, hp] using h)
        | _ => exact hl.elim
      | wait e' d l =>
        rw [hp] at hl
        cases l with
        | lock => exact hi e (by simpa [plain, hp] using h)
        | _ => exact hl.elim
      | relock => exact hi e (by simpa [plain, hp] using h)
      | out | asleep | wake | leave =>
        rw [hp] at hl
        exact hl.elim
    · simp [plain, hp] at h
    · simp [plain, hp, hm] at h
  | expiry =>
    intro hx t e hd _ he
    simpa [plain, hx, hd, he] using h
  | other o =>
    have hc : o.creates = false := by simpa [plain] using h
    refine ⟨Nucleus.fresh_of_not_creates hc, ?_⟩
    rintro t n size now rfl
    cases hc
  | send | isnd | acpt | wait | tick => trivial

/-- A booted system in which task 3 owns a message. -/
def oneOwner : Nucleus :=
  { boot with word0 := Function.update boot.word0 (.msg (.user 0)) (.task 3) }

/-- `oneOwner` is a booted system. -/
theorem oneOwner_booted : Booted oneOwner where
  exchanges _ := ⟨rfl, rfl, rfl, rfl, rfl⟩
  delayNext := rfl
  delayPrev := rfl
  delayHead := rfl
  delayTail := rfl
  interrupts _ := ⟨rfl, rfl, rfl⟩
  timeOut := ⟨rfl, rfl⟩
  tasks _ := ⟨rfl, rfl, rfl, rfl⟩
  notFrozen := rfl

/-- Task 4 waits with a limit and gets the message of task 3 in time, and then it waits again and
is timed out. -/
def twoWaits : List Turn :=
  .wait 4 5 2 :: List.replicate 9 (.line 4) ++ .send 3 5 (.user 0) :: List.replicate 12 (.line 3) ++
  List.replicate 4 (.line 4) ++ [.other (.exitRegion 4), .other (.thaw 4)] ++
  .wait 4 5 1 :: List.replicate 9 (.line 4) ++ .tick :: List.replicate 10 .expiry ++ [.line 4]

/-- The two waits are an orderly run. -/
theorem exists_twoWaits : ∃ tr x, Interleaved (start oneOwner) tr x ∧
    tr.map Prod.snd = twoWaits ∧ Throughout (fun _ y i ↦ Orderly y i) tr ∧
    x.s.message 4 = .msg .timeOut := by
  obtain ⟨tr, x, hr, hl, ho, hp⟩ := Trace.exists_of_checked (s := start oneOwner) (f := next 9)
    (r := .blocked) (q := plain) (p := fun x ↦ x.s.message 4 == .msg .timeOut) (l := twoWaits)
    (fun a i b h ↦ show Step a i b from ⟨9, h⟩) (fun _ _ h ↦ plain.orderly h) (by decide +kernel)
  exact ⟨tr, x, hr, hl, ho, by simpa using hp⟩

/-! ### Who attends to whom -/

/-- A task that a sender attends to is taken by it. -/
theorem Inv.serving (h : Inv x g r) (hs : (x.place u).serves t) :
    g.serve t = .taken (.thread u) := by
  have hu := h.thread u
  cases hp : x.place u with
  | send e m l =>
    rw [hp] at hu hs
    have hu := hu.2
    cases l with
    | setTail v =>
      obtain rfl : v = t := hs
      obtain ⟨-, -, -, d, hv, -⟩ := hu
      exact hv.serve
    | give v | status v | test v | unlock v =>
      obtain rfl : v = t := hs
      obtain ⟨-, -, -, d, hv, -⟩ := hu
      exact hv.serve
    | cancel v =>
      obtain rfl : v = t := hs
      obtain ⟨-, -, -, d, -, hv, -⟩ := hu
      exact hv.serve
    | post v =>
      obtain rfl : v = t := hs
      obtain ⟨-, d, hv, -⟩ := hu
      exact hv.serve
    | lock | head | tail | append | busy | readLink | setHead => exact hs.elim
  | out | acpt | wait | asleep | relock | wake | leave =>
    rw [hp] at hs
    exact hs.elim

/-- A task that the delay task attends to is taken by it. -/
theorem Inv.expiring (h : Inv x g r) (hs : x.expiry.serves t) : g.serve t = .taken .delayTask := by
  have hx := h.expiry
  cases hl : x.expiry with
  | setTail v e a =>
    rw [hl] at hx hs
    obtain rfl : v = t := hs
    obtain ⟨-, -, -, d, -, hv⟩ := hx
    exact hv.serve
  | cancel v | message v =>
    rw [hl] at hx hs
    obtain rfl : v = t := hs
    obtain ⟨e, d, -, hv⟩ := hx
    exact hv.serve
  | post v =>
    rw [hl] at hx hs
    obtain rfl : v = t := hs
    obtain ⟨e, d, -, hv, -⟩ := hx
    exact hv.serve
  | idle | first | search | readLink | writeLink =>
    rw [hl] at hs
    exact hs.elim

/-! ### Whole queues -/

/-- The descriptors denote these lists, each exchange has one agent at a time, every sleeping task
is looked after, and no orderly turn leads astray. -/
structure Intact (x : Traffic) (tq : ExchId → List TaskId) (mq : ExchId → List MsgId)
    (dl : List (TaskId × Nat)) : Prop where
  tasks : ∀ e, Fifo x.s.word2 .null (.exch e) (lastOf e (tq e)) ((tq e).map .task)
  /-- the tail pointer of a queue that nobody works on is up to date -/
  tail : ∀ {e}, (∀ t, ¬ (x.place t).holds e) → ¬ x.expiry.worksOn e → TaskQueue x.s e (tq e)
  messages : ∀ e, MessageQueue x.s e (mq e)
  one_empty : ∀ e, mq e = [] ∨ tq e = []
  delays : DelayList x.s.word0 x.s.word1 x.s.delay dl
  dl_nodup : (dl.map Prod.fst).Nodup
  one_holder : ∀ {t u e}, (x.place t).holds e → (x.place u).holds e → t = u
  apart : ∀ {t e}, (x.place t).holds e → ¬ x.expiry.worksOn e
  one_server : ∀ {t u v}, (x.place u).serves t → (x.place v).serves t → u = v
  not_both : ∀ {t u}, (x.place u).serves t → ¬ x.expiry.serves t
  /-- a queued task is asleep, or it still holds the exchange that it has joined -/
  queued : ∀ {t e}, t ∈ tq e → (∃ d, x.place t = .asleep e d) ∨ (x.place t).holds e
  /-- a sleeping task is queued, or attended to, or posted -/
  asleep : ∀ {t e d}, x.place t = .asleep e d →
    t ∈ tq e ∧ x.s.sema t = 0 ∧ x.s.status t = limitStatus d ∧ (t ∈ dl.map Prod.fst ↔ d ≠ 0) ∨
    (∀ e, t ∉ tq e) ∧ x.s.sema t = 0 ∧ (x.expiry.serves t ∨ ∃ u, (x.place u).serves t) ∨
    (∀ e, t ∉ tq e) ∧ x.s.sema t = 1 ∧ t ∉ dl.map Prod.fst
  /-- a semaphore is only ever posted for a sleeping task -/
  awake : ∀ {t}, (∀ e d, x.place t ≠ .asleep e d) → x.s.sema t = 0
  turn : ∀ i, x.Orderly i →
    (∃ x', Yields (fun n ↦ x.next n i) x') ∨ ∀ n, x.next n i = .error .blocked

/-- The ledger tells that the queues are whole. -/
theorem Inv.intact (h : Inv x g r) : Intact x g.tq g.mq g.dl where
  tasks := h.books.links
  tail {e} ht hx := by
    refine h.books.taskQueue (h.books.free ?_).1
    cases hh : g.hold e with
    | none => rfl
    | some a =>
      cases a with
      | thread t => exact absurd (h.held hh) (ht t)
      | delayTask => exact absurd (h.held hh) hx
  messages := h.books.messages
  one_empty := h.books.one_empty
  delays := h.books.delays
  dl_nodup := h.books.dl_nodup
  one_holder {t u e} ht hu := by
    obtain ⟨_, ht, -⟩ := h.locked ht
    obtain ⟨_, hu, -⟩ := h.locked hu
    exact Agent.thread.inj (Option.some.inj (ht.hold.symm.trans hu.hold))
  apart ht hx := by
    obtain ⟨_, ht, -⟩ := h.locked ht
    have he := ht.hold.symm.trans (h.searched hx).1
    cases he
  one_server hu hv :=
    Agent.thread.inj (Stage.taken.inj ((h.serving hu).symm.trans (h.serving hv)))
  not_both hu hx := by
    have he := (h.serving hu).symm.trans (h.expiring hx)
    cases he
  queued {t e} ht := by
    have hq := h.books.mem_iff.mp ht
    by_cases hh : g.hold e = some (.thread t)
    · exact .inr (h.held hh)
    · obtain ⟨d, hp, -⟩ := h.queued_asleep hq hh
      exact .inl ⟨d, hp⟩
  asleep {t e d} hp := by
    have hsema := h.books.sema t
    have hout : ∀ {a : Stage}, g.serve t = a → (∀ e, a ≠ .queued e) → ∀ e, t ∉ g.tq e :=
      fun ha hne e hm ↦ hne e (ha ▸ h.books.mem_iff.mp hm)
    have ht := h.thread t
    rw [hp] at ht
    obtain ⟨-, ht⟩ := ht
    cases hs : g.serve t with
    | idle =>
      rw [hs] at ht
      exact ht.elim
    | queued e' =>
      rw [hs] at ht hsema
      obtain ⟨rfl, hst, htm, -⟩ := ht
      exact .inl ⟨h.books.mem_iff.mpr hs, hsema, hst, htm⟩
    | taken a =>
      rw [hs] at hsema
      refine .inr (.inl ⟨hout hs (by simp), hsema, ?_⟩)
      cases a with
      | thread u => exact .inr ⟨u, h.taken hs⟩
      | delayTask => exact .inl (h.taken hs)
    | posted =>
      rw [hs] at hsema
      exact .inr (.inr ⟨hout hs (by simp), hsema, fun htm ↦ (h.books.timed htm).2 hs⟩)
  awake {t} hp := by
    rw [h.books.sema, if_neg (h.up hp).2.1]
  turn i ho := by
    rcases h.turn ho with ⟨x', hx', -⟩ | hb
    · exact .inl ⟨x', hx'⟩
    · exact .inr hb

/-- In every orderly run the queues are whole at every point. -/
theorem intact_of_run (h : Booted s) (hr : Interleaved (start s) tr x)
    (ho : Throughout (fun _ y i ↦ Orderly y i) tr) :
    Always (fun _ y ↦ ∃ tq mq dl, Intact y tq mq dl) tr x :=
  (always_inv h hr ho).mono fun _ _ ⟨g, hI⟩ ↦ ⟨g.tq, g.mq, g.dl, hI.intact⟩

/-- The queues are whole while task 4 waits twice. -/
theorem intact_of_run_twoWaits : ∃ tr x, Interleaved (start oneOwner) tr x ∧
    tr.map Prod.snd = twoWaits ∧
    Always (fun _ y ↦ ∃ tq mq dl, Intact y tq mq dl) tr x := by
  obtain ⟨tr, x, hr, hl, ho, -⟩ := exists_twoWaits
  exact ⟨tr, x, hr, hl, intact_of_run oneOwner_booted hr ho⟩

/-! ### Waits -/

/-- A message on its way is not the time-out message. -/
theorem Locked.ne_timeOut {ms : List MsgId} (h : Inv x g r) (hl : Locked x g t e ms) (hm : m ∈ ms) :
    m ≠ .timeOut := by
  rintro rfl
  exact h.books.timeOut e (List.mem_append_right _ (hl.carried ▸ hm))

/-- What was done for a task that was taken is the beginning of a hand-off or of a time-out. -/
theorem Inv.taken_past (h : Inv x g r) {a : Agent} {d : BitVec 16} (hs : g.serve t = .taken a)
    (hp : x.place t = .asleep e d) :
    (∃ m ≠ .timeOut, r.past t <+: sendServices m d) ∨ d ≠ 0 ∧ r.past t <+: timeOutServices := by
  have same : ∀ {a e' d' l q}, Taken x g r a t e' d' l q → d' = d := by
    intro a e' d' l q ht
    have hx := ht.place
    rw [hp] at hx
    exact (Place.asleep.inj hx).2.symm
  cases a with
  | delayTask =>
    have hx := h.expiry
    have hserve : x.expiry.serves t := h.taken hs
    cases hl : x.expiry with
    | setTail v e a =>
      rw [hl] at hx hserve
      obtain rfl : v = t := hserve
      obtain ⟨-, -, -, d', hd, hv⟩ := hx
      exact .inr ⟨same hv ▸ hd, by simp [hv.past, timeOutServices]⟩
    | cancel v | message v =>
      rw [hl] at hx hserve
      obtain rfl : v = t := hserve
      obtain ⟨e, d', hd, hv⟩ := hx
      exact .inr ⟨same hv ▸ hd, by simp [hv.past, timeOutServices]⟩
    | post v =>
      rw [hl] at hx hserve
      obtain rfl : v = t := hserve
      obtain ⟨e, d', hd, hv, -⟩ := hx
      exact .inr ⟨same hv ▸ hd, by simp [hv.past]⟩
    | idle | first | search | readLink | writeLink =>
      rw [hl] at hserve
      exact hserve.elim
  | thread u =>
    have hu := h.thread u
    have hserve : (x.place u).serves t := h.taken hs
    cases hpu : x.place u with
    | send e m l =>
      rw [hpu] at hu hserve
      have hu := hu.2
      cases l with
      | setTail v | give v =>
        obtain rfl : v = t := hserve
        obtain ⟨hl, -, -, d', hv, -⟩ := hu
        exact .inl ⟨m, hl.ne_timeOut h (by simp), by simp [hv.past, sendServices]⟩
      | status v | test v =>
        obtain rfl : v = t := hserve
        obtain ⟨-, -, hm, d', hv, -⟩ := hu
        exact .inl ⟨m, hm, by simp [hv.past, sendServices]⟩
      | cancel v =>
        obtain rfl : v = t := hserve
        obtain ⟨-, -, hm, d', -, hv, -⟩ := hu
        exact .inl ⟨m, hm, by simp [hv.past, sendServices]⟩
      | unlock v =>
        obtain rfl : v = t := hserve
        obtain ⟨-, -, hm, d', hv, -⟩ := hu
        exact .inl ⟨m, hm, by simp [hv.past, same hv]⟩
      | post v =>
        obtain rfl : v = t := hserve
        obtain ⟨hm, d', hv, -⟩ := hu
        exact .inl ⟨m, hm, by simp [hv.past, same hv]⟩
      | lock | head | tail | append | busy | readLink | setHead => exact hserve.elim
    | out | acpt | wait | asleep | relock | wake | leave =>
      rw [hpu] at hserve
      exact hserve.elim

/-- How far a wait has come: a sleeping task whose semaphore is not posted yet was attended to up to
some point of one hand-off or one time-out, and after it everything was done once, and the task has
the message that it was given. -/
def Attended (x : Traffic) (t : TaskId) (l : List Service) : Prop :=
  match x.place t with
  | .asleep _ d =>
    if x.s.sema t = 0 then
      (∃ m ≠ .timeOut, l <+: sendServices m d) ∨ d ≠ 0 ∧ l <+: timeOutServices
    else ∃ m, x.s.message t = .msg m ∧ Served d m l
  | .relock _ d | .wake _ d | .leave _ d => ∃ m, x.s.message t = .msg m ∧ Served d m l
  | _ => True

/-- The ledger tells how far a wait has come. -/
theorem Inv.attended (h : Inv x g r) (t : TaskId) : Attended x t (r.past t) := by
  have ht := h.thread t
  unfold Attended
  cases hp : x.place t with
  | asleep e d =>
    rw [hp] at ht
    have hsema := h.books.sema t
    obtain ⟨-, ht⟩ := ht
    cases hs : g.serve t with
    | idle =>
      rw [hs] at ht
      exact ht.elim
    | queued e' =>
      rw [hs] at ht hsema
      obtain ⟨-, -, -, hpast⟩ := ht
      simp only [hsema, reduceCtorEq, if_false, if_true, hpast]
      exact .inl ⟨.user 0, by simp, by simp⟩
    | taken a =>
      rw [hs] at hsema
      simp only [hsema, reduceCtorEq, if_false, if_true]
      exact h.taken_past hs hp
    | posted =>
      rw [hs] at ht hsema
      simp only [hsema, if_true, one_ne_zero, if_false]
      exact ht.2
  | relock e d =>
    rw [hp] at ht
    exact Awake.served ht
  | wake e d | leave e d =>
    rw [hp] at ht
    exact ht.1.served
  | out | send | acpt | wait => trivial

/-- In every orderly run every wait is attended to once. -/
theorem attended_of_run (h : Booted s) (hr : Interleaved (start s) tr x)
    (ho : Throughout (fun _ y i ↦ Orderly y i) tr) :
    Always (fun tr y ↦ ∀ t, Attended y t ((log tr).past t)) tr x :=
  (always_inv h hr ho).mono fun _ _ ⟨_, hI⟩ t ↦ hI.attended t

/-- Both waits of task 4 are attended to once. -/
theorem attended_of_run_twoWaits : ∃ tr x, Interleaved (start oneOwner) tr x ∧
    tr.map Prod.snd = twoWaits ∧ x.s.message 4 = .msg .timeOut ∧
    Always (fun tr y ↦ ∀ t, Attended y t ((log tr).past t)) tr x := by
  obtain ⟨tr, x, hr, hl, ho, hm⟩ := exists_twoWaits
  exact ⟨tr, x, hr, hl, hm, attended_of_run oneOwner_booted hr ho⟩

/-! ### Messages -/

/-- Every message that an exchange accepted was handed over, is queued or is on its way with the
sender that holds the exchange, in the order in which they came and each of them once. -/
structure Balanced (x : Traffic) (r : Log) (mq way : ExchId → List MsgId) : Prop where
  messages : ∀ e, MessageQueue x.s e (mq e)
  balance : ∀ e, r.accepted e = (r.handed e).map Prod.fst ++ mq e ++ way e
  nodup : ∀ e, (mq e ++ way e).Nodup
  disjoint : ∀ {e e' m}, m ∈ mq e ++ way e → m ∈ mq e' ++ way e' → e = e'
  way : ∀ {e m}, m ∈ way e → ∃ t, (x.place t).carries m ∧ (x.place t).holds e

/-- The ledger tells where the messages are. -/
theorem Inv.balanced (h : Inv x g r) : Balanced x r g.mq g.carried where
  messages := h.books.messages
  balance e := by
    rw [h.books.balance e, List.append_assoc]
  nodup := h.books.pile_nodup
  disjoint := h.books.pile_disjoint
  way {e m} hm := by
    cases hh : g.hold e with
    | none =>
      rw [(h.books.free hh).2] at hm
      cases hm
    | some a =>
      cases a with
      | delayTask =>
        rw [(h.searched (h.held hh)).2] at hm
        cases hm
      | thread t =>
        obtain ⟨ms, hl, hc⟩ := h.locked (h.held hh)
        rw [hl.carried] at hm
        exact ⟨t, hc m hm, h.held hh⟩

/-- In every orderly run no message is lost, duplicated or overtaken. -/
theorem balanced_of_run (h : Booted s) (hr : Interleaved (start s) tr x)
    (ho : Throughout (fun _ y i ↦ Orderly y i) tr) :
    Always (fun tr y ↦ ∃ mq way, Balanced y (log tr) mq way) tr x :=
  (always_inv h hr ho).mono fun _ _ ⟨g, hI⟩ ↦ ⟨g.mq, g.carried, hI.balanced⟩

/-- The message of task 3 is accepted and handed over. -/
theorem balanced_of_run_twoWaits : ∃ tr x, Interleaved (start oneOwner) tr x ∧
    tr.map Prod.snd = twoWaits ∧
    Always (fun tr y ↦ ∃ mq way, Balanced y (log tr) mq way) tr x := by
  obtain ⟨tr, x, hr, hl, ho, -⟩ := exists_twoWaits
  exact ⟨tr, x, hr, hl, balanced_of_run oneOwner_booted hr ho⟩

end YRmx.Traffic
