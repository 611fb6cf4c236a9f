import YRmx.Race.TakeUps
import YRmx.Race.Withdrawal

/-!
# A time-out and a message at one exchange

Library `YRmx`. `reqsend` works on the task queue of an exchange under the mutex of the exchange,
`rqdelaytask` under `delay_list_mutex`. As long as the delay task turns to a task only while the
mutex of the exchange is free, and nobody locks it until the task is unlinked, a task that waits
with a limit gets a message or the time-out, and every search finds its task. Otherwise the
search can run off the end of the queue, or both deliverers unlink the task and post its semaphore.
-/

namespace YRmx

open Intrusive Transition

/-- A call on this exchange, or the way on of some thread; no message is created. -/
def Turn.On (e : ExchId) : Turn → Prop
  | .send _ e' _ | .isnd _ e' | .acpt _ e' | .wait _ e' _ => e' = e
  | .other o => o.creates = false
  | .line _ | .expiry | .tick => True

instance (e : ExchId) (i : Turn) : Decidable (i.On e) :=
  match i with
  | .send _ e' _ | .isnd _ e' | .acpt _ e' | .wait _ e' _ => inferInstanceAs (Decidable (e' = e))
  | .other o => inferInstanceAs (Decidable (o.creates = false))
  | .line _ | .expiry | .tick => .isTrue trivial

namespace Traffic

variable {s s₀ s' : Nucleus} {x x' : Traffic} {g : Ledger} {r : Log} {t u : TaskId} {e : ExchId}
  {n : Nat} {i : Turn} {tr : List (Traffic × Turn)} {p p' : Place}

/-- The delay task turns to a task only while the mutex of its exchange is free, and nobody locks
the exchange while the delay task works on its queue. -/
def Apart (x : Traffic) : Turn → Prop
  | .line t => ∀ e, (x.place t).locks e → ¬ x.expiry.worksOn e
  | .expiry => x.expiry = .first → ∀ t e, x.s.word0 .delayHead = .task t →
      x.s.delay (.task t) = 0 → x.s.exchange t = .exch e → x.s.mutex e = false
  | _ => True

/-- All threads are in calls on one exchange, or in none. -/
def At (e : ExchId) (x : Traffic) : Prop := ∀ t e', (x.place t).exch = some e' → e' = e

/-- A call goes on at its exchange. -/
theorem placeStep_exch {b : Bool} (h : placeStep n b s t p = .ok (s', p')) :
    p' = .out ∨ p'.exch = p.exch := by
  cases p with
  | out => cases h
  | send e m l =>
    apply (sendStep_place h).imp_right
    intro hp
    obtain ⟨l', rfl, -⟩ := hp
    rfl
  | acpt e l =>
    cases l with
    | lock =>
      obtain ⟨-, h⟩ := require_bind_eq_ok.mp h
      cases h
      exact .inr rfl
    | enter =>
      cases h
      exact .inr rfl
    | fetch =>
      obtain ⟨s₁, -, h⟩ := Exec.bind_eq_ok.mp h
      cases h
      exact .inr rfl
    | release =>
      cases h
      exact .inl rfl
  | wait e d l =>
    obtain ⟨-, h⟩ := require_bind_eq_ok.mp h
    obtain ⟨⟨s₁, l'⟩, -, h⟩ := Exec.bind_eq_ok.mp h
    cases h
    cases l with
    | release => exact .inl rfl
    | _ => exact .inr rfl
  | asleep e d =>
    obtain ⟨-, h⟩ := require_bind_eq_ok.mp h
    cases h
    exact .inr rfl
  | relock e d =>
    obtain ⟨-, h⟩ := require_bind_eq_ok.mp h
    cases h
    exact .inr rfl
  | wake e d =>
    simp only [placeStep] at h
    split at h <;> cases h
    exact .inr rfl
  | leave e d =>
    cases h
    exact .inl rfl

/-- Calls on the exchange stay at it. -/
theorem At.step (h : x.At e) (hi : i.On e) (hs : x.next n i = .ok x') : x'.At e := by
  have goes : ∀ {u s' p}, (∀ e', p.exch = some e' → e' = e) → (x.go u s' p).At e := by
    intro u s' p hp t e' he
    by_cases htu : t = u
    · subst htu
      exact hp e' (by simpa using he)
    · exact h t e' (by simpa [htu] using he)
  cases i with
  | send u e' m =>
    obtain ⟨-, hs⟩ := require_bind_eq_ok.mp hs
    cases hs
    exact goes fun e'' he ↦ Option.some.inj he ▸ hi
  | acpt u e' =>
    obtain ⟨-, hs⟩ := require_bind_eq_ok.mp hs
    cases hs
    exact goes fun e'' he ↦ Option.some.inj he ▸ hi
  | wait u e' d =>
    obtain ⟨-, hs⟩ := require_bind_eq_ok.mp hs
    cases hs
    exact goes fun e'' he ↦ Option.some.inj he ▸ hi
  | isnd u e' =>
    obtain ⟨-, hs⟩ := require_bind_eq_ok.mp hs
    split at hs <;> cases hs
    · exact goes fun e'' he ↦ Option.some.inj he ▸ hi
    · exact h
  | line u =>
    obtain ⟨⟨s', p'⟩, h₁, hs⟩ := Exec.bind_eq_ok.mp hs
    cases hs
    apply goes
    intro e' he
    rcases placeStep_exch h₁ with rfl | hp
    · cases he
    · exact h u e' (hp ▸ he)
  | expiry | tick | other =>
    obtain ⟨-, hs⟩ := require_bind_eq_ok.mp hs
    obtain ⟨y, -, hs⟩ := Exec.bind_eq_ok.mp hs
    cases hs
    exact h

/-- On one exchange nobody comes in between the read and the write of `tail_task`, and a message is
sent by one thread at a time, so that the delay task alone makes the difference. -/
theorem Inv.orderly (h : Inv x g r) (hat : x.At e) (hi : i.On e) (ha : x.Apart i) :
    x.Orderly i ∨ ∀ n, x.next n i = .error .blocked := by
  have hmutex : ∀ {u e'}, (x.place u).holds e' → e' = e ∧ x.s.mutex e = true := by
    intro u e' hh
    obtain rfl := hat u e' hh.exch
    obtain ⟨_, hl, -⟩ := h.locked hh
    exact ⟨rfl, h.books.mutex hl.hold⟩
  cases i with
  | line t =>
    by_cases hlock : ∃ e' m, x.place t = .send e' m .lock ∧ x.s.mutex e = true
    · obtain ⟨e', m, hp, hm⟩ := hlock
      obtain rfl : e' = e := hat t e' (by rw [hp]; rfl)
      exact .inr fun n ↦ by simp [next, hp, placeStep, sendStep, require, hm]
    refine .inl ⟨ha, fun e' d hp u e'' d' hu ↦ ?_, fun e' m hp _ u hu ↦ ?_⟩
    · obtain rfl : t = u := by
        have ht : (x.place t).holds e := by
          obtain rfl : e' = e := hat t e' (by rw [hp]; rfl)
          rw [hp]
          exact ⟨rfl, by simp, by simp⟩
        apply h.intact.one_holder ht
        obtain rfl : e'' = e := hat u e'' (by rw [hu]; rfl)
        rw [hu]
        exact ⟨rfl, by simp, by simp⟩
      rw [hp] at hu
      cases hu
    · refine hlock ⟨e', m, hp, ?_⟩
      cases hpu : x.place u with
      | send e'' m' l =>
        have hh : (x.place u).holds e'' := by
          rw [hpu] at hu ⊢
          cases l <;> first | exact hu.elim | exact ⟨rfl, by simp, by simp⟩
        exact (hmutex hh).2
      | _ =>
        rw [hpu] at hu
        exact hu.elim
  | expiry => exact .inl ha
  | other o =>
    refine .inl ⟨Nucleus.fresh_of_not_creates hi, ?_⟩
    rintro t n size now rfl
    cases hi
  | send | isnd | acpt | wait | tick => exact .inl trivial

/-- What is to hold at each point: the queue of tasks and the delay list are whole, every search
comes to the link in front of its task, every wait is attended to once, by one hand-off or one
time-out, every accepted message is handed over, queued or carried by the sender that holds the
exchange, and a turn comes to its end or has to wait. -/
structure Answers (e : ExchId) (x : Traffic) (r : Log) : Prop where
  tasks : ∃ ts, Fifo x.s.word2 .null (.exch e) (lastOf e ts) (ts.map .task)
  delays : ∃ dl, DelayList x.s.word0 x.s.word1 x.s.delay dl
  finds : ∀ {t e' a}, x.expiry = .search t e' a → x.place rqdelaytaskTd = .out →
    ∃ k p, alone k x = .ok { x with expiry := .readLink t e' p } ∧ x.s.word2 p = .task t
  attended : ∀ t, Attended x t (r.past t)
  balanced : ∃ mq way, Balanced x r mq way
  turn : ∀ i, i.On e → x.Apart i →
    (∃ x', Yields (fun n ↦ x.next n i) x') ∨ ∀ n, x.next n i = .error .blocked

/-- The ledger tells that a search finds its task. -/
theorem Inv.finds {a : Addr} (h : Inv x g r) (hx : x.expiry = .search t e a)
    (h0 : x.place rqdelaytaskTd = .out) :
    ∃ k p, alone k x = .ok { x with expiry := .readLink t e p } ∧ x.s.word2 p = .task t := by
  have hl := h.expiry
  rw [hx] at hl
  obtain ⟨-, l, ts, htq, ha⟩ := hl
  have hf := h.books.links e
  have hnd := h.books.tq_nodup e
  rw [htq] at hf hnd
  have htl : t ∉ l := fun hm ↦ (List.nodup_append.mp hnd).2.2 t hm t (by simp) rfl
  obtain ⟨xs, ys, hs⟩ := List.append_of_mem ha
  -- what lies between the place of the search and the task
  have hys : Addr.task t ∉ ys ∧ Addr.null ∉ a :: ys := by
    have hsub : ∀ b ∈ a :: ys, b ∈ Addr.exch e :: l.map .task := fun b hb ↦ by
      rw [hs]
      exact List.mem_append_right _ hb
    refine ⟨fun hm ↦ ?_, fun hm ↦ ?_⟩
    · have := hsub _ (List.mem_cons_of_mem _ hm)
      simp [htl] at this
    · have := hsub _ hm
      simp at this
  have hth : Threads x.s.word2 (xs ++ a :: (ys ++ .task t :: (ts.map Addr.task ++ [.null]))) := by
    have h₁ := hf.threads
    rw [List.map_append, List.append_assoc, ← List.cons_append, hs] at h₁
    simpa using h₁
  have hth : Threads x.s.word2 (a :: (ys ++ .task t :: (ts.map Addr.task ++ [.null]))) :=
    List.IsChain.right_of_append hth
  exact ⟨ys.length + 1, _, search_found h0 hx hth hys.2 hys.1 rfl, Threads.before hth⟩

/-- The ledger answers for all of it. -/
theorem Inv.answers (h : Inv x g r) (hat : x.At e) : Answers e x r where
  tasks := ⟨g.tq e, h.books.links e⟩
  delays := ⟨g.dl, h.books.delays⟩
  finds := h.finds
  attended := h.attended
  balanced := ⟨g.mq, g.carried, h.balanced⟩
  turn i hi ha := by
    rcases h.orderly hat hi ha with ho | hb
    · exact h.intact.turn i ho
    · exact .inr hb

/-- In every run of calls on one exchange in which nobody comes between the delay task and the queue
of the exchange, every search finds its task, every wait ends with one message or one time-out, and
no message is lost. -/
theorem timedWaits_of_run (hb : Booted s) (hr : Interleaved (start s) tr x)
    (he : ∀ i ∈ tr.map Prod.snd, i.On e) (ha : Throughout (fun _ y i ↦ Apart y i) tr) :
    Always (fun tr y ↦ Answers e y (log tr)) tr x := by
  have hon : Throughout (fun _ _ i ↦ i.On e) tr := by
    rintro a y b rfl
    exact he _ (by simp)
  have hall : Throughout (fun _ y i ↦ i.On e ∧ Apart y i) tr := fun a y b h ↦
    ⟨hon a y b h, ha a y b h⟩
  refine (hr.always (J := fun tr y ↦ (∃ g, Inv y g (log tr)) ∧ y.At e)
    ⟨⟨.empty, inv_start hb⟩, fun t e' h ↦ by cases h⟩ ?_ hall).mono
    fun tr y ⟨⟨g, hI⟩, hat⟩ ↦ hI.answers hat
  rintro tr y i z ⟨⟨g, hI⟩, hat⟩ ⟨hi, hapart⟩ hs
  obtain ⟨n, hn⟩ := hs
  refine ⟨?_, hat.step hi hn⟩
  rw [log_snoc]
  rcases hI.orderly hat hi hapart with ho | hblock
  · exact (hI.turn ho).of_step ⟨n, hn⟩
  · rw [hblock n] at hn
    cases hn

/-- Task 4 waits twice on exchange 5, gets the message of task 3 once and the time-out once. -/
theorem timedWaits_of_run_twoWaits : ∃ tr x, Interleaved (start oneOwner) tr x ∧
    tr.map Prod.snd = twoWaits ∧ x.s.message 4 = .msg .timeOut ∧
    Always (fun tr y ↦ Answers 5 y (log tr)) tr x := by
  obtain ⟨tr, x, hr, hl, ho, hm⟩ := exists_twoWaits
  refine ⟨tr, x, hr, hl, hm, timedWaits_of_run oneOwner_booted hr ?_ fun a y b h ↦ ?_⟩
  · rw [hl]
    decide
  · have ho := ho a y b h
    cases hi : y.2 with
    | line t =>
      rw [hi] at ho
      exact ho.1
    | expiry =>
      rw [hi] at ho
      exact ho
    | send | isnd | acpt | wait | tick | other => trivial

/-- Task 3 has unlinked task 4 when the delay task comes to it, and the delay task searches on. -/
def lostSearch : List Turn :=
  .wait 4 5 1 :: List.replicate 9 (.line 4) ++ .tick :: .send 3 5 (.user 0) ::
  List.replicate 5 (.line 3) ++ List.replicate 3 .expiry

/-- Task 3 has read `task_head` when the delay task times out task 4, and then goes on. -/
def bothDeliver : List Turn :=
  .wait 4 5 1 :: List.replicate 9 (.line 4) ++ .tick :: .send 3 5 (.user 0) ::
  List.replicate 3 (.line 3) ++ List.replicate 10 .expiry ++ List.replicate 8 (.line 3)

/-- A search runs off the end of the queue when a sender comes in before it, and when the delay task
comes in before a sender unlinks the task, the task is posted twice and the message replaces the
time-out. -/
theorem timedWaits_fails :
    (∃ tr x, Interleaved (start oneOwner) tr x ∧ tr.map Prod.snd = lostSearch ∧
      (∀ i ∈ tr.map Prod.snd, i.On 5) ∧ x.expiry = .search 4 5 .null ∧
      (∀ n, x.next n .expiry = .error .fault) ∧ ¬ Answers 5 x (log tr)) ∧
    ∃ tr x, Interleaved (start oneOwner) tr x ∧ tr.map Prod.snd = bothDeliver ∧
      (∀ i ∈ tr.map Prod.snd, i.On 5) ∧ x.place 4 = .asleep 5 1 ∧ x.s.sema 4 = 2 ∧
      x.s.message 4 = .msg (.user 0) := by
  constructor
  · obtain ⟨tr, x, hr, hl, hp⟩ := Trace.exists_of_foldlM (s := start oneOwner) (f := next 9)
      (p := fun x ↦ x.expiry == .search 4 5 .null && x.place rqdelaytaskTd == .out)
      (l := lostSearch) (fun a i b h ↦ show Step a i b from ⟨9, h⟩) (by decide +kernel)
    simp only [Bool.and_eq_true, beq_iff_eq] at hp
    obtain ⟨hx, h0⟩ := hp
    have hf : ∀ n, x.next n .expiry = .error .fault := fun n ↦ by
      simp [next, require, h0, hx, expiryStep, deref]
    refine ⟨tr, x, hr, hl, by rw [hl]; decide, hx, hf, fun h ↦ ?_⟩
    have ha : x.Apart .expiry := fun h1 ↦ by
      rw [hx] at h1
      cases h1
    rcases h.turn .expiry trivial ha with ⟨x', hy⟩ | hb
    · obtain ⟨N, hy⟩ := hy
      have := (hf N).symm.trans (hy N le_rfl)
      cases this
    · have := (hf 0).symm.trans (hb 0)
      cases this
  · obtain ⟨tr, x, hr, hl, hp⟩ := Trace.exists_of_foldlM (s := start oneOwner) (f := next 9)
      (p := fun x ↦ x.place 4 == .asleep 5 1 && x.s.sema 4 == 2 &&
        x.s.message 4 == .msg (.user 0))
      (l := bothDeliver) (fun a i b h ↦ show Step a i b from ⟨9, h⟩) (by decide +kernel)
    simp only [Bool.and_eq_true, beq_iff_eq, and_assoc] at hp
    exact ⟨tr, x, hr, hl, by rw [hl]; decide, hp⟩

end Traffic

end YRmx
