import YRmx.Race.Guarantees

/-!
# Taking up a task whose delay has run down

Library `YRmx`. `rqdelaytask` looks for the task in the queue of its exchange without the mutex of
the exchange. Left alone it finds the task and posts its semaphore unless a sender has unlinked the
task already: then it runs off the end of the queue.
-/

namespace YRmx.Traffic

open Intrusive Transition

variable {s : Nucleus} {x y : Traffic} {g : Ledger} {r : Log} {t u : TaskId} {e : ExchId}
  {tr : List (Traffic × Turn)}

/-- The delay task takes so many lines without being disturbed; none of them takes fuel. -/
def alone : Nat → Traffic → Exec Traffic
  | 0, x => .ok x
  | k + 1, x => do
    let x ← x.next 0 .expiry
    alone k x

/-- A line of the delay task. -/
theorem alone_succ (k : Nat) {s' : Nucleus} {l' : ExpiryLine} (h0 : x.place rqdelaytaskTd = .out)
    (h : expiryStep x.s x.expiry = .ok (s', l')) :
    alone (k + 1) x = alone k { x with s := s', expiry := l' } := by
  simp only [alone, next, require, h0, if_pos, h, Exec.ok_bind]

/-- Lines one after the other. -/
theorem alone_add {j k : Nat} (h : alone j x = .ok y) : alone (j + k) x = alone k y := by
  induction j generalizing x with
  | zero =>
    cases h
    rw [Nat.zero_add]
  | succ j ih =>
    rw [Nat.succ_add, alone]
    obtain ⟨z, hz, h⟩ := Exec.bind_eq_ok.mp h
    rw [hz]
    exact ih h

/-! ### The search -/

/-- A search for a task that is not in the queue runs off its end. -/
theorem search_lost {a : Addr} {xs : List Addr} (h0 : x.place rqdelaytaskTd = .out)
    (hx : x.expiry = .search t e a) (hth : Threads x.s.word2 (a :: (xs ++ [.null])))
    (hn : .null ∉ a :: xs) (ht : .task t ∉ xs) : alone (xs.length + 2) x = .error .fault := by
  have ha : a ≠ .null := fun he ↦ hn (by simp [he])
  induction xs generalizing x a with
  | nil =>
    have hl : x.s.word2 a = .null := threads_pair.mp hth
    have h1 : expiryStep x.s x.expiry = .ok (x.s, .search t e .null) := by
      simp [hx, expiryStep, deref, ha, hl]
    rw [List.length_nil, alone_succ 1 h0 h1]
    simp [alone, next, require, h0, expiryStep, deref]
  | cons b xs ih =>
    obtain ⟨hl, hth⟩ := threads_cons_cons.mp hth
    have hb : b ≠ .null := fun he ↦ hn (by simp [he])
    have hne : b ≠ .task t := fun he ↦ ht (by simp [he])
    have h1 : expiryStep x.s x.expiry = .ok (x.s, .search t e b) := by
      simp only [hx, expiryStep, deref, if_neg ha, Exec.ok_bind, hl, if_neg hne]
    rw [List.length_cons, show xs.length + 1 + 2 = (xs.length + 2) + 1 by omega, alone_succ _ h0 h1]
    exact ih h0 rfl hth (fun hm ↦ hn (List.mem_cons_of_mem _ hm))
      (fun hm ↦ ht (List.mem_cons_of_mem _ hm)) hb

/-- A search for a task in the queue comes to the node in front of it. -/
theorem search_found {a p : Addr} {xs ys : List Addr} (h0 : x.place rqdelaytaskTd = .out)
    (hx : x.expiry = .search t e a) (hth : Threads x.s.word2 (a :: (xs ++ .task t :: ys)))
    (hn : .null ∉ a :: xs) (ht : .task t ∉ xs) (hp : p = xs.getLastD a) :
    alone (xs.length + 1) x = .ok { x with expiry := .readLink t e p } := by
  subst hp
  have ha : a ≠ .null := fun he ↦ hn (by simp [he])
  induction xs generalizing x a with
  | nil =>
    have hl : x.s.word2 a = .task t := (threads_cons_cons.mp hth).1
    have h1 : expiryStep x.s x.expiry = .ok (x.s, .readLink t e a) := by
      simp [hx, expiryStep, deref, ha, hl]
    rw [List.length_nil, alone_succ 0 h0 h1]
    rfl
  | cons b xs ih =>
    obtain ⟨hl, hth⟩ := threads_cons_cons.mp hth
    have hb : b ≠ .null := fun he ↦ hn (by simp [he])
    have hne : b ≠ .task t := fun he ↦ ht (by simp [he])
    have h1 : expiryStep x.s x.expiry = .ok (x.s, .search t e b) := by
      simp only [hx, expiryStep, deref, if_neg ha, Exec.ok_bind, hl, if_neg hne]
    rw [List.length_cons, alone_succ _ h0 h1, List.getLastD_cons]
    exact ih h0 rfl hth (fun hm ↦ hn (List.mem_cons_of_mem _ hm))
      (fun hm ↦ ht (List.mem_cons_of_mem _ hm)) hb

/-! ### The task that is taken up -/

/-- The first task of the delay list, and where it is when the delay task comes to it. -/
theorem Inv.takes_up (h : Inv x g r) (hx : x.expiry = .first)
    (hd : x.s.word0 .delayHead = .task t) : g.Timed t ∧
    ((∃ e, g.serve t = .queued e) ∨ ∃ u, g.serve t = .taken (.thread u)) := by
  have hnext := h.books.delays.next_head
  have htm : g.Timed t := by
    cases hdl : g.dl with
    | nil =>
      rw [hdl, hd] at hnext
      cases hnext
    | cons p dl =>
      rw [hdl, hd] at hnext
      obtain rfl := Addr.task.inj hnext
      simp [Ledger.Timed, hdl]
  obtain ⟨hi, hp⟩ := h.books.timed htm
  refine ⟨htm, ?_⟩
  cases hs : g.serve t with
  | idle => exact absurd hs hi
  | posted => exact absurd hs hp
  | queued e => exact .inl ⟨e, rfl⟩
  | taken a =>
    cases a with
    | thread u => exact .inr ⟨u, rfl⟩
    | delayTask =>
      have hserve : x.expiry.serves t := h.taken hs
      rw [hx] at hserve
      exact hserve.elim

/-- A task that a sender has taken is looked for in vain. -/
theorem Inv.takes_lost (h : Inv x g r) (h0 : x.place rqdelaytaskTd = .out) (hx : x.expiry = .first)
    (hd : x.s.word0 .delayHead = .task t) (hz : x.s.delay (.task t) = 0)
    (hu : (x.place u).serves t) : ∃ k, alone k x = .error .fault := by
  have hs := h.serving hu
  obtain ⟨htm, -⟩ := h.takes_up hx hd
  obtain ⟨e, he, -⟩ := h.taken_exchange hs htm
  have hf := h.books.links e
  have hnot : Addr.task t ∉ (g.tq e).map Addr.task := by
    intro hm
    have hq := h.books.mem_iff.mp (show t ∈ g.tq e by simpa using hm)
    rw [hs] at hq
    cases hq
  have h1 : expiryStep x.s x.expiry = .ok (x.s, .search t e (.exch e)) := by
    simp [hx, expiryStep, hd, deref, hz, asTask, he, asExch]
  refine ⟨((g.tq e).map Addr.task).length + 2 + 1, ?_⟩
  rw [alone_succ _ h0 h1]
  exact search_lost h0 rfl hf.threads hf.fresh hnot

/-- A task that stands in a queue is found there, and its semaphore is posted. -/
theorem Inv.takes_found (h : Inv x g r) (h0 : x.place rqdelaytaskTd = .out) (hx : x.expiry = .first)
    (hd : x.s.word0 .delayHead = .task t) (hz : x.s.delay (.task t) = 0)
    (hq : g.serve t = .queued e) :
    ∃ k y, alone k x = .ok y ∧ y.expiry = .first ∧ y.s.message t = .msg .timeOut ∧
      y.s.sema t = 1 := by
  obtain ⟨htm, -⟩ := h.takes_up hx hd
  have he := h.queued_exchange hq
  -- somebody works on the queue from now on, be it the delay task
  obtain ⟨g₁, hb, hn, htq, hdl, hserve⟩ : ∃ g₁, Books x.s g₁ r ∧ g₁.hold e ≠ none ∧ g₁.tq = g.tq ∧
      g₁.dl = g.dl ∧ g₁.serve = g.serve := by
    by_cases hh : g.hold e = none
    · exact ⟨g.setHold e (some .delayTask), h.books.hold (by simp), by simp, rfl, rfl, rfl⟩
    · exact ⟨g, h.books, hh, rfl, rfl, rfl⟩
  obtain ⟨l, ts, hlt⟩ := List.append_of_mem (h.books.mem_iff.mpr hq)
  have hf := h.books.links e
  have hnd := h.books.tq_nodup e
  rw [hlt] at hf hnd
  have hth : Threads x.s.word2
      (.exch e :: (l.map Addr.task ++ .task t :: (ts.map Addr.task ++ [.null]))) := by
    simpa using hf.threads
  have htl : Addr.task t ∉ l.map Addr.task := by
    have hne : t ∉ l := fun hm ↦ (List.nodup_append.mp hnd).2.2 t hm t (by simp) rfl
    simpa using hne
  have h1 : expiryStep x.s x.expiry = .ok (x.s, .search t e (.exch e)) := by
    simp [hx, expiryStep, hd, deref, hz, asTask, he, asExch]
  have h2 := search_found (x := { x with s := x.s, expiry := .search t e (.exch e) }) h0 rfl hth
    (by simp) htl rfl
  have hu := hb.unlink hn (htq ▸ hlt) .delayTask
  have hlink : x.s.link t = firstOf ts := h.books.link_eq hlt
  -- the task is unlinked, and the tail pointer corrected when it was the last one
  obtain ⟨j, s₂, g₂, h3, hctl, hb₂, htm₂⟩ : ∃ j s₂ g₂,
      alone j { x with s := x.s, expiry := .readLink t e (lastOf e l) } =
        .ok { x with s := s₂, expiry := .cancel t } ∧ s₂.toControl = x.s.toControl ∧
      Books s₂ g₂ r ∧ g₂.Timed t := by
    have htm₁ : g₁.Timed t := by rwa [Ledger.Timed, hdl]
    by_cases hts : firstOf ts = .null
    · refine ⟨3, { x.s with
        word2 := Function.update x.s.word2 (lastOf e l) (firstOf ts)
        taskTail := Function.update x.s.taskTail e (lastOf e l) }, _, ?_, rfl,
        hu.congr rfl rfl rfl rfl rfl (fun _ _ he ↦ he) (fun e' he' ↦ ?_), htm₁⟩
      · simp [alone, next, require, h0, hlink, hts, expiryStep]
      · have hne : e' ≠ e := fun he ↦ hn (he ▸ he')
        exact Function.update_of_ne hne _ _
    · refine ⟨2, { x.s with word2 := Function.update x.s.word2 (lastOf e l) (firstOf ts) }, _, ?_,
        rfl, hu, htm₁⟩
      simp [alone, next, require, h0, hlink, hts, expiryStep]
  obtain ⟨s₃, hs₃, hctl₃, -, -⟩ := hb₂.undelay htm₂
  let y : Traffic := { x with
    s := (s₃.ctl (·.setMessage t (.msg .timeOut))).ctl (·.semPost t)
    expiry := .first }
  have h4 : alone 3 { x with s := s₂, expiry := .cancel t } = .ok y := by
    simp [alone, next, require, h0, expiryStep, hs₃, y]
  refine ⟨1 + ((l.map Addr.task).length + 1 + (j + 3)), y, ?_, rfl, ?_, ?_⟩
  · rw [Nat.add_comm 1, alone_succ _ h0 h1, alone_add h2]
    exact (alone_add h3).trans h4
  · exact Function.update_self ..
  · have hsema : x.s.sema t = 0 := by simpa [hq] using h.books.sema t
    simp [y, hctl₃, hctl, hsema]

/-- In every orderly run, when the delay task comes to a task whose delay has run down and is left
alone, it posts the task, unless a sender has taken the task: then it runs off the end of the
queue. -/
theorem takeUp_of_run (h : Booted s) (hr : Interleaved (start s) tr x)
    (ho : Throughout (fun _ y i ↦ Orderly y i) tr) (h0 : x.place rqdelaytaskTd = .out)
    (hx : x.expiry = .first) (hd : x.s.word0 .delayHead = .task t)
    (hz : x.s.delay (.task t) = 0) :
    ((∀ u, ¬ (x.place u).serves t) → ∃ k y, alone k x = .ok y ∧ y.expiry = .first ∧
      y.s.message t = .msg .timeOut ∧ y.s.sema t = 1) ∧
    ((∃ u, (x.place u).serves t) → ∃ k, alone k x = .error .fault) := by
  obtain ⟨g, hI⟩ := (always_inv h hr ho).last
  refine ⟨fun hu ↦ ?_, fun ⟨u, hu⟩ ↦ hI.takes_lost h0 hx hd hz hu⟩
  obtain ⟨-, ⟨e, hq⟩ | ⟨u, hs⟩⟩ := hI.takes_up hx hd
  · exact hI.takes_found h0 hx hd hz hq
  · exact absurd (hI.taken hs) (hu u)

/-- Task 3 has just unlinked task 4 when the delay task comes to it. -/
def lateTakeUp : List Turn :=
  .wait 4 5 1 :: List.replicate 9 (.line 4) ++ .tick :: .send 3 5 (.user 0) ::
  List.replicate 5 (.line 3) ++ [.expiry]

/-- The delay task runs off the end of the queue after `lateTakeUp`. -/
theorem takeUp_of_run_late : ∃ tr x, Interleaved (start oneOwner) tr x ∧
    tr.map Prod.snd = lateTakeUp ∧ Throughout (fun _ y i ↦ Orderly y i) tr ∧
    ∃ k, alone k x = .error .fault := by
  obtain ⟨tr, x, hr, hl, ho, hp⟩ := Trace.exists_of_checked (s := start oneOwner) (f := next 9)
    (r := .blocked) (q := plain) (p := fun x ↦ x.place rqdelaytaskTd == .out &&
      x.expiry == .first && x.s.word0 .delayHead == .task 4 && x.s.delay (.task 4) == 0 &&
      x.place 3 == .send 5 (.user 0) (.setTail 4)) (l := lateTakeUp)
    (fun a i b h ↦ show Step a i b from ⟨9, h⟩) (fun _ _ h ↦ plain.orderly h) (by decide +kernel)
  simp only [Bool.and_eq_true, beq_iff_eq, and_assoc] at hp
  obtain ⟨h0, hx, hd, hz, h3⟩ := hp
  refine ⟨tr, x, hr, hl, ho, (takeUp_of_run oneOwner_booted hr ho h0 hx hd hz).2 ⟨3, ?_⟩⟩
  rw [h3]
  rfl

end YRmx.Traffic
