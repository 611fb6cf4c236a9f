import YRmx.Race.Guarantees
import YRmx.Race.Interference

/-!
# Taking a task out of the lists

Library `YRmx`. `reqdtsk` takes a waiting task out of its queue and off the delay list, without the
mutex of the exchange. While nobody else works on that queue the lists lose the task and nothing
else. A task that is in no queue, and whose hand-off or time-out is not under way, is in no list.
-/

namespace YRmx

open Intrusive Transition

/-- `reqdtsk` was called for the task. -/
def Removed (vs : List Event) (t : TaskId) : Prop := ∃ v ∈ vs, v.deletes = some t

instance (vs : List Event) (t : TaskId) : Decidable (Removed vs t) :=
  inferInstanceAs (Decidable (∃ v ∈ vs, _))

/-- One more event asks for a deletion, or leaves it asked for. -/
theorem removed_snoc {vs : List Event} {v : Event} {t : TaskId} :
    Removed (vs ++ [v]) t ↔ Removed vs t ∨ v.deletes = some t := by
  simp [Removed, or_and_right, exists_or]

/-- The thread has queued itself and written its status byte. -/
def Place.Rests : Place → Prop
  | .asleep .. | .wait _ _ .unlock => True
  | _ => False

instance (p : Place) : Decidable p.Rests :=
  match p with
  | .asleep .. => .isTrue trivial
  | .wait _ _ l => decidable_of_iff (l = .unlock) (by cases l <;> simp [Place.Rests])
  | .out | .send .. | .acpt .. | .relock .. | .wake .. | .leave .. => .isFalse not_false

/-- Where a thread would stand had it not queued itself. -/
def Place.calm : Place → Place
  | .asleep .. => .out
  | .wait e _ .unlock => .acpt e .release
  | p => p

namespace Traffic

variable {s s' : Nucleus} {x x' : Traffic} {g g' : Ledger} {r r' : Log} {t u : TaskId} {e : ExchId}
  {d : BitVec 16} {n : Nat} {i : Turn}

/-- A task that was taken and is off the delay list waits no more. -/
theorem Books.idle (h : Books s g r) {a : Agent} (ht : g.serve t = .taken a) (hd : ¬ g.Timed t) :
    Books s (g.setServe t .idle) r :=
  { h with
    mem_iff := by
      intro u e'
      have hu : u ∈ g.tq e' ↔ _ := h.mem_iff
      by_cases hut : u = t
      · subst hut
        simpa [ht] using hu
      · simpa [hut] using hu
    timed := by
      intro u hu
      by_cases hut : u = t
      · exact absurd (hut ▸ hu) hd
      · simpa [hut] using h.timed hu
    sema := fun u ↦ by
      have hu := h.sema u
      by_cases hut : u = t
      · subst hut
        simpa [ht] using hu
      · simpa [hut] using hu }

/-- The ledger without a task. -/
def Ledger.remove (g : Ledger) (t : TaskId) (e : ExchId) : Ledger :=
  ((g.setTasks e ((g.tq e).erase t)).setServe t .idle).setDelays (g.dl.filter (·.1 ≠ t))

/-- What taking a task out of the lists leaves alone. -/
structure Dequeues (s s' : Nucleus) (g : Ledger) (t : TaskId) (e : ExchId) : Prop where
  control : ∃ st, s'.toControl = s.setStatus t st
  tailTask : s'.tailTask = s.tailTask
  taskTail : ∀ e' ≠ e, s'.taskTail e' = s.taskTail e'
  complete : s'.taskTail e = lastOf e ((g.tq e).erase t)
  msgLink : ∀ m, s'.msgLink m = s.msgLink m
  link : ∀ u, (∀ e, g.serve u ≠ .queued e) → s'.link u = s.link u

private theorem Books.unlinkTask (h : Books s g r) (hq : g.serve t = .queued e)
    (hc : s.taskTail e = lastOf e (g.tq e)) :
    ∃ p, Yields (fun n ↦ findLink s t n (.exch e)) p ∧ Dequeues s (unlinkTask s e p t) g t e ∧
      Books (unlinkTask s e p t) (((g.setHold e (some .delayTask)).setTasks e
        ((g.tq e).erase t)).setServe t (.taken .delayTask)) r := by
  obtain ⟨l, ts, hlt⟩ := List.append_of_mem (h.mem_iff.mpr hq)
  have hf := h.links e
  have hnd := h.tq_nodup e
  have hlink := h.link_eq hlt
  rw [hlt] at hf hnd
  have htl : t ∉ l := fun hm ↦ (List.nodup_append.mp hnd).2.2 t hm t (by simp) rfl
  have herase : (g.tq e).erase t = l ++ ts := by
    rw [hlt, List.erase_append_right _ htl, List.erase_cons_head]
  have hlast : lastOf e l ∈ Addr.exch e :: l.map .task := List.getLastD_mem_cons
  have hw : (YRmx.unlinkTask s e (lastOf e l) t).word2 =
      Function.update s.word2 (lastOf e l) (firstOf ts) := by
    rw [← hlink, YRmx.unlinkTask]
    dsimp only
    split <;> rfl
  obtain ⟨hctl, h0, h1, hd, -, htail⟩ := unlinkTask_eq s e (lastOf e l) t
  have hcomplete : (YRmx.unlinkTask s e (lastOf e l) t).taskTail e = lastOf e (l ++ ts) := by
    rw [hlt] at hc
    have hl0 : s.word2 (.task t) = firstOf ts := hlink
    cases ts with
    | nil => simp [YRmx.unlinkTask, hl0, firstOf, lastOf]
    | cons u ts =>
      simp only [YRmx.unlinkTask, Nucleus.link, hl0, firstOf, List.map_cons, List.headD_cons,
        Function.update_self, reduceCtorEq, if_false]
      rw [hc]
      simp [lastOf]
  refine ⟨lastOf e l, ?_, ⟨⟨s.status t, ?_⟩, ?_, htail, herase ▸ hcomplete, ?_, fun u hu ↦ ?_⟩, ?_⟩
  · have hth : Threads s.word2
        (.exch e :: (l.map Addr.task ++ .task t :: (ts.map Addr.task ++ [.null]))) := by
      simpa using hf.threads
    exact findLink_yields hth (by simp) (by simpa using htl)
  · rw [hctl, Control.setStatus, Function.update_eq_self]
  · rw [YRmx.unlinkTask]
    dsimp only
    split <;> rfl
  · exact fun m ↦ congrFun h0 _
  · show (YRmx.unlinkTask s e (lastOf e l) t).word2 _ = _
    rw [hw]
    refine Function.update_of_ne (fun hx ↦ ?_) _ _
    rw [← hx] at hlast
    exact hu e (h.mem_iff.mp (by simp [hlt, show u ∈ l by simpa using hlast]))
  · have hb := (h.hold (e := e) (a := .delayTask) (by simp)).unlink (by simp) hlt .delayTask
    rw [herase]
    refine hb.congr h0 h1 hw hd (congrArg Control.sema hctl)
      (fun _ _ hm ↦ (congrFun (congrArg Control.mutex hctl) _).trans hm) fun e' he' ↦ htail e' ?_
    rintro rfl
    simp at he'

private theorem Books.leave {o : Option Agent} (h : Books s g r)
    (ht : s.taskTail e = lastOf e (g.tq e)) (hc : g.carried e = [])
    (ho : o = none ∨ ∃ v, o = some (.thread v) ∧ s.mutex e = true) :
    Books s (g.setHold e o) r := by
  rcases ho with rfl | ⟨v, rfl, hm⟩
  · exact h.release ht hc
  · exact h.hold fun _ _ ↦ hm

/-- A waiting task is taken out of its queue and off the delay list. -/
theorem Books.dequeue (h : Books s g r) (hq : g.serve t = .queued e) (hx : s.exchange t = .exch e)
    (hst : s.status t = limitStatus d) (htm : g.Timed t ↔ d ≠ 0)
    (hc : s.taskTail e = lastOf e (g.tq e)) (hcar : g.carried e = [])
    (hh : g.hold e = none ∨ ∃ v, g.hold e = some (.thread v)) :
    ∃ s', Yields (fun n ↦ dequeueDeleted n s t) s' ∧ Dequeues s s' g t e ∧
      Books s' (g.remove t e) r := by
  obtain ⟨p, hp, hdq, hb⟩ := h.unlinkTask hq hc
  obtain ⟨hctl, -⟩ := unlinkTask_eq s e p t
  have hbits : s.status t &&& (waiting ||| delayed) ≠ 0 := by
    rw [hst, limitStatus]
    split <;> decide
  have hexch : s.exchange t ≠ .null := by simp [hx]
  have hhead : s.taskHead e ≠ .null := by
    rw [ne_eq, h.taskHead_null_iff]
    exact List.ne_nil_of_mem (h.mem_iff.mpr hq)
  have hrun : Yields (fun n ↦ reqdqtsk n s t) (YRmx.unlinkTask s e p t) := by
    apply (hp.bind (g := fun _ q ↦ .ok (YRmx.unlinkTask s e q t)) (.const _)).congr
    intro n
    simp only [reqdqtsk, hx, asExch, Exec.ok_bind, if_neg hhead]
  generalize YRmx.unlinkTask s e p t = s₁ at hdq hb hctl hrun
  have hend : ∀ s₂, (if s₁.status t &&& delayed ≠ 0 then cancelDelay s₁ t else .ok s₁) = .ok s₂ →
      Yields (fun n ↦ dequeueDeleted n s t) s₂ := by
    intro s₂ hs₂
    refine (hrun.bind (g := fun _ s ↦ if s.status t &&& delayed ≠ 0 then cancelDelay s t
      else .ok s) ?_).congr fun n ↦ ?_
    · exact ⟨0, fun _ _ ↦ hs₂⟩
    · simp only [dequeueDeleted, if_pos hbits, if_pos hexch]
  have hst₁ : s₁.status t = limitStatus d := by
    rw [hctl, hst]
  have hback : Function.update (Function.update g.hold e (some .delayTask)) e
    (g.hold e) = g.hold := by
    rw [Function.update_idem, Function.update_eq_self]
  have hmutex : ∀ {s₂ : Nucleus}, s₂.mutex = s.mutex →
      g.hold e = none ∨ ∃ v, g.hold e = some (.thread v) ∧ s₂.mutex e = true := fun hm ↦
    hh.imp_right fun hv ↦ hv.imp fun v hv ↦ ⟨hv, hm ▸ h.mutex hv⟩
  by_cases hd : d = 0
  · have hnt : ¬ g.Timed t := fun ht ↦ htm.mp ht hd
    have hfilter : g.dl.filter (·.1 ≠ t) = g.dl := by
      apply List.filter_eq_self.mpr
      intro q hq'
      have hne : q.1 ≠ t := fun he ↦ hnt (he ▸ List.mem_map_of_mem hq')
      simpa using hne
    have hnd : ¬ s₁.status t &&& delayed ≠ 0 := by
      rw [hst₁, hd]
      decide
    refine ⟨s₁, hend s₁ (if_neg hnd), hdq, ?_⟩
    have hb₂ := (hb.idle (Function.update_self ..) hnt).leave (e := e)
      (by simpa using hdq.complete) hcar
      (hmutex (congrArg Control.mutex hctl))
    rw [Ledger.remove, hfilter]
    simpa [Ledger.setHold, Ledger.setTasks, Ledger.setServe, Ledger.setDelays, hback] using hb₂
  · have ht : g.Timed t := htm.mpr hd
    obtain ⟨s₂, hs₂, hctl₂, hsame, hb₂⟩ := hb.undelay (t := t) ht
    have hdl : s₁.status t &&& delayed ≠ 0 := by
      rw [hst₁, limitStatus, if_pos hd]
      decide
    refine ⟨s₂, hend s₂ (by rw [if_pos hdl]; exact hs₂), ⟨⟨_, hctl₂.trans (by rw [hctl])⟩,
      hsame.tailTask.trans hdq.tailTask, fun e' he ↦ ?_, ?_, fun m ↦ ?_, fun u hu ↦ ?_⟩, ?_⟩
    · rw [hsame.taskTail, hdq.taskTail e' he]
    · rw [hsame.taskTail, hdq.complete]
    · exact (hsame.word0 _ (by simp) (by simp)).trans (hdq.msgLink m)
    · exact (congrFun hsame.word2 _).trans (hdq.link u hu)
    · have hb₃ := (hb₂.idle (Function.update_self ..) fun hx ↦
        (Books.timed_filter.mp hx).1 rfl).leave
        (e := e) ?_ hcar (hmutex (hsame.mutex.trans (congrArg Control.mutex hctl)))
      · simpa [Ledger.remove, Ledger.setHold, Ledger.setTasks, Ledger.setServe, Ledger.setDelays,
          hback] using hb₃
      · rw [hsame.taskTail]
        simpa using hdq.complete

/-! ### At the lines -/

/-- What the status byte of a queued task says, and where it is at. -/
theorem Inv.resting (h : Inv x g r) (hq : g.serve t = .queued e) (hp : (x.place t).Rests) :
    ∃ d, x.s.status t = limitStatus d ∧ (g.Timed t ↔ d ≠ 0) ∧ (x.place t = .asleep e d ∨
      x.place t = .wait e d .unlock ∧ Locked x g t e [] ∧ Complete x g e) := by
  have ht := h.thread t
  cases hpl : x.place t with
  | asleep e' d =>
    rw [hpl] at ht
    obtain ⟨-, ht⟩ := ht
    rw [hq] at ht
    obtain ⟨rfl, hst, htm, -⟩ := ht
    exact ⟨d, hst, htm, .inl rfl⟩
  | wait e' d l =>
    rw [hpl] at ht hp
    cases l with
    | unlock =>
      obtain ⟨hj, hc, hst, htm⟩ := ht
      obtain rfl : e' = e := Stage.queued.inj (hj.serve.symm.trans hq)
      exact ⟨d, hst, htm, .inr ⟨rfl, hj.locked, hc⟩⟩
    | _ => exact hp.elim
  | _ =>
    rw [hpl] at hp
    exact hp.elim

/-- A waiting task that nobody else's work can meet is taken out of the lists. -/
theorem Inv.dequeued (h : Inv x g r) (hq : g.serve t = .queued e) (hp : (x.place t).Rests)
    (hh : ∀ v ≠ t, ¬ (x.place v).holds e) (hw : ¬ x.expiry.worksOn e) :
    ∃ s', Yields (fun n ↦ dequeueDeleted n x.s t) s' ∧ Dequeues x.s s' g t e ∧
      ∀ pc k, Inv (x.go t (s'.ctl fun c ↦ { c.setStatus t 0 with pc := pc, cancel := k })
        (x.place t).calm) (g.remove t e) r := by
  have hx := h.queued_exchange hq
  have hhold : g.hold e = none ∨ g.hold e = some (.thread t) := by
    cases ha : g.hold e with
    | none => exact .inl rfl
    | some a =>
      cases a with
      | delayTask => exact absurd (h.held ha) hw
      | thread v =>
        by_cases hv : v = t
        · exact .inr (hv ▸ rfl)
        · exact absurd (h.held ha) (hh v hv)
  obtain ⟨d, hst, htm, hown⟩ := h.resting hq hp
  obtain ⟨hc, hcar⟩ : x.s.taskTail e = lastOf e (g.tq e) ∧ g.carried e = [] := by
    rcases hown with hpl | ⟨-, hl, hc⟩
    · refine h.books.free (hhold.resolve_right fun ha ↦ ?_)
      have hold : (x.place t).holds e := h.held (a := .thread t) ha
      rw [hpl] at hold
      exact hold
    · exact ⟨hc, hl.carried⟩
  obtain ⟨s', hs', hdq, hb⟩ := h.books.dequeue hq hx hst htm hc hcar
    (hhold.imp_right fun ha ↦ ⟨t, ha⟩)
  refine ⟨s', hs', hdq, fun pc k ↦ ?_⟩
  obtain ⟨st, hctl⟩ := hdq.control
  have hcomplete : s'.taskTail e = lastOf e ((g.remove t e).tq e) := by
    rw [hdq.complete]
    simp [Ledger.remove]
  refine h.moves (by simp [hq]) (by simp [Ledger.remove]) (fun e' he' ↦ ?_)
    (hb.congr rfl rfl rfl rfl rfl (fun _ _ hm ↦ hm) fun _ _ ↦ rfl) (fun e' ↦ ?_)
    (fun u hu ↦ .inl ?_) (fun e' he' ↦ ?_) (fun u hu ↦ ?_) (.inl hdq.tailTask) ?_
  · rw [hq] at he'
    cases he'
    rcases hhold with ha | ha <;> simp [ha]
  · by_cases he : e' = e
    · subst he
      exact .inr ⟨hhold, hhold⟩
    · exact .inl ⟨rfl, by simp [Ledger.remove, he], rfl, rfl, hdq.taskTail e' he,
        fun m _ ↦ hdq.msgLink m⟩
  · refine ⟨by simp [Ledger.remove, hu], ?_, rfl, ?_, ?_, ?_, hdq.link u⟩
    · exact Books.timed_filter.trans (and_iff_right hu)
    · simp [hctl, hu]
    · simp [hctl]
    · simp [hctl]
  · have hold : (x.place t).holds e' := h.held (a := .thread t) he'
    rcases hown with hpl | ⟨hpl, -⟩ <;> rw [hpl] at hold ⊢
    · exact hold.elim
    · exact ⟨hold.1, by simp⟩
  · by_cases hut : u = t
    · simp [Ledger.remove, hut] at hu
    · have hu : g.serve u = .taken (.thread t) := by simpa [Ledger.remove, hut] using hu
      have hold : (x.place t).serves u := h.taken (a := .thread t) hu
      rcases hown with hpl | ⟨hpl, -⟩ <;> rw [hpl] at hold <;> exact hold.elim
  · have hidle : (g.remove t e).serve t = .idle := by simp [Ledger.remove]
    rcases hown with hpl | ⟨hpl, hl⟩ <;> rw [hpl]
    · exact hidle
    · exact ⟨hidle, ⟨hl.1.hold, hcar, by simp⟩, hcomplete⟩

end Traffic

end YRmx
