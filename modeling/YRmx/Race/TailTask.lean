import YRmx.Props.Queues
import YRmx.Race.Lines

/-!
# Two calls of `reqwait` on different exchanges

Library `YRmx`. The static `tail_task` is the one word that the two calls share. As long as no
call reads it in while the other one is about to write through it, both append to their own
queues as one after the other would; otherwise the task that read it first is lost to its
exchange.
-/

namespace YRmx

open Intrusive Transition

/-- Two calls on different exchanges by tasks that wait nowhere. -/
structure Calls.Setup (c : Bool → Caller) (s₀ : Nucleus) (tq : ExchId → List TaskId) : Prop where
  exch_inj : ∀ {i j}, (c i).exch = (c j).exch → i = j
  task_inj : ∀ {i j}, (c i).task = (c j).task → i = j
  idle : ∀ i e, (c i).task ∉ tq e
  disjoint : ∀ {e e' u}, u ∈ tq e → u ∈ tq e' → e = e'
  head : ∀ i, s₀.messageHead (c i).exch = .null ∨ ∃ m, s₀.messageHead (c i).exch = .msg m

/-- The words at offset 16 that a call may write. -/
def Caller.Foot (c : Caller) (ts : List TaskId) (a : Addr) : Prop :=
  a = .exch c.exch ∨ a = .task c.task ∨ ∃ u ∈ ts, a = .task u

/-- How far the queue `ts` of the exchange has been changed by a call that began in `s₀`. -/
def Phase (s₀ s : Nucleus) (c : Caller) (ts : List TaskId) : Line → Prop
  | .lock | .enter => TaskQueue s c.exch ts
  | .clear => s₀.messageHead c.exch = .null ∧ TaskQueue s c.exch ts
  | .test => s₀.messageHead c.exch = .null ∧ TaskQueue s c.exch ts ∧ s.link c.task = .null
  | .setHead => s₀.messageHead c.exch = .null ∧ TaskQueue s c.exch ts ∧ s.link c.task = .null ∧
      ts = []
  | .readTail => s₀.messageHead c.exch = .null ∧ TaskQueue s c.exch ts ∧ s.link c.task = .null ∧
      ts ≠ []
  | .writeLink => s₀.messageHead c.exch = .null ∧ TaskQueue s c.exch ts ∧ s.link c.task = .null ∧
      ts ≠ [] ∧ s.tailTask = s.taskTail c.exch
  | .setTail => s₀.messageHead c.exch = .null ∧
      Fifo s.word2 .null (.exch c.exch) (.task c.task) ((ts ++ [c.task]).map .task)
  | .check | .delay | .unlock => s₀.messageHead c.exch = .null ∧ TaskQueue s c.exch (ts ++ [c.task])
  | .fetch | .release => s₀.messageHead c.exch ≠ .null ∧ TaskQueue s c.exch ts
  | .done => TaskQueue s c.exch (if s₀.messageHead c.exch = .null then ts ++ [c.task] else ts)

variable {c : Caller} {s₀ s s' : Nucleus} {ts : List TaskId} {l l' : Line} {fuel : Nat}

/-! ### The queue of one call -/

private theorem TaskQueue.setTail {e : ExchId} {t : TaskId}
    (h : Fifo s.word2 .null (.exch e) (.task t) (ts.map .task)) :
    TaskQueue { s with taskTail := Function.update s.taskTail e (.task t) } e ts := by
  show Fifo s.word2 .null (.exch e) (Function.update s.taskTail e (.task t) e) _
  rwa [Function.update_self]

/-- A call takes its own queue through its lines. -/
theorem Phase.step (h : Phase s₀ s c ts l) (ht : c.task ∉ ts)
    (hm : l = .enter → s.messageHead c.exch = s₀.messageHead c.exch)
    (hs : lineStep fuel s c l = .ok (s', l')) : Phase s₀ s' c ts l' := by
  have hfresh : Addr.task c.task ∉ Addr.exch c.exch :: ts.map .task := by simpa using ht
  cases l with
  | lock =>
    obtain ⟨-, hs⟩ := require_bind_eq_ok.mp hs
    cases hs
    exact h
  | enter =>
    cases hs
    have hm := hm rfl
    by_cases hh : s.messageHead c.exch = .null
    · rw [if_pos hh]
      exact ⟨hm ▸ hh, h⟩
    · rw [if_neg hh]
      exact ⟨hm ▸ hh, h⟩
  | clear =>
    cases hs
    refine ⟨h.1, h.2.frame ?_ (fun u hu ↦ ?_) rfl, Function.update_self ..⟩
    · simp
    · have hne : u ≠ c.task := fun he ↦ ht (he ▸ hu)
      simp [hne]
  | test =>
    cases hs
    obtain ⟨h0, hq, hl⟩ := h
    have hnil : s.taskHead c.exch = .null ↔ ts = [] :=
      hq.head_null_iff.trans List.map_eq_nil_iff
    by_cases hh : s.taskHead c.exch = .null
    · rw [if_pos hh]
      exact ⟨h0, hq, hl, hnil.mp hh⟩
    · rw [if_neg hh]
      exact ⟨h0, hq, hl, fun hx ↦ hh (hnil.mpr hx)⟩
  | setHead =>
    cases hs
    obtain ⟨h0, hq, hl, rfl⟩ := h
    have htail : s.taskTail c.exch = .exch c.exch := hq.tail_root_iff.mpr rfl
    refine ⟨h0, ?_⟩
    have ha := hq.append_cleared hfresh (by simp) hl
    rwa [htail] at ha
  | readTail =>
    cases hs
    obtain ⟨h0, hq, hl, hne⟩ := h
    exact ⟨h0, hq, hl, hne, rfl⟩
  | writeLink =>
    obtain ⟨p, hp, hs⟩ := Exec.bind_eq_ok.mp hs
    obtain ⟨-, rfl⟩ := deref_eq_ok.mp hp
    cases hs
    obtain ⟨h0, hq, hl, -, htail⟩ := h
    refine ⟨h0, ?_⟩
    rw [htail, List.map_append]
    exact hq.append_cleared hfresh (by simp) hl
  | setTail =>
    cases hs
    exact ⟨h.1, .setTail h.2⟩
  | check =>
    simp only [lineStep] at hs
    split at hs
    · cases hs
    · cases hs
      exact h
  | delay =>
    obtain ⟨s₁, h₁, hs⟩ := Exec.bind_eq_ok.mp hs
    cases hs
    obtain ⟨h2, h3, -⟩ := startDelay_words h₁
    exact ⟨h.1, h.2.frame (by simp [h2]) (by simp [h2]) (by simp [h3])⟩
  | unlock =>
    cases hs
    show TaskQueue _ _ (if _ then _ else _)
    rw [if_pos h.1]
    exact h.2
  | fetch =>
    obtain ⟨s₁, h₁, hs⟩ := Exec.bind_eq_ok.mp hs
    cases hs
    obtain ⟨h2, h3, -⟩ := reqdqmsg_words h₁
    exact ⟨h.1, h.2.frame (by simp [h2]) (by simp [h2]) (by simp [h3])⟩
  | release =>
    cases hs
    show TaskQueue _ _ (if _ then _ else _)
    rw [if_neg h.1]
    exact h.2
  | done => cases hs

/-- The queue of a call only depends on its own words, and on `tail_task` while the call is
about to write through it. -/
theorem Phase.frame (h : Phase s₀ s c ts l) (h2 : ∀ a, c.Foot ts a → s'.word2 a = s.word2 a)
    (h3 : s'.taskTail c.exch = s.taskTail c.exch)
    (h4 : l = .writeLink → s'.tailTask = s.tailTask) : Phase s₀ s' c ts l := by
  have hhead : s'.taskHead c.exch = s.taskHead c.exch := h2 _ (.inl rfl)
  have hlink : s'.link c.task = s.link c.task := h2 _ (.inr (.inl rfl))
  have hts : ∀ u ∈ ts, s'.link u = s.link u := fun u hu ↦ h2 _ (.inr (.inr ⟨u, hu, rfl⟩))
  have happ : ∀ u ∈ ts ++ [c.task], s'.link u = s.link u := by
    intro u hu
    rcases List.mem_append.mp hu with hu | hu
    · exact hts u hu
    · rw [List.mem_singleton.mp hu, hlink]
  have hq : TaskQueue s c.exch ts → TaskQueue s' c.exch ts := fun hq ↦ hq.frame hhead hts h3
  have hq' : TaskQueue s c.exch (ts ++ [c.task]) → TaskQueue s' c.exch (ts ++ [c.task]) :=
    fun hq ↦ hq.frame hhead happ h3
  cases l with
  | lock | enter => exact hq h
  | clear | fetch | release => exact ⟨h.1, hq h.2⟩
  | test => exact ⟨h.1, hq h.2.1, hlink.trans h.2.2⟩
  | setHead | readTail => exact ⟨h.1, hq h.2.1, hlink.trans h.2.2.1, h.2.2.2⟩
  | writeLink =>
    obtain ⟨h0, h1, hl, hne, ht⟩ := h
    exact ⟨h0, hq h1, hlink.trans hl, hne, by rw [h4 rfl, ht, h3]⟩
  | setTail =>
    refine ⟨h.1, h.2.congr hhead fun a ha ↦ ?_⟩
    obtain ⟨u, hu, rfl⟩ := List.mem_map.mp ha
    exact happ u hu
  | check | delay | unlock => exact ⟨h.1, hq' h.2⟩
  | done =>
    show TaskQueue s' c.exch (if _ then _ else _)
    by_cases h0 : s₀.messageHead c.exch = .null
    · rw [if_pos h0]
      exact hq' ((if_pos h0).subst (motive := fun q ↦ TaskQueue s c.exch q) h)
    · rw [if_neg h0]
      exact hq ((if_neg h0).subst (motive := fun q ↦ TaskQueue s c.exch q) h)

/-- A call writes its own words at offset 16 and the tail of its own exchange, and `tail_task`
only where it reads it in. -/
theorem Phase.foot (h : Phase s₀ s c ts l) (hs : lineStep fuel s c l = .ok (s', l')) :
    (∀ a, ¬ c.Foot ts a → s'.word2 a = s.word2 a) ∧
    (∀ e, e ≠ c.exch → s'.taskTail e = s.taskTail e) ∧
    (l ≠ .readTail → s'.tailTask = s.tailTask) := by
  cases l with
  | lock =>
    obtain ⟨-, hs⟩ := require_bind_eq_ok.mp hs
    cases hs
    exact ⟨fun _ _ ↦ rfl, fun _ _ ↦ rfl, fun _ ↦ rfl⟩
  | enter | test | unlock | release =>
    cases hs
    exact ⟨fun _ _ ↦ rfl, fun _ _ ↦ rfl, fun _ ↦ rfl⟩
  | clear =>
    cases hs
    exact ⟨fun a ha ↦ Function.update_of_ne (fun he ↦ ha (.inr (.inl he))) _ _, fun _ _ ↦ rfl,
      fun _ ↦ rfl⟩
  | setHead =>
    cases hs
    exact ⟨fun a ha ↦ Function.update_of_ne (fun he ↦ ha (.inl he)) _ _, fun _ _ ↦ rfl,
      fun _ ↦ rfl⟩
  | readTail =>
    cases hs
    exact ⟨fun _ _ ↦ rfl, fun _ _ ↦ rfl, fun hne ↦ absurd rfl hne⟩
  | writeLink =>
    obtain ⟨p, hp, hs⟩ := Exec.bind_eq_ok.mp hs
    obtain ⟨-, rfl⟩ := deref_eq_ok.mp hp
    cases hs
    obtain ⟨-, hq, -, -, htail⟩ := h
    refine ⟨fun a ha ↦ Function.update_of_ne ?_ _ _, fun _ _ ↦ rfl, fun _ ↦ rfl⟩
    rintro rfl
    rw [htail] at ha
    rcases List.mem_cons.mp hq.tail_mem with he | hm
    · exact ha (.inl he)
    · obtain ⟨u, hu, he⟩ := List.mem_map.mp hm
      exact ha (.inr (.inr ⟨u, hu, he.symm⟩))
  | setTail =>
    cases hs
    exact ⟨fun _ _ ↦ rfl, fun e he ↦ Function.update_of_ne he _ _, fun _ ↦ rfl⟩
  | check =>
    simp only [lineStep] at hs
    split at hs
    · cases hs
    · cases hs
      exact ⟨fun _ _ ↦ rfl, fun _ _ ↦ rfl, fun _ ↦ rfl⟩
  | delay =>
    obtain ⟨s₁, h₁, hs⟩ := Exec.bind_eq_ok.mp hs
    cases hs
    obtain ⟨h2, h3, h4⟩ := startDelay_words h₁
    exact ⟨fun a _ ↦ congrFun h2 a, fun e _ ↦ congrFun h3 e, fun _ ↦ h4⟩
  | fetch =>
    obtain ⟨s₁, h₁, hs⟩ := Exec.bind_eq_ok.mp hs
    cases hs
    obtain ⟨h2, h3, h4, -⟩ := reqdqmsg_words h₁
    exact ⟨fun a _ ↦ congrFun h2 a, fun e _ ↦ congrFun h3 e, fun _ ↦ h4⟩
  | done => cases hs

/-! ### The words that the calls share with others -/

/-- The call has not been in its part under `delay_list_mutex`. -/
def Line.beforeDelay : Line → Bool
  | .unlock | .fetch | .release | .done => false
  | _ => true

/-- The call may still look at `message_head`. -/
def Line.beforeFetch : Line → Bool
  | .lock | .enter | .fetch => true
  | _ => false

/-- What a line does to the delay list and to the heads of the message queues. -/
structure Carries (s : Nucleus) (c : Caller) (l : Line) (dl : List (TaskId × Nat)) (s' : Nucleus)
    (l' : Line) : Prop where
  delays : ∃ dl', DelayList s'.word0 s'.word1 s'.delay dl' ∧ (dl'.map Prod.fst).Nodup ∧
    (∀ u, u ≠ c.task → u ∈ dl'.map Prod.fst → u ∈ dl.map Prod.fst) ∧
    (l'.beforeDelay → c.task ∉ dl'.map Prod.fst)
  heads : ∀ e, e ≠ c.exch → s'.messageHead e = s.messageHead e
  own : l'.beforeFetch → l.beforeFetch ∧ s'.messageHead c.exch = s.messageHead c.exch

private theorem Carries.of_eq {dl : List (TaskId × Nat)}
    (hd : DelayList s.word0 s.word1 s.delay dl) (hn : (dl.map Prod.fst).Nodup)
    (ht : l.beforeDelay → c.task ∉ dl.map Prod.fst) (h0 : s'.word0 = s.word0)
    (h1 : s'.word1 = s.word1) (h2 : s'.delay = s.delay) (hb : l'.beforeDelay → l.beforeDelay)
    (hf : l'.beforeFetch → l.beforeFetch) : Carries s c l dl s' l' where
  delays := by
    rw [h0, h1, h2]
    exact ⟨dl, hd, hn, fun _ _ hu ↦ hu, fun hx ↦ ht (hb hx)⟩
  heads e _ := by rw [Nucleus.messageHead, h0]
  own hx := ⟨hf hx, by rw [Nucleus.messageHead, h0]⟩

/-- A line inserts the caller into the delay list, or leaves it alone. -/
theorem lineStep_carries {dl : List (TaskId × Nat)}
    (hd : DelayList s.word0 s.word1 s.delay dl) (hn : (dl.map Prod.fst).Nodup)
    (ht : l.beforeDelay → c.task ∉ dl.map Prod.fst)
    (hm : l = .fetch → ∃ m, s.messageHead c.exch = .msg m)
    (hs : lineStep fuel s c l = .ok (s', l')) : Carries s c l dl s' l' := by
  cases l with
  | lock =>
    obtain ⟨-, hs⟩ := require_bind_eq_ok.mp hs
    cases hs
    exact .of_eq hd hn ht rfl rfl rfl (fun _ ↦ rfl) fun _ ↦ rfl
  | enter =>
    cases hs
    exact .of_eq hd hn ht rfl rfl rfl (fun _ ↦ rfl) fun _ ↦ rfl
  | test =>
    cases hs
    refine .of_eq hd hn ht rfl rfl rfl (fun _ ↦ rfl) fun hx ↦ ?_
    split at hx <;> cases hx
  | clear | setHead | readTail | setTail | unlock | release =>
    cases hs
    exact .of_eq hd hn ht rfl rfl rfl (fun hx ↦ hx) fun hx ↦ hx
  | writeLink =>
    obtain ⟨p, hp, hs⟩ := Exec.bind_eq_ok.mp hs
    cases hs
    exact .of_eq hd hn ht rfl rfl rfl (fun hx ↦ hx) fun hx ↦ hx
  | check =>
    simp only [lineStep] at hs
    split at hs
    · cases hs
    · cases hs
      exact .of_eq hd hn ht rfl rfl rfl (fun hx ↦ hx) fun hx ↦ hx
  | delay =>
    obtain ⟨s₁, h₁, hs⟩ := Exec.bind_eq_ok.mp hs
    cases hs
    unfold startDelay at h₁
    split at h₁
    case isFalse =>
      cases h₁
      exact .of_eq hd hn ht rfl rfl rfl (fun _ ↦ rfl) fun hx ↦ hx
    case isTrue h0 =>
      obtain ⟨s₂, hy, hi⟩ := hd.insertDelay (s := s.ctl (·.setStatus c.task delayed)) hn (ht rfl) h0
      obtain rfl := hy.unique ((insertDelay_mono _ _).yields h₁)
      have hperm := (List.perm_orderedInsert due (c.task, c.delay.toNat) dl).map Prod.fst
      refine ⟨⟨_, hi.delays, ?_, fun u hu hm ↦ ?_, fun hx ↦ by cases hx⟩, fun e _ ↦ ?_,
        fun hx ↦ by cases hx⟩
      · exact hperm.nodup_iff.mpr (List.nodup_cons.mpr ⟨ht rfl, hn⟩)
      · exact (List.mem_cons.mp (hperm.mem_iff.mp hm)).resolve_left hu
      · exact hi.word0 _ (by simp) (by simp)
  | fetch =>
    obtain ⟨s₁, h₁, hs⟩ := Exec.bind_eq_ok.mp hs
    cases hs
    obtain ⟨m, hm⟩ := hm rfl
    obtain ⟨-, -, -, h2, h0, h1⟩ := reqdqmsg_words h₁
    rw [hm] at h0
    refine ⟨⟨dl, ?_, hn, fun _ _ hu ↦ hu, fun hx ↦ by cases hx⟩, fun e he ↦ ?_,
      fun hx ↦ by cases hx⟩
    · rw [h2]
      exact hd.frame (h0 _ (by simp) (by simp)) (fun t ↦ h0 _ (by simp) (by simp))
        (h1 _ (by simp)) fun t ↦ h1 _ (by simp)
    · exact h0 _ (by simpa using he) (by simp)
  | done => cases hs

/-! ### Both calls -/

section

variable {cs : Bool → Caller} {tq : ExchId → List TaskId} {x x' : Calls} {i j : Bool}

/-- The line of `i` does not read `tail_task` in while the other call is about to write through
it. -/
def Calls.Apart (x : Calls) (i : Bool) : Prop :=
  ¬ (x.line i = .readTail ∧ x.line (!i) = .writeLink)

instance : Decidable (x.Apart i) := inferInstanceAs (Decidable (¬ (_ ∧ _)))

/-- No word was written that belongs to somebody else. -/
structure Separate (cs : Bool → Caller) (s₀ : Nucleus) (tq : ExchId → List TaskId) (x : Calls) :
    Prop where
  phase : ∀ i, Phase s₀ x.s (cs i) (tq (cs i).exch) (x.line i)
  others : ∀ e, (∀ i, e ≠ (cs i).exch) → TaskQueue x.s e (tq e)
  delays : ∃ dl, DelayList x.s.word0 x.s.word1 x.s.delay dl ∧ (dl.map Prod.fst).Nodup ∧
    ∀ i, (x.line i).beforeDelay → (cs i).task ∉ dl.map Prod.fst
  head : ∀ i, (x.line i).beforeFetch →
    x.s.messageHead (cs i).exch = s₀.messageHead (cs i).exch

private theorem Calls.Setup.foot_ne (h : Calls.Setup cs s₀ tq) {e : ExchId} (he : e ≠ (cs i).exch)
    {a : Addr} (ha : a = .exch e ∨ ∃ u ∈ tq e, a = .task u) :
    ¬ (cs i).Foot (tq (cs i).exch) a := by
  rcases ha with rfl | ⟨u, hu, rfl⟩
  · rintro (hx | hx | ⟨v, -, hx⟩) <;> cases hx
    exact he rfl
  · rintro (hx | hx | ⟨v, hv, hx⟩) <;> cases hx
    · exact h.idle i e hu
    · exact he (h.disjoint hu hv)

private theorem Calls.Setup.foot_disjoint (h : Calls.Setup cs s₀ tq) (hij : j ≠ i) {a : Addr}
    (ha : (cs j).Foot (tq (cs j).exch) a) : ¬ (cs i).Foot (tq (cs i).exch) a := by
  have he : (cs j).exch ≠ (cs i).exch := fun hx ↦ hij (h.exch_inj hx)
  rcases ha with rfl | rfl | ⟨u, hu, rfl⟩
  · exact h.foot_ne he (.inl rfl)
  · rintro (hx | hx | ⟨v, hv, hx⟩)
    · cases hx
    · exact hij (h.task_inj (Addr.task.inj hx))
    · exact h.idle j _ (Addr.task.inj hx ▸ hv)
  · exact h.foot_ne he (.inr ⟨u, hu, rfl⟩)

/-- Two calls that keep apart stay separate. -/
theorem Separate.step (hx : Separate cs s₀ tq x) (hset : Calls.Setup cs s₀ tq) (ha : x.Apart i)
    (hs : Calls.Step cs x i x') : Separate cs s₀ tq x' := by
  obtain ⟨fuel, s', l, hs, rfl⟩ := hs
  obtain ⟨h2, h3, h4⟩ := (hx.phase i).foot hs
  obtain ⟨dl, hd, hn, hin⟩ := hx.delays
  have hfetch : x.line i = .fetch → ∃ m, x.s.messageHead (cs i).exch = .msg m := by
    intro hl
    rw [hx.head i (by rw [hl]; rfl)]
    have hp := hx.phase i
    rw [hl] at hp
    exact (hset.head i).resolve_left hp.1
  have hcar := lineStep_carries hd hn (hin i) hfetch hs
  constructor
  · intro j
    show Phase s₀ s' (cs j) (tq (cs j).exch) (Function.update x.line i l j)
    by_cases hj : j = i
    · subst hj
      rw [Function.update_self]
      exact (hx.phase j).step (hset.idle j _) (fun hl ↦ hx.head j (by rw [hl]; rfl)) hs
    · rw [Function.update_of_ne hj]
      refine (hx.phase j).frame (fun a hfa ↦ h2 a (hset.foot_disjoint hj hfa))
        (h3 _ fun he ↦ hj (hset.exch_inj he)) fun hl ↦ h4 fun hr ↦ ha ⟨hr, ?_⟩
      have hji : j = !i := by
        cases i <;> cases j <;> simp_all
      rwa [← hji]
  · intro e he
    have hne := he i
    exact (hx.others e he).frame (h2 _ (hset.foot_ne hne (.inl rfl)))
      (fun u hu ↦ h2 _ (hset.foot_ne hne (.inr ⟨u, hu, rfl⟩))) (h3 e hne)
  · obtain ⟨dl', hd', hn', hsub, hown⟩ := hcar.delays
    refine ⟨dl', hd', hn', fun j hj ↦ ?_⟩
    show (cs j).task ∉ _
    by_cases hji : j = i
    · subst hji
      exact hown (by simpa using hj)
    · have hb : (x.line j).beforeDelay := by simpa [hji] using hj
      exact fun hm ↦ hin j hb (hsub _ (fun ht ↦ hji (hset.task_inj ht)) hm)
  · intro j hj
    show s'.messageHead (cs j).exch = _
    by_cases hji : j = i
    · subst hji
      obtain ⟨hb, hh⟩ := hcar.own (by simpa using hj)
      rw [hh, hx.head j hb]
    · have hb : (x.line j).beforeFetch := by simpa [hji] using hj
      rw [hcar.heads _ fun he ↦ hji (hset.exch_inj he), hx.head j hb]

/-! ### A lost task -/

/-- The call has read `tail_task` in. -/
def Line.late : Line → Bool
  | .writeLink | .setTail | .check | .delay | .unlock | .done => true
  | _ => false

/-- Nobody will write through the last waiting task `p` of some queue any more. -/
structure Lost (x : Calls) (p : Addr) : Prop where
  late : ∀ i, (x.line i).late
  link : x.s.word2 p = .null
  tailTask : x.s.tailTask ≠ p

/-- What is lost stays lost. -/
theorem Lost.step {p : Addr} (h : Lost x p) (hs : Calls.Step cs x i x') : Lost x' p := by
  obtain ⟨fuel, s', l, hs, rfl⟩ := hs
  have hstep : l.late ∧ s'.word2 p = .null ∧ s'.tailTask ≠ p := by
    have hl := h.late i
    cases hline : x.line i with
    | writeLink =>
      rw [hline] at hs
      obtain ⟨q, hq, hs⟩ := Exec.bind_eq_ok.mp hs
      obtain ⟨-, rfl⟩ := deref_eq_ok.mp hq
      cases hs
      exact ⟨rfl, (Function.update_of_ne h.tailTask.symm _ _).trans h.link, h.tailTask⟩
    | setTail | unlock =>
      rw [hline] at hs
      cases hs
      exact ⟨rfl, h.link, h.tailTask⟩
    | check =>
      rw [hline] at hs
      simp only [lineStep] at hs
      split at hs
      · cases hs
      · cases hs
        exact ⟨rfl, h.link, h.tailTask⟩
    | delay =>
      rw [hline] at hs
      obtain ⟨s₁, h₁, hs⟩ := Exec.bind_eq_ok.mp hs
      cases hs
      obtain ⟨h2, -, h4⟩ := startDelay_words h₁
      exact ⟨rfl, (congrFun h2 p).trans h.link, h4 ▸ h.tailTask⟩
    | done =>
      rw [hline] at hs
      cases hs
    | _ =>
      rw [hline] at hl
      cases hl
  refine ⟨fun j ↦ ?_, hstep.2.1, hstep.2.2⟩
  show (Function.update x.line i l j).late
  by_cases hj : j = i
  · rw [hj, Function.update_self]
    exact hstep.1
  · rw [Function.update_of_ne hj]
    exact h.late j

/-- A call that reads `tail_task` in while the other one is about to write through it takes the
last waiting task of the other exchange out of reach. -/
theorem Separate.lost (hx : Separate cs s₀ tq x) (hset : Calls.Setup cs s₀ tq)
    (ha : ¬ x.Apart i) (hs : Calls.Step cs x i x') :
    ∃ l u, tq (cs (!i)).exch = l ++ [u] ∧ s₀.messageHead (cs (!i)).exch = .null ∧
      Lost x' (.task u) := by
  obtain ⟨hread, hwrite⟩ := not_not.mp ha
  have hpi := hx.phase i
  have hpj := hx.phase (!i)
  rw [hread] at hpi
  rw [hwrite] at hpj
  obtain ⟨-, hqi, -⟩ := hpi
  obtain ⟨h0, hqj, -, hnej, -⟩ := hpj
  obtain ⟨l, u, hlu⟩ := (List.eq_nil_or_concat' _).resolve_left hnej
  refine ⟨l, u, hlu, h0, ?_⟩
  obtain ⟨fuel, s', l', hs, rfl⟩ := hs
  rw [hread] at hs
  cases hs
  refine ⟨fun k ↦ ?_, ?_, ?_⟩
  · show (Function.update x.line i .writeLink k).late
    by_cases hk : k = i
    · rw [hk, Function.update_self]
      rfl
    · have hki : k = !i := by
        cases i <;> cases k <;> simp_all
      rw [Function.update_of_ne hk, hki, hwrite]
      rfl
  · show x.s.word2 (.task u) = .null
    have hq : Fifo x.s.word2 .null (.exch (cs (!i)).exch) (x.s.taskTail (cs (!i)).exch)
        (l.map Addr.task ++ Addr.task u :: []) := by
      have hm := hqj
      rw [hlu] at hm
      simpa [TaskQueue] using hm
    rw [hq.link_eq]
    rfl
  · show x.s.taskTail (cs i).exch ≠ .task u
    intro he
    rcases List.mem_cons.mp hqi.tail_mem with hm | hm
    · rw [he] at hm
      cases hm
    · rw [he] at hm
      obtain ⟨v, hv, hvu⟩ := List.mem_map.mp hm
      obtain rfl : v = u := Addr.task.inj hvu
      have hee := hset.disjoint hv (show v ∈ tq (cs (!i)).exch by simp [hlu])
      have hii := hset.exch_inj hee
      cases i <;> cases hii

/-- An interleaving keeps apart and separate, or it has lost a task. -/
theorem Interleaving.separate_or_lost {is : List (Calls × Bool)} (hset : Calls.Setup cs s₀ tq)
    (h0 : Separate cs s₀ tq x) (hr : Interleaving cs x is x') :
    (∀ y ∈ is, y.1.Apart y.2) ∧ Separate cs s₀ tq x' ∨
    (¬ ∀ y ∈ is, y.1.Apart y.2) ∧ ∃ i l u, tq (cs i).exch = l ++ [u] ∧
      s₀.messageHead (cs i).exch = .null ∧ Lost x' (.task u) := by
  induction hr with
  | nil => exact .inl ⟨by simp, h0⟩
  | @snoc is y i z _ hs ih =>
    rcases ih with ⟨hap, hsep⟩ | ⟨hap, j, l, u, hlu, hh, hl⟩
    · by_cases ha : y.Apart i
      · refine .inl ⟨fun w hw ↦ ?_, hsep.step hset ha hs⟩
        rcases List.mem_append.mp hw with hw | hw
        · exact hap w hw
        · rwa [List.mem_singleton.mp hw]
      · exact .inr ⟨fun hx ↦ ha (hx (y, i) (by simp)), _, hsep.lost hset ha hs⟩
    · exact .inr ⟨fun hx ↦ hap fun w hw ↦ hx w (by simp [hw]), j, l, u, hlu, hh, hl.step hs⟩

/-! ### Against the calls one after the other -/

/-- The tasks that the two calls add to a queue. -/
def joined (cs : Bool → Caller) (s : Nucleus) (e : ExchId) : List TaskId :=
  [false, true].flatMap fun i ↦
    if (cs i).exch = e ∧ s.messageHead e = .null then [(cs i).task] else []

/-- Calls that kept separate have added their tasks. -/
theorem Separate.queues (hx : Separate cs s₀ tq x) (hset : Calls.Setup cs s₀ tq)
    (hdone : ∀ i, x.line i = .done) (e : ExchId) : TaskQueue x.s e (tq e ++ joined cs s₀ e) := by
  by_cases he : ∃ i, (cs i).exch = e
  · obtain ⟨i, rfl⟩ := he
    have hp := hx.phase i
    rw [hdone i] at hp
    have hne : (cs (!i)).exch ≠ (cs i).exch := fun hx ↦ by
      have := hset.exch_inj hx
      cases i <;> cases this
    have hj : tq (cs i).exch ++ joined cs s₀ (cs i).exch =
        if s₀.messageHead (cs i).exch = .null then tq (cs i).exch ++ [(cs i).task]
        else tq (cs i).exch := by
      by_cases h0 : s₀.messageHead (cs i).exch = .null <;> cases i <;> simp_all [joined]
    rw [hj]
    exact hp
  · have hj : joined cs s₀ e = [] := by
      unfold joined
      rw [not_exists] at he
      simp [he]
    rw [hj, List.append_nil]
    exact hx.others e fun i hi ↦ he ⟨i, hi.symm⟩

/-- The calls one after the other add the same tasks. -/
theorem Board.two_waits {b b₁ b₂ : Board} (hI : b.Inv) (hI₁ : b₁.Inv)
    (h₁ : b.step (.reqwait (cs false).task (cs false).exch (cs false).delay) = .ok b₁)
    (h₂ : b₁.step (.reqwait (cs true).task (cs true).exch (cs true).delay) = .ok b₂)
    (hS : Sim s b) (hne : (cs false).exch ≠ (cs true).exch) (e : ExchId) :
    b₂.tq e = b.tq e ++ joined cs s e := by
  have ht₁ : b₁.tq e = if (cs false).exch = e ∧ b.mq e = [] then b.tq e ++ [(cs false).task]
      else b.tq e := (step_lists hI h₁ e).2.1
  have hm₁ : b₁.mq e = if (cs false).exch = e then (b.mq e).tail else b.mq e :=
    (step_lists hI h₁ e).1
  have ht₂ : b₂.tq e = if (cs true).exch = e ∧ b₁.mq e = [] then b₁.tq e ++ [(cs true).task]
      else b₁.tq e := (step_lists hI₁ h₂ e).2.1
  have hh := hS.messageHead_null e
  rw [ht₂, hm₁, ht₁]
  unfold joined
  by_cases h1 : (cs false).exch = e
  · have h2 : (cs true).exch ≠ e := fun hx ↦ hne (h1.trans hx.symm)
    by_cases h0 : b.mq e = [] <;> simp_all
  · by_cases h2 : (cs true).exch = e <;> by_cases h0 : b.mq e = [] <;> simp_all

/-- Two calls of `reqwait` on different exchanges leave the task queues as the calls one after
the other do if and only if no call reads `tail_task` in while the other one is about to write
through it. -/
theorem reqwait_interleaved {s₁ s₂ : Nucleus} {tr : List (Nucleus × Op)} {b₀ : Nucleus}
    {is : List (Calls × Bool)} (hb : Booted b₀) (hr : Run b₀ tr s)
    (hok : ∀ y ∈ tr, y.1.Calm y.2 ∧ y.1.Fresh y.2)
    (hexch : (cs false).exch ≠ (cs true).exch) (htask : (cs false).task ≠ (cs true).task)
    (hA : Step s (.reqwait (cs false).task (cs false).exch (cs false).delay) s₁)
    (hB : Step s₁ (.reqwait (cs true).task (cs true).exch (cs true).delay) s₂)
    (his : Interleaving cs ⟨s, fun _ ↦ .lock⟩ is x) (hdone : ∀ i, x.line i = .done) :
    (∀ e ts, TaskQueue s₂ e ts → TaskQueue x.s e ts) ↔ ∀ y ∈ is, y.1.Apart y.2 := by
  obtain ⟨b, hS, hI⟩ := hr.calm hb hok
  have hfresh : ∀ (s : Nucleus) (t e d), s.Fresh (.reqwait t e d) := fun _ _ _ _ ↦ trivial
  obtain ⟨b₁, hb₁, hS₁, hI₁⟩ := hS.forward hI (Nucleus.calm_of_sends rfl) (hfresh ..) hA
  obtain ⟨b₂, hb₂, hS₂, -⟩ := hS₁.forward hI₁ (Nucleus.calm_of_sends rfl) (hfresh ..) hB
  have hq₂ : ∀ e, TaskQueue s₂ e (b.tq e ++ joined cs s e) := fun e ↦ by
    rw [← Board.two_waits hI hI₁ hb₁ hb₂ hS hexch]
    exact hS₂.tasks e
  have hidle : ∀ i e, (cs i).task ∉ b.tq e := by
    rintro (_ | _) e hm
    · exact (hI.free_of_user (require_bind_eq_ok.mp hb₁).1).1 ⟨e, hm⟩
    · refine (hI₁.free_of_user (require_bind_eq_ok.mp hb₂).1).1 ⟨e, ?_⟩
      rw [(Board.step_lists hI hb₁ e).2.1]
      show _ ∈ if _ then _ else _
      split
      · exact List.mem_append_left _ hm
      · exact hm
  have hset : Calls.Setup cs s b.tq := by
    refine ⟨fun {i j} he ↦ ?_, fun {i j} he ↦ ?_, hidle,
      fun he he' ↦ (hI.task _).tq_disjoint he he',
      fun i ↦ ?_⟩
    · cases i <;> cases j
      · rfl
      · exact absurd he hexch
      · exact absurd he.symm hexch
      · rfl
    · cases i <;> cases j
      · rfl
      · exact absurd he htask
      · exact absurd he.symm htask
      · rfl
    · have hh : s.messageHead (cs i).exch = _ := (hS.messages (cs i).exch).head_eq
      rw [hh]
      cases b.mq (cs i).exch with
      | nil => exact .inl rfl
      | cons m ms => exact .inr ⟨m, rfl⟩
  have hsep : Separate cs s b.tq ⟨s, fun _ ↦ .lock⟩ := by
    refine ⟨fun i ↦ hS.tasks _, fun e _ ↦ hS.tasks e,
      ⟨b.dl, hS.delays, hI.dl_nodup, fun i _ hm ↦ ?_⟩,
      fun _ _ ↦ rfl⟩
    obtain ⟨e, he⟩ := (hI.task (cs i).task).waits hm
    exact hidle i e he
  rcases his.separate_or_lost hset hsep with ⟨hap, hx⟩ | ⟨hap, i, l, u, hlu, hh, hl⟩
  · refine iff_of_true (fun e ts hts ↦ ?_) hap
    rw [hts.unique (hq₂ e)]
    exact hx.queues hset hdone e
  · refine iff_of_false (fun hall ↦ ?_) hap
    have hj : joined cs s (cs i).exch = [(cs i).task] := by
      unfold joined
      cases i <;> simp [hh, hexch, Ne.symm hexch]
    have hq := hall _ _ (hq₂ (cs i).exch)
    rw [hj, hlu] at hq
    have hf : Fifo x.s.word2 .null (.exch (cs i).exch) (x.s.taskTail (cs i).exch)
        (l.map Addr.task ++ Addr.task u :: [.task (cs i).task]) := by
      simpa [TaskQueue] using hq
    have hlink := hf.link_eq
    rw [hl.link] at hlink
    cases hlink

end

/-- The two calls. -/
def twoCalls (a b : Caller) (i : Bool) : Caller := bif i then b else a

/-- The second call begins while the first one has read `tail_task` and written through it. -/
theorem reqwait_interleaved_apart : ∃ tr s s₁ s₂ is x, Run boot tr s ∧
    tr.map Prod.snd = [.reqwait 3 1 0, .reqwait 4 2 5] ∧
    Step s (.reqwait 5 1 0) s₁ ∧ Step s₁ (.reqwait 6 2 7) s₂ ∧
    Interleaving (twoCalls ⟨5, 1, 0⟩ ⟨6, 2, 7⟩) ⟨s, fun _ ↦ .lock⟩ is x ∧
    is.map Prod.snd = [true, true, false, false, false, false, true, true, false, false, true,
      true, true, true, true, true, false, false, false, false] ∧
    ∀ e ts, TaskQueue s₂ e ts → TaskQueue x.s e ts := by
  obtain ⟨tr, s, hr, hos, hok, hs⟩ := exists_run (n := 9) (c := fun s o ↦ decide (s.Calm o))
    (s := boot) (l := [.reqwait 3 1 0, .reqwait 4 2 5])
    (p := fun s ↦ ((step 9 s (.reqwait 5 1 0)).toOption.any fun s₁ ↦
        (step 9 s₁ (.reqwait 6 2 7)).toOption.any fun _ ↦ true) &&
      (runTurns (fun x i ↦ decide (x.Apart i)) 9 (twoCalls ⟨5, 1, 0⟩ ⟨6, 2, 7⟩)
        ⟨s, fun _ ↦ .lock⟩ [true, true, false, false, false, false, true, true, false, false, true,
          true, true, true, true, true, false, false, false, false]).toOption.any
        fun x ↦ x.line false = .done ∧ x.line true = .done) (by decide +kernel)
  have hf := hr.fresh (fun e ↦ (boot_booted.exchanges e).messageHead) (by rw [hos]; decide)
  obtain ⟨hser, hint⟩ := Bool.and_eq_true_iff.mp hs
  obtain ⟨s₁, hA, h₁⟩ := exists_step hser
  obtain ⟨s₂, hB, -⟩ := exists_step h₁
  obtain ⟨is, x, his, hturns, hap, hdone⟩ := exists_interleaving hint
  obtain ⟨hd0, hd1⟩ := of_decide_eq_true hdone
  refine ⟨tr, s, s₁, s₂, is, x, hr, hos, hA, hB, his, hturns, ?_⟩
  refine (reqwait_interleaved boot_booted hr (fun y hy ↦ ⟨of_decide_eq_true (hok y hy), hf y hy⟩)
    (by decide) (by decide) hA hB his ?_).mpr fun y hy ↦ of_decide_eq_true (hap y hy)
  rintro (_ | _)
  · exact hd0
  · exact hd1

/-- Task 5 reads the tail of exchange 1 in, task 6 that of exchange 2, and both write through the
second one: task 5 is linked behind the task that waits at exchange 2 and in no queue of its own. -/
theorem reqwait_interleaved_lost : ∃ tr s s₁ s₂ is x, Run boot tr s ∧
    tr.map Prod.snd = [.reqwait 3 1 0, .reqwait 4 2 0] ∧
    Step s (.reqwait 5 1 0) s₁ ∧ Step s₁ (.reqwait 6 2 0) s₂ ∧
    Interleaving (twoCalls ⟨5, 1, 0⟩ ⟨6, 2, 0⟩) ⟨s, fun _ ↦ .lock⟩ is x ∧
    (∀ i, x.line i = .done) ∧ x.s.link 3 = .null ∧ x.s.link 4 = .task 5 ∧
    TaskQueue s₂ 1 [3, 5] ∧ ¬ TaskQueue x.s 1 [3, 5] := by
  obtain ⟨tr, s, hr, hos, -, hs⟩ := exists_run (n := 9) (c := fun _ _ ↦ true)
    (s := boot) (l := [.reqwait 3 1 0, .reqwait 4 2 0])
    (p := fun s ↦ ((step 9 s (.reqwait 5 1 0)).toOption.any fun s₁ ↦
        (step 9 s₁ (.reqwait 6 2 0)).toOption.any fun s₂ ↦ s₂.taskHead 1 = .task 3 ∧
          s₂.link 3 = .task 5 ∧ s₂.link 5 = .null ∧ s₂.taskTail 1 = .task 5) &&
      (runTurns (fun _ _ ↦ true) 9 (twoCalls ⟨5, 1, 0⟩ ⟨6, 2, 0⟩)
        ⟨s, fun _ ↦ .lock⟩ [false, false, false, false, false, true, true, true, true, true,
          true, true, true, true, true, false, false, false, false, false]).toOption.any
        fun x ↦ x.line false = .done ∧ x.line true = .done ∧ x.s.link 3 = .null ∧
          x.s.link 4 = .task 5) (by decide +kernel)
  obtain ⟨hser, hint⟩ := Bool.and_eq_true_iff.mp hs
  obtain ⟨s₁, hA, h₁⟩ := exists_step hser
  obtain ⟨s₂, hB, h₂⟩ := exists_step h₁
  obtain ⟨h3, h4, h5, h6⟩ := of_decide_eq_true h₂
  obtain ⟨is, x, his, -, -, hx⟩ := exists_interleaving hint
  obtain ⟨hd0, hd1, hl3, hl4⟩ := of_decide_eq_true hx
  refine ⟨tr, s, s₁, s₂, is, x, hr, hos, hA, hB, his, ?_, hl3, hl4, ?_, fun hq ↦ ?_⟩
  · rintro (_ | _)
    · exact hd0
    · exact hd1
  · exact ⟨List.isChain_cons_cons.mpr ⟨h3, List.isChain_cons_cons.mpr
      ⟨h4, List.isChain_cons_cons.mpr ⟨h5, .singleton _⟩⟩⟩, h6, by simp⟩
  · have hf : Fifo x.s.word2 .null (.exch 1) (x.s.taskTail 1) ([] ++ Addr.task 3 :: [.task 5]) := hq
    have hlink := hf.link_eq
    rw [show x.s.word2 (.task 3) = .null from hl3] at hlink
    cases hlink

end YRmx
