import YRmx.Race.Phases
import YRmx.Transition.Always

/-!
# Time-outs under preemption by the timer

Library `YRmx`. Wherever the ticks come in, the delay list of `yalrt.c` is well formed between two
calls, and no task is due before its time. What a tick in the middle of a call can do is to be
lost, for the new task, or for those behind a word that the call has already read.
-/

namespace YRmx

open Intrusive Transition

namespace Countdown

variable {s s' : Countdown} {f g : TaskId → Option Nat} {t u : TaskId} {k n : Nat}
variable {l r xs ys : List (TaskId × Nat)} {o : DelayOp}

/-! ### A step -/

/-- The bit is set. -/
theorem or_delayed (st : BitVec 8) : (st ||| delayed) &&& delayed ≠ 0 := by
  revert st
  decide

/-- The bit is cleared. -/
theorem and_not_delayed (st : BitVec 8) : st &&& ~~~delayed &&& delayed = 0 := by
  revert st
  decide

/-- A tick would find the first task due, or the end of the list. -/
def Stands (s : Countdown) : Prop :=
  s.delay (s.next .delayHead) = 0 ∨ s.delay (s.next .delayHead) = 0xFFFF

instance (s : Countdown) : Decidable s.Stands := inferInstanceAs (Decidable (_ ∨ _))

/-- The phase of the call, and the delayed bits: those of the tasks that have some time to go,
and that of a task that is being taken off. -/
structure Sound (s : Countdown) (f : TaskId → Option Nat) (n : Nat) : Prop where
  phase : Phase s f n s.line
  delayed_iff : ∀ u, s.status u &&& delayed ≠ 0 ↔ f u ≠ none ∨ s.line.clears = some u

/-- Only the last line of `cancel_delay` writes a status byte. -/
theorem lineStep_frame {l : DelayLine} (h : s.lineStep l = .ok s') (hl : ∀ t, l ≠ .clear t) :
    s'.status = s.status ∧ s'.line.clears = l.clears := by
  cases l with
  | idle => cases h
  | read t p =>
    obtain ⟨p, -, h⟩ := Exec.bind_eq_ok.mp h
    cases h
    refine ⟨rfl, ?_⟩
    show (if _ then _ else _ : DelayLine).clears = _
    split <;> rfl
  | link t | readNext t | lengthen t v =>
    obtain ⟨p, -, h⟩ := Exec.bind_eq_ok.mp h
    cases h
    exact ⟨rfl, rfl⟩
  | unlink t =>
    obtain ⟨p, -, h⟩ := Exec.bind_eq_ok.mp h
    obtain ⟨q, -, h⟩ := Exec.bind_eq_ok.mp h
    cases h
    exact ⟨rfl, rfl⟩
  | clear t => exact absurd rfl (hl t)
  | pass t p v | shorten t p v | links t p | insertTail | readOwn t v | cancelTail t =>
    cases h
    exact ⟨rfl, rfl⟩

namespace Sound

/-- A call that is under way can go on. -/
theorem line (h : Sound s f n) (hl : s.line ≠ .idle) :
    ∃ s', Step s .line s' ∧ ∃ m < n, Sound s' f m := by
  obtain ⟨s', hs, m, hm, hp⟩ := h.phase.next hl
  refine ⟨s', hs, m, hm, hp, fun u ↦ ?_⟩
  have hb := h.delayed_iff u
  have hs : s.lineStep s.line = .ok s' := hs
  by_cases hc : ∃ t, s.line = .clear t
  · obtain ⟨t, hc⟩ := hc
    have hph := h.phase
    rw [hc] at hs hb hph
    obtain ⟨-, -, -, hf, -⟩ := hph
    cases hs
    show Function.update s.status t _ u &&& delayed ≠ 0 ↔ f u ≠ none ∨
      (none : Option TaskId) = some u
    by_cases hu : u = t
    · subst hu
      rw [Function.update_self]
      simp [and_not_delayed, hf]
    · rw [Function.update_of_ne hu, hb]
      simp [DelayLine.clears, Ne.symm hu]
  · obtain ⟨hst, hcl⟩ := lineStep_frame hs fun t ht ↦ hc ⟨t, ht⟩
    rw [hst, hcl]
    exact hb

/-- The list between two calls. -/
theorem list (h : Sound s f n) (hl : s.line = .idle) :
    ∃ xs, DelayList s.next s.prev s.delay xs ∧ Times f xs := by
  have hp := h.phase
  rwa [hl] at hp

/-- A tick comes in. Between two calls it counts all tasks down, or none. -/
theorem tick (h : Sound s f n) (hs : Step s .tick s') : ∃ g, Lowers f g ∧ Sound s' g n ∧
    (s.line = .idle → s.Stands ∧ g = f ∨
      ¬ s.Stands ∧ (∀ u k, f u = some k → 0 < k) ∧ g = lower f) := by
  obtain ⟨hline, -, -, hst⟩ := tick_frame hs
  have hbits : ∀ {g}, Lowers f g → ∀ u, s'.status u &&& delayed ≠ 0 ↔
      g u ≠ none ∨ s'.line.clears = some u := by
    intro g hg u
    rw [hst, hline, h.delayed_iff u, ne_eq, ne_eq, (hg u).1]
  by_cases hl : s.line = .idle
  · obtain ⟨xs, hx, ht⟩ := h.list hl
    have hphase : ∀ {g}, (∃ xs, DelayList s'.next s'.prev s'.delay xs ∧ Times g xs) →
        Phase s' g n s'.line := by
      intro g hg
      rw [hline, hl]
      exact hg
    rcases tick_idle hx ht hs with ⟨hst, rfl⟩ | ⟨hst, hpos, hx', ht'⟩
    · exact ⟨f, .refl f, h, fun _ ↦ .inl ⟨hst, rfl⟩⟩
    · exact ⟨_, lowers_lower f, ⟨hphase ⟨_, hx', ht'⟩, hbits (lowers_lower f)⟩,
        fun _ ↦ .inr ⟨hst, hpos, rfl⟩⟩
  · obtain ⟨g, hg, hp⟩ := h.phase.tick hs
    exact ⟨g, hg, ⟨hp, hbits hg⟩, fun hi ↦ absurd hi hl⟩

/-- `reqwait` begins to queue its task. -/
theorem insert {d : BitVec 16} (h : Sound s f n) (hp : s.Proper (.insert t d))
    (hs : Step s (.insert t d) s') :
    s.line = .idle ∧ f t = none ∧ ∃ xs, DelayList s.next s.prev s.delay xs ∧
      Sound s' (Function.update f t (some d.toNat)) (2 * xs.length + 7) := by
  obtain ⟨hl, hs⟩ := require_bind_eq_ok.mp hs
  cases hs
  obtain ⟨xs, hx, ht⟩ := h.list hl
  have hf : f t = none := by
    by_contra hf
    exact (h.delayed_iff t).mpr (.inl hf) hp.2
  refine ⟨hl, hf, xs, hx, ⟨[], xs, hx.setDelay (ht.not_mem hf), .inl ⟨rfl, rfl, ?_, le_refl _⟩, ?_⟩,
    fun u ↦ ?_⟩
  · simpa using hp.1
  · have hc := ht.cons hf (k := d.toNat) (by have := d.isLt; omega)
    simpa [lastTime] using hc
  · have hb := h.delayed_iff u
    rw [hl] at hb
    show Function.update s.status t _ u &&& delayed ≠ 0 ↔ _ ∨ (none : Option TaskId) = some u
    by_cases hu : u = t
    · subst hu
      rw [Function.update_self, Function.update_self]
      exact iff_of_true (or_delayed _) (.inl (by simp))
    · rw [Function.update_of_ne hu, Function.update_of_ne hu]
      exact hb

/-- A call takes a task off. -/
theorem takes {x : DelayLine} (h : Sound s f n) (hl : s.line = .idle)
    (ht : s.status t &&& delayed ≠ 0) (hx : x = .readNext t) :
    Sound { s with line := x } (Function.update f t none) 6 := by
  subst hx
  obtain ⟨xs, hd, hT⟩ := h.list hl
  have hf : f t ≠ none := by
    have hb := (h.delayed_iff t).mp ht
    rw [hl] at hb
    exact hb.resolve_right (by simp [DelayLine.clears])
  obtain ⟨⟨v, k⟩, hm, rfl⟩ := List.mem_map.mp (hT.ne_none_iff.mp hf)
  obtain ⟨l, r, rfl⟩ := List.append_of_mem hm
  refine ⟨⟨l, r, k, hd, le_refl 6, Function.update_self .., hT.le _ hm, hT.drop⟩, fun u ↦ ?_⟩
  have hb := h.delayed_iff u
  rw [hl] at hb
  show s.status u &&& delayed ≠ 0 ↔ _ ∨ some v = some u
  by_cases hu : u = v
  · subst hu
    simpa using ht
  · rw [Function.update_of_ne hu, hb]
    simp [DelayLine.clears, Ne.symm hu]

/-- `cancel_delay` begins. -/
theorem cancel (h : Sound s f n) (hp : s.Proper (.cancel t)) (hs : Step s (.cancel t) s') :
    s.line = .idle ∧ Sound s' (Function.update f t none) 6 := by
  obtain ⟨hl, hs⟩ := require_bind_eq_ok.mp hs
  cases hs
  exact ⟨hl, h.takes hl hp rfl⟩

/-- `rqdelaytask` takes off the first task, which has no time to go. -/
theorem expire (h : Sound s f n) (hs : Step s .expire s') :
    s.line = .idle ∧ ∃ t, s.next .delayHead = .task t ∧ f t = some 0 ∧
      Sound s' (Function.update f t none) 6 := by
  obtain ⟨⟨hl, h0⟩, hs⟩ := require_bind_eq_ok.mp hs
  obtain ⟨t, ht, hs⟩ := Exec.bind_eq_ok.mp hs
  cases hs
  obtain ⟨xs, hd, hT⟩ := h.list hl
  have hn := hd.next_head
  cases xs with
  | nil =>
    rw [hn] at ht
    cases ht
  | cons p r =>
    rw [hn] at ht h0
    cases ht
    have hp : p.2 = 0 := by
      rw [← hd.delay_head, show s.delay (.task p.1) = 0 from h0]
      rfl
    have hf : f p.1 = some 0 := (hT.eq p.1 0).mpr (by rw [← hp]; exact List.mem_cons_self)
    refine ⟨hl, p.1, hn, hf, h.takes hl ((h.delayed_iff p.1).mpr (.inl ?_)) rfl⟩
    simp [hf]

end Sound

/-! ### Runs -/

/-- The task is being taken off from this step on. -/
def Takes (s : Countdown) (o : DelayOp) (t : TaskId) : Prop :=
  o = .cancel t ∨ o = .expire ∧ s.next .delayHead = .task t

/-- The lines of a run. -/
def lines (tr : List (Countdown × DelayOp)) : Nat := tr.countP fun x ↦ x.2 = .line

/-- The ticks of a run. -/
def ticks (tr : List (Countdown × DelayOp)) : Nat := tr.countP fun x ↦ x.2 = .tick

/-- The ticks between two calls that found the first task due, or the end of the list. -/
def standing (tr : List (Countdown × DelayOp)) : Nat :=
  tr.countP fun x ↦ x.2 = .tick ∧ x.1.line = .idle ∧ x.1.Stands

/-- The ticks in the middle of a call. -/
def inCall (tr : List (Countdown × DelayOp)) : Nat :=
  tr.countP fun x ↦ x.2 = .tick ∧ x.1.line ≠ .idle

variable {s₀ m : Countdown} {tr a b : List (Countdown × DelayOp)} {d : BitVec 16}

/-- A step that is no tick counts for none of them. -/
theorem counts_snoc (ho : o ≠ .tick) : ticks (b ++ [(s, o)]) = ticks b ∧
    standing (b ++ [(s, o)]) = standing b ∧ inCall (b ++ [(s, o)]) = inCall b := by
  simp [ticks, standing, inCall, ho]

/-- What the run says about the remaining times, and about the lines that the call has to go. -/
structure Recorded (tr : List (Countdown × DelayOp)) (f : TaskId → Option Nat) (n : Nat) :
    Prop where
  times : ∀ {a m t d b}, tr = a ++ (m, .insert t d) :: b → (∀ x ∈ b, ¬ Takes x.1 x.2 t) →
    ∃ k, f t = some k ∧ d.toNat + standing b ≤ k + ticks b ∧
      k + ticks b ≤ d.toNat + standing b + inCall b
  lines : ∀ {a m o b}, tr = a ++ (m, o) :: b → m.line = .idle → o ≠ .tick →
    (∀ x ∈ b, x.2 = .line ∨ x.2 = .tick) →
    ∃ xs, DelayList m.next m.prev m.delay xs ∧ lines b + n ≤ 2 * xs.length + 7

/-- The records of a run whose last step is no tick. -/
theorem Recorded.times_snoc (h : Recorded tr f n) (ho : o ≠ .tick)
    (hg : ∀ {t k}, f t = some k → ¬ Takes s o t → g t = some k)
    (hnew : ∀ {t d}, o = .insert t d → g t = some d.toNat) {a m t d b}
    (he : tr ++ [(s, o)] = a ++ (m, .insert t d) :: b) (hb : ∀ x ∈ b, ¬ Takes x.1 x.2 t) :
    ∃ k, g t = some k ∧ d.toNat + standing b ≤ k + ticks b ∧
      k + ticks b ≤ d.toNat + standing b + inCall b := by
  rcases snoc_eq_append_cons.mp he with ⟨-, hso, rfl⟩ | ⟨b, rfl, rfl⟩
  · cases hso
    exact ⟨d.toNat, hnew rfl, le_refl _, le_refl _⟩
  · obtain ⟨k, hk, hle⟩ := h.times rfl fun x hx ↦ hb x (by simp [hx])
    obtain ⟨h1, h2, h3⟩ := counts_snoc (s := s) (b := b) ho
    rw [h1, h2, h3]
    exact ⟨k, hg hk (hb (s, o) (by simp)), hle⟩

/-- The records of a run whose last step begins a call. -/
theorem Recorded.begins (h : Recorded tr f n) (ho : o ≠ .tick) (hl : o ≠ .line)
    (hg : ∀ {t k}, f t = some k → ¬ Takes s o t → g t = some k)
    (hnew : ∀ {t d}, o = .insert t d → g t = some d.toNat)
    (hx : DelayList s.next s.prev s.delay xs) {j : Nat} (hj : j ≤ 2 * xs.length + 7) :
    Recorded (tr ++ [(s, o)]) g j where
  times := h.times_snoc ho hg hnew
  lines he hm hom hb := by
    rcases snoc_eq_append_cons.mp he with ⟨-, hso, rfl⟩ | ⟨b, rfl, rfl⟩
    · cases hso
      exact ⟨xs, hx, by simpa [Countdown.lines] using hj⟩
    · exact absurd (hb (s, o) (by simp)) (by simp [ho, hl])

/-- The records of a run whose call has gone on. -/
theorem Recorded.line (h : Recorded tr f n) {j : Nat} (hj : j < n) (hl : s.line ≠ .idle) :
    Recorded (tr ++ [(s, .line)]) f j where
  times := h.times_snoc (by simp) (fun hk _ ↦ hk) (by simp)
  lines he hm hom hb := by
    rcases snoc_eq_append_cons.mp he with ⟨-, hso, rfl⟩ | ⟨b, rfl, rfl⟩
    · cases hso
      exact absurd hm hl
    · obtain ⟨xs, hx, hle⟩ := h.lines rfl hm hom fun x hx ↦ hb x (by simp [hx])
      refine ⟨xs, hx, ?_⟩
      have hc : Countdown.lines (b ++ [(s, .line)]) = Countdown.lines b + 1 := by
        simp [Countdown.lines]
      omega

/-- The records of a run whose last step is a tick. -/
theorem Recorded.tick (h : Recorded tr f n) (hg : Lowers f g)
    (hexact : s.line = .idle → s.Stands ∧ g = f ∨
      ¬ s.Stands ∧ (∀ u k, f u = some k → 0 < k) ∧ g = lower f) :
    Recorded (tr ++ [(s, .tick)]) g n where
  times {_ _ t _ _} he hb := by
    rcases snoc_eq_append_cons.mp he with ⟨-, hso, rfl⟩ | ⟨b, rfl, rfl⟩
    · cases hso
    · obtain ⟨k, hk, h1, h2⟩ := h.times rfl fun x hx ↦ hb x (by simp [hx])
      have ht : ticks (b ++ [(s, .tick)]) = ticks b + 1 := by simp [ticks]
      obtain ⟨k', hk'⟩ := Option.ne_none_iff_exists'.mp
        (mt (hg t).1.mp (by rw [hk]; exact Option.some_ne_none k))
      refine ⟨k', hk', ?_⟩
      by_cases hl : s.line = .idle
      · have hi : inCall (b ++ [(s, .tick)]) = inCall b := by simp [inCall, hl]
        rcases hexact hl with ⟨hst, rfl⟩ | ⟨hst, hpos, rfl⟩
        · have hs : standing (b ++ [(s, .tick)]) = standing b + 1 := by simp [standing, hl, hst]
          obtain rfl := Option.some.inj (hk.symm.trans hk')
          omega
        · have hs : standing (b ++ [(s, .tick)]) = standing b := by simp [standing, hst]
          have hp := hpos t k hk
          rw [lower, hk] at hk'
          have hk' : k - 1 = k' := Option.some.inj hk'
          omega
      · have hi : inCall (b ++ [(s, .tick)]) = inCall b + 1 := by simp [inCall, hl]
        have hs : standing (b ++ [(s, .tick)]) = standing b := by simp [standing, hl]
        have hkk := (hg t).2 k k' hk hk'
        omega
  lines he hm hom hb := by
    rcases snoc_eq_append_cons.mp he with ⟨-, hso, rfl⟩ | ⟨b, rfl, rfl⟩
    · cases hso
      exact absurd rfl hom
    · obtain ⟨xs, hx, hle⟩ := h.lines rfl hm hom fun x hx ↦ hb x (by simp [hx])
      have hc : Countdown.lines (b ++ [(s, .tick)]) = Countdown.lines b := by
        simp [Countdown.lines]
      exact ⟨xs, hx, by omega⟩

/-- Every step keeps the list and the records. -/
theorem Sound.step (h : Sound s f n) (hr : Recorded tr f n) (hp : s.Proper o) (hs : Step s o s') :
    ∃ g j, Sound s' g j ∧ Recorded (tr ++ [(s, o)]) g j := by
  have hother : ∀ {t u k}, f u = some k → t ≠ u → ∀ {v}, Function.update f t v u = some k := by
    intro t u k hk hu v
    rwa [Function.update_of_ne hu.symm]
  cases o with
  | insert t d =>
    obtain ⟨hl, hf, xs, hx, hs'⟩ := h.insert hp hs
    refine ⟨_, _, hs', hr.begins (by simp) (by simp) (fun hk _ ↦ hother hk ?_) ?_ hx le_rfl⟩
    · rintro rfl
      rw [hf] at hk
      cases hk
    · rintro u d he
      cases he
      exact Function.update_self ..
  | cancel t =>
    obtain ⟨hl, hs'⟩ := h.cancel hp hs
    obtain ⟨xs, hx, -⟩ := h.list hl
    refine ⟨_, _, hs', hr.begins (by simp) (by simp) (fun hk ht ↦ hother hk ?_) (by simp) hx
      (by omega)⟩
    rintro rfl
    exact ht (.inl rfl)
  | expire =>
    obtain ⟨hl, t, hn, -, hs'⟩ := h.expire hs
    obtain ⟨xs, hx, -⟩ := h.list hl
    refine ⟨_, _, hs', hr.begins (by simp) (by simp) (fun hk ht ↦ hother hk ?_) (by simp) hx
      (by omega)⟩
    rintro rfl
    exact ht (.inr ⟨rfl, hn⟩)
  | line =>
    have hl : s.line ≠ .idle := by
      intro hl
      have hs : s.lineStep s.line = .ok s' := hs
      rw [hl] at hs
      cases hs
    obtain ⟨s₁, hs₁, m, hm, hs'⟩ := h.line hl
    obtain rfl : s₁ = s' := Except.ok.inj (hs₁.symm.trans hs)
    exact ⟨f, m, hs', hr.line hm hl⟩
  | tick =>
    obtain ⟨g, hg, hs', hx⟩ := h.tick hs
    exact ⟨g, n, hs', hr.tick hg hx⟩

/-- The empty list. -/
theorem Start.sound (h : Start s) : Sound s (fun _ ↦ none) 0 where
  phase := by
    rw [h.line]
    exact ⟨[], h.list, by simp, by simp, by simp⟩
  delayed_iff u := by simp [h.status u, h.line, DelayLine.clears]

/-- What holds after every run. -/
theorem sound_of_run (h0 : Start s₀) (hr : Trace Step s₀ tr s)
    (hp : ∀ x ∈ tr, x.1.Proper x.2) : ∃ f n, Sound s f n ∧ Recorded tr f n := by
  have ha := hr.always (J := fun tr s ↦ ∃ f n, Sound s f n ∧ Recorded tr f n)
    (C := fun _ s o ↦ s.Proper o) ⟨_, 0, h0.sound, ⟨by simp, by simp⟩⟩
    (fun ⟨_, _, h, hr⟩ hp hs ↦ h.step hr hp hs) fun a x b hx ↦ hp x (by simp [hx])
  exact ha.last

/-- A tick can come in at any point. -/
theorem Sound.ticks (h : Sound s f n) : ∃ s', Step s .tick s' := by
  have hn : ∃ xs, s.next .delayHead = DelayList.front xs := by
    have hp := h.phase
    generalize s.line = l at hp
    cases l with
    | idle | clear t =>
      obtain ⟨xs, hl, -⟩ := hp
      exact ⟨xs, hl.next_head⟩
    | read t p | pass t p v =>
      obtain ⟨l, r, hl, -⟩ := hp
      exact ⟨_, hl.next_head⟩
    | shorten t p v =>
      obtain ⟨l, r, hl, -⟩ := hp
      exact ⟨_, DelayList.linked_head hl⟩
    | links t p =>
      obtain ⟨l, r, k, hl, -⟩ := hp
      exact ⟨_, DelayList.linked_head hl⟩
    | link t =>
      obtain ⟨l, r, k, next, prev, hl, hx, -⟩ := hp
      refine ⟨l ++ r, ?_⟩
      rw [hx, Function.update_of_ne (by simp)]
      exact DelayList.linked_head hl
    | insertTail | cancelTail t =>
      obtain ⟨xs, hl, -⟩ := hp
      exact ⟨_, DelayList.linked_head hl⟩
    | readNext t | readOwn t v =>
      obtain ⟨l, r, k, hl, -⟩ := hp
      exact ⟨_, hl.next_head⟩
    | lengthen t v | unlink t =>
      obtain ⟨l, r, k, hl, -⟩ := hp
      exact ⟨_, DelayList.linked_head hl⟩
  obtain ⟨xs, hn⟩ := hn
  show ∃ s', s.tick = .ok s'
  simp only [Countdown.tick, hn, deref, if_neg (DelayList.front_ne_null xs), Exec.ok_bind]
  split
  · exact ⟨s, rfl⟩
  · split <;> exact ⟨_, rfl⟩

/-- A task is queued for two ticks, and in the middle of a call that queues another one for a single
tick the timer comes in. -/
def delaying : List DelayOp :=
  .insert 3 2 :: (List.replicate 7 .line ++
    .insert 4 1 :: (List.replicate 3 .line ++ .tick :: List.replicate 4 .line))

/-- The run can be taken. -/
theorem exists_delaying : ∃ b s, Trace Step empty ([] ++ (empty, .insert 3 2) :: b) s ∧
    .insert 3 2 :: b.map Prod.snd = delaying ∧
    (∀ x ∈ [] ++ (empty, .insert 3 2) :: b, x.1.Proper x.2) ∧ s.line = .idle := by
  obtain ⟨tr, s, hr, hos, ho, hp⟩ := Trace.exists_of_checked (s := empty) (f := step)
    (r := .blocked) (Q := fun s o ↦ s.Proper o) (q := fun s o ↦ decide (s.Proper o))
    (p := fun s ↦ decide (s.line = .idle)) (l := delaying)
    (fun s o s' h ↦ (h : Step s o s')) (fun _ _ ↦ of_decide_eq_true) (by decide +kernel)
  cases tr with
  | nil => cases hos
  | cons x b =>
    obtain ⟨m, o⟩ := x
    obtain ⟨rfl, -⟩ : o = .insert 3 2 ∧ _ := List.cons.inj hos
    obtain ⟨m', ha, -, -⟩ := Trace.split (a := []) hr
    obtain rfl := Trace.nil_iff.mp ha
    refine ⟨b, s, hr, hos, fun x hx ↦ ?_, of_decide_eq_true hp⟩
    obtain ⟨a, c, he⟩ := List.append_of_mem hx
    exact ho a x c he

/-- In any run in which ticks come in at any access, the list between two calls is well formed and
holds the tasks whose delayed bit is set, no call follows a null pointer, and each one returns
after a number of lines that is bounded by the length of the list it began with. -/
theorem wellFormed_of_run (h0 : Start s₀) (hr : Trace Step s₀ tr s)
    (hp : ∀ x ∈ tr, x.1.Proper x.2) :
    (s.line = .idle → ∃ xs, DelayList s.next s.prev s.delay xs ∧ (xs.map Prod.fst).Nodup ∧
      ∀ u, u ∈ xs.map Prod.fst ↔ s.status u &&& delayed ≠ 0) ∧
    (s.line ≠ .idle → ∃ s', Step s .line s') ∧ (∃ s', Step s .tick s') ∧
    ∀ a m o b, tr = a ++ (m, o) :: b → m.line = .idle → o ≠ .tick →
      (∀ x ∈ b, x.2 = .line ∨ x.2 = .tick) →
      ∃ xs, DelayList m.next m.prev m.delay xs ∧ lines b ≤ 2 * xs.length + 7 := by
  obtain ⟨f, n, h, hrec⟩ := sound_of_run h0 hr hp
  refine ⟨fun hl ↦ ?_, fun hl ↦ ?_, h.ticks, fun a m o b he hm ho hb ↦ ?_⟩
  · obtain ⟨xs, hx, ht⟩ := h.list hl
    refine ⟨xs, hx, ht.nodup, fun u ↦ ?_⟩
    rw [h.delayed_iff, hl, ← ht.ne_none_iff]
    simp [DelayLine.clears]
  · obtain ⟨s', hs, -⟩ := h.line hl
    exact ⟨s', hs⟩
  · obtain ⟨xs, hx, hle⟩ := hrec.lines he hm ho hb
    exact ⟨xs, hx, by omega⟩

/-- A tick comes in in the middle of the second call, which ends after seven lines. -/
theorem wellFormed_of_run_delaying : ∃ tr s, Trace Step empty tr s ∧
    tr.map Prod.snd = delaying ∧ ∃ xs, DelayList s.next s.prev s.delay xs ∧
      ∀ u, u ∈ xs.map Prod.fst ↔ s.status u &&& delayed ≠ 0 := by
  obtain ⟨b, s, hr, hos, hp, hl⟩ := exists_delaying
  obtain ⟨xs, hx, -, hu⟩ := (wellFormed_of_run empty_start hr hp).1 hl
  exact ⟨_, s, hr, hos, xs, hx, hu⟩

/-- In any such run, a task that began to wait for `d` ticks and that nothing has taken off since
is never due early, and is late by the ticks that found the list standing and at most by those
that came in in the middle of a call. `rqdelaytask` takes it off accordingly. -/
theorem punctual_of_run (h0 : Start s₀) (hr : Trace Step s₀ (a ++ (m, .insert t d) :: b) s)
    (hp : ∀ x ∈ a ++ (m, .insert t d) :: b, x.1.Proper x.2)
    (hb : ∀ x ∈ b, ¬ Takes x.1 x.2 t) :
    (s.line = .idle → ∃ xs k, DelayList s.next s.prev s.delay xs ∧ (t, k) ∈ xs ∧
      d.toNat + standing b ≤ k + ticks b ∧
      k + ticks b ≤ d.toNat + standing b + inCall b) ∧
    ∀ s', Step s .expire s' → s.next .delayHead = .task t →
      d.toNat + standing b ≤ ticks b ∧ ticks b ≤ d.toNat + standing b + inCall b := by
  obtain ⟨f, n, h, hrec⟩ := sound_of_run h0 hr hp
  obtain ⟨k, hk, hle⟩ := hrec.times rfl hb
  refine ⟨fun hl ↦ ?_, fun s' hs hn ↦ ?_⟩
  · obtain ⟨xs, hx, ht⟩ := h.list hl
    exact ⟨xs, k, hx, (ht.eq t k).mp hk, hle⟩
  · obtain ⟨-, u, hu, hf, -⟩ := h.expire hs
    obtain rfl : u = t := Addr.task.inj (hu.symm.trans hn)
    obtain rfl := Option.some.inj (hk.symm.trans hf)
    simpa using hle

/-- The tick in the middle of the second call may be lost for the first task. -/
theorem punctual_of_run_delaying : ∃ b s, Trace Step empty ([] ++ (empty, .insert 3 2) :: b) s ∧
    .insert 3 2 :: b.map Prod.snd = delaying ∧
    ∃ xs k, DelayList s.next s.prev s.delay xs ∧ (3, k) ∈ xs ∧
      2 + standing b ≤ k + ticks b ∧ k + ticks b ≤ 2 + standing b + inCall b := by
  obtain ⟨b, s, hr, hos, hp, hl⟩ := exists_delaying
  refine ⟨b, s, hr, hos, (punctual_of_run empty_start hr hp fun x hx ↦ ?_).1 hl⟩
  have hb : b.map Prod.snd = delaying.tail := congrArg List.tail hos
  have hm : x.2 ∈ delaying.tail := hb ▸ List.mem_map_of_mem hx
  rintro (he | ⟨he, -⟩)
  · rw [he] at hm
    revert hm
    decide
  · rw [he] at hm
    revert hm
    decide

end Countdown

end YRmx
