import YRmx.Race.Countdown

/-!
# The delay list between two accesses

Library `YRmx`. At every line of a call the list can be completed: the invariant names the
remaining times that the tasks will have once the call has returned. A line keeps them, and a
tick lowers each of them by one or loses it.
-/

namespace YRmx

open Intrusive Transition

namespace Countdown

variable {s s' : Countdown} {f g : TaskId → Option Nat} {t u : TaskId} {k n : Nat}
variable {l r xs ys : List (TaskId × Nat)} {o : DelayOp}

/-! ### Remaining times -/

/-- The remaining times of a list of tasks. -/
structure Times (f : TaskId → Option Nat) (xs : List (TaskId × Nat)) : Prop where
  nodup : (xs.map Prod.fst).Nodup
  eq : ∀ u k, f u = some k ↔ (u, k) ∈ xs
  le : ∀ p ∈ xs, p.2 ≤ 0xFFFF

/-- The list with a tick less for every task. -/
abbrev lowered (xs : List (TaskId × Nat)) : List (TaskId × Nat) :=
  xs.map fun p ↦ (p.1, p.2 - 1)

/-- A tick less for every task. -/
def lower (f : TaskId → Option Nat) (u : TaskId) : Option Nat := (f u).map (· - 1)

/-- The time of each task is what it was, or a tick less. -/
def Lowers (f g : TaskId → Option Nat) : Prop :=
  ∀ u, (g u = none ↔ f u = none) ∧ ∀ k k', f u = some k → g u = some k' → k' ≤ k ∧ k ≤ k' + 1

namespace Times

/-- The order of the list does not matter. -/
theorem perm (h : Times f xs) (hp : xs.Perm ys) : Times f ys where
  nodup := (hp.map Prod.fst).nodup_iff.mp h.nodup
  eq u k := (h.eq u k).trans hp.mem_iff
  le p hm := h.le p (hp.mem_iff.mpr hm)

/-- The tasks are those with a time. -/
theorem ne_none_iff (h : Times f xs) : f u ≠ none ↔ u ∈ xs.map Prod.fst := by
  rw [Option.ne_none_iff_exists']
  constructor
  · rintro ⟨k, hk⟩
    exact List.mem_map_of_mem ((h.eq u k).mp hk)
  · intro hu
    obtain ⟨⟨v, k⟩, hm, rfl⟩ := List.mem_map.mp hu
    exact ⟨k, (h.eq v k).mpr hm⟩

/-- A task without a time is not in the list. -/
theorem not_mem (h : Times f xs) (hu : f u = none) : u ∉ xs.map Prod.fst :=
  fun hm ↦ h.ne_none_iff.mpr hm hu

/-- A new task. -/
theorem cons (h : Times f xs) (ht : f t = none) (hk : k ≤ 0xFFFF) :
    Times (Function.update f t (some k)) ((t, k) :: xs) where
  nodup := List.nodup_cons.mpr ⟨h.not_mem ht, h.nodup⟩
  eq u j := by
    by_cases hu : u = t
    · subst hu
      have hn : (u, j) ∉ xs := fun hm ↦ h.not_mem ht (List.mem_map_of_mem hm)
      simp [hn, eq_comm]
    · simp [hu, h.eq u j]
  le := List.forall_mem_cons.mpr ⟨hk, h.le⟩

/-- A task is taken off. -/
theorem drop (h : Times f (l ++ (t, k) :: r)) : Times (Function.update f t none) (l ++ r) := by
  have h := h.perm List.perm_middle
  obtain ⟨ht, hd⟩ := List.nodup_cons.mp h.nodup
  refine ⟨hd, fun u j ↦ ?_, fun p hp ↦ h.le p (List.mem_cons_of_mem _ hp)⟩
  by_cases hu : u = t
  · subst hu
    have hn : (u, j) ∉ l ++ r := fun hm ↦ ht (List.mem_map.mpr ⟨(u, j), hm, rfl⟩)
    simp only [Function.update_self, reduceCtorEq, hn]
  · rw [Function.update_of_ne hu, h.eq u j, List.mem_cons, or_iff_right]
    exact fun he ↦ hu (congrArg Prod.fst he)

/-- A tick less for all. -/
theorem lower (h : Times f xs) : Times (lower f) (lowered xs) where
  nodup := by
    rw [List.map_map]
    exact h.nodup
  eq u k := by
    rw [Countdown.lower, Option.map_eq_some_iff, List.mem_map]
    constructor
    · rintro ⟨j, hj, rfl⟩
      exact ⟨(u, j), (h.eq u j).mp hj, rfl⟩
    · rintro ⟨⟨v, j⟩, hm, he⟩
      cases he
      exact ⟨j, (h.eq v j).mpr hm, rfl⟩
  le p hp := by
    obtain ⟨q, hq, rfl⟩ := List.mem_map.mp hp
    exact (Nat.sub_le _ _).trans (h.le q hq)

/-- A tick less for all but one. -/
theorem lower_but (h : Times f ((t, k) :: xs)) :
    Times (Function.update (Countdown.lower f) t (f t))
      ((t, k) :: lowered xs) := by
  have hk : f t = some k := (h.eq t k).mpr List.mem_cons_self
  have hd : Times (Function.update f t none) xs := by simpa using h.drop (l := [])
  have hc := hd.lower.cons (t := t) (k := k) (by simp [Countdown.lower]) (h.le _ List.mem_cons_self)
  rw [hk]
  convert hc using 1
  ext u
  by_cases hu : u = t
  · simp [hu]
  · simp [hu, Countdown.lower]

end Times

/-- No tick. -/
theorem Lowers.refl (f : TaskId → Option Nat) : Lowers f f := fun u ↦
  ⟨.rfl, fun k k' hk hk' ↦ by
    obtain rfl := Option.some.inj (hk.symm.trans hk')
    omega⟩

/-- A tick for all. -/
theorem lowers_lower (f : TaskId → Option Nat) : Lowers f (lower f) := fun u ↦
  ⟨Option.map_eq_none_iff, fun k k' hk hk' ↦ by
    rw [lower, hk] at hk'
    have he : k - 1 = k' := Option.some.inj hk'
    omega⟩

/-- A tick for all but one. -/
theorem lowers_update (f : TaskId → Option Nat) (t : TaskId) :
    Lowers f (Function.update (lower f) t (f t)) := by
  intro u
  by_cases hu : u = t
  · subst hu
    rw [Function.update_self]
    exact Lowers.refl f u
  · rw [Function.update_of_ne hu]
    exact lowers_lower f u

/-! ### Where a call has come to -/

/-- The list, the call under way, and the remaining times once the call is over, for a call that
has `n` lines to go at most. -/
def Phase (s : Countdown) (f : TaskId → Option Nat) (n : Nat) : DelayLine → Prop
  | .idle => ∃ xs, DelayList s.next s.prev s.delay xs ∧ Times f xs
  | .read t p => ∃ l r, DelayList s.next s.prev s.delay (l ++ r) ∧
      (p = .delayHead ∧ l = [] ∧ s.delay (.task t) ≠ 0 ∧ 2 * r.length + 7 ≤ n ∨
        p = DelayList.front r ∧ 2 * r.length + 5 ≤ n) ∧
      Times f ((t, lastTime 0 l + (s.delay (.task t)).toNat) :: (l ++ r))
  | .pass t p tDelay => ∃ l r, DelayList s.next s.prev s.delay (l ++ r) ∧
      s.next p = DelayList.front r ∧ 2 * r.length + 6 ≤ n ∧ tDelay ≤ s.delay (.task t) ∧
      Times f ((t, lastTime 0 l + (s.delay (.task t) - tDelay).toNat) :: (l ++ r))
  | .shorten t p tDelay => ∃ l r, Linked s.next s.prev (DelayList.nodes (l ++ r)) ∧
      s.delay .delayHead = 0 ∧ p = DelayList.front r ∧ 4 ≤ n ∧ s.delay (.task t) ≤ tDelay ∧
      Deltas (fun u ↦ (Function.update s.delay p tDelay (.task u)).toNat) 0 (l ++ r) ∧
      Times f ((t, lastTime 0 l + (s.delay (.task t)).toNat) :: (l ++ r))
  | .links t p => ∃ l r k, Linked s.next s.prev (DelayList.nodes (l ++ r)) ∧
      s.delay .delayHead = 0 ∧ p = DelayList.front r ∧ 3 ≤ n ∧
      Deltas (fun u ↦ (s.delay (.task u)).toNat) 0 (l ++ (t, k) :: r) ∧
      Times f (l ++ (t, k) :: r)
  | .link t => ∃ l r k next prev, Linked next prev (DelayList.nodes (l ++ r)) ∧
      s.next = Function.update next (.task t) (DelayList.front r) ∧
      s.prev = Function.update (Function.update prev (.task t) (prev (DelayList.front r)))
        (DelayList.front r) (.task t) ∧
      s.delay .delayHead = 0 ∧ 2 ≤ n ∧
      Deltas (fun u ↦ (s.delay (.task u)).toNat) 0 (l ++ (t, k) :: r) ∧
      Times f (l ++ (t, k) :: r)
  | .insertTail => ∃ xs, Linked s.next s.prev (DelayList.nodes xs) ∧ s.delay .delayHead = 0 ∧
      1 ≤ n ∧ Deltas (fun u ↦ (s.delay (.task u)).toNat) 0 xs ∧ Times f xs
  | .readNext t => ∃ l r k, DelayList s.next s.prev s.delay (l ++ (t, k) :: r) ∧ 6 ≤ n ∧
      f t = none ∧ k ≤ 0xFFFF ∧ Times f (l ++ r)
  | .readOwn t nextDelay => ∃ l r k, DelayList s.next s.prev s.delay (l ++ (t, k) :: r) ∧ 5 ≤ n ∧
      nextDelay = s.delay (DelayList.front r) ∧ f t = none ∧ k ≤ 0xFFFF ∧ Times f (l ++ r)
  | .lengthen t sum => ∃ l r k, Linked s.next s.prev (DelayList.nodes (l ++ (t, k) :: r)) ∧
      s.delay .delayHead = 0 ∧ 4 ≤ n ∧ f t = none ∧
      Deltas (fun u ↦ (Function.update s.delay (DelayList.front r) sum (.task u)).toNat) 0
        (l ++ r) ∧ Times f (l ++ r)
  | .unlink t => ∃ l r k, Linked s.next s.prev (DelayList.nodes (l ++ (t, k) :: r)) ∧
      s.delay .delayHead = 0 ∧ 3 ≤ n ∧ f t = none ∧
      Deltas (fun u ↦ (s.delay (.task u)).toNat) 0 (l ++ r) ∧ Times f (l ++ r)
  | .cancelTail t => ∃ xs, Linked s.next s.prev (DelayList.nodes xs) ∧ s.delay .delayHead = 0 ∧
      2 ≤ n ∧ f t = none ∧ Deltas (fun u ↦ (s.delay (.task u)).toNat) 0 xs ∧ Times f xs
  | .clear t => ∃ xs, DelayList s.next s.prev s.delay xs ∧ 1 ≤ n ∧ f t = none ∧ Times f xs

/-! ### A line -/

/-- A delay list from its parts. -/
theorem delayList_of (h : Linked s.next s.prev (DelayList.nodes xs)) (h0 : s.delay .delayHead = 0)
    (hd : Deltas (fun u ↦ (s.delay (.task u)).toNat) 0 xs) :
    DelayList s.next s.prev (Function.update s.delay .delayTail 0xFFFF) xs :=
  ⟨h, hd.congr fun _ _ ↦ by simp, by simpa using h0, by simp⟩

/-- The test of the loop: the task passes the next one, or its place is found. -/
theorem Phase.read {p : Addr} (h : Phase s f n (.read t p)) :
    ∃ s', s.lineStep (.read t p) = .ok s' ∧ ∃ m < n, Phase s' f m s'.line := by
  obtain ⟨l, r, hl, hp, ht⟩ := h
  have hnull : p ≠ .null := by
    rcases hp with ⟨rfl, -⟩ | ⟨rfl, -⟩
    · simp
    · exact DelayList.front_ne_null r
  have hs : s.lineStep (.read t p) = .ok { s with
      line := if s.delay (.task t) > s.delay p then .pass t p (s.delay p)
        else .shorten t p (s.delay p) } := by
    simp only [lineStep, deref, if_neg hnull, Exec.ok_bind]
  refine ⟨_, hs, ?_⟩
  rcases hp with ⟨rfl, rfl, h0, hn⟩ | ⟨rfl, hn⟩
  · -- the sentinel is passed in any case
    have hgt : s.delay (.task t) > s.delay .delayHead := by
      rw [hl.head, gt_iff_lt, BitVec.lt_def]
      exact Nat.pos_of_ne_zero fun hz ↦ h0 (BitVec.eq_of_toNat_eq hz)
    simp only [if_pos hgt]
    have hz : s.delay (.task t) - s.delay .delayHead = s.delay (.task t) := by
      rw [hl.head]
      exact BitVec.sub_zero _
    refine ⟨2 * r.length + 6, by omega, [], r, hl, hl.next_head, by omega, BitVec.le_of_lt hgt, ?_⟩
    simp only [hz]
    exact ht
  · by_cases hgt : s.delay (.task t) > s.delay (DelayList.front r)
    · simp only [if_pos hgt]
      rcases DelayList.front_cases r with ⟨-, hf⟩ | ⟨x, hx, hf⟩
      · -- nothing is longer than the time of the tail sentinel
        rw [hf, hl.tail, gt_iff_lt, BitVec.lt_def] at hgt
        have hlt := (s.delay (.task t)).isLt
        have hm : (0xFFFF : BitVec 16).toNat = 0xFFFF := rfl
        omega
      obtain ⟨r, rfl⟩ : ∃ r', r = x :: r' := ⟨r.tail, (List.cons_head?_tail hx).symm⟩
      have hsub := BitVec.toNat_sub_of_le (BitVec.le_of_lt hgt)
      rw [gt_iff_lt, BitVec.lt_def] at hgt
      have hx2 : lastTime 0 l + (s.delay (.task x.1)).toNat = x.2 :=
        (Deltas.append_iff.mp hl.deltas).2.1
      refine ⟨2 * r.length + 6, by simp at hn; omega, l ++ [x], r, by simpa using hl, ?_, by omega,
        BitVec.le_of_lt (BitVec.lt_def.mpr hgt), ?_⟩
      · rw [hf]
        exact hl.next_task
      · have hc : lastTime 0 (l ++ [x]) + (s.delay (.task t) -
            s.delay (DelayList.front (x :: r))).toNat =
            lastTime 0 l + (s.delay (.task t)).toNat := by
          rw [lastTime_concat, hsub, hf]
          rw [hf] at hgt
          omega
        rw [hc]
        simpa using ht
    · simp only [if_neg hgt]
      refine ⟨4, by omega, l, r, hl.linked, hl.head, rfl, le_refl 4, BitVec.not_lt.mp hgt, ?_, ht⟩
      rw [Function.update_eq_self]
      exact hl.deltas

/-- The body of the loop. -/
theorem Phase.pass {p : Addr} {v : BitVec 16} (h : Phase s f n (.pass t p v)) :
    ∃ s', s.lineStep (.pass t p v) = .ok s' ∧ ∃ m < n, Phase s' f m s'.line := by
  obtain ⟨l, r, hl, hp, hn, hle, ht⟩ := h
  refine ⟨_, rfl, 2 * r.length + 5, by omega, l, r, ?_, .inr ⟨hp, le_refl _⟩, ?_⟩
  · have hne := (List.nodup_cons.mp ht.nodup).1
    refine hl.setDelay hne
  · simpa using ht

/-- The next node is brought down. -/
theorem Phase.shorten {p : Addr} {v : BitVec 16} (h : Phase s f n (.shorten t p v)) :
    ∃ s', s.lineStep (.shorten t p v) = .ok s' ∧ ∃ m < n, Phase s' f m s'.line := by
  obtain ⟨l, r, hl, h0, rfl, hn, hle, hd, ht⟩ := h
  have hne := (List.nodup_cons.mp ht.nodup).1
  have hnd := (List.nodup_cons.mp ht.nodup).2
  have htp : Addr.task t ≠ DelayList.front r := DelayList.task_ne_front fun hm ↦
    hne (by simp only [List.map_append]; exact List.mem_append_right _ hm)
  have hperm : ((t, lastTime 0 l + (s.delay (.task t)).toNat) :: (l ++ r)).Perm
      (l ++ (t, lastTime 0 l + (s.delay (.task t)).toNat) :: r) := List.perm_middle.symm
  refine ⟨_, rfl, 3, by omega, l, r, _, hl, ?_, rfl, le_refl 3, ?_, ht.perm hperm⟩
  · exact (Function.update_of_ne (DelayList.front_ne_head r).symm _ _).trans h0
  · apply hd.insert
    · simp only [Function.update_of_ne htp]
    · intro x hx
      obtain ⟨r, rfl⟩ : ∃ r', r = x :: r' := ⟨r.tail, (List.cons_head?_tail hx).symm⟩
      have hf : DelayList.front (x :: r) = .task x.1 := rfl
      have hx2 := (Deltas.append_iff.mp hd).2.1
      have hsub := BitVec.toNat_sub_of_le hle
      rw [BitVec.le_def] at hle
      simp only [hf, Function.update_self] at hx2
      simp only [hf, Function.update_self, hsub]
      omega
    · intro x hx
      simp [DelayList.front_ne hnd (.inl hx)]
    · intro x hx
      simp [DelayList.front_ne hnd (.inr hx)]

/-- The links to the neighbours. -/
theorem Phase.links {p : Addr} (h : Phase s f n (.links t p)) :
    ∃ s', s.lineStep (.links t p) = .ok s' ∧ ∃ m < n, Phase s' f m s'.line := by
  obtain ⟨l, r, k, hl, h0, rfl, hn, hd, ht⟩ := h
  exact ⟨_, rfl, 2, by omega, l, r, k, s.next, s.prev, hl, rfl, rfl, h0, le_refl 2, hd, ht⟩

/-- The link from the neighbour in front. -/
theorem Phase.link (h : Phase s f n (.link t)) :
    ∃ s', s.lineStep (.link t) = .ok s' ∧ ∃ m < n, Phase s' f m s'.line := by
  obtain ⟨l, r, k, next, prev, hl, hnext, hprev, h0, hn, hd, ht⟩ := h
  have ht' := ht.perm List.perm_middle
  have hne := (List.nodup_cons.mp ht'.nodup).1
  have hnd := (List.nodup_cons.mp ht'.nodup).2
  have htp : Addr.task t ≠ DelayList.front r := DelayList.task_ne_front fun hm ↦
    hne (by simp only [List.map_append]; exact List.mem_append_right _ hm)
  obtain ⟨hp, hins⟩ := DelayList.linked_insert (c := k) hl hnd hne
  have hpt : s.prev (.task t) = prev (DelayList.front r) := by
    rw [hprev, Function.update_of_ne htp, Function.update_self]
  have hnull : s.prev (.task t) ≠ .null := by
    rw [hpt]
    rcases hp with he | ⟨x, -, he⟩ <;> simp [he]
  have hs : s.lineStep (.link t) = .ok { s with
      next := Function.update s.next (s.prev (.task t)) (.task t), line := .insertTail } := by
    simp only [lineStep, deref, if_neg hnull, Exec.ok_bind]
  refine ⟨_, hs, 1, by omega, _, ?_, h0, le_refl 1, hd, ht⟩
  simp only [hpt, hnext, hprev]
  exact hins

/-- The sum is begun. -/
theorem Phase.readNext (h : Phase s f n (.readNext t)) :
    ∃ s', s.lineStep (.readNext t) = .ok s' ∧ ∃ m < n, Phase s' f m s'.line := by
  obtain ⟨l, r, k, hl, hn, hf, hk, ht⟩ := h
  have hq := hl.next_task
  have hs : s.lineStep (.readNext t) = .ok { s with
      line := .readOwn t (s.delay (DelayList.front r)) } := by
    simp only [lineStep, hq, deref, if_neg (DelayList.front_ne_null r), Exec.ok_bind]
  exact ⟨_, hs, 5, by omega, l, r, k, hl, le_refl 5, rfl, hf, hk, ht⟩

/-- The sum is complete. -/
theorem Phase.readOwn {v : BitVec 16} (h : Phase s f n (.readOwn t v)) :
    ∃ s', s.lineStep (.readOwn t v) = .ok s' ∧ ∃ m < n, Phase s' f m s'.line := by
  obtain ⟨l, r, k, hl, hn, rfl, hf, hk, ht⟩ := h
  refine ⟨_, rfl, 4, by omega, l, r, k, hl.linked, hl.head, le_refl 4, hf, ?_, ht⟩
  apply hl.deltas.remove
  · intro x hx
    obtain ⟨r, rfl⟩ : ∃ r', r = x :: r' := ⟨r.tail, (List.cons_head?_tail hx).symm⟩
    have hd := (Deltas.append_iff.mp hl.deltas).2
    have h1 : lastTime 0 l + (s.delay (.task t)).toNat = k := hd.1
    have h2 : k + (s.delay (.task x.1)).toNat = x.2 := hd.2.1
    have h3 := ht.le x (by simp)
    have hfx : DelayList.front (x :: r) = .task x.1 := rfl
    simp only [hfx, Function.update_self, BitVec.toNat_add]
    omega
  · intro x hx
    simp [DelayList.front_ne ht.nodup (.inl hx)]
  · intro x hx
    simp [DelayList.front_ne ht.nodup (.inr hx)]

/-- The sum is written. -/
theorem Phase.lengthen {v : BitVec 16} (h : Phase s f n (.lengthen t v)) :
    ∃ s', s.lineStep (.lengthen t v) = .ok s' ∧ ∃ m < n, Phase s' f m s'.line := by
  obtain ⟨l, r, k, hl, h0, hn, hf, hd, ht⟩ := h
  have hq := DelayList.linked_next hl
  have hs : s.lineStep (.lengthen t v) = .ok { s with
      delay := Function.update s.delay (DelayList.front r) v, line := .unlink t } := by
    simp only [lineStep, hq, deref, if_neg (DelayList.front_ne_null r), Exec.ok_bind]
  exact ⟨_, hs, 3, by omega, l, r, k, hl,
    (Function.update_of_ne (DelayList.front_ne_head r).symm _ _).trans h0, le_refl 3, hf, hd, ht⟩

/-- The neighbours are joined. -/
theorem Phase.unlink (h : Phase s f n (.unlink t)) :
    ∃ s', s.lineStep (.unlink t) = .ok s' ∧ ∃ m < n, Phase s' f m s'.line := by
  obtain ⟨l, r, k, hl, h0, hn, hf, hd, ht⟩ := h
  have hnd : ((l ++ (t, k) :: r).map Prod.fst).Nodup := by
    rw [List.map_append, List.map_cons]
    refine List.nodup_middle.mpr (List.nodup_cons.mpr ⟨?_, ?_⟩)
    · rw [← List.map_append]
      exact ht.not_mem hf
    · rw [← List.map_append]
      exact ht.nodup
  obtain ⟨hnt, hp, -, hrem⟩ := DelayList.linked_neighbours hl hnd
  have hq := DelayList.linked_next hl
  have hpt : Function.update s.prev (s.next (.task t)) (s.prev (.task t)) (.task t) =
      s.prev (.task t) := Function.update_of_ne hnt.symm _ _
  have hnull : s.prev (.task t) ≠ .null := by
    rcases hp with he | ⟨x, -, he⟩ <;> simp [he]
  have hqn : s.next (.task t) ≠ .null := hq ▸ DelayList.front_ne_null r
  have hs : s.lineStep (.unlink t) = .ok { s with
      prev := Function.update s.prev (s.next (.task t)) (s.prev (.task t))
      next := Function.update s.next (s.prev (.task t)) (s.next (.task t))
      line := .cancelTail t } := by
    simp only [lineStep, deref, if_neg hqn, Exec.ok_bind, hpt, if_neg hnull]
  exact ⟨_, hs, 2, by omega, _, hrem, h0, le_refl 2, hf, hd, ht⟩

/-- The tail sentinel is reset behind a queued task. -/
theorem Phase.insertTail (h : Phase s f n .insertTail) :
    ∃ s', s.lineStep .insertTail = .ok s' ∧ ∃ m < n, Phase s' f m s'.line := by
  obtain ⟨xs, hl, h0, hn, hd, ht⟩ := h
  exact ⟨_, rfl, 0, by omega, xs, delayList_of hl h0 hd, ht⟩

/-- The tail sentinel is reset behind a task that was taken off. -/
theorem Phase.cancelTail (h : Phase s f n (.cancelTail t)) :
    ∃ s', s.lineStep (.cancelTail t) = .ok s' ∧ ∃ m < n, Phase s' f m s'.line := by
  obtain ⟨xs, hl, h0, hn, hf, hd, ht⟩ := h
  exact ⟨_, rfl, 1, by omega, xs, delayList_of hl h0 hd, le_refl 1, hf, ht⟩

/-- The bit of the task that was taken off. -/
theorem Phase.clear (h : Phase s f n (.clear t)) :
    ∃ s', s.lineStep (.clear t) = .ok s' ∧ ∃ m < n, Phase s' f m s'.line := by
  obtain ⟨xs, hl, hn, -, ht⟩ := h
  exact ⟨_, rfl, 0, by omega, xs, hl, ht⟩

/-- A call that is under way can go on, and has one line less to go then. -/
theorem Phase.next (h : Phase s f n s.line) (hl : s.line ≠ .idle) :
    ∃ s', Step s .line s' ∧ ∃ m < n, Phase s' f m s'.line := by
  show ∃ s', s.lineStep s.line = .ok s' ∧ _
  generalize s.line = l at h hl
  cases l with
  | idle => exact absurd rfl hl
  | read t p => exact h.read
  | pass t p v => exact h.pass
  | shorten t p v => exact h.shorten
  | links t p => exact h.links
  | link t => exact h.link
  | insertTail => exact h.insertTail
  | readNext t => exact h.readNext
  | readOwn t v => exact h.readOwn
  | lengthen t v => exact h.lengthen
  | unlink t => exact h.unlink
  | cancelTail t => exact h.cancelTail
  | clear t => exact h.clear

/-! ### A tick -/

/-- The tick did nothing, or counted the first node down. -/
theorem tick_cases (hn : s.next .delayHead = DelayList.front xs) (h : Step s .tick s') :
    s' = s ∨ s.delay (DelayList.front xs) ≠ 0 ∧ s.delay (DelayList.front xs) ≠ 0xFFFF ∧
      s' = { s with
        delay := Function.update s.delay (DelayList.front xs)
          (s.delay (DelayList.front xs) - 1) } := by
  have h : s.tick = .ok s' := h
  simp only [tick, hn, deref, if_neg (DelayList.front_ne_null xs), Exec.ok_bind] at h
  split at h
  · exact .inl (Except.ok.inj h).symm
  · rename_i h1
    split at h
    · exact .inl (Except.ok.inj h).symm
    · rename_i h0
      exact .inr ⟨h0, h1, (Except.ok.inj h).symm⟩

/-- In a delay list a tick counts a first task down that has some time to go. -/
theorem tick_list (hl : DelayList s.next s.prev s.delay xs) (h : Step s .tick s') :
    s' = s ∨ ∃ x k r, xs = (x, k) :: r ∧ s.delay (.task x) ≠ 0 ∧
      s' = { s with delay := Function.update s.delay (.task x) (s.delay (.task x) - 1) } := by
  rcases tick_cases hl.next_head h with rfl | ⟨h0, h1, rfl⟩
  · exact .inl rfl
  · cases xs with
    | nil => exact absurd hl.tail h1
    | cons p r => exact .inr ⟨p.1, p.2, r, rfl, h0, rfl⟩

/-- Counting down the first of the listed tasks, or a node that is not listed. -/
theorem deltas_front (hd : Deltas (fun u ↦ (s.delay (.task u)).toNat) 0 xs)
    (hnd : (xs.map Prod.fst).Nodup) (h0 : s.delay (DelayList.front xs) ≠ 0) :
    Deltas (fun u ↦ (Function.update s.delay (DelayList.front xs)
      (s.delay (DelayList.front xs) - 1) (.task u)).toNat) 0 (lowered xs) := by
  cases xs with
  | nil => trivial
  | cons p r => exact DelayList.deltas_tick hd hnd h0

/-- The nodes without their times. -/
theorem front_lower (xs : List (TaskId × Nat)) :
    DelayList.front (lowered xs) = DelayList.front xs := by
  cases xs <;> rfl

/-- The links do not depend on the times. -/
theorem nodes_lower (xs : List (TaskId × Nat)) :
    DelayList.nodes (lowered xs) = DelayList.nodes xs := by
  simp [DelayList.nodes]

/-- A tick at the loop of the insertion reaches the new task when it has passed one. -/
theorem tick_search {v : Nat} (hl : DelayList s.next s.prev s.delay (l ++ r))
    (ht : Times f ((t, lastTime 0 l + v) :: (l ++ r))) (h : Step s .tick s') :
    s'.next = s.next ∧ s'.delay (.task t) = s.delay (.task t) ∧ ∃ g l' r', Lowers f g ∧
      DelayList s'.next s'.prev s'.delay (l' ++ r') ∧ r'.length = r.length ∧
      DelayList.front r' = DelayList.front r ∧ (l = [] → l' = []) ∧
      Times g ((t, lastTime 0 l' + v) :: (l' ++ r')) := by
  have hnd := List.nodup_cons.mp ht.nodup
  rcases tick_list hl h with rfl | ⟨x, k, xs, hx, h0, rfl⟩
  · exact ⟨rfl, rfl, f, l, r, .refl f, hl, rfl, rfl, id, ht⟩
  have hxt : t ≠ x := by
    rintro rfl
    exact hnd.1 (by simp [hx])
  rw [hx] at hl
  have hk : k ≠ 0 := fun hk ↦ h0 (BitVec.eq_of_toNat_eq (hl.delay_head.trans hk))
  have hl' := hl.tick (hx ▸ hnd.2) hk
  rw [← hx] at hl'
  refine ⟨rfl, Function.update_of_ne (by simpa using hxt) _ _, ?_⟩
  cases l with
  | nil =>
    exact ⟨_, [], lowered r, lowers_update f t, by simpa using hl', by simp,
      front_lower r, id, by simpa using ht.lower_but⟩
  | cons p l =>
    obtain rfl : p = (x, k) := (List.cons.inj hx).1
    have hle : k ≤ lastTime k l := by
      have hd := hl.deltas
      rw [← hx] at hd
      exact (Deltas.append_iff.mp hd.2).1.start_le_lastTime
    have hlast : lastTime 0 ((x, k) :: l) = lastTime k l := by
      rw [lastTime, List.map_cons, List.getLastD_cons]
      rfl
    refine ⟨_, lowered ((x, k) :: l), lowered r,
      lowers_lower f, by rwa [List.map_append] at hl', by simp, front_lower r,
      fun he ↦ absurd he (List.cons_ne_nil _ _), ?_⟩
    have hc : lastTime 0 (lowered ((x, k) :: l)) + v =
        lastTime 0 ((x, k) :: l) + v - 1 := by
      rw [lastTime_map, hlast]
      omega
    rw [hc, ← List.map_append]
    exact ht.lower

/-- A tick leaves the line, the links and the status bytes. -/
theorem tick_frame (h : Step s .tick s') :
    s'.line = s.line ∧ s'.next = s.next ∧ s'.prev = s.prev ∧ s'.status = s.status := by
  obtain ⟨p, -, h⟩ := Exec.bind_eq_ok.mp h
  split at h
  · cases h
    exact ⟨rfl, rfl, rfl, rfl⟩
  · split at h <;> cases h <;> exact ⟨rfl, rfl, rfl, rfl⟩

/-- A tick between the two parts of `delay_task->delay = t_delay - rqactv->delay` is lost if the
new task is to be the first one. -/
theorem Phase.shorten_tick {p : Addr} {v : BitVec 16} (h : Phase s f n (.shorten t p v))
    (hs : Step s .tick s') : ∃ g, Lowers f g ∧ Phase s' g n (.shorten t p v) := by
  obtain ⟨l, r, hl, h0, rfl, hn, hle, hd, ht⟩ := h
  obtain ⟨hne, hnd⟩ := List.nodup_cons.mp ht.nodup
  rcases tick_cases (DelayList.linked_head hl) hs with rfl | ⟨hz, -, rfl⟩
  · exact ⟨f, .refl f, l, r, hl, h0, rfl, hn, hle, hd, ht⟩
  have htl : Addr.task t ≠ DelayList.front (l ++ r) := DelayList.task_ne_front hne
  have h0' := (Function.update_of_ne (DelayList.front_ne_head (l ++ r)).symm
    (s.delay (DelayList.front (l ++ r)) - 1) s.delay).trans h0
  have hdt : Function.update s.delay (DelayList.front (l ++ r))
      (s.delay (DelayList.front (l ++ r)) - 1) (.task t) = s.delay (.task t) :=
    Function.update_of_ne htl _ _
  cases l with
  | nil =>
    refine ⟨f, .refl f, [], r, hl, h0', rfl, hn, by simpa only [hdt] using hle, ?_,
      by simpa only [hdt] using ht⟩
    simpa only [List.nil_append, Function.update_idem] using hd
  | cons x l =>
    have hx : Addr.task x.1 ≠ DelayList.front r := DelayList.front_ne hnd (.inl List.mem_cons_self)
    have hfx : DelayList.front (x :: l ++ r) = .task x.1 := rfl
    have hlast : lastTime 0 (lowered (x :: l)) + (s.delay (.task t)).toNat =
        lastTime 0 (x :: l) + (s.delay (.task t)).toNat - 1 := by
      have hle : x.2 ≤ lastTime x.2 l := (Deltas.append_iff.mp hd.2).1.start_le_lastTime
      have hx2 : 0 < x.2 := by
        have hx1 := hd.1
        simp only [Function.update_of_ne hx] at hx1
        have hpos : 0 < (s.delay (.task x.1)).toNat :=
          Nat.pos_of_ne_zero fun h ↦ hz (BitVec.eq_of_toNat_eq h)
        omega
      have hl1 : lastTime 0 (x :: l) = lastTime x.2 l := by
        rw [lastTime, List.map_cons, List.getLastD_cons]
        rfl
      rw [lastTime_map, hl1]
      omega
    refine ⟨_, lowers_lower f, lowered (x :: l), lowered r,
      ?_, h0', (front_lower r).symm, hn, by simpa only [hdt] using hle, ?_, ?_⟩
    · rw [← List.map_append, nodes_lower]
      exact hl
    · have hz' : Function.update s.delay (DelayList.front r) v (.task x.1) ≠ 0 := by
        rwa [Function.update_of_ne hx]
      have htick := DelayList.deltas_tick hd hnd hz'
      rw [Function.update_of_ne hx, Function.update_comm hx.symm] at htick
      rw [← List.map_append]
      exact htick
    · simp only [hdt]
      rw [hlast, ← List.map_append]
      exact ht.lower

/-- The first of the tasks behind a new one is counted down, or the first of those in front. -/
theorem tick_behind (hl : Linked s.next s.prev (DelayList.nodes (l ++ r)) ∨
      s.next .delayHead = DelayList.front (l ++ r))
    (h0 : s.delay .delayHead = 0)
    (hd : Deltas (fun u ↦ (s.delay (.task u)).toNat) 0 (l ++ (t, k) :: r))
    (ht : Times f (l ++ (t, k) :: r)) (hs : Step s .tick s') :
    s'.delay .delayHead = 0 ∧ ∃ g l' r' k', Lowers f g ∧
      DelayList.nodes (l' ++ r') = DelayList.nodes (l ++ r) ∧
      DelayList.front r' = DelayList.front r ∧
      Deltas (fun u ↦ (s'.delay (.task u)).toNat) 0 (l' ++ (t, k') :: r') ∧
      Times g (l' ++ (t, k') :: r') := by
  have hn : s.next .delayHead = DelayList.front (l ++ r) := hl.elim DelayList.linked_head id
  rcases tick_cases hn hs with rfl | ⟨hz, -, rfl⟩
  · exact ⟨h0, f, l, r, k, .refl f, rfl, rfl, hd, ht⟩
  refine ⟨(Function.update_of_ne (DelayList.front_ne_head (l ++ r)).symm _ _).trans h0, ?_⟩
  have ht' := ht.perm List.perm_middle
  obtain ⟨hne, hnd⟩ := List.nodup_cons.mp ht'.nodup
  cases l with
  | nil =>
    refine ⟨_, [], lowered r, k, lowers_update f t, nodes_lower r,
      front_lower r, ⟨?_, ?_⟩, ht.lower_but⟩
    · have htl : Addr.task t ≠ DelayList.front ([] ++ r) := DelayList.task_ne_front hne
      simp only [Function.update_of_ne htl]
      exact hd.1
    · cases r with
      | nil => trivial
      | cons p r => exact DelayList.deltas_tick hd.2 hnd hz
  | cons x l =>
    refine ⟨_, lowered (x :: l), lowered r, k - 1, lowers_lower f, ?_, front_lower r, ?_,
      by simpa using ht.lower⟩
    · rw [← List.map_append, nodes_lower]
    · have htick : Deltas _ 0 (lowered (x :: l ++ (t, k) :: r)) :=
        DelayList.deltas_tick hd ht.nodup hz
      rw [lowered, List.map_append] at htick
      exact htick

/-- A tick while the sum of two delays is under way, or the neighbours are not joined yet. If the
task that is taken off is the first one, the tick is lost. -/
theorem tick_off {δ : Addr → BitVec 16}
    (hl : Linked s.next s.prev (DelayList.nodes (l ++ (t, k) :: r)))
    (h0 : s.delay .delayHead = 0) (hf : f t = none)
    (hδ : ∀ a, a ≠ DelayList.front r → δ a = s.delay a)
    (hd : Deltas (fun u ↦ (δ (.task u)).toNat) 0 (l ++ r)) (ht : Times f (l ++ r))
    (hs : Step s .tick s') :
    s'.delay .delayHead = 0 ∧ s'.delay (DelayList.front r) = s.delay (DelayList.front r) ∧
      ∃ g l' k' r', Lowers f g ∧ g t = none ∧ Linked s'.next s'.prev
        (DelayList.nodes (l' ++ (t, k') :: r')) ∧
      DelayList.front r' = DelayList.front r ∧ Times g (l' ++ r') ∧
      ∃ δ' : Addr → BitVec 16, (∀ a, a ≠ DelayList.front r → δ' a = s'.delay a) ∧
        δ' (DelayList.front r) = δ (DelayList.front r) ∧
        Deltas (fun u ↦ (δ' (.task u)).toNat) 0 (l' ++ r') := by
  obtain ⟨-, hnext, hprev, -⟩ := tick_frame hs
  rcases tick_cases (DelayList.linked_head hl) hs with rfl | ⟨hz, -, rfl⟩
  · exact ⟨h0, rfl, f, l, k, r, .refl f, hf, hl, rfl, ht, δ, hδ, rfl, hd⟩
  refine ⟨(Function.update_of_ne
    (DelayList.front_ne_head (l ++ (t, k) :: r)).symm _ _).trans h0, ?_⟩
  have hne := ht.not_mem hf
  cases l with
  | nil =>
    have htr : Addr.task t ≠ DelayList.front r := DelayList.task_ne_front hne
    refine ⟨Function.update_of_ne htr.symm _ _, f, [], k, r, .refl f, hf, hl, rfl, ht,
      Function.update δ (.task t) (s.delay (.task t) - 1), fun a ha ↦ ?_,
      Function.update_of_ne htr.symm _ _, hd.congr fun p hp ↦ ?_⟩
    · show _ = Function.update s.delay (.task t) (s.delay (.task t) - 1) a
      by_cases hat : a = .task t
      · rw [hat, Function.update_self, Function.update_self]
      · rw [Function.update_of_ne hat, Function.update_of_ne hat, hδ a ha]
    · have hpt : p.1 ≠ t := by
        rintro rfl
        exact hne (List.mem_map_of_mem hp)
      simp [hpt]
  | cons x l =>
    have hx : Addr.task x.1 ≠ DelayList.front r :=
      DelayList.front_ne ht.nodup (.inl List.mem_cons_self)
    have hδx := hδ _ hx
    have htick : Deltas _ 0 (lowered (x :: l ++ r)) :=
      DelayList.deltas_tick hd ht.nodup (by rw [hδx]; exact hz)
    refine ⟨Function.update_of_ne hx.symm _ _, _, lowered (x :: l), k - 1, lowered r,
      lowers_lower f, by simp [lower, hf], ?_,
      front_lower r, by rw [← List.map_append]; exact ht.lower,
      Function.update δ (.task x.1) (δ (.task x.1) - 1), fun a ha ↦ ?_,
      Function.update_of_ne hx.symm _ _, by rw [← List.map_append]; exact htick⟩
    · have hnodes : DelayList.nodes (lowered (x :: l) ++ (t, k - 1) :: lowered r) =
          DelayList.nodes (x :: l ++ (t, k) :: r) := by
        simp [DelayList.nodes, Function.comp_def]
      rw [hnodes]
      exact hl
    · show _ = Function.update s.delay (.task x.1) (s.delay (.task x.1) - 1) a
      by_cases hax : a = .task x.1
      · rw [hax, Function.update_self, Function.update_self, hδx]
      · rw [Function.update_of_ne hax, Function.update_of_ne hax, hδ a ha]

/-- A tick before a sum of two delays is written. -/
theorem tick_waits (hl : DelayList s.next s.prev s.delay (l ++ (t, k) :: r)) (hf : f t = none)
    (hk : k ≤ 0xFFFF) (ht : Times f (l ++ r)) (hs : Step s .tick s') :
    s'.delay (DelayList.front r) = s.delay (DelayList.front r) ∧
      ∃ g l' k' r', Lowers f g ∧ g t = none ∧ k' ≤ 0xFFFF ∧
        DelayList s'.next s'.prev s'.delay (l' ++ (t, k') :: r') ∧
        DelayList.front r' = DelayList.front r ∧ Times g (l' ++ r') := by
  have hT : Times (Function.update f t (some k)) (l ++ (t, k) :: r) :=
    (ht.cons hf hk).perm List.perm_middle.symm
  rcases tick_list hl hs with rfl | ⟨x, j, xs, hx, h0, rfl⟩
  · exact ⟨rfl, f, l, k, r, .refl f, hf, hk, hl, rfl, ht⟩
  have hxr : Addr.task x ≠ DelayList.front r := by
    apply DelayList.task_ne_front
    intro hm
    have hnd := hT.nodup
    cases l with
    | nil =>
      obtain ⟨he, rfl⟩ := List.cons.inj hx
      cases he
      exact (List.nodup_cons.mp hnd).1 hm
    | cons p l =>
      obtain ⟨rfl, -⟩ := List.cons.inj hx
      obtain ⟨q, hq, hqx⟩ := List.mem_map.mp hm
      exact (List.nodup_cons.mp hnd).1
        (List.mem_map.mpr ⟨q, List.mem_append_right l (List.mem_cons_of_mem _ hq), hqx⟩)
  have hl' := hl
  rw [hx] at hl'
  have hj : j ≠ 0 := fun hj ↦ h0 (BitVec.eq_of_toNat_eq (hl'.delay_head.trans hj))
  have htick := hl'.tick (hx ▸ hT.nodup) hj
  rw [← hx, List.map_append, List.map_cons] at htick
  exact ⟨Function.update_of_ne hxr.symm _ _, _, lowered l, k - 1, lowered r, lowers_lower f,
    by simp [lower, hf], by omega, htick, front_lower r,
    by rw [← List.map_append]; exact ht.lower⟩

/-- A tick at a list that is linked. -/
theorem tick_linked (hl : Linked s.next s.prev (DelayList.nodes xs)) (h0 : s.delay .delayHead = 0)
    (hd : Deltas (fun u ↦ (s.delay (.task u)).toNat) 0 xs) (ht : Times f xs)
    (hs : Step s .tick s') :
    s'.delay .delayHead = 0 ∧ ∃ g xs', Lowers f g ∧ (∀ u, f u = none → g u = none) ∧
      Linked s'.next s'.prev (DelayList.nodes xs') ∧
      Deltas (fun u ↦ (s'.delay (.task u)).toNat) 0 xs' ∧ Times g xs' := by
  rcases tick_cases (DelayList.linked_head hl) hs with rfl | ⟨hz, -, rfl⟩
  · exact ⟨h0, f, xs, .refl f, fun _ ↦ id, hl, hd, ht⟩
  · refine ⟨(Function.update_of_ne (DelayList.front_ne_head xs).symm _ _).trans h0, _, lowered xs,
      lowers_lower f, fun u hu ↦ by simp [lower, hu], ?_, deltas_front hd ht.nodup hz, ht.lower⟩
    rw [nodes_lower]
    exact hl

/-- The remaining time of a task is positive if that of the first one is. -/
theorem Times.pos (ht : Times f xs) (hl : DelayList s.next s.prev s.delay xs)
    (h0 : s.delay (DelayList.front xs) ≠ 0) (hk : f u = some k) : 0 < k := by
  have hm := (ht.eq u k).mp hk
  cases xs with
  | nil => cases hm
  | cons p r =>
    have hd := hl.deltas
    have hpos : 0 < (s.delay (.task p.1)).toNat :=
      Nat.pos_of_ne_zero fun h ↦ h0 (BitVec.eq_of_toNat_eq h)
    have hp : 0 + (s.delay (.task p.1)).toNat = p.2 := hd.1
    rcases List.mem_cons.mp hm with rfl | hm
    · simp only at hp hpos
      omega
    · have hle := hd.2.sorted.1 _ hm
      simp only at hle
      omega

/-- Between two calls a tick counts all tasks down, or none. -/
theorem tick_idle (hl : DelayList s.next s.prev s.delay xs) (ht : Times f xs)
    (hs : Step s .tick s') :
    (s.delay (s.next .delayHead) = 0 ∨ s.delay (s.next .delayHead) = 0xFFFF) ∧ s' = s ∨
    ¬ (s.delay (s.next .delayHead) = 0 ∨ s.delay (s.next .delayHead) = 0xFFFF) ∧
      (∀ u k, f u = some k → 0 < k) ∧
      DelayList s'.next s'.prev s'.delay (lowered xs) ∧ Times (lower f) (lowered xs) := by
  have hn := hl.next_head
  obtain ⟨p, hp, h⟩ := Exec.bind_eq_ok.mp hs
  obtain ⟨-, rfl⟩ := deref_eq_ok.mp hp
  split at h
  · rename_i h1
    exact .inl ⟨.inr h1, (Except.ok.inj h).symm⟩
  · rename_i h1
    split at h
    · rename_i h0
      exact .inl ⟨.inl h0, (Except.ok.inj h).symm⟩
    · rename_i h0
      cases h
      refine .inr ⟨not_or.mpr ⟨h0, h1⟩, fun u k ↦ ht.pos hl (hn ▸ h0), ?_, ht.lower⟩
      rw [hn] at h0 h1 ⊢
      cases xs with
      | nil => exact absurd hl.tail h1
      | cons p r =>
        exact hl.tick ht.nodup fun hz ↦ h0 (BitVec.eq_of_toNat_eq (hl.delay_head.trans hz))

/-- A tick comes in at any line, and each task has what it had to go, or a tick less. -/
theorem Phase.tick (h : Phase s f n s.line) (hs : Step s .tick s') :
    ∃ g, Lowers f g ∧ Phase s' g n s'.line := by
  obtain ⟨hline, hnext, hprev, -⟩ := tick_frame hs
  rw [hline]
  generalize s.line = l at h
  cases l with
  | idle =>
    obtain ⟨xs, hl, ht⟩ := h
    rcases tick_idle hl ht hs with ⟨-, rfl⟩ | ⟨-, -, hl', ht'⟩
    · exact ⟨f, .refl f, xs, hl, ht⟩
    · exact ⟨_, lowers_lower f, _, hl', ht'⟩
  | read t p =>
    obtain ⟨l, r, hl, hp, ht⟩ := h
    obtain ⟨-, hdt, g, l', r', hg, hl', hlen, hfr, hnil, ht'⟩ := tick_search hl ht hs
    refine ⟨g, hg, l', r', hl', ?_, by rwa [hdt]⟩
    rw [hlen, hfr, hdt]
    exact hp.imp_left fun ⟨hp, hx, h0⟩ ↦ ⟨hp, hnil hx, h0⟩
  | pass t p v =>
    obtain ⟨l, r, hl, hp, hn, hle, ht⟩ := h
    obtain ⟨-, hdt, g, l', r', hg, hl', hlen, hfr, -, ht'⟩ := tick_search hl ht hs
    exact ⟨g, hg, l', r', hl', by rw [hnext, hp, hfr], by rwa [hlen], by rwa [hdt], by rwa [hdt]⟩
  | shorten t p v => exact h.shorten_tick hs
  | links t p =>
    obtain ⟨l, r, k, hl, h0, rfl, hn, hd, ht⟩ := h
    obtain ⟨h0', g, l', r', k', hg, hnodes, hfr, hd', ht'⟩ := tick_behind (.inl hl) h0 hd ht hs
    exact ⟨g, hg, l', r', k', by rwa [hnext, hprev, hnodes], h0', hfr.symm, hn, hd', ht'⟩
  | link t =>
    obtain ⟨l, r, k, next, prev, hl, hx, hy, h0, hn, hd, ht⟩ := h
    have hhead : s.next .delayHead = DelayList.front (l ++ r) := by
      rw [hx, Function.update_of_ne (by simp)]
      exact DelayList.linked_head hl
    obtain ⟨h0', g, l', r', k', hg, hnodes, hfr, hd', ht'⟩ := tick_behind (.inr hhead) h0 hd ht hs
    exact ⟨g, hg, l', r', k', next, prev, by rwa [hnodes], by rw [hnext, hx, hfr],
      by rw [hprev, hy, hfr], h0', hn, hd', ht'⟩
  | insertTail =>
    obtain ⟨xs, hl, h0, hn, hd, ht⟩ := h
    obtain ⟨h0', g, xs', hg, -, hl', hd', ht'⟩ := tick_linked hl h0 hd ht hs
    exact ⟨g, hg, xs', hl', h0', hn, hd', ht'⟩
  | readNext t =>
    obtain ⟨l, r, k, hl, hn, hf, hk, ht⟩ := h
    obtain ⟨-, g, l', k', r', hg, hgt, hk', hl', -, ht'⟩ := tick_waits hl hf hk ht hs
    exact ⟨g, hg, l', r', k', hl', hn, hgt, hk', ht'⟩
  | readOwn t v =>
    obtain ⟨l, r, k, hl, hn, rfl, hf, hk, ht⟩ := h
    obtain ⟨hq, g, l', k', r', hg, hgt, hk', hl', hfr, ht'⟩ := tick_waits hl hf hk ht hs
    exact ⟨g, hg, l', r', k', hl', hn, by rw [hfr, hq], hgt, hk', ht'⟩
  | lengthen t v =>
    obtain ⟨l, r, k, hl, h0, hn, hf, hd, ht⟩ := h
    obtain ⟨h0', -, g, l', k', r', hg, hgt, hl', hfr, ht', δ, hδ, hδr, hd'⟩ :=
      tick_off hl h0 hf (fun a ha ↦ Function.update_of_ne ha v s.delay) hd ht hs
    rw [Function.update_self] at hδr
    obtain rfl := Function.eq_update_iff.mpr ⟨hδr, hδ⟩
    exact ⟨g, hg, l', r', k', hl', h0', hn, hgt, by rwa [hfr], ht'⟩
  | unlink t =>
    obtain ⟨l, r, k, hl, h0, hn, hf, hd, ht⟩ := h
    obtain ⟨h0', hq, g, l', k', r', hg, hgt, hl', -, ht', δ, hδ, hδr, hd'⟩ :=
      tick_off hl h0 hf (fun _ _ ↦ rfl) hd ht hs
    obtain rfl : δ = s'.delay := by
      funext a
      by_cases ha : a = DelayList.front r
      · rw [ha, hδr, hq]
      · exact hδ a ha
    exact ⟨g, hg, l', r', k', hl', h0', hn, hgt, hd', ht'⟩
  | cancelTail t =>
    obtain ⟨xs, hl, h0, hn, hf, hd, ht⟩ := h
    obtain ⟨h0', g, xs', hg, hnone, hl', hd', ht'⟩ := tick_linked hl h0 hd ht hs
    exact ⟨g, hg, xs', hl', h0', hn, hnone t hf, hd', ht'⟩
  | clear t =>
    obtain ⟨xs, hl, hn, hf, ht⟩ := h
    rcases tick_idle hl ht hs with ⟨-, rfl⟩ | ⟨-, -, hl', ht'⟩
    · exact ⟨f, .refl f, xs, hl, hn, hf, ht⟩
    · exact ⟨_, lowers_lower f, _, hl', hn, by simp [lower, hf], ht'⟩

end Countdown

end YRmx
