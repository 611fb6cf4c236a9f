import Mathlib.Data.List.Sort
import YRmx.Core.State
import YRmx.Intrusive.Deltas
import YRmx.Intrusive.Fifo
import YRmx.Transition.Fuel

/-!
# The delay list

Library `YRmx`. The delay list of both nuclei goes from one sentinel to the other, linked
forwards and backwards. The delay fields are the differences of the remaining times, in 16 bits. No
addition wraps: the sum of two neighbouring fields is a difference of remaining times that
are at most `0xFFFF`. The fields of the tail sentinel do wrap and are reset.
-/

namespace YRmx

open Intrusive Transition

/-- Earlier waiting times come first. -/
def due (p q : TaskId × Nat) : Prop := p.2 ≤ q.2

instance : DecidableRel due := fun p q ↦ inferInstanceAs (Decidable (p.2 ≤ q.2))

instance : Std.Total due := ⟨fun p q ↦ Nat.le_total p.2 q.2⟩

instance : IsTrans (TaskId × Nat) due := ⟨fun _ _ _ h h' ↦ Nat.le_trans h h'⟩

/-- The delay list between its two sentinels, with the ticks that remain for each task. -/
structure DelayList (next prev : Addr → Addr) (delay : Addr → BitVec 16)
    (dl : List (TaskId × Nat)) : Prop where
  linked : Linked next prev (.delayHead :: (dl.map (fun p ↦ Addr.task p.1) ++ [.delayTail]))
  deltas : Deltas (fun t ↦ (delay (.task t)).toNat) 0 dl
  head : delay .delayHead = 0
  tail : delay .delayTail = 0xFFFF

namespace DelayList

/-- The node at which a rest of the delay list starts. -/
def front (r : List (TaskId × Nat)) : Addr := (r.map fun p ↦ Addr.task p.1).headD .delayTail

/-- The nodes of a delay list with its two sentinels. -/
abbrev nodes (dl : List (TaskId × Nat)) : List Addr :=
  .delayHead :: (dl.map (fun p ↦ Addr.task p.1) ++ [.delayTail])

private theorem nodup_nodes {dl : List (TaskId × Nat)} (h : (dl.map Prod.fst).Nodup) :
    (nodes dl).Nodup := by
  have hm : dl.map (fun p ↦ Addr.task p.1) = (dl.map Prod.fst).map .task := by
    rw [List.map_map]
    rfl
  have ht : (dl.map fun p ↦ Addr.task p.1).Nodup := by
    rw [hm]
    exact h.map fun a b hab ↦ Addr.task.inj hab
  refine List.nodup_cons.mpr ⟨by simp, List.nodup_append.mpr ⟨ht, by simp, ?_⟩⟩
  rintro a ha c hc rfl
  obtain ⟨p, -, hp⟩ := List.mem_map.mp ha
  rw [List.mem_singleton.mp hc] at hp
  cases hp

private theorem exists_neighbours (l r : List (TaskId × Nat)) :
    ∃ pre p q rest, Addr.delayHead :: l.map (fun p ↦ Addr.task p.1) = pre ++ [p] ∧
      r.map (fun p ↦ Addr.task p.1) ++ [Addr.delayTail] = q :: rest ∧
      (p = .delayHead ∨ ∃ x ∈ l, p = .task x.1) ∧
      (r = [] ∧ q = .delayTail ∨ ∃ x, r.head? = some x ∧ q = .task x.1) := by
  obtain ⟨pre, hp⟩ := Fifo.exists_pred Addr.delayHead (l.map fun p ↦ Addr.task p.1)
  have hmem : (l.map fun p ↦ Addr.task p.1).getLastD .delayHead ∈
      Addr.delayHead :: l.map (fun p ↦ Addr.task p.1) := List.getLastD_mem_cons
  refine ⟨pre, (l.map fun p ↦ Addr.task p.1).getLastD .delayHead,
    (r.map fun p ↦ Addr.task p.1).headD .delayTail,
    (r.map (fun p ↦ Addr.task p.1) ++ [Addr.delayTail]).tail, hp, ?_, ?_, ?_⟩
  · cases r <;> rfl
  · rcases List.mem_cons.mp hmem with he | hm
    · exact .inl he
    · obtain ⟨x, hx, he⟩ := List.mem_map.mp hm
      exact .inr ⟨x, hx, he.symm⟩
  · cases r with
    | nil => exact .inl ⟨rfl, rfl⟩
    | cons x r => exact .inr ⟨x, rfl, rfl⟩


variable {next prev : Addr → Addr} {delay : Addr → BitVec 16} {l r : List (TaskId × Nat)}
  {t : TaskId}

/-! ### Removal -/

/-- The neighbours of a linked task are other nodes, and the list is joined again behind it. -/
theorem linked_neighbours {k : Nat} (h : Linked next prev (nodes (l ++ (t, k) :: r)))
    (hd : ((l ++ (t, k) :: r).map Prod.fst).Nodup) :
    next (.task t) ≠ .task t ∧
    (prev (.task t) = .delayHead ∨ ∃ x ∈ l, prev (.task t) = .task x.1) ∧
    (r = [] ∧ next (.task t) = .delayTail ∨
      ∃ x, r.head? = some x ∧ next (.task t) = .task x.1) ∧
    Linked (Function.update next (prev (.task t)) (next (.task t)))
      (Function.update prev (next (.task t)) (prev (.task t))) (nodes (l ++ r)) := by
  obtain ⟨pre, p, q, rest, hp, hq, hpc, hqc⟩ := exists_neighbours l r
  have hlist : nodes (l ++ (t, k) :: r) = pre ++ p :: Addr.task t :: q :: rest := by
    rw [nodes, List.map_append, List.map_cons, List.append_assoc, ← List.cons_append, hp,
      List.cons_append, hq]
    simp
  have hnd := nodup_nodes hd
  rw [hlist] at hnd h
  obtain ⟨-, ⟨-, hpp⟩, hx⟩ := List.isChain_append_cons_cons.mp h
  obtain ⟨⟨hnq, -⟩, -⟩ := List.isChain_cons_cons.mp hx
  have hqt : q ≠ .task t := by
    rintro rfl
    exact (List.nodup_cons.mp (List.nodup_cons.mp (List.nodup_append.mp hnd).2.1).2).1
      (by simp)
  have hrem := Linked.remove h hnd
  rw [hnq, hpp] at hrem ⊢
  refine ⟨hqt, hpc, hqc, ?_⟩
  rw [nodes, List.map_append, List.append_assoc, ← List.cons_append, hp, hq]
  simpa using hrem

/-- The neighbours of a listed task are other nodes of the delay list. -/
theorem neighbours {k : Nat} (h : DelayList next prev delay (l ++ (t, k) :: r))
    (hd : ((l ++ (t, k) :: r).map Prod.fst).Nodup) :
    next (.task t) ≠ .task t ∧
    (prev (.task t) = .delayHead ∨ ∃ x ∈ l, prev (.task t) = .task x.1) ∧
    (r = [] ∧ next (.task t) = .delayTail ∨
      ∃ x, r.head? = some x ∧ next (.task t) = .task x.1) ∧
    Linked (Function.update next (prev (.task t)) (next (.task t)))
      (Function.update prev (next (.task t)) (prev (.task t)))
      (.delayHead :: ((l ++ r).map (fun p ↦ Addr.task p.1) ++ [Addr.delayTail])) :=
  linked_neighbours h.linked hd

/-- The writes of `ycore.c:465–472` take a task out of the delay list. -/
theorem remove {k : Nat} (h : DelayList next prev delay (l ++ (t, k) :: r))
    (hd : ((l ++ (t, k) :: r).map Prod.fst).Nodup)
    (hk : ∀ p ∈ l ++ (t, k) :: r, p.2 ≤ 0xFFFF) :
    DelayList (Function.update next (prev (.task t)) (next (.task t)))
      (Function.update prev (next (.task t)) (prev (.task t)))
      (Function.update (Function.update delay (next (.task t))
        (delay (next (.task t)) + delay (.task t))) .delayTail 0xFFFF) (l ++ r) := by
  obtain ⟨-, -, hq, hlinked⟩ := h.neighbours hd
  rw [List.map_append, List.map_cons] at hd
  obtain ⟨-, hdr, hdl⟩ := List.nodup_append.mp hd
  -- only the first one after the removed task changes its field
  have hother : ∀ x, x ∈ l ∨ x ∈ r.tail → next (.task t) ≠ .task x.1 := by
    intro x hx
    rcases hq with ⟨-, hq⟩ | ⟨y, hy, hq⟩
    · simp [hq]
    · obtain ⟨r, rfl⟩ : ∃ r', r = y :: r' := ⟨r.tail, (List.cons_head?_tail hy).symm⟩
      rw [hq]
      rintro hxy
      obtain hxy : y.1 = x.1 := Addr.task.inj hxy
      rcases hx with hx | hx
      · exact hdl x.1 (List.mem_map_of_mem hx) y.1 (by simp) hxy.symm
      · apply (List.nodup_cons.mp (List.nodup_cons.mp hdr).2).1
        rw [hxy]
        exact List.mem_map_of_mem hx
  refine ⟨hlinked, h.deltas.remove ?_ ?_ ?_, ?_, by simp⟩
  · intro x hx
    rcases hq with ⟨rfl, -⟩ | ⟨y, hy, hq⟩
    · cases hx
    · obtain rfl : y = x := Option.some.inj (hy.symm.trans hx)
      obtain ⟨r, rfl⟩ : ∃ r', r = y :: r' := ⟨r.tail, (List.cons_head?_tail hy).symm⟩
      have hd2 := (Deltas.append_iff.mp h.deltas).2
      have h1 : _ + (delay (.task t)).toNat = k := hd2.1
      have h2 : k + (delay (.task y.1)).toNat = y.2 := hd2.2.1
      have h3 := hk y (by simp)
      simp only [hq, ne_eq, reduceCtorEq, not_false_eq_true, Function.update_of_ne,
        Function.update_self, BitVec.toNat_add]
      omega
  · intro x hx
    simp [Function.update_of_ne (hother x (.inl hx)).symm]
  · intro x hx
    simp [Function.update_of_ne (hother x (.inr hx)).symm]
  · rcases hq with ⟨-, hq⟩ | ⟨y, -, hq⟩ <;> simp [hq, h.head]

private theorem filter_ne {k : Nat} (hd : ((l ++ (t, k) :: r).map Prod.fst).Nodup) :
    (l ++ (t, k) :: r).filter (·.1 ≠ t) = l ++ r := by
  rw [List.map_append, List.map_cons] at hd
  obtain ⟨-, hdr, hdl⟩ := List.nodup_append.mp hd
  have hl : ∀ x ∈ l, x.1 ≠ t := fun x hx ↦ hdl _ (List.mem_map_of_mem hx) t (by simp)
  have hr : ∀ x ∈ r, x.1 ≠ t := by
    rintro x hx rfl
    exact (List.nodup_cons.mp hdr).1 (List.mem_map.mpr ⟨x, hx, rfl⟩)
  rw [List.filter_append, List.filter_cons_of_neg (by simp),
    List.filter_eq_self.mpr (by simpa using hl), List.filter_eq_self.mpr (by simpa using hr)]

/-- The same for a task wherever it stands in the list. -/
theorem cancel {dl : List (TaskId × Nat)} (h : DelayList next prev delay dl)
    (hd : (dl.map Prod.fst).Nodup) (hk : ∀ p ∈ dl, p.2 ≤ 0xFFFF) (ht : t ∈ dl.map Prod.fst) :
    next (.task t) ≠ .task t ∧
    (prev (.task t) = .delayHead ∨ ∃ u, prev (.task t) = .task u) ∧
    (next (.task t) = .delayTail ∨ ∃ u, next (.task t) = .task u) ∧
    DelayList (Function.update next (prev (.task t)) (next (.task t)))
      (Function.update prev (next (.task t)) (prev (.task t)))
      (Function.update (Function.update delay (next (.task t))
        (delay (next (.task t)) + delay (.task t))) .delayTail 0xFFFF)
      (dl.filter (·.1 ≠ t)) := by
  obtain ⟨⟨t, k⟩, hm, rfl⟩ := List.mem_map.mp ht
  obtain ⟨l, r, rfl⟩ := List.append_of_mem hm
  obtain ⟨hnt, hp, hn, -⟩ := h.neighbours hd
  refine ⟨hnt, hp.imp_right fun ⟨x, _, hx⟩ ↦ ⟨x.1, hx⟩,
    hn.imp (·.2) fun ⟨x, _, hx⟩ ↦ ⟨x.1, hx⟩, ?_⟩
  rw [filter_ne hd]
  exact h.remove hd hk

/-- The first node can be followed. -/
theorem front_ne_null (r : List (TaskId × Nat)) : front r ≠ .null := by
  cases r <;> simp [front]

/-- From the head sentinel to the first node. -/
theorem linked_head {dl : List (TaskId × Nat)} (h : Linked next prev (nodes dl)) :
    next .delayHead = front dl := by
  have hchain : Threads next (nodes dl) := h.imp fun _ _ hab ↦ hab.1
  cases dl with
  | nil => exact threads_pair.mp hchain
  | cons p r => exact (threads_cons_cons.mp hchain).1

/-- The same of a delay list. -/
theorem next_head {dl : List (TaskId × Nat)} (h : DelayList next prev delay dl) :
    next .delayHead = front dl := linked_head h.linked

/-- From a task to the next node. -/
theorem linked_next {k : Nat} (h : Linked next prev (nodes (l ++ (t, k) :: r))) :
    next (.task t) = front r := by
  have hchain : Threads next (nodes (l ++ (t, k) :: r)) := h.imp fun _ _ hab ↦ hab.1
  have hcut : nodes (l ++ (t, k) :: r) = (Addr.delayHead :: l.map fun p ↦ Addr.task p.1) ++
      Addr.task t :: (r.map (fun p ↦ Addr.task p.1) ++ [.delayTail]) := by
    simp [nodes]
  rw [hcut] at hchain
  cases r with
  | nil => exact threads_pair.mp hchain.right_of_append
  | cons p r => exact (threads_cons_cons.mp hchain.right_of_append).1

/-- The same of a delay list. -/
theorem next_task {k : Nat} (h : DelayList next prev delay (l ++ (t, k) :: r)) :
    next (.task t) = front r := linked_next h.linked

/-- The first node of a rest is not the head sentinel. -/
theorem front_ne_head (r : List (TaskId × Nat)) : front r ≠ .delayHead := by
  cases r <;> simp [front]

/-- A task outside the rest is not its first node. -/
theorem task_ne_front (ht : t ∉ r.map Prod.fst) : Addr.task t ≠ front r := by
  cases r with
  | nil => simp [front]
  | cons x r =>
    intro he
    exact ht (by simp [Addr.task.inj he])

/-- The fields of the other tasks do not matter. -/
theorem setDelay {dl : List (TaskId × Nat)} (h : DelayList next prev delay dl)
    (ht : t ∉ dl.map Prod.fst) {v : BitVec 16} :
    DelayList next prev (Function.update delay (.task t) v) dl where
  linked := h.linked
  deltas := h.deltas.congr fun p hp ↦ by
    have hne : p.1 ≠ t := by
      rintro rfl
      exact ht (List.mem_map_of_mem hp)
    simp [hne]
  head := by simpa using h.head
  tail := by simpa using h.tail

/-! ### Insertion -/

section

variable {σ : Type} {loop : Nat → σ → Addr → Exec (σ × Addr × BitVec 16)} {st : BitVec 16 → σ}

/-- A loop that compares the delay of a task with those of the nodes. -/
def Compares (next : Addr → Addr) (delay : Addr → BitVec 16) (t : TaskId)
    (loop : Nat → σ → Addr → Exec (σ × Addr × BitVec 16)) (st : BitVec 16 → σ) : Prop :=
  ∀ n v p, p ≠ .null → p ≠ .task t → loop (n + 1) (st v) p =
    if v > delay p then loop n (st (v - delay p)) (next p) else .ok (st v, p, delay p)

private theorem Compares.yields (hl : Compares next delay t loop st) {r : List (TaskId × Nat)}
    {c d : Nat} {v : BitVec 16}
    (hr : Threads next (r.map (fun p ↦ Addr.task p.1) ++ [Addr.delayTail]))
    (hd : Deltas (fun u ↦ (delay (.task u)).toNat) c r) (ht : t ∉ r.map Prod.fst)
    (htail : delay .delayTail = 0xFFFF) (hv : c + v.toNat = d) :
    ∃ v' : BitVec 16,
      lastTime c (r.takeWhile fun p ↦ ¬ due (t, d) p) + v'.toNat = d ∧
      Yields (fun n ↦ loop n (st v) (front r))
        (st v', front (r.dropWhile fun p ↦ ¬ due (t, d) p),
          delay (front (r.dropWhile fun p ↦ ¬ due (t, d) p))) := by
  induction r generalizing c v with
  | nil =>
    refine ⟨v, hv, Yields.succ ⟨0, fun n _ ↦ ?_⟩⟩
    have hle : ¬ v > delay .delayTail := by
      have hv := v.isLt
      have hm : (0xFFFF : BitVec 16).toNat = 0xFFFF := rfl
      rw [gt_iff_lt, BitVec.lt_def, htail, hm]
      omega
    exact (hl n v .delayTail (by simp) (by simp)).trans (if_neg hle)
  | cons p r ih =>
    obtain ⟨u, k⟩ := p
    simp only [List.map_cons, List.mem_cons, not_or] at ht
    have hu : Addr.task u ≠ Addr.task t := by simpa using Ne.symm ht.1
    have hk : c + (delay (.task u)).toNat = k := hd.1
    have hnext : next (.task u) = front r := by
      cases r with
      | nil => exact threads_pair.mp hr
      | cons q r => exact (threads_cons_cons.mp hr).1
    by_cases hdue : d ≤ k
    · -- due no earlier than the new task
      have hp : decide (¬ due (t, d) (u, k)) = false := by simpa [due] using hdue
      simp only [List.takeWhile_cons, List.dropWhile_cons, hp, Bool.false_eq_true, if_false]
      refine ⟨v, hv, Yields.succ ⟨0, fun n _ ↦ ?_⟩⟩
      have hle : ¬ v > delay (.task u) := by
        rw [gt_iff_lt, BitVec.lt_def]
        omega
      exact (hl n v (.task u) (by simp) hu).trans (if_neg hle)
    · have hp : decide (¬ due (t, d) (u, k)) = true := by simpa [due] using hdue
      simp only [List.takeWhile_cons, List.dropWhile_cons, hp, if_true]
      have hlt : v > delay (.task u) := by
        rw [gt_iff_lt, BitVec.lt_def]
        omega
      have hsub : (v - delay (.task u)).toNat = v.toNat - (delay (.task u)).toNat :=
        BitVec.toNat_sub_of_le (BitVec.le_of_lt hlt)
      obtain ⟨v', hv', hy⟩ := ih (List.IsChain.tail hr) hd.2 ht.2
        (v := v - delay (.task u)) (by rw [hsub]; rw [gt_iff_lt, BitVec.lt_def] at hlt; omega)
      refine ⟨v', ?_, Yields.succ (hy.congr fun n ↦ ?_)⟩
      · rwa [lastTime, List.map_cons, List.getLastD_cons]
      · rw [← hnext]
        exact (hl n v (.task u) (by simp) hu).trans (if_pos hlt)

/-- The same from the head sentinel on. -/
theorem Compares.search (hl : Compares next delay t loop st) {dl : List (TaskId × Nat)}
    (h : DelayList next prev delay dl) (ht : t ∉ dl.map Prod.fst) {d : BitVec 16} (h0 : d ≠ 0) :
    ∃ v' : BitVec 16,
      lastTime 0 (dl.takeWhile fun p ↦ ¬ due (t, d.toNat) p) + v'.toNat = d.toNat ∧
      Yields (fun n ↦ loop n (st d) .delayHead)
        (st v', front (dl.dropWhile fun p ↦ ¬ due (t, d.toNat) p),
          delay (front (dl.dropWhile fun p ↦ ¬ due (t, d.toNat) p))) := by
  have hchain : Threads next (.delayHead :: (dl.map (fun p ↦ Addr.task p.1) ++ [Addr.delayTail])) :=
    h.linked.imp fun _ _ hab ↦ hab.1
  obtain ⟨v', hv', hy⟩ := hl.yields (v := d) hchain.tail h.deltas ht h.tail (Nat.zero_add _)
  refine ⟨v', hv', Yields.succ (hy.congr fun n ↦ ?_)⟩
  have hpos : d > 0 := by
    rw [gt_iff_lt, BitVec.lt_def]
    exact Nat.pos_of_ne_zero fun hz ↦ h0 (BitVec.eq_of_toNat_eq hz)
  have hz : d - 0 = d := BitVec.sub_zero d
  rw [hl n d .delayHead (by simp) (by simp), h.head, if_pos hpos, hz, h.next_head]

end

/-- The first node of a rest of the list is the tail sentinel or the first task of it. -/
theorem front_cases (r : List (TaskId × Nat)) :
    r = [] ∧ front r = .delayTail ∨ ∃ x, r.head? = some x ∧ front r = .task x.1 := by
  cases r with
  | nil => exact .inl ⟨rfl, rfl⟩
  | cons x r => exact .inr ⟨x, rfl, rfl⟩

/-- No other task of the list is the first one of its rest. -/
theorem front_ne (hd : ((l ++ r).map Prod.fst).Nodup) {x : TaskId × Nat}
    (hx : x ∈ l ∨ x ∈ r.tail) : Addr.task x.1 ≠ front r := by
  rw [List.map_append] at hd
  obtain ⟨-, hdr, hdl⟩ := List.nodup_append.mp hd
  cases r with
  | nil => simp [front]
  | cons y r =>
    intro he
    obtain he : x.1 = y.1 := Addr.task.inj he
    rcases hx with hx | hx
    · exact hdl x.1 (List.mem_map_of_mem hx) y.1 (by simp) he
    · apply (List.nodup_cons.mp hdr).1
      rw [← he]
      exact List.mem_map_of_mem hx

/-- A new task is linked in front of a rest of the list. -/
theorem linked_insert {c : Nat} (h : Linked next prev (nodes (l ++ r)))
    (hd : ((l ++ r).map Prod.fst).Nodup) (ht : t ∉ (l ++ r).map Prod.fst) :
    (prev (front r) = .delayHead ∨ ∃ x ∈ l, prev (front r) = .task x.1) ∧
    Linked (Function.update (Function.update next (.task t) (front r)) (prev (front r)) (.task t))
      (Function.update (Function.update prev (.task t) (prev (front r))) (front r) (.task t))
      (nodes (l ++ (t, c) :: r)) := by
  obtain ⟨pre, p, q, rest, hp, hq, hpc, -⟩ := exists_neighbours l r
  obtain rfl : front r = q := by
    cases r with
    | nil => exact (List.cons.inj hq).1
    | cons x r => exact (List.cons.inj hq).1
  have hnodes : nodes (l ++ r) = pre ++ p :: front r :: rest := by
    rw [nodes, List.map_append, List.append_assoc, ← List.cons_append, hp, hq]
    simp
  have hnodes' : nodes (l ++ (t, c) :: r) = pre ++ p :: Addr.task t :: front r :: rest := by
    rw [nodes, List.map_append, List.map_cons, List.append_assoc, ← List.cons_append, hp,
      List.cons_append, hq]
    simp
  have hnd : (nodes (l ++ (t, c) :: r)).Nodup := by
    apply nodup_nodes
    rw [List.map_append, List.map_cons]
    exact List.nodup_middle.mpr (List.nodup_cons.mpr ⟨by rwa [← List.map_append],
      by rwa [← List.map_append]⟩)
  rw [hnodes] at h
  rw [hnodes'] at hnd ⊢
  have hpq : prev (front r) = p := (List.isChain_append_cons_cons.mp h).2.1.2
  rw [hpq]
  exact ⟨hpc, Linked.insert h hnd⟩

/-- The writes of `ycore.c:1180–1186` link a task in front of the first one that is due no
earlier. -/
theorem insert {dl : List (TaskId × Nat)} (h : DelayList next prev delay dl)
    (hd : (dl.map Prod.fst).Nodup) (ht : t ∉ dl.map Prod.fst) {d v' : BitVec 16} {q : Addr}
    (hv' : lastTime 0 (dl.takeWhile fun p ↦ ¬ due (t, d.toNat) p) + v'.toNat = d.toNat)
    (hfront : front (dl.dropWhile fun p ↦ ¬ due (t, d.toNat) p) = q) :
    (q = .delayTail ∨ ∃ u ≠ t, q = .task u) ∧
    (prev q = .delayHead ∨ ∃ u ≠ t, prev q = .task u) ∧
    DelayList (Function.update (Function.update next (.task t) q) (prev q) (.task t))
      (Function.update (Function.update prev (.task t) (prev q)) q (.task t))
      (Function.update (Function.update (Function.update delay (.task t) v') q
        (delay q - v')) .delayTail 0xFFFF)
      (dl.orderedInsert due (t, d.toNat)) := by
  have hsplit : dl.orderedInsert due (t, d.toNat) = _ :=
    List.orderedInsert_eq_take_drop due (t, d.toNat) dl
  have hlr := List.takeWhile_append_dropWhile (p := fun p ↦ ¬ due (t, d.toNat) p) (l := dl)
  have hrd : ∀ x ∈ (dl.dropWhile fun p ↦ ¬ due (t, d.toNat) p).head?, d.toNat ≤ x.2 := by
    intro x hx
    have hn := List.head?_dropWhile_not (fun p ↦ decide (¬ due (t, d.toNat) p)) dl
    rw [Option.mem_def.mp hx] at hn
    simpa [due] using hn
  generalize dl.takeWhile (fun p ↦ ¬ due (t, d.toNat) p) = l at *
  generalize dl.dropWhile (fun p ↦ ¬ due (t, d.toNat) p) = r at *
  subst hfront
  rw [hsplit]
  subst hlr
  have hne : ∀ x ∈ l ++ r, x.1 ≠ t := by
    rintro x hx rfl
    exact ht (List.mem_map_of_mem hx)
  have hqc : front r = .delayTail ∨ ∃ x ∈ r, front r = .task x.1 :=
    (front_cases r).imp And.right fun ⟨x, hx, he⟩ ↦ ⟨x, List.mem_of_mem_head? hx, he⟩
  have hqt : front r ≠ .task t := by
    rcases hqc with he | ⟨x, hx, he⟩
    · simp [he]
    · simpa [he] using hne x (by simp [hx])
  obtain ⟨hpc, hlinked⟩ := linked_insert (c := d.toNat) h.linked hd ht
  refine ⟨hqc.imp_right fun ⟨x, hx, he⟩ ↦ ⟨x.1, hne x (by simp [hx]), he⟩,
    hpc.imp_right fun ⟨x, hx, he⟩ ↦ ⟨x.1, hne x (by simp [hx]), he⟩, hlinked, ?_, ?_, by simp⟩
  · apply h.deltas.insert
    · simpa [hqt.symm] using hv'
    · intro x hx
      obtain ⟨r, rfl⟩ : ∃ r', r = x :: r' := ⟨r.tail, (List.cons_head?_tail hx).symm⟩
      have hle := hrd x hx
      have hlast : lastTime 0 l + (delay (.task x.1)).toNat = x.2 :=
        (Deltas.append_iff.mp h.deltas).2.1
      have hsub : v' ≤ delay (.task x.1) := by
        rw [BitVec.le_def]
        omega
      have hf : front (x :: r) = .task x.1 := rfl
      simp only [hf, ne_eq, reduceCtorEq, not_false_eq_true, Function.update_of_ne,
        Function.update_self, BitVec.toNat_sub_of_le hsub]
      rw [BitVec.le_def] at hsub
      omega
    · intro x hx
      simp [front_ne hd (.inl hx), hne x (by simp [hx])]
    · intro x hx
      simp [front_ne hd (.inr hx), hne x (by simp [List.mem_of_mem_tail hx])]
  · rcases hqc with he | ⟨x, -, he⟩ <;> simp [he, h.head]


/-! ### Ticks -/

/-- The relative time of the first task is its remaining time. -/
theorem delay_head {k : Nat} (h : DelayList next prev delay ((t, k) :: r)) :
    (delay (.task t)).toNat = k := by
  have h1 : 0 + (delay (.task t)).toNat = k := h.deltas.1
  omega

/-- Counting a task down counts all tasks behind it down. -/
theorem deltas_tick {b k : Nat}
    (h : Deltas (fun u ↦ (delay (.task u)).toNat) b ((t, k) :: r))
    (hd : (((t, k) :: r).map Prod.fst).Nodup) (h0 : delay (.task t) ≠ 0) :
    Deltas (fun u ↦ (Function.update delay (.task t) (delay (.task t) - 1) (.task u)).toNat) b
      (((t, k) :: r).map fun p ↦ (p.1, p.2 - 1)) := by
  have hpos : 0 < (delay (.task t)).toNat :=
    Nat.pos_of_ne_zero fun hz ↦ h0 (BitVec.eq_of_toNat_eq hz)
  have hdec : (delay (.task t) - 1).toNat = (delay (.task t)).toNat - 1 := by
    rw [BitVec.toNat_sub_of_le]
    · rfl
    · rw [BitVec.le_def]
      exact hpos
  refine h.tick ?_ fun p hp ↦ ?_
  · simp only [Function.update_self, hdec]
    omega
  · have hpt : p.1 ≠ t := by
      rintro rfl
      exact (List.nodup_cons.mp hd).1 (List.mem_map.mpr ⟨p, hp, rfl⟩)
    simp [hpt]

/-- Counting the first task down counts all tasks down. -/
theorem tick {k : Nat} (h : DelayList next prev delay ((t, k) :: r))
    (hd : (((t, k) :: r).map Prod.fst).Nodup) (hk : k ≠ 0) :
    DelayList next prev (Function.update delay (.task t) (delay (.task t) - 1))
      (((t, k) :: r).map fun p ↦ (p.1, p.2 - 1)) := by
  have h0 : delay (.task t) ≠ 0 := by
    intro hz
    have hh := h.delay_head
    rw [hz] at hh
    exact hk hh.symm
  refine ⟨?_, deltas_tick h.deltas hd h0, ?_, ?_⟩
  · have hlk := h.linked
    rwa [List.map_map]
  · simpa using h.head
  · simpa using h.tail

end DelayList

end YRmx
