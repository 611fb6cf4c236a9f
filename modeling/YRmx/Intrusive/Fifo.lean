import YRmx.Intrusive.Links

/-!
# A singly linked queue whose root is written through as a node

Library `Intrusive`. The queue is entered at `root`, whose link field is the head
pointer, and `tail` is the address of the last node, the root itself when the queue
is empty. Appending and unlinking therefore need no special case for the empty queue.
-/

namespace Intrusive

variable {α : Type}

/-- The link fields from `root` denote `xs`, and `tail` is the last node written through. -/
structure Fifo (link : α → α) (null root tail : α) (xs : List α) : Prop where
  threads : Threads link (root :: (xs ++ [null]))
  tail_eq : tail = xs.getLastD root
  fresh : null ∉ root :: xs

namespace Fifo

variable {link : α → α} {null root tail : α} {xs : List α}

/-- The root and the nodes of a queue are pairwise different addresses. -/
theorem nodup_root (h : Fifo link null root tail xs) : (root :: xs).Nodup :=
  (h.threads : Threads link ((root :: xs) ++ [null])).nodup h.fresh

/-- A queue holds no node twice. -/
theorem nodup (h : Fifo link null root tail xs) : xs.Nodup := h.nodup_root.tail

/-- The root of a queue is not one of its nodes. -/
theorem root_not_mem (h : Fifo link null root tail xs) : root ∉ xs :=
  (List.nodup_cons.mp h.nodup_root).1

/-- The link fields determine the denoted sequence. -/
theorem unique {tail' : α} {ys : List α} (h : Fifo link null root tail xs)
    (h' : Fifo link null root tail' ys) : xs = ys :=
  Threads.unique h.threads h'.threads (fun hm ↦ h.fresh (List.mem_cons_of_mem _ hm))
    (fun hm ↦ h'.fresh (List.mem_cons_of_mem _ hm))

/-- A queue only depends on the link fields of its root and of its nodes. -/
theorem congr {link' : α → α} (h : Fifo link null root tail xs) (hr : link' root = link root)
    (hx : ∀ a ∈ xs, link' a = link a) : Fifo link' null root tail xs := by
  refine ⟨Threads.congr h.threads fun a ha ↦ ?_, h.tail_eq, h.fresh⟩
  rw [← List.cons_append, List.dropLast_concat] at ha
  rcases List.mem_cons.mp ha with rfl | ha
  · exact hr
  · exact hx a ha

/-- The empty queue has a null head pointer and a tail pointer at its own root. -/
theorem nil (hl : link root = null) (ht : tail = root) (hr : null ≠ root) :
    Fifo link null root tail [] :=
  ⟨threads_pair.mpr hl, ht, by simpa using hr⟩

/-- A queue of one node. -/
theorem singleton {x : α} (hr : link root = x) (hx : link x = null) (ht : tail = x)
    (hrn : null ≠ root) (hxn : null ≠ x) : Fifo link null root tail [x] :=
  ⟨threads_cons_cons.mpr ⟨hr, threads_pair.mpr hx⟩, ht, by simp [hrn, hxn]⟩

/-- The head pointer is the first node, or null. -/
theorem head_eq (h : Fifo link null root tail xs) : link root = xs.headD null := by
  have ht := h.threads
  cases xs with
  | nil => exact threads_pair.mp ht
  | cons x xs => exact (threads_cons_cons.mp ht).1

/-- A null head pointer denotes the empty queue. -/
theorem head_null_iff (h : Fifo link null root tail xs) : link root = null ↔ xs = [] := by
  rw [h.head_eq]
  cases xs with
  | nil => simp
  | cons x xs =>
    have hx : null ≠ x := fun he ↦ h.fresh (by simp [he])
    simp [Ne.symm hx]

/-- The tail pointer is the root or a node. -/
theorem tail_mem (h : Fifo link null root tail xs) : tail ∈ root :: xs := by
  rw [h.tail_eq]
  exact List.getLastD_mem_cons

/-- The tail pointer can be written through. -/
theorem tail_ne_null (h : Fifo link null root tail xs) : tail ≠ null :=
  fun he ↦ h.fresh (he ▸ h.tail_mem)

/-- The tail pointer is the root exactly when the queue is empty. -/
theorem tail_root_iff (h : Fifo link null root tail xs) : tail = root ↔ xs = [] := by
  rw [h.tail_eq]
  cases xs with
  | nil => simp
  | cons x xs =>
    have hm : (x :: xs).getLastD root ∈ x :: xs := by
      rw [List.getLastD_cons]
      exact List.getLastD_mem_cons
    have hne : (x :: xs).getLastD root ≠ root := fun he ↦ h.root_not_mem (he ▸ hm)
    simp only [hne, reduceCtorEq]

/-- The link field of a node is the node after it, or null. -/
theorem link_eq {l r : List α} {x : α} (h : Fifo link null root tail (l ++ x :: r)) :
    link x = r.headD null := by
  have ht : Threads link (x :: (r ++ [null])) := by
    apply List.IsChain.suffix h.threads
    exact ⟨root :: l, by simp⟩
  cases r with
  | nil => exact threads_pair.mp ht
  | cons y r => exact (threads_cons_cons.mp ht).1

/-- The last element after a given element ignores what precedes it. -/
theorem getLastD_append_cons (l r : List α) (x d : α) :
    (l ++ x :: r).getLastD d = r.getLastD x := by
  induction l generalizing d with
  | nil => exact List.getLastD_cons
  | cons y l ih => rw [List.cons_append, List.getLastD_cons, ih]

/-- The root and a queue up to a given last node, as pieces of the thread. -/
theorem exists_pred (root : α) (l : List α) :
    ∃ pre, root :: l = pre ++ [l.getLastD root] := by
  induction l generalizing root with
  | nil => exact ⟨[], rfl⟩
  | cons x l ih =>
    obtain ⟨pre, hp⟩ := ih x
    exact ⟨root :: pre, by rw [List.getLastD_cons, List.cons_append, ← hp]⟩

/-- A search from the root comes closer to the node that it looks for, up to the node in front
of it. -/
theorem toward {l r : List α} {x a : α} (h : Fifo link null root tail (l ++ x :: r))
    (ha : a ∈ root :: l) :
    link a = x ∧ a = l.getLastD root ∨ link a ≠ x ∧ link a ∈ l := by
  obtain ⟨l₁, l₂, hl⟩ := List.append_of_mem ha
  have hth := h.threads
  have hx : x ∉ l := fun hm ↦ (List.nodup_append.mp h.nodup).2.2 x hm x (by simp) rfl
  rw [List.append_assoc, List.cons_append, ← List.cons_append, hl, List.append_assoc] at hth
  have hth : Threads link (a :: (l₂ ++ x :: (r ++ [null]))) := hth.right_of_append
  cases l₂ with
  | nil =>
    refine .inl ⟨(threads_cons_cons.mp hth).1, ?_⟩
    rw [← List.getLastD_cons (b := root) (a := root), hl]
    simp
  | cons b l₂ =>
    have hb : link a = b := (threads_cons_cons.mp hth).1
    have hmem : b ∈ l := by
      cases l₁ with
      | nil => simp [(List.cons.inj hl).2]
      | cons c l₁ => simp [(List.cons.inj hl).2]
    exact .inr ⟨fun he ↦ hx (he ▸ hb ▸ hmem), hb ▸ hmem⟩

variable [DecidableEq α]

/-- Clearing the link of a fresh node and writing it through the tail appends it. -/
theorem append {n : α} (h : Fifo link null root tail xs) (hn : n ∉ root :: xs)
    (hnull : n ≠ null) :
    Fifo (Function.update (Function.update link n null) tail n) null root n (xs ++ [n]) := by
  obtain ⟨pre, hp⟩ := exists_pred root xs
  rw [← h.tail_eq] at hp
  have hd := h.nodup_root
  rw [hp] at hd
  refine ⟨?_, by simp, ?_⟩
  · have ht := h.threads
    rw [← List.cons_append, hp] at ht
    have h₁ : Threads (Function.update link n null) (pre ++ [tail]) := by
      have hpt : Threads link (pre ++ [tail]) := List.IsChain.left_of_append ht
      refine hpt.congr fun a ha ↦ Function.update_of_ne ?_ _ _
      rintro rfl
      exact hn (hp ▸ List.dropLast_subset _ ha)
    have h₂ : Threads (Function.update link n null) [n, null] :=
      threads_pair.mpr (Function.update_self ..)
    have hnt : tail ≠ n := fun he ↦ hn (hp ▸ by simp [he])
    have hnn : tail ≠ null := fun he ↦ h.fresh (hp ▸ by simp [he])
    have hpre : tail ∉ pre := fun hm ↦ (List.nodup_append.mp hd).2.2 _ hm tail (by simp) rfl
    have hj := Threads.join h₁ h₂ hpre (by simp [hnt, hnn])
    simpa [← List.cons_append, hp] using hj
  · have hf := h.fresh
    simp only [List.mem_cons, List.mem_append, List.not_mem_nil, or_false, not_or] at hf ⊢
    exact ⟨hf.1, hf.2, Ne.symm hnull⟩

/-- A node whose link is null already is appended by writing it through the tail. -/
theorem append_cleared {n : α} (h : Fifo link null root tail xs) (hn : n ∉ root :: xs)
    (hnull : n ≠ null) (hl : link n = null) :
    Fifo (Function.update link tail n) null root n (xs ++ [n]) := by
  have hu : Function.update link n null = link := by rw [← hl, Function.update_eq_self]
  have ha := h.append hn hnull
  rwa [hu] at ha

/-- Unlinking a node through its predecessor removes it and keeps all others in order. -/
theorem remove {l r : List α} {x : α} (h : Fifo link null root tail (l ++ x :: r)) :
    Fifo (Function.update link (l.getLastD root) (link x)) null root
      (if link x = null then l.getLastD root else tail) (l ++ r) := by
  obtain ⟨pre, hp⟩ := exists_pred root l
  have hr : link x :: (r ++ [null]).tail = r ++ [null] := by
    rw [h.link_eq]
    cases r <;> rfl
  have hd := h.nodup_root
  have hf := h.fresh
  have ht := h.threads
  rw [← List.cons_append, hp, List.append_assoc] at hd hf
  rw [List.append_assoc, ← List.cons_append, hp, List.append_assoc] at ht
  obtain ⟨-, hpd, hpre⟩ := List.nodup_append.mp hd
  generalize hq : l.getLastD root = p at *
  have h₁ : Threads link (pre ++ [p]) := by
    rw [← List.append_assoc] at ht
    exact List.IsChain.left_of_append ht
  have h₂ : Threads link (link x :: (r ++ [null]).tail) := by
    rw [hr]
    exact ht.suffix ⟨pre ++ [p, x], by simp⟩
  have hnp : p ∉ pre := fun hm ↦ hpre _ hm p (by simp) rfl
  have hnr : p ∉ r ++ [null] := by
    simp only [List.mem_append, List.mem_cons, List.not_mem_nil, or_false, not_or] at hf ⊢
    exact ⟨fun hm ↦ (List.nodup_cons.mp hpd).1 (by simp [hm]), Ne.symm hf.2.1⟩
  refine ⟨?_, ?_, ?_⟩
  · have hj := Threads.join h₁ h₂ hnp (by rwa [hr])
    rw [hr] at hj
    rw [List.append_assoc, ← List.cons_append, hp]
    simpa using hj
  · rw [h.link_eq, h.tail_eq]
    cases r with
    | nil =>
      rw [List.headD_nil, if_pos rfl, List.append_nil]
      exact hq.symm
    | cons y r =>
      have hy : y ≠ null := by
        rintro rfl
        exact hf (by simp)
      rw [List.headD_cons, if_neg hy, getLastD_append_cons, getLastD_append_cons,
        List.getLastD_cons]
  · rw [← List.cons_append, hp]
    simp only [List.mem_append, List.mem_cons, List.not_mem_nil, or_false, not_or] at hf ⊢
    exact ⟨⟨hf.1, hf.2.1⟩, hf.2.2.2⟩

end Fifo

end Intrusive
