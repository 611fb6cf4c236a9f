import Mathlib.Logic.Relation
import YRmx.Intrusive.Links

/-!
# A singly linked list behind a head variable

Library `Intrusive`. The head is a variable of its own, so no link field stands before the
first node. The tail of such a list is the address of its last node and means nothing while
the list is empty.
-/

namespace Intrusive

variable {α : Type}

/-- The head and the link fields behind it denote `xs`. -/
structure Headed (link : α → α) (null head : α) (xs : List α) : Prop where
  threads : Threads link (xs ++ [null])
  head_eq : head = xs.headD null
  fresh : null ∉ xs

/-- The tail designates the last node, if there is one. -/
def EndsAt (tail : α) (xs : List α) : Prop := ∀ x ∈ xs.getLast?, tail = x

/-- A pointer leads to the one in its link field. -/
def Leads (link : α → α) (null p q : α) : Prop := p ≠ null ∧ link p = q

/-- Behind a node whose link field is null there is nothing. -/
theorem behind_null {link : α → α} {null p q : α}
    (h : Relation.TransGen (Leads link null) p q) (hp : link p = null) : q = null := by
  obtain ⟨r, hpr, hr⟩ := Relation.TransGen.head'_iff.mp h
  rw [← hpr.2, hp] at hr
  rcases hr.cases_head with rfl | ⟨_, hn, -⟩
  · rfl
  · exact absurd rfl hn.1

/-- From a node whose link field is null, nothing but the node is reached. -/
theorem reaches_null {link : α → α} {null p q : α}
    (h : Relation.ReflTransGen (Leads link null) p q) (hp : link p = null) :
    q = p ∨ q = null :=
  (Relation.reflTransGen_iff_eq_or_transGen.mp h).imp_right fun ht ↦ behind_null ht hp

/-- The last of one more node is that node. -/
theorem endsAt_concat {tail x : α} {xs : List α} : EndsAt tail (xs ++ [x]) ↔ tail = x := by
  simp [EndsAt]

/-- Every tail will do for the empty list. -/
theorem endsAt_nil {tail : α} : EndsAt tail [] := by
  simp [EndsAt]

namespace Headed

variable {link : α → α} {null head : α} {xs : List α}

/-- The list behind a null head is empty. -/
theorem nil (h : head = null) : Headed link null head [] :=
  ⟨List.isChain_singleton null, h, by simp⟩

/-- A list holds no node twice. -/
theorem nodup (h : Headed link null head xs) : xs.Nodup := h.threads.nodup h.fresh

/-- A node in front of the list that its link field leads to. -/
theorem of_link {n : α} (h : Headed link null (link n) xs) (hn : n ≠ null) :
    Headed link null n (n :: xs) where
  threads := by
    cases xs with
    | nil => exact threads_pair.mpr h.head_eq
    | cons x xs => exact threads_cons_cons.mpr ⟨h.head_eq, h.threads⟩
  head_eq := rfl
  fresh hm := (List.mem_cons.mp hm).elim (fun he ↦ hn he.symm) h.fresh

/-- The link fields determine the list. -/
theorem unique {ys : List α} (h : Headed link null head xs) (h' : Headed link null head ys) :
    xs = ys := by
  have he := h.head_eq.symm.trans h'.head_eq
  cases xs with
  | nil =>
    cases ys with
    | nil => rfl
    | cons y ys => exact absurd (by simp [show null = y from he]) h'.fresh
  | cons x xs =>
    cases ys with
    | nil => exact absurd (by simp [show x = null from he]) h.fresh
    | cons y ys =>
      have hxy : x = y := he
      subst hxy
      have hx := h.fresh
      have hy := h'.fresh
      rw [List.mem_cons, not_or] at hx hy
      rw [h.threads.unique h'.threads hx.2 hy.2]

/-- A null head denotes the empty list. -/
theorem head_null_iff (h : Headed link null head xs) : head = null ↔ xs = [] := by
  rw [h.head_eq]
  cases xs with
  | nil => simp
  | cons x xs =>
    have hx : null ≠ x := fun he ↦ h.fresh (by simp [he])
    simp [Ne.symm hx]

/-- The link field of a node is the node after it, or null. -/
theorem link_eq {l r : List α} {x : α} (h : Headed link null head (l ++ x :: r)) :
    link x = r.headD null := by
  have ht : Threads link (x :: (r ++ [null])) := by
    apply List.IsChain.suffix h.threads
    exact ⟨l, by simp⟩
  cases r with
  | nil => exact threads_pair.mp ht
  | cons y r => exact (threads_cons_cons.mp ht).1

/-- The rest of a list is headed by the link field of the node before it. -/
theorem suffix {l r : List α} {x : α} (h : Headed link null head (l ++ x :: r)) :
    Headed link null (link x) r := by
  refine ⟨h.threads.suffix ⟨l ++ [x], by simp⟩, h.link_eq, fun hm ↦ h.fresh (by simp [hm])⟩

/-- A list only depends on the link fields of its nodes. -/
theorem congr {link' : α → α} (h : Headed link null head xs) (hx : ∀ a ∈ xs, link' a = link a) :
    Headed link' null head xs := by
  refine ⟨h.threads.congr fun a ha ↦ hx a ?_, h.head_eq, h.fresh⟩
  rwa [List.dropLast_concat] at ha

/-- From a node, the pointers lead to exactly the nodes behind it. -/
theorem behind_iff {l r : List α} {x y : α} (h : Headed link null head (l ++ x :: r))
    (hy : y ≠ null) : Relation.TransGen (Leads link null) x y ↔ y ∈ r := by
  induction r generalizing l x with
  | nil =>
    have hl : link x = null := h.link_eq
    constructor
    · exact fun ht ↦ absurd (behind_null ht hl) hy
    · simp
  | cons z r ih =>
    have hl : link x = z := h.link_eq
    have hx : x ≠ null := fun he ↦ h.fresh (by simp [he])
    have h' : Headed link null head ((l ++ [x]) ++ z :: r) := by simpa using h
    rw [List.mem_cons, ← ih h']
    constructor
    · intro ht
      obtain ⟨w, hxw, hw⟩ := Relation.TransGen.head'_iff.mp ht
      obtain rfl : z = w := hl.symm.trans hxw.2
      rcases Relation.reflTransGen_iff_eq_or_transGen.mp hw with he | hw
      · exact .inl he
      · exact .inr hw
    · rintro (rfl | ht)
      · exact .single ⟨hx, hl⟩
      · exact .head ⟨hx, hl⟩ ht

/-- From the head, the pointers lead to exactly the nodes of the list. -/
theorem reaches_iff {y : α} (h : Headed link null head xs) (hy : y ≠ null) :
    Relation.ReflTransGen (Leads link null) head y ↔ y ∈ xs := by
  cases xs with
  | nil =>
    rw [h.head_null_iff.mpr rfl]
    constructor
    · intro ht
      rcases ht.cases_head with rfl | ⟨_, hn, -⟩
      · exact absurd rfl hy
      · exact absurd rfl hn.1
    · simp
  | cons x xs =>
    have hx : head = x := h.head_eq
    rw [hx, Relation.reflTransGen_iff_eq_or_transGen, List.mem_cons,
      behind_iff (l := []) h hy]

variable [DecidableEq α]

/-- The first node of an empty list. -/
theorem singleton {n : α} (hn : n ≠ null) :
    Headed (Function.update link n null) null n [n] :=
  ⟨threads_pair.mpr (Function.update_self ..), rfl, by simpa using Ne.symm hn⟩

/-- Writing a fresh node through the last one and clearing its link appends it. -/
theorem concat {l : List α} {t n : α} (h : Headed link null head (l ++ [t]))
    (hn : n ∉ l ++ [t]) (hnull : n ≠ null) :
    Headed (Function.update (Function.update link t n) n null) null head (l ++ [t] ++ [n]) := by
  have hf := h.fresh
  simp only [List.mem_append, List.mem_singleton, not_or] at hn hf
  refine ⟨?_, ?_, ?_⟩
  · have htl : t ∉ l := fun hm ↦ (List.nodup_append.mp h.nodup).2.2 t hm t (by simp) rfl
    have h₁ : Threads (Function.update link n null) (l ++ [t]) := by
      refine Threads.congr h.threads.left_of_append fun a ha ↦ Function.update_of_ne ?_ _ _
      rw [List.dropLast_concat] at ha
      rintro rfl
      exact hn.1 ha
    have h₂ : Threads (Function.update link n null) [n, null] :=
      threads_pair.mpr (Function.update_self ..)
    have hj := h₁.join h₂ htl (by simpa using ⟨Ne.symm hn.2, Ne.symm hf.2⟩)
    rw [Function.update_comm hn.2] at hj
    simpa using hj
  · have hh := h.head_eq
    cases l <;> simpa using hh
  · simpa [not_or] using ⟨hf.1, hf.2, Ne.symm hnull⟩

/-- A fresh node is appended through the tail, or becomes the first one. -/
theorem append {tail n : α} (h : Headed link null head xs) (ht : EndsAt tail xs) (hn : n ∉ xs)
    (hnull : n ≠ null) :
    Headed (Function.update (if head = null then link else Function.update link tail n) n null)
      null (if head = null then n else head) (xs ++ [n]) := by
  rcases List.eq_nil_or_concat' xs with rfl | ⟨l, t, rfl⟩
  · have hh : head = null := h.head_null_iff.mpr rfl
    rw [if_pos hh, if_pos hh]
    exact singleton hnull
  · have hh : head ≠ null := fun he ↦ by simpa using h.head_null_iff.mp he
    rw [if_neg hh, if_neg hh, endsAt_concat.mp ht]
    exact h.concat hn hnull

/-- A fresh node is put in front by pointing it at the head. -/
theorem cons {n : α} (h : Headed link null head xs) (hn : n ∉ xs) (hnull : n ≠ null) :
    Headed (Function.update link n head) null n (n :: xs) := by
  have hc : Headed (Function.update link n head) null head xs :=
    h.congr fun a ha ↦ Function.update_of_ne (ne_of_mem_of_not_mem ha hn) _ _
  refine ⟨?_, rfl, ?_⟩
  · have hl : Function.update link n head n = head := Function.update_self ..
    cases xs with
    | nil => exact threads_pair.mpr (hl.trans h.head_eq)
    | cons x xs => exact threads_cons_cons.mpr ⟨hl.trans h.head_eq, hc.threads⟩
  · rw [List.mem_cons, not_or]
    exact ⟨Ne.symm hnull, h.fresh⟩

/-- A fresh node is put behind another one by taking over its link field. -/
theorem insert {l r : List α} {p n : α} (h : Headed link null head (l ++ p :: r))
    (hn : n ∉ l ++ p :: r) (hnull : n ≠ null) :
    Headed (Function.update (Function.update link n (link p)) p n) null head
      (l ++ p :: n :: r) := by
  have hf := h.fresh
  obtain ⟨-, hr, hd⟩ := List.nodup_append.mp h.nodup
  have hpl : p ∉ l := fun hm ↦ hd p hm p (by simp) rfl
  have hpr : p ∉ r := (List.nodup_cons.mp hr).1
  simp only [List.mem_append, List.mem_cons, not_or] at hn hf
  refine ⟨?_, ?_, ?_⟩
  · have h₁ : Threads (Function.update link n (link p)) (l ++ [p]) := by
      refine Threads.congr ( List.IsChain.prefix h.threads ⟨r ++ [null], by simp⟩) fun a ha ↦
        Function.update_of_ne ?_ _ _
      rintro rfl
      rw [List.dropLast_concat] at ha
      exact hn.1 ha
    have hc := h.suffix.cons hn.2.2 hnull
    have hj := h₁.join hc.threads hpl (by simpa using ⟨Ne.symm hn.2.1, hpr, Ne.symm hf.2.1⟩)
    simpa using hj
  · have hh := h.head_eq
    cases l <;> simpa using hh
  · simp only [List.mem_append, List.mem_cons, not_or]
    exact ⟨hf.1, hf.2.1, Ne.symm hnull, hf.2.2⟩

/-- Clearing the link of a node cuts the list off behind it. -/
theorem cut {l r : List α} {x : α} (h : Headed link null head (l ++ x :: r)) :
    Headed (Function.update link x null) null head (l ++ [x]) := by
  have hd := List.nodup_append.mp h.nodup
  refine ⟨?_, ?_, ?_⟩
  · have hl : Threads link (l ++ [x]) :=
      List.IsChain.prefix h.threads ⟨r ++ [null], by simp⟩
    have hx : x ∉ l := fun hm ↦ hd.2.2 x hm x (by simp) rfl
    have hn : x ≠ null := fun he ↦ h.fresh (by simp [he])
    have hj := hl.join (List.isChain_singleton null) hx (by simpa using hn)
    simpa using hj
  · have hh := h.head_eq
    cases l <;> simpa using hh
  · intro hm
    exact h.fresh (by simp only [List.mem_append, List.mem_singleton] at hm; grind)

/-- Unlinking a node through its predecessor keeps all others in order. -/
theorem remove {l r : List α} {p x : α} (h : Headed link null head (l ++ p :: x :: r)) :
    Headed (Function.update link p (link x)) null head (l ++ p :: r) := by
  have hd := h.nodup
  have hf := h.fresh
  have ht := h.threads
  have hr : link x :: (r ++ [null]).tail = r ++ [null] := by
    have hl : link x = r.headD null :=
      link_eq (l := l ++ [p]) (r := r) (by simpa using h)
    rw [hl]
    cases r <;> rfl
  refine ⟨?_, ?_, ?_⟩
  · have h₁ : Threads link (l ++ [p]) :=
      List.IsChain.prefix ht ⟨x :: (r ++ [null]), by simp⟩
    have h₂ : Threads link (r ++ [null]) := ht.suffix ⟨l ++ [p, x], by simp⟩
    rw [← hr] at h₂
    have hj := h₁.join h₂ (by grind) (by rw [hr]; grind)
    rw [hr] at hj
    simpa using hj
  · have hh := h.head_eq
    cases l <;> simpa using hh
  · grind

/-- The tail of a list whose last node may have been unlinked through its predecessor. -/
theorem endsAt_remove {tail p x : α} {l r : List α}
    (h : Headed link null head (l ++ p :: x :: r)) (ht : EndsAt tail (l ++ p :: x :: r)) :
    EndsAt (if tail = x then p else tail) (l ++ p :: r) := by
  have hd := (List.nodup_cons.mp (List.nodup_cons.mp (List.nodup_append.mp h.nodup).2.1).2).1
  rcases List.eq_nil_or_concat' r with rfl | ⟨r, y, rfl⟩
  · have htail : EndsAt tail ((l ++ [p]) ++ [x]) := by simpa using ht
    have htail : tail = x := endsAt_concat.mp htail
    rw [if_pos htail]
    exact endsAt_concat.mpr rfl
  · rw [← List.cons_append, ← List.cons_append, ← List.append_assoc, endsAt_concat] at ht
    have hne : tail ≠ x := by
      rintro rfl
      exact hd (by simp [ht])
    rw [if_neg hne, ← List.cons_append, ← List.append_assoc, endsAt_concat]
    exact ht

/-- Taking a node out of a list without repetitions. -/
theorem erase_eq {l r : List α} {x : α} (h : Headed link null head (l ++ x :: r)) :
    (l ++ x :: r).erase x = l ++ r := by
  have hx : x ∉ l := fun hm ↦ (List.nodup_append.mp h.nodup).2.2 x hm x (by simp) rfl
  rw [List.erase_append_right _ hx, List.erase_cons_head]

/-- A tail that is reset to the root with every last node stays right, unless the node was the
last one of several. -/
theorem endsAt_erase {tail root x : α} (h : Headed link null head xs) (he : EndsAt tail xs)
    (hx : x ∈ xs) (hr : root ∉ xs) :
    EndsAt (if link x = null then root else tail) (xs.erase x) ↔ ∀ l, xs = l ++ [x] → l = [] := by
  obtain ⟨l, r, rfl⟩ := List.append_of_mem hx
  have hlink := h.link_eq
  rw [h.erase_eq]
  rcases List.eq_nil_or_concat' r with rfl | ⟨r, y, rfl⟩
  · have hnull : link x = null := hlink
    rw [if_pos hnull, List.append_nil]
    constructor
    · intro hn m hm
      obtain ⟨rfl, -⟩ := List.append_inj' hm rfl
      rcases List.eq_nil_or_concat' l with rfl | ⟨l, z, rfl⟩
      · rfl
      · exact absurd (by simp [endsAt_concat.mp hn]) hr
    · intro hn
      rw [hn l rfl]
      exact endsAt_nil
  · have hne : link x ≠ null := by
      rw [hlink]
      have hf := h.fresh
      cases r <;> simp_all [eq_comm]
    rw [if_neg hne]
    constructor
    · intro _ m hm
      rw [← List.cons_append, ← List.append_assoc] at hm
      have hy := List.singleton_inj.mp (List.append_inj' hm rfl).2
      have hd := (List.nodup_cons.mp (List.nodup_append.mp h.nodup).2.1).1
      exact absurd (by simp [hy]) hd
    · intro _
      rw [← List.cons_append, ← List.append_assoc] at he
      rw [← List.append_assoc, endsAt_concat]
      exact endsAt_concat.mp he

end Headed

end Intrusive
