import Mathlib.Data.List.Chain
import Mathlib.Data.List.Nodup
import Mathlib.Logic.Function.Basic

/-!
# Link fields read as lists

Library `Intrusive`. A link field is a total function on addresses, and a list of
addresses is threaded by it when every element is followed by the next one. Singly
linked lists use one such function, doubly linked lists use a second one backwards.
Both are edited by re-joining two pieces at one address.
-/

namespace Intrusive

variable {α : Type}

/-- Following `link` from any element of the list gives the next element. -/
def Threads (link : α → α) (xs : List α) : Prop := xs.IsChain (fun a b ↦ link a = b)

/-- `next` leads forwards and `prev` backwards along the list. -/
def Linked (next prev : α → α) (xs : List α) : Prop :=
  xs.IsChain (fun a b ↦ next a = b ∧ prev b = a)

/-- A two-element thread is one link field. -/
theorem threads_pair {link : α → α} {a b : α} : Threads link [a, b] ↔ link a = b := by
  simp [Threads]

/-- A thread starts with the link field of its first element. -/
theorem threads_cons_cons {link : α → α} {a b : α} {xs : List α} :
    Threads link (a :: b :: xs) ↔ link a = b ∧ Threads link (b :: xs) :=
  List.isChain_cons_cons

/-- The element in front of `b` is linked to it. -/
theorem Threads.before {link : α → α} {l r : List α} {a b : α}
    (h : Threads link (a :: (l ++ b :: r))) :
    link (l.getLastD a) = b := by
  induction l generalizing a with
  | nil => exact (threads_cons_cons.mp h).1
  | cons x l ih =>
    rw [List.getLastD_cons]
    exact ih (threads_cons_cons.mp h).2

/-- Threading only depends on the link fields of the elements before the last. -/
theorem Threads.congr {link link' : α → α} {xs : List α} (h : Threads link xs)
    (he : ∀ a ∈ xs.dropLast, link' a = link a) : Threads link' xs := by
  apply List.isChain_iff_forall_rel_of_append_cons_cons.mpr
  intro a b l₁ l₂ hx
  subst hx
  rw [he a (by simp)]
  exact (List.isChain_append_cons_cons.mp h).2.1

/-- Double linking depends on `next` before the last and on `prev` after the first element. -/
theorem Linked.congr {next next' prev prev' : α → α} {xs : List α} (h : Linked next prev xs)
    (hn : ∀ a ∈ xs.dropLast, next' a = next a) (hp : ∀ a ∈ xs.tail, prev' a = prev a) :
    Linked next' prev' xs := by
  apply List.isChain_iff_forall_rel_of_append_cons_cons.mpr
  intro a b l₁ l₂ hx
  subst hx
  rw [hn a (by simp), hp b (by cases l₁ <;> simp)]
  exact (List.isChain_append_cons_cons.mp h).2.1

/-- Two threads that leave one address and end at the same stop are the same list. -/
theorem Threads.unique {link : α → α} {stop x : α} {xs ys : List α}
    (hx : Threads link (x :: (xs ++ [stop]))) (hy : Threads link (x :: (ys ++ [stop])))
    (sx : stop ∉ xs) (sy : stop ∉ ys) : xs = ys := by
  induction xs generalizing x ys with
  | nil =>
    cases ys with
    | nil => rfl
    | cons y ys =>
      have h1 : link x = stop := threads_pair.mp hx
      have h2 : link x = y := (threads_cons_cons.mp hy).1
      exact absurd (by simp [← h1, h2]) sy
  | cons a xs ih =>
    have hxa := threads_cons_cons.mp hx
    cases ys with
    | nil =>
      have h2 : link x = stop := threads_pair.mp hy
      exact absurd (by simp [← h2, hxa.1]) sx
    | cons y ys =>
      have hya := threads_cons_cons.mp hy
      have he : a = y := hxa.1.symm.trans hya.1
      subst he
      rw [ih hxa.2 hya.2 (fun h ↦ sx (List.mem_cons_of_mem _ h))
        (fun h ↦ sy (List.mem_cons_of_mem _ h))]

/-- A thread that reaches its stop cannot meet an address twice. -/
theorem Threads.nodup {link : α → α} {stop : α} {xs : List α}
    (h : Threads link (xs ++ [stop])) (hs : stop ∉ xs) : xs.Nodup := by
  induction xs with
  | nil => exact List.nodup_nil
  | cons x xs ih =>
    have hs' : stop ∉ xs := fun hm ↦ hs (List.mem_cons_of_mem _ hm)
    refine List.nodup_cons.mpr ⟨fun hx ↦ ?_, ih h.tail hs'⟩
    -- a second visit to `x` would leave a strictly shorter walk to the same stop
    obtain ⟨pre, post, rfl⟩ := List.append_of_mem hx
    have hp : Threads link (x :: (post ++ [stop])) := by
      apply List.IsChain.suffix h
      exact ⟨x :: pre, by simp⟩
    have he := Threads.unique h hp hs' (fun hm ↦ hs' (by simp [hm]))
    have hl := congrArg List.length he
    simp only [List.length_append, List.length_cons] at hl
    omega

variable [DecidableEq α]

/-- Pointing `p` at `q` joins a thread that ends in `p` to one that starts in `q`. -/
theorem Threads.join {link : α → α} {pre rest : List α} {p q : α}
    (h₁ : Threads link (pre ++ [p])) (h₂ : Threads link (q :: rest))
    (hp : p ∉ pre) (hq : p ∉ q :: rest) :
    Threads (Function.update link p q) (pre ++ p :: q :: rest) := by
  refine List.isChain_append_cons_cons.mpr ⟨?_, Function.update_self .., ?_⟩
  · refine Threads.congr h₁ fun a ha ↦ Function.update_of_ne ?_ _ _
    rw [List.dropLast_concat] at ha
    exact fun he ↦ hp (he ▸ ha)
  · refine Threads.congr h₂ fun a ha ↦ Function.update_of_ne ?_ _ _
    exact fun he ↦ hq (he ▸ List.dropLast_subset _ ha)

/-- Pointing `p` forwards at `q` and `q` backwards at `p` joins two linked pieces. -/
theorem Linked.join {next prev : α → α} {pre rest : List α} {p q : α}
    (h₁ : Linked next prev (pre ++ [p])) (h₂ : Linked next prev (q :: rest))
    (hn : (pre ++ p :: q :: rest).Nodup) :
    Linked (Function.update next p q) (Function.update prev q p) (pre ++ p :: q :: rest) := by
  obtain ⟨-, hr, hpre⟩ := List.nodup_append.mp hn
  obtain ⟨hp, hr⟩ := List.nodup_cons.mp hr
  obtain ⟨hq, -⟩ := List.nodup_cons.mp hr
  refine List.isChain_append_cons_cons.mpr
    ⟨?_, ⟨Function.update_self .., Function.update_self ..⟩, ?_⟩
  · refine Linked.congr h₁ (fun a ha ↦ Function.update_of_ne ?_ _ _)
      (fun a ha ↦ Function.update_of_ne ?_ _ _)
    · rw [List.dropLast_concat] at ha
      exact hpre a ha p (by simp)
    · rcases List.mem_append.mp (List.mem_of_mem_tail ha) with hm | hm
      · exact hpre a hm q (by simp)
      · exact fun he ↦ hp (by rw [← List.mem_singleton.mp hm, he]; simp)
  · refine Linked.congr h₂ (fun a ha ↦ Function.update_of_ne ?_ _ _)
      (fun a ha ↦ Function.update_of_ne ?_ _ _)
    · exact fun he ↦ hp (he ▸ List.dropLast_subset _ ha)
    · exact fun he ↦ hq (he ▸ ha)

/-- Writing a fresh node between two neighbours, in the order in which the code does it. -/
theorem Linked.insert {next prev : α → α} {pre rest : List α} {p q n : α}
    (h : Linked next prev (pre ++ p :: q :: rest)) (hd : (pre ++ p :: n :: q :: rest).Nodup) :
    Linked (Function.update (Function.update next n q) p n)
      (Function.update (Function.update prev n p) q n) (pre ++ p :: n :: q :: rest) := by
  obtain ⟨h₁, -, h₂⟩ := List.isChain_append_cons_cons.mp h
  have hq : (n :: q :: rest).Nodup :=
    (List.nodup_append.mp hd).2.1.sublist (List.sublist_cons_self ..)
  have hn := (List.nodup_cons.mp hq).1
  have hr : Linked (Function.update next n q) (Function.update prev q n) (n :: q :: rest) := by
    have h₀ : Linked next prev ([] ++ [n]) := List.isChain_singleton n
    exact h₀.join h₂ hq
  have hl : Linked (Function.update next n q) (Function.update prev q n) (pre ++ [p]) := by
    refine Linked.congr h₁ (fun a ha ↦ Function.update_of_ne ?_ _ _)
      (fun a ha ↦ Function.update_of_ne ?_ _ _)
    · rw [List.dropLast_concat] at ha
      exact (List.nodup_append.mp hd).2.2 a ha n (by simp)
    · rcases List.mem_append.mp (List.mem_of_mem_tail ha) with hm | hm
      · exact (List.nodup_append.mp hd).2.2 a hm q (by simp)
      · rw [List.mem_singleton.mp hm]
        exact fun he ↦ (List.nodup_cons.mp (List.nodup_append.mp hd).2.1).1 (by simp [he])
  rw [Function.update_comm (fun he : n = q ↦ hn (by simp [he]))]
  exact Linked.join hl hr hd

/-- Re-joining the two neighbours of a node removes it, whatever its own fields keep. -/
theorem Linked.remove {next prev : α → α} {pre rest : List α} {p x q : α}
    (h : Linked next prev (pre ++ p :: x :: q :: rest)) (hd : (pre ++ p :: x :: q :: rest).Nodup) :
    Linked (Function.update next (prev x) (next x)) (Function.update prev (next x) (prev x))
      (pre ++ p :: q :: rest) := by
  obtain ⟨h₁, hpx, hx⟩ := List.isChain_append_cons_cons.mp h
  obtain ⟨hxq, h₂⟩ := List.isChain_cons_cons.mp hx
  rw [hpx.2, hxq.1]
  refine Linked.join h₁ h₂ (hd.sublist ?_)
  exact List.Sublist.append_left (List.Sublist.cons_cons p (List.sublist_cons_self ..)) pre

end Intrusive
