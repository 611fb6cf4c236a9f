import YRmx.Props.Messages
import YRmx.Props.Unlinks

/-!
# Waiting tasks are served in turn

Library `YRmx`. At an exchange nobody comes before a task that waits but those that were there
first, and each message that is accepted meanwhile serves one of these.
-/

namespace YRmx

open Transition

variable {s₀ s s' m : Nucleus} {b b' : Board} {o : Op} {t : TaskId} {e : ExchId}
variable {l r : List TaskId} {tr tr₁ tr₂ : List (Nucleus × Op)}

namespace Board

/-- A step that does not end the wait of a task lets nobody in before it, hands messages only to
those before it, and each message that it accepts takes one of them away. -/
theorem step_ahead (hI : b.Inv) (h : b.step o = .ok b') (hq : b.tq e = l ++ t :: r)
    (hu : ∀ μ, ¬ b.Unlinks o t μ) (hd : ∀ u, o ≠ .reqdtsk u t) :
    ∃ l' r', b'.tq e = l' ++ t :: r' ∧ l'.Sublist l ∧
      l'.length + (b.acceptedAt e o).length ≤ l.length ∧ ∀ x ∈ b.handedAt e o, x.2 ∈ l := by
  have hmq : b.mq e = [] := (hI.one_empty e).resolve_right (by simp [hq])
  have htq := (step_lists hI h e).2.1
  unfold acceptedAt handedAt
  cases hs : b.sends o with
  | some x =>
    obtain ⟨e', μ⟩ := x
    rw [hs] at htq
    simp only [tasksAfter] at htq
    by_cases he : e' = e
    · subst he
      rw [if_pos rfl, hq] at htq
      cases l with
      | nil => exact absurd (.inl ⟨e', hs, by rw [hq]; rfl⟩) (hu μ)
      | cons w l =>
        refine ⟨l, r, htq, List.sublist_cons_self w l, ?_, fun x hx ↦ ?_⟩
        · simp
        · simp only [if_true, hq, List.cons_append, List.head?_cons, Option.toList_some,
            List.map_cons, List.map_nil, List.mem_singleton] at hx
          simp [hx]
    · rw [if_neg he, hq] at htq
      exact ⟨l, r, htq, List.Sublist.refl l, by simp [he], by simp [he]⟩
  | none =>
    rw [hs] at htq
    cases o with
    | reqwait w e' d =>
      simp only [tasksAfter] at htq
      refine ⟨l, if e' = e ∧ b.mq e = [] then r ++ [w] else r, ?_, List.Sublist.refl l, le_rfl,
        by simp [hmq]⟩
      rw [htq, hq]
      split <;> simp
    | reqacpt w e' => exact ⟨l, r, htq.trans hq, List.Sublist.refl l, le_rfl, by simp [hmq]⟩
    | expiry =>
      have ht : t ∉ b.expired :=
        fun hx ↦ hu .timeOut (.inr ⟨rfl, rfl, hI.mem_expired.mp hx⟩)
      refine ⟨l.filter (· ∉ b.expired), r.filter (· ∉ b.expired), ?_, List.filter_sublist,
        List.length_filter_le _ _, by simp⟩
      rw [htq, tasksAfter, hq, List.filter_append, List.filter_cons_of_pos (by simpa using ht)]
    | reqdtsk w w' =>
      have hne : (t == w') = false := beq_eq_false_iff_ne.mpr fun hx ↦ hd w (by rw [hx])
      rw [tasksAfter, hq, List.erase_append] at htq
      by_cases hl : w' ∈ l
      · rw [if_pos hl] at htq
        exact ⟨l.erase w', r, htq, List.erase_sublist, (List.erase_sublist).length_le, by simp⟩
      · rw [if_neg hl, List.erase_cons, hne] at htq
        exact ⟨l, r.erase w', htq, List.Sublist.refl l, le_rfl, by simp⟩
    | _ => exact ⟨l, r, htq.trans hq, List.Sublist.refl l, le_rfl, by simp⟩

end Board

/-- From a point of a run on, these were before the task, and so many messages came. -/
structure Served (e : ExchId) (t : TaskId) (l : List TaskId) (tr : List (Nucleus × Op))
    (b : Board) : Prop where
  ahead : ∃ l' r', b.tq e = l' ++ t :: r' ∧ l'.Sublist l ∧
    l'.length + (accepted tr e).length ≤ l.length
  handed : ∀ x ∈ handed tr e, x.2 ∈ l

/-- Every step that does not end the wait keeps this. -/
theorem Served.step (h : Served e t l tr b) (hS : Sim s b) (hI : b.Inv)
    (hb : b.step o = .ok b') (hu : ∀ μ, ¬ s.Unlinks o t μ) (hd : ∀ u, o ≠ .reqdtsk u t) :
    Served e t l (tr ++ [(s, o)]) b' := by
  obtain ⟨⟨l₁, r₁, hq, hsub, hlen⟩, hh⟩ := h
  obtain ⟨l₂, r₂, hq', hsub', hlen', hh'⟩ := Board.step_ahead hI hb hq
    (fun μ hμ ↦ hu μ ((hS.unlinks_iff hI o t μ).mpr hμ)) hd
  refine ⟨⟨l₂, r₂, hq', hsub'.trans hsub, ?_⟩, fun x hx ↦ ?_⟩
  · have ha : accepted (tr ++ [(s, o)]) e = accepted tr e ++ b.acceptedAt e o := by
      simp [accepted, hS.acceptedAt_eq hI]
    rw [ha, List.length_append]
    omega
  · have ha : YRmx.handed (tr ++ [(s, o)]) e = YRmx.handed tr e ++ b.handedAt e o := by
      simp [YRmx.handed, hS.handedAt_eq hI]
    rw [ha] at hx
    rcases List.mem_append.mp hx with hx | hx
    · exact hh x hx
    · exact hsub.subset (hh' x hx)

/-- In any run in which no task suspends another one and no queued message is created: while a task
waits, the exchange hands messages only to tasks that came before it, each message that it accepts
serves one of them, and none of the others gets in between; so the message that is accepted when
none of them is left is handed to the task, at the latest the one that follows as many messages as
there were tasks before it. -/
theorem service_of_run (hb : Booted s₀) (hr₁ : Run s₀ tr₁ m) (hr₂ : Run m tr₂ s)
    (hok : ∀ x ∈ tr₁ ++ tr₂, x.1.Proper x.2) (hq : TaskQueue m e (l ++ t :: r))
    (hx : ∀ x ∈ tr₂, (∀ μ, ¬ x.1.Unlinks x.2 t μ) ∧ ∀ u, x.2 ≠ .reqdtsk u t) :
    (∀ x ∈ handed tr₂ e, x.2 ∈ l) ∧
    ∃ l' r', TaskQueue s e (l' ++ t :: r') ∧ l'.Sublist l ∧
      l'.length + (accepted tr₂ e).length ≤ l.length ∧
      ∀ o s' μ, s.Proper o → Step s o s' → s.acceptedAt e o = [μ] →
        ∃ u, (l' ++ [t]).head? = some u ∧ s.handedAt e o = [(μ, u)] ∧
          s'.message u = .msg μ := by
  -- the wait is followed from its point of the run on
  have hserved : ∃ b, Sim s b ∧ b.Inv ∧ b.Undisturbed ∧ Served e t l tr₂ b := by
    have hsplit := hok
    clear hok
    induction hr₂ with
    | nil =>
      obtain ⟨b, hS, hI, hU⟩ := hr₁.lists hb fun x hx ↦ hsplit x (by simp [hx])
      refine ⟨b, hS, hI, hU, ⟨l, r, ?_, List.Sublist.refl l, le_rfl⟩, by simp [handed]⟩
      exact (hS.tasks e).unique hq
    | @snoc tr n o s _ hs ih =>
      obtain ⟨b, hS, hI, hU, hV⟩ := ih (fun x hx' ↦ hx x (by simp [hx']))
        fun x hx' ↦ hsplit x (by
          rcases List.mem_append.mp hx' with h | h <;> simp [h])
      obtain ⟨b', hb', hS', hI', hU'⟩ := hS.proper hI hU (hsplit (n, o) (by simp)) hs
      obtain ⟨hu, hd⟩ := hx (n, o) (by simp)
      exact ⟨b', hS', hI', hU', hV.step hS hI hb' hu hd⟩
  obtain ⟨b, hS, hI, hU, ⟨l', r', hq', hsub, hlen⟩, hh⟩ := hserved
  refine ⟨hh, l', r', hq' ▸ hS.tasks e, hsub, hlen, fun o s' μ ho hs hacc ↦ ?_⟩
  obtain ⟨b', hb', hS', -⟩ := hS.proper hI hU ho hs
  obtain ⟨u, hu⟩ : ∃ u, (l' ++ [t]).head? = some u := by
    cases l' <;> exact ⟨_, rfl⟩
  have hhead : (b.tq e).head? = some u := by
    rw [hq', ← hu]
    cases l' <;> rfl
  have hsend : b.sends o = some (e, μ) := by
    rw [hS.acceptedAt_eq hI, Board.acceptedAt] at hacc
    split at hacc
    · rename_i e' μ' hs'
      split at hacc
      · rename_i he
        rw [hs', he, List.singleton_inj.mp hacc]
      · cases hacc
    · cases hacc
  have hhanded : b.handedAt e o = [(μ, u)] := by
    simp [Board.handedAt, hsend, hhead]
  refine ⟨u, hu, (hS.handedAt_eq hI e o).trans hhanded, ?_⟩
  rw [hS'.message_eq]
  exact (Board.step_handed hb' (by rw [hhanded]; exact List.mem_singleton_self _)).1

/-- A message comes to an exchange at which two tasks wait, and the second one goes on to wait. -/
theorem service_of_run_second : ∃ tr₁ m s, Run boot tr₁ m ∧
    Run m [(m, .reqsend 5 7 (.user 0))] s ∧
    tr₁.map Prod.snd = [.reqcmsg 5 0 24 0, .reqwait 3 7 0, .reqwait 4 7 0] ∧
    TaskQueue m 7 [3, 4] ∧
    ∃ l r, TaskQueue s 7 (l ++ 4 :: r) ∧
      l.length + (accepted [(m, .reqsend 5 7 (.user 0))] 7).length ≤ 1 := by
  obtain ⟨tr, m, hr₁, hos, hok, hm⟩ := exists_run (n := 9) (c := fun _ o ↦ o.Plain)
    (s := boot) (l := [.reqcmsg 5 0 24 0, .reqwait 3 7 0, .reqwait 4 7 0])
    (p := fun m ↦ m.word2 (.exch 7) = .task 3 ∧ m.word2 (.task 3) = .task 4 ∧
      m.word2 (.task 4) = .null ∧ m.taskTail 7 = .task 4 ∧
      m.handsTo (.reqsend 5 7 (.user 0)) = some 3 ∧
      (step 9 m (.reqsend 5 7 (.user 0))).toOption.isSome) (by decide +kernel)
  obtain ⟨h7, h3, h4, ht, hto, hs⟩ := of_decide_eq_true hm
  obtain ⟨s, hs⟩ := Option.isSome_iff_exists.mp hs
  have hs : Step m (.reqsend 5 7 (.user 0)) s := by
    cases hx : step 9 m (.reqsend 5 7 (.user 0)) with
    | error r =>
      rw [hx] at hs
      cases hs
    | ok s' =>
      rw [hx] at hs
      obtain rfl := Option.some.inj hs
      exact ⟨9, hx⟩
  have hr₂ : Run m [(m, .reqsend 5 7 (.user 0))] s := Trace.snoc .nil hs
  have hq : TaskQueue m 7 ([3] ++ 4 :: []) := by
    refine ⟨?_, ht, by simp⟩
    exact Intrusive.threads_cons_cons.mpr ⟨h7, Intrusive.threads_cons_cons.mpr
      ⟨h3, Intrusive.threads_pair.mpr h4⟩⟩
  have hf := (show Run boot _ s from hr₁.append hr₂).fresh
    (fun e ↦ (boot_booted.exchanges e).messageHead)
    (by rw [List.map_append, hos]; rfl)
  obtain ⟨-, l, r, hq', -, hlen, -⟩ := service_of_run boot_booted hr₁ hr₂ (fun x hx ↦ ⟨by
      rcases List.mem_append.mp hx with h | h
      · exact of_decide_eq_true (hok x h)
      · rw [List.mem_singleton.mp h]
        trivial, hf x hx⟩) hq fun x hx ↦ by
    rw [List.mem_singleton.mp hx]
    refine ⟨fun μ hμ ↦ ?_, fun u h ↦ by cases h⟩
    have hx := (hμ.handsTo (by simp)).symm.trans hto
    cases hx
  exact ⟨tr, m, s, hr₁, hr₂, hos, hq, l, r, hq', hlen⟩

end YRmx
