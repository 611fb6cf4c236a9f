import YRmx.Props.Plain

/-!
# The queues of the exchanges

Library `YRmx`. The two intrusive queues that share an exchange descriptor denote, in every
state of a plain run, two lists of which one is empty; the status bytes tell who waits; and
every call acts on the lists as first-in first-out queues with removal.
-/

namespace YRmx

open Transition

/-- The descriptors of the exchanges denote these queues. -/
structure Queues (s : Nucleus) (mq : ExchId → List MsgId) (tq : ExchId → List TaskId) :
    Prop where
  messages : ∀ e, MessageQueue s e (mq e)
  tasks : ∀ e, TaskQueue s e (tq e)
  messages_nodup : ∀ e, (mq e).Nodup
  tasks_nodup : ∀ e, (tq e).Nodup
  one_empty : ∀ e, mq e = [] ∨ tq e = []
  /-- a task waits at the exchange of its descriptor when its status byte says so -/
  mem_iff : ∀ t e, t ∈ tq e ↔ s.exchange t = .exch e ∧ s.status t &&& (waiting ||| delayed) ≠ 0
  waits : ∀ t, s.status t &&& (waiting ||| delayed) ≠ 0 → ∃ e, t ∈ tq e
  /-- the search loops end at the word that leads to the task -/
  found : ∀ t e, t ∈ tq e →
    ∃ p, Yields (fun n ↦ findLink s t n (.exch e)) p ∧ s.word2 p = .task t

variable {s₀ s s' : Nucleus} {b b' : Board} {o : Op} {t : TaskId}

/-- The search loop stops only where it has found its task. -/
theorem findLink_found {n : Nat} {x p : Addr} (h : findLink s t n x = .ok p) :
    s.word2 p = .task t := by
  induction n generalizing x with
  | zero => cases h
  | succ n ih =>
    obtain ⟨y, -, h⟩ := Exec.bind_eq_ok.mp h
    split at h
    case isTrue hlink =>
      cases h
      exact hlink
    case isFalse => exact ih h

/-- The lists of the abstract nucleus are the queues of the descriptors. -/
theorem Sim.queues (h : Sim s b) (hI : b.Inv) : Queues s b.mq b.tq where
  messages := h.messages
  tasks := h.tasks
  messages_nodup := hI.mq_nodup
  tasks_nodup := hI.tq_nodup
  one_empty := hI.one_empty
  mem_iff t e := by
    rw [h.exchange_eq, h.status_eq, ← (hI.task t).waits_iff]
    constructor
    · exact fun ht ↦ ⟨(hI.task t).exchange ht, e, ht⟩
    · rintro ⟨he, e', ht⟩
      rw [(hI.task t).exchange ht] at he
      cases he
      exact ht
  waits t ht := by
    rw [h.status_eq] at ht
    exact (hI.task t).waits_iff.mpr ht
  found t e ht := by
    obtain ⟨p, hp, -⟩ := h.findLink hI ht
    obtain ⟨n, hn⟩ := hp
    exact ⟨p, ⟨n, hn⟩, findLink_found (hn n le_rfl)⟩

/-- The tasks that are due are those with no ticks left, in the order of the list. -/
theorem Board.Inv.expired_eq (hI : b.Inv) :
    b.expired = (b.dl.filter (·.2 = 0)).map Prod.fst := by
  have hs := hI.dl_sorted
  unfold Board.expired
  generalize b.dl = l at hs
  induction l with
  | nil => rfl
  | cons p l ih =>
    obtain ⟨hp, hl⟩ := List.pairwise_cons.mp hs
    by_cases hz : p.2 = 0
    · rw [List.takeWhile_cons_of_pos (by simpa using hz),
        List.filter_cons_of_pos (by simpa using hz), List.map_cons, List.map_cons, ih hl]
    · rw [List.takeWhile_cons_of_neg (by simpa using hz),
        List.filter_cons_of_neg (by simpa using hz), List.map_nil]
      refine (List.map_eq_nil_iff.mpr (List.filter_eq_nil_iff.mpr fun q hq ↦ ?_)).symm
      have hle : p.2 ≤ q.2 := hp q hq
      simp only [decide_eq_true_eq]
      omega

/-- In every state of a plain run the descriptors denote queues, every call comes to its end
or waits, and acts on the queues as it should. -/
theorem queues_of_run {tr : List (Nucleus × Op)} (hb : Booted s₀) (hr : Run s₀ tr s)
    (hok : ∀ x ∈ tr, x.1.Proper x.2) :
    ∃ mq tq dl, Queues s mq tq ∧ DelayList s.word0 s.word1 s.delay dl ∧
      ∀ o, s.Proper o → ((∃ s', Step s o s') ∨ ∀ n, step n s o = .error .blocked) ∧
        ∀ s', Step s o s' → Queues s'
          (fun e ↦ messagesAfter (s.sends o) o e (mq e) (tq e))
          (fun e ↦ tasksAfter (s.sends o) o e (mq e) (tq e)
            ((dl.filter (·.2 = 0)).map Prod.fst)) := by
  obtain ⟨b, hS, hI, hU⟩ := hr.lists hb hok
  refine ⟨b.mq, b.tq, b.dl, hS.queues hI, hS.delays, fun o ho ↦ ⟨?_, fun s' hs ↦ ?_⟩⟩
  · exact hS.ends_or_blocked hI ((hS.calm_iff hI o).mpr (hU.calm o)) ho.2
  · obtain ⟨b', hb', hS', hI', -⟩ := hS.proper hI hU ho hs
    have hq := hS'.queues hI'
    have hmq : b'.mq = fun e ↦ messagesAfter (s.sends o) o e (b.mq e) (b.tq e) := by
      ext1 e
      rw [hS.sends_eq hI]
      exact (Board.step_lists hI hb' e).1
    have htq : b'.tq = fun e ↦ tasksAfter (s.sends o) o e (b.mq e) (b.tq e)
        ((b.dl.filter (·.2 = 0)).map Prod.fst) := by
      ext1 e
      rw [hS.sends_eq hI, ← hI.expired_eq]
      exact (Board.step_lists hI hb' e).2.1
    rwa [hmq, htq] at hq

/-- Two tasks wait, one of them with a limit, and the first one is handed a message. -/
theorem queues_of_run_handOff : ∃ tr s, Run boot tr s ∧
    tr.map Prod.snd = [.reqcmsg 5 0 24 0, .reqwait 3 7 5, .reqwait 4 7 0,
      .reqsend 5 7 (.user 0)] ∧
    ∃ mq tq, Queues s mq tq ∧ 3 ∉ tq 7 ∧ 4 ∈ tq 7 := by
  obtain ⟨tr, s, hr, hos, hok, hs⟩ := exists_run (c := fun _ o ↦ decide o.Plain) (n := 9)
    (s := boot) (l := [.reqcmsg 5 0 24 0, .reqwait 3 7 5, .reqwait 4 7 0,
      .reqsend 5 7 (.user 0)])
    (p := fun s ↦ s.status 3 &&& (waiting ||| delayed) = 0 ∧ s.exchange 4 = .exch 7 ∧
      s.status 4 &&& (waiting ||| delayed) ≠ 0) (by decide +kernel)
  have hf := hr.fresh (fun e ↦ (boot_booted.exchanges e).messageHead) (by rw [hos]; decide)
  obtain ⟨mq, tq, -, hq, -⟩ := queues_of_run boot_booted hr
    fun x hx ↦ ⟨of_decide_eq_true (hok x hx), hf x hx⟩
  obtain ⟨h3, h4⟩ := of_decide_eq_true hs
  exact ⟨tr, s, hr, hos, mq, tq, hq, fun hx ↦ ((hq.mem_iff 3 7).mp hx).2 h3,
    (hq.mem_iff 4 7).mpr h4⟩

end YRmx
