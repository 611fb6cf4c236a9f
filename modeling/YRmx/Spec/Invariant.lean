import YRmx.Spec.Board

/-!
# The invariant of the abstract nucleus

Library `YRmx`. Messages and tasks are queued at most once, the status byte and the
semaphore of a task agree with the lists, and a thread is in `sem_wait` for a reason.
-/

namespace YRmx.Board

/-- What holds between the fields of one task and the lists. -/
structure TaskInv (b : Board) (t : TaskId) : Prop where
  /-- a waiting task is found at the exchange that its descriptor names -/
  exchange : ∀ {e}, t ∈ b.tq e → b.exchange t = .exch e
  waits : b.Timed t → b.Waits t
  status_timed : b.Timed t → b.status t = delayed ∨ b.status t = delayed ||| suspended
  status_untimed : b.Waits t → ¬ b.Timed t →
    b.status t = waiting ∨ b.status t = waiting ||| suspended
  status_idle : ¬ b.Waits t → b.status t &&& (waiting ||| delayed) = 0
  pc_waits : ∀ {e}, t ∈ b.tq e →
    (∃ d, b.pc t = .semWait e d ∧ (b.Timed t ↔ d ≠ 0)) ∨ b.pc t = .dead
  sema_waits : b.Waits t → b.sema t = 0
  sema_le : b.sema t ≤ 1
  /-- a posted semaphore finds its thread in `sem_wait`, or cancelled -/
  sema_pc : b.sema t ≠ 0 →
    (∃ e d, b.pc t = .semWait e d) ∨ b.pc t = .suspWait ∨ b.pc t = .dead
  /-- `needpost` marks a task that suspended itself and was not resumed -/
  needpost_pc : b.status t &&& needpost ≠ 0 →
    (b.pc t = .suspWait ∨ b.pc t = .dead) ∧ b.sema t = 0
  not_held : ∀ {c}, b.pc t ≠ .held c

/-- What every step keeps. -/
structure Inv (b : Board) : Prop where
  mq_nodup : ∀ e, (b.mq e).Nodup
  mq_disjoint : ∀ {e e' m}, m ∈ b.mq e → m ∈ b.mq e' → e = e'
  own_queued : ∀ {e m}, m ∈ b.mq e → b.own m = .null
  tq_nodup : ∀ e, (b.tq e).Nodup
  one_empty : ∀ e, b.mq e = [] ∨ b.tq e = []
  dl_nodup : (b.dl.map Prod.fst).Nodup
  dl_sorted : b.dl.Pairwise due
  dl_bound : ∀ p ∈ b.dl, p.2 ≤ 0xFFFF
  task : ∀ t, b.TaskInv t

variable {b : Board} {t : TaskId}

/-- No task waits at two exchanges. -/
theorem TaskInv.tq_disjoint (h : b.TaskInv t) {e e' : ExchId} (he : t ∈ b.tq e)
    (he' : t ∈ b.tq e') : e = e' := by
  have hx := h.exchange he
  rw [h.exchange he'] at hx
  exact (Addr.exch.inj hx).symm

/-- A task that waits has its thread in the `sem_wait` of `reqwait`, or dead. -/
theorem TaskInv.pc_of_waits (h : b.TaskInv t) (hw : b.Waits t) :
    (∃ e d, b.pc t = .semWait e d) ∨ b.pc t = .dead := by
  obtain ⟨e, he⟩ := hw
  exact (h.pc_waits he).imp_left fun ⟨d, hd, _⟩ ↦ ⟨e, d, hd⟩

/-- The thread is neither in a `sem_wait` nor dead. -/
def Active (p : Pc) : Prop := (∀ e d, p ≠ .semWait e d) ∧ p ≠ .suspWait ∧ p ≠ .dead

/-- The task does not wait, and nothing was posted for it. -/
def Free (b : Board) (t : TaskId) : Prop :=
  ¬ b.Waits t ∧ ¬ b.Timed t ∧ b.sema t = 0 ∧ b.status t &&& needpost = 0

/-- The task of an active thread is free. -/
theorem TaskInv.active (h : b.TaskInv t) (ha : Active (b.pc t)) : b.Free t := by
  have hw : ¬ b.Waits t := fun hw ↦ (h.pc_of_waits hw).elim
    (fun ⟨e, d, hp⟩ ↦ ha.1 e d hp) ha.2.2
  refine ⟨hw, fun ht ↦ hw (h.waits ht), ?_, ?_⟩
  · by_contra hs
    exact (h.sema_pc hs).elim (fun ⟨e, d, hp⟩ ↦ ha.1 e d hp) fun hp ↦ hp.elim ha.2.1 ha.2.2
  · by_contra hn
    exact (h.needpost_pc hn).1.elim ha.2.1 ha.2.2

/-- What is left to say about a task that does not wait. -/
theorem TaskInv.idle (hw : ¬ b.Waits t) (ht : ¬ b.Timed t)
    (hst : b.status t &&& (waiting ||| delayed) = 0) (hle : b.sema t ≤ 1)
    (hpc : b.sema t ≠ 0 →
      (∃ e d, b.pc t = .semWait e d) ∨ b.pc t = .suspWait ∨ b.pc t = .dead)
    (hnp : b.status t &&& needpost ≠ 0 →
      (b.pc t = .suspWait ∨ b.pc t = .dead) ∧ b.sema t = 0)
    (hh : ∀ c, b.pc t ≠ .held c) : b.TaskInv t where
  exchange he := absurd ⟨_, he⟩ hw
  waits h := absurd h ht
  status_timed h := absurd h ht
  status_untimed h := absurd h hw
  status_idle _ := hst
  pc_waits he := absurd ⟨_, he⟩ hw
  sema_waits h := absurd h hw
  sema_le := hle
  sema_pc := hpc
  needpost_pc := hnp
  not_held := hh _

/-- The invariant of a task only looks at its own fields and places. -/
theorem TaskInv.congr {b' : Board} (h : b.TaskInv t) (hq : ∀ e, t ∈ b'.tq e ↔ t ∈ b.tq e)
    (hd : b'.Timed t ↔ b.Timed t) (he : b'.exchange t = b.exchange t)
    (hst : b'.status t = b.status t) (hp : b'.pc t = b.pc t) (hs : b'.sema t = b.sema t) :
    b'.TaskInv t := by
  have hw : b'.Waits t ↔ b.Waits t := exists_congr hq
  constructor
  case exchange => exact fun hm ↦ he.trans (h.exchange ((hq _).mp hm))
  case waits => exact fun hm ↦ hw.mpr (h.waits (hd.mp hm))
  case status_timed => exact fun hm ↦ hst ▸ h.status_timed (hd.mp hm)
  case status_untimed =>
    exact fun hm hn ↦ hst ▸ h.status_untimed (hw.mp hm) (fun ht ↦ hn (hd.mpr ht))
  case status_idle => exact fun hm ↦ hst ▸ h.status_idle (fun hx ↦ hm (hw.mpr hx))
  case pc_waits =>
    intro e hm
    rw [hp, hd]
    exact h.pc_waits ((hq e).mp hm)
  case sema_waits => exact fun hm ↦ hs ▸ h.sema_waits (hw.mp hm)
  case sema_le => exact hs ▸ h.sema_le
  case sema_pc => rw [hs, hp]; exact h.sema_pc
  case needpost_pc => rw [hst, hp, hs]; exact h.needpost_pc
  case not_held => rw [hp]; exact h.not_held

/-- A message that was given away is not queued any more, and all others stay. -/
theorem queued_popMessage {b : Board} (hI : b.Inv) {e : ExchId} {t : TaskId} {m m' : MsgId}
    {ms : List MsgId} (h : b.mq e = m :: ms) :
    (b.popMessage e t).Queued m' ↔ m' ≠ m ∧ b.Queued m' := by
  have hd := hI.mq_nodup e
  rw [h, List.nodup_cons] at hd
  rw [popMessage_cons h]
  constructor
  · rintro ⟨e', he⟩
    by_cases hx : e' = e
    · subst hx
      simp only [Function.update_self] at he
      exact ⟨fun hm ↦ hd.1 (hm ▸ he), e', by simp [h, he]⟩
    · simp only [Function.update_of_ne hx] at he
      refine ⟨?_, e', he⟩
      rintro rfl
      exact hx (hI.mq_disjoint he (by simp [h]))
  · rintro ⟨hm, e', he⟩
    by_cases hx : e' = e
    · subst hx
      rw [h] at he
      exact ⟨e', by simpa using (List.mem_cons.mp he).resolve_left hm⟩
    · exact ⟨e', by simpa [hx] using he⟩

end YRmx.Board
