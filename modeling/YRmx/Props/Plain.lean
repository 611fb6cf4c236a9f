import YRmx.Refine.Runs
import YRmx.Spec.Effects

/-!
# Runs in which no task suspends another one

Library `YRmx`. A task that waits is then never marked as suspended, every hand-off tells
timed tasks from untimed ones by their status bytes, and the whole run is a run on lists.
-/

namespace YRmx

/-- A task suspends nobody but itself. -/
def Op.Plain : Op → Prop
  | .reqsusp t u => t = u
  | _ => True

instance : DecidablePred Op.Plain
  | .reqsusp t u => inferInstanceAs (Decidable (t = u))
  | .reqcmsg .. | .setType .. | .reqsend .. | .reqisnd .. | .reqwait .. | .wake ..
  | .reqacpt .. | .exitRegion .. | .heldWake .. | .thaw .. | .tick | .expiry | .suspWake ..
  | .reqresm .. | .reqdtsk .. | .cancelled .. | .reqfreeze .. | .reqbake .. => .isTrue trivial

/-- A step that suspends no other task and creates no message that is queued. -/
def Nucleus.Proper (s : Nucleus) (o : Op) : Prop := o.Plain ∧ s.Fresh o

namespace Board

variable {b b' : Board} {o : Op}

/-- No waiting task is marked as suspended. -/
def Undisturbed (b : Board) : Prop := ∀ u, b.Waits u → b.status u &&& suspended = 0

/-- A step of a plain run marks no waiting task as suspended. -/
theorem Undisturbed.step (hU : b.Undisturbed) (hI : b.Inv) (ho : o.Plain)
    (h : b.step o = .ok b') : b'.Undisturbed := by
  intro u hw
  have hkeep : Stays b b' u → b'.status u = b.status u → b'.status u &&& suspended = 0 := by
    intro hs he
    obtain ⟨e, he'⟩ := hw
    rw [he]
    exact hU u ⟨e, (hs.tq e).mp he'⟩
  have hidle : Stays b b' u → b.pc u = .user → False := by
    intro hs hp
    obtain ⟨e, he⟩ := hw
    exact (hI.free_of_user hp).1 ⟨e, (hs.tq e).mp he⟩
  cases step_task hI h u with
  | kept hs hv => exact hkeep hs (congrArg TaskState.status hv)
  | handed _ _ _ _ hn => exact absurd hw hn
  | expired _ _ _ hn => exact absurd hw hn
  | blocked e d _ _ _ _ _ hv =>
    rw [show b'.status u = if d ≠ 0 then delayed else waiting from congrArg TaskState.status hv]
    split <;> decide
  | fetched _ _ _ _ _ _ hs hv => exact hkeep hs (congrArg TaskState.status hv)
  | woken _ _ _ _ _ _ _ _ hv =>
    rw [show b'.status u = 0 from congrArg TaskState.status hv]
    decide
  | accepted _ _ _ hs hv => exact hkeep hs (congrArg TaskState.status hv)
  | moved _ hs _ _ hv => exact hkeep hs (congrArg TaskState.status hv)
  | returned _ _ _ _ hv =>
    rw [show b'.status u = running from congrArg TaskState.status hv]
    decide
  | slept _ hp hs => exact (hidle hs hp).elim
  | roused _ hp hm hs =>
    obtain ⟨e, he⟩ := hw
    have h0 := (hI.task u).sema_waits ⟨e, (hs.tq e).mp he⟩
    omega
  | suspended t hx _ hu =>
    subst hx
    exact absurd ho.symm hu
  | resumed _ _ _ hn hs =>
    obtain ⟨e, he⟩ := hw
    exact absurd (hU u ⟨e, (hs.tq e).mp he⟩) hn.1
  | released _ _ _ hn hs =>
    obtain ⟨e, he⟩ := hw
    exact absurd (hU u ⟨e, (hs.tq e).mp he⟩) hn.1
  | deleted _ _ _ hn => exact absurd hw hn
  | ended _ _ _ hs hv => exact hkeep hs (congrArg TaskState.status hv)

/-- Every hand-off of a plain run meets an undisturbed task. -/
theorem Undisturbed.calm (hU : b.Undisturbed) (o : Op) : b.Calm o := by
  intro u hu hs
  have hw : b.Waits u := by
    unfold handsTo at hu
    split at hu
    case h_1 e m _ => exact ⟨e, List.mem_of_mem_head? hu⟩
    case h_2 => cases hu
  exact hs.2 (hU u hw)

end Board

/-- A booted system disturbs nobody. -/
theorem Booted.undisturbed {s : Nucleus} (_ : Booted s) : s.board.Undisturbed :=
  fun _ ⟨_, he⟩ ↦ absurd he List.not_mem_nil

variable {s₀ s s' : Nucleus} {b : Board} {o : Op} {tr : List (Nucleus × Op)}

/-- A step of a plain run is a step on the lists. -/
theorem Sim.proper (h : Sim s b) (hI : b.Inv) (hU : b.Undisturbed) (ho : s.Proper o)
    (hs : Step s o s') :
    ∃ b', b.step o = .ok b' ∧ Sim s' b' ∧ b'.Inv ∧ b'.Undisturbed := by
  obtain ⟨b', hb', hS', hI'⟩ := h.forward hI ((h.calm_iff hI o).mpr (hU.calm o)) ho.2 hs
  exact ⟨b', hb', hS', hI', hU.step hI ho.1 hb'⟩

/-- A plain run is a run on the lists; what it has done so far may be remembered in `Q`. -/
theorem Run.plain {Q : List (Nucleus × Op) → Nucleus → Board → Prop} {R : Nucleus → Op → Prop}
    (hb : Booted s₀) (hr : Run s₀ tr s) (h0 : Q [] s₀ s₀.board) (hok : ∀ x ∈ tr, R x.1 x.2)
    (hproper : ∀ s o, R s o → s.Proper o)
    (hstep : ∀ tr s b o s' b', Sim s b → b.Inv → b.Undisturbed → Q tr s b → R s o →
      Sim s' b' → b'.Inv → b.step o = .ok b' → Q (tr ++ [(s, o)]) s' b') :
    ∃ b, Sim s b ∧ b.Inv ∧ b.Undisturbed ∧ Q tr s b := by
  refine Run.sim (Q := fun tr s b ↦ b.Undisturbed ∧ Q tr s b) hb hr ⟨hb.undisturbed, h0⟩ hok ?_ ?_
  · intro tr s b o hS hI hQ ho
    exact ⟨(hS.calm_iff hI o).mpr (hQ.1.calm o), (hproper s o ho).2⟩
  · intro tr s b o s' b' hS hI hQ ho hS' hI' hb'
    exact ⟨hQ.1.step hI (hproper s o ho).1 hb',
      hstep tr s b o s' b' hS hI hQ.1 hQ.2 ho hS' hI' hb'⟩

/-- The states of a plain run stand for lists. -/
theorem Run.lists (hb : Booted s₀) (hr : Run s₀ tr s) (hok : ∀ x ∈ tr, x.1.Proper x.2) :
    ∃ b, Sim s b ∧ b.Inv ∧ b.Undisturbed := by
  obtain ⟨b, hS, hI, hU, -⟩ := Run.plain (Q := fun _ _ _ ↦ True) hb hr trivial hok
    (fun _ _ h ↦ h) fun _ _ _ _ _ _ _ _ _ _ _ _ _ _ ↦ trivial
  exact ⟨b, hS, hI, hU⟩

end YRmx
