import YRmx.Spec.Steps

/-!
# What a step can do

Library `YRmx`. One inversion lemma for the calls that send, and one that says for a single
task everything that a step may do to its fields and to its places in the lists. The
properties of whole runs are derived from these lemmas without unfolding a step again.
-/

namespace YRmx.Board

variable {b b' : Board} {t u : TaskId} {o : Op} {e : ExchId} {m : MsgId}

/-! ### Sends -/

/-- The outcomes of a send that passes the ownership test. -/
inductive Sent (b : Board) (e : ExchId) (m : MsgId) : Board → Prop
  | kept (h : b.tq e = []) : Sent b e m (b.pushMessage e m)
  | handed {u us} (h : b.tq e = u :: us) : Sent b e m (b.handOff e u m)

/-- What a send does. -/
theorem send_cases (h : b.send t e m = .ok b') :
    b.mutex e = false ∧ (b.Accepts t m ∧ Sent b e m b' ∨
      ¬ b.Accepts t m ∧ b' = b.ctl (·.sendError t e)) := by
  unfold send at h
  obtain ⟨hmx, h⟩ := require_bind_eq_ok.mp h
  refine ⟨hmx, ?_⟩
  by_cases hacc : b.Accepts t m
  · rw [if_neg (not_not_intro hacc)] at h
    refine .inl ⟨hacc, ?_⟩
    cases htq : b.tq e with
    | nil =>
      rw [htq] at h
      cases h
      exact .kept htq
    | cons u us =>
      rw [htq] at h
      cases h
      exact .handed htq
  · rw [if_pos hacc] at h
    cases h
    exact .inr ⟨hacc, rfl⟩

/-- The board on which a tick or `reqisnd` sends its interrupt message. -/
def intSender (b : Board) (e : ExchId) : Board := b.ctl (·.setType (.interrupt e) intType)

/-- What `reqisnd` does. -/
theorem isnd_cases (h : b.isnd t e = .ok b') :
    b.sendsInt e = some (e, .interrupt e) ∧ Sent (b.intSender e) e (.interrupt e) b' ∨
      b.own (.interrupt e) ≠ .msg (.interrupt e) ∧
        b' = b.ctl (·.setType (.interrupt e) missedIntType) := by
  unfold isnd at h
  by_cases ho : b.own (.interrupt e) = .msg (.interrupt e)
  · rw [if_pos ho] at h
    obtain ⟨hmx, ⟨-, hs⟩ | ⟨hacc, -⟩⟩ := send_cases h
    · exact .inl ⟨if_pos ⟨ho, hmx⟩, hs⟩
    · exact absurd (.inr ho) hacc
  · rw [if_neg ho] at h
    cases h
    exact .inr ⟨ho, rfl⟩

/-! ### Steps of the control part -/

/-- The step touches neither the queues nor the owners of messages. -/
def Quiet : Op → Prop
  | .setType .. | .wake _ | .exitRegion _ | .heldWake _ | .thaw _ | .reqsusp .. | .suspWake _
  | .reqresm .. | .cancelled _ | .reqfreeze _ | .reqbake _ => True
  | _ => False

/-- Such a step changes the control part alone. -/
theorem step_ctl (h : b.step o = .ok b') (ho : Quiet o) : ∃ f, b' = b.ctl f := by
  cases o with
  | wake t =>
    simp only [step_wake, wakeAt] at h
    split at h
    · obtain ⟨-, h⟩ := require_bind_eq_ok.mp h
      cases h
      exact ⟨_, rfl⟩
    · cases h
  | exitRegion t =>
    simp only [step_exitRegion, exitAt] at h
    split at h <;> cases h
    exact ⟨_, rfl⟩
  | heldWake t =>
    simp only [step_heldWake, heldAt] at h
    split at h
    · obtain ⟨-, h⟩ := require_bind_eq_ok.mp h
      cases h
      exact ⟨_, rfl⟩
    · cases h
  | thaw t =>
    obtain ⟨-, h⟩ := require_bind_eq_ok.mp h
    unfold thawAt at h
    split at h <;> cases h
    · exact ⟨_, rfl⟩
    · exact ⟨_, rfl⟩
  | setType | reqsusp | suspWake | reqresm | cancelled | reqfreeze | reqbake =>
    obtain ⟨-, h⟩ := require_bind_eq_ok.mp h
    cases h
    exact ⟨_, rfl⟩
  | _ => exact ho.elim

/-! ### One task -/

/-- The fields of one task. -/
structure TaskState where
  exchange : Addr
  status : BitVec 8
  pc : Pc
  sema : Nat
  message : Addr
  cancel : Bool

/-- The fields of a task. -/
def view (b : Board) (u : TaskId) : TaskState where
  exchange := b.exchange u
  status := b.status u
  pc := b.pc u
  sema := b.sema u
  message := b.message u
  cancel := b.cancel u

/-- The task keeps its places in the lists. -/
structure Stays (b b' : Board) (u : TaskId) : Prop where
  tq : ∀ e, u ∈ b'.tq e ↔ u ∈ b.tq e
  timed : b'.Timed u ↔ b.Timed u

/-- Everything that a step may do to one task. -/
inductive TaskStep (b : Board) (o : Op) (u : TaskId) (b' : Board) : Prop
  /-- the step concerns other tasks -/
  | kept (hs : Stays b b' u) (hv : b'.view u = b.view u)
  /-- the task is the first one to wait where a message is sent -/
  | handed (e : ExchId) (m : MsgId) (ho : b.sends o = some (e, m)) (hu : (b.tq e).head? = some u)
      (hw : ¬ b'.Waits u) (ht : ¬ b'.Timed u)
      (hv : b'.view u = { b.view u with
        message := .msg m
        status := b.status u &&& ~~~(waiting ||| delayed)
        sema := b.sema u + 1 })
  /-- the time of the task has run out -/
  | expired (ho : o = .expiry) (hp : b.pc rqdelaytaskTd = .user) (hu : u ∈ b.expired)
      (hw : ¬ b'.Waits u) (ht : ¬ b'.Timed u)
      (hv : b'.view u = { b.view u with
        message := .msg .timeOut
        status := b.status u &&& ~~~delayed
        sema := b.sema u + 1 })
  /-- the task begins to wait -/
  | blocked (e : ExchId) (d : BitVec 16) (ho : o = .reqwait u e d) (hp : b.pc u = .user)
      (hq : b.mq e = []) (hw : ∀ e', u ∈ b'.tq e' ↔ e' = e) (ht : b'.Timed u ↔ d ≠ 0)
      (hv : b'.view u = { b.view u with
        exchange := .exch e
        status := if d ≠ 0 then delayed else waiting
        pc := .semWait e d })
  /-- the task fetches a message without waiting -/
  | fetched (e : ExchId) (d : BitVec 16) (m : MsgId) (ho : o = .reqwait u e d)
      (hp : b.pc u = .user) (hq : (b.mq e).head? = some m) (hs : Stays b b' u)
      (hv : b'.view u = { b.view u with
        exchange := .exch e
        message := .msg m
        pc := .exitRegion (.reqwait e d) })
  /-- the `sem_wait` of `reqwait` returns to the task -/
  | woken (e : ExchId) (d : BitVec 16) (p : Pc) (ho : o = .wake u) (hp : b.pc u = .semWait e d)
      (hm : 0 < b.sema u) (hs : Stays b b' u)
      (hpc : p = .exitRegion (.reqwait e d) ∨ p = .freeze (.reqwait e d))
      (hv : b'.view u = { b.view u with status := 0, sema := b.sema u - 1, pc := p })
  /-- the task fetches a message if there is one -/
  | accepted (e : ExchId) (ho : o = .reqacpt u e) (hp : b.pc u = .user) (hs : Stays b b' u)
      (hv : b'.view u = { b.view u with
        exchange := .exch e
        message := match (b.mq e).head? with
          | some m => .msg m
          | none => .null
        pc := .exitRegion (.reqacpt e) })
  /-- the thread of the task goes on to a point outside any `sem_wait` -/
  | moved (p : Pc) (hs : Stays b b' u)
      (hp : b.pc u = .user ∧ ((∃ e m, o = .reqsend u e m ∧ ¬ b.Accepts u m) ∨
          o = .reqfreeze u ∧ (p = .user ∨ p = .freeze .reqfreeze) ∨
          o = .expiry ∧ u = rqdelaytaskTd) ∨
        (∃ c, b.pc u = .exitRegion c ∧ p = .thaw c) ∨ ∃ c, b.pc u = .freeze c ∧ p = c.resume)
      (hpc : Active p) (hv : b'.view u = { b.view u with pc := p })
  /-- a call of the task returns -/
  | returned (c : Call) (ho : o = .thaw u) (hp : b.pc u = .thaw c) (hs : Stays b b' u)
      (hv : b'.view u = { b.view u with status := running, pc := .user })
  /-- the task suspends itself -/
  | slept (ho : o = .reqsusp u u) (hp : b.pc u = .user) (hs : Stays b b' u)
      (hv : b'.view u = { b.view u with
        status := b.status u ||| suspended ||| needpost
        pc := .suspWait })
  /-- the `sem_wait` of `reqsusp` returns to the task -/
  | roused (ho : o = .suspWake u) (hp : b.pc u = .suspWait) (hm : 0 < b.sema u)
      (hs : Stays b b' u)
      (hv : b'.view u = { b.view u with
        status := b.status u &&& ~~~(suspended ||| needpost)
        sema := b.sema u - 1
        pc := .user })
  /-- another task suspends the task -/
  | suspended (t : TaskId) (ho : o = .reqsusp t u) (hp : b.pc t = .user) (hu : u ≠ t)
      (hs : Stays b b' u) (hv : b'.view u = { b.view u with status := b.status u ||| suspended })
  /-- some task resumes the task, which was suspended by another one -/
  | resumed (t : TaskId) (ho : o = .reqresm t u) (hp : b.pc t = .user)
      (hn : b.status u &&& suspended ≠ 0 ∧ b.status u &&& needpost = 0) (hs : Stays b b' u)
      (hv : b'.view u = { b.view u with status := b.status u &&& ~~~suspended })
  /-- some task resumes the task, which suspended itself -/
  | released (t : TaskId) (ho : o = .reqresm t u) (hp : b.pc t = .user)
      (hn : b.status u &&& suspended ≠ 0 ∧ b.status u &&& needpost ≠ 0) (hs : Stays b b' u)
      (hv : b'.view u = { b.view u with
        status := b.status u &&& ~~~suspended &&& ~~~needpost
        sema := b.sema u + 1 })
  /-- the task is deleted, by itself or by another one -/
  | deleted (t : TaskId) (ho : o = .reqdtsk t u) (hp : b.pc t = .user) (hw : ¬ b'.Waits u)
      (ht : ¬ b'.Timed u)
      (hv : b'.view u = { b.view u with
        status := deleted
        pc := if u = t then .dead else b.pc u
        cancel := if u = t then b.cancel u else true })
  /-- the thread of the task is cancelled -/
  | ended (ho : o = .cancelled u) (hc : b.cancel u = true) (hp : b.pc u ≠ .dead)
      (hs : Stays b b' u) (hv : b'.view u = { b.view u with pc := .dead })

/-! ### The inversion lemma -/

private theorem ctl_congr {f g : Control → Control} (h : f b.toControl = g b.toControl) :
    b.ctl f = b.ctl g := by
  unfold ctl
  rw [h]

private theorem Stays.of_ctl {f : Control → Control} : Stays b (b.ctl f) u := ⟨fun _ ↦ .rfl, .rfl⟩

private theorem TaskStep.of_ctl {f : Control → Control}
    (hv : (b.ctl f).view u = b.view u) : TaskStep b o u (b.ctl f) := .kept .of_ctl hv

private theorem view_reqfreeze {f : Control → Control} (k : Call) (hu : u ≠ t)
    (hf : (b.ctl f).view u = b.view u) :
    (b.ctl fun c ↦ (f c).reqfreeze t k).view u = b.view u := by
  obtain ⟨p, z, he, -⟩ := reqfreeze_cases (f b.toControl) t k
  rw [ctl_congr (g := fun c ↦ ({ f c with rqfrozen := z } : Control).goto t p) he, ← hf]
  simp [view, hu]

private theorem view_waitDone {f : Control → Control} {d : BitVec 16} (hu : u ≠ t)
    (hf : (b.ctl f).view u = b.view u) :
    (b.ctl fun c ↦ (f c).waitDone t e d).view u = b.view u := by
  rcases waitDone_cases (f b.toControl) t e d with ⟨-, he⟩ | ⟨-, p, z, he, -⟩
  · rw [ctl_congr (g := fun c ↦ (f c).goto t _) he, ← hf]
    simp [view, hu]
  · rw [ctl_congr (g := fun c ↦ ({ f c with rqfrozen := z } : Control).goto t p) he, ← hf]
    simp [view, hu]

private theorem Sent.taskStep (ho : b.sends o = some (e, m))
    {b₁ : Board} (hI₁ : b₁.Inv) (htq : b₁.tq = b.tq) (hdl : ∀ u, b₁.Timed u ↔ b.Timed u)
    (hv : ∀ u, b₁.view u = b.view u) (hs : Sent b₁ e m b') : TaskStep b o u b' := by
  have hplaces : ∀ {b₂ : Board}, Stays b₁ b₂ u → Stays b b₂ u := by
    rintro b₂ ⟨hq, ht⟩
    refine ⟨fun e ↦ (hq e).trans ?_, ht.trans (hdl u)⟩
    rw [htq]
  cases hs with
  | kept h => exact .kept (hplaces ⟨fun _ ↦ .rfl, .rfl⟩) (hv u)
  | @handed w us h =>
    have hw : b₁.Waits w := ⟨e, by simp [h]⟩
    have hmem : ∀ e', u ∈ (b₁.handOff e w m).tq e' ↔ u ≠ w ∧ u ∈ b₁.tq e' := by
      intro e'
      rw [handOff_eq hI₁ h]
      exact mem_dropTask hI₁ hw
    have htimed : (b₁.handOff e w m).Timed u ↔ u ≠ w ∧ b₁.Timed u := timed_dropDelay
    by_cases hu : u = w
    · subst hu
      refine .handed e m ho ?_ ?_ ?_ ?_
      · rw [← htq, h]
        rfl
      · rintro ⟨e', he'⟩
        exact ((hmem e').mp he').1 rfl
      · exact fun ht ↦ (htimed.mp ht).1 rfl
      · have hvu := hv u
        simp only [view, TaskState.mk.injEq] at hvu ⊢
        simp [handOff, dropDelay, hvu]
    · refine .kept (hplaces ⟨fun e' ↦ (hmem e').trans (and_iff_right hu),
        htimed.trans (and_iff_right hu)⟩) ?_
      rw [← hv u]
      simp [view, handOff, dropDelay, hu]

private theorem isnd_taskStep {b₁ : Board} (hI₁ : b₁.Inv)
    (ho : b₁.sendsInt e = some (e, .interrupt e) → b.sends o = some (e, .interrupt e))
    (htq : b₁.tq = b.tq) (hdl : ∀ u, b₁.Timed u ↔ b.Timed u) (hv : ∀ u, b₁.view u = b.view u)
    (h : b₁.isnd t e = .ok b') : TaskStep b o u b' := by
  rcases isnd_cases h with ⟨hs, hsent⟩ | ⟨-, rfl⟩
  · have hI₂ : (b₁.intSender e).Inv :=
      hI₁.ctl_same (f := (·.setType (.interrupt e) intType)) fun _ ↦ ⟨rfl, rfl, rfl, rfl⟩
    exact hsent.taskStep (ho hs) hI₂ htq hdl hv
  · exact .kept ⟨fun e' ↦ by rw [← htq], hdl u⟩ (hv u)

private theorem view_popMessage (hu : u ≠ t) : (b.popMessage e t).view u = b.view u := by
  unfold popMessage
  split
  · rfl
  · simp [view, hu]

private theorem Stays.popMessage : Stays b (b.popMessage e t) u := by
  unfold Board.popMessage
  split <;> exact ⟨fun _ ↦ .rfl, .rfl⟩

private theorem foldl_expire_task {ts : List TaskId} (hI : b.Inv) (hn : ts.Nodup)
    (ht : ∀ t ∈ ts, b.Timed t) :
    (u ∉ ts → Stays b (ts.foldl expire b) u ∧ (ts.foldl expire b).view u = b.view u) ∧
    (u ∈ ts → ¬ (ts.foldl expire b).Waits u ∧ ¬ (ts.foldl expire b).Timed u ∧
      (ts.foldl expire b).view u = { b.view u with
        message := .msg .timeOut
        status := b.status u &&& ~~~delayed
        sema := b.sema u + 1 }) := by
  induction ts generalizing b with
  | nil => exact ⟨fun _ ↦ ⟨⟨fun _ ↦ .rfl, .rfl⟩, rfl⟩, fun h ↦ absurd h List.not_mem_nil⟩
  | cons t ts ih =>
    rw [List.nodup_cons] at hn
    have htt := ht t List.mem_cons_self
    have hI' := hI.expire htt
    have hts : ∀ t' ∈ ts, (b.expire t).Timed t' := by
      intro t' ht'
      refine timed_expire.mpr ⟨?_, ht t' (List.mem_cons_of_mem _ ht')⟩
      rintro rfl
      exact hn.1 ht'
    have hmem : ∀ e, u ∈ (b.expire t).tq e ↔ u ≠ t ∧ u ∈ b.tq e := fun e ↦
      mem_dropTask hI ((hI.task t).waits htt)
    obtain ⟨hout, hin⟩ := ih hI' hn.2 hts
    rw [List.foldl_cons]
    by_cases hu : u = t
    · subst hu
      obtain ⟨⟨hq, hd⟩, hv⟩ := hout hn.1
      refine ⟨fun h ↦ absurd List.mem_cons_self h, fun _ ↦ ⟨?_, ?_, ?_⟩⟩
      · rintro ⟨e, he⟩
        exact ((hmem e).mp ((hq e).mp he)).1 rfl
      · exact fun h ↦ (timed_expire.mp (hd.mp h)).1 rfl
      · rw [hv]
        simp [view, expire_toControl]
    · have hve : (b.expire t).view u = b.view u := by simp [view, expire_toControl, hu]
      refine ⟨fun h ↦ ?_, fun h ↦ ?_⟩
      · obtain ⟨⟨hq, hd⟩, hv⟩ := hout fun hx ↦ h (List.mem_cons_of_mem _ hx)
        exact ⟨⟨fun e ↦ (hq e).trans ((hmem e).trans (and_iff_right hu)),
          hd.trans (timed_expire.trans (and_iff_right hu))⟩, hv.trans hve⟩
      · obtain ⟨hw, hd, hv⟩ := hin ((List.mem_cons.mp h).resolve_left hu)
        refine ⟨hw, hd, hv.trans ?_⟩
        simp only [view, TaskState.mk.injEq] at hve ⊢
        simp [hve]

private theorem TaskStep.of_reqsend (hI : b.Inv) (h : b.step (.reqsend t e m) = .ok b') :
    TaskStep b (.reqsend t e m) u b' := by
  obtain ⟨hp, h⟩ := require_bind_eq_ok.mp h
  obtain ⟨hmx, ⟨hacc, hs⟩ | ⟨hacc, rfl⟩⟩ := send_cases h
  · have ho : b.sends (.reqsend t e m) = some (e, m) := if_pos ⟨hp, hmx, hacc⟩
    exact hs.taskStep ho hI rfl (fun _ ↦ .rfl) fun _ ↦ rfl
  · by_cases hu : u = t
    · subst hu
      obtain ⟨p, z, he, hpz⟩ := reqfreeze_cases
        { b.toControl with mutex := Function.update b.mutex e true } u (.reqsend e)
      rw [ctl_congr (g := fun _ ↦ _) he]
      refine .moved p .of_ctl (.inl ⟨hp, .inl ⟨e, m, rfl, hacc⟩⟩) ?_ ?_
      · rcases hpz with rfl | rfl <;> exact ⟨by simp [Call.resume], by simp [Call.resume],
          by simp [Call.resume]⟩
      · simp [view]
    · exact .of_ctl (view_reqfreeze (f := fun c ↦ { c with mutex := _ }) _ hu rfl)

private theorem TaskStep.of_reqwait {d : BitVec 16} (hI : b.Inv)
    (h : b.step (.reqwait t e d) = .ok b') :
    TaskStep b (.reqwait t e d) u b' := by
  obtain ⟨hp, h⟩ := require_bind_eq_ok.mp h
  obtain ⟨-, h⟩ := require_bind_eq_ok.mp h
  have hf := hI.free_of_user hp
  by_cases hmq : b.mq e = []
  · obtain rfl := Except.ok.inj ((if_pos hmq).symm.trans h)
    have hv : ((b.ctl (·.setExchange t (.exch e))).block t e d).view u =
        (b.ctl fun c ↦ ((c.setExchange t (.exch e)).setStatus t
          (if d ≠ 0 then delayed else waiting)).goto t (.semWait e d)).view u := by
      simp only [view, block_toControl]
    by_cases hu : u = t
    · subst hu
      refine .blocked e d rfl hp hmq (fun e' ↦ ?_) ?_ (hv.trans ?_)
      · refine mem_block.trans ⟨fun hx ↦ ?_, fun hx ↦ .inr ⟨rfl, hx⟩⟩
        exact hx.elim (fun hx ↦ absurd ⟨e', hx⟩ hf.1) And.right
      · refine timed_block.trans ⟨fun hx ↦ ?_, fun hx ↦ .inr ⟨rfl, hx⟩⟩
        exact hx.elim (fun hx ↦ absurd hx hf.2.1) And.right
      · simp [view]
    · refine .kept ⟨fun e' ↦ ?_, ?_⟩ (hv.trans ?_)
      · exact mem_block.trans ⟨fun hx ↦ hx.elim id fun hx ↦ absurd hx.1 hu, .inl⟩
      · exact timed_block.trans ⟨fun hx ↦ hx.elim id fun hx ↦ absurd hx.1 hu, .inl⟩
      · simp [view, hu]
  · obtain rfl := Except.ok.inj ((if_neg hmq).symm.trans h)
    obtain ⟨m, ms, hms⟩ := List.exists_cons_of_ne_nil hmq
    have hms' : (b.ctl (·.setExchange t (.exch e))).mq e = m :: ms := hms
    rw [popMessage_cons hms']
    by_cases hu : u = t
    · subst hu
      refine .fetched e d m rfl hp (by simp [hms]) ⟨fun _ ↦ .rfl, .rfl⟩ ?_
      simp [view, Control.waitDone]
    · refine .kept ⟨fun _ ↦ .rfl, .rfl⟩ ?_
      simp [view, Control.waitDone, hu]

private theorem TaskStep.of_wake (h : b.step (.wake t) = .ok b') :
    TaskStep b (.wake t) u b' := by
  simp only [step_wake, wakeAt] at h
  split at h
  case h_1 e d hp =>
    obtain ⟨⟨hm, -⟩, h⟩ := require_bind_eq_ok.mp h
    cases h
    by_cases hu : u = t
    · subst hu
      rcases waitDone_cases ((b.semTake u).setStatus u 0) u e d with ⟨-, he⟩ | ⟨-, p, z, he, hpz⟩
      · rw [ctl_congr (g := fun c ↦ ((c.semTake u).setStatus u 0).goto u _) he]
        exact .woken e d _ rfl hp hm .of_ctl (.inl rfl) (by simp [view])
      · rw [ctl_congr (g := fun c ↦ ({ (c.semTake u).setStatus u 0 with rqfrozen := z } :
          Control).goto u p) he]
        exact .woken e d p rfl hp hm .of_ctl hpz (by simp [view])
    · exact .of_ctl (view_waitDone (f := fun c ↦ (c.semTake t).setStatus t 0) hu
        (by simp [view, hu]))
  case h_2 => cases h

private theorem TaskStep.of_reqacpt (h : b.step (.reqacpt t e) = .ok b') :
    TaskStep b (.reqacpt t e) u b' := by
  obtain ⟨hp, h⟩ := require_bind_eq_ok.mp h
  obtain ⟨-, h⟩ := require_bind_eq_ok.mp h
  cases h
  have hst : Stays (b.ctl fun c ↦ (c.setExchange t (.exch e)).setMessage t .null)
    ((b.ctl fun c ↦ (c.setExchange t (.exch e)).setMessage t .null).popMessage e t) u :=
    .popMessage
  by_cases hu : u = t
  · subst hu
    refine .accepted e rfl hp ⟨hst.tq, hst.timed⟩ ?_
    unfold popMessage
    cases b.mq e <;> simp [view]
  · refine .kept ⟨hst.tq, hst.timed⟩ ?_
    have hv := view_popMessage (b := b.ctl fun c ↦ (c.setExchange t (.exch e)).setMessage t .null)
      (e := e) hu
    simp only [view, TaskState.mk.injEq] at hv ⊢
    simp [hv, hu]

private theorem TaskStep.of_exitRegion (h : b.step (.exitRegion t) = .ok b') :
    TaskStep b (.exitRegion t) u b' := by
  simp only [step_exitRegion, exitAt] at h
  split at h
  case h_1 c hp =>
    cases h
    rw [ctl_congr (g := (·.goto t (.thaw c))) (exitRegion_eq _ t c)]
    by_cases hu : u = t
    · subst hu
      refine .moved (.thaw c) .of_ctl (.inr (.inl ⟨c, hp, rfl⟩)) ⟨by simp, by simp, by simp⟩ ?_
      simp [view]
    · exact .of_ctl (by simp [view, hu])
  case h_2 => cases h

private theorem TaskStep.of_thaw (h : b.step (.thaw t) = .ok b') :
    TaskStep b (.thaw t) u b' := by
  obtain ⟨-, h⟩ := require_bind_eq_ok.mp h
  unfold thawAt at h
  split at h
  case h_1 c hp =>
    cases h
    by_cases hu : u = t
    · subst hu
      refine .moved c.resume .of_ctl (.inr (.inr ⟨c, hp, rfl⟩)) ?_ (by simp [view])
      unfold Call.resume
      split <;> exact ⟨by simp, by simp, by simp⟩
    · exact .of_ctl (by simp [view, hu])
  case h_2 c hp =>
    cases h
    by_cases hu : u = t
    · subst hu
      exact .returned c rfl hp .of_ctl (by simp [view, Control.leaveRegion])
    · exact .of_ctl (by simp [view, Control.leaveRegion, hu])
  case h_3 => cases h

private theorem TaskStep.of_tick (hI : b.Inv) (h : b.step .tick = .ok b') :
    TaskStep b .tick u b' := by
  obtain ⟨hp, h⟩ := require_bind_eq_ok.mp h
  have hcd := countDown_eq b
  have htq : b.countDown.1.tq = b.tq := by rw [hcd]
  have hv : ∀ u, b.countDown.1.view u = b.view u := fun u ↦ by rw [hcd]; rfl
  unfold tick at h
  by_cases hs : b.countDown.2 = true
  · rw [if_pos hs] at h
    refine isnd_taskStep hI.countDown (fun hx ↦ ?_) htq (fun u ↦ timed_countDown) hv h
    have hsi : b.countDown.1.sendsInt rqDelayExchange = b.sendsInt rqDelayExchange := by
      rw [hcd]
      rfl
    exact (if_pos ⟨hp, hs⟩).trans (hsi.symm.trans hx)
  · rw [if_neg hs] at h
    cases h
    exact .kept ⟨fun e ↦ by rw [htq], timed_countDown⟩ (hv u)

private theorem TaskStep.of_expiry (hI : b.Inv) (h : b.step .expiry = .ok b') :
    TaskStep b .expiry u b' := by
  obtain ⟨hp, h⟩ := require_bind_eq_ok.mp h
  cases h
  obtain ⟨hout, hin⟩ := foldl_expire_task (u := u) hI hI.expired.1 hI.expired.2
  have hdt : rqdelaytaskTd ∉ b.expired := fun hx ↦
    (hI.free_of_user hp).2.1 (hI.expired.2 _ hx)
  by_cases hu : u = rqdelaytaskTd
  · subst hu
    obtain ⟨hs, hv⟩ := hout hdt
    refine .moved (.exitRegion .rqdelaytask) ⟨hs.tq, hs.timed⟩ (.inl ⟨hp, .inr (.inr ⟨rfl, rfl⟩)⟩)
      ⟨by simp, by simp, by simp⟩ ?_
    simp only [view, TaskState.mk.injEq] at hv ⊢
    simp [expireAll, hv]
  · have hgo : (b.expireAll.ctl (·.goto rqdelaytaskTd (.exitRegion .rqdelaytask))).view u =
        b.expireAll.view u := by simp [view, hu]
    by_cases hx : u ∈ b.expired
    · obtain ⟨hw, ht, hv⟩ := hin hx
      exact .expired rfl hp hx hw ht (hgo.trans hv)
    · obtain ⟨hs, hv⟩ := hout hx
      exact .kept ⟨hs.tq, hs.timed⟩ (hgo.trans hv)

private theorem TaskStep.of_reqsusp {w : TaskId} (h : b.step (.reqsusp t w) = .ok b') :
    TaskStep b (.reqsusp t w) u b' := by
  obtain ⟨hp, h⟩ := require_bind_eq_ok.mp h
  cases h
  by_cases hw : w = t
  · subst hw
    rw [ctl_congr (g := fun c ↦ (c.setStatus w (c.status w ||| YRmx.suspended ||| needpost)).goto w
      .suspWait) (reqsusp_self _ w)]
    by_cases hu : u = w
    · subst hu
      exact .slept rfl hp .of_ctl (by simp [view])
    · exact .of_ctl (by simp [view, hu])
  · rw [ctl_congr (g := fun c ↦ c.setStatus w (c.status w ||| YRmx.suspended)) (reqsusp_other _ hw)]
    by_cases hu : u = w
    · subst hu
      exact .suspended t rfl hp hw .of_ctl (by simp [view])
    · exact .of_ctl (by simp [view, hu])

private theorem TaskStep.of_suspWake (h : b.step (.suspWake t) = .ok b') :
    TaskStep b (.suspWake t) u b' := by
  obtain ⟨⟨hp, hpos⟩, h⟩ := require_bind_eq_ok.mp h
  cases h
  by_cases hu : u = t
  · subst hu
    exact .roused rfl hp hpos .of_ctl (by simp [view, Control.reqsuspResume])
  · exact .of_ctl (by simp [view, Control.reqsuspResume, hu])

private theorem TaskStep.of_reqresm {w : TaskId} (h : b.step (.reqresm t w) = .ok b') :
    TaskStep b (.reqresm t w) u b' := by
  obtain ⟨hp, h⟩ := require_bind_eq_ok.mp h
  cases h
  by_cases hs : b.status w &&& YRmx.suspended = 0
  · rw [ctl_congr (f := (·.reqresm w)) (g := id) (reqresm_idle hs)]
    exact .of_ctl rfl
  · by_cases hn : b.status w &&& needpost = 0
    · rw [ctl_congr (f := (·.reqresm w))
        (g := fun c ↦ c.setStatus w (c.status w &&& ~~~YRmx.suspended)) (reqresm_other hs hn)]
      by_cases hu : u = w
      · subst hu
        exact .resumed t rfl hp ⟨hs, hn⟩ .of_ctl (by simp [view])
      · exact .of_ctl (by simp [view, hu])
    · rw [ctl_congr (f := (·.reqresm w)) (g := fun c ↦ (c.setStatus w
        (c.status w &&& ~~~YRmx.suspended &&& ~~~needpost)).semPost w) (reqresm_self hs hn)]
      by_cases hu : u = w
      · subst hu
        exact .released t rfl hp ⟨hs, hn⟩ .of_ctl (by simp [view])
      · exact .of_ctl (by simp [view, hu])

private theorem TaskStep.of_reqdtsk {w : TaskId} (hI : b.Inv) (h : b.step (.reqdtsk t w) = .ok b') :
    TaskStep b (.reqdtsk t w) u b' := by
  obtain ⟨hp, h⟩ := require_bind_eq_ok.mp h
  cases h
  have hplaces : ∀ e, u ∈ (b.delete t w).tq e ↔ u ≠ w ∧ u ∈ b.tq e := by
    intro e
    unfold delete
    by_cases hb : b.status w &&& (YRmx.waiting ||| delayed) ≠ 0
    · simp only [if_pos hb]
      exact mem_dropTask hI ((hI.task w).waits_iff.mpr hb)
    · have hw : ¬ b.Waits w := fun hw ↦ hb ((hI.task w).waits_iff.mp hw)
      simp only [if_neg hb]
      refine (and_iff_right_of_imp ?_).symm
      rintro hu rfl
      exact hw ⟨e, hu⟩
  have htimed : (b.delete t w).Timed u ↔ u ≠ w ∧ b.Timed u := by
    unfold delete
    by_cases hb : b.status w &&& (YRmx.waiting ||| delayed) ≠ 0
    · simp only [if_pos hb]
      apply timed_dropDelay.trans
      rw [Timed, dropTask_dl, Timed]
    · have hw : ¬ b.Waits w := fun hw ↦ hb ((hI.task w).waits_iff.mp hw)
      simp only [if_neg hb]
      refine (and_iff_right_of_imp ?_).symm
      rintro hu rfl
      exact hw ((hI.task u).waits hu)
  have hv : (b.delete t w).view u = (b.ctl (·.reqdtskEnd t w)).view u := by
    unfold delete
    simp only
    split <;> simp [view, dropDelay]
  have hend : (b.ctl (·.reqdtskEnd t w)).view u = if u = w then { b.view u with
      status := YRmx.deleted
      pc := if u = t then .dead else b.pc u
      cancel := if u = t then b.cancel u else true } else b.view u := by
    unfold ctl Control.reqdtskEnd
    by_cases hw : w = t
    · subst hw
      by_cases hu : u = w <;> simp [view, hu]
    · by_cases hu : u = w <;> simp [view, hw, hu]
  by_cases hu : u = w
  · subst hu
    refine .deleted t rfl hp ?_ ?_ (hv.trans (hend.trans (if_pos rfl)))
    · rintro ⟨e, he⟩
      exact ((hplaces e).mp he).1 rfl
    · exact fun hx ↦ (htimed.mp hx).1 rfl
  · exact .kept ⟨fun e ↦ (hplaces e).trans (and_iff_right hu), htimed.trans (and_iff_right hu)⟩
      (hv.trans (hend.trans (if_neg hu)))

private theorem TaskStep.of_cancelled (h : b.step (.cancelled t) = .ok b') :
    TaskStep b (.cancelled t) u b' := by
  obtain ⟨⟨hc, hp⟩, h⟩ := require_bind_eq_ok.mp h
  cases h
  by_cases hu : u = t
  · subst hu
    exact .ended rfl hc hp .of_ctl (by simp [view])
  · exact .of_ctl (by simp [view, hu])

private theorem TaskStep.of_reqfreeze (h : b.step (.reqfreeze t) = .ok b') :
    TaskStep b (.reqfreeze t) u b' := by
  obtain ⟨hp, h⟩ := require_bind_eq_ok.mp h
  cases h
  by_cases hu : u = t
  · subst hu
    obtain ⟨p, z, he, hpz⟩ := reqfreeze_cases b.toControl u .reqfreeze
    rw [ctl_congr (g := fun c ↦ ({ c with rqfrozen := z } : Control).goto u p) he]
    refine .moved p .of_ctl (.inl ⟨hp, .inr (.inl ⟨rfl, hpz⟩)⟩) ?_ (by simp [view])
    rcases hpz with rfl | rfl <;> exact ⟨by simp [Call.resume], by simp [Call.resume],
      by simp [Call.resume]⟩
  · exact .of_ctl (view_reqfreeze (f := id) _ hu rfl)

private theorem TaskStep.of_reqbake (h : b.step (.reqbake t) = .ok b') :
    TaskStep b (.reqbake t) u b' := by
  obtain ⟨-, h⟩ := require_bind_eq_ok.mp h
  cases h
  by_cases hz : b.rqfrozen = true
  · rw [ctl_congr (f := (·.reqbake)) (g := fun c ↦ { c with rqfrozen := false }) (if_pos hz)]
    exact .of_ctl rfl
  · rw [ctl_congr (f := (·.reqbake)) (g := id) (if_neg hz)]
    exact .of_ctl rfl

/-- What a step does to a task is one of these things. -/
theorem step_task (hI : b.Inv) (h : b.step o = .ok b') (u : TaskId) : TaskStep b o u b' := by
  cases o with
  | reqcmsg t n size now =>
    obtain ⟨-, h⟩ := require_bind_eq_ok.mp h
    cases h
    exact .kept ⟨fun _ ↦ .rfl, .rfl⟩ rfl
  | setType t n type =>
    obtain ⟨-, h⟩ := require_bind_eq_ok.mp h
    cases h
    exact .of_ctl rfl
  | reqsend t e m => exact .of_reqsend hI h
  | reqisnd t e =>
    obtain ⟨hp, h⟩ := require_bind_eq_ok.mp h
    exact isnd_taskStep hI (fun hs ↦ by simpa [sends, hp] using hs) rfl (fun _ ↦ .rfl)
      (fun _ ↦ rfl) h
  | reqwait t e d => exact .of_reqwait hI h
  | wake t => exact .of_wake h
  | reqacpt t e => exact .of_reqacpt h
  | exitRegion t => exact .of_exitRegion h
  | heldWake t =>
    simp only [step_heldWake, heldAt] at h
    split at h
    case h_1 c hp => exact absurd hp (hI.task t).not_held
    case h_2 => cases h
  | thaw t => exact .of_thaw h
  | tick => exact .of_tick hI h
  | expiry => exact .of_expiry hI h
  | reqsusp t w => exact .of_reqsusp h
  | suspWake t => exact .of_suspWake h
  | reqresm t w => exact .of_reqresm h
  | reqdtsk t w => exact .of_reqdtsk hI h
  | cancelled t => exact .of_cancelled h
  | reqfreeze t => exact .of_reqfreeze h
  | reqbake t => exact .of_reqbake h

end YRmx.Board
