import YRmx.Registry.Creation

/-!
# `reqctsk` line by line, and the new thread

Library `YRmx`. `reqctsk` starts the thread of the task (`ycore.c:716`) before it enters the
thread into the descriptor and the descriptor into the list (`ycore.c:735–748`). After
start-up nothing holds the new thread back, so that it may look for its descriptor with
`active_task` meanwhile; each turn of that loop reads two fields.
-/

namespace YRmx

open Transition Intrusive

/-- The next line of the creator in `reqctsk`. -/
inductive CreateLine where
  /-- `pthread_create(&thread,attrp,(void *)reqrun,td)` -/
  | create
  /-- `td->thread = thread` -/
  | setThread
  /-- `td->status = running` -/
  | setStatus
  /-- `ycore.c:741,742,745` -/
  | link
  /-- `rq_task_tail = td` -/
  | setTail
  /-- `td->tasklink = NULL` -/
  | clearLink
  | done
  deriving DecidableEq, Repr

/-- The new thread. -/
inductive WalkLine where
  | none
  /-- `reqrun` or user code -/
  | user
  /-- `this_task->thread == thread` -/
  | compare (this_task : TaskId)
  /-- `this_task = this_task->tasklink` -/
  | follow (this_task : TaskId)
  /-- `active_task` returns -/
  | returned (found : TaskPtr)
  deriving DecidableEq, Repr

/-- The list, the status of the new task, the creator and the new thread. -/
structure Launch extends Registry where
  status : BitVec 8
  creator : CreateLine
  walk : WalkLine
  /-- the status that the new thread has written last -/
  own : Option (BitVec 8)

/-- The steps of the two threads. -/
inductive LaunchOp where
  /-- the next line of the creator -/
  | creator
  /-- the new thread calls `active_task` -/
  | activeTask
  /-- the next line of `active_task` -/
  | walk
  /-- the new thread goes on with what `active_task` has returned -/
  | resume
  /-- the new thread writes its status -/
  | setStatus (st : BitVec 8)
  deriving DecidableEq, Repr

namespace Launch

variable {td t u : TaskId} {id : Nat} {x x' : Launch} {o : LaunchOp} {xs : List TaskId}
  {tr : List (Launch × LaunchOp)} {s s' : Registry}

/-- `active_task` comes to a pointer. -/
def visit (x : Launch) : TaskPtr → Exec Launch
  | .null => .ok { x with walk := .returned .null }
  | .rqTaskHead => .error .fault
  | .task u => .ok { x with walk := .compare u }

/-- The next line of the creator, for the new thread `id`. -/
def createStep (td : TaskId) (id : Nat) (x : Launch) : Exec Launch :=
  match x.creator with
  | .create => .ok { x with walk := .user, creator := .setThread }
  | .setThread =>
    .ok { x with thread := Function.update x.thread td id, creator := .setStatus }
  | .setStatus => .ok { x with status := running, creator := .link }
  | .link =>
    if x.rqTaskHead = .null then
      .ok { x with rqTaskHead := .task td, rqTaskTail := .task td, creator := .clearLink }
    else if x.rqTaskTail = .null then .error .fault
    else .ok { x with
      tasklink := Function.update x.tasklink x.rqTaskTail (.task td), creator := .setTail }
  | .setTail => .ok { x with rqTaskTail := .task td, creator := .clearLink }
  | .clearLink =>
    .ok { x with tasklink := Function.update x.tasklink (.task td) .null, creator := .done }
  | .done => .error .blocked

/-- The next line of `active_task`, `ycore.c:367–375`. -/
def walkStep (id : Nat) (x : Launch) : Exec Launch :=
  match x.walk with
  | .compare u =>
    if x.thread u = id then .ok { x with walk := .returned (.task u) }
    else .ok { x with walk := .follow u }
  | .follow u => x.visit (x.tasklink (.task u))
  | _ => .error .blocked

/-- The new thread goes on after `active_task`. -/
def resumeStep (x : Launch) : Exec Launch :=
  match x.walk with
  | .returned _ => .ok { x with walk := .user }
  | _ => .error .blocked

/-- One step. -/
def step (td : TaskId) (id : Nat) (x : Launch) : LaunchOp → Exec Launch
  | .creator => x.createStep td id
  | .activeTask => do
    require (x.walk = .user)
    x.visit x.rqTaskHead
  | .walk => x.walkStep id
  | .resume => x.resumeStep
  | .setStatus st => do
    require (x.walk = .user)
    .ok { x with status := st, own := some st }

/-- The steps while `td` is created with the thread `id`. -/
def Step (td : TaskId) (id : Nat) (x : Launch) (o : LaunchOp) (x' : Launch) : Prop :=
  x.step td id o = .ok x'

/-- The creator is about to start the thread. -/
def start (s : Registry) : Launch where
  toRegistry := s
  status := 0
  creator := .create
  walk := .none
  own := none

/-- A task list after start-up, and a thread that no task of it has. -/
structure Ready (s : Registry) (id : Nat) (xs : List TaskId) : Prop where
  ne_nil : xs ≠ []
  lists : s.Lists xs
  ends : s.Ends xs
  fresh : ∀ u ∈ xs, s.thread u ≠ id

/-- The new thread is in the loop of `active_task`. -/
def Walking (x : Launch) : Prop := ∃ u, x.walk = .compare u ∨ x.walk = .follow u

/-- If the new thread goes on in `active_task` alone, it returns. -/
def Returns (td : TaskId) (id : Nat) (x : Launch) : Prop :=
  ∃ tr x' p, Trace (Step td id) x tr x' ∧ (∀ y ∈ tr, y.2 = .walk) ∧ x'.walk = .returned p

/-- `active_task` returns, and returns the descriptor of the new thread; and the status that the
new thread has set is still there. -/
structure Known (td : TaskId) (id : Nat) (x : Launch) : Prop where
  returns : x.Walking → Returns td id x
  found : ∀ p, x.walk = .returned p → p = .task td
  kept : ∀ st, x.own = some st → x.status = st

/-- The creator has yet to write the new task behind the last one. -/
def Unlinked (x : Launch) : Prop :=
  x.creator = .create ∨ x.creator = .setThread ∨ x.creator = .setStatus ∨ x.creator = .link

/-- The new thread reads the link field of the last task before the new task was written there,
or its own one after it was cleared; or the creator writes another status than the new thread
has set. -/
def Premature (td : TaskId) (x : Launch) (o : LaunchOp) : Prop :=
  (∃ u, o = .walk ∧ x.walk = .follow u ∧
    (x.Unlinked ∧ x.rqTaskTail = .task u ∨ x.creator = .done ∧ u = td)) ∨
  ∃ st, o = .creator ∧ x.creator = .setStatus ∧ x.own = some st ∧ st ≠ running

/-! ### The lines together -/

/-- The last lines of the creator append the new task. -/
theorem append_lines (id : Nat) (hc : x.creator = .link) (hs : x.toRegistry.append td = .ok s') :
    ∃ tr x', Trace (Step td id) x tr x' ∧ (∀ y ∈ tr, y.2 = .creator) ∧
      x'.toRegistry = s' ∧ x'.creator = .done ∧ x'.status = x.status := by
  by_cases hh : x.rqTaskHead = .null
  · rw [Registry.append_of_null hh] at hs
    cases hs
    have h₁ : Step td id x .creator
        { x with rqTaskHead := .task td, rqTaskTail := .task td, creator := .clearLink } := by
      rw [Step, step, createStep, hc]
      exact if_pos hh
    have ht : Trace (Step td id) x ([] ++ [(_, LaunchOp.creator)] ++ [(_, LaunchOp.creator)]) _ :=
      .snoc (.snoc .nil h₁) rfl
    exact ⟨_, _, ht, by simp, rfl, rfl, rfl⟩
  · by_cases ht : x.rqTaskTail = .null
    · rw [Registry.append, if_neg hh, if_pos ht] at hs
      cases hs
    · rw [Registry.append_of_tail hh rfl ht] at hs
      cases hs
      have h₁ : Step td id x .creator
          { x with
            tasklink := Function.update x.tasklink x.rqTaskTail (.task td),
            creator := .setTail } := by
        rw [Step, step, createStep, hc]
        exact (if_neg hh).trans (if_neg ht)
      have ht : Trace (Step td id) x
          ([] ++ [(_, LaunchOp.creator)] ++ [(_, LaunchOp.creator)] ++ [(_, LaunchOp.creator)]) _ :=
        .snoc (.snoc (.snoc .nil h₁) rfl) rfl
      exact ⟨_, _, ht, by simp, rfl, rfl, rfl⟩

/-- A creator that is not disturbed does what `reqctsk` does. -/
theorem reqctsk_lines (hs : s.reqctsk .ycore td (some id) = .ok s') :
    ∃ tr x', Trace (Step td id) (start s) tr x' ∧ (∀ y ∈ tr, y.2 = .creator) ∧
      x'.toRegistry = s' ∧ x'.creator = .done ∧ x'.status = running := by
  rw [Registry.reqctsk, if_neg (by decide)] at hs
  have hl : Trace (Step td id) (start s)
      ([] ++ [(_, LaunchOp.creator)] ++ [(_, LaunchOp.creator)] ++ [(_, LaunchOp.creator)]) _ :=
    .snoc (.snoc (.snoc .nil rfl) rfl) rfl
  obtain ⟨tr, x', ht, hall, hreg, hdone, hst⟩ := append_lines id
    (x := ⟨_, running, .link, .user, none⟩) rfl hs
  exact ⟨_, x', hl.append ht, by simpa using hall, hreg, hdone, hst⟩

/-! ### The list while the new task is linked -/

/-- The link fields when the creator has come to a line. -/
def linksAt (s : Registry) (td : TaskId) : CreateLine → TaskPtr → TaskPtr
  | .create | .setThread | .setStatus | .link => s.tasklink
  | .setTail | .clearLink => Function.update s.tasklink s.rqTaskTail (.task td)
  | .done =>
    Function.update (Function.update s.tasklink s.rqTaskTail (.task td)) (.task td) .null

/-- The threads when the creator has come to a line. -/
def threadAt (s : Registry) (td : TaskId) (id : Nat) : CreateLine → TaskId → Nat
  | .create | .setThread => s.thread
  | _ => Function.update s.thread td id

/-- The tail when the creator has come to a line. -/
def tailAt (s : Registry) (td : TaskId) : CreateLine → TaskPtr
  | .clearLink | .done => .task td
  | _ => s.rqTaskTail

/-- What the creator has done so far, and where the new thread is in the list. -/
structure Placed (s : Registry) (td : TaskId) (id : Nat) (xs : List TaskId) (x : Launch) :
    Prop where
  head : x.rqTaskHead = s.rqTaskHead
  tail : x.rqTaskTail = tailAt s td x.creator
  links : x.tasklink = linksAt s td x.creator
  thread : x.thread = threadAt s td id x.creator
  waits : x.creator = .create → x.walk = .none
  compares : ∀ u, x.walk = .compare u → u ∈ xs ∨ u = td ∧ ¬ x.Unlinked
  follows : ∀ u, x.walk = .follow u → u ∈ xs
  found : ∀ p, x.walk = .returned p → p = .task td
  kept : ∀ st, x.own = some st → x.status = st

/-- The list before the thread is started. -/
theorem start_placed (s : Registry) (td : TaskId) (id : Nat) (xs : List TaskId) :
    Placed s td id xs (start s) where
  head := rfl
  tail := rfl
  links := rfl
  thread := rfl
  waits _ := rfl
  compares u hu := by cases hu
  follows u hu := by cases hu
  found p hp := by cases hp
  kept st hst := by cases hst

/-- Before the new task is linked, the list is the old one. -/
theorem Placed.unlinked (h : Placed s td id xs x) (hx : x.Unlinked) :
    x.tasklink = s.tasklink ∧ x.rqTaskTail = s.rqTaskTail := by
  rw [h.links, h.tail]
  rcases hx with hc | hc | hc | hc <;> rw [hc] <;> exact ⟨rfl, rfl⟩

/-- Once the new task is linked, it has its thread. -/
theorem Placed.linked (h : Placed s td id xs x) (hx : ¬ x.Unlinked) :
    x.thread td = id ∧ ∀ p, x.tasklink p =
      if x.creator = .done ∧ p = .task td then .null
      else Function.update s.tasklink s.rqTaskTail (.task td) p := by
  rw [h.thread, h.links]
  refine ⟨?_, fun p ↦ ?_⟩ <;> cases hc : x.creator <;>
    simp_all [Unlinked, threadAt, linksAt, Function.update_apply]

/-- A task of the old list that has the new thread is the new task. -/
theorem Placed.eq_of_thread (h : Placed s td id xs x) (hr : Ready s id xs) (hu : u ∈ xs)
    (ht : x.thread u = id) : u = td := by
  by_contra hne
  rw [h.thread] at ht
  apply hr.fresh u hu
  cases hc : x.creator <;> simpa [hc, threadAt, hne] using ht

/-- The last task of a list is where the tail is. -/
theorem Ready.last_iff {l r : List TaskId} (hr : Ready s id (l ++ u :: r)) :
    s.rqTaskTail = .task u ↔ r = [] := by
  rcases List.eq_nil_or_concat' r with rfl | ⟨r, v, rfl⟩
  · simpa using Registry.ends_concat.mp hr.ends
  · have he : s.rqTaskTail = .task v := by
      rw [← Registry.ends_concat (l := l ++ u :: r)]
      simpa using hr.ends
    have hd := (List.nodup_cons.mp (List.nodup_append.mp hr.lists.nodup).2.1).1
    have hne : v ≠ u := fun hvu ↦ hd (by simp [hvu])
    simp [he, hne]

/-- Behind a task of the old list there is nothing, the new task, or the next task of the old
list; the first exactly where the new thread must not read. -/
theorem Placed.next {l r : List TaskId} (h : Placed s td id (l ++ u :: r) x)
    (hr : Ready s id (l ++ u :: r)) :
    x.tasklink (.task u) = .null ∧
        (x.Unlinked ∧ x.rqTaskTail = .task u ∨ x.creator = .done ∧ u = td) ∨
      x.tasklink (.task u) = .task td ∧ ¬ x.Unlinked ∧ ¬ (x.creator = .done ∧ u = td) ∨
      ∃ v r', r = v :: r' ∧ x.tasklink (.task u) = .task v ∧
        ¬ (x.Unlinked ∧ x.rqTaskTail = .task u ∨ x.creator = .done ∧ u = td) := by
  have hl := hr.lists
  rw [Registry.Lists, Registry.ptrs_append] at hl
  have hlink : s.tasklink (.task u) = (Registry.ptrs r).headD .null := hl.link_eq
  by_cases hu : x.Unlinked
  · obtain ⟨ht, htail⟩ := h.unlinked hu
    have hd : x.creator ≠ .done := by rcases hu with hc | hc | hc | hc <;> simp [hc]
    rw [ht, htail, hr.last_iff, hlink]
    cases r with
    | nil => exact .inl ⟨rfl, .inl ⟨hu, rfl⟩⟩
    | cons v r => exact .inr (.inr ⟨v, r, rfl, rfl, by simp [hd]⟩)
  · rw [(h.linked hu).2]
    by_cases hd : x.creator = .done ∧ u = td
    · exact .inl ⟨if_pos (by simpa using hd), .inr hd⟩
    · rw [if_neg (by simpa using hd)]
      cases r with
      | nil =>
        rw [hr.last_iff.mpr rfl, Function.update_self]
        exact .inr (.inl ⟨rfl, hu, hd⟩)
      | cons v r =>
        have hne : TaskPtr.task u ≠ s.rqTaskTail := fun he ↦ by
          simpa using hr.last_iff.mp he.symm
        rw [Function.update_of_ne hne, hlink]
        exact .inr (.inr ⟨v, r, rfl, rfl, by simp [hu, hd]⟩)

/-- What returns after one more line returns. -/
theorem Returns.step (h : Returns td id x') (hs : Step td id x .walk x') : Returns td id x := by
  obtain ⟨tr, y, p, ht, hall, hp⟩ := h
  exact ⟨_, y, p, (Trace.nil.snoc hs).append ht, by simpa using hall, hp⟩

/-- A search that has ended. -/
theorem Returns.of_returned {p : TaskPtr} (h : x.walk = .returned p) : Returns td id x :=
  ⟨[], x, p, .nil, by simp, h⟩

/-- The search returns at a task with the new thread, and elsewhere if it returns from there. -/
theorem returns_compare (hu : x.walk = .compare u)
    (h : x.thread u ≠ id → Returns td id { x with walk := .follow u }) : Returns td id x := by
  by_cases ht : x.thread u = id
  · have hs : Step td id x .walk { x with walk := .returned (.task u) } := by
      simp only [Step, Launch.step, walkStep, hu, if_pos ht]
    exact (Returns.of_returned rfl).step hs
  · have hs : Step td id x .walk { x with walk := .follow u } := by
      simp only [Step, Launch.step, walkStep, hu, if_neg ht]
    exact (h ht).step hs

/-- The search goes on with what the link field designates. -/
theorem returns_link {p : TaskPtr} (hp : x.tasklink (.task u) = p) (hv : x.visit p = .ok x')
    (h : Returns td id x') : Returns td id { x with walk := .follow u } := by
  have hw : Launch.visit { x with walk := .follow u } p = .ok x' := by
    rw [← hv]
    cases p <;> rfl
  exact h.step ((congrArg (Launch.visit _) hp).trans hw)

/-- The search comes to an end behind a task of the old list. -/
theorem Placed.returns_follow {l r : List TaskId} (h : Placed s td id (l ++ u :: r) x)
    (hr : Ready s id (l ++ u :: r)) : Returns td id { x with walk := .follow u } := by
  induction r generalizing l u with
  | nil =>
    rcases h.next hr with ⟨hp, -⟩ | ⟨hp, hu, -⟩ | ⟨v, r, hc, -⟩
    · exact returns_link hp rfl (.of_returned rfl)
    · exact returns_link hp rfl (returns_compare rfl fun hn ↦ absurd (h.linked hu).1 hn)
    · cases hc
  | cons v r ih =>
    rcases h.next hr with ⟨hp, -⟩ | ⟨hp, hu, -⟩ | ⟨v, r, hc, hp, -⟩
    · exact returns_link hp rfl (.of_returned rfl)
    · exact returns_link hp rfl (returns_compare rfl fun hn ↦ absurd (h.linked hu).1 hn)
    · cases hc
      rw [List.append_cons] at h hr
      exact returns_link hp rfl (returns_compare rfl fun _ ↦ ih h hr)

/-- The search comes to an end. -/
theorem Placed.returns (h : Placed s td id xs x) (hr : Ready s id xs) (hw : x.Walking) :
    Returns td id x := by
  obtain ⟨u, hu | hu⟩ := hw
  · apply returns_compare hu
    intro hn
    have hx : u ∈ xs := (h.compares u hu).resolve_right fun ⟨he, hl⟩ ↦
      hn (he ▸ (h.linked hl).1)
    obtain ⟨l, r, rfl⟩ := List.append_of_mem hx
    exact h.returns_follow hr
  · obtain ⟨l, r, rfl⟩ := List.append_of_mem (h.follows u hu)
    have hf := h.returns_follow hr
    rwa [← hu] at hf

/-- A new thread that is placed knows its task. -/
theorem Placed.known (h : Placed s td id xs x) (hr : Ready s id xs) : Known td id x where
  returns := h.returns hr
  found := h.found
  kept := h.kept

/-! ### One step -/

/-- A list with a task has a head. -/
theorem Placed.head_ne (h : Placed s td id xs x) (hr : Ready s id xs) : x.rqTaskHead ≠ .null := by
  rw [h.head]
  exact fun he ↦ hr.ne_nil (by simpa using hr.lists.head_null_iff.mp he)

/-- A list with a task has a tail. -/
theorem Ready.tail_ne (hr : Ready s id xs) : s.rqTaskTail ≠ .null := by
  obtain ⟨l, t, rfl⟩ := (List.eq_nil_or_concat' xs).resolve_left hr.ne_nil
  simp [Registry.ends_concat.mp hr.ends]

/-- While the new task is not linked, the search compares a task of the old list. -/
theorem Placed.compares_old (h : Placed s td id xs x) (hu : x.walk = .compare u)
    (hx : x.Unlinked) : u ∈ xs :=
  (h.compares u hu).resolve_right fun ⟨_, hn⟩ ↦ hn hx

/-- The next line of the creator. -/
theorem Placed.createStep (h : Placed s td id xs x) (hr : Ready s id xs)
    (hc : ¬ Premature td x .creator) (hs : x.createStep td id = .ok x') :
    Placed s td id xs x' := by
  have hhead := h.head
  have htail := h.tail
  have hlinks := h.links
  have hthread := h.thread
  cases hl : x.creator <;> simp only [Launch.createStep, hl] at hs <;>
    simp only [hl, tailAt, linksAt, threadAt] at htail hlinks hthread
  case create =>
    have hw := h.waits hl
    cases hs
    exact ⟨hhead, htail, hlinks, hthread, by simp, by simp, by simp, by simp, h.kept⟩
  case setThread =>
    cases hs
    exact ⟨hhead, htail, hlinks, by simp [hthread, threadAt], by simp,
      fun u hu ↦ .inl (h.compares_old hu (by simp [Unlinked, hl])), h.follows, h.found, h.kept⟩
  case setStatus =>
    cases hs
    refine ⟨hhead, htail, hlinks, hthread, by simp,
      fun u hu ↦ .inl (h.compares_old hu (by simp [Unlinked, hl])), h.follows, h.found, ?_⟩
    intro st hst
    by_contra hne
    exact hc (.inr ⟨st, rfl, hl, hst, Ne.symm hne⟩)
  case link =>
    rw [if_neg (h.head_ne hr), if_neg (htail ▸ hr.tail_ne)] at hs
    cases hs
    exact ⟨hhead, htail, by simp [hlinks, htail, linksAt], hthread, by simp,
      fun u hu ↦ .inl (h.compares_old hu (by simp [Unlinked, hl])), h.follows, h.found, h.kept⟩
  case setTail =>
    cases hs
    exact ⟨hhead, rfl, hlinks, hthread, by simp,
      fun u hu ↦ (h.compares u hu).imp_right fun he ↦ ⟨he.1, by simp [Unlinked]⟩,
      h.follows, h.found, h.kept⟩
  case clearLink =>
    cases hs
    exact ⟨hhead, htail, by simp [hlinks, linksAt], hthread, by simp,
      fun u hu ↦ (h.compares u hu).imp_right fun he ↦ ⟨he.1, by simp [Unlinked]⟩,
      h.follows, h.found, h.kept⟩
  case done => cases hs

/-- The new thread comes to a pointer. -/
theorem Placed.visit {p : TaskPtr} (h : Placed s td id xs x)
    (hp : ∃ u, p = .task u ∧ (u ∈ xs ∨ u = td ∧ ¬ x.Unlinked)) (hq : x.walk ≠ .none)
    (hs : x.visit p = .ok x') : Placed s td id xs x' := by
  obtain ⟨u, rfl, hu⟩ := hp
  cases hs
  refine ⟨h.head, h.tail, h.links, h.thread, fun hc ↦ absurd (h.waits hc) hq, ?_, by simp, by simp,
    h.kept⟩
  rintro v hv
  cases hv
  exact hu

/-- The next line of the new thread. -/
theorem Placed.walkStep (h : Placed s td id xs x) (hr : Ready s id xs)
    (hc : ¬ Premature td x .walk) (hs : x.walkStep id = .ok x') : Placed s td id xs x' := by
  cases hw : x.walk <;> simp only [Launch.walkStep, hw] at hs
  case compare u =>
    split at hs
    · rename_i ht
      have hu : u = td := (h.compares u hw).elim (fun hu ↦ h.eq_of_thread hr hu ht) And.left
      cases hs
      exact ⟨h.head, h.tail, h.links, h.thread, fun hc ↦ by simp [h.waits hc] at hw, by simp,
        by simp, by simp [hu], h.kept⟩
    · rename_i ht
      have hu : u ∈ xs := (h.compares u hw).resolve_right fun ⟨he, hl⟩ ↦
        ht (he ▸ (h.linked hl).1)
      cases hs
      exact ⟨h.head, h.tail, h.links, h.thread, fun hc ↦ by simp [h.waits hc] at hw, by simp,
        by simpa using hu, by simp, h.kept⟩
  case follow u =>
    obtain ⟨l, r, hx⟩ := List.append_of_mem (h.follows u hw)
    refine h.visit ?_ (by simp [hw]) hs
    subst hx
    rcases h.next hr with ⟨-, hu⟩ | ⟨hp, hu, -⟩ | ⟨v, r, rfl, hp, -⟩
    · exact absurd (.inl ⟨u, rfl, hw, hu⟩) hc
    · exact ⟨td, hp, .inr ⟨rfl, hu⟩⟩
    · exact ⟨v, hp, .inl (by simp)⟩
  all_goals cases hs

/-- A step that is not premature. -/
theorem Placed.step (h : Placed s td id xs x) (hr : Ready s id xs) (hc : ¬ Premature td x o)
    (hs : Step td id x o x') : Placed s td id xs x' := by
  cases o with
  | creator => exact h.createStep hr hc hs
  | walk => exact h.walkStep hr hc hs
  | activeTask =>
    obtain ⟨hw, hs⟩ := require_bind_eq_ok.mp hs
    refine h.visit ?_ (by simp [hw]) hs
    rw [h.head, hr.lists.head_eq]
    cases xs with
    | nil => exact absurd rfl hr.ne_nil
    | cons u xs => exact ⟨u, rfl, .inl (by simp)⟩
  | resume =>
    change x.resumeStep = .ok x' at hs
    unfold resumeStep at hs
    split at hs <;> cases hs
    rename_i p hw
    exact ⟨h.head, h.tail, h.links, h.thread, fun hc ↦ by simp [h.waits hc] at hw, by simp,
      by simp, by simp, h.kept⟩
  | setStatus st =>
    obtain ⟨hw, hs⟩ := require_bind_eq_ok.mp hs
    cases hs
    exact ⟨h.head, h.tail, h.links, h.thread, h.waits, h.compares, h.follows, h.found,
      fun st hst ↦ Option.some.inj hst⟩

/-- After a premature step, the new thread has found nothing, or its status is lost. -/
theorem Placed.premature (h : Placed s td id xs x) (hr : Ready s id xs) (hc : Premature td x o)
    (hs : Step td id x o x') : ¬ Known td id x' := by
  rcases hc with ⟨u, rfl, hw, hu⟩ | ⟨st, rfl, hl, hst, hne⟩
  · obtain ⟨l, r, hx⟩ := List.append_of_mem (h.follows u hw)
    have hs' : x.visit (x.tasklink (.task u)) = .ok x' := by
      simpa only [Step, Launch.step, Launch.walkStep, hw] using hs
    subst hx
    have hp : x.tasklink (.task u) = .null := by
      rcases h.next hr with ⟨hp, -⟩ | ⟨-, hn, hd⟩ | ⟨v, r, -, -, hn⟩
      · exact hp
      · exact absurd (hu.resolve_left fun hu ↦ hn hu.1) hd
      · exact absurd hu hn
    rw [hp] at hs'
    cases hs'
    exact fun hk ↦ by simpa using hk.found .null rfl
  · have hs' : x' = { x with status := running, creator := .link } := by
      simp only [Step, Launch.step, Launch.createStep, hl] at hs
      exact (Except.ok.inj hs).symm
    subst hs'
    exact fun hk ↦ hne (hk.kept st hst).symm

/-- In every run with new threads, the list is ready for another new one. -/
theorem Ready.of_run {root : Nat} {tr₀ : List (Registry × Registry.Call)}
    (h : Trace (Registry.Step .ycore) (Registry.start .ycore root) tr₀ s)
    (hf : Throughout (fun tr _ c ↦ c.Starts root (Registry.calls tr)) tr₀)
    (hid : id ∉ Registry.threads root (Registry.calls tr₀)) : ∃ xs, Ready s id xs := by
  obtain ⟨xs, hx⟩ := Registry.tidy_of_run h hf
  exact ⟨xs, hx.ne_nil, hx.lists, hx.ends, fun u hu he ↦ hid (he ▸ hx.issued u hu)⟩

/-- A task that is created after start-up is known to its own thread in exactly those runs in
which the new thread does not come to the end of the list before its creator has linked the
task, and has not set its status before its creator. -/
theorem launch_of_run {root : Nat} {tr₀ : List (Registry × Registry.Call)}
    (h : Trace (Registry.Step .ycore) (Registry.start .ycore root) tr₀ s)
    (hf : Throughout (fun tr _ c ↦ c.Starts root (Registry.calls tr)) tr₀)
    (hid : id ∉ Registry.threads root (Registry.calls tr₀))
    (hr : Trace (Step td id) (start s) tr x) :
    Always (fun _ x ↦ Known td id x) tr x ↔ Throughout (fun _ x o ↦ ¬ Premature td x o) tr := by
  obtain ⟨xs, h⟩ := Ready.of_run h hf hid
  refine hr.always_iff (J := fun _ x ↦ Placed s td id xs x) (H := fun _ _ _ ↦ True)
    (start_placed s td id xs) (fun _ _ _ _ ↦ trivial) ?_ (fun hJ ↦ hJ.known h) ?_
  · exact fun hJ _ hc hs ↦ hJ.step h hc hs
  · exact fun hJ _ hc hs ↦ hJ.premature h (not_not.mp hc) hs

/-- The new thread looks for its task at once, and its creator links the task while the new
thread is still at the root task. -/
theorem launch_of_run_linked : ∃ tr x,
    tr.map Prod.snd = [.creator, .activeTask, .creator, .walk, .creator, .creator, .walk, .walk,
      .resume, .setStatus waiting] ∧
    Trace (Step 5 50) (start (Registry.start .ycore 1)) tr x ∧
    Always (fun _ x ↦ Known 5 50 x) tr x := by
  have hs (x : Launch) (o : LaunchOp) (x' : Launch) (h : x.step 5 50 o = .ok x') :
      Step 5 50 x o x' := h
  have hr : Trace (Step 5 50) (start (Registry.start .ycore 1)) _ _ :=
    .snoc (.snoc (.snoc (.snoc (.snoc (.snoc (.snoc (.snoc (.snoc (.snoc .nil
      (hs _ .creator _ rfl)) (hs _ .activeTask _ rfl)) (hs _ .creator _ rfl))
      (hs _ .walk _ rfl)) (hs _ .creator _ rfl)) (hs _ .creator _ rfl)) (hs _ .walk _ rfl))
      (hs _ .walk _ rfl)) (hs _ .resume _ rfl)) (hs _ (.setStatus waiting) _ rfl)
  refine ⟨_, _, rfl, hr, (launch_of_run .nil throughout_nil (by decide) hr).mpr ?_⟩
  simp only [throughout_snoc]
  simp [throughout_nil, Premature, Unlinked, start, Registry.start]

/-- The new thread looks for its task at once and comes to the end of the list. -/
theorem launch_finds_nothing : ∃ tr x,
    50 ∉ Registry.threads 1 [] ∧ Trace (Step 5 50) (start (Registry.start .ycore 1)) tr x ∧
    tr.map Prod.snd = [.creator, .activeTask, .walk, .walk] ∧ x.walk = .returned .null := by
  obtain ⟨tr, x, hr, ho, hp⟩ := Trace.exists_of_foldlM (f := step 5 50)
    (s := start (Registry.start .ycore 1)) (l := [.creator, .activeTask, .walk, .walk])
    (p := fun x ↦ x.walk = .returned .null)
    (fun x o x' h ↦ (h : Step 5 50 x o x')) (by decide)
  exact ⟨tr, x, by decide, hr, ho, of_decide_eq_true hp⟩

end Launch

end YRmx
