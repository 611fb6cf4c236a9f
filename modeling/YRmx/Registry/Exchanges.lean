import YRmx.Core.Machine
import YRmx.Intrusive.Search
import YRmx.Transition.Always
import YRmx.Transition.History

/-!
# The list of all exchanges

Library `YRmx`. `reqcxch` initialises an exchange and appends it to the list from
`rq_exchange_head` through `exchange_link`, `reqdxch` takes an exchange out of the list if nothing
is queued there. Its search starts at the first exchange of the list and tests the link of each,
so that the first one is never found.
-/

namespace YRmx

open Transition Intrusive

/-! ### Names -/

/-- `EXCH_NAME_LEN`. -/
def exchNameLen : Nat := 6

/-- `char name[EXCH_NAME_LEN+1]`. -/
abbrev ExchName := Fin (exchNameLen + 1) → BitVec 8

/-- `memset(name,0,EXCH_NAME_LEN+1)`. -/
def clearName : ExchName := fun _ ↦ 0

/-- `memcpy(name,src,n)`; a string is given by its bytes, zeros come after them. -/
def copyName (name : ExchName) (src : List (BitVec 8)) (n : Nat) : ExchName :=
  fun i ↦ if i < n then src.getD i 0 else name i

/-- `strlen(name)`. -/
def strlen (name : List (BitVec 8)) : Nat := (name.takeWhile (· ≠ 0)).length

/-! ### The calls -/

/-- What an `EXCHANGE_LIST_PTR` of the list designates. -/
inductive ExchPtr where
  | null
  /-- `(void *)&rq_exchange_head`, which is no exchange -/
  | rqExchangeHead
  | exch (e : ExchId)
  deriving DecidableEq, Repr

/-- The nucleus with the list variables, the links of the list and the names. -/
structure Exchanges extends Nucleus where
  rqExchangeHead : ExchPtr
  rqExchangeTail : ExchPtr
  /-- the word at the offset of `exchange_link` from an address -/
  exchangeLink : ExchPtr → ExchPtr
  name : ExchId → ExchName

/-- The steps: system calls on the list, with the result of `reqdxch`, and anything else. -/
inductive ExchOp where
  | reqcxch (t : TaskId) (e : ExchId) (name : List (BitVec 8))
  | reqdxch (t : TaskId) (e : ExchId) (result : BitVec 32)
  | traffic (o : Op)
  deriving DecidableEq, Repr

namespace Exchanges

variable {s s' : Exchanges} {e : ExchId} {t : TaskId} {r : BitVec 32} {o : ExchOp} {fuel : Nat}
  {xs : List ExchId} {tr : List (Exchanges × ExchOp)}

/-- `ycore.c:765–772`. -/
def initExchange (s : Exchanges) (exch : ExchId) (name : List (BitVec 8)) : Exchanges :=
  let namelen := if strlen name > exchNameLen then exchNameLen else strlen name
  { s with
    word0 := Function.update s.word0 (.exch exch) .null
    word2 := Function.update s.word2 (.exch exch) .null
    word1 := Function.update s.word1 (.exch exch) (.exch exch)
    taskTail := Function.update s.taskTail exch (.exch exch)
    name := Function.update s.name exch (copyName clearName name namelen) }

/-- `ycore.c:760–785`. -/
def reqcxch (s : Exchanges) (exch : ExchId) (name : List (BitVec 8)) : Exec Exchanges := do
  let s := s.initExchange exch name
  let s ←
    if s.rqExchangeHead = .null then
      .ok { s with rqExchangeHead := .exch exch, rqExchangeTail := .exch exch }
    else if s.rqExchangeTail = .null then
      .error .fault
    else
      .ok { s with
        exchangeLink := Function.update s.exchangeLink s.rqExchangeTail (.exch exch)
        rqExchangeTail := .exch exch }
  .ok { s with
    exchangeLink := Function.update s.exchangeLink (.exch exch) .null
    mutex := Function.update s.mutex exch false }

/-- The loop `ycore.c:870–871`. -/
def findExchange (s : Exchanges) (exch : ExchId) : Nat → ExchPtr → Exec ExchPtr
  | 0, _ => .error .fuel
  | n + 1, prev =>
    if prev ≠ .null ∧ s.exchangeLink prev ≠ .exch exch then
      findExchange s exch n (s.exchangeLink prev)
    else .ok prev

/-- `ycore.c:872–878`, with the result. -/
def unlinkBehind (s : Exchanges) (prev : ExchPtr) : Exchanges × BitVec 32 :=
  if prev ≠ .null then
    let curr := s.exchangeLink prev
    ({ s with
      exchangeLink := Function.update s.exchangeLink prev (s.exchangeLink curr)
      rqExchangeTail := if s.rqExchangeTail = curr then prev else s.rqExchangeTail }, 0xff)
  else (s, 0)

/-- The test of `ycore.c:863`: no message and no task is queued. -/
def Idle (s : Exchanges) (exch : ExchId) : Prop :=
  s.messageHead exch = .null ∧ s.taskHead exch = .null

instance (s : Exchanges) (exch : ExchId) : Decidable (s.Idle exch) :=
  inferInstanceAs (Decidable (_ ∧ _))

/-- `ycore.c:862–879`. -/
def removeIdle (fuel : Nat) (s : Exchanges) (exch : ExchId) : Exec (Exchanges × BitVec 32) :=
  if s.Idle exch then do
    let prev ← s.findExchange exch fuel s.rqExchangeHead
    .ok (s.unlinkBehind prev)
  else .ok (s, 0)

/-- `ycore.c:855–882` up to `exit_region`. -/
def reqdxch (fuel : Nat) (s : Exchanges) (rqactv : TaskId) (exch : ExchId) :
    Exec (Exchanges × BitVec 32) := do
  let (s, result) ← s.removeIdle fuel exch
  .ok ({ s with toControl := s.toControl.goto rqactv (.exitRegion (.reqdxch exch)) }, result)

/-- One step. -/
def Step (s : Exchanges) : ExchOp → Exchanges → Prop
  | .reqcxch t e name, s' => s.pc t = .user ∧ s.reqcxch e name = .ok s'
  | .reqdxch t e r, s' => s.pc t = .user ∧ ∃ fuel, s.reqdxch fuel t e = .ok (s', r)
  | .traffic o, s' => ∃ n, YRmx.Step s.toNucleus o n ∧ s' = { s with toNucleus := n }

/-! ### The exchanges that are there -/

/-- The created and not yet removed exchanges after one more step. -/
def after (s : Exchanges) (xs : List ExchId) : ExchOp → List ExchId
  | .reqcxch _ e _ => xs ++ [e]
  | .reqdxch _ e _ => if s.Idle e then xs.erase e else xs
  | .traffic _ => xs

/-- The created and not yet removed exchanges in creation order. -/
def listed (tr : List (Exchanges × ExchOp)) : List ExchId :=
  tr.foldl (fun xs x ↦ x.1.after xs x.2) []

/-- One more step. -/
theorem listed_snoc : listed (tr ++ [(s, o)]) = s.after (listed tr) o := by
  simp [listed]

/-- The list from `rq_exchange_head` through `exchange_link` up to `NULL`. -/
abbrev Lists (s : Exchanges) (xs : List ExchId) : Prop :=
  Headed s.exchangeLink .null s.rqExchangeHead (xs.map .exch)

/-- `rq_exchange_tail` designates the last exchange, if there is one. -/
abbrev Ends (s : Exchanges) (xs : List ExchId) : Prop := EndsAt s.rqExchangeTail (xs.map .exch)

/-- Every `reqdxch` so far returned non-zero exactly if the exchange was in the list and idle. -/
def Answers (tr : List (Exchanges × ExchOp)) : Prop :=
  ∀ a m t e r b, tr = a ++ (m, .reqdxch t e r) :: b → (r ≠ 0 ↔ e ∈ listed a ∧ m.Idle e)

/-- The list holds the created and not yet removed exchanges in creation order, each `reqdxch`
gave the right answer, and the next system call returns. -/
structure Intact (tr : List (Exchanges × ExchOp)) (s : Exchanges) : Prop where
  lists : s.Lists (listed tr)
  ends : s.Ends (listed tr)
  answers : Answers tr
  creates : ∀ t e name, s.pc t = .user → e ∉ listed tr → ∃ s', Step s (.reqcxch t e name) s'
  removes : ∀ t e, s.pc t = .user → ∃ r s', Step s (.reqdxch t e r) s'

/-- `reqcxch` is applied to no exchange of the list. -/
def Fresh (xs : List ExchId) (o : ExchOp) : Prop := ∀ t e name, o = .reqcxch t e name → e ∉ xs

/-- `reqdxch` is called for the first exchange of the list, and it is idle. -/
def RemovesFirst (s : Exchanges) (xs : List ExchId) (o : ExchOp) : Prop :=
  ∃ t e r l, o = .reqdxch t e r ∧ xs = e :: l ∧ s.Idle e

/-! ### Creation and removal -/

/-- An exchange is listed as a pointer to it. -/
theorem mem_ptrs : ExchPtr.exch e ∈ xs.map .exch ↔ e ∈ xs := by
  simp

/-- A list holds no exchange twice. -/
theorem Lists.nodup (h : s.Lists xs) : xs.Nodup := List.Nodup.of_map _ (Headed.nodup h)

/-- The loop of `reqdxch` looks for the exchange in front of another one. -/
theorem findExchange_searches (s : Exchanges) (e : ExchId) :
    Searches s.exchangeLink .null (.exch e) (s.findExchange e) where
  zero _ _ h := by cases h
  next n p hp hl := by rw [findExchange, if_pos ⟨hp, hl⟩]
  stop n p h := by
    rw [findExchange, if_neg]
    rintro ⟨hp, hl⟩
    exact h.elim hp hl

/-- What `reqcxch` does to the list. -/
theorem Lists.reqcxch {name : List (BitVec 8)} (h : s.Lists xs) (he : s.Ends xs) (hn : e ∉ xs)
    (hs : s.reqcxch e name = .ok s') : s'.Lists (xs ++ [e]) ∧ s'.Ends (xs ++ [e]) := by
  have ha := h.append he (mem_ptrs.not.mpr hn) (by simp)
  rw [Lists, Ends, List.map_append]
  unfold Exchanges.reqcxch at hs
  dsimp only [initExchange] at hs
  by_cases hh : s.rqExchangeHead = .null
  · rw [if_pos hh] at hs
    cases hs
    rw [if_pos hh, if_pos hh] at ha
    exact ⟨ha, endsAt_concat.mpr rfl⟩
  · rw [if_neg hh] at hs
    rw [if_neg hh, if_neg hh] at ha
    split at hs
    · cases hs
    · cases hs
      exact ⟨ha, endsAt_concat.mpr rfl⟩

/-- `reqcxch` returns while the tail is right. -/
theorem Lists.reqcxch_ok (h : s.Lists xs) (he : s.Ends xs) (e : ExchId)
    (name : List (BitVec 8)) : ∃ s', s.reqcxch e name = .ok s' := by
  unfold Exchanges.reqcxch
  dsimp only [initExchange]
  by_cases hh : s.rqExchangeHead = .null
  · rw [if_pos hh]
    exact ⟨_, rfl⟩
  · have ht : s.rqExchangeTail ≠ .null := by
      rcases List.eq_nil_or_concat' xs with rfl | ⟨l, x, rfl⟩
      · exact absurd (h.head_null_iff.mpr rfl) hh
      · rw [Ends, List.map_append] at he
        rw [endsAt_concat.mp he]
        simp
    rw [if_neg hh, if_neg ht]
    exact ⟨_, rfl⟩

/-- What `reqcxch` does beside the list. -/
theorem reqcxch_fields {name : List (BitVec 8)} (hs : s.reqcxch e name = .ok s') :
    s'.toNucleus = { (s.initExchange e name).toNucleus with
      mutex := Function.update s.mutex e false } ∧
    s'.name = (s.initExchange e name).name := by
  unfold Exchanges.reqcxch at hs
  dsimp only at hs
  split at hs
  · cases hs
    exact ⟨rfl, rfl⟩
  · split at hs
    · cases hs
    · cases hs
      exact ⟨rfl, rfl⟩

/-- `reqcxch` initialises the exchange and leaves the others alone. -/
theorem reqcxch_initialised {name : List (BitVec 8)} (hs : s.reqcxch e name = .ok s') {x : ExchId}
    (hx : x = e ∨ Initialised s.toNucleus x) : Initialised s'.toNucleus x := by
  rw [(reqcxch_fields hs).1]
  by_cases he : x = e
  · subst he
    constructor <;> simp [initExchange]
  · have hi := hx.resolve_left he
    constructor
    · simpa [initExchange, he] using hi.messageHead
    · simpa [initExchange, he] using hi.messageTail
    · simpa [initExchange, he] using hi.taskHead
    · simpa [initExchange, he] using hi.taskTail
    · simpa [he] using hi.mutex

/-- An exchange behind another one is unlinked. -/
theorem Lists.removeIdle_mem (h : s.Lists xs) (he : s.Ends xs) (hi : s.Idle e)
    (hm : e ∈ xs.tail) :
    ∃ s', Yields (fun n ↦ s.removeIdle n e) (s', 0xff) ∧ s'.toNucleus = s.toNucleus ∧
      s'.Lists (xs.erase e) ∧ s'.Ends (xs.erase e) := by
  obtain ⟨l, p, r, rfl⟩ := exists_pred hm
  rw [Lists, List.map_append, List.map_cons, List.map_cons] at h
  rw [Ends, List.map_append, List.map_cons, List.map_cons] at he
  have hlink : s.exchangeLink (.exch p) = .exch e := h.link_eq
  have hnd : (l ++ p :: e :: r).erase e = l ++ p :: r := by
    have h' : s.Lists ((l ++ [p]) ++ e :: r) := by simpa [Lists] using h
    have hd : e ∉ l ++ [p] := fun hx ↦
      (List.nodup_append.mp h'.nodup).2.2 e hx e (by simp) rfl
    rw [show l ++ p :: e :: r = (l ++ [p]) ++ e :: r by simp, List.erase_append_right _ hd,
      List.erase_cons_head]
    simp
  refine ⟨(s.unlinkBehind (.exch p)).1, ?_, rfl, ?_, ?_⟩
  · have hy := (s.findExchange_searches e).pred h
    refine (hy.bind (g := fun _ prev ↦ .ok (s.unlinkBehind prev)) (Yields.const _)).congr
      fun n ↦ ?_
    rw [removeIdle, if_pos hi]
  · rw [hnd, Lists, List.map_append, List.map_cons]
    have hr := h.remove
    rw [← hlink] at hr
    exact hr
  · rw [hnd, Ends, List.map_append, List.map_cons]
    have hr := h.endsAt_remove he
    rw [← hlink] at hr
    exact hr

/-- The first exchange of the list and one that is not in it are not found. -/
theorem Lists.removeIdle_not_mem (h : s.Lists xs) (hm : e ∉ xs.tail) :
    Yields (fun n ↦ s.removeIdle n e) (s, 0) := by
  by_cases hi : s.Idle e
  · have hm' : ExchPtr.exch e ∉ (xs.map ExchPtr.exch).tail := by
      rw [← List.map_tail]
      exact mem_ptrs.not.mpr hm
    have hy := (s.findExchange_searches e).off h (by simp) hm'
    refine (hy.bind (g := fun _ prev ↦ .ok (s.unlinkBehind prev)) (Yields.const (s, 0))).congr
      fun n ↦ ?_
    rw [removeIdle, if_pos hi]
  · apply (Yields.const (s, 0)).congr
    intro n
    rw [removeIdle, if_neg hi]

/-- An exchange with a queue is left alone. -/
theorem removeIdle_of_not_idle (hi : ¬ s.Idle e) : s.removeIdle fuel e = .ok (s, 0) := by
  rw [removeIdle, if_neg hi]

/-- More turns of the loop remove the same exchange. -/
theorem removeIdle_mono (s : Exchanges) (e : ExchId) : FuelMono fun n ↦ s.removeIdle n e := by
  refine FuelMono.ite _ ?_ (FuelMono.const _)
  exact ((s.findExchange_searches e).mono _).bind fun _ ↦ FuelMono.const _

/-- What `reqdxch` does: it removes an idle exchange that stands behind another one, and leaves
the list alone else. -/
theorem Lists.reqdxch_cases (h : s.Lists xs) (he : s.Ends xs)
    (hs : s.reqdxch fuel t e = .ok (s', r)) :
    (s.Idle e ∧ e ∈ xs.tail ∧ r = 0xff ∧ s'.Lists (xs.erase e) ∧ s'.Ends (xs.erase e)) ∨
    (¬ (s.Idle e ∧ e ∈ xs.tail) ∧ r = 0 ∧ s'.Lists xs ∧ s'.Ends xs) := by
  obtain ⟨⟨s₁, r₁⟩, h₁, hs⟩ := Exec.bind_eq_ok.mp hs
  cases hs
  have hy : Yields (fun n ↦ s.removeIdle n e) (s₁, r) := (s.removeIdle_mono e).yields h₁
  by_cases hi : s.Idle e
  · by_cases hm : e ∈ xs.tail
    · obtain ⟨s₂, hy₂, -, hl, hends⟩ := h.removeIdle_mem he hi hm
      cases hy.unique hy₂
      exact .inl ⟨hi, hm, rfl, hl, hends⟩
    · cases hy.unique (h.removeIdle_not_mem hm)
      exact .inr ⟨fun hx ↦ hm hx.2, rfl, h, he⟩
  · cases (removeIdle_of_not_idle hi).symm.trans h₁
    exact .inr ⟨fun hx ↦ hi hx.1, rfl, h, he⟩

/-- `reqdxch` returns. -/
theorem Lists.reqdxch_ok (h : s.Lists xs) (he : s.Ends xs) (t : TaskId) (e : ExchId) :
    ∃ fuel s' r, s.reqdxch fuel t e = .ok (s', r) := by
  have hy : ∃ v, Yields (fun n ↦ s.removeIdle n e) v := by
    by_cases hm : e ∈ xs.tail
    · by_cases hi : s.Idle e
      · obtain ⟨s', hy, -⟩ := h.removeIdle_mem he hi hm
        exact ⟨_, hy⟩
      · exact ⟨_, (Yields.const (s, 0)).congr fun n ↦ removeIdle_of_not_idle hi⟩
    · exact ⟨_, h.removeIdle_not_mem hm⟩
  obtain ⟨⟨s₁, r⟩, N, hN⟩ := hy
  have hN : s.removeIdle N e = .ok (s₁, r) := hN N le_rfl
  refine ⟨N, { s₁ with toControl := s₁.toControl.goto t (.exitRegion (.reqdxch e)) }, r, ?_⟩
  rw [Exchanges.reqdxch, hN]
  rfl

/-! ### Runs -/

/-- What the steps keep. -/
structure Kept (tr : List (Exchanges × ExchOp)) (s : Exchanges) : Prop where
  lists : s.Lists (listed tr)
  ends : s.Ends (listed tr)
  answers : Answers tr

/-- The next system call returns. -/
theorem Kept.intact (h : Kept tr s) : Intact tr s where
  lists := h.lists
  ends := h.ends
  answers := h.answers
  creates t e name hp _ := by
    obtain ⟨s', hs⟩ := h.lists.reqcxch_ok h.ends e name
    exact ⟨s', hp, hs⟩
  removes t e hp := by
    obtain ⟨fuel, s', r, hs⟩ := h.lists.reqdxch_ok h.ends t e
    exact ⟨r, s', hp, fuel, hs⟩

/-- One more step, with the right answer if it is `reqdxch`. -/
theorem Answers.snoc (h : Answers tr)
    (ho : ∀ t e r, o = .reqdxch t e r → (r ≠ 0 ↔ e ∈ listed tr ∧ s.Idle e)) :
    Answers (tr ++ [(s, o)]) := by
  intro a m t e r b heq
  rcases snoc_eq_append_cons.mp heq with ⟨rfl, hx, -⟩ | ⟨b', -, rfl⟩
  · cases hx
    exact ho t e r rfl
  · exact h a m t e r b' rfl

/-- Steps that do not call `reqdxch` for the first exchange keep the list. -/
theorem Kept.step (h : Kept tr s) (hf : Fresh (listed tr) o)
    (hc : ¬ s.RemovesFirst (listed tr) o) (hs : Step s o s') : Kept (tr ++ [(s, o)]) s' := by
  cases o with
  | reqcxch t e name =>
    obtain ⟨-, hs⟩ := hs
    obtain ⟨hl, he⟩ := h.lists.reqcxch h.ends (hf t e name rfl) hs
    refine ⟨?_, ?_, h.answers.snoc (by simp)⟩
    · rwa [listed_snoc]
    · rwa [listed_snoc]
  | reqdxch t e r =>
    obtain ⟨-, fuel, hs⟩ := hs
    -- an idle exchange of the list stands behind another one
    have hmem : s.Idle e → (e ∈ listed tr ↔ e ∈ (listed tr).tail) := by
      intro hi
      refine ⟨fun hm ↦ ?_, List.mem_of_mem_tail⟩
      cases hx : listed tr with
      | nil =>
        rw [hx] at hm
        cases hm
      | cons x l =>
        rw [hx] at hm
        rcases List.mem_cons.mp hm with rfl | hm
        · exact absurd ⟨t, e, r, l, rfl, hx, hi⟩ hc
        · exact hm
    rcases h.lists.reqdxch_cases h.ends hs with ⟨hi, hm, rfl, hl, he⟩ | ⟨hn, rfl, hl, he⟩
    · have ha : s.after (listed tr) (.reqdxch t e 0xff) = (listed tr).erase e := if_pos hi
      refine ⟨?_, ?_, h.answers.snoc ?_⟩
      · rwa [listed_snoc, ha]
      · rwa [listed_snoc, ha]
      · rintro _ _ _ ⟨⟩
        exact ⟨fun _ ↦ ⟨List.mem_of_mem_tail hm, hi⟩, fun _ ↦ by decide⟩
    · have hne : ¬ (e ∈ listed tr ∧ s.Idle e) := fun hx ↦ hn ⟨hx.2, (hmem hx.2).mp hx.1⟩
      have ha : s.after (listed tr) (.reqdxch t e 0) = listed tr := by
        by_cases hi : s.Idle e
        · exact (if_pos hi).trans (List.erase_of_not_mem fun hm ↦ hne ⟨hm, hi⟩)
        · exact if_neg hi
      refine ⟨?_, ?_, h.answers.snoc ?_⟩
      · rwa [listed_snoc, ha]
      · rwa [listed_snoc, ha]
      · rintro _ _ _ ⟨⟩
        exact ⟨fun h0 ↦ absurd rfl h0, fun hx ↦ absurd hx hne⟩
  | traffic o =>
    obtain ⟨n, -, rfl⟩ := hs
    refine ⟨?_, ?_, h.answers.snoc (by simp)⟩
    · rw [listed_snoc]
      exact h.lists
    · rw [listed_snoc]
      exact h.ends

/-- The first exchange of the list is not removed. -/
theorem Kept.removesFirst (h : Kept tr s) (hc : s.RemovesFirst (listed tr) o)
    (hs : Step s o s') : ¬ Answers (tr ++ [(s, o)]) := by
  obtain ⟨t, e, r, l, rfl, hx, hi⟩ := hc
  obtain ⟨-, fuel, hs⟩ := hs
  intro ha
  have hr : r ≠ 0 := (ha tr s t e r [] rfl).mpr ⟨by simp [hx], hi⟩
  rcases h.lists.reqdxch_cases h.ends hs with ⟨-, hm, -⟩ | ⟨-, h0, -⟩
  · have hd := h.lists.nodup
    rw [hx] at hm hd
    exact (List.nodup_cons.mp hd).1 hm
  · exact hr h0

/-- From the empty list, the exchange list holds the created and not yet removed exchanges in
creation order, and `reqdxch` answers rightly, in exactly those runs in which it is never called
for the first exchange of the list while nothing is queued there. -/
theorem exchangeList_of_run {s₀ : Exchanges} (h₀ : s₀.rqExchangeHead = .null)
    (hr : Trace Step s₀ tr s) (hf : Throughout (fun tr _ o ↦ Fresh (listed tr) o) tr) :
    Always Intact tr s ↔
      Throughout (fun tr s o ↦ ¬ s.RemovesFirst (listed tr) o) tr := by
  refine hr.always_iff (J := Kept) ?_ hf (fun h hf hc hs ↦ h.step hf hc hs) Kept.intact ?_
  · exact ⟨Headed.nil h₀, endsAt_nil, fun a m t e r b heq ↦ by simp at heq⟩
  · intro tr m o n h _ hc hs hP
    exact h.removesFirst (not_not.mp hc) hs hP.answers

/-- A booted nucleus with an empty exchange list. -/
def empty : Exchanges where
  toNucleus := boot
  rqExchangeHead := .null
  rqExchangeTail := .rqExchangeHead
  exchangeLink _ := .null
  name _ := clearName

/-- One step as a computation. -/
def run (s : Exchanges) : ExchOp → Exec Exchanges
  | .reqcxch t e name => do
    require (s.pc t = .user)
    s.reqcxch e name
  | .reqdxch t e r => do
    require (s.pc t = .user)
    let (s, r') ← s.reqdxch 9 t e
    require (r = r')
    .ok s
  | .traffic o => do
    let n ← step 9 s.toNucleus o
    .ok { s with toNucleus := n }

/-- A computed step is a step. -/
theorem step_of_run (h : s.run o = .ok s') : Step s o s' := by
  cases o with
  | reqcxch t e name => exact require_bind_eq_ok.mp h
  | reqdxch t e r =>
    obtain ⟨hp, h⟩ := require_bind_eq_ok.mp h
    obtain ⟨⟨s₁, r'⟩, h₁, h⟩ := Exec.bind_eq_ok.mp h
    obtain ⟨hr, h⟩ := require_bind_eq_ok.mp h
    cases h
    exact ⟨hp, 9, hr ▸ h₁⟩
  | traffic o =>
    obtain ⟨n, hn, h⟩ := Exec.bind_eq_ok.mp h
    cases h
    exact ⟨n, ⟨9, hn⟩, rfl⟩

/-- The test that the steps of a run avoid what breaks the list. -/
def avoids (tr : List (Exchanges × ExchOp)) (s : Exchanges) : ExchOp → Bool
  | .reqcxch _ e _ => e ∉ listed tr
  | .reqdxch _ e _ => (listed tr).head? ≠ some e ∨ ¬ s.Idle e
  | .traffic _ => true

/-- A step that passes the test is admissible. -/
theorem of_avoids (h : avoids tr s o = true) :
    Fresh (listed tr) o ∧ ¬ s.RemovesFirst (listed tr) o := by
  constructor
  · rintro t e name rfl
    exact of_decide_eq_true h
  · rintro ⟨t, e, r, l, rfl, hx, hi⟩
    rcases of_decide_eq_true h with hn | hn
    · exact hn (by simp [hx])
    · exact hn hi

/-- Of three exchanges the last one has a message queued and stays, the middle one is removed,
created again and removed again. -/
theorem exchangeList_of_run_middle : ∃ tr s, Trace Step empty tr s ∧
    tr.map Prod.snd = [.reqcxch 3 7 [], .reqcxch 3 8 [], .reqcxch 3 9 [],
      .traffic (.reqcmsg 3 0 24 0), .traffic (.reqsend 3 9 (.user 0)), .reqdxch 4 9 0,
      .reqdxch 5 8 0xff, .reqcxch 3 8 [], .reqdxch 6 8 0xff] ∧
    Always Intact tr s ∧ listed tr = [7, 9] := by
  obtain ⟨tr, s, hr, hos, hq, hp⟩ := Trace.exists_of_traced (s := empty) (f := run)
    (r := Stop.blocked) (q := avoids) (p := fun x ↦ listed x.1 = [7, 9])
    (l := [.reqcxch 3 7 [], .reqcxch 3 8 [], .reqcxch 3 9 [],
      .traffic (.reqcmsg 3 0 24 0), .traffic (.reqsend 3 9 (.user 0)), .reqdxch 4 9 0,
      .reqdxch 5 8 0xff, .reqcxch 3 8 [], .reqdxch 6 8 0xff])
    (fun _ _ _ h ↦ step_of_run h) (fun _ _ _ h ↦ of_avoids h) (by decide +kernel)
  have hi := (exchangeList_of_run rfl hr fun a x b hx ↦ (hq a x b hx).1).mpr
    fun a x b hx ↦ (hq a x b hx).2
  exact ⟨tr, s, hr, hos, hi, of_decide_eq_true hp⟩

/-- The only exchange of the list is not in use, but is not removed. -/
theorem reqdxch_keeps_first : ∃ tr s, Trace Step empty tr s ∧
    tr.map Prod.snd = [.reqcxch 3 7 [], .reqdxch 4 7 0] ∧
    Throughout (fun tr _ o ↦ Fresh (listed tr) o) tr ∧
    s.Idle 7 ∧ s.rqExchangeHead = .exch 7 ∧ ¬ Answers tr := by
  refine ⟨[] ++ [_] ++ [_], _, .snoc (.snoc .nil (step_of_run (o := .reqcxch 3 7 []) rfl))
    (step_of_run (o := .reqdxch 4 7 0) rfl), rfl, ?_, ⟨rfl, rfl⟩, rfl, fun ha ↦ ?_⟩
  · simp only [throughout_snoc]
    refine ⟨⟨throughout_nil, ?_⟩, ?_⟩ <;> rintro _ _ _ ⟨⟩
    simp [listed]
  · exact (ha [_] _ 4 7 0 [] rfl).mpr ⟨by simp [listed, after], rfl, rfl⟩ rfl

end Exchanges

end YRmx
