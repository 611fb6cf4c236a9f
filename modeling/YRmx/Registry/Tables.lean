import YRmx.Registry.Exchanges
import YRmx.Registry.TaskList

/-!
# The tables of `reqstart`

Library `YRmx`. `reqstart` copies the user's tables into `initial_task_table` and
`initial_exchange_table`, and creates what is in them. It enters `rq_delay_exchange` in front of
the user's exchanges, into a table with as many entries as the user may have exchanges.
-/

namespace YRmx

open Transition Intrusive

/-! ### Strings -/

/-- A byte is in front of the end of a string if no byte up to it is zero. -/
theorem lt_strlen {l : List (BitVec 8)} {i : Nat} :
    i < strlen l ↔ i < l.length ∧ ∀ j ≤ i, l.getD j 0 ≠ 0 := by
  induction l generalizing i with
  | nil => simp [strlen]
  | cons a l ih =>
    by_cases ha : a = 0#8
    · have hz : strlen (a :: l) = 0 := by simp [strlen, ha]
      rw [hz]
      refine ⟨fun h ↦ absurd h (Nat.not_lt_zero i), fun h ↦ ?_⟩
      exact absurd ha (h.2 0 (Nat.zero_le i))
    · have hs : strlen (a :: l) = strlen l + 1 := by
        rw [strlen, List.takeWhile_cons_of_pos (by simpa using ha), List.length_cons]
        rfl
      rw [hs]
      cases i with
      | zero => simp [ha]
      | succ i =>
        rw [Nat.succ_lt_succ_iff, ih, List.length_cons, Nat.succ_lt_succ_iff]
        refine and_congr_right fun _ ↦ ⟨fun h j hj ↦ ?_, fun h j hj ↦ ?_⟩
        · cases j with
          | zero => simpa using ha
          | succ j => simpa using h j (by omega)
        · simpa using h (j + 1) (by omega)

/-- The first `EXCH_NAME_LEN` bytes of a name up to the first zero byte, and zeros. -/
def ownName (name : ExchName) : ExchName :=
  fun i ↦ if i < exchNameLen ∧ ∀ j ≤ i, name j ≠ 0 then name i else 0

/-- The bytes of an array. -/
theorem getD_ofFn (name : ExchName) (i : Fin (exchNameLen + 1)) :
    (List.ofFn name).getD i 0 = name i := by
  rw [List.getD_eq_getElem?_getD, List.getElem?_ofFn, dif_pos i.isLt]
  rfl

/-- The copy of a name in a buffer of zeros. -/
theorem copyName_ofFn (name : ExchName) (i : Fin (exchNameLen + 1)) :
    copyName clearName (List.ofFn name) exchNameLen i =
      if i < exchNameLen then name i else 0 := by
  unfold copyName
  rw [getD_ofFn]
  rfl

/-- A name that is copied out, and back in after it was cleared. -/
theorem copyName_back (name : ExchName) {src : List (BitVec 8)}
    (hsrc : src = List.ofFn (copyName clearName (List.ofFn name) exchNameLen)) :
    copyName clearName src (if strlen src > exchNameLen then exchNameLen else strlen src) =
      ownName name := by
  have hget : ∀ i : Fin (exchNameLen + 1),
      src.getD i 0 = if i < exchNameLen then name i else 0 := by
    intro i
    rw [hsrc, getD_ofFn, copyName_ofFn]
  have hlen : src.length = exchNameLen + 1 := by simp [hsrc]
  -- the last byte of the buffer ends the string
  have hle : ¬ strlen src > exchNameLen := by
    intro h
    have hlast := (lt_strlen.mp h).2 exchNameLen le_rfl
    exact hlast (hget ⟨exchNameLen, Nat.lt_succ_self _⟩)
  rw [if_neg hle]
  ext i
  have hiff : i < strlen src ↔ i < exchNameLen ∧ ∀ j ≤ i, name j ≠ 0 := by
    rw [lt_strlen, hlen]
    constructor
    · rintro ⟨-, h⟩
      have hi : i < exchNameLen := by
        have hi := h i le_rfl
        rw [hget i] at hi
        by_contra hn
        exact hi (if_neg hn)
      refine ⟨hi, fun j hj ↦ ?_⟩
      have hji : j.val ≤ i.val := hj
      have hj' := h j hji
      rwa [hget j, if_pos (lt_of_le_of_lt hji hi)] at hj'
    · rintro ⟨hi, h⟩
      refine ⟨i.isLt, fun j hj ↦ ?_⟩
      have hj' := hget ⟨j, lt_of_le_of_lt hj i.isLt⟩
      rw [if_pos (lt_of_le_of_lt hj hi)] at hj'
      rw [hj']
      exact h _ hj
  unfold copyName ownName
  by_cases hi : i < strlen src
  · rw [if_pos hi, if_pos (hiff.mp hi), hget i, if_pos (hiff.mp hi).1]
  · rw [if_neg hi, if_neg (hiff.not.mp hi)]
    rfl

/-! ### `reqstart` -/

/-- `MAX_TASK`. -/
def maxTask : Nat := 256

/-- `MAX_EXCH`. -/
def maxExch : Nat := 256

/-- Static task descriptors. -/
abbrev StdId := Nat

/-- What `reqctsk` reads of a static task descriptor. -/
structure Std where
  exchange : Addr
  task : TaskId
  deriving DecidableEq, Repr

/-- `rqtimerStd`. -/
def rqtimerStd : Std := ⟨.null, rqtimerTd⟩

/-- `rqdelaytaskStd`. -/
def rqdelaytaskStd : Std := ⟨.null, rqdelaytaskTd⟩

/-- The lists of exchanges and tasks, and the tables. -/
structure Tables extends Exchanges, Registry where
  initialTaskTable : Fin maxTask → Option StdId
  initialExchangeTable : Fin maxExch → Option ExchId

namespace Tables

variable {s s' s₀ : Tables} {e : ExchId} {j : Nat} {x : Option ExchId}
  {itt : List (Option StdId)} {iet xs : List (Option ExchId)} {ts : List (Option StdId)}
  {std : StdId → Std} {made : Nat → Option Nat}

/-- `initial_exchange_table[j] = an_exch`. -/
def storeExchange (s : Tables) (j : Nat) (an_exch : Option ExchId) : Exec Tables :=
  if h : j < maxExch then
    .ok { s with
      initialExchangeTable := Function.update s.initialExchangeTable ⟨j, h⟩ an_exch }
  else .error .fault

/-- `initial_task_table[i] = a_task`. -/
def storeTask (s : Tables) (i : Nat) (a_task : Option StdId) : Exec Tables :=
  if h : i < maxTask then
    .ok { s with initialTaskTable := Function.update s.initialTaskTable ⟨i, h⟩ a_task }
  else .error .fault

/-- `ycore.c:1454–1456,1464–1466`: the exchange is created under its own name. -/
def create (s : Tables) (an_exch : ExchId) : Exec Tables := do
  let name := copyName clearName (List.ofFn (s.name an_exch)) exchNameLen
  let l ← s.toExchanges.reqcxch an_exch (List.ofFn name)
  .ok { s with toExchanges := l }

/-- One pass of the loop `ycore.c:1460–1468`. -/
def enter (s : Tables) (j : Nat) (an_exch : Option ExchId) : Exec Tables := do
  let s ← s.storeExchange j an_exch
  match an_exch with
  | none => .ok s
  | some e => s.create e

/-- The loop `ycore.c:1460–1468` from `iet[i]` and `initial_exchange_table[j]` on. -/
def exchangeLoop (s : Tables) (j : Nat) : List (Option ExchId) → Exec Tables
  | [] => .ok s
  | an_exch :: iet => do
    let s ← s.enter j an_exch
    exchangeLoop s (j + 1) iet

/-- `ycore.c:660–752`: the descriptor is initialised and registered. `pthread_create` returns a
thread or ends the program. -/
def reqctsk (s : Tables) (std : Std) (made : Option Nat) : Exec Tables := do
  let r ← s.toRegistry.reqctsk .ycore std.task made
  .ok { s with
    toRegistry := r
    exchange := Function.update s.exchange std.task std.exchange
    sema := Function.update s.sema std.task 0
    status := Function.update s.status std.task running }

/-- The loop `ycore.c:1478–1484` from `itt[i]` on, after `k` threads were created. -/
def taskLoop (std : StdId → Std) (made : Nat → Option Nat) (s : Tables) (i k : Nat) :
    List (Option StdId) → Exec Tables
  | [] => .ok s
  | a_task :: itt => do
    let s ← s.storeTask i a_task
    match a_task with
    | none => taskLoop std made s (i + 1) k itt
    | some a => do
      let s ← s.reqctsk (std a) (made k)
      taskLoop std made s (i + 1) (k + 1) itt

/-- `ycore.c:1421–1446`: the root task, the delay list and the time-out message. -/
def initLists (s : Tables) (root : Nat) : Tables :=
  { s with
    rqTaskHead := .task rootTaskTd
    rqTaskTail := .task rootTaskTd
    thread := Function.update s.thread rootTaskTd root
    status := Function.update s.status rootTaskTd running
    word0 := Function.update (Function.update (Function.update s.word0
      .delayHead .delayTail) .delayTail .delayHead) (.msg .timeOut) .null
    word1 := Function.update (Function.update s.word1 .delayHead .delayTail)
      .delayTail .delayHead
    word2 := Function.update (Function.update (Function.update s.word2
      (.task rootTaskTd) .null) .delayHead .null) .delayTail .null
    delay := Function.update (Function.update s.delay .delayHead 0) .delayTail 0xFFFF
    length := Function.update s.length .timeOut timeOutLength
    type := Function.update s.type .timeOut timeoutType }

/-- `rq_delay_exchange.link = (void *)&rq_delay_exchange.link`. -/
def selfLink (s : Tables) : Tables :=
  { s with
    word0 := Function.update s.word0 (.msg (.interrupt rqDelayExchange))
      (.msg (.interrupt rqDelayExchange)) }

/-- `ycore.c:1421–1494` in the thread `root`; the `k`-th thread is `made k`. -/
def reqstart (std : StdId → Std) (made : Nat → Option Nat) (root : Nat) (s : Tables)
    (itt : List (Option StdId)) (iet : List (Option ExchId)) : Exec Tables := do
  let s := s.initLists root
  let s ← s.storeExchange 0 (some rqDelayExchange)
  let s ← s.create rqDelayExchange
  let s ← s.selfLink.exchangeLoop 1 iet
  let s ← s.reqctsk rqtimerStd (made 0)
  let s ← s.reqctsk rqdelaytaskStd (made 1)
  taskLoop std made s 0 2 itt

/-- The tables hold these entries, and the exchange list holds the exchanges among them, each
with empty queues and under the name that it had. -/
structure Filled (s₀ s : Tables) (xs : List (Option ExchId)) (ts : List (Option StdId)) :
    Prop where
  exchangeTable : ∀ j x, xs[j]? = some x → ∃ h, s.initialExchangeTable ⟨j, h⟩ = x
  taskTable : ∀ i t, ts[i]? = some t → ∃ h, s.initialTaskTable ⟨i, h⟩ = t
  lists : s.toExchanges.Lists (xs.filterMap id)
  ends : s.toExchanges.Ends (xs.filterMap id)
  initialised : ∀ e ∈ xs.filterMap id, Initialised s.toNucleus e
  name : ∀ e ∈ xs.filterMap id, s.name e = ownName (s₀.name e)

/-- What the steps of `reqstart` keep. -/
structure Written (s₀ s : Tables) (xs : List (Option ExchId)) (ts : List (Option StdId)) : Prop
    extends Filled s₀ s xs ts where
  others : ∀ e, e ∉ xs.filterMap id → s.name e = s₀.name e
  taskTail_ne : s.rqTaskTail ≠ .null

/-! ### Exchanges -/

/-- What a table of a given size holds after one more entry. -/
theorem snoc_entries {α : Type} {n : Nat} {tab : Fin n → α} {l : List α} {a : α}
    (h : ∀ j x, l[j]? = some x → ∃ hj, tab ⟨j, hj⟩ = x) (hl : l.length < n) :
    ∀ j x, (l ++ [a])[j]? = some x →
      ∃ hj, Function.update tab ⟨l.length, hl⟩ a ⟨j, hj⟩ = x := by
  intro j x hx
  rcases Nat.lt_or_ge j l.length with hj | hj
  · rw [List.getElem?_append_left hj] at hx
    obtain ⟨hjn, hx⟩ := h j x hx
    refine ⟨hjn, ?_⟩
    rw [Function.update_of_ne (by simp [Fin.ext_iff, Nat.ne_of_lt hj]), hx]
  · rw [List.getElem?_append_right hj] at hx
    have hj0 : j = l.length := by
      by_contra hne
      have hpos : j - l.length ≠ 0 := by omega
      obtain ⟨k, hk⟩ := Nat.exists_eq_succ_of_ne_zero hpos
      rw [hk] at hx
      simp at hx
    subst hj0
    refine ⟨hl, ?_⟩
    rw [Function.update_self]
    simpa using hx

/-- One more entry, which is NULL or an exchange that is not there yet. -/
theorem Written.enter (h : Written s₀ s xs ts) (hl : xs.length < maxExch)
    (hx : ∀ e ∈ x, e ∉ xs.filterMap id) :
    ∃ s', s.enter xs.length x = .ok s' ∧ Written s₀ s' (xs ++ [x]) ts := by
  have htable := snoc_entries (a := x) h.exchangeTable hl
  unfold Tables.enter storeExchange
  rw [dif_pos hl, Exec.ok_bind]
  cases x with
  | none =>
    have hid : (xs ++ [none]).filterMap id = xs.filterMap id := by simp
    refine ⟨_, rfl, ⟨htable, h.taskTable, ?_, ?_, ?_, ?_⟩, ?_, h.taskTail_ne⟩
    · rw [hid]
      exact h.lists
    · rw [hid]
      exact h.ends
    · rw [hid]
      exact h.initialised
    · rw [hid]
      exact h.name
    · rw [hid]
      exact h.others
  | some e =>
    have hid : (xs ++ [some e]).filterMap id = xs.filterMap id ++ [e] := by simp
    have hn : e ∉ xs.filterMap id := hx e rfl
    unfold create
    dsimp only
    generalize hsrc : List.ofFn (copyName clearName (List.ofFn (s.name e)) exchNameLen) = src
    obtain ⟨l, hs⟩ := h.lists.reqcxch_ok h.ends e src
    obtain ⟨hlists, hends⟩ := h.lists.reqcxch h.ends hn hs
    have hname : l.name = Function.update s.name e (ownName (s.name e)) := by
      rw [(Exchanges.reqcxch_fields hs).2, ← copyName_back (s.name e) hsrc.symm]
      rfl
    have hs' : Exchanges.reqcxch { s with
        initialExchangeTable := Function.update s.initialExchangeTable ⟨xs.length, hl⟩ (some e)
        }.toExchanges e src = .ok l := hs
    rw [hs']
    refine ⟨_, rfl, ⟨htable, h.taskTable, ?_, ?_, ?_, ?_⟩, ?_, h.taskTail_ne⟩
    · rw [hid]
      exact hlists
    · rw [hid]
      exact hends
    · intro e' he'
      rw [hid, List.mem_append, List.mem_singleton] at he'
      exact Exchanges.reqcxch_initialised hs (he'.symm.imp_right (h.initialised e'))
    · intro e' he'
      rw [hid, List.mem_append, List.mem_singleton] at he'
      show l.name e' = _
      rw [hname]
      rcases he' with he' | rfl
      · rw [Function.update_of_ne (ne_of_mem_of_not_mem he' hn), h.name e' he']
      · rw [Function.update_self, h.others e' hn]
    · intro e' he'
      rw [hid, List.mem_append, List.mem_singleton, not_or] at he'
      show l.name e' = _
      rw [hname, Function.update_of_ne he'.2, h.others e' he'.1]

/-- The loop over the user's exchanges, as long as the table has room. -/
theorem Written.exchangeLoop (h : Written s₀ s xs ts) (iet : List (Option ExchId))
    (hl : xs.length + iet.length ≤ maxExch)
    (hx : ((xs ++ iet).filterMap id).Nodup) :
    ∃ s', s.exchangeLoop xs.length iet = .ok s' ∧ Written s₀ s' (xs ++ iet) ts := by
  induction iet generalizing s xs with
  | nil => exact ⟨s, rfl, by simpa using h⟩
  | cons x iet ih =>
    rw [List.length_cons] at hl
    have hfresh : ∀ e ∈ x, e ∉ xs.filterMap id := by
      rintro e rfl hm
      rw [List.filterMap_append] at hx
      exact (List.nodup_append.mp hx).2.2 e hm e (by simp) rfl
    obtain ⟨s₁, hs₁, h₁⟩ := h.enter (by omega) hfresh
    obtain ⟨s', hs', h'⟩ := ih h₁ (by simp; omega) (by rw [List.append_assoc]; exact hx)
    refine ⟨s', ?_, by simpa using h'⟩
    rw [Tables.exchangeLoop, hs₁, Exec.ok_bind]
    simpa using hs'

/-- The loop comes to its end only if the table has room. -/
theorem exchangeLoop_room (hs : s.exchangeLoop j iet = .ok s') :
    iet = [] ∨ j + iet.length ≤ maxExch := by
  induction iet generalizing s j with
  | nil => exact .inl rfl
  | cons x iet ih =>
    obtain ⟨s₁, hs₁, hs⟩ := Exec.bind_eq_ok.mp hs
    right
    rcases ih hs with rfl | hr
    · obtain ⟨s₂, hs₂, -⟩ := Exec.bind_eq_ok.mp hs₁
      unfold storeExchange at hs₂
      split at hs₂
      · rename_i hj
        exact hj
      · cases hs₂
    · rw [List.length_cons]
      omega

/-- The loop writes behind the end of a table that has no room. -/
theorem Written.exchangeLoop_fault (h : Written s₀ s xs ts) (iet : List (Option ExchId))
    (hl : xs.length ≤ maxExch)
    (hroom : maxExch < xs.length + iet.length) (hx : ((xs ++ iet).filterMap id).Nodup) :
    s.exchangeLoop xs.length iet = .error .fault := by
  induction iet generalizing s xs with
  | nil =>
    rw [List.length_nil] at hroom
    omega
  | cons x iet ih =>
    rw [List.length_cons] at hroom
    rw [Tables.exchangeLoop]
    by_cases hlt : xs.length < maxExch
    · have hfresh : ∀ e ∈ x, e ∉ xs.filterMap id := by
        rintro e rfl hm
        rw [List.filterMap_append] at hx
        exact (List.nodup_append.mp hx).2.2 e hm e (by simp) rfl
      obtain ⟨s₁, hs₁, h₁⟩ := h.enter hlt hfresh
      have hr := ih h₁ (by simp; omega) (by simp; omega) (by rw [List.append_assoc]; exact hx)
      rw [hs₁, Exec.ok_bind]
      simpa using hr
    · rw [Tables.enter, storeExchange, dif_neg hlt]
      rfl

/-- The message of the delay exchange is linked to itself. -/
theorem Written.selfLink (h : Written s₀ s xs ts) : Written s₀ s.selfLink xs ts where
  exchangeTable := h.exchangeTable
  taskTable := h.taskTable
  lists := h.lists
  ends := h.ends
  initialised e he := by
    have hi := h.initialised e he
    refine ⟨?_, hi.messageTail, hi.taskHead, hi.taskTail, hi.mutex⟩
    simpa [Tables.selfLink] using hi.messageHead
  name := h.name
  others := h.others
  taskTail_ne := h.taskTail_ne

/-! ### Tasks -/

/-- A task is created. -/
theorem Written.reqctsk {m : Option Nat} (h : Written s₀ s xs ts) (std : Std)
    (hm : m.isSome) : ∃ s', s.reqctsk std m = .ok s' ∧ Written s₀ s' xs ts := by
  obtain ⟨id, rfl⟩ := Option.isSome_iff_exists.mp hm
  have hr : ∃ r, s.toRegistry.reqctsk .ycore std.task (some id) = .ok r ∧ r.rqTaskTail ≠ .null := by
    rw [Registry.reqctsk, if_neg (by decide)]
    by_cases hh : s.rqTaskHead = .null
    · exact ⟨_, Registry.append_of_null hh, by simp⟩
    · exact ⟨_, Registry.append_of_tail hh rfl h.taskTail_ne, by simp⟩
  obtain ⟨r, hr, htail⟩ := hr
  refine ⟨{ s with
    toRegistry := r
    exchange := Function.update s.exchange std.task std.exchange
    sema := Function.update s.sema std.task 0
    status := Function.update s.status std.task running }, by rw [Tables.reqctsk, hr]; rfl,
    ⟨h.exchangeTable, h.taskTable, h.lists, h.ends, fun e he ↦ ?_, h.name⟩, h.others, htail⟩
  have hi := h.initialised e he
  exact ⟨hi.messageHead, hi.messageTail, hi.taskHead, hi.taskTail, hi.mutex⟩

/-- The loop over the user's tasks. -/
theorem Written.taskLoop (h : Written s₀ s xs ts) (std : StdId → Std) (k : Nat)
    (itt : List (Option StdId)) (hl : ts.length + itt.length ≤ maxTask)
    (hm : ∀ k, (made k).isSome) :
    ∃ s', taskLoop std made s ts.length k itt = .ok s' ∧ Written s₀ s' xs (ts ++ itt) := by
  induction itt generalizing s ts k with
  | nil => exact ⟨s, rfl, by simpa using h⟩
  | cons t itt ih =>
    rw [List.length_cons] at hl
    have hlt : ts.length < maxTask := by omega
    have h₁ : Written s₀ { s with
        initialTaskTable := Function.update s.initialTaskTable ⟨ts.length, hlt⟩ t }
        xs (ts ++ [t]) :=
      ⟨⟨h.exchangeTable, snoc_entries h.taskTable hlt, h.lists, h.ends, h.initialised, h.name⟩,
        h.others, h.taskTail_ne⟩
    unfold Tables.taskLoop storeTask
    rw [dif_pos hlt, Exec.ok_bind]
    cases t with
    | none =>
      obtain ⟨s', hs', h'⟩ := ih h₁ k (by simp; omega)
      exact ⟨s', by simpa using hs', by simpa using h'⟩
    | some a =>
      obtain ⟨s₂, hs₂, h₂⟩ := h₁.reqctsk (std a) (hm k)
      obtain ⟨s', hs', h'⟩ := ih h₂ (k + 1) (by simp; omega)
      refine ⟨s', ?_, by simpa using h'⟩
      dsimp only
      rw [hs₂, Exec.ok_bind]
      simpa using hs'

/-! ### The whole of `reqstart` -/

/-- Nothing is entered yet. -/
theorem written_initLists (h₀ : s.rqExchangeHead = .null) (root : Nat) :
    Written s (s.initLists root) [] [] where
  exchangeTable j x hx := by simp at hx
  taskTable i t ht := by simp at ht
  lists := Headed.nil h₀
  ends := endsAt_nil
  initialised e he := by simp at he
  name e he := by simp at he
  others _ _ := rfl
  taskTail_ne := by simp [initLists]

/-- `reqstart` enters the delay exchange and goes on with the user's exchanges. -/
theorem reqstart_eq (h₀ : s.rqExchangeHead = .null) (std : StdId → Std) (made : Nat → Option Nat)
    (root : Nat) (itt : List (Option StdId)) (iet : List (Option ExchId)) :
    ∃ s₁, Written s s₁ [some rqDelayExchange] [] ∧ s.reqstart std made root itt iet = (do
      let s ← s₁.exchangeLoop 1 iet
      let s ← s.reqctsk rqtimerStd (made 0)
      let s ← s.reqctsk rqdelaytaskStd (made 1)
      taskLoop std made s 0 2 itt) := by
  obtain ⟨s₁, hs₁, h₁⟩ := (written_initLists h₀ root).enter (x := some rqDelayExchange)
    (by decide) (by simp)
  refine ⟨s₁.selfLink, h₁.selfLink, ?_⟩
  obtain ⟨s₂, hs₂, hc⟩ := Exec.bind_eq_ok.mp hs₁
  have hs₂ : (s.initLists root).storeExchange 0 (some rqDelayExchange) = .ok s₂ := hs₂
  have hc : s₂.create rqDelayExchange = .ok s₁ := hc
  unfold reqstart
  dsimp only
  rw [hs₂, Exec.ok_bind, hc, Exec.ok_bind]

/-- From an empty exchange list, `reqstart` writes inside its tables and leaves them and the list
as they should be if and only if there is room for the delay exchange, which the user's table
does not hold itself. -/
theorem reqstart_iff (h₀ : s.rqExchangeHead = .null) (std : StdId → Std)
    (made : Nat → Option Nat) (root : Nat) (itt : List (Option StdId)) (iet : List (Option ExchId))
    (ht : itt.length ≤ maxTask) (he : iet.length ≤ maxExch) (hx : (iet.filterMap id).Nodup)
    (hm : ∀ k, (made k).isSome) :
    (∃ s', s.reqstart std made root itt iet = .ok s' ∧
        Filled s s' (some rqDelayExchange :: iet) itt) ↔
      iet.length < maxExch ∧ some rqDelayExchange ∉ iet := by
  obtain ⟨s₁, h₁, hstart⟩ := reqstart_eq h₀ std made root itt iet
  rw [hstart]
  constructor
  · rintro ⟨s', hs', hf⟩
    obtain ⟨s₂, hs₂, -⟩ := Exec.bind_eq_ok.mp hs'
    refine ⟨?_, fun hmem ↦ ?_⟩
    · rcases exchangeLoop_room hs₂ with rfl | hr
      · decide
      · omega
    · have hd : (rqDelayExchange :: iet.filterMap id).Nodup := hf.lists.nodup
      exact (List.nodup_cons.mp hd).1 (by simpa using hmem)
  · rintro ⟨hroom, hmem⟩
    obtain ⟨s₂, hs₂, h₂⟩ := h₁.exchangeLoop iet (by simp; omega)
      (by simpa using ⟨by simpa using hmem, hx⟩)
    obtain ⟨s₃, hs₃, h₃⟩ := h₂.reqctsk rqtimerStd (hm 0)
    obtain ⟨s₄, hs₄, h₄⟩ := h₃.reqctsk rqdelaytaskStd (hm 1)
    obtain ⟨s', hs', h'⟩ := h₄.taskLoop std 2 itt (by simpa using ht) hm
    refine ⟨s', ?_, by simpa using h'.toFilled⟩
    have hs₂ : s₁.exchangeLoop 1 iet = .ok s₂ := hs₂
    have hs' : taskLoop std made s₄ 0 2 itt = .ok s' := hs'
    rw [hs₂, Exec.ok_bind, hs₃, Exec.ok_bind, hs₄, Exec.ok_bind, hs']

/-- The tables before `reqstart`, with the name that `ycore.c:209` gives to the delay exchange,
and descriptors whose tasks have their own numbers. -/
def fresh : Tables where
  toExchanges := { Exchanges.empty with
    name := Function.update Exchanges.empty.name rqDelayExchange
      (copyName clearName [0x44, 0x45, 0x4C, 0x59, 0x45, 0x58] exchNameLen) }
  toRegistry := Registry.start .yalrt 0
  initialTaskTable _ := none
  initialExchangeTable _ := none

/-- Two exchanges and one task, with NULL entries between them. -/
theorem reqstart_iff_nulls : ∃ s', fresh.reqstart (fun a ↦ ⟨.null, a⟩) (fun k ↦ some (k + 2)) 1
      [none, some 5] [some 7, none, some 8] = .ok s' ∧
    Filled fresh s' [some rqDelayExchange, some 7, none, some 8] [none, some 5] ∧
    s'.initialExchangeTable ⟨2, by decide⟩ = none ∧
    s'.initialTaskTable ⟨1, by decide⟩ = some 5 := by
  obtain ⟨s', hs', hf⟩ := (reqstart_iff (s := fresh) rfl (fun a ↦ ⟨.null, a⟩)
    (fun k ↦ some (k + 2)) 1 [none, some 5] [some 7, none, some 8] (by decide) (by decide)
      (by decide) (by simp)).mpr
    (by decide)
  exact ⟨s', hs', hf, (hf.exchangeTable 2 _ rfl).2, (hf.taskTable 1 _ rfl).2⟩

/-- With as many exchanges as the user may have, the last one is written behind the end of
`initial_exchange_table`. -/
theorem reqstart_overflows : ((List.range maxExch).map fun k ↦ some (k + 1)).length = maxExch ∧
    fresh.reqstart (fun a ↦ ⟨.null, a⟩) (fun k ↦ some (k + 2)) 1 []
      ((List.range maxExch).map fun k ↦ some (k + 1)) = .error .fault := by
  have hid : ((List.range maxExch).map fun k ↦ some (k + 1)).filterMap id =
      (List.range maxExch).map (· + 1) := by
    rw [List.filterMap_map]
    exact congrFun List.filterMap_eq_map (List.range maxExch)
  obtain ⟨s₁, h₁, hstart⟩ := reqstart_eq (s := fresh) rfl (fun a ↦ ⟨.null, a⟩)
    (fun k ↦ some (k + 2)) 1 [] ((List.range maxExch).map fun k ↦ some (k + 1))
  have hl := h₁.exchangeLoop_fault ((List.range maxExch).map fun k ↦ some (k + 1))
    (by decide) (by simp) ?_
  · refine ⟨by simp, ?_⟩
    have hl : s₁.exchangeLoop 1 ((List.range maxExch).map fun k ↦ some (k + 1)) =
        .error .fault := hl
    rw [hstart, hl]
    rfl
  · rw [List.filterMap_append, hid]
    refine List.nodup_append.mpr ⟨by simp, ?_, ?_⟩
    · exact List.nodup_range.map fun a b h ↦ Nat.succ.inj h
    · intro a ha b hb
      have ha : a = rqDelayExchange := by simpa using ha
      obtain ⟨k, -, rfl⟩ := List.mem_map.mp hb
      rw [ha]
      exact (Nat.succ_ne_zero k).symm

end Tables

end YRmx
