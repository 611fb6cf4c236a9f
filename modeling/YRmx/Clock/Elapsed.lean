import YRmx.Clock.Timespec

/-!
# The milliseconds since `StartTime`

Library `YRmx`. `reqsystime` subtracts seconds and nanoseconds separately and lets C round the
quotient of the nanoseconds towards 0, while `Ts2Ms` of `tsSubtract` borrows a second first. The
first rounds up when the nanoseconds have fallen since `StartTime`.
-/

namespace YRmx

open Timespec

variable {c : Times} {now a b : Timespec}

/-- The complete milliseconds since `StartTime`. -/
def Times.elapsed (c : Times) (now : Timespec) : Int := (now.ns - c.startTime.ns) / 1000000

/-- The nanoseconds within the second have not fallen since `StartTime`, unless by complete
milliseconds: no part of a millisecond is borrowed from the seconds. -/
def Times.BorrowsWhole (c : Times) (now : Timespec) : Prop :=
  c.startTime.tvNsec ≤ now.tvNsec ∨
    1000000 ∣ c.startTime.tvNsec.toInt - now.tvNsec.toInt

/-- Rounding towards 0 is rounding down, or one more. -/
theorem tdiv_million (n : Int) :
    n.tdiv 1000000 = n / 1000000 + if 0 ≤ n ∨ 1000000 ∣ n then 0 else 1 := by
  rw [Int.tdiv_eq_ediv]
  rfl

/-- `Ts2Ms` of `tsSubtract` counts the complete milliseconds. -/
theorem ts2Ms_tsSubtract (ha : a.Normalised) (hb : b.Normalised) (h : b.ns ≤ a.ns) :
    ((ts2Ms (tsSubtract a b)).toNat : Int) = (a.ns - b.ns) / 1000000 % 2 ^ 32 := by
  obtain ⟨hn, k, hs⟩ := tsSubtract_wrap ha hb
  rw [ts2Ms_toNat hn, hs]
  omega

/-- `reqsystime` counts one millisecond too many if a part of one is borrowed. -/
theorem reqsystime_spec (hs : c.startTime.Normalised) (hn : now.Normalised) :
    (c.BorrowsWhole now → ((reqsystime c now).2.toNat : Int) = c.elapsed now % 2 ^ 32) ∧
      (¬ c.BorrowsWhole now →
        ((reqsystime c now).2.toNat : Int) = (c.elapsed now + 1) % 2 ^ 32) := by
  have hsl := hs.nonneg
  have hsu := hs.lt
  have hnl := hn.nonneg
  have hnu := hn.lt
  have hd := toInt_sub_of_fits (x := now.tvNsec) (y := c.startTime.tvNsec) (by omega) (by omega)
  rw [reqsystime_toNat, hd, tdiv_million, Times.elapsed, ns, ns, Times.BorrowsWhole,
    Int64.le_iff_toInt_le]
  constructor
  · intro he
    rw [if_pos (by omega)]
    omega
  · intro he
    rw [if_neg (by omega)]
    omega

/-- For normalised times `StartTime ≤ CurrTime`, `reqsystime` agrees with `Ts2Ms` of `tsSubtract`
and counts the complete milliseconds, modulo `2 ^ 32`, exactly when the nanoseconds within the
second have not fallen, or have fallen by complete milliseconds. -/
theorem reqsystime_iff (hs : c.startTime.Normalised) (hn : now.Normalised)
    (h : c.startTime.ns ≤ now.ns) :
    (reqsystime c now).2 = ts2Ms (tsSubtract now c.startTime) ∧
        ((reqsystime c now).2.toNat : Int) = c.elapsed now % 2 ^ 32 ↔ c.BorrowsWhole now := by
  have ht := ts2Ms_tsSubtract hn hs h
  obtain ⟨he, hne⟩ := reqsystime_spec hs hn
  constructor
  · rintro ⟨-, hq⟩
    by_contra hc
    have hq' := hne hc
    omega
  · intro hc
    have hq := he hc
    refine ⟨UInt32.toNat_inj.mp ?_, hq⟩
    rw [Times.elapsed] at hq
    omega

/-- A quarter of a second after a start at 1.75 seconds. -/
theorem reqsystime_iff_quarter :
    (⟨⟨1, 750000000⟩, ⟨0, 0⟩⟩ : Times).BorrowsWhole ⟨2, 0⟩ ∧
      (reqsystime ⟨⟨1, 750000000⟩, ⟨0, 0⟩⟩ ⟨2, 0⟩).2 =
        ts2Ms (tsSubtract ⟨2, 0⟩ ⟨1, 750000000⟩) := by
  have he : (⟨⟨1, 750000000⟩, ⟨0, 0⟩⟩ : Times).BorrowsWhole ⟨2, 0⟩ := .inr (by decide)
  exact ⟨he, ((reqsystime_iff ⟨by decide, by decide⟩ ⟨by decide, by decide⟩ (by decide)).mpr he).1⟩

/-- A nanosecond after a start just before the end of a second, one millisecond is counted. -/
theorem reqsystime_counts_early : ∃ c now,
    c.startTime.Normalised ∧ now.Normalised ∧ c.startTime.ns ≤ now.ns ∧
    c.elapsed now = 0 ∧ ts2Ms (tsSubtract now c.startTime) = 0 ∧ (reqsystime c now).2 = 1 :=
  ⟨⟨⟨0, 999999999⟩, ⟨0, 0⟩⟩, ⟨1, 0⟩, ⟨by decide, by decide⟩, ⟨by decide, by decide⟩,
    by decide, by decide, by decide, by decide⟩

end YRmx
