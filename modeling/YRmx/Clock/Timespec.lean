import Mathlib.Data.Int.Basic
import Mathlib.Tactic.Linarith

/-!
# Times in seconds and nanoseconds

Library `YRmx`. The arithmetic of `struct timespec` in `ycore.c:247–325`, on the 64-bit `long`
of its two fields. A normalised time stands for its number of nanoseconds, and the functions of
the code are compared with the operations on these numbers.
-/

namespace YRmx

/-- `struct timespec`. -/
@[ext] structure Timespec where
  tvSec : Int64
  tvNsec : Int64
  deriving DecidableEq, Repr

/-- The conversion of a `long` to `unsigned int`. -/
def unsigned (x : Int64) : UInt32 := x.toUInt64.toUInt32

/-- The conversion of an `unsigned int` to `long`. -/
def long (x : UInt32) : Int64 := x.toUInt64.toInt64

/-- `ycore.c:247–249`. -/
def ts2Ms (ts : Timespec) : UInt32 := unsigned (ts.tvSec * 1000 + ts.tvNsec / 1000000)

/-- `ycore.c:251–256`. -/
def ms2Ts (t : UInt32) : Timespec where
  tvSec := long (t / 1000)
  tvNsec := long (t % 1000 * 1000000)

/-- `ycore.c:258–268`. -/
def tsAdd (time1 time2 : Timespec) : Timespec :=
  let result : Timespec := ⟨time1.tvSec + time2.tvSec, time1.tvNsec + time2.tvNsec⟩
  if 1000000000 ≤ result.tvNsec then ⟨result.tvSec + 1, result.tvNsec - 1000000000⟩
  else result

/-- `ycore.c:270–293`. -/
def tsSubtract (time1 time2 : Timespec) : Timespec :=
  if time1.tvSec < time2.tvSec ∨ time1.tvSec = time2.tvSec ∧ time1.tvNsec ≤ time2.tvNsec then
    ⟨0, 0⟩
  else if time1.tvNsec < time2.tvNsec then
    ⟨time1.tvSec - time2.tvSec - 1, time1.tvNsec + 1000000000 - time2.tvNsec⟩
  else ⟨time1.tvSec - time2.tvSec, time1.tvNsec - time2.tvNsec⟩

/-- `ycore.c:313–325`. -/
def tsCompare (time1 time2 : Timespec) : Int :=
  if time1.tvSec < time2.tvSec then -1
  else if time2.tvSec < time1.tvSec then 1
  else if time1.tvNsec < time2.tvNsec then -1
  else if time2.tvNsec < time1.tvNsec then 1
  else 0

/-- The variables `StartTime` and `CurrTime`. -/
structure Times where
  startTime : Timespec
  currTime : Timespec

/-- `ycore.c:333–337`, when `curr_time()` returns `now`. -/
def reqsystime (c : Times) (now : Timespec) : Times × UInt32 :=
  let c := { c with currTime := now }
  (c, unsigned ((c.currTime.tvSec - c.startTime.tvSec) * 1000 +
    (c.currTime.tvNsec - c.startTime.tvNsec) / 1000000))

/-! ### What a time stands for -/

/-- The nanoseconds of a time. -/
def Timespec.ns (t : Timespec) : Int := t.tvSec.toInt * 1000000000 + t.tvNsec.toInt

/-- The field of the nanoseconds makes up less than a second. -/
structure Timespec.Normalised (t : Timespec) : Prop where
  nonneg : 0 ≤ t.tvNsec.toInt
  lt : t.tvNsec.toInt < 1000000000

/-- The numbers of nanoseconds that have a time with `tv_sec` in its range. -/
def nsLimit : Int := 2 ^ 63 * 1000000000

section words

variable {x y : Int64}

/-- A sum that fits is exact. -/
theorem toInt_add_of_fits (hl : -2 ^ 63 ≤ x.toInt + y.toInt) (hu : x.toInt + y.toInt < 2 ^ 63) :
    (x + y).toInt = x.toInt + y.toInt := by
  rw [Int64.toInt_add]
  exact Int.bmod_eq_of_le hl hu

/-- A difference that fits is exact. -/
theorem toInt_sub_of_fits (hl : -2 ^ 63 ≤ x.toInt - y.toInt) (hu : x.toInt - y.toInt < 2 ^ 63) :
    (x - y).toInt = x.toInt - y.toInt := by
  rw [Int64.toInt_sub]
  exact Int.bmod_eq_of_le hl hu

/-- An `unsigned int` keeps a number modulo `2 ^ 32`. -/
theorem unsigned_toNat (x : Int64) : ((unsigned x).toNat : Int) = x.toInt % 2 ^ 32 := by
  have hx : x.toInt = (x.toUInt64.toNat : Int).bmod (2 ^ 64) :=
    BitVec.toInt_eq_toNat_bmod x.toBitVec
  have hd : (2 ^ 32 : Int) ∣ ((2 ^ 64 : Nat) : Int) := by decide
  rw [unsigned, UInt64.toNat_toUInt32, hx, ← Int.emod_emod_of_dvd _ hd, Int.bmod_emod,
    Int.emod_emod_of_dvd _ hd, Int.natCast_emod]
  rfl

/-- A `long` has room for every `unsigned int`. -/
theorem long_toInt (x : UInt32) : (long x).toInt = x.toNat := by
  have hx : (long x).toInt = (x.toUInt64.toNat : Int).bmod (2 ^ 64) :=
    BitVec.toInt_eq_toNat_bmod x.toUInt64.toBitVec
  have hlt := x.toNat_lt
  rw [hx, UInt32.toNat_toUInt64]
  exact Int.bmod_eq_of_le (by omega) (by omega)

/-- A sum is exact modulo `2 ^ 64`. -/
theorem toInt_add_emod (x y : Int64) : (x + y).toInt % 2 ^ 64 = (x.toInt + y.toInt) % 2 ^ 64 := by
  rw [Int64.toInt_add]
  exact Int.bmod_emod

/-- A difference is exact modulo `2 ^ 64`. -/
theorem toInt_sub_emod (x y : Int64) : (x - y).toInt % 2 ^ 64 = (x.toInt - y.toInt) % 2 ^ 64 := by
  rw [Int64.toInt_sub]
  exact Int.bmod_emod

/-- A difference is exact up to a multiple of `2 ^ 64`. -/
theorem exists_toInt_sub (x y : Int64) : ∃ k, (x - y).toInt = x.toInt - y.toInt + k * 2 ^ 64 := by
  have h := toInt_sub_emod x y
  exact ⟨(x - y).toInt / 2 ^ 64 - (x.toInt - y.toInt) / 2 ^ 64, by omega⟩

/-- A product is exact modulo `2 ^ 64`. -/
theorem toInt_mul_emod (x y : Int64) : (x * y).toInt % 2 ^ 64 = x.toInt * y.toInt % 2 ^ 64 := by
  rw [Int64.toInt_mul]
  exact Int.bmod_emod

/-- The milliseconds of a second. -/
theorem toInt_thousand : (1000 : Int64).toInt = 1000 := Int64.toInt_ofNat_of_lt (by decide)

/-- The nanoseconds of a millisecond. -/
theorem toInt_million : (1000000 : Int64).toInt = 1000000 :=
  Int64.toInt_ofNat_of_lt (by decide)

/-- The nanoseconds of a second. -/
theorem toInt_second : (1000000000 : Int64).toInt = 1000000000 :=
  Int64.toInt_ofNat_of_lt (by decide)

/-- A difference of nanoseconds that borrows a second. -/
theorem toInt_borrow {c : Int64} (hc : c.toInt = 1000000000) (hx : 0 ≤ x.toInt)
    (hxy : x.toInt < y.toInt) (hy : y.toInt < 1000000000) :
    (x + c - y).toInt = x.toInt + 1000000000 - y.toInt := by
  have hn := toInt_add_of_fits (x := x) (y := c) (by omega) (by omega)
  rw [hc] at hn
  rw [toInt_sub_of_fits (by omega) (by omega), hn]

end words

namespace Timespec

variable {a b : Timespec}

/-- A normalised time is known by its nanoseconds. -/
theorem Normalised.ext (ha : a.Normalised) (hb : b.Normalised) (h : a.ns = b.ns) : a = b := by
  have hal := ha.nonneg
  have hau := ha.lt
  have hbl := hb.nonneg
  have hbu := hb.lt
  rw [ns, ns] at h
  apply Timespec.ext
  · apply Int64.toInt_inj.mp
    omega
  · apply Int64.toInt_inj.mp
    omega

/-- A normalised time is below the limit. -/
theorem ns_lt (a : Timespec) (ha : a.Normalised) : a.ns < nsLimit := by
  have h := a.tvSec.toInt_lt
  have hu := ha.lt
  rw [ns, nsLimit]
  omega

/-- A normalised time is not below the negative limit. -/
theorem le_ns (a : Timespec) (ha : a.Normalised) : -nsLimit ≤ a.ns := by
  have h := a.tvSec.le_toInt
  have hl := ha.nonneg
  rw [ns, nsLimit]
  omega

end Timespec

open Timespec

variable {a b : Timespec}

/-! ### The functions on times -/

/-- The comparison of normalised times gives the sign of their difference. -/
theorem tsCompare_eq (ha : a.Normalised) (hb : b.Normalised) :
    tsCompare a b = Int.sign (a.ns - b.ns) := by
  have hal := ha.nonneg
  have hau := ha.lt
  have hbl := hb.nonneg
  have hbu := hb.lt
  rw [tsCompare]
  simp only [Int64.lt_iff_toInt_lt, ns]
  split
  · rw [Int.sign_eq_neg_one_of_neg]
    omega
  · split
    · rw [Int.sign_eq_one_of_pos]
      omega
    · split
      · rw [Int.sign_eq_neg_one_of_neg]
        omega
      · split
        · rw [Int.sign_eq_one_of_pos]
          omega
        · rw [Int.sign_eq_zero_iff_zero.mpr]
          omega

/-- The sum of normalised times that fits is normalised and exact. -/
theorem tsAdd_spec (ha : a.Normalised) (hb : b.Normalised) (hna : 0 ≤ a.ns) (hnb : 0 ≤ b.ns)
    (h : a.ns + b.ns < nsLimit) :
    (tsAdd a b).Normalised ∧ (tsAdd a b).ns = a.ns + b.ns := by
  have hal := ha.nonneg
  have hau := ha.lt
  have hbl := hb.nonneg
  have hbu := hb.lt
  simp only [ns, nsLimit] at hna hnb h ⊢
  have hs := toInt_add_of_fits (x := a.tvSec) (y := b.tvSec) (by omega) (by omega)
  have hn := toInt_add_of_fits (x := a.tvNsec) (y := b.tvNsec) (by omega) (by omega)
  have hc := toInt_second
  have h1 := Int64.toInt_one
  simp only [tsAdd, Int64.le_iff_toInt_le, hc, hn]
  split
  · -- the carry
    have hs' := toInt_add_of_fits (x := a.tvSec + b.tvSec) (y := 1) (by omega) (by omega)
    have hn' := toInt_sub_of_fits (x := a.tvNsec + b.tvNsec) (y := 1000000000) (by omega) (by omega)
    refine ⟨⟨?_, ?_⟩, ?_⟩ <;> dsimp only <;> omega
  · refine ⟨⟨?_, ?_⟩, ?_⟩ <;> dsimp only <;> omega

/-- The difference of normalised times is normalised, and exact or 0 but for the wrap-around of
the seconds. -/
theorem tsSubtract_wrap (ha : a.Normalised) (hb : b.Normalised) :
    (tsSubtract a b).Normalised ∧
      ∃ k, (tsSubtract a b).ns = max 0 (a.ns - b.ns) + k * (2 ^ 64 * 1000000000) := by
  have hal := ha.nonneg
  have hau := ha.lt
  have hbl := hb.nonneg
  have hbu := hb.lt
  obtain ⟨k, hs⟩ := exists_toInt_sub a.tvSec b.tvSec
  obtain ⟨k', hs'⟩ := exists_toInt_sub (a.tvSec - b.tvSec) 1
  rw [Int64.toInt_one, hs] at hs'
  have h0 := Int64.toInt_zero
  simp only [tsSubtract, ns, Int64.lt_iff_toInt_lt, Int64.le_iff_toInt_le, ← Int64.toInt_inj]
  split
  · refine ⟨⟨?_, ?_⟩, 0, ?_⟩ <;> dsimp only <;> omega
  · split
    · -- a second is borrowed
      rename_i hlt
      have hn := toInt_borrow toInt_second hal hlt hbu
      refine ⟨⟨?_, ?_⟩, k + k', ?_⟩ <;> simp only [hn, hs'] <;> omega
    · have hn := toInt_sub_of_fits (x := a.tvNsec) (y := b.tvNsec) (by omega) (by omega)
      refine ⟨⟨?_, ?_⟩, k, ?_⟩ <;> simp only [hn, hs] <;> omega

/-- The difference of normalised times that are not negative is exact, or 0. -/
theorem tsSubtract_spec (ha : a.Normalised) (hb : b.Normalised) (hna : 0 ≤ a.ns)
    (hnb : 0 ≤ b.ns) :
    (tsSubtract a b).Normalised ∧ (tsSubtract a b).ns = max 0 (a.ns - b.ns) := by
  obtain ⟨hn, k, hs⟩ := tsSubtract_wrap ha hb
  have hu := a.ns_lt ha
  have hl' := (tsSubtract a b).le_ns hn
  have hu' := (tsSubtract a b).ns_lt hn
  have hk : k = 0 := by
    rw [nsLimit] at *
    omega
  rw [hk] at hs
  exact ⟨hn, by omega⟩

/-- Subtracting a time undoes its addition. -/
theorem tsSubtract_tsAdd (ha : a.Normalised) (hb : b.Normalised) (hna : 0 ≤ a.ns)
    (hnb : 0 ≤ b.ns) (h : a.ns + b.ns < nsLimit) : tsSubtract (tsAdd a b) b = a := by
  obtain ⟨hn, hs⟩ := tsAdd_spec ha hb hna hnb h
  obtain ⟨hn', hs'⟩ := tsSubtract_spec hn hb (by omega) hnb
  apply hn'.ext ha
  omega

/-- The milliseconds of a normalised time are the complete ones, modulo `2 ^ 32`. -/
theorem ts2Ms_toNat (ha : a.Normalised) :
    ((ts2Ms a).toNat : Int) = a.ns / 1000000 % 2 ^ 32 := by
  have hal := ha.nonneg
  have hd := Int64.toInt_div_of_ne_right a.tvNsec 1000000 (by decide)
  rw [toInt_million, Int.tdiv_eq_ediv_of_nonneg hal] at hd
  have hm := toInt_mul_emod a.tvSec 1000
  rw [toInt_thousand] at hm
  have hs := toInt_add_emod (a.tvSec * 1000) (a.tvNsec / 1000000)
  rw [ts2Ms, unsigned_toNat, ns]
  omega

/-- Milliseconds as a time. -/
theorem ms2Ts_spec (t : UInt32) :
    (ms2Ts t).Normalised ∧ (ms2Ts t).ns = t.toNat * 1000000 := by
  have hq : ((t / 1000).toNat : Int) = t.toNat / 1000 := by
    simp
  have hr : ((t % 1000 * 1000000).toNat : Int) = t.toNat % 1000 * 1000000 := by
    simp
    omega
  have hs := long_toInt (t / 1000)
  have hn := long_toInt (t % 1000 * 1000000)
  refine ⟨⟨?_, ?_⟩, ?_⟩
  · dsimp only [ms2Ts]
    omega
  · dsimp only [ms2Ts]
    omega
  · dsimp only [ms2Ts, ns]
    omega

/-- Milliseconds survive as a time. -/
theorem ts2Ms_ms2Ts (t : UInt32) : ts2Ms (ms2Ts t) = t := by
  obtain ⟨hn, hs⟩ := ms2Ts_spec t
  have ht := ts2Ms_toNat hn
  have hlt := t.toNat_lt
  apply UInt32.toNat_inj.mp
  omega

/-! ### The two ways of computing the elapsed time -/

/-- A difference of times in milliseconds, as the code computes it. -/
theorem reqsystime_toNat (c : Times) (now : Timespec) :
    ((reqsystime c now).2.toNat : Int) =
      ((now.tvSec.toInt - c.startTime.tvSec.toInt) * 1000 +
        (now.tvNsec - c.startTime.tvNsec).toInt.tdiv 1000000) % 2 ^ 32 := by
  have hd := Int64.toInt_div_of_ne_right (now.tvNsec - c.startTime.tvNsec) 1000000 (by decide)
  rw [toInt_million] at hd
  have hs := toInt_sub_emod now.tvSec c.startTime.tvSec
  have hm := toInt_mul_emod (now.tvSec - c.startTime.tvSec) 1000
  rw [toInt_thousand] at hm
  have ha := toInt_add_emod ((now.tvSec - c.startTime.tvSec) * 1000)
    ((now.tvNsec - c.startTime.tvNsec) / 1000000)
  rw [hd] at ha
  dsimp only [reqsystime]
  rw [unsigned_toNat]
  omega

end YRmx
