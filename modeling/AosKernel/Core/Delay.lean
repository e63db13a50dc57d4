import Mathlib.Algebra.Group.Nat.Defs
import Mathlib.Data.BitVec
import Mathlib.Data.Rat.Defs
import Mathlib.Algebra.Order.Field.Rat
import Mathlib.Tactic.FieldSimp
import Mathlib.Tactic.NormNum

namespace AosKernel.Core

section Loop

-- `clock i` is how far the counter of the processor is when it is read for the time `i`.
variable (clock : Nat → Nat)

def ktimerReadTsc (i : Nat) : BitVec 64 := BitVec.ofNat 64 (clock i)

-- The loop from the `i`-th reading on: the number of the reading at which it ends, unless
-- it takes `fuel` iterations or more.
def waitLoop (ticksNeeded : BitVec 64) : Nat → Nat → Option Nat
  | 0, _ => none
  | fuel + 1, i =>
      if ktimerReadTsc clock i - ktimerReadTsc clock 0 < ticksNeeded then
        waitLoop ticksNeeded fuel (i + 1)
      else some i

-- What the three functions have alike. Without a rate they return at once.
def delayTicks (tscTicksPerMs ticksNeeded : BitVec 64) (fuel : Nat) : Option Nat :=
  if tscTicksPerMs = 0 then some 0
  else waitLoop clock (if ticksNeeded = 0 then 1 else ticksNeeded) fuel 1

def kdelay (tscTicksPerMs ms : BitVec 64) : Nat → Option Nat :=
  delayTicks clock tscTicksPerMs (ms * tscTicksPerMs)

def kdelayNs (tscTicksPerMs ns : BitVec 64) : Nat → Option Nat :=
  delayTicks clock tscTicksPerMs (ns * (tscTicksPerMs / 1000000))

def kdelayUs (tscTicksPerMs us : BitVec 64) : Nat → Option Nat :=
  delayTicks clock tscTicksPerMs (us * (tscTicksPerMs / 1000))

end Loop

inductive DelayUnit
  | ms
  | us
  | ns

def DelayUnit.perMs : DelayUnit → Nat
  | .ms => 1
  | .us => 1000
  | .ns => 1000000

def DelayUnit.delay (clock : Nat → Nat) : DelayUnit → BitVec 64 → BitVec 64 → Nat → Option Nat
  | .ms => kdelay clock
  | .us => kdelayUs clock
  | .ns => kdelayNs clock

-- How many ticks a duration takes, exactly.
def DelayUnit.exactTicks (unit : DelayUnit) (rate duration : BitVec 64) : ℚ :=
  rate.toNat * duration.toNat / unit.perMs

-- Whatever the counter shows: when the function returns, so many ticks have passed.
def DelayUnit.NeverShort (unit : DelayUnit) (rate duration : BitVec 64) : Prop :=
  ∀ clock, Monotone clock → ∀ fuel last, unit.delay clock rate duration fuel = some last →
    unit.exactTicks rate duration ≤ (clock last - clock 0 : Nat)

section Waiting

variable {clock : Nat → Nat} {ticksNeeded rate duration : BitVec 64} {fuel i last : Nat}
  {unit : DelayUnit}

-- Readings are modulo 2^64, so the difference of two is at most what has passed.
theorem reading_le (h : Monotone clock) (i : Nat) :
    (ktimerReadTsc clock i - ktimerReadTsc clock 0).toNat ≤ clock i - clock 0 := by
  have hle := h (Nat.zero_le i)
  obtain ⟨passed, hpassed⟩ := Nat.exists_eq_add_of_le hle
  have hdiff : ktimerReadTsc clock i - ktimerReadTsc clock 0 = BitVec.ofNat 64 passed := by
    rw [ktimerReadTsc, ktimerReadTsc, hpassed, BitVec.ofNat_add, BitVec.add_comm,
      BitVec.add_sub_cancel]
  rw [hdiff, hpassed, Nat.add_sub_cancel_left, BitVec.toNat_ofNat]
  exact Nat.mod_le _ _

theorem waitLoop_elapsed (h : Monotone clock)
    (hends : waitLoop clock ticksNeeded fuel i = some last) :
    ticksNeeded.toNat ≤ clock last - clock 0 := by
  induction fuel generalizing i with
  | zero => cases hends
  | succ fuel ih =>
      rw [waitLoop] at hends
      split at hends
      · exact ih hends
      · cases hends
        rename_i hreached
        exact Nat.le_trans (BitVec.not_lt.mp hreached) (reading_le h _)

theorem delay_eq (unit : DelayUnit) (clock : Nat → Nat) (rate duration : BitVec 64) :
    unit.delay clock rate duration =
      delayTicks clock rate (duration * (rate / BitVec.ofNat 64 unit.perMs)) := by
  cases unit with
  | ms =>
      have hsame : rate / BitVec.ofNat 64 DelayUnit.ms.perMs = rate := BitVec.udiv_one
      rw [hsame]
      rfl
  | us => rfl
  | ns => rfl

-- The ticks that the function of the unit waits for.
def DelayUnit.waited (unit : DelayUnit) (rate duration : BitVec 64) : Nat :=
  max 1 (duration.toNat * (rate.toNat / unit.perMs))

def DelayUnit.Fits (unit : DelayUnit) (rate duration : BitVec 64) : Prop :=
  unit.exactTicks rate duration < 2 ^ 64

theorem perMs_pos (unit : DelayUnit) : 0 < unit.perMs := by
  cases unit <;> decide

theorem exactTicks_le_iff {n : Nat} : unit.exactTicks rate duration ≤ n ↔
    rate.toNat * duration.toNat ≤ n * unit.perMs := by
  have hpos : (0 : ℚ) < unit.perMs := Nat.cast_pos.mpr (perMs_pos unit)
  rw [DelayUnit.exactTicks, div_le_iff₀ hpos]
  exact_mod_cast Iff.rfl

theorem fits_iff : unit.Fits rate duration ↔
    rate.toNat * duration.toNat < 2 ^ 64 * unit.perMs := by
  have hpos : (0 : ℚ) < unit.perMs := Nat.cast_pos.mpr (perMs_pos unit)
  rw [DelayUnit.Fits, DelayUnit.exactTicks, div_lt_iff₀ hpos]
  exact_mod_cast Iff.rfl

-- The product does not wrap.
theorem product_toNat (hfits : unit.Fits rate duration) :
    (duration * (rate / BitVec.ofNat 64 unit.perMs)).toNat =
      duration.toNat * (rate.toNat / unit.perMs) := by
  have hscale : (BitVec.ofNat 64 unit.perMs).toNat = unit.perMs := by
    cases unit <;> rfl
  have hle : duration.toNat * (rate.toNat / unit.perMs) * unit.perMs ≤
      rate.toNat * duration.toNat := by
    rw [Nat.mul_assoc, Nat.mul_comm rate.toNat]
    exact Nat.mul_le_mul_left _ (Nat.div_mul_le_self _ _)
  have hsmall := Nat.lt_of_mul_lt_mul_right (Nat.lt_of_le_of_lt hle (fits_iff.mp hfits))
  rw [BitVec.toNat_mul, BitVec.toNat_udiv, hscale]
  exact Nat.mod_eq_of_lt hsmall

theorem needed_toNat (hfits : unit.Fits rate duration) :
    (if duration * (rate / BitVec.ofNat 64 unit.perMs) = 0 then (1 : BitVec 64)
      else duration * (rate / BitVec.ofNat 64 unit.perMs)).toNat = unit.waited rate duration := by
  have hproduct := product_toNat hfits
  rw [DelayUnit.waited, ← hproduct]
  split
  · rename_i hzero
    rw [hzero]
    rfl
  · rename_i hne
    have hpos : (duration * (rate / BitVec.ofNat 64 unit.perMs)).toNat ≠ 0 :=
      fun hzero => hne (BitVec.eq_of_toNat_eq hzero)
    omega

-- A counter that jumps to `n` once the first reading is taken.
def jumpTo (n i : Nat) : Nat := if i = 0 then 0 else n

theorem jumpTo_monotone (n : Nat) : Monotone (jumpTo n) := by
  intro i j hij
  unfold jumpTo
  split
  · exact Nat.zero_le _
  · rw [if_neg (by omega)]

-- The functions wait at least for these ticks, and there are counters with which they do not
-- wait longer.
theorem neverShort_iff_waited (hrate : rate ≠ 0) (hfits : unit.Fits rate duration) :
    unit.NeverShort rate duration ↔
      rate.toNat * duration.toNat ≤ unit.waited rate duration * unit.perMs := by
  have hneeded := needed_toNat hfits
  constructor
  · intro h
    rw [← exactTicks_le_iff]
    have hjump := h (jumpTo (unit.waited rate duration)) (jumpTo_monotone _) 1 1 ?_
    · exact hjump
    · rw [delay_eq, delayTicks, if_neg hrate, waitLoop, if_neg]
      have hreading : ktimerReadTsc (jumpTo (unit.waited rate duration)) 1 -
          ktimerReadTsc (jumpTo (unit.waited rate duration)) 0 =
            BitVec.ofNat 64 (unit.waited rate duration) := BitVec.sub_zero _
      rw [BitVec.not_lt, BitVec.le_def, hreading, BitVec.toNat_ofNat, ← hneeded,
        Nat.mod_eq_of_lt (BitVec.isLt _)]
  · intro hle clock hclock fuel last hends
    rw [delay_eq, delayTicks, if_neg hrate] at hends
    have helapsed := waitLoop_elapsed hclock hends
    rw [hneeded] at helapsed
    rw [exactTicks_le_iff]
    exact Nat.le_trans hle (Nat.mul_le_mul_right _ helapsed)

-- Rounding the rate down loses nothing exactly then.
theorem waited_enough_iff : rate.toNat * duration.toNat ≤ unit.waited rate duration * unit.perMs ↔
    unit.perMs ∣ rate.toNat ∨ rate.toNat * duration.toNat ≤ unit.perMs := by
  have hpos := perMs_pos unit
  unfold DelayUnit.waited
  generalize rate.toNat = r
  generalize duration.toNat = d
  generalize unit.perMs = scale at *
  have hwhole : d * (r / scale) * scale + d * (r % scale) = r * d := by
    rw [Nat.mul_assoc, ← Nat.mul_add, Nat.mul_comm (r / scale), Nat.div_add_mod, Nat.mul_comm]
  constructor
  · intro h
    by_cases hdvd : scale ∣ r
    · exact Or.inl hdvd
    right
    have hrest : 0 < r % scale :=
      Nat.pos_of_ne_zero fun hzero => hdvd (Nat.dvd_of_mod_eq_zero hzero)
    rcases Nat.eq_zero_or_pos d with rfl | hd
    · rw [Nat.mul_zero]
      exact Nat.zero_le _
    · have hlost := Nat.mul_pos hd hrest
      rcases Nat.le_total (d * (r / scale)) 1 with hone | hmore
      · rwa [Nat.max_eq_left hone, Nat.one_mul] at h
      · rw [Nat.max_eq_right hmore] at h
        omega
  · rintro (hdvd | hshort)
    · rw [Nat.mod_eq_zero_of_dvd hdvd, Nat.mul_zero, Nat.add_zero] at hwhole
      rw [← hwhole]
      exact Nat.mul_le_mul_right _ (Nat.le_max_right _ _)
    · calc
        r * d ≤ 1 * scale := by rwa [Nat.one_mul]
        _ ≤ max 1 (d * (r / scale)) * scale := Nat.mul_le_mul_right _ (Nat.le_max_left _ _)

end Waiting

-- A delay is never short exactly if the rate is a whole number of ticks for the unit, or the
-- duration takes one tick at most.
theorem delay_neverShort_iff (unit : DelayUnit) (rate duration : BitVec 64) (hrate : rate ≠ 0)
    (hfits : unit.Fits rate duration) :
    unit.NeverShort rate duration ↔
      unit.perMs ∣ rate.toNat ∨ rate.toNat * duration.toNat ≤ unit.perMs :=
  (neverShort_iff_waited hrate hfits).trans waited_enough_iff

-- A millisecond at 3 GHz, in microseconds.
theorem delay_neverShort_iff_gigahertz : DelayUnit.us.NeverShort 3000000 1000 := by
  have hfits : DelayUnit.us.Fits 3000000 1000 := fits_iff.mpr (by decide)
  exact (delay_neverShort_iff .us 3000000 1000 (by decide) hfits).mpr (Or.inl (by decide))

-- At one tick less for a millisecond, a delay of one microsecond takes 2999 of the 2999.999
-- ticks, and one of a thousand nanoseconds takes 2000.
theorem delay_short :
    ¬ DelayUnit.us.NeverShort 2999999 1 ∧ ¬ DelayUnit.ns.NeverShort 2999999 1000 := by
  have hus : DelayUnit.us.Fits 2999999 1 := fits_iff.mpr (by decide)
  have hns : DelayUnit.ns.Fits 2999999 1000 := fits_iff.mpr (by decide)
  rw [neverShort_iff_waited (by decide) hus, neverShort_iff_waited (by decide) hns]
  decide

end AosKernel.Core
