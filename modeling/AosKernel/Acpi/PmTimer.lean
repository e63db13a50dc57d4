import Mathlib.Algebra.Group.Nat.Defs
import Mathlib.Data.Nat.Init
import Mathlib.Order.Basic

namespace AosKernel.Acpi

-- The fields of acpi_fadt that acpi_timer_init reads.
structure Fadt where
  pmTmrBlk : BitVec 32
  flags : BitVec 32

-- pm_timer_port and pm_timer_24bit
structure PmTimer where
  port : BitVec 32
  is24bit : Bool

def PmTimer.initial : PmTimer := ⟨0, true⟩

def acpiTimerInit (fadt : Fadt) (pm : PmTimer) : PmTimer where
  port := fadt.pmTmrBlk
  is24bit := if fadt.flags &&& (1 <<< 8) ≠ 0 then false else pm.is24bit

-- The period of the counter that the driver takes it to have, and the one that the flag
-- for the extended value announces.
def PmTimer.period (pm : PmTimer) : Nat := if pm.is24bit then 2 ^ 24 else 2 ^ 32

def Fadt.period (fadt : Fadt) : Nat := if fadt.flags.getLsbD 8 then 2 ^ 32 else 2 ^ 24

-- `port` is what the port would give.
def acpiTimerRead (pm : PmTimer) (port : BitVec 32) : BitVec 32 := if pm.port = 0 then 0 else port

structure Delay where
  elapsed : BitVec 64
  last : BitVec 32

-- The ticks that an iteration adds. The first sum is one of 32 bits, the second one of 64.
def gained (pm : PmTimer) (last current : BitVec 32) : BitVec 64 :=
  if current < last then
    if pm.is24bit then (current + 0x1000000 - last).setWidth 64
    else current.setWidth 64 + 0x100000000 - last.setWidth 64
  else (current - last).setWidth 64

def delayStep (pm : PmTimer) (d : Delay) (current : BitVec 32) : Delay where
  elapsed := d.elapsed + gained pm d.last current
  last := current

section Readings

-- `readings i` is what the port gives when it is read for the time `i`.
variable (pm : PmTimer) (readings : Nat → BitVec 32)

-- The locals of acpi_mdelay after `i` iterations.
def delayAt : Nat → Delay
  | 0 => ⟨0, acpiTimerRead pm (readings 0)⟩
  | i + 1 => delayStep pm (delayAt i) (acpiTimerRead pm (readings (i + 1)))

-- The loop from iteration `i` on: the number of the reading at which it ends, unless it
-- takes `fuel` iterations or more.
def mdelayLoop (ticksNeeded : BitVec 64) : Nat → Nat → Delay → Option Nat
  | 0, _, _ => none
  | fuel + 1, i, d =>
      if d.elapsed < ticksNeeded then
        mdelayLoop ticksNeeded fuel (i + 1) (delayStep pm d (acpiTimerRead pm (readings (i + 1))))
      else some i

def acpiMdelay (ms : BitVec 64) (fuel : Nat) : Option Nat :=
  mdelayLoop pm readings (ms * 3580) fuel 0 ⟨0, acpiTimerRead pm (readings 0)⟩

end Readings

-- A counter that never stops: `counter i` is its full count when it is read for the time
-- `i`, less than a period after the reading before.
structure FreeRunning (period : Nat) (counter : Nat → Nat) : Prop where
  forward : ∀ i, counter i ≤ counter (i + 1)
  sooner : ∀ i, counter (i + 1) < counter i + period

-- The port shows the count up to the period.
def shown (period : Nat) (counter : Nat → Nat) (i : Nat) : BitVec 32 :=
  BitVec.ofNat 32 (counter i % period)

def ticks (counter : Nat → Nat) (i : Nat) : Nat := counter i - counter 0

-- The first reading at which `needed` ticks have passed.
def FirstReached (counter : Nat → Nat) (needed i : Nat) : Prop :=
  (∀ j < i, ticks counter j < needed) ∧ needed ≤ ticks counter i

section Exact

variable {pm : PmTimer} {counter : Nat → Nat}

theorem FreeRunning.start_le {period : Nat} (h : FreeRunning period counter) (i : Nat) :
    counter 0 ≤ counter i := by
  induction i with
  | zero => exact Nat.le_refl _
  | succ i ih => exact Nat.le_trans ih (h.forward i)

theorem FreeRunning.ticks_succ {period : Nat} (h : FreeRunning period counter) (i : Nat) :
    ticks counter (i + 1) = ticks counter i + (counter (i + 1) - counter i) := by
  have hstart := h.start_le i
  have hforward := h.forward i
  unfold ticks
  omega

-- The width is the announced one.
theorem acpiTimerInit_period (fadt : Fadt) :
    (acpiTimerInit fadt .initial).period = fadt.period := by
  have hbit : fadt.flags &&& (1 <<< 8) ≠ 0 ↔ fadt.flags.getLsbD 8 = true := by
    have hshift : (1 <<< 8 : BitVec 32) = BitVec.twoPow 32 8 := by decide
    rw [hshift, BitVec.and_twoPow]
    cases fadt.flags.getLsbD 8 with
    | true => decide
    | false => decide
  unfold PmTimer.period Fadt.period acpiTimerInit
  by_cases h : fadt.flags.getLsbD 8 = true
  · rw [if_pos (hbit.mpr h), if_neg Bool.false_ne_true, if_pos h]
  · rw [if_neg (mt hbit.mp h), if_neg h]
    rfl

theorem PmTimer.period_le (pm : PmTimer) : 0 < pm.period ∧ pm.period ≤ 2 ^ 32 := by
  unfold PmTimer.period
  split
  · exact ⟨by decide, by decide⟩
  · exact ⟨by decide, by decide⟩

theorem shown_toNat (pm : PmTimer) (counter : Nat → Nat) (i : Nat) :
    (shown pm.period counter i).toNat = counter i % pm.period := by
  obtain ⟨hpos, hle⟩ := pm.period_le
  have hlt := Nat.mod_lt (counter i) hpos
  rw [shown, BitVec.toNat_ofNat, Nat.mod_eq_of_lt (by omega)]

-- What a counter modulo its period shows of two counts that are less than a period apart.
theorem mod_step {period c c' : Nat} (hpos : 0 < period) (hle : c ≤ c') (hlt : c' < c + period) :
    c' % period = c % period + (c' - c) ∨ c' % period + period = c % period + (c' - c) := by
  have hmod := Nat.mod_lt c hpos
  have hsum : c' % period = (c % period + (c' - c)) % period := by
    rw [Nat.mod_add_mod, Nat.add_sub_cancel' hle]
  by_cases hwrap : c % period + (c' - c) < period
  · left
    rw [hsum, Nat.mod_eq_of_lt hwrap]
  · right
    rw [hsum, Nat.mod_eq_sub_mod (by omega), Nat.mod_eq_of_lt (by omega)]
    omega

-- One iteration adds the ticks between its two readings.
theorem gained_exact (pm : PmTimer) {i : Nat} (hrun : FreeRunning pm.period counter) :
    (gained pm (shown pm.period counter i) (shown pm.period counter (i + 1))).toNat =
      counter (i + 1) - counter i := by
  obtain ⟨hpos, hle⟩ := pm.period_le
  have hlast := shown_toNat pm counter i
  have hcurrent := shown_toNat pm counter (i + 1)
  have hbelow := Nat.mod_lt (counter i) hpos
  have hbelow' := Nat.mod_lt (counter (i + 1)) hpos
  have hdiff := hrun.sooner i
  have hstep := mod_step hpos (hrun.forward i) hdiff
  unfold gained
  by_cases hwrap : shown pm.period counter (i + 1) < shown pm.period counter i
  · rw [if_pos hwrap]
    rw [BitVec.lt_def, hlast, hcurrent] at hwrap
    cases hbits : pm.is24bit with
    | true =>
        have hperiod : pm.period = 16777216 := by rw [PmTimer.period, hbits]; rfl
        have hadd : (0x1000000 : BitVec 32).toNat = 16777216 := rfl
        rw [if_pos rfl, BitVec.toNat_setWidth, BitVec.toNat_sub, BitVec.toNat_add, hlast,
          hcurrent, hadd]
        rw [hperiod] at hstep hbelow hbelow' hdiff hwrap ⊢
        omega
    | false =>
        have hperiod : pm.period = 4294967296 := by rw [PmTimer.period, hbits]; rfl
        have hadd : (0x100000000 : BitVec 64).toNat = 4294967296 := rfl
        rw [if_neg Bool.false_ne_true, BitVec.toNat_sub, BitVec.toNat_add, BitVec.toNat_setWidth,
          BitVec.toNat_setWidth, hlast, hcurrent, hadd]
        rw [hperiod] at hstep hbelow hbelow' hdiff hwrap ⊢
        omega
  · rw [if_neg hwrap, BitVec.toNat_setWidth, BitVec.toNat_sub, hlast, hcurrent]
    rw [BitVec.lt_def, hlast, hcurrent] at hwrap
    omega

variable (pm counter) in
theorem delayAt_last (i : Nat) (hport : pm.port ≠ 0) :
    (delayAt pm (shown pm.period counter) i).last = shown pm.period counter i := by
  cases i with
  | zero => exact if_neg hport
  | succ i => exact if_neg hport

-- The accumulator holds the ticks, up to its own 64 bits, whatever the number of wraps.
theorem delayAt_elapsed (pm : PmTimer) (hport : pm.port ≠ 0)
    (hrun : FreeRunning pm.period counter) (i : Nat) :
    (delayAt pm (shown pm.period counter) i).elapsed.toNat = ticks counter i % 2 ^ 64 := by
  induction i with
  | zero => rw [ticks, Nat.sub_self]; rfl
  | succ i ih =>
      have hread : acpiTimerRead pm (shown pm.period counter (i + 1)) =
          shown pm.period counter (i + 1) :=
        if_neg hport
      rw [delayAt, delayStep, hread, BitVec.toNat_add, ih, delayAt_last pm counter i hport,
        gained_exact pm hrun, Nat.mod_add_mod, ← hrun.ticks_succ]

-- The loop goes on from iteration `i` to iteration `k` and ends there.
theorem mdelayLoop_eq (readings : Nat → BitVec 32) (needed : BitVec 64) {k : Nat}
    (hend : needed ≤ (delayAt pm readings k).elapsed) (n : Nat) :
    ∀ i, i + n = k → (∀ j, i ≤ j → j < k → (delayAt pm readings j).elapsed < needed) →
      ∀ fuel, mdelayLoop pm readings needed fuel i (delayAt pm readings i) =
        if n < fuel then some k else none := by
  induction n with
  | zero =>
      intro i hi _ fuel
      have hik : i = k := by omega
      subst hik
      cases fuel with
      | zero => rfl
      | succ fuel => rw [mdelayLoop, if_neg (BitVec.not_lt.mpr hend), if_pos (Nat.succ_pos fuel)]
  | succ n ih =>
      intro i hi hbefore fuel
      cases fuel with
      | zero => rfl
      | succ fuel =>
          have hrest := ih (i + 1) (by omega) (fun j hj => hbefore j (by omega)) fuel
          rw [delayAt] at hrest
          rw [mdelayLoop, if_pos (hbefore i (Nat.le_refl i) (by omega)), hrest]
          exact if_congr Nat.succ_lt_succ_iff.symm rfl rfl

theorem mdelayLoop_none (readings : Nat → BitVec 32) (needed : BitVec 64) (fuel : Nat) :
    ∀ i, (∀ j, i ≤ j → j < i + fuel → (delayAt pm readings j).elapsed < needed) →
      mdelayLoop pm readings needed fuel i (delayAt pm readings i) = none := by
  induction fuel with
  | zero => exact fun _ _ => rfl
  | succ fuel ih =>
      intro i hbefore
      have hrest := ih (i + 1) fun j hj hlt => hbefore j (by omega) (by omega)
      rw [delayAt] at hrest
      rw [mdelayLoop, if_pos (hbefore i (Nat.le_refl i) (by omega)), hrest]

theorem ticksNeeded_toNat {ms : BitVec 64} (hms : ms.toNat * 3580 < 2 ^ 64) :
    (ms * 3580).toNat = ms.toNat * 3580 := by
  rw [BitVec.toNat_mul, show (3580 : BitVec 64).toNat = 3580 from rfl, Nat.mod_eq_of_lt hms]

-- A counter that reaches `needed` does so at a first reading.
theorem exists_firstReached {needed i : Nat} (h : needed ≤ ticks counter i) :
    ∃ k, FirstReached counter needed k := by
  induction i using Nat.strong_induction_on with
  | _ i ih =>
      by_cases hfirst : ∀ j < i, ticks counter j < needed
      · exact ⟨i, hfirst, h⟩
      · obtain ⟨j, hj⟩ := not_forall.mp hfirst
        obtain ⟨hlt, hreached⟩ := Classical.not_imp.mp hj
        exact ih j hlt (Nat.le_of_not_lt hreached)

end Exact

-- The elapsed value is exact after each iteration, and the delay ends at the first reading
-- at which enough ticks have passed.
theorem acpiMdelay_exact (fadt : Fadt) (hport : fadt.pmTmrBlk ≠ 0) (ms : BitVec 64)
    (hms : ms.toNat * 3580 < 2 ^ 64) (counter : Nat → Nat)
    (hrun : FreeRunning fadt.period counter)
    (hsmall : ∀ i, FirstReached counter (ms.toNat * 3580) i → ticks counter i < 2 ^ 64) :
    (∀ i, (∀ j < i, ticks counter j < ms.toNat * 3580) →
      (delayAt (acpiTimerInit fadt .initial) (shown fadt.period counter) i).elapsed.toNat =
        ticks counter i) ∧
    ∀ fuel i, acpiMdelay (acpiTimerInit fadt .initial) (shown fadt.period counter) ms fuel =
        some i ↔
      i < fuel ∧ FirstReached counter (ms.toNat * 3580) i := by
  rw [← acpiTimerInit_period] at hrun ⊢
  generalize hpm : acpiTimerInit fadt .initial = pm at hrun ⊢
  have hport : pm.port ≠ 0 := by
    rw [← hpm]
    exact hport
  have hneeded := ticksNeeded_toNat hms
  have hexact : ∀ i, (∀ j < i, ticks counter j < ms.toNat * 3580) →
      (delayAt pm (shown pm.period counter) i).elapsed.toNat = ticks counter i := by
    intro i hbefore
    rw [delayAt_elapsed pm hport hrun]
    apply Nat.mod_eq_of_lt
    by_cases hreached : ms.toNat * 3580 ≤ ticks counter i
    · exact hsmall i ⟨hbefore, hreached⟩
    · omega
  have hgoes : ∀ k, (∀ j < k, ticks counter j < ms.toNat * 3580) → ∀ j, 0 ≤ j → j < k →
      (delayAt pm (shown pm.period counter) j).elapsed < ms * 3580 := by
    intro k hbefore j _ hj
    rw [BitVec.lt_def, hneeded, hexact j fun j' hj' => hbefore j' (by omega)]
    exact hbefore j hj
  refine ⟨hexact, fun fuel i => ?_⟩
  have hstart : acpiMdelay pm (shown pm.period counter) ms fuel =
      mdelayLoop pm (shown pm.period counter) (ms * 3580) fuel 0
        (delayAt pm (shown pm.period counter) 0) := rfl
  by_cases hsome : ∃ k, FirstReached counter (ms.toNat * 3580) k
  · obtain ⟨k, hk⟩ := hsome
    have hend : ms * 3580 ≤ (delayAt pm (shown pm.period counter) k).elapsed := by
      rw [BitVec.le_def, hneeded, hexact k hk.1]
      exact hk.2
    rw [hstart, mdelayLoop_eq _ _ hend k 0 (Nat.zero_add k) (hgoes k hk.1)]
    constructor
    · intro h
      split at h
      · rename_i hfuel
        cases h
        exact ⟨hfuel, hk⟩
      · cases h
    · rintro ⟨hfuel, hi⟩
      -- two first readings are the same one
      rcases Nat.lt_trichotomy i k with hlt | rfl | hgt
      · exact absurd (hk.1 i hlt) (Nat.not_lt.mpr hi.2)
      · rw [if_pos hfuel]
      · exact absurd (hi.1 k hgt) (Nat.not_lt.mpr hk.2)
  · have hnever : ∀ j, ticks counter j < ms.toNat * 3580 := fun j =>
      Nat.lt_of_not_le fun h => hsome (exists_firstReached h)
    rw [hstart, mdelayLoop_none _ _ fuel 0 fun j _ hj =>
      hgoes (j + 1) (fun j' _ => hnever j') j (Nat.zero_le j) (Nat.lt_succ_self j)]
    exact ⟨fun h => absurd h (Option.some_ne_none i).symm, fun h => absurd ⟨i, h.2⟩ hsome⟩

-- A counter that is read every `d` ticks.
theorem freeRunning_steady {period d : Nat} (c : Nat) (hd : d < period) :
    FreeRunning period fun i => c + d * i := by
  refine ⟨fun i => ?_, fun i => ?_⟩
  · show c + d * i ≤ c + d * (i + 1)
    rw [Nat.mul_succ]
    omega
  · show c + d * (i + 1) < c + d * i + period
    rw [Nat.mul_succ]
    omega

theorem ticks_steady (c d i : Nat) : ticks (fun i => c + d * i) i = d * i := by
  show c + d * i - (c + d * 0) = d * i
  rw [Nat.mul_zero, Nat.add_zero, Nat.add_sub_cancel_left]

-- A millisecond of a counter of 24 bits that wraps once in it.
theorem acpiMdelay_exact_wrap :
    acpiMdelay (acpiTimerInit ⟨0x608, 0⟩ .initial)
      (shown (Fadt.period ⟨0x608, 0⟩) fun i => 0xFFFF00 + 2000 * i) 1 10 = some 2 := by
  have hms : (1 : BitVec 64).toNat = 1 := rfl
  have hdelay := acpiMdelay_exact ⟨0x608, 0⟩ (by decide) 1 (by decide)
    (fun i => 0xFFFF00 + 2000 * i) (freeRunning_steady _ (by decide)) fun i h => by
      have hbefore := h.1 (i - 1)
      simp only [ticks_steady, hms] at hbefore ⊢
      omega
  apply (hdelay.2 10 2).mpr
  refine ⟨by decide, fun j hj => ?_, ?_⟩
  · rw [ticks_steady, hms]
    omega
  · rw [ticks_steady, hms]
    omega

-- Close to 2^64 ticks an iteration can pass both the end of the delay and that of the
-- accumulator.
theorem elapsed_overflows :
    FreeRunning (Fadt.period ⟨0x608, 0x100⟩) (fun i => 0 + 3221225472 * i) ∧
      (5152721808298757 : BitVec 64).toNat * 3580 < 2 ^ 64 ∧
      FirstReached (fun i => 0 + 3221225472 * i) ((5152721808298757 : BitVec 64).toNat * 3580)
        5726623062 ∧
      (delayAt (acpiTimerInit ⟨0x608, 0x100⟩ .initial)
        (shown (Fadt.period ⟨0x608, 0x100⟩) fun i => 0 + 3221225472 * i)
        5726623062).elapsed.toNat ≠ ticks (fun i => 0 + 3221225472 * i) 5726623062 := by
  have hms : (5152721808298757 : BitVec 64).toNat = 5152721808298757 := rfl
  have hrun : FreeRunning (Fadt.period ⟨0x608, 0x100⟩) fun i => 0 + 3221225472 * i :=
    freeRunning_steady 0 (by decide)
  refine ⟨hrun, by decide, ⟨fun j hj => ?_, ?_⟩, ?_⟩
  · rw [ticks_steady, hms]
    omega
  · rw [ticks_steady, hms]
    omega
  · rw [← acpiTimerInit_period] at hrun ⊢
    rw [delayAt_elapsed (acpiTimerInit ⟨0x608, 0x100⟩ .initial) (by decide) hrun, ticks_steady]
    omega

end AosKernel.Acpi
