import AosKernel.Lib.Calendar

namespace AosKernel

open Verif

namespace Core

def monthDays : List (BitVec 8) := [31, 28, 31, 30, 31, 30, 31, 31, 30, 31, 30, 31]

def isLeapYear (year : BitVec 32) : Bool :=
  year % 4 == 0 && (year % 100 != 0 || year % 400 == 0)

-- The loop over the months, after `rounds` of them: the month is one more than that.
def addMonths (year : BitVec 32) (days : BitVec 64) : Nat → BitVec 64
  | 0 => days
  | rounds + 1 =>
      let days := addMonths year days rounds + (monthDays.getD rounds 0).setWidth 64
      if rounds + 1 = 2 ∧ isLeapYear year then days + 1 else days

def rtcToTimestamp (year month day hour minute second : BitVec 32) : BitVec 64 :=
  let leaps : BitVec 32 :=
    ((year - 1) / 4 - 1969 / 4) - ((year - 1) / 100 - 1969 / 100) + ((year - 1) / 400 - 1969 / 400)
  let days : BitVec 64 := ((year - 1970) * 365).setWidth 64 + leaps.setWidth 64
  let days := addMonths year days (month.toNat - 1)
  let days := days + (day - 1).setWidth 64
  days * 86400 + hour.setWidth 64 * 3600 + minute.setWidth 64 * 60 + second.setWidth 64

end Core

-- The boot loader has its own copies.
namespace Boot

def monthDays : List (BitVec 8) := [31, 28, 31, 30, 31, 30, 31, 31, 30, 31, 30, 31]

def isLeapYear (year : BitVec 32) : Bool :=
  year % 4 == 0 && (year % 100 != 0 || year % 400 == 0)

def addMonths (year : BitVec 32) (days : BitVec 64) : Nat → BitVec 64
  | 0 => days
  | rounds + 1 =>
      let days := addMonths year days rounds + (monthDays.getD rounds 0).setWidth 64
      if rounds + 1 = 2 ∧ isLeapYear year then days + 1 else days

def rtcToTimestamp (year month day hour minute second : BitVec 32) : BitVec 64 :=
  let leaps : BitVec 32 :=
    ((year - 1) / 4 - 1969 / 4) - ((year - 1) / 100 - 1969 / 100) + ((year - 1) / 400 - 1969 / 400)
  let days : BitVec 64 := ((year - 1970) * 365).setWidth 64 + leaps.setWidth 64
  let days := addMonths year days (month.toNat - 1)
  let days := days + (day - 1).setWidth 64
  days * 86400 + hour.setWidth 64 * 3600 + minute.setWidth 64 * 60 + second.setWidth 64

end Boot

namespace Core

-- Whole seconds of a day.
structure TimeOfDay where
  hour : Nat
  minute : Nat
  second : Nat
  hour_lt : hour < 24
  minute_lt : minute < 60
  second_lt : second < 60

def TimeOfDay.seconds (t : TimeOfDay) : Nat := t.hour * 3600 + t.minute * 60 + t.second

def TimeOfDay.Before (t t' : TimeOfDay) : Prop :=
  t.hour < t'.hour ∨
    t.hour = t'.hour ∧ (t.minute < t'.minute ∨ t.minute = t'.minute ∧ t.second < t'.second)

-- What the clock of the machine can show.
def OnClock (d : Date) : Prop := 1970 ≤ d.year ∧ d.year ≤ 25599

def unixEpoch : Date where
  year := 1970
  month := 1
  day := 1
  month_pos := Nat.one_pos
  month_le := Date.january_le
  day_pos := Nat.one_pos
  day_le := by decide

def timestamp (d : Date) (t : TimeOfDay) : BitVec 64 :=
  rtcToTimestamp (BitVec.ofNat 32 d.year) (BitVec.ofNat 32 d.month) (BitVec.ofNat 32 d.day)
    (BitVec.ofNat 32 t.hour) (BitVec.ofNat 32 t.minute) (BitVec.ofNat 32 t.second)

section Years

variable {year : Nat}

theorem toNat_year (h' : year ≤ 25599) : (BitVec.ofNat 32 year).toNat = year := by
  rw [BitVec.toNat_ofNat]
  exact Nat.mod_eq_of_lt (by omega)

theorem isLeapYear_iff (h' : year ≤ 25599) :
    isLeapYear (BitVec.ofNat 32 year) = true ↔ LeapYear year := by
  have hmod : ∀ n < 2 ^ 32, ((BitVec.ofNat 32 year % BitVec.ofNat 32 n) == 0) = (year % n == 0) := by
    intro n hn
    have hvalue : (BitVec.ofNat 32 year % BitVec.ofNat 32 n).toNat = year % n := by
      rw [BitVec.toNat_umod, toNat_year h', BitVec.toNat_ofNat, Nat.mod_eq_of_lt hn]
    rw [Bool.eq_iff_iff, beq_iff_eq, beq_iff_eq, ← hvalue]
    exact BitVec.toNat_eq
  have hfour : (BitVec.ofNat 32 year % 4 == 0) = (year % 4 == 0) := hmod 4 (by decide)
  have hcentury : (BitVec.ofNat 32 year % 100 == 0) = (year % 100 == 0) := hmod 100 (by decide)
  have hfourth : (BitVec.ofNat 32 year % 400 == 0) = (year % 400 == 0) := hmod 400 (by decide)
  unfold isLeapYear LeapYear bne
  rw [hfour, hcentury, hfourth]
  simp

-- The days of whole years, counted modulo 2^32, are those of the calendar.
theorem yearDays_eq (h : 1970 ≤ year) (h' : year ≤ 25599) :
    (((BitVec.ofNat 32 year - 1970) * 365).setWidth 64 +
      (((BitVec.ofNat 32 year - 1) / 4 - 1969 / 4) - ((BitVec.ofNat 32 year - 1) / 100 - 1969 / 100) +
        ((BitVec.ofNat 32 year - 1) / 400 - 1969 / 400)).setWidth 64 : BitVec 64).toNat +
      Date.yearStart 1970 = Date.yearStart year := by
  have hbefore : (BitVec.ofNat 32 year - 1).toNat = year - 1 := by
    rw [BitVec.toNat_sub, toNat_year h']
    show (2 ^ 32 - 1 + year) % 2 ^ 32 = year - 1
    omega
  have hsince : (BitVec.ofNat 32 year - 1970).toNat = year - 1970 := by
    rw [BitVec.toNat_sub, toNat_year h']
    show (2 ^ 32 - 1970 + year) % 2 ^ 32 = year - 1970
    omega
  have hcentury : (year - 1) / 100 = (year - 1) / 4 / 25 := (Nat.div_div_eq_div_mul _ 4 25).symm
  have hfourth : (year - 1) / 400 = (year - 1) / 4 / 100 := (Nat.div_div_eq_div_mul _ 4 100).symm
  have hlow : 492 ≤ (year - 1) / 4 := by omega
  have hhigh : (year - 1) / 4 ≤ 6399 := by omega
  have hquotient : ((BitVec.ofNat 32 year - 1) / 4).toNat = (year - 1) / 4 := by
    rw [BitVec.toNat_udiv, hbefore]
    rfl
  have hquotient' : ((BitVec.ofNat 32 year - 1) / 100).toNat = (year - 1) / 4 / 25 := by
    rw [BitVec.toNat_udiv, hbefore, ← hcentury]
    rfl
  have hquotient'' : ((BitVec.ofNat 32 year - 1) / 400).toNat = (year - 1) / 4 / 100 := by
    rw [BitVec.toNat_udiv, hbefore, ← hfourth]
    rfl
  have hbase : (1969 / 4 : BitVec 32) = 492 ∧ (1969 / 100 : BitVec 32) = 19 ∧
      (1969 / 400 : BitVec 32) = 4 := by decide
  rw [hbase.1, hbase.2.1, hbase.2.2]
  unfold Date.yearStart
  rw [hcentury, hfourth]
  generalize (BitVec.ofNat 32 year - 1) / 4 = fours at *
  generalize (BitVec.ofNat 32 year - 1) / 100 = centuries at *
  generalize (BitVec.ofNat 32 year - 1) / 400 = exceptions at *
  have hleaps : (fours - 492 - (centuries - 19) + (exceptions - 4)).toNat =
      (year - 1) / 4 - 492 - ((year - 1) / 4 / 25 - 19) + ((year - 1) / 4 / 100 - 4) := by
    bv_omega
  have hfits' : (year - 1970) * 365 < 2 ^ 32 := by omega
  have hdays : ((BitVec.ofNat 32 year - 1970) * 365).toNat = (year - 1970) * 365 := by
    rw [BitVec.toNat_mul, hsince]
    exact Nat.mod_eq_of_lt hfits'
  rw [BitVec.toNat_add, BitVec.toNat_setWidth, BitVec.toNat_setWidth, hleaps, hdays]
  have hfits : (year - 1) / 4 - 492 - ((year - 1) / 4 / 25 - 19) + ((year - 1) / 4 / 100 - 4) <
      2 ^ 32 := by omega
  rw [Nat.mod_eq_of_lt (Nat.lt_trans hfits' (by decide)),
    Nat.mod_eq_of_lt (Nat.lt_trans hfits (by decide)),
    Nat.mod_eq_of_lt (Nat.lt_trans (Nat.add_lt_add hfits' hfits) (by decide))]
  omega

theorem month_eq (h' : year ≤ 25599) {rounds : Nat} (hrounds : rounds < 12) :
    monthLength year (rounds + 1) = (monthDays.getD rounds 0).toNat +
      if rounds + 1 = 2 ∧ isLeapYear (BitVec.ofNat 32 year) then 1 else 0 := by
  by_cases hfebruary : rounds = 1
  · subst hfebruary
    by_cases hleap : LeapYear year
    · rw [if_pos ⟨rfl, (isLeapYear_iff h').mpr hleap⟩]
      show (if LeapYear year then 29 else 28) = _
      rw [if_pos hleap]
      rfl
    · rw [if_neg fun h => hleap ((isLeapYear_iff h').mp h.2)]
      show (if LeapYear year then 29 else 28) = _
      rw [if_neg hleap]
      rfl
  · have hother : ¬ (rounds + 1 = 2 ∧ isLeapYear (BitVec.ofNat 32 year) = true) :=
      fun h => hfebruary (Nat.succ.inj h.1)
    rw [if_neg hother]
    interval_cases rounds
    all_goals
      first
      | rfl
      | exact absurd rfl hfebruary

-- The loop adds the days of the months before this one.
theorem addMonths_eq (h' : year ≤ 25599) (days : BitVec 64) {rounds : Nat} (hrounds : rounds < 12) :
    addMonths (BitVec.ofNat 32 year) days rounds =
      days + BitVec.ofNat 64 (Date.daysBefore year (rounds + 1)) := by
  induction rounds with
  | zero =>
      rw [addMonths]
      exact (BitVec.add_zero days).symm
  | succ rounds ih =>
      have hmonth := month_eq h' (Nat.lt_of_succ_lt hrounds)
      have hlength : (monthDays.getD rounds 0).setWidth 64 =
          BitVec.ofNat 64 (monthDays.getD rounds 0).toNat := (BitVec.ofNat_toNat 64 _).symm
      rw [addMonths, ih (Nat.lt_of_succ_lt hrounds), hlength,
        Date.daysBefore_succ year (Nat.le_add_left 1 rounds), hmonth]
      split
      · rw [BitVec.ofNat_add, BitVec.ofNat_add, BitVec.add_assoc, BitVec.add_assoc]
        rfl
      · rw [BitVec.ofNat_add, BitVec.add_assoc]
        rfl

end Years

section Dates

variable {d d' : Date} {t t' : TimeOfDay}

theorem toNat_small {n : Nat} (h : n < 2 ^ 32) : ((BitVec.ofNat 32 n).setWidth 64).toNat = n := by
  rw [BitVec.toNat_setWidth, BitVec.toNat_ofNat, Nat.mod_eq_of_lt h]
  exact Nat.mod_eq_of_lt (Nat.lt_trans h (by decide))

-- The seconds since 1970 are those of the whole days and of the time of day.
theorem timestamp_toNat (h : OnClock d) (t : TimeOfDay) :
    (timestamp d t).toNat + 86400 * unixEpoch.ordinal = 86400 * d.ordinal + t.seconds := by
  obtain ⟨hlow, hhigh⟩ := h
  have hmonth := d.month_le
  have hday := d.day_le_31
  have hfirst := d.day_pos
  have hyears := yearDays_eq hlow hhigh
  have hmonths := d.daysBefore_le
  have hmonthField : (BitVec.ofNat 32 d.month).toNat = d.month := by
    rw [BitVec.toNat_ofNat]
    exact Nat.mod_eq_of_lt (by omega)
  have hmonthDays : (BitVec.ofNat 64 (Date.daysBefore d.year d.month)).toNat =
      Date.daysBefore d.year d.month := by
    rw [BitVec.toNat_ofNat]
    exact Nat.mod_eq_of_lt (by omega)
  have hdayField : ((BitVec.ofNat 32 d.day - 1).setWidth 64).toNat = d.day - 1 := by
    rw [BitVec.toNat_setWidth, BitVec.toNat_sub, BitVec.toNat_ofNat]
    show (2 ^ 32 - 1 + d.day % 2 ^ 32) % 2 ^ 32 % 2 ^ 64 = d.day - 1
    omega
  have hbound : Date.yearStart d.year ≤ 10000000 := by
    unfold Date.yearStart
    omega
  have hrounds : d.month - 1 + 1 = d.month := Nat.sub_add_cancel d.month_pos
  unfold timestamp rtcToTimestamp
  dsimp only
  rw [hmonthField, addMonths_eq hhigh _ (by omega), hrounds]
  have hhour := toNat_small (n := t.hour) (Nat.lt_trans t.hour_lt (by decide))
  have hminute := toNat_small (n := t.minute) (Nat.lt_trans t.minute_lt (by decide))
  have hsecond := toNat_small (n := t.second) (Nat.lt_trans t.second_lt (by decide))
  have hhour_lt := t.hour_lt
  have hminute_lt := t.minute_lt
  have hsecond_lt := t.second_lt
  have hepoch : unixEpoch.ordinal = Date.yearStart 1970 := rfl
  rw [hepoch, Date.ordinal, TimeOfDay.seconds]
  generalize (((BitVec.ofNat 32 d.year - 1970) * 365).setWidth 64 +
      (((BitVec.ofNat 32 d.year - 1) / 4 - 1969 / 4) -
        ((BitVec.ofNat 32 d.year - 1) / 100 - 1969 / 100) +
        ((BitVec.ofNat 32 d.year - 1) / 400 - 1969 / 400)).setWidth 64 : BitVec 64) = years at *
  generalize BitVec.ofNat 64 (Date.daysBefore d.year d.month) = months at *
  generalize (BitVec.ofNat 32 d.day - 1).setWidth 64 = day at *
  generalize (BitVec.ofNat 32 t.hour).setWidth 64 = hour at *
  generalize (BitVec.ofNat 32 t.minute).setWidth 64 = minute at *
  generalize (BitVec.ofNat 32 t.second).setWidth 64 = second at *
  bv_omega

theorem TimeOfDay.seconds_lt (t : TimeOfDay) : t.seconds < 86400 := by
  have hhour := t.hour_lt
  have hminute := t.minute_lt
  have hsecond := t.second_lt
  unfold TimeOfDay.seconds
  omega

theorem TimeOfDay.Before.seconds_lt (h : t.Before t') : t.seconds < t'.seconds := by
  have hminute := t.minute_lt
  have hsecond := t.second_lt
  unfold TimeOfDay.Before at h
  unfold TimeOfDay.seconds
  omega

theorem timestamp_lt (h : OnClock d) (h' : OnClock d')
    (hbefore : d.Before d' ∨ d = d' ∧ t.Before t') : timestamp d t < timestamp d' t' := by
  have hstamp := timestamp_toNat h t
  have hstamp' := timestamp_toNat h' t'
  apply BitVec.lt_def.mpr
  rcases hbefore with hdate | ⟨rfl, htime⟩
  · have hdays := Date.ordinal_lt (Nat.le_trans (by decide) h.1) hdate
    have hpart := t.seconds_lt
    omega
  · have hpart := htime.seconds_lt
    omega

theorem boot_addMonths : Boot.addMonths = addMonths := by
  funext year days rounds
  induction rounds with
  | zero => rfl
  | succ rounds ih =>
      rw [Boot.addMonths, addMonths, ih]
      rfl

theorem boot_rtcToTimestamp : Boot.rtcToTimestamp = rtcToTimestamp := by
  funext year month day hour minute second
  rw [Boot.rtcToTimestamp, boot_addMonths, rtcToTimestamp]

-- The timestamp counts the seconds of the days from 1970 on, one after the other, and later
-- moments have later ones. The boot loader agrees.
theorem rtcToTimestamp_civil (h : OnClock d) (t : TimeOfDay) :
    (∃ n, Date.next^[n] unixEpoch = d) ∧
      (∀ n, Date.next^[n] unixEpoch = d → (timestamp d t).toNat = 86400 * n + t.seconds) ∧
      (∀ d' t', OnClock d' → d.Before d' ∨ d = d' ∧ t.Before t' →
        timestamp d t < timestamp d' t') ∧
      Boot.rtcToTimestamp = rtcToTimestamp := by
  have hyear : 1 ≤ d.year := Nat.le_trans (by decide) h.1
  have hepoch : 1 ≤ unixEpoch.year := by decide
  have hstamp := timestamp_toNat h t
  refine ⟨⟨d.ordinal - unixEpoch.ordinal, ?_⟩, fun n hn => ?_, fun d' t' h' => timestamp_lt h h',
    boot_rtcToTimestamp⟩
  · have hstart : Date.yearStart 1970 ≤ Date.yearStart d.year :=
      Date.yearStart_mono (by decide) h.1
    have hordinal : unixEpoch.ordinal ≤ d.ordinal := by
      have hfirst : unixEpoch.ordinal = Date.yearStart 1970 := rfl
      rw [hfirst, Date.ordinal]
      omega
    rw [Date.iterate_next_iff hepoch hyear, Nat.add_sub_cancel' hordinal]
  · rw [Date.iterate_next_iff hepoch hyear] at hn
    omega

def leapDay : Date where
  year := 2000
  month := 2
  day := 29
  month_pos := by decide
  month_le := by decide
  day_pos := by decide
  day_le := by decide

def noon : TimeOfDay where
  hour := 12
  minute := 0
  second := 0
  hour_lt := by decide
  minute_lt := by decide
  second_lt := by decide

theorem rtcToTimestamp_civil_leapDay :
    ∃ n, Date.next^[n] unixEpoch = leapDay ∧
      (timestamp leapDay noon).toNat = 86400 * n + noon.seconds := by
  have hclock : OnClock leapDay := ⟨by decide, by decide⟩
  obtain ⟨⟨n, hn⟩, hstamp, _⟩ := rtcToTimestamp_civil hclock noon
  exact ⟨n, hn, hstamp n hn⟩

end Dates

end Core

end AosKernel
