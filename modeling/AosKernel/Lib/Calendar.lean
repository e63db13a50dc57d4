import Mathlib.Algebra.Group.Nat.Defs
import Mathlib.Logic.Function.Iterate
import Mathlib.Tactic.IntervalCases

namespace Verif

-- The years of the Gregorian calendar that have a 29th of February.
def LeapYear (year : Nat) : Prop := year % 4 = 0 ∧ (year % 100 ≠ 0 ∨ year % 400 = 0)

instance (year : Nat) : Decidable (LeapYear year) :=
  inferInstanceAs (Decidable (year % 4 = 0 ∧ (year % 100 ≠ 0 ∨ year % 400 = 0)))

-- The months are counted from 1.
def monthLength (year : Nat) : Nat → Nat
  | 1 => 31
  | 2 => if LeapYear year then 29 else 28
  | 3 => 31
  | 4 => 30
  | 5 => 31
  | 6 => 30
  | 7 => 31
  | 8 => 31
  | 9 => 30
  | 10 => 31
  | 11 => 30
  | 12 => 31
  | _ => 0

-- A day of the calendar.
structure Date where
  year : Nat
  month : Nat
  day : Nat
  month_pos : 1 ≤ month
  month_le : month ≤ 12
  day_pos : 1 ≤ day
  day_le : day ≤ monthLength year month
  deriving DecidableEq

namespace Date

theorem january_le : 1 ≤ 12 := by decide

-- The days that have passed in a year when a month begins.
def daysBefore (year : Nat) : Nat → Nat
  | 0 => 0
  | 1 => 0
  | month + 2 => daysBefore year (month + 1) + monthLength year (month + 1)

-- The days from the first of January of the year 1 on to the one of this year.
def yearStart (year : Nat) : Nat :=
  365 * (year - 1) + (year - 1) / 4 - (year - 1) / 100 + (year - 1) / 400

def ordinal (d : Date) : Nat := yearStart d.year + daysBefore d.year d.month + (d.day - 1)

def Before (d d' : Date) : Prop :=
  d.year < d'.year ∨
    d.year = d'.year ∧ (d.month < d'.month ∨ d.month = d'.month ∧ d.day < d'.day)

theorem monthLength_pos (year : Nat) {month : Nat} (h : 1 ≤ month) (h' : month ≤ 12) :
    1 ≤ monthLength year month := by
  interval_cases month
  all_goals
    simp only [monthLength]
    try split
    all_goals omega

-- The day after: the next one of the month, of the year, or of the calendar.
def next (d : Date) : Date :=
  if hday : d.day < monthLength d.year d.month then
    { d with day := d.day + 1, day_pos := Nat.le_add_left 1 _, day_le := hday }
  else if hmonth : d.month < 12 then
    { year := d.year
      month := d.month + 1
      day := 1
      month_pos := Nat.le_add_left 1 _
      month_le := hmonth
      day_pos := Nat.le_refl 1
      day_le := monthLength_pos _ (Nat.le_add_left 1 _) hmonth }
  else
    { year := d.year + 1
      month := 1
      day := 1
      month_pos := Nat.le_refl 1
      month_le := by decide
      day_pos := Nat.le_refl 1
      day_le := monthLength_pos _ (Nat.le_refl 1) (by decide) }

theorem daysBefore_succ (year : Nat) {month : Nat} (h : 1 ≤ month) :
    daysBefore year (month + 1) = daysBefore year month + monthLength year month := by
  obtain ⟨k, rfl⟩ := Nat.exists_eq_add_of_le' h
  rfl

-- One more multiple of `n` lies below the next number exactly if this one is a multiple.
theorem div_succ_pred {n year : Nat} (h : 1 ≤ year) :
    year / n = (year - 1) / n + if year % n = 0 then 1 else 0 := by
  obtain ⟨k, rfl⟩ := Nat.exists_eq_add_of_le' h
  rw [Nat.succ_div, Nat.add_sub_cancel]
  simp only [Nat.dvd_iff_mod_eq_zero]

theorem daysBefore_thirteen (year : Nat) :
    daysBefore year 13 = if LeapYear year then 366 else 365 := by
  simp only [daysBefore, monthLength]
  split <;> rfl

-- A year has 365 days, and one more if it is a leap year.
theorem yearStart_succ {year : Nat} (h : 1 ≤ year) :
    yearStart (year + 1) = yearStart year + daysBefore year 13 := by
  have hfour := div_succ_pred (n := 4) h
  have hcentury := div_succ_pred (n := 100) h
  have hfourth := div_succ_pred (n := 400) h
  have hfew : (year - 1) / 100 ≤ (year - 1) / 4 := Nat.div_le_div_left (by decide) (by decide)
  have hmultiple : year % 400 = 0 → year % 100 = 0 := by omega
  have hmultiple' : year % 100 = 0 → year % 4 = 0 := by omega
  rw [daysBefore_thirteen, yearStart, yearStart, Nat.add_sub_cancel, hfour, hcentury, hfourth]
  clear hfour hcentury hfourth
  by_cases hexception : year % 400 = 0
  · have hhundred := hmultiple hexception
    have hyear := hmultiple' hhundred
    have hleap : LeapYear year := ⟨hyear, Or.inr hexception⟩
    rw [if_pos hyear, if_pos hhundred, if_pos hexception, if_pos hleap]
    omega
  · by_cases hhundred : year % 100 = 0
    · have hplain : ¬ LeapYear year := fun hleap => hleap.2.elim (absurd hhundred) hexception
      rw [if_pos (hmultiple' hhundred), if_pos hhundred, if_neg hexception, if_neg hplain]
      omega
    · by_cases hyear : year % 4 = 0
      · have hleap : LeapYear year := ⟨hyear, Or.inl hhundred⟩
        rw [if_pos hyear, if_neg hhundred, if_neg hexception, if_pos hleap]
        omega
      · have hplain : ¬ LeapYear year := fun hleap => hyear hleap.1
        rw [if_neg hyear, if_neg hhundred, if_neg hexception, if_neg hplain]
        omega

theorem daysBefore_mono (year : Nat) {month month' : Nat} (h : 1 ≤ month) (hle : month ≤ month') :
    daysBefore year month ≤ daysBefore year month' := by
  induction hle with
  | refl => exact Nat.le_refl _
  | @step m hle ih =>
      rw [daysBefore_succ year (Nat.le_trans h hle)]
      exact Nat.le_trans ih (Nat.le_add_right _ _)

theorem daysBefore_le (d : Date) : daysBefore d.year d.month ≤ 366 := by
  have hyear : daysBefore d.year d.month ≤ daysBefore d.year 13 :=
    daysBefore_mono d.year d.month_pos (Nat.le_succ_of_le d.month_le)
  rw [daysBefore_thirteen] at hyear
  split at hyear <;> omega

theorem day_le_31 (d : Date) : d.day ≤ 31 := by
  have hlast := d.day_le
  have hfirst := d.month_pos
  have hmonth := d.month_le
  interval_cases d.month
  all_goals
    simp only [monthLength] at hlast
    try split at hlast
    all_goals omega

theorem yearStart_mono {year year' : Nat} (h : 1 ≤ year) (hle : year ≤ year') :
    yearStart year ≤ yearStart year' := by
  induction hle with
  | refl => exact Nat.le_refl _
  | @step y hle ih =>
      rw [yearStart_succ (Nat.le_trans h hle)]
      exact Nat.le_trans ih (Nat.le_add_right _ _)

variable {d d' : Date}

theorem ordinal_lt_month (d : Date) :
    d.ordinal < yearStart d.year + daysBefore d.year (d.month + 1) := by
  have hlast := d.day_le
  have hfirst := d.day_pos
  rw [ordinal, daysBefore_succ d.year d.month_pos]
  omega

theorem ordinal_lt_year (d : Date) (h : 1 ≤ d.year) : d.ordinal < yearStart (d.year + 1) := by
  have hmonth := d.ordinal_lt_month
  have hyear : daysBefore d.year (d.month + 1) ≤ daysBefore d.year 13 :=
    daysBefore_mono d.year (Nat.le_add_left 1 _) (Nat.succ_le_succ d.month_le)
  rw [yearStart_succ h]
  omega

theorem ordinal_lt (h : 1 ≤ d.year) (hbefore : d.Before d') : d.ordinal < d'.ordinal := by
  rcases hbefore with hyear | ⟨hyear, hmonth | ⟨hmonth, hday⟩⟩
  · calc
      d.ordinal < yearStart (d.year + 1) := d.ordinal_lt_year h
      _ ≤ yearStart d'.year := yearStart_mono (Nat.le_add_left 1 _) hyear
      _ ≤ d'.ordinal := by rw [ordinal, Nat.add_assoc]; exact Nat.le_add_right _ _
  · have hle : daysBefore d'.year (d.month + 1) ≤ daysBefore d'.year d'.month :=
      daysBefore_mono d'.year (Nat.le_add_left 1 _) hmonth
    have hlt := d.ordinal_lt_month
    rw [hyear] at hlt
    rw [ordinal.eq_1 d']
    omega
  · have hfirst := d.day_pos
    rw [ordinal, ordinal, hyear, hmonth]
    omega

theorem before_or_eq (d d' : Date) : d.Before d' ∨ d = d' ∨ d'.Before d := by
  have heq : d.year = d'.year → d.month = d'.month → d.day = d'.day → d = d' := by
    cases d
    cases d'
    rintro rfl rfl rfl
    rfl
  unfold Before
  by_cases hyear : d.year = d'.year
  · by_cases hmonth : d.month = d'.month
    · by_cases hday : d.day = d'.day
      · exact Or.inr (Or.inl (heq hyear hmonth hday))
      · omega
    · omega
  · omega

theorem ordinal_inj (h : 1 ≤ d.year) (h' : 1 ≤ d'.year) (heq : d.ordinal = d'.ordinal) : d = d' := by
  rcases before_or_eq d d' with hbefore | hsame | hafter
  · exact absurd heq (Nat.ne_of_lt (ordinal_lt h hbefore))
  · exact hsame
  · exact absurd heq.symm (Nat.ne_of_lt (ordinal_lt h' hafter))

-- The next day is one later.
theorem ordinal_next (h : 1 ≤ d.year) : d.next.ordinal = d.ordinal + 1 := by
  have hfirst := d.day_pos
  have hlast := d.day_le
  unfold next
  split
  · show yearStart d.year + daysBefore d.year d.month + (d.day + 1 - 1) = _
    rw [ordinal]
    omega
  · split
    · show yearStart d.year + daysBefore d.year (d.month + 1) + (1 - 1) = _
      rw [daysBefore_succ d.year d.month_pos, ordinal]
      omega
    · have hmonth := d.month_le
      have hdecember : d.month = 12 := by omega
      show yearStart (d.year + 1) + daysBefore (d.year + 1) 1 + (1 - 1) = _
      rw [hdecember] at hlast
      rw [yearStart_succ h, daysBefore_succ d.year (by decide : 1 ≤ 12), ordinal, hdecember,
        daysBefore.eq_2]
      simp only [hdecember] at *
      omega

theorem next_year_pos (h : 1 ≤ d.year) : 1 ≤ d.next.year := by
  unfold next
  split
  · exact h
  · split
    · exact h
    · exact Nat.le_add_left 1 _

theorem year_pos_iterate (h : 1 ≤ d.year) (n : Nat) : 1 ≤ (next^[n] d).year := by
  induction n with
  | zero => exact h
  | succ n ih =>
      rw [Function.iterate_succ_apply']
      exact next_year_pos ih

theorem ordinal_iterate (h : 1 ≤ d.year) (n : Nat) : (next^[n] d).ordinal = d.ordinal + n := by
  induction n with
  | zero => rfl
  | succ n ih =>
      rw [Function.iterate_succ_apply', ordinal_next (year_pos_iterate h n), ih, Nat.add_assoc]

-- Counting days from one date comes to another exactly after the difference of the two.
theorem iterate_next_iff (h : 1 ≤ d.year) (h' : 1 ≤ d'.year) (n : Nat) :
    next^[n] d = d' ↔ d'.ordinal = d.ordinal + n := by
  constructor
  · rintro rfl
    exact ordinal_iterate h n
  · intro hdays
    apply ordinal_inj (year_pos_iterate h n) h'
    rw [ordinal_iterate h n, hdays]

end Date

end Verif
