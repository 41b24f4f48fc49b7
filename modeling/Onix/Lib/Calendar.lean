/-
The Gregorian calendar: how long months and years are, the number of a day counted from the first day of a year, and the order of days
and of the seconds in them. Days and seconds are numbered in their order.
-/
import Mathlib.Algebra.BigOperators.Intervals
import Mathlib.Algebra.Order.BigOperators.Group.Finset

namespace Onix.Lib

def Leap (y : Nat) : Prop := y % 4 = 0 ∧ y % 100 ≠ 0 ∨ y % 400 = 0

instance (y : Nat) : Decidable (Leap y) := inferInstanceAs (Decidable (_ ∨ _))

def yearDays (y : Nat) : Nat := if Leap y then 366 else 365

def monthDays (y : Nat) : Nat → Nat
  | 2 => if Leap y then 29 else 28
  | 4 | 6 | 9 | 11 => 30
  | _ => 31

def daysBefore (y m : Nat) : Nat := ∑ i ∈ Finset.Ico 1 m, monthDays y i

/-- The days before a year, from the first day of the year `e` on. -/
def daysSince (e y : Nat) : Nat := ∑ i ∈ Finset.Ico e y, yearDays i

structure Date where
  year : Nat
  month : Nat
  day : Nat
  month_mem : 1 ≤ month ∧ month ≤ 12
  day_mem : 1 ≤ day ∧ day ≤ monthDays year month

structure Moment where
  date : Date
  hour : Nat
  min : Nat
  sec : Nat
  hour_lt : hour < 24
  min_lt : min < 60
  sec_lt : sec < 60

variable {e y z m n : Nat}

/-! ## Months and years -/

theorem daysBefore_succ (hm : 1 ≤ m) : daysBefore y (m + 1) = daysBefore y m + monthDays y m :=
  Finset.sum_Ico_succ_top hm _

theorem daysBefore_mono (h : m ≤ n) : daysBefore y m ≤ daysBefore y n :=
  Finset.sum_le_sum_of_subset (Finset.Ico_subset_Ico_right h)

theorem daysBefore_year (y : Nat) : daysBefore y 13 = yearDays y := by
  unfold yearDays
  by_cases h : Leap y <;> simp [daysBefore, Finset.sum_Ico_succ_top, monthDays, h]

theorem daysSince_succ (h : e ≤ y) : daysSince e (y + 1) = daysSince e y + yearDays y :=
  Finset.sum_Ico_succ_top h _

theorem daysSince_mono (h : y ≤ z) : daysSince e y ≤ daysSince e z :=
  Finset.sum_le_sum_of_subset (Finset.Ico_subset_Ico_right h)

/-! ## Days -/

namespace Date

variable {d d' : Date}

def yday (d : Date) : Nat := daysBefore d.year d.month + (d.day - 1)

/-- The days before a day, from the first day of the year `e` on. -/
def number (e : Nat) (d : Date) : Nat := daysSince e d.year + d.yday

def Before (d d' : Date) : Prop :=
  d.year < d'.year ∨ d.year = d'.year ∧ (d.month < d'.month ∨ d.month = d'.month ∧ d.day < d'.day)

theorem yday_lt_next (d : Date) : d.yday < daysBefore d.year (d.month + 1) := by
  rw [daysBefore_succ d.month_mem.1]
  have := d.day_mem
  unfold yday
  omega

theorem yday_lt (d : Date) : d.yday < yearDays d.year := by
  rw [← daysBefore_year]
  have hm := d.month_mem.2
  exact Nat.lt_of_lt_of_le d.yday_lt_next (daysBefore_mono (by omega))

theorem number_lt (he : e ≤ d.year) (h : d.Before d') : d.number e < d'.number e := by
  unfold number
  rcases h with hy | ⟨hy, hm | ⟨hm, hd⟩⟩
  · have h1 := d.yday_lt
    have h2 := daysSince_mono (e := e) (Nat.succ_le_of_lt hy)
    rw [Nat.succ_eq_add_one, daysSince_succ he] at h2
    omega
  · rw [← hy]
    have h1 := d.yday_lt_next
    have h2 : daysBefore d.year (d.month + 1) ≤ daysBefore d.year d'.month := daysBefore_mono hm
    unfold yday at h1 ⊢
    rw [← hy]
    omega
  · have h1 := d.day_mem.1
    unfold yday
    rw [← hy, ← hm]
    omega

end Date

/-! ## Seconds -/

namespace Moment

variable {t u : Moment}

/-- The seconds before a second, from the first day of the year `e` on. -/
def seconds (e : Nat) (t : Moment) : Nat := ((t.date.number e * 24 + t.hour) * 60 + t.min) * 60 + t.sec

def Before (t u : Moment) : Prop :=
  t.date.Before u.date ∨ t.date = u.date ∧ (t.hour < u.hour ∨ t.hour = u.hour ∧ (t.min < u.min ∨ t.min = u.min ∧ t.sec < u.sec))

theorem seconds_lt (he : e ≤ t.date.year) (h : t.Before u) : t.seconds e < u.seconds e := by
  have h1 := t.hour_lt
  have h2 := t.min_lt
  have h3 := t.sec_lt
  unfold seconds
  rcases h with hd | ⟨hd, hh | ⟨hh, hm | ⟨hm, hs⟩⟩⟩
  · have := Date.number_lt he hd
    omega
  · rw [hd]
    omega
  · rw [hd, hh]
    omega
  · rw [hd, hh, hm]
    omega

end Moment

end Onix.Lib
