/-
The calendar of `kernel/time.c`; `lib/time.c` has a copy of `localtime` for user programs. What the clock chip shows is turned into
seconds since 1970, and seconds are turned back. The way there is right for every second up to 2069. The way back is right from March on
in years that are no leap years, up to the last days of a year, of which there is one for every leap year since 1970.
-/
import Mathlib.Tactic.IntervalCases
import Mathlib.Tactic.Ring
import Onix.Lib.Calendar

namespace Onix.Time

open Onix.Lib

/-! ## The program -/

structure Tm where
  tmSec : Int
  tmMin : Int
  tmHour : Int
  tmMday : Int
  tmMon : Int
  tmYear : Int
  tmWday : Int
  tmYday : Int
  tmIsdst : Int

def MINUTE : Int := 60

def HOUR : Int := 60 * MINUTE

def DAY : Int := 24 * HOUR

def YEAR : Int := 365 * DAY

def u32 (x : Int) : Int := x % 2 ^ 32

def monthTable : List Int :=
  [0, 0, 31, 31 + 29, 31 + 29 + 31, 31 + 29 + 31 + 30, 31 + 29 + 31 + 30 + 31, 31 + 29 + 31 + 30 + 31 + 30, 31 + 29 + 31 + 30 + 31 + 30 + 31,
    31 + 29 + 31 + 30 + 31 + 30 + 31 + 31, 31 + 29 + 31 + 30 + 31 + 30 + 31 + 31 + 30, 31 + 29 + 31 + 30 + 31 + 30 + 31 + 31 + 30 + 31,
    31 + 29 + 31 + 30 + 31 + 30 + 31 + 31 + 30 + 31 + 30]

def month (mon : Int) : Int := monthTable.getD mon.toNat 0

def elapsedLeapYears (year : Int) : Int :=
  (year - 1).tdiv 4 - (year - 1).tdiv 100 + (year + 299).tdiv 400 - (1970 - 1900 : Int).tdiv 4

def isLeapYear (year : Int) : Bool :=
  (year.tmod 4 = 0 && year.tmod 100 ≠ 0) || (year + 1900).tmod 400 = 0

def monthLoop (offset yday : Int) : Nat → Int → Int
  | 0, mon => mon
  | n + 1, mon => if month mon - offset > yday then mon else monthLoop offset yday n (mon + 1)

def localtime (stamp : Int) (time : Tm) : Tm :=
  let remain := stamp / 60
  let tmMin := remain % 60
  let remain := remain / 60
  let tmHour := remain % 24
  let days := remain / 24
  let years := days / 365 + 70
  let offset : Int := if isLeapYear years then 0 else 1
  let left := u32 (days - elapsedLeapYears years)
  let tmYday := left % (366 - offset)
  let tmMon := monthLoop offset tmYday 12 1 - 1
  { time with
    tmSec := stamp % 60, tmMin, tmHour, tmWday := (days + 4) % 7, tmYear := years, tmYday, tmMon,
    tmMday := tmYday - month tmMon + offset + 1 }

/-- The products are those of an `int` that wraps, which a `time_t` does not tell apart. -/
def mktime (time : Tm) : Int :=
  let year := if time.tmYear ≥ 70 then time.tmYear - 70 else time.tmYear - 70 + 100
  let res := u32 (YEAR * year)
  let res := u32 (res + DAY * (year + 1).tdiv 4)
  let res := u32 (res + month time.tmMon * DAY)
  let res := if time.tmMon > 2 ∧ (year + 2).tmod 4 ≠ 0 then u32 (res - DAY) else res
  let res := u32 (res + DAY * (time.tmMday - 1))
  let res := u32 (res + HOUR * time.tmHour)
  let res := u32 (res + MINUTE * time.tmMin)
  u32 (res + time.tmSec)

def getYday (time : Tm) : Int :=
  let res := month time.tmMon + time.tmMday
  let year := if time.tmYear ≥ 70 then time.tmYear - 70 else time.tmYear - 70 + 100
  if (year + 2).tmod 4 ≠ 0 ∧ time.tmMon > 2 then res - 1 else res

def bcdToBin (value : Nat) : Nat := (value % 16 + value / 16 * 10) % 256

def binToBcd (value : Nat) : Nat := (value / 10 * 16 + value % 10) % 256

/-- The registers of the clock chip, as the last round of `time_read_bcd` reads them. -/
structure Cmos where
  second : Nat
  minute : Nat
  hour : Nat
  weekday : Nat
  day : Nat
  month : Nat
  year : Nat

def timeReadBcd (r : Cmos) (time : Tm) : Tm :=
  { time with
    tmSec := r.second, tmMin := r.minute, tmHour := r.hour, tmWday := r.weekday, tmMday := r.day, tmMon := r.month, tmYear := r.year }

def timeRead (r : Cmos) (time : Tm) : Tm :=
  let time := timeReadBcd r time
  let time := { time with
    tmSec := bcdToBin time.tmSec.toNat, tmMin := bcdToBin time.tmMin.toNat, tmHour := bcdToBin time.tmHour.toNat,
    tmWday := bcdToBin time.tmWday.toNat, tmMday := bcdToBin time.tmMday.toNat, tmMon := bcdToBin time.tmMon.toNat,
    tmYear := bcdToBin time.tmYear.toNat }
  { time with tmYday := getYday time, tmIsdst := -1 }

/-! ## What the clock chip shows -/

structure Shown extends Moment where
  since : 1970 ≤ date.year
  upto : date.year ≤ 2069

/-- The registers of a chip that shows `t`, a day of the week numbered from one. -/
def Cmos.show (t : Shown) (weekday : Nat) : Cmos where
  second := binToBcd t.sec
  minute := binToBcd t.min
  hour := binToBcd t.hour
  weekday := binToBcd weekday
  day := binToBcd t.date.day
  month := binToBcd t.date.month
  year := binToBcd (t.date.year % 100)

def Shown.read (t : Shown) (weekday : Nat) (old : Tm) : Tm := timeRead (Cmos.show t weekday) old

variable {t u : Shown} {w : Nat} {old : Tm}

theorem bcdToBin_binToBcd {n : Nat} (h : n < 100) : bcdToBin (binToBcd n) = n := by
  have hall : ∀ n < 100, bcdToBin (binToBcd n) = n := by decide
  exact hall n h

theorem Shown.day_lt (t : Shown) : t.date.day < 100 := by
  have h := t.date.day_mem.2
  have hle : monthDays t.date.year t.date.month ≤ 31 := by
    unfold monthDays
    split <;> (try split) <;> decide
  omega

theorem Shown.read_sec : (t.read w old).tmSec = t.sec := by
  simp only [read, timeRead, timeReadBcd, Cmos.show, Int.toNat_natCast]
  rw [bcdToBin_binToBcd (Nat.lt_trans t.sec_lt (by decide))]

theorem Shown.read_min : (t.read w old).tmMin = t.min := by
  simp only [read, timeRead, timeReadBcd, Cmos.show, Int.toNat_natCast]
  rw [bcdToBin_binToBcd (Nat.lt_trans t.min_lt (by decide))]

theorem Shown.read_hour : (t.read w old).tmHour = t.hour := by
  simp only [read, timeRead, timeReadBcd, Cmos.show, Int.toNat_natCast]
  rw [bcdToBin_binToBcd (Nat.lt_trans t.hour_lt (by decide))]

theorem Shown.read_mday : (t.read w old).tmMday = t.date.day := by
  simp only [read, timeRead, timeReadBcd, Cmos.show, Int.toNat_natCast]
  rw [bcdToBin_binToBcd t.day_lt]

theorem Shown.read_mon : (t.read w old).tmMon = t.date.month := by
  simp only [read, timeRead, timeReadBcd, Cmos.show, Int.toNat_natCast]
  rw [bcdToBin_binToBcd (Nat.lt_of_le_of_lt t.date.month_mem.2 (by decide))]

theorem Shown.read_year : (t.read w old).tmYear = (t.date.year % 100 : Nat) := by
  simp only [read, timeRead, timeReadBcd, Cmos.show, Int.toNat_natCast]
  rw [bcdToBin_binToBcd (Nat.mod_lt _ (by decide))]

theorem Shown.read_since : (if (t.read w old).tmYear ≥ 70 then (t.read w old).tmYear - 70 else (t.read w old).tmYear - 70 + 100) =
    (t.date.year : Int) - 1970 := by
  have h1 := t.since
  have h2 := t.upto
  rw [read_year]
  split <;> omega

/-! ## The calendar in the program's terms -/

def leapsBefore (y : Nat) : Nat := (y - 1969) / 4

theorem leap_iff {y : Nat} (h1 : 1970 ≤ y) (h2 : y ≤ 2069) : Leap y ↔ y % 4 = 0 := by
  unfold Leap
  omega

theorem daysSince_eq : ∀ {y : Nat}, 1970 ≤ y → y ≤ 2070 → daysSince 1970 y = 365 * (y - 1970) + leapsBefore y := by
  intro y h1
  induction y, h1 using Nat.le_induction with
  | base => intro _; rfl
  | succ y h1 ih =>
    intro h2
    rw [daysSince_succ h1, ih (by omega)]
    unfold yearDays leapsBefore
    simp only [leap_iff h1 (by omega : y ≤ 2069)]
    split <;> omega

theorem month_eq (y : Nat) {m : Nat} (h1 : 1 ≤ m) (h2 : m ≤ 12) :
    month m = daysBefore y m + if 2 < m ∧ ¬ Leap y then 1 else 0 := by
  by_cases hl : Leap y
  · interval_cases m <;> simp [month, monthTable, daysBefore, Finset.sum_Ico_succ_top, monthDays, hl]
  · interval_cases m <;> simp [month, monthTable, daysBefore, Finset.sum_Ico_succ_top, monthDays, hl]

theorem elapsedLeapYears_eq {y : Nat} (h1 : 1970 ≤ y) (h2 : y ≤ 2070) : elapsedLeapYears ((y : Int) - 1900) = leapsBefore y := by
  unfold elapsedLeapYears leapsBefore
  rw [Int.tdiv_eq_ediv_of_nonneg (by omega), Int.tdiv_eq_ediv_of_nonneg (by omega), Int.tdiv_eq_ediv_of_nonneg (by omega),
    Int.tdiv_eq_ediv_of_nonneg (by omega)]
  omega

theorem isLeapYear_eq {y : Nat} (h1 : 1970 ≤ y) : isLeapYear ((y : Int) - 1900) = decide (Leap y) := by
  unfold isLeapYear
  rw [Int.tmod_eq_emod_of_nonneg (by omega), Int.tmod_eq_emod_of_nonneg (by omega), Int.tmod_eq_emod_of_nonneg (by omega), Bool.eq_iff_iff]
  simp only [Bool.or_eq_true, Bool.and_eq_true, decide_eq_true_eq]
  unfold Leap
  omega

/-! ## The way there -/

theorem u32_add (a b : Int) : u32 (u32 a + b) = u32 (a + b) := Int.emod_add_emod ..

theorem u32_sub (a b : Int) : u32 (u32 a - b) = u32 (a - b) := Int.emod_sub_emod ..

theorem u32_self {a : Int} (h1 : 0 ≤ a) (h2 : a < 2 ^ 32) : u32 a = a := Int.emod_eq_of_lt h1 h2

theorem Shown.number_eq (t : Shown) : (t.date.number 1970 : Int) =
    365 * ((t.date.year : Int) - 1970) + leapsBefore t.date.year + t.date.yday := by
  have h1 := t.since
  unfold Date.number
  rw [daysSince_eq t.since (Nat.le_succ_of_le t.upto)]
  omega

theorem Shown.yday_eq (t : Shown) : (t.date.yday : Int) =
    month t.date.month - (if 2 < t.date.month ∧ ¬ Leap t.date.year then 1 else 0) + (t.date.day - 1) := by
  have h1 := t.date.day_mem.1
  rw [month_eq t.date.year t.date.month_mem.1 t.date.month_mem.2]
  unfold Date.yday
  omega

theorem Shown.number_lt (t : Shown) : t.date.number 1970 < 36525 := by
  have h1 := t.upto
  have h3 := t.date.yday_lt
  have h4 := t.number_eq
  unfold yearDays at h3
  simp only [leap_iff t.since t.upto] at h3
  unfold leapsBefore at h4
  split at h3 <;> omega

theorem mktime_read (t : Shown) (w : Nat) (old : Tm) : mktime (t.read w old) = t.seconds 1970 := by
  have h1 := t.since
  have hyear : (((t.date.year : Int) - 1970 + 1).tdiv 4) = leapsBefore t.date.year := by
    rw [Int.tdiv_eq_ediv_of_nonneg (by omega)]
    unfold leapsBefore
    omega
  have hleap : ((t.date.year : Int) - 1970 + 2).tmod 4 ≠ 0 ↔ ¬ Leap t.date.year := by
    rw [Int.tmod_eq_emod_of_nonneg (by omega), leap_iff t.since t.upto]
    omega
  have hmon : (t.date.month : Int) > 2 ↔ 2 < t.date.month := by omega
  have hday := t.yday_eq
  have hnum := t.number_eq
  have hlt := t.number_lt
  have hh := t.hour_lt
  have hm := t.min_lt
  have hs := t.sec_lt
  unfold mktime
  dsimp only
  rw [Shown.read_since, hyear, Shown.read_mon, Shown.read_mday, Shown.read_hour, Shown.read_min, Shown.read_sec]
  simp only [hmon, hleap]
  unfold Moment.seconds YEAR HOUR MINUTE DAY HOUR MINUTE
  by_cases hfeb : 2 < t.date.month ∧ ¬ Leap t.date.year
  · rw [if_pos hfeb] at hday ⊢
    simp only [u32_add, u32_sub]
    rw [u32_self] <;> push_cast <;> omega
  · rw [if_neg hfeb] at hday ⊢
    simp only [u32_add]
    rw [u32_self] <;> push_cast <;> omega

/-! ## The way back -/

theorem monthLoop_spec {offset yday r : Int} : ∀ (n : Nat) (mon : Int), mon + n = 13 → mon ≤ r → r ≤ 13 →
    (∀ i, mon ≤ i → i < r → month i - offset ≤ yday) → (r < 13 → yday < month r - offset) → monthLoop offset yday n mon = r
  | 0, mon, h1, h2, h3, _, _ => by
    unfold monthLoop
    omega
  | n + 1, mon, h1, h2, h3, hbefore, hafter => by
    unfold monthLoop
    rcases Int.lt_or_eq_of_le h2 with hlt | rfl
    · rw [if_neg (by have := hbefore mon (Int.le_refl _) hlt; omega)]
      exact monthLoop_spec n (mon + 1) (by omega) (by omega) h3 (fun i hi => hbefore i (by omega)) hafter
    · rw [if_pos (hafter (by omega))]

theorem month_found (t : Shown) (hl : ¬ Leap t.date.year) (h : 3 ≤ t.date.month) :
    monthLoop 1 t.date.yday 12 1 = t.date.month + 1 := by
  have hm := t.date.month_mem.2
  have hend := t.date.yday_lt_next
  refine monthLoop_spec 12 1 (by decide) (by omega) (by omega) (fun i h1 h2 => ?_) fun h1 => ?_
  · obtain ⟨i, rfl⟩ : ∃ j : Nat, i = j := ⟨i.toNat, by omega⟩
    have hle : daysBefore t.date.year i ≤ daysBefore t.date.year t.date.month := daysBefore_mono (by omega)
    have hday : daysBefore t.date.year t.date.month ≤ t.date.yday := Nat.le_add_right ..
    rw [month_eq t.date.year (by omega) (by omega)]
    split <;> omega
  · have hnext := month_eq t.date.year (m := t.date.month + 1) (by omega) (by omega)
    rw [if_pos ⟨by omega, hl⟩] at hnext
    push_cast at hnext
    omega

theorem localtime_seconds (t : Shown) (time : Tm) : localtime (t.seconds 1970) time =
    let days : Int := t.date.number 1970
    let years := days / 365 + 70
    let offset : Int := if isLeapYear years then 0 else 1
    let tmYday := u32 (days - elapsedLeapYears years) % (366 - offset)
    let tmMon := monthLoop offset tmYday 12 1 - 1
    { time with
      tmSec := t.sec, tmMin := t.min, tmHour := t.hour, tmWday := (days + 4) % 7, tmYear := years, tmYday, tmMon,
      tmMday := tmYday - month tmMon + offset + 1 } := by
  have hh := t.hour_lt
  have hm := t.min_lt
  have hs := t.sec_lt
  have hdays : (t.seconds 1970 : Int) / 60 / 60 / 24 = t.date.number 1970 := by
    unfold Moment.seconds
    omega
  have hsec : (t.seconds 1970 : Int) % 60 = t.sec := by
    unfold Moment.seconds
    omega
  have hmin : (t.seconds 1970 : Int) / 60 % 60 = t.min := by
    unfold Moment.seconds
    omega
  have hhour : (t.seconds 1970 : Int) / 60 / 60 % 24 = t.hour := by
    unfold Moment.seconds
    omega
  unfold localtime
  simp only [hdays, hsec, hmin, hhour]

/-! ## There and back -/

/-- `r` is the time that is shown, the weekday counted from Sunday and the day of the year from zero. -/
structure Restored (t : Shown) (r : Tm) : Prop where
  sec : r.tmSec = t.sec
  min : r.tmMin = t.min
  hour : r.tmHour = t.hour
  mday : r.tmMday = t.date.day
  mon : r.tmMon = t.date.month
  year : 1900 + r.tmYear = t.date.year
  wday : r.tmWday = (t.date.number 1970 + 4) % 7
  yday : r.tmYday = t.date.yday

/-- From March on, in a year that is no leap year, up to the days at its end that are as many as the leap years since 1970. -/
def Restorable (t : Shown) : Prop :=
  ¬ Leap t.date.year ∧ 3 ≤ t.date.month ∧ leapsBefore t.date.year + t.date.yday < 365

theorem restored_of (t : Shown) (time : Tm) (h : Restorable t) : Restored t (localtime (t.seconds 1970) time) := by
  obtain ⟨hl, hmon, hend⟩ := h
  have hnum := t.number_eq
  have hday := t.yday_eq
  have hyears : (t.date.number 1970 : Int) / 365 + 70 = (t.date.year : Int) - 1900 := by omega
  have hleap : isLeapYear ((t.date.year : Int) - 1900) = false := by
    rw [isLeapYear_eq t.since, decide_eq_false hl]
  have hyday : u32 ((t.date.number 1970 : Int) - leapsBefore t.date.year) % (366 - 1) = t.date.yday := by
    rw [u32_self (by omega) (by have := t.number_lt; omega)]
    omega
  rw [localtime_seconds]
  simp only [hyears, hleap, Bool.false_eq_true, if_false, elapsedLeapYears_eq t.since (Nat.le_succ_of_le t.upto), hyday,
    month_found t hl hmon, Int.add_sub_cancel]
  constructor
  · rfl
  · rfl
  · rfl
  · rw [if_pos ⟨hmon, hl⟩] at hday
    dsimp only
    omega
  · rfl
  · dsimp only
    omega
  · rfl
  · rfl

theorem restorable_of (t : Shown) (time : Tm) (h : Restored t (localtime (t.seconds 1970) time)) : Restorable t := by
  have h2 := t.upto
  have hnum := t.number_eq
  have hday := t.yday_eq
  have hlt := t.date.yday_lt
  have hyear := h.year
  rw [localtime_seconds] at hyear
  dsimp only at hyear
  have hend : leapsBefore t.date.year + t.date.yday < 365 := by
    unfold yearDays at hlt
    split at hlt <;> omega
  have hyears : (t.date.number 1970 : Int) / 365 + 70 = (t.date.year : Int) - 1900 := by omega
  have hmday := h.mday
  have hmon := h.mon
  have hyday := h.yday
  rw [localtime_seconds] at hmday hmon hyday
  simp only [hyears, elapsedLeapYears_eq t.since (Nat.le_succ_of_le t.upto), isLeapYear_eq t.since] at hmday hmon hyday
  rw [u32_self (by omega) (by have := t.number_lt; omega)] at hmday hmon hyday
  have hl : ¬ Leap t.date.year := fun hl => by
    -- a leap year is divided by its own length
    rw [decide_eq_true hl] at hyday
    rw [if_pos rfl] at hyday
    have h3 := (leap_iff t.since t.upto).1 hl
    omega
  refine ⟨hl, ?_, hend⟩
  by_contra hfeb
  -- the table is taken to be a day ahead before March as well
  rw [decide_eq_false hl] at hmday hmon hyday
  simp only [Bool.false_eq_true, if_false] at hmday hmon hyday
  rw [hmon] at hmday
  omega

/-- The calendar: a time comes back exactly when it is restorable, and later times have more seconds. -/
theorem calendar_round_trip (t : Shown) (w : Nat) (old time : Tm) :
    (Restored t (localtime (mktime (t.read w old)) time) ↔ Restorable t) ∧
      ∀ (u : Shown) (w' : Nat) (old' : Tm), t.Before u.toMoment → mktime (t.read w old) < mktime (u.read w' old') := by
  constructor
  · rw [mktime_read]
    exact ⟨restorable_of t time, restored_of t time⟩
  · intro u w' old' h
    rw [mktime_read, mktime_read]
    have := Moment.seconds_lt t.since h
    omega

def firstSecond : Shown :=
  ⟨⟨⟨1970, 1, 1, by decide, by decide⟩, 0, 0, 0, by decide, by decide, by decide⟩, by decide, by decide⟩

def noTime : Tm := ⟨0, 0, 0, 0, 0, 0, 0, 0, 0⟩

/-- It comes back as the second of January. -/
theorem first_day_lost : (localtime (mktime (firstSecond.read 5 noTime)) noTime).tmMday = 2 ∧
    ¬ Restored firstSecond (localtime (mktime (firstSecond.read 5 noTime)) noTime) := by
  have hmday : (localtime (mktime (firstSecond.read 5 noTime)) noTime).tmMday = 2 := by decide
  refine ⟨hmday, fun h => ?_⟩
  have h1 : (2 : Int) = 1 := hmday.symm.trans h.mday
  omega

end Onix.Time
