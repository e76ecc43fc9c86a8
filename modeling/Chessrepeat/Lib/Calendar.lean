import Mathlib.Data.Int.Basic
import Mathlib.Tactic.SplitIfs

/-!
# The Gregorian calendar

Days are counted from 1970-01-01, and every count of days has a date. Months count from 0 and days of a month from 1, as
ECMAScript does.
-/

namespace Chessrepeat.Lib.Calendar

/-- The first day of a year. -/
def dayFromYear (y : Int) : Int := 365 * (y - 1970) + (y - 1969) / 4 - (y - 1901) / 100 + (y - 1601) / 400

/-- The year of a day. The mean year gives it up to one. -/
def year (n : Int) : Int :=
  let y := 1970 + 400 * n / 146097
  if n < dayFromYear y then y - 1 else if dayFromYear (y + 1) ≤ n then y + 1 else y

theorem year_spec (n : Int) : dayFromYear (year n) ≤ n ∧ n < dayFromYear (year n + 1) := by
  rw [year]
  split_ifs with hlow hhigh
  · constructor
    · rw [dayFromYear]; omega
    · rwa [Int.sub_add_cancel]
  · refine ⟨hhigh, ?_⟩
    rw [dayFromYear]; omega
  · exact ⟨Int.not_lt.mp hlow, Int.not_le.mp hhigh⟩

def isLeap (y : Int) : Bool := y % 4 = 0 ∧ (y % 100 ≠ 0 ∨ y % 400 = 0)

theorem dayFromYear_succ (y : Int) : dayFromYear (y + 1) = dayFromYear y + if isLeap y then 366 else 365 := by
  simp only [dayFromYear, isLeap, decide_eq_true_eq]
  split_ifs with h <;> omega

/-- The first day of a month within its year. -/
def monthStart (leap : Bool) (m : Nat) : Int :=
  ([0, 31, 59, 90, 120, 151, 181, 212, 243, 273, 304, 334].getD m 365 : Int) + if leap ∧ 2 ≤ m then 1 else 0

/-- The month of a day of the year: the first one that ends after it. -/
def monthOfDay (leap : Bool) (d : Int) : Nat := (List.range 12).findIdx fun m => d < monthStart leap (m + 1)

theorem monthStart_succ (leap : Bool) : ∀ m < 12, monthStart leap (m + 1) ≤ monthStart leap m + 31 := by
  cases leap <;> decide

theorem monthOfDay_spec (leap : Bool) {d : Int} (h0 : 0 ≤ d) (h : d < if leap then 366 else 365) :
    monthOfDay leap d < 12 ∧ monthStart leap (monthOfDay leap d) ≤ d ∧ d < monthStart leap (monthOfDay leap d + 1) := by
  have hyear : d < monthStart leap 12 := by cases leap <;> exact h
  have hlt : monthOfDay leap d < (List.range 12).length :=
    List.findIdx_lt_length_of_exists ⟨11, by decide, decide_eq_true hyear⟩
  refine ⟨by rwa [List.length_range] at hlt, ?_, ?_⟩
  · cases hm : monthOfDay leap d with
    | zero => cases leap <;> exact h0
    | succ m =>
        have hnot := List.not_of_lt_findIdx (show m < monthOfDay leap d by omega)
        rw [List.getElem_range] at hnot
        exact Int.not_lt.mp (of_decide_eq_false hnot)
  · have hfound : decide (d < monthStart leap ((List.range 12)[monthOfDay leap d] + 1)) = true :=
      List.findIdx_getElem (w := hlt)
    rw [List.getElem_range] at hfound
    exact of_decide_eq_true hfound

/-- The days of the year before this one. -/
def dayInYear (n : Int) : Int := n - dayFromYear (year n)

def month (n : Int) : Nat := monthOfDay (isLeap (year n)) (dayInYear n)

def date (n : Int) : Int := dayInYear n - monthStart (isLeap (year n)) (month n) + 1

/-- The day of a date. A day of the month may lie outside the month. -/
def makeDay (y : Int) (m : Nat) (d : Int) : Int := dayFromYear y + monthStart (isLeap y) m + d - 1

theorem makeDay_date (n : Int) : makeDay (year n) (month n) (date n) = n := by
  rw [makeDay, date, dayInYear]; omega

theorem month_date_bounds (n : Int) : month n < 12 ∧ 1 ≤ date n ∧ date n ≤ 31 := by
  obtain ⟨hlow, hhigh⟩ := year_spec n
  rw [dayFromYear_succ] at hhigh
  obtain ⟨hmonth, hstart, hend⟩ := monthOfDay_spec (isLeap (year n)) (d := dayInYear n) (by rw [dayInYear]; omega)
    (by rw [dayInYear]; omega)
  have hgap := monthStart_succ (isLeap (year n)) _ hmonth
  rw [date, month]
  exact ⟨hmonth, by omega, by omega⟩

end Chessrepeat.Lib.Calendar
