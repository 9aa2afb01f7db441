import Mathlib.Algebra.GroupWithZero.Nat
import Mathlib.Order.Monotone.Basic
import Zagg.Lib.Calendar

/-!
# Counting days

The number of a date in the days from the first of the calendar, which keeps the order of dates.
-/
namespace Zagg.Lib

def daysBeforeYear (year : Nat) : Nat :=
  (year - 1) * 365 + (year - 1) / 4 - (year - 1) / 100 + (year - 1) / 400

/-- The days of a year before a month. -/
def daysBeforeMonth (year month : Nat) : Nat :=
  ((List.range' 1 (month - 1)).map (daysInMonth year)).sum

def yearLength (year : Nat) : Nat := if isLeap year then 366 else 365

theorem daysBeforeYear_succ {year : Nat} (h : 1 ≤ year) :
    daysBeforeYear (year + 1) = daysBeforeYear year + yearLength year := by
  obtain ⟨n, rfl⟩ := Nat.exists_eq_add_of_le' h
  have hleap : isLeap (n + 1) = true ↔ 4 ∣ n + 1 ∧ (¬100 ∣ n + 1 ∨ 400 ∣ n + 1) := by
    simp only [isLeap, Bool.and_eq_true, Bool.or_eq_true, decide_eq_true_eq, Nat.dvd_iff_mod_eq_zero,
      ne_eq]
  have hle : n / 100 ≤ n * 365 + n / 4 := by omega
  rw [daysBeforeYear, daysBeforeYear, Nat.add_sub_cancel, Nat.add_sub_cancel, Nat.succ_div,
    Nat.succ_div, Nat.succ_div, yearLength]
  generalize n / 4 = quarter at hle ⊢
  generalize n / 100 = century at hle ⊢
  by_cases h4 : 4 ∣ n + 1
  · by_cases h100 : 100 ∣ n + 1
    · by_cases h400 : 400 ∣ n + 1
      · rw [if_pos h4, if_pos h100, if_pos h400, if_pos (hleap.mpr ⟨h4, .inr h400⟩)]
        omega
      · rw [if_pos h4, if_pos h100, if_neg h400, if_neg fun h => (hleap.mp h).2.elim (· h100) h400]
        omega
    · have h400 : ¬400 ∣ n + 1 := fun h => h100 (Nat.dvd_trans (by decide) h)
      rw [if_pos h4, if_neg h100, if_neg h400, if_pos (hleap.mpr ⟨h4, .inl h100⟩)]
      omega
  · have h100 : ¬100 ∣ n + 1 := fun h => h4 (Nat.dvd_trans (by decide) h)
    have h400 : ¬400 ∣ n + 1 := fun h => h4 (Nat.dvd_trans (by decide) h)
    rw [if_neg h4, if_neg h100, if_neg h400, if_neg fun h => h4 (hleap.mp h).1]
    omega

theorem daysBeforeYear_le {year year' : Nat} (h : 1 ≤ year) (hlt : year < year') :
    daysBeforeYear year + yearLength year ≤ daysBeforeYear year' := by
  rw [← daysBeforeYear_succ h]
  induction year', hlt using Nat.le_induction with
  | base => exact le_rfl
  | succ y hy ih =>
    rw [daysBeforeYear_succ (show 1 ≤ y by omega)]
    omega

theorem daysBeforeMonth_succ (year : Nat) {month : Nat} (h : 1 ≤ month) :
    daysBeforeMonth year (month + 1) = daysBeforeMonth year month + daysInMonth year month := by
  obtain ⟨m, rfl⟩ := Nat.exists_eq_add_of_le' h
  rw [daysBeforeMonth, daysBeforeMonth, Nat.add_sub_cancel, Nat.add_sub_cancel, List.range'_concat,
    List.map_append, List.sum_append]
  simp [Nat.add_comm]

theorem daysBeforeMonth_le (year : Nat) {month month' : Nat} (h : 1 ≤ month) (hlt : month < month') :
    daysBeforeMonth year month + daysInMonth year month ≤ daysBeforeMonth year month' := by
  rw [← daysBeforeMonth_succ year h]
  induction month', hlt using Nat.le_induction with
  | base => exact le_rfl
  | succ m hm ih =>
    rw [daysBeforeMonth_succ year (show 1 ≤ m by omega)]
    omega

theorem daysBeforeMonth_december (year : Nat) : daysBeforeMonth year 13 = yearLength year := by
  unfold daysBeforeMonth yearLength daysInMonth
  cases isLeap year with
  | true => rfl
  | false => rfl

namespace Date

/-- The number of a date. -/
def ordinal (d : Date) : Nat := daysBeforeYear d.year + daysBeforeMonth d.year d.month + d.day

/-- A date comes before the month after it. -/
theorem ordinal_le_month (d : Date) :
    d.ordinal ≤ daysBeforeYear d.year + daysBeforeMonth d.year (d.month + 1) := by
  have hd := d.valid.2.2.2.2.2
  rw [ordinal, daysBeforeMonth_succ d.year d.bounds.2.2.1]
  omega

/-- A date comes before the year after it. -/
theorem ordinal_le_year (d : Date) : d.ordinal ≤ daysBeforeYear d.year + yearLength d.year := by
  have hmonth := d.ordinal_le_month
  have hd := d.bounds
  rw [← daysBeforeMonth_december]
  by_cases hm : d.month = 12
  · rw [hm] at hmonth
    exact hmonth
  · have hle := daysBeforeMonth_le d.year (show 1 ≤ d.month + 1 by omega)
      (show d.month + 1 < 13 by omega)
    omega

/-- Later dates have greater numbers. -/
theorem ordinal_lt {d e : Date} (h : d.rank < e.rank) : d.ordinal < e.ordinal := by
  have hd := d.bounds
  have he := e.bounds
  simp only [rank] at h
  by_cases hy : d.year = e.year
  · by_cases hm : d.month = e.month
    · rw [ordinal, ordinal, hy, hm]
      omega
    · have hmonth := d.ordinal_le_month
      have hsucc := daysBeforeMonth_succ d.year hd.2.2.1
      have hle := daysBeforeMonth_le d.year hd.2.2.1 (show d.month < e.month by omega)
      have heq : e.ordinal = daysBeforeYear d.year + daysBeforeMonth d.year e.month + e.day := by
        rw [ordinal, hy]
      omega
  · have hyear := d.ordinal_le_year
    have hle := daysBeforeYear_le hd.1 (show d.year < e.year by omega)
    have heq : e.ordinal = daysBeforeYear e.year + daysBeforeMonth e.year e.month + e.day := rfl
    omega

end Date

end Zagg.Lib
