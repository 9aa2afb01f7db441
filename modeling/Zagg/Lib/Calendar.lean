import Zagg.Lib.Successors

/-!
# Calendar dates

The proleptic Gregorian calendar of the years 1 to 9999. Dates are compared by year, month and
day; a date has a day, a month and a year after it, except at the end of the calendar.
-/
namespace Zagg.Lib

def isLeap (year : Nat) : Bool := year % 4 = 0 && (year % 100 ≠ 0 || year % 400 = 0)

def daysInMonth (year month : Nat) : Nat :=
  if month = 2 then if isLeap year then 29 else 28
  else if month ∈ [4, 6, 9, 11] then 30 else 31

theorem daysInMonth_bounds (year month : Nat) :
    28 ≤ daysInMonth year month ∧ daysInMonth year month ≤ 31 := by
  unfold daysInMonth
  split_ifs <;> omega

/-- The fields that make a date. -/
def ValidDate (year month day : Nat) : Prop :=
  1 ≤ year ∧ year ≤ 9999 ∧ 1 ≤ month ∧ month ≤ 12 ∧ 1 ≤ day ∧ day ≤ daysInMonth year month

instance (year month day : Nat) : Decidable (ValidDate year month day) := by
  unfold ValidDate
  infer_instance

structure Date where
  year : Nat
  month : Nat
  day : Nat
  valid : ValidDate year month day
deriving DecidableEq

namespace Date

theorem bounds (d : Date) :
    1 ≤ d.year ∧ d.year ≤ 9999 ∧ 1 ≤ d.month ∧ d.month ≤ 12 ∧ 1 ≤ d.day ∧ d.day ≤ 31 := by
  obtain ⟨h1, h2, h3, h4, h5, h6⟩ := d.valid
  exact ⟨h1, h2, h3, h4, h5, h6.trans (daysInMonth_bounds ..).2⟩

/-- A number in the order of the dates. -/
def rank (d : Date) : Nat := (d.year * 13 + d.month) * 32 + d.day

theorem ext_fields {d e : Date} (hy : d.year = e.year) (hm : d.month = e.month)
    (hd : d.day = e.day) : d = e := by
  cases d
  cases e
  cases hy
  cases hm
  cases hd
  rfl

theorem rank_inj {d e : Date} (h : d.rank = e.rank) : d = e := by
  have hd := d.bounds
  have he := e.bounds
  simp only [rank] at h
  apply ext_fields <;> omega

/-- The date of given fields, if there is one. -/
def make (year month day : Nat) : Option Date :=
  if h : ValidDate year month day then some ⟨year, month, day, h⟩ else none

theorem make_eq_some {year month day : Nat} {d : Date} :
    make year month day = some d ↔ d.year = year ∧ d.month = month ∧ d.day = day := by
  unfold make
  constructor
  · intro h
    split at h
    · cases h
      exact ⟨rfl, rfl, rfl⟩
    · cases h
  · intro ⟨hy, hm, hd⟩
    subst hy hm hd
    rw [dif_pos d.valid]

theorem make_eq_none {year month day : Nat} :
    make year month day = none ↔ ¬ValidDate year month day := by
  unfold make
  split
  · exact ⟨nofun, fun h => absurd ‹_› h⟩
  · exact ⟨fun _ => ‹_›, fun _ => rfl⟩

theorem valid_first {year month : Nat} (hy : 1 ≤ year ∧ year ≤ 9999) (hm : 1 ≤ month ∧ month ≤ 12) :
    ValidDate year month 1 :=
  ⟨hy.1, hy.2, hm.1, hm.2, le_rfl, (by decide : 1 ≤ 28).trans (daysInMonth_bounds ..).1⟩

/-- The first of a date's year. -/
def yearStart (d : Date) : Date :=
  ⟨d.year, 1, 1, valid_first ⟨d.bounds.1, d.bounds.2.1⟩ (by decide)⟩

def monthStart (d : Date) : Date :=
  ⟨d.year, d.month, 1,
    valid_first ⟨d.bounds.1, d.bounds.2.1⟩ ⟨d.bounds.2.2.1, d.bounds.2.2.2.1⟩⟩

/-- The first of the next year. -/
def nextYear (d : Date) : Option Date := make (d.year + 1) 1 1

/-- The first of the next month. -/
def nextMonth (d : Date) : Option Date :=
  if d.month = 12 then make (d.year + 1) 1 1 else make d.year (d.month + 1) 1

/-- The day after. -/
def nextDay (d : Date) : Option Date :=
  if d.day < daysInMonth d.year d.month then make d.year d.month (d.day + 1) else d.nextMonth

/-- The day before. -/
def prevDay (d : Date) : Option Date :=
  if 1 < d.day then make d.year d.month (d.day - 1)
  else if 1 < d.month then make d.year (d.month - 1) (daysInMonth d.year (d.month - 1))
  else make (d.year - 1) 12 31

theorem succeeds_year :
    Succeeds (fun d : Date => d.month = 1 ∧ d.day = 1) rank nextYear := by
  constructor
  · intro a b _ _ h
    exact rank_inj h
  · intro a b ⟨hm, hd⟩ h
    obtain ⟨hy', hm', hd'⟩ := make_eq_some.mp h
    refine ⟨⟨hm', hd'⟩, ?_, fun e ⟨hem, hed⟩ hlt => ?_⟩
    · simp only [rank]
      omega
    · simp only [rank] at hlt ⊢
      omega
  · intro a ⟨hm, hd⟩ h e ⟨hem, hed⟩
    have hnot := make_eq_none.mp h
    have hlast : 9999 ≤ a.year := by
      by_contra hy
      exact hnot (valid_first (by omega) (by decide))
    have he := e.bounds
    simp only [rank]
    omega

theorem nextMonth_some {a b : Date} (h : a.nextMonth = some b) :
    b.day = 1 ∧ (a.month = 12 ∧ b.year = a.year + 1 ∧ b.month = 1 ∨
      a.month < 12 ∧ b.year = a.year ∧ b.month = a.month + 1) := by
  have ha := a.bounds
  unfold nextMonth at h
  split at h
  · obtain ⟨hy, hm, hd⟩ := make_eq_some.mp h
    exact ⟨hd, .inl ⟨‹_›, hy, hm⟩⟩
  · obtain ⟨hy, hm, hd⟩ := make_eq_some.mp h
    exact ⟨hd, .inr ⟨by omega, hy, hm⟩⟩

theorem nextMonth_none {a : Date} (h : a.nextMonth = none) : a.year = 9999 ∧ a.month = 12 := by
  have ha := a.bounds
  unfold nextMonth at h
  split at h
  · have hnot := make_eq_none.mp h
    refine ⟨?_, ‹_›⟩
    by_contra hy
    exact hnot (valid_first (by omega) (by decide))
  · exact absurd (valid_first (by omega) (by omega)) (make_eq_none.mp h)

theorem succeeds_month : Succeeds (fun d : Date => d.day = 1) rank nextMonth := by
  constructor
  · intro a b _ _ h
    exact rank_inj h
  · intro a b hd h
    obtain ⟨hd', hb⟩ := nextMonth_some h
    refine ⟨hd', ?_, fun e hed hlt => ?_⟩
    · simp only [rank]
      omega
    · have he := e.bounds
      simp only [rank] at hlt ⊢
      omega
  · intro a hd h e hed
    obtain ⟨hy, hm⟩ := nextMonth_none h
    have he := e.bounds
    simp only [rank]
    omega

theorem succeeds_day : Succeeds (fun _ : Date => True) rank nextDay := by
  constructor
  · intro a b _ _ h
    exact rank_inj h
  · intro a b _ h
    have ha := a.bounds
    unfold nextDay at h
    split at h
    · obtain ⟨hy, hm, hd⟩ := make_eq_some.mp h
      refine ⟨trivial, ?_, fun e _ hlt => ?_⟩
      · simp only [rank]
        omega
      · simp only [rank] at hlt ⊢
        omega
    · obtain ⟨hd, hb⟩ := nextMonth_some h
      refine ⟨trivial, ?_, fun e _ hlt => ?_⟩
      · simp only [rank]
        omega
      · have he := e.bounds
        -- no date of the same month comes after its last day
        have hmonth : ¬(e.year = a.year ∧ e.month = a.month ∧ a.day < e.day) := by
          intro ⟨hy, hm, hlt⟩
          have hlast := e.valid.2.2.2.2.2
          rw [hy, hm] at hlast
          omega
        simp only [rank] at hlt ⊢
        omega
  · intro a _ h e _
    have ha := a.bounds
    unfold nextDay at h
    split at h
    · have hday : ValidDate a.year a.month (a.day + 1) :=
        ⟨ha.1, ha.2.1, ha.2.2.1, ha.2.2.2.1, by omega, ‹_›⟩
      exact absurd hday (make_eq_none.mp h)
    · obtain ⟨hy, hm⟩ := nextMonth_none h
      have he := e.bounds
      have hmonth : ¬(e.year = a.year ∧ e.month = a.month ∧ a.day < e.day) := by
        intro ⟨hy, hm, hlt⟩
        have hlast := e.valid.2.2.2.2.2
        rw [hy, hm] at hlast
        omega
      simp only [rank]
      omega

end Date

end Zagg.Lib
