import Mathlib.Algebra.Order.Field.Rat
import Mathlib.Tactic.Linarith
import Mathlib.Tactic.Positivity
import Mathlib.Tactic.FieldSimp
import Mathlib.Tactic.Ring
import Zagg.Lib.DayCount
import Zagg.Windows.Enumeration

/-!
# Dataset time

A dataset counts units of a scale since its epoch; the conversion from UTC adds the fixed
offset of the scale when the epoch is before 2017. Window bounds are converted once, so an
observation is compared with them in dataset units as its instant is in UTC.
-/
namespace Zagg.Windows

open Zagg.Lib

/-- The seconds of an instant in the calendar. -/
def Instant.seconds (t : Instant) : ℚ := t.date.ordinal * 86400 + t.time / 1000000

/-- Instants are in the order of their seconds. -/
theorem Instant.before_iff {a b : Instant} : a.before b ↔ a.seconds < b.seconds := by
  have hseconds {a b : Instant} (h : a.before b) : a.seconds < b.seconds := by
    have hmicro : (a.time : ℚ) < 86400000000 := by exact_mod_cast a.inDay
    have hpos : (0 : ℚ) ≤ b.time := Nat.cast_nonneg _
    rw [seconds, seconds]
    cases h with
    | inl hrank =>
      have hday : (a.date.ordinal : ℚ) + 1 ≤ b.date.ordinal := by
        exact_mod_cast Date.ordinal_lt hrank
      linarith
    | inr h =>
      have htime : (a.time : ℚ) < b.time := by exact_mod_cast h.2
      rw [Date.rank_inj h.1]
      linarith
  constructor
  · exact hseconds
  · intro hlt
    by_contra hnot
    by_cases hback : b.before a
    · exact absurd hlt (hseconds hback).asymm
    · have heq : a.date.rank = b.date.rank ∧ a.time = b.time := by
        rw [before] at hnot hback
        omega
      rw [seconds, seconds, Date.rank_inj heq.1, heq.2] at hlt
      exact lt_irrefl _ hlt

theorem Instant.not_before_iff {a b : Instant} : ¬a.before b ↔ b.seconds ≤ a.seconds := by
  rw [before_iff, not_lt]

/-- `EPOCH_SCALES`. -/
inductive Scale
  | utc
  | gps
  | tai
deriving DecidableEq

def epochOffset : Scale → ℚ
  | .utc => 0
  | .gps => 18
  | .tai => 37

inductive Units
  | seconds
  | days
deriving DecidableEq

def unitSeconds : Units → ℚ
  | .seconds => 1
  | .days => 86400

theorem unitSeconds_pos (units : Units) : 0 < unitSeconds units := by
  cases units <;> decide

/-- `_OFFSET_ERA`. -/
def offsetEra : Instant := .midnight ⟨2017, 1, 1, by decide⟩

/-- The encoding of a dataset's time field. -/
structure TimeEncoding where
  epoch : Instant
  scale : Scale
  units : Units

namespace TimeEncoding
variable (enc : TimeEncoding)

/-- What is added to the seconds since the epoch. -/
def shift : ℚ :=
  if enc.scale ≠ .utc ∧ enc.epoch.before offsetEra then epochOffset enc.scale else 0

def utcToOffset (dt : Instant) : ℚ :=
  (dt.seconds - enc.epoch.seconds + enc.shift) / unitSeconds enc.units

/-- `offset_to_utc`, as seconds in the calendar. -/
def offsetToUtc (value : ℚ) : ℚ :=
  enc.epoch.seconds + (value * unitSeconds enc.units - enc.shift)

/-- The conversions are inverse. -/
theorem offsetToUtc_utcToOffset (dt : Instant) :
    enc.offsetToUtc (enc.utcToOffset dt) = dt.seconds := by
  rw [offsetToUtc, utcToOffset, div_mul_cancel₀ _ (unitSeconds_pos enc.units).ne']
  ring

/-- A bound admits from below the values of the instants from it on. -/
theorem utcToOffset_le_iff {dt : Instant} {value : ℚ} :
    enc.utcToOffset dt ≤ value ↔ dt.seconds ≤ enc.offsetToUtc value := by
  rw [utcToOffset, offsetToUtc, div_le_iff₀ (unitSeconds_pos enc.units)]
  constructor
  · intro h
    linarith
  · intro h
    linarith

theorem lt_utcToOffset_iff {dt : Instant} {value : ℚ} :
    value < enc.utcToOffset dt ↔ enc.offsetToUtc value < dt.seconds := by
  rw [← not_le, utcToOffset_le_iff, not_le]

end TimeEncoding

end Zagg.Windows
