import Mathlib.Algebra.Order.Field.Basic
import Mathlib.Algebra.Order.Ring.Defs
import Mathlib.Tactic.FieldSimp
import Mathlib.Tactic.Linarith
import Mathlib.Tactic.Ring

/-!
# Piecewise linear interpolation

`interp` reads a value off the polygon through points with ascending abscissas: the left value
before the first point, the right value after the last, and at an abscissa that repeats the last
of its ordinates. It is monotone as soon as the ordinates ascend and the two outer values bound
them.
-/
namespace Zagg.Lib

universe u

variable {K : Type u} [Field K] [LinearOrder K]

/-- The value from a point at or before `x` on: the search goes to the last such point. -/
def interpFrom (x : K) (p : K × K) : List (K × K) → K
  | [] => p.2
  | q :: rest =>
    if q.1 ≤ x then interpFrom x q rest
    else if p.1 = x then p.2
    else (q.2 - p.2) / (q.1 - p.1) * (x - p.1) + p.2

/-- The polygon through the points. -/
def interp (left right x : K) : List (K × K) → K
  | [] => left
  | p :: rest =>
    if x < p.1 then left
    else if ((p :: rest).getLast (List.cons_ne_nil p rest)).1 < x then right
    else interpFrom x p rest

/-- Points in ascending order of both coordinates. -/
def Ascends (points : List (K × K)) : Prop :=
  points.Pairwise fun p q => p.1 ≤ q.1 ∧ p.2 ≤ q.2

/-- At the last abscissa the value is the last ordinate. -/
theorem interpFrom_last {x : K} {p : K × K} {rest : List (K × K)}
    (h : ∀ q ∈ rest, q.1 ≤ x) :
    interpFrom x p rest = ((p :: rest).getLast (List.cons_ne_nil p rest)).2 := by
  induction rest generalizing p with
  | nil => rfl
  | cons q rest ih =>
    rw [interpFrom, if_pos (h q (.head _)), ih fun r hr => h r (.tail _ hr)]
    rfl

theorem interp_of_lt {left right x : K} {points : List (K × K)} (h : ∀ p ∈ points, x < p.1) :
    interp left right x points = left := by
  cases points with
  | nil => rfl
  | cons p rest => exact if_pos (h p (.head _))

theorem interp_of_gt {left right x : K} {points : List (K × K)} (hne : points ≠ [])
    (h : ∀ p ∈ points, p.1 < x) :
    interp left right x points = right := by
  cases points with
  | nil => exact absurd rfl hne
  | cons p rest =>
    rw [interp, if_neg (not_lt.mpr (h p (.head _)).le), if_pos (h _ (List.getLast_mem _))]

variable [IsStrictOrderedRing K]

/-- Between two points the value is between their ordinates. -/
theorem segment_bounds {p q : K × K} {x : K} (hp : p.1 ≤ x) (hq : x < q.1) (h : p.2 ≤ q.2) :
    p.2 ≤ (q.2 - p.2) / (q.1 - p.1) * (x - p.1) + p.2 ∧
      (q.2 - p.2) / (q.1 - p.1) * (x - p.1) + p.2 ≤ q.2 := by
  have hwidth : 0 < q.1 - p.1 := by linarith
  have hslope : 0 ≤ (q.2 - p.2) / (q.1 - p.1) := div_nonneg (by linarith) hwidth.le
  constructor
  · have hrise := mul_nonneg hslope (sub_nonneg.mpr hp)
    linarith
  · have hle : (q.2 - p.2) / (q.1 - p.1) * (x - p.1) ≤ (q.2 - p.2) / (q.1 - p.1) * (q.1 - p.1) :=
      mul_le_mul_of_nonneg_left (by linarith) hslope
    rw [div_mul_cancel₀ _ hwidth.ne'] at hle
    linarith

theorem le_interpFrom {x : K} {p : K × K} {rest : List (K × K)} (h : Ascends (p :: rest))
    (hp : p.1 ≤ x) : p.2 ≤ interpFrom x p rest := by
  induction rest generalizing p with
  | nil => exact le_rfl
  | cons q rest ih =>
    have hpq := (List.pairwise_cons.mp h).1 q (.head _)
    rw [interpFrom]
    split_ifs with hq heq
    · exact hpq.2.trans (ih h.of_cons hq)
    · exact le_rfl
    · exact (segment_bounds hp (not_le.mp hq) hpq.2).1

/-- No value exceeds a bound of the ordinates. -/
theorem interpFrom_le {x top : K} {p : K × K} {rest : List (K × K)} (h : Ascends (p :: rest))
    (hp : p.1 ≤ x) (htop : ∀ q ∈ p :: rest, q.2 ≤ top) : interpFrom x p rest ≤ top := by
  induction rest generalizing p with
  | nil => exact htop p (.head _)
  | cons q rest ih =>
    have hpq := (List.pairwise_cons.mp h).1 q (.head _)
    rw [interpFrom]
    split_ifs with hq heq
    · exact ih h.of_cons hq fun r hr => htop r (.tail _ hr)
    · exact htop p (.head _)
    · exact (segment_bounds hp (not_le.mp hq) hpq.2).2.trans (htop q (.tail _ (.head _)))

theorem interpFrom_mono {x y : K} {p : K × K} {rest : List (K × K)} (h : Ascends (p :: rest))
    (hp : p.1 ≤ x) (hxy : x ≤ y) : interpFrom x p rest ≤ interpFrom y p rest := by
  induction rest generalizing p with
  | nil => exact le_rfl
  | cons q rest ih =>
    have hpq := (List.pairwise_cons.mp h).1 q (.head _)
    rw [interpFrom, interpFrom]
    by_cases hqx : q.1 ≤ x
    · rw [if_pos hqx, if_pos (hqx.trans hxy)]
      exact ih h.of_cons hqx
    · rw [if_neg hqx]
      have hx := segment_bounds hp (not_le.mp hqx) hpq.2
      by_cases hqy : q.1 ≤ y
      -- the two arguments lie on both sides of the point `q`
      · rw [if_pos hqy]
        have hy := le_interpFrom h.of_cons hqy
        split_ifs
        · exact hpq.2.trans hy
        · exact hx.2.trans hy
      · rw [if_neg hqy]
        have hwidth : 0 < q.1 - p.1 := by linarith [not_le.mp hqx]
        have hslope : 0 ≤ (q.2 - p.2) / (q.1 - p.1) := div_nonneg (by linarith [hpq.2]) hwidth.le
        have hline : (q.2 - p.2) / (q.1 - p.1) * (x - p.1) + p.2 ≤
            (q.2 - p.2) / (q.1 - p.1) * (y - p.1) + p.2 := by
          have hmul := mul_le_mul_of_nonneg_left (sub_le_sub_right hxy p.1) hslope
          linarith
        split_ifs with hxp hyp hyp
        · exact le_rfl
        · exact (segment_bounds (hp.trans hxy) (not_le.mp hqy) hpq.2).1
        · obtain rfl : x = p.1 := le_antisymm (hxy.trans hyp.ge) hp
          exact absurd rfl hxp
        · exact hline

section Bounds
variable {left right x y : K} {points : List (K × K)}

/-- The value is between the outer ones. -/
theorem interp_bounds (h : Ascends points) (hleft : ∀ p ∈ points, left ≤ p.2)
    (hright : ∀ p ∈ points, p.2 ≤ right) (hle : left ≤ right) :
    left ≤ interp left right x points ∧ interp left right x points ≤ right := by
  cases points with
  | nil => exact ⟨le_rfl, hle⟩
  | cons p rest =>
    rw [interp]
    split_ifs with hlow hhigh
    · exact ⟨le_rfl, hle⟩
    · exact ⟨hle, le_rfl⟩
    · have hp := not_lt.mp hlow
      exact ⟨(hleft p (.head _)).trans (le_interpFrom h hp), interpFrom_le h hp hright⟩

theorem interp_mono (h : Ascends points) (hleft : ∀ p ∈ points, left ≤ p.2)
    (hright : ∀ p ∈ points, p.2 ≤ right) (hle : left ≤ right) (hxy : x ≤ y) :
    interp left right x points ≤ interp left right y points := by
  cases points with
  | nil => exact le_rfl
  | cons p rest =>
    have hx := interp_bounds (x := x) h hleft hright hle
    have hy := interp_bounds (x := y) h hleft hright hle
    by_cases hlow : x < p.1
    · rw [interp, if_pos hlow]
      exact hy.1
    · by_cases hhigh : ((p :: rest).getLast (List.cons_ne_nil p rest)).1 < y
      · have hpy : ¬y < p.1 := not_lt.mpr ((not_lt.mp hlow).trans hxy)
        rw [show interp left right y (p :: rest) = right by rw [interp, if_neg hpy, if_pos hhigh]]
        exact hx.2
      · have hpx := not_lt.mp hlow
        have hpy : ¬y < p.1 := not_lt.mpr (hpx.trans hxy)
        have hhigh' : ¬((p :: rest).getLast (List.cons_ne_nil p rest)).1 < x := fun hlt =>
          hhigh (hlt.trans_le hxy)
        rw [interp, interp, if_neg hlow, if_neg hhigh', if_neg hpy, if_neg hhigh]
        exact interpFrom_mono h hpx hxy

end Bounds

end Zagg.Lib
