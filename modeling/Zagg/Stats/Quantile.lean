import Mathlib.Algebra.Order.Field.Basic
import Mathlib.Algebra.Order.Field.Rat
import Mathlib.Algebra.Order.BigOperators.Group.List
import Mathlib.Tactic.FieldSimp
import Mathlib.Tactic.Linarith
import Mathlib.Tactic.Ring
import Zagg.Stats.Tdigest

/-!
# Reading quantiles

`quantile_from_tdigest` scales `q` to a rank between 0 and one below the total weight and
takes the first centroid whose last rank is no smaller. A heavier centroid's values are
interpolated from its first rank on, and the ranks less than one below that, which the centroid
before does not reach, are extrapolated from the same line. The value there stays at or above
the one before exactly when the line rises slowly enough.
-/
namespace Zagg.Stats

/-- The value at a centroid's first rank: halfway from the one before. -/
def leftValue (prev : Option Centroid) (c : Centroid) : ℚ :=
  match prev with
  | none => c.mean
  | some p => (p.mean + c.mean) / 2

/-- The value at its last rank: halfway to the next. -/
def rightValue (c : Centroid) (next : Option Centroid) : ℚ :=
  match next with
  | none => c.mean
  | some d => (c.mean + d.mean) / 2

/-- The search for a rank, with the centroid and the cumulative weight before. -/
def readRank (target : ℚ) (prev : Option Centroid) (lower : ℚ) : Digest → ℚ
  | [] => (prev.map Centroid.mean).getD 0
  | c :: cs =>
    let hi := lower + c.weight - 1
    if target ≤ hi then
      if hi ≤ lower then c.mean
      else
        let frac := (target - lower) / (hi - lower)
        leftValue prev c + frac * (rightValue c cs.head? - leftValue prev c)
    else readRank target (some c) (lower + c.weight) cs

def totalWeight (digest : Digest) : ℚ := (digest.map Centroid.weight).sum

/-- `quantile_from_tdigest`; `none` is the NaN of an empty digest. -/
def quantileFromTdigest (digest : Digest) (q : ℚ) : Option ℚ :=
  if digest = [] then none
  else some (readRank (q * (totalWeight digest - 1)) none 0 digest)

/-- The value the ranks before a centroid reach: its predecessor's last one, or the smallest
mean while there is no rank yet. -/
def reached (first : ℚ) (prev : Option Centroid) (lower : ℚ) (c : Centroid) : ℚ :=
  if lower < 1 then first
  else
    match prev with
    | none => first
    | some p => if 1 < p.weight then leftValue prev c else p.mean

/-- No centroid heavier than 1 rises, over its ranks, so fast that its line falls below what
the ranks before reach: extended `min lower 1` below its first rank, the line stays above. -/
def SlowRise (first : ℚ) (prev : Option Centroid) (lower : ℚ) : Digest → Prop
  | [] => True
  | c :: cs =>
    (1 < c.weight → min lower 1 * (rightValue c cs.head? - leftValue prev c) ≤
      (c.weight - 1) * (leftValue prev c - reached first prev lower c)) ∧
    SlowRise first (some c) (lower + c.weight) cs

/-- What holds of the centroids from one of them on. -/
structure Suffix (first : ℚ) (prev : Option Centroid) (lower : ℚ) (cs : Digest) : Prop where
  sorted : cs.Pairwise fun c d => c.mean ≤ d.mean
  weight_pos : ∀ c ∈ cs, 0 < c.weight
  lower_nonneg : 0 ≤ lower
  first_le : ∀ c ∈ cs, first ≤ c.mean
  prev_le : ∀ p ∈ prev, first ≤ p.mean ∧ ∀ c ∈ cs, p.mean ≤ c.mean

section Suffix
variable {first lower : ℚ} {prev : Option Centroid} {c : Centroid} {cs : Digest}

theorem Suffix.tail (h : Suffix first prev lower (c :: cs)) :
    Suffix first (some c) (lower + c.weight) cs := by
  refine ⟨h.sorted.of_cons, fun d hd => h.weight_pos d (.tail _ hd), ?_,
    fun d hd => h.first_le d (.tail _ hd), fun p hp => ?_⟩
  · exact add_nonneg h.lower_nonneg (h.weight_pos c (.head _)).le
  · obtain rfl := Option.mem_some_iff.mp hp
    exact ⟨h.first_le c (.head _), fun d hd => List.rel_of_pairwise_cons h.sorted hd⟩

theorem Suffix.leftValue_le (h : Suffix first prev lower (c :: cs)) : leftValue prev c ≤ c.mean := by
  cases prev with
  | none => exact le_rfl
  | some p =>
    have hp := (h.prev_le p rfl).2 c (.head _)
    show (p.mean + c.mean) / 2 ≤ c.mean
    linarith

theorem Suffix.le_rightValue (h : Suffix first prev lower (c :: cs)) : c.mean ≤ rightValue c cs.head? := by
  cases cs with
  | nil => exact le_rfl
  | cons d cs =>
    have hd : c.mean ≤ d.mean := List.rel_of_pairwise_cons h.sorted (.head _)
    show c.mean ≤ (c.mean + d.mean) / 2
    linarith

theorem Suffix.reached_le (h : Suffix first prev lower (c :: cs)) :
    reached first prev lower c ≤ leftValue prev c := by
  have hfirst : first ≤ leftValue prev c := by
    cases prev with
    | none => exact h.first_le c (.head _)
    | some p =>
      have hp := (h.prev_le p rfl).1
      have hc := h.first_le c (.head _)
      show first ≤ (p.mean + c.mean) / 2
      linarith
  unfold reached
  split_ifs with hlower
  · exact hfirst
  · cases prev with
    | none => exact hfirst
    | some p =>
      dsimp only
      split_ifs
      · exact le_rfl
      · have hp := (h.prev_le p rfl).2 c (.head _)
        show p.mean ≤ (p.mean + c.mean) / 2
        linarith

/-- What the next centroid's ranks start from is no less than what this one's do. -/
theorem Suffix.reached_mono {d : Centroid} (h : Suffix first prev lower (c :: d :: cs)) :
    reached first prev lower c ≤ reached first (some c) (lower + c.weight) d := by
  have hpos := h.weight_pos c (.head _)
  have hleft := h.reached_le.trans h.leftValue_le
  have hmid : c.mean ≤ leftValue (some c) d := by
    have hd : c.mean ≤ d.mean := List.rel_of_pairwise_cons h.sorted (.head _)
    show c.mean ≤ (c.mean + d.mean) / 2
    linarith
  by_cases hnext : lower + c.weight < 1
  · have hlower : lower < 1 := by linarith
    simp only [reached, if_pos hlower, if_pos hnext, le_refl]
  · refine hleft.trans ?_
    simp only [reached, if_neg hnext]
    split_ifs
    · exact hmid
    · exact le_rfl

theorem readRank_of_le {target : ℚ} (h : target ≤ lower + c.weight - 1) :
    readRank target prev lower (c :: cs) =
      if c.weight ≤ 1 then c.mean
      else leftValue prev c +
        (target - lower) / (c.weight - 1) * (rightValue c cs.head? - leftValue prev c) := by
  have hspan : lower + c.weight - 1 - lower = c.weight - 1 := by ring
  have hlight : lower + c.weight - 1 ≤ lower ↔ c.weight ≤ 1 := by
    constructor <;> intro <;> linarith
  rw [readRank]
  simp only [if_pos h, hspan, hlight]

theorem readRank_of_gt {target : ℚ} (h : lower + c.weight - 1 < target) :
    readRank target prev lower (c :: cs) = readRank target (some c) (lower + c.weight) cs := by
  rw [readRank]
  simp only [if_neg (not_le.mpr h)]

/-- The value at a centroid's last rank. -/
theorem readRank_last (h : Suffix first prev lower (c :: cs)) {target : ℚ}
    (htarget : target ≤ lower + c.weight - 1) :
    readRank target prev lower (c :: cs) ≤ if c.weight ≤ 1 then c.mean else rightValue c cs.head? := by
  rw [readRank_of_le htarget]
  split_ifs with hlight
  · exact le_rfl
  · have hrise : 0 ≤ rightValue c cs.head? - leftValue prev c := by
      linarith [h.leftValue_le, h.le_rightValue]
    have hfrac : (target - lower) / (c.weight - 1) ≤ 1 := by
      rw [div_le_one (by linarith)]
      linarith
    nlinarith [mul_le_mul_of_nonneg_right hfrac hrise]

/-- Within one centroid's ranks the value ascends. -/
theorem readRank_within (h : Suffix first prev lower (c :: cs)) {target target' : ℚ}
    (hle : target ≤ target') (htarget : target' ≤ lower + c.weight - 1) :
    readRank target prev lower (c :: cs) ≤ readRank target' prev lower (c :: cs) := by
  rw [readRank_of_le (hle.trans htarget), readRank_of_le htarget]
  split_ifs with hlight
  · exact le_rfl
  · have hrise : 0 ≤ rightValue c cs.head? - leftValue prev c := by
      linarith [h.leftValue_le, h.le_rightValue]
    have hfrac : (target - lower) / (c.weight - 1) ≤ (target' - lower) / (c.weight - 1) :=
      div_le_div_of_nonneg_right (by linarith) (by linarith)
    linarith [mul_le_mul_of_nonneg_right hfrac hrise]

/-- A slow rise keeps every rank's value at or above what the ranks before reach. -/
theorem reached_le_readRank (h : Suffix first prev lower (c :: cs))
    (hslow : 1 < c.weight → min lower 1 * (rightValue c cs.head? - leftValue prev c) ≤
      (c.weight - 1) * (leftValue prev c - reached first prev lower c))
    {target : ℚ} (h0 : 0 ≤ target) (hlow : lower - 1 < target) (hhigh : target ≤ lower + c.weight - 1) :
    reached first prev lower c ≤ readRank target prev lower (c :: cs) := by
  rw [readRank_of_le hhigh]
  split_ifs with hlight
  · exact h.reached_le.trans h.leftValue_le
  · have hpos : 0 < c.weight - 1 := by linarith
    have hrise : 0 ≤ rightValue c cs.head? - leftValue prev c := by
      linarith [h.leftValue_le, h.le_rightValue]
    have hback : -min lower 1 ≤ target - lower := by
      rcases le_total lower 1 with hl | hl
      · rw [min_eq_left hl]
        linarith
      · rw [min_eq_right hl]
        linarith
    have hdrop := mul_le_mul_of_nonneg_right hback hrise
    have hslow := hslow (by linarith)
    have hquot : reached first prev lower c - leftValue prev c ≤
        (target - lower) * (rightValue c cs.head? - leftValue prev c) / (c.weight - 1) := by
      rw [le_div_iff₀ hpos]
      linarith
    rw [div_mul_eq_mul_div]
    linarith

theorem totalWeight_cons (c : Centroid) (cs : Digest) : totalWeight (c :: cs) = c.weight + totalWeight cs := by
  rw [totalWeight, List.map_cons, List.sum_cons, totalWeight]

/-- Where every rise is slow the value ascends with the rank and stays in range. -/
theorem readRank_mono (h : Suffix first prev lower cs) (hslow : SlowRise first prev lower cs)
    {target target' : ℚ} (h0 : 0 ≤ target) (hlow : lower - 1 < target) (hle : target ≤ target')
    (hhigh : target' ≤ lower + totalWeight cs - 1) :
    (∀ c ∈ cs.head?, reached first prev lower c ≤ readRank target prev lower cs) ∧
      readRank target prev lower cs ≤ readRank target' prev lower cs ∧
      ∀ hi, (∀ c ∈ cs, c.mean ≤ hi) → readRank target' prev lower cs ≤ hi := by
  induction cs generalizing prev lower target target' with
  | nil =>
    have hzero : totalWeight [] = 0 := rfl
    rw [hzero] at hhigh
    linarith
  | cons c cs ih =>
    have hw := h.weight_pos c (.head _)
    rw [totalWeight_cons] at hhigh
    by_cases hin' : target' ≤ lower + c.weight - 1
    · refine ⟨fun d hd => ?_, readRank_within h hle hin', fun hi hall => ?_⟩
      · obtain rfl := Option.mem_some_iff.mp hd
        exact reached_le_readRank h hslow.1 h0 hlow (hle.trans hin')
      · refine (readRank_last h hin').trans ?_
        split_ifs
        · exact hall c (.head _)
        · cases cs with
          | nil => exact hall c (.head _)
          | cons d cs =>
            have hc := hall c (.head _)
            have hd := hall d (.tail _ (.head _))
            show (c.mean + d.mean) / 2 ≤ hi
            linarith
    · have hout' : lower + c.weight - 1 < target' := not_le.mp hin'
      by_cases hin : target ≤ lower + c.weight - 1
      · obtain ⟨hfirst, -, hlast⟩ := ih h.tail hslow.2 (h0.trans hle) hout' le_rfl (by linarith)
        rw [readRank_of_gt hout']
        refine ⟨fun d hd => ?_, ?_, fun hi hall => hlast hi fun d hd => hall d (.tail _ hd)⟩
        · obtain rfl := Option.mem_some_iff.mp hd
          exact reached_le_readRank h hslow.1 h0 hlow hin
        · cases cs with
          | nil =>
            have hzero : totalWeight [] = 0 := rfl
            rw [hzero] at hhigh
            linarith
          | cons d cs =>
            refine (readRank_last h hin).trans (le_trans ?_ (hfirst d rfl))
            have hone : ¬lower + c.weight < 1 := by linarith
            simp only [reached, if_neg hone]
            split_ifs with hlight hheavy
            · linarith
            · exact le_rfl
            · exact le_rfl
            · linarith
      · have hout : lower + c.weight - 1 < target := not_le.mp hin
        obtain ⟨hfirst, hmono, hlast⟩ := ih h.tail hslow.2 h0 hout hle (by linarith)
        rw [readRank_of_gt hout, readRank_of_gt hout']
        refine ⟨fun d hd => ?_, hmono, fun hi hall => hlast hi fun d hd => hall d (.tail _ hd)⟩
        obtain rfl := Option.mem_some_iff.mp hd
        cases cs with
        | nil =>
          have hzero : totalWeight [] = 0 := rfl
          rw [hzero] at hhigh
          linarith
        | cons e cs => exact h.reached_mono.trans (hfirst e rfl)

theorem Suffix.totalWeight_nonneg (h : Suffix first prev lower cs) : 0 ≤ totalWeight cs := by
  refine List.sum_nonneg fun w hw => ?_
  obtain ⟨c, hc, rfl⟩ := List.mem_map.mp hw
  exact (h.weight_pos c hc).le

/-- Values that stay at or above what the ranks before reach bound the rise. -/
theorem slowRise_head (h : Suffix first prev lower (c :: cs)) (hheavy : 1 < c.weight)
    (hlow : ∀ target, 0 ≤ target → lower - 1 < target → target ≤ lower + c.weight - 1 →
      reached first prev lower c ≤ readRank target prev lower (c :: cs)) :
    min lower 1 * (rightValue c cs.head? - leftValue prev c) ≤
      (c.weight - 1) * (leftValue prev c - reached first prev lower c) := by
  have hpos : 0 < c.weight - 1 := by linarith
  have hlower := h.lower_nonneg
  have hdrop : ∀ target, 0 ≤ target → lower - 1 < target → target ≤ lower + c.weight - 1 →
      (lower - target) * (rightValue c cs.head? - leftValue prev c) ≤
        (c.weight - 1) * (leftValue prev c - reached first prev lower c) := by
    intro target h0 h1 h2
    have hvalue := hlow target h0 h1 h2
    rw [readRank_of_le h2, if_neg (not_le.mpr hheavy), div_mul_eq_mul_div] at hvalue
    have hquot : reached first prev lower c - leftValue prev c ≤
        (target - lower) * (rightValue c cs.head? - leftValue prev c) / (c.weight - 1) := by linarith
    rw [le_div_iff₀ hpos] at hquot
    linarith
  rcases lt_or_ge lower 1 with hl | hl
  · have hzero := hdrop 0 le_rfl (by linarith) (by linarith)
    rw [min_eq_left hl.le]
    linarith
  · -- the ranks come as close as one likes to 1 below the first rank
    rw [min_eq_right hl, one_mul]
    generalize hbound : (c.weight - 1) * (leftValue prev c - reached first prev lower c) = bound at hdrop ⊢
    generalize rightValue c cs.head? - leftValue prev c = rise at hdrop ⊢
    have hbound0 : 0 ≤ bound := by
      rw [← hbound]
      exact mul_nonneg hpos.le (by linarith [h.reached_le])
    by_contra hfast
    have hrise : 0 < rise := by linarith
    have hstep : 0 < (rise - bound) / (2 * rise) := div_pos (by linarith) (by linarith)
    have hhalf : (rise - bound) / (2 * rise) ≤ 1 / 2 := by
      rw [div_le_div_iff₀ (by linarith) (by linarith)]
      linarith
    have hnear := hdrop (lower - 1 + (rise - bound) / (2 * rise)) (by linarith) (by linarith) (by linarith)
    have hscaled : (rise - bound) / (2 * rise) * rise = (rise - bound) / 2 := by
      field_simp
    have hback : (lower - (lower - 1 + (rise - bound) / (2 * rise))) * rise =
        rise - (rise - bound) / (2 * rise) * rise := by ring
    rw [hback, hscaled] at hnear
    linarith

theorem slowRise_of_mono (h : Suffix first prev lower cs)
    (hmono : ∀ target target', 0 ≤ target → lower - 1 < target → target ≤ target' →
      target' ≤ lower + totalWeight cs - 1 →
      readRank target prev lower cs ≤ readRank target' prev lower cs)
    (hlow : ∀ c ∈ cs.head?, ∀ target, 0 ≤ target → lower - 1 < target →
      target ≤ lower + totalWeight cs - 1 →
      reached first prev lower c ≤ readRank target prev lower cs) : SlowRise first prev lower cs := by
  induction cs generalizing prev lower with
  | nil => trivial
  | cons c cs ih =>
    have hrest := h.tail.totalWeight_nonneg
    have hw := h.weight_pos c (.head _)
    have hcons := totalWeight_cons c cs
    rw [hcons] at hmono hlow
    refine ⟨fun hheavy => slowRise_head h hheavy fun target h0 h1 h2 =>
      hlow c rfl target h0 h1 (by linarith), ?_⟩
    refine ih h.tail ?_ ?_
    · intro target target' h0 h1 hle h2
      have hvalues := hmono target target' h0 (by linarith) hle (by linarith)
      rwa [readRank_of_gt h1, readRank_of_gt (h1.trans_le hle)] at hvalues
    · intro e he target h0 h1 h2
      by_cases hnext : lower + c.weight < 1
      · have hfirst := hlow c rfl target h0 (by linarith) (by linarith)
        rw [readRank_of_gt h1] at hfirst
        have hlower : lower < 1 := by linarith
        simp only [reached, if_pos hlower, if_pos hnext] at hfirst ⊢
        exact hfirst
      · have hlast := hmono (lower + c.weight - 1) target (by linarith) (by linarith) h1.le (by linarith)
        rw [readRank_of_gt h1, readRank_of_le le_rfl] at hlast
        simp only [reached, if_neg hnext]
        by_cases hheavy : 1 < c.weight
        · have hspan : (lower + c.weight - 1 - lower) / (c.weight - 1) = 1 := by
            rw [div_eq_one_iff_eq (by linarith)]
            ring
          rw [if_neg (not_le.mpr hheavy), hspan, he] at hlast
          rw [if_pos hheavy]
          have hvalue : leftValue (some c) e = rightValue c (some e) := rfl
          rw [hvalue]
          linarith
        · rw [if_pos (not_lt.mp hheavy)] at hlast
          rw [if_neg hheavy]
          exact hlast

end Suffix

/-- The readout ascends with the quantile and stays between the smallest mean and the largest. -/
def QuantileSound (digest : Digest) : Prop :=
  ∀ q q', 0 ≤ q → q ≤ q' → q' ≤ 1 → ∃ v v', quantileFromTdigest digest q = some v ∧
    quantileFromTdigest digest q' = some v' ∧ v ≤ v' ∧
    (∀ lo, (∀ c ∈ digest, lo ≤ c.mean) → lo ≤ v) ∧ ∀ hi, (∀ c ∈ digest, c.mean ≤ hi) → v' ≤ hi

theorem suffix_whole {first : Centroid} {rest : Digest}
    (hsorted : (first :: rest).Pairwise fun c d => c.mean ≤ d.mean)
    (hpos : ∀ c ∈ first :: rest, 0 < c.weight) : Suffix first.mean none 0 (first :: rest) := by
  refine ⟨hsorted, hpos, le_rfl, List.forall_mem_cons.mpr ⟨le_rfl, fun c hc => ?_⟩, nofun⟩
  exact List.rel_of_pairwise_cons hsorted hc

/-- Below a total weight of 1 every quantile reads the last mean. -/
theorem readRank_light {first target lower : ℚ} {prev : Option Centroid} {c : Centroid} {cs : Digest}
    (h : Suffix first prev lower (c :: cs)) (hlight : lower + totalWeight (c :: cs) ≤ 1)
    (htarget : lower + totalWeight (c :: cs) - 1 ≤ target) :
    ∃ d, (c :: cs).getLast? = some d ∧ readRank target prev lower (c :: cs) = d.mean := by
  induction cs generalizing prev lower c with
  | nil =>
    have hzero : totalWeight [c] = c.weight := by rw [totalWeight_cons]; exact add_zero _
    have hlower := h.lower_nonneg
    rw [hzero] at hlight htarget
    refine ⟨c, rfl, ?_⟩
    by_cases hin : target ≤ lower + c.weight - 1
    · rw [readRank_of_le hin, if_pos (by linarith)]
    · rw [readRank_of_gt (not_le.mp hin)]
      rfl
  | cons d cs ih =>
    have hd := h.tail.weight_pos d (.head _)
    have hrest := h.tail.tail.totalWeight_nonneg
    rw [totalWeight_cons, totalWeight_cons] at hlight htarget
    obtain ⟨e, he, hvalue⟩ := ih h.tail (by rw [totalWeight_cons]; linarith) (by rw [totalWeight_cons]; linarith)
    refine ⟨e, ?_, ?_⟩
    · rw [List.getLast?_cons_cons]
      exact he
    · rw [readRank_of_gt (by linarith), hvalue]

theorem slowRise_light {first lower : ℚ} {prev : Option Centroid} {cs : Digest}
    (h : ∀ c ∈ cs, c.weight ≤ 1) : SlowRise first prev lower cs := by
  induction cs generalizing prev lower with
  | nil => trivial
  | cons c cs ih =>
    exact ⟨fun hheavy => absurd hheavy (not_lt.mpr (h c (.head _))), ih fun d hd => h d (.tail _ hd)⟩

theorem sound_of_light {first : Centroid} {rest : Digest} (h : Suffix first.mean none 0 (first :: rest))
    (hlight : totalWeight (first :: rest) ≤ 1) : QuantileSound (first :: rest) := by
  have hread : ∀ q, 0 ≤ q → q ≤ 1 → ∃ d, (first :: rest).getLast? = some d ∧
      quantileFromTdigest (first :: rest) q = some d.mean := by
    intro q h0 h1
    have htarget : 0 + totalWeight (first :: rest) - 1 ≤ q * (totalWeight (first :: rest) - 1) := by
      nlinarith
    obtain ⟨d, hd, hvalue⟩ := readRank_light h (by linarith) htarget
    refine ⟨d, hd, ?_⟩
    rw [quantileFromTdigest, if_neg (List.cons_ne_nil _ _), hvalue]
  intro q q' h0 hle h1
  obtain ⟨d, hd, hq⟩ := hread q h0 (hle.trans h1)
  obtain ⟨e, he, hq'⟩ := hread q' (h0.trans hle) h1
  obtain rfl : d = e := Option.some.inj (hd.symm.trans he)
  have hmem := List.mem_of_getLast? hd
  exact ⟨_, _, hq, hq', le_rfl, fun lo hlo => hlo d hmem, fun hi hhi => hhi d hmem⟩

/-- The readout of a digest with ascending means and positive weights is sound exactly when no
centroid rises too fast. -/
theorem quantileSound_iff {first : Centroid} {rest : Digest}
    (hsorted : (first :: rest).Pairwise fun c d => c.mean ≤ d.mean)
    (hpos : ∀ c ∈ first :: rest, 0 < c.weight) :
    QuantileSound (first :: rest) ↔ SlowRise first.mean none 0 (first :: rest) := by
  have hwhole := suffix_whole hsorted hpos
  have hread : ∀ q, quantileFromTdigest (first :: rest) q =
      some (readRank (q * (totalWeight (first :: rest) - 1)) none 0 (first :: rest)) :=
    fun q => if_neg (List.cons_ne_nil _ _)
  by_cases hlight : totalWeight (first :: rest) ≤ 1
  · refine iff_of_true (sound_of_light hwhole hlight) (slowRise_light fun c hc => ?_)
    refine le_trans (List.single_le_sum (fun w hw => ?_) _ (List.mem_map_of_mem hc)) hlight
    obtain ⟨d, hd, rfl⟩ := List.mem_map.mp hw
    exact (hpos d hd).le
  · have hspan : 0 < totalWeight (first :: rest) - 1 := by linarith
    constructor
    · intro hsound
      have hvalues : ∀ target target', 0 ≤ target → target ≤ target' →
          target' ≤ 0 + totalWeight (first :: rest) - 1 →
          readRank target none 0 (first :: rest) ≤ readRank target' none 0 (first :: rest) ∧
            first.mean ≤ readRank target none 0 (first :: rest) := by
        intro target target' h0 hle h1
        obtain ⟨v, v', hv, hv', hvv, hlo, -⟩ := hsound (target / (totalWeight (first :: rest) - 1))
          (target' / (totalWeight (first :: rest) - 1)) (div_nonneg h0 hspan.le)
          (div_le_div_of_nonneg_right hle hspan.le) ((div_le_one hspan).mpr (by linarith))
        rw [hread, div_mul_cancel₀ _ hspan.ne'] at hv hv'
        rw [Option.some.inj hv, Option.some.inj hv']
        exact ⟨hvv, hlo _ hwhole.first_le⟩
      refine slowRise_of_mono hwhole (fun target target' h0 _ hle h1 => (hvalues _ _ h0 hle h1).1) ?_
      intro c hc target h0 _ h1
      have hreached : reached first.mean none 0 c = first.mean := if_pos zero_lt_one
      rw [hreached]
      exact (hvalues target target h0 le_rfl h1).2
    · intro hslow q q' h0 hle h1
      have htarget : q * (totalWeight (first :: rest) - 1) ≤ q' * (totalWeight (first :: rest) - 1) :=
        mul_le_mul_of_nonneg_right hle hspan.le
      have hlow : (0 : ℚ) ≤ q * (totalWeight (first :: rest) - 1) := mul_nonneg h0 hspan.le
      have hhigh : q' * (totalWeight (first :: rest) - 1) ≤ 0 + totalWeight (first :: rest) - 1 := by
        nlinarith
      obtain ⟨hfirst, hmono, hlast⟩ := readRank_mono hwhole hslow hlow (by linarith) htarget hhigh
      refine ⟨_, _, hread q, hread q', hmono, fun lo hlo => ?_, hlast⟩
      have hreached : reached first.mean none 0 first = first.mean := if_pos zero_lt_one
      exact (hlo first (.head _)).trans (hreached ▸ hfirst first rfl)

/-- Between the last rank of a centroid of weight 2 and the first of the next, the value falls
below every mean. -/
theorem quantile_falls :
    (quantileFromTdigest [⟨0, 2⟩, ⟨10, 2⟩, ⟨20, 2⟩] (1 / 5) = some 5 ∧
      quantileFromTdigest [⟨0, 2⟩, ⟨10, 2⟩, ⟨20, 2⟩] (11 / 50) = some (-4)) ∧
      ¬QuantileSound [⟨0, 2⟩, ⟨10, 2⟩, ⟨20, 2⟩] := by
  have hlow : quantileFromTdigest [⟨0, 2⟩, ⟨10, 2⟩, ⟨20, 2⟩] (1 / 5) = some 5 := by decide +kernel
  have hhigh : quantileFromTdigest [⟨0, 2⟩, ⟨10, 2⟩, ⟨20, 2⟩] (11 / 50) = some (-4) := by decide +kernel
  refine ⟨⟨hlow, hhigh⟩, fun hsound => ?_⟩
  obtain ⟨v, v', hv, hv', hle, -⟩ := hsound (1 / 5) (11 / 50) (by norm_num) (by norm_num) (by norm_num)
  rw [← Option.some.inj (hlow.symm.trans hv), ← Option.some.inj (hhigh.symm.trans hv')] at hle
  exact absurd hle (by decide)

theorem quantileSound_iff_alternating :
    QuantileSound [⟨0, 1⟩, ⟨10, 3⟩, ⟨20, 1⟩] ↔ SlowRise 0 none 0 [⟨0, 1⟩, ⟨10, 3⟩, ⟨20, 1⟩] :=
  have hsorted : [(⟨0, 1⟩ : Centroid), ⟨10, 3⟩, ⟨20, 1⟩].Pairwise fun c d => c.mean ≤ d.mean := by
    decide +kernel
  quantileSound_iff hsorted (by decide +kernel)

end Zagg.Stats
