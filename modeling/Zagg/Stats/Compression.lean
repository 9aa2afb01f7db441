import Mathlib.Algebra.Order.Field.Basic
import Mathlib.Algebra.Order.BigOperators.Group.List
import Mathlib.Algebra.BigOperators.Ring.List
import Mathlib.Algebra.Order.Floor.Semiring
import Mathlib.Algebra.Order.Archimedean.Real.Basic
import Mathlib.Tactic.Linarith
import Zagg.Lib.GreedyCut
import Zagg.Stats.Weight

/-!
# Compression over exact numbers

`_compress` over any ordered field, the scale a parameter: the greedy cut of the weighted
points into runs, with each run's weighted mean and summed weight. The runs partition the
points in order, a run of several points spans at most one unit of the scale, and two runs in
a row span more than one, which bounds their number.
-/
namespace Zagg.Stats

open Zagg.Lib

universe u

section
variable {K : Type u} [Field K]

/-- `np.cumsum`, from an initial sum. -/
def cumsumFrom (acc : K) : List K → List K
  | [] => []
  | w :: ws => (acc + w) :: cumsumFrom (acc + w) ws

/-- `np.add.reduceat`. -/
def reduceat {M : Type u} [AddMonoid M] (xs : List M) : List Nat → List M
  | [] => []
  | [s] => [(xs.drop s).sum]
  | s :: e :: ss =>
    (if s < e then ((xs.drop s).take (e - s)).sum else xs.getD s 0) :: reduceat xs (e :: ss)

structure Compressed (K : Type u) where
  means : List K
  weights : List K
  starts : List Nat

variable [LinearOrder K]

/-- `_compress` of ascending means with their weights. -/
def compressExact (scale : K → K) (means weights : List K) : Except String (Compressed K) :=
  let cumw := cumsumFrom 0 weights
  match cumw.getLast? with
  | none => .error "index -1 is out of bounds for axis 0 with size 0"
  | some total =>
    let kRight := cumw.map fun w => scale (w / total)
    let starts := cuts (scale 0) kRight 0
    let outWeights := reduceat weights starts
    let sums := reduceat (List.zipWith (· * ·) means weights) starts
    .ok ⟨List.zipWith (· / ·) sums outWeights, outWeights, starts⟩

end

section
variable {K : Type u} [Field K]

theorem length_cumsumFrom (acc : K) (ws : List K) : (cumsumFrom acc ws).length = ws.length := by
  induction ws generalizing acc with
  | nil => rfl
  | cons w ws ih => rw [cumsumFrom, List.length_cons, List.length_cons, ih]

theorem getD_cumsumFrom (acc : K) {ws : List K} {i : Nat} (h : i < ws.length) :
    (cumsumFrom acc ws).getD i 0 = acc + (ws.take (i + 1)).sum := by
  induction ws generalizing acc i with
  | nil => exact absurd h (Nat.not_lt_zero i)
  | cons w ws ih =>
    rw [cumsumFrom, List.take_succ_cons, List.sum_cons, ← add_assoc]
    cases i with
    | zero => rw [List.getD_cons_zero, List.take_zero, List.sum_nil, add_zero]
    | succ i => rw [List.getD_cons_succ, ih (acc + w) (Nat.lt_of_succ_lt_succ h)]

theorem getLast?_cumsumFrom (acc : K) {ws : List K} (h : ws ≠ []) :
    (cumsumFrom acc ws).getLast? = some (acc + ws.sum) := by
  induction ws generalizing acc with
  | nil => exact absurd rfl h
  | cons w ws ih =>
    rw [cumsumFrom, List.sum_cons, ← add_assoc]
    cases ws with
    | nil => rw [cumsumFrom, List.getLast?_singleton, List.sum_nil, add_zero]
    | cons w' ws => rw [cumsumFrom, List.getLast?_cons_cons, ← cumsumFrom, ih (acc + w) (by simp)]

theorem reduceat_eq {M : Type u} [AddMonoid M] (xs : List M) {ss : List Nat} (h : ss.Pairwise (· < ·)) :
    reduceat xs ss = (pieces xs ss).map List.sum := by
  induction ss with
  | nil => rfl
  | cons s ss ih =>
    cases ss with
    | nil => rfl
    | cons e ss =>
      have hlt : s < e := List.rel_of_pairwise_cons h (.head _)
      rw [reduceat, pieces, if_pos hlt, ih h.of_cons, List.map_cons]

variable [LinearOrder K] [IsStrictOrderedRing K]

/-- The prefix sums of positive weights ascend from the first one. -/
theorem cumsumFrom_sorted {ws : List K} (h : ∀ w ∈ ws, 0 < w) (acc : K) :
    (∀ x ∈ cumsumFrom acc ws, acc ≤ x ∧ x ≤ acc + ws.sum) ∧ (cumsumFrom acc ws).Pairwise (· ≤ ·) := by
  induction ws generalizing acc with
  | nil => exact ⟨nofun, .nil⟩
  | cons w ws ih =>
    obtain ⟨hbounds, hsorted⟩ := ih (fun x hx => h x (.tail _ hx)) (acc + w)
    have hw := h w (.head _)
    have hrest : 0 ≤ ws.sum := List.sum_nonneg fun x hx => (h x (.tail _ hx)).le
    rw [cumsumFrom, List.sum_cons]
    refine ⟨fun x hx => ?_, List.pairwise_cons.mpr ⟨fun x hx => (hbounds x hx).1, hsorted⟩⟩
    rcases List.mem_cons.mp hx with rfl | hx
    · exact ⟨by linarith, by linarith⟩
    · have hx := hbounds x hx
      exact ⟨by linarith, by linarith⟩

end

section
variable {K : Type u} [Field K]

/-- The summed weight of a list of points. -/
def weightOf (points : List (K × K)) : K := (points.map Prod.snd).sum

def weightedMean (points : List (K × K)) : K := (points.map fun p => p.1 * p.2).sum / weightOf points

theorem weightOf_append (l l' : List (K × K)) : weightOf (l ++ l') = weightOf l + weightOf l' := by
  rw [weightOf, List.map_append, List.sum_append, weightOf, weightOf]

theorem sum_weightOf (runs : List (List (K × K))) : (runs.map weightOf).sum = weightOf runs.flatten := by
  induction runs with
  | nil => rfl
  | cons run runs ih => rw [List.map_cons, List.sum_cons, ih, List.flatten_cons, weightOf_append]

theorem mul_weightOf (v : K) (points : List (K × K)) :
    v * weightOf points = (points.map fun p => v * p.2).sum := by
  rw [List.sum_map_mul_left, weightOf]

variable [LinearOrder K] [IsStrictOrderedRing K]

theorem weightOf_pos {points : List (K × K)} (hne : points ≠ []) (hpos : ∀ p ∈ points, 0 < p.2) :
    0 < weightOf points := by
  refine List.sum_pos _ (fun w hw => ?_) (by simpa using hne)
  obtain ⟨p, hp, rfl⟩ := List.mem_map.mp hw
  exact hpos p hp

theorem le_weightedMean {run : List (K × K)} (hne : run ≠ []) (hpos : ∀ p ∈ run, 0 < p.2) {lo : K}
    (h : ∀ p ∈ run, lo ≤ p.1) : lo ≤ weightedMean run := by
  rw [weightedMean, le_div_iff₀ (weightOf_pos hne hpos), mul_weightOf]
  exact List.sum_le_sum fun p hp => mul_le_mul_of_nonneg_right (h p hp) (hpos p hp).le

theorem weightedMean_le {run : List (K × K)} (hne : run ≠ []) (hpos : ∀ p ∈ run, 0 < p.2) {hi : K}
    (h : ∀ p ∈ run, p.1 ≤ hi) : weightedMean run ≤ hi := by
  rw [weightedMean, div_le_iff₀ (weightOf_pos hne hpos), mul_weightOf]
  exact List.sum_le_sum fun p hp => mul_le_mul_of_nonneg_right (h p hp) (hpos p hp).le

end

/-- What a compression of weighted points guarantees. -/
structure Compresses {K : Type u} [Field K] [LinearOrder K] [FloorSemiring K] (scale : K → K) (delta : K)
    (points : List (K × K)) (out : Compressed K) (runs : List (List (K × K))) : Prop where
  first : out.starts.head? = some 0
  ascending : out.starts.Pairwise (· < ·)
  runs_eq : runs = pieces points out.starts
  partition : runs.flatten = points
  nonempty : ∀ run ∈ runs, run ≠ []
  span : ∀ before run after, runs = before ++ run :: after → 1 < run.length →
    scale ((weightOf before.flatten + weightOf run) / weightOf points) -
      scale (weightOf before.flatten / weightOf points) ≤ 1
  total : out.weights.sum = weightOf points
  weights : out.weights = runs.map weightOf
  sorted : out.means.Pairwise (· ≤ ·)
  within : List.Forall₂ (fun mean run => ∀ lo hi, (∀ p ∈ run, lo ≤ p.1 ∧ p.1 ≤ hi) →
    lo ≤ mean ∧ mean ≤ hi) out.means runs
  count : out.starts.length ≤ max 1 ⌈2 * delta⌉₊

section
variable {K : Type u} [Field K]

/-- The right edges, on the scale. -/
def rightEdges (scale : K → K) (points : List (K × K)) : List K :=
  (cumsumFrom 0 (points.map Prod.snd)).map fun w => scale (w / weightOf points)

theorem length_rightEdges (scale : K → K) (points : List (K × K)) :
    (rightEdges scale points).length = points.length := by
  rw [rightEdges, List.length_map, length_cumsumFrom, List.length_map]

theorem getD_rightEdges (scale : K → K) {points : List (K × K)} {i : Nat} (h : i < points.length) :
    (rightEdges scale points).getD i 0 = scale (weightOf (points.take (i + 1)) / weightOf points) := by
  have hlen : i < (cumsumFrom 0 (points.map Prod.snd)).length := by
    rw [length_cumsumFrom, List.length_map]
    exact h
  have hi : i < (points.map Prod.snd).length := by rwa [List.length_map]
  have hsum := getD_cumsumFrom 0 hi
  rw [List.getD_eq_getElem _ _ hlen, zero_add, ← List.map_take] at hsum
  rw [rightEdges, List.getD_eq_getElem _ _ (by rwa [List.length_map]), List.getElem_map, hsum]
  rfl

theorem leftEdge_rightEdges (scale : K → K) {points : List (K × K)} {s : Nat} (h : s ≤ points.length) :
    leftEdge (scale 0) (rightEdges scale points) s =
      scale (weightOf (points.take s) / weightOf points) := by
  cases s with
  | zero => rw [leftEdge, if_pos rfl, List.take_zero, weightOf, List.map_nil, List.sum_nil, zero_div]
  | succ s => rw [leftEdge, if_neg (Nat.succ_ne_zero s), Nat.add_sub_cancel, getD_rightEdges scale h]

variable [LinearOrder K]

theorem rightEdges_sorted [IsStrictOrderedRing K] {scale : K → K} (hscale : MonotoneOn scale (Set.Icc 0 1))
    {points : List (K × K)} (hpos : ∀ p ∈ points, 0 < p.2) :
    (rightEdges scale points).Pairwise (· ≤ ·) := by
  have hw : ∀ w ∈ points.map Prod.snd, 0 < w := by
    intro w hw
    obtain ⟨p, hp, rfl⟩ := List.mem_map.mp hw
    exact hpos p hp
  obtain ⟨hbounds, hsorted⟩ := cumsumFrom_sorted hw 0
  rw [rightEdges, List.pairwise_map]
  refine hsorted.imp_of_mem fun {x y} hx hy hxy => ?_
  have hx := hbounds x hx
  have hy := hbounds y hy
  rw [zero_add] at hx hy
  have htotal : (0 : K) ≤ weightOf points := hx.1.trans hx.2
  refine hscale ⟨div_nonneg hx.1 htotal, div_le_one_of_le₀ hx.2 htotal⟩
    ⟨div_nonneg hy.1 htotal, div_le_one_of_le₀ hy.2 htotal⟩ (div_le_div_of_nonneg_right hxy htotal)

/-- The output of a nonempty list, run by run. -/
theorem compressExact_eq (scale : K → K) {points : List (K × K)} (hne : points ≠ []) :
    let starts := cuts (scale 0) (rightEdges scale points) 0
    compressExact scale (points.map Prod.fst) (points.map Prod.snd) =
      .ok ⟨(pieces points starts).map weightedMean, (pieces points starts).map weightOf, starts⟩ := by
  intro starts
  have hweights : points.map Prod.snd ≠ [] := by simpa using hne
  have hlast := getLast?_cumsumFrom 0 hweights
  rw [zero_add] at hlast
  have hstarts : cuts (scale 0) ((cumsumFrom 0 (points.map Prod.snd)).map fun w =>
      scale (w / (points.map Prod.snd).sum)) 0 = starts := rfl
  have hasc : starts.Pairwise (· < ·) := pairwise_cuts _ _ 0
  have hsums : List.zipWith (· * ·) (points.map Prod.fst) (points.map Prod.snd) =
      points.map fun p => p.1 * p.2 := by
    rw [List.zipWith_map, List.zipWith_self]
  rw [compressExact]
  simp only [hlast, hstarts, hsums]
  rw [reduceat_eq _ hasc, reduceat_eq _ hasc, pieces_map, pieces_map, List.map_map, List.map_map,
    List.zipWith_map, List.zipWith_self]
  rfl

/-- A centroid's row without its words. -/
def Row.point (r : Row) : ℚ × ℚ := (r.mean, r.weight)

theorem tail_scanl (acc : ℚ) (ws : List ℚ) : (ws.scanl (· + ·) acc).tail = cumsumFrom acc ws := by
  induction ws generalizing acc with
  | nil => rfl
  | cons w ws ih =>
    rw [List.scanl_cons, List.tail_cons, cumsumFrom, ← ih]
    cases ws with
    | nil => rfl
    | cons x ws => rw [List.scanl_cons, List.tail_cons]

/-- The rows are cut as their points are. -/
theorem compress_eq_pieces (num : Numerics) (delta : Nat) (rows : List Row) :
    compress num delta rows = pieces rows (cuts (num.k1 delta 0)
      (rightEdges (num.k1 delta) (rows.map Row.point)) 0) := by
  have hweights : (rows.map Row.point).map Prod.snd = rows.map Row.weight := List.map_map ..
  have hcumsum : cumsum (rows.map Row.weight) = cumsumFrom 0 (rows.map Row.weight) := tail_scanl 0 _
  have htotal : (cumsumFrom 0 (rows.map Row.weight)).getLastD 0 = weightOf (rows.map Row.point) := by
    rw [weightOf, hweights]
    by_cases hnil : rows.map Row.weight = []
    · rw [hnil]
      rfl
    · rw [List.getLastD_eq_getLast?, getLast?_cumsumFrom 0 hnil, zero_add, Option.getD_some]
  have hedges : rightEdges (num.k1 delta) (rows.map Row.point) =
      (cumsum (rows.map Row.weight)).map fun c =>
        num.k1 delta (c / (cumsum (rows.map Row.weight)).getLastD 0) := by
    rw [rightEdges, hweights, hcumsum, htotal]
  have hlen := length_edges num delta rows
  rw [compress, segments_eq_pieces, starts_eq_cuts (by omega), hedges]

/-- Over the rationals both compressions make the same runs, so the stored centroids and
their words are those of the exact one. -/
theorem compressed_eq_exact (num : Numerics) (delta : Nat) (declared : List Channel) {rows : List Row}
    (hne : rows ≠ []) :
    ∃ out, compressExact (num.k1 delta) (rows.map Row.mean) (rows.map Row.weight) = .ok out ∧
      compressed num delta declared rows =
        ⟨(out.means.zip out.weights).map fun c => ⟨num.float32 c.1, num.float32 c.2⟩,
          declared.zipIdx.map fun c =>
            (pieces (rows.map fun r => r.words.getD c.2 0) out.starts).map (channelWord num c.1)⟩ := by
  have hpoints : rows.map Row.point ≠ [] := by simpa using hne
  have hcompress := compressExact_eq (num.k1 delta) hpoints
  rw [List.map_map, List.map_map] at hcompress
  refine ⟨_, hcompress, ?_⟩
  rw [compressed, compress_eq_pieces]
  dsimp only
  congr 1
  · rw [List.zip_map', List.map_map, pieces_map, List.map_map]
    refine List.map_congr_left fun run _ => ?_
    simp only [Function.comp_apply, weightedMean, weightOf, List.map_map, centroidOf]
    rfl
  · refine List.map_congr_left fun c _ => ?_
    rw [pieces_map, List.map_map]
    rfl

variable [IsStrictOrderedRing K]

theorem means_sorted {runs : List (List (K × K))} (hne : ∀ run ∈ runs, run ≠ [])
    (hpos : ∀ run ∈ runs, ∀ p ∈ run, 0 < p.2)
    (hsorted : runs.flatten.Pairwise fun p q => p.1 ≤ q.1) :
    (runs.map weightedMean).Pairwise (· ≤ ·) := by
  rw [List.pairwise_map]
  refine (List.pairwise_flatten.mp hsorted).2.imp_of_mem fun {run run'} hrun hrun' h => ?_
  refine le_weightedMean (hne run' hrun') (hpos run' hrun') fun q hq => ?_
  exact weightedMean_le (hne run hrun) (hpos run hrun) fun p hp => h p hp q hq

end

section
variable {K : Type u} [Field K] [LinearOrder K] [IsStrictOrderedRing K] [FloorSemiring K]

/-- `m` runs with half of them below `delta` are at most `2 * delta`, rounded up. -/
theorem le_ceil_of_half_lt {m : Nat} {delta : K} (h : ((m / 2 : Nat) : K) < delta) (hm : 2 ≤ m) :
    m ≤ ⌈2 * delta⌉₊ := by
  have hhalf : (((m - 1 : Nat) : Nat) : K) < 2 * delta := by
    calc (((m - 1 : Nat) : Nat) : K) ≤ ((2 * (m / 2) : Nat) : K) := by
          exact_mod_cast (by omega : m - 1 ≤ 2 * (m / 2))
      _ = 2 * ((m / 2 : Nat) : K) := by push_cast; rfl
      _ < 2 * delta := by gcongr
  have hlt := Nat.lt_ceil.mpr hhalf
  omega

/-- The invariants of a compression, for every nonempty list of ascending points of positive
weight and every monotone scale onto `[0, delta]`. -/
theorem compress_invariants {scale : K → K} {delta : K} (hscale : MonotoneOn scale (Set.Icc 0 1))
    (h0 : scale 0 = 0) (h1 : scale 1 = delta) {points : List (K × K)} (hne : points ≠ [])
    (hsorted : points.Pairwise fun p q => p.1 ≤ q.1) (hpos : ∀ p ∈ points, 0 < p.2) :
    ∃ out runs, compressExact scale (points.map Prod.fst) (points.map Prod.snd) = .ok out ∧
      Compresses scale delta points out runs := by
  have hlen := length_rightEdges scale points
  have hn : 0 < points.length := List.length_pos_iff.mpr hne
  have hedges := rightEdges_sorted hscale hpos
  refine ⟨_, pieces points (cuts (scale 0) (rightEdges scale points) 0), compressExact_eq scale hne, ?_⟩
  generalize hstarts : cuts (scale 0) (rightEdges scale points) 0 = starts
  have hflat : (pieces points starts).flatten = points := by
    rw [← hstarts, flatten_pieces hlen, List.drop_zero]
  have hruns : ∀ run ∈ pieces points starts, run ≠ [] := by
    rw [← hstarts]
    exact ne_nil_of_mem_pieces hlen 0
  have hrunpos : ∀ run ∈ pieces points starts, ∀ p ∈ run, 0 < p.2 := by
    intro run hrun p hp
    refine hpos p ?_
    rw [← hflat]
    exact List.mem_flatten.mpr ⟨run, hrun, hp⟩
  refine ⟨?_, ?_, rfl, hflat, hruns, ?_, ?_, rfl, ?_, ?_, ?_⟩
  · rw [← hstarts, cuts_of_lt _ _ (by omega), List.head?_cons]
  · rw [← hstarts]
    exact pairwise_cuts _ _ 0
  · intro before run after hsplit hmany
    obtain ⟨hbefore, hrun⟩ := take_of_flatten hsplit
    rw [hflat] at hbefore hrun
    have hle : before.flatten.length + run.length ≤ points.length := by
      have hlength := congrArg List.length hrun
      rw [List.length_take, List.length_append] at hlength
      omega
    have hspan := span_of_mem_pieces hlen (s := 0) (by rw [hstarts, hsplit]) hmany
    rw [Nat.zero_add, getD_rightEdges scale (by omega), leftEdge_rightEdges scale (by omega),
      Nat.sub_add_cancel (by omega), hbefore, hrun, weightOf_append] at hspan
    exact sub_le_iff_le_add'.mpr hspan
  · rw [sum_weightOf, hflat]
  · exact means_sorted hruns hrunpos (by rwa [hflat])
  · rw [List.forall₂_map_left_iff, List.forall₂_same]
    intro run hrun lo hi hbounds
    constructor
    · exact le_weightedMean (hruns run hrun) (hrunpos run hrun) fun p hp => (hbounds p hp).1
    · exact weightedMean_le (hruns run hrun) (hrunpos run hrun) fun p hp => (hbounds p hp).2
  · show starts.length ≤ _
    by_cases hmany : 2 ≤ starts.length
    · rw [← hstarts] at hmany
      have hcount := count_cuts hedges 0 hmany
      rw [hstarts, leftEdge, if_pos rfl, h0, zero_add, hlen, getD_rightEdges scale (by omega),
        Nat.sub_add_cancel hn, List.take_length, div_self (weightOf_pos hne hpos).ne', h1] at hcount
      exact (le_ceil_of_half_lt hcount (hstarts ▸ hmany)).trans (le_max_right _ _)
    · exact (by omega : starts.length ≤ 1).trans (le_max_left _ _)

end

/-- A scale that is constantly 0 makes one run, above twice its range; an empty list has no
total. -/
theorem compress_flat_scale :
    compressExact (fun _ : ℝ => (0 : ℝ)) [3] [1] = .ok ⟨[3], [1], [0]⟩ ∧
      ¬[0].length ≤ ⌈2 * (0 : ℝ)⌉₊ ∧
      compressExact (fun _ : ℝ => (0 : ℝ)) [] [] =
        .error "index -1 is out of bounds for axis 0 with size 0" := by
  refine ⟨?_, by simp, rfl⟩
  have hne : [((3 : ℝ), (1 : ℝ))] ≠ [] := by simp
  have heq := compressExact_eq (fun _ : ℝ => (0 : ℝ)) hne
  have hend : cutEnd (0 : ℝ) [0] 0 = 1 := by
    simp [cutEnd, leftEdge, searchsorted]
  have hcuts : cuts (0 : ℝ) [0] 0 = [0] := by
    rw [cuts_of_lt _ _ (by simp), hend, cuts_of_ge _ _ (by simp)]
  have hedges : rightEdges (fun _ : ℝ => (0 : ℝ)) [((3 : ℝ), (1 : ℝ))] = [0] := rfl
  rw [hedges, hcuts] at heq
  simpa [pieces, weightedMean, weightOf] using heq

theorem compress_invariants_three :
    ∃ out runs, compressExact (fun q : ℝ => 2 * q) [1, 1, 4] [1, 3, 2] = .ok out ∧
      Compresses (fun q : ℝ => 2 * q) 2 [(1, 1), (1, 3), (4, 2)] out runs :=
  have hscale : MonotoneOn (fun q : ℝ => 2 * q) (Set.Icc 0 1) :=
    fun _ _ _ _ h => mul_le_mul_of_nonneg_left h (by norm_num)
  have hsorted : [((1 : ℝ), (1 : ℝ)), (1, 3), (4, 2)].Pairwise fun p q => p.1 ≤ q.1 := by norm_num
  have hpos : ∀ p ∈ [((1 : ℝ), (1 : ℝ)), (1, 3), (4, 2)], 0 < p.2 := by norm_num
  compress_invariants hscale (mul_zero 2) (mul_one 2) (List.cons_ne_nil _ _) hsorted hpos

end Zagg.Stats
