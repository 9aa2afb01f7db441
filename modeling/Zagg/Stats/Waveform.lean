import Zagg.Lib.Extended
import Zagg.Stats.LossFree

/-!
# The waveform flux digest

A sample weighs the photons it counts above the noise, and nothing at or below the threshold of
the declared operating point. The samples of positive weight are sorted by value and compressed
like any weighted points: each keeps its own centroid exactly when no two neighbours fit within
one unit of the scale, which the number of samples alone does not ensure.
-/
namespace Zagg.Stats

open Zagg.Lib

section Rows
variable {K : Type} [Field K] [LinearOrder K]

/-- A cell's samples with their columns, and the declared parameters. `nSigma` is the threshold of
the operating point, or the error it is refused with. -/
structure Waveform (K : Type) where
  values : List (Extended K)
  counts : List (Extended K)
  noiseMean : List (Extended K)
  noiseStddev : List (Extended K)
  gain : K
  nSigma : Except String K
  temporal : Option Words

/-- A surviving sample. -/
structure FluxRow (K : Type) where
  value : K
  weight : K
  words : List Nat

def FluxRow.point {K : Type} (r : FluxRow K) : K × K := (r.value, r.weight)

/-- `waveform_weights` of one sample. -/
def waveformWeight (gain nSigma : K) (count noiseMean noiseStddev : Extended K) : Extended K :=
  if count ≤ noiseMean + .fin nSigma * noiseStddev then .fin 0 else (count - noiseMean) * .fin gain

/-- The keep mask of one sample. -/
def keptRow (words : List Nat) : Extended K → Extended K → Option (FluxRow K)
  | .fin value, .fin weight => if 0 < weight then some ⟨value, weight, words⟩ else none
  | _, _ => none

def survivors (w : Waveform K) (nSigma : K) : List (FluxRow K) :=
  w.values.zipIdx.filterMap fun v =>
    keptRow (w.temporal.toList.map fun ws => ws.getD v.2 0) v.1
      (waveformWeight w.gain nSigma (w.counts.getD v.2 .nan) (w.noiseMean.getD v.2 .nan)
        (w.noiseStddev.getD v.2 .nan))

def checkColumn (name : String) (col values : List (Extended K)) : Except String Unit :=
  if col.length ≠ values.length then
    .error s!"{name} shape ({col.length},) does not match values shape ({values.length},)"
  else .ok ()

/-- The checks of `build_waveform_digest`, and the samples that it keeps. -/
def waveformRows (w : Waveform K) : Except String (List (FluxRow K)) := do
  checkColumn "counts" w.counts w.values
  checkColumn "noise_mean" w.noiseMean w.values
  checkColumn "noise_stddev" w.noiseStddev w.values
  let _ ← w.temporal.toList.mapM fun ws => checkWords "temporal" ws w.values.length
  return survivors w (← w.nSigma)

def Waveform.declared (w : Waveform K) : List Channel :=
  if w.temporal.isSome then [.temporal] else []

/-- A stable sort on the value. -/
def sortFlux (rows : List (FluxRow K)) : List (FluxRow K) :=
  rows.insertionSort fun a b => a.value ≤ b.value

/-- `build_waveform_digest` over exact numbers. -/
def buildWaveformExact (num : Numerics) (scale : K → K) (w : Waveform K) :
    Except String (List (K × K) × List Words) := do
  let rows := sortFlux (← waveformRows w)
  if rows = [] then return ([], w.declared.map fun _ => [])
  let out ← compressExact scale (rows.map FluxRow.value) (rows.map FluxRow.weight)
  return (out.means.zip out.weights, w.declared.zipIdx.map fun c =>
    (pieces (rows.map fun r => r.words.getD c.2 0) out.starts).map (channelWord num c.1))

end Rows

/-- `build_waveform_digest` with the stored copy's `float32`. -/
def buildWaveformDigest (num : Numerics) (delta : Nat) (w : Waveform ℚ) : Except String Part := do
  let rows ← waveformRows w
  if rows = [] then return ⟨[], w.declared.map fun _ => []⟩
  return compressed num delta w.declared
    (sortByMean (rows.map fun r => ⟨r.value, r.weight, r.words⟩))

/-- The kernel's row of a surviving sample. -/
def FluxRow.row (r : FluxRow ℚ) : Row := ⟨r.value, r.weight, r.words⟩

/-- Over the rationals the stored copy is the exact build, cast. -/
theorem buildWaveformDigest_eq (num : Numerics) (delta : Nat) (w : Waveform ℚ) :
    buildWaveformDigest num delta w = (buildWaveformExact num (num.k1 delta) w).map fun r =>
      ⟨r.1.map fun c => ⟨num.float32 c.1, num.float32 c.2⟩, r.2⟩ := by
  unfold buildWaveformDigest buildWaveformExact
  cases waveformRows w with
  | error e => rfl
  | ok rows =>
    simp only [bind, Except.bind, pure, Except.pure]
    have hsorted : sortByMean (rows.map FluxRow.row) = (sortFlux rows).map FluxRow.row :=
      (List.map_insertionSort _ _ FluxRow.row rows fun _ _ _ _ => Iff.rfl).symm
    have hnil : rows = [] ↔ sortFlux rows = [] := by
      rw [← List.length_eq_zero_iff, ← List.length_eq_zero_iff, sortFlux, List.length_insertionSort]
    show (if rows = [] then _ else
      Except.ok (compressed num delta w.declared (sortByMean (rows.map FluxRow.row)))) = _
    simp only [hsorted, hnil]
    generalize sortFlux rows = rows
    by_cases hrows : rows = []
    · rw [if_pos hrows, if_pos hrows]
      rfl
    · obtain ⟨out, hout, hcompressed⟩ :=
        compressed_eq_exact num delta w.declared
          (show rows.map FluxRow.row ≠ [] by simpa using hrows)
      rw [List.map_map, List.map_map] at hout
      have hout : compressExact (num.k1 delta) (rows.map FluxRow.value) (rows.map FluxRow.weight) =
        .ok out := hout
      rw [if_neg hrows, if_neg hrows, hout, hcompressed]
      refine congrArg (fun words => Except.ok (Part.mk _ words)) (List.map_congr_left fun c _ => ?_)
      rw [List.map_map]
      rfl

section Kept
variable {K : Type} [Field K] [LinearOrder K]

theorem waveformRows_eq {w : Waveform K} {kept : List (FluxRow K)} (h : waveformRows w = .ok kept) :
    ∃ nSigma, kept = survivors w nSigma := by
  obtain ⟨-, -, h⟩ := bind_ok h
  obtain ⟨-, -, h⟩ := bind_ok h
  obtain ⟨-, -, h⟩ := bind_ok h
  obtain ⟨-, -, h⟩ := bind_ok h
  obtain ⟨nSigma, -, h⟩ := bind_ok h
  exact ⟨nSigma, (Except.ok.inj h).symm⟩

/-- Every surviving sample has a positive weight. -/
theorem pos_of_mem_waveformRows {w : Waveform K} {kept : List (FluxRow K)}
    (h : waveformRows w = .ok kept) {r : FluxRow K} (hr : r ∈ kept) : 0 < r.weight := by
  obtain ⟨nSigma, rfl⟩ := waveformRows_eq h
  obtain ⟨v, -, hv⟩ := List.mem_filterMap.mp hr
  unfold keptRow at hv
  split at hv
  · split_ifs at hv with hpos
    obtain rfl := Option.some.inj hv
    exact hpos
  · cases hv

/-- A finite sample above the threshold survives with its photons. -/
theorem keptRow_above [IsStrictOrderedRing K] (words : List Nat)
    {value gain nSigma count noiseMean noiseStddev : K} (hgain : 0 < gain)
    (hover : noiseMean + nSigma * noiseStddev < count) (hsignal : noiseMean < count) :
    keptRow words (.fin value)
        (waveformWeight gain nSigma (.fin count) (.fin noiseMean) (.fin noiseStddev)) =
      some ⟨value, (count - noiseMean) * gain, words⟩ := by
  have hclip : ¬(Extended.fin count ≤ .fin noiseMean + .fin nSigma * .fin noiseStddev) := by
    rw [Extended.fin_mul_fin, Extended.fin_add_fin, Extended.fin_le_fin, not_le]
    exact hover
  rw [waveformWeight, if_neg hclip, Extended.fin_sub_fin, Extended.fin_mul_fin, keptRow,
    if_pos (mul_pos (sub_pos.mpr hsignal) hgain)]

end Kept

section Exact

/-- The scale does not fall. -/
theorem k1Scale_monotone {delta : ℝ} (hdelta : 0 ≤ delta) : Monotone (k1Scale delta) := by
  intro x y hxy
  unfold k1Scale
  have hclip : min (max x 0) 1 ≤ min (max y 0) 1 := min_le_min_right 1 (max_le_max_right 0 hxy)
  have harcsin := Real.monotone_arcsin (show 2 * min (max x 0) 1 - 1 ≤ 2 * min (max y 0) 1 - 1 by linarith)
  have hpi := Real.pi_pos
  gcongr

/-- No two neighbours fit within one unit of the scale. -/
def Apart (delta : ℝ) (points : List (ℝ × ℝ)) : Prop :=
  ∀ s, s + 2 ≤ points.length →
    k1Scale delta (weightOf (points.take s) / weightOf points) + 1 <
      k1Scale delta (weightOf (points.take (s + 2)) / weightOf points)

variable {delta : ℝ} {points : List (ℝ × ℝ)}

theorem apart_iff : Apart delta points ↔ ∀ s, s + 1 < (rightEdges (k1Scale delta) points).length →
    leftEdge (k1Scale delta 0) (rightEdges (k1Scale delta) points) s + 1 <
      (rightEdges (k1Scale delta) points).getD (s + 1) 0 := by
  have hlen := length_rightEdges (k1Scale delta) points
  apply forall_congr'
  intro s
  rw [hlen]
  apply imp_congr_right
  intro hs
  have hs : s + 1 < points.length := hs
  rw [leftEdge_rightEdges _ (by omega), getD_rightEdges _ hs]

/-- The points compress to as many centroids exactly when they lie apart. -/
theorem length_cuts_iff (hdelta : 0 ≤ delta) (hpos : ∀ p ∈ points, 0 < p.2) :
    (cuts (k1Scale delta 0) (rightEdges (k1Scale delta) points) 0).length = points.length ↔
      Apart delta points := by
  have hlen := length_rightEdges (k1Scale delta) points
  have hsorted := rightEdges_sorted ((k1Scale_monotone hdelta).monotoneOn (Set.Icc 0 1)) hpos
  rw [apart_iff]
  constructor
  · intro h s hs
    exact steep_of_length_cuts hsorted (h.trans hlen.symm) hs
  · intro h
    rw [cuts_of_steep _ _ h, List.length_range', hlen, Nat.sub_zero]

/-- A single point is its own mean. -/
theorem weightedMean_singleton {p : ℝ × ℝ} (hp : 0 < p.2) : (weightedMean [p], weightOf [p]) = p := by
  have hweight : weightOf [p] = p.2 := List.sum_singleton
  have hmean : weightedMean [p] = p.1 := by
    rw [weightedMean, hweight, List.map_singleton, List.sum_singleton, mul_div_cancel_right₀ _ hp.ne']
  rw [hweight, hmean]

/-- The exact centroids of points that lie apart are the points. -/
theorem centroids_of_apart (hpos : ∀ p ∈ points, 0 < p.2) (h : Apart delta points) :
    (pieces points (cuts (k1Scale delta 0) (rightEdges (k1Scale delta) points) 0)).map
      (fun run => (weightedMean run, weightOf run)) = points := by
  have hlen := length_rightEdges (k1Scale delta) points
  rw [cuts_of_steep _ _ (apart_iff.mp h), Nat.sub_zero, hlen, pieces_range', List.map_map]
  conv_rhs => rw [← List.map_id points]
  exact List.map_congr_left fun p hp => weightedMean_singleton (hpos p hp)

theorem sum_centroids (delta : ℝ) (points : List (ℝ × ℝ)) :
    ((pieces points (cuts (k1Scale delta 0) (rightEdges (k1Scale delta) points) 0)).map weightOf).sum =
      (points.map Prod.snd).sum := by
  rw [sum_weightOf, flatten_pieces (length_rightEdges (k1Scale delta) points), List.drop_zero]
  rfl

/-- The exact centroids of weighted points. -/
noncomputable def centroidsOf (delta : ℝ) (points : List (ℝ × ℝ)) : List (ℝ × ℝ) :=
  (pieces points (cuts (k1Scale delta 0) (rightEdges (k1Scale delta) points) 0)).map
    fun run => (weightedMean run, weightOf run)

/-- What the flux digest of a cell promises. -/
structure KeepsFlux (delta : Nat) (kept : List (FluxRow ℝ)) (digest : List (ℝ × ℝ)) : Prop where
  total : (digest.map Prod.snd).sum = (kept.map FluxRow.weight).sum
  each : kept.length ≤ delta → digest.Perm (kept.map FluxRow.point)

/-- The digest of the compressed points, and when it keeps them. -/
theorem keepsFlux_iff {delta : Nat} {kept : List (FluxRow ℝ)} {points : List (ℝ × ℝ)}
    (hperm : points.Perm (kept.map FluxRow.point)) (hpos : ∀ p ∈ points, 0 < p.2) :
    KeepsFlux delta kept (centroidsOf delta points) ↔ (kept.length ≤ delta → Apart delta points) := by
  have hsum : (points.map Prod.snd).sum = (kept.map FluxRow.weight).sum := by
    have hweights := (hperm.map Prod.snd).sum_eq
    rwa [List.map_map] at hweights
  constructor
  · intro hkeeps hfew
    have hlen := (hkeeps.each hfew).length_eq
    rw [centroidsOf, List.length_map, length_pieces, ← hperm.length_eq] at hlen
    exact (length_cuts_iff (Nat.cast_nonneg delta) hpos).mp hlen
  · intro hapart
    refine ⟨?_, fun hfew => ?_⟩
    · rw [centroidsOf, List.map_map, ← hsum]
      exact sum_centroids delta points
    · rw [centroidsOf, centroids_of_apart hpos (hapart hfew)]
      exact hperm

theorem compress_flux {delta : ℝ} {rows : List (FluxRow ℝ)} (hne : rows ≠ []) :
    compressExact (k1Scale delta) (rows.map FluxRow.value) (rows.map FluxRow.weight) =
      let points := rows.map FluxRow.point
      let starts := cuts (k1Scale delta 0) (rightEdges (k1Scale delta) points) 0
      .ok ⟨(pieces points starts).map weightedMean, (pieces points starts).map weightOf, starts⟩ := by
  have hpoints : rows.map FluxRow.point ≠ [] := by simpa using hne
  have hcompress := compressExact_eq (k1Scale delta) hpoints
  rw [List.map_map, List.map_map] at hcompress
  exact hcompress

/-- The flux digest holds the centroids of the surviving samples in the order of their values. -/
theorem exists_buildWaveform (num : Numerics) (delta : Nat) (w : Waveform ℝ)
    {kept : List (FluxRow ℝ)} (hkept : waveformRows w = .ok kept) :
    ∃ words, buildWaveformExact num (k1Scale delta) w =
      .ok (centroidsOf delta ((sortFlux kept).map FluxRow.point), words) := by
  rw [buildWaveformExact, hkept]
  simp only [bind, Except.bind, pure, Except.pure]
  by_cases hnil : sortFlux kept = []
  · rw [if_pos hnil, hnil, List.map_nil, centroidsOf, cuts_of_ge _ _ (Nat.zero_le 0)]
    exact ⟨_, rfl⟩
  · rw [if_neg hnil, compress_flux hnil]
    dsimp only
    rw [List.zip_map']
    exact ⟨_, rfl⟩

theorem sortFlux_points {w : Waveform ℝ} {kept : List (FluxRow ℝ)} (hkept : waveformRows w = .ok kept) :
    ((sortFlux kept).map FluxRow.point).Perm (kept.map FluxRow.point) ∧
      ∀ p ∈ (sortFlux kept).map FluxRow.point, 0 < p.2 := by
  have hperm : (sortFlux kept).Perm kept := List.perm_insertionSort _ _
  refine ⟨hperm.map _, fun p hp => ?_⟩
  obtain ⟨r, hr, rfl⟩ := List.mem_map.mp hp
  exact pos_of_mem_waveformRows hkept (hperm.mem_iff.mp hr)

/-- Two samples beside a heavy one. -/
noncomputable def unevenFlux : Waveform ℝ where
  values := [.fin 1, .fin (2 : Nat), .fin 3]
  counts := [.fin 1, .fin 1, .fin 8]
  noiseMean := [.fin 0, .fin 0, .fin 0]
  noiseStddev := [.fin 0, .fin 0, .fin 0]
  gain := 1
  nSigma := .ok 0
  temporal := none

theorem unevenFlux_rows :
    waveformRows unevenFlux = .ok [⟨1, (1 - 0) * 1, []⟩, ⟨2, (1 - 0) * 1, []⟩, ⟨3, (8 - 0) * 1, []⟩] := by
  have hsample : ∀ value count : ℝ, 0 < count → keptRow [] (.fin value)
      (waveformWeight 1 0 (.fin count) (.fin 0) (.fin 0)) = some ⟨value, (count - 0) * 1, []⟩ := by
    intro value count hcount
    exact keptRow_above [] one_pos (by linarith) hcount
  have h1 := hsample 1 1 (by norm_num)
  have h2 := hsample 2 1 (by norm_num)
  have h3 := hsample 3 8 (by norm_num)
  show Except.ok (survivors unevenFlux 0) = _
  rw [survivors, unevenFlux]
  simp only [List.zipIdx_cons, List.zipIdx_nil, List.filterMap_cons, List.filterMap_nil, List.getD_cons_zero,
    List.getD_cons_succ, Option.toList_none, List.map_nil, Nat.zero_add, Nat.reduceAdd, Nat.cast_ofNat,
    h1, h2, h3]

theorem unevenFlux_sorted :
    (sortFlux [⟨1, (1 - 0) * 1, []⟩, ⟨2, (1 - 0) * 1, []⟩, ⟨3, (8 - 0) * 1, []⟩]).map FluxRow.point =
      [((1 : ℝ), (1 - 0) * 1), (2, (1 - 0) * 1), (3, (8 - 0) * 1)] := by
  rw [sortFlux, List.Pairwise.insertionSort_eq]
  · rfl
  · norm_num

/-- The first two samples weigh a fifth of the cell, which fits one unit of three. -/
theorem unevenFlux_not_apart : ¬Apart (3 : Nat) ([(1, (1 - 0) * 1), (2, (1 - 0) * 1), (3, (8 - 0) * 1)]) := by
  intro h
  have hfirst := h 0 (by decide)
  have hhalf : Real.arcsin (1 / 2) = Real.pi / 6 := by
    rw [← Real.sin_pi_div_six]
    apply Real.arcsin_sin
    · linarith [Real.pi_pos]
    · linarith [Real.pi_pos]
  have hneg : Real.arcsin (2 * (1 / 5) - 1) ≤ -(Real.pi / 6) := by
    rw [← hhalf, ← Real.arcsin_neg]
    exact Real.monotone_arcsin (by norm_num)
  have hstart : k1Scale 3 0 = 0 := by
    rw [k1Scale_eq le_rfl zero_le_one, mul_zero, zero_sub, Real.arcsin_neg_one]
    field_simp
    ring
  have hfifth : k1Scale 3 (1 / 5) ≤ 1 := by
    rw [k1Scale_eq (by norm_num) (by norm_num)]
    have hratio : Real.arcsin (2 * (1 / 5) - 1) / Real.pi ≤ -(1 / 6) := by
      rw [div_le_iff₀ Real.pi_pos]
      linarith
    linarith
  norm_num [weightOf] at hfirst
  rw [hstart] at hfirst
  linarith

/-- A cell keeps its flux, and each of at most `delta` surviving samples, exactly when no two
samples that are neighbours in the order of their values fit within one unit of the scale. -/
theorem waveform_meets_iff (num : Numerics) (delta : Nat) (w : Waveform ℝ)
    {kept : List (FluxRow ℝ)} (hkept : waveformRows w = .ok kept) :
    ∃ digest words, buildWaveformExact num (k1Scale delta) w = .ok (digest, words) ∧
      (KeepsFlux delta kept digest ↔
        (kept.length ≤ delta → Apart delta ((sortFlux kept).map FluxRow.point))) := by
  obtain ⟨words, hbuild⟩ := exists_buildWaveform num delta w hkept
  obtain ⟨hperm, hpos⟩ := sortFlux_points hkept
  exact ⟨_, words, hbuild, keepsFlux_iff hperm hpos⟩

theorem waveform_meets_iff_uneven :
    ∃ digest words, buildWaveformExact smallNumerics (k1Scale (3 : Nat)) unevenFlux = .ok (digest, words) ∧
      (KeepsFlux 3 [⟨1, (1 - 0) * 1, []⟩, ⟨2, (1 - 0) * 1, []⟩, ⟨3, (8 - 0) * 1, []⟩] digest ↔
        (3 ≤ 3 → Apart (3 : Nat) ((sortFlux [⟨1, (1 - 0) * 1, []⟩, ⟨2, (1 - 0) * 1, []⟩,
          ⟨3, (8 - 0) * 1, []⟩]).map FluxRow.point))) :=
  waveform_meets_iff smallNumerics 3 unevenFlux unevenFlux_rows

/-- Three samples, at most `delta`, of which two share a centroid. -/
theorem waveform_loses_samples :
    ∃ kept digest words, waveformRows unevenFlux = .ok kept ∧ kept.length ≤ 3 ∧
      buildWaveformExact smallNumerics (k1Scale (3 : Nat)) unevenFlux = .ok (digest, words) ∧
      ¬digest.Perm (kept.map FluxRow.point) := by
  obtain ⟨words, hbuild⟩ := exists_buildWaveform smallNumerics 3 unevenFlux unevenFlux_rows
  obtain ⟨hperm, hpos⟩ := sortFlux_points unevenFlux_rows
  rw [unevenFlux_sorted] at hbuild hperm hpos
  refine ⟨_, _, words, unevenFlux_rows, le_rfl, hbuild, fun hsame => ?_⟩
  have hlen := hsame.length_eq
  rw [centroidsOf, List.length_map, length_pieces] at hlen
  exact unevenFlux_not_apart ((length_cuts_iff (Nat.cast_nonneg 3) hpos).mp hlen)

end Exact

end Zagg.Stats
