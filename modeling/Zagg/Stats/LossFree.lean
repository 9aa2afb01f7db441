import Mathlib.Analysis.Real.Pi.Bounds
import Mathlib.Analysis.SpecialFunctions.Trigonometric.Bounds
import Mathlib.Analysis.SpecialFunctions.Trigonometric.Inverse
import Zagg.Lib.Pointwise
import Zagg.Stats.Compression
import Zagg.Stats.Envelope

/-!
# Loss-free digests

The arcsine scale rises by more than one unit over two of at most `delta` equal weights: its
slope is at least `2 * delta / π` everywhere. The greedy cut then keeps every observation to
itself.
-/
namespace Zagg.Stats

open Zagg.Lib

section Build
variable {K : Type} [Field K] [LinearOrder K]

/-- The finite observations with their words. -/
def exactRows (values : List (Option K)) (channels : List Words) : List (K × List Nat) :=
  values.zipIdx.filterMap fun v => v.1.map fun x => (x, channels.map fun ws => ws.getD v.2 0)

/-- A stable sort on the value. -/
def sortRows (rows : List (K × List Nat)) : List (K × List Nat) :=
  rows.insertionSort fun a b => a.1 ≤ b.1

/-- `build_tdigest` over exact numbers; `cast` is the stored copy's `float32`. -/
def buildTdigestExact (num : Numerics) (scale cast : K → K) (declared : List Channel)
    (values : List (Option K)) (words : List Words) : Except String (List (K × K) × List Words) := do
  let channels ← declared.zipIdx.mapM fun c =>
    checkWords (toString c.1) (words.getD c.2 []) values.length
  let rows := sortRows (exactRows values channels)
  if rows = [] then return ([], declared.map fun _ => [])
  let out ← compressExact scale (rows.map Prod.fst) (List.replicate rows.length 1)
  return ((out.means.zip out.weights).map fun c => (cast c.1, cast c.2),
    declared.zipIdx.map fun c =>
      (pieces (rows.map fun r => r.2.getD c.2 0) out.starts).map (channelWord num c.1))

/-- The kernel's row of an exact one. -/
def unitRow (r : ℚ × List Nat) : Row := ⟨r.1, 1, r.2⟩

theorem unitRow_sortRows (rows : List (ℚ × List Nat)) :
    (sortRows rows).map unitRow = sortByMean (rows.map unitRow) :=
  List.map_insertionSort _ _ unitRow rows fun _ _ _ _ => Iff.rfl

theorem unitRow_exactRows (values : List Value) (channels : List Words) :
    (exactRows values channels).map unitRow = observationRows values channels := by
  rw [exactRows, observationRows, List.map_filterMap]
  refine List.filterMap_congr fun v _ => ?_
  rw [Option.map_map]
  rfl

theorem buildTdigest_sortRows (num : Numerics) (delta : Nat) (declared : List Channel)
    (values : List Value) (channels : List Words) :
    buildTdigest num delta declared values channels =
      if sortRows (exactRows values channels) = [] then ⟨[], declared.map fun _ => []⟩
      else compressed num delta declared ((sortRows (exactRows values channels)).map unitRow) := by
  have hnil : sortRows (exactRows values channels) = [] ↔ exactRows values channels = [] := by
    rw [← List.length_eq_zero_iff, sortRows, List.length_insertionSort, List.length_eq_zero_iff]
  rw [buildTdigest, ← unitRow_exactRows, unitRow_sortRows]
  simp only [hnil]
  cases exactRows values channels <;> rfl

/-- Over the rationals, with the kernel's scale and cast, this is the build with checked words. -/
theorem buildTdigestExact_eq (num : Numerics) (delta : Nat) (declared : List Channel)
    (values : List Value) (words : List Words) :
    buildTdigestExact num (num.k1 delta) num.float32 declared values words =
      (buildTdigestChecked num delta declared values words).map fun p =>
        (p.digest.map fun c => (c.mean, c.weight), p.words) := by
  unfold buildTdigestExact buildTdigestChecked
  cases declared.zipIdx.mapM fun c => checkWords (toString c.1) (words.getD c.2 []) values.length with
  | error e => rfl
  | ok channels =>
    simp only [bind, Except.bind, pure, Except.pure, Except.map, buildTdigest_sortRows]
    generalize sortRows (exactRows values channels) = rows
    by_cases hnil : rows = []
    · rw [if_pos hnil, if_pos hnil]
      rfl
    · obtain ⟨out, hout, hcompressed⟩ :=
        compressed_eq_exact num delta declared (show rows.map unitRow ≠ [] by simpa using hnil)
      have hmeans : rows.map Prod.fst = (rows.map unitRow).map Row.mean := by
        rw [List.map_map]
        rfl
      have hweights : List.replicate rows.length 1 = (rows.map unitRow).map Row.weight := by
        rw [List.map_map, ← List.map_const']
        rfl
      rw [if_neg hnil, if_neg hnil, hmeans, hweights, hout, hcompressed]
      refine congrArg Except.ok (Prod.ext ?_ ?_)
      · rw [List.map_map]
        rfl
      · refine List.map_congr_left fun c _ => ?_
        rw [List.map_map]
        rfl

end Build

/-- `_k1_scale_array`. -/
noncomputable def k1Scale (delta q : ℝ) : ℝ :=
  delta * (Real.arcsin (2 * min (max q 0) 1 - 1) / Real.pi + 1 / 2)

/-- The arcsine is nowhere flatter than the identity. -/
theorem sub_le_arcsin_sub {x y : ℝ} (hx : -1 ≤ x) (hxy : x ≤ y) (hy : y ≤ 1) :
    y - x ≤ Real.arcsin y - Real.arcsin x := by
  have hlip := Real.abs_sin_sub_sin_le (Real.arcsin y) (Real.arcsin x)
  rw [Real.sin_arcsin (hx.trans hxy) hy, Real.sin_arcsin hx (hxy.trans hy),
    abs_of_nonneg (sub_nonneg.mpr hxy),
    abs_of_nonneg (sub_nonneg.mpr (Real.monotone_arcsin hxy))] at hlip
  exact hlip

theorem k1Scale_eq {delta q : ℝ} (h0 : 0 ≤ q) (h1 : q ≤ 1) :
    k1Scale delta q = delta * (Real.arcsin (2 * q - 1) / Real.pi + 1 / 2) := by
  rw [k1Scale, max_eq_left h0, min_eq_left h1]

/-- Two of at most `delta` equal weights span more than one unit. -/
theorem k1Scale_steep {delta : ℝ} {n s : Nat} (hn : (n : ℝ) ≤ delta) (hs : s + 2 ≤ n) :
    k1Scale delta (s / n) + 1 < k1Scale delta ((s + 2 : Nat) / n) := by
  have hnpos : (0 : ℝ) < n := Nat.cast_pos.mpr (by omega)
  have hlast : ((s + 2 : Nat) : ℝ) / n ≤ 1 := by
    rw [div_le_one hnpos]
    exact Nat.cast_le.mpr hs
  have hstep : ((s + 2 : Nat) : ℝ) / n - s / n = 2 / n := by
    push_cast
    ring
  have hfirst : (0 : ℝ) ≤ s / n := by positivity
  have hrise : (4 : ℝ) / n ≤ Real.arcsin (2 * ((s + 2 : Nat) / n) - 1) - Real.arcsin (2 * (s / n) - 1) := by
    have hle := sub_le_arcsin_sub (x := 2 * ((s : ℝ) / n) - 1) (y := 2 * ((s + 2 : Nat) / n) - 1)
      (by linarith) (by linarith [div_nonneg zero_le_two hnpos.le]) (by linarith)
    calc (4 : ℝ) / n = 2 * (2 / n) := by ring
      _ = 2 * (((s + 2 : Nat) : ℝ) / n) - 1 - (2 * ((s : ℝ) / n) - 1) := by rw [← hstep]; ring
      _ ≤ _ := hle
  have hpi : 1 < delta * (4 / n / Real.pi) := by
    have hfour : Real.pi < 4 := Real.pi_lt_four
    have hratio : 1 ≤ delta / n := (one_le_div hnpos).mpr hn
    calc (1 : ℝ) < 4 / Real.pi := (one_lt_div Real.pi_pos).mpr hfour
      _ ≤ delta / n * (4 / Real.pi) := le_mul_of_one_le_left (by positivity) hratio
      _ = delta * (4 / n / Real.pi) := by ring
  have hdelta : 0 ≤ delta := hnpos.le.trans hn
  have hscaled := mul_le_mul_of_nonneg_left (div_le_div_of_nonneg_right hrise Real.pi_pos.le) hdelta
  rw [k1Scale_eq hfirst (by linarith [div_nonneg zero_le_two hnpos.le]), k1Scale_eq (by positivity) hlast]
  rw [sub_div, mul_sub] at hscaled
  linarith

theorem map_ones (values : List ℝ) :
    (values.map fun v => (v, (1 : ℝ))).map Prod.fst = values ∧
      (values.map fun v => (v, (1 : ℝ))).map Prod.snd = List.replicate values.length 1 := by
  rw [List.map_map, List.map_map]
  refine ⟨List.map_id'' (fun _ => rfl) values, List.eq_replicate_iff.mpr ⟨List.length_map _, ?_⟩⟩
  intro w hw
  obtain ⟨v, -, rfl⟩ := List.mem_map.mp hw
  rfl

/-- Unit weights count the points. -/
theorem weightOf_ones (values : List ℝ) : weightOf (values.map fun v => (v, (1 : ℝ))) = values.length := by
  rw [weightOf, (map_ones values).2, List.sum_replicate, nsmul_one]

/-- At most `delta` observations of weight 1 are cut into singletons. -/
theorem cuts_ones {delta : ℝ} {values : List ℝ} (hn : (values.length : ℝ) ≤ delta) :
    let points := values.map fun v => (v, (1 : ℝ))
    cuts (k1Scale delta 0) (rightEdges (k1Scale delta) points) 0 = List.range' 0 values.length := by
  intro points
  have hpoints : points.length = values.length := List.length_map _
  have hlen := length_rightEdges (k1Scale delta) points
  have hweight : ∀ i ≤ values.length, weightOf (points.take i) = i := by
    intro i hi
    rw [← List.map_take, weightOf_ones, List.length_take, min_eq_left hi]
  have htotal : weightOf points = values.length := weightOf_ones values
  rw [cuts_of_steep, hlen, hpoints, Nat.sub_zero]
  intro s hs
  rw [hlen, hpoints] at hs
  rw [leftEdge_rightEdges _ (by omega), getD_rightEdges _ (by omega), hweight s (by omega),
    hweight (s + 1 + 1) (by omega), htotal]
  exact k1Scale_steep hn (by omega)

theorem compress_ones {delta : ℝ} {values : List ℝ} (hne : values ≠ []) (hn : (values.length : ℝ) ≤ delta) :
    compressExact (k1Scale delta) values (List.replicate values.length 1) =
      .ok ⟨values, List.replicate values.length 1, List.range' 0 values.length⟩ := by
  have hpoints : (values.map fun v => (v, (1 : ℝ))) ≠ [] := by simpa using hne
  have hcompress := compressExact_eq (k1Scale delta) hpoints
  have hmean : ∀ v : ℝ, weightedMean [(v, (1 : ℝ))] = v := by
    intro v
    simp [weightedMean, weightOf]
  have hweight : ∀ v : ℝ, weightOf [(v, (1 : ℝ))] = 1 := by
    intro v
    simp [weightOf]
  have hpieces : pieces (values.map fun v => (v, (1 : ℝ))) (List.range' 0 values.length) =
      values.map fun v => [(v, (1 : ℝ))] := by
    rw [pieces_map, pieces_range', List.map_map]
    rfl
  rw [(map_ones values).1, (map_ones values).2, cuts_ones hn] at hcompress
  rw [hcompress, hpieces, List.map_map, List.map_map]
  congr 2
  · exact List.map_id'' hmean values
  · rw [List.eq_replicate_iff]
    refine ⟨List.length_map _, fun w hw => ?_⟩
    obtain ⟨v, -, rfl⟩ := List.mem_map.mp hw
    exact hweight v

theorem length_exactRows_le {K : Type} (values : List (Option K)) (channels : List Words) :
    (exactRows values channels).length ≤ values.length := by
  rw [exactRows]
  exact (List.length_filterMap_le _ _).trans (List.length_zipIdx ..).le

/-- Every row's words are the ones that passed the checks. -/
theorem word_ne_zero {declared : List Channel} {values : List (Option ℝ)} {words : List Words}
    (hwords : ∀ c ∈ declared.zipIdx,
      (words.getD c.2 []).length = values.length ∧ 0 ∉ words.getD c.2 [])
    {r : ℝ × List Nat} (hr : r ∈ exactRows values (declared.zipIdx.map fun c => words.getD c.2 []))
    {c : Channel × Nat} (hc : c ∈ declared.zipIdx) : r.2.getD c.2 0 ≠ 0 := by
  obtain ⟨v, hv, hrow⟩ := List.mem_filterMap.mp hr
  obtain ⟨x, -, rfl⟩ := Option.map_eq_some_iff.mp hrow
  obtain ⟨hlen, hzero⟩ := hwords c hc
  have hi : v.2 < (words.getD c.2 []).length := by
    rw [hlen]
    exact List.snd_lt_of_mem_zipIdx hv
  show ((declared.zipIdx.map fun c => words.getD c.2 []).map fun ws => ws.getD v.2 0).getD c.2 0 ≠ 0
  rw [List.map_map, getD_map_zipIdx declared _ 0 hc]
  intro hword
  rw [Function.comp_apply, List.getD_eq_getElem _ _ hi] at hword
  exact hzero (hword ▸ List.getElem_mem hi)

/-- Up to `delta` observations: a centroid of weight 1 for each finite one, in ascending order,
with its own words. -/
theorem loss_free (num : Numerics) (cast : ℝ → ℝ) (hcast : cast 1 = 1)
    (htoc : ∀ w, w ≠ 0 → num.tocsReduce [w] = w) (delta : Nat) (declared : List Channel)
    {values : List (Option ℝ)} {words : List Words} (hn : values.length ≤ delta)
    (hwords : ∀ c ∈ declared.zipIdx,
      (words.getD c.2 []).length = values.length ∧ 0 ∉ words.getD c.2 []) :
    ∃ rows : List (ℝ × List Nat), rows.Perm (exactRows values (declared.zipIdx.map fun c => words.getD c.2 [])) ∧
      rows.Pairwise (fun a b => a.1 ≤ b.1) ∧
      buildTdigestExact num (k1Scale delta) cast declared values words =
        .ok (rows.map fun r => (cast r.1, 1),
          declared.zipIdx.map fun c => rows.map fun r => r.2.getD c.2 0) := by
  have hchecks : (declared.zipIdx.mapM fun c =>
      checkWords (toString c.1) (words.getD c.2 []) values.length) =
      .ok (declared.zipIdx.map fun c => words.getD c.2 []) := by
    refine mapM_ok fun c hc => ?_
    obtain ⟨hlen, hzero⟩ := hwords c hc
    rw [checkWords, if_neg (not_not.mpr hlen), if_neg hzero]
  generalize hchannels : declared.zipIdx.map (fun c => words.getD c.2 []) = channels at hchecks ⊢
  have hperm : (sortRows (exactRows values channels)).Perm (exactRows values channels) :=
    List.perm_insertionSort _ _
  have hsorted : (sortRows (exactRows values channels)).Pairwise fun a b => a.1 ≤ b.1 := by
    have : Std.Total fun a b : ℝ × List Nat => a.1 ≤ b.1 := ⟨fun a b => le_total a.1 b.1⟩
    have : IsTrans (ℝ × List Nat) fun a b => a.1 ≤ b.1 := ⟨fun _ _ _ => le_trans⟩
    exact List.pairwise_insertionSort _ _
  refine ⟨sortRows (exactRows values channels), hperm, hsorted, ?_⟩
  have hword : ∀ r ∈ sortRows (exactRows values channels), ∀ c ∈ declared.zipIdx,
      r.2.getD c.2 0 ≠ 0 := by
    intro r hr c hc
    rw [← hchannels] at hperm
    exact word_ne_zero hwords (hperm.mem_iff.mp (hchannels ▸ hr)) hc
  have hle : (sortRows (exactRows values channels)).length ≤ delta :=
    hperm.length_eq.trans_le ((length_exactRows_le values channels).trans hn)
  rw [buildTdigestExact, hchecks]
  simp only [bind, Except.bind, pure, Except.pure]
  generalize sortRows (exactRows values channels) = rows at hword hle ⊢
  split_ifs with hnil
  · rw [hnil]
    simp [List.map_const']
  · have hmany : ((rows.map Prod.fst).length : ℝ) ≤ delta := by
      rw [List.length_map]
      exact_mod_cast hle
    have hcompress := compress_ones (by simpa using hnil) hmany
    rw [List.length_map] at hcompress
    rw [hcompress]
    refine congrArg Except.ok (Prod.ext ?_ ?_)
    · have hones : List.replicate rows.length (1 : ℝ) = rows.map fun _ => 1 := List.map_const'.symm
      show (((rows.map Prod.fst).zip (List.replicate rows.length 1)).map fun c => (cast c.1, cast c.2)) = _
      rw [hones, List.zip_map', List.map_map]
      refine List.map_congr_left fun r _ => ?_
      rw [Function.comp_apply, hcast]
    · refine List.map_congr_left fun c hc => ?_
      have hpieces := pieces_range' (rows.map fun r => r.2.getD c.2 0)
      rw [List.length_map] at hpieces
      rw [hpieces, List.map_map, List.map_map]
      refine List.map_congr_left fun r hr => ?_
      show channelWord num c.1 [r.2.getD c.2 0] = r.2.getD c.2 0
      cases c.1 with
      | locations => rfl
      | temporal => exact htoc _ (hword r hr c hc)

theorem loss_free_two :
    ∃ rows : List (ℝ × List Nat), rows.Perm (exactRows [some 3, none, some 1]
        ([Channel.locations, Channel.temporal].zipIdx.map fun c => [[7, 7, 9], [4, 5, 6]].getD c.2 [])) ∧
      rows.Pairwise (fun a b => a.1 ≤ b.1) ∧
      buildTdigestExact spanNumerics (k1Scale (3 : Nat)) id [.locations, .temporal]
        [some 3, none, some 1] [[7, 7, 9], [4, 5, 6]] =
        .ok (rows.map fun r => (id r.1, 1),
          [Channel.locations, Channel.temporal].zipIdx.map fun c => rows.map fun r => r.2.getD c.2 0) :=
  loss_free spanNumerics id rfl (fun _ _ => rfl) 3 [.locations, .temporal] (by simp) (by simp)

end Zagg.Stats
