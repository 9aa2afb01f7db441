import Zagg.Stats.Cdf

/-!
# Rasterized cells

`rasterize_cell` cuts a digest's weight at evenly spaced edges. Windows that meet share an edge,
so they partition the weight between their outer edges.
-/
namespace Zagg.Readers

open Zagg.Lib Zagg.Stats

/-- `edges`: the borders of the bins. -/
def edges (zLo resolution : ℚ) (nBins : ℕ) : List ℚ :=
  (List.range (nBins + 1)).map fun i : ℕ => zLo + resolution * i

/-- `np.diff`, clipped at 0. -/
def clippedDiff (cdf : List ℚ) : List ℚ :=
  List.zipWith (fun lo hi => max (hi - lo) 0) cdf cdf.tail

def rasterizeCell (digest : Digest) (zLo resolution : ℚ) (nBins : ℕ) : List ℚ :=
  if digest = [] then List.replicate nBins 0
  else clippedDiff ((edges zLo resolution nBins).map (cdfAt digest))

section Bins
variable {digest : Digest} {zLo resolution : ℚ}

/-- The weight between the edges of bin `i`. -/
def binWeight (digest : Digest) (zLo resolution : ℚ) (i : ℕ) : ℚ :=
  max (cdfAt digest (zLo + resolution * (i + 1 : ℕ)) - cdfAt digest (zLo + resolution * i)) 0

theorem rasterizeCell_eq (hne : digest ≠ []) (zLo resolution : ℚ) (nBins : ℕ) :
    rasterizeCell digest zLo resolution nBins =
      (List.range nBins).map (binWeight digest zLo resolution) := by
  rw [rasterizeCell, if_neg hne, clippedDiff, edges, List.map_map]
  apply List.ext_getElem
  · simp
  · intro i h _
    rw [List.getElem_zipWith, List.getElem_map, List.getElem_tail, List.getElem_map,
      List.getElem_map, List.getElem_range, List.getElem_range, List.getElem_range]
    rfl

theorem rasterizeCell_nonneg {count : ℚ} {nBins : ℕ}
    (h : count ∈ rasterizeCell digest zLo resolution nBins) : 0 ≤ count := by
  by_cases hne : digest = []
  · rw [rasterizeCell, if_pos hne] at h
    exact (List.eq_of_mem_replicate h).ge
  · rw [rasterizeCell_eq hne] at h
    obtain ⟨i, -, rfl⟩ := List.mem_map.mp h
    exact le_max_right _ _

/-- Two windows that meet make up one. -/
theorem rasterizeCell_append (digest : Digest) (zLo resolution : ℚ) (n m : ℕ) :
    rasterizeCell digest zLo resolution (n + m) = rasterizeCell digest zLo resolution n ++
      rasterizeCell digest (zLo + resolution * n) resolution m := by
  by_cases hne : digest = []
  · rw [rasterizeCell, rasterizeCell, rasterizeCell, if_pos hne, if_pos hne, if_pos hne,
      List.replicate_add]
  · rw [rasterizeCell_eq hne, rasterizeCell_eq hne, rasterizeCell_eq hne, List.range_add,
      List.map_append, List.map_map]
    congr 1
    apply List.map_congr_left
    intro i _
    have hleft : zLo + resolution * ((n + i : ℕ) : ℚ) = zLo + resolution * n + resolution * i := by
      push_cast
      ring
    have hright : zLo + resolution * ((n + i + 1 : ℕ) : ℚ) =
        zLo + resolution * n + resolution * (i + 1 : ℕ) := by
      push_cast
      ring
    show binWeight digest zLo resolution (n + i) = _
    rw [binWeight, binWeight, hleft, hright]

theorem sum_bins {f : ℕ → ℚ} (h : ∀ i, f i ≤ f (i + 1)) (n : ℕ) :
    ((List.range n).map fun i => max (f (i + 1) - f i) 0).sum = f n - f 0 := by
  induction n with
  | zero => simp
  | succ n ih =>
    rw [List.range_succ, List.map_append, List.sum_append, ih, List.map_singleton,
      List.sum_singleton, max_eq_left (sub_nonneg.mpr (h n))]
    ring

/-- The bins hold the weight between the outer edges. -/
theorem sum_rasterizeCell (hsorted : digest.Pairwise fun c d => c.mean ≤ d.mean)
    (hpos : ∀ c ∈ digest, 0 < c.weight) (hne : digest ≠ []) (hres : 0 < resolution) (nBins : ℕ) :
    (rasterizeCell digest zLo resolution nBins).sum =
      cdfAt digest (zLo + resolution * nBins) - cdfAt digest zLo := by
  have hstep : ∀ i : ℕ, cdfAt digest (zLo + resolution * i) ≤
      cdfAt digest (zLo + resolution * (i + 1 : ℕ)) := by
    intro i
    apply cdfAt_mono hsorted hpos
    push_cast
    linarith
  have hsum := sum_bins hstep nBins
  rw [rasterizeCell_eq hne]
  simp only [Nat.cast_zero, mul_zero, add_zero] at hsum
  exact hsum

end Bins

section Laws

/-- What the CDF of a digest is. -/
structure CdfLaws (digest : Digest) (cdf : ℚ → ℚ) : Prop where
  reads : ∀ x, cdfFromTdigest digest x = some (cdf x)
  monotone : Monotone cdf
  bounds : ∀ x, 0 ≤ cdf x ∧ cdf x ≤ totalWeight digest
  below_first : ∀ first, digest.head? = some first → ∀ x < first.mean, cdf x = 0
  above_last : ∀ last, digest.getLast? = some last → ∀ x, last.mean < x → cdf x = totalWeight digest
  single : ∀ only, digest = [only] → cdf only.mean = totalWeight digest
  at_last : ∀ first last, digest.head? = some first → digest.getLast? = some last →
    first.mean < last.mean → cdf last.mean = totalWeight digest - last.weight / 2

/-- What the windows over a digest hold. -/
structure RasterLaws (digest : Digest) (resolution : ℚ) : Prop where
  nonneg : ∀ zLo n, ∀ count ∈ rasterizeCell digest zLo resolution n, 0 ≤ count
  adjacent : ∀ zLo (n m : ℕ), rasterizeCell digest zLo resolution (n + m) =
    rasterizeCell digest zLo resolution n ++
      rasterizeCell digest (zLo + resolution * n) resolution m
  whole : ∀ zLo (n : ℕ), (∀ c ∈ digest, zLo < c.mean ∧ c.mean < zLo + resolution * n) →
    (rasterizeCell digest zLo resolution n).sum = totalWeight digest

variable {digest : Digest}

theorem first_le {first : Centroid} (hsorted : digest.Pairwise fun c d => c.mean ≤ d.mean)
    (h : digest.head? = some first) : ∀ c ∈ digest, first.mean ≤ c.mean := by
  cases digest with
  | nil => cases h
  | cons d cs =>
    obtain rfl := Option.some.inj h
    exact List.forall_mem_cons.mpr ⟨le_rfl, fun c hc => List.rel_of_pairwise_cons hsorted hc⟩

theorem le_last {last : Centroid} (hsorted : digest.Pairwise fun c d => c.mean ≤ d.mean)
    (h : digest.getLast? = some last) : ∀ c ∈ digest, c.mean ≤ last.mean := by
  obtain ⟨front, rfl⟩ := List.getLast?_eq_some_iff.mp h
  intro c hc
  rcases List.mem_append.mp hc with hc | hc
  · exact (List.pairwise_append.mp hsorted).2.2 c hc last (.head _)
  · rw [List.mem_singleton.mp hc]

theorem cdfLaws_cdfAt (hne : digest ≠ []) (hsorted : digest.Pairwise fun c d => c.mean ≤ d.mean)
    (hpos : ∀ c ∈ digest, 0 < c.weight) : CdfLaws digest (cdfAt digest) where
  reads _ := if_neg hne
  monotone := cdfAt_mono hsorted hpos
  bounds := cdfAt_bounds hsorted hpos hne
  below_first first h x hx := by
    apply cdfAt_below hpos
    exact fun c hc => hx.trans_le (first_le hsorted h c hc)
  above_last last h x hx := by
    apply cdfAt_above hpos hne
    exact fun c hc => (le_last hsorted h c hc).trans_lt hx
  single only h := by
    subst h
    exact if_pos le_rfl
  at_last first last hfirst hlast hlt := by
    match digest with
    | [] => cases hfirst
    | [c] =>
      obtain rfl := Option.some.inj hfirst
      obtain rfl := Option.some.inj hlast
      exact absurd hlt (lt_irrefl _)
    | c :: d :: cs => exact cdfAt_last hsorted hpos hlast

/-- The CDF of a digest with ascending means and positive weights, and the windows read from
it. -/
theorem cdf_raster_laws (hne : digest ≠ []) (hsorted : digest.Pairwise fun c d => c.mean ≤ d.mean)
    (hpos : ∀ c ∈ digest, 0 < c.weight) :
    (∃ cdf, CdfLaws digest cdf) ∧ ∀ resolution : ℚ, 0 < resolution → RasterLaws digest resolution := by
  have hcdf := cdfLaws_cdfAt hne hsorted hpos
  refine ⟨⟨cdfAt digest, hcdf⟩, fun resolution hres => ?_⟩
  constructor
  · intro zLo n count hcount
    exact rasterizeCell_nonneg hcount
  · intro zLo n m
    exact rasterizeCell_append digest zLo resolution n m
  · intro zLo n hinside
    have hlow : cdfAt digest zLo = 0 := cdfAt_below hpos fun c hc => (hinside c hc).1
    have hhigh : cdfAt digest (zLo + resolution * n) = totalWeight digest :=
      cdfAt_above hpos hne fun c hc => (hinside c hc).2
    rw [sum_rasterizeCell hsorted hpos hne hres, hhigh, hlow, sub_zero]

theorem cdf_raster_laws_tied :
    (∃ cdf, CdfLaws [⟨0, 2⟩, ⟨1, 1⟩, ⟨1, 3⟩] cdf) ∧
      ∀ resolution : ℚ, 0 < resolution → RasterLaws [⟨0, 2⟩, ⟨1, 1⟩, ⟨1, 3⟩] resolution :=
  have hsorted : [(⟨0, 2⟩ : Centroid), ⟨1, 1⟩, ⟨1, 3⟩].Pairwise fun c d => c.mean ≤ d.mean := by
    decide +kernel
  cdf_raster_laws (List.cons_ne_nil _ _) hsorted (by decide +kernel)

/-- Half of the last centroid is missing at its own mean. -/
theorem cdf_at_last_mean :
    ([(⟨0, 1⟩ : Centroid), ⟨1, 1⟩].Pairwise fun c d => c.mean ≤ d.mean) ∧
      (∀ c ∈ [(⟨0, 1⟩ : Centroid), ⟨1, 1⟩], 0 < c.weight) ∧ totalWeight [⟨0, 1⟩, ⟨1, 1⟩] = 2 ∧
      cdfFromTdigest [⟨0, 1⟩, ⟨1, 1⟩] 1 = some (3 / 2) ∧
      ¬∀ x ≥ 1, cdfFromTdigest [⟨0, 1⟩, ⟨1, 1⟩] x = some (totalWeight [⟨0, 1⟩, ⟨1, 1⟩]) := by
  have hread : cdfFromTdigest [⟨0, 1⟩, ⟨1, 1⟩] 1 = some (3 / 2) := by decide +kernel
  refine ⟨by decide +kernel, by decide +kernel, by decide +kernel, hread, fun h => ?_⟩
  have htotal := (h 1 le_rfl).symm.trans hread
  exact absurd htotal (by decide +kernel)

end Laws

end Zagg.Readers
