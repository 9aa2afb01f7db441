import Mathlib.Algebra.Order.Archimedean.Basic
import Mathlib.Algebra.Order.Floor.Ring
import Mathlib.Data.Nat.Size
import Mathlib.Data.Rat.Floor
import Zagg.Lib.Loop
import Zagg.Stats.Quantile

/-!
# The window of a block

`chunk_z_range` takes the least bottom quantile and the greatest top quantile of a block's cells
to whole units and fits a window of `n_bins` bins to that span. When it does not fit, the bins
are widened by doubling, or a power of two of them is kept by halving, or the block is refused.
-/
namespace Zagg.Readers

open Zagg.Lib Zagg.Stats

/-- `FitMode`; `other` is any other text. -/
inductive FitMode
  | raise
  | degradeResolution
  | collapseBins
  | other (name : String)
deriving DecidableEq

/-- The `ValueError`s, with what their texts name. -/
inductive ZRangeError
  | unpopulated
  | cannotGrow (needed : ℤ) (nBins : ℕ) (resolution window : ℚ)
  | exceeds (zLo zHi needed : ℤ) (nBins : ℕ) (resolution window : ℚ)
  | unknownFit (name : String)
deriving DecidableEq

/-- `_cell_tail_bounds`. -/
def cellTailBounds (bottom top : ℚ) (digest : Digest) : Option (ℚ × ℚ) :=
  match quantileFromTdigest digest bottom, quantileFromTdigest digest top with
  | some lo, some hi => some (lo, hi)
  | _, _ => none

/-- The loop of `collapse_bins`, from the largest power of two within `n_bins`. -/
def collapseBins (fuel : ℕ) (needed : ℤ) (nBins : ℕ) (resolution : ℚ) : Option ℕ :=
  whileLoop (fun n => decide (1 ≤ n / 2 ∧ (needed : ℚ) ≤ (n / 2 : ℕ) * resolution)) (· / 2) fuel
    (1 <<< (Nat.size nBins - 1))

/-- The loop of `degrade_resolution`. -/
def degradeResolution (fuel : ℕ) (needed : ℤ) (nBins : ℕ) (resolution : ℚ) : Option ℚ :=
  whileLoop (fun res => decide (nBins * res < needed)) (· * 2) fuel resolution

/-- The window fitted to a span of whole units; `none` is a loop out of rounds. -/
def fitWindow (fuel : ℕ) (zLo zHi : ℤ) (nBins : ℕ) (resolution : ℚ) (fit : FitMode) :
    Option (Except ZRangeError (ℚ × ℕ × ℚ)) :=
  let needed := zHi - zLo
  let window := nBins * resolution
  if fit = .collapseBins then
    if window < needed then some (.error (.cannotGrow needed nBins resolution window))
    else (collapseBins fuel needed nBins resolution).map fun n => .ok (zLo, n, resolution)
  else if needed ≤ window then some (.ok (zLo, nBins, resolution))
  else
    match fit with
    | .raise => some (.error (.exceeds zLo zHi needed nBins resolution window))
    | .degradeResolution =>
      (degradeResolution fuel needed nBins resolution).map fun res => .ok (zLo, nBins, res)
    | .collapseBins => none
    | .other name => some (.error (.unknownFit name))

def chunkZRange (fuel : ℕ) (digests : List Digest) (nBins : ℕ) (resolution bottom top : ℚ)
    (fit : FitMode) : Option (Except ZRangeError (ℚ × ℕ × ℚ)) :=
  let bounds := digests.filterMap (cellTailBounds bottom top)
  match (bounds.map Prod.fst).min?, (bounds.map Prod.snd).max? with
  | some loMin, some hiMax => fitWindow fuel ⌊loMin⌋ ⌈hiMax⌉ nBins resolution fit
  | _, _ => some (.error .unpopulated)

section Loops
variable {needed : ℤ} {nBins : ℕ} {resolution : ℚ}

theorem halve_iterate (e j : ℕ) (h : j ≤ e) : (fun n : ℕ => n / 2)^[j] (2 ^ e) = 2 ^ (e - j) := by
  induction j with
  | zero => rfl
  | succ j ih =>
    have hsucc : e - j = e - (j + 1) + 1 := by omega
    rw [Function.iterate_succ_apply', ih (by omega), hsucc, pow_succ, Nat.mul_div_cancel _ two_pos]

theorem double_iterate (res : ℚ) (j : ℕ) : (fun r : ℚ => r * 2)^[j] res = res * 2 ^ j := by
  induction j with
  | zero => simp
  | succ j ih => rw [Function.iterate_succ_apply', ih, pow_succ, mul_assoc]

/-- The largest power of two within a positive number. -/
theorem two_pow_size_le (h : 1 ≤ nBins) : 2 ^ (Nat.size nBins - 1) ≤ nBins := by
  apply Nat.lt_size.mp
  have hpos : 0 < Nat.size nBins := Nat.size_pos.mpr h
  omega

theorem lt_of_two_pow_le {e : ℕ} (h : 2 ^ e ≤ nBins) : e ≤ Nat.size nBins - 1 := by
  have hlt := Nat.lt_size.mpr h
  omega

/-- The halving ends, at a power of two whose half is too small or no bin at all. -/
theorem exists_collapseBins (needed : ℤ) (nBins : ℕ) (resolution : ℚ) :
    ∃ k ≤ Nat.size nBins - 1,
      (k ≠ 0 → ¬(needed : ℚ) ≤ (2 ^ (k - 1) : ℕ) * resolution) ∧
      (∀ j, k ≤ j → j < Nat.size nBins - 1 → (needed : ℚ) ≤ (2 ^ j : ℕ) * resolution) ∧
      ∃ enough, ∀ fuel, enough ≤ fuel → collapseBins fuel needed nBins resolution = some (2 ^ k) := by
  set e := Nat.size nBins - 1 with he
  have hhalf : ∀ j ≤ e, (fun n : ℕ => n / 2)^[j] (1 <<< e) = 2 ^ (e - j) := by
    intro j hj
    rw [Nat.one_shiftLeft, halve_iterate e j hj]
  have hend : ∃ k, decide (1 ≤ (fun n : ℕ => n / 2)^[k] (1 <<< e) / 2 ∧
      (needed : ℚ) ≤ ((fun n : ℕ => n / 2)^[k] (1 <<< e) / 2 : ℕ) * resolution) = false := by
    refine ⟨e, decide_eq_false ?_⟩
    rw [hhalf e le_rfl, Nat.sub_self]
    exact fun h => absurd h.1 (by decide)
  obtain ⟨k, hstop, hrun, hloop⟩ := exists_whileLoop
    (fun n => decide (1 ≤ n / 2 ∧ (needed : ℚ) ≤ (n / 2 : ℕ) * resolution)) hend
  have hk : k ≤ e := by
    by_contra hgt
    have hlast := of_decide_eq_true (hrun e (by omega))
    rw [hhalf e le_rfl, Nat.sub_self] at hlast
    exact absurd hlast.1 (by decide)
  have hquot : ∀ j < e, (2 : ℕ) ^ (e - j) / 2 = 2 ^ (e - j - 1) := by
    intro j hj
    have hsucc : e - j = e - j - 1 + 1 := by omega
    rw [hsucc, pow_succ, Nat.mul_div_cancel _ two_pos, Nat.add_sub_cancel]
  refine ⟨e - k, by omega, fun hne hfits => ?_, fun j hkj hje => ?_, k + 1, fun fuel hfuel => ?_⟩
  · have hstop := of_decide_eq_false hstop
    rw [hhalf k hk, hquot k (by omega)] at hstop
    exact hstop ⟨Nat.one_le_two_pow, hfits⟩
  · have hround := of_decide_eq_true (hrun (e - j - 1) (by omega))
    have hj : e - (e - j - 1) - 1 = j := by omega
    rw [hhalf (e - j - 1) (by omega), hquot (e - j - 1) (by omega), hj] at hround
    exact hround.2
  · rw [collapseBins, hloop fuel (by omega), hhalf k hk]

/-- The doubling ends, at the first width that is enough. -/
theorem exists_degradeResolution (needed : ℤ) (hbins : 1 ≤ nBins) (hres : 0 < resolution) :
    ∃ k : ℕ, (needed : ℚ) ≤ nBins * (resolution * 2 ^ k) ∧
      (∀ j < k, nBins * (resolution * 2 ^ j) < (needed : ℚ)) ∧
      ∃ enough, ∀ fuel, enough ≤ fuel →
        degradeResolution fuel needed nBins resolution = some (resolution * 2 ^ k) := by
  have hend : ∃ k, decide (nBins * (fun r : ℚ => r * 2)^[k] resolution < needed) = false := by
    obtain ⟨k, hk⟩ := pow_unbounded_of_one_lt ((needed : ℚ) / (nBins * resolution)) one_lt_two
    have hwindow : 0 < nBins * resolution := mul_pos (Nat.cast_pos.mpr hbins) hres
    refine ⟨k, decide_eq_false ?_⟩
    rw [double_iterate, not_lt]
    calc (needed : ℚ) ≤ 2 ^ k * (nBins * resolution) := ((div_lt_iff₀ hwindow).mp hk).le
      _ = nBins * (resolution * 2 ^ k) := by ring
  obtain ⟨k, hstop, hrun, hloop⟩ := exists_whileLoop
    (fun res => decide (nBins * res < (needed : ℚ))) hend
  refine ⟨k, ?_, fun j hj => ?_, k + 1, fun fuel hfuel => ?_⟩
  · have hstop := of_decide_eq_false hstop
    rwa [double_iterate, not_lt] at hstop
  · have hround := of_decide_eq_true (hrun j hj)
    rwa [double_iterate] at hround
  · rw [degradeResolution, hloop fuel (by omega), double_iterate]

end Loops

section Window

/-- The cells' quantiles. -/
def quantiles (q : ℚ) (digests : List Digest) : List ℚ :=
  digests.filterMap fun digest => quantileFromTdigest digest q

/-- A window of `n` bins from `z` holds every bottom and every top quantile. -/
structure Covers (lows highs : List ℚ) (z : ℤ) (n : ℕ) (res : ℚ) : Prop where
  low : ∀ lo ∈ lows, z ≤ lo
  high : ∀ hi ∈ highs, hi ≤ z + n * res

/-- It also holds the whole unit each top quantile ends in. -/
def CoversUnits (highs : List ℚ) (z : ℤ) (n : ℕ) (res : ℚ) : Prop :=
  ∀ hi ∈ highs, (⌈hi⌉ : ℚ) ≤ z + n * res

/-- What a returned window is. -/
structure WindowFits (lows highs : List ℚ) (z : ℤ) (nBins : ℕ) (resolution : ℚ) (fit : FitMode)
    (window : ℚ × ℕ × ℚ) : Prop where
  start : window.1 = z
  covers : fit ≠ .collapseBins → Covers lows highs z window.2.1 window.2.2 ∧
    CoversUnits highs z window.2.1 window.2.2
  kept : fit ≠ .collapseBins → CoversUnits highs z nBins resolution →
    window.2 = (nBins, resolution)
  degraded : fit = .degradeResolution → window.2.1 = nBins ∧
    ∃ k : ℕ, window.2.2 = resolution * 2 ^ k ∧
      ∀ j < k, ¬CoversUnits highs z nBins (resolution * 2 ^ j)
  collapsed : fit = .collapseBins → window.2.2 = resolution ∧ (∃ k : ℕ, window.2.1 = 2 ^ k) ∧
    window.2.1 ≤ nBins ∧
    ∀ e : ℕ, 2 ^ e ≤ nBins → CoversUnits highs z (2 ^ e) resolution →
      Covers lows highs z window.2.1 resolution ∧ CoversUnits highs z window.2.1 resolution ∧
        ∀ j : ℕ, CoversUnits highs z (2 ^ j) resolution → window.2.1 ≤ 2 ^ j

/-- What an outcome of the fit is: a window, or a refusal of one that does not reach. -/
def Fitted (lows highs : List ℚ) (z : ℤ) (nBins : ℕ) (resolution : ℚ) (fit : FitMode) :
    Except ZRangeError (ℚ × ℕ × ℚ) → Prop
  | .ok window => WindowFits lows highs z nBins resolution fit window
  | .error _ => fit ≠ .degradeResolution ∧ ¬CoversUnits highs z nBins resolution

/-- The least bottom quantile and the greatest top one, of which the span is made. -/
structure Extremes (lows highs : List ℚ) (lo hi : ℚ) : Prop where
  lo_mem : lo ∈ lows
  lo_le : ∀ lo' ∈ lows, lo ≤ lo'
  hi_mem : hi ∈ highs
  le_hi : ∀ hi' ∈ highs, hi' ≤ hi

variable {lows highs : List ℚ} {lo hi resolution : ℚ} {nBins : ℕ}

theorem coversUnits_iff (h : Extremes lows highs lo hi) (n : ℕ) (res : ℚ) :
    CoversUnits highs ⌊lo⌋ n res ↔ ((⌈hi⌉ - ⌊lo⌋ : ℤ) : ℚ) ≤ n * res := by
  push_cast
  rw [sub_le_iff_le_add']
  constructor
  · intro hall
    exact hall hi h.hi_mem
  · intro hle hi' hmem
    have hceil : (⌈hi'⌉ : ℚ) ≤ ⌈hi⌉ := Int.cast_le.mpr (Int.ceil_mono (h.le_hi hi' hmem))
    exact hceil.trans hle

theorem covers_of_units (h : Extremes lows highs lo hi) {n : ℕ} {res : ℚ}
    (hunits : CoversUnits highs ⌊lo⌋ n res) : Covers lows highs ⌊lo⌋ n res where
  low lo' hmem := (Int.floor_le lo).trans (h.lo_le lo' hmem)
  high hi' hmem := (Int.le_ceil hi').trans (hunits hi' hmem)

/-- A window that was asked for and reaches is returned as it is. -/
theorem windowFits_asked (h : Extremes lows highs lo hi) {fit : FitMode}
    (hfit : fit ≠ .collapseBins) (hunits : CoversUnits highs ⌊lo⌋ nBins resolution) :
    WindowFits lows highs ⌊lo⌋ nBins resolution fit ((⌊lo⌋ : ℤ), nBins, resolution) where
  start := rfl
  covers _ := ⟨covers_of_units h hunits, hunits⟩
  kept _ _ := rfl
  degraded _ := ⟨rfl, 0, by rw [pow_zero, mul_one], fun j hj => absurd hj (Nat.not_lt_zero j)⟩
  collapsed hcollapse := absurd hcollapse hfit

theorem fitWindow_collapse (h : Extremes lows highs lo hi) (hbins : 1 ≤ nBins)
    (hres : 0 < resolution) :
    ∃ outcome, (∃ enough, ∀ fuel, enough ≤ fuel →
        fitWindow fuel ⌊lo⌋ ⌈hi⌉ nBins resolution .collapseBins = some outcome) ∧
      Fitted lows highs ⌊lo⌋ nBins resolution .collapseBins outcome := by
  by_cases hwindow : nBins * resolution < ((⌈hi⌉ - ⌊lo⌋ : ℤ) : ℚ)
  · refine ⟨.error (.cannotGrow (⌈hi⌉ - ⌊lo⌋) nBins resolution (nBins * resolution)),
      ⟨0, fun fuel _ => ?_⟩, nofun, fun hunits => ?_⟩
    · rw [fitWindow, if_pos rfl, if_pos hwindow]
    · exact absurd ((coversUnits_iff h _ _).mp hunits) (not_le.mpr hwindow)
  · obtain ⟨k, hk, hhalf, hwide, enough, hloop⟩ :=
      exists_collapseBins (⌈hi⌉ - ⌊lo⌋) nBins resolution
    refine ⟨.ok ((⌊lo⌋ : ℤ), 2 ^ k, resolution), ⟨enough, fun fuel hfuel => ?_⟩, rfl,
      fun hne => absurd rfl hne, fun hne => absurd rfl hne, nofun, fun _ => ?_⟩
    · rw [fitWindow, if_pos rfl, if_neg hwindow, hloop fuel hfuel]
      rfl
    · have hpow : 2 ^ k ≤ nBins :=
        (Nat.pow_le_pow_right two_pos hk).trans (two_pow_size_le hbins)
      refine ⟨rfl, ⟨k, rfl⟩, hpow, fun e he hunits => ?_⟩
      have hreach : ∀ j, CoversUnits highs ⌊lo⌋ (2 ^ j) resolution → 2 ^ k ≤ 2 ^ j := by
        intro j hj
        by_contra hlt
        have hjk : j < k := (Nat.pow_lt_pow_iff_right one_lt_two).mp (not_le.mp hlt)
        have hmono : ((2 ^ j : ℕ) : ℚ) * resolution ≤ ((2 ^ (k - 1) : ℕ) : ℚ) * resolution := by
          apply mul_le_mul_of_nonneg_right _ hres.le
          exact Nat.cast_le.mpr (Nat.pow_le_pow_right two_pos (by omega))
        exact hhalf (by omega) (((coversUnits_iff h _ _).mp hj).trans hmono)
      have hfinal : CoversUnits highs ⌊lo⌋ (2 ^ k) resolution := by
        have hek := (Nat.pow_le_pow_iff_right one_lt_two).mp (hreach e hunits)
        rcases Nat.lt_or_ge k (Nat.size nBins - 1) with hlt | hge
        · exact (coversUnits_iff h _ _).mpr (hwide k le_rfl hlt)
        · have heq : e = k := le_antisymm ((lt_of_two_pow_le he).trans hge) hek
          exact heq ▸ hunits
      exact ⟨covers_of_units h hfinal, hfinal, hreach⟩

theorem fitWindow_fitted (h : Extremes lows highs lo hi) (hbins : 1 ≤ nBins)
    (hres : 0 < resolution) (fit : FitMode) :
    ∃ outcome, (∃ enough, ∀ fuel, enough ≤ fuel →
        fitWindow fuel ⌊lo⌋ ⌈hi⌉ nBins resolution fit = some outcome) ∧
      Fitted lows highs ⌊lo⌋ nBins resolution fit outcome := by
  by_cases hcollapse : fit = .collapseBins
  · rw [hcollapse]
    exact fitWindow_collapse h hbins hres
  by_cases hwindow : ((⌈hi⌉ - ⌊lo⌋ : ℤ) : ℚ) ≤ nBins * resolution
  · refine ⟨.ok ((⌊lo⌋ : ℤ), nBins, resolution), ⟨0, fun fuel _ => ?_⟩,
      windowFits_asked h hcollapse ((coversUnits_iff h _ _).mpr hwindow)⟩
    unfold fitWindow
    rw [if_neg hcollapse, if_pos hwindow]
  have hunits : ¬CoversUnits highs ⌊lo⌋ nBins resolution := fun hunits =>
    hwindow ((coversUnits_iff h _ _).mp hunits)
  cases fit with
  | raise =>
    refine ⟨.error (.exceeds ⌊lo⌋ ⌈hi⌉ (⌈hi⌉ - ⌊lo⌋) nBins resolution (nBins * resolution)),
      ⟨0, fun fuel _ => ?_⟩, nofun, hunits⟩
    rw [fitWindow, if_neg hcollapse, if_neg hwindow]
  | degradeResolution =>
    obtain ⟨k, hreach, hshort, enough, hloop⟩ :=
      exists_degradeResolution (⌈hi⌉ - ⌊lo⌋) hbins hres
    have hfinal := (coversUnits_iff h nBins (resolution * 2 ^ k)).mpr hreach
    refine ⟨.ok ((⌊lo⌋ : ℤ), nBins, resolution * 2 ^ k), ⟨enough, fun fuel hfuel => ?_⟩, rfl,
      fun _ => ⟨covers_of_units h hfinal, hfinal⟩, fun _ hasked => absurd hasked hunits,
      fun _ => ⟨rfl, k, rfl, fun j hj hbad => ?_⟩, nofun⟩
    · rw [fitWindow, if_neg hcollapse, if_neg hwindow, hloop fuel hfuel]
      rfl
    · exact absurd ((coversUnits_iff h _ _).mp hbad) (not_le.mpr (hshort j hj))
  | collapseBins => exact absurd rfl hcollapse
  | other name =>
    refine ⟨.error (.unknownFit name), ⟨0, fun fuel _ => ?_⟩, nofun, hunits⟩
    rw [fitWindow, if_neg hcollapse, if_neg hwindow]

end Window

section Block
variable {digests : List Digest}

theorem cellTailBounds_fst (bottom top : ℚ) (digest : Digest) :
    (cellTailBounds bottom top digest).map Prod.fst = quantileFromTdigest digest bottom := by
  rw [cellTailBounds, quantileFromTdigest, quantileFromTdigest]
  by_cases hne : digest = []
  · rw [if_pos hne, if_pos hne]
    rfl
  · rw [if_neg hne, if_neg hne]
    rfl

theorem cellTailBounds_snd (bottom top : ℚ) (digest : Digest) :
    (cellTailBounds bottom top digest).map Prod.snd = quantileFromTdigest digest top := by
  rw [cellTailBounds, quantileFromTdigest, quantileFromTdigest]
  by_cases hne : digest = []
  · rw [if_pos hne, if_pos hne]
    rfl
  · rw [if_neg hne, if_neg hne]
    rfl

theorem quantiles_ne_nil (q : ℚ) (h : ∃ digest ∈ digests, digest ≠ []) : quantiles q digests ≠ [] := by
  obtain ⟨digest, hmem, hne⟩ := h
  have hread : quantileFromTdigest digest q =
      some (readRank (q * (totalWeight digest - 1)) none 0 digest) := if_neg hne
  exact List.ne_nil_of_mem (List.mem_filterMap.mpr ⟨digest, hmem, hread⟩)

/-- A block is fitted to the span of its cells' quantiles. -/
theorem chunkZRange_eq (fuel nBins : ℕ) (resolution bottom top : ℚ) (fit : FitMode)
    (h : ∃ digest ∈ digests, digest ≠ []) :
    ∃ lo hi, Extremes (quantiles bottom digests) (quantiles top digests) lo hi ∧
      chunkZRange fuel digests nBins resolution bottom top fit =
        fitWindow fuel ⌊lo⌋ ⌈hi⌉ nBins resolution fit := by
  have hlows : (digests.filterMap (cellTailBounds bottom top)).map Prod.fst =
      quantiles bottom digests := by
    rw [List.map_filterMap]
    exact List.filterMap_congr fun digest _ => cellTailBounds_fst bottom top digest
  have hhighs : (digests.filterMap (cellTailBounds bottom top)).map Prod.snd =
      quantiles top digests := by
    rw [List.map_filterMap]
    exact List.filterMap_congr fun digest _ => cellTailBounds_snd bottom top digest
  obtain ⟨lo, hlo⟩ := Option.ne_none_iff_exists'.mp
    (mt List.min?_eq_none_iff.mp (quantiles_ne_nil bottom h))
  obtain ⟨hi, hhi⟩ := Option.ne_none_iff_exists'.mp
    (mt List.max?_eq_none_iff.mp (quantiles_ne_nil top h))
  have hleast := List.min?_eq_some_iff.mp hlo
  have hgreatest := List.max?_eq_some_iff.mp hhi
  refine ⟨lo, hi, ⟨hleast.1, hleast.2, hgreatest.1, hgreatest.2⟩, ?_⟩
  rw [chunkZRange]
  simp only [hlows, hhighs, hlo, hhi]

/-- The fit ends for every block with a digest. What it returns starts at the floor of the least
bottom quantile and holds the whole units up to the greatest top one, except that halved bins do
so when some power of two within `n_bins` does; what it refuses, the window asked for does not
hold. -/
theorem chunkZRange_fits (h : ∃ digest ∈ digests, digest ≠ []) {nBins : ℕ} (hbins : 1 ≤ nBins)
    {resolution : ℚ} (hres : 0 < resolution) (bottom top : ℚ) (fit : FitMode) :
    ∃ z outcome, (∃ lo ∈ quantiles bottom digests, z = ⌊lo⌋ ∧
        ∀ lo' ∈ quantiles bottom digests, lo ≤ lo') ∧
      (∃ enough, ∀ fuel, enough ≤ fuel →
        chunkZRange fuel digests nBins resolution bottom top fit = some outcome) ∧
      Fitted (quantiles bottom digests) (quantiles top digests) z nBins resolution fit outcome := by
  obtain ⟨lo, hi, hextremes, -⟩ := chunkZRange_eq 0 nBins resolution bottom top fit h
  obtain ⟨outcome, ⟨enough, hloop⟩, hfitted⟩ := fitWindow_fitted hextremes hbins hres fit
  refine ⟨⌊lo⌋, outcome, ⟨lo, hextremes.lo_mem, rfl, hextremes.lo_le⟩, ⟨enough, fun fuel hfuel => ?_⟩,
    hfitted⟩
  obtain ⟨lo', hi', hextremes', heq⟩ := chunkZRange_eq fuel nBins resolution bottom top fit h
  obtain rfl : lo' = lo :=
    le_antisymm (hextremes'.lo_le lo hextremes.lo_mem) (hextremes.lo_le lo' hextremes'.lo_mem)
  obtain rfl : hi' = hi :=
    le_antisymm (hextremes.le_hi hi' hextremes'.hi_mem) (hextremes'.le_hi hi hextremes.hi_mem)
  rw [heq, hloop fuel hfuel]

theorem chunkZRange_fits_doubled :
    ∃ z outcome, (∃ lo ∈ quantiles (1 / 20) [[], [⟨1 / 4, 1⟩, ⟨5, 1⟩]], z = ⌊lo⌋ ∧
        ∀ lo' ∈ quantiles (1 / 20) [[], [⟨1 / 4, 1⟩, ⟨5, 1⟩]], lo ≤ lo') ∧
      (∃ enough, ∀ fuel, enough ≤ fuel → chunkZRange fuel [[], [⟨1 / 4, 1⟩, ⟨5, 1⟩]] 3 (1 / 2)
        (1 / 20) (19 / 20) .degradeResolution = some outcome) ∧
      Fitted (quantiles (1 / 20) [[], [⟨1 / 4, 1⟩, ⟨5, 1⟩]])
        (quantiles (19 / 20) [[], [⟨1 / 4, 1⟩, ⟨5, 1⟩]]) z 3 (1 / 2) .degradeResolution outcome :=
  chunkZRange_fits ⟨[⟨1 / 4, 1⟩, ⟨5, 1⟩], .tail _ (.head _), List.cons_ne_nil _ _⟩ (by decide)
    (by norm_num) _ _ _

/-- The window asked for holds the one value, but not the whole unit it ends in. -/
theorem chunkZRange_refuses_cover :
    quantiles (1 / 20) [[⟨1 / 4, 1⟩]] = [1 / 4] ∧ quantiles (19 / 20) [[⟨1 / 4, 1⟩]] = [1 / 4] ∧
      Covers [1 / 4] [1 / 4] 0 1 (1 / 2) ∧
      ∀ fuel, chunkZRange fuel [[⟨1 / 4, 1⟩]] 1 (1 / 2) (1 / 20) (19 / 20) .raise =
        some (.error (.exceeds 0 1 1 1 (1 / 2) (1 / 2))) := by
  refine ⟨by decide +kernel, by decide +kernel, ⟨?_, ?_⟩, fun fuel => ?_⟩
  · norm_num
  · norm_num
  · have hbounds : [[(⟨1 / 4, 1⟩ : Centroid)]].filterMap (cellTailBounds (1 / 20) (19 / 20)) =
        [(1 / 4, 1 / 4)] := by decide +kernel
    have hfloor : ⌊(1 / 4 : ℚ)⌋ = 0 := by decide +kernel
    have hceil : ⌈(1 / 4 : ℚ)⌉ = 1 := by decide +kernel
    rw [chunkZRange]
    simp only [hbounds, List.map_cons, List.map_nil, List.min?_singleton, List.max?_singleton, hfloor,
      hceil]
    rw [fitWindow, if_neg (by decide), if_neg (by norm_num)]
    norm_num

end Block

end Zagg.Readers
