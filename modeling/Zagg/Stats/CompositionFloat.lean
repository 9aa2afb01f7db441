import Mathlib.Order.Monotone.Basic
import Zagg.Stats.CompositionError

/-!
# Composition merges in binary64

The lanes are computed in float64. The sums are whole numbers, and a quotient that is not half
way between two whole numbers keeps its distance from the middle, so up to a total of `2 ^ 44`
every rounding goes where the exact quotient goes.
-/
namespace Zagg.Stats

/-- Rounding to a binary64: it keeps the order, and the dyadic numbers of 53 bits. -/
structure Binary64 (fl : ℚ → ℚ) : Prop where
  mono : Monotone fl
  dyadic : ∀ (z : ℤ) (e : Nat), |z| ≤ 2 ^ 53 → e ≤ 1000 → fl (z / 2 ^ e) = z / 2 ^ e

section Rounding
variable {fl : ℚ → ℚ}

theorem Binary64.nat (h : Binary64 fl) {n : Nat} (hn : n ≤ 2 ^ 53) : fl n = n := by
  have hz : |(n : ℤ)| ≤ 2 ^ 53 := by
    rw [abs_of_nonneg (Int.natCast_nonneg n)]
    exact_mod_cast hn
  have hfl := h.dyadic n 0 hz (by decide)
  rwa [pow_zero, div_one, Int.cast_natCast] at hfl

theorem rint_of_between {q : ℚ} {k : ℤ} (hlo : (k : ℚ) - 1 / 2 < q) (hhi : q < k + 1 / 2) :
    rint q = k := by
  obtain ⟨hl, hh⟩ := rint_error q
  have h1 : (k : ℚ) < rint q + 1 := by linarith
  have h2 : (rint q : ℚ) < k + 1 := by linarith
  have h1' : k < rint q + 1 := by exact_mod_cast h1
  have h2' : rint q < k + 1 := by exact_mod_cast h2
  omega

/-- A quotient is the middle above its whole number or a step of the grid below it. -/
theorem le_middle {total e : Nat} {sum k : ℤ} (htotal : 0 < total) (hfine : 2 * total ≤ 2 ^ e)
    (h : 2 * sum ≤ 2 * (k * total) + total) :
    (sum : ℚ) / total = k + 1 / 2 ∨ (sum : ℚ) / total ≤ k + 1 / 2 - 1 / 2 ^ e := by
  have hpos : (0 : ℚ) < total := by exact_mod_cast htotal
  by_cases heq : 2 * sum = 2 * (k * total) + total
  · left
    have heq' : 2 * (sum : ℚ) = 2 * (k * total) + total := by exact_mod_cast heq
    rw [div_eq_iff hpos.ne']
    linarith
  · right
    have hgrid : 1 / 2 ^ e * (total : ℚ) ≤ 1 / 2 := by
      have hfine' : 2 * (total : ℚ) ≤ 2 ^ e := by exact_mod_cast hfine
      rw [div_mul_eq_mul_div, one_mul, div_le_iff₀ (by positivity)]
      linarith
    have hlt : 2 * sum + 1 ≤ 2 * (k * total) + total := by omega
    have hlt' : 2 * (sum : ℚ) + 1 ≤ 2 * (k * total) + total := by exact_mod_cast hlt
    have hexpand : ((k : ℚ) + 1 / 2 - 1 / 2 ^ e) * total =
        k * total + total / 2 - 1 / 2 ^ e * total := by ring
    rw [div_le_iff₀ hpos, hexpand]
    linarith

/-- The same below: the quotient mirrored at zero. -/
theorem middle_le {total e : Nat} {sum k : ℤ} (htotal : 0 < total) (hfine : 2 * total ≤ 2 ^ e)
    (h : 2 * (k * total) ≤ 2 * sum + total) :
    (sum : ℚ) / total = k - 1 / 2 ∨ k - 1 / 2 + 1 / 2 ^ e ≤ (sum : ℚ) / total := by
  have hmirror : ((-sum : ℤ) : ℚ) / total = -((sum : ℚ) / total) := by
    rw [Int.cast_neg, neg_div]
  have hneg : 2 * -sum ≤ 2 * (-k * total) + total := by
    rw [Int.neg_mul]
    omega
  have hmiddle := le_middle htotal hfine hneg
  rw [hmirror, Int.cast_neg] at hmiddle
  cases hmiddle with
  | inl heq => exact .inl (by linarith)
  | inr hle => exact .inr (by linarith)

/-- A quotient by a total below `2 ^ e` rounds to its whole number even after a rounding, where
the numbers of `e + 1` fractional bits are binary64. -/
theorem Binary64.rint_div (h : Binary64 fl) {sum total e : Nat} (htotal : 0 < total)
    (hfine : 2 * total ≤ 2 ^ (e + 1)) (he : e + 1 ≤ 1000)
    (hbits : (2 * rint ((sum : ℚ) / total) + 1) * 2 ^ e ≤ 2 ^ 53) :
    rint (fl ((sum : ℚ) / total)) = rint ((sum : ℚ) / total) := by
  obtain ⟨hlo, hhi⟩ := Stats.rint_div sum htotal
  have hk0 : 0 ≤ rint ((sum : ℚ) / total) := rint_nonneg (by positivity)
  generalize hk : rint ((sum : ℚ) / total) = k at hlo hhi hk0 hbits
  have hpow : (1 : ℤ) ≤ 2 ^ e := one_le_pow₀ (by decide)
  have hkpow : k ≤ k * 2 ^ e := le_mul_of_one_le_right hk0 hpow
  have hbits' : 2 * (k * 2 ^ e) + 2 ^ e ≤ 2 ^ 53 := by linarith
  have hinner (z : ℤ) (hz : |z| ≤ 2 * (k * 2 ^ e) + 2 ^ e) :
      fl (z / 2 ^ (e + 1)) = z / 2 ^ (e + 1) := h.dyadic z (e + 1) (hz.trans hbits') he
  have hgrid : (0 : ℚ) < 1 / 2 ^ (e + 1) := by positivity
  have habove := le_middle htotal hfine hlo
  have hbelow := middle_le htotal hfine hhi
  simp only [Int.cast_natCast] at habove hbelow
  cases habove with
  | inl heq =>
    have hfix : fl ((k : ℚ) + 1 / 2) = k + 1 / 2 := by
      have hfl := h.dyadic (2 * k + 1) 1 (by rw [abs_of_nonneg (by omega)]; omega) (by decide)
      have hmid : (((2 * k + 1 : ℤ) : ℚ) / 2 ^ 1) = k + 1 / 2 := by push_cast; ring
      rwa [hmid] at hfl
    rw [heq, hfix, ← heq, hk]
  | inr hupper =>
    cases hbelow with
    | inl heq =>
      have hfix : fl ((k : ℚ) - 1 / 2) = k - 1 / 2 := by
        have hfl := h.dyadic (2 * k - 1) 1 (by rw [abs_le]; constructor <;> omega) (by decide)
        have hmid : (((2 * k - 1 : ℤ) : ℚ) / 2 ^ 1) = k - 1 / 2 := by push_cast; ring
        rwa [hmid] at hfl
      rw [heq, hfix, ← heq, hk]
    | inr hlower =>
      have hpow2 : (2 : ℚ) ^ (e + 1) = 2 * 2 ^ e := pow_succ' 2 e
      have hne : (2 : ℚ) ^ e ≠ 0 := by positivity
      have hup := hinner (2 * (k * 2 ^ e) + 2 ^ e - 1) (by rw [abs_le]; constructor <;> omega)
      have hupeq : (((2 * (k * 2 ^ e) + 2 ^ e - 1 : ℤ) : ℚ) / 2 ^ (e + 1)) =
          k + 1 / 2 - 1 / 2 ^ (e + 1) := by
        push_cast
        rw [hpow2]
        field_simp
      have hdown := hinner (2 * (k * 2 ^ e) - 2 ^ e + 1) (by rw [abs_le]; constructor <;> omega)
      have hdowneq : (((2 * (k * 2 ^ e) - 2 ^ e + 1 : ℤ) : ℚ) / 2 ^ (e + 1)) =
          k - 1 / 2 + 1 / 2 ^ (e + 1) := by
        push_cast
        rw [hpow2]
        field_simp
      rw [hupeq] at hup
      rw [hdowneq] at hdown
      have hle := h.mono hupper
      have hge := h.mono hlower
      rw [hup] at hle
      rw [hdown] at hge
      exact rint_of_between (by linarith) (by linarith)

end Rounding

section Model
variable (fl : ℚ → ℚ)

/-- A lane as float64 computes it: the quotient rounds. -/
def quantizeLane64 (sum : ℚ) (total : Nat) (present : Bool) : Nat :=
  let k := rint (fl (sum / total))
  let k := if present ∧ k = 0 then 1 else k
  (min (max k 0) 255).toNat

/-- `lanes += n * la`. -/
def laneSum64 (parts : List (Word × Nat)) (i : Nat) : ℚ :=
  (counted parts).foldl (fun sum p => fl (sum + fl ((p.2 : ℚ) * lane p.1 i))) 0

/-- `merge_composition_kway` in float64. -/
def mergeCompositionKway64 (parts : List (Word × Nat)) : Word :=
  let total := ((counted parts).map Prod.snd).sum
  if total = 0 then 0
  else pack ((List.range 8).map fun i =>
    quantizeLane64 fl (laneSum64 fl parts i) total ((counted parts).any fun p => 0 < lane p.1 i))

/-- One lane of `merge_composition` in float64. -/
def mergeLane64 (nA nB a b : Nat) : Nat :=
  quantizeLane64 fl (fl (fl ((nA : ℚ) * a) + fl ((nB : ℚ) * b))) (nA + nB) (0 < a || 0 < b)

/-- `merge_composition` in float64. -/
def mergeComposition64 (wordA : Word) (nA : Nat) (wordB : Word) (nB : Nat) : Word :=
  if nA = 0 then wordB
  else if nB = 0 then wordA
  else pack (List.zipWith (mergeLane64 fl nA nB) (unpackComposition wordA) (unpackComposition wordB))

/-- One lane of `_quantize` in float64. -/
def quantizeCount64 (n count : Nat) : Nat :=
  quantizeLane64 fl (fl (255 * (count : ℚ))) n (0 < count)

/-- `_quantize` in float64. -/
def quantize64 (counts : List Nat) (n : Nat) : List Nat :=
  if n = 0 then counts.map fun _ => 0 else counts.map (quantizeCount64 fl n)

/-- One lane of `counts_from_composition` in float64. -/
def countFromLane64 (l nSignal : Nat) : ℤ := rint (fl (fl ((l : ℚ) * nSignal) / (255 : Nat)))

/-- `counts_from_composition` in float64. -/
def countsFromComposition64 (word : Word) (nSignal : Nat) : List ℤ :=
  (unpackComposition word).map fun l => countFromLane64 fl l nSignal

/-- The `(word, n)` pair of a stratum in float64. -/
def Stratum.part64 (s : Stratum) : Word × Nat := (pack (quantize64 fl s.counts s.n), s.n)

namespace CompositionTree

mutual

/-- The word of a tree in float64, beside its summed divisor. -/
def part64 : CompositionTree → Word × Nat
  | .leaf l => (pack (quantize64 fl l.counts l.n), l.n)
  | .binary left right =>
    (mergeComposition64 fl left.part64.1 left.part64.2 right.part64.1 right.part64.2,
      left.part64.2 + right.part64.2)
  | .kway children =>
    (mergeCompositionKway64 fl (parts64 children), ((parts64 children).map Prod.snd).sum)

def parts64 : List CompositionTree → List (Word × Nat)
  | [] => []
  | t :: ts => t.part64 :: parts64 ts

end

end CompositionTree

variable {fl}

theorem quantizeLane64_eq (h : Binary64 fl) {sum total : Nat} (htotal : 0 < total)
    (hle : sum ≤ 255 * total) (hfit : total ≤ 2 ^ 44) (present : Bool) :
    quantizeLane64 fl sum total present = quantizeLane sum total present := by
  obtain ⟨hlo, hhi⟩ := Stats.rint_div sum htotal
  have hk : rint ((sum : ℚ) / total) ≤ 255 := by
    by_contra hgt
    have hmul : 256 * (total : ℤ) ≤ rint ((sum : ℚ) / total) * total :=
      mul_le_mul_of_nonneg_right (by omega) (Int.natCast_nonneg total)
    omega
  have hround : rint (fl ((sum : ℚ) / total)) = rint ((sum : ℚ) / total) := by
    apply h.rint_div (e := 44) htotal
    · omega
    · decide
    · generalize rint ((sum : ℚ) / total) = k at hk
      omega
  simp only [quantizeLane64, quantizeLane, hround]

theorem laneSum64_eq (h : Binary64 fl) (parts : List (Word × Nat)) (i : Nat)
    (hfit : ((counted parts).map Prod.snd).sum ≤ 2 ^ 44) :
    laneSum64 fl parts i = (((counted parts).map fun p => p.2 * lane p.1 i).sum : Nat) := by
  have hrun (l : List (Word × Nat)) (sum : Nat) (hl : sum + 255 * (l.map Prod.snd).sum ≤ 2 ^ 53) :
      l.foldl (fun sum p => fl (sum + fl ((p.2 : ℚ) * lane p.1 i))) (sum : ℚ) =
        ((sum + (l.map fun p => p.2 * lane p.1 i).sum : Nat) : ℚ) := by
    induction l generalizing sum with
    | nil => rfl
    | cons p l ih =>
      rw [List.map_cons, List.sum_cons] at hl
      have hlane : p.2 * lane p.1 i ≤ p.2 * 255 :=
        Nat.mul_le_mul_left _ (Nat.le_of_lt_succ (lane_lt p.1 i))
      have hprod : fl ((p.2 : ℚ) * lane p.1 i) = ((p.2 * lane p.1 i : Nat) : ℚ) := by
        rw [← Nat.cast_mul]
        exact h.nat (by omega)
      have hsum : fl ((sum : ℚ) + ((p.2 * lane p.1 i : Nat) : ℚ)) =
          ((sum + p.2 * lane p.1 i : Nat) : ℚ) := by
        rw [← Nat.cast_add]
        exact h.nat (by omega)
      rw [List.foldl_cons, hprod, hsum, ih _ (by omega), List.map_cons, List.sum_cons,
        Nat.add_assoc]
  have hzero := hrun (counted parts) 0 (by omega)
  rw [Nat.cast_zero, Nat.zero_add] at hzero
  exact hzero

/-- The merge in float64 is the exact one. -/
theorem mergeCompositionKway64_eq (h : Binary64 fl) (parts : List (Word × Nat))
    (hfit : (parts.map Prod.snd).sum ≤ 2 ^ 44) :
    mergeCompositionKway64 fl parts = mergeCompositionKway parts := by
  rw [← sum_counted] at hfit
  rw [mergeCompositionKway64, mergeCompositionKway_eq]
  by_cases hzero : ((counted parts).map Prod.snd).sum = 0
  · simp only [if_pos hzero]
  · simp only [if_neg hzero]
    refine congrArg pack (List.map_congr_left fun i _ => ?_)
    rw [laneSum64_eq h parts i hfit]
    refine quantizeLane64_eq h (Nat.pos_of_ne_zero hzero) ?_ hfit _
    induction counted parts with
    | nil => exact Nat.zero_le _
    | cons p l ih =>
      have hlane : p.2 * lane p.1 i ≤ p.2 * 255 :=
        Nat.mul_le_mul_left _ (Nat.le_of_lt_succ (lane_lt p.1 i))
      simp only [List.map_cons, List.sum_cons]
      omega

theorem mergeLane64_eq (h : Binary64 fl) {nA nB a b : Nat} (hA : 0 < nA) (ha : a < 256)
    (hb : b < 256) (hfit : nA + nB ≤ 2 ^ 44) : mergeLane64 fl nA nB a b = mergeLane nA nB a b := by
  have hmulA : nA * a ≤ nA * 255 := Nat.mul_le_mul_left _ (Nat.le_of_lt_succ ha)
  have hmulB : nB * b ≤ nB * 255 := Nat.mul_le_mul_left _ (Nat.le_of_lt_succ hb)
  have hprodA : fl ((nA : ℚ) * a) = ((nA * a : Nat) : ℚ) := by
    rw [← Nat.cast_mul]
    exact h.nat (by omega)
  have hprodB : fl ((nB : ℚ) * b) = ((nB * b : Nat) : ℚ) := by
    rw [← Nat.cast_mul]
    exact h.nat (by omega)
  have hsum : fl (((nA * a : Nat) : ℚ) + ((nB * b : Nat) : ℚ)) = ((nA * a + nB * b : Nat) : ℚ) := by
    rw [← Nat.cast_add]
    exact h.nat (by omega)
  rw [mergeLane64, hprodA, hprodB, hsum, mergeLane_eq]
  exact quantizeLane64_eq h (by omega) (by omega) hfit _

theorem mergeComposition64_eq (h : Binary64 fl) {wordA wordB : Word} {nA nB : Nat}
    (hfit : nA + nB ≤ 2 ^ 44) :
    mergeComposition64 fl wordA nA wordB nB = mergeComposition wordA nA wordB nB := by
  rw [mergeComposition64, mergeComposition]
  split_ifs with hA hB
  · rfl
  · rfl
  · simp only [unpackComposition, List.zipWith_map, List.zipWith_self]
    refine congrArg pack (List.map_congr_left fun i _ => ?_)
    exact mergeLane64_eq h (Nat.pos_of_ne_zero hA) (lane_lt ..) (lane_lt ..) hfit

/-- A lane at or above the top is the top. -/
theorem quantizeLane64_top (h : Binary64 fl) {sum : ℚ} {total : Nat} (htotal : 0 < total)
    (hle : ((255 * total : Nat) : ℚ) ≤ sum) (present : Bool) :
    quantizeLane64 fl sum total present = 255 := by
  have hpos : (0 : ℚ) < total := by exact_mod_cast htotal
  have htop : ((255 : Nat) : ℚ) ≤ sum / total := by
    rw [le_div_iff₀ hpos]
    exact_mod_cast hle
  have hround := h.mono htop
  rw [h.nat (by decide)] at hround
  have hk : 255 ≤ rint (fl (sum / total)) := by
    have hmono := rint_mono hround
    rwa [show (((255 : Nat) : ℚ)) = ((255 : ℤ) : ℚ) from rfl, rint_intCast] at hmono
  simp only [quantizeLane64]
  rw [if_neg fun hfloor => by omega]
  omega

theorem binary64_id : Binary64 id := ⟨monotone_id, fun _ _ _ _ => rfl⟩

theorem quantizeCount64_eq (h : Binary64 fl) {n count : Nat} (hn : 0 < n) (hfit : n ≤ 2 ^ 44) :
    quantizeCount64 fl n count = quantizeCount n count := by
  have hcast : 255 * (count : ℚ) = ((255 * count : Nat) : ℚ) := by push_cast; ring
  rw [quantizeCount64, quantizeCount_eq, hcast]
  by_cases hle : count ≤ n
  · rw [h.nat (by omega)]
    exact quantizeLane64_eq h hn (by omega) hfit _
  · -- a count above its total is at the top in either arithmetic
    have hmul : ((255 * n : Nat) : ℚ) ≤ ((255 * count : Nat) : ℚ) := by
      exact_mod_cast Nat.mul_le_mul_left 255 (Nat.le_of_not_le hle)
    have hround := h.mono hmul
    rw [h.nat (by omega)] at hround
    rw [quantizeLane64_top h hn hround]
    exact (quantizeLane64_top binary64_id hn hmul _).symm

theorem quantize64_eq (h : Binary64 fl) {n : Nat} (counts : List Nat) (hfit : n ≤ 2 ^ 44) :
    quantize64 fl counts n = quantize counts n := by
  rw [quantize64, quantize]
  split_ifs with hn
  · rfl
  · exact List.map_congr_left fun count _ => quantizeCount64_eq h (Nat.pos_of_ne_zero hn) hfit

theorem countFromLane64_eq (h : Binary64 fl) {l nSignal : Nat} (hl : l < 256)
    (hfit : nSignal < 2 ^ 44) :
    countFromLane64 fl l nSignal = rint (((l * nSignal : Nat) : ℚ) / (255 : Nat)) := by
  have hmul : l * nSignal ≤ 255 * nSignal := Nat.mul_le_mul_right _ (Nat.le_of_lt_succ hl)
  have hprod : fl ((l : ℚ) * nSignal) = ((l * nSignal : Nat) : ℚ) := by
    rw [← Nat.cast_mul]
    exact h.nat (by omega)
  rw [countFromLane64, hprod]
  obtain ⟨hlo, hhi⟩ := Stats.rint_div (l * nSignal) (show 0 < 255 by decide)
  apply h.rint_div (e := 8) (by decide) (by decide) (by decide)
  generalize rint (((l * nSignal : Nat) : ℚ) / (255 : Nat)) = k at hlo hhi
  push_cast at hlo hhi
  zify at hmul
  omega

theorem countsFromComposition64_eq (h : Binary64 fl) (word : Word) {nSignal : Nat}
    (hfit : nSignal < 2 ^ 44) :
    countsFromComposition64 fl word nSignal = countsFromComposition word nSignal := by
  simp only [countsFromComposition64, countsFromComposition, unpackComposition, List.map_map]
  exact List.map_congr_left fun i _ => countFromLane64_eq h (lane_lt word i) hfit

theorem part64_eq (h : Binary64 fl) {s : Stratum} (hfit : s.n ≤ 2 ^ 44) : s.part64 fl = s.part := by
  rw [Stratum.part64, Stratum.part, quantize64_eq h _ hfit]

theorem map_part64 (h : Binary64 fl) {parts : List Stratum}
    (hfit : (parts.map Stratum.n).sum ≤ 2 ^ 44) :
    parts.map (Stratum.part64 fl) = parts.map Stratum.part :=
  List.map_congr_left fun s hs =>
    part64_eq h ((List.single_le_sum (by simp) _ (List.mem_map_of_mem hs)).trans hfit)

mutual

/-- Up to the total, every node of a tree makes the exact word. -/
theorem tree_part64_eq (h : Binary64 fl) : ∀ t : CompositionTree, (t.leaves.map Leaf.n).sum ≤ 2 ^ 44 →
    t.part64 fl = t.part
  | .leaf l, hfit => by
    rw [CompositionTree.leaves, List.map_singleton, List.sum_singleton] at hfit
    rw [CompositionTree.part64, quantize64_eq h _ hfit]
    rfl
  | .binary l r, hfit => by
    rw [CompositionTree.leaves, List.map_append, List.sum_append] at hfit
    rw [CompositionTree.part64, CompositionTree.part, tree_part64_eq h l (by omega),
      tree_part64_eq h r (by omega), mergeComposition64_eq h]
    rwa [divisor_eq, divisor_eq]
  | .kway ts, hfit => by
    rw [CompositionTree.part64, CompositionTree.part, tree_parts64_eq h ts hfit,
      mergeCompositionKway64_eq h]
    rwa [divisor_parts]

theorem tree_parts64_eq (h : Binary64 fl) : ∀ ts : List CompositionTree,
    ((CompositionTree.leavesOf ts).map Leaf.n).sum ≤ 2 ^ 44 →
      CompositionTree.parts64 fl ts = CompositionTree.parts ts
  | [], _ => rfl
  | t :: ts, hfit => by
    rw [CompositionTree.leavesOf, List.map_append, List.sum_append] at hfit
    rw [CompositionTree.parts64, CompositionTree.parts, tree_part64_eq h t (by omega),
      tree_parts64_eq h ts (by omega)]

end

/-- Reordering keeps the leaves' total. -/
theorem reordered_total {t t' : CompositionTree} (hr : Reordered t t') :
    (t'.leaves.map Leaf.n).sum = (t.leaves.map Leaf.n).sum := by
  rw [← divisor_eq, ← divisor_eq, reordered_part hr]

/-- A lane of a merged word is positive exactly when some leaf counted in it, whatever the tree,
and the order of the arguments shows in no word: in exact arithmetic, and in float64 as far as
it is exact. -/
theorem mergeTree_presence (t : CompositionTree) : Presence CompositionTree.part t ∧
    ∀ fl, Binary64 fl → (t.leaves.map Leaf.n).sum ≤ 2 ^ 44 →
      Presence (CompositionTree.part64 fl) t := by
  refine ⟨presence_part t, fun fl h hfit => ?_⟩
  have hsame := tree_part64_eq h t hfit
  constructor
  · rw [hsame]
    exact divisor_eq t
  · intro i hi
    rw [hsame]
    exact lane_part hi t
  · intro t' hr
    rw [hsame, tree_part64_eq h t' (by rwa [reordered_total hr])]
    exact reordered_part hr

/-- Three leaves, two merged first and the third beside them. -/
def threeLeaves : CompositionTree :=
  .kway [.binary (.leaf ⟨255, [1, 0, 0, 0, 0, 255, 0, 0], by decide, rfl⟩)
    (.leaf ⟨255, [0, 0, 255, 0, 0, 0, 255, 0], by decide, rfl⟩),
    .leaf ⟨510, [0, 0, 0, 510, 0, 0, 0, 510], by decide, rfl⟩]

/-- The one photon of the first lane stays visible above a thousand others. -/
theorem mergeTree_presence_threeLeaves :
    Presence CompositionTree.part threeLeaves ∧ Presence (CompositionTree.part64 id) threeLeaves ∧
      unpackComposition threeLeaves.part.1 = [1, 0, 64, 128, 0, 64, 64, 128] :=
  ⟨(mergeTree_presence threeLeaves).1,
    (mergeTree_presence threeLeaves).2 id binary64_id (by decide), by decide +kernel⟩

/-- The error of a merge is bounded in exact arithmetic, and in float64 as far as it is exact. -/
theorem mergeCompositionKway_error (parts : List Stratum) :
    BoundedError mergeCompositionKway countsFromComposition Stratum.part parts ∧
    ∀ fl, Binary64 fl → (parts.map Stratum.n).sum < 2 ^ 44 →
      BoundedError (mergeCompositionKway64 fl) (countsFromComposition64 fl) (Stratum.part64 fl) parts := by
  refine ⟨boundedError_kway parts, fun fl h hfit => ?_⟩
  have hmerge (ps : List Stratum) (hps : (ps.map Stratum.n).sum < 2 ^ 44) :
      mergeCompositionKway64 fl (ps.map (Stratum.part64 fl)) =
        mergeCompositionKway (ps.map Stratum.part) := by
    rw [map_part64 h hps.le]
    exact mergeCompositionKway64_eq h _ (by rw [sum_part]; exact hps.le)
  constructor
  · intro parts' hperm
    rw [hmerge parts hfit, hmerge parts' (by rwa [← (hperm.map _).sum_eq])]
    exact (boundedError_kway parts).order parts' hperm
  · intro i hi
    rw [hmerge parts hfit, countsFromComposition64_eq h _ hfit]
    exact (boundedError_kway parts).error i hi

theorem mergeCompositionKway_error_twoParts :
    BoundedError (mergeCompositionKway64 id) (countsFromComposition64 id) (Stratum.part64 id)
      [⟨510, [2, 508, 0, 0, 0, 510, 0, 0], rfl, by decide⟩,
        ⟨510, [0, 510, 0, 0, 0, 510, 0, 0], rfl, by decide⟩] :=
  (mergeCompositionKway_error _).2 id binary64_id (by decide)

end Model

end Zagg.Stats
