import Mathlib.Tactic.FieldSimp
import Mathlib.Tactic.Linarith
import Zagg.Stats.CompositionTree

/-!
# The error of a composition merge

A merged lane is a weighted mean of lanes that were themselves rounded. The rounding of the
parts weighs in with their divisors, so it sums to half a step of the total whatever their
number; the merge adds its own half step and reading the count back another half count. A
floor lifts a lane by less than a step, and only in a stratum large enough to pay for it.
-/
namespace Zagg.Stats

/-- `counts_from_composition`. -/
def countsFromComposition (word : Word) (nSignal : Nat) : List ℤ :=
  (unpackComposition word).map fun l => rint (((l * nSignal : Nat) : ℚ) / (255 : Nat))

/-- The true counts of one part, none above its total. -/
structure Stratum where
  n : Nat
  counts : List Nat
  lanes : counts.length = 8
  le : ∀ count ∈ counts, count ≤ n

/-- The `(word, n)` pair of a stratum. -/
def Stratum.part (s : Stratum) : Word × Nat := (pack (quantize s.counts s.n), s.n)

/-- The count in one lane. -/
def Stratum.count (i : Nat) (s : Stratum) : Nat := s.counts.getD i 0

section Rounding

/-- Rounding a quotient of counts, in whole numbers. -/
theorem rint_div (sum : Nat) {total : Nat} (h : 0 < total) :
    2 * (sum : ℤ) ≤ 2 * (rint ((sum : ℚ) / total) * total) + total ∧
      2 * (rint ((sum : ℚ) / total) * total) ≤ 2 * (sum : ℤ) + total := by
  obtain ⟨hlo, hhi⟩ := rint_error ((sum : ℚ) / total)
  have hpos : (0 : ℚ) < total := by exact_mod_cast h
  have hcancel : (sum : ℚ) / total * total = sum := div_mul_cancel₀ _ hpos.ne'
  have hlo' := mul_le_mul_of_nonneg_right hlo hpos.le
  have hhi' := mul_le_mul_of_nonneg_right hhi hpos.le
  rw [sub_mul, hcancel] at hlo'
  rw [add_mul, hcancel] at hhi'
  constructor
  · have hq : 2 * (sum : ℚ) ≤ 2 * (rint ((sum : ℚ) / total) * total) + total := by linarith
    exact_mod_cast hq
  · have hq : 2 * ((rint ((sum : ℚ) / total) : ℚ) * total) ≤ 2 * (sum : ℚ) + total := by linarith
    exact_mod_cast hq

/-- A lane is within half a step of its mean, unless the floor holds it up at one. -/
theorem quantizeLane_error {sum total : Nat} (h : 0 < total) (hle : sum ≤ 255 * total)
    (present : Bool) :
    2 * sum ≤ 2 * (quantizeLane sum total present * total) + total ∧
      (2 * (quantizeLane sum total present * total) ≤ 2 * sum + total ∨
        quantizeLane sum total present = 1 ∧ 2 * sum ≤ total ∧ present = true) := by
  obtain ⟨hlo, hhi⟩ := rint_div sum h
  have hk0 : 0 ≤ rint ((sum : ℚ) / total) := rint_nonneg (by positivity)
  obtain ⟨k, hk⟩ := Int.eq_ofNat_of_zero_le hk0
  rw [hk] at hlo hhi
  have hlo' : 2 * sum ≤ 2 * (k * total) + total := by exact_mod_cast hlo
  have hhi' : 2 * (k * total) ≤ 2 * sum + total := by exact_mod_cast hhi
  have hk255 : k ≤ 255 := by
    by_contra hgt
    have hmul : 256 * total ≤ k * total := Nat.mul_le_mul_right _ (by omega)
    omega
  by_cases hfloor : present = true ∧ k = 0
  · have hone : quantizeLane sum total present = 1 := by
      simp only [quantizeLane, hk]
      rw [if_pos ⟨hfloor.1, by rw [hfloor.2]; rfl⟩]
      rfl
    rw [hfloor.2, Nat.zero_mul] at hlo'
    rw [hone]
    exact ⟨by omega, .inr ⟨rfl, by omega, hfloor.1⟩⟩
  · have hmean : quantizeLane sum total present = k := by
      have hnot : ¬(present = true ∧ (k : ℤ) = 0) := fun h => hfloor ⟨h.1, by exact_mod_cast h.2⟩
      simp only [quantizeLane, hk]
      rw [if_neg hnot]
      omega
    rw [hmean]
    exact ⟨hlo', .inl hhi'⟩

theorem quantizeCount_eq (n count : Nat) :
    quantizeCount n count = quantizeLane (255 * count) n (0 < count) := by
  simp only [quantizeCount, quantizeLane, Nat.cast_mul, Nat.cast_ofNat, decide_eq_true_eq]

end Rounding

section Parts

/-- What a part's lane weighs against its count: half a step of the part, or a whole one where
the floor held it up, which takes a stratum of 510. -/
structure Weighed (n count weight : Nat) : Prop where
  low : 510 * count ≤ 2 * weight + n
  high : 2 * weight ≤ 510 * count + n ∨ 510 ≤ n
  floored : weight ≤ 255 * count + n
  bound : weight ≤ 255 * n

theorem weighed_empty : Weighed 0 0 0 := by
  constructor <;> omega

theorem Weighed.add {n n' count count' weight weight' : Nat} (h : Weighed n count weight)
    (h' : Weighed n' count' weight') : Weighed (n + n') (count + count') (weight + weight') := by
  obtain ⟨hlow, hhigh, hfloored, hbound⟩ := h
  obtain ⟨hlow', hhigh', hfloored', hbound'⟩ := h'
  constructor <;> omega

theorem weighed_quantizeCount {n count : Nat} (hn : 0 < n) (hle : count ≤ n) :
    Weighed n count (n * quantizeCount n count) := by
  have hsum : 255 * count ≤ 255 * n := Nat.mul_le_mul_left _ hle
  obtain ⟨hlow, hhigh⟩ := quantizeLane_error hn hsum (decide (0 < count))
  have hbyte : n * quantizeCount n count ≤ n * 255 :=
    Nat.mul_le_mul_left _ (Nat.le_of_lt_succ (quantizeCount_lt n count))
  rw [← quantizeCount_eq, Nat.mul_comm _ n] at hlow hhigh
  cases hhigh with
  | inl hhigh => exact ⟨by omega, .inl (by omega), by omega, by omega⟩
  | inr hone =>
    obtain ⟨hone, hsmall, hpos⟩ := hone
    have hcount : 0 < count := of_decide_eq_true hpos
    rw [hone] at hlow ⊢
    exact ⟨by omega, .inr (by omega), by omega, by omega⟩

theorem Stratum.count_le (s : Stratum) (i : Nat) : s.count i ≤ s.n := by
  rw [Stratum.count, List.getD_eq_getElem?_getD]
  cases hi : s.counts[i]? with
  | none => exact Nat.zero_le _
  | some count => exact s.le _ (List.mem_of_getElem? hi)

/-- The sums of a fold over its parts. -/
theorem weighed_parts {i : Nat} (hi : i < 8) (parts : List Stratum) :
    Weighed (parts.map Stratum.n).sum (parts.map (Stratum.count i)).sum
      ((counted (parts.map Stratum.part)).map fun p => p.2 * lane p.1 i).sum := by
  induction parts with
  | nil => exact weighed_empty
  | cons s parts ih =>
    rw [List.map_cons, List.map_cons, List.map_cons, List.sum_cons, List.sum_cons]
    by_cases hn : s.n = 0
    · have hcount : s.count i = 0 := Nat.le_zero.mp (hn ▸ s.count_le i)
      have hskip : counted (s.part :: parts.map Stratum.part) = counted (parts.map Stratum.part) :=
        List.filter_cons_of_neg (by simp [Stratum.part, hn])
      rw [hn, hcount, hskip, Nat.zero_add, Nat.zero_add]
      exact ih
    · have hkeep : counted (s.part :: parts.map Stratum.part) =
          s.part :: counted (parts.map Stratum.part) :=
        List.filter_cons_of_pos (by simp [Stratum.part, hn])
      have hlane : lane s.part.1 i = quantizeCount s.n (s.count i) :=
        lane_pack_quantize s.lanes hn hi
      rw [hkeep, List.map_cons, List.sum_cons, hlane]
      exact (weighed_quantizeCount (Nat.pos_of_ne_zero hn) (s.count_le i)).add ih

theorem sum_part (parts : List Stratum) :
    ((parts.map Stratum.part).map Prod.snd).sum = (parts.map Stratum.n).sum := by
  rw [List.map_map]
  rfl

/-- The merged lane against the true count: a step and a half at most, and more than one step
only in a large stratum. -/
theorem merged_lane_error {i : Nat} (hi : i < 8) (parts : List Stratum) {total count merged : Nat}
    (htotal : (parts.map Stratum.n).sum = total) (hcount : (parts.map (Stratum.count i)).sum = count)
    (hmerged : lane (mergeCompositionKway (parts.map Stratum.part)) i = merged) :
    510 * count ≤ 2 * (merged * total) + 2 * total ∧
      (2 * (merged * total) ≤ 510 * count + 2 * total ∨
        510 ≤ total ∧ 2 * (merged * total) ≤ 510 * count + 3 * total) := by
  obtain ⟨hlow, hhigh, hfloored, hbound⟩ := weighed_parts hi parts
  rw [htotal, hcount] at hlow hhigh hfloored
  rw [htotal] at hbound
  rw [lane_mergeCompositionKway hi, sum_part, htotal] at hmerged
  by_cases hzero : total = 0
  · rw [if_pos hzero] at hmerged
    rw [← hmerged, hzero]
    omega
  · rw [if_neg hzero] at hmerged
    obtain ⟨hlo, hhi⟩ := quantizeLane_error (Nat.pos_of_ne_zero hzero) hbound
      ((counted (parts.map Stratum.part)).any fun p => 0 < lane p.1 i)
    rw [hmerged] at hlo hhi
    cases hhi with
    | inl hhi => omega
    | inr hone =>
      obtain ⟨hone, hsmall, -⟩ := hone
      rw [hone] at hlo ⊢
      omega

/-- The merged word does not depend on the order of the parts, and the count read back from a
lane is within two quantization steps of the total of the true count, whatever the number of
parts, held up by the floor or not. -/
structure BoundedError (merge : List (Word × Nat) → Word) (read : Word → Nat → List ℤ)
    (part : Stratum → Word × Nat) (parts : List Stratum) : Prop where
  order : ∀ parts' : List Stratum, parts.Perm parts' → merge (parts'.map part) = merge (parts.map part)
  error : ∀ i < 8, 255 * |(read (merge (parts.map part)) (parts.map Stratum.n).sum).getD i 0 -
      ((parts.map (Stratum.count i)).sum : ℤ)| ≤ 2 * ((parts.map Stratum.n).sum : ℤ)

theorem boundedError_kway (parts : List Stratum) :
    BoundedError mergeCompositionKway countsFromComposition Stratum.part parts := by
  constructor
  · intro parts' h
    exact (mergeCompositionKway_perm (h.map _)).symm
  · intro i hi
    obtain ⟨total, htotal⟩ : ∃ total, (parts.map Stratum.n).sum = total := ⟨_, rfl⟩
    obtain ⟨count, hcount⟩ : ∃ count, (parts.map (Stratum.count i)).sum = count := ⟨_, rfl⟩
    obtain ⟨merged, hmerged⟩ :
      ∃ merged, lane (mergeCompositionKway (parts.map Stratum.part)) i = merged := ⟨_, rfl⟩
    obtain ⟨hlow, hhigh⟩ := merged_lane_error hi parts htotal hcount hmerged
    obtain ⟨hlo, hhi⟩ := rint_div (merged * total) (show 0 < 255 by decide)
    have hread : (countsFromComposition (mergeCompositionKway (parts.map Stratum.part)) total).getD
        i 0 = rint (((merged * total : Nat) : ℚ) / (255 : Nat)) := by
      rw [countsFromComposition, unpackComposition, List.map_map, List.getD_eq_getElem?_getD,
        List.getElem?_map, List.getElem?_range hi, ← hmerged]
      rfl
    rw [htotal, hcount, hread]
    generalize rint (((merged * total : Nat) : ℚ) / (255 : Nat)) = read at hlo hhi
    push_cast at hlo hhi
    zify at hlow hhigh
    generalize (merged : ℤ) * total = product at *
    rw [abs_eq_max_neg]
    omega

/-- One photon of 1001 in the first lane reads back as four. -/
example : countsFromComposition (mergeCompositionKway
      [Stratum.part ⟨1000, [1, 999, 0, 0, 0, 1000, 0, 0], rfl, by decide⟩,
        Stratum.part ⟨1, [0, 1, 0, 0, 0, 1, 0, 0], rfl, by decide⟩]) 1001 =
    [4, 1001, 0, 0, 0, 1001, 0, 0] := by
  decide +kernel

end Parts

end Zagg.Stats
