import Mathlib.Data.Rat.Floor
import Mathlib.Algebra.Order.Floor.Ring
import Mathlib.Algebra.BigOperators.Group.List.Basic
import Mathlib.Tactic.IntervalCases
import Mathlib.Tactic.Positivity

/-!
# Packed signal composition

A composition word carries eight 8-bit lanes of fractions of a cell's signal stratum.
`mergeCompositionKway` folds `(word, n)` parts in one pass: the weighted mean of each
lane, quantized once, with a floor of one for a lane that any part has. The fold does
not see the order of its parts, and it is the zero word only if every part with a
positive weight is.
-/
namespace Zagg.Stats

abbrev Word := BitVec 64

/-- `np.rint`: the nearest integer, a half going to the even neighbour. -/
def rint (q : ℚ) : ℤ :=
  let d := q - ⌊q⌋
  if d < 1 / 2 then ⌊q⌋ else if 1 / 2 < d then ⌊q⌋ + 1 else if ⌊q⌋ % 2 = 0 then ⌊q⌋ else ⌊q⌋ + 1

@[simp] theorem rint_intCast (z : ℤ) : rint (z : ℚ) = z := by
  simp [rint]

theorem rint_error (q : ℚ) : q - 1 / 2 ≤ rint q ∧ (rint q : ℚ) ≤ q + 1 / 2 := by
  have hle := Int.floor_le q
  have hlt := Int.lt_floor_add_one q
  simp only [rint]
  split_ifs <;> push_cast <;> constructor <;> linarith

theorem rint_mono {q q' : ℚ} (h : q ≤ q') : rint q ≤ rint q' := by
  have hfloor := Int.floor_le_floor h
  simp only [rint]
  by_cases heq : ⌊q⌋ = ⌊q'⌋
  · rw [heq]
    split_ifs <;> first | omega | linarith
  · split_ifs <;> omega

/-- Ties go to the same neighbour at an even distance. -/
theorem rint_add_even {k : ℤ} (hk : k % 2 = 0) (q : ℚ) : rint (k + q) = k + rint q := by
  have hd : (k : ℚ) + q - (k + ⌊q⌋ : ℤ) = q - ⌊q⌋ := by
    push_cast
    ring
  have hparity : (k + ⌊q⌋) % 2 = ⌊q⌋ % 2 := by omega
  simp only [rint]
  rw [Int.floor_intCast_add, hd, hparity]
  split_ifs <;> omega

/-- Lane `i` of a word, low byte first. -/
def lane (word : Word) (i : Nat) : Nat := ((word >>> (8 * i)) &&& 0xFF#64).toNat

def unpackComposition (word : Word) : List Nat := (List.range 8).map (lane word)

/-- `_pack`: or the lanes together, lane `i` at bits `8 * i` and up. -/
def pack (lanes : List Nat) : Word :=
  lanes.zipIdx.foldl (fun word p => word ||| (BitVec.ofNat 64 p.1 <<< (8 * p.2))) 0

/-- The running sums of the fold, per lane, and the total weight. -/
structure Tally where
  lanes : List Nat
  present : List Bool
  total : Nat

def Tally.add (t : Tally) (part : Word × Nat) : Tally :=
  if part.2 = 0 then t
  else
    { lanes := List.zipWith (· + part.2 * ·) t.lanes (unpackComposition part.1)
      present := List.zipWith (fun p l => p || 0 < l) t.present (unpackComposition part.1)
      total := t.total + part.2 }

/-- The mean of one lane with the presence floor, clipped to a byte. -/
def quantizeLane (sum total : Nat) (present : Bool) : Nat :=
  let k := rint ((sum : ℚ) / total)
  let k := if present ∧ k = 0 then 1 else k
  (min (max k 0) 255).toNat

def mergeCompositionKway (parts : List (Word × Nat)) : Word :=
  let t := parts.foldl Tally.add ⟨List.replicate 8 0, List.replicate 8 false, 0⟩
  if t.total = 0 then 0
  else pack (List.zipWith (fun sum p => quantizeLane sum t.total p) t.lanes t.present)

/-- The parts the fold counts. -/
def counted (parts : List (Word × Nat)) : List (Word × Nat) := parts.filter fun p => p.2 ≠ 0

/-- The tally after a fold, lane by lane. -/
theorem foldl_add (parts : List (Word × Nat)) : ∀ (lanes : Nat → Nat) (present : Nat → Bool) (total),
    parts.foldl Tally.add ⟨(List.range 8).map lanes, (List.range 8).map present, total⟩ =
      ⟨(List.range 8).map fun i => lanes i + ((counted parts).map fun p => p.2 * lane p.1 i).sum,
        (List.range 8).map fun i => present i || (counted parts).any fun p => 0 < lane p.1 i,
        total + ((counted parts).map Prod.snd).sum⟩ := by
  induction parts with
  | nil => simp [counted]
  | cons p parts ih =>
    intro lanes present total
    by_cases hp : p.2 = 0
    · have hskip : counted (p :: parts) = counted parts := by simp [counted, hp]
      rw [List.foldl_cons, Tally.add, if_pos hp, ih, hskip]
    · have hkeep : counted (p :: parts) = p :: counted parts := by simp [counted, hp]
      rw [List.foldl_cons, Tally.add, if_neg hp]
      simp only [unpackComposition, List.zipWith_map, List.zipWith_self]
      rw [ih, hkeep]
      simp only [List.map_cons, List.sum_cons, List.any_cons, Nat.add_assoc, Bool.or_assoc]

/-- The fold as sums over its counted parts. -/
theorem mergeCompositionKway_eq (parts : List (Word × Nat)) :
    mergeCompositionKway parts =
      let total := ((counted parts).map Prod.snd).sum
      if total = 0 then 0
      else pack ((List.range 8).map fun i =>
        quantizeLane ((counted parts).map fun p => p.2 * lane p.1 i).sum total
          ((counted parts).any fun p => 0 < lane p.1 i)) := by
  have h := foldl_add parts (fun _ => 0) (fun _ => false) 0
  simp only [Nat.zero_add, Bool.false_or] at h
  have hz : (List.range 8).map (fun _ => 0) = List.replicate 8 0 := rfl
  have hf : (List.range 8).map (fun _ => false) = List.replicate 8 false := rfl
  rw [hz, hf] at h
  simp only [mergeCompositionKway, h, List.zipWith_map, List.zipWith_self]

theorem mergeCompositionKway_perm {parts parts' : List (Word × Nat)} (h : parts.Perm parts') :
    mergeCompositionKway parts = mergeCompositionKway parts' := by
  have hc : (counted parts).Perm (counted parts') := h.filter _
  have hany : ∀ i, ((counted parts).any fun p => 0 < lane p.1 i) =
      (counted parts').any fun p => 0 < lane p.1 i := fun i => by
    rw [Bool.eq_iff_iff, List.any_eq_true, List.any_eq_true]
    simp only [hc.mem_iff]
  have hsum : ∀ i, ((counted parts).map fun p => p.2 * lane p.1 i).sum =
      ((counted parts').map fun p => p.2 * lane p.1 i).sum := fun i => (hc.map _).sum_eq
  rw [mergeCompositionKway_eq, mergeCompositionKway_eq, (hc.map Prod.snd).sum_eq]
  simp only [hany, hsum]

theorem lane_zero (i : Nat) : lane 0 i = 0 := by simp [lane]

/-- A word is zero if its eight lanes are. -/
theorem eq_zero_of_lanes {word : Word} (h : ∀ i < 8, lane word i = 0) : word = 0 := by
  apply BitVec.eq_of_toNat_eq
  apply Nat.eq_of_testBit_eq
  intro i
  show word.toNat.testBit i = (0 : Nat).testBit i
  rw [Nat.zero_testBit]
  by_cases hi : i < 64
  · -- the bit is one of its lane's
    have hi' := h (i / 8) (by omega)
    rw [lane, BitVec.toNat_and, BitVec.toNat_ushiftRight, Nat.shiftRight_eq_div_pow] at hi'
    have hmask : (0xFF#64).toNat = 2 ^ 8 - 1 := rfl
    rw [hmask, Nat.and_two_pow_sub_one_eq_mod] at hi'
    have hbit := congrArg (Nat.testBit · (i % 8)) hi'
    simp only [Nat.testBit_mod_two_pow, Nat.testBit_div_two_pow, Nat.mod_add_div, Nat.zero_testBit,
      Nat.mod_lt i (show 0 < 8 by decide), decide_true, Bool.true_and] at hbit
    exact hbit
  · exact Nat.testBit_lt_two_pow (word.isLt.trans_le (Nat.pow_le_pow_right (by decide) (by omega)))

theorem foldl_or_eq_zero (l : List (Nat × Nat)) : ∀ word : Word,
    l.foldl (fun word p => word ||| (BitVec.ofNat 64 p.1 <<< (8 * p.2))) word = 0 ↔
      word = 0 ∧ ∀ p ∈ l, BitVec.ofNat 64 p.1 <<< (8 * p.2) = 0 := by
  induction l with
  | nil => simp
  | cons p l ih =>
    intro word
    have hor : word ||| (BitVec.ofNat 64 p.1 <<< (8 * p.2)) = 0 ↔
        word = 0 ∧ BitVec.ofNat 64 p.1 <<< (8 * p.2) = 0 := BitVec.or_eq_zero_iff
    rw [List.foldl_cons, ih, hor, List.forall_mem_cons, and_assoc]

theorem shift_eq_zero {k i : Nat} (hk : k < 256) (hi : i < 8) :
    BitVec.ofNat 64 k <<< (8 * i) = (0 : Word) ↔ k = 0 := by
  constructor
  · intro h
    have ht := congrArg BitVec.toNat h
    rw [BitVec.toNat_shiftLeft, BitVec.toNat_ofNat, Nat.shiftLeft_eq] at ht
    interval_cases i <;> simp at ht <;> omega
  · rintro rfl
    simp

/-- Packing bytes is zero exactly on zero bytes. -/
theorem pack_eq_zero {lanes : Nat → Nat} (hb : ∀ i, lanes i < 256) :
    pack ((List.range 8).map lanes) = 0 ↔ ∀ i < 8, lanes i = 0 := by
  have hidx : ((List.range 8).map lanes).zipIdx = (List.range 8).map fun i => (lanes i, i) := rfl
  rw [pack, foldl_or_eq_zero, hidx]
  simp only [true_and, List.forall_mem_map, List.mem_range]
  exact forall₂_congr fun i hi => shift_eq_zero (hb i) hi

theorem quantizeLane_lt (sum total : Nat) (present : Bool) : quantizeLane sum total present < 256 := by
  simp only [quantizeLane]
  omega

theorem rint_nonneg {q : ℚ} (h : 0 ≤ q) : 0 ≤ rint q := by
  have hf : 0 ≤ ⌊q⌋ := Int.floor_nonneg.mpr h
  simp only [rint]
  split_ifs <;> omega

theorem quantizeLane_present (sum total : Nat) : quantizeLane sum total true ≠ 0 := by
  have hk : 0 ≤ rint ((sum : ℚ) / total) := rint_nonneg (by positivity)
  simp only [quantizeLane, true_and]
  split <;> omega

theorem quantizeLane_absent (total : Nat) : quantizeLane 0 total false = 0 := by
  have h : rint 0 = 0 := rint_intCast 0
  simp [quantizeLane, h]

/-- The fold is zero exactly when no counted part has a lane. -/
theorem mergeCompositionKway_ne_zero (parts : List (Word × Nat)) :
    mergeCompositionKway parts ≠ 0 ↔ ∃ p ∈ parts, p.2 ≠ 0 ∧ p.1 ≠ 0 := by
  have hmem : ∀ p, p ∈ counted parts ↔ p ∈ parts ∧ p.2 ≠ 0 := fun p => by simp [counted]
  rw [mergeCompositionKway_eq]
  simp only
  constructor
  · intro h
    by_contra hno
    push Not at hno
    have hz : ∀ p ∈ counted parts, p.1 = 0 := fun p hp =>
      hno p ((hmem p).mp hp).1 ((hmem p).mp hp).2
    apply h
    split
    · rfl
    · rw [pack_eq_zero fun i => quantizeLane_lt _ _ _]
      intro i _
      have hsum : ((counted parts).map fun p => p.2 * lane p.1 i).sum = 0 :=
        List.sum_eq_zero fun x hx => by
          obtain ⟨p, hp, rfl⟩ := List.mem_map.mp hx
          rw [hz p hp, lane_zero, Nat.mul_zero]
      have hany : ((counted parts).any fun p => 0 < lane p.1 i) = false := by
        rw [List.any_eq_false]
        intro p hp
        rw [hz p hp, lane_zero]
        simp
      rw [hsum, hany, quantizeLane_absent]
  · rintro ⟨p, hp, hn, hw⟩
    have hpc := (hmem p).mpr ⟨hp, hn⟩
    have htotal : ((counted parts).map Prod.snd).sum ≠ 0 := fun h0 =>
      hn (List.sum_eq_zero_iff.mp h0 _ (List.mem_map_of_mem hpc))
    rw [if_neg htotal, Ne, pack_eq_zero fun i => quantizeLane_lt _ _ _]
    intro hall
    obtain ⟨i, hi, hl⟩ : ∃ i < 8, lane p.1 i ≠ 0 := by
      by_contra hno
      push Not at hno
      exact hw (eq_zero_of_lanes hno)
    have hany : ((counted parts).any fun p => 0 < lane p.1 i) = true :=
      List.any_eq_true.mpr ⟨p, hpc, by simp; omega⟩
    have hq := hall i hi
    rw [hany] at hq
    exact quantizeLane_present _ _ hq

/-- `_quantize` of one lane: the fraction of `n` with the presence floor. -/
def quantizeCount (n count : Nat) : Nat :=
  let k := rint (255 * (count : ℚ) / n)
  let k := if 0 < count ∧ k = 0 then 1 else k
  (min (max k 0) 255).toNat

/-- `pack_composition_n` on the rows with a finite height: the five confidences of each. -/
def packCompositionN (threshold : ℤ) (conf : List (List ℤ)) : Word × Nat :=
  let signal := conf.filter fun c => c.any (threshold ≤ ·)
  let n := signal.length
  if n = 0 then (0, 0)
  else
    let surfaces := (List.range 5).map fun i =>
      signal.countP fun c => decide (threshold ≤ c.getD i (threshold - 1))
    let strongest := signal.map fun c => c.foldl max (c.headD 0)
    let levels := [2, 3, 4].map fun level => strongest.countP fun s => decide (s = level)
    (pack ((surfaces ++ levels).map (quantizeCount n)), n)

end Zagg.Stats
