import Zagg.Lib.Pointwise
import Zagg.Sweep.Node

/-!
# Subtree partitions of one sweep

A count of `4^k` partitions splits the tree at order `k`; the partition that owns a
node of order at least `k` is the rank of its order-`k` prefix. Any other count, and
any node coarser than the split, is refused by name.
-/
namespace Zagg.Sweep

open Zagg.Lib

/-- Morton order a `partitions`-way split lands on. -/
def partitionSplitOrder (partitions : Int) : Except String Nat :=
  let n := partitions.toNat
  if partitions < 1 ∨ n &&& (n - 1) ≠ 0 then
    .error s!"sweep partitions must be a power of two >= 1 (got {partitions})"
  else
    -- `n.bit_length() - 1` at a positive `n`
    let bits := Nat.log2 n
    if bits % 2 ≠ 0 then
      .error (s!"sweep partitions={n} (2^{bits}) splits a morton digit in half; a digit is 2 " ++
        s!"bits, so partitions round to digit boundaries — use {n / 2} or {n * 2} " ++
        "(bit-level splits are the open fork on issue #377)")
    else .ok (bits / 2)

/-- Index of the partition owning the node `decimal`. -/
def partitionIndex (decimal : Decimal) (partitions : Int) : Except String Nat := do
  let k ← partitionSplitOrder partitions
  if decimal.order < k then
    .error (s!"node {decimal} is at order {decimal.order}, coarser than the " ++
      s!"partitions={partitions} split order {k}; coarse nodes span partitions (they are " ++
      "the finisher's, issue #377)")
  else .ok (decimal.nodeAt k).decimalRank

/-- A wire `index`/`of` block: a field is `none` when it is missing or no integer, and
`text` is how the block prints. -/
structure PartitionBlock where
  index : Option Int
  of : Option Int
  text : String

def normalizePartition : Option PartitionBlock → Except String (Option (Nat × Int))
  | none => .ok none
  | some p =>
    match p.index, p.of with
    | some index, some of => do
      let _ ← partitionSplitOrder of
      if 0 ≤ index ∧ index < of then .ok (some (index.toNat, of))
      else .error s!"sweep partition index {index} is out of range for of={of}"
    | _, _ =>
      .error ("sweep partition must be \x7b'index': int, 'of': int\x7d (got " ++ p.text ++ ")")

variable {W : Type}

/-- Split a work set into the lists of its non-empty partitions, in index order. -/
def partitionLeaves (leaves : List (Decimal × W)) (partitions : Int) :
    Except String (List (Nat × List (Decimal × W))) := do
  let _ ← partitionSplitOrder partitions
  let owned ← leaves.mapM fun ref => do return (← partitionIndex ref.1 partitions, ref)
  let indices := (owned.map Prod.fst).dedup.insertionSort (· ≤ ·)
  return indices.map fun i => (i, (owned.filter fun p => p.1 = i).map Prod.snd)

/-- Restrict a normalized work set to one partition, with the count of dropped leaves. -/
def selectPartition (work : List (Decimal × W)) (partitions : Int) (index : Nat) :
    Except String (List (Decimal × W) × Nat) := do
  let _ ← normalizePartition (some ⟨some index, some partitions, ""⟩)
  let owned ← work.mapM fun ref => do return (← partitionIndex ref.1 partitions, ref)
  let kept := (owned.filter fun p => p.1 = index).map Prod.snd
  return (kept, work.length - kept.length)

/-- The partition of a `4^k`-way split that owns a node of order at least `k`. -/
def owner (k : Nat) (d : Decimal) : Nat := (d.nodeAt k).decimalRank

theorem log2_four_pow (k : Nat) : Nat.log2 (4 ^ k) = 2 * k := by
  rw [show (4 : Nat) ^ k = 2 ^ (2 * k) by rw [Nat.pow_mul], Nat.log2_two_pow]

/-- The accepted counts are exactly the powers of four. -/
theorem partitionSplitOrder_eq_ok_iff {p : Int} {k : Nat} :
    partitionSplitOrder p = .ok k ↔ p = (4 ^ k : Nat) := by
  constructor
  · intro h
    unfold partitionSplitOrder at h
    simp only at h
    split at h
    · cases h
    · next hn =>
      push Not at hn
      split at h
      · cases h
      · next hb =>
        push Not at hb
        obtain rfl := Except.ok.inj h
        have hpos : p.toNat ≠ 0 := by omega
        obtain ⟨j, hj⟩ := (Nat.and_sub_one_eq_zero_iff_isPowerOfTwo hpos).mp hn.2
        rw [hj, Nat.log2_two_pow] at hb ⊢
        rw [show (4 : Nat) = 2 ^ 2 from rfl, ← Nat.pow_mul, show 2 * (j / 2) = j by omega]
        omega
  · rintro rfl
    have hpos : 0 < 4 ^ k := Nat.pow_pos (by decide)
    have ha : (4 ^ k : Nat) &&& (4 ^ k - 1) = 0 :=
      (Nat.and_sub_one_eq_zero_iff_isPowerOfTwo (by omega)).mpr
        ⟨2 * k, by rw [Nat.pow_mul]⟩
    unfold partitionSplitOrder
    rw [Int.toNat_natCast, if_neg (by push Not; exact ⟨by omega, ha⟩), log2_four_pow]
    simp

theorem owner_lt {k : Nat} {d : Decimal} (h : k ≤ d.order) : owner k d < 4 ^ k := by
  have hl : (d.nodeAt k).digits.length = k := by
    have := d.order_nodeAt k
    rw [Nat.min_eq_left h] at this
    exact this
  have hr := Digits.rank_lt (d.nodeAt k).digits
  rwa [hl] at hr

theorem owner_of_startsWith {k : Nat} {d a : Decimal} (h : d.startsWith a = true)
    (hk : k ≤ a.order) : owner k d = owner k a := by
  rw [owner, owner, Decimal.nodeAt_of_startsWith h hk]

theorem partitionIndex_eq {k : Nat} {d : Decimal} (h : k ≤ d.order) :
    partitionIndex d (4 ^ k : Nat) = .ok (owner k d) := by
  unfold partitionIndex
  rw [partitionSplitOrder_eq_ok_iff.mpr rfl]
  simp only [bind, Except.bind]
  rw [if_neg (by omega)]
  rfl

theorem mapM_partitionIndex {k : Nat} {work : List (Decimal × W)}
    (h : ∀ ref ∈ work, k ≤ ref.1.order) :
    (work.mapM fun ref => do return (← partitionIndex ref.1 (4 ^ k : Nat), ref)) =
      (.ok (work.map fun ref => (owner k ref.1, ref)) : Except String _) := by
  refine mapM_ok fun ref hr => ?_
  rw [partitionIndex_eq (h ref hr)]
  rfl

theorem normalizePartition_eq {k i : Nat} (hi : i < 4 ^ k) (text : String) :
    normalizePartition (some ⟨some i, some (4 ^ k : Nat), text⟩) =
      .ok (some (i, ((4 ^ k : Nat) : Int))) := by
  simp only [normalizePartition, partitionSplitOrder_eq_ok_iff.mpr rfl, bind, Except.bind]
  rw [if_pos (by constructor <;> omega), Int.toNat_natCast]

theorem selectPartition_eq {k i : Nat} {work : List (Decimal × W)} (hi : i < 4 ^ k)
    (h : ∀ ref ∈ work, k ≤ ref.1.order) :
    selectPartition work (4 ^ k : Nat) i =
      .ok (work.filter (fun ref => owner k ref.1 = i),
        work.length - (work.filter fun ref => owner k ref.1 = i).length) := by
  unfold selectPartition
  rw [normalizePartition_eq hi, mapM_partitionIndex h]
  simp [bind, Except.bind, pure, Except.pure, List.filter_map, Function.comp_def]

theorem mem_of_selectPartition {work kept : List (Decimal × W)} {of : Int} {index foreign : Nat}
    (h : selectPartition work of index = .ok (kept, foreign)) {ref : Decimal × W}
    (hr : ref ∈ kept) : ref ∈ work := by
  unfold selectPartition at h
  simp only [bind, Except.bind, pure, Except.pure] at h
  split at h
  · cases h
  · split at h
    · cases h
    · next owned howned =>
      obtain ⟨rfl, -⟩ := Prod.mk.inj (Except.ok.inj h)
      obtain ⟨p, hp, rfl⟩ := List.mem_map.mp hr
      obtain ⟨a, ha, hf⟩ :=
        forall₂_exists_of_mem_right (forall₂_mapM howned) (List.mem_filter.mp hp).1
      split at hf
      · cases hf
      · obtain rfl := Except.ok.inj hf
        exact ha

/-- Every bucket of the dispatch-side split is the worker-side filter of the work set,
and the buckets name exactly the indices some leaf has. -/
theorem partitionLeaves_spec {k : Nat} {work : List (Decimal × W)}
    (h : ∀ ref ∈ work, k ≤ ref.1.order) :
    ∃ indices : List Nat, indices.Nodup ∧
      (∀ i, i ∈ indices ↔ ∃ ref ∈ work, owner k ref.1 = i) ∧
      partitionLeaves work (4 ^ k : Nat) =
        .ok (indices.map fun i => (i, work.filter fun ref => owner k ref.1 = i)) := by
  let owned := work.map fun ref => (owner k ref.1, ref)
  refine ⟨(owned.map Prod.fst).dedup.insertionSort (· ≤ ·), ?_, ?_, ?_⟩
  · exact (List.perm_insertionSort _ _).nodup_iff.mpr (List.nodup_dedup _)
  · intro i
    simp [owned]
  · unfold partitionLeaves
    rw [partitionSplitOrder_eq_ok_iff.mpr rfl, mapM_partitionIndex h]
    simp [bind, Except.bind, pure, Except.pure, owned, List.filter_map, Function.comp_def]

end Zagg.Sweep
