import Mathlib.Data.List.GetD
import Zagg.Stats.Composition

/-!
# Composition merges in trees

The words of a cell are merged in stages, two by two or many at a time, with a divisor that is
the sum of the divisors below. Each merge quantizes anew. A lane that any leaf counted is held
up by the floor of every merge above it, and a lane that none counted stays zero.
-/
namespace Zagg.Stats

/-- `_quantize`. -/
def quantize (counts : List Nat) (n : Nat) : List Nat :=
  if n = 0 then counts.map fun _ => 0 else counts.map (quantizeCount n)

/-- One lane of `merge_composition`: the weighted mean with the presence floor. -/
def mergeLane (nA nB a b : Nat) : Nat :=
  let k := rint (((nA * a + nB * b : Nat) : ℚ) / ((nA + nB : Nat) : ℚ))
  let k := if (0 < a ∨ 0 < b) ∧ k = 0 then 1 else k
  (min (max k 0) 255).toNat

def mergeComposition (wordA : Word) (nA : Nat) (wordB : Word) (nB : Nat) : Word :=
  if nA = 0 then wordB
  else if nB = 0 then wordA
  else pack (List.zipWith (mergeLane nA nB) (unpackComposition wordA) (unpackComposition wordB))

/-- The counts of one stratum: eight lanes of a positive total. -/
structure Leaf where
  n : Nat
  counts : List Nat
  positive : 0 < n
  lanes : counts.length = 8

def Leaf.word (leaf : Leaf) : Word := pack (quantize leaf.counts leaf.n)

/-- A merge of leaves, in which every node merges two subtrees or a list of them. -/
inductive CompositionTree
  | leaf (leaf : Leaf)
  | binary (left right : CompositionTree)
  | kway (children : List CompositionTree)

namespace CompositionTree

mutual

/-- The word of a tree beside its summed divisor. -/
def part : CompositionTree → Word × Nat
  | .leaf l => (l.word, l.n)
  | .binary left right =>
    (mergeComposition left.part.1 left.part.2 right.part.1 right.part.2,
      left.part.2 + right.part.2)
  | .kway children => (mergeCompositionKway (parts children), ((parts children).map Prod.snd).sum)

def parts : List CompositionTree → List (Word × Nat)
  | [] => []
  | t :: ts => t.part :: parts ts

end

mutual

def leaves : CompositionTree → List Leaf
  | .leaf l => [l]
  | .binary left right => left.leaves ++ right.leaves
  | .kway children => leavesOf children

def leavesOf : List CompositionTree → List Leaf
  | [] => []
  | t :: ts => t.leaves ++ leavesOf ts

end

end CompositionTree

mutual

/-- The arguments of any nodes in another order. -/
inductive Reordered : CompositionTree → CompositionTree → Prop
  | leaf (leaf : Leaf) : Reordered (.leaf leaf) (.leaf leaf)
  | binary {l l' r r' : CompositionTree} (hl : Reordered l l') (hr : Reordered r r') :
    Reordered (.binary l r) (.binary l' r')
  | swap {l l' r r' : CompositionTree} (hl : Reordered l l') (hr : Reordered r r') :
    Reordered (.binary l r) (.binary r' l')
  | kway {ts ts' : List CompositionTree} (h : ReorderedList ts ts') :
    Reordered (.kway ts) (.kway ts')

inductive ReorderedList : List CompositionTree → List CompositionTree → Prop
  | nil : ReorderedList [] []
  | cons {t t' : CompositionTree} {ts ts' : List CompositionTree} (h : Reordered t t')
    (hs : ReorderedList ts ts') : ReorderedList (t :: ts) (t' :: ts')
  | swap (t u : CompositionTree) (ts : List CompositionTree) : ReorderedList (t :: u :: ts) (u :: t :: ts)
  | trans {ts ts' ts'' : List CompositionTree} (h : ReorderedList ts ts') (h' : ReorderedList ts' ts'') :
    ReorderedList ts ts''

end

section Lanes

theorem testBit_lane (word : Word) (i b : Nat) :
    (lane word i).testBit b = (decide (b < 8) && word.getLsbD (8 * i + b)) := by
  have hmask : (0xFF#64).toNat = 2 ^ 8 - 1 := rfl
  rw [lane, BitVec.toNat_and, hmask, Nat.and_two_pow_sub_one_eq_mod, Nat.testBit_mod_two_pow,
    BitVec.toNat_ushiftRight, Nat.testBit_shiftRight]
  rfl

theorem getLsbD_foldl_or (l : List (Nat × Nat)) (k : Nat) : ∀ word : Word,
    (l.foldl (fun word p => word ||| (BitVec.ofNat 64 p.1 <<< (8 * p.2))) word).getLsbD k =
      (word.getLsbD k || l.any fun p => (BitVec.ofNat 64 p.1 <<< (8 * p.2)).getLsbD k) := by
  induction l with
  | nil => simp
  | cons p l ih =>
    intro word
    rw [List.foldl_cons, ih, BitVec.getLsbD_or, List.any_cons, Bool.or_assoc]

/-- Where a shifted byte has its bits. -/
theorem getLsbD_shifted {byte i j b : Nat} (hbyte : byte < 256) (hi : i < 8) (hb : b < 8) :
    (BitVec.ofNat 64 byte <<< (8 * j)).getLsbD (8 * i + b) =
      (decide (j = i) && byte.testBit b) := by
  have hk : 8 * i + b < 64 := by omega
  rw [BitVec.getLsbD_shiftLeft, BitVec.getLsbD_ofNat, decide_eq_true hk, Bool.true_and]
  by_cases hji : j = i
  · subst hji
    have hsub : 8 * j + b - 8 * j = b := by omega
    rw [hsub]
    simp
    intro _
    omega
  · rw [decide_eq_false hji, Bool.false_and]
    by_cases hlt : 8 * i + b < 8 * j
    · simp [hlt]
    · have hge : 2 ^ 8 ≤ 2 ^ (8 * i + b - 8 * j) := Nat.pow_le_pow_right (by decide) (by omega)
      have hzero : byte.testBit (8 * i + b - 8 * j) = false :=
        Nat.testBit_lt_two_pow (by omega)
      rw [hzero, Bool.and_false, Bool.and_false]

/-- Lane `i` of packed bytes is the byte `i`. -/
theorem lane_pack {lanes : Nat → Nat} (hb : ∀ i, lanes i < 256) {i : Nat} (hi : i < 8) :
    lane (pack ((List.range 8).map lanes)) i = lanes i := by
  have hidx : ((List.range 8).map lanes).zipIdx = (List.range 8).map fun i => (lanes i, i) := rfl
  apply Nat.eq_of_testBit_eq
  intro b
  rw [testBit_lane]
  by_cases hlt : b < 8
  · rw [decide_eq_true hlt, Bool.true_and, pack, hidx, getLsbD_foldl_or, List.any_map]
    have hfun : ((fun p : Nat × Nat => (BitVec.ofNat 64 p.1 <<< (8 * p.2)).getLsbD (8 * i + b)) ∘
        fun i => (lanes i, i)) = fun j => decide (j = i) && (lanes j).testBit b :=
      funext fun j => getLsbD_shifted (hb j) hi hlt
    rw [hfun]
    have hzero : (0 : Word).getLsbD (8 * i + b) = false := BitVec.getLsbD_zero
    rw [hzero, Bool.false_or, Bool.eq_iff_iff, List.any_eq_true]
    constructor
    · rintro ⟨j, _, hj⟩
      rw [Bool.and_eq_true, decide_eq_true_eq] at hj
      exact hj.1 ▸ hj.2
    · intro h
      exact ⟨i, List.mem_range.mpr hi, by rw [decide_eq_true rfl, Bool.true_and]; exact h⟩
  · have hbig : 2 ^ 8 ≤ 2 ^ b := Nat.pow_le_pow_right (by decide) (Nat.le_of_not_lt hlt)
    rw [decide_eq_false hlt, Bool.false_and, Nat.testBit_lt_two_pow ((hb i).trans_le hbig)]

theorem lane_lt (word : Word) (i : Nat) : lane word i < 256 := by
  have hmask : (0xFF#64).toNat = 2 ^ 8 - 1 := rfl
  rw [lane, BitVec.toNat_and, hmask, Nat.and_two_pow_sub_one_eq_mod]
  exact Nat.mod_lt _ (by decide)

/-- A word is its lanes. -/
theorem pack_lanes (word : Word) : pack (unpackComposition word) = word := by
  apply BitVec.eq_of_getLsbD_eq
  intro k hk
  have hi : k / 8 < 8 := by omega
  have hb : k % 8 < 8 := Nat.mod_lt _ (by decide)
  have hkk : 8 * (k / 8) + k % 8 = k := Nat.div_add_mod k 8
  have hlane := congrArg (Nat.testBit · (k % 8)) (lane_pack (lane_lt word) hi)
  simp only [testBit_lane, decide_eq_true hb, Bool.true_and, hkk] at hlane
  exact hlane

end Lanes

section Merges

theorem mergeLane_eq (nA nB a b : Nat) :
    mergeLane nA nB a b = quantizeLane (nA * a + nB * b) (nA + nB) (0 < a || 0 < b) := by
  simp [mergeLane, quantizeLane]

/-- A fold of one part is that part. -/
theorem quantizeLane_single {n a : Nat} (hn : 0 < n) (ha : a < 256) :
    quantizeLane (n * a) n (decide (0 < a)) = a := by
  have hmean : ((n * a : Nat) : ℚ) / n = ((a : ℤ) : ℚ) := by
    rw [Nat.cast_mul, Int.cast_natCast]
    exact mul_div_cancel_left₀ _ (by positivity)
  simp only [quantizeLane, hmean, rint_intCast, decide_eq_true_eq]
  split <;> omega

theorem mergeCompositionKway_single {word : Word} {n : Nat} (hn : n ≠ 0) :
    mergeCompositionKway [(word, n)] = word := by
  have hc : counted [(word, n)] = [(word, n)] := by simp [counted, hn]
  rw [mergeCompositionKway_eq, hc]
  simp only [List.map_cons, List.map_nil, List.sum_singleton, List.any_cons, List.any_nil,
    Bool.or_false, if_neg hn]
  have hlanes : (List.range 8).map (fun i => quantizeLane (n * lane word i) n
      (decide (0 < lane word i))) = unpackComposition word := by
    apply List.map_congr_left
    intro i _
    exact quantizeLane_single (Nat.pos_of_ne_zero hn) (lane_lt word i)
  rw [hlanes, pack_lanes]

/-- The binary merge is the fold of two parts, unless both are empty. -/
theorem mergeComposition_eq {wordA wordB : Word} {nA nB : Nat} (h : nA ≠ 0 ∨ nB ≠ 0) :
    mergeComposition wordA nA wordB nB = mergeCompositionKway [(wordA, nA), (wordB, nB)] := by
  rw [mergeComposition]
  by_cases hA : nA = 0
  · have hB : nB ≠ 0 := h.resolve_left fun hn => hn hA
    have hskip : mergeCompositionKway [(wordA, nA), (wordB, nB)] =
        mergeCompositionKway [(wordB, nB)] := by
      rw [mergeCompositionKway_eq, mergeCompositionKway_eq, counted, List.filter_cons_of_neg (by simpa)]
      rfl
    rw [if_pos hA, hskip, mergeCompositionKway_single hB]
  · by_cases hB : nB = 0
    · have hskip : mergeCompositionKway [(wordA, nA), (wordB, nB)] =
          mergeCompositionKway [(wordA, nA)] := by
        rw [mergeCompositionKway_eq, mergeCompositionKway_eq]
        simp [counted, hA, hB]
      rw [if_neg hA, if_pos hB, hskip, mergeCompositionKway_single hA]
    · have hc : counted [(wordA, nA), (wordB, nB)] = [(wordA, nA), (wordB, nB)] := by
        simp [counted, hA, hB]
      rw [if_neg hA, if_neg hB, mergeCompositionKway_eq, hc]
      simp only [List.map_cons, List.map_nil, List.sum_cons, List.sum_nil, Nat.add_zero,
        List.any_cons, List.any_nil, Bool.or_false]
      rw [if_neg (by omega), unpackComposition, unpackComposition, List.zipWith_map,
        List.zipWith_self]
      refine congrArg pack (List.map_congr_left fun i _ => ?_)
      exact mergeLane_eq ..

theorem counted_of_mem {parts : List (Word × Nat)} {p : Word × Nat} :
    p ∈ counted parts ↔ p ∈ parts ∧ p.2 ≠ 0 := by
  rw [counted, List.mem_filter, decide_eq_true_eq]

/-- The sum of the divisors skips the empty parts. -/
theorem sum_counted (parts : List (Word × Nat)) :
    ((counted parts).map Prod.snd).sum = (parts.map Prod.snd).sum := by
  induction parts with
  | nil => rfl
  | cons p parts ih =>
    by_cases hp : p.2 = 0
    · rw [counted, List.filter_cons_of_neg (by simpa), List.map_cons, List.sum_cons, hp, Nat.zero_add]
      exact ih
    · rw [counted, List.filter_cons_of_pos (by simpa), List.map_cons, List.sum_cons, List.map_cons,
        List.sum_cons]
      exact congrArg (p.2 + ·) ih

theorem lane_mergeCompositionKway {parts : List (Word × Nat)} {i : Nat} (hi : i < 8) :
    lane (mergeCompositionKway parts) i =
      if (parts.map Prod.snd).sum = 0 then 0
      else quantizeLane ((counted parts).map fun p => p.2 * lane p.1 i).sum
        (parts.map Prod.snd).sum ((counted parts).any fun p => 0 < lane p.1 i) := by
  rw [mergeCompositionKway_eq, sum_counted]
  simp only
  split
  · exact lane_zero i
  · exact lane_pack (fun i => quantizeLane_lt _ _ _) hi

/-- A lane survives a merge exactly when a part that counts has it. -/
theorem lane_mergeCompositionKway_pos {parts : List (Word × Nat)} {i : Nat} (hi : i < 8) :
    0 < lane (mergeCompositionKway parts) i ↔ ∃ p ∈ parts, p.2 ≠ 0 ∧ 0 < lane p.1 i := by
  rw [lane_mergeCompositionKway hi]
  constructor
  · intro h
    by_contra hno
    have hnone : ∀ p ∈ counted parts, lane p.1 i = 0 := by
      intro p hp
      obtain ⟨hmem, hn⟩ := counted_of_mem.mp hp
      by_contra hl
      exact hno ⟨p, hmem, hn, Nat.pos_of_ne_zero hl⟩
    have hsum : ((counted parts).map fun p => p.2 * lane p.1 i).sum = 0 := by
      apply List.sum_eq_zero
      intro x hx
      obtain ⟨p, hp, rfl⟩ := List.mem_map.mp hx
      rw [hnone p hp, Nat.mul_zero]
    have hany : ((counted parts).any fun p => 0 < lane p.1 i) = false := by
      rw [List.any_eq_false]
      intro p hp
      rw [hnone p hp]
      decide
    rw [hsum, hany, quantizeLane_absent, ite_self] at h
    exact absurd h (Nat.lt_irrefl 0)
  · intro ⟨p, hp, hn, hl⟩
    have htotal : (parts.map Prod.snd).sum ≠ 0 := fun h0 =>
      hn (List.sum_eq_zero_iff.mp h0 _ (List.mem_map_of_mem hp))
    have hany : ((counted parts).any fun p => 0 < lane p.1 i) = true :=
      List.any_eq_true.mpr ⟨p, counted_of_mem.mpr ⟨hp, hn⟩, decide_eq_true hl⟩
    rw [if_neg htotal, hany]
    exact Nat.pos_of_ne_zero (quantizeLane_present _ _)

/-- A leaf has the lanes it counted. -/
theorem quantizeCount_pos {n count : Nat} : 0 < quantizeCount n count ↔ 0 < count := by
  have hk : 0 ≤ rint (255 * (count : ℚ) / n) := rint_nonneg (by positivity)
  constructor
  · intro h
    by_contra hz
    have hzero : count = 0 := Nat.eq_zero_of_not_pos hz
    subst hzero
    have hr : rint 0 = 0 := rint_intCast 0
    simp [quantizeCount, hr] at h
  · intro h
    simp only [quantizeCount, h, true_and]
    split <;> omega

theorem quantizeCount_lt (n count : Nat) : quantizeCount n count < 256 := by
  simp only [quantizeCount]
  omega

/-- A list of eight counts as its lanes. -/
theorem range_counts {counts : List Nat} (h : counts.length = 8) :
    (List.range 8).map (fun i => counts.getD i 0) = counts := by
  apply List.ext_getElem
  · rw [List.length_map, List.length_range, h]
  · intro k _ hk
    rw [List.getElem_map, List.getElem_range, List.getD_eq_getElem _ _ hk]

/-- The lanes of a packed quantization. -/
theorem lane_pack_quantize {counts : List Nat} (h : counts.length = 8) {n : Nat} (hn : n ≠ 0)
    {i : Nat} (hi : i < 8) :
    lane (pack (quantize counts n)) i = quantizeCount n (counts.getD i 0) := by
  have hmap : counts.map (quantizeCount n) =
      (List.range 8).map fun i => quantizeCount n (counts.getD i 0) := by
    conv_lhs => rw [← range_counts h]
    exact List.map_map
  rw [quantize, if_neg hn, hmap]
  exact lane_pack (fun _ => quantizeCount_lt ..) hi

theorem Leaf.lane_word (leaf : Leaf) {i : Nat} (hi : i < 8) :
    lane leaf.word i = quantizeCount leaf.n (leaf.counts.getD i 0) :=
  lane_pack_quantize leaf.lanes (Nat.ne_of_gt leaf.positive) hi

end Merges

section Trees

/-- A tree without a divisor has the empty word. -/
theorem part_of_empty : ∀ {t : CompositionTree}, t.part.2 = 0 → t.part.1 = 0
  | .leaf l, h => absurd h (Nat.ne_of_gt l.positive)
  | .binary l r, h => by
    obtain ⟨hl, hr⟩ := Nat.add_eq_zero_iff.mp h
    show mergeComposition l.part.1 l.part.2 r.part.1 r.part.2 = 0
    rw [mergeComposition, if_pos hl]
    exact part_of_empty hr
  | .kway ts, h => by
    have hsum : ((CompositionTree.parts ts).map Prod.snd).sum = 0 := h
    show mergeCompositionKway (CompositionTree.parts ts) = 0
    rw [mergeCompositionKway_eq, sum_counted]
    exact if_pos hsum

theorem mergeComposition_comm {wordA wordB : Word} {nA nB : Nat}
    (h : nA = 0 → nB = 0 → wordA = wordB) :
    mergeComposition wordB nB wordA nA = mergeComposition wordA nA wordB nB := by
  by_cases hboth : nA = 0 ∧ nB = 0
  · rw [h hboth.1 hboth.2, hboth.1, hboth.2]
  · have hne : nA ≠ 0 ∨ nB ≠ 0 := Decidable.not_and_iff_or_not.mp hboth
    rw [mergeComposition_eq hne, mergeComposition_eq hne.symm]
    exact mergeCompositionKway_perm (.swap ..)

mutual

/-- The order of the arguments does not matter at any node. -/
theorem reordered_part {t t' : CompositionTree} : Reordered t t' → t'.part = t.part
  | .leaf l => rfl
  | .binary hl hr => by
    rw [CompositionTree.part, CompositionTree.part, reordered_part hl, reordered_part hr]
  | .swap hl hr => by
    rw [CompositionTree.part, CompositionTree.part, reordered_part hl, reordered_part hr]
    refine Prod.ext (mergeComposition_comm fun hA hB => ?_) (Nat.add_comm ..)
    rw [part_of_empty hA, part_of_empty hB]
  | .kway h => by
    have hperm := reordered_parts h
    rw [CompositionTree.part, CompositionTree.part, mergeCompositionKway_perm hperm, (hperm.map Prod.snd).sum_eq]

theorem reordered_parts {ts ts' : List CompositionTree} :
    ReorderedList ts ts' → (CompositionTree.parts ts').Perm (CompositionTree.parts ts)
  | .nil => .nil
  | .cons h hs => by
    rw [CompositionTree.parts, CompositionTree.parts, reordered_part h]
    exact (reordered_parts hs).cons _
  | .swap t u ts => .swap ..
  | .trans h h' => (reordered_parts h').trans (reordered_parts h)

end

mutual

/-- The divisor of a tree is the total of its leaves. -/
theorem divisor_eq : ∀ t : CompositionTree, t.part.2 = (t.leaves.map Leaf.n).sum
  | .leaf l => (List.sum_singleton ..).symm
  | .binary l r => by
    rw [CompositionTree.leaves, List.map_append, List.sum_append, ← divisor_eq l, ← divisor_eq r]
    rfl
  | .kway ts => divisor_parts ts

theorem divisor_parts : ∀ ts : List CompositionTree,
    ((CompositionTree.parts ts).map Prod.snd).sum = ((CompositionTree.leavesOf ts).map Leaf.n).sum
  | [] => rfl
  | t :: ts => by
    rw [CompositionTree.leavesOf, List.map_append, List.sum_append, ← divisor_eq t, ← divisor_parts ts]
    rfl

end

/-- A part that has a lane has a divisor. -/
theorem counts_of_lane {t : CompositionTree} {i : Nat} (h : 0 < lane t.part.1 i) : t.part.2 ≠ 0 := by
  intro hn
  rw [part_of_empty hn, lane_zero] at h
  exact absurd h (Nat.lt_irrefl 0)

mutual

/-- One node keeps the lanes of its children, and the leaves have those they counted. -/
theorem lane_part {i : Nat} (hi : i < 8) : ∀ t : CompositionTree,
    0 < lane t.part.1 i ↔ ∃ l ∈ t.leaves, 0 < l.counts.getD i 0
  | .leaf l => by
    have hword : 0 < lane l.word i ↔ 0 < l.counts.getD i 0 := by
      rw [l.lane_word hi]
      exact quantizeCount_pos
    show 0 < lane l.word i ↔ ∃ l' ∈ [l], 0 < l'.counts.getD i 0
    rw [hword]
    simp
  | .binary l r => by
    have hl := lane_part hi l
    have hr := lane_part hi r
    have hnode : 0 < lane (CompositionTree.binary l r).part.1 i ↔
        0 < lane l.part.1 i ∨ 0 < lane r.part.1 i := by
      show 0 < lane (mergeComposition l.part.1 l.part.2 r.part.1 r.part.2) i ↔ _
      by_cases hne : l.part.2 ≠ 0 ∨ r.part.2 ≠ 0
      · rw [mergeComposition_eq hne, lane_mergeCompositionKway_pos hi]
        constructor
        · intro ⟨p, hp, _, hlane⟩
          cases List.mem_pair.mp hp with
          | inl he =>
            rw [he] at hlane
            exact .inl hlane
          | inr he =>
            rw [he] at hlane
            exact .inr hlane
        · intro h
          cases h with
          | inl h => exact ⟨_, .head _, counts_of_lane h, h⟩
          | inr h => exact ⟨_, .tail _ (.head _), counts_of_lane h, h⟩
      · have hzero : l.part.2 = 0 ∧ r.part.2 = 0 := by omega
        rw [mergeComposition, if_pos hzero.1, part_of_empty hzero.1, part_of_empty hzero.2,
          lane_zero]
        decide
    rw [hnode, hl, hr, CompositionTree.leaves]
    simp only [List.mem_append, or_and_right, exists_or]
  | .kway ts => by
    rw [CompositionTree.leaves, ← lane_parts hi ts]
    exact lane_mergeCompositionKway_pos hi

theorem lane_parts {i : Nat} (hi : i < 8) : ∀ ts : List CompositionTree,
    (∃ p ∈ CompositionTree.parts ts, p.2 ≠ 0 ∧ 0 < lane p.1 i) ↔
      ∃ l ∈ CompositionTree.leavesOf ts, 0 < l.counts.getD i 0
  | [] => by simp [CompositionTree.parts, CompositionTree.leavesOf]
  | t :: ts => by
    have hhead : t.part.2 ≠ 0 ∧ 0 < lane t.part.1 i ↔ 0 < lane t.part.1 i :=
      and_iff_right_of_imp counts_of_lane
    rw [CompositionTree.parts, CompositionTree.leavesOf, List.exists_mem_cons_iff, hhead, lane_part hi t,
      lane_parts hi ts]
    simp only [List.mem_append, or_and_right, exists_or]

end

/-- What a tree of merges keeps: the divisor, the lanes that any leaf counted in, and the word
under every order of the arguments. -/
structure Presence (part : CompositionTree → Word × Nat) (t : CompositionTree) : Prop where
  divisor : (part t).2 = (t.leaves.map Leaf.n).sum
  lanes : ∀ i < 8, 0 < lane (part t).1 i ↔ ∃ l ∈ t.leaves, 0 < l.counts.getD i 0
  order : ∀ t', Reordered t t' → part t' = part t

theorem presence_part (t : CompositionTree) : Presence CompositionTree.part t :=
  ⟨divisor_eq t, fun _ hi => lane_part hi t, fun _ => reordered_part⟩

end Trees

end Zagg.Stats
