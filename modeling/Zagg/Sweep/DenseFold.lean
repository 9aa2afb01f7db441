import Mathlib.Data.BitVec
import Zagg.Lib.FillFold
import Zagg.Stage.Fields

/-!
# Dense folds of integer slabs

A slab of an exact field is folded `factor` cells to one by the field's law. The fill
marks the cells without data, and it is one of the values the law can return: a minimum or
a maximum is never the fill, but a sum can be, and the next fold then leaves that group out.
-/
namespace Zagg.Sweep

open Zagg.Lib Zagg.Stage

/-- An integer dtype. -/
structure IntType where
  width : Nat
  signed : Bool
  width_mem : width ∈ [8, 16, 32, 64]
deriving DecidableEq

abbrev IntType.Value (t : IntType) := BitVec t.width

def int32 : IntType := ⟨32, true, by decide⟩

namespace IntType

variable (t : IntType)

def toInt (v : t.Value) : Int := if t.signed then v.toInt else v.toNat

def minimum (x y : t.Value) : t.Value := if t.toInt x ≤ t.toInt y then x else y

def maximum (x y : t.Value) : t.Value := if t.toInt x ≤ t.toInt y then y else x

/-- `np.iinfo(dtype).max`. -/
def iinfoMax : t.Value := if t.signed then BitVec.intMax t.width else BitVec.allOnes t.width

/-- `np.iinfo(dtype).min`. -/
def iinfoMin : t.Value := if t.signed then BitVec.intMin t.width else 0

/-- What numpy fixes for an integer dtype; sums wrap. -/
def dtype : Dtype t.Value :=
  ⟨fun _ => false, (· + ·), t.minimum, t.maximum, 0, t.iinfoMax, t.iinfoMin⟩

/-- A value in the 64-bit accumulator of its signedness. -/
def widen (v : t.Value) : BitVec 64 := if t.signed then v.signExtend 64 else v.setWidth 64

/-- `np.add.reduce`: the sum of a row, in the accumulator. -/
def addReduce (row : List t.Value) : BitVec 64 := (row.map t.widen).foldl (· + ·) 0

/-- `_LAW_REDUCERS[law].reduce` of one row, cast back to the dtype. -/
def reduceRow (law : Law) (row : List t.Value) : t.Value :=
  match law with
  | .sum => (t.addReduce row).setWidth t.width
  | .min => row.foldl t.minimum t.iinfoMax
  | .max => row.foldl t.maximum t.iinfoMin

/-- One row of `fold_dense`: missing cells are replaced by the identity, and a row of
nothing else is the fill. -/
def foldRow (law : Law) (fill : t.Value) (row : List t.Value) : t.Value :=
  if row.all (· == fill) then fill
  else t.reduceRow law (row.map fun v => if v = fill then law.identity t.dtype else v)

/-- `fold_dense` of an integer slab; `len` and `count` fields fold by `sum`. -/
def foldDense (values : List t.Value) (factor : Int) (law : Law) (fill : t.Value) :
    Except String (List t.Value) :=
  if factor ≤ 0 ∨ (values.length : Int) % factor ≠ 0 then
    .error s!"cannot fold {values.length} cells {factor}-to-one"
  else .ok ((blocks values factor.toNat).map (t.foldRow law fill))

/-- `np.stack([a, b], axis=1).reshape(-1)`. -/
def interleave (a b : List t.Value) : List t.Value := (a.zip b).flatMap fun p => [p.1, p.2]

/-- `combine_dense`. -/
def combineDense (a b : List t.Value) (law : Law) (fill : t.Value) :
    Except String (List t.Value) :=
  if a.length ≠ b.length then .error "all input arrays must have the same shape"
  else t.foldDense (t.interleave a b) 2 law fill

end IntType

section Reduction
variable (t : IntType)

theorem width_le : t.width ≤ 64 ∧ 8 ≤ t.width := by
  have hmem := t.width_mem
  simp only [List.mem_cons, List.not_mem_nil, or_false] at hmem
  omega

theorem setWidth_widen (v : t.Value) : (t.widen v).setWidth t.width = v := by
  have hle := (width_le t).1
  unfold IntType.widen
  split
  · apply BitVec.eq_of_getLsbD_eq
    intro i hi
    have h64 : i < 64 := by omega
    simp only [BitVec.getLsbD_setWidth, BitVec.getLsbD_signExtend, hi, h64, decide_true,
      Bool.true_and, if_true]
  · exact (BitVec.setWidth_setWidth_of_le v hle).trans (BitVec.setWidth_eq v)

/-- The accumulator does not show: the sum is the dtype's own, wrapped. -/
theorem setWidth_addReduce (row : List t.Value) :
    (t.addReduce row).setWidth t.width = row.foldl (· + ·) 0 := by
  have hhom : (row.map t.widen).foldl (fun x y => x + y.setWidth t.width)
      ((0 : BitVec 64).setWidth t.width) =
        ((row.map t.widen).foldl (· + ·) (0 : BitVec 64)).setWidth t.width :=
    List.foldl_hom (BitVec.setWidth t.width)
      fun x y => (BitVec.setWidth_add x y (width_le t).1).symm
  have hzero : (0 : BitVec 64).setWidth t.width = 0 := BitVec.setWidth_zero ..
  rw [IntType.addReduce, ← hhom, List.foldl_map, hzero]
  simp only [setWidth_widen]

theorem toInt_inj {x y : t.Value} (h : t.toInt x = t.toInt y) : x = y := by
  unfold IntType.toInt at h
  split at h
  · exact BitVec.toInt_inj.mp h
  · exact BitVec.eq_of_toNat_eq (Int.ofNat_inj.mp h)

theorem toInt_le_iinfoMax (v : t.Value) : t.toInt v ≤ t.toInt t.iinfoMax := by
  unfold IntType.toInt IntType.iinfoMax
  split
  · rw [BitVec.toInt_intMax]
    exact BitVec.toInt_le
  · rw [BitVec.toNat_allOnes]
    have hlt := v.isLt
    omega

theorem iinfoMin_le_toInt (v : t.Value) : t.toInt t.iinfoMin ≤ t.toInt v := by
  unfold IntType.toInt IntType.iinfoMin
  split
  · exact BitVec.toInt_intMin_le v
  · exact Int.natCast_nonneg _

theorem toInt_minimum (x y : t.Value) : t.toInt (t.minimum x y) = min (t.toInt x) (t.toInt y) := by
  unfold IntType.minimum
  split <;> omega

theorem toInt_maximum (x y : t.Value) : t.toInt (t.maximum x y) = max (t.toInt x) (t.toInt y) := by
  unfold IntType.maximum
  split <;> omega

instance (law : Law) : Std.Associative (law.reduce t.dtype) where
  assoc x y z := by
    cases law with
    | sum => exact add_assoc x y z
    | min =>
      apply toInt_inj
      show t.toInt (t.minimum (t.minimum x y) z) = t.toInt (t.minimum x (t.minimum y z))
      rw [toInt_minimum, toInt_minimum, toInt_minimum, toInt_minimum, min_assoc]
    | max =>
      apply toInt_inj
      show t.toInt (t.maximum (t.maximum x y) z) = t.toInt (t.maximum x (t.maximum y z))
      rw [toInt_maximum, toInt_maximum, toInt_maximum, toInt_maximum, max_assoc]

instance (law : Law) : Std.Commutative (law.reduce t.dtype) where
  comm x y := by
    cases law with
    | sum => exact add_comm x y
    | min =>
      apply toInt_inj
      show t.toInt (t.minimum x y) = t.toInt (t.minimum y x)
      rw [toInt_minimum, toInt_minimum, min_comm]
    | max =>
      apply toInt_inj
      show t.toInt (t.maximum x y) = t.toInt (t.maximum y x)
      rw [toInt_maximum, toInt_maximum, max_comm]

theorem reduce_identity (law : Law) (v : t.Value) :
    law.reduce t.dtype v (law.identity t.dtype) = v := by
  cases law with
  | sum => exact add_zero v
  | min =>
    apply toInt_inj
    show t.toInt (t.minimum v t.iinfoMax) = t.toInt v
    rw [toInt_minimum]
    exact min_eq_left (toInt_le_iinfoMax t v)
  | max =>
    apply toInt_inj
    show t.toInt (t.maximum v t.iinfoMin) = t.toInt v
    rw [toInt_maximum]
    exact max_eq_left (iinfoMin_le_toInt t v)

instance (law : Law) : Std.LawfulIdentity (law.reduce t.dtype) (law.identity t.dtype) where
  left_id v := (Std.Commutative.comm _ v).trans (reduce_identity t law v)
  right_id v := reduce_identity t law v

theorem reduceRow_eq (law : Law) (row : List t.Value) :
    t.reduceRow law row = row.foldl (law.reduce t.dtype) (law.identity t.dtype) := by
  cases law with
  | sum => exact setWidth_addReduce t row
  | min => rfl
  | max => rfl

/-- Cells replaced by the identity leave the reduction. -/
theorem foldl_identity (law : Law) (fill a : t.Value) (row : List t.Value) :
    (row.map fun v => if v = fill then law.identity t.dtype else v).foldl (law.reduce t.dtype) a =
      (shown fill row).foldl (law.reduce t.dtype) a := by
  induction row generalizing a with
  | nil => rfl
  | cons v row ih =>
    rw [List.map_cons, List.foldl_cons, ih]
    by_cases hv : v = fill
    · rw [if_pos hv, reduce_identity, shown, shown, List.filter_cons_of_neg (by simp [hv])]
    · rw [if_neg hv, shown, shown, List.filter_cons_of_pos (by simp [hv]), List.foldl_cons]

theorem foldRow_eq (law : Law) (fill : t.Value) (row : List t.Value) :
    t.foldRow law fill row = fillFold (law.reduce t.dtype) (law.identity t.dtype) fill row := by
  have hall : row.all (· == fill) = true ↔ shown fill row = [] := by
    rw [List.all_eq_true, shown, List.filter_eq_nil_iff]
    apply forall₂_congr
    intro v _
    simp
  by_cases hs : shown fill row = []
  · rw [IntType.foldRow, if_pos (hall.mpr hs), fillFold, if_pos hs]
  · rw [IntType.foldRow, if_neg fun h => hs (hall.mp h), reduceRow_eq, foldl_identity, fillFold,
      if_neg hs]

/-- An integer is missing when it is the fill, so a row folds as a group of the stage fold. -/
theorem foldRow_eq_foldGroup (law : Law) (fill : t.Value) (row : List t.Value) :
    t.foldRow law fill row = foldGroup t.dtype law fill row := by
  have hmissing : isMissing t.dtype fill = fun v => v == fill := by
    funext v
    rw [isMissing, IntType.dtype, Bool.false_or]
    rfl
  unfold IntType.foldRow foldGroup
  rw [hmissing, reduceRow_eq]
  simp only [beq_iff_eq]

end Reduction

section Composition
variable (t : IntType) (law : Law) (fill : t.Value)

theorem foldDense_ok {values : List t.Value} {n : Nat} (hn : 0 < n) (h : n ∣ values.length) :
    t.foldDense values n law fill = .ok ((blocks values n).map (t.foldRow law fill)) := by
  have hfactor : ¬ ((n : Int) ≤ 0 ∨ (values.length : Int) % n ≠ 0) := by
    have hmod := Int.emod_eq_zero_of_dvd (Int.natCast_dvd_natCast.mpr h)
    omega
  rw [IntType.foldDense, if_neg hfactor, Int.toNat_natCast]

theorem of_foldDense {values out : List t.Value} {factor : Int}
    (h : t.foldDense values factor law fill = .ok out) :
    out = (blocks values factor.toNat).map (t.foldRow law fill) := by
  unfold IntType.foldDense at h
  split at h
  · cases h
  · cases h
    rfl

/-- The slab fold is the stage fold of its dtype, cell by cell. -/
theorem of_foldDense_stage {values out : List t.Value} {factor : Nat}
    (h : t.foldDense values factor law fill = .ok out) :
    out = (List.range (values.length / factor)).map
      (Stage.foldDense t.dtype law fill factor fun i => values.getD i fill) := by
  have hvalid : 0 < factor ∧ factor ∣ values.length := by
    unfold IntType.foldDense at h
    split at h
    · cases h
    · omega
  obtain ⟨hpos, k, hk⟩ := hvalid
  rw [of_foldDense t law fill h, Int.toNat_natCast, blocks, steps, List.map_map, List.map_map, hk,
    Nat.mul_div_cancel_left k hpos,
    Nat.div_eq_of_lt_le (k := k) (by rw [Nat.mul_comm]; omega) (by rw [Nat.succ_mul, Nat.mul_comm]; omega)]
  refine List.map_congr_left fun j hj => ?_
  show t.foldRow law fill _ = foldGroup t.dtype law fill _
  rw [foldRow_eq_foldGroup]
  congr 1
  -- the block of cell `j` is read cell by cell
  have hle : j * factor + factor ≤ values.length := by
    have := Nat.mul_le_mul_right factor (List.mem_range.mp hj)
    rw [hk, Nat.mul_comm factor k, ← Nat.succ_mul]
    exact this
  apply List.ext_getElem
  · rw [length_slice hle, List.length_map, List.length_range, Nat.add_sub_cancel_left]
  · intro i hi _
    rw [length_slice hle, Nat.add_sub_cancel_left] at hi
    simp only [slice, List.getElem_take, List.getElem_drop, List.getElem_map, List.getElem_range]
    rw [List.getD_eq_getElem?_getD, List.getElem?_eq_getElem (by omega), Option.getD_some]

/-- The number of fills that a fold of `a` and then of `b` leaves out of one output cell. -/
def lostFills (row : List t.Value) (a : Nat) : Nat :=
  match law with
  | .sum => lost (· + ·) 0 fill (blocks row a)
  | .min => 0
  | .max => 0

/-- No output cell of a fold of `a` and then of `b` misses anything. -/
def Composes (values : List t.Value) (a b : Nat) : Prop :=
  ∀ row ∈ blocks values (a * b), BitVec.ofNat t.width (lostFills t law fill row a) * fill = 0

instance (values : List t.Value) (a b : Nat) : Decidable (Composes t law fill values a b) :=
  inferInstanceAs (Decidable (∀ row ∈ _, _))

theorem not_hides_minimum (cells : List t.Value) :
    ¬ Hides (Law.min.reduce t.dtype) (Law.min.identity t.dtype) fill cells := by
  apply not_hides
  intro x y
  show t.minimum x y = x ∨ t.minimum x y = y
  unfold IntType.minimum
  split
  · exact .inl rfl
  · exact .inr rfl

theorem not_hides_maximum (cells : List t.Value) :
    ¬ Hides (Law.max.reduce t.dtype) (Law.max.identity t.dtype) fill cells := by
  apply not_hides
  intro x y
  show t.maximum x y = x ∨ t.maximum x y = y
  unfold IntType.maximum
  split
  · exact .inr rfl
  · exact .inl rfl

/-- One output cell folded in two steps. -/
theorem foldRow_foldRow_iff {a : Nat} (ha : 0 < a) (row : List t.Value) :
    t.foldRow law fill ((blocks row a).map (t.foldRow law fill)) = t.foldRow law fill row ↔
      BitVec.ofNat t.width (lostFills t law fill row a) * fill = 0 := by
  have hfold : t.foldRow law fill =
      fillFold (law.reduce t.dtype) (law.identity t.dtype) fill := by
    funext r
    exact foldRow_eq t law fill r
  have hflat := flatten_blocks ha row
  rw [hfold]
  cases law with
  | sum =>
    have hiff := fillFold_add_flatten_iff fill (blocks row a)
    rw [hflat, nsmul_eq_mul] at hiff
    exact hiff
  | min =>
    have heq := fillFold_flatten (blocks row a) fun g _ => not_hides_minimum t fill g
    rw [hflat] at heq
    exact iff_of_true heq (BitVec.zero_mul ..)
  | max =>
    have heq := fillFold_flatten (blocks row a) fun g _ => not_hides_maximum t fill g
    rw [hflat] at heq
    exact iff_of_true heq (BitVec.zero_mul ..)

/-- Folding by `a` and then by `b` is folding by `a * b` exactly when no fill is left out. -/
theorem foldDense_foldDense_iff {values : List t.Value} {a b : Nat} (ha : 0 < a) (hb : 0 < b)
    (h : a * b ∣ values.length) :
    (t.foldDense values a law fill >>= fun part => t.foldDense part b law fill) =
        t.foldDense values (a * b : Nat) law fill ↔
      Composes t law fill values a b := by
  have hpart : b ∣ ((blocks values a).map (t.foldRow law fill)).length := by
    obtain ⟨k, hk⟩ := h
    have hlen : (blocks values a).length = b * k := by
      apply length_blocks ha
      rw [hk, Nat.mul_comm a b, Nat.mul_right_comm]
    rw [List.length_map, hlen]
    exact Nat.dvd_mul_right b k
  rw [foldDense_ok t law fill ha (dvd_of_mul_right_dvd h),
    foldDense_ok t law fill (Nat.mul_pos ha hb) h]
  show t.foldDense _ b law fill = _ ↔ _
  rw [foldDense_ok t law fill hb hpart, blocks_map, ← map_blocks ha hb h, List.map_map,
    List.map_map, Except.ok.injEq, List.map_inj_left]
  apply forall₂_congr
  intro row _
  exact foldRow_foldRow_iff t law fill ha row

/-- Equal shown cells fold to equal cells. -/
theorem foldRow_congr {row row' : List t.Value} (h : shown fill row = shown fill row') :
    t.foldRow law fill row = t.foldRow law fill row' := by
  rw [foldRow_eq, foldRow_eq, fillFold_congr h]

theorem blocks_interleave (x y : List t.Value) :
    blocks (t.interleave x y) 2 = (x.zip y).map fun p => [p.1, p.2] := by
  rw [IntType.interleave]
  induction x.zip y with
  | nil => exact blocks_nil (by decide)
  | cons p ps ih =>
    rw [List.flatMap_cons, List.map_cons, ← ih]
    exact blocks_cons (by decide) nofun

theorem combineDense_ok {x y : List t.Value} (h : x.length = y.length) :
    t.combineDense x y law fill = .ok ((x.zip y).map fun p => t.foldRow law fill [p.1, p.2]) := by
  have hlen : 2 ∣ (t.interleave x y).length := by
    rw [IntType.interleave, List.length_flatMap]
    exact ⟨(x.zip y).length, by simp [Nat.mul_comm]⟩
  have hok := foldDense_ok t law fill (by decide : 0 < 2) hlen
  rw [blocks_interleave, List.map_map] at hok
  rw [IntType.combineDense, if_neg (not_not.mpr h)]
  exact hok

theorem combineDense_comm (x y : List t.Value) :
    t.combineDense x y law fill = t.combineDense y x law fill := by
  by_cases h : x.length = y.length
  · rw [combineDense_ok t law fill h, combineDense_ok t law fill h.symm, ← List.zip_swap x y,
      List.map_map]
    congr 1
    apply List.map_congr_left
    intro p _
    show t.foldRow law fill [p.1, p.2] = t.foldRow law fill [p.2, p.1]
    have hcomm : law.reduce t.dtype p.1 p.2 = law.reduce t.dtype p.2 p.1 :=
      Std.Commutative.comm p.1 p.2
    rw [foldRow_eq, foldRow_eq, fillFold_pair, fillFold_pair, hcomm]
    split <;> split <;> simp_all
  · rw [IntType.combineDense, if_pos h, IntType.combineDense, if_pos fun h' => h h'.symm]

/-- No cell of three slabs is combined with a pair that adds up to the fill, unless on either
side. -/
def Associates (x y z : List t.Value) : Prop :=
  law = .sum → fill ≠ 0 → ∀ p ∈ x.zip (y.zip z),
    p.1 ≠ fill → p.2.1 ≠ fill → p.2.2 ≠ fill → (p.1 + p.2.1 = fill ↔ p.2.1 + p.2.2 = fill)

theorem foldRow_pair_assoc_iff (x y z : t.Value) :
    t.foldRow law fill [t.foldRow law fill [x, y], z] =
        t.foldRow law fill [x, t.foldRow law fill [y, z]] ↔
      (law = .sum → fill ≠ 0 → x ≠ fill → y ≠ fill → z ≠ fill →
        (x + y = fill ↔ y + z = fill)) := by
  rw [foldRow_eq, foldRow_eq, foldRow_eq, foldRow_eq]
  cases law with
  | sum =>
    have hiff := fillFold_add_assoc_iff fill x y z
    exact hiff.trans ⟨fun h _ => h, fun h => h rfl⟩
  | min => exact iff_of_true (fillFold_pair_assoc (not_hides_minimum t fill) x y z) nofun
  | max => exact iff_of_true (fillFold_pair_assoc (not_hides_maximum t fill) x y z) nofun

theorem zip_map_zip {α : Type} (f : α → α → α) (x y z : List α) :
    ((x.zip y).map fun p => f p.1 p.2).zip z =
        (x.zip (y.zip z)).map (fun p => (f p.1 p.2.1, p.2.2)) ∧
      x.zip ((y.zip z).map fun p => f p.1 p.2) =
        (x.zip (y.zip z)).map fun p => (p.1, f p.2.1 p.2.2) := by
  induction x generalizing y z with
  | nil => exact ⟨rfl, rfl⟩
  | cons u x ih =>
    cases y with
    | nil => exact ⟨rfl, rfl⟩
    | cons v y =>
      cases z with
      | nil => exact ⟨rfl, rfl⟩
      | cons w z =>
        obtain ⟨hleft, hright⟩ := ih y z
        simp only [List.zip_cons_cons, List.map_cons, hleft, hright, and_self]

/-- Combining associates exactly when no cell has one pair of neighbours that adds up to
the fill. -/
theorem combineDense_assoc_iff {x y z : List t.Value} (hxy : x.length = y.length)
    (hyz : y.length = z.length) :
    (t.combineDense x y law fill >>= fun xy => t.combineDense xy z law fill) =
        (t.combineDense y z law fill >>= fun yz => t.combineDense x yz law fill) ↔
      Associates t law fill x y z := by
  obtain ⟨hleft, hright⟩ := zip_map_zip (fun u v => t.foldRow law fill [u, v]) x y z
  have hlenl : ((x.zip y).map fun p => t.foldRow law fill [p.1, p.2]).length = z.length := by
    rw [List.length_map, List.length_zip, hxy, hyz, Nat.min_self]
  have hlenr : x.length = ((y.zip z).map fun p => t.foldRow law fill [p.1, p.2]).length := by
    rw [List.length_map, List.length_zip, hxy, hyz, Nat.min_self]
  rw [combineDense_ok t law fill hxy, combineDense_ok t law fill hyz]
  show t.combineDense _ z law fill = t.combineDense x _ law fill ↔ _
  rw [combineDense_ok t law fill hlenl, combineDense_ok t law fill hlenr, hleft, hright,
    List.map_map, List.map_map, Except.ok.injEq, List.map_inj_left]
  constructor
  · intro h hlaw hne p hp
    exact (foldRow_pair_assoc_iff t law fill p.1 p.2.1 p.2.2).mp (h p hp) hlaw hne
  · intro h p hp
    exact (foldRow_pair_assoc_iff t law fill p.1 p.2.1 p.2.2).mpr
      fun hlaw hne => h hlaw hne p hp

theorem exists_other : ∃ x : t.Value, x ≠ 0 ∧ x ≠ fill := by
  obtain ⟨width, signed, hmem⟩ := t
  have hbits : (1 : BitVec width) ≠ 0 ∧ (2 : BitVec width) ≠ 0 ∧ (2 : BitVec width) ≠ 1 := by
    simp only [List.mem_cons, List.not_mem_nil, or_false] at hmem
    obtain rfl | rfl | rfl | rfl := hmem <;> decide
  by_cases h : fill = (1 : BitVec width)
  · exact ⟨(2 : BitVec width), hbits.2.1, fun h2 => hbits.2.2 (h2.trans h)⟩
  · exact ⟨(1 : BitVec width), hbits.1, fun h1 => h h1.symm⟩

/-- Two cells that are not the fill can add up to it. -/
theorem exists_cancel : ∃ x y : t.Value, x ≠ fill ∧ y ≠ fill ∧ x + y = fill := by
  obtain ⟨x, hzero, hx⟩ := exists_other t fill
  exact ⟨x, fill - x, hx, fun hy => hzero (sub_eq_self.mp hy), add_sub_cancel x fill⟩

/-- With a fill other than zero, some slab of sums loses a group between two folds. -/
theorem exists_not_composes (h : fill ≠ 0) :
    ∃ values : List t.Value, 4 ∣ values.length ∧ ¬ Composes t .sum fill values 2 2 := by
  obtain ⟨x, y, hx, hy, hxy⟩ := exists_cancel t fill
  have hblocks := blocks_interleave t [x, 0] [y, fill]
  have hrow : [x, y, 0, fill] ∈ blocks [x, y, 0, fill] 4 := by
    rw [blocks_cons (l := [x, y, 0, fill]) (by decide : 0 < 4) (by simp)]
    exact .head _
  refine ⟨[x, y, 0, fill], ⟨1, rfl⟩, fun hall => ?_⟩
  have hfold := (foldRow_foldRow_iff t .sum fill (by decide : 0 < 2) _).mpr (hall _ hrow)
  have hpair : t.foldRow .sum fill [x, y] = fill := by
    rw [foldRow_eq, fillFold_pair, if_neg hx, if_neg hy]
    exact hxy
  have hzero : t.foldRow .sum fill [0, fill] = 0 := by
    rw [foldRow_eq, fillFold_pair, if_neg h.symm, if_pos rfl]
  have hflat : t.foldRow .sum fill [x, y, 0, fill] = fill := by
    have hshown : shown fill [x, y, 0, fill] = [x, y, 0] := by
      rw [shown_cons_of_ne hx, shown_cons_of_ne hy, shown_cons_of_ne h.symm, shown_cons_self]
      rfl
    rw [foldRow_eq, fillFold, hshown, if_neg (fun h => by cases h)]
    show 0 + x + y + 0 = fill
    rw [zero_add, add_zero, hxy]
  have hlist : blocks [x, y, 0, fill] 2 = [[x, y], [0, fill]] := hblocks
  rw [hlist, List.map_cons, List.map_cons, List.map_nil, hpair, hzero, hflat, foldRow_eq,
    fillFold_pair, if_pos rfl] at hfold
  exact h hfold.symm

theorem exists_not_associates (h : fill ≠ 0) :
    ∃ x y z : List t.Value, x.length = y.length ∧ y.length = z.length ∧
      ¬ Associates t .sum fill x y z := by
  obtain ⟨x, y, hx, hy, hxy⟩ := exists_cancel t fill
  refine ⟨[x], [y], [0], rfl, rfl, fun hall => ?_⟩
  have hpair := hall rfl h (x, y, 0) (.head _) hx hy h.symm
  exact hy (by rw [← add_zero y]; exact hpair.mp hxy)

theorem lostFills_of_ne (hlaw : law ≠ .sum) (row : List t.Value) (a : Nat) :
    lostFills t law fill row a = 0 := by
  cases law with
  | sum => exact absurd rfl hlaw
  | min => rfl
  | max => rfl

theorem composes_of {values : List t.Value} {a b : Nat} (h : law ≠ .sum ∨ fill = 0) :
    Composes t law fill values a b := by
  intro row _
  cases h with
  | inl hlaw => rw [lostFills_of_ne t law fill hlaw, BitVec.ofNat_eq_ofNat, BitVec.zero_mul]
  | inr hfill => rw [hfill, mul_zero]

end Composition

/-- The exact laws of dense folds over integer slabs. -/
theorem foldDense_laws (t : IntType) (law : Law) (fill : t.Value) :
    -- folding in two steps, slab by slab and over all slabs
    (∀ (values : List t.Value) (a b : Nat), 0 < a → 0 < b → a * b ∣ values.length →
      ((t.foldDense values a law fill >>= fun part => t.foldDense part b law fill) =
          t.foldDense values (a * b : Nat) law fill ↔ Composes t law fill values a b)) ∧
    ((∀ (values : List t.Value) (a b : Nat), 0 < a → 0 < b → a * b ∣ values.length →
      (t.foldDense values a law fill >>= fun part => t.foldDense part b law fill) =
          t.foldDense values (a * b : Nat) law fill) ↔ law ≠ .sum ∨ fill = 0) ∧
    -- the fill
    (∀ (values out : List t.Value) (factor : Int), t.foldDense values factor law fill = .ok out →
      ∀ (i : Nat) (row : List t.Value), (blocks values factor.toNat)[i]? = some row →
        (∀ v ∈ row, v = fill) → out[i]? = some fill) ∧
    (∀ (values values' out out' : List t.Value) (factor factor' : Int),
      t.foldDense values factor law fill = .ok out →
      t.foldDense values' factor' law fill = .ok out' →
      ∀ (i i' : Nat) (row row' : List t.Value), (blocks values factor.toNat)[i]? = some row →
        (blocks values' factor'.toNat)[i']? = some row' →
        shown fill row = shown fill row' → out[i]? = out'[i']?) ∧
    -- combining
    (∀ x y : List t.Value, t.combineDense x y law fill = t.combineDense y x law fill) ∧
    (∀ x y : List t.Value, x.length = y.length →
      t.combineDense x y law fill = t.foldDense (t.interleave x y) 2 law fill) ∧
    (∀ x y z : List t.Value, x.length = y.length → y.length = z.length →
      ((t.combineDense x y law fill >>= fun xy => t.combineDense xy z law fill) =
          (t.combineDense y z law fill >>= fun yz => t.combineDense x yz law fill) ↔
        Associates t law fill x y z)) ∧
    ((∀ x y z : List t.Value, x.length = y.length → y.length = z.length →
      (t.combineDense x y law fill >>= fun xy => t.combineDense xy z law fill) =
          (t.combineDense y z law fill >>= fun yz => t.combineDense x yz law fill)) ↔
      law ≠ .sum ∨ fill = 0) := by
  have hstep (values : List t.Value) (a b : Nat) (ha : 0 < a) (hb : 0 < b)
      (h : a * b ∣ values.length) := foldDense_foldDense_iff t law fill ha hb h
  have hassoc (x y z : List t.Value) (hxy : x.length = y.length) (hyz : y.length = z.length) :=
    combineDense_assoc_iff t law fill hxy hyz
  refine ⟨hstep, ⟨fun hall => ?_, fun hcond values a b ha hb h => ?_⟩, ?_, ?_,
    combineDense_comm t law fill, ?_, hassoc, ⟨fun hall => ?_, fun hcond x y z hxy hyz => ?_⟩⟩
  · by_contra hcond
    obtain ⟨hlaw, hfill⟩ := not_or.mp hcond
    cases not_not.mp hlaw
    obtain ⟨values, h, hnot⟩ := exists_not_composes t fill hfill
    exact hnot ((hstep values 2 2 (by decide) (by decide) h).mp (hall values 2 2 (by decide)
      (by decide) h))
  · exact (hstep values a b ha hb h).mpr (composes_of t law fill hcond)
  · intro values out factor hok i row hrow hfill
    rw [of_foldDense t law fill hok, List.getElem?_map, hrow, Option.map_some, foldRow_eq,
      fillFold_of_all hfill]
  · intro values values' out out' factor factor' hok hok' i i' row row' hrow hrow' hshown
    rw [of_foldDense t law fill hok, of_foldDense t law fill hok', List.getElem?_map,
      List.getElem?_map, hrow, hrow', Option.map_some, Option.map_some,
      foldRow_congr t law fill hshown]
  · intro x y h
    rw [IntType.combineDense, if_neg (not_not.mpr h)]
  · by_contra hcond
    obtain ⟨hlaw, hfill⟩ := not_or.mp hcond
    cases not_not.mp hlaw
    obtain ⟨x, y, z, hxy, hyz, hnot⟩ := exists_not_associates t fill hfill
    exact hnot ((hassoc x y z hxy hyz).mp (hall x y z hxy hyz))
  · apply (hassoc x y z hxy hyz).mpr
    intro hlaw hne
    cases hcond with
    | inl h => exact absurd hlaw h
    | inr h => exact absurd h hne

/-- With fill -1: a pair that misses a cell, a pair without data, and one that adds up to the
fill beside it. -/
theorem foldDense_laws_gaps :
    (int32.foldDense [1, 2, -1, 4, 2, -3, -1, -1] 2 .sum (-1) >>= fun part =>
        int32.foldDense part 2 .sum (-1)) =
      int32.foldDense [1, 2, -1, 4, 2, -3, -1, -1] 4 .sum (-1) ∧
    int32.foldDense [1, 2, -1, 4, 2, -3, -1, -1] 4 .sum (-1) = .ok [7, -1] :=
  ⟨((foldDense_laws int32 .sum (-1)).1 [1, 2, -1, 4, 2, -3, -1, -1] 2 2 (by decide) (by decide)
    (by decide)).mpr (by decide +kernel), by decide +kernel⟩

/-- The first pair adds up to the fill, and the second fold takes it for a pair without data. -/
theorem foldDense_cancelled :
    (int32.foldDense [2, -3, 5, 5] 2 .sum (-1) >>= fun part => int32.foldDense part 2 .sum (-1)) =
      .ok [10] ∧
    int32.foldDense [2, -3, 5, 5] 4 .sum (-1) = .ok [9] ∧
    (int32.foldDense [2, -3, 5, 5] 2 .sum (-1) >>= fun part => int32.foldDense part 2 .sum (-1)) ≠
      int32.foldDense [2, -3, 5, 5] 4 .sum (-1) := by
  have htwo : (int32.foldDense [2, -3, 5, 5] 2 .sum (-1) >>= fun part =>
      int32.foldDense part 2 .sum (-1)) = .ok [10] := by decide +kernel
  have hone : int32.foldDense [2, -3, 5, 5] 4 .sum (-1) = .ok [9] := by decide +kernel
  refine ⟨htwo, hone, ?_⟩
  rw [htwo, hone]
  decide

end Zagg.Sweep
