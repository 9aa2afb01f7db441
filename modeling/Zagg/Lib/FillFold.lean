import Mathlib.Algebra.BigOperators.Group.List.Basic
import Mathlib.Algebra.Order.Group.Multiset
import Mathlib.Data.Multiset.Fold
import Zagg.Lib.Ragged

/-!
# Folds that skip a fill value

A fold of a group leaves the cells that hold the fill out, and a group of nothing else
folds to the fill. The fill is a value like the others, so a group whose cells fold to it
hides them from the next fold: folding the folds of some groups is folding their
concatenation when no group hides, and for sums the difference is counted.
-/
namespace Zagg.Lib

universe u

variable {V : Type u}

section Blocks

theorem blocks_nil {size : Nat} (h : 0 < size) : blocks ([] : List V) size = [] := by
  rw [blocks, steps, List.length_nil, Nat.zero_add, Nat.div_eq_of_lt (by omega : size - 1 < size)]
  rfl

theorem blocks_cons {size : Nat} (h : 0 < size) {l : List V} (hl : l ≠ []) :
    blocks l size = l.take size :: blocks (l.drop size) size := by
  have hpos := List.length_pos_iff.mpr hl
  have hcount : (l.length + size - 1) / size = (l.length - size + size - 1) / size + 1 := by
    by_cases hle : size ≤ l.length
    · rw [show l.length + size - 1 = l.length - size + size - 1 + size by omega,
        Nat.add_div_right _ h]
    · have hzero : l.length - size = 0 := by omega
      rw [hzero, Nat.zero_add, Nat.div_eq_of_lt (by omega : size - 1 < size)]
      exact Nat.div_eq_of_lt_le (by omega) (by omega)
  rw [blocks, steps, hcount, List.range_succ_eq_map, List.map_cons, List.map_cons, blocks, steps,
    List.length_drop]
  congr 1
  · simp only [slice, Nat.zero_mul, Nat.zero_add, List.drop_zero, Nat.sub_zero]
  · simp only [List.map_map]
    apply List.map_congr_left
    intro j _
    simp only [Function.comp_apply, slice, List.drop_drop, Nat.add_sub_cancel_left, Nat.succ_mul,
      Nat.add_comm size]

theorem blocks_append {size k : Nat} (h : 0 < size) {s : List V} (hs : s.length = k * size)
    (l : List V) : blocks (s ++ l) size = blocks s size ++ blocks l size := by
  induction k generalizing s with
  | zero =>
    rw [Nat.zero_mul] at hs
    rw [List.eq_nil_of_length_eq_zero hs, blocks_nil h, List.nil_append, List.nil_append]
  | succ k ih =>
    rw [Nat.succ_mul] at hs
    have hle : size ≤ s.length := by omega
    have hne : s ≠ [] := List.length_pos_iff.mp (by omega)
    have hdrop : (s.drop size).length = k * size := by
      rw [List.length_drop]
      omega
    rw [blocks_cons h (List.append_ne_nil_of_left_ne_nil hne _), blocks_cons h hne,
      List.take_append_of_le_length hle, List.drop_append_of_le_length hle, ih hdrop,
      List.cons_append]

theorem length_blocks {size k : Nat} (h : 0 < size) {l : List V} (hl : l.length = k * size) :
    (blocks l size).length = k := by
  rw [blocks, steps, List.length_map, List.length_map, List.length_range, hl]
  exact Nat.div_eq_of_lt_le (by omega) (by rw [Nat.succ_mul]; omega)

/-- One block of `a * b` is `b` blocks of `a`. -/
theorem map_blocks {a b : Nat} (ha : 0 < a) (hb : 0 < b) {l : List V} (h : a * b ∣ l.length) :
    (blocks l (a * b)).map (fun g => blocks g a) = blocks (blocks l a) b := by
  obtain ⟨k, hk⟩ := h
  have hab : 0 < a * b := Nat.mul_pos ha hb
  induction k generalizing l with
  | zero =>
    rw [Nat.mul_zero] at hk
    rw [List.eq_nil_of_length_eq_zero hk, blocks_nil hab, blocks_nil ha, blocks_nil hb,
      List.map_nil]
  | succ k ih =>
    rw [Nat.mul_succ] at hk
    have hne : l ≠ [] := List.length_pos_iff.mp (by omega)
    have hhead : (l.take (a * b)).length = b * a := by
      rw [List.length_take, Nat.mul_comm b a]
      omega
    have hbl : (blocks (l.take (a * b)) a).length = b := length_blocks ha hhead
    have hsplit : blocks l a = blocks (l.take (a * b)) a ++ blocks (l.drop (a * b)) a := by
      rw [← blocks_append ha hhead, List.take_append_drop]
    have hne' : blocks l a ≠ [] := by
      rw [hsplit]
      exact List.append_ne_nil_of_left_ne_nil (List.length_pos_iff.mp (by omega)) _
    rw [blocks_cons hab hne, List.map_cons, ih (by rw [List.length_drop]; omega), blocks_cons hb hne']
    rw [hsplit, List.take_left' hbl, List.drop_left' hbl]

theorem blocks_map {W : Type u} (f : V → W) (l : List V) (size : Nat) :
    blocks (l.map f) size = (blocks l size).map (List.map f) := by
  rw [blocks, blocks, List.length_map, List.map_map]
  apply List.map_congr_left
  intro a _
  exact slice_map f l a (a + size)

end Blocks

section Fold
variable [DecidableEq V]

/-- The cells that are not the fill. -/
def shown (fill : V) (cells : List V) : List V := cells.filter fun v => v ≠ fill

/-- Fold the shown cells of a group from the identity; the fill when there are none. -/
def fillFold (op : V → V → V) (e fill : V) (cells : List V) : V :=
  if shown fill cells = [] then fill else (shown fill cells).foldl op e

/-- A group with shown cells that fold to the fill. -/
def Hides (op : V → V → V) (e fill : V) (cells : List V) : Prop :=
  shown fill cells ≠ [] ∧ (shown fill cells).foldl op e = fill

instance (op : V → V → V) (e fill : V) (cells : List V) : Decidable (Hides op e fill cells) :=
  inferInstanceAs (Decidable (_ ∧ _))

/-- A group that folds to a value other than the fill. -/
def Shows (op : V → V → V) (e fill : V) (cells : List V) : Prop :=
  shown fill cells ≠ [] ∧ (shown fill cells).foldl op e ≠ fill

instance (op : V → V → V) (e fill : V) (cells : List V) : Decidable (Shows op e fill cells) :=
  inferInstanceAs (Decidable (_ ∧ _))

/-- The fills a fold of folds leaves out: one for each group that hides, but for the last
one where no group shows. -/
def lost (op : V → V → V) (e fill : V) (groups : List (List V)) : Nat :=
  if ∃ g ∈ groups, Shows op e fill g then groups.countP fun g => Hides op e fill g
  else (groups.countP fun g => Hides op e fill g) - 1

variable {op : V → V → V} {e fill : V}

theorem shown_append (xs ys : List V) : shown fill (xs ++ ys) = shown fill xs ++ shown fill ys :=
  List.filter_append ..

theorem shown_flatten (groups : List (List V)) :
    shown fill groups.flatten = (groups.map (shown fill)).flatten := List.filter_flatten

theorem shown_cons_of_ne {v : V} (h : v ≠ fill) (vs : List V) :
    shown fill (v :: vs) = v :: shown fill vs := List.filter_cons_of_pos (decide_eq_true h)

theorem shown_cons_self (vs : List V) : shown fill (fill :: vs) = shown fill vs :=
  List.filter_cons_of_neg (by simp)

/-- The fill cells never contribute. -/
theorem fillFold_congr {cells cells' : List V} (h : shown fill cells = shown fill cells') :
    fillFold op e fill cells = fillFold op e fill cells' := by
  rw [fillFold, fillFold, h]

theorem fillFold_of_all {cells : List V} (h : ∀ v ∈ cells, v = fill) :
    fillFold op e fill cells = fill := by
  apply if_pos
  apply List.filter_eq_nil_iff.mpr
  intro v hv
  simp only [h v hv, ne_eq, not_true_eq_false, decide_false, Bool.false_eq_true, not_false_eq_true]

variable (op e fill) in
/-- What one group adds to the shown cells of a fold of folds. -/
theorem shown_fillFold (g : List V) :
    shown fill [fillFold op e fill g] =
      if Shows op e fill g then [(shown fill g).foldl op e] else [] := by
  by_cases hs : shown fill g = []
  · rw [fillFold, if_pos hs, if_neg fun h => h.1 hs]
    simp [shown]
  · rw [fillFold, if_neg hs]
    by_cases hf : (shown fill g).foldl op e = fill
    · rw [if_neg fun h => h.2 hf, hf]
      simp [shown]
    · rw [if_pos ⟨hs, hf⟩]
      exact List.filter_cons_of_pos (decide_eq_true hf)

section Identity
variable [Std.LawfulIdentity op e]

/-- Two cells: the fill is neutral. -/
theorem fillFold_pair (x y : V) :
    fillFold op e fill [x, y] = if x = fill then y else if y = fill then x else op x y := by
  have hid (v : V) : op e v = v := Std.LawfulLeftIdentity.left_id v
  by_cases hx : x = fill
  · by_cases hy : y = fill
    · simp [fillFold, shown, hx, hy]
    · simp [fillFold, shown, hx, hy, hid]
  · by_cases hy : y = fill
    · simp [fillFold, shown, hx, hy, hid]
    · simp [fillFold, shown, hx, hy, hid]

theorem fillFold_singleton (x : V) : fillFold op e fill [x] = x := by
  have hid : op e x = x := Std.LawfulLeftIdentity.left_id x
  by_cases hx : x = fill
  · simp [fillFold, shown, hx]
  · simp [fillFold, shown, hx, hid]

end Identity

section Monoid
variable [Std.Associative op] [Std.LawfulIdentity op e]

variable (op e) in
omit [DecidableEq V] in
theorem foldl_op (v : V) (cells : List V) : cells.foldl op v = op v (cells.foldl op e) := by
  have hassoc : cells.foldl op (op v e) = op v (cells.foldl op e) := List.foldl_assoc
  rwa [(Std.LawfulRightIdentity.right_id v : op v e = v)] at hassoc

/-- When no group hides, the fold of the folds is the fold of the concatenation. -/
theorem fillFold_flatten (groups : List (List V)) (h : ∀ g ∈ groups, ¬ Hides op e fill g) :
    fillFold op e fill (groups.map (fillFold op e fill)) = fillFold op e fill groups.flatten := by
  have hkeep : ∀ gs : List (List V), (∀ g ∈ gs, ¬ Hides op e fill g) →
      (shown fill (gs.map (fillFold op e fill)) = [] ↔ shown fill gs.flatten = []) ∧
        (shown fill (gs.map (fillFold op e fill))).foldl op e =
          (shown fill gs.flatten).foldl op e := by
    intro gs hgs
    induction gs with
    | nil => exact ⟨Iff.rfl, rfl⟩
    | cons g gs ih =>
      obtain ⟨hnil, hval⟩ := ih fun x hx => hgs x (.tail _ hx)
      have hhead := shown_fillFold op e fill g
      have hcons : shown fill ((g :: gs).map (fillFold op e fill)) =
          shown fill [fillFold op e fill g] ++ shown fill (gs.map (fillFold op e fill)) := by
        rw [← shown_append]
        rfl
      rw [hcons, hhead, List.flatten_cons, shown_append]
      by_cases hs : shown fill g = []
      · rw [if_neg fun h => h.1 hs, hs, List.nil_append, List.nil_append]
        exact ⟨hnil, hval⟩
      · have hshow : Shows op e fill g := ⟨hs, fun hf => hgs g (.head _) ⟨hs, hf⟩⟩
        rw [if_pos hshow, List.foldl_append, List.foldl_append, List.foldl_cons, List.foldl_nil,
          (Std.LawfulLeftIdentity.left_id _ : op e ((shown fill g).foldl op e) = _),
          foldl_op op e ((shown fill g).foldl op e), hval,
          ← foldl_op op e ((shown fill g).foldl op e)]
        simp [hs]
  obtain ⟨hnil, hval⟩ := hkeep groups h
  rw [fillFold, fillFold, hval]
  by_cases hs : shown fill groups.flatten = []
  · rw [if_pos hs, if_pos (hnil.mpr hs)]
  · rw [if_neg hs, if_neg fun h => hs (hnil.mp h)]

end Monoid

/-- When no group hides, folding two at a time associates. -/
theorem fillFold_pair_assoc [Std.Associative op] [Std.LawfulIdentity op e]
    (h : ∀ cells, ¬ Hides op e fill cells) (x y z : V) :
    fillFold op e fill [fillFold op e fill [x, y], z] =
      fillFold op e fill [x, fillFold op e fill [y, z]] := by
  have hleft := fillFold_flatten [[x, y], [z]] fun g _ => h g
  have hright := fillFold_flatten [[x], [y, z]] fun g _ => h g
  rw [List.map_cons, List.map_cons, List.map_nil, fillFold_singleton] at hleft hright
  exact hleft.trans hright.symm

/-- An operation that returns one of its operands hides nothing. -/
theorem not_hides [Std.LawfulIdentity op e] (hop : ∀ x y, op x y = x ∨ op x y = y)
    (cells : List V) : ¬ Hides op e fill cells := by
  intro ⟨hne, hfold⟩
  have hmem : ∀ (v : V) (vs : List V), vs.foldl op v ∈ v :: vs := by
    intro v vs
    induction vs generalizing v with
    | nil => exact .head _
    | cons w ws ih =>
      rw [List.foldl_cons]
      cases List.mem_cons.mp (ih (op v w)) with
      | inl hw =>
        rw [hw]
        cases hop v w with
        | inl h => rw [h]; exact .head _
        | inr h => rw [h]; exact .tail _ (.head _)
      | inr hw => exact .tail _ (.tail _ hw)
  obtain ⟨v, vs, hvs⟩ := List.exists_cons_of_ne_nil hne
  have hin : fill ∈ shown fill cells := by
    rw [hvs, List.foldl_cons, (Std.LawfulLeftIdentity.left_id v : op e v = v)] at hfold
    have hv := hmem v vs
    rwa [hfold, ← hvs] at hv
  have hfill := List.of_mem_filter hin
  simp only [ne_eq, not_true_eq_false, decide_false, Bool.false_eq_true] at hfill

/-- Some group shows exactly when the folds have a shown cell. -/
theorem shown_eq_nil {groups : List (List V)} (h : ¬ ∃ g ∈ groups, Shows op e fill g) :
    shown fill (groups.map (fillFold op e fill)) = [] := by
  apply List.filter_eq_nil_iff.mpr
  intro v hv
  obtain ⟨g, hg, rfl⟩ := List.mem_map.mp hv
  have hone := shown_fillFold op e fill g
  rw [if_neg fun hs => h ⟨g, hg, hs⟩] at hone
  exact List.filter_eq_nil_iff.mp hone _ (.head _)

theorem shown_ne_nil {groups : List (List V)} (h : ∃ g ∈ groups, Shows op e fill g) :
    shown fill (groups.map (fillFold op e fill)) ≠ [] ∧ shown fill groups.flatten ≠ [] := by
  obtain ⟨g, hg, hs⟩ := h
  constructor
  · intro hnil
    have hone := shown_fillFold op e fill g
    have hin := List.filter_eq_nil_iff.mp hnil _ (List.mem_map_of_mem hg)
    have hno : shown fill [fillFold op e fill g] = [] := List.filter_cons_of_neg hin
    rw [if_pos hs, hno] at hone
    cases hone
  · rw [shown_flatten]
    intro hnil
    exact hs.1 (List.flatten_eq_nil_iff.mp hnil _ (List.mem_map_of_mem hg))

section Sum
variable {A : Type u} [AddCommGroup A] [DecidableEq A] {fill : A}

variable (fill) in
/-- The sum of a concatenation is the sum of the shown folds and a fill for each group that
hides. -/
theorem foldl_shown_flatten (groups : List (List A)) :
    (shown fill groups.flatten).foldl (· + ·) 0 =
      (shown fill (groups.map (fillFold (· + ·) 0 fill))).foldl (· + ·) 0 +
        (groups.countP fun g => Hides (· + ·) 0 fill g) • fill := by
  induction groups with
  | nil => simp [shown]
  | cons g gs ih =>
    have hhead := shown_fillFold (· + ·) (0 : A) fill g
    have hcons : shown fill ((g :: gs).map (fillFold (· + ·) 0 fill)) =
        shown fill [fillFold (· + ·) 0 fill g] ++
          shown fill (gs.map (fillFold (· + ·) 0 fill)) := by
      rw [← shown_append]
      rfl
    rw [hcons, hhead, List.flatten_cons, shown_append, List.foldl_append, List.foldl_append,
      foldl_op (V := A) (· + ·) 0 ((shown fill g).foldl _ _), ih, List.countP_cons]
    by_cases hs : shown fill g = []
    · rw [if_neg fun h => h.1 hs, if_neg (by simp [Hides, hs]), hs, List.foldl_nil, zero_add,
        add_zero]
    · by_cases hf : (shown fill g).foldl (· + ·) 0 = fill
      · rw [if_neg fun h => h.2 hf, if_pos (by simp [Hides, hs, hf]), hf, List.foldl_nil,
          succ_nsmul]
        exact (add_comm _ _).trans (add_assoc _ _ _)
      · rw [if_pos ⟨hs, hf⟩, if_neg (by simp [Hides, hf]), List.foldl_cons, List.foldl_nil,
          zero_add, add_zero, foldl_op (V := A) (· + ·) 0 ((shown fill g).foldl _ _)]
        exact (add_assoc _ _ _).symm

variable (fill) in
/-- For sums the fold of the folds is the fold of the concatenation exactly when the fills
left out add up to nothing. -/
theorem fillFold_add_flatten_iff (groups : List (List A)) :
    fillFold (· + ·) 0 fill (groups.map (fillFold (· + ·) 0 fill)) =
        fillFold (· + ·) 0 fill groups.flatten ↔
      lost (· + ·) 0 fill groups • fill = 0 := by
  have hflat := foldl_shown_flatten fill groups
  by_cases hshow : ∃ g ∈ groups, Shows (· + ·) 0 fill g
  · -- some group shows, so neither fold is the fill by default
    obtain ⟨hleft, hright⟩ := shown_ne_nil hshow
    rw [lost, if_pos hshow, fillFold, if_neg hleft, fillFold, if_neg hright, hflat]
    exact left_eq_add
  · have hleft := shown_eq_nil hshow
    rw [lost, if_neg hshow, fillFold, if_pos hleft]
    rw [hleft, List.foldl_nil, zero_add] at hflat
    by_cases hcount : (groups.countP fun g => Hides (· + ·) 0 fill g) = 0
    · have hnone : shown fill groups.flatten = [] := by
        rw [shown_flatten, List.flatten_eq_nil_iff]
        intro l hl
        obtain ⟨g, hg, rfl⟩ := List.mem_map.mp hl
        by_contra hne
        have hhides := List.countP_eq_zero.mp hcount g hg
        rw [decide_eq_true_iff] at hhides
        exact hshow ⟨g, hg, hne, fun hf => hhides ⟨hne, hf⟩⟩
      rw [fillFold_of_all fun v hv => ?_, hcount, Nat.zero_sub, zero_nsmul]
      · exact iff_of_true rfl rfl
      · have hin := List.filter_eq_nil_iff.mp hnone v hv
        simpa using hin
    · obtain ⟨n, hn⟩ := Nat.exists_eq_succ_of_ne_zero hcount
      have hsome : shown fill groups.flatten ≠ [] := by
        obtain ⟨g, hg, hh⟩ := List.countP_pos_iff.mp (Nat.pos_of_ne_zero hcount)
        rw [decide_eq_true_iff] at hh
        rw [shown_flatten]
        intro hnil
        exact hh.1 (List.flatten_eq_nil_iff.mp hnil _ (List.mem_map_of_mem hg))
      rw [fillFold, if_neg hsome, hflat, hn, Nat.succ_sub_one, succ_nsmul]
      exact right_eq_add.trans Iff.rfl

variable (fill) in
/-- Sums of three cells two at a time: the grouping does not show, unless one pair adds up
to the fill and the other does not. -/
theorem fillFold_add_assoc_iff (x y z : A) :
    fillFold (· + ·) 0 fill [fillFold (· + ·) 0 fill [x, y], z] =
        fillFold (· + ·) 0 fill [x, fillFold (· + ·) 0 fill [y, z]] ↔
      (fill ≠ 0 → x ≠ fill → y ≠ fill → z ≠ fill → (x + y = fill ↔ y + z = fill)) := by
  rw [fillFold_pair, fillFold_pair, fillFold_pair, fillFold_pair]
  by_cases hx : x = fill
  · simp only [hx, if_true, ne_eq, not_true_eq_false, false_implies, implies_true]
  by_cases hy : y = fill
  · simp only [hx, hy, if_false, if_true, ne_eq, not_true_eq_false, false_implies, implies_true]
  by_cases hz : z = fill
  · by_cases hxy : x + y = fill
    · simp only [hx, hy, hz, hxy, if_false, if_true, ne_eq, not_true_eq_false, false_implies,
        implies_true]
    · simp only [hx, hy, hz, hxy, if_false, if_true, ne_eq, not_true_eq_false, false_implies,
        implies_true]
  rw [if_neg hx, if_neg hy, if_neg hy, if_neg hz, if_neg hx, if_neg hz]
  by_cases hxy : x + y = fill
  · by_cases hyz : y + z = fill
    · have hzx : z = x := add_left_cancel (hyz.trans (hxy.symm.trans (add_comm x y)))
      rw [if_pos hxy, if_pos hyz]
      exact iff_of_true hzx fun _ _ _ _ => iff_of_true hxy hyz
    · have hsum : x + (y + z) = fill + z := by rw [← add_assoc, hxy]
      rw [if_pos hxy, if_neg hyz, hsum, eq_comm, add_eq_right]
      constructor
      · intro hzero hne
        exact absurd hzero hne
      · intro himp
        by_contra hne
        exact hyz ((himp hne hx hy hz).mp hxy)
  · by_cases hyz : y + z = fill
    · have hsum : x + y + z = x + fill := by rw [add_assoc, hyz]
      rw [if_neg hxy, if_pos hyz, hsum, add_eq_left]
      constructor
      · intro hzero hne
        exact absurd hzero hne
      · intro himp
        by_contra hne
        exact hxy ((himp hne hx hy hz).mpr hyz)
    · rw [if_neg hxy, if_neg hyz, add_assoc]
      exact iff_of_true rfl fun _ _ _ _ => iff_of_false hxy hyz

end Sum

end Fold

section Missing

/-- Fold the cells that are not missing from the identity; the fill when there are none. -/
def maskedFold (op : V → V → V) (e fill : V) (missing : V → Bool) (cells : List V) : V :=
  if cells.all missing then fill else (cells.filter fun v => !missing v).foldl op e

/-- The values among some cells that are not missing. -/
def presentValues (missing : V → Bool) (cells : List V) : Multiset V :=
  ↑(cells.filter fun v => !missing v)

/-- No values of `s` fold to a missing one. -/
def Clear (op : V → V → V) (e : V) (missing : V → Bool) (s : Multiset V) : Prop :=
  ∀ l : List V, l ≠ [] → (l : Multiset V) ≤ s → missing (l.foldl op e) = false

variable {op : V → V → V} {e fill : V} {missing : V → Bool}

theorem Clear.mono {s t : Multiset V} (h : Clear op e missing t) (hle : s ≤ t) :
    Clear op e missing s := fun l hne hl => h l hne (hl.trans hle)

theorem presentValues_append (xs ys : List V) :
    presentValues missing (xs ++ ys) = presentValues missing xs + presentValues missing ys := by
  rw [presentValues, List.filter_append, ← Multiset.coe_add]
  rfl

theorem presentValues_flatMap {A : Type*} (f : A → List V) (l : List A) :
    presentValues missing (l.flatMap f) = (l.map fun a => presentValues missing (f a)).sum := by
  induction l with
  | nil => rfl
  | cons a l ih => rw [List.flatMap_cons, presentValues_append, ih, List.map_cons, List.sum_cons]

variable [Std.Commutative op] [Std.Associative op]

/-- `v` stands for the values of `s`: a missing cell for none, and else what they fold to. -/
def StandsFor (op : V → V → V) (e : V) (missing : V → Bool) [Std.Commutative op]
    [Std.Associative op] (s : Multiset V) (v : V) : Prop :=
  (s = 0 → missing v = true) ∧ (s ≠ 0 → v = s.fold op e)

/-- `v` is the fold of the values of `s`: the fill for none. -/
def FoldsTo (op : V → V → V) (e fill : V) [Std.Commutative op] [Std.Associative op]
    (s : Multiset V) (v : V) : Prop :=
  (s = 0 → v = fill) ∧ (s ≠ 0 → v = s.fold op e)

theorem FoldsTo.unique {s : Multiset V} {v w : V} (hv : FoldsTo op e fill s v)
    (hw : FoldsTo op e fill s w) : v = w := by
  by_cases hs : s = 0
  · rw [hv.1 hs, hw.1 hs]
  · rw [hv.2 hs, hw.2 hs]

theorem FoldsTo.standsFor (hfill : missing fill = true) {s : Multiset V} {v : V}
    (h : FoldsTo op e fill s v) : StandsFor op e missing s v :=
  ⟨fun hs => (h.1 hs).symm ▸ hfill, h.2⟩

theorem foldsTo_zero : FoldsTo op e fill 0 fill := ⟨fun _ => rfl, fun h => absurd rfl h⟩

variable [Std.LawfulIdentity op e]

theorem standsFor_cell (v : V) : StandsFor op e missing (presentValues missing [v]) v := by
  cases hv : missing v with
  | false =>
    have hone : presentValues missing [v] = {v} := by
      rw [presentValues, List.filter_cons_of_pos (by rw [hv]; rfl), List.filter_nil]
      rfl
    rw [hone]
    constructor
    · intro h
      exact absurd h (Multiset.singleton_ne_zero v)
    · intro _
      rw [Multiset.fold_singleton]
      exact (Std.LawfulRightIdentity.right_id v : op v e = v).symm
  | true =>
    have hnone : presentValues missing [v] = 0 := by
      rw [presentValues, List.filter_cons_of_neg (by rw [hv]; decide), List.filter_nil]
      rfl
    rw [hnone]
    exact ⟨fun _ => hv, fun h => absurd rfl h⟩

/-- Folding cells that stand for some values folds all of those values. -/
theorem foldsTo_maskedFold {parts : List (V × Multiset V)}
    (hparts : ∀ p ∈ parts, StandsFor op e missing p.2 p.1)
    (hclear : Clear op e missing (parts.map Prod.snd).sum) :
    FoldsTo op e fill (parts.map Prod.snd).sum (maskedFold op e fill missing (parts.map Prod.fst)) := by
  have hkey : ((parts.map Prod.fst).all missing = true ↔ (parts.map Prod.snd).sum = 0) ∧
      ((parts.map Prod.fst).filter fun v => !missing v).foldl op e =
        (parts.map Prod.snd).sum.fold op e := by
    induction parts with
    | nil => exact ⟨iff_of_true rfl rfl, rfl⟩
    | cons p parts ih =>
      rw [List.map_cons, List.sum_cons] at hclear
      obtain ⟨hall, hfold⟩ := ih (fun q hq => hparts q (.tail _ hq))
        (hclear.mono (Multiset.le_add_left _ _))
      have hp := hparts p (.head _)
      rw [List.map_cons, List.map_cons, List.sum_cons, List.all_cons]
      by_cases hzero : p.2 = 0
      · have hm := hp.1 hzero
        rw [hzero, zero_add, hm, Bool.true_and, List.filter_cons_of_neg (by rw [hm]; decide)]
        exact ⟨hall, hfold⟩
      · have hm : missing p.1 = false := by
          rw [hp.2 hzero]
          obtain ⟨l, hl⟩ := Quot.exists_rep p.2
          have hl : (l : Multiset V) = p.2 := hl
          rw [← hl, Multiset.coe_fold_l]
          apply hclear l
          · intro hnil
            rw [hnil] at hl
            exact hzero hl.symm
          · rw [hl]
            exact Multiset.le_add_right _ _
        have hid : op e p.1 = p.1 := Std.LawfulLeftIdentity.left_id p.1
        have hee : op e e = e := Std.LawfulLeftIdentity.left_id e
        constructor
        · rw [hm, Bool.false_and]
          apply iff_of_false Bool.false_ne_true
          intro hsum
          exact hzero (Multiset.le_zero.mp ((Multiset.le_add_right _ _).trans hsum.le))
        · rw [List.filter_cons_of_pos (by rw [hm]; rfl), List.foldl_cons, hid, foldl_op op e, hfold,
            hp.2 hzero, ← Multiset.fold_add op, hee]
  constructor
  · intro hzero
    rw [maskedFold, if_pos (hkey.1.mpr hzero)]
  · intro hne
    rw [maskedFold, if_neg fun hall => hne (hkey.1.mp hall), hkey.2]

theorem foldsTo_cells {cells : List V} (hclear : Clear op e missing (presentValues missing cells)) :
    FoldsTo op e fill (presentValues missing cells) (maskedFold op e fill missing cells) := by
  have hsum : (cells.map fun v => presentValues missing [v]).sum = presentValues missing cells := by
    rw [← presentValues_flatMap (fun v => [v]), List.flatMap_singleton']
  have hfst : (cells.map fun v => (v, presentValues missing [v])).map Prod.fst = cells := by
    rw [List.map_map]
    exact List.map_id cells
  have hsnd : ((cells.map fun v => (v, presentValues missing [v])).map Prod.snd).sum =
      presentValues missing cells := by
    rw [List.map_map]
    exact hsum
  have hmain : FoldsTo op e fill ((cells.map fun v => (v, presentValues missing [v])).map Prod.snd).sum
      (maskedFold op e fill missing ((cells.map fun v => (v, presentValues missing [v])).map Prod.fst)) :=
    foldsTo_maskedFold (fun p hp => by
      obtain ⟨v, -, rfl⟩ := List.mem_map.mp hp
      exact standsFor_cell v)
    (by rwa [hsnd])
  rwa [hsnd, hfst] at hmain

end Missing

end Zagg.Lib
