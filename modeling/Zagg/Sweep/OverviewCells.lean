import Mathlib.Algebra.BigOperators.Intervals
import Zagg.Lib.FillFold
import Zagg.Stage.MergeSpec
import Zagg.Sweep.Overview

/-!
# The cells of an overview

A leaf's cell lies in one cell of every node above it. Folding the leaves places it there in
one step, folding the children's overviews one gap at a time, and for an exact law both fold
the same values: those of all the leaf cells below.
-/
namespace Zagg.Sweep.Overview

open Zagg.Lib Zagg.Stats
open Zagg.Stage (Fields FieldMeta ArrayKey Slab Slabs Dtype Law foldDense foldGroup combineDense
  isMissing emptySlabs relRank setDigest)

variable {V N L T : Type}

section Geometry

theorem rank_take (ds : List (Fin 4)) (a : Nat) :
    Digits.rank (ds.take a) = Digits.rank ds / 4 ^ (ds.length - a) := by
  have hsplit := Digits.rank_append (ds.take a) (ds.drop a)
  have hlt := Digits.rank_lt (ds.drop a)
  rw [List.take_append_drop, List.length_drop] at hsplit
  rw [List.length_drop] at hlt
  rw [hsplit, Nat.add_comm, Nat.add_mul_div_right _ _ (by positivity), Nat.div_eq_of_lt hlt,
    Nat.zero_add]

theorem relRank_extend (node : Decimal) (t : List (Fin 4)) :
    relRank (node.extend t) node = Digits.rank t := by
  show Digits.rank ((node.digits ++ t).drop node.digits.length) = _
  rw [List.drop_left]

theorem relRank_nodeAt (node : Decimal) (t : List (Fin 4)) (a : Nat) :
    relRank ((node.extend t).nodeAt (node.order + a)) node =
      Digits.rank t / 4 ^ (t.length - a) := by
  show Digits.rank (((node.digits ++ t).take (node.digits.length + a)).drop node.digits.length) = _
  rw [List.take_length_add_append, List.drop_left, rank_take]

/-- Nodes of one order below a node are told apart by their ranks. -/
theorem relRank_inj {node a b : Decimal} (ha : a.startsWith node = true) (hb : b.startsWith node = true)
    (horder : a.order = b.order) (h : relRank a node = relRank b node) : a = b := by
  obtain ⟨t, rfl⟩ := Decimal.startsWith_iff.mp ha
  obtain ⟨u, rfl⟩ := Decimal.startsWith_iff.mp hb
  rw [relRank_extend, relRank_extend] at h
  rw [Decimal.order_extend, Decimal.order_extend] at horder
  rw [Digits.rank_inj (by omega) h]

/-- Dividing a range into blocks keeps the block asked for. -/
theorem filterMap_blocks {A : Type} (g : Nat → A) (start factor j n : Nat) (hf : 0 < factor) :
    ((List.range (n * factor)).filterMap fun i =>
        if start + i / factor = j then some (g i) else none) =
      if start ≤ j ∧ j < start + n then
        (List.range factor).map fun t => g ((j - start) * factor + t)
      else [] := by
  induction n with
  | zero =>
    rw [Nat.zero_mul, if_neg (by omega)]
    rfl
  | succ n ih =>
    have hblock : ((List.range factor).map (n * factor + ·)).filterMap
        (fun i => if start + i / factor = j then some (g i) else none) =
          if start + n = j then (List.range factor).map fun t => g (n * factor + t) else [] := by
      rw [List.filterMap_map]
      have hin : ∀ t ∈ List.range factor, (n * factor + t) / factor = n := by
        intro t ht
        rw [Nat.add_comm, Nat.add_mul_div_right _ _ hf,
          Nat.div_eq_of_lt (List.mem_range.mp ht), Nat.zero_add]
      split
      · next h =>
        rw [← List.filterMap_eq_map]
        apply List.filterMap_congr
        intro t ht
        simp only [Function.comp_apply, hin t ht, h, if_true]
      · next h =>
        apply List.filterMap_eq_nil_iff.mpr
        intro t ht
        simp only [Function.comp_apply, hin t ht, h, if_false]
    rw [Nat.succ_mul, List.range_add, List.filterMap_append, ih, hblock]
    by_cases hj : start + n = j
    · rw [if_neg (by omega), if_pos hj, if_pos (by omega), List.nil_append,
        show j - start = n by omega]
    · by_cases hin : start ≤ j ∧ j < start + n
      · rw [if_pos hin, if_neg hj, if_pos (by omega), List.append_nil]
      · rw [if_neg hin, if_neg hj, if_neg (by omega), List.append_nil]

variable (decl : Declaration V N)

/-- The cell of a node that a leaf's cell lies in. -/
def nodeCell (node : Decimal) (k : Nat) (dec : Decimal) (i : Nat) : Nat :=
  (relRank dec node * decl.nCells + i) / 4 ^ (decl.shardOrder - k)

/-- A shard below a node of order `k`. -/
structure Under (node : Decimal) (k : Nat) (dec : Decimal) : Prop where
  order : node.order = k
  shard : dec.order = decl.shardOrder
  starts : dec.startsWith node = true

variable {decl} {node child dec : Decimal} {k source : Nat}

theorem Under.exists_extend (h : Under decl node k dec) :
    ∃ t, dec = node.extend t ∧ k + t.length = decl.shardOrder := by
  obtain ⟨t, rfl⟩ := Decimal.startsWith_iff.mp h.starts
  have ho := h.shard
  rw [Decimal.order_extend, h.order] at ho
  exact ⟨t, rfl, ho⟩

theorem nCells_pos : 0 < decl.nCells := Nat.pow_pos (by decide)

theorem nodeCell_lt (h : Under decl node k dec) {i : Nat} (hi : i < decl.nCells) :
    nodeCell decl node k dec i < decl.nCells := by
  obtain ⟨t, rfl, hlen⟩ := h.exists_extend
  have hrank := Digits.rank_lt t
  rw [nodeCell, relRank_extend, show decl.shardOrder - k = t.length by omega]
  apply Nat.div_lt_of_lt_mul
  calc Digits.rank t * decl.nCells + i
      < Digits.rank t * decl.nCells + decl.nCells := Nat.add_lt_add_left hi _
    _ = (Digits.rank t + 1) * decl.nCells := (Nat.succ_mul _ _).symm
    _ ≤ 4 ^ t.length * decl.nCells := Nat.mul_le_mul_right _ hrank

/-- Both geometries of a leaf's fold place a cell where it lies. -/
theorem leafSpan_spec (h : Under decl node k dec) :
    (leafSpan decl node k dec).span * (leafSpan decl node k dec).factor = decl.nCells ∧
      0 < (leafSpan decl node k dec).factor ∧
      ∀ i < decl.nCells, nodeCell decl node k dec i =
        (leafSpan decl node k dec).start + i / (leafSpan decl node k dec).factor := by
  obtain ⟨t, rfl, hlen⟩ := h.exists_extend
  have hle := decl.order_le
  have hdepth : decl.depth = decl.cellOrder - decl.shardOrder := rfl
  have htarget : decl.targetOrder k = decl.cellOrder - (decl.shardOrder - k) := rfl
  by_cases hcoarse : decl.shardOrder ≤ decl.targetOrder k
  · have hpow : decl.nCells = 4 ^ (decl.targetOrder k - decl.shardOrder) * 4 ^ (decl.shardOrder - k) := by
      rw [Declaration.nCells, ← pow_add]
      congr 1
      omega
    have hpos : 0 < 4 ^ (decl.shardOrder - k) := Nat.pow_pos (by decide)
    simp only [leafSpan, if_pos hcoarse]
    refine ⟨hpow.symm, hpos, fun i _ => ?_⟩
    rw [nodeCell, hpow, ← Nat.mul_assoc, Nat.add_comm, Nat.add_mul_div_right _ _ hpos, Nat.add_comm]
  · have hinner : decl.targetOrder k = node.order + decl.depth := by
      have ho := h.order
      omega
    have hshift : t.length - decl.depth + decl.depth = decl.shardOrder - k := by omega
    simp only [leafSpan, if_neg hcoarse]
    refine ⟨Nat.one_mul _, nCells_pos, fun i hi => ?_⟩
    rw [hinner, relRank_nodeAt, nodeCell, relRank_extend, Nat.div_eq_of_lt hi, Nat.add_zero, ← hshift,
      Nat.add_comm (t.length - decl.depth), pow_add, ← Nat.div_div_eq_div_mul]
    congr 1
    show (Digits.rank t * decl.nCells + i) / decl.nCells = _
    rw [Nat.add_comm, Nat.add_mul_div_right _ _ nCells_pos, Nat.div_eq_of_lt hi, Nat.zero_add]

/-- One gap further up, a cell lies where its cell of the child lies. -/
theorem nodeCell_child (hnode : Under decl node k dec) (hchild : Under decl child source dec)
    (hstarts : child.startsWith node = true) (i : Nat) :
    nodeCell decl node k dec i =
      (relRank child node * decl.nCells + nodeCell decl child source dec i) / 4 ^ (source - k) := by
  obtain ⟨t, rfl⟩ := Decimal.startsWith_iff.mp hstarts
  obtain ⟨u, rfl, hlen⟩ := hchild.exists_extend
  have hsource := hchild.order
  rw [Decimal.order_extend, hnode.order] at hsource
  have hpow : 4 ^ (decl.shardOrder - k) = 4 ^ (decl.shardOrder - source) * 4 ^ (source - k) := by
    rw [← pow_add]
    congr 1
    omega
  have hpos : 0 < 4 ^ (decl.shardOrder - source) := Nat.pow_pos (by decide)
  rw [nodeCell, nodeCell, relRank_extend, relRank_extend, Decimal.extend_extend, relRank_extend,
    Digits.rank_append, hpow, ← Nat.div_div_eq_div_mul]
  congr 1
  rw [show decl.shardOrder - source = u.length by omega, Nat.add_mul, Nat.add_assoc,
    Nat.mul_right_comm, Nat.add_comm, Nat.add_mul_div_right _ _ (Nat.pow_pos (by decide)), Nat.add_comm]

end Geometry

section Law
variable [DecidableEq V] {d : Dtype V} {law : Law} {fill : V}

/-- A law over exact numbers: associative and commutative, with its identity. -/
structure ExactLaw (d : Dtype V) (law : Law) : Prop where
  assoc : Std.Associative (law.reduce d)
  comm : Std.Commutative (law.reduce d)
  identity : Std.LawfulIdentity (law.reduce d) (law.identity d)

/-- The values among some cells that are not missing. -/
def valuesOf (d : Dtype V) (fill : V) (cells : List V) : Multiset V :=
  presentValues (isMissing d fill) cells

/-- No values of `s` fold to the fill or to NaN. -/
def ClearOf (d : Dtype V) (law : Law) (fill : V) (s : Multiset V) : Prop :=
  Clear (law.reduce d) (law.identity d) (isMissing d fill) s

theorem isMissing_fill (d : Dtype V) (fill : V) : isMissing d fill fill = true := by
  simp only [isMissing, decide_true, Bool.or_true]

section
variable [Std.LawfulIdentity (law.reduce d) (law.identity d)]

/-- The identity stands in for the missing cells without changing the fold. -/
theorem foldGroup_eq (group : List V) :
    foldGroup d law fill group =
      maskedFold (law.reduce d) (law.identity d) fill (isMissing d fill) group := by
  have hneutral : ∀ acc, (group.map fun v => if isMissing d fill v then law.identity d else v).foldl
      (law.reduce d) acc = (group.filter fun v => !isMissing d fill v).foldl (law.reduce d) acc := by
    induction group with
    | nil => exact fun _ => rfl
    | cons v group ih =>
      intro acc
      rw [List.map_cons, List.foldl_cons]
      by_cases hv : isMissing d fill v = true
      · have hid : law.reduce d acc (law.identity d) = acc := Std.LawfulRightIdentity.right_id acc
        rw [if_pos hv, List.filter_cons_of_neg (by rw [hv]; decide), ih, hid]
      · rw [if_neg hv, List.filter_cons_of_pos (by simp [hv]), List.foldl_cons, ih]
  rw [foldGroup, maskedFold, hneutral]

variable [Std.Associative (law.reduce d)] [Std.Commutative (law.reduce d)]

/-- A slab's cell holds the fold of these values. -/
abbrev Holds (d : Dtype V) (law : Law) (fill : V) [Std.Associative (law.reduce d)]
    [Std.Commutative (law.reduce d)] (s : Multiset V) (v : V) : Prop :=
  FoldsTo (law.reduce d) (law.identity d) fill s v

/-- One group of a slab whose cells hold the folds of some values. -/
theorem holds_foldGroup {A : Type} (cells : List A) (v : A → V) (s : A → Multiset V)
    (hcells : ∀ a ∈ cells, StandsFor (law.reduce d) (law.identity d) (isMissing d fill) (s a) (v a))
    (hclear : ClearOf d law fill (cells.map s).sum) :
    Holds d law fill (cells.map s).sum (foldGroup d law fill (cells.map v)) := by
  have hfst : (cells.map fun a => (v a, s a)).map Prod.fst = cells.map v := List.map_map
  have hsnd : (cells.map fun a => (v a, s a)).map Prod.snd = cells.map s := List.map_map
  have hmain : FoldsTo (law.reduce d) (law.identity d) fill ((cells.map fun a => (v a, s a)).map Prod.snd).sum
      (maskedFold (law.reduce d) (law.identity d) fill (isMissing d fill)
        ((cells.map fun a => (v a, s a)).map Prod.fst)) :=
    foldsTo_maskedFold (fun p hp => by
      obtain ⟨a, ha, rfl⟩ := List.mem_map.mp hp
      exact hcells a ha)
    (by rwa [hsnd])
  rwa [hfst, hsnd, ← foldGroup_eq] at hmain

theorem holds_cells {cells : List V} (hclear : ClearOf d law fill (valuesOf d fill cells)) :
    Holds d law fill (valuesOf d fill cells) (foldGroup d law fill cells) := by
  rw [foldGroup_eq]
  exact foldsTo_cells hclear

/-- Two partial folds of a cell, combined. -/
theorem holds_pair {s t : Multiset V} {v w : V} (hv : Holds d law fill s v)
    (hw : Holds d law fill t w) (hclear : ClearOf d law fill (s + t)) :
    Holds d law fill (s + t) (foldGroup d law fill [v, w]) := by
  have hmain : Holds d law fill ([(v, s), (w, t)].map Prod.snd).sum
      (foldGroup d law fill ([(v, s), (w, t)].map Prod.fst)) :=
    holds_foldGroup [(v, s), (w, t)] Prod.fst Prod.snd (fun a ha => by
      rcases List.mem_cons.mp ha with rfl | ha
      · exact hv.standsFor (isMissing_fill d fill)
      · rw [List.mem_singleton.mp ha]
        exact hw.standsFor (isMissing_fill d fill))
    (by simpa using hclear)
  simpa using hmain

end

theorem valuesOf_flatMap {A : Type} (d : Dtype V) (fill : V) (f : A → List V) (l : List A) :
    valuesOf d fill (l.flatMap f) = (l.map fun a => valuesOf d fill (f a)).sum :=
  presentValues_flatMap f l

end Law

section Leaves
variable [DecidableEq V] {decl : Declaration V N} {at_ : Span} {g : Group V N} {f : N × FieldMeta V N}

variable (decl at_ g f) in
/-- Whether a field reads has nothing to do with where it is added. -/
theorem readField_isSome (at_' : Span) :
    (readField decl at_ g f).isSome = (readField decl at_' g f).isSome := by
  obtain ⟨name, m⟩ := f
  cases m with
  | exact d law fill =>
    simp only [readField]
    cases g.arrays (.exact name) <;> rfl
  | packed of =>
    simp only [readField]
    cases g.arrays (.packed name) <;> cases g.arrays (.digest of) <;> rfl
  | approximate delta location temporal =>
    simp only [readField]
    cases g.arrays (.digest name) with
    | none => rfl
    | some values =>
      simp only
      split
      · rw [Option.isSome_map, Option.isSome_map]
      · rfl

/-- A group of the declared size whose fields all read. -/
def Readable (decl : Declaration V N) (g : Group V N) : Prop :=
  g.cells = decl.nCells ∧ ∀ f ∈ decl.fields, (readField decl ⟨0, 0, 1⟩ g f).isSome

instance (g : Group V N) : Decidable (Readable decl g) := inferInstanceAs (Decidable (_ ∧ _))

/-- What a field of a readable group adds. -/
def fieldPart (decl : Declaration V N) (at_ : Span) (g : Group V N) (f : N × FieldMeta V N) :
    FieldPart V := (readField decl at_ g f).getD .absent

theorem readLeaf_readable (h : Readable decl g) (at_ : Span) :
    readLeaf decl at_ (some g) = some (decl.fields.map fun f => (f, fieldPart decl at_ g f)) := by
  rw [readLeaf, Option.bind_some, if_pos h.1]
  apply mapM_some
  intro f hf
  have hread := h.2 f hf
  rw [readField_isSome decl _ g f at_] at hread
  obtain ⟨part, hpart⟩ := Option.isSome_iff_exists.mp hread
  rw [fieldPart, hpart]
  rfl

theorem readLeaf_unreadable (h : ¬ Readable decl g) (at_ : Span) : readLeaf decl at_ (some g) = none := by
  rw [readLeaf, Option.bind_some]
  by_cases hcells : g.cells = decl.nCells
  · rw [if_pos hcells]
    apply Option.eq_none_iff_forall_ne_some.mpr
    intro parts hparts
    apply h
    refine ⟨hcells, fun f hf => ?_⟩
    obtain ⟨_, -, hr⟩ := forall₂_exists_of_mem_right (forall₂_of_mapM_some hparts).flip hf
    obtain ⟨part, hpart, -⟩ := Option.map_eq_some_iff.mp hr
    rw [readField_isSome decl _ g f at_, hpart]
    rfl
  · exact if_neg hcells

variable [DecidableEq N]

/-- Applying a part changes the exact slab of its own field only. -/
theorem slabs_applyPart_of_ne {acc : NodeFold V N T} {p : (N × FieldMeta V N) × FieldPart V} {name : N}
    (h : p.1.1 ≠ name) : (applyPart at_ acc p).slabs (.exact name) = acc.slabs (.exact name) := by
  obtain ⟨⟨n, m⟩, part⟩ := p
  have hne : (ArrayKey.exact name : ArrayKey N) ≠ .exact n := by
    intro he
    cases he
    exact h rfl
  cases m <;> cases part <;> first | rfl | exact Function.update_of_ne hne ..

/-- An exact slab with a leaf's array folded into it. -/
def withArray (d : Dtype V) (law : Law) (fill : V) (at_ : Span) (array : Option (Nat → V))
    (slab : Nat → V) : Nat → V :=
  match array with
  | some values => combineSegment d law fill at_ (foldDense d law fill at_.factor values) slab
  | none => slab

theorem slabs_applyPart (name : N) (d : Dtype V) (law : Law) (fill : V) (acc : NodeFold V N T) :
    (applyPart at_ acc ((name, .exact d law fill), fieldPart decl at_ g (name, .exact d law fill))).slabs
        (.exact name) =
      withArray d law fill at_ (g.arrays (.exact name)) (acc.slabs (.exact name)) := by
  simp only [fieldPart, readField]
  cases g.arrays (.exact name) with
  | none => rfl
  | some values => exact Function.update_self ..

/-- The exact slab of one field after a leaf's parts. -/
theorem slabs_applyParts {name : N} {d : Dtype V} {law : Law} {fill : V}
    (hf : (name, .exact d law fill) ∈ decl.fields) (acc : NodeFold V N T) :
    ((decl.fields.map fun f => (f, fieldPart decl at_ g f)).foldl (applyPart at_) acc).slabs (.exact name) =
      withArray d law fill at_ (g.arrays (.exact name)) (acc.slabs (.exact name)) := by
  rw [List.foldl_map]
  apply foldl_view_of_mem Prod.fst (fun acc f => applyPart at_ acc (f, fieldPart decl at_ g f))
    (fun acc : NodeFold V N T => acc.slabs (.exact name))
    (withArray d law fill at_ (g.arrays (.exact name))) decl.names_nodup hf
  · intro f' _ hne b
    exact slabs_applyPart_of_ne hne
  · intro b
    exact slabs_applyPart name d law fill b

variable {leaf : Leaves V N L T} {node : Decimal} {k : Nat} {slot : Slot L}
  {acc : NodeFold V N T} {slots : List (Slot L)}

/-- The group a slot adds to a fold: its leaf is committed and reads. -/
def addedGroup (decl : Declaration V N) (leaf : Leaves V N L T) (slot : Slot L) : Option (Group V N) :=
  (leaf slot).bind fun l => l.stamp.bind fun _ => l.group.filter fun g => decide (Readable decl g)

/-- Whether a slot adds anything. -/
def adds (decl : Declaration V N) (leaf : Leaves V N L T) (slot : Slot L) : Bool :=
  (addedGroup decl leaf slot).isSome

theorem nLeaves_applyParts (parts : List ((N × FieldMeta V N) × FieldPart V)) (acc : NodeFold V N T) :
    (parts.foldl (applyPart at_) acc).nLeaves = acc.nLeaves := by
  induction parts generalizing acc with
  | nil => rfl
  | cons p parts ih =>
    rw [List.foldl_cons, ih]
    obtain ⟨⟨n, m⟩, part⟩ := p
    cases m <;> cases part <;> rfl

variable (decl leaf slot) in
/-- A slot that adds is added as the parts of its group are, and the others leave the slabs. -/
theorem addLeaf_cases (node : Decimal) (k : Nat) (acc : NodeFold V N T) :
    (addedGroup decl leaf slot = none ∧
      (addLeaf decl leaf node k acc slot).nLeaves = acc.nLeaves ∧
      (addLeaf decl leaf node k acc slot).slabs = acc.slabs) ∨
    ∃ g, addedGroup decl leaf slot = some g ∧
      (addLeaf decl leaf node k acc slot).nLeaves = acc.nLeaves + 1 ∧
      (addLeaf decl leaf node k acc slot).slabs =
        ((decl.fields.map fun f => (f, fieldPart decl (leafSpan decl node k slot.1) g f)).foldl
          (applyPart (leafSpan decl node k slot.1)) acc).slabs := by
  rw [addedGroup, addLeaf]
  cases leaf slot with
  | none => exact .inl ⟨rfl, rfl, rfl⟩
  | some l =>
    obtain ⟨_ | stamp, _ | g⟩ := l
    · exact .inl ⟨rfl, rfl, rfl⟩
    · exact .inl ⟨rfl, rfl, rfl⟩
    · exact .inl ⟨rfl, rfl, rfl⟩
    · by_cases hg : Readable decl g
      · right
        refine ⟨g, if_pos (decide_eq_true hg), ?_⟩
        simp only [addStamped, readLeaf_readable hg]
        exact ⟨congrArg (· + 1) (nLeaves_applyParts _ acc), trivial⟩
      · left
        refine ⟨if_neg (by simpa using hg), ?_⟩
        simp only [addStamped, readLeaf_unreadable hg]
        exact ⟨trivial, trivial⟩

/-- The array a slot adds to an exact field. -/
def exactArray (decl : Declaration V N) (leaf : Leaves V N L T) (name : N) (slot : Slot L) :
    Option (Nat → V) := (addedGroup decl leaf slot).bind fun g => g.arrays (.exact name)

variable (node k acc) in
theorem slabs_addLeaf {name : N} {d : Dtype V} {law : Law} {fill : V}
    (hf : (name, .exact d law fill) ∈ decl.fields) :
    (addLeaf decl leaf node k acc slot).slabs (.exact name) =
      withArray d law fill (leafSpan decl node k slot.1) (exactArray decl leaf name slot)
        (acc.slabs (.exact name)) := by
  rcases addLeaf_cases decl leaf slot node k acc with ⟨hnone, -, hslabs⟩ | ⟨g, hsome, -, hslabs⟩
  · rw [hslabs, exactArray, hnone]
    rfl
  · rw [hslabs, exactArray, hsome]
    exact slabs_applyParts hf acc

variable (decl leaf node k) in
/-- A fold counts the slots that add. -/
theorem nLeaves_slots (slots : List (Slot L)) (acc : NodeFold V N T) :
    (slots.foldl (addLeaf decl leaf node k) acc).nLeaves = acc.nLeaves + slots.countP (adds decl leaf) := by
  induction slots generalizing acc with
  | nil => rfl
  | cons slot slots ih =>
    rw [List.foldl_cons, ih, List.countP_cons]
    rcases addLeaf_cases decl leaf slot node k acc with ⟨hnone, hcount, -⟩ | ⟨g, hsome, hcount, -⟩
    · rw [hcount, adds, hnone]
      rfl
    · rw [hcount, adds, hsome]
      show acc.nLeaves + 1 + _ = acc.nLeaves + (_ + 1)
      omega

/-- The cells of a leaf that lie in one cell of a node. -/
def slotCells (decl : Declaration V N) (leaf : Leaves V N L T) (node : Decimal) (k : Nat)
    (name : N) (j : Nat) (slot : Slot L) : List V :=
  match exactArray decl leaf name slot with
  | none => []
  | some values => (List.range decl.nCells).filterMap fun i =>
      if nodeCell decl node k slot.1 i = j then some (values i) else none

/-- The leaf cells below one cell of a node. -/
def cellsBelow (decl : Declaration V N) (leaf : Leaves V N L T) (node : Decimal) (k : Nat)
    (name : N) (slots : List (Slot L)) (j : Nat) : List V :=
  slots.flatMap (slotCells decl leaf node k name j)

omit [DecidableEq N] in
/-- A leaf lies in one span of the node's cells. -/
theorem slotCells_span {name : N} {values : Nat → V} (ha : exactArray decl leaf name slot = some values)
    (hunder : Under decl node k slot.1) (j : Nat) (hat : leafSpan decl node k slot.1 = at_) :
    slotCells decl leaf node k name j slot =
      if at_.start ≤ j ∧ j < at_.start + at_.span then
        (List.range at_.factor).map fun t => values ((j - at_.start) * at_.factor + t)
      else [] := by
  obtain ⟨hsize, hpos, hcell⟩ := leafSpan_spec hunder
  rw [hat] at hsize hpos hcell
  rw [← filterMap_blocks values _ _ j _ hpos, hsize]
  simp only [slotCells, ha]
  apply List.filterMap_congr
  intro i hi
  rw [hcell i (List.mem_range.mp hi)]

omit [DecidableEq N] in
theorem combineDense_eq (d : Dtype V) (law : Law) (fill : V) (a b : Nat → V) (j : Nat) :
    combineDense d law fill a b j = foldGroup d law fill [a j, b j] := by
  have h0 : (j * 2 + 0) % 2 = 0 := by omega
  have h1 : ¬ (j * 2 + 1) % 2 = 0 := by omega
  have h2 : (j * 2 + 0) / 2 = j := by omega
  have h3 : (j * 2 + 1) / 2 = j := by omega
  show foldGroup d law fill ((List.range 2).map _) = _
  rw [show List.range 2 = [0, 1] from rfl, List.map_cons, List.map_cons, List.map_nil]
  simp only [h0, h1, h2, h3, if_true, if_false]

omit [DecidableEq V] in
theorem emptySlabs_exact [Inhabited V] {name : N} {d : Dtype V} {law : Law} {fill : V}
    (hf : (name, .exact d law fill) ∈ decl.fields) (j : Nat) :
    emptySlabs decl.fields (.exact name) j = fill := by
  have hlookup : decl.fields.lookup name = some (.exact d law fill) :=
    lookup_of_nodup decl.names_nodup hf
  simp only [emptySlabs, hlookup]

section Exact
variable {d : Dtype V} {law : Law} {fill : V} [Std.LawfulIdentity (law.reduce d) (law.identity d)]
  [Std.Associative (law.reduce d)] [Std.Commutative (law.reduce d)] {name : N}

/-- Adding a leaf adds its values to the cells it lies in. -/
theorem holds_addLeaf (hf : (name, .exact d law fill) ∈ decl.fields) (hunder : Under decl node k slot.1)
    {j : Nat}
    (h : ClearOf d law fill (valuesOf d fill (cellsBelow decl leaf node k name slots j)) →
      Holds d law fill (valuesOf d fill (cellsBelow decl leaf node k name slots j))
        (acc.slabs (.exact name) j))
    (hclear : ClearOf d law fill (valuesOf d fill (cellsBelow decl leaf node k name (slots ++ [slot]) j))) :
    Holds d law fill (valuesOf d fill (cellsBelow decl leaf node k name (slots ++ [slot]) j))
      ((addLeaf decl leaf node k acc slot).slabs (.exact name) j) := by
  have hsplit : valuesOf d fill (cellsBelow decl leaf node k name (slots ++ [slot]) j) =
      valuesOf d fill (cellsBelow decl leaf node k name slots j) +
        valuesOf d fill (slotCells decl leaf node k name j slot) := by
    rw [cellsBelow, List.flatMap_append, List.flatMap_singleton]
    exact presentValues_append _ _
  rw [hsplit] at hclear ⊢
  have hbefore := h (hclear.mono (Multiset.le_add_right _ _))
  have hnone : slotCells decl leaf node k name j slot = [] → Holds d law fill
      (valuesOf d fill (cellsBelow decl leaf node k name slots j) +
        valuesOf d fill (slotCells decl leaf node k name j slot)) (acc.slabs (.exact name) j) := by
    intro hnil
    have hzero : valuesOf d fill ([] : List V) = 0 := rfl
    rw [hnil, hzero, add_zero]
    exact hbefore
  rw [slabs_addLeaf node k acc hf]
  cases ha : exactArray decl leaf name slot with
  | none =>
    apply hnone
    simp only [slotCells, ha]
  | some values =>
    have hcells := slotCells_span ha hunder j rfl
    show Holds _ _ _ _ (combineSegment d law fill (leafSpan decl node k slot.1) _ _ j)
    rw [combineSegment]
    split
    · next hin =>
      rw [if_pos hin] at hcells
      have hadded : Holds d law fill (valuesOf d fill (slotCells decl leaf node k name j slot))
          (foldGroup d law fill (slotCells decl leaf node k name j slot)) :=
        holds_cells (hclear.mono (Multiset.le_add_left _ _))
      rw [combineDense_eq, Nat.add_sub_cancel' hin.1]
      apply holds_pair hbefore _ hclear
      rw [hcells] at hadded ⊢
      exact hadded
    · next hout =>
      rw [if_neg hout] at hcells
      exact hnone hcells

/-- The exact slab of a fold of slots: every cell holds the leaf cells below it. -/
theorem holds_slots [Inhabited V] (hf : (name, .exact d law fill) ∈ decl.fields)
    (hunder : ∀ slot ∈ slots, Under decl node k slot.1) (j : Nat)
    (hclear : ClearOf d law fill (valuesOf d fill (cellsBelow decl leaf node k name slots j))) :
    Holds d law fill (valuesOf d fill (cellsBelow decl leaf node k name slots j))
      ((slots.foldl (addLeaf decl leaf node k) (startNode decl)).slabs (.exact name) j) := by
  induction slots using List.reverseRecOn with
  | nil =>
    show Holds d law fill 0 (emptySlabs decl.fields (.exact name) j)
    rw [emptySlabs_exact hf]
    exact foldsTo_zero
  | append_singleton slots slot ih =>
    rw [List.foldl_append]
    exact holds_addLeaf hf (hunder slot (by simp))
      (ih fun s hs => hunder s (List.mem_append_left _ hs)) hclear

end Exact

omit [DecidableEq V] in
theorem setDigest_exact (slabs : Slabs V N) (name : N) (declared : List Channel) (out : Nat → Part)
    (n : N) : setDigest slabs name declared out (.exact n) = slabs (.exact n) :=
  Stage.setDigest_of_ne _ _ _ _ (fun h => by cases h) fun _ _ h => by cases h

omit [DecidableEq V] in
/-- Finishing a fold keeps the exact slabs. -/
theorem finish_exact {num : Numerics} {fs : Fields V N} {slabs out : Slabs V N} (name : N)
    (h : fs.foldlM (finishField num decl acc) slabs = .ok out) : out (.exact name) = slabs (.exact name) := by
  induction fs generalizing slabs with
  | nil =>
    cases h
    rfl
  | cons f fs ih =>
    rw [List.foldlM_cons] at h
    cases hmid : finishField num decl acc slabs f with
    | error e =>
      rw [hmid] at h
      cases h
    | ok mid =>
      rw [hmid] at h
      rw [ih h]
      obtain ⟨n, m⟩ := f
      cases m with
      | exact d law fill =>
        cases hmid
        rfl
      | packed of =>
        cases hmid
        exact Function.update_of_ne (fun h => by cases h) ..
      | approximate delta location temporal =>
        simp only [finishField] at hmid
        cases hcells : foldCells num delta (FieldMeta.companions
            (.approximate delta location temporal : FieldMeta V N)) decl.nCells (acc.digests n) with
        | error e =>
          rw [hcells] at hmid
          cases hmid
        | ok cells =>
          rw [hcells] at hmid
          cases hmid
          exact setDigest_exact ..

/-- What a fold of slots gives: nothing when no slot adds, and else the exact slabs of the
accumulation. -/
theorem foldSlots_ok [Inhabited V] [LinearOrder T] {num : Numerics} {out : Option (Fold V N T)}
    (h : (foldSlots num decl leaf node k slots).1 = .ok out) :
    (slots.countP (adds decl leaf) = 0 ∧ out = none) ∨
      slots.countP (adds decl leaf) ≠ 0 ∧ ∃ fold, out = some fold ∧ ∀ name, fold.slabs (.exact name) =
        (slots.foldl (addLeaf decl leaf node k) (startNode decl)).slabs (.exact name) := by
  have hcount := nLeaves_slots decl leaf node k slots (startNode decl)
  have hcount : (slots.foldl (addLeaf decl leaf node k) (startNode decl)).nLeaves =
      slots.countP (adds decl leaf) := hcount.trans (Nat.zero_add _)
  rw [← hcount]
  simp only [foldSlots] at h
  generalize slots.foldl (addLeaf decl leaf node k) (startNode decl) = acc at h ⊢
  by_cases hzero : acc.nLeaves = 0
  · rw [if_pos hzero] at h
    cases h
    exact .inl ⟨hzero, rfl⟩
  · rw [if_neg hzero] at h
    cases hslabs : decl.fields.foldlM (finishField num decl acc) acc.slabs with
    | error e =>
      rw [hslabs] at h
      cases h
    | ok slabs =>
      rw [hslabs] at h
      cases h
      exact .inr ⟨hzero, _, rfl, fun name => finish_exact name hslabs⟩

section Values
variable (d : Dtype V) (fill : V) {name : N}
omit [DecidableEq N]

/-- The values of a leaf that lie in one cell of a node. -/
def slotValues (decl : Declaration V N) (leaf : Leaves V N L T) (node : Decimal) (k : Nat)
    (name : N) (j : Nat) (slot : Slot L) : Multiset V :=
  match exactArray decl leaf name slot with
  | none => 0
  | some values => ∑ i ∈ Finset.range decl.nCells,
      if nodeCell decl node k slot.1 i = j then valuesOf d fill [values i] else 0

theorem valuesOf_filterMap {A : Type} (l : List A) (p : A → Prop) [DecidablePred p] (g : A → V) :
    valuesOf d fill (l.filterMap fun i => if p i then some (g i) else none) =
      (l.map fun i => if p i then valuesOf d fill [g i] else 0).sum := by
  induction l with
  | nil => rfl
  | cons a l ih =>
    rw [List.map_cons, List.sum_cons, ← ih]
    by_cases ha : p a
    · simp only [List.filterMap_cons, ha, if_true]
      exact presentValues_append [g a] _
    · simp only [List.filterMap_cons, ha, if_false, zero_add]

theorem valuesOf_slotCells (j : Nat) :
    valuesOf d fill (slotCells decl leaf node k name j slot) =
      slotValues d fill decl leaf node k name j slot := by
  rw [slotCells, slotValues]
  cases exactArray decl leaf name slot with
  | none => rfl
  | some values => exact valuesOf_filterMap d fill _ _ values

theorem valuesOf_cellsBelow (slots : List (Slot L)) (j : Nat) :
    valuesOf d fill (cellsBelow decl leaf node k name slots j) =
      (slots.map (slotValues d fill decl leaf node k name j)).sum := by
  rw [cellsBelow, valuesOf_flatMap]
  congr 1
  apply List.map_congr_left
  intro s _
  exact valuesOf_slotCells d fill j

/-- A block of sums over one index each is the sum over the block. -/
theorem sum_block {M : Type} [AddCommMonoid M] (x : M) (q t : Nat) {factor : Nat} (hf : 0 < factor) :
    (∑ u ∈ Finset.range factor, if q = t * factor + u then x else 0) =
      if q / factor = t then x else 0 := by
  by_cases h : q / factor = t
  · have hq := Nat.div_add_mod' q factor
    rw [h] at hq
    rw [if_pos h, Finset.sum_eq_single (q % factor)]
    · exact if_pos hq.symm
    · intro u _ hu
      apply if_neg
      intro he
      omega
    · intro hnot
      exact absurd (Finset.mem_range.mpr (Nat.mod_lt q hf)) hnot
  · rw [if_neg h]
    apply Finset.sum_eq_zero
    intro u hu
    apply if_neg
    intro he
    apply h
    rw [he, Nat.add_comm, Nat.add_mul_div_right _ _ hf, Nat.div_eq_of_lt (Finset.mem_range.mp hu),
      Nat.zero_add]

variable {child : Decimal} {source : Nat}

/-- What a leaf adds to a node's cell, it adds to the cell's block of the child above it. -/
theorem slotValues_child (hnode : Under decl node k slot.1) (hchild : Under decl child source slot.1)
    (hstarts : child.startsWith node = true) (hgap : source - k ≤ decl.depth) (j : Nat) :
    slotValues d fill decl leaf node k name j slot =
      if j / (decl.nCells / 4 ^ (source - k)) = relRank child node then
        ∑ u ∈ Finset.range (4 ^ (source - k)), slotValues d fill decl leaf child source name
          (j % (decl.nCells / 4 ^ (source - k)) * 4 ^ (source - k) + u) slot
      else 0 := by
  have hpos : 0 < 4 ^ (source - k) := Nat.pow_pos (by decide)
  have hsize : decl.nCells / 4 ^ (source - k) * 4 ^ (source - k) = decl.nCells :=
    Nat.div_mul_cancel (pow_dvd_pow 4 hgap)
  have hplace : ∀ i < decl.nCells, nodeCell decl node k slot.1 i = j ↔
      j / (decl.nCells / 4 ^ (source - k)) = relRank child node ∧
        nodeCell decl child source slot.1 i / 4 ^ (source - k) = j % (decl.nCells / 4 ^ (source - k)) := by
    intro i hi
    have hcell := nodeCell_child hnode hchild hstarts i
    have hlt := nodeCell_lt hchild hi
    generalize decl.nCells / 4 ^ (source - k) = span at hsize ⊢
    generalize 4 ^ (source - k) = factor at hpos hsize hcell ⊢
    generalize nodeCell decl child source slot.1 i = q at hcell hlt ⊢
    rw [← hsize] at hlt
    have hq : q / factor < span := Nat.div_lt_of_lt_mul (by rwa [Nat.mul_comm])
    have hspan : 0 < span := Nat.lt_of_le_of_lt (Nat.zero_le _) hq
    rw [hcell, ← hsize, ← Nat.mul_assoc, Nat.add_comm, Nat.add_mul_div_right _ _ hpos]
    constructor
    · intro h
      rw [← h, Nat.add_mul_div_right _ _ hspan, Nat.div_eq_of_lt hq, Nat.zero_add,
        Nat.add_mul_mod_self_right, Nat.mod_eq_of_lt hq]
      exact ⟨rfl, rfl⟩
    · intro h
      rw [h.2, ← h.1]
      exact Nat.mod_add_div' j span
  cases ha : exactArray decl leaf name slot with
  | none => simp only [slotValues, ha, Finset.sum_const_zero, ite_self]
  | some values =>
    simp only [slotValues, ha]
    by_cases hrank : j / (decl.nCells / 4 ^ (source - k)) = relRank child node
    · rw [if_pos hrank, Finset.sum_comm]
      apply Finset.sum_congr rfl
      intro i hi
      rw [sum_block _ _ _ hpos]
      have hiff := hplace i (Finset.mem_range.mp hi)
      simp only [hiff, hrank, true_and]
    · rw [if_neg hrank]
      apply Finset.sum_eq_zero
      intro i hi
      apply if_neg
      intro h
      exact hrank ((hplace i (Finset.mem_range.mp hi)).mp h).1

end Values

end Leaves

end Zagg.Sweep.Overview
