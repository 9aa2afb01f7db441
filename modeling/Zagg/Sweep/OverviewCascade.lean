import Zagg.Lib.SortedSet
import Zagg.Sweep.OverviewCells

/-!
# Overviews folded from overviews

A cascading level reads its children's overviews instead of the leaves. Children own
disjoint spans, so each cell is folded from one child, and for an exact law it holds what
the leaves below it hold: the cascade is the fold of the leaves.
-/
namespace Zagg.Sweep.Overview

open Zagg.Lib Zagg.Stats
open Zagg.Stage (Fields FieldMeta ArrayKey Slab Slabs Dtype Law foldDense foldGroup isMissing
  emptySlabs relRank assignSegment)

variable {V N L T : Type}

section Plans
variable {decl : Declaration V N} {k source : Nat}

variable (decl) in
theorem sweepOrders_sorted : decl.sweepOrders.Pairwise (· > ·) := by
  have hsorted : (decl.orders.dedup.insertionSort fun a b => b ≤ a).Pairwise (· > ·) := by
    have hle : (decl.orders.dedup.insertionSort fun a b => b ≤ a).Pairwise fun a b => b ≤ a :=
      List.pairwise_insertionSort _ _
    have hn := (List.perm_insertionSort (fun a b => b ≤ a) decl.orders.dedup).nodup_iff.mpr
      decl.orders.nodup_dedup
    exact (hle.and hn).imp fun h => lt_of_le_of_ne h.1 (Ne.symm h.2)
  rw [Declaration.sweepOrders, List.pairwise_map]
  apply (hsorted.filter _).imp_of_mem
  intro a b _ hb hgt
  have hb := of_decide_eq_true (List.mem_filter.mp hb).2
  show b.toNat < a.toNat
  omega

theorem mem_sweepOrders (h : k ∈ decl.sweepOrders) : k < decl.shardOrder := by
  obtain ⟨i, hi, rfl⟩ := List.mem_map.mp h
  have hi := of_decide_eq_true (List.mem_filter.mp hi).2
  omega

variable (decl) in
/-- The plan of an order, by its place among them. -/
theorem foldPlans_eq : ∃ (exact_ : Nat → Prop) (_ : DecidablePred exact_), exact_ 0 ∧
    foldPlans decl = decl.sweepOrders.zipIdx.map fun o =>
      if exact_ o.2 then (o.1, .leaves)
      else if decl.depth < decl.sweepOrders.getD (o.2 - 1) 0 - o.1 then (o.1, .leaves)
      else (o.1, .cascade (decl.sweepOrders.getD (o.2 - 1) 0)) := by
  let declared := (decl.foldSource.filter (· ≠ "")).getD defaultFoldSource
  let source := if declared ∈ foldSources then declared else defaultFoldSource
  let levels := max 1 ((decl.exactLevels.filter (· ≠ 0)).getD defaultExactLevels)
  refine ⟨fun i => source = "leaves" ∨ (i : Int) < levels, fun i => inferInstance, ?_, rfl⟩
  right
  exact lt_of_lt_of_le (by decide : ((0 : Nat) : Int) < 1) (le_max_left 1 _)

/-- A cascading order reads the order before it, within the depth of the cells. -/
theorem foldPlans_cascade (h : (k, .cascade source) ∈ foldPlans decl) :
    k < source ∧ source < decl.shardOrder ∧ source - k ≤ decl.depth := by
  obtain ⟨exact_, hdec, hfinest, hplans⟩ := foldPlans_eq decl
  rw [hplans] at h
  obtain ⟨⟨order, i⟩, ho, hplan⟩ := List.mem_map.mp h
  obtain ⟨hlt, horder⟩ := List.getElem?_eq_some_iff.mp (List.mk_mem_zipIdx_iff_getElem?.mp ho)
  have hcascades : ¬ exact_ i ∧ ¬ decl.depth < source - k ∧ order = k ∧
      decl.sweepOrders.getD (i - 1) 0 = source := by
    split_ifs at hplan with hexact hdepth
    · cases hplan
    · cases hplan
    · cases hplan
      exact ⟨hexact, hdepth, rfl, rfl⟩
  obtain ⟨hexact, hdepth, rfl, rfl⟩ := hcascades
  have hi : i ≠ 0 := fun hzero => hexact (hzero ▸ hfinest)
  -- the order before is a finer one
  have hprev : decl.sweepOrders.getD (i - 1) 0 = decl.sweepOrders[i - 1] := by
    rw [List.getD_eq_getElem?_getD, List.getElem?_eq_getElem (by omega), Option.getD_some]
  rw [hprev] at hdepth ⊢
  refine ⟨?_, mem_sweepOrders (List.getElem_mem _), Nat.not_lt.mp hdepth⟩
  rw [← horder]
  exact List.pairwise_iff_getElem.mp (sweepOrders_sorted decl) (i - 1) i (by omega) hlt (by omega)

end Plans

variable [DecidableEq V] [DecidableEq N]

section Child
variable {decl : Declaration V N} {k source : Nat} {o : StoredOverview V N T}

/-- An overview as a sweep writes it, that reads as a child of an order. -/
structure Usable (num : Numerics) (decl : Declaration V N) (k source : Nat) (o : StoredOverview V N T) :
    Prop where
  group : ∃ slabs, o.group = writtenGroup decl slabs
  reads : (readChild num decl k source o).isSome

omit [DecidableEq V] in
theorem exact_written {slabs : Slabs V N} {name : N} {d : Dtype V} {law : Law} {fill : V}
    (hf : (name, .exact d law fill) ∈ decl.fields) :
    (writtenGroup decl slabs).arrays (.exact name) = some (slabs (.exact name)) :=
  if_pos (List.mem_flatMap.mpr ⟨_, hf, .head _⟩)

/-- What a field of an overview adds to its parent. -/
def childPart (num : Numerics) (factor span : Nat) (g : Group V N) (f : N × FieldMeta V N) : ChildPart V :=
  (foldChildField num factor span g f).getD .absent

theorem readChild_usable {num : Numerics} (h : Usable num decl k source o) :
    readChild num decl k source o = some (decl.fields.map fun f =>
      (f, childPart num (4 ^ (source - k)) (decl.nCells / 4 ^ (source - k)) o.group f)) := by
  obtain ⟨parts, hparts⟩ := Option.isSome_iff_exists.mp h.reads
  rw [readChild] at hparts ⊢
  split at hparts
  · next hsize =>
    rw [if_pos hsize]
    apply mapM_some
    intro f hf
    obtain ⟨_, -, hr⟩ := forall₂_exists_of_mem_right (forall₂_of_mapM_some hparts).flip hf
    obtain ⟨part, hpart, -⟩ := Option.map_eq_some_iff.mp hr
    rw [childPart, hpart]
    rfl
  · cases hparts

omit [DecidableEq V] in
/-- Assigning siblings leaves every exact array alone. -/
theorem assignSiblings_exact {i span : Nat} {name n : N} (declared : List Channel)
    (words : Channel → Nat → Words) (slabs : Slabs V N) :
    declared.foldl (fun slabs c => slabs.assign (.sibling name c) i span (some (words c))) slabs (.exact n) =
      slabs (.exact n) := by
  induction declared generalizing slabs with
  | nil => rfl
  | cons c declared ih =>
    rw [List.foldl_cons, ih]
    exact Stage.assign_of_ne _ (fun h => by cases h) ..

omit [DecidableEq V] in
/-- A child's field changes the exact array of its own name only. -/
theorem assignPart_of_ne {i span : Nat} {slabs : Slabs V N} {p : (N × FieldMeta V N) × ChildPart V} {name : N}
    (h : p.1.1 ≠ name) : assignPart i span slabs p (.exact name) = slabs (.exact name) := by
  obtain ⟨⟨n, m⟩, part⟩ := p
  cases part with
  | absent => rfl
  | exact values =>
    apply Stage.assign_of_ne
    intro he
    cases he
    exact h rfl
  | packed words => exact Stage.assign_of_ne _ (fun he => by cases he) ..
  | digest cells =>
    refine (assignSiblings_exact _ _ _).trans ?_
    exact Stage.assign_of_ne _ (fun he => by cases he) ..

end Child

section Loop
variable {decl : Declaration V N} {num : Numerics} {overview : Decimal → Option (StoredOverview V N T)}
  {node child : Decimal} {k source : Nat} {acc : CascadeFold V N T} {children : List Decimal}

/-- The cells a child owns of its parent's. -/
def childSpan (decl : Declaration V N) (k source : Nat) : Nat := decl.nCells / 4 ^ (source - k)

omit [DecidableEq V] [DecidableEq N] in
theorem childSpan_pos (hgap : source - k ≤ decl.depth) : 0 < childSpan decl k source :=
  Nat.div_pos (Nat.pow_le_pow_right (by decide) hgap) (Nat.pow_pos (by decide))

variable (node acc) in
/-- A usable child is folded into its span. -/
theorem addChild_usable {o : StoredOverview V N T} (ho : overview child = some o)
    (husable : Usable num decl k source o) :
    (addChild num decl overview node k source acc child).children.folded = acc.children.folded + 1 ∧
      ∀ (name : N) (d : Dtype V) (law : Law) (fill : V) (slab : Nat → V), (name, .exact d law fill) ∈ decl.fields →
        o.group.arrays (.exact name) = some slab →
          (addChild num decl overview node k source acc child).slabs (.exact name) =
            assignSegment (relRank child node) (childSpan decl k source)
              (some (foldDense d law fill (4 ^ (source - k)) slab)) (acc.slabs (.exact name)) := by
  simp only [addChild, ho, readChild_usable husable]
  refine ⟨trivial, fun name d law fill slab hf hslab => ?_⟩
  rw [List.foldl_map]
  apply foldl_view_of_mem Prod.fst (fun slabs f => assignPart (relRank child node) (childSpan decl k source)
      slabs (f, childPart num (4 ^ (source - k)) (childSpan decl k source) o.group f))
    (fun slabs : Slabs V N => slabs (.exact name))
    (fun v => assignSegment (relRank child node) (childSpan decl k source)
      (some (foldDense d law fill (4 ^ (source - k)) slab)) v) decl.names_nodup hf
  · intro f' _ hne b
    exact assignPart_of_ne hne
  · intro b
    have hpart : childPart num (4 ^ (source - k)) (childSpan decl k source) o.group
        (name, .exact d law fill) = .exact (foldDense d law fill (4 ^ (source - k)) slab) := by
      simp only [childPart, foldChildField, hslab, Option.getD_some]
    rw [hpart]
    exact Stage.assign_self ..

theorem addChild_none (h : overview child = none) : addChild num decl overview node k source acc child =
    { acc with children := { acc.children with missing := acc.children.missing + 1 } } := by
  simp only [addChild, h]

variable (node acc) in
/-- A cascade counts the children that are there. -/
theorem folded_children (husable : ∀ c ∈ children, ∀ o, overview c = some o → Usable num decl k source o) :
    (children.foldl (addChild num decl overview node k source) acc).children.folded =
      acc.children.folded + (children.filterMap overview).length := by
  induction children generalizing acc with
  | nil => rfl
  | cons c children ih =>
    rw [List.foldl_cons, ih _ fun c' hc' => husable c' (.tail _ hc')]
    cases ho : overview c with
    | none => rw [addChild_none ho, List.filterMap_cons_none ho]
    | some o =>
      rw [(addChild_usable node acc ho (husable c (.head _) o ho)).1, List.filterMap_cons_some ho,
        List.length_cons]
      omega

variable [Inhabited V]

/-- A cascade before its first child. -/
def startCascade (decl : Declaration V N) : CascadeFold V N T :=
  ⟨emptySlabs decl.fields, 0, [], 0, [], ⟨0, 0, 0⟩⟩

/-- The cells of a child's span are those of its rank. -/
theorem mem_span_iff {i span j : Nat} (hpos : 0 < span) :
    (i * span ≤ j ∧ j < (i + 1) * span) ↔ j / span = i := by
  rw [Nat.div_eq_iff hpos, Nat.succ_mul]
  omega

/-- A cell of a cascade: the fill, unless the child that owns it is folded. -/
theorem cascade_cell {name : N} {d : Dtype V} {law : Law} {fill : V}
    (hf : (name, .exact d law fill) ∈ decl.fields) (hgap : source - k ≤ decl.depth)
    (husable : ∀ c ∈ children, ∀ o, overview c = some o → Usable num decl k source o)
    (hranks : (children.map fun c => relRank c node).Nodup) (j : Nat) :
    ((∀ c ∈ children, relRank c node = j / childSpan decl k source → overview c = none) →
      (children.foldl (addChild num decl overview node k source) (startCascade decl)).slabs
        (.exact name) j = fill) ∧
    ∀ c ∈ children, ∀ (o : StoredOverview V N T) (slab : Nat → V), overview c = some o → o.group.arrays (.exact name) = some slab →
      relRank c node = j / childSpan decl k source →
      (children.foldl (addChild num decl overview node k source) (startCascade decl)).slabs
        (.exact name) j =
          foldDense d law fill (4 ^ (source - k)) slab (j % childSpan decl k source) := by
  have hpos := childSpan_pos hgap
  have hone : ∀ c ∈ children, ∀ o, overview c = some o → ∃ slab, o.group.arrays (.exact name) = some slab ∧
      ∀ acc, (addChild num decl overview node k source acc c).slabs (.exact name) =
        assignSegment (relRank c node) (childSpan decl k source)
          (some (foldDense d law fill (4 ^ (source - k)) slab)) (acc.slabs (.exact name)) := by
    intro c hc o ho
    obtain ⟨stored, hgroup⟩ := (husable c hc o ho).group
    have hstored : o.group.arrays (.exact name) = some (stored (.exact name)) := by
      rw [hgroup]
      exact exact_written hf
    refine ⟨_, hstored, fun acc => ?_⟩
    exact (addChild_usable node acc ho (husable c hc o ho)).2 name d law fill _ hf hstored
  have hkeep : ∀ c ∈ children, (relRank c node = j / childSpan decl k source → overview c = none) →
      ∀ acc, (addChild num decl overview node k source acc c).slabs (.exact name) j =
        acc.slabs (.exact name) j := by
    intro c hc hnot acc
    cases ho : overview c with
    | none => rw [addChild_none ho]
    | some o =>
      obtain ⟨slab, -, hadd⟩ := hone c hc o ho
      rw [hadd acc]
      apply if_neg
      intro hin
      have hnone := hnot ((mem_span_iff hpos).mp hin).symm
      rw [ho] at hnone
      cases hnone
  constructor
  · intro hnone
    have hstart : (startCascade decl : CascadeFold V N T).slabs (.exact name) j = fill :=
      emptySlabs_exact hf j
    exact List.foldlRecOn children _ (motive := fun acc => acc.slabs (.exact name) j = fill) hstart
      fun acc h c hc => (hkeep c hc (hnone c hc) acc).trans h
  · intro c hc o slab ho hslab hrank
    obtain ⟨slab', hslab', hadd⟩ := hone c hc o ho
    rw [hslab] at hslab'
    cases hslab'
    apply foldl_view_of_mem (fun c => relRank c node) (addChild num decl overview node k source)
      (fun acc => acc.slabs (.exact name) j) (fun _ => foldDense d law fill (4 ^ (source - k)) slab
        (j % childSpan decl k source)) hranks hc
    · intro c' hc' hne acc
      exact hkeep c' hc' (fun hrank' => absurd (hrank'.trans hrank.symm) hne) acc
    · intro acc
      rw [hadd acc]
      have hmod := Nat.div_add_mod' j (childSpan decl k source)
      simp only [assignSegment, if_pos ((mem_span_iff hpos).mpr hrank.symm)]
      congr 1
      rw [hrank]
      omega

end Loop

section Slots
variable {decl : Declaration V N} {leaf : Leaves V N L T} {node child : Decimal}
  {k source : Nat} {slots : List (Slot L)} {children : List Decimal}

/-- The slots below a node. -/
def slotsUnder (node : Decimal) (slots : List (Slot L)) : List (Slot L) :=
  slots.filter fun s => s.1.startsWith node

theorem mem_slotsUnder {s : Slot L} : s ∈ slotsUnder node slots ↔ s ∈ slots ∧ s.1.startsWith node = true :=
  List.mem_filter

/-- The children of a node that are of one order, without repetition. -/
structure Siblings (node : Decimal) (source : Nat) (children : List Decimal) : Prop where
  nodup : children.Nodup
  starts : ∀ c ∈ children, c.startsWith node = true
  order : ∀ c ∈ children, c.order = source

theorem Siblings.ranks (h : Siblings node source children) :
    (children.map fun c => relRank c node).Nodup := by
  apply h.nodup.map_on
  intro a ha b hb hrank
  exact relRank_inj (h.starts a ha) (h.starts b hb) ((h.order a ha).trans (h.order b hb).symm) hrank

end Slots

section Right
variable {decl : Declaration V N} {leaf : Leaves V N L T} {node child : Decimal}
  {k source : Nat} {slots : List (Slot L)} {children : List Decimal} {num : Numerics}
  {overview : Decimal → Option (StoredOverview V N T)}

theorem sum_filter_of_zero {A M : Type} [AddCommMonoid M] {p : A → Bool} {f : A → M} {l : List A}
    (h : ∀ a ∈ l, p a = false → f a = 0) : ((l.filter p).map f).sum = (l.map f).sum := by
  induction l with
  | nil => rfl
  | cons a l ih =>
    have hrest := ih fun b hb => h b (.tail _ hb)
    cases ha : p a with
    | true => rw [List.filter_cons_of_pos ha, List.map_cons, List.map_cons, List.sum_cons, List.sum_cons, hrest]
    | false =>
      rw [List.filter_cons_of_neg (by rw [ha]; decide), hrest, List.map_cons, List.sum_cons,
        h a (.head _) ha, zero_add]

/-- The sum of a list of finite sums. -/
theorem sum_list_range {A M : Type} [AddCommMonoid M] (n : Nat) (f : Nat → A → M) (l : List A) :
    ((List.range n).map fun u => (l.map (f u)).sum).sum = (l.map fun a => ∑ u ∈ Finset.range n, f u a).sum := by
  have hrange : ∀ g : Nat → M, ((List.range n).map g).sum = ∑ u ∈ Finset.range n, g u := fun _ => rfl
  rw [hrange]
  induction l with
  | nil => exact Finset.sum_const_zero
  | cons a l ih =>
    simp only [List.map_cons, List.sum_cons]
    rw [Finset.sum_add_distrib, ih]

/-- A fold of some slots as it should be: none when no slot adds, and else with the fold of the
leaf cells below it in every cell of an exact array. -/
def RightFold (decl : Declaration V N) (leaf : Leaves V N L T) (node : Decimal) (k : Nat)
    (slots : List (Slot L)) (out : Option (Fold V N T)) : Prop :=
  (out = none ↔ ∀ s ∈ slots, adds decl leaf s = false) ∧
    ∀ fold, out = some fold → ∀ (name : N) (d : Dtype V) (law : Law) (fill : V),
      (name, .exact d law fill) ∈ decl.fields → ExactLaw d law → ∀ j < decl.nCells,
        ClearOf d law fill (valuesOf d fill (cellsBelow decl leaf node k name slots j)) →
          fold.slabs (.exact name) j = foldGroup d law fill (cellsBelow decl leaf node k name slots j)

omit [DecidableEq N] in
theorem slotValues_skipped (d : Dtype V) (fill : V) {name : N} {j : Nat} {s : Slot L}
    (h : adds decl leaf s = false) : slotValues d fill decl leaf node k name j s = 0 := by
  rw [adds, Option.isSome_eq_false_iff, Option.isNone_iff_eq_none] at h
  rw [slotValues, exactArray, h]
  rfl

omit [DecidableEq N] in
theorem holds_iff {d : Dtype V} {law : Law} {fill : V} [Std.LawfulIdentity (law.reduce d) (law.identity d)]
    [Std.Associative (law.reduce d)] [Std.Commutative (law.reduce d)] {cells : List V} {v : V}
    (hclear : ClearOf d law fill (valuesOf d fill cells)) :
    Holds d law fill (valuesOf d fill cells) v ↔ v = foldGroup d law fill cells := by
  constructor
  · intro h
    exact h.unique (holds_cells hclear)
  · intro h
    rw [h]
    exact holds_cells hclear

variable (node k) in
omit [DecidableEq N] in
/-- Lists of slots with the same adding ones hold the same values. -/
theorem values_congr {slots' : List (Slot L)} (d : Dtype V) (fill : V) (name : N) (j : Nat)
    (h : (slots.filter (adds decl leaf)).Perm (slots'.filter (adds decl leaf))) :
    valuesOf d fill (cellsBelow decl leaf node k name slots j) =
      valuesOf d fill (cellsBelow decl leaf node k name slots' j) := by
  rw [valuesOf_cellsBelow, valuesOf_cellsBelow,
    ← sum_filter_of_zero fun s (_ : s ∈ slots) => slotValues_skipped d fill,
    ← sum_filter_of_zero fun s (_ : s ∈ slots') => slotValues_skipped d fill, (h.map _).sum_eq]

omit [DecidableEq N] in
/-- Right for one list of slots is right for another with the same adding ones. -/
theorem RightFold.congr {slots' : List (Slot L)} {out : Option (Fold V N T)}
    (hright : RightFold decl leaf node k slots out)
    (h : (slots.filter (adds decl leaf)).Perm (slots'.filter (adds decl leaf))) :
    RightFold decl leaf node k slots' out := by
  have hskipped : ∀ l : List (Slot L), (∀ s ∈ l, adds decl leaf s = false) ↔ l.filter (adds decl leaf) = [] := by
    intro l
    rw [List.filter_eq_nil_iff]
    exact forall₂_congr fun s _ => by rw [Bool.not_eq_true]
  constructor
  · rw [hright.1, hskipped, hskipped]
    constructor
    · intro hnil
      rw [hnil] at h
      exact h.nil_eq.symm
    · intro hnil
      rw [hnil] at h
      exact h.eq_nil
  · intro fold hfold name d law fill hf hlaw j hj hclear
    obtain ⟨hassoc, hcomm, hid⟩ := id hlaw
    have hvalues := values_congr node k d fill name j h
    rw [← hvalues] at hclear
    rw [hright.2 fold hfold name d law fill hf hlaw j hj hclear]
    have hholds := holds_cells hclear
    rw [hvalues] at hclear hholds
    exact (holds_iff hclear).mp hholds

section Fold
variable [LinearOrder T] [Inhabited V]

/-- The fold of some slots is right for them. -/
theorem foldSlots_right (hunder : ∀ s ∈ slots, Under decl node k s.1) {out : Option (Fold V N T)}
    (h : (foldSlots num decl leaf node k slots).1 = .ok out) : RightFold decl leaf node k slots out := by
  have hskipped : slots.countP (adds decl leaf) = 0 ↔ ∀ s ∈ slots, adds decl leaf s = false := by
    rw [List.countP_eq_zero]
    exact forall₂_congr fun s _ => by rw [Bool.not_eq_true]
  rcases foldSlots_ok h with ⟨hcount, rfl⟩ | ⟨hcount, fold, rfl, hexact⟩
  · exact ⟨iff_of_true rfl (hskipped.mp hcount), fun fold h => by cases h⟩
  · refine ⟨iff_of_false (fun h => by cases h) fun h => hcount (hskipped.mpr h), ?_⟩
    intro fold' hfold name d law fill hf hlaw j _ hclear
    cases hfold
    obtain ⟨hassoc, hcomm, hid⟩ := hlaw
    rw [hexact name, ← holds_iff hclear]
    exact holds_slots hf hunder j hclear

end Fold

omit [DecidableEq V] [DecidableEq N] in
/-- Column `j`'s block of a child's cells lies in the child. -/
theorem block_lt (hgap : source - k ≤ decl.depth) {j u : Nat} (hu : u < 4 ^ (source - k)) :
    j % childSpan decl k source * 4 ^ (source - k) + u < decl.nCells := by
  have hsize : childSpan decl k source * 4 ^ (source - k) = decl.nCells :=
    Nat.div_mul_cancel (pow_dvd_pow 4 hgap)
  have hmod := Nat.mod_lt j (childSpan_pos hgap)
  calc j % childSpan decl k source * 4 ^ (source - k) + u
      < j % childSpan decl k source * 4 ^ (source - k) + 4 ^ (source - k) := by omega
    _ = (j % childSpan decl k source + 1) * 4 ^ (source - k) := (Nat.succ_mul _ _).symm
    _ ≤ childSpan decl k source * 4 ^ (source - k) := Nat.mul_le_mul_right _ hmod
    _ = decl.nCells := hsize

omit [DecidableEq N] in
/-- A leaf adds to a cell only below the child that owns it. -/
theorem slotValues_below (d : Dtype V) (fill : V) {name : N} (hgap : source - k ≤ decl.depth)
    (hsiblings : Siblings node source children) (hslots : ∀ s ∈ slots, Under decl node k s.1)
    {c : Decimal} (hc : c ∈ children) {s : Slot L} (hs : s ∈ slotsUnder c slots) (j : Nat) :
    slotValues d fill decl leaf node k name j s =
      if j / childSpan decl k source = relRank c node then
        ∑ u ∈ Finset.range (4 ^ (source - k)), slotValues d fill decl leaf c source name
          (j % childSpan decl k source * 4 ^ (source - k) + u) s
      else 0 := by
  obtain ⟨hmem, hstarts⟩ := mem_slotsUnder.mp hs
  have hunder : Under decl c source s.1 :=
    ⟨hsiblings.order c hc, (hslots s hmem).shard, hstarts⟩
  exact slotValues_child d fill (hslots s hmem) hunder (hsiblings.starts c hc) hgap j

omit [DecidableEq N] in
/-- The values below an owned cell are those below its block of the owner's cells. -/
theorem values_owned (leaf : Leaves V N L T) (d : Dtype V) (fill : V) (name : N) (hgap : source - k ≤ decl.depth)
    (hsiblings : Siblings node source children)
    (hcover : ∀ s ∈ slots, ∃ c ∈ children, s.1.startsWith c = true)
    (hslots : ∀ s ∈ slots, Under decl node k s.1) {c : Decimal} (hc : c ∈ children) {j : Nat}
    (hrank : relRank c node = j / childSpan decl k source) :
    valuesOf d fill (cellsBelow decl leaf node k name slots j) =
      ((List.range (4 ^ (source - k))).map fun u => valuesOf d fill (cellsBelow decl leaf c source name
        (slotsUnder c slots) (j % childSpan decl k source * 4 ^ (source - k) + u))).sum := by
  have hblock : ∀ s ∈ slotsUnder c slots, slotValues d fill decl leaf node k name j s =
      ∑ u ∈ Finset.range (4 ^ (source - k)), slotValues d fill decl leaf c source name
        (j % childSpan decl k source * 4 ^ (source - k) + u) s := by
    intro s hs
    rw [slotValues_below d fill hgap hsiblings hslots hc hs, if_pos hrank.symm]
  have hothers : ∀ s ∈ slots, s.1.startsWith c = false →
      slotValues d fill decl leaf node k name j s = 0 := by
    intro s hs hnot
    obtain ⟨c', hc', hstarts⟩ := hcover s hs
    rw [slotValues_below d fill hgap hsiblings hslots hc' (mem_slotsUnder.mpr ⟨hs, hstarts⟩), if_neg]
    intro hrank'
    have hsame : c' = c := relRank_inj (hsiblings.starts c' hc') (hsiblings.starts c hc)
      ((hsiblings.order c' hc').trans (hsiblings.order c hc).symm) (hrank'.symm.trans hrank.symm)
    rw [hsame, hnot] at hstarts
    cases hstarts
  rw [valuesOf_cellsBelow, ← sum_filter_of_zero hothers]
  show ((slotsUnder c slots).map _).sum = _
  rw [List.map_congr_left hblock, ← sum_list_range]
  congr 1
  apply List.map_congr_left
  intro u _
  rw [valuesOf_cellsBelow]

/-- A child as a finer level leaves it: an overview of a right fold of the leaves below it, or none
when none of them adds. -/
def ChildRight (decl : Declaration V N) (leaf : Leaves V N L T) (source : Nat)
    (slots : List (Slot L)) (child : Decimal) (stored : Option (StoredOverview V N T)) : Prop :=
  ∃ out, stored = out.map (writeOverview decl source) ∧
    RightFold decl leaf child source (slotsUnder child slots) out

/-- No value stands below a cell whose owner stored no overview. -/
theorem values_unowned (d : Dtype V) (fill : V) {name : N} (hgap : source - k ≤ decl.depth)
    (hsiblings : Siblings node source children)
    (hcover : ∀ s ∈ slots, ∃ c ∈ children, s.1.startsWith c = true)
    (hslots : ∀ s ∈ slots, Under decl node k s.1)
    (hright : ∀ c ∈ children, ChildRight decl leaf source slots c (overview c)) {j : Nat}
    (hnone : ∀ c ∈ children, relRank c node = j / childSpan decl k source → overview c = none) :
    valuesOf d fill (cellsBelow decl leaf node k name slots j) = 0 := by
  rw [valuesOf_cellsBelow]
  apply List.sum_eq_zero
  intro v hv
  obtain ⟨s, hs, rfl⟩ := List.mem_map.mp hv
  obtain ⟨c, hc, hstarts⟩ := hcover s hs
  have hmem : s ∈ slotsUnder c slots := mem_slotsUnder.mpr ⟨hs, hstarts⟩
  by_cases hrank : j / childSpan decl k source = relRank c node
  · obtain ⟨out, hstored, hout⟩ := hright c hc
    rw [hnone c hc hrank.symm, eq_comm, Option.map_eq_none_iff] at hstored
    exact slotValues_skipped d fill (hout.1.mp hstored s hmem)
  · rw [slotValues_below d fill hgap hsiblings hslots hc hmem, if_neg hrank]

section Cascade
variable [Inhabited V]

/-- One cell of a cascade holds the leaf cells below it. -/
theorem cascade_exact {name : N} {d : Dtype V} {law : Law} {fill : V}
    (hf : (name, .exact d law fill) ∈ decl.fields) (hlaw : ExactLaw d law)
    (hgap : source - k ≤ decl.depth) (hsiblings : Siblings node source children)
    (hcover : ∀ s ∈ slots, ∃ c ∈ children, s.1.startsWith c = true)
    (hslots : ∀ s ∈ slots, Under decl node k s.1)
    (hright : ∀ c ∈ children, ChildRight decl leaf source slots c (overview c))
    (husable : ∀ c ∈ children, ∀ o, overview c = some o → Usable num decl k source o) {j : Nat}
    (hclear : ClearOf d law fill (valuesOf d fill (cellsBelow decl leaf node k name slots j))) :
    (children.foldl (addChild num decl overview node k source) (startCascade decl)).slabs (.exact name) j =
      foldGroup d law fill (cellsBelow decl leaf node k name slots j) := by
  obtain ⟨hassoc, hcomm, hid⟩ := id hlaw
  obtain ⟨hfill, hcell⟩ := cascade_cell hf hgap husable hsiblings.ranks j
  rw [← holds_iff hclear]
  by_cases howner : ∃ c ∈ children, relRank c node = j / childSpan decl k source ∧ overview c ≠ none
  · obtain ⟨c, hc, hrank, hsome⟩ := howner
    obtain ⟨_ | fold, hstored, hfold⟩ := hright c hc
    · exact absurd hstored hsome
    have hvalue := hcell c hc _ (fold.slabs (.exact name)) hstored (exact_written hf) hrank
    have hvalues := values_owned leaf d fill name hgap hsiblings hcover hslots hc hrank
    rw [hvalue, hvalues]
    rw [hvalues] at hclear
    apply holds_foldGroup (List.range (4 ^ (source - k)))
      (fun u => fold.slabs (.exact name) (j % childSpan decl k source * 4 ^ (source - k) + u)) _ _ hclear
    intro u hu
    have hpart : ClearOf d law fill (valuesOf d fill (cellsBelow decl leaf c source name
        (slotsUnder c slots) (j % childSpan decl k source * 4 ^ (source - k) + u))) := by
      apply hclear.mono
      apply List.single_le_sum (fun _ _ => Multiset.zero_le _)
      exact List.mem_map_of_mem hu
    have hchild := (holds_iff hpart).mpr
      (hfold.2 fold rfl name d law fill hf hlaw _ (block_lt hgap (List.mem_range.mp hu)) hpart)
    exact hchild.standsFor (isMissing_fill d fill)
  · have hnone : ∀ c ∈ children, relRank c node = j / childSpan decl k source → overview c = none := by
      intro c hc hrank
      by_contra hsome
      exact howner ⟨c, hc, hrank, hsome⟩
    rw [hfill hnone, values_unowned d fill hgap hsiblings hcover hslots hright hnone]
    exact foldsTo_zero

variable [LinearOrder T]

/-- The cascade of right children is right. -/
theorem cascadeNode_right {nodeShards : List Decimal}
    (hchildren : children = Decimal.sorted (nodeShards.map fun d => d.nodeAt source))
    (hgap : source - k ≤ decl.depth) (hsiblings : Siblings node source children)
    (hcover : ∀ s ∈ slots, ∃ c ∈ children, s.1.startsWith c = true)
    (hslots : ∀ s ∈ slots, Under decl node k s.1)
    (hright : ∀ c ∈ children, ChildRight decl leaf source slots c (overview c))
    (husable : ∀ c ∈ children, ∀ o, overview c = some o → Usable num decl k source o) :
    RightFold decl leaf node k slots (cascadeNode num decl overview node k source nodeShards).1 := by
  have hfolded : (children.foldl (addChild num decl overview node k source)
      (startCascade decl)).children.folded = (children.filterMap overview).length :=
    (folded_children node (startCascade decl) husable).trans (Nat.zero_add _)
  have hskipped : (children.filterMap overview).length = 0 ↔ ∀ s ∈ slots, adds decl leaf s = false := by
    rw [List.length_eq_zero_iff, List.filterMap_eq_nil_iff]
    constructor
    · intro hnone s hs
      obtain ⟨c, hc, hstarts⟩ := hcover s hs
      obtain ⟨out, hstored, hout⟩ := hright c hc
      rw [hnone c hc, eq_comm, Option.map_eq_none_iff] at hstored
      exact hout.1.mp hstored s (mem_slotsUnder.mpr ⟨hs, hstarts⟩)
    · intro hno c hc
      obtain ⟨out, hstored, hout⟩ := hright c hc
      rw [hstored, Option.map_eq_none_iff, hout.1]
      exact fun s hs => hno s (mem_slotsUnder.mp hs).1
  rw [← hfolded] at hskipped
  rw [cascadeNode, ← hchildren]
  show RightFold _ _ _ _ _ (if (children.foldl (addChild num decl overview node k source)
    (startCascade decl)).children.folded = 0 then none else _)
  split
  · next hzero => exact ⟨iff_of_true rfl (hskipped.mp hzero), fun fold h => by cases h⟩
  · next hpos =>
    refine ⟨iff_of_false (fun h => by cases h) fun h => hpos (hskipped.mpr h), fun fold hfold => ?_⟩
    cases hfold
    intro name d law fill hf hlaw j _ hclear
    exact cascade_exact hf hlaw hgap hsiblings hcover hslots hright husable hclear

end Cascade

end Right

section Complete
variable {num : Numerics} {decl : Declaration V N} {leaf : Leaves V N L T} {node : Decimal}
  {k source : Nat} {candidates : List Decimal} {windows : List (Window L)}
  {overview : Decimal → Option (StoredOverview V N T)} [LinearOrder T] [Inhabited V]

/-- The places a node's fold visits. -/
def placesBelow (candidates : List Decimal) (windows : List (Window L)) (node : Decimal) : List (Slot L) :=
  (shardsBelow candidates node).flatMap fun dec => windows.map fun window => (dec, window)

/-- The candidate children of a node at a finer order. -/
def childrenAt (candidates : List Decimal) (node : Decimal) (source : Nat) : List Decimal :=
  Decimal.sorted ((shardsBelow candidates node).map fun d => d.nodeAt source)

/-- A node's overview, or none, as the sweeps of a declaration complete it over some windows: the fold
of its leaves, over those windows or others where the same leaves add, or the cascade of complete
overviews that all read. -/
inductive Complete (num : Numerics) (decl : Declaration V N) (leaf : Leaves V N L T)
    (candidates : List Decimal) (windows : List (Window L)) :
    Nat → Decimal → Option (StoredOverview V N T) → Prop
  | leaves {k : Nat} {node : Decimal} {foldWindows : List (Window L)} {out : Option (Fold V N T)}
      (fold : (foldNode num decl leaf node k foldWindows (shardsBelow candidates node)).1 = .ok out)
      (same : ((placesBelow candidates foldWindows node).filter (adds decl leaf)).Perm
        ((placesBelow candidates windows node).filter (adds decl leaf))) :
      Complete num decl leaf candidates windows k node (out.map (writeOverview decl k))
  | cascade {k source : Nat} {node : Decimal} {overview : Decimal → Option (StoredOverview V N T)}
      (plan : (k, .cascade source) ∈ foldPlans decl)
      (children : ∀ c ∈ childrenAt candidates node source,
        Complete num decl leaf candidates windows source c (overview c))
      (reads : ∀ c ∈ childrenAt candidates node source, ∀ o, overview c = some o →
        (readChild num decl k source o).isSome) :
      Complete num decl leaf candidates windows k node
        ((cascadeNode num decl overview node k source (shardsBelow candidates node)).1.map
          (writeOverview decl k))

theorem mem_shardsBelow {d : Decimal} :
    d ∈ shardsBelow candidates node ↔ d ∈ candidates ∧ d.startsWith node = true := by
  rw [shardsBelow, Decimal.mem_sorted, List.mem_filter]

omit [DecidableEq V] [DecidableEq N] [Inhabited V] in
theorem under_placesBelow (hshards : ∀ d ∈ candidates, d.order = decl.shardOrder) (hnode : node.order = k)
    {s : Slot L} (hs : s ∈ placesBelow candidates windows node) : Under decl node k s.1 := by
  obtain ⟨dec, hdec, hs⟩ := List.mem_flatMap.mp hs
  obtain ⟨_, -, rfl⟩ := List.mem_map.mp hs
  obtain ⟨hin, hstarts⟩ := mem_shardsBelow.mp hdec
  exact ⟨hnode, hshards dec hin, hstarts⟩

/-- The places below a child are those of the node below it. -/
theorem placesBelow_child {child : Decimal} (hstarts : child.startsWith node = true) :
    (placesBelow candidates windows child).Perm (slotsUnder child (placesBelow candidates windows node)) := by
  have hunder : ∀ shards : List Decimal,
      slotsUnder child (shards.flatMap fun dec => windows.map fun window => (dec, window)) =
        (shards.filter fun d => d.startsWith child).flatMap fun dec => windows.map fun window => (dec, window) := by
    intro shards
    induction shards with
    | nil => rfl
    | cons dec shards ih =>
      have hshard : ∀ s ∈ windows.map fun window => (dec, window), s.1 = dec := by
        intro s hs
        obtain ⟨_, -, rfl⟩ := List.mem_map.mp hs
        rfl
      rw [List.flatMap_cons, slotsUnder, List.filter_append, List.filter_cons]
      by_cases hdec : dec.startsWith child = true
      · rw [if_pos hdec, List.flatMap_cons, List.filter_eq_self.mpr fun s hs => (hshard s hs).symm ▸ hdec]
        exact congrArg _ ih
      · rw [if_neg hdec, List.filter_eq_nil_iff.mpr fun s hs => (hshard s hs).symm ▸ hdec, List.nil_append]
        exact ih
  rw [placesBelow, placesBelow, hunder]
  apply List.Perm.flatMap_right
  apply (List.perm_ext_iff_of_nodup (Decimal.nodup_sorted _) ((Decimal.nodup_sorted _).filter _)).mpr
  intro d
  show d ∈ shardsBelow candidates child ↔ d ∈ (shardsBelow candidates node).filter _
  rw [mem_shardsBelow, List.mem_filter, mem_shardsBelow]
  constructor
  · intro hd
    exact ⟨⟨hd.1, Decimal.startsWith_trans hd.2 hstarts⟩, hd.2⟩
  · intro hd
    exact ⟨hd.1.1, hd.2⟩

theorem mem_childrenAt {c : Decimal} (hc : c ∈ childrenAt candidates node source) :
    ∃ d ∈ candidates, d.startsWith node = true ∧ c = d.nodeAt source := by
  obtain ⟨d, hd, rfl⟩ := List.mem_map.mp (Decimal.mem_sorted.mp hc)
  obtain ⟨hin, hstarts⟩ := mem_shardsBelow.mp hd
  exact ⟨d, hin, hstarts, rfl⟩

omit [DecidableEq V] [DecidableEq N] [Inhabited V] in
theorem siblings_childrenAt (hshards : ∀ d ∈ candidates, d.order = decl.shardOrder) (hnode : node.order = k)
    (hplan : (k, .cascade source) ∈ foldPlans decl) : Siblings node source (childrenAt candidates node source) := by
  obtain ⟨hk, hsource, -⟩ := foldPlans_cascade hplan
  constructor
  · exact Decimal.nodup_sorted _
  · intro c hc
    obtain ⟨d, -, hstarts, rfl⟩ := mem_childrenAt hc
    obtain ⟨t, rfl⟩ := Decimal.startsWith_iff.mp hstarts
    apply Decimal.startsWith_iff.mpr
    refine ⟨t.take (source - node.order), ?_⟩
    have horder : node.digits.length = k := hnode
    have htake : (node.digits ++ t).take source = node.digits ++ t.take (source - node.digits.length) := by
      rw [List.take_append, List.take_of_length_le (by omega)]
    exact congrArg (Decimal.mk node.base) htake
  · intro c hc
    obtain ⟨d, hd, -, rfl⟩ := mem_childrenAt hc
    rw [Decimal.order_nodeAt, hshards d hd]
    exact Nat.min_eq_left hsource.le

theorem covered_placesBelow (source : Nat) {s : Slot L} (hs : s ∈ placesBelow candidates windows node) :
    ∃ c ∈ childrenAt candidates node source, s.1.startsWith c = true := by
  obtain ⟨dec, hdec, hs⟩ := List.mem_flatMap.mp hs
  obtain ⟨_, -, rfl⟩ := List.mem_map.mp hs
  exact ⟨dec.nodeAt source, Decimal.mem_sorted.mpr (List.mem_map_of_mem hdec), Decimal.startsWith_nodeAt _ _⟩

theorem foldNode_right (hshards : ∀ d ∈ candidates, d.order = decl.shardOrder) (hnode : node.order = k)
    {out : Option (Fold V N T)}
    (h : (foldNode num decl leaf node k windows (shardsBelow candidates node)).1 = .ok out) :
    RightFold decl leaf node k (placesBelow candidates windows node) out :=
  foldSlots_right (fun _ hs => under_placesBelow hshards hnode hs) h

/-- The cascade of children whose overviews are right for the leaves below them. -/
theorem cascadeNode_places (hshards : ∀ d ∈ candidates, d.order = decl.shardOrder) (hnode : node.order = k)
    (hplan : (k, .cascade source) ∈ foldPlans decl)
    (hright : ∀ c ∈ childrenAt candidates node source, ∃ out, overview c = out.map (writeOverview decl source) ∧
      RightFold decl leaf c source (placesBelow candidates windows c) out)
    (hreads : ∀ c ∈ childrenAt candidates node source, ∀ o, overview c = some o →
      (readChild num decl k source o).isSome) :
    RightFold decl leaf node k (placesBelow candidates windows node)
      (cascadeNode num decl overview node k source (shardsBelow candidates node)).1 := by
  obtain ⟨-, -, hgap⟩ := foldPlans_cascade hplan
  have hsiblings := siblings_childrenAt hshards hnode hplan
  apply cascadeNode_right rfl hgap hsiblings
  · exact fun s hs => covered_placesBelow source hs
  · exact fun s hs => under_placesBelow hshards hnode hs
  · intro c hc
    obtain ⟨out, hstored, hout⟩ := hright c hc
    refine ⟨out, hstored, hout.congr ?_⟩
    exact (placesBelow_child (hsiblings.starts c hc)).filter _
  · intro c hc o ho
    obtain ⟨out, hstored, -⟩ := hright c hc
    refine ⟨?_, hreads c hc o ho⟩
    rw [hstored] at ho
    obtain ⟨fold, -, rfl⟩ := Option.map_eq_some_iff.mp ho
    exact ⟨fold.slabs, rfl⟩

/-- A complete overview is right for the leaves below its node. -/
theorem Complete.right (hshards : ∀ d ∈ candidates, d.order = decl.shardOrder)
    {stored : Option (StoredOverview V N T)} (h : Complete num decl leaf candidates windows k node stored)
    (hnode : node.order = k) : ∃ out, stored = out.map (writeOverview decl k) ∧
      RightFold decl leaf node k (placesBelow candidates windows node) out := by
  induction h with
  | leaves fold same => exact ⟨_, rfl, (foldNode_right hshards hnode fold).congr same⟩
  | @cascade k source node overview plan children reads ih =>
    have hsiblings := siblings_childrenAt hshards hnode plan
    refine ⟨_, rfl, cascadeNode_places hshards hnode plan (fun c hc => ?_) reads⟩
    exact ih c hc (hsiblings.order c hc)

/-- The cascade of a node whose children are complete and read is the fold of its leaves: one gives an
overview exactly when the other does, with the same value in every cell of an exact array below
which no values fold to the fill. -/
theorem cascadeNode_eq_foldNode {name : N} {d : Dtype V} {law : Law} {fill : V}
    (hfield : (name, .exact d law fill) ∈ decl.fields) (hlaw : ExactLaw d law)
    (hshards : ∀ d ∈ candidates, d.order = decl.shardOrder) (hnode : node.order = k)
    (hplan : (k, .cascade source) ∈ foldPlans decl)
    (hcomplete : ∀ c ∈ childrenAt candidates node source,
      Complete num decl leaf candidates windows source c (overview c))
    (hreads : ∀ c ∈ childrenAt candidates node source, ∀ o, overview c = some o →
      (readChild num decl k source o).isSome) {direct : Option (Fold V N T)}
    (hdirect : (foldNode num decl leaf node k windows (shardsBelow candidates node)).1 = .ok direct) :
    ((cascadeNode num decl overview node k source (shardsBelow candidates node)).1.isSome = direct.isSome) ∧
      ∀ j < decl.nCells,
        ClearOf d law fill (valuesOf d fill
          (cellsBelow decl leaf node k name (placesBelow candidates windows node) j)) →
        (cascadeNode num decl overview node k source (shardsBelow candidates node)).1.map
            (fun fold => fold.slabs (.exact name) j) =
          direct.map fun fold => fold.slabs (.exact name) j := by
  have hsiblings := siblings_childrenAt hshards hnode hplan
  have hcascade : RightFold decl leaf node k (placesBelow candidates windows node)
      (cascadeNode num decl overview node k source (shardsBelow candidates node)).1 :=
    cascadeNode_places hshards hnode hplan
      (fun c hc => (hcomplete c hc).right hshards (hsiblings.order c hc)) hreads
  have hleaves := foldNode_right hshards hnode hdirect
  generalize (cascadeNode num decl overview node k source (shardsBelow candidates node)).1 = cascaded
    at hcascade ⊢
  have hnone : cascaded = none ↔ direct = none := hcascade.1.trans hleaves.1.symm
  cases cascaded with
  | none =>
    rw [hnone.mp rfl]
    exact ⟨rfl, fun _ _ _ => rfl⟩
  | some cascaded =>
    cases direct with
    | none => cases hnone.mpr rfl
    | some direct =>
      refine ⟨rfl, fun j hj hclear => ?_⟩
      rw [Option.map_some, Option.map_some, hcascade.2 cascaded rfl name d law fill hfield hlaw j hj hclear,
        hleaves.2 direct rfl name d law fill hfield hlaw j hj hclear]

end Complete

/-! Two shards of a store with one count field and two declared orders, the coarser a cascade. -/

def pyramid : Declaration Nat String where
  fields := [("count", .exact Stage.natDtype .sum 0)]
  names_nodup := List.nodup_singleton _
  shardOrder := 2
  cellOrder := 3
  order_le := Nat.le_succ 2
  orders := [0, 1]
  foldSource := none
  exactLevels := none
  windowed := false

def pyramidNumerics : Numerics := ⟨fun _ q => q, id, fun _ => 0, fun _ => 0⟩

def pyramidArrays (values : Nat → Nat) : (k : ArrayKey String) → Option (Slab Nat k)
  | .exact _ => some values
  | .digest _ => none
  | .sibling _ _ => none
  | .packed _ => none

def pyramidNode (digits : List (Fin 4)) : Decimal := ⟨⟨false, ⟨0, Base.cell_pos⟩⟩, digits⟩

def firstShard : Decimal := pyramidNode [⟨0, Decimal.digit_pos⟩, ⟨1, Decimal.one_lt_digits⟩]

def secondShard : Decimal := pyramidNode [⟨1, Decimal.one_lt_digits⟩, ⟨0, Decimal.digit_pos⟩]

def pyramidLeaves : Leaves Nat String Nat Nat := fun slot =>
  some ⟨some ⟨some 1, 1, none⟩, some ⟨4,
    pyramidArrays fun i => if slot.1 = firstShard then i else 2 * i + 1, fun _ => true⟩⟩

/-- The overviews that the finer order folds from the leaves. -/
def pyramidOverview (node : Decimal) : Option (StoredOverview Nat String Nat) :=
  ((foldNode pyramidNumerics pyramid pyramidLeaves node 1 [⊥]
    (shardsBelow [firstShard, secondShard] node)).1.toOption.bind id).map (writeOverview pyramid 1)

/-- Counts do not add up to no count. -/
theorem pyramid_clear (cells : List Nat) :
    ClearOf Stage.natDtype .sum 0 (valuesOf Stage.natDtype 0 cells) := by
  intro l hne hle
  obtain ⟨v, l, rfl⟩ := List.exists_cons_of_ne_nil hne
  have hv : v ∈ valuesOf Stage.natDtype 0 cells := Multiset.mem_of_le hle (.head _)
  have hpos : v ≠ 0 := by simpa [isMissing, Stage.natDtype] using List.of_mem_filter hv
  have hsum : (v :: l).foldl (· + ·) 0 = (v :: l).sum := List.sum_eq_foldl.symm
  have hsome : (v :: l).foldl (· + ·) 0 ≠ 0 := by
    rw [hsum, List.sum_cons]
    omega
  exact decide_eq_false hsome

theorem pyramid_law : ExactLaw Stage.natDtype .sum :=
  ⟨⟨Nat.add_assoc⟩, ⟨Nat.add_comm⟩, inferInstanceAs (Std.LawfulIdentity (fun a b : Nat => a + b) 0)⟩

theorem cascadeNode_eq_foldNode_two_shards : ∃ direct,
    (foldNode pyramidNumerics pyramid pyramidLeaves (pyramidNode []) 0 [⊥]
      (shardsBelow [firstShard, secondShard] (pyramidNode []))).1 = .ok (some direct) ∧
    ∀ j < 4, (cascadeNode pyramidNumerics pyramid pyramidOverview (pyramidNode []) 0 1
        (shardsBelow [firstShard, secondShard] (pyramidNode []))).1.map
        (fun fold => fold.slabs (.exact "count") j) =
      some (direct.slabs (.exact "count") j) := by
  have hchildren : childrenAt [firstShard, secondShard] (pyramidNode []) 1 =
      [pyramidNode [⟨0, Decimal.digit_pos⟩], pyramidNode [⟨1, Decimal.one_lt_digits⟩]] := by decide
  have hfield : ("count", .exact Stage.natDtype .sum 0) ∈ pyramid.fields := .head _
  have hnode : (pyramidNode []).order = 0 := rfl
  have hplan : (0, .cascade 1) ∈ foldPlans pyramid := .tail _ (.head _)
  have hdirect : ∃ direct, (foldNode pyramidNumerics pyramid pyramidLeaves (pyramidNode []) 0 [⊥]
      (shardsBelow [firstShard, secondShard] (pyramidNode []))).1 = .ok (some direct) := ⟨_, rfl⟩
  obtain ⟨direct, hdirect⟩ := hdirect
  refine ⟨direct, hdirect, fun j hj => ?_⟩
  refine (cascadeNode_eq_foldNode hfield pyramid_law ?_ hnode hplan ?_ ?_ hdirect).2 j hj (pyramid_clear _)
  · intro d hd
    rcases List.mem_cons.mp hd with rfl | hd
    · rfl
    · rw [List.mem_singleton.mp hd]
      rfl
  · rw [hchildren]
    intro c hc
    rcases List.mem_cons.mp hc with rfl | hc
    · exact .leaves rfl .rfl
    · rw [List.mem_singleton.mp hc]
      exact .leaves rfl .rfl
  · rw [hchildren]
    intro c hc o ho
    rcases List.mem_cons.mp hc with rfl | hc
    · cases ho
      rfl
    · rw [List.mem_singleton.mp hc] at ho
      cases ho
      rfl

end Zagg.Sweep.Overview
