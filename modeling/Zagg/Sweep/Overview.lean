import Zagg.Lib.Dict
import Zagg.Stage.StageFold
import Zagg.Sweep.Rollup

/-!
# The overviews of a node

An overview is a node's slab of cells, one for each declared order above the shards. The
finest orders fold from the committed leaves below the node, the coarser ones from the
overviews of the next finer order, and an order too far above that one from the leaves
again.
-/
namespace Zagg.Sweep.Overview

open Zagg.Lib Zagg.Stats
open Zagg.Stage (Fields FieldMeta ArrayKey Slab Slabs Dtype Law foldDense combineDense emptySlabs
  Packing payloadWeight TimeRange unionTimeRange relRank setDigest SourceCounts)

variable {V N L T : Type}

/-- One resolution group as it is stored: its cells, its arrays, and the digest fields whose
weights and companion declarations are the store's. -/
structure Group (V N : Type) where
  cells : Nat
  arrays : (k : ArrayKey N) → Option (Slab V k)
  declared : N → Bool

structure LeafStamp (T : Type) where
  writtenAt : Option T
  granuleCount : Nat
  timeRange : Option TimeRange

/-- A leaf: its commit stamp, if it is committed, and its group at the store's cell order,
if that can be opened. -/
structure Leaf (V N T : Type) where
  stamp : Option (LeafStamp T)
  group : Option (Group V N)

/-- A leaf's place: its shard and its window. -/
abbrev Slot (L : Type) := Decimal × Window L

/-- The leaves of a store. -/
abbrev Leaves (V N L T : Type) := Slot L → Option (Leaf V N T)

/-- `(fold_source, source_order)`. -/
inductive FoldSource
  | leaves
  | cascade (order : Nat)
deriving DecidableEq

/-- A folded node, before it is written. -/
structure Fold (V N T : Type) where
  slabs : Slabs V N
  generation : Generation T
  granuleCount : Nat
  timeRange : Option TimeRange
  source : FoldSource
  sourceChildren : Option SourceCounts

/-- A written overview: its stamp, its provenance and its group at its own cell order. -/
structure StoredOverview (V N T : Type) where
  order : Nat
  cellOrder : Nat
  generation : Generation T
  source : FoldSource
  sourceChildren : Option SourceCounts
  granuleCount : Nat
  timeRange : Option TimeRange
  group : Group V N

/-- The declaration of a store's overviews. -/
structure Declaration (V N : Type) where
  fields : Fields V N
  names_nodup : (fields.map Prod.fst).Nodup
  shardOrder : Nat
  cellOrder : Nat
  order_le : shardOrder ≤ cellOrder
  orders : List Int
  foldSource : Option String
  /-- `int(exact_levels)`, `none` when it is absent or unusable. -/
  exactLevels : Option Int
  windowed : Bool

namespace Declaration

variable (decl : Declaration V N)

/-- The orders between a leaf's shard and its cells, and between every node and its own. -/
def depth : Nat := decl.cellOrder - decl.shardOrder

def targetOrder (k : Nat) : Nat := decl.cellOrder - (decl.shardOrder - k)

/-- The cells of a leaf, and of every overview. -/
def nCells : Nat := 4 ^ decl.depth

/-- The declared orders above the shards, finest first. -/
def sweepOrders : List Nat :=
  ((decl.orders.dedup.insertionSort fun a b => b ≤ a).filter fun k : Int =>
    0 ≤ k ∧ k < decl.shardOrder).map Int.toNat

end Declaration

def foldSources : List String := ["cascade", "leaves"]

def defaultFoldSource : String := "cascade"

def defaultExactLevels : Int := 1

/-- `_fold_sources`: each order with the source it folds from, finest first. -/
def foldPlans (decl : Declaration V N) : List (Nat × FoldSource) :=
  let declared := (decl.foldSource.filter (· ≠ "")).getD defaultFoldSource
  let declared := if declared ∈ foldSources then declared else defaultFoldSource
  let levels := (decl.exactLevels.filter (· ≠ 0)).getD defaultExactLevels
  let exactLevels := max 1 levels
  let orders := decl.sweepOrders
  orders.zipIdx.map fun o =>
    if declared = "leaves" ∨ (o.2 : Int) < exactLevels then (o.1, .leaves)
    else
      let finer := orders.getD (o.2 - 1) 0
      if decl.depth < finer - o.1 then (o.1, .leaves) else (o.1, .cascade finer)

/-! ## One leaf of a node -/

/-- The output cells of a leaf, and how many of its cells fold to one of them. -/
structure Span where
  start : Nat
  span : Nat
  factor : Nat

/-- Where a shard's cells lie in a node's slab. Above its cells a shard is part of one. -/
def leafSpan (decl : Declaration V N) (node : Decimal) (k : Nat) (dec : Decimal) : Span :=
  let target := decl.targetOrder k
  if decl.shardOrder ≤ target then
    ⟨relRank dec node * 4 ^ (target - decl.shardOrder), 4 ^ (target - decl.shardOrder),
      4 ^ (decl.shardOrder - k)⟩
  else ⟨relRank (dec.nodeAt target) node, 1, decl.nCells⟩

/-- What one field of a leaf adds. -/
inductive FieldPart (V : Type)
  | absent
  | exact (values : Nat → V)
  | digests (cells : List (Nat × Part))
  | words (cells : List (Nat × (Word × Nat)))
  | poison

/-- The declared siblings of a digest field; a missing one raises. -/
def readSiblings (g : Group V N) (f : N × FieldMeta V N) : Option (List (Nat → Words)) :=
  f.2.companions.mapM fun c => g.arrays (.sibling f.1 c)

/-- One cell's payload with the words of its channels. -/
def partAt (values : Nat → Digest) (siblings : List (Nat → Words)) (i : Nat) : Part :=
  ⟨values i, siblings.map fun s => s i⟩

section
variable [DecidableEq V]

/-- Read one field of a leaf; `none` raises. -/
def readField (decl : Declaration V N) (at_ : Span) (g : Group V N) (f : N × FieldMeta V N) :
    Option (FieldPart V) :=
  match f.2 with
  | .exact d law fill =>
    match g.arrays (.exact f.1) with
    | none => some .absent
    | some values => some (.exact (foldDense d law fill at_.factor values))
  | .packed of =>
    match g.arrays (.packed f.1), g.arrays (.digest of) with
    | none, none => some .absent
    -- the divisor folds below without this leaf's words: its cells keep the fill
    | none, some _ => some .poison
    | some _, none => some .absent
    | some words, some ofValues =>
      some (.words ((List.range decl.nCells).filterMap fun i =>
        let n := payloadWeight (ofValues i)
        if 0 < n then some (at_.start + i / at_.factor, (words i, n)) else none))
  | .approximate _ _ _ =>
    match g.arrays (.digest f.1) with
    | none => some .absent
    | some values =>
      if g.declared f.1 then
        (readSiblings g f).map fun siblings =>
          .digests ((List.range decl.nCells).filterMap fun i =>
            if values i = [] then none
            else some (at_.start + i / at_.factor, partAt values siblings i))
      else none

/-- Read a leaf whole before any of it is applied. -/
def readLeaf (decl : Declaration V N) (at_ : Span) (group : Option (Group V N)) :
    Option (List ((N × FieldMeta V N) × FieldPart V)) :=
  group.bind fun g =>
    if g.cells = decl.nCells then
      decl.fields.mapM fun f => (readField decl at_ g f).map fun part => (f, part)
    else none

/-- `slab[start : start + span] = combine_dense(slab[start : start + span], values)`. -/
def combineSegment (d : Dtype V) (law : Law) (fill : V) (at_ : Span) (values slab : Nat → V) :
    Nat → V := fun j =>
  if at_.start ≤ j ∧ j < at_.start + at_.span then
    combineDense d law fill (fun t => slab (at_.start + t)) values (j - at_.start)
  else slab j

/-- A node's fold in progress. -/
structure NodeFold (V N T : Type) where
  slabs : Slabs V N
  digests : N → Nat → List Part
  packing : N → Packing
  nLeaves : Nat
  timestamps : List (Option T)
  granules : Nat
  ranges : List TimeRange
  failed : Nat

variable [DecidableEq N]

/-- `digests[name][j].append(digest)` of every cell. -/
def appendDigests (cells : List (Nat × Part)) (digests : Nat → List Part) : Nat → List Part :=
  cells.foldl (fun ds c => Function.update ds c.1 (ds c.1 ++ [c.2])) digests

def applyPart (at_ : Span) (acc : NodeFold V N T) (p : (N × FieldMeta V N) × FieldPart V) :
    NodeFold V N T :=
  match p.1.2, p.2 with
  | .exact d law fill, .exact values =>
    { acc with
      slabs := Function.update acc.slabs (.exact p.1.1)
        (combineSegment d law fill at_ values (acc.slabs (.exact p.1.1))) }
  | _, .digests cells =>
    { acc with
      digests := Function.update acc.digests p.1.1
        (appendDigests cells (acc.digests p.1.1)) }
  | _, .words cells =>
    { acc with
      packing := Function.update acc.packing p.1.1
        (cells.foldl (fun pk c => pk.append c.1 c.2) (acc.packing p.1.1)) }
  | _, .poison =>
    { acc with
      packing := Function.update acc.packing p.1.1
        { acc.packing p.1.1 with
          poisoned := (acc.packing p.1.1).poisoned ++
            (List.range at_.span).map (at_.start + ·) } }
  | _, _ => acc

/-- One stamped leaf, skipped whole when any part of it raises. -/
def addStamped (decl : Declaration V N) (at_ : Span) (acc : NodeFold V N T) (stamp : LeafStamp T)
    (group : Option (Group V N)) : NodeFold V N T :=
  match readLeaf decl at_ group with
  | none => { acc with failed := acc.failed + 1 }
  | some parts =>
    let acc := parts.foldl (applyPart at_) acc
    { acc with
      nLeaves := acc.nLeaves + 1
      timestamps := acc.timestamps ++ [stamp.writtenAt]
      granules := acc.granules + stamp.granuleCount
      ranges := acc.ranges ++ stamp.timeRange.toList }

/-- One slot of a node; absent leaves and unstamped debris add nothing. -/
def addLeaf (decl : Declaration V N) (leaf : Leaves V N L T) (node : Decimal) (k : Nat)
    (acc : NodeFold V N T) (slot : Slot L) : NodeFold V N T :=
  match leaf slot with
  | none => acc
  | some l =>
    match l.stamp with
    | none => acc
    | some stamp => addStamped decl (leafSpan decl node k slot.1) acc stamp l.group

/-! ## A node from its leaves -/

/-- The empty payload of a cell. -/
def emptyPart (declared : List Channel) : Part := ⟨[], declared.map fun _ => []⟩

/-- `fold_digests` of every cell with rows. -/
def foldCells (num : Numerics) (delta : Nat) (declared : List Channel) (n : Nat)
    (cells : Nat → List Part) : Except String (Nat → Part) := do
  let out ← (List.range n).mapM fun j =>
    if cells j = [] then .ok (emptyPart declared) else Stats.foldDigests num delta declared (cells j)
  return fun j => out.getD j (emptyPart declared)

/-- `merge_composition_kway` of a cell with parts. -/
def packedCell (parts : List (Word × Nat)) : Word :=
  if parts = [] then 0 else mergeCompositionKway parts

def finishField (num : Numerics) (decl : Declaration V N) (acc : NodeFold V N T) (slabs : Slabs V N)
    (f : N × FieldMeta V N) : Except String (Slabs V N) :=
  match f.2 with
  | .exact _ _ _ => .ok slabs
  | .packed _ =>
    .ok (Function.update slabs (.packed f.1) fun j =>
      if j ∈ (acc.packing f.1).poisoned then 0 else packedCell ((acc.packing f.1).parts j))
  | .approximate delta _ _ => do
    let out ← foldCells num delta f.2.companions decl.nCells (acc.digests f.1)
    return setDigest slabs f.1 f.2.companions out

variable [Inhabited V] [LinearOrder T]

def startNode (decl : Declaration V N) : NodeFold V N T :=
  ⟨emptySlabs decl.fields, fun _ _ => [], fun _ => ⟨fun _ => [], []⟩, 0, [], 0, [], 0⟩

/-- The fold of a list of slots, with the leaves that did not read. -/
def foldSlots (num : Numerics) (decl : Declaration V N) (leaf : Leaves V N L T)
    (node : Decimal) (k : Nat) (slots : List (Slot L)) : Except String (Option (Fold V N T)) × Nat :=
  let acc := slots.foldl (addLeaf decl leaf node k) (startNode decl)
  (if acc.nLeaves = 0 then .ok none
   else do
    let slabs ← decl.fields.foldlM (finishField num decl acc) acc.slabs
    return some {
      slabs
      generation := generationOf acc.nLeaves acc.timestamps
      granuleCount := acc.granules
      timeRange := unionTimeRange acc.ranges
      source := .leaves
      sourceChildren := none }, acc.failed)

/-- `_fold_node`. -/
def foldNode (num : Numerics) (decl : Declaration V N) (leaf : Leaves V N L T)
    (node : Decimal) (k : Nat) (foldWindows : List (Window L)) (nodeShards : List Decimal) :
    Except String (Option (Fold V N T)) × Nat :=
  foldSlots num decl leaf node k
    (nodeShards.flatMap fun dec => foldWindows.map fun window => (dec, window))

/-! ## A node from its children -/

/-- One field of a child, folded `factor` cells to one. -/
inductive ChildPart (V : Type)
  | absent
  | exact (values : Nat → V)
  | digest (cells : Nat → Part)
  | packed (words : Nat → Word)

/-- One field of `_fold_child`; `none` raises. -/
def foldChildField (num : Numerics) (factor span : Nat) (g : Group V N) (f : N × FieldMeta V N) :
    Option (ChildPart V) :=
  match f.2 with
  | .exact d law fill =>
    match g.arrays (.exact f.1) with
    | none => some .absent
    | some values => some (.exact (foldDense d law fill factor values))
  | .packed of =>
    match g.arrays (.packed f.1), g.arrays (.digest of) with
    | some words, some ofValues =>
      some (.packed fun j => packedCell ((List.range factor).filterMap fun t =>
        let n := payloadWeight (ofValues (j * factor + t))
        if 0 < n then some (words (j * factor + t), n) else none))
    | _, _ => some .absent
  | .approximate delta _ _ =>
    match g.arrays (.digest f.1) with
    | none => some .absent
    | some values =>
      if g.declared f.1 then
        (readSiblings g f).bind fun siblings =>
          ((foldCells num delta f.2.companions span fun j =>
            (List.range factor).filterMap fun t =>
              if values (j * factor + t) = [] then none
              else some (partAt values siblings (j * factor + t))).toOption).map .digest
      else none

def foldChild (num : Numerics) (decl : Declaration V N) (factor span : Nat) (g : Group V N) :
    Option (List ((N × FieldMeta V N) × ChildPart V)) :=
  decl.fields.mapM fun f => (foldChildField num factor span g f).map fun part => (f, part)

/-- The child's span of the parent's slabs; children own disjoint spans. -/
def assignPart (i span : Nat) (slabs : Slabs V N) (p : (N × FieldMeta V N) × ChildPart V) : Slabs V N :=
  match p.2 with
  | .absent => slabs
  | .exact values => slabs.assign (.exact p.1.1) i span (some values)
  | .packed words => slabs.assign (.packed p.1.1) i span (some words)
  | .digest cells =>
    p.1.2.companions.foldl (fun slabs c => slabs.assign (.sibling p.1.1 c) i span
        (some fun j => (cells j).words.getD (p.1.2.companions.idxOf c) []))
      (slabs.assign (.digest p.1.1) i span (some fun j => (cells j).digest))

structure CascadeFold (V N T : Type) where
  slabs : Slabs V N
  nLeaves : Nat
  timestamps : List (Option T)
  granules : Nat
  ranges : List TimeRange
  children : SourceCounts

/-- A stored overview as the input of a cascade: one of another order, another cell order or
another size is not. -/
def readChild (num : Numerics) (decl : Declaration V N) (k source : Nat) (o : StoredOverview V N T) :
    Option (List ((N × FieldMeta V N) × ChildPart V)) :=
  if o.order = source ∧ o.cellOrder = decl.targetOrder k + (source - k) ∧ o.group.cells = decl.nCells
  then foldChild num decl (4 ^ (source - k)) (decl.nCells / 4 ^ (source - k)) o.group
  else none

def addChild (num : Numerics) (decl : Declaration V N) (overview : Decimal → Option (StoredOverview V N T))
    (node : Decimal) (k source : Nat) (acc : CascadeFold V N T) (child : Decimal) :
    CascadeFold V N T :=
  match overview child with
  | none => { acc with children := { acc.children with missing := acc.children.missing + 1 } }
  | some o =>
    match readChild num decl k source o with
    | none => { acc with children := { acc.children with unreadable := acc.children.unreadable + 1 } }
    | some parts =>
      { slabs := parts.foldl (assignPart (relRank child node) (decl.nCells / 4 ^ (source - k))) acc.slabs
        nLeaves := acc.nLeaves + o.generation.nLeaves
        timestamps := acc.timestamps ++ [o.generation.maxLeafTimestamp]
        granules := acc.granules + o.granuleCount
        ranges := acc.ranges ++ o.timeRange.toList
        children := { acc.children with folded := acc.children.folded + 1 } }

/-- `_cascade_node`, with the children that did not read. -/
def cascadeNode (num : Numerics) (decl : Declaration V N)
    (overview : Decimal → Option (StoredOverview V N T)) (node : Decimal) (k source : Nat)
    (nodeShards : List Decimal) : Option (Fold V N T) × Nat :=
  let acc := (Decimal.sorted (nodeShards.map fun d => d.nodeAt source)).foldl
    (addChild num decl overview node k source)
    ⟨emptySlabs decl.fields, 0, [], 0, [], ⟨0, 0, 0⟩⟩
  (if acc.children.folded = 0 then none
   else some {
    slabs := acc.slabs
    generation := generationOf acc.nLeaves acc.timestamps
    granuleCount := acc.granules
    timeRange := unionTimeRange acc.ranges
    source := .cascade source
    sourceChildren := some acc.children }, acc.children.unreadable)

/-- The arrays of a written overview: every declared one. -/
def writtenGroup (decl : Declaration V N) (slabs : Slabs V N) : Group V N where
  cells := decl.nCells
  arrays key := if key ∈ decl.fields.keys then some (slabs key) else none
  declared _ := true

/-- `_write_overview`. -/
def writeOverview (decl : Declaration V N) (k : Nat) (fold : Fold V N T) : StoredOverview V N T where
  order := k
  cellOrder := decl.targetOrder k
  generation := fold.generation
  source := fold.source
  sourceChildren := fold.sourceChildren
  granuleCount := fold.granuleCount
  -- the stamp carries a range only beside a window
  timeRange := if decl.windowed then fold.timeRange else none
  group := writtenGroup decl fold.slabs

/-- The shards below a node. -/
def shardsBelow (candidates : List Decimal) (node : Decimal) : List Decimal :=
  Decimal.sorted (candidates.filter fun d => d.startsWith node)

end

end Zagg.Sweep.Overview
