import Mathlib.Order.WithBot
import Zagg.Sweep.Partition

/-!
# The bottom-up rollup sweep

One family's fold over the dirty ancestor paths: `rollupShardNode` folds a shard
node's window leaves, `rollupInterior` folds four candidate children, and
`sweepFamily` walks the orders up to the partition's split. The two node functions
only decide; `Pass.settle` is the bookkeeping around them (counts, `computed`, the
PUT). `⊥` is the unwindowed leaf, which sorts before every window label.
-/
namespace Zagg.Sweep

abbrev Window (L : Type) := WithBot L

/-- The generation stamp: merged-leaf count and newest leaf timestamp. -/
structure Generation (T : Type) where
  nLeaves : Nat
  maxLeafTimestamp : Option T
deriving DecidableEq

structure Envelope (L P T : Type) where
  spec : String
  family : String
  node : Decimal
  order : Nat
  generation : Generation T
  /-- Empty in an interior rollup, which has no such key. -/
  windows : List (Window L)
  payload : P
deriving DecidableEq

/-- What may stand at a rollup key: an envelope, or bytes without its keys. -/
inductive RollupObject (L P T : Type)
  | envelope (e : Envelope L P T)
  | debris
deriving DecidableEq

/-- `failed` is a read that raised, `absent` a leaf without this family's artifact. -/
inductive LeafRead (P T : Type)
  | failed
  | absent
  | got (payload : P) (timestamp : Option T)

def LeafRead.isFailed {P T : Type} : LeafRead P T → Bool
  | .failed => true
  | _ => false

/-- A family: its leaf reads as this pass finds them, and its fold (`none` raised). -/
structure Family (L P T : Type) where
  name : String
  readLeaf : Decimal → Window L → LeafRead P T
  merge : List P → Decimal → Nat → Option P

structure Counts where
  written : Nat
  current : Nat
  empty : Nat
  failed : Nat
deriving DecidableEq

/-- How one node ended. -/
inductive Outcome (L P T : Type)
  | empty
  | failed
  | current (existing : Envelope L P T)
  | written (envelope : Envelope L P T)

abbrev RollupStore (L P T : Type) := Decimal → Option (RollupObject L P T)

/-- The state of one family's walk. -/
structure Pass (L P T : Type) where
  store : RollupStore L P T
  computed : Decimal → Option (Envelope L P T)
  counts : Counts
  puts : List Decimal

def sweepSpec : String := "zagg-sweep/1"

variable {L P T : Type}

section
variable [DecidableEq P] [LinearOrder L] [LinearOrder T]

def sortedWindows (ws : List (Window L)) : List (Window L) :=
  ws.dedup.insertionSort (· ≤ ·)

def generationOf (nLeaves : Nat) (timestamps : List (Option T)) : Generation T :=
  ⟨nLeaves, (timestamps.filterMap id).max?⟩

/-- A stored rollup, or `none`: foreign and malformed objects read as absent. -/
def readRollup (name : String) : Option (RollupObject L P T) → Option (Envelope L P T)
  | some (.envelope e) => if e.spec = sweepSpec ∧ e.family = name then some e else none
  | _ => none

/-- What the skip test compares. -/
def Envelope.view (e : Envelope L P T) : Generation T × P := (e.generation, e.payload)

/-- Skip when the stored generation and payload both match. -/
def publish (existing : Option (Envelope L P T)) (envelope : Envelope L P T) : Outcome L P T :=
  match existing with
  | some e =>
    if e.view = envelope.view then .current e
    else .written envelope
  | none => .written envelope

/-- The leaves of one shard node that read, in window order. -/
def leafParts (fam : Family L P T) (decimal : Decimal) (known : List (Window L)) :
    List (Window L × P × Option T) :=
  known.filterMap fun w =>
    match fam.readLeaf decimal w with
    | .got p ts => some (w, p, ts)
    | _ => none

def failedReads (fam : Family L P T) (decimal : Decimal) (known : List (Window L)) : Nat :=
  known.countP fun w => (fam.readLeaf decimal w).isFailed

/-- The run's dirty windows and those the existing rollup already merged. -/
def knownWindows (existing : Option (Envelope L P T)) (windows : List (Window L)) :
    List (Window L) :=
  sortedWindows (windows ++ (existing.map (·.windows)).getD [])

def shardEnvelope (fam : Family L P T) (decimal : Decimal) (shardOrder : Nat)
    (parts : List (Window L × P × Option T)) (payload : P) : Envelope L P T where
  spec := sweepSpec
  family := fam.name
  node := decimal
  order := shardOrder
  generation := generationOf parts.length (parts.map (·.2.2))
  windows := parts.map (·.1)
  payload := payload

/-- Fold one shard node's window leaves; the number counts the reads that raised. -/
def rollupShardNode (fam : Family L P T) (decimal : Decimal) (windows : List (Window L))
    (shardOrder : Nat) (stored : Option (RollupObject L P T)) : Outcome L P T × Nat :=
  let existing := readRollup fam.name stored
  let known := knownWindows existing windows
  let parts := leafParts fam decimal known
  let outcome :=
    if parts = [] then .empty
    else
      match fam.merge (parts.map (·.2.1)) decimal shardOrder with
      | none => .failed
      | some payload => publish existing (shardEnvelope fam decimal shardOrder parts payload)
  (outcome, failedReads fam decimal known)

/-- A child computed this pass is used in memory, any other is probed on the store. -/
def childArtifacts (fam : Family L P T) (node : Decimal) (p : Pass L P T) :
    List (Envelope L P T) :=
  node.children.filterMap fun c => (p.computed c).or (readRollup fam.name (p.store c))

def interiorEnvelope (fam : Family L P T) (node : Decimal) (children : List (Envelope L P T))
    (payload : P) : Envelope L P T where
  spec := sweepSpec
  family := fam.name
  node := node
  order := node.order
  generation := generationOf (children.map (·.generation.nLeaves)).sum
    (children.map (·.generation.maxLeafTimestamp))
  windows := []
  payload := payload

def rollupInterior (fam : Family L P T) (node : Decimal) (p : Pass L P T) : Outcome L P T :=
  let children := childArtifacts fam node p
  if children = [] then .empty
  else
    match fam.merge (children.map (·.payload)) node node.order with
    | none => .failed
    | some payload =>
      publish (readRollup fam.name (p.store node)) (interiorEnvelope fam node children payload)

end

/-- The artifact a node function returns. -/
def Outcome.result : Outcome L P T → Option (Envelope L P T)
  | .current e | .written e => some e
  | _ => none

/-- What stands at the node's key afterwards. -/
def Outcome.stored (o : Outcome L P T) (before : Option (RollupObject L P T)) :
    Option (RollupObject L P T) :=
  match o with
  | .written e => some (.envelope e)
  | _ => before

def Outcome.count (o : Outcome L P T) (failed : Nat) (c : Counts) : Counts :=
  let c := { c with failed := c.failed + failed }
  match o with
  | .empty => { c with empty := c.empty + 1 }
  | .failed => { c with failed := c.failed + 1 }
  | .current _ => { c with current := c.current + 1 }
  | .written _ => { c with written := c.written + 1 }

def Pass.settle (p : Pass L P T) (node : Decimal) (o : Outcome L P T) (failed : Nat) :
    Pass L P T where
  store := Function.update p.store node (o.stored (p.store node))
  computed := Function.update p.computed node o.result
  counts := o.count failed p.counts
  puts := match o with
    | .written _ => p.puts ++ [node]
    | _ => p.puts

/-- A work set of `(shard, window)` leaves; `windowsOf` is one entry of `by_shard`. -/
abbrev Work (L : Type) := List (Decimal × Window L)

def Work.shards (work : Work L) : List Decimal := Decimal.sorted (work.map Prod.fst)

def Work.windowsOf (work : Work L) (d : Decimal) : List (Window L) :=
  (work.filter fun ref => ref.1 = d).map Prod.snd

section
variable [DecidableEq P] [LinearOrder L] [LinearOrder T]

/-- Refs at the manifest's order, deduplicated, and the shards skipped for another. -/
def normalizeLeaves (leaves : List (Decimal × Window L)) (shardOrder : Nat) :
    Work L × List Decimal :=
  ((leaves.filter fun ref => ref.1.order = shardOrder).dedup,
    (leaves.filter fun ref => ref.1.order ≠ shardOrder).map Prod.fst)

def sweepShards (fam : Family L P T) (work : Work L) (shardOrder : Nat) (p : Pass L P T) :
    Pass L P T :=
  work.shards.foldl
    (fun p d =>
      let r := rollupShardNode fam d (work.windowsOf d) shardOrder (p.store d)
      p.settle d r.1 r.2) p

def sweepLevel (fam : Family L P T) (parents : List Decimal) (p : Pass L P T) : Pass L P T :=
  parents.foldl (fun p node => p.settle node (rollupInterior fam node p) 0) p

def live (p : Pass L P T) (nodes : List Decimal) : List Decimal :=
  nodes.filter fun d => (p.computed d).isSome

/-- The order loop, one level a step; an empty frontier breaks it. -/
def climb (fam : Family L P T) : Nat → List Decimal → Pass L P T → List Decimal × Pass L P T
  | 0, frontier, p => (frontier, p)
  | levels + 1, frontier, p =>
    let parents := Decimal.sorted (frontier.filterMap Decimal.ancestor)
    let p := sweepLevel fam parents p
    let frontier := live p parents
    if frontier = [] then ([], p) else climb fam levels frontier p

/-- What `finish` is handed, or the orders the finisher is owed. -/
inductive Finish (L P T : Type)
  | tops (tops : List (Envelope L P T))
  | deferred (orders : List Nat)

structure FamilyResult (L P T : Type) where
  counts : Counts
  puts : List Decimal
  finish : Finish L P T

/-- Bottom-up fold of one family over the dirty ancestor paths. -/
def sweepFamily (fam : Family L P T) (work : Work L) (shardOrder minOrder : Nat)
    (store : RollupStore L P T) : RollupStore L P T × FamilyResult L P T :=
  let p := sweepShards fam work shardOrder ⟨store, fun _ => none, ⟨0, 0, 0, 0⟩, []⟩
  let walked := climb fam (shardOrder - minOrder) (live p work.shards) p
  let finish :=
    if minOrder = 0 then .tops (walked.1.filterMap walked.2.computed)
    else .deferred (List.range minOrder)
  (walked.2.store, ⟨walked.2.counts, walked.2.puts, finish⟩)

/-- What `run_sweep` reports; a partition block carries index, count, split order and
foreign leaves. -/
structure Summary (L P T : Type) where
  shardOrder : Nat
  nLeaves : Nat
  skippedLeaves : List Decimal
  partition : Option (Nat × Int × Nat × Nat)
  families : List (String × FamilyResult L P T)

/-- The stores of all families, by family name. -/
abbrev Stores (L P T : Type) := String → RollupStore L P T

def sweepFamilies (work : Work L) (shardOrder minOrder : Nat) :
    List (Family L P T) → Stores L P T → Stores L P T × List (String × FamilyResult L P T)
  | [], stores => (stores, [])
  | fam :: fams, stores =>
    let r := sweepFamily fam work shardOrder minOrder (stores fam.name)
    let rest := sweepFamilies work shardOrder minOrder fams
      (Function.update stores fam.name r.1)
    (rest.1, (fam.name, r.2) :: rest.2)

/-- One sweep pass over the JSON-rollup families of a store whose manifest declares
`shardOrder` (`none`: there is no manifest). -/
def runSweep (storeRoot : String) (manifest : Option Nat) (fams : List (Family L P T))
    (leaves : List (Decimal × Window L)) (partition : Option PartitionBlock)
    (stores : Stores L P T) : Except String (Stores L P T × Summary L P T) := do
  let part ← normalizePartition partition
  match manifest with
  | none => .error s!"no morton_hive.json at {storeRoot} — not a hive store root"
  | some shardOrder =>
    let split ← match part with
      | none => pure 0
      | some (_, of) => partitionSplitOrder of
    if shardOrder < split then
      .error (s!"sweep partitions={(part.map (·.2)).getD 1} splits at order {split}, finer " ++
        s!"than the store's shard_order {shardOrder}; no leaf lies below the split (issue #377)")
    else
      let (byShard, skipped) := normalizeLeaves leaves shardOrder
      let (work, foreign) ← match part with
        | none => pure (byShard, 0)
        | some (index, of) => selectPartition byShard of index
      let (stores, results) := sweepFamilies work shardOrder split fams stores
      return (stores,
        { shardOrder := shardOrder, nLeaves := work.length, skippedLeaves := skipped
          partition := part.map fun (index, of) => (index, of, split, foreign)
          families := results })

/-- The wire block of one partition. -/
def partitionBlock (index : Nat) (of : Int) : PartitionBlock where
  index := some index
  of := some of
  text := s!"\x7b'index': {index}, 'of': {of}\x7d"

/-- One pass after another, each over its own partition and work set. -/
def runBuckets (storeRoot : String) (manifest : Option Nat) (fams : List (Family L P T))
    (of : Int) : List (Nat × List (Decimal × Window L)) → Stores L P T →
      Except String (Stores L P T × List (Summary L P T))
  | [], stores => .ok (stores, [])
  | (index, leaves) :: buckets, stores => do
    let r ← runSweep storeRoot manifest fams leaves (some (partitionBlock index of)) stores
    let rest ← runBuckets storeRoot manifest fams of buckets r.1
    return (rest.1, r.2 :: rest.2)

/-- The in-process mirror of the fan-out: every non-empty partition, in index order. -/
def sweepPartitions (storeRoot : String) (manifest : Option Nat) (fams : List (Family L P T))
    (leaves : List (Decimal × Window L)) (partitions : Int) (stores : Stores L P T) :
    Except String (Stores L P T × List (Summary L P T)) := do
  let buckets ← partitionLeaves leaves partitions
  runBuckets storeRoot manifest fams partitions buckets stores

/-- The `(family, node)` rollups a pass wrote. -/
def Summary.puts (s : Summary L P T) : List (String × Decimal) :=
  s.families.flatMap fun f => f.2.puts.map fun d => (f.1, d)

end

end Zagg.Sweep
