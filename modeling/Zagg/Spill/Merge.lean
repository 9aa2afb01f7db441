import Zagg.Spill.Blocks
import Zagg.Stats.Weight

/-!
# The fold of closed blocks

When a block reaches the threshold it is handed to the reducer: every partition is read
back and grouped, and each cell adds its count, one digest and one composition word to
the running state. Under overlap one block is in flight, on a thread; the next close
joins it, and the first emission joins it, folds the open block and collapses the
per-block parts in one k-way pass.
-/
namespace Zagg.Spill

open Zagg.Lib Zagg.Processing Zagg.Stats

/-- One observation's columns, by name. -/
abbrev Observed := String → Option Item

/-- A param resolved over a row's columns: its key, its text, and the names free in the
text; a literal has none. -/
structure Param where
  key : String
  text : String
  names : List String
deriving DecidableEq

/-- `_DigestField`. The `where` mask and the words are row-aligned: each is a function
of the row's own columns. -/
structure DigestField where
  name : String
  source : String
  delta : Nat
  pairwise : Bool
  location : Option String
  selects : Observed → Bool
  temporal : Bool
  mask : Option Param := none

/-- `_channels`. -/
def DigestField.channels (f : DigestField) : List Channel :=
  (if f.location.isSome then [.locations] else []) ++ (if f.temporal then [.temporal] else [])

/-- A packed composition field; `conf` are its five confidence params, and `params` what
they declare. -/
structure CompositionField where
  name : String
  source : String
  conf : List (Observed → ℤ)
  threshold : ℤ
  params : List Param

/-- A count field, and what its dtype stores for a count. -/
structure CountField where
  name : String
  store : Nat → ℚ

/-- A configuration that `validate_spill_fold` accepts, and how its columns are read. -/
structure MergeConfig (κ ρ : Type) where
  layout : Layout κ ρ
  partOf : κ → Nat
  bufferGranules : Nat
  blockBytes : Nat
  overlap : Bool
  countFields : List CountField
  digestFields : List DigestField
  compositionFields : List CompositionField
  number : String → Item → Value
  word : Item → Nat
  clock : Observed → Nat
  digestNames : (digestFields.map DigestField.name).Nodup
  compositionNames : (compositionFields.map CompositionField.name).Nodup

variable {κ ρ : Type}

/-- The sink of a mergeable configuration whose folds do not raise. -/
def MergeConfig.sink (cfg : MergeConfig κ ρ) : Config κ ρ where
  layout := cfg.layout
  partOf := cfg.partOf
  bufferGranules := cfg.bufferGranules
  blockBytes := cfg.blockBytes
  mergeable := true
  overlap := cfg.overlap
  foldRaises _ := false

section Columns

/-- The derived column of time words. -/
def tocWordColumn : String := "toc_word"

/-- `_unresolvable_names`. -/
def unresolvableNames (param : Param) (available : List String) : List String :=
  (param.names.filter fun n => n ∉ available ∧ n ≠ "np" ∧ n ≠ "numpy").dedup.mergeSort (· ≤ ·)

/-- A column that a field reads and the block does not carry; `available` is what it carries. -/
inductive ColumnError
  | source (field source : String) (available : List String)
  | location (field location : String) (available : List String)
  | param (field : String) (param : Param) (missing available : List String)
deriving DecidableEq

def checkParam (available resolvable : List String) (field : String) (param : Param) :
    Option ColumnError :=
  let missing := unresolvableNames param resolvable
  if missing = [] then none else some (.param field param missing available)

def checkDigest (available resolvable : List String) (f : DigestField) : Option ColumnError :=
  if f.source ∉ available then some (.source f.name f.source available)
  else match f.location.filter (· ∉ available) with
    | some column => some (.location f.name column available)
    | none => f.mask.bind (checkParam available resolvable f.name)

def checkComposition (available resolvable : List String) (f : CompositionField) :
    Option ColumnError :=
  if f.source ∉ available then some (.source f.name f.source available)
  else (f.params.filter fun p => p.key.startsWith "conf_").findSome?
    (checkParam available resolvable f.name)

/-- `_check_fold_columns`; an empty block has nothing to check. -/
def checkFoldColumns (digests : List DigestField) (compositions : List CompositionField)
    (schema : Option (List Dtype)) : Option ColumnError :=
  let available := ((schema.getD []).map Dtype.name).mergeSort (· ≤ ·)
  if available = [] then none
  else
    -- the time words are not spilled, but a param may read them
    let resolvable := if digests.any DigestField.temporal then tocWordColumn :: available
      else available
    (digests.findSome? (checkDigest available resolvable)).or
      (compositions.findSome? (checkComposition available resolvable))

end Columns

/-- One field's running digest of each cell and, for a k-way field, the parts so far. -/
structure DigestState (κ : Type) where
  running : κ → Option Part := fun _ => none
  parts : κ → List Part := fun _ => []

/-- One composition field's parts and, after the collapse, its words. -/
structure CompositionState (κ : Type) where
  parts : κ → List (Word × Nat) := fun _ => []
  packed : κ → Option (Word × Nat) := fun _ => none

/-- The cross-block state. -/
structure Running (κ : Type) where
  counts : κ → Option Nat := fun _ => none
  digests : String → DigestState κ := fun _ => {}
  compositions : String → CompositionState κ := fun _ => {}

section Fold
variable [LinearOrder κ] (num : Numerics) (cfg : MergeConfig κ ρ)

/-- The rows of one cell, from its columns. -/
def observedRows (n : Nat) (data : Columns Item) : List Observed :=
  (List.range n).map fun i name => (data.lookup name).bind fun col => col[i]?

def valueOf (source : String) (x : Observed) : Value :=
  (x source).bind (cfg.number source)

/-- The words of one row in the declared channels. -/
def channelWords (f : DigestField) (x : Observed) : List Nat :=
  (match f.location with
    | some column => [((x column).map cfg.word).getD 0]
    | none => []) ++ (if f.temporal then [cfg.clock x] else [])

/-- The digest of one cell of one block: the mask first, then the build. -/
def buildField (f : DigestField) (rows : List Observed) : Part :=
  let selected := rows.filter f.selects
  buildTdigest num f.delta f.channels (selected.map (valueOf cfg f.source))
    ((List.range f.channels.length).map fun j =>
      selected.map fun x => (channelWords cfg f x).getD j 0)

def foldDigest (cell : κ) (rows : List Observed) (f : DigestField) (st : DigestState κ) :
    DigestState κ :=
  let fresh := buildField num cfg f rows
  if f.pairwise then
    let merged := match st.running cell with
      | none => fresh
      | some held => mergeTdigests num f.delta f.channels held fresh
    { st with running := Function.update st.running cell (some merged) }
  else { st with parts := Function.update st.parts cell (st.parts cell ++ [fresh]) }

def foldComposition (cell : κ) (rows : List Observed) (f : CompositionField)
    (st : CompositionState κ) : CompositionState κ :=
  let finite := rows.filter fun x => (valueOf cfg f.source x).isSome
  let part := packCompositionN f.threshold (finite.map fun x => f.conf.map (· x))
  { st with parts := Function.update st.parts cell (st.parts cell ++ [part]) }

/-- One cell of `_fold_block`. -/
def foldCell (run : Running κ) (cell : κ) (n : Nat) (data : Columns Item) : Running κ :=
  let rows := observedRows n data
  { counts := Function.update run.counts cell (some ((run.counts cell).getD 0 + n))
    digests := cfg.digestFields.foldl (fun m f =>
      Function.update m f.name (foldDigest num cfg cell rows f (m f.name))) run.digests
    compositions := cfg.compositionFields.foldl (fun m f =>
      Function.update m f.name (foldComposition cfg cell rows f (m f.name))) run.compositions }

/-- One partition: read back, grouped, its cells folded in order. -/
def foldPartition (run : Running κ) (p : Partition ρ) : Option (Running κ) :=
  (p.read cfg.layout).map fun r =>
    let grouped := groupColumns r.2 r.1
    grouped.2.foldl (fun run c => foldCell num cfg run c.1 (c.2.2 - c.2.1)
      (grouped.1.map fun col => (col.1, slice col.2 c.2.1 c.2.2))) run

/-- The loop of `_fold_block`; a short read raises. -/
def foldBlock (run : Running κ) (b : SpillBlock ρ) : Option (Running κ) :=
  b.partitions.foldlM (fun run e => foldPartition num cfg run e.2) run

/-- `_fold_block`: the columns are checked once, before a partition is read. -/
def foldBlockChecked (run : Running κ) (b : SpillBlock ρ) :
    Except ColumnError (Option (Running κ)) :=
  match checkFoldColumns cfg.digestFields cfg.compositionFields b.schema with
  | some e => .error e
  | none => .ok (foldBlock num cfg run b)

/-- `_finalize_kway`: every cell's parts collapse at once. -/
def finalizeKway (run : Running κ) : Running κ :=
  { run with
    digests := (cfg.digestFields.filter fun f => !f.pairwise).foldl (fun m f =>
      Function.update m f.name
        { running := fun c => if (m f.name).parts c = [] then (m f.name).running c
            else some (mergeTdigestsKway num f.delta f.channels ((m f.name).parts c))
          parts := fun _ => [] }) run.digests
    compositions := cfg.compositionFields.foldl (fun m f =>
      Function.update m f.name
        { packed := fun c => if (m f.name).parts c = [] then (m f.name).packed c
            else some (mergeCompositionKway ((m f.name).parts c),
              (((m f.name).parts c).map Prod.snd).sum)
          parts := fun _ => [] }) run.compositions }

/-- The aggregator with its reducer: the block on the overlap thread, if one is. -/
structure MergeSink (κ ρ : Type) where
  sink : SpillSink κ ρ := {}
  running : Running κ := {}
  inFlight : Option (SpillBlock ρ) := none

/-- `_join_reducer`: wait for the thread. -/
def joinReducer (s : MergeSink κ ρ) : Option (MergeSink κ ρ) :=
  match s.inFlight with
  | none => some s
  | some b => (foldBlock num cfg s.running b).map fun run => { s with running := run, inFlight := none }

/-- The end of `_close_block`: join, then start the thread, or fold inline. -/
def handOver (s : MergeSink κ ρ) (b : SpillBlock ρ) : Option (MergeSink κ ρ) :=
  if cfg.overlap then (joinReducer num cfg s).map fun s => { s with inFlight := some b }
  else (foldBlock num cfg s.running b).map fun run => { s with running := run }

/-- The sink's step, with the block it closed handed over. -/
def advance (s : MergeSink κ ρ) (a : Action ρ) : Option (MergeSink κ ρ) :=
  (step cfg.sink s.sink a).bind fun sink =>
    (sink.closed.drop s.sink.closed.length).foldlM (handOver num cfg) { s with sink }

/-- A granule of the loop, the drain, or the overlap thread, if one runs, coming to its end. -/
inductive MergeAction (ρ : Type)
  | granule (reads : List (List ρ))
  | drain
  | reduced

def mergeStep (s : MergeSink κ ρ) : MergeAction ρ → Option (MergeSink κ ρ)
  | .granule reads => advance num cfg s (.granule reads none)
  | .drain => advance num cfg s (.drain none)
  | .reduced => joinReducer num cfg s

/-- The drain after the loop and the first emission: join, fold the open block, collapse. -/
def finish (s : MergeSink κ ρ) : Option (MergeSink κ ρ × Running κ) :=
  (advance num cfg s (.drain none)).bind fun s =>
    (joinReducer num cfg s).bind fun s =>
      (foldBlock num cfg s.running s.sink.block).map fun run => (s, finalizeKway num cfg run)

/-- `_chunk_outputs_merged`: the arrays of one chunk. Ragged payloads carry their index. -/
structure ChunkOutputs where
  counts : List (String × List ℚ)
  compositions : List (String × List (Option Word))
  ragged : List (String × List (Nat × Part))
  cellsWithData : Nat

def chunkOutputsMerged (run : Running κ) (children : List κ) : ChunkOutputs where
  counts := cfg.countFields.map fun f =>
    (f.name, children.map fun c => f.store ((run.counts c).getD 0))
  compositions := cfg.compositionFields.map fun f =>
    (f.name, children.map fun c => (run.counts c).bind fun _ =>
      ((run.compositions f.name).packed c).map Prod.fst)
  ragged := cfg.digestFields.map fun f =>
    (f.name, children.zipIdx.filterMap fun c => (run.counts c.1).bind fun _ =>
      ((run.digests f.name).running c.1).bind fun p =>
        if p.digest = [] then none else some (c.2, p))
  cellsWithData := children.countP fun c => (run.counts c).isSome

end Fold
end Zagg.Spill
