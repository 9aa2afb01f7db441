import Zagg.Lib.Run
import Zagg.Spill.Block

/-!
# The spill sink in the read loop

`SpillAggregator` buffers the reads of a few granules and a flush appends them to the
open block. The worker's loop tolerates an exception of a flush: it counts a granule
error and goes on with the next granule. The final `flush` after the loop is outside
that `try`, so an exception there ends the shard, as does `SpillOverflowError` or
`SpillReduceError` anywhere.
-/
namespace Zagg.Spill

open Zagg.Lib Zagg.Processing

/-- The declared run: the record layout, the partition of a cell, and the knobs. The
fold of a closed block may raise for reasons of its own. -/
structure Config (κ ρ : Type) where
  layout : Layout κ ρ
  partOf : κ → Nat
  bufferGranules : Nat
  blockBytes : Nat
  mergeable : Bool
  overlap : Bool
  foldRaises : SpillBlock ρ → Bool

/-- The aggregator. `closed` keeps the blocks handed to the reducer in close order;
`parked` is the error the in-flight reduce will have left at the next join. -/
structure SpillSink (κ ρ : Type) where
  buffer : List (List ρ) := []
  bufferedGranules : Nat := 0
  block : SpillBlock ρ := {}
  closed : List (SpillBlock ρ) := []
  parked : Bool := false
  occupied : List (List κ) := []
  nObsTotal : Nat := 0
  flushes : Nat := 0
  spillBytes : Nat := 0

/-- How a call ends: it returns, raises what the loop tolerates, or ends the shard. -/
inductive Outcome
  | done
  | raised
  | abort
deriving DecidableEq

variable {κ ρ : Type} [LinearOrder κ] (cfg : Config κ ρ)

/-- `_close_block`. Under overlap the previous reduce is joined before the next starts. -/
def closeBlock (s : SpillSink κ ρ) : SpillSink κ ρ × Outcome :=
  if !cfg.mergeable then (s, .abort)
  else
    let opened := { s with block := {}, closed := s.closed ++ [s.block] }
    if !cfg.overlap then (opened, if cfg.foldRaises s.block then .raised else .done)
    else if s.parked then (opened, .abort)
    else ({ opened with parked := cfg.foldRaises s.block }, .done)

/-- `flush`. The buffer is dropped and the rows are counted before the append. -/
def flush (s : SpillSink κ ρ) (f : Option Fault) : SpillSink κ ρ × Outcome :=
  if s.buffer.isEmpty then ({ s with bufferedGranules := 0 }, .done)
  else
    let grouped := concatAndGroup (cfg.layout.cols.map Dtype.name) cfg.layout.item
      cfg.layout.cell s.buffer
    let slices := grouped.2.1
    let counted := { s with
      nObsTotal := s.nObsTotal + grouped.2.2
      flushes := s.flushes + 1
      buffer := []
      bufferedGranules := 0 }
    if slices.isEmpty then (counted, .done)
    else
      let noted := { counted with occupied := s.occupied ++ [slices.map Prod.fst] }
      -- `cells_sorted`, `part_rows` and the grouped columns are those of the sorted rows
      let a := s.block.append cfg.layout cfg.partOf (sortRows cfg.layout.cell s.buffer.flatten) f
      if a.2.2 then
        let spilled := { noted with block := a.1, spillBytes := s.spillBytes + a.2.1 }
        if cfg.blockBytes ≤ a.1.bytesWritten then closeBlock cfg spilled else (spilled, .done)
      else ({ noted with block := a.1 }, .raised)

/-- One granule folded by the loop: its reads, then `granule_done`. -/
def granule (s : SpillSink κ ρ) (reads : List (List ρ)) (f : Option Fault) :
    SpillSink κ ρ × Outcome :=
  let added := { s with
    buffer := s.buffer ++ reads
    bufferedGranules := s.bufferedGranules + 1 }
  if cfg.bufferGranules ≤ added.bufferedGranules then flush cfg added f else (added, .done)

/-- A granule of the loop, or the drain after it, each with the write that will raise. -/
inductive Action (ρ : Type)
  | granule (reads : List (List ρ)) (f : Option Fault)
  | drain (f : Option Fault)

def step (s : SpillSink κ ρ) : Action ρ → Option (SpillSink κ ρ)
  | .granule reads f =>
    match granule cfg s reads f with
    | (_, .abort) => none
    | (s', _) => some s'
  | .drain f =>
    match flush cfg s f with
    | (s', .done) => some s'
    | _ => none

/-- `occupied_cells`: `np.unique` over the flushes' cells. -/
def occupiedCells (s : SpillSink κ ρ) : List κ := (s.occupied.flatten.insertionSort (· ≤ ·)).dedup

/-- Every row in a complete segment, over the closed blocks and the open one. -/
def readable (s : SpillSink κ ρ) : List ρ :=
  (s.closed ++ [s.block]).flatMap fun b => rowsIn b.partitions

/-- Every partition reads back its complete rows, and the sink's own figures are theirs. -/
structure Faithful (s : SpillSink κ ρ) : Prop where
  reads : ∀ b ∈ s.closed ++ [s.block], ∀ e ∈ b.partitions,
    e.2.read cfg.layout = some (e.2.rows.map cfg.layout.cell,
      table (cfg.layout.cols.map Dtype.name) cfg.layout.item e.2.rows)
  nObsTotal : s.nObsTotal = (readable s).length
  occupied : ∀ c, c ∈ occupiedCells s ↔ ∃ x ∈ readable s, cfg.layout.cell x = c

/-- The file writes a flush of these rows makes. -/
def flushWrites (rows : List ρ) : Nat :=
  (segmentsOf cfg.layout cfg.partOf (sortRows cfg.layout.cell rows)).length *
    (cfg.layout.cols.length + 1)

/-- No file write of the step raises. -/
def Quiet (s : SpillSink κ ρ) : Action ρ → Prop
  | .granule reads f => cfg.bufferGranules ≤ s.bufferedGranules + 1 →
      Beyond (flushWrites cfg (s.buffer ++ reads).flatten) f
  | .drain f => Beyond (flushWrites cfg s.buffer.flatten) f

instance (s : SpillSink κ ρ) : DecidablePred (Quiet cfg s)
  | .granule _ _ => inferInstanceAs (Decidable (_ → Beyond _ _))
  | .drain _ => inferInstanceAs (Decidable (Beyond _ _))

end Zagg.Spill
