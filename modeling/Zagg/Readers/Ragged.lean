import Mathlib.Data.Nat.Sqrt
import Zagg.Lib.Generator
import Zagg.Lib.Ragged
import Zagg.Readers.Layout
import Zagg.Stats.Tdigest

/-!
# Sweeps over a ragged array

The stored objects are listed once and read in order, chunk by chunk. A `subtree=` read
slices only the chunks that cover the subtree's span and filters their ranks.
-/
namespace Zagg.Readers

open Zagg.Lib Zagg.Stats

abbrev Bytes := List UInt8

/-- A vlen array and its sibling `morton` coordinate: `ordinals` are the data keys as the
store lists them, `raw` the bytes at a cell. -/
structure Ragged where
  field : String
  shape : ℕ
  chunk : ℕ
  shard : Option ℕ
  ordinals : List ℕ
  raw : ℕ → Bytes
  morton : ℕ → ℕ

variable (m : Mortie) (arr : Ragged)

/-- The cells of one stored object, `arr.shards or arr.chunks`. -/
def Ragged.span : ℕ := arr.shard.getD arr.chunk

/-- `values[start:stop]`, clipped to the axis. -/
def Ragged.slice {β : Type} (values : ℕ → β) (start stop : ℕ) : List β :=
  (List.range' start (min stop arr.shape - start)).map values

def storedChunkSpans : List (ℕ × ℕ) :=
  (arr.ordinals.insertionSort (· ≤ ·)).map fun o =>
    (o * arr.span, min ((o + 1) * arr.span) arr.shape)

/-- A stored span cut down to the whole chunks that cover a cell span. -/
def coveringSpan (span stored : ℕ × ℕ) : ℕ × ℕ :=
  (max stored.1 (span.1 - span.1 % arr.chunk),
    min stored.2 (span.2 + (-(span.2 : ℤ) % arr.chunk).toNat))

/-- The cells of a block that hold bytes, by rank. -/
def populatedCells (block : List Bytes) : List (ℕ × Bytes) :=
  block.zipIdx.filterMap fun c => if c.1 = [] then none else some (c.2, c.1)

/-- The populated chunks of one stored span, read in one slice. -/
def spanChunks (stored : ℕ × ℕ) : List (ℕ × List (ℕ × Bytes)) :=
  let data := arr.slice arr.raw stored.1 stored.2
  (steps (stored.2 - stored.1) arr.chunk).filterMap fun offset =>
    let populated := populatedCells ((data.drop offset).take arr.chunk)
    if populated = [] then none else some (stored.1 + offset, populated)

def iterPopulatedChunks (span : Option (ℕ × ℕ)) (spans : Option (List (ℕ × ℕ))) :
    List (ℕ × List (ℕ × Bytes)) :=
  (spans.getD (storedChunkSpans arr)).flatMap fun stored =>
    match span with
    | none => spanChunks arr stored
    | some span =>
      let cover := coveringSpan arr span stored
      if cover.2 ≤ cover.1 then [] else spanChunks arr cover

def cellsOrder (words : List ℕ) (field : String) (start : ℕ) : Except String ℤ :=
  match words.filter (· ≠ 0) with
  | [] => .error (s!"chunk at cell {start} of '{field}' has ragged payloads but no written " ++
      "'morton' coordinate — the dense coordinate write did not cover it")
  | word :: _ => (mortonDecimal m word).map decimalOrder

def chunkWord (words : List ℕ) (field : String) (start : ℕ) : Except String ℕ := do
  let cellOrder ← cellsOrder m words field start
  let order := cellOrder - axisDepth words.length
  let ancestors ← (words.filter (· ≠ 0)).mapM (m.clip2order order)
  if ancestors.any (· ≠ ancestors.headD 0) then
    throw (s!"cells of the block at {start} of '{field}' span more than one order-{order} " ++
      "ancestor — the 'morton' coordinate is not in nested order over this span, so a " ++
      "cells-axis index does not name a position in the block's subtree")
  return ancestors.headD 0

def tensorSide : Except String (ℕ × ℕ) :=
  let side := Nat.sqrt arr.chunk
  if side * side ≠ arr.chunk ∨ side &&& (side - 1) ≠ 0 then
    .error (s!"'{arr.field}' read chunk holds {arr.chunk} cells — not a power-of-four subtree, " ++
      "so it cannot deinterleave to a (side, side, n_bins) tensor")
  else .ok (side, Nat.size side - 1)

/-- The span of `subtree=`, with the listing it was resolved against. -/
def subtreeSpan (subtree : Option Subtree) :
    Except String (Option Span × Option (List (ℕ × ℕ))) :=
  match subtree with
  | none => .ok (none, none)
  | some subtree =>
    match storedChunkSpans arr with
    | [] => (normalizeSubtree m subtree).map fun _ => (some ((0, 0), none), some [])
    | first :: spans => do
      let words := arr.slice arr.morton first.1 (first.1 + arr.chunk)
      let cellOrder ← cellsOrder m words arr.field first.1
      let written := words.findIdx (· ≠ 0)
      let span ← subtreeCellSpan m subtree (words.getD written 0) (first.1 + written) cellOrder
        arr.shape arr.field
      return (some span, some (first :: spans))

/-- A yielded tuple; `cell` is the cells-axis position its word and row and column name. -/
structure Sample (β : Type) where
  cell : ℕ
  word : ℕ
  row : ℕ
  col : ℕ
  values : β

variable {β : Type}

/-- The loop of a sweep reader. `decode` is given the chunk's word, the rank and the bytes. -/
def sweepCells (decode : ℕ → ℕ → Bytes → Except String β) (depth : ℕ) (span : Option (ℕ × ℕ))
    (spans : Option (List (ℕ × ℕ))) : List (Except String (Sample β)) :=
  (iterPopulatedChunks arr span spans).flatMap fun c =>
    match chunkWord m (arr.slice arr.morton c.1 (c.1 + arr.chunk)) arr.field c.1 with
    | .error e => [.error e]
    | .ok word => c.2.filterMap fun r =>
      if span.any fun span => ¬(span.1 ≤ c.1 + r.1 ∧ c.1 + r.1 < span.2) then none
      else some ((decode word r.1 r.2).map fun values =>
        ⟨c.1 + r.1, word, (m.rankToXy r.1 depth).2, (m.rankToXy r.1 depth).1, values⟩)

/-- A sweep reader, the warning aside. -/
def sweep (decode : ℕ → ℕ → Bytes → Except String β) (subtree : Option Subtree) :
    Ended String (Sample β) :=
  match tensorSide arr with
  | .error e => ⟨[], some e⟩
  | .ok (_, depth) =>
    match subtreeSpan m arr subtree with
    | .error e => ⟨[], some e⟩
    | .ok (span, spans) => generate (sweepCells m arr decode depth (span.map Prod.fst) spans)

/-- The values of a digest built without merges. -/
def rawValues (element : Bytes → Except String Digest) (word rank : ℕ) (raw : Bytes) :
    Except String (List ℚ) := do
  let digest ← element raw
  if digest.any fun c => 1 < c.weight then
    throw (s!"cell rank {rank} (chunk {word}) has merged centroids (weight > 1); raw values " ++
      "are not losslessly recoverable")
  return digest.map Centroid.mean

def readRawValues (element : Bytes → Except String Digest) (subtree : Option Subtree) :
    Ended String (Sample (List ℚ)) :=
  sweep m arr (rawValues element) subtree

end Zagg.Readers
