import Mathlib.Data.Rat.Floor
import Zagg.Catalog.ShardMap
import Zagg.Lib.BlockArray
import Zagg.Readers.Rasterize
import Zagg.Readers.Subtree
import Zagg.Readers.ZRange

/-!
# The tensor reader

`read_tensors` sweeps the populated chunks, groups them into blocks by their starts, and emits a
tensor and a mask for each block. A cell lies in the tensor where its rank in the block's subtree
deinterleaves to; the mask looks the block's words up in the occupancy of the leaf.
-/
namespace Zagg.Readers

open Zagg.Lib Zagg.Stats

/-- `TensorDtype`. -/
inductive TensorDtype
  | uint16
  | uint32
  | float32

def TensorDtype.itemsize : TensorDtype → ℕ
  | .uint16 => 2
  | .uint32 => 4
  | .float32 => 4

/-- `np.rint`: ties go to the even number. -/
def rint (x : ℚ) : ℤ :=
  if Int.fract x < 1 / 2 then ⌊x⌋
  else if 1 / 2 < Int.fract x then ⌊x⌋ + 1
  else if ⌊x⌋ % 2 = 0 then ⌊x⌋ else ⌊x⌋ + 1

/-- A count in the dtype of the tensor; a rounded one wraps. -/
def TensorDtype.cast (float32 : ℚ → ℚ) (count : ℚ) : TensorDtype → ℚ
  | .uint16 => (rint count % 2 ^ 16 : ℤ)
  | .uint32 => (rint count % 2 ^ 32 : ℤ)
  | .float32 => float32 count

/-- What `_coverage_occupancy` found in the stamp of a leaf. -/
inductive Coverage
  | full
  | bitmap (cellOrder : ℤ) (payload : Bytes)

/-- The occupied cells of a leaf: all of them, or those with these words, sorted. -/
inductive Occupancy
  | full
  | bitmap (occupied : List ℕ)

/-- The `ValueError`s, with what their texts name; `text` is one of a sweep's. -/
inductive TensorError
  | text (message : String)
  | subtreeFiner (field : String) (cellsPerChunk : ℕ)
  | occupancyOrder (field : String) (measured cellOrder : ℤ)
  | occupancyAxis (field : String) (cells : ℕ)
  | blockOrder (order minOrder chunkOrder : ℤ)
  | blockAxis (field : String) (cells : ℕ) (order : ℤ) (blockCells : ℕ)
  | blockBytes (order : Option ℤ) (blockSide nBins bytes : ℕ) (limit : ℤ)
  | window (e : ZRangeError)
  | outOfRounds

structure TensorRequest where
  nBins : ℕ
  resolution : ℚ
  bottom : ℚ
  top : ℚ
  fit : FitMode
  dtype : TensorDtype
  blockOrder : Option ℤ
  subtree : Option Subtree
  maxBlockBytes : ℤ

/-- A yielded tuple, with what the tensor and the mask hold at a row and a column. -/
structure TensorBlock where
  tensor : ℕ × ℕ → List ℚ
  mask : ℕ × ℕ → ℕ
  offset : ℚ
  gain : ℚ
  word : ℕ

variable (m : Mortie) (arr : Ragged)

def rankToRowcol (rank depth : ℕ) : ℕ × ℕ := ((m.rankToXy rank depth).2, (m.rankToXy rank depth).1)

def ofText {α : Type} (x : Except String α) : Except TensorError α := x.mapError .text

def loadOccupancy (decodeCoverageBitmap : Bytes → ℕ → ℤ → Except String (List ℕ)) (coverage : Option Coverage)
    (words : List ℕ) : Except TensorError (Option Occupancy) :=
  match coverage with
  | none => .ok none
  | some .full => .ok (some .full)
  | some (.bitmap measured payload) =>
    (ofText (cellsOrder m words arr.field 0)).bind fun cellOrder =>
      if measured ≠ cellOrder then .error (.occupancyOrder arr.field measured cellOrder)
      else if 4 ^ axisDepth arr.shape ≠ arr.shape then .error (.occupancyAxis arr.field arr.shape)
      else
        (ofText (m.clip2order (cellOrder - axisDepth arr.shape) ((words.filter (· ≠ 0)).headD 0))).bind fun shard =>
          (ofText (decodeCoverageBitmap payload shard cellOrder)).map fun occupied => some (.bitmap occupied)

/-- The clipped search finds the word, and the word is written. -/
def occupiedHit (occupied : List ℕ) (word : ℕ) : Bool :=
  occupied.getD (min (Catalog.searchsorted occupied word) (occupied.length - 1)) 0 == word && word != 0

def blockMask (words : List ℕ) (occupancy : Option Occupancy) (blockDepth : ℕ) : ℕ × ℕ → ℕ :=
  match occupancy with
  | none => fun _ => 0
  | some .full => fun _ => 1
  | some (.bitmap occupied) =>
    if occupied = [] then fun _ => 0
    else assignAll ((words.zipIdx.filter fun w => occupiedHit occupied w.1).map fun w =>
      (rankToRowcol m w.2 blockDepth, 1)) fun _ => 0

/-- The depth of the blocks asked for; without an order, of the chunks. -/
def blockDepthOf (depth : ℕ) (span : Option (ℕ × ℕ)) (firstWords : List ℕ) (firstStart : ℕ)
    (blockOrder : Option ℤ) : Except TensorError ℕ :=
  match blockOrder with
  | none => .ok depth
  | some order =>
    (ofText (cellsOrder m firstWords arr.field firstStart)).bind fun cellOrder =>
      let chunkOrder := cellOrder - depth
      let minOrder := span.elim 0 fun span => cellOrder - axisDepth (span.2 - span.1)
      if ¬(minOrder ≤ order ∧ order ≤ chunkOrder) then .error (.blockOrder order minOrder chunkOrder)
      else
        let blockDepth := (cellOrder - order).toNat
        if arr.shape % 4 ^ blockDepth ≠ 0 then .error (.blockAxis arr.field arr.shape order (4 ^ blockDepth))
        else .ok blockDepth

variable (float32 : ℚ → ℚ) (element : Bytes → Except String Digest) (fuel : ℕ) (req : TensorRequest)

/-- The populated cells of a block, by their ranks in it. -/
def blockCellsOf (bstart : ℕ) (group : List (ℕ × List (ℕ × Bytes))) : List (ℕ × Bytes) :=
  group.flatMap fun chunk => chunk.2.map fun cell => (chunk.1 - bstart + cell.1, cell.2)

/-- The body of the loop over the blocks. -/
def readBlock (occupancy : Option Occupancy) (blockDepth : ℕ) (group : List (ℕ × List (ℕ × Bytes))) :
    Except TensorError TensorBlock :=
  let bstart := ((group.map Prod.fst).headD 0) / 4 ^ blockDepth * 4 ^ blockDepth
  ((blockCellsOf bstart group).mapM fun cell =>
      (ofText (element cell.2)).map fun digest => (cell.1, digest)).bind fun cells =>
    match chunkZRange fuel (cells.map Prod.snd) req.nBins req.resolution req.bottom req.top req.fit with
    | none => .error .outOfRounds
    | some (.error e) => .error (.window e)
    | some (.ok (zLo, nBins, resolution)) =>
      let words := arr.slice arr.morton bstart (bstart + 4 ^ blockDepth)
      let tensor := assignAll (cells.map fun cell => (rankToRowcol m cell.1 blockDepth,
        (rasterizeCell cell.2 zLo resolution nBins).map fun count => req.dtype.cast float32 count))
        fun _ => List.replicate nBins 0
      let mask := assignAll (cells.map fun cell => (rankToRowcol m cell.1 blockDepth, 2))
        (blockMask m words occupancy blockDepth)
      (ofText (chunkWord m words arr.field bstart)).map fun word => ⟨tensor, mask, zLo, resolution, word⟩

/-- `groupby` on the block of a chunk's start. -/
def blockGroups (blockDepth : ℕ) (chunks : List (ℕ × List (ℕ × Bytes))) : List (List (ℕ × List (ℕ × Bytes))) :=
  chunks.splitBy fun c c' => c.1 / 4 ^ blockDepth == c'.1 / 4 ^ blockDepth

variable (decodeCoverageBitmap : Bytes → ℕ → ℤ → Except String (List ℕ)) (coverage : Option Coverage)

/-- The blocks' events, once there is a populated chunk. -/
def tensorEvents (side depth : ℕ) (span : Option (ℕ × ℕ)) (first : ℕ × List (ℕ × Bytes))
    (chunks : List (ℕ × List (ℕ × Bytes))) : Except TensorError (List (Except TensorError TensorBlock)) :=
  let firstWords := arr.slice arr.morton first.1 (first.1 + side * side)
  (loadOccupancy m arr decodeCoverageBitmap coverage firstWords).bind fun occupancy =>
    (blockDepthOf m arr depth span firstWords first.1 req.blockOrder).bind fun blockDepth =>
      let bytes := 4 ^ blockDepth * req.nBins * req.dtype.itemsize
      if req.maxBlockBytes < bytes then
        .error (.blockBytes req.blockOrder (1 <<< blockDepth) req.nBins bytes req.maxBlockBytes)
      else
        .ok ((blockGroups blockDepth (first :: chunks)).map
          (readBlock m arr float32 element fuel req occupancy blockDepth))

def readTensors : Ended TensorError TensorBlock :=
  match tensorSide arr with
  | .error e => ⟨[], some (.text e)⟩
  | .ok (side, depth) =>
    match subtreeSpan m arr req.subtree with
    | .error e => ⟨[], some (.text e)⟩
    | .ok (span, spans) =>
      let cells := span.map Prod.fst
      if cells.any fun cells => decide (cells ≠ (0, 0) ∧ cells.2 - cells.1 < side * side) then
        ⟨[], some (.subtreeFiner arr.field (side * side))⟩
      else
        match iterPopulatedChunks arr cells spans with
        | [] => ⟨[], none⟩
        | first :: chunks =>
          match tensorEvents m arr float32 element fuel req decodeCoverageBitmap coverage side depth cells first chunks with
          | .error e => ⟨[], some e⟩
          | .ok events => generate events

end Zagg.Readers
