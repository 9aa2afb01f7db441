import Zagg.Lib.Dict
import Zagg.Spill.Block

/-!
# Spill blocks at the arrays

An append takes the partition ids, the cells and the columns as arrays. It is refused when the
schema drifts or the arrays are not aligned; else every maximal run of one id becomes a segment
at the end of that id's file, the cells first and then the columns. A partition is read from the
front of its file by the segments' row counts, which leaves the file at its end again.
-/
namespace Zagg.Spill.Raw

open Zagg.Lib Zagg.Spill

/-- A 1-D array: its dtype, and its items, each of the dtype's size. -/
structure NumArray where
  dtype : Dtype
  items : List Item
  sized : ∀ x ∈ items, x.length = dtype.itemsize

/-- A binary file and its position. -/
structure File where
  bytes : List UInt8 := []
  pos : Nat := 0

/-- `f.write`. -/
def File.write (f : File) (data : List UInt8) : File :=
  ⟨f.bytes.take f.pos ++ data ++ f.bytes.drop (f.pos + data.length), f.pos + data.length⟩

/-- `_readinto` of an array of `n` items; `none` is the `OSError` of a short read. -/
def File.readItems (f : File) (itemsize n : Nat) : Option (List Item × File) :=
  (readInto itemsize n (f.bytes.drop f.pos)).map fun r => (r.1, ⟨f.bytes, f.pos + n * itemsize⟩)

/-- A `_Partition`. -/
structure Partition where
  file : File := {}
  segments : List Nat := []
  nbytes : Nat := 0

/-- `write_segment`: the arrays one behind the other, and the rows of the first. -/
def Partition.writeSegment (p : Partition) (arrays : List (List Item)) : Partition × Nat :=
  let written := (arrays.map fun a => a.flatten.length).sum
  (⟨arrays.foldl (fun f a => f.write a.flatten) p.file, p.segments ++ [(arrays.headD []).length],
    p.nbytes + written⟩, written)

/-- The arrays of one segment. -/
def readArrays (n : Nat) : List Dtype → File → Option (List (List Item) × File)
  | [], f => some ([], f)
  | d :: ds, f =>
    (f.readItems d.itemsize n).bind fun r =>
      (readArrays n ds r.2).map fun rs => (r.1 :: rs.1, rs.2)

/-- The loop of `read`: the arrays fill up segment by segment. -/
def readSegments (dtypes : List Dtype) : List Nat → File → Option (List (List Item) × File)
  | [], f => some (dtypes.map fun _ => [], f)
  | n :: ns, f =>
    (readArrays n dtypes f).bind fun arrays =>
      (readSegments dtypes ns arrays.2).map fun rest =>
        (List.zipWith (· ++ ·) arrays.1 rest.1, rest.2)

/-- `read`: the arrays, and the partition with its file at the end again. -/
def Partition.read (p : Partition) (dtypes : List Dtype) :
    Option (List (List Item) × Partition) :=
  (readSegments dtypes p.segments ⟨p.file.bytes, 0⟩).map fun r =>
    (r.1, { p with file := ⟨r.2.bytes, r.2.bytes.length⟩ })

/-- A `SpillBlock`: its partitions in creation order, and what the first append pins. -/
structure SpillBlock where
  partitions : List (Int × Partition) := []
  schema : Option (List (String × Dtype)) := none
  cellDtype : Option Dtype := none
  bytesWritten : Nat := 0

/-- The arguments of an `append`. -/
structure Batch where
  partIds : List Int
  cells : NumArray
  cols : List (String × NumArray)

def Batch.schema (b : Batch) : List (String × Dtype) := b.cols.map fun c => (c.1, c.2.dtype)

/-- The cells and the columns, in the order they are written. -/
def Batch.arrays (b : Batch) : List (List Item) := b.cells.items :: b.cols.map fun c => c.2.items

inductive SpillError
  | schemaDrift
  | notAligned
  | noPartition
  | shortRead

/-- `self._partitions` with one more segment in the partition of a run, and the bytes so far. -/
def writeRun (arrays : List (List Item)) (st : List (Int × Partition) × Nat)
    (run : Int × Nat × Nat) : List (Int × Partition) × Nat :=
  let part := (st.1.lookup run.1).getD {}
  let w := part.writeSegment (arrays.map fun a => slice a run.2.1 run.2.2)
  (put run.1 w.1 st.1, st.2 + w.2)

/-- The first append pins the schema. -/
def SpillBlock.pin (s : SpillBlock) (b : Batch) : SpillBlock :=
  match s.schema with
  | none => { s with schema := some b.schema, cellDtype := some b.cells.dtype }
  | some _ => s

/-- `append`: the block it leaves, and the bytes it wrote or the error it raised. -/
def SpillBlock.append (s : SpillBlock) (b : Batch) : SpillBlock × Except SpillError Nat :=
  let s := s.pin b
  if s.schema ≠ some b.schema ∨ s.cellDtype ≠ some b.cells.dtype then (s, .error .schemaDrift)
  else if b.partIds.length ≠ b.cells.items.length ∨
      b.cols.any (fun c => c.2.items.length ≠ b.cells.items.length) then (s, .error .notAligned)
  else if b.cells.items = [] then (s, .ok 0)
  else
    let w := (runs b.partIds).foldl (writeRun b.arrays) (s.partitions, 0)
    ({ s with partitions := w.1, bytesWritten := s.bytesWritten + w.2 }, .ok w.2)

/-- The cells of a partition and its columns by name. -/
abbrev Rows := List Item × List (String × List Item)

/-- `read_partition`: the rows or the error, and the block it leaves. -/
def SpillBlock.readPartition (s : SpillBlock) (partKey : Int) (close : Bool) :
    Except SpillError Rows × SpillBlock :=
  match s.partitions.lookup partKey, s.cellDtype, s.schema with
  | some part, some cellDtype, some schema =>
    match part.read (cellDtype :: schema.map Prod.snd) with
    | none => (.error .shortRead, s)
    | some (arrays, part) =>
      (.ok (arrays.headD [], (schema.map Prod.fst).zip arrays.tail),
        { s with partitions :=
          if close then s.partitions.filter fun e => e.1 ≠ partKey
          else put partKey part s.partitions })
  | _, _, _ => (.error .noPartition, s)

/-- What happens to a block. -/
inductive Op
  | append (b : Batch)
  | read (partKey : Int) (close : Bool)

def SpillBlock.step (s : SpillBlock) : Op → SpillBlock
  | .append b => (s.append b).1
  | .read partKey close => (s.readPartition partKey close).2

end Zagg.Spill.Raw
