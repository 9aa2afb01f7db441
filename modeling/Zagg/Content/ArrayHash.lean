import Zagg.Raster.StreamRuns

/-!
# Content hashes of fixed-width arrays

`hash_array` hashes an array's elements in little-endian order. `StreamingArrayHash` takes the
rows as they are written, checks their shape, dtype and index, and keeps the bytes of the checked
ones; the rows no write reached are hashed as the fill, whose bytes are taken as the dtype stores
them.
-/
namespace Zagg.Content

open Zagg.Raster (rowAt parkedBytes rowBytes)

/-- `STREAM_PENDING_MAX_BYTES`. -/
def streamPendingMaxBytes : Nat := 64 * 1024 * 1024

/-- `dtype.byteorder`, the native order being little-endian. -/
inductive ByteOrder
  | little
  | big
  | notApplicable
deriving DecidableEq

/-- A fixed-width dtype. An element is `units` words of `unit` bytes each, which swap apart: one
for a number, two for a complex one, one a character for text. -/
structure Dtype where
  kind : Char
  units : Nat
  unit : Nat
  order : ByteOrder
deriving DecidableEq

def Dtype.itemsize (dtype : Dtype) : Nat := dtype.units * dtype.unit

/-- An element's words, as they lie in memory. -/
abbrev Item := List (List UInt8)

/-- An element of this dtype. -/
structure Dtype.Holds (dtype : Dtype) (x : Item) : Prop where
  units : x.length = dtype.units
  unit : ∀ word ∈ x, word.length = dtype.unit

structure NdArray where
  dtype : Dtype
  shape : List Nat
  items : List Item
  count : items.length = shape.prod
  held : ∀ x ∈ items, dtype.Holds x

namespace NdArray

/-- `tobytes`: the elements in C order. -/
def tobytes (a : NdArray) : List UInt8 := a.items.flatMap List.flatten

def nbytes (a : NdArray) : Nat := a.items.length * a.dtype.itemsize

/-- `astype(dtype.newbyteorder("<"))` of a big-endian array. -/
def swapped (a : NdArray) : NdArray where
  dtype := { a.dtype with order := .little }
  shape := a.shape
  items := a.items.map (List.map List.reverse)
  count := by rw [List.length_map, a.count]
  held := by
    intro x hx
    obtain ⟨y, hy, rfl⟩ := List.mem_map.mp hx
    have hheld := a.held y hy
    refine ⟨(List.length_map _).trans hheld.units, fun word hword => ?_⟩
    obtain ⟨word, hmem, rfl⟩ := List.mem_map.mp hword
    exact List.length_reverse.trans (hheld.unit word hmem)

/-- The canonical form. -/
def littleEndian (a : NdArray) : NdArray := if a.dtype.order = .big then a.swapped else a

end NdArray

section Hash
variable {η : Type} (sha256 : List UInt8 → η)

/-- `hash_array` of a fixed-width array. -/
def hashArray (values : NdArray) : η := sha256 values.littleEndian.tobytes

/-- The arguments of `StreamingArrayHash`; the fill value is cast to the dtype. -/
structure ArraySpec where
  rows : Nat
  rowShape : List Nat
  dtype : Dtype
  fillValue : Option Item
  fill_held : ∀ f ∈ fillValue, dtype.Holds f

/-- What `_invalidate` records of a row that is not taken; the rows taken have reasons of their
own. -/
inductive Refusal
  | mismatch (index : Int) (shape : List Nat) (dtype : Dtype)
  | outside (index : Int)
deriving DecidableEq

/-- The state of a `StreamingArrayHash`: the rows that passed the checks are `stream`'s. -/
structure StreamingArrayHash where
  refusal : Option Refusal
  stream : Raster.StreamingArrayHash Item

variable (spec : ArraySpec) (budget : Nat)

/-- An element's bytes, in little-endian order. -/
def itemBytes (dtype : Dtype) (x : Item) : List UInt8 :=
  if dtype.order = .big then (x.map List.reverse).flatten else x.flatten

def StreamingArrayHash.init : StreamingArrayHash where
  refusal := none
  stream := ⟨spec.rows, spec.rowShape.prod, spec.fillValue, none, [], 0, fun _ => none, 0⟩

namespace StreamingArrayHash
variable (s : StreamingArrayHash)

def invalid : Bool := s.refusal.isSome || s.stream.invalidReason.isSome

/-- `_invalidate` forgets the parked rows. -/
def invalidate (reason : Refusal) : StreamingArrayHash where
  refusal := some reason
  stream := { s.stream with pending := fun _ => none, pendingBytes := 0 }

/-- The upper end of the index, the second write of a row and the budget are the stream's
checks. -/
def update (index : Int) (values : NdArray) : StreamingArrayHash :=
  if s.invalid then s
  else if values.shape ≠ spec.rowShape ∨ values.dtype ≠ spec.dtype then
    s.invalidate (.mismatch index values.shape values.dtype)
  else if index < 0 then s.invalidate (.outside index)
  else
    { s with stream := s.stream.update (itemBytes spec.dtype) budget index.toNat values.items }

/-- `_fill_row`: `np.full(row_shape, fill_value, dtype).tobytes()`. -/
def fillRow : Option (List UInt8) :=
  spec.fillValue.map fun f => (List.replicate spec.rowShape.prod f).flatMap List.flatten

def finalizeRow (index : Nat) : Option (List UInt8) :=
  match s.stream.pending index with
  | some row => some (rowBytes (itemBytes spec.dtype) row)
  | none => fillRow spec

def finalize : Option η :=
  if s.invalid then none
  else ((List.range' s.stream.next (spec.rows - s.stream.next)).mapM (s.finalizeRow spec)).map
    fun rest => sha256 (s.stream.digest ++ rest.flatten)

/-- The digest after a list of writes. -/
def after (ws : List (Int × NdArray)) : StreamingArrayHash :=
  ws.foldl (fun s w => s.update spec budget w.1 w.2) (init spec)

end StreamingArrayHash

end Hash

section Writes

/-- The writes, by row. -/
def rowsOf (ws : List (Int × NdArray)) : List (Nat × NdArray) := ws.map fun w => (w.1.toNat, w.2)

/-- The row a list of writes has at an index. -/
def writtenRow (ws : List (Int × NdArray)) : Nat → Option NdArray := rowAt (rowsOf ws)

/-- Writes that all reach the digest. -/
structure Accepted (spec : ArraySpec) (budget : Nat) (ws : List (Int × NdArray)) : Prop where
  once : (ws.map Prod.fst).Nodup
  inside : ∀ w ∈ ws, 0 ≤ w.1 ∧ w.1 < spec.rows
  typed : ∀ w ∈ ws, w.2.shape = spec.rowShape ∧ w.2.dtype = spec.dtype
  parked : ∀ p, p <+: ws → parkedBytes NdArray.nbytes spec.rows (rowsOf p) ≤ budget

/-- Writes the digest can stand behind: those and the fill make up every row. -/
structure Stands (spec : ArraySpec) (budget : Nat) (ws : List (Int × NdArray)) : Prop
    extends Accepted spec budget ws where
  filled : spec.fillValue = none → ∀ i < spec.rows, (writtenRow ws i).isSome

/-- A row of the array the writes make: the one written, or fill. -/
def assembledRow (spec : ArraySpec) (ws : List (Int × NdArray)) (i : Nat) : List Item :=
  match writtenRow ws i with
  | some row => row.items
  | none => List.replicate spec.rowShape.prod (spec.fillValue.getD [])

/-- The array the writes make. -/
structure Assembles (spec : ArraySpec) (ws : List (Int × NdArray)) (arr : NdArray) : Prop where
  dtype : arr.dtype = spec.dtype
  shape : arr.shape = spec.rows :: spec.rowShape
  items : arr.items = (List.range spec.rows).flatMap (assembledRow spec ws)

end Writes

end Zagg.Content
