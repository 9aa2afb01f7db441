import Zagg.Processing.RaggedSlabs

/-!
# The array writers

A shard's chunks reach the store block by block, in one slab for the whole shard, or in the slab
of a hive leaf. Arrays on the cell grid and arrays on the chunk grid, one cell to a chunk, are
kept apart; arrays of bytes are filled with no bytes.
-/
namespace Zagg.Processing.Write

open Zagg.Lib
open BoxIndex (Inside size ravel unravel)

attribute [local instance] lawfulName

/-- A column of a carrier; a value is the whole payload of a cell, of this trailing shape. -/
structure Column (V : Type) where
  name : Name
  trailing : List Nat
  rows : List V

structure Carrier (V : Type) where
  numRows : Nat
  columns : List (Column V)
  sized : ∀ c ∈ columns, c.rows.length = numRows

def Carrier.isEmpty {V : Type} (carrier : Carrier V) : Bool := carrier.numRows = 0 ∨ carrier.columns.isEmpty

/-- One inner chunk of a shard: its block, its carrier and its ragged sink. -/
structure ChunkResult (P V ι : Type) where
  block : P
  carrier : Carrier V
  ragged : List (Name × RaggedEntry ι)

/-- What the configuration and the template say of the arrays. `sameValue` and `sameItem` are
numpy's equality, `NaN` equal to itself; a value is `populated` unless it is all `NaN`. -/
structure Fields (V ι : Type) where
  chunkRes : List Name
  sigOf : Name → RaggedSig ι
  fill : Name → V
  trailingChunk : Name → List Nat
  populated : V → Bool
  sameValue : V → V → Bool
  sameItem : ι → ι → Bool

/-- What a block selection of an array spans: a chunk, or a whole shard. -/
structure Template (P : Type) where
  denseBlock : P
  raggedBlock : P

/-- The arrays of a store, on the cell grid and on the chunk grid. -/
structure Store (P V : Type) where
  dense : Name × P → V
  ragged : Name × P → Bytes
  denseChunks : Name × P → V
  raggedChunks : Name × P → Bytes

def Store.template {P V ι : Type} (fields : Fields V ι) : Store P V :=
  ⟨fun k => fields.fill k.1, fun _ => [], fun k => fields.fill k.1, fun _ => []⟩

/-- What the writers ask of a grid; `regionStart` is where `shard_local_region` starts. -/
structure WriterGrid (P S : Type) where
  chunkShape : P
  shardSlabShape : P
  blockIndex : S → P
  regionStart : P → S → P
  leafBlockIndex : P → S → P

section Columns
variable {P V ι : Type} [DecidableEq P] (fields : Fields V ι)

def chunkUniformValue (name : Name) (rows : List V) : Except WriteError V :=
  match rows.filter fields.populated with
  | [] =>
    match rows with
    | [] => .error (.noRows name)
    | row :: _ => .ok row
  | first :: rest => if rest.all fun v => fields.sameValue v first then .ok first else .error (.notChunkUniform name)

def sameValues (sameItem : ι → ι → Bool) (v w : NdValues ι) : Bool :=
  v.shape = w.shape ∧ (v.items.zip w.items).all fun p => sameItem p.1 p.2

def chunkUniformRagged (name : Name) (values : List (NdValues ι)) : Except WriteError (Option (NdValues ι)) :=
  match values.filter fun v => ¬v.items.isEmpty with
  | [] => .ok none
  | first :: rest =>
    if rest.all fun v => sameValues fields.sameItem v first then .ok (some first)
    else .error (.notChunkUniform name)

def checkTrailing (name : Name) (trailing : List Nat) : Except WriteError Unit :=
  if trailing ≠ [] ∧ fields.trailingChunk name ≠ trailing then
    .error (.trailingChunk name (fields.trailingChunk name) trailing)
  else .ok ()

def writeCompanionColumns (carrier : Carrier V) (block : P) (chunks : Name × P → V) :
    Except WriteError (Name × P → V) :=
  carrier.columns.foldlM (fun chunks col =>
    if col.name ∉ fields.chunkRes then .ok chunks
    else (chunkUniformValue fields col.name col.rows).map fun v => Function.update chunks (col.name, block) v)
    chunks

/-- The payload of a chunk-resolution field. -/
def chunkPayload (name : Name) (entry : RaggedEntry ι) : Except WriteError (Option Bytes) :=
  let parts := raggedEntry entry
  if parts.locations.isSome then .error (.companionChannel name "location")
  else if parts.times.isSome then .error (.companionChannel name "temporal")
  else (chunkUniformRagged fields name parts.values).bind fun payload =>
    match payload with
    | none => .ok none
    | some payload => (raggedPayloadBytes name payload (fields.sigOf name)).map some

def writeRaggedCompanions (ragged : List (Name × RaggedEntry ι)) (block : P) (chunks : Name × P → Bytes) :
    Except WriteError (Name × P → Bytes) :=
  ragged.foldlM (fun chunks e =>
    if e.1 ∉ fields.chunkRes then .ok chunks
    else (chunkPayload fields e.1 e.2).map fun bytes =>
      bytes.elim chunks fun bytes => Function.update chunks (e.1, block) bytes)
    chunks

end Columns

section Writers
variable {P S V ι : Type} [BoxIndex P] [DecidableEq P] (tpl : Template P) (w : WriterGrid P S) (fields : Fields V ι)

/-- `set_block_selection`: block `b` of an array whose blocks have this shape. -/
def setBlock {β : Type} (arrayBlock shape b : P) (name : Name) (values : P → β) (a : Name × P → β) :
    Except WriteError (Name × P → β) :=
  if arrayBlock ≠ shape then .error (.blockShape name)
  else .ok (assignAll (named name (blockWrites shape (b * shape) values)) a)

/-- A write of one column; the store's arrays on both grids, and the staged slabs. -/
def writeColumn (chunkIdx : P) (st : ((Name × P → V) × (Name × P → V)) × Option (Slabs Name P V))
    (col : Column V) : Except WriteError (((Name × P → V) × (Name × P → V)) × Option (Slabs Name P V)) :=
  if col.name ∈ fields.chunkRes then
    (chunkUniformValue fields col.name col.rows).map fun v =>
      ((st.1.1, Function.update st.1.2 (col.name, chunkIdx) v), st.2)
  else
    let values := reshape w.chunkShape col.rows (fields.fill col.name)
    (checkTrailing fields col.name col.trailing).bind fun _ =>
      (setBlock tpl.denseBlock w.chunkShape chunkIdx col.name values st.1.1).map fun dense =>
        ((dense, st.1.2), st.2.map
          (editSlab fields.fill col.name (blockWrites w.chunkShape (chunkIdx * w.chunkShape) values)))

def writeDataframeToZarr (carrier : Carrier V) (chunkIdx : P)
    (st : ((Name × P → V) × (Name × P → V)) × Option (Slabs Name P V)) :
    Except WriteError (((Name × P → V) × (Name × P → V)) × Option (Slabs Name P V)) :=
  if carrier.isEmpty then .ok st
  else if carrier.numRows ≠ size w.chunkShape then .error (.rowCount (size w.chunkShape) carrier.numRows)
  else carrier.columns.foldlM (writeColumn tpl w fields chunkIdx) st

/-- The ragged slabs, each in one selection. -/
def setRaggedBlocks (shape b : P) (slabs : Slabs Name P Bytes) (a : Name × P → Bytes) :
    Except WriteError (Name × P → Bytes) :=
  (slabs.map Prod.fst).foldlM (fun a name => setBlock tpl.raggedBlock shape b name (slab noBytes slabs name) a) a

def writeRaggedToZarr (ragged : List (Name × RaggedEntry ι)) (chunkIdx : P) (store : Store P V) :
    Except WriteError (Store P V) :=
  if ragged.isEmpty then .ok store
  else
    (writeRaggedCompanions fields ragged chunkIdx store.raggedChunks).bind fun chunks =>
      (accumulateRaggedSlabs w.chunkShape fields.sigOf fields.chunkRes 0 ragged []).bind fun slabs =>
        (setRaggedBlocks tpl w.chunkShape chunkIdx slabs store.ragged).map fun cells =>
          { store with ragged := cells, raggedChunks := chunks }

/-- The runner's `_write_chunk`. -/
def writeChunk (store : Store P V) (r : ChunkResult P V ι) : Except WriteError (Store P V) :=
  (writeDataframeToZarr tpl w fields r.carrier r.block ((store.dense, store.denseChunks), none)).bind fun st =>
    writeRaggedToZarr tpl w fields r.ragged r.block { store with dense := st.1.1, denseChunks := st.1.2 }

/-- The per-chunk writers, over the chunks of a shard. -/
def writeChunks (results : List (ChunkResult P V ι)) (store : Store P V) : Except WriteError (Store P V) :=
  results.foldlM (writeChunk tpl w fields) store

/-- The slabs of a shard as they fill; a dense slab keeps the trailing shape it was made with. -/
structure Slabbed (P V : Type) where
  denseChunks : Name × P → V
  raggedChunks : Name × P → Bytes
  slabs : Slabs Name P V
  trailings : List (Name × List Nat)
  raggedSlabs : Slabs Name P Bytes

def placeColumn (start : P) (st : Slabs Name P V × List (Name × List Nat)) (col : Column V) :
    Except WriteError (Slabs Name P V × List (Name × List Nat)) :=
  if col.name ∈ fields.chunkRes then .ok st
  else
    let trailing := (itemOf st.2 col.name).getD col.trailing
    if col.rows.length ≠ size w.chunkShape ∨ trailing ≠ col.trailing then .error (.reshape (size w.chunkShape) col.rows.length)
    else
      .ok (editSlab fields.fill col.name (blockWrites w.chunkShape start
        (reshape w.chunkShape col.rows (fields.fill col.name))) st.1, put col.name trailing st.2)

/-- The loop of the two slab writers; the companions of a chunk go to `companionBlock`. -/
def placeChunk (shard : S) (companionBlock : P → P) (st : Slabbed P V) (r : ChunkResult P V ι) :
    Except WriteError (Slabbed P V) :=
  let start := w.regionStart r.block shard
  (writeCompanionColumns fields r.carrier (companionBlock r.block) st.denseChunks).bind fun denseChunks =>
    (writeRaggedCompanions fields r.ragged (companionBlock r.block) st.raggedChunks).bind fun raggedChunks =>
      if r.carrier.isEmpty ∧ r.ragged.isEmpty then
        .ok { st with denseChunks := denseChunks, raggedChunks := raggedChunks }
      else
        (r.carrier.columns.foldlM (placeColumn w fields start) (st.slabs, st.trailings)).bind fun dense =>
          (accumulateRaggedSlabs w.chunkShape fields.sigOf fields.chunkRes start r.ragged st.raggedSlabs).map
            fun raggedSlabs => ⟨denseChunks, raggedChunks, dense.1, dense.2, raggedSlabs⟩

/-- The slabs of all chunks, each written in one selection at block `b`. -/
def setSlabs (b : P) (st : Slabbed P V) (store : Store P V) : Except WriteError (Store P V) :=
  ((st.slabs.map Prod.fst).foldlM (fun dense name =>
    (checkTrailing fields name ((itemOf st.trailings name).getD [])).bind fun _ =>
      setBlock tpl.denseBlock w.shardSlabShape b name (slab fields.fill st.slabs name) dense) store.dense).bind
    fun dense =>
      (setRaggedBlocks tpl w.shardSlabShape b st.raggedSlabs store.ragged).map fun ragged =>
        ⟨dense, ragged, st.denseChunks, st.raggedChunks⟩

def writeShardToZarr (shard : S) (results : List (ChunkResult P V ι)) (store : Store P V) :
    Except WriteError (Store P V) :=
  (results.foldlM (placeChunk w fields shard fun block => block)
    ⟨store.denseChunks, store.raggedChunks, [], [], []⟩).bind fun st =>
    setSlabs tpl w fields (w.blockIndex shard) st store

/-- The arrays a hive writer staged. -/
structure Staged (P V : Type) where
  dense : Slabs Name P V
  ragged : Slabs Name P Bytes

/-- `staged_out.update(slabs)`. -/
def stage {β : Type} (fill : Name → β) (slabs staged : Slabs Name P β) : Slabs Name P β :=
  (slabs.map Prod.fst).foldl (fun d name => put name (slab fill slabs name) d) staged

def writeLeafToZarr (shard : S) (results : List (ChunkResult P V ι)) (store : Store P V) (staged : Staged P V) :
    Except WriteError (Store P V × Staged P V) :=
  (results.foldlM (placeChunk w fields shard fun block => w.leafBlockIndex block shard)
    ⟨store.denseChunks, store.raggedChunks, [], [], []⟩).bind fun st =>
    (setSlabs tpl w fields 0 st store).map fun store =>
      (store, ⟨stage fields.fill st.slabs staged.dense, stage noBytes st.raggedSlabs staged.ragged⟩)

def placeRagged (st : (Name × P → Bytes) × Slabs Name P Bytes) (e : P × List (Name × RaggedEntry ι)) :
    Except WriteError ((Name × P → Bytes) × Slabs Name P Bytes) :=
  (writeRaggedCompanions fields e.2 e.1 st.1).bind fun chunks =>
    (accumulateRaggedSlabs w.chunkShape fields.sigOf fields.chunkRes (e.1 * w.chunkShape) e.2 st.2).map fun slabs =>
      (chunks, slabs)

def writeRaggedLeafToZarr (raggedChunks : List (P × List (Name × RaggedEntry ι))) (store : Store P V)
    (staged : Slabs Name P Bytes) : Except WriteError (Store P V × Slabs Name P Bytes) :=
  if raggedChunks.all fun e => e.2.isEmpty then .ok (store, staged)
  else
    (raggedChunks.foldlM (placeRagged w fields) (store.raggedChunks, [])).bind fun st =>
      (setRaggedBlocks tpl w.shardSlabShape 0 st.2 store.ragged).map fun ragged =>
        ({ store with ragged := ragged, raggedChunks := st.1 }, stage noBytes st.2 staged)

/-- An unsharded hive leaf: the dense columns chunk by chunk, then the ragged fields at once. -/
def streamLeaf (shard : S) (results : List (ChunkResult P V ι)) (store : Store P V) (staged : Staged P V) :
    Except WriteError (Store P V × Staged P V) :=
  (results.foldlM (fun st r => writeDataframeToZarr tpl w fields r.carrier (w.leafBlockIndex r.block shard) st)
    ((store.dense, store.denseChunks), some staged.dense)).bind fun st =>
    (writeRaggedLeafToZarr tpl w fields
      ((results.filter fun r => ¬r.ragged.isEmpty).map fun r => (w.leafBlockIndex r.block shard, r.ragged))
      { store with dense := st.1.1, denseChunks := st.1.2 } staged.ragged).map fun out =>
        (out.1, ⟨st.2.getD [], out.2⟩)

end Writers

end Zagg.Processing.Write
