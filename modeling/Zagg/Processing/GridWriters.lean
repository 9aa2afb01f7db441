import Zagg.Grids.ShardTiles
import Zagg.Processing.StoredCells

/-!
# The writers of a grid's shards

A chunk of a shard starts in the slab where its block, counted from the shard's first, starts in
an array of the shard's own. Both grids place their chunks so, and then every writer stores the
same chunks, and what each of their cells holds does not depend on the writer.
-/
namespace Zagg.Processing.Write

open Zagg.Lib
open Zagg.Catalog (Word)
open Zagg.Grids
open BoxIndex (Inside size ravel unravel)

section Grids

/-- A rectilinear grid, as the writers see it. -/
def rectilinearWriterGrid (g : RectilinearGrid) : WriterGrid (Nat × Nat) Nat where
  chunkShape := g.chunkShape
  shardSlabShape := g.shardSlabShape
  blockIndex := g.blockIndex
  regionStart block shard :=
    let region := g.shardLocalRegion block shard
    (region.1.1.toNat, region.2.1.toNat)
  leafBlockIndex block shard :=
    let region := g.shardLocalRegion block shard
    (region.1.1.toNat / g.chunkShape.1, region.2.1.toNat / g.chunkShape.2)

/-- A HEALPix grid, as the writers see it. -/
def healpixWriterGrid (m : MortonCalls) (g : HealpixGrid) : WriterGrid Nat Word where
  chunkShape := g.chunkShape
  shardSlabShape := g.shardSlabShape
  blockIndex := HealpixGrid.blockIndex m
  regionStart block shard := (g.shardLocalRegion m block shard).1.toNat
  leafBlockIndex block shard := (g.shardLocalRegion m block shard).1.toNat / g.chunkShape

variable {P S : Type} [BoxIndex P] {w : WriterGrid P S} {counts : P} {shard : S} {blocks : List P}

/-- The chunks of a shard lie where the blocks of its tile lie. -/
theorem laid_of_tile (hpos : 0 < size w.chunkShape) (hslab : counts * w.chunkShape = w.shardSlabShape)
    (hnodup : blocks.Nodup) (hblocks : ∀ b ∈ blocks, b ∈ tile counts (w.blockIndex shard))
    (hleaf : ∀ o, w.leafBlockIndex (w.blockIndex shard * counts + o) shard = o)
    (hstart : ∀ o, w.regionStart (w.blockIndex shard * counts + o) shard = o * w.chunkShape) :
    w.Laid counts shard blocks := by
  refine ⟨hpos, hslab, hnodup, ?_, ?_, ?_⟩
  all_goals
    intro b hb
    obtain ⟨o, ho, rfl⟩ := mem_tile.mp (hblocks b hb)
  · rw [hleaf]
    exact ho
  · rw [hleaf]
  · rw [hleaf]
    exact hstart o

theorem rectilinear_laid (g : RectilinearGrid) (shard : Nat) {blocks : List (Nat × Nat)} (hnodup : blocks.Nodup)
    (hblocks : ∀ b ∈ blocks, b ∈ (g.iterChunks shard).map Prod.fst) :
    (rectilinearWriterGrid g).Laid g.innerCounts shard blocks := by
  have hslices : ∀ o, g.shardLocalRegion (g.unpack shard * g.innerCounts + o) shard = _ := fun o =>
    RectilinearGrid.shardLocalRegion_eq rfl
  apply laid_of_tile (w := rectilinearWriterGrid g)
  · exact Nat.mul_pos g.innerH_pos g.innerW_pos
  · exact g.innerCounts_mul
  · exact hnodup
  · intro b hb
    have hmem := hblocks b hb
    rw [RectilinearGrid.iterChunks_eq, List.map_map] at hmem
    obtain ⟨b', hb', rfl⟩ := List.mem_map.mp hmem
    exact hb'
  · intro o
    show ((g.shardLocalRegion (g.unpack shard * g.innerCounts + o) shard).1.1.toNat / g.innerH,
      (g.shardLocalRegion (g.unpack shard * g.innerCounts + o) shard).2.1.toNat / g.innerW) = o
    rw [hslices o]
    exact Prod.ext (Nat.mul_div_cancel o.1 g.innerH_pos) (Nat.mul_div_cancel o.2 g.innerW_pos)
  · intro o
    show ((g.shardLocalRegion (g.unpack shard * g.innerCounts + o) shard).1.1.toNat,
      (g.shardLocalRegion (g.unpack shard * g.innerCounts + o) shard).2.1.toNat) = o * g.chunkShape
    rw [hslices o]
    rfl

theorem healpix_laid {m : MortonCalls} {top : Nat} {IsAt : Nat → Word → Prop} (hm : m.Nested top IsAt)
    (g : HealpixGrid) (htop : g.childOrder ≤ top) {shard : Word} (hs : IsAt g.parentOrder shard) {blocks : List Nat}
    (hnodup : blocks.Nodup) (hblocks : ∀ b ∈ blocks, b ∈ (g.iterChunks m shard).map Prod.fst) :
    (healpixWriterGrid m g).Laid g.chunksPerShard shard blocks := by
  have hpos : 0 < g.chunkShape := Nat.pow_pos (by decide)
  apply laid_of_tile (w := healpixWriterGrid m g)
  · exact hpos
  · exact g.chunksPerShard_mul
  · exact hnodup
  · intro b hb
    have hchunks := (HealpixGrid.blocks hm htop).chunks_eq shard hs
    exact hchunks ▸ hblocks b hb
  · intro o
    show (g.shardLocalRegion m (HealpixGrid.blockIndex m shard * g.chunksPerShard + o) shard).1.toNat / g.chunkShape = o
    rw [HealpixGrid.shardLocalRegion_eq]
    exact Nat.mul_div_cancel o hpos
  · intro o
    show (g.shardLocalRegion m (HealpixGrid.blockIndex m shard * g.chunksPerShard + o) shard).1.toNat = _
    rw [HealpixGrid.shardLocalRegion_eq]
    rfl

end Grids

section Content
variable {P S V ι : Type} [BoxIndex P] [DecidableEq P] (w : WriterGrid P S) (fields : Fields V ι)

/-- What the cells of a chunk hold, whichever writer stored it. -/
structure CellsHeld (r : ChunkResult P V ι) : Prop where
  dense : ∀ col ∈ r.carrier.columns, col.name ∉ fields.chunkRes → ∀ o, Inside o w.chunkShape →
    col.rows[ravel w.chunkShape o]? = some (denseCells w fields r (col.name, o))
  dense_fill : ∀ name o, (∀ col ∈ r.carrier.columns, col.name ∉ fields.chunkRes → col.name ≠ name) →
    denseCells w fields r (name, o) = fields.fill name
  dense_chunk : ∀ col ∈ r.carrier.columns, col.name ∈ fields.chunkRes →
    chunkUniformValue fields col.name col.rows = .ok (denseChunk fields r col.name)
  ragged : ∀ e ∈ r.ragged, e.1 ∉ fields.chunkRes → ∀ row ∈ rowsOf e,
    ∃ pos, unravelIndex w.chunkShape row.1.1 = .ok pos ∧
      raggedCells w fields r (e.1, pos) = payloadBytes (fields.sigOf e.1) row.1.2 ∧
      ((∀ x ∈ row.1.2.items, (fields.sigOf e.1).element.Holds x) →
        ∃ v, decodeCell (fields.sigOf e.1) (raggedCells w fields r (e.1, pos)) = some v ∧ v.items = row.1.2.items ∧
          v.shape = row.1.2.items.length / (fields.sigOf e.1).innerShape.prod :: (fields.sigOf e.1).innerShape) ∧
      ∀ c ∈ channelsOf e.1 (raggedEntry e.2),
        raggedCells w fields r (c.sibling, pos) = wordsBytes (c.channel.getD row.2 none) ∧
        ∀ words, c.channel.getD row.2 none = some words → (∀ x ∈ words.items, x < 2 ^ 64) →
          decodeCell wordSig (raggedCells w fields r (c.sibling, pos)) = some words ∧
          words.shape = [row.1.2.items.length / (fields.sigOf e.1).innerShape.prod]
  ragged_fill : ∀ name pos, raggedCells w fields r (name, pos) ≠ [] → ∃ e ∈ r.ragged, e.1 ∉ fields.chunkRes ∧
    ∃ row ∈ rowsOf e, unravelIndex w.chunkShape row.1.1 = .ok pos ∧
      (name = e.1 ∨ ∃ c ∈ channelsOf e.1 (raggedEntry e.2), name = c.sibling)
  ragged_chunk : ∀ e ∈ r.ragged, e.1 ∈ fields.chunkRes →
    ∃ b, chunkPayload fields e.1 e.2 = .ok b ∧ raggedChunk fields r e.1 = b.getD []

variable (shard : S) (results : List (ChunkResult P V ι))

/-- The writers of a leaf: sharded, and chunk by chunk. -/
def leafWriters : List (Except WriteError (Store P V × Staged P V)) :=
  [writeLeafToZarr ⟨w.shardSlabShape, w.shardSlabShape⟩ w fields shard results (Store.template fields) ⟨[], []⟩,
    streamLeaf ⟨w.chunkShape, w.shardSlabShape⟩ w fields shard results (Store.template fields) ⟨[], []⟩]

/-- All writers, each with the block it writes a chunk at. -/
def writers : List ((ChunkResult P V ι → P) × Except WriteError (Store P V)) :=
  (ChunkResult.block, writeChunks ⟨w.chunkShape, w.chunkShape⟩ w fields results (Store.template fields)) ::
    (ChunkResult.block,
      writeShardToZarr ⟨w.shardSlabShape, w.shardSlabShape⟩ w fields shard results (Store.template fields)) ::
    (leafWriters w fields shard results).map fun out => (leafBlock w shard, out.map Prod.fst)

/-- The writers store the same: all of them refuse or none does, the cells of a chunk are the same
in every store, and the rest is fill. -/
structure SameStored (counts : P) : Prop where
  accepted : ∀ x ∈ writers w fields shard results,
    (∃ store, x.2 = .ok store) ↔ ∀ r ∈ results, Sound w fields r
  stored : ∀ x ∈ writers w fields shard results, ∀ store, x.2 = .ok store → Stored w fields x.1 results store
  origin : ∀ r ∈ results, r.block = w.blockIndex shard * counts + leafBlock w shard r
  held : ∀ r ∈ results, Sound w fields r → Named r → CellsHeld w fields r
  staged : ∀ out ∈ leafWriters w fields shard results, ∀ o, out = .ok o → StagedEq w.shardSlabShape o.1 o.2

variable {w fields shard results} {counts : P} {r : ChunkResult P V ι}

theorem cellsHeld_of_sound (hfits : Fits w fields r) (hsound : Sound w fields r) (hnamed : Named r) :
    CellsHeld w fields r := by
  obtain ⟨vs, hvs⟩ := (accepted_iff.mpr hsound).values
  obtain ⟨bs, hbs⟩ := (accepted_iff.mpr hsound).payloads
  constructor
  · intro col hcol hres o ho
    exact denseCells_eq hfits hnamed hcol hres ho
  · intro name o h
    exact denseCells_fill h
  · intro col hcol hres
    exact denseChunk_eq hnamed hvs hcol hres
  · intro e he hres row hrow
    have haligned := hsound.entries e he hres
    obtain ⟨pos, hpos⟩ := haligned.cells row hrow
    obtain ⟨htiles, hwords⟩ := haligned.rows row hrow
    have hpayload := raggedCells_payload hsound hnamed he hres hrow hpos
    refine ⟨pos, hpos, hpayload, ?_, ?_⟩
    · intro hholds
      rw [hpayload]
      exact decodeCell_payloadBytes htiles hholds
    · intro c hc
      have hcell := raggedCells_words hsound hnamed he hres hrow hpos hc
      refine ⟨hcell, ?_⟩
      intro words hsome hlt
      have hshape := hwords c hc words hsome
      rw [hcell, hsome]
      exact ⟨decodeCell_words hshape hlt, hshape⟩
  · intro name pos h
    exact exists_row hsound h
  · intro e he hres
    exact raggedChunk_eq hnamed hbs he hres

/-- A writer that stores what is accepted, read by its outcome. -/
theorem Writes.outcome {at_ : ChunkResult P V ι → P} {out : Except WriteError (Store P V)}
    (h : Writes w fields at_ results out) : ((∃ store, out = .ok store) ↔ ∀ r ∈ results, Sound w fields r) ∧
      ∀ store, out = .ok store → Stored w fields at_ results store := by
  constructor
  · constructor
    · intro hok r hr
      obtain ⟨store, hstore⟩ := hok
      exact accepted_iff.mp (h.accepted store hstore r hr)
    · intro hsound
      obtain ⟨store, hstore, -⟩ := h.stored fun r hr => accepted_iff.mpr (hsound r hr)
      exact ⟨store, hstore⟩
  · intro store hstore
    obtain ⟨store', hstore', hstored⟩ := h.stored (h.accepted store hstore)
    cases hstore'.symm.trans hstore
    exact hstored

/-- Whatever the grid, its chunks laid out block by block are stored the same. -/
theorem sameStored_of_laid (hlaid : w.Laid counts shard (results.map ChunkResult.block))
    (hfits : ∀ r ∈ results, Fits w fields r) : SameStored w fields shard results counts := by
  have hleaf : ∀ out ∈ leafWriters w fields shard results, LeafWrites w fields (leafBlock w shard) results out := by
    intro out hout
    rcases List.mem_cons.mp hout with rfl | hout
    · exact writeLeafToZarr_writes rfl rfl hlaid hfits
    · rw [List.mem_singleton.mp hout]
      exact streamLeaf_writes rfl rfl hlaid hfits
  have hall : ∀ x ∈ writers w fields shard results, Writes w fields x.1 results x.2 := by
    intro x hx
    rcases List.mem_cons.mp hx with rfl | hx
    · exact writeChunks_writes hlaid.pos rfl rfl hfits hlaid.nodup
    · rcases List.mem_cons.mp hx with rfl | hx
      · exact writeShardToZarr_writes rfl rfl hlaid hfits
      · obtain ⟨out, hout, rfl⟩ := List.mem_map.mp hx
        exact (hleaf out hout).writes
  constructor
  · intro x hx
    exact (hall x hx).outcome.1
  · intro x hx
    exact (hall x hx).outcome.2
  · intro r hr
    exact hlaid.block_eq _ (List.mem_map_of_mem hr)
  · intro r hr hsound hnamed
    exact cellsHeld_of_sound (hfits r hr) hsound hnamed
  · intro out hout
    exact (hleaf out hout).staged

end Content

section Sample

/-- `h` has one value to a cell, `q` rows of two items to a cell, and `d` one payload to a chunk. -/
def sampleFields : Fields Nat Nat where
  chunkRes := [['d']]
  sigOf name := if name = ['q'] then ⟨[2], uint64⟩ else ⟨[], uint64⟩
  fill _ := 0
  trailingChunk _ := []
  populated _ := true
  sameValue v w := v = w
  sameItem x y := x = y

def words (items : List Nat) : NdValues Nat := ⟨[items.length], items, List.prod_singleton.symm⟩

def sampleColumns : List (Column Nat) := [⟨['h'], [], [1, 2, 3, 4, 5, 6, 7, 8]⟩]

theorem sampleColumns_sized : ∀ c ∈ sampleColumns, c.rows.length = 8 := by decide

def noColumns : Carrier Nat := ⟨0, [], List.forall_mem_nil _⟩

/-- Two payload rows in cell three, located and without times, and one in the last cell. -/
def sampleEntry : Name × RaggedEntry Nat :=
  (['q'], .quad [words [5, 6, 7, 8], words [9, 9]] [3, 7] (some [some (words [11, 12]), none])
    (some [none, some (words [13])]))

/-- The second chunk of the first shard. -/
def sampleChunk : ChunkResult (Nat × Nat) Nat Nat := ⟨(1, 0), ⟨8, sampleColumns, sampleColumns_sized⟩, [sampleEntry]⟩

theorem sampleChunk_fits : ∀ r ∈ [sampleChunk], Fits (rectilinearWriterGrid raggedGrid) sampleFields r := by
  intro r hr
  rw [List.mem_singleton.mp hr]
  exact ⟨.inr rfl, by decide⟩

/-- One payload of two cells, whose list of cells is empty. -/
def unlistedChunk : ChunkResult (Nat × Nat) Nat Nat := ⟨(0, 0), noColumns, [(['d'], .pair [words [4], words [4]] [])]⟩

def healpixChunk : ChunkResult Nat Nat Nat := ⟨2, noColumns, [sampleEntry]⟩

theorem healpixChunk_fits : ∀ r ∈ [healpixChunk], Fits (healpixWriterGrid pairCalls sampleOrders) sampleFields r := by
  intro r hr
  rw [List.mem_singleton.mp hr]
  exact ⟨.inl rfl, by decide⟩

end Sample

/-- A field of one payload to a chunk is stored by all writers though its lists differ in length. -/
theorem unlisted_cells_stored :
    (∀ e ∈ unlistedChunk.ragged, (raggedEntry e.2).values.length ≠ (raggedEntry e.2).cellIds.length) ∧
      unlistedChunk.block ∈ (raggedGrid.iterChunks 0).map Prod.fst ∧
      ∀ x ∈ writers (rectilinearWriterGrid raggedGrid) sampleFields 0 [unlistedChunk], ∃ store, x.2 = .ok store := by
  have hlaid : (rectilinearWriterGrid raggedGrid).Laid raggedGrid.innerCounts 0 [(0, 0)] :=
    rectilinear_laid raggedGrid 0 (by decide) (by decide)
  have hfits : ∀ r ∈ [unlistedChunk], Fits (rectilinearWriterGrid raggedGrid) sampleFields r := by
    intro r hr
    rw [List.mem_singleton.mp hr]
    exact ⟨.inl rfl, by decide⟩
  refine ⟨by decide, by decide, ?_⟩
  intro x hx
  apply ((sameStored_of_laid hlaid hfits).accepted x hx).mpr
  intro r hr
  rw [List.mem_singleton.mp hr]
  constructor
  · intro col hcol
    cases hcol
  · intro e he _
    rw [List.mem_singleton.mp he]
    exact ⟨some (wordBytes 8 4), rfl⟩
  · intro e he hres
    rw [List.mem_singleton.mp he] at hres
    exact absurd (by decide) hres

/-- The writers of a grid's shard store the same chunks, and a field's channels come back from the
slots they were sent in. -/
theorem writers_store_same {m : MortonCalls} {top : Nat} {IsAt : Nat → Word → Prop} (hm : m.Nested top IsAt)
    {V ι : Type} (fields : Fields V ι) :
    (∀ (g : RectilinearGrid) (shard : Nat) (results : List (ChunkResult (Nat × Nat) V ι)),
      (results.map ChunkResult.block).Nodup →
      (∀ b ∈ results.map ChunkResult.block, b ∈ (g.iterChunks shard).map Prod.fst) →
      (∀ r ∈ results, Fits (rectilinearWriterGrid g) fields r) →
        SameStored (rectilinearWriterGrid g) fields shard results g.innerCounts) ∧
    (∀ g : HealpixGrid, g.childOrder ≤ top → ∀ shard, IsAt g.parentOrder shard →
      ∀ results : List (ChunkResult Nat V ι), (results.map ChunkResult.block).Nodup →
      (∀ b ∈ results.map ChunkResult.block, b ∈ (g.iterChunks m shard).map Prod.fst) →
      (∀ r ∈ results, Fits (healpixWriterGrid m g) fields r) →
        SameStored (healpixWriterGrid m g) fields shard results g.chunksPerShard) ∧
    ∀ (values : List (NdValues ι)) (cellIds : List Int) (channels : List (String × Channel)),
      raggedEntry (sinkEntry values cellIds (channelEntry channels)) =
        ⟨values, cellIds, channels.lookup "locations", channels.lookup "times"⟩ := by
  refine ⟨?_, ?_, raggedEntry_sinkEntry⟩
  · intro g shard results hnodup hblocks hfits
    exact sameStored_of_laid (rectilinear_laid g shard hnodup hblocks) hfits
  · intro g htop shard hs results hnodup hblocks hfits
    exact sameStored_of_laid (healpix_laid hm g htop hs hnodup hblocks) hfits

theorem writers_store_same_samples :
    SameStored (rectilinearWriterGrid raggedGrid) sampleFields 0 [sampleChunk] raggedGrid.innerCounts ∧
      SameStored (healpixWriterGrid pairCalls sampleOrders) sampleFields 2 [healpixChunk]
        sampleOrders.chunksPerShard :=
  ⟨(writers_store_same pairCalls_nested sampleFields).1 raggedGrid 0 [sampleChunk] (by decide) (by decide)
      sampleChunk_fits,
    (writers_store_same pairCalls_nested sampleFields).2.1 sampleOrders (by decide) 2 ⟨by decide, by decide, by decide⟩
      [healpixChunk] (by decide) (by decide) healpixChunk_fits⟩

example : ((writeShardToZarr ⟨(4, 4), (4, 4)⟩ (rectilinearWriterGrid raggedGrid) sampleFields 0 [sampleChunk]
    (Store.template sampleFields)).toOption.map fun store =>
      (store.dense (['h'], (3, 3)), bytesWord (store.ragged (raggedTimesName ['q'], (3, 3))),
        bytesWord (store.ragged (raggedLocationsName ['q'], (3, 3))))) = some (8, 13, 0) := by decide

end Zagg.Processing.Write
