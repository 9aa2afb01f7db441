import Zagg.Processing.Writers

/-!
# The writers store the same

Every writer leaves each chunk's cells in the chunk's own block and fill elsewhere. One chunk's
cells are found once, from its columns and its ragged entries; each writer is then followed chunk
by chunk, and what it has stored so far is the content of the chunks behind it.
-/
namespace Zagg.Processing.Write

open Zagg.Lib
open BoxIndex (Inside size ravel unravel)

attribute [local instance] lawfulName

variable {P S V ι : Type} [BoxIndex P] [DecidableEq P] {w : WriterGrid P S} {fields : Fields V ι}
  {tpl : Template P} {shard : S} {counts : P} {results done : List (ChunkResult P V ι)}
  {r : ChunkResult P V ι}

section Chunk
variable (w) (fields)

def columnWrites (col : Column V) : List ((Name × P) × V) :=
  if col.name ∈ fields.chunkRes then []
  else named col.name (blockWrites w.chunkShape 0 (reshape w.chunkShape col.rows (fields.fill col.name)))

def columnValue (col : Column V) : Except WriteError (List (Name × V)) :=
  if col.name ∉ fields.chunkRes then .ok []
  else (chunkUniformValue fields col.name col.rows).map fun v => [(col.name, v)]

/-- What the columns leave on the cell grid. -/
def denseWrites (carrier : Carrier V) : List ((Name × P) × V) := carrier.columns.flatMap (columnWrites w fields)

/-- What the columns leave on the chunk grid. -/
def companionValues (carrier : Carrier V) : Except WriteError (List (Name × V)) :=
  (carrier.columns.mapM (columnValue fields)).map List.flatten

def entryPayload (e : Name × RaggedEntry ι) : Except WriteError (List (Name × Bytes)) :=
  if e.1 ∉ fields.chunkRes then .ok []
  else (chunkPayload fields e.1 e.2).map fun bytes => bytes.toList.map fun bytes => (e.1, bytes)

/-- What the ragged entries leave on the chunk grid. -/
def companionPayloads (ragged : List (Name × RaggedEntry ι)) : Except WriteError (List (Name × Bytes)) :=
  (ragged.mapM (entryPayload fields)).map List.flatten

def cellWrites (ragged : List (Name × RaggedEntry ι)) : Except WriteError (List ((Name × P) × Bytes)) :=
  raggedWrites w.chunkShape fields.sigOf fields.chunkRes ragged

/-- Every column and every entry of a chunk passes its checks. -/
structure Accepted (r : ChunkResult P V ι) : Prop where
  values : ∃ vs, companionValues fields r.carrier = .ok vs
  payloads : ∃ bs, companionPayloads fields r.ragged = .ok bs
  cells : ∃ ws, cellWrites w fields r.ragged = .ok ws

/-- The cells of an accepted chunk, by array and place in the chunk. -/
def denseCells (r : ChunkResult P V ι) : Name × P → V :=
  assignAll (denseWrites w fields r.carrier) fun k => fields.fill k.1

def raggedCells (r : ChunkResult P V ι) : Name × P → Bytes :=
  assignAll ((cellWrites w fields r.ragged).toOption.getD []) fun k => noBytes k.1

def denseChunk (r : ChunkResult P V ι) : Name → V :=
  assignAll ((companionValues fields r.carrier).toOption.getD []) fields.fill

def raggedChunk (r : ChunkResult P V ι) : Name → Bytes :=
  assignAll ((companionPayloads fields r.ragged).toOption.getD []) noBytes

/-- A carrier has one row to a cell and the declared columns, or it is empty. -/
structure Fits (r : ChunkResult P V ι) : Prop where
  rows : r.carrier.columns = [] ∨ r.carrier.numRows = size w.chunkShape
  trailing : ∀ col ∈ r.carrier.columns, col.trailing = fields.trailingChunk col.name

/-- The store holds the cells of these chunks, each in its block, and fill elsewhere. -/
structure Stored (at_ : ChunkResult P V ι → P) (l : List (ChunkResult P V ι)) (st : Store P V) : Prop where
  dense : Filled w.chunkShape at_ (denseCells w fields) fields.fill l st.dense
  ragged : Filled w.chunkShape at_ (raggedCells w fields) noBytes l st.ragged
  denseChunks : FilledAt at_ (denseChunk fields) fields.fill l st.denseChunks
  raggedChunks : FilledAt at_ (raggedChunk fields) noBytes l st.raggedChunks

end Chunk

section Within

omit [DecidableEq P] in
theorem within_rowWrites {sigOf : Name → RaggedSig ι} {shape : P} {name : Name} {companions : List Companion}
    {row : (Int × NdValues ι) × Nat} {ws : List ((Name × P) × Bytes)}
    (h : rowWrites shape sigOf name companions row = .ok ws) : Within shape ws := by
  rw [rowWrites] at h
  obtain ⟨payload, -, h⟩ := bind_ok h
  obtain ⟨pos, hpos, h⟩ := bind_ok h
  have hin : Inside pos shape := by
    rw [unravelIndex] at hpos
    split_ifs at hpos with hcell
    cases hpos
    exact BoxIndex.inside_unravel (by omega)
  cases hfound : companions.mapM (companionWrites sigOf name row pos) with
  | error e =>
    rw [hfound] at h
    cases h
  | ok found =>
    rw [hfound] at h
    cases h
    have hcompanions : ∀ l ∈ found, ∀ x ∈ l, x.1.2 = pos := by
      intro l hl x hx
      obtain ⟨c, -, hc⟩ := forall₂_exists_of_mem_right (forall₂_mapM hfound) hl
      rw [companionWrites] at hc
      cases hbytes : companionBytes name (sigOf name) row.1.1 row.1.2 row.2 c with
      | error e =>
        rw [hbytes] at hc
        cases hc
      | ok bytes =>
        rw [hbytes] at hc
        cases hc
        obtain ⟨b, -, rfl⟩ := List.mem_map.mp hx
        rfl
    intro x hx
    have hplace : x.1.2 = pos := by
      cases List.mem_append.mp hx with
      | inl hmem =>
        obtain ⟨l, hl, hxl⟩ := List.mem_flatten.mp hmem
        exact hcompanions l hl x hxl
      | inr hmem =>
        split_ifs at hmem
        · cases hmem
        · rw [List.mem_singleton.mp hmem]
    rw [hplace]
    exact hin

omit [DecidableEq P] in
theorem within_flatten {shape : P} {wss : List (List ((Name × P) × Bytes))} (h : ∀ ws ∈ wss, Within shape ws) :
    Within shape wss.flatten := by
  intro x hx
  obtain ⟨ws, hws, hxs⟩ := List.mem_flatten.mp hx
  exact h ws hws x hxs

omit [DecidableEq P] in
theorem within_entryWrites {e : Name × RaggedEntry ι} {ws : List ((Name × P) × Bytes)}
    (h : entryWrites w.chunkShape fields.sigOf fields.chunkRes e = .ok ws) : Within w.chunkShape ws := by
  rw [entryWrites] at h
  dsimp only at h
  split_ifs at h
  · cases h
    intro x hx
    cases hx
  · obtain ⟨companions, -, h⟩ := bind_ok h
    obtain ⟨wss, hwss, rfl⟩ := map_ok h
    apply within_flatten
    intro ws hws
    obtain ⟨row, -, hrow⟩ := forall₂_exists_of_mem_right (forall₂_mapM hwss) hws
    exact within_rowWrites hrow

omit [DecidableEq P] in
/-- The ragged cells of a chunk lie in the chunk. -/
theorem within_cellWrites {ragged : List (Name × RaggedEntry ι)} {ws : List ((Name × P) × Bytes)}
    (h : cellWrites w fields ragged = .ok ws) : Within w.chunkShape ws := by
  obtain ⟨wss, hwss, rfl⟩ := map_ok h
  apply within_flatten
  intro ws hws
  obtain ⟨e, -, he⟩ := forall₂_exists_of_mem_right (forall₂_mapM hwss) hws
  exact within_entryWrites he

omit [DecidableEq P] in
theorem within_denseWrites (carrier : Carrier V) : Within w.chunkShape (denseWrites w fields carrier) := by
  intro x hx
  obtain ⟨col, -, hmem⟩ := List.mem_flatMap.mp hx
  rw [columnWrites] at hmem
  split_ifs at hmem
  · cases hmem
  · obtain ⟨y, hy, rfl⟩ := List.mem_map.mp hmem
    obtain ⟨k, hk, rfl⟩ := List.mem_map.mp hy
    show Inside (0 + unravel w.chunkShape k) w.chunkShape
    rw [zero_add]
    exact BoxIndex.inside_unravel (List.mem_range.mp hk)

end Within

section Dense

/-- What a dense write shows of its state. -/
def denseView (fields : Fields V ι) (st : ((Name × P → V) × (Name × P → V)) × Option (Slabs Name P V)) :
    (Name × P → V) × (Name × P → V) × Option (Name × P → V) :=
  (st.1.1, st.1.2, st.2.map (slabsAt fields.fill))

/-- The assignments of some columns of the chunk at block `b`. -/
def denseApply (shape b : P) (cells : List ((Name × P) × V)) (vs : List (Name × V))
    (a : (Name × P → V) × (Name × P → V) × Option (Name × P → V)) :
    (Name × P → V) × (Name × P → V) × Option (Name × P → V) :=
  (assignAll (shifted (b * shape) cells) a.1, assignAll (atBlock b vs) a.2.1,
    a.2.2.map (assignAll (shifted (b * shape) cells)))

theorem denseApply_append (shape b : P) (cells cells' : List ((Name × P) × V)) (vs vs' : List (Name × V))
    (a : (Name × P → V) × (Name × P → V) × Option (Name × P → V)) :
    denseApply shape b (cells ++ cells') (vs ++ vs') a =
      denseApply shape b cells' vs' (denseApply shape b cells vs a) := by
  have hcells : ∀ a : Name × P → V, assignAll (shifted (b * shape) (cells ++ cells')) a =
      assignAll (shifted (b * shape) cells') (assignAll (shifted (b * shape) cells) a) := by
    intro a
    rw [shifted, List.map_append, assignAll_append]
    rfl
  have hvs : assignAll (atBlock b (vs ++ vs')) a.2.1 =
      assignAll (atBlock b vs') (assignAll (atBlock b vs) a.2.1) := by
    rw [atBlock, List.map_append, assignAll_append]
    rfl
  rw [denseApply, hcells, hvs]
  obtain ⟨dense, chunks, staged⟩ := a
  cases staged with
  | none => rfl
  | some staged =>
    show (_, _, some (assignAll (shifted (b * shape) (cells ++ cells')) staged)) = _
    rw [hcells]
    rfl

omit [DecidableEq P] in
/-- A column's block is the one it has in the chunk, moved. -/
theorem named_blockWrites (shape start : P) (name : Name) (block : P → V) :
    named name (blockWrites shape start block) = shifted start (named name (blockWrites shape 0 block)) := by
  rw [named, named, shifted, blockWrites, blockWrites, List.map_map, List.map_map, List.map_map]
  apply List.map_congr_left
  intro k _
  show ((name, start + unravel shape k), _) = ((name, start + (0 + unravel shape k)), _)
  rw [zero_add]

theorem writeColumn_view (hblock : tpl.denseBlock = w.chunkShape) {col : Column V}
    (hcol : col.trailing = fields.trailingChunk col.name) (b : P)
    (st : ((Name × P → V) × (Name × P → V)) × Option (Slabs Name P V)) :
    (writeColumn tpl w fields b st col).map (denseView fields) =
      (columnValue fields col).map fun vs =>
        denseApply w.chunkShape b (columnWrites w fields col) vs (denseView fields st) := by
  obtain ⟨⟨dense, chunks⟩, staged⟩ := st
  rw [writeColumn, columnValue, columnWrites]
  by_cases hres : col.name ∈ fields.chunkRes
  · rw [if_pos hres, if_neg (not_not.mpr hres), if_pos hres]
    cases chunkUniformValue fields col.name col.rows with
    | error e => rfl
    | ok v =>
      cases staged with
      | none => rfl
      | some staged => rfl
  · have hcheck : checkTrailing fields col.name col.trailing = .ok () := by
      rw [checkTrailing, if_neg]
      exact fun h => h.2 hcol.symm
    rw [if_neg hres, if_pos hres, if_neg hres]
    dsimp only
    rw [hcheck]
    show ((setBlock _ _ _ _ _ _).map _).map _ = _
    have hmove := named_blockWrites w.chunkShape (b * w.chunkShape) col.name
      (reshape w.chunkShape col.rows (fields.fill col.name))
    rw [setBlock, if_neg (not_not.mpr hblock), hmove]
    cases staged with
    | none => rfl
    | some staged =>
      apply congrArg Except.ok
      show (_, _, some (slabsAt fields.fill (editSlab _ _ _ _))) = _
      rw [slabsAt_edit, hmove]
      rfl

theorem foldlM_writeColumn (hblock : tpl.denseBlock = w.chunkShape) {cols : List (Column V)}
    (hcols : ∀ col ∈ cols, col.trailing = fields.trailingChunk col.name) (b : P)
    (st : ((Name × P → V) × (Name × P → V)) × Option (Slabs Name P V)) :
    (cols.foldlM (writeColumn tpl w fields b) st).map (denseView fields) =
      ((cols.mapM (columnValue fields)).map List.flatten).map fun vs =>
        denseApply w.chunkShape b (cols.flatMap (columnWrites w fields)) vs (denseView fields st) := by
  have hstep : ∀ col ∈ cols, ∀ st, (writeColumn tpl w fields b st col).map (denseView fields) =
      ((columnValue fields col).map fun vs => (columnWrites w fields col, vs)).map fun ws =>
        denseApply w.chunkShape b ws.1 ws.2 (denseView fields st) := by
    intro col hcol st
    rw [writeColumn_view hblock (hcols col hcol)]
    cases columnValue fields col <;> rfl
  rw [foldlM_view hstep]
  clear hstep
  generalize denseView fields st = a
  induction cols generalizing a with
  | nil =>
    obtain ⟨dense, chunks, staged⟩ := a
    cases staged <;> rfl
  | cons col cols ih =>
    have hrest := ih (fun col' hcol' => hcols col' (.tail _ hcol'))
    rw [List.mapM_cons, List.mapM_cons]
    cases hvalue : columnValue fields col with
    | error e => rfl
    | ok vs =>
      have hthis := hrest (denseApply w.chunkShape b (columnWrites w fields col) vs a)
      rcases eq_of_map_eq hthis with ⟨e, hfound, hvalues⟩ | ⟨found, vs', hfound, hvalues, hend⟩
      · rw [hfound]
        cases hmap : cols.mapM (columnValue fields) with
        | error e' =>
          rw [hmap] at hvalues
          exact (congrArg Except.error (Except.error.inj hvalues)).symm
        | ok vss =>
          rw [hmap] at hvalues
          cases hvalues
      · obtain ⟨vss, hmap, hflat⟩ := map_ok hvalues
        rw [hfound, hmap]
        apply congrArg Except.ok
        show List.foldl _ (denseApply w.chunkShape b (columnWrites w fields col) vs a) found = _
        rw [hend, List.flatMap_cons, ← denseApply_append, ← hflat]
        rfl

/-- The columns of a carrier, as the per-chunk writer leaves them at a block. -/
theorem writeDataframeToZarr_view (hpos : 0 < size w.chunkShape) (hblock : tpl.denseBlock = w.chunkShape)
    (hfits : Fits w fields r) (b : P) (st : ((Name × P → V) × (Name × P → V)) × Option (Slabs Name P V)) :
    (writeDataframeToZarr tpl w fields r.carrier b st).map (denseView fields) =
      (companionValues fields r.carrier).map fun vs =>
        denseApply w.chunkShape b (denseWrites w fields r.carrier) vs (denseView fields st) := by
  rw [writeDataframeToZarr]
  by_cases hcols : r.carrier.columns = []
  · have hempty : r.carrier.isEmpty = true := by simp [Carrier.isEmpty, hcols]
    rw [if_pos hempty, companionValues, denseWrites, hcols]
    obtain ⟨⟨dense, chunks⟩, staged⟩ := st
    cases staged <;> rfl
  · have hrows := hfits.rows.resolve_left hcols
    have hempty : ¬r.carrier.isEmpty = true := by
      simp only [Carrier.isEmpty, hrows, List.isEmpty_iff, hcols, or_false, decide_eq_true_eq]
      omega
    rw [if_neg hempty, if_neg (not_not.mpr hrows)]
    exact foldlM_writeColumn hblock hfits.trailing b st

end Dense

section ChunkGrid

omit [BoxIndex P] in
theorem writeCompanionColumns_eq (carrier : Carrier V) (b : P) (chunks : Name × P → V) :
    writeCompanionColumns fields carrier b chunks =
      (companionValues fields carrier).map fun vs => assignAll (atBlock b vs) chunks := by
  have hstep : ∀ col ∈ carrier.columns, ∀ chunks : Name × P → V,
      (if col.name ∉ fields.chunkRes then Except.ok chunks
        else (chunkUniformValue fields col.name col.rows).map fun v =>
          Function.update chunks (col.name, b) v).map id =
        (columnValue fields col).map fun vs => assignAll (vs.map fun w => ((w.1, b), w.2)) (id chunks) := by
    intro col _ chunks
    rw [columnValue]
    by_cases hres : col.name ∈ fields.chunkRes
    · rw [if_neg (not_not.mpr hres), if_neg (not_not.mpr hres)]
      cases chunkUniformValue fields col.name col.rows <;> rfl
    · rw [if_pos hres, if_pos hres]
      rfl
  have hrun := foldlM_assigns hstep chunks
  rw [Except.map_id] at hrun
  exact hrun

omit [BoxIndex P] in
theorem writeRaggedCompanions_eq (ragged : List (Name × RaggedEntry ι)) (b : P) (chunks : Name × P → Bytes) :
    writeRaggedCompanions fields ragged b chunks =
      (companionPayloads fields ragged).map fun bs => assignAll (atBlock b bs) chunks := by
  have hstep : ∀ e ∈ ragged, ∀ chunks : Name × P → Bytes,
      (if e.1 ∉ fields.chunkRes then Except.ok chunks
        else (chunkPayload fields e.1 e.2).map fun bytes =>
          bytes.elim chunks fun bytes => Function.update chunks (e.1, b) bytes).map id =
        (entryPayload fields e).map fun bs => assignAll (bs.map fun w => ((w.1, b), w.2)) (id chunks) := by
    intro e _ chunks
    rw [entryPayload]
    by_cases hres : e.1 ∈ fields.chunkRes
    · rw [if_neg (not_not.mpr hres), if_neg (not_not.mpr hres)]
      cases chunkPayload fields e.1 e.2 with
      | error err => rfl
      | ok bytes => cases bytes <;> rfl
    · rw [if_pos hres, if_pos hres]
      rfl
  have hrun := foldlM_assigns hstep chunks
  rw [Except.map_id] at hrun
  exact hrun

end ChunkGrid

section Slab

/-- A selection of the array's own block shape is one assignment. -/
theorem setRaggedBlocks_eq {shape : P} (hblock : tpl.raggedBlock = shape) (b : P) (slabs : Slabs Name P Bytes)
    (a : Name × P → Bytes) :
    setRaggedBlocks tpl shape b slabs a = .ok (writeSlabs noBytes shape b slabs a) := by
  rw [setRaggedBlocks, writeSlabs]
  generalize slabs.map Prod.fst = names
  induction names generalizing a with
  | nil => rfl
  | cons name names ih =>
    rw [List.foldlM_cons, setBlock, if_neg (not_not.mpr hblock)]
    exact ih _

/-- A chunk's ragged cells reach the slabs exactly when each of its entries passes its checks. -/
theorem accumulate_ok {ragged : List (Name × RaggedEntry ι)} {ws : List ((Name × P) × Bytes)} (start : P)
    (slabs : Slabs Name P Bytes) (h : cellWrites w fields ragged = .ok ws) :
    ∃ slabs', accumulateRaggedSlabs w.chunkShape fields.sigOf fields.chunkRes start ragged slabs = .ok slabs' ∧
      slabsAt noBytes slabs' = assignAll (shifted start ws) (slabsAt noBytes slabs) := by
  have hview := accumulateRaggedSlabs_assigns w.chunkShape fields.sigOf fields.chunkRes start ragged slabs
  obtain ⟨slabs', hslabs, hat⟩ := ok_of_map_eq hview h
  exact ⟨slabs', hslabs, hat⟩

theorem cells_of_accumulate {ragged : List (Name × RaggedEntry ι)} {start : P} {slabs slabs' : Slabs Name P Bytes}
    (h : accumulateRaggedSlabs w.chunkShape fields.sigOf fields.chunkRes start ragged slabs = .ok slabs') :
    ∃ ws, cellWrites w fields ragged = .ok ws := by
  have hview := accumulateRaggedSlabs_assigns w.chunkShape fields.sigOf fields.chunkRes start ragged slabs
  obtain ⟨ws, hws, -⟩ := ok_of_map_eq hview.symm h
  exact ⟨ws, hws⟩

end Slab

section Contents
variable {at_ : ChunkResult P V ι → P} {ws : List ((Name × P) × Bytes)} {vs : List (Name × V)}
  {bs : List (Name × Bytes)}

/-- One more chunk of columns, whether into the store or into slabs. -/
theorem dense_concat {a : Name × P → V} (h : Filled w.chunkShape at_ (denseCells w fields) fields.fill done a)
    (hnew : at_ r ∉ done.map at_) : Filled w.chunkShape at_ (denseCells w fields) fields.fill (done ++ [r])
      (assignAll (shifted (at_ r * w.chunkShape) (denseWrites w fields r.carrier)) a) :=
  h.assign hnew (within_denseWrites r.carrier) rfl

theorem raggedCells_eq (hws : cellWrites w fields r.ragged = .ok ws) :
    raggedCells w fields r = assignAll ws fun k => noBytes k.1 := by
  rw [raggedCells, hws]
  rfl

theorem ragged_concat {a : Name × P → Bytes} (h : Filled w.chunkShape at_ (raggedCells w fields) noBytes done a)
    (hnew : at_ r ∉ done.map at_) (hws : cellWrites w fields r.ragged = .ok ws) :
    Filled w.chunkShape at_ (raggedCells w fields) noBytes (done ++ [r])
      (assignAll (shifted (at_ r * w.chunkShape) ws) a) :=
  h.assign hnew (within_cellWrites hws) (raggedCells_eq hws)

omit [BoxIndex P] in
theorem denseChunks_concat {a : Name × P → V} (h : FilledAt at_ (denseChunk fields) fields.fill done a)
    (hnew : at_ r ∉ done.map at_) (hvs : companionValues fields r.carrier = .ok vs) :
    FilledAt at_ (denseChunk fields) fields.fill (done ++ [r]) (assignAll (atBlock (at_ r) vs) a) := by
  apply h.assign hnew
  rw [denseChunk, hvs]
  rfl

omit [BoxIndex P] in
theorem raggedChunks_concat {a : Name × P → Bytes} (h : FilledAt at_ (raggedChunk fields) noBytes done a)
    (hnew : at_ r ∉ done.map at_) (hbs : companionPayloads fields r.ragged = .ok bs) :
    FilledAt at_ (raggedChunk fields) noBytes (done ++ [r]) (assignAll (atBlock (at_ r) bs) a) := by
  apply h.assign hnew
  rw [raggedChunk, hbs]
  rfl

theorem stored_template (at_ : ChunkResult P V ι → P) : Stored w fields at_ [] (Store.template fields) := by
  constructor
  all_goals
    constructor
    · intro r hr
      cases hr
    · intros
      rfl

omit [BoxIndex P] [DecidableEq P] in
/-- The chunk that comes next has a place of its own. -/
theorem new_of_nodup {l rest : List (ChunkResult P V ι)} (hnodup : (l.map at_).Nodup) (h : done ++ r :: rest = l) :
    at_ r ∉ done.map at_ := by
  rw [← h, List.map_append, List.map_cons] at hnodup
  intro hmem
  exact (List.nodup_append.mp hnodup).2.2 _ hmem _ (.head _) rfl

end Contents

section PerChunk
variable {vs : List (Name × V)} {bs : List (Name × Bytes)} {ws : List ((Name × P) × Bytes)}

theorem writeDataframe_ok (hpos : 0 < size w.chunkShape) (hblock : tpl.denseBlock = w.chunkShape)
    (hfits : Fits w fields r) (hvs : companionValues fields r.carrier = .ok vs) (b : P)
    (st : ((Name × P → V) × (Name × P → V)) × Option (Slabs Name P V)) :
    ∃ st', writeDataframeToZarr tpl w fields r.carrier b st = .ok st' ∧
      st'.1.1 = assignAll (shifted (b * w.chunkShape) (denseWrites w fields r.carrier)) st.1.1 ∧
      st'.1.2 = assignAll (atBlock b vs) st.1.2 ∧
      st'.2.map (slabsAt fields.fill) = (st.2.map (slabsAt fields.fill)).map
        (assignAll (shifted (b * w.chunkShape) (denseWrites w fields r.carrier))) := by
  obtain ⟨st', hrun, hview⟩ := ok_of_map_eq (writeDataframeToZarr_view hpos hblock hfits b st) hvs
  exact ⟨st', hrun, congrArg Prod.fst hview, congrArg (fun v => v.2.1) hview, congrArg (fun v => v.2.2) hview⟩

theorem values_of_writeDataframe (hpos : 0 < size w.chunkShape) (hblock : tpl.denseBlock = w.chunkShape)
    (hfits : Fits w fields r) {b : P} {st st' : ((Name × P → V) × (Name × P → V)) × Option (Slabs Name P V)}
    (h : writeDataframeToZarr tpl w fields r.carrier b st = .ok st') :
    ∃ vs, companionValues fields r.carrier = .ok vs := by
  obtain ⟨vs, hvs, -⟩ := ok_of_map_eq (writeDataframeToZarr_view hpos hblock hfits b st).symm h
  exact ⟨vs, hvs⟩

omit [DecidableEq P] in
theorem shifted_zero (ws : List ((Name × P) × Bytes)) : shifted 0 ws = ws := by
  rw [shifted]
  simp only [zero_add, Prod.mk.eta, List.map_id']

theorem writeRagged_ok (hblock : tpl.raggedBlock = w.chunkShape)
    (hbs : companionPayloads fields r.ragged = .ok bs) (hws : cellWrites w fields r.ragged = .ok ws) (b : P)
    (store : Store P V) :
    ∃ slabs, writeRaggedToZarr tpl w fields r.ragged b store = .ok
        { store with
          ragged := writeSlabs noBytes w.chunkShape b slabs store.ragged
          raggedChunks := assignAll (atBlock b bs) store.raggedChunks } ∧
      raggedCells w fields r = slabsAt noBytes slabs := by
  rw [raggedCells_eq hws, writeRaggedToZarr]
  by_cases hempty : r.ragged = []
  · rw [hempty] at hbs hws ⊢
    cases hbs
    cases hws
    exact ⟨[], rfl, rfl⟩
  · rw [if_neg (mt List.isEmpty_iff.mp hempty), writeRaggedCompanions_eq, hbs]
    obtain ⟨slabs, hslabs, hat⟩ := accumulate_ok 0 [] hws
    refine ⟨slabs, ?_, ?_⟩
    · show (accumulateRaggedSlabs _ _ _ _ _ _).bind _ = _
      rw [hslabs]
      show (setRaggedBlocks _ _ _ _ _).map _ = _
      rw [setRaggedBlocks_eq hblock]
      rfl
    · rw [hat, shifted_zero]
      rfl

theorem accepted_of_writeRagged {b : P} {store store' : Store P V}
    (h : writeRaggedToZarr tpl w fields r.ragged b store = .ok store') :
    (∃ bs, companionPayloads fields r.ragged = .ok bs) ∧ ∃ ws, cellWrites w fields r.ragged = .ok ws := by
  rw [writeRaggedToZarr] at h
  by_cases hempty : r.ragged = []
  · rw [hempty]
    exact ⟨⟨[], rfl⟩, [], rfl⟩
  · rw [if_neg (mt List.isEmpty_iff.mp hempty)] at h
    obtain ⟨chunks, hchunks, h⟩ := bind_ok h
    obtain ⟨slabs, hslabs, -⟩ := bind_ok h
    rw [writeRaggedCompanions_eq] at hchunks
    obtain ⟨bs, hbs, -⟩ := map_ok hchunks
    exact ⟨⟨bs, hbs⟩, cells_of_accumulate hslabs⟩

variable (w) (fields) in
/-- A writer that stores the chunks when all of them are accepted, and fails when one is not. -/
structure Writes (at_ : ChunkResult P V ι → P) (results : List (ChunkResult P V ι))
    (out : Except WriteError (Store P V)) : Prop where
  accepted : ∀ store, out = .ok store → ∀ r ∈ results, Accepted w fields r
  stored : (∀ r ∈ results, Accepted w fields r) → ∃ store, out = .ok store ∧ Stored w fields at_ results store

/-- The per-chunk writers. -/
theorem writeChunks_writes (hpos : 0 < size w.chunkShape) (hdense : tpl.denseBlock = w.chunkShape)
    (hragged : tpl.raggedBlock = w.chunkShape) (hfits : ∀ r ∈ results, Fits w fields r)
    (hnodup : (results.map ChunkResult.block).Nodup) :
    Writes w fields ChunkResult.block results (writeChunks tpl w fields results (Store.template fields)) where
  accepted := by
    intro store h r hr
    obtain ⟨store₁, store₂, hstep⟩ := steps_of_foldlM h r hr
    obtain ⟨st, hframe, hrest⟩ := bind_ok hstep
    obtain ⟨hbs, hws⟩ := accepted_of_writeRagged hrest
    exact ⟨values_of_writeDataframe hpos hdense (hfits r hr) hframe, hbs, hws⟩
  stored := by
    intro haccepted
    apply foldlM_run (Stored w fields ChunkResult.block) _ (stored_template _)
    intro done r rest hl store hstored
    have hr : r ∈ results := hl ▸ List.mem_append_right _ (.head _)
    have hnew := new_of_nodup hnodup hl
    obtain ⟨⟨vs, hvs⟩, ⟨bs, hbs⟩, ws, hws⟩ := haccepted r hr
    obtain ⟨st, hframe, hcells, hchunks, -⟩ :=
      writeDataframe_ok hpos hdense (hfits r hr) hvs r.block ((store.dense, store.denseChunks), none)
    obtain ⟨slabs, hrun, hslabs⟩ := writeRagged_ok hragged hbs hws r.block
      { store with dense := st.1.1, denseChunks := st.1.2 }
    refine ⟨⟨st.1.1, writeSlabs noBytes w.chunkShape r.block slabs store.ragged, st.1.2,
      assignAll (atBlock r.block bs) store.raggedChunks⟩, ?_, ?_⟩
    · rw [writeChunk, hframe]
      exact hrun
    · constructor
      · show Filled _ _ _ _ _ st.1.1
        rw [hcells]
        exact dense_concat hstored.dense hnew
      · exact hstored.ragged.withSlabs hnew hslabs
      · show FilledAt _ _ _ _ st.1.2
        rw [hchunks]
        exact denseChunks_concat hstored.denseChunks hnew hvs
      · exact raggedChunks_concat hstored.raggedChunks hnew hbs

end PerChunk

section Slabbed

/-- The chunks of a shard: where each lies in the array, and where in the shard's slab. -/
structure WriterGrid.Laid (w : WriterGrid P S) (counts : P) (shard : S) (blocks : List P) : Prop where
  pos : 0 < size w.chunkShape
  slab_eq : counts * w.chunkShape = w.shardSlabShape
  nodup : blocks.Nodup
  inside : ∀ b ∈ blocks, Inside (w.leafBlockIndex b shard) counts
  block_eq : ∀ b ∈ blocks, b = w.blockIndex shard * counts + w.leafBlockIndex b shard
  start_eq : ∀ b ∈ blocks, w.regionStart b shard = w.leafBlockIndex b shard * w.chunkShape

variable (w) (shard) in
/-- A chunk's block in a leaf. -/
def leafBlock (r : ChunkResult P V ι) : P := w.leafBlockIndex r.block shard

variable {counts : P}

omit [DecidableEq P] in
theorem WriterGrid.Laid.nodup_leaf (hlaid : w.Laid counts shard (results.map ChunkResult.block)) :
    (results.map (leafBlock w shard)).Nodup := by
  have hback : results.map ChunkResult.block =
      (results.map (leafBlock w shard)).map fun o => w.blockIndex shard * counts + o := by
    rw [List.map_map]
    exact List.map_congr_left fun r hr => hlaid.block_eq _ (List.mem_map_of_mem hr)
  have hnodup := hlaid.nodup
  rw [hback] at hnodup
  exact List.Nodup.of_map _ hnodup

variable (w) (fields) in
/-- The slabs hold these chunks at their blocks of the slab, and the chunk grid at its own. -/
structure Placed (local_ chunkAt : ChunkResult P V ι → P) (l : List (ChunkResult P V ι)) (st : Slabbed P V) :
    Prop where
  dense : Filled w.chunkShape local_ (denseCells w fields) fields.fill l (slabsAt fields.fill st.slabs)
  ragged : Filled w.chunkShape local_ (raggedCells w fields) noBytes l (slabsAt noBytes st.raggedSlabs)
  denseChunks : FilledAt chunkAt (denseChunk fields) fields.fill l st.denseChunks
  raggedChunks : FilledAt chunkAt (raggedChunk fields) noBytes l st.raggedChunks
  trailings : ∀ name t, itemOf st.trailings name = some t → t = fields.trailingChunk name

theorem placed_start (local_ chunkAt : ChunkResult P V ι → P) : Placed w fields local_ chunkAt []
    ⟨(Store.template fields : Store P V).denseChunks, (Store.template fields : Store P V).raggedChunks, [], [], []⟩ := by
  have hstored : ∀ at_ : ChunkResult P V ι → P, Stored w fields at_ [] (Store.template fields) := stored_template
  refine ⟨(hstored local_).dense, (hstored local_).ragged, (hstored chunkAt).denseChunks,
    (hstored chunkAt).raggedChunks, ?_⟩
  intro name t h
  cases h

theorem foldlM_placeColumn (hfits : Fits w fields r) (start : P) (slabs : Slabs Name P V)
    {trailings : List (Name × List Nat)}
    (htrail : ∀ name t, itemOf trailings name = some t → t = fields.trailingChunk name) :
    ∃ st, r.carrier.columns.foldlM (placeColumn w fields start) (slabs, trailings) = .ok st ∧
      slabsAt fields.fill st.1 = assignAll (shifted start (denseWrites w fields r.carrier)) (slabsAt fields.fill slabs) ∧
      ∀ name t, itemOf st.2 name = some t → t = fields.trailingChunk name := by
  apply foldlM_run (fun (done : List (Column V)) (st : Slabs Name P V × List (Name × List Nat)) =>
    slabsAt fields.fill st.1 =
      assignAll (shifted start (done.flatMap (columnWrites w fields))) (slabsAt fields.fill slabs) ∧
    ∀ name t, itemOf st.2 name = some t → t = fields.trailingChunk name) _ ⟨rfl, htrail⟩
  intro done col rest hl st hst
  obtain ⟨hslabs, htrail⟩ := hst
  have hcol : col ∈ r.carrier.columns := hl ▸ List.mem_append_right _ (.head _)
  have hsplit : ∀ a : Name × P → V, assignAll (shifted start ((done ++ [col]).flatMap (columnWrites w fields))) a =
      assignAll (shifted start (columnWrites w fields col))
        (assignAll (shifted start (done.flatMap (columnWrites w fields))) a) := by
    intro a
    rw [List.flatMap_append, List.flatMap_singleton, shifted, List.map_append, assignAll_append]
    rfl
  rw [placeColumn]
  by_cases hres : col.name ∈ fields.chunkRes
  · rw [if_pos hres]
    refine ⟨st, rfl, ?_, htrail⟩
    rw [hsplit, columnWrites, if_pos hres, hslabs]
    rfl
  · rw [if_neg hres]
    dsimp only
    have hrows : col.rows.length = size w.chunkShape := by
      rw [r.carrier.sized col hcol]
      exact hfits.rows.resolve_left (List.ne_nil_of_mem hcol)
    have hsame : (itemOf st.2 col.name).getD col.trailing = col.trailing := by
      cases hlookup : itemOf st.2 col.name with
      | none => rfl
      | some t => exact (htrail _ _ hlookup).trans (hfits.trailing col hcol).symm
    rw [if_neg (not_or.mpr ⟨not_not.mpr hrows, not_not.mpr hsame⟩)]
    refine ⟨_, rfl, ?_, ?_⟩
    · dsimp only
      rw [hsplit, slabsAt_edit, named_blockWrites, hslabs, columnWrites, if_neg hres]
    · dsimp only
      intro name t hlookup
      by_cases hname : name = col.name
      · rw [hname, itemOf_put_self, Option.some_inj] at hlookup
        rw [← hlookup, hsame, hname]
        exact hfits.trailing col hcol
      · rw [itemOf_put_of_ne hname] at hlookup
        exact htrail _ _ hlookup

omit [DecidableEq P] in
/-- An empty carrier has no columns. -/
theorem columns_of_empty (hpos : 0 < size w.chunkShape) (hfits : Fits w fields r) (h : r.carrier.isEmpty) :
    r.carrier.columns = [] := by
  by_contra hcols
  have hrows := hfits.rows.resolve_left hcols
  simp only [Carrier.isEmpty, hrows, List.isEmpty_iff, hcols, or_false, decide_eq_true_eq] at h
  omega

/-- An empty chunk leaves the slabs as they are, as the loop over nothing would. -/
theorem placeChunk_eq (hpos : 0 < size w.chunkShape) (hfits : Fits w fields r) (companionBlock : P → P)
    (st : Slabbed P V) : placeChunk w fields shard companionBlock st r =
      (writeCompanionColumns fields r.carrier (companionBlock r.block) st.denseChunks).bind fun denseChunks =>
        (writeRaggedCompanions fields r.ragged (companionBlock r.block) st.raggedChunks).bind fun raggedChunks =>
          (r.carrier.columns.foldlM (placeColumn w fields (w.regionStart r.block shard))
            (st.slabs, st.trailings)).bind fun dense =>
              (accumulateRaggedSlabs w.chunkShape fields.sigOf fields.chunkRes (w.regionStart r.block shard)
                r.ragged st.raggedSlabs).map fun raggedSlabs =>
                  ⟨denseChunks, raggedChunks, dense.1, dense.2, raggedSlabs⟩ := by
  rw [placeChunk]
  by_cases hempty : r.carrier.isEmpty ∧ r.ragged.isEmpty
  · rw [List.isEmpty_iff] at hempty
    simp only [List.isEmpty_iff, hempty, and_self, if_true, columns_of_empty hpos hfits hempty.1]
    rfl
  · simp only [if_neg hempty]

variable {local_ chunkAt : ChunkResult P V ι → P} {companionBlock : P → P}

theorem placeChunk_placed (hpos : 0 < size w.chunkShape) (hfits : Fits w fields r)
    (hstart : w.regionStart r.block shard = local_ r * w.chunkShape) (hat : companionBlock r.block = chunkAt r)
    (hlocal : local_ r ∉ done.map local_) (hchunk : chunkAt r ∉ done.map chunkAt) (haccepted : Accepted w fields r)
    {st : Slabbed P V} (h : Placed w fields local_ chunkAt done st) :
    ∃ st', placeChunk w fields shard companionBlock st r = .ok st' ∧
      Placed w fields local_ chunkAt (done ++ [r]) st' := by
  obtain ⟨⟨vs, hvs⟩, ⟨bs, hbs⟩, ws, hws⟩ := haccepted
  obtain ⟨dense, hdense, hcells, htrail⟩ :=
    foldlM_placeColumn hfits (w.regionStart r.block shard) st.slabs h.trailings
  obtain ⟨slabs, hslabs, hragged⟩ := accumulate_ok (w.regionStart r.block shard) st.raggedSlabs hws
  refine ⟨⟨assignAll (atBlock (chunkAt r) vs) st.denseChunks, assignAll (atBlock (chunkAt r) bs) st.raggedChunks,
    dense.1, dense.2, slabs⟩, ?_, ?_⟩
  · rw [placeChunk_eq hpos hfits, writeCompanionColumns_eq, hvs, writeRaggedCompanions_eq, hbs, hdense, hslabs, hat]
    rfl
  · rw [hstart] at hcells hragged
    constructor
    · show Filled _ _ _ _ _ (slabsAt fields.fill dense.1)
      rw [hcells]
      exact dense_concat h.dense hlocal
    · show Filled _ _ _ _ _ (slabsAt noBytes slabs)
      rw [hragged]
      exact ragged_concat h.ragged hlocal hws
    · exact denseChunks_concat h.denseChunks hchunk hvs
    · exact raggedChunks_concat h.raggedChunks hchunk hbs
    · exact htrail

theorem accepted_of_placeChunk (hpos : 0 < size w.chunkShape) (hfits : Fits w fields r) {st st' : Slabbed P V}
    (h : placeChunk w fields shard companionBlock st r = .ok st') : Accepted w fields r := by
  rw [placeChunk_eq hpos hfits] at h
  obtain ⟨denseChunks, hdense, h⟩ := bind_ok h
  obtain ⟨raggedChunks, hragged, h⟩ := bind_ok h
  obtain ⟨dense, -, h⟩ := bind_ok h
  obtain ⟨slabs, hslabs, -⟩ := map_ok h
  rw [writeCompanionColumns_eq] at hdense
  rw [writeRaggedCompanions_eq] at hragged
  obtain ⟨vs, hvs, -⟩ := map_ok hdense
  obtain ⟨bs, hbs, -⟩ := map_ok hragged
  exact ⟨⟨vs, hvs⟩, ⟨bs, hbs⟩, cells_of_accumulate hslabs⟩

theorem setSlabs_eq (hdense : tpl.denseBlock = w.shardSlabShape) (hragged : tpl.raggedBlock = w.shardSlabShape)
    (b : P) (st : Slabbed P V) (store : Store P V)
    (htrail : ∀ name t, itemOf st.trailings name = some t → t = fields.trailingChunk name) :
    setSlabs tpl w fields b st store = .ok
      ⟨writeSlabs fields.fill w.shardSlabShape b st.slabs store.dense,
        writeSlabs noBytes w.shardSlabShape b st.raggedSlabs store.ragged, st.denseChunks, st.raggedChunks⟩ := by
  have hcheck : ∀ name, checkTrailing fields name ((itemOf st.trailings name).getD []) = .ok () := by
    intro name
    rw [checkTrailing, if_neg]
    intro hbad
    cases hlookup : itemOf st.trailings name with
    | none => exact hbad.1 (by rw [hlookup]; rfl)
    | some t =>
      apply hbad.2
      rw [hlookup]
      exact (htrail _ _ hlookup).symm
  have hfold : ∀ (names : List Name) (a : Name × P → V), names.foldlM (fun dense name =>
      (checkTrailing fields name ((itemOf st.trailings name).getD [])).bind fun _ =>
        setBlock tpl.denseBlock w.shardSlabShape b name (slab fields.fill st.slabs name) dense) a =
      .ok (names.foldl (fun a name => assignAll (named name (blockWrites w.shardSlabShape (b * w.shardSlabShape)
        (slab fields.fill st.slabs name))) a) a) := by
    intro names
    induction names with
    | nil =>
      intro a
      rfl
    | cons name names ih =>
      intro a
      rw [List.foldlM_cons, hcheck, setBlock, if_neg (not_not.mpr hdense)]
      exact ih _
  rw [setSlabs, hfold, setRaggedBlocks_eq hragged]
  rfl

variable (chunkAt companionBlock) in
/-- The whole-shard writer and the leaf writer, up to where the slabs go. -/
theorem slabs_written (hdense : tpl.denseBlock = w.shardSlabShape) (hragged : tpl.raggedBlock = w.shardSlabShape)
    (hlaid : w.Laid counts shard (results.map ChunkResult.block)) (hfits : ∀ r ∈ results, Fits w fields r)
    (hat : ∀ r ∈ results, companionBlock r.block = chunkAt r) (hnodup : (results.map chunkAt).Nodup) {b : P}
    (hplace : ∀ r ∈ results, chunkAt r = b * counts + leafBlock w shard r)
    (haccepted : ∀ r ∈ results, Accepted w fields r) :
    ∃ st, results.foldlM (placeChunk w fields shard companionBlock) ⟨(Store.template fields).denseChunks,
        (Store.template fields).raggedChunks, [], [], []⟩ = .ok st ∧
      ∃ store, setSlabs tpl w fields b st (Store.template fields) = .ok store ∧
        Stored w fields chunkAt results store ∧
        (∀ name p, Inside p w.shardSlabShape → store.dense (name, b * w.shardSlabShape + p) =
          slab fields.fill st.slabs name p) ∧
        ∀ name p, Inside p w.shardSlabShape → store.ragged (name, b * w.shardSlabShape + p) =
          slab noBytes st.raggedSlabs name p := by
  have hstep : ∀ done r rest, done ++ r :: rest = results → ∀ st, Placed w fields (leafBlock w shard) chunkAt done st →
      ∃ st', placeChunk w fields shard companionBlock st r = .ok st' ∧
        Placed w fields (leafBlock w shard) chunkAt (done ++ [r]) st' := by
    intro done r rest hl st hst
    have hr : r ∈ results := hl ▸ List.mem_append_right _ (.head _)
    exact placeChunk_placed hlaid.pos (hfits r hr) (hlaid.start_eq _ (List.mem_map_of_mem hr)) (hat r hr)
      (new_of_nodup hlaid.nodup_leaf hl) (new_of_nodup hnodup hl) (haccepted r hr) hst
  obtain ⟨st, hrun, hst⟩ := foldlM_run _ hstep (placed_start _ _)
  have hinside : ∀ r ∈ results, Inside (leafBlock w shard r) counts := fun r hr =>
    hlaid.inside _ (List.mem_map_of_mem hr)
  refine ⟨st, hrun, _, setSlabs_eq hdense hragged b st _ hst.trailings, ?_, ?_, ?_⟩
  · constructor
    · show Filled _ _ _ _ _ (writeSlabs _ _ _ _ _)
      rw [← hlaid.slab_eq]
      exact hst.dense.ofSlabs hinside hplace
    · show Filled _ _ _ _ _ (writeSlabs _ _ _ _ _)
      rw [← hlaid.slab_eq]
      exact hst.ragged.ofSlabs hinside hplace
    · exact hst.denseChunks
    · exact hst.raggedChunks
  · intro name p hp
    exact writeSlabs_inside hp rfl
  · intro name p hp
    exact writeSlabs_inside hp rfl

theorem accepted_of_slabs (hpos : 0 < size w.chunkShape) (hfits : ∀ r ∈ results, Fits w fields r)
    {st st' : Slabbed P V} (h : results.foldlM (placeChunk w fields shard companionBlock) st = .ok st') :
    ∀ r ∈ results, Accepted w fields r := by
  intro r hr
  obtain ⟨st₁, st₂, hstep⟩ := steps_of_foldlM h r hr
  exact accepted_of_placeChunk hpos (hfits r hr) hstep

/-- The whole-shard writer. -/
theorem writeShardToZarr_writes (hdense : tpl.denseBlock = w.shardSlabShape)
    (hragged : tpl.raggedBlock = w.shardSlabShape) (hlaid : w.Laid counts shard (results.map ChunkResult.block))
    (hfits : ∀ r ∈ results, Fits w fields r) :
    Writes w fields ChunkResult.block results
      (writeShardToZarr tpl w fields shard results (Store.template fields)) where
  accepted := by
    intro store h
    obtain ⟨st, hrun, -⟩ := bind_ok h
    exact accepted_of_slabs hlaid.pos hfits hrun
  stored := by
    intro haccepted
    obtain ⟨st, hrun, store, hset, hstored, -⟩ := slabs_written ChunkResult.block (fun block => block) hdense
      hragged hlaid hfits (fun _ _ => rfl) hlaid.nodup (fun r hr => hlaid.block_eq _ (List.mem_map_of_mem hr)) haccepted
    refine ⟨store, ?_, hstored⟩
    rw [writeShardToZarr, hrun]
    exact hset

/-- A staged array equals the stored array of its name. -/
structure StagedEq (shape : P) (store : Store P V) (staged : Staged P V) : Prop where
  dense : ∀ name a, itemOf staged.dense name = some a → ∀ p, Inside p shape → a p = store.dense (name, p)
  ragged : ∀ name a, itemOf staged.ragged name = some a → ∀ p, Inside p shape → a p = store.ragged (name, p)

variable (w) (fields) in
/-- A leaf's writer, and what it staged. -/
structure LeafWrites (at_ : ChunkResult P V ι → P) (results : List (ChunkResult P V ι))
    (out : Except WriteError (Store P V × Staged P V)) : Prop where
  writes : Writes w fields at_ results (out.map Prod.fst)
  staged : ∀ o, out = .ok o → StagedEq w.shardSlabShape o.1 o.2

omit [BoxIndex P] [DecidableEq P] in
theorem itemOf_stage {β : Type} {fill : Name → β} {slabs staged : Slabs Name P β} {name : Name} {a : P → β}
    (h : itemOf (stage fill slabs staged) name = some a) : a = slab fill slabs name ∨ itemOf staged name = some a := by
  rw [stage] at h
  generalize slabs.map Prod.fst = names at h
  induction names generalizing staged with
  | nil => exact .inr h
  | cons x names ih =>
    cases ih h with
    | inl heq => exact .inl heq
    | inr hput =>
      by_cases hname : name = x
      · rw [hname, itemOf_put_self] at hput
        exact .inl (hname ▸ (Option.some.inj hput).symm)
      · rw [itemOf_put_of_ne hname] at hput
        exact .inr hput

/-- The writer of a sharded leaf. -/
theorem writeLeafToZarr_writes (hdense : tpl.denseBlock = w.shardSlabShape)
    (hragged : tpl.raggedBlock = w.shardSlabShape) (hlaid : w.Laid counts shard (results.map ChunkResult.block))
    (hfits : ∀ r ∈ results, Fits w fields r) :
    LeafWrites w fields (leafBlock w shard) results
      (writeLeafToZarr tpl w fields shard results (Store.template fields) ⟨[], []⟩) := by
  have hplace : ∀ r ∈ results, leafBlock w shard r = 0 * counts + leafBlock w shard r := by
    intro r _
    rw [zero_mul, zero_add]
  have hrun := slabs_written (leafBlock w shard) (fun block => w.leafBlockIndex block shard) hdense hragged hlaid
    hfits (fun _ _ => rfl) hlaid.nodup_leaf hplace
  have haccepted : ∀ o, writeLeafToZarr tpl w fields shard results (Store.template fields) ⟨[], []⟩ = .ok o →
      ∀ r ∈ results, Accepted w fields r := by
    intro o h
    obtain ⟨st, hfold, -⟩ := bind_ok h
    exact accepted_of_slabs hlaid.pos hfits hfold
  constructor
  · constructor
    · intro store h
      obtain ⟨o, ho, -⟩ := map_ok h
      exact haccepted o ho
    · intro hall
      obtain ⟨st, hfold, store, hset, hstored, -⟩ := hrun hall
      refine ⟨store, ?_, hstored⟩
      rw [writeLeafToZarr, hfold]
      show ((setSlabs _ _ _ _ _ _).map _).map _ = _
      rw [hset]
      rfl
  · intro o h
    obtain ⟨st, hfold, store, hset, -, hcells, hbytes⟩ := hrun (haccepted o h)
    rw [writeLeafToZarr, hfold] at h
    obtain ⟨store', hset', rfl⟩ := map_ok h
    cases hset.symm.trans hset'
    simp only [zero_mul, zero_add] at hcells hbytes
    constructor
    · intro name a hitem p hp
      cases itemOf_stage hitem with
      | inl heq => rw [heq, hcells name p hp]
      | inr hnone => cases hnone
    · intro name a hitem p hp
      cases itemOf_stage hitem with
      | inl heq => rw [heq, hbytes name p hp]
      | inr hnone => cases hnone

end Slabbed

section Streamed
variable {counts : P}

/-- The dense columns of a leaf, chunk by chunk. -/
theorem streamed_dense (hdense : tpl.denseBlock = w.chunkShape)
    (hlaid : w.Laid counts shard (results.map ChunkResult.block)) (hfits : ∀ r ∈ results, Fits w fields r)
    (haccepted : ∀ r ∈ results, ∃ vs, companionValues fields r.carrier = .ok vs) :
    ∃ st, results.foldlM (fun st r => writeDataframeToZarr tpl w fields r.carrier (w.leafBlockIndex r.block shard) st)
        (((Store.template fields : Store P V).dense, (Store.template fields : Store P V).denseChunks), some []) =
          .ok st ∧
      Filled w.chunkShape (leafBlock w shard) (denseCells w fields) fields.fill results st.1.1 ∧
      FilledAt (leafBlock w shard) (denseChunk fields) fields.fill results st.1.2 ∧
      st.2.map (slabsAt fields.fill) = some st.1.1 := by
  have hstored : Stored w fields (leafBlock w shard) [] (Store.template fields) := stored_template _
  apply foldlM_run (fun (done : List (ChunkResult P V ι))
      (st : ((Name × P → V) × (Name × P → V)) × Option (Slabs Name P V)) =>
    Filled w.chunkShape (leafBlock w shard) (denseCells w fields) fields.fill done st.1.1 ∧
      FilledAt (leafBlock w shard) (denseChunk fields) fields.fill done st.1.2 ∧
      st.2.map (slabsAt fields.fill) = some st.1.1) _ ⟨hstored.dense, hstored.denseChunks, rfl⟩
  intro done r rest hl st hst
  obtain ⟨hcells, hchunks, hstaged⟩ := hst
  have hr : r ∈ results := hl ▸ List.mem_append_right _ (.head _)
  have hnew := new_of_nodup hlaid.nodup_leaf hl
  obtain ⟨vs, hvs⟩ := haccepted r hr
  obtain ⟨st', hrun, hcells', hchunks', hstaged'⟩ :=
    writeDataframe_ok hlaid.pos hdense (hfits r hr) hvs (leafBlock w shard r) st
  refine ⟨st', hrun, ?_, ?_, ?_⟩
  · rw [hcells']
    exact dense_concat hcells hnew
  · rw [hchunks']
    exact denseChunks_concat hchunks hnew hvs
  · rw [hstaged', hstaged, hcells']
    rfl

variable (w) (fields) (shard) in
/-- The loop of the ragged leaf writer, at one of the shard's chunks. -/
def placeRaggedOf (st : (Name × P → Bytes) × Slabs Name P Bytes) (r : ChunkResult P V ι) :
    Except WriteError ((Name × P → Bytes) × Slabs Name P Bytes) :=
  placeRagged w fields st (w.leafBlockIndex r.block shard, r.ragged)

/-- A chunk without ragged entries changes nothing, so the leaf's loop may run over all chunks. -/
theorem foldlM_placeRagged (st : (Name × P → Bytes) × Slabs Name P Bytes) :
    ((results.filter fun r => ¬r.ragged.isEmpty).map fun r => (w.leafBlockIndex r.block shard, r.ragged)).foldlM
      (placeRagged w fields) st = results.foldlM (placeRaggedOf w fields shard) st := by
  rw [List.foldlM_map]
  apply foldlM_filter
  intro r _ hempty st
  have hnil : r.ragged = [] := by simpa using hempty
  show placeRagged w fields st (_, r.ragged) = _
  rw [hnil]
  rfl

theorem writeRaggedLeaf_eq (hragged : tpl.raggedBlock = w.shardSlabShape) (store : Store P V) :
    writeRaggedLeafToZarr tpl w fields
        ((results.filter fun r => ¬r.ragged.isEmpty).map fun r => (w.leafBlockIndex r.block shard, r.ragged))
        store [] =
      (results.foldlM (placeRaggedOf w fields shard) (store.raggedChunks, [])).map fun st =>
        ({ store with ragged := writeSlabs noBytes w.shardSlabShape 0 st.2 store.ragged, raggedChunks := st.1 },
          stage noBytes st.2 []) := by
  rw [writeRaggedLeafToZarr, ← foldlM_placeRagged]
  by_cases hall : (((results.filter fun r => ¬r.ragged.isEmpty).map fun r =>
      (w.leafBlockIndex r.block shard, r.ragged)).all fun e => e.2.isEmpty) = true
  · have hnil : results.filter (fun r => ¬r.ragged.isEmpty) = [] := by
      apply List.eq_nil_iff_forall_not_mem.mpr
      intro r hr
      have hempty := List.all_eq_true.mp hall _ (List.mem_map_of_mem hr)
      have hsome := (List.mem_filter.mp hr).2
      simp [hempty] at hsome
    rw [if_pos hall, hnil]
    rfl
  · rw [if_neg hall]
    cases List.foldlM (placeRagged w fields) (store.raggedChunks, [])
        ((results.filter fun r => ¬r.ragged.isEmpty).map fun r => (w.leafBlockIndex r.block shard, r.ragged)) with
    | error e => rfl
    | ok st =>
      show (setRaggedBlocks _ _ _ _ _).map _ = _
      rw [setRaggedBlocks_eq hragged]
      rfl

/-- The ragged cells of a leaf, in one slab. -/
theorem streamed_ragged (hlaid : w.Laid counts shard (results.map ChunkResult.block))
    (haccepted : ∀ r ∈ results, Accepted w fields r) :
    ∃ st, results.foldlM (placeRaggedOf w fields shard) ((Store.template fields : Store P V).raggedChunks, []) = .ok st ∧
      FilledAt (leafBlock w shard) (raggedChunk fields) noBytes results st.1 ∧
      Filled w.chunkShape (leafBlock w shard) (raggedCells w fields) noBytes results (slabsAt noBytes st.2) := by
  have hstored : Stored w fields (leafBlock w shard) [] (Store.template fields) := stored_template _
  refine foldlM_run (fun (done : List (ChunkResult P V ι)) (st : (Name × P → Bytes) × Slabs Name P Bytes) =>
    FilledAt (leafBlock w shard) (raggedChunk fields) noBytes done st.1 ∧
      Filled w.chunkShape (leafBlock w shard) (raggedCells w fields) noBytes done (slabsAt noBytes st.2)) ?_
    ⟨hstored.raggedChunks, hstored.ragged⟩
  intro done r rest hl st hst
  have hr : r ∈ results := hl ▸ List.mem_append_right _ (.head _)
  have hnew := new_of_nodup hlaid.nodup_leaf hl
  obtain ⟨-, ⟨bs, hbs⟩, ws, hws⟩ := haccepted r hr
  obtain ⟨slabs, hslabs, hcells⟩ := accumulate_ok (leafBlock w shard r * w.chunkShape) st.2 hws
  refine ⟨(assignAll (atBlock (leafBlock w shard r) bs) st.1, slabs), ?_, ?_, ?_⟩
  · rw [placeRaggedOf, placeRagged, writeRaggedCompanions_eq, hbs]
    show (accumulateRaggedSlabs _ _ _ _ _ _).map _ = _
    rw [← leafBlock, hslabs]
    rfl
  · exact raggedChunks_concat hst.1 hnew hbs
  · show Filled _ _ _ _ _ (slabsAt noBytes slabs)
    rw [hcells]
    exact ragged_concat hst.2 hnew hws

/-- The writers of an unsharded leaf. -/
theorem streamLeaf_writes (hdense : tpl.denseBlock = w.chunkShape) (hragged : tpl.raggedBlock = w.shardSlabShape)
    (hlaid : w.Laid counts shard (results.map ChunkResult.block)) (hfits : ∀ r ∈ results, Fits w fields r) :
    LeafWrites w fields (leafBlock w shard) results
      (streamLeaf tpl w fields shard results (Store.template fields) ⟨[], []⟩) := by
  have haccepted : ∀ o, streamLeaf tpl w fields shard results (Store.template fields) ⟨[], []⟩ = .ok o →
      ∀ r ∈ results, Accepted w fields r := by
    intro o h r hr
    obtain ⟨st, hframes, h⟩ := bind_ok h
    rw [writeRaggedLeaf_eq hragged] at h
    obtain ⟨out, hrun, -⟩ := map_ok h
    obtain ⟨slabs, hfold, -⟩ := map_ok hrun
    obtain ⟨st₁, st₂, hframe⟩ := steps_of_foldlM hframes r hr
    obtain ⟨st₃, st₄, hentries⟩ := steps_of_foldlM hfold r hr
    obtain ⟨chunks, hchunks, hcells⟩ := bind_ok hentries
    obtain ⟨slabs', hslabs, -⟩ := map_ok hcells
    rw [writeRaggedCompanions_eq] at hchunks
    obtain ⟨bs, hbs, -⟩ := map_ok hchunks
    exact ⟨values_of_writeDataframe hlaid.pos hdense (hfits r hr) hframe, ⟨bs, hbs⟩, cells_of_accumulate hslabs⟩
  have hrun : (∀ r ∈ results, Accepted w fields r) →
      ∃ o, streamLeaf tpl w fields shard results (Store.template fields) ⟨[], []⟩ = .ok o ∧
        Stored w fields (leafBlock w shard) results o.1 ∧ StagedEq w.shardSlabShape o.1 o.2 := by
    intro hall
    obtain ⟨st, hframes, hcells, hchunks, hstaged⟩ := streamed_dense hdense hlaid hfits fun r hr => (hall r hr).values
    obtain ⟨slabs, hfold, hpayloads, hbytes⟩ := streamed_ragged hlaid hall
    cases hitems : st.2 with
    | none =>
      rw [hitems] at hstaged
      cases hstaged
    | some items =>
      rw [hitems] at hstaged
      have hview : slabsAt fields.fill items = st.1.1 := Option.some.inj hstaged
      refine ⟨(⟨st.1.1, writeSlabs noBytes w.shardSlabShape 0 slabs.2 fun _ => [], st.1.2, slabs.1⟩,
        ⟨items, stage noBytes slabs.2 []⟩), ?_, ?_, ?_⟩
      · rw [streamLeaf, hframes]
        show (writeRaggedLeafToZarr _ _ _ _ _ _).map _ = _
        rw [writeRaggedLeaf_eq hragged]
        show ((results.foldlM (placeRaggedOf w fields shard) _).map _).map _ = _
        rw [hfold, hitems]
        rfl
      · refine ⟨hcells, ?_, hchunks, hpayloads⟩
        show Filled _ _ _ _ _ (writeSlabs _ _ _ _ _)
        rw [← hlaid.slab_eq]
        apply hbytes.ofSlabs fun r hr => hlaid.inside _ (List.mem_map_of_mem hr)
        intro r _
        rw [zero_mul, zero_add]
      · constructor
        · intro name a hitem p _
          have hitem : itemOf items name = some a := hitem
          show a p = st.1.1 (name, p)
          rw [← hview]
          show a p = (itemOf items name).getD _ p
          rw [hitem]
          rfl
        · intro name a hitem p hp
          cases itemOf_stage hitem with
          | inl heq =>
            have hinside : writeSlabs noBytes w.shardSlabShape 0 slabs.2 (fun _ => []) (name,
                0 * w.shardSlabShape + p) = slabsAt noBytes slabs.2 (name, p) := writeSlabs_inside hp rfl
            rw [zero_mul, zero_add] at hinside
            rw [heq]
            exact hinside.symm
          | inr hnone => cases hnone
  constructor
  · constructor
    · intro store h
      obtain ⟨o, ho, -⟩ := map_ok h
      exact haccepted o ho
    · intro hall
      obtain ⟨o, ho, hstored, -⟩ := hrun hall
      refine ⟨o.1, ?_, hstored⟩
      rw [ho]
      rfl
  · intro o h
    obtain ⟨o', ho', -, hstaged⟩ := hrun (haccepted o h)
    cases ho'.symm.trans h
    exact hstaged

end Streamed

end Zagg.Processing.Write
