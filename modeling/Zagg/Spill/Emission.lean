import Zagg.Spill.Blocks

/-!
# The exact emission

With no block closed, each chunk is aggregated from its partition, read back and grouped
again. A partition is read once, for the contiguous run of chunks that share it, and
then gone. The pooled path aggregates the same chunks from one grouping of all reads.
-/
namespace Zagg.Spill

open Zagg.Lib Zagg.Processing

/-- Equal keys stand together. -/
def Contiguous : List Nat → Prop
  | [] => True
  | [_] => True
  | a :: b :: l => (a = b ∨ a ∉ b :: l) ∧ Contiguous (b :: l)

variable {κ ρ : Type}

/-- The partition id of a chunk: that of its first child. -/
def chunkKey (partOf : κ → Nat) : List κ → Nat
  | [] => 0
  | c :: _ => partOf c

/-- The chunks of one shard in the order of `iter_chunks`, and `partition_ids`. A chunk
lies in one partition group, and the chunks of a group are visited in one run. -/
structure Grid (κ : Type) where
  chunks : List (List κ)
  partOf : κ → Nat
  uniform : ∀ chunk ∈ chunks, ∀ c ∈ chunk, partOf c = chunkKey partOf chunk
  contiguous : Contiguous (chunks.map (chunkKey partOf))

/-- What the aggregation of one chunk is handed: the rows of each child, `none` for an
empty cell, and the pooled columns. -/
structure Handed (κ ν : Type) where
  cells : List (κ × Option (Columns ν))
  pooled : Columns ν
deriving DecidableEq

section
variable {ν : Type} [DecidableEq κ]

/-- The columns of one cell, when it has rows. -/
def cellData (cols : Columns ν) (slices : CellSlices κ) (c : κ) : Option (Columns ν) :=
  (slices.lookup c).map fun r => cols.map fun col => (col.1, slice col.2 r.1 r.2)

/-- `_pool_chunk_columns`: the rows of the children, slice by slice. -/
def poolChunkColumns (cols : Columns ν) (slices : CellSlices κ) (children : List κ) : Columns ν :=
  let present := children.filterMap fun c => slices.lookup c
  cols.map fun col => (col.1, present.flatMap fun r => slice col.2 r.1 r.2)

def handed (cols : Columns ν) (slices : CellSlices κ) (children : List κ) : Handed κ ν :=
  ⟨children.map fun c => (c, cellData cols slices c), poolChunkColumns cols slices children⟩

end

/-- The emission state: the block's partitions that are left, the loaded one with its
grouping, and the keys read and closed. -/
structure Emission (κ ρ : Type) where
  partitions : List (Nat × Partition ρ)
  schema : Option (List Dtype)
  loaded : Option (Nat × Columns Item × CellSlices κ) := none
  consumed : List Nat := []

variable [LinearOrder κ] (cfg : Config κ ρ)

/-- `_load_partition`: a short read or a key asked for again raises. -/
def loadPartition (e : Emission κ ρ) (key : Nat) : Option (Emission κ ρ) :=
  match e.partitions.lookup key with
  | some p =>
    (p.read cfg.layout).map fun r =>
      { e with
        partitions := e.partitions.filter fun x => x.1 ≠ key
        loaded := some (key, groupColumns r.2 r.1)
        consumed := key :: e.consumed }
  | none =>
    if key ∈ e.consumed then none
    else some { e with loaded := some (key, (e.schema.getD []).map fun d => (d.name, []), []) }

/-- `_chunk_outputs_exact`, up to the aggregation. -/
def chunkOutputsExact (e : Emission κ ρ) (children : List κ) :
    Option (Handed κ Item × Emission κ ρ) :=
  let key := chunkKey cfg.partOf children
  let ready := match e.loaded with
    | some l => if l.1 = key then some e else loadPartition cfg e key
    | none => loadPartition cfg e key
  ready.bind fun e' => e'.loaded.map fun l => (handed l.2.1 l.2.2 children, e')

/-- The chunks of the shard, one after another. -/
def emitExact (e : Emission κ ρ) : List (List κ) → Option (List (Handed κ Item))
  | [] => some []
  | chunk :: chunks =>
    (chunkOutputsExact cfg e chunk).bind fun r =>
      (emitExact r.2 chunks).map (r.1 :: ·)

/-- The pooled path: one grouping of the concatenated reads for all chunks. -/
def emitPooled (reads : List (List ρ)) (chunks : List (List κ)) : List (Handed κ Item) :=
  let grouped := concatAndGroup (cfg.layout.cols.map Dtype.name) cfg.layout.item cfg.layout.cell reads
  chunks.map (handed grouped.1 grouped.2.1)

/-- The occupied cells of the pooled path: the keys of `cell_to_slice`. -/
def pooledCells (reads : List (List ρ)) : List κ :=
  (concatAndGroup (cfg.layout.cols.map Dtype.name) cfg.layout.item cfg.layout.cell
    reads).2.1.map Prod.fst

variable {cfg}

/-- The rows of a chunk's children, and their concatenation. -/
def handedRows (names : List String) (val : ρ → String → Item) (cell : ρ → κ) (rows : List ρ)
    (children : List κ) : Handed κ Item :=
  ⟨children.map fun c => (c, if rowsAt cell rows c = [] then none
      else some (table names val (rowsAt cell rows c))),
    names.map fun name => (name, children.flatMap fun c => (rowsAt cell rows c).map (val · name))⟩

/-- What is handed on depends on the rows of the children only. -/
theorem handed_sortRows (names : List String) (val : ρ → String → Item) (cell : ρ → κ)
    (rows : List ρ) (children : List κ) :
    handed (table names val (sortRows cell rows)) (runs ((sortRows cell rows).map cell)) children =
      handedRows names val cell rows children := by
  have hlookup : ∀ c, (runs ((sortRows cell rows).map cell)).lookup c = none ∧
      rowsAt cell rows c = [] ∨ ∃ r : κ × Nat × Nat,
        (runs ((sortRows cell rows).map cell)).lookup c = some r.2 ∧
        slice (sortRows cell rows) r.2.1 r.2.2 = rowsAt cell rows c ∧ rowsAt cell rows c ≠ [] := by
    intro c
    have h := lookup_groups cell rows Prod.snd c
    have hid : (runs ((sortRows cell rows).map cell)).map (fun r => (r.1, r.2)) =
        runs ((sortRows cell rows).map cell) := List.map_id _
    rw [hid] at h
    exact h.imp id fun ⟨r, _, _, h⟩ => ⟨r, h⟩
  have hcell : ∀ c, cellData (table names val (sortRows cell rows))
      (runs ((sortRows cell rows).map cell)) c =
      if rowsAt cell rows c = [] then none else some (table names val (rowsAt cell rows c)) := by
    intro c
    rw [cellData]
    rcases hlookup c with ⟨hn, hr⟩ | ⟨r, hs, hr, hne⟩
    · rw [hn, if_pos hr]
      rfl
    · rw [hs, if_neg hne, Option.map_some, table, List.map_map, ← hr, table]
      exact congrArg some (List.map_congr_left fun name _ => by
        simp only [Function.comp, slice_map])
  have hpool : ∀ name, (children.filterMap fun c =>
        (runs ((sortRows cell rows).map cell)).lookup c).flatMap
          (fun r => slice ((sortRows cell rows).map (val · name)) r.1 r.2) =
      children.flatMap fun c => (rowsAt cell rows c).map (val · name) := by
    intro name
    induction children with
    | nil => rfl
    | cons c children ih =>
      rw [List.flatMap_cons, ← ih]
      rcases hlookup c with ⟨hn, hr⟩ | ⟨r, hs, hr, -⟩
      · simp only [List.filterMap_cons, hn, hr, List.map_nil, List.nil_append]
      · simp only [List.filterMap_cons, hs, List.flatMap_cons, slice_map, hr]
  unfold handed poolChunkColumns handedRows
  congr 1
  · exact List.map_congr_left fun c _ => congrArg (Prod.mk c) (hcell c)
  · rw [table, List.map_map]
    exact List.map_congr_left fun name _ => congrArg (Prod.mk name) (hpool name)

theorem handedRows_congr {names : List String} {val : ρ → String → Item} {cell : ρ → κ}
    {rows rows' : List ρ} {children : List κ}
    (h : ∀ c ∈ children, rowsAt cell rows c = rowsAt cell rows' c) :
    handedRows names val cell rows children = handedRows names val cell rows' children := by
  unfold handedRows
  congr 1
  · exact List.map_congr_left fun c hc => by rw [h c hc]
  · exact List.map_congr_left fun name _ =>
      congrArg (Prod.mk name) (List.flatMap_congr fun c hc => by rw [h c hc])

/-- What a chunk is handed is the rows of its children; the names of the columns are
there as soon as there was a row. -/
def Matches (cfg : Config κ ρ) (rows : List ρ) (children : List κ) (h : Handed κ Item) : Prop :=
  let expected := handedRows (cfg.layout.cols.map Dtype.name) cfg.layout.item cfg.layout.cell rows
    children
  h.cells = expected.cells ∧ (rows ≠ [] → h = expected)

/-- The loaded grouping serves every chunk of its partition. -/
def Serves (cfg : Config κ ρ) (rows : List ρ) (l : Nat × Columns Item × CellSlices κ) : Prop :=
  ∀ children : List κ, (∀ c ∈ children, cfg.partOf c = l.1) →
    Matches cfg rows children (handed l.2.1 l.2.2 children)

/-- The emission can go on with chunks of these keys. -/
structure Ready (cfg : Config κ ρ) (rows : List ρ) (e : Emission κ ρ) (keys : List Nat) : Prop where
  stored : ∀ key ∉ e.consumed, ∀ p, e.partitions.lookup key = some p →
    p.Clean cfg.layout ∧ ∀ c, cfg.partOf c = key →
      rowsAt cfg.layout.cell p.rows c = rowsAt cfg.layout.cell rows c
  absent : ∀ key ∉ e.consumed, e.partitions.lookup key = none →
    ∀ c, cfg.partOf c = key → rowsAt cfg.layout.cell rows c = []
  schema : e.schema = some cfg.layout.cols ∨ e.schema = none ∧ rows = []
  loaded : ∀ l, e.loaded = some l → Serves cfg rows l
  spent : ∀ key ∈ e.consumed, key ∉ keys ∨
    (∃ l, e.loaded = some l ∧ l.1 = key) ∧ Contiguous (key :: keys)
  contiguous : Contiguous keys

theorem Contiguous.tail {a : Nat} {l : List Nat} (h : Contiguous (a :: l)) : Contiguous l := by
  cases l with
  | nil => trivial
  | cons b l => exact h.2

/-- A partition read back and grouped serves its chunks. -/
theorem serves_read {rows prows : List ρ} {key : Nat}
    (h : ∀ c, cfg.partOf c = key → rowsAt cfg.layout.cell prows c = rowsAt cfg.layout.cell rows c) :
    Serves cfg rows (key, groupColumns (table (cfg.layout.cols.map Dtype.name) cfg.layout.item prows)
      (prows.map cfg.layout.cell)) := by
  intro children hchildren
  have heq : handed (table (cfg.layout.cols.map Dtype.name) cfg.layout.item
        (sortRows cfg.layout.cell prows)) (runs ((sortRows cfg.layout.cell prows).map cfg.layout.cell))
        children = handedRows (cfg.layout.cols.map Dtype.name) cfg.layout.item cfg.layout.cell rows
          children :=
    (handed_sortRows _ _ _ prows children).trans
      (handedRows_congr fun c hc => h c (hchildren c hc))
  rw [groupColumns_table]
  exact ⟨congrArg Handed.cells heq, fun _ => heq⟩

/-- Empty columns under the block's schema serve the chunks of a partition without rows. -/
theorem serves_empty {rows : List ρ} {key : Nat} {schema : Option (List Dtype)}
    (hs : schema = some cfg.layout.cols ∨ schema = none ∧ rows = [])
    (h : ∀ c, cfg.partOf c = key → rowsAt cfg.layout.cell rows c = []) :
    Serves cfg rows (key, (schema.getD []).map fun d => (d.name, ([] : List Item)), []) := by
  intro children hchildren
  have hempty : handedRows (cfg.layout.cols.map Dtype.name) cfg.layout.item cfg.layout.cell []
      children = handedRows (cfg.layout.cols.map Dtype.name) cfg.layout.item cfg.layout.cell rows
      children := handedRows_congr fun c hc => (h c (hchildren c hc)).symm
  have hnil := (handed_sortRows (cfg.layout.cols.map Dtype.name) cfg.layout.item cfg.layout.cell []
    children).trans hempty
  have hcells : ∀ cols : Columns Item, (handed cols ([] : CellSlices κ) children).cells =
      (handedRows (cfg.layout.cols.map Dtype.name) cfg.layout.item cfg.layout.cell rows
        children).cells := by
    intro cols
    have hsame : (handed cols ([] : CellSlices κ) children).cells =
        (handed (table (cfg.layout.cols.map Dtype.name) cfg.layout.item ([] : List ρ))
          ([] : CellSlices κ) children).cells := rfl
    exact hsame.trans (congrArg Handed.cells hnil)
  refine ⟨hcells _, fun hne => ?_⟩
  rcases hs with rfl | ⟨-, hrows⟩
  · rw [← hnil, Option.getD_some, table, List.map_map]
    rfl
  · exact absurd hrows hne

/-- Loading the partition of the next chunk. -/
theorem loadPartition_ready {rows : List ρ} {e : Emission κ ρ} {key : Nat} {keys : List Nat}
    (h : Ready cfg rows e (key :: keys)) (hl : ∀ l, e.loaded = some l → l.1 ≠ key) :
    ∃ e' l, loadPartition cfg e key = some e' ∧ e'.loaded = some l ∧ l.1 = key ∧
      Ready cfg rows e' (key :: keys) := by
  have hspent : ∀ k ∈ e.consumed, k ∉ key :: keys := by
    intro k hk
    rcases h.spent k hk with hout | ⟨⟨l, hl', hkey⟩, hcont⟩
    · exact hout
    · exact hcont.1.resolve_left fun he => hl l hl' (hkey.trans he)
  have hfresh : key ∉ e.consumed := fun hk => hspent key hk (.head _)
  unfold loadPartition
  cases hp : e.partitions.lookup key with
  | some p =>
    obtain ⟨hclean, hrows⟩ := h.stored key hfresh p hp
    have hread := read_clean hclean
    simp only [hread, Option.map_some]
    refine ⟨_, _, rfl, rfl, rfl, ⟨?_, ?_, h.schema, ?_, ?_, h.contiguous⟩⟩
    · intro k hk p' hp'
      rw [List.mem_cons, not_or] at hk
      rw [lookup_filter_ne hk.1] at hp'
      exact h.stored k hk.2 p' hp'
    · intro k hk hp'
      rw [List.mem_cons, not_or] at hk
      rw [lookup_filter_ne hk.1] at hp'
      exact h.absent k hk.2 hp'
    · rintro l hl'
      obtain rfl := Option.some.inj hl'
      exact serves_read hrows
    · intro k hk
      rcases List.mem_cons.mp hk with rfl | hk
      · exact .inr ⟨⟨_, rfl, rfl⟩, .inl rfl, h.contiguous⟩
      · exact .inl (hspent k hk)
  | none =>
    rw [if_neg hfresh]
    refine ⟨_, _, rfl, rfl, rfl, ⟨h.stored, h.absent, h.schema, ?_, fun k hk => .inl (hspent k hk),
      h.contiguous⟩⟩
    rintro l hl'
    obtain rfl := Option.some.inj hl'
    exact serves_empty h.schema (h.absent key hfresh hp)

theorem Ready.tail {rows : List ρ} {e : Emission κ ρ} {key : Nat} {keys : List Nat}
    (h : Ready cfg rows e (key :: keys)) {l : Nat × Columns Item × CellSlices κ}
    (hl : e.loaded = some l) (hkey : l.1 = key) : Ready cfg rows e keys where
  stored := h.stored
  absent := h.absent
  schema := h.schema
  loaded := h.loaded
  spent k hk := by
    rcases h.spent k hk with hout | ⟨⟨l', hl', hk'⟩, -⟩
    · exact .inl fun hmem => hout (.tail _ hmem)
    · obtain rfl := Option.some.inj (hl.symm.trans hl')
      refine .inr ⟨⟨l, hl, hk'⟩, ?_⟩
      rw [← hk', hkey]
      exact h.contiguous
  contiguous := h.contiguous.tail

/-- One chunk: its partition is loaded, now or before, and the rest can go on. -/
theorem chunkOutputsExact_ready {rows : List ρ} {e : Emission κ ρ} {chunk : List κ}
    {keys : List Nat} (h : Ready cfg rows e (chunkKey cfg.partOf chunk :: keys))
    (hchunk : ∀ c ∈ chunk, cfg.partOf c = chunkKey cfg.partOf chunk) :
    ∃ out e', chunkOutputsExact cfg e chunk = some (out, e') ∧ Matches cfg rows chunk out ∧
      Ready cfg rows e' keys := by
  have hserved : ∀ e' l, e'.loaded = some l → l.1 = chunkKey cfg.partOf chunk →
      Ready cfg rows e' (chunkKey cfg.partOf chunk :: keys) →
      ∃ out e'', (e'.loaded.map fun l => (handed l.2.1 l.2.2 chunk, e')) = some (out, e'') ∧
        Matches cfg rows chunk out ∧ Ready cfg rows e'' keys := by
    intro e' l hl hkey hready
    refine ⟨_, e', congrArg (Option.map _) hl, ?_, hready.tail hl hkey⟩
    exact hready.loaded l hl chunk fun c hc => (hchunk c hc).trans hkey.symm
  have hload : (∀ l, e.loaded = some l → l.1 ≠ chunkKey cfg.partOf chunk) →
      ∃ out e', ((loadPartition cfg e (chunkKey cfg.partOf chunk)).bind fun e' =>
        e'.loaded.map fun l => (handed l.2.1 l.2.2 chunk, e')) = some (out, e') ∧
        Matches cfg rows chunk out ∧ Ready cfg rows e' keys := by
    intro hl
    obtain ⟨e', l, he, hl', hkey, hready⟩ := loadPartition_ready h hl
    rw [he]
    exact hserved e' l hl' hkey hready
  unfold chunkOutputsExact
  cases hl : e.loaded with
  | none => exact hload fun l hl' => nomatch hl.symm.trans hl'
  | some l =>
    dsimp only
    by_cases hkey : l.1 = chunkKey cfg.partOf chunk
    · rw [if_pos hkey]
      exact hserved e l hl hkey h
    · rw [if_neg hkey]
      refine hload fun l' hl' => ?_
      obtain rfl := Option.some.inj (hl.symm.trans hl')
      exact hkey

/-- All chunks of the shard, by induction on the visit. -/
theorem emitExact_ready {rows : List ρ} (chunks : List (List κ)) {e : Emission κ ρ}
    (h : Ready cfg rows e (chunks.map (chunkKey cfg.partOf)))
    (hchunks : ∀ chunk ∈ chunks, ∀ c ∈ chunk, cfg.partOf c = chunkKey cfg.partOf chunk) :
    ∃ outs, emitExact cfg e chunks = some outs ∧ List.Forall₂ (Matches cfg rows) chunks outs := by
  induction chunks generalizing e with
  | nil => exact ⟨[], rfl, .nil⟩
  | cons chunk chunks ih =>
    obtain ⟨out, e', hout, hmatch, hready⟩ := chunkOutputsExact_ready h (hchunks chunk (.head _))
    obtain ⟨outs, houts, hall⟩ := ih hready fun chunk hc => hchunks chunk (.tail _ hc)
    refine ⟨out :: outs, ?_, .cons hmatch hall⟩
    rw [emitExact, hout, Option.bind_some, houts]
    rfl

end Zagg.Spill
