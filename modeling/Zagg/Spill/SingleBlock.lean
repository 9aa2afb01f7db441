import Zagg.Spill.PartitionIds

/-!
# One block equals the pooled path

If no block was closed, the open block holds every row of the reads, so each chunk is
handed the rows the pooled grouping hands it.
-/
namespace Zagg.Spill

open Zagg.Lib Zagg.Processing
open Zagg.Catalog (Word)
open Zagg.Grids (MortonCalls HealpixGrid pairCalls PairAt pairCalls_nested)

/-- The granules of a run and the drain after them, without failures. -/
def schedule {ρ : Type} (granules : List (List (List ρ))) : List (Action ρ) :=
  granules.map (Action.granule · none) ++ [.drain none]

variable {κ ρ : Type} [LinearOrder κ] {cfg : Config κ ρ}

omit [LinearOrder κ] in
theorem rowsRead_schedule (granules : List (List (List ρ))) :
    rowsRead (schedule granules) = granules.flatten.flatten := by
  have hreads : (granules.map (Action.granule · none)).flatMap Action.reads = granules.flatten := by
    rw [List.flatMap_map]
    exact (List.flatMap_def ..).trans (congrArg List.flatten (List.map_id _))
  rw [rowsRead, schedule, List.flatMap_append, hreads]
  exact congrArg List.flatten (List.append_nil _)

variable (cfg) in
/-- Without faults every step is quiet. -/
theorem along_schedule (granules : List (List (List ρ))) (s : SpillSink κ ρ) :
    Along (step cfg) (fun s a => decide (Quiet cfg s a)) s (schedule granules) = true := by
  have hall : ∀ as : List (Action ρ), (∀ a ∈ as, ∀ s, Quiet cfg s a) → ∀ s,
      Along (step cfg) (fun s a => decide (Quiet cfg s a)) s as = true := by
    intro as
    induction as with
    | nil => exact fun _ _ => rfl
    | cons a as ih =>
      intro h s
      simp only [Along, Bool.and_eq_true, decide_eq_true_eq]
      refine ⟨h a (.head _) s, ?_⟩
      cases step cfg s a with
      | none => rfl
      | some s' => exact ih (fun b hb => h b (.tail _ hb)) s'
  refine hall _ (fun a ha s => ?_) s
  rcases List.mem_append.mp ha with ha | ha
  · obtain ⟨reads, -, rfl⟩ := List.mem_map.mp ha
    exact fun _ _ h => by cases h
  · rw [List.mem_singleton.mp ha]
    exact fun _ h => by cases h

/-- The emission that starts on a block holding the rows. -/
theorem ready_start {grid : Grid κ} (hpart : cfg.partOf = grid.partOf) {rows : List ρ}
    {b : SpillBlock ρ} (h : Holds cfg.layout cfg.partOf b.partitions rows)
    (hs : b.schema = some cfg.layout.cols ∨ b.schema = none ∧ rows = []) :
    Ready cfg rows ⟨b.partitions, b.schema, none, []⟩
      (grid.chunks.map (chunkKey cfg.partOf)) where
  stored key _ p hp := by
    obtain ⟨l₁, l₂, hparts, -⟩ := List.lookup_eq_some_iff.mp hp
    have hparts : b.partitions = l₁ ++ (key, p) :: l₂ := hparts
    have hmem : (key, p) ∈ b.partitions := hparts ▸ List.mem_append_right _ (.head _)
    refine ⟨h.clean (key, p) hmem, fun c hc => ?_⟩
    have hcells := h.cells c
    rw [hc, partitionRows, hp] at hcells
    exact hcells
  absent key _ hp c hc := by
    have hcells := h.cells c
    rw [hc, partitionRows, hp] at hcells
    exact hcells.symm
  schema := hs
  loaded _ h := nomatch h
  spent _ h := nomatch h
  contiguous := hpart ▸ grid.contiguous

/-- The occupied cells of the sink are those of the pooled grouping. -/
theorem occupiedCells_eq {s : SpillSink κ ρ} {reads : List (List ρ)}
    (h : ∀ c, c ∈ s.occupied.flatten ↔ ∃ x ∈ reads.flatten, cfg.layout.cell x = c) :
    occupiedCells s = pooledCells cfg reads := by
  have hslices : (concatAndGroup (cfg.layout.cols.map Dtype.name) cfg.layout.item
      cfg.layout.cell reads).2.1 =
      runs ((sortRows cfg.layout.cell reads.flatten).map cfg.layout.cell) :=
    congrArg Prod.snd (groupColumns_table (cfg.layout.cols.map Dtype.name) cfg.layout.item
      cfg.layout.cell reads.flatten)
  have hmem : ∀ c, c ∈ occupiedCells s ↔ c ∈ pooledCells cfg reads := by
    intro c
    rw [occupiedCells, List.mem_dedup, (List.perm_insertionSort _ _).mem_iff, h, pooledCells,
      hslices, mem_cells_group]
  have hsorted : (occupiedCells s).Pairwise (· ≤ ·) :=
    (List.pairwise_insertionSort (· ≤ ·) _).sublist (List.dedup_sublist _)
  have hpooled : (pooledCells cfg reads).Pairwise (· < ·) := by
    rw [pooledCells, hslices]
    exact pairwise_cells_group _
  have hperm : (occupiedCells s).Perm (pooledCells cfg reads) :=
    (List.perm_ext_iff_of_nodup (List.nodup_dedup _) (hpooled.imp fun hlt => ne_of_lt hlt)).mpr hmem
  exact hperm.eq_of_pairwise' hsorted (hpooled.imp le_of_lt)

theorem map_eq_of_forall₂ {α β γ : Type*} {f : α → γ} {g : β → γ} {l : List α} {l' : List β}
    (h : List.Forall₂ (fun a b => g b = f a) l l') : l'.map g = l.map f := by
  induction h with
  | nil => rfl
  | cons hab _ ih => rw [List.map_cons, List.map_cons, hab, ih]

/-- One block over any chunks of one partition each, those of a partition in one run. -/
theorem emission_eq_pooled (grid : Grid κ) (cfg : Config κ ρ) (hpart : cfg.partOf = grid.partOf)
    (granules : List (List (List ρ))) (s : SpillSink κ ρ)
    (hrun : exec (step cfg) {} (schedule granules) = some s) (hclosed : s.closed = []) :
    (∃ outs, emitExact cfg ⟨s.block.partitions, s.block.schema, none, []⟩ grid.chunks = some outs ∧
      outs.map Handed.cells =
        (emitPooled cfg granules.flatten grid.chunks).map Handed.cells ∧
      (granules.flatten.flatten ≠ [] → outs = emitPooled cfg granules.flatten grid.chunks)) ∧
      occupiedCells s = pooledCells cfg granules.flatten := by
  have hquiet := along_schedule cfg granules {}
  obtain ⟨⟨closed, last, hblocks, hrows⟩, hdrained⟩ := exec_blocks blocks_start hquiet hrun
  have hbuffer : s.buffer = [] := hdrained none (List.getLast?_concat ..)
  have hnone : closed = [] := by
    have hhanded := hblocks.handed
    rw [hclosed] at hhanded
    exact List.forall₂_nil_left_iff.mp hhanded
  have hlast : last = granules.flatten.flatten := by
    rw [hnone, hbuffer, rowsRead_schedule, List.flatten_nil, List.nil_append, List.append_nil] at hrows
    exact hrows
  rw [hlast] at hblocks
  have hready := ready_start hpart hblocks.filling hblocks.pinned
  have huniform : ∀ chunk ∈ grid.chunks, ∀ c ∈ chunk, cfg.partOf c = chunkKey cfg.partOf chunk :=
    hpart ▸ grid.uniform
  obtain ⟨outs, houts, hall⟩ := emitExact_ready grid.chunks hready huniform
  have hpooled : emitPooled cfg granules.flatten grid.chunks = grid.chunks.map
      (handedRows (cfg.layout.cols.map Dtype.name) cfg.layout.item cfg.layout.cell
        granules.flatten.flatten) := by
    unfold emitPooled
    have hgroup := groupColumns_table (cfg.layout.cols.map Dtype.name) cfg.layout.item
      cfg.layout.cell granules.flatten.flatten
    dsimp only [concatAndGroup]
    rw [hgroup]
    exact List.map_congr_left fun chunk _ => handed_sortRows _ _ _ _ chunk
  have hsound := exec_sound sound_start hquiet hrun
  refine ⟨⟨outs, houts, ?_, fun hne => ?_⟩, occupiedCells_eq fun c => ?_⟩
  · rw [hpooled, List.map_map]
    exact map_eq_of_forall₂ (hall.imp fun _ _ h => h.1)
  · rw [hpooled, ← List.map_id outs]
    exact map_eq_of_forall₂ (hall.imp fun _ _ h => h.2 hne)
  · rw [hsound.occupied c, readable_eq, hclosed]
    exact hblocks.filling.exists_cell c

/-- Spill mode in one block: every chunk is handed the pooled rows of its cells, in the
same order, and the occupied cells are the same. -/
theorem singleBlock_eq_pooled {ρ : Type} {m : MortonCalls} {top : Nat} {IsAt : Nat → Word → Prop}
    (hm : m.Nested top IsAt) (hword : ∀ {o w}, IsAt o w → w < 2 ^ 64) (grid : ShardGrid)
    (hgrid : grid.Admits top IsAt) (cfg : Config CellWord ρ) (hpart : cfg.partOf = grid.partitionIds m)
    (granules : List (List (List ρ))) (s : SpillSink CellWord ρ)
    (hrun : exec (step cfg) {} (schedule granules) = some s) (hclosed : s.closed = []) :
    (∃ outs, emitExact cfg ⟨s.block.partitions, s.block.schema, none, []⟩ (grid.chunks m) = some outs ∧
      outs.map Handed.cells =
        (emitPooled cfg granules.flatten (grid.chunks m)).map Handed.cells ∧
      (granules.flatten.flatten ≠ [] → outs = emitPooled cfg granules.flatten (grid.chunks m))) ∧
      occupiedCells s = pooledCells cfg granules.flatten :=
  emission_eq_pooled (grid.toGrid hm hword hgrid) cfg hpart granules s hrun hclosed

/-- A shard of order two with 256 chunks of four cells each, in 64 groups of four chunks. -/
def groupedShard : ShardGrid := .healpix ⟨2, 6, 7, by decide, by decide⟩ (3 * 32 + 2)

/-- The cell with this place in the shard. -/
def groupedCell (k : Nat) : CellWord := cellWord ((3 * 4 ^ 5 + k) * 32 + 7)

/-- Two granules to a flush, far from the threshold. -/
def pairsOfGranules : Config CellWord Observation :=
  { eachGranule with partOf := groupedShard.partitionIds pairCalls, bufferGranules := 2 }

/-- Three granules: one of two reads, an empty one, one that repeats a cell. Cells 1 and 14
share a group, but no chunk. -/
def threeGranules : List (List (List Observation)) :=
  [[[(groupedCell 14, 1), (groupedCell 1, 2)], [(groupedCell 14, 3)]], [[]],
   [[(groupedCell 14, 4), (groupedCell 99, 5)]]]

theorem words_lt {o w : Nat} (h : o ≤ 27 ∧ PairAt o w) : w < 2 ^ 64 := by
  obtain ⟨ho, -, -, hlt⟩ := h
  have hcells : Grids.healpixBaseCells * 4 ^ o ≤ 12 * 4 ^ 27 :=
    Nat.mul_le_mul_left 12 (Nat.pow_le_pow_right (by decide) ho)
  have hnum : w / 32 < 12 * 4 ^ 27 := hlt.trans_le hcells
  omega

theorem singleBlock_eq_pooled_threeGranules :
    ∃ s, exec (step pairsOfGranules) {} (schedule threeGranules) = some s ∧
      emitExact pairsOfGranules ⟨s.block.partitions, s.block.schema, none, []⟩ (groupedShard.chunks pairCalls) =
        some (emitPooled pairsOfGranules threeGranules.flatten (groupedShard.chunks pairCalls)) ∧
      occupiedCells s = pooledCells pairsOfGranules threeGranules.flatten ∧
      s.block.partitions.length = 2 := by
  have hrun : ((exec (step pairsOfGranules) {} (schedule threeGranules)).map fun s =>
      (s.closed.length, s.block.partitions.length)) = some (0, 2) := by decide +kernel
  obtain ⟨s, hs, hlen⟩ := Option.map_eq_some_iff.mp hrun
  obtain ⟨hclosed, hparts⟩ := Prod.mk.inj hlen
  have hadmits : groupedShard.Admits 27 fun o w => o ≤ 27 ∧ PairAt o w := by
    refine ⟨⟨by decide, by decide, by decide, by decide⟩, by decide⟩
  obtain ⟨⟨outs, houts, -, hall⟩, hcells⟩ := singleBlock_eq_pooled
    (pairCalls_nested.restrict (show 27 ≤ 29 by decide)) words_lt groupedShard hadmits pairsOfGranules rfl
    threeGranules s hs (List.eq_nil_of_length_eq_zero hclosed)
  refine ⟨s, hs, ?_, hcells, hparts⟩
  rw [houts, hall (by decide)]

end Zagg.Spill
