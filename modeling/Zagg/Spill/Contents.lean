import Zagg.Lib.Dict
import Zagg.Spill.Sink

/-!
# The rows of a block

What a block holds is known cell by cell: the partition of a cell keeps the cell's rows
in the order they were read, through any number of flushes, and nothing of a cell is in
another partition (`Holds`). Grouping a partition again therefore yields each of its
cells once, with exactly these rows (`mem_partition_groups`).
-/
namespace Zagg.Spill

open Zagg.Lib Zagg.Processing

variable {κ ρ : Type} [LinearOrder κ] {layout : Layout κ ρ} {partOf : κ → Nat}

omit [LinearOrder κ] in
theorem putPartition_eq (key : Nat) (p : Partition ρ) (parts : List (Nat × Partition ρ)) :
    putPartition key p parts = put key p parts := by
  induction parts with
  | nil => rfl
  | cons e parts ih => rw [putPartition, put, ih]

/-- The rows of the partition with this key. -/
def partitionRows (parts : List (Nat × Partition ρ)) (key : Nat) : List ρ :=
  ((parts.lookup key).getD {}).rows

/-- The partitions hold these rows: each cell's in its own partition, in order. -/
structure Holds (layout : Layout κ ρ) (partOf : κ → Nat) (parts : List (Nat × Partition ρ))
    (rows : List ρ) : Prop where
  nodup : (parts.map Prod.fst).Nodup
  clean : ∀ e ∈ parts, e.2.Clean layout
  keyed : ∀ e ∈ parts, ∀ x ∈ e.2.rows, partOf (layout.cell x) = e.1
  cells : ∀ c, rowsAt layout.cell (partitionRows parts (partOf c)) c = rowsAt layout.cell rows c

theorem holds_nil : Holds layout partOf [] [] where
  nodup := .nil
  clean _ h := nomatch h
  keyed _ h := nomatch h
  cells _ := rfl

theorem Holds.congr {parts : List (Nat × Partition ρ)} {rows rows' : List ρ}
    (h : Holds layout partOf parts rows) (he : ∀ c, rowsAt layout.cell rows' c = rowsAt layout.cell rows c) :
    Holds layout partOf parts rows' :=
  ⟨h.nodup, h.clean, h.keyed, fun c => (h.cells c).trans (he c).symm⟩

/-- Every row of a partition is found again by its key. -/
theorem Holds.partitionRows {parts : List (Nat × Partition ρ)} {rows : List ρ}
    (h : Holds layout partOf parts rows) {e : Nat × Partition ρ} (he : e ∈ parts) :
    Spill.partitionRows parts e.1 = e.2.rows := by
  rw [Spill.partitionRows, lookup_of_nodup h.nodup he, Option.getD_some]

/-- Storing a partition extended by the rows of one segment. -/
theorem Holds.store {parts : List (Nat × Partition ρ)} {rows seg : List ρ} {key : Nat}
    {p : Partition ρ} (h : Holds layout partOf parts rows) (hclean : p.Clean layout)
    (hrows : p.rows = Spill.partitionRows parts key ++ seg)
    (hseg : ∀ x ∈ seg, partOf (layout.cell x) = key) :
    Holds layout partOf (put key p parts) (rows ++ seg) := by
  have hmem : ∀ e ∈ put key p parts, e = (key, p) ∨ e ∈ parts := by
    intro e he
    rw [← putPartition_eq] at he
    exact mem_putPartition he
  refine ⟨?_, fun e he => ?_, fun e he x hx => ?_, fun c => ?_⟩
  · exact nodup_put key p h.nodup
  · rcases hmem e he with rfl | he
    · exact hclean
    · exact h.clean e he
  · rcases hmem e he with rfl | he
    · rw [hrows] at hx
      rcases List.mem_append.mp hx with hold | hnew
      · rw [Spill.partitionRows] at hold
        cases hl : parts.lookup key with
        | none => rw [hl] at hold; cases hold
        | some q =>
          rw [hl] at hold
          obtain ⟨l₁, l₂, hparts, -⟩ := List.lookup_eq_some_iff.mp hl
          exact h.keyed (key, q) (hparts ▸ List.mem_append_right _ (.head _)) x hold
      · exact hseg x hnew
    · exact h.keyed e he x hx
  · rw [rowsAt_append, ← h.cells c, Spill.partitionRows, lookup_put]
    by_cases hc : partOf c = key
    · rw [if_pos hc, Option.getD_some, hrows, rowsAt_append, hc]
    · have hnone : rowsAt layout.cell seg c = [] :=
        rowsAt_eq_nil.mpr fun x hx he => hc (he ▸ hseg x hx)
      rw [if_neg hc, hnone, List.append_nil, Spill.partitionRows]

/-- Writing the segments of an append one after another. -/
theorem appendSegments_holds (segs : List (Nat × List ρ)) {a : Appended ρ} {rows : List ρ}
    (hsegs : ∀ seg ∈ segs, ∀ x ∈ seg.2, partOf (layout.cell x) = seg.1)
    (hok : (appendSegments layout segs a).ok = true) (h : Holds layout partOf a.partitions rows) :
    Holds layout partOf (appendSegments layout segs a).partitions
      (rows ++ segs.flatMap Prod.snd) := by
  induction segs generalizing a rows with
  | nil =>
    rw [List.flatMap_nil, List.append_nil]
    exact h
  | cons seg segs ih =>
    obtain ⟨key, new⟩ := seg
    rw [appendSegments] at hok ⊢
    by_cases ha : a.ok = true
    · rw [if_pos ha] at hok ⊢
      dsimp only at hok ⊢
      by_cases hw : (((a.partitions.lookup key).getD {}).writeSegment layout new a.fault).2.ok = true
      · obtain ⟨hnew, hclean, -⟩ := writeSegment_done hw
        rw [List.flatMap_cons, ← List.append_assoc]
        refine ih (fun seg hs => hsegs seg (.tail _ hs)) hok ?_
        rw [putPartition_eq]
        exact h.store (hclean (clean_lookup h.clean key)) hnew (hsegs (key, new) (.head _))
      · rw [appendSegments_raised segs hw] at hok
        exact absurd hok hw
    · rw [if_neg ha] at hok
      exact absurd hok ha

omit [LinearOrder κ] in
/-- Every segment of an append is of one partition. -/
theorem segmentsOf_keyed (rows : List ρ) :
    ∀ seg ∈ segmentsOf layout partOf rows, ∀ x ∈ seg.2, partOf (layout.cell x) = seg.1 := by
  intro seg hs x hx
  obtain ⟨r, hr, rfl⟩ := List.mem_map.mp hs
  have hkey : partOf (layout.cell x) ∈
      slice (rows.map fun y => partOf (layout.cell y)) r.2.1 r.2.2 := by
    rw [slice_map]
    exact List.mem_map_of_mem hx
  rw [(run_spec hr).2.2] at hkey
  exact List.eq_of_mem_replicate hkey

/-- An append that returns extends the rows of the block, cell by cell. -/
theorem append_holds {b : SpillBlock ρ} {rows new : List ρ} {f : Option Fault}
    (h : Holds layout partOf b.partitions rows)
    (hok : (b.append layout partOf (sortRows layout.cell new) f).2.2 = true) :
    Holds layout partOf (b.append layout partOf (sortRows layout.cell new) f).1.partitions
      (rows ++ new) := by
  unfold SpillBlock.append at hok ⊢
  dsimp only at hok ⊢
  split_ifs at hok ⊢ with hsegs
  have happended := appendSegments_holds (segmentsOf layout partOf (sortRows layout.cell new))
    (a := ⟨b.partitions, 0, f, true⟩) (segmentsOf_keyed _) hsegs h
  rw [segmentsOf_flatten] at happended
  refine happended.congr fun c => ?_
  rw [rowsAt_append, rowsAt_append, rowsAt_sortRows]

/-- Grouping a partition again: its cells are the block's cells of that partition, each
with the block's rows in order. -/
theorem mem_partition_groups {parts : List (Nat × Partition ρ)} {rows : List ρ}
    (h : Holds layout partOf parts rows) {e : Nat × Partition ρ} (he : e ∈ parts)
    {r : κ × Nat × Nat} (hr : r ∈ runs ((sortRows layout.cell e.2.rows).map layout.cell)) :
    partOf r.1 = e.1 ∧
      slice (sortRows layout.cell e.2.rows) r.2.1 r.2.2 = rowsAt layout.cell rows r.1 ∧
      rowsAt layout.cell rows r.1 ≠ [] := by
  obtain ⟨x, hx, hcell⟩ := mem_cells_group.mp (List.mem_map_of_mem hr)
  have hkey : partOf r.1 = e.1 := hcell ▸ h.keyed e he x hx
  have hrows := h.cells r.1
  rw [hkey, h.partitionRows he] at hrows
  refine ⟨hkey, (slice_sortRows hr).trans hrows, ?_⟩
  rw [← hrows]
  exact fun hnil => rowsAt_eq_nil.mp hnil x hx hcell

/-- A cell of the block is in the partition its key names. -/
theorem Holds.mem_partitions {parts : List (Nat × Partition ρ)} {rows : List ρ}
    (h : Holds layout partOf parts rows) {c : κ} (hc : rowsAt layout.cell rows c ≠ []) :
    ∃ e ∈ parts, e.1 = partOf c ∧ rowsAt layout.cell e.2.rows c = rowsAt layout.cell rows c := by
  have hcells := h.cells c
  cases hl : parts.lookup (partOf c) with
  | none =>
    rw [Spill.partitionRows, hl] at hcells
    exact absurd hcells.symm hc
  | some p =>
    obtain ⟨l₁, l₂, hparts, -⟩ := List.lookup_eq_some_iff.mp hl
    refine ⟨(partOf c, p), hparts ▸ List.mem_append_right _ (.head _), rfl, ?_⟩
    rw [Spill.partitionRows, hl] at hcells
    exact hcells

/-- The rows that can be read back are of the cells of the block's rows. -/
theorem Holds.exists_cell {parts : List (Nat × Partition ρ)} {rows : List ρ}
    (h : Holds layout partOf parts rows) (c : κ) :
    (∃ x ∈ rowsIn parts, layout.cell x = c) ↔ ∃ x ∈ rows, layout.cell x = c := by
  constructor
  · rintro ⟨x, hx, rfl⟩
    obtain ⟨e, he, hxe⟩ := List.mem_flatMap.mp hx
    have hcells := h.cells (layout.cell x)
    rw [h.keyed e he x hxe, h.partitionRows he] at hcells
    by_contra hno
    push Not at hno
    rw [rowsAt_eq_nil.mpr hno] at hcells
    exact rowsAt_eq_nil.mp hcells x hxe rfl
  · rintro ⟨x, hx, rfl⟩
    have hne : rowsAt layout.cell rows (layout.cell x) ≠ [] :=
      fun hnil => rowsAt_eq_nil.mp hnil x hx rfl
    obtain ⟨e, he, -, hrows⟩ := h.mem_partitions hne
    rw [← hrows] at hne
    by_contra hno
    push Not at hno
    exact hne (rowsAt_eq_nil.mpr fun y hy => hno y (List.mem_flatMap.mpr ⟨e, he, hy⟩))

end Zagg.Spill
