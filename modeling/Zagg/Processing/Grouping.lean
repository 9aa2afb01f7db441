import Zagg.Lib.Dict
import Zagg.Lib.Runs

/-!
# Grouping observations by cell

`_group_columns` sorts every column through one stable `argsort` of the cell column and
maps each cell to its slice. On a row-aligned table that is one stable sort of the
rows (`groupColumns_table`), and the slice of a cell is the cell's rows in read order
(`slice_sortRows`).
-/
namespace Zagg.Processing

open Zagg.Lib

universe u

variable {κ ρ ν : Type} [LinearOrder κ]

/-- Named column arrays, in schema order. -/
abbrev Columns (ν : Type) := List (String × List ν)

/-- `cell_to_slice`: the cells in ascending order, each with its `(start, end)`. -/
abbrev CellSlices (κ : Type) := List (κ × Nat × Nat)

def groupColumns (cols : Columns ν) (cellCol : List κ) : Columns ν × CellSlices κ :=
  let sortIdx := argsort cellCol
  (cols.map fun c => (c.1, gather c.2 sortIdx), runs (gather cellCol sortIdx))

/-- The columns of a list of rows. -/
def table (names : List String) (val : ρ → String → ν) (rows : List ρ) : Columns ν :=
  names.map fun name => (name, rows.map (val · name))

/-- `_concat_and_group`: both carriers concatenate the reads in order. -/
def concatAndGroup (names : List String) (val : ρ → String → ν) (cell : ρ → κ)
    (reads : List (List ρ)) : Columns ν × CellSlices κ × Nat :=
  let all := reads.flatten
  let grouped := groupColumns (table names val all) (all.map cell)
  (grouped.1, grouped.2, all.length)

/-- The rows in ascending cell order, each cell's rows in read order. -/
def sortRows (cell : ρ → κ) (rows : List ρ) : List ρ :=
  rows.insertionSort fun a b => cell a ≤ cell b

/-- The rows of one cell. -/
def rowsAt (cell : ρ → κ) (rows : List ρ) (c : κ) : List ρ := rows.filter fun x => decide (cell x = c)

variable {cell : ρ → κ} {names : List String} {val : ρ → String → ν}

theorem rowsAt_append (rows rows' : List ρ) (c : κ) :
    rowsAt cell (rows ++ rows') c = rowsAt cell rows c ++ rowsAt cell rows' c :=
  List.filter_append ..

theorem rowsAt_eq_nil {rows : List ρ} {c : κ} :
    rowsAt cell rows c = [] ↔ ∀ x ∈ rows, cell x ≠ c := by
  simp only [rowsAt, List.filter_eq_nil_iff, decide_eq_true_eq, ne_eq]

omit [LinearOrder κ] in
theorem lookup_table {names : List String} (val : ρ → String → ν) (rows : List ρ) {name : String}
    (h : name ∈ names) :
    (table names val rows).lookup name = some (rows.map (val · name)) := by
  unfold table
  induction names with
  | nil => cases h
  | cons n names ih =>
    rw [List.map_cons, List.lookup_cons]
    by_cases he : name = n
    · rw [he, beq_self_eq_true]
    · rw [beq_false_of_ne he]
      exact ih ((List.mem_cons.mp h).resolve_left he)

theorem sortRows_perm (rows : List ρ) : (sortRows cell rows).Perm rows :=
  List.perm_insertionSort _ rows

theorem map_sortRows {β : Type u} (f : ρ → β) (rows : List ρ) :
    (sortRows cell rows).map (fun x => (cell x, f x)) =
      (rows.map fun x => (cell x, f x)).insertionSort byKey :=
  List.map_insertionSort _ byKey (fun x => (cell x, f x)) rows fun _ _ _ _ => Iff.rfl

theorem pairwise_sortRows (rows : List ρ) :
    ((sortRows cell rows).map cell).Pairwise (· ≤ ·) := by
  have h := pairwise_insertionSort_byKey (rows.map fun x => (cell x, x))
  rw [← map_sortRows, List.map_map] at h
  exact h

theorem rowsAt_sortRows (rows : List ρ) (c : κ) :
    rowsAt cell (sortRows cell rows) c = rowsAt cell rows c := by
  have h := filter_insertionSort (rows.map fun x => (cell x, x)) c
  rw [← map_sortRows, List.filter_map, List.filter_map] at h
  have hsnd := congrArg (List.map Prod.snd) h
  rw [List.map_map, List.map_map] at hsnd
  exact (List.map_id _).symm.trans (hsnd.trans (List.map_id _))

/-- Grouping a table is sorting its rows. -/
theorem groupColumns_table (names : List String) (val : ρ → String → ν) (cell : ρ → κ)
    (rows : List ρ) :
    groupColumns (table names val rows) (rows.map cell) =
      (table names val (sortRows cell rows), runs ((sortRows cell rows).map cell)) := by
  have hzip : ∀ name, gather (rows.map cell) (argsort (rows.map cell)) = (sortRows cell rows).map cell ∧
      gather (rows.map (val · name)) (argsort (rows.map cell)) =
        (sortRows cell rows).map (val · name) := by
    intro name
    have hlen : (rows.map (val · name)).length = (rows.map cell).length := by
      rw [List.length_map, List.length_map]
    have h := zip_gather_argsort hlen
    rw [List.zip_map', ← map_sortRows, List.map_map, List.map_map] at h
    exact h
  unfold groupColumns table
  simp only [List.map_map]
  congr 1
  · exact List.map_congr_left fun name _ => congrArg (Prod.mk name) (hzip name).2
  · exact congrArg runs (hzip "").1

/-- A cell's slice of the sorted rows is the cell's rows in read order. -/
theorem slice_sortRows {rows : List ρ} {r : κ × Nat × Nat}
    (hr : r ∈ runs ((sortRows cell rows).map cell)) :
    slice (sortRows cell rows) r.2.1 r.2.2 = rowsAt cell rows r.1 := by
  have hpairs : ((sortRows cell rows).map fun x => (cell x, x)).map Prod.fst =
      (sortRows cell rows).map cell := by
    rw [List.map_map]
    rfl
  have h := slice_run_sorted (l := (sortRows cell rows).map fun x => (cell x, x)) (r := r)
    (hpairs ▸ pairwise_sortRows rows) (hpairs ▸ hr)
  rw [slice_map, List.filter_map] at h
  have hsnd := congrArg (List.map Prod.snd) h
  rw [List.map_map, List.map_map] at hsnd
  have hslice := (List.map_id _).symm.trans (hsnd.trans (List.map_id _))
  exact hslice.trans (rowsAt_sortRows rows r.1)

/-- The occupied cells are the cells of the rows, ascending. -/
theorem mem_cells_group {rows : List ρ} {c : κ} :
    c ∈ (runs ((sortRows cell rows).map cell)).map Prod.fst ↔ ∃ x ∈ rows, cell x = c := by
  rw [mem_runs_fst, List.mem_map]
  exact exists_congr fun x => and_congr_left' (sortRows_perm rows).mem_iff

theorem eq_nil_of_groups_isEmpty {rows : List ρ}
    (h : (runs ((sortRows cell rows).map cell)).isEmpty = true) : rows = [] := by
  refine List.eq_nil_iff_forall_not_mem.mpr fun x hx => ?_
  have hcell : cell x ∈ (runs ((sortRows cell rows).map cell)).map Prod.fst :=
    mem_cells_group.mpr ⟨x, hx, rfl⟩
  rw [List.isEmpty_iff.mp h] at hcell
  cases hcell

theorem pairwise_cells_group (rows : List ρ) :
    ((runs ((sortRows cell rows).map cell)).map Prod.fst).Pairwise (· < ·) :=
  pairwise_lt_runs (pairwise_sortRows rows)

variable (cell) in
/-- What a dictionary over the groups holds for a cell. -/
theorem lookup_groups {β : Type} (rows : List ρ) (val : κ × Nat × Nat → β) (c : κ) :
    ((runs ((sortRows cell rows).map cell)).map fun r => (r.1, val r)).lookup c = none ∧
        rowsAt cell rows c = [] ∨
      ∃ r ∈ runs ((sortRows cell rows).map cell), r.1 = c ∧
        ((runs ((sortRows cell rows).map cell)).map fun r => (r.1, val r)).lookup c =
          some (val r) ∧
        slice (sortRows cell rows) r.2.1 r.2.2 = rowsAt cell rows c ∧ rowsAt cell rows c ≠ [] := by
  have hkeys : ((runs ((sortRows cell rows).map cell)).map fun r => (r.1, val r)).map Prod.fst =
      (runs ((sortRows cell rows).map cell)).map Prod.fst := by
    rw [List.map_map]
    rfl
  by_cases hc : c ∈ (runs ((sortRows cell rows).map cell)).map Prod.fst
  · obtain ⟨r, hr, rfl⟩ := List.mem_map.mp hc
    have hnodup : ((runs ((sortRows cell rows).map cell)).map Prod.fst).Nodup :=
      (pairwise_cells_group rows).imp fun hlt => ne_of_lt hlt
    refine .inr ⟨r, hr, rfl, ?_, slice_sortRows hr, fun hnil => ?_⟩
    · exact lookup_of_nodup (hkeys ▸ hnodup) (e := (r.1, val r)) (List.mem_map_of_mem hr)
    · obtain ⟨x, hx, hcell⟩ := mem_cells_group.mp hc
      exact rowsAt_eq_nil.mp hnil x hx hcell
  · exact .inl ⟨lookup_eq_none.mpr (hkeys ▸ hc),
      rowsAt_eq_nil.mpr fun x hx he => hc (mem_cells_group.mpr ⟨x, hx, he⟩)⟩

end Zagg.Processing
