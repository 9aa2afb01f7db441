import Zagg.Spill.Merge

/-!
# Folding a block

A cell occurs in one group of one partition of a block, so folding the block changes the
running state of each of its cells once, by the rows the block holds of it
(`foldBlock_folded`).
-/
namespace Zagg.Spill

open Zagg.Lib Zagg.Processing Zagg.Stats

variable {κ ρ : Type} [LinearOrder κ] {num : Numerics} {cfg : MergeConfig κ ρ}

/-- A row as the fold observes it. -/
def observe (layout : Layout κ ρ) (x : ρ) : Observed := fun name =>
  if name ∈ layout.cols.map Dtype.name then some (layout.item x name) else none

section Columns
variable {digests : List DigestField} {compositions : List CompositionField}

/-- Every name of a param is a column, the time words of a temporal field, or numpy. -/
def Resolves (digests : List DigestField) (columns : List String) (p : Param) : Prop :=
  ∀ n ∈ p.names, n ∈ columns ∨ (n = tocWordColumn ∧ digests.any DigestField.temporal = true) ∨
    n = "np" ∨ n = "numpy"

/-- The columns carry everything the fields read. -/
structure Carried (digests : List DigestField) (compositions : List CompositionField)
    (columns : List String) : Prop where
  source : ∀ f ∈ digests, f.source ∈ columns
  location : ∀ f ∈ digests, ∀ c ∈ f.location, c ∈ columns
  mask : ∀ f ∈ digests, ∀ p ∈ f.mask, Resolves digests columns p
  composition : ∀ f ∈ compositions, f.source ∈ columns
  conf : ∀ f ∈ compositions, ∀ p ∈ f.params, p.key.startsWith "conf_" = true →
    Resolves digests columns p

theorem checkParam_eq_none {available resolvable : List String} {field : String} {p : Param} :
    checkParam available resolvable field p = none ↔
      ∀ n ∈ p.names, n ∈ resolvable ∨ n = "np" ∨ n = "numpy" := by
  have hnil : unresolvableNames p resolvable = [] ↔
      ∀ n ∈ p.names, n ∈ resolvable ∨ n = "np" ∨ n = "numpy" := by
    rw [unresolvableNames, ← List.length_eq_zero_iff, List.length_mergeSort,
      List.length_eq_zero_iff, List.dedup_eq_nil, List.filter_eq_nil_iff]
    refine forall₂_congr fun n _ => ?_
    rw [decide_eq_true_iff]
    tauto
  rw [← hnil, checkParam]
  split_ifs with h
  · exact iff_of_true rfl h
  · exact iff_of_false nofun h

theorem checkDigest_eq_none {available resolvable : List String} {f : DigestField} :
    checkDigest available resolvable f = none ↔ f.source ∈ available ∧
      (∀ c ∈ f.location, c ∈ available) ∧
      ∀ p ∈ f.mask, ∀ n ∈ p.names, n ∈ resolvable ∨ n = "np" ∨ n = "numpy" := by
  unfold checkDigest
  by_cases hsource : f.source ∈ available
  · rw [if_neg (not_not_intro hsource), and_iff_right hsource]
    cases hloc : f.location.filter (· ∉ available) with
    | some column =>
      obtain ⟨hc, hout⟩ := Option.filter_eq_some_iff.mp hloc
      exact iff_of_false nofun fun h => of_decide_eq_true hout (h.1 column hc)
    | none =>
      have hin : ∀ c ∈ f.location, c ∈ available := fun c hc => by
        by_contra hout
        rw [Option.mem_def.mp hc, Option.filter_some, if_pos (decide_eq_true hout)] at hloc
        cases hloc
      rw [and_iff_right hin, Option.bind_eq_none_iff]
      exact forall₂_congr fun p _ => checkParam_eq_none
  · rw [if_pos hsource]
    exact iff_of_false nofun fun h => hsource h.1

theorem checkComposition_eq_none {available resolvable : List String} {f : CompositionField} :
    checkComposition available resolvable f = none ↔ f.source ∈ available ∧
      ∀ p ∈ f.params, p.key.startsWith "conf_" = true →
        ∀ n ∈ p.names, n ∈ resolvable ∨ n = "np" ∨ n = "numpy" := by
  unfold checkComposition
  by_cases hsource : f.source ∈ available
  · rw [if_neg (not_not_intro hsource), and_iff_right hsource, List.findSome?_eq_none_iff]
    simp only [List.mem_filter, and_imp]
    exact forall₃_congr fun p _ _ => checkParam_eq_none
  · rw [if_pos hsource]
    exact iff_of_false nofun fun h => hsource h.1

/-- The check lets exactly the fields through whose columns the block carries. -/
theorem checkFoldColumns_eq_none {cols : List Dtype} (hne : cols ≠ []) :
    checkFoldColumns digests compositions (some cols) = none ↔
      Carried digests compositions (cols.map Dtype.name) := by
  have hmem : ∀ n, n ∈ (cols.map Dtype.name).mergeSort (· ≤ ·) ↔ n ∈ cols.map Dtype.name :=
    fun n => (List.mergeSort_perm _ _).mem_iff
  have hcols : (cols.map Dtype.name).mergeSort (· ≤ ·) ≠ [] := by
    rw [Ne, ← List.length_eq_zero_iff, List.length_mergeSort, List.length_map,
      List.length_eq_zero_iff]
    exact hne
  have hresolvable : ∀ p : Param, (∀ n ∈ p.names,
      n ∈ (if digests.any DigestField.temporal = true
        then tocWordColumn :: (cols.map Dtype.name).mergeSort (· ≤ ·)
        else (cols.map Dtype.name).mergeSort (· ≤ ·)) ∨ n = "np" ∨ n = "numpy") ↔
      Resolves digests (cols.map Dtype.name) p := by
    intro p
    refine forall₂_congr fun n _ => ?_
    split_ifs with ht
    · rw [List.mem_cons, hmem]
      tauto
    · rw [hmem]
      tauto
  unfold checkFoldColumns
  dsimp only [Option.getD_some]
  rw [if_neg hcols, Option.or_eq_none_iff, List.findSome?_eq_none_iff, List.findSome?_eq_none_iff]
  simp only [checkDigest_eq_none, checkComposition_eq_none, hmem, hresolvable]
  constructor
  · rintro ⟨hd, hc⟩
    exact ⟨fun f hf => (hd f hf).1, fun f hf => (hd f hf).2.1, fun f hf => (hd f hf).2.2,
      fun f hf => (hc f hf).1, fun f hf => (hc f hf).2⟩
  · rintro ⟨h1, h2, h3, h4, h5⟩
    exact ⟨fun f hf => ⟨h1 f hf, h2 f hf, h3 f hf⟩, fun f hf => ⟨h4 f hf, h5 f hf⟩⟩

omit [LinearOrder κ] in
/-- Then no value the fold takes out of a row is missing. -/
theorem observe_source (h : Carried cfg.digestFields cfg.compositionFields
    (cfg.layout.cols.map Dtype.name)) (x : ρ) :
    (∀ f ∈ cfg.digestFields, (observe cfg.layout x f.source).isSome ∧
      ∀ c ∈ f.location, (observe cfg.layout x c).isSome) ∧
    ∀ f ∈ cfg.compositionFields, (observe cfg.layout x f.source).isSome := by
  have hsome : ∀ {c}, c ∈ cfg.layout.cols.map Dtype.name → (observe cfg.layout x c).isSome := by
    intro c hc
    rw [observe, if_pos hc]
    rfl
  exact ⟨fun f hf => ⟨hsome (h.source f hf), fun c hc => hsome (h.location f hf c hc)⟩,
    fun f hf => hsome (h.composition f hf)⟩

end Columns

/-- Two running states that agree on one cell. -/
structure SameAt (run run' : Running κ) (c : κ) : Prop where
  counts : run'.counts c = run.counts c
  running : ∀ name, (run'.digests name).running c = (run.digests name).running c
  parts : ∀ name, (run'.digests name).parts c = (run.digests name).parts c
  compositions : ∀ name, (run'.compositions name).parts c = (run.compositions name).parts c

omit [LinearOrder κ] in
theorem SameAt.refl (run : Running κ) (c : κ) : SameAt run run c :=
  ⟨rfl, fun _ => rfl, fun _ => rfl, fun _ => rfl⟩

omit [LinearOrder κ] in
theorem SameAt.trans {run run' run'' : Running κ} {c : κ} (h : SameAt run run' c)
    (h' : SameAt run' run'' c) : SameAt run run'' c :=
  ⟨h'.counts.trans h.counts, fun n => (h'.running n).trans (h.running n),
    fun n => (h'.parts n).trans (h.parts n),
    fun n => (h'.compositions n).trans (h.compositions n)⟩

/-- Folding a cell leaves the others alone. -/
theorem foldCell_of_ne {run : Running κ} {cell c : κ} (h : c ≠ cell) (n : Nat)
    (data : Columns Item) : SameAt run (foldCell num cfg run cell n data) c := by
  have hdigest : ∀ name, ((foldCell num cfg run cell n data).digests name).running c =
        (run.digests name).running c ∧
      ((foldCell num cfg run cell n data).digests name).parts c = (run.digests name).parts c := by
    intro name
    dsimp only [foldCell]
    by_cases hname : name ∈ cfg.digestFields.map DigestField.name
    · obtain ⟨f, hf, rfl⟩ := List.mem_map.mp hname
      rw [foldl_update_of_mem DigestField.name (foldDigest num cfg cell (observedRows n data))
        cfg.digestNames _ hf]
      unfold foldDigest
      cases f.pairwise with
      | true => exact ⟨Function.update_of_ne h .., rfl⟩
      | false => exact ⟨rfl, Function.update_of_ne h ..⟩
    · rw [foldl_update_of_notMem DigestField.name (foldDigest num cfg cell (observedRows n data))
        _ _ hname]
      exact ⟨rfl, rfl⟩
  refine ⟨Function.update_of_ne h .., fun name => (hdigest name).1, fun name => (hdigest name).2,
    fun name => ?_⟩
  dsimp only [foldCell]
  by_cases hname : name ∈ cfg.compositionFields.map CompositionField.name
  · obtain ⟨f, hf, rfl⟩ := List.mem_map.mp hname
    rw [foldl_update_of_mem CompositionField.name (foldComposition cfg cell (observedRows n data))
      cfg.compositionNames _ hf]
    exact Function.update_of_ne h ..
  · rw [foldl_update_of_notMem CompositionField.name
      (foldComposition cfg cell (observedRows n data)) _ _ hname]

/-- What folding a cell leaves there depends on what was there. -/
theorem foldCell_congr {run run' : Running κ} {c : κ} (h : SameAt run run' c) (n : Nat)
    (data : Columns Item) :
    SameAt (foldCell num cfg run c n data) (foldCell num cfg run' c n data) c := by
  have hdigest : ∀ name, ((foldCell num cfg run' c n data).digests name).running c =
        ((foldCell num cfg run c n data).digests name).running c ∧
      ((foldCell num cfg run' c n data).digests name).parts c =
        ((foldCell num cfg run c n data).digests name).parts c := by
    intro name
    dsimp only [foldCell]
    by_cases hname : name ∈ cfg.digestFields.map DigestField.name
    · obtain ⟨f, hf, rfl⟩ := List.mem_map.mp hname
      rw [foldl_update_of_mem DigestField.name (foldDigest num cfg c (observedRows n data))
        cfg.digestNames _ hf,
        foldl_update_of_mem DigestField.name (foldDigest num cfg c (observedRows n data))
        cfg.digestNames _ hf]
      unfold foldDigest
      have hrun := h.running f.name
      have hparts := h.parts f.name
      cases f.pairwise with
      | true =>
        refine ⟨?_, hparts⟩
        simp only [if_true, Function.update_self, hrun]
      | false =>
        refine ⟨hrun, ?_⟩
        simp only [Bool.false_eq_true, if_false, Function.update_self, hparts]
    · rw [foldl_update_of_notMem DigestField.name (foldDigest num cfg c (observedRows n data))
        _ _ hname,
        foldl_update_of_notMem DigestField.name (foldDigest num cfg c (observedRows n data))
        _ _ hname]
      exact ⟨h.running name, h.parts name⟩
  refine ⟨?_, fun name => (hdigest name).1, fun name => (hdigest name).2, fun name => ?_⟩
  · simp only [foldCell, Function.update_self, h.counts]
  · dsimp only [foldCell]
    by_cases hname : name ∈ cfg.compositionFields.map CompositionField.name
    · obtain ⟨f, hf, rfl⟩ := List.mem_map.mp hname
      rw [foldl_update_of_mem CompositionField.name (foldComposition cfg c (observedRows n data))
        cfg.compositionNames _ hf,
        foldl_update_of_mem CompositionField.name (foldComposition cfg c (observedRows n data))
        cfg.compositionNames _ hf]
      simp only [foldComposition, Function.update_self, h.compositions f.name]
    · rw [foldl_update_of_notMem CompositionField.name
        (foldComposition cfg c (observedRows n data)) _ _ hname,
        foldl_update_of_notMem CompositionField.name
        (foldComposition cfg c (observedRows n data)) _ _ hname]
      exact h.compositions name

/-- A group: its cell, its number of rows and its columns. -/
abbrev CellGroup (κ : Type) := κ × Nat × Columns Item

variable (num cfg) in
/-- Folding groups of distinct cells folds each cell once. -/
theorem foldl_foldCell (gs : List (CellGroup κ)) (hn : (gs.map Prod.fst).Nodup) (run : Running κ)
    (c : κ) :
    let t := gs.foldl (fun run g => foldCell num cfg run g.1 g.2.1 g.2.2) run
    (c ∉ gs.map Prod.fst → SameAt run t c) ∧
      ∀ g ∈ gs, g.1 = c → SameAt (foldCell num cfg run c g.2.1 g.2.2) t c := by
  induction gs generalizing run with
  | nil => exact ⟨fun _ => .refl run c, nofun⟩
  | cons g gs ih =>
    rw [List.map_cons, List.nodup_cons] at hn
    obtain ⟨hout, hin⟩ := ih hn.2 (foldCell num cfg run g.1 g.2.1 g.2.2)
    refine ⟨fun hc => ?_, fun g' hg' he => ?_⟩
    · rw [List.map_cons, List.mem_cons, not_or] at hc
      exact (foldCell_of_ne hc.1 _ _).trans (hout hc.2)
    · rcases List.mem_cons.mp hg' with rfl | hmem
      · subst he
        exact hout hn.1
      · have hne : c ≠ g.1 := fun hc => hn.1 (hc ▸ he ▸ List.mem_map_of_mem hmem)
        exact (foldCell_congr (foldCell_of_ne hne _ _) _ _).trans (hin g' hmem he)

/-- The groups of one partition. -/
def partitionGroups (layout : Layout κ ρ) (rows : List ρ) : List (CellGroup κ) :=
  (runs ((sortRows layout.cell rows).map layout.cell)).map fun r =>
    (r.1, r.2.2 - r.2.1,
      table (layout.cols.map Dtype.name) layout.item (slice (sortRows layout.cell rows) r.2.1 r.2.2))

theorem foldPartition_clean {p : Partition ρ} (h : p.Clean cfg.layout) (run : Running κ) :
    foldPartition num cfg run p = some ((partitionGroups cfg.layout p.rows).foldl
      (fun run g => foldCell num cfg run g.1 g.2.1 g.2.2) run) := by
  have htable : ∀ s e, (table (cfg.layout.cols.map Dtype.name) cfg.layout.item
      (sortRows cfg.layout.cell p.rows)).map (fun col => (col.1, slice col.2 s e)) =
      table (cfg.layout.cols.map Dtype.name) cfg.layout.item
        (slice (sortRows cfg.layout.cell p.rows) s e) := by
    intro s e
    rw [table, table, List.map_map]
    exact List.map_congr_left fun name _ => by simp only [Function.comp, slice_map]
  unfold foldPartition
  rw [read_clean h, Option.map_some]
  dsimp only
  rw [groupColumns_table, partitionGroups, List.foldl_map]
  simp only [htable]

/-- The groups of a block. -/
def blockGroups (layout : Layout κ ρ) (b : SpillBlock ρ) : List (CellGroup κ) :=
  b.partitions.flatMap fun e => partitionGroups layout e.2.rows

theorem foldBlock_clean {b : SpillBlock ρ} (h : ∀ e ∈ b.partitions, e.2.Clean cfg.layout)
    (run : Running κ) :
    foldBlock num cfg run b = some ((blockGroups cfg.layout b).foldl
      (fun run g => foldCell num cfg run g.1 g.2.1 g.2.2) run) := by
  unfold foldBlock blockGroups
  generalize b.partitions = parts at h ⊢
  induction parts generalizing run with
  | nil => rfl
  | cons e parts ih =>
    rw [List.foldlM_cons, foldPartition_clean (h e (.head _)), List.flatMap_cons, List.foldl_append]
    exact ih _ fun e he => h e (.tail _ he)

/-- The groups of a block that holds these rows: distinct cells, each with its rows. -/
theorem blockGroups_spec {b : SpillBlock ρ} {rows : List ρ}
    (h : Holds cfg.layout cfg.partOf b.partitions rows) :
    ((blockGroups cfg.layout b).map Prod.fst).Nodup ∧
      (∀ c, rowsAt cfg.layout.cell rows c = [] → c ∉ (blockGroups cfg.layout b).map Prod.fst) ∧
      ∀ c, rowsAt cfg.layout.cell rows c ≠ [] →
        (c, (rowsAt cfg.layout.cell rows c).length, table (cfg.layout.cols.map Dtype.name)
          cfg.layout.item (rowsAt cfg.layout.cell rows c)) ∈ blockGroups cfg.layout b := by
  have hfst : ∀ prows : List ρ, (partitionGroups cfg.layout prows).map Prod.fst =
      (runs ((sortRows cfg.layout.cell prows).map cfg.layout.cell)).map Prod.fst := by
    intro prows
    rw [partitionGroups, List.map_map]
    rfl
  have hkey : ∀ e ∈ b.partitions, ∀ c ∈ (partitionGroups cfg.layout e.2.rows).map Prod.fst,
      cfg.partOf c = e.1 := by
    intro e he c hc
    rw [hfst] at hc
    obtain ⟨x, hx, rfl⟩ := mem_cells_group.mp hc
    exact h.keyed e he x hx
  refine ⟨?_, fun c hc hmem => ?_, fun c hc => ?_⟩
  · rw [blockGroups, List.map_flatMap, List.nodup_flatMap]
    refine ⟨fun e _ => ?_, ?_⟩
    · rw [hfst]
      exact (pairwise_cells_group _).imp fun hlt => ne_of_lt hlt
    · refine (List.pairwise_map.mp h.nodup).imp_of_mem fun {e e'} he he' hne => ?_
      exact fun c hc hc' => hne ((hkey e he c hc).symm.trans (hkey e' he' c hc'))
  · rw [blockGroups, List.map_flatMap] at hmem
    obtain ⟨e, he, hcell⟩ := List.mem_flatMap.mp hmem
    rw [hfst] at hcell
    obtain ⟨r, hr, rfl⟩ := List.mem_map.mp hcell
    exact (mem_partition_groups h he hr).2.2 hc
  · obtain ⟨e, he, -, hrows⟩ := h.mem_partitions hc
    have hocc : c ∈ (runs ((sortRows cfg.layout.cell e.2.rows).map cfg.layout.cell)).map
        Prod.fst := by
      refine mem_cells_group.mpr ?_
      by_contra hno
      push Not at hno
      rw [← hrows] at hc
      exact hc (rowsAt_eq_nil.mpr hno)
    obtain ⟨r, hr, rfl⟩ := List.mem_map.mp hocc
    obtain ⟨-, hslice, -⟩ := mem_partition_groups h he hr
    refine List.mem_flatMap.mpr ⟨e, he, List.mem_map.mpr ⟨r, hr, ?_⟩⟩
    have hlen := length_slice (l := sortRows cfg.layout.cell e.2.rows) (s := r.2.1)
      ((run_spec hr).2.1.trans_eq (List.length_map _))
    rw [hslice] at hlen ⊢
    rw [hlen]

omit [LinearOrder κ] in
/-- The rows the fold observes are the cell's rows. -/
theorem observedRows_table (rows : List ρ) :
    observedRows rows.length (table (cfg.layout.cols.map Dtype.name) cfg.layout.item rows) =
      rows.map (observe cfg.layout) := by
  refine List.ext_getElem (by simp [observedRows]) fun i h1 h2 => ?_
  have hi : i < rows.length := by simpa using h2
  simp only [observedRows, List.getElem_map, List.getElem_range]
  funext name
  unfold observe
  split_ifs with hname
  · rw [lookup_table cfg.layout.item rows hname, Option.bind_some, List.getElem?_map,
      List.getElem?_eq_getElem hi]
    rfl
  · have hnone : (table (cfg.layout.cols.map Dtype.name) cfg.layout.item rows).lookup name = none := by
      have hfst : (table (cfg.layout.cols.map Dtype.name) cfg.layout.item rows).map Prod.fst =
          cfg.layout.cols.map Dtype.name := by
        rw [table, List.map_map]
        exact List.map_id _
      refine lookup_eq_none.mpr ?_
      rw [hfst]
      exact hname
    rw [hnone]
    rfl

section Folded
variable (num cfg)

/-- The digest one block adds for a cell it has rows of. -/
def blockPart (f : DigestField) (c : κ) (rows : List ρ) : Option Part :=
  if rowsAt cfg.layout.cell rows c = [] then none
  else some (buildField num cfg f ((rowsAt cfg.layout.cell rows c).map (observe cfg.layout)))

/-- The composition pair one block adds. -/
def blockPair (f : CompositionField) (c : κ) (rows : List ρ) : Option (Word × Nat) :=
  if rowsAt cfg.layout.cell rows c = [] then none
  else some (packCompositionN f.threshold
    ((((rowsAt cfg.layout.cell rows c).map (observe cfg.layout)).filter
      fun x => (valueOf cfg f.source x).isSome).map fun x => f.conf.map (· x)))

/-- A pairwise field's running digest after these parts. -/
def mergedParts (f : DigestField) : List Part → Option Part
  | [] => none
  | p :: ps => some (ps.foldl (mergeTdigests num f.delta f.channels) p)

/-- The running state that has folded these blocks, in this order. -/
structure Folded (run : Running κ) (blocks : List (List ρ)) : Prop where
  counts : ∀ c, run.counts c = if rowsAt cfg.layout.cell blocks.flatten c = [] then none
    else some (rowsAt cfg.layout.cell blocks.flatten c).length
  parts : ∀ f ∈ cfg.digestFields, ∀ c, (run.digests f.name).parts c =
    if f.pairwise then [] else blocks.filterMap (blockPart num cfg f c)
  running : ∀ f ∈ cfg.digestFields, ∀ c, (run.digests f.name).running c =
    if f.pairwise then mergedParts num f (blocks.filterMap (blockPart num cfg f c)) else none
  compositions : ∀ f ∈ cfg.compositionFields, ∀ c, (run.compositions f.name).parts c =
    blocks.filterMap (blockPair cfg f c)

end Folded

theorem folded_start : Folded num cfg ({} : Running κ) ([] : List (List ρ)) where
  counts _ := rfl
  parts f _ c := by cases f.pairwise <;> rfl
  running f _ c := by cases f.pairwise <;> rfl
  compositions _ _ _ := rfl

theorem mergedParts_concat (f : DigestField) (ps : List Part) (p : Part) :
    mergedParts num f (ps ++ [p]) = some (match mergedParts num f ps with
      | none => p
      | some held => mergeTdigests num f.delta f.channels held p) := by
  cases ps with
  | nil => rfl
  | cons q ps =>
    rw [List.cons_append, mergedParts, List.foldl_append]
    rfl

/-- Folding one more block. -/
theorem foldBlock_folded {run : Running κ} {blocks : List (List ρ)} {b : SpillBlock ρ}
    {rows : List ρ} (h : Folded num cfg run blocks)
    (hb : Holds cfg.layout cfg.partOf b.partitions rows) :
    ∃ run', foldBlock num cfg run b = some run' ∧ Folded num cfg run' (blocks ++ [rows]) := by
  obtain ⟨hnodup, hout, hin⟩ := blockGroups_spec hb
  refine ⟨_, foldBlock_clean hb.clean run, ?_⟩
  have hcells := foldl_foldCell num cfg _ hnodup run
  generalize (blockGroups cfg.layout b).foldl _ run = t at hcells
  have hconcat : ∀ {β : Type} (g : List ρ → Option β), (blocks ++ [rows]).filterMap g =
      blocks.filterMap g ++ (g rows).toList := by
    intro β g
    rw [List.filterMap_append]
    cases hg : g rows <;> simp [hg]
  have hflat : ∀ c, rowsAt cfg.layout.cell (blocks ++ [rows]).flatten c =
      rowsAt cfg.layout.cell blocks.flatten c ++ rowsAt cfg.layout.cell rows c := by
    intro c
    rw [List.flatten_append, List.flatten_singleton, rowsAt_append]
  -- a cell of the block is folded once, the others not at all
  have hsame : ∀ c, (rowsAt cfg.layout.cell rows c = [] ∧ SameAt run t c) ∨
      (rowsAt cfg.layout.cell rows c ≠ [] ∧
        SameAt (foldCell num cfg run c (rowsAt cfg.layout.cell rows c).length
          (table (cfg.layout.cols.map Dtype.name) cfg.layout.item
            (rowsAt cfg.layout.cell rows c))) t c) := by
    intro c
    by_cases hc : rowsAt cfg.layout.cell rows c = []
    · exact .inl ⟨hc, (hcells c).1 (hout c hc)⟩
    · exact .inr ⟨hc, (hcells c).2 _ (hin c hc) rfl⟩
  refine ⟨fun c => ?_, fun f hf c => ?_, fun f hf c => ?_, fun f hf c => ?_⟩
  · rw [hflat]
    rcases hsame c with ⟨hnil, hs⟩ | ⟨hne, hs⟩
    · rw [hnil, List.append_nil, hs.counts, h.counts]
    · rw [hs.counts, if_neg (fun hnil => hne (List.append_eq_nil_iff.mp hnil).2),
        List.length_append]
      simp only [foldCell, Function.update_self, h.counts]
      split_ifs with hold
      · rw [hold]
        rfl
      · rfl
  · rw [hconcat]
    rcases hsame c with ⟨hnil, hs⟩ | ⟨hne, hs⟩
    · rw [hs.parts, h.parts f hf, blockPart, if_pos hnil, Option.toList_none, List.append_nil]
    · rw [hs.parts]
      dsimp only [foldCell]
      rw [foldl_update_of_mem DigestField.name _ cfg.digestNames _ hf, observedRows_table,
        blockPart, if_neg hne]
      unfold foldDigest
      have hold := h.parts f hf c
      cases hp : f.pairwise with
      | true =>
        rw [hp] at hold
        exact hold
      | false =>
        rw [hp] at hold
        simp only [Bool.false_eq_true, if_false, Function.update_self, Option.toList_some] at hold ⊢
        rw [hold]
  · rw [hconcat]
    rcases hsame c with ⟨hnil, hs⟩ | ⟨hne, hs⟩
    · rw [hs.running, h.running f hf, blockPart, if_pos hnil, Option.toList_none, List.append_nil]
    · rw [hs.running]
      dsimp only [foldCell]
      rw [foldl_update_of_mem DigestField.name _ cfg.digestNames _ hf, observedRows_table,
        blockPart, if_neg hne]
      unfold foldDigest
      have hold := h.running f hf c
      cases hp : f.pairwise with
      | true =>
        rw [hp] at hold
        simp only [if_true, Function.update_self, Option.toList_some, mergedParts_concat] at hold ⊢
        exact hold ▸ rfl
      | false =>
        rw [hp] at hold
        exact hold
  · rw [hconcat]
    rcases hsame c with ⟨hnil, hs⟩ | ⟨hne, hs⟩
    · rw [hs.compositions, h.compositions f hf, blockPair, if_pos hnil, Option.toList_none,
        List.append_nil]
    · rw [hs.compositions]
      dsimp only [foldCell]
      rw [foldl_update_of_mem CompositionField.name _ cfg.compositionNames _ hf, observedRows_table,
        blockPair, if_neg hne]
      simp only [foldComposition, Function.update_self, h.compositions f hf, Option.toList_some]

end Zagg.Spill
