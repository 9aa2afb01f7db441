import Zagg.Stage.Column
import Zagg.Stage.MergeSpec
import Zagg.Sweep.Node

/-!
# One level of one node

An artifact node's level is folded from its child columns, in rank order: the level's
derived regime reads and folds them, and the columns' provenance is summed up beside the
slabs. A fold only reads a column through its reader, so `χ` may be the column itself or
a handle to one that moves.
-/
namespace Zagg.Stage

open Zagg.Lib Zagg.Stats Zagg.Sweep

variable {χ V N R : Type}

inductive Regime
  | stageGather
  | stageMerge
deriving DecidableEq

def classifyLevel (cells shardOrder : Nat) : Regime :=
  if shardOrder ≤ cells then .stageGather else .stageMerge

/-- Base-4 rank of `decimal`'s digit tail beyond the `node` prefix. -/
def relRank (decimal node : Decimal) : Nat := Digits.rank (decimal.digits.drop node.order)

/-- The readers of the rows, child by child and window by window. -/
def readersOf (rows : Rows χ) : List χ :=
  rows.flatMap fun row => (row.getD []).filterMap Slot.reader?

/-- The arrays a reader's column holds. -/
def answers (column : χ → StoredColumn V N R) : (q : Query χ N) → Answer V q :=
  fun q => (column q.reader).arrays q.res q.key

/-- Where a level stands: its node's order, its cells, the orders of the shards and of
the child columns, and whether it is the all-time fold of a windowed store. -/
structure LevelSite where
  order : Nat
  cells : Nat
  shardOrder : Nat
  childOrder : Nat
  allTime : Bool

/-- Whether the level concatenates its children's members. -/
def LevelSite.gathers (site : LevelSite) : Bool :=
  classifyLevel site.cells site.shardOrder = .stageGather && !site.allTime

/-- The regime the planned entry must record. -/
def LevelSite.regimePlan (site : LevelSite) : Regime :=
  if site.gathers then .stageGather else .stageMerge

/-- The resolution a merge reads: the relay, or the members of the level's own. -/
def LevelSite.resSrc (site : LevelSite) : Nat :=
  if site.allTime ∧ classifyLevel site.cells site.shardOrder = .stageGather then site.cells
  else site.shardOrder

structure Folded (V N R : Type) where
  slabs : Slabs V N
  generation : GenerationBlock R
  granuleCount : Nat
  timeRange : Option TimeRange
  regime : Regime
  mergesFromRaw : Nat
  sourceChildren : SourceCounts

section
variable [DecidableEq N] [DecidableEq V] [Inhabited V]

/-- The reads of one fold. -/
def foldSlabs (num : Numerics) (fields : Fields V N) (site : LevelSite) (rows : Rows χ) :
    Fold χ V N (Slabs V N × SourceCounts) :=
  if site.gathers then gatherSlabs rows fields site.cells (4 ^ (site.cells - site.childOrder))
  else
    mergeSlabs num rows fields site.resSrc (4 ^ (site.resSrc - site.childOrder))
      (if site.resSrc = site.cells then 1 else 4 ^ (site.resSrc - site.cells))
      (4 ^ (site.cells - site.order))

variable [DecidableEq R]

/-- The slabs with the provenance of the readers they were folded from. -/
def finishFold (site : LevelSite) (column : χ → StoredColumn V N R) (rows : Rows χ)
    (out : Slabs V N × SourceCounts) : Option (Folded V N R) :=
  if out.2.folded = 0 then none
  else
    let columns := (readersOf rows).map column
    some {
      slabs := out.1
      generation := summedGeneration (columns.map StoredColumn.key)
      granuleCount := (columns.map fun c => c.stamp.granuleCount).sum
      timeRange := unionTimeRange (columns.filterMap fun c => c.stamp.timeRange)
      regime := site.regimePlan
      mergesFromRaw := if site.gathers then 1 else 2
      sourceChildren := out.2 }

end

section Reads

/-- The arrays a field's group is read by. -/
def groupReads (r : χ) (res : Nat) (name : N) (declared : List Channel) : List (Query χ N) :=
  ⟨r, res, .digest name⟩ :: declared.map fun c => ⟨r, res, .sibling name c⟩

def gatherReads (rows : Rows χ) (fields : Fields V N) (res : Nat) : List (Query χ N) :=
  rows.flatMap fun row =>
    match slotReader row 0 with
    | some r =>
      ((fields.filter fun f => f.2.companions ≠ []).flatMap fun f =>
        groupReads r res f.1 f.2.companions) ++
      (fields.filter fun f => f.2.companions = []).map fun f => ⟨r, res, f.2.key f.1⟩
    | none => []

/-- The reads of one class loop: `reads` of every reader, child by child. -/
def classReads (rows : Rows χ) (reads : χ → List (Query χ N)) : List (Query χ N) :=
  rows.flatMap fun row => (row.getD []).flatMap fun slot =>
    match slot.reader? with
    | some r => reads r
    | none => []

def exactReads (rows : Rows χ) (res : Nat) (f : N × FieldMeta V N) : List (Query χ N) :=
  match f.2 with
  | .exact _ _ _ => (List.range (windowsOf rows)).flatMap fun w => rows.flatMap fun row =>
    match slotReader row w with
    | some r => [⟨r, res, .exact f.1⟩]
    | none => []
  | _ => []

def digestReads (rows : Rows χ) (res : Nat) (f : N × FieldMeta V N) : List (Query χ N) :=
  match f.2 with
  | .approximate _ _ _ => classReads rows fun r => groupReads r res f.1 f.2.companions
  | _ => []

def packedReads (rows : Rows χ) (res : Nat) (f : N × FieldMeta V N) : List (Query χ N) :=
  match f.2 with
  | .packed of => classReads rows fun r => [⟨r, res, .packed f.1⟩, ⟨r, res, .digest of⟩]
  | _ => []

def mergeReads (rows : Rows χ) (fields : Fields V N) (res : Nat) : List (Query χ N) :=
  fields.flatMap (exactReads rows res) ++ (fields.flatMap (digestReads rows res) ++
    fields.flatMap (packedReads rows res))

/-- The reads of a fold, in order, whatever they are answered. -/
def foldReads (fields : Fields V N) (site : LevelSite) (rows : Rows χ) : List (Query χ N) :=
  if site.gathers then gatherReads rows fields site.cells
  else mergeReads rows fields site.resSrc

theorem slotReader_mem {row : Option (Row χ)} {w : Nat} {r : χ} (h : slotReader row w = some r) :
    r ∈ (row.getD []).filterMap Slot.reader? := by
  rw [slotReader, Option.bind_eq_some_iff] at h
  obtain ⟨slot, hslot, hr⟩ := h
  cases row with
  | none => cases hslot
  | some slots => exact List.mem_filterMap.mpr ⟨slot, List.mem_of_getElem? hslot, hr⟩

theorem reader_of_mem_groupReads {r : χ} {res : Nat} {name : N} {declared : List Channel}
    {q : Query χ N} (h : q ∈ groupReads r res name declared) : q.reader = r := by
  rcases List.mem_cons.mp h with rfl | h
  · rfl
  · obtain ⟨c, -, rfl⟩ := List.mem_map.mp h
    rfl

theorem reader_of_mem_classReads {rows : Rows χ} {reads : χ → List (Query χ N)}
    (hreads : ∀ r, ∀ q ∈ reads r, q.reader = r) {q : Query χ N} (h : q ∈ classReads rows reads) :
    q.reader ∈ readersOf rows := by
  obtain ⟨row, hrow, h⟩ := List.mem_flatMap.mp h
  obtain ⟨slot, hslot, h⟩ := List.mem_flatMap.mp h
  refine List.mem_flatMap.mpr ⟨row, hrow, List.mem_filterMap.mpr ⟨slot, hslot, ?_⟩⟩
  cases hr : slot.reader? with
  | none => rw [hr] at h; cases h
  | some r =>
    rw [hr] at h
    rw [hreads r q h]

/-- A fold reads through its own rows. -/
theorem reader_mem_of_mem_foldReads {fields : Fields V N} {site : LevelSite} {rows : Rows χ}
    {q : Query χ N} (h : q ∈ foldReads fields site rows) : q.reader ∈ readersOf rows := by
  have hslot : ∀ row ∈ rows, ∀ w r, slotReader row w = some r → r ∈ readersOf rows :=
    fun row hrow w r hr => List.mem_flatMap.mpr ⟨row, hrow, slotReader_mem hr⟩
  rw [foldReads] at h
  split at h
  · obtain ⟨row, hrow, h⟩ := List.mem_flatMap.mp h
    split at h
    · next r hr =>
      have hq : q.reader = r := by
        rcases List.mem_append.mp h with h | h
        · obtain ⟨f, -, h⟩ := List.mem_flatMap.mp h
          exact reader_of_mem_groupReads h
        · obtain ⟨f, -, rfl⟩ := List.mem_map.mp h
          rfl
      rw [hq]
      exact hslot row hrow 0 r hr
    · cases h
  · rcases List.mem_append.mp h with h | h
    · obtain ⟨f, -, h⟩ := List.mem_flatMap.mp h
      rw [exactReads] at h
      split at h
      · obtain ⟨w, -, h⟩ := List.mem_flatMap.mp h
        obtain ⟨row, hrow, h⟩ := List.mem_flatMap.mp h
        split at h
        · next r hr =>
          rw [List.mem_singleton.mp h]
          exact hslot row hrow w r hr
        · cases h
      · cases h
    · rcases List.mem_append.mp h with h | h
      · obtain ⟨f, -, h⟩ := List.mem_flatMap.mp h
        rw [digestReads] at h
        split at h
        · exact reader_of_mem_classReads (fun r q hq => reader_of_mem_groupReads hq) h
        · cases h
      · obtain ⟨f, -, h⟩ := List.mem_flatMap.mp h
        rw [packedReads] at h
        split at h
        · refine reader_of_mem_classReads (fun r q hq => ?_) h
          rcases List.mem_cons.mp hq with rfl | hq
          · rfl
          · rw [List.mem_singleton.mp hq]
        · cases h

theorem reads_readArray (r : χ) (res : Nat) (k : ArrayKey N) :
    ReadProg.Reads (readArray r res k : Fold χ V N (Option (Slab V k))) [⟨r, res, k⟩] :=
  ReadProg.Reads.ask _

theorem reads_companionGroup (r : χ) (res : Nat) (name : N) (declared : List Channel) :
    ReadProg.Reads (companionGroup r res name declared : Fold χ V N (Option Group))
      (groupReads r res name declared) := by
  refine .read fun payload => ?_
  let sibling (c : Channel) : Fold χ V N (Option (Nat → Words)) :=
    readArray r res (.sibling name c)
  have hread : ∀ c, ReadProg.Reads (sibling c) [⟨r, res, .sibling name c⟩] :=
    fun c => reads_readArray r res (.sibling name c)
  have hsib := ReadProg.Reads.mapM hread declared
  rw [← List.map_eq_flatMap] at hsib
  refine hsib.last fun siblings => ?_
  rw [← apply_ite Pure.pure]
  exact .pure _

theorem flatMap_zipIdx {α β : Type} (l : List α) (g : α → List β) :
    (l.zipIdx.flatMap fun p => g p.1) = l.flatMap g := by
  conv_rhs => rw [← List.zipIdx_map_fst 0 l, List.flatMap_map]

theorem reads_mergeExact [DecidableEq V] (d : Dtype V) (law : Law) (fill : V) (rows : Rows χ)
    (res srcPerChild factor windows : Nat) (name : N) :
    ReadProg.Reads (mergeExact d law fill rows res srcPerChild factor windows name)
      ((List.range windows).flatMap fun w => rows.flatMap fun row =>
        match slotReader row w with
        | some r => [⟨r, res, .exact name⟩]
        | none => []) := by
  refine ReadProg.Reads.last (ReadProg.Reads.foldlM (fun out w => ?_) _ _) fun out => .pure _
  refine ReadProg.Reads.last ?_ fun acc => .pure _
  rw [accumulate, ← flatMap_zipIdx rows]
  refine ReadProg.Reads.foldlM (fun acc row => ?_) _ _
  rw [accumulateRow]
  cases slotReader row.1 w with
  | some r => exact .read fun values => .pure _
  | none => exact .pure _

/-- A loop over the slots of one row. -/
theorem reads_slots {β : Type} {g : β → Slot χ × Nat → Fold χ V N β} {qf : χ → List (Query χ N)}
    (hr : ∀ st r w, ReadProg.Reads (g st (.reader r, w)) (qf r))
    (hm : ∀ st w, ReadProg.Reads (g st (.missing, w)) [])
    (hu : ∀ st w, ReadProg.Reads (g st (.unreadable, w)) []) (slots : Row χ) (st : β) :
    ReadProg.Reads (slots.zipIdx.foldlM g st)
      (slots.flatMap fun slot => match slot.reader? with | some r => qf r | none => []) := by
  rw [← flatMap_zipIdx slots]
  refine ReadProg.Reads.foldlM (fun st slot => ?_) _ _
  rcases slot with ⟨r | _ | _, w⟩
  · exact hr st r w
  · exact hm st w
  · exact hu st w

theorem reads_mergeDigest (num : Numerics) (delta : Nat) (declared : List Channel) (rows : Rows χ)
    (res srcPerChild factor nOut : Nat) (name : N) (broken : Broken) :
    ReadProg.Reads
      (mergeDigest num delta declared rows res srcPerChild factor nOut name broken : Fold χ V N _)
      (classReads rows fun r => groupReads r res name declared) := by
  rw [classReads, ← flatMap_zipIdx rows]
  refine ReadProg.Reads.last (ReadProg.Reads.foldlM (fun st row => ?_) _ _) fun st =>
    (ReadProg.Reads.ofExcept _).last fun p => .pure _
  refine ReadProg.Reads.last (reads_slots (fun st r w => ?_) (fun st w => .pure st)
    (fun st w => .pure st) (row.1.getD []) st) fun st =>
    (ReadProg.Reads.ofExcept _).last fun p => .pure _
  refine (reads_companionGroup r res name declared).last fun group => ?_
  rcases group with _ | ⟨_ | slab, siblings⟩ <;> exact .pure _

theorem reads_mergePacked (rows : Rows χ) (res srcPerChild factor : Nat) (name of : N)
    (broken : Broken) :
    ReadProg.Reads (mergePacked rows res srcPerChild factor name of broken : Fold χ V N _)
      (classReads rows fun r => [⟨r, res, .packed name⟩, ⟨r, res, .digest of⟩]) := by
  rw [classReads, ← flatMap_zipIdx rows]
  refine ReadProg.Reads.last (ReadProg.Reads.foldlM (fun st row => ?_) _ _) fun st => .pure _
  refine reads_slots (fun st r w => .read fun words => .read fun ofValues => ?_)
    (fun st w => .pure st) (fun st w => .pure st) (row.1.getD []) st
  rcases words with _ | words <;> rcases ofValues with _ | ofValues <;> exact .pure _

variable [DecidableEq N]

theorem reads_gatherChild (fields : Fields V N) (res span i : Nat) (r : χ)
    (st : Slabs V N × Broken) :
    ReadProg.Reads (gatherChild fields res span i r st)
      (((fields.filter fun f => f.2.companions ≠ []).flatMap fun f =>
        groupReads r res f.1 f.2.companions) ++
      (fields.filter fun f => f.2.companions = []).map fun f => ⟨r, res, f.2.key f.1⟩) := by
  refine ReadProg.Reads.bind (ReadProg.Reads.mapM (fun f => ?_) _) fun groups => ?_
  · exact (reads_companionGroup r res f.1 f.2.companions).last fun g => .pure _
  · rw [List.map_eq_flatMap]
    refine ReadProg.Reads.foldlM (fun st f => ?_) _ _
    exact (reads_readArray r res (f.2.key f.1)).last fun values => .pure _

variable [Inhabited V]

theorem reads_gatherSlabs (rows : Rows χ) (fields : Fields V N) (res span : Nat) :
    ReadProg.Reads (gatherSlabs rows fields res span) (gatherReads rows fields res) := by
  rw [gatherReads, ← flatMap_zipIdx]
  refine ReadProg.Reads.last (ReadProg.Reads.foldlM (fun st row => ?_) _ _) fun st => .pure _
  rw [gatherRow]
  cases slotReader row.1 0 with
  | some r => exact reads_gatherChild fields res span row.2 r st
  | none => exact .pure _

variable [DecidableEq V]

theorem reads_mergeSlabs (num : Numerics) (rows : Rows χ) (fields : Fields V N)
    (resSrc srcPerChild factor nOut : Nat) :
    ReadProg.Reads (mergeSlabs num rows fields resSrc srcPerChild factor nOut)
      (mergeReads rows fields resSrc) := by
  refine ReadProg.Reads.bind (ReadProg.Reads.foldlM (fun slabs f => ?_) _ _) fun slabs =>
    ReadProg.Reads.bind (ReadProg.Reads.foldlM (fun st f => ?_) _ _) fun st =>
      ReadProg.Reads.last (ReadProg.Reads.foldlM (fun st f => ?_) _ _) fun st => .pure _
  · rcases f with ⟨name, ⟨d, law, fill⟩ | _ | _⟩
    · exact (reads_mergeExact ..).last fun out => .pure _
    · exact .pure _
    · exact .pure _
  · rcases f with ⟨name, _ | ⟨delta, location, temporal⟩ | _⟩
    · exact .pure _
    · exact (reads_mergeDigest ..).last fun out => .pure _
    · exact .pure _
  · rcases f with ⟨name, _ | _ | ⟨of⟩⟩
    · exact .pure _
    · exact .pure _
    · exact (reads_mergePacked ..).last fun out => .pure _

/-- A fold asks its static list of reads. -/
theorem reads_foldSlabs (num : Numerics) (fields : Fields V N) (site : LevelSite) (rows : Rows χ) :
    ReadProg.Reads (foldSlabs num fields site rows) (foldReads fields site rows) := by
  rw [foldSlabs, foldReads]
  cases site.gathers with
  | true => exact reads_gatherSlabs rows fields site.cells _
  | false => exact reads_mergeSlabs ..

end Reads

end Zagg.Stage
