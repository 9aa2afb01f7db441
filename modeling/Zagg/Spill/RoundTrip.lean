import Mathlib.Algebra.BigOperators.Ring.List
import Mathlib.Algebra.Ring.Nat
import Zagg.Spill.RawBlock

/-!
# What a spill block reads back

A partition's file is the segments it was given, one behind the other, whatever was written to
the other partitions in between. Reading it gives the rows of its id, in the order in which they
were appended, column by column.
-/
namespace Zagg.Spill.Raw

open Zagg.Lib Zagg.Spill

section Files

theorem File.write_end {f : File} (h : f.pos = f.bytes.length) (data : List UInt8) :
    f.write data = ⟨f.bytes ++ data, (f.bytes ++ data).length⟩ := by
  have hdrop : f.bytes.drop (f.pos + data.length) = [] :=
    List.drop_eq_nil_of_le (by omega)
  have htake : f.bytes.take f.pos = f.bytes := List.take_of_length_le h.ge
  rw [File.write, hdrop, htake, List.append_nil, h, List.length_append]

theorem foldl_write {f : File} (h : f.pos = f.bytes.length) (arrays : List (List Item)) :
    arrays.foldl (fun f a => f.write a.flatten) f =
      ⟨f.bytes ++ arrays.flatMap List.flatten, (f.bytes ++ arrays.flatMap List.flatten).length⟩ := by
  induction arrays generalizing f with
  | nil =>
    rw [List.foldl_nil, List.flatMap_nil, List.append_nil, ← h]
  | cons a arrays ih =>
    have hnext : (f.write a.flatten).pos = (f.write a.flatten).bytes.length := by
      rw [File.write_end h]
    rw [List.foldl_cons, ih hnext, File.write_end h, List.flatMap_cons, List.append_assoc]

/-- Items of one size are read back from their bytes. -/
theorem File.readItems_spec {f : File} {itemsize : Nat} {items : List Item} {rest : List UInt8}
    (hsized : ∀ x ∈ items, x.length = itemsize)
    (hf : f.bytes.drop f.pos = items.flatten ++ rest) :
    ∃ f', f.readItems itemsize items.length = some (items, f') ∧ f'.bytes = f.bytes ∧
      f'.bytes.drop f'.pos = rest := by
  have hread : readInto itemsize items.length (items.flatMap id ++ rest) =
      some (items.map id, rest) := readInto_encode id items hsized rest
  have hflat : items.flatMap id = items.flatten := List.flatMap_id'
  rw [hflat, List.map_id, ← hf] at hread
  have hlen : items.flatten.length = items.length * itemsize := by
    rw [List.length_flatten, List.map_congr_left hsized, List.map_const', List.sum_replicate_nat]
  refine ⟨⟨f.bytes, f.pos + items.length * itemsize⟩, ?_, rfl, ?_⟩
  · rw [File.readItems, hread]
    rfl
  · rw [← List.drop_drop, hf, ← hlen, List.drop_left]

end Files

section Segments
variable {ι : Type} (labels : List (ι × Dtype))

/-- The arrays of a segment. -/
def arraysOf (seg : ι → List Item) : List (List Item) := labels.map fun l => seg l.1

/-- A segment of `n` rows: each array has `n` items of its dtype's size. -/
def Fits (seg : Nat × (ι → List Item)) : Prop :=
  ∀ l ∈ labels, (seg.2 l.1).length = seg.1 ∧ ∀ x ∈ seg.2 l.1, x.length = l.2.itemsize

def segmentBytes (seg : ι → List Item) : List UInt8 := (arraysOf labels seg).flatMap List.flatten

variable {labels}

theorem readArrays_spec {seg : Nat × (ι → List Item)} (h : Fits labels seg) {f : File}
    {rest : List UInt8} (hf : f.bytes.drop f.pos = segmentBytes labels seg.2 ++ rest) :
    ∃ f', readArrays seg.1 (labels.map Prod.snd) f = some (arraysOf labels seg.2, f') ∧
      f'.bytes = f.bytes ∧ f'.bytes.drop f'.pos = rest := by
  induction labels generalizing f with
  | nil => exact ⟨f, rfl, rfl, hf⟩
  | cons l labels ih =>
    obtain ⟨hlen, hsized⟩ := h l (.head _)
    have hf' : f.bytes.drop f.pos = (seg.2 l.1).flatten ++ (segmentBytes labels seg.2 ++ rest) := by
      rw [hf, segmentBytes, arraysOf, List.map_cons, List.flatMap_cons, List.append_assoc]
      rfl
    obtain ⟨f₁, hitems, hbytes₁, hrest₁⟩ := File.readItems_spec hsized hf'
    obtain ⟨f₂, harrays, hbytes₂, hrest₂⟩ := ih (fun l hl => h l (.tail _ hl)) hrest₁
    refine ⟨f₂, ?_, hbytes₂.trans hbytes₁, hrest₂⟩
    rw [List.map_cons, readArrays, ← hlen, hitems, Option.bind_some, hlen, harrays]
    rfl

/-- The bytes of segments are read back as their arrays, each filled segment by segment. -/
theorem readSegments_spec {segs : List (Nat × (ι → List Item))} (h : ∀ seg ∈ segs, Fits labels seg)
    {f : File} {rest : List UInt8}
    (hf : f.bytes.drop f.pos = (segs.flatMap fun seg => segmentBytes labels seg.2) ++ rest) :
    ∃ f', readSegments (labels.map Prod.snd) (segs.map Prod.fst) f =
        some (labels.map fun l => segs.flatMap fun seg => seg.2 l.1, f') ∧ f'.bytes = f.bytes := by
  induction segs generalizing f with
  | nil =>
    refine ⟨f, ?_, rfl⟩
    rw [List.map_nil, readSegments, List.map_map]
    rfl
  | cons seg segs ih =>
    rw [List.flatMap_cons, List.append_assoc] at hf
    obtain ⟨f₁, harrays, hbytes₁, hrest₁⟩ := readArrays_spec (h seg (.head _)) hf
    obtain ⟨f₂, hsegs, hbytes₂⟩ := ih (fun s hs => h s (.tail _ hs)) hrest₁
    refine ⟨f₂, ?_, hbytes₂.trans hbytes₁⟩
    rw [List.map_cons, readSegments, harrays, Option.bind_some, hsegs, Option.map_some, arraysOf,
      List.zipWith_map, List.zipWith_self]
    rfl

/-- A partition whose file is these segments and whose position is its end. -/
structure Stores (labels : List (ι × Dtype)) (p : Partition)
    (segs : List (Nat × (ι → List Item))) : Prop where
  bytes : p.file.bytes = segs.flatMap fun seg => segmentBytes labels seg.2
  pos : p.file.pos = p.file.bytes.length
  counts : p.segments = segs.map Prod.fst
  fits : ∀ seg ∈ segs, Fits labels seg

theorem stores_empty : Stores labels {} [] := ⟨rfl, rfl, rfl, nofun⟩

theorem Stores.writeSegment {p : Partition} {segs : List (Nat × (ι → List Item))}
    (h : Stores labels p segs) {seg : Nat × (ι → List Item)} (hseg : Fits labels seg)
    (hne : labels ≠ []) :
    Stores labels (p.writeSegment (arraysOf labels seg.2)).1 (segs ++ [seg]) := by
  have hfile : (p.writeSegment (arraysOf labels seg.2)).1.file =
      ⟨p.file.bytes ++ segmentBytes labels seg.2, (p.file.bytes ++ segmentBytes labels seg.2).length⟩ :=
    foldl_write h.pos _
  have hcount : ((arraysOf labels seg.2).headD []).length = seg.1 := by
    cases labels with
    | nil => exact absurd rfl hne
    | cons l labels => exact (hseg l (.head _)).1
  constructor
  · rw [hfile, h.bytes, List.flatMap_append, List.flatMap_singleton]
  · rw [hfile]
  · show p.segments ++ [((arraysOf labels seg.2).headD []).length] = _
    rw [hcount, h.counts, List.map_append]
    rfl
  · intro s hs
    cases List.mem_append.mp hs with
    | inl hs => exact h.fits s hs
    | inr hs => exact List.mem_singleton.mp hs ▸ hseg

/-- A partition is read back without a change. -/
theorem Stores.read {p : Partition} {segs : List (Nat × (ι → List Item))}
    (h : Stores labels p segs) :
    p.read (labels.map Prod.snd) =
      some (labels.map fun l => segs.flatMap fun seg => seg.2 l.1, p) := by
  have hf : (File.mk p.file.bytes 0).bytes.drop (File.mk p.file.bytes 0).pos =
      (segs.flatMap fun seg => segmentBytes labels seg.2) ++ [] := by
    rw [List.append_nil]
    exact h.bytes
  obtain ⟨f, hread, hbytes⟩ := readSegments_spec h.fits hf
  have hfile : File.mk f.bytes f.bytes.length = p.file := by
    rw [hbytes, ← h.pos]
  rw [← h.counts] at hread
  rw [Partition.read, hread, Option.map_some, hfile]

end Segments

section Batches

/-- The arrays of a block: the cells, and the columns by name. -/
def labelled (cellDtype : Dtype) (schema : List (String × Dtype)) : List (Option String × Dtype) :=
  (none, cellDtype) :: schema.map fun c => (some c.1, c.2)

/-- The items of a batch's cells, or of one of its columns. -/
def Batch.array (b : Batch) : Option String → List Item
  | none => b.cells.items
  | some name => ((b.cols.lookup name).map NumArray.items).getD []

/-- A batch of these dtypes whose arrays are row-aligned. -/
structure Batch.Aligned (b : Batch) (cellDtype : Dtype) (schema : List (String × Dtype)) : Prop where
  cells : b.cells.dtype = cellDtype
  schema : b.schema = schema
  ids : b.partIds.length = b.cells.items.length
  cols : ∀ c ∈ b.cols, c.2.items.length = b.cells.items.length

variable {cellDtype : Dtype} {schema : List (String × Dtype)} {b : Batch}

theorem map_snd_labelled : (labelled cellDtype schema).map Prod.snd =
    cellDtype :: schema.map Prod.snd := by
  rw [labelled, List.map_cons, List.map_map]
  rfl

/-- The names of a batch's columns are distinct, so each array is found by its own. -/
theorem Batch.Aligned.arrays (h : b.Aligned cellDtype schema) (hnames : (schema.map Prod.fst).Nodup) :
    b.arrays = arraysOf (labelled cellDtype schema) b.array := by
  have hcols : (b.cols.map Prod.fst).Nodup := by
    have hfst : b.cols.map Prod.fst = schema.map Prod.fst := by
      rw [← h.schema, Batch.schema, List.map_map]
      rfl
    rwa [hfst]
  have hcol : ∀ c ∈ b.cols, c.2.items = b.array (some c.1) := by
    intro c hc
    rw [Batch.array, lookup_of_nodup hcols hc]
    rfl
  rw [Batch.arrays, List.map_congr_left hcol, arraysOf, labelled, List.map_cons, List.map_map,
    ← h.schema, Batch.schema, List.map_map]
  rfl

theorem Batch.Aligned.array_length (h : b.Aligned cellDtype schema)
    (hnames : (schema.map Prod.fst).Nodup) :
    ∀ l ∈ labelled cellDtype schema, (b.array l.1).length = b.partIds.length ∧
      ∀ x ∈ b.array l.1, x.length = l.2.itemsize := by
  intro l hl
  cases List.mem_cons.mp hl with
  | inl heq =>
    subst heq
    exact ⟨h.ids.symm, fun x hx => h.cells ▸ b.cells.sized x hx⟩
  | inr hl =>
    obtain ⟨c, hc, rfl⟩ := List.mem_map.mp hl
    rw [← h.schema] at hc hnames
    obtain ⟨col, hcol, rfl⟩ := List.mem_map.mp hc
    have hcols : (b.cols.map Prod.fst).Nodup := by
      rwa [Batch.schema, List.map_map] at hnames
    have harray : b.array (some col.1) = col.2.items := by
      rw [Batch.array, lookup_of_nodup hcols hcol]
      rfl
    show (b.array (some col.1)).length = _ ∧ ∀ x ∈ b.array (some col.1), x.length = col.2.dtype.itemsize
    rw [harray]
    exact ⟨(h.cols col hcol).trans h.ids.symm, col.2.sized⟩

/-- The segment of a run. -/
def runSegment (b : Batch) (run : Int × Nat × Nat) : Nat × (Option String → List Item) :=
  (run.2.2 - run.2.1, fun label => slice (b.array label) run.2.1 run.2.2)

/-- The segments of one id in a batch. -/
def segmentsFor (p : Int) (b : Batch) : List (Nat × (Option String → List Item)) :=
  ((runs b.partIds).filter fun run => run.1 = p).map (runSegment b)

/-- The rows of one id in an array of a batch. -/
def rowsOf (p : Int) (b : Batch) (label : Option String) : List Item :=
  ((b.partIds.zip (b.array label)).filter fun x => x.1 = p).map Prod.snd

theorem fits_runSegment (h : b.Aligned cellDtype schema) (hnames : (schema.map Prod.fst).Nodup)
    {run : Int × Nat × Nat} (hrun : run ∈ runs b.partIds) :
    Fits (labelled cellDtype schema) (runSegment b run) := by
  intro l hl
  obtain ⟨hlen, hsized⟩ := h.array_length hnames l hl
  obtain ⟨-, hle, -⟩ := run_spec hrun
  constructor
  · exact length_slice (hlen ▸ hle)
  · intro x hx
    exact hsized x (List.mem_of_mem_drop (List.mem_of_mem_take hx))

theorem flatMap_segmentsFor (h : b.Aligned cellDtype schema) (hnames : (schema.map Prod.fst).Nodup)
    (p : Int) {l : Option String × Dtype} (hl : l ∈ labelled cellDtype schema) :
    ((segmentsFor p b).flatMap fun seg => seg.2 l.1) = rowsOf p b l.1 := by
  rw [segmentsFor, List.flatMap_map]
  exact flatMap_slice_runs_of b.partIds (b.array l.1) (h.array_length hnames l hl).1 p

theorem segmentsFor_eq_nil {p : Int} : segmentsFor p b = [] ↔ p ∉ b.partIds := by
  rw [segmentsFor, List.map_eq_nil_iff, List.filter_eq_nil_iff, ← mem_runs_fst (l := b.partIds),
    List.mem_map, not_exists]
  refine forall_congr' fun run => ?_
  rw [not_and, decide_eq_true_eq]

end Batches

section Block
variable {cellDtype : Dtype} {schema : List (String × Dtype)} {b : Batch} {s : SpillBlock}

/-- What the partitions of a block hold, by id. -/
abbrev Contents := Int → List (Nat × (Option String → List Item))

structure PartsHold (cellDtype : Dtype) (schema : List (String × Dtype))
    (parts : List (Int × Partition)) (content : Contents) : Prop where
  stored : ∀ p, Stores (labelled cellDtype schema) ((parts.lookup p).getD {}) (content p)
  absent : ∀ p, parts.lookup p = none ↔ content p = []

structure Holds (cellDtype : Dtype) (schema : List (String × Dtype)) (s : SpillBlock)
    (content : Contents) : Prop where
  pinned : s.schema = none ∧ s.partitions = [] ∨
    s.schema = some schema ∧ s.cellDtype = some cellDtype
  parts : PartsHold cellDtype schema s.partitions content

theorem holds_empty : Holds cellDtype schema {} fun _ => [] :=
  ⟨.inl ⟨rfl, rfl⟩, fun _ => stores_empty, fun _ => iff_of_true rfl rfl⟩

/-- The bytes of a row. -/
def rowBytes (cellDtype : Dtype) (schema : List (String × Dtype)) : Nat :=
  cellDtype.itemsize + (schema.map fun c => c.2.itemsize).sum

theorem sum_labelled : ((labelled cellDtype schema).map fun l => l.2.itemsize).sum =
    rowBytes cellDtype schema := by
  rw [labelled, List.map_cons, List.sum_cons, List.map_map]
  rfl

theorem length_segment {seg : Nat × (Option String → List Item)}
    (h : Fits (labelled cellDtype schema) seg) :
    ((arraysOf (labelled cellDtype schema) seg.2).map fun a => a.flatten.length).sum =
      seg.1 * rowBytes cellDtype schema := by
  have hitems : ∀ l ∈ labelled cellDtype schema,
      (seg.2 l.1).flatten.length = seg.1 * l.2.itemsize := by
    intro l hl
    obtain ⟨hlen, hsized⟩ := h l hl
    rw [List.length_flatten, List.map_congr_left hsized, List.map_const', List.sum_replicate_nat,
      hlen]
  have hscaled := List.sum_map_mul_left (labelled cellDtype schema)
    (fun l : Option String × Dtype => l.2.itemsize) seg.1
  rw [arraysOf, List.map_map, ← sum_labelled, ← hscaled]
  exact congrArg List.sum (List.map_congr_left hitems)

/-- One run extends the partition of its id by its segment. -/
theorem writeRun_spec (h : b.Aligned cellDtype schema) (hnames : (schema.map Prod.fst).Nodup)
    {run : Int × Nat × Nat} (hrun : run ∈ runs b.partIds) {parts : List (Int × Partition)}
    {content : Contents} (hparts : PartsHold cellDtype schema parts content) (n : Nat) :
    PartsHold cellDtype schema (writeRun b.arrays (parts, n) run).1
        (fun p => if p = run.1 then content p ++ [runSegment b run] else content p) ∧
      (writeRun b.arrays (parts, n) run).2 =
        n + (run.2.2 - run.2.1) * rowBytes cellDtype schema := by
  have hfits := fits_runSegment h hnames hrun
  have harrays : b.arrays.map (fun a => slice a run.2.1 run.2.2) =
      arraysOf (labelled cellDtype schema) (runSegment b run).2 := by
    rw [h.arrays hnames, arraysOf, List.map_map]
    rfl
  have hstep : writeRun b.arrays (parts, n) run =
      (put run.1 (((parts.lookup run.1).getD {}).writeSegment
          (arraysOf (labelled cellDtype schema) (runSegment b run).2)).1 parts,
        n + ((arraysOf (labelled cellDtype schema) (runSegment b run).2).map
          fun a => a.flatten.length).sum) := by
    rw [← harrays]
    rfl
  rw [hstep]
  refine ⟨⟨fun p => ?_, fun p => ?_⟩, ?_⟩
  · show Stores _ (((put _ _ parts).lookup p).getD {}) _
    rw [lookup_put]
    split_ifs with hp
    · subst hp
      exact (hparts.stored run.1).writeSegment hfits (List.cons_ne_nil _ _)
    · exact hparts.stored p
  · show (put _ _ parts).lookup p = none ↔ _
    rw [lookup_put]
    split_ifs with hp
    · exact iff_of_false nofun (List.append_ne_nil_of_right_ne_nil _ (List.cons_ne_nil _ _))
    · exact hparts.absent p
  · show n + _ = _
    rw [length_segment hfits]
    rfl

/-- The runs of a batch extend every partition by the segments of its id. -/
theorem foldl_writeRun (h : b.Aligned cellDtype schema) (hnames : (schema.map Prod.fst).Nodup)
    {rs : List (Int × Nat × Nat)} (hrs : ∀ run ∈ rs, run ∈ runs b.partIds)
    {parts : List (Int × Partition)} {content : Contents}
    (hparts : PartsHold cellDtype schema parts content) (n : Nat) :
    PartsHold cellDtype schema (rs.foldl (writeRun b.arrays) (parts, n)).1
        (fun p => content p ++ (rs.filter fun run => run.1 = p).map (runSegment b)) ∧
      (rs.foldl (writeRun b.arrays) (parts, n)).2 =
        n + (rs.map fun run => run.2.2 - run.2.1).sum * rowBytes cellDtype schema := by
  induction rs generalizing parts content n with
  | nil =>
    refine ⟨?_, by rw [List.map_nil, List.sum_nil, Nat.zero_mul]; rfl⟩
    simpa using hparts
  | cons run rs ih =>
    obtain ⟨hfirst, hbytes⟩ := writeRun_spec h hnames (hrs run (.head _)) hparts n
    obtain ⟨hall, htotal⟩ := ih (fun r hr => hrs r (.tail _ hr)) hfirst
      (writeRun b.arrays (parts, n) run).2
    rw [List.foldl_cons]
    refine ⟨?_, ?_⟩
    · have hcontent : (fun p => content p ++
            ((run :: rs).filter fun run => run.1 = p).map (runSegment b)) =
          fun p => (if p = run.1 then content p ++ [runSegment b run] else content p) ++
            (rs.filter fun run => run.1 = p).map (runSegment b) := by
        funext p
        by_cases hp : p = run.1
        · simp [hp]
        · simp [hp, Ne.symm hp]
      rw [hcontent]
      exact hall
    · rw [List.map_cons, List.sum_cons, Nat.add_mul, ← Nat.add_assoc, ← hbytes]
      exact htotal

theorem sum_runs (ids : List Int) : ((runs ids).map fun run => run.2.2 - run.2.1).sum = ids.length := by
  have hcover := congrArg List.length (flatMap_slice_runs ids ids rfl)
  rw [List.length_flatMap] at hcover
  rw [← hcover]
  refine congrArg List.sum (List.map_congr_left fun run hrun => ?_)
  exact (length_slice (run_spec hrun).2.1).symm

/-- An append writes its rows, each behind what its partition had. -/
theorem append_spec (h : b.Aligned cellDtype schema) (hnames : (schema.map Prod.fst).Nodup)
    {content : Contents} (hs : Holds cellDtype schema s content) :
    (s.append b).2 = .ok (b.partIds.length * rowBytes cellDtype schema) ∧
      Holds cellDtype schema (s.append b).1 (fun p => content p ++ segmentsFor p b) ∧
      (s.append b).1.bytesWritten =
        s.bytesWritten + b.partIds.length * rowBytes cellDtype schema := by
  obtain ⟨s', hs', hparts, hwritten, hpin⟩ : ∃ s', s.pin b = s' ∧ s'.partitions = s.partitions ∧
      s'.bytesWritten = s.bytesWritten ∧ s'.schema = some schema ∧
        s'.cellDtype = some cellDtype := by
    unfold SpillBlock.pin
    rcases hs.pinned with ⟨hnone, -⟩ | ⟨hsome, hcell⟩
    · rw [hnone]
      exact ⟨_, rfl, rfl, rfl, congrArg some h.schema, congrArg some h.cells⟩
    · rw [hsome]
      exact ⟨s, rfl, rfl, rfl, hsome, hcell⟩
  have hdrift : ¬(s'.schema ≠ some b.schema ∨ s'.cellDtype ≠ some b.cells.dtype) := by
    rw [hpin.1, hpin.2, h.schema, h.cells]
    simp
  have haligned : ¬(b.partIds.length ≠ b.cells.items.length ∨
      b.cols.any (fun c => c.2.items.length ≠ b.cells.items.length) = true) := by
    rw [not_or, not_not]
    refine ⟨h.ids, fun hany => ?_⟩
    obtain ⟨c, hc, hne⟩ := List.any_eq_true.mp hany
    exact of_decide_eq_true hne (h.cols c hc)
  have hall := foldl_writeRun h hnames (fun run hrun => hrun) hs.parts 0
  rw [sum_runs, Nat.zero_add] at hall
  unfold SpillBlock.append
  dsimp only
  rw [hs', if_neg hdrift, if_neg haligned]
  split_ifs with hempty
  · have hids : b.partIds = [] := by
      apply List.eq_nil_of_length_eq_zero
      rw [h.ids, hempty]
      rfl
    have hzero : b.partIds.length * rowBytes cellDtype schema = 0 := by
      rw [hids, List.length_nil, Nat.zero_mul]
    have hnone : ∀ p, segmentsFor p b = [] := fun p =>
      segmentsFor_eq_nil.mpr (hids ▸ List.not_mem_nil)
    rw [hzero]
    refine ⟨rfl, ⟨.inr hpin, ?_⟩, hwritten⟩
    simp only [hnone, List.append_nil, hparts]
    exact hs.parts
  · rw [hparts]
    refine ⟨congrArg Except.ok hall.2, ⟨.inr hpin, hall.1⟩, ?_⟩
    show s'.bytesWritten + _ = _
    rw [hall.2, hwritten]

/-- The partitions behind a read. -/
theorem lookup_after_read {parts : List (Int × Partition)} {p : Int} {part : Partition}
    (h : parts.lookup p = some part) (close : Bool) (q : Int) :
    (if close = true then parts.filter (fun e => e.1 ≠ p) else put p part parts).lookup q =
      if close = true ∧ q = p then none else parts.lookup q := by
  cases close with
  | false =>
    rw [if_neg Bool.false_ne_true, if_neg fun hand => Bool.false_ne_true hand.1, lookup_put]
    split_ifs with hq
    · rw [hq, h]
    · rfl
  | true =>
    rw [if_pos rfl]
    by_cases hq : q = p
    · rw [if_pos ⟨rfl, hq⟩, lookup_eq_none, List.mem_map]
      rintro ⟨e, he, hkey⟩
      exact of_decide_eq_true (List.mem_filter.mp he).2 (hkey.trans hq)
    · rw [if_neg fun hand => hq hand.2, lookup_filter_ne hq]

theorem readPartition_absent {p : Int} (h : s.partitions.lookup p = none) (close : Bool) :
    s.readPartition p close = (.error .noPartition, s) := by
  unfold SpillBlock.readPartition
  rw [h]

theorem readPartition_present {p : Int} {part : Partition} {segs : List (Nat × (Option String → List Item))}
    (h : s.partitions.lookup p = some part)
    (hpin : s.schema = some schema ∧ s.cellDtype = some cellDtype)
    (hstores : Stores (labelled cellDtype schema) part segs) (close : Bool) :
    s.readPartition p close =
      (.ok (segs.flatMap fun seg => seg.2 none,
          schema.map fun c => (c.1, segs.flatMap fun seg => seg.2 (some c.1))),
        { s with partitions :=
          if close then s.partitions.filter fun e => e.1 ≠ p else put p part s.partitions }) := by
  have hread : part.read (cellDtype :: schema.map Prod.snd) =
      some ((labelled cellDtype schema).map fun l => segs.flatMap fun seg => seg.2 l.1, part) := by
    rw [← map_snd_labelled]
    exact hstores.read
  have hzip : (schema.map Prod.fst).zip (((labelled cellDtype schema).map fun l =>
        segs.flatMap fun seg => seg.2 l.1).tail) =
      schema.map fun c => (c.1, segs.flatMap fun seg => seg.2 (some c.1)) := by
    rw [labelled, List.map_cons, List.tail_cons, List.map_map, List.zip_map']
    rfl
  unfold SpillBlock.readPartition
  rw [h, hpin.1, hpin.2]
  dsimp only
  rw [hread]
  dsimp only
  rw [hzip]
  rfl

/-- A read returns what the partition has, and forgets it when it closes. -/
theorem readPartition_spec {content : Contents} (hs : Holds cellDtype schema s content) (p : Int)
    (close : Bool) :
    (s.readPartition p close).1 = (if content p = [] then .error .noPartition
      else .ok ((content p).flatMap fun seg => seg.2 none,
        schema.map fun c => (c.1, (content p).flatMap fun seg => seg.2 (some c.1)))) ∧
      Holds cellDtype schema (s.readPartition p close).2
        (fun q => if close = true ∧ q = p then [] else content q) ∧
      (s.readPartition p close).2.bytesWritten = s.bytesWritten := by
  cases hlookup : s.partitions.lookup p with
  | none =>
    have hempty := (hs.parts.absent p).mp hlookup
    have hsame : (fun q => if close = true ∧ q = p then [] else content q) = content := by
      funext q
      split_ifs with hq
      · rw [hq.2, hempty]
      · rfl
    rw [readPartition_absent hlookup, hsame, if_pos hempty]
    exact ⟨rfl, hs, rfl⟩
  | some part =>
    have hne : content p ≠ [] := fun hempty => by
      rw [(hs.parts.absent p).mpr hempty] at hlookup
      cases hlookup
    have hpin : s.schema = some schema ∧ s.cellDtype = some cellDtype := by
      rcases hs.pinned with ⟨-, hno⟩ | hpin
      · rw [hno] at hlookup
        cases hlookup
      · exact hpin
    have hstores := hs.parts.stored p
    rw [hlookup] at hstores
    rw [readPartition_present hlookup hpin hstores, if_neg hne]
    refine ⟨rfl, ⟨.inr hpin, fun q => ?_, fun q => ?_⟩, rfl⟩
    · show Stores _ ((List.lookup q (if close = true then _ else _)).getD {}) _
      rw [lookup_after_read hlookup]
      split_ifs
      · exact stores_empty
      · exact hs.parts.stored q
    · show List.lookup q (if close = true then _ else _) = none ↔ _
      rw [lookup_after_read hlookup]
      split_ifs
      · exact iff_of_true rfl rfl
      · exact hs.parts.absent q

end Block

section Runs
variable {cellDtype : Dtype} {schema : List (String × Dtype)}

/-- The batches that were appended since the partition was closed last. -/
def pending (p : Int) (ops : List Op) : List Batch :=
  ops.foldl (fun batches op => match op with
    | .append b => batches ++ [b]
    | .read q close => if close = true ∧ p = q then [] else batches) []

def appended (ops : List Op) : List Batch :=
  ops.filterMap fun op => match op with
    | .append b => some b
    | .read _ _ => none

theorem appended_append (ops : List Op) (b : Batch) :
    appended (ops ++ [.append b]) = appended ops ++ [b] := by
  rw [appended, List.filterMap_append]
  rfl

theorem appended_read (ops : List Op) (q : Int) (close : Bool) :
    appended (ops ++ [.read q close]) = appended ops := by
  rw [appended, List.filterMap_append]
  exact List.append_nil _

/-- A block after any appends and reads. -/
theorem run_holds (hnames : (schema.map Prod.fst).Nodup) {ops : List Op}
    (hops : ∀ b, .append b ∈ ops → b.Aligned cellDtype schema) :
    Holds cellDtype schema (ops.foldl SpillBlock.step {})
        (fun p => (pending p ops).flatMap (segmentsFor p)) ∧
      (ops.foldl SpillBlock.step {}).bytesWritten =
        ((appended ops).map fun b => b.partIds.length).sum * rowBytes cellDtype schema := by
  induction ops using List.reverseRecOn with
  | nil => exact ⟨holds_empty, (Nat.zero_mul _).symm⟩
  | append_singleton ops op ih =>
    obtain ⟨hs, hbytes⟩ := ih fun b hb => hops b (List.mem_append_left _ hb)
    rw [List.foldl_append, List.foldl_cons, List.foldl_nil]
    cases op with
    | append b =>
      have hb := hops b (List.mem_append_right _ (.head _))
      obtain ⟨-, hnext, hwritten⟩ := append_spec hb hnames hs
      constructor
      · have hpending : (fun p => (pending p (ops ++ [.append b])).flatMap (segmentsFor p)) =
            fun p => (pending p ops).flatMap (segmentsFor p) ++ segmentsFor p b := by
          funext p
          rw [pending, List.foldl_append]
          show (pending p ops ++ [b]).flatMap (segmentsFor p) = _
          rw [List.flatMap_append, List.flatMap_singleton]
        rw [hpending]
        exact hnext
      · show ((ops.foldl SpillBlock.step {}).append b).1.bytesWritten = _
        rw [hwritten, hbytes, appended_append, List.map_append, List.sum_append, Nat.add_mul]
        rfl
    | read q close =>
      obtain ⟨-, hnext, hwritten⟩ := readPartition_spec hs q close
      constructor
      · have hpending : (fun p => (pending p (ops ++ [.read q close])).flatMap (segmentsFor p)) =
            fun p => if close = true ∧ p = q then []
              else (pending p ops).flatMap (segmentsFor p) := by
          funext p
          rw [pending, List.foldl_append]
          show (if close = true ∧ p = q then [] else pending p ops).flatMap (segmentsFor p) = _
          split_ifs <;> rfl
        rw [hpending]
        exact hnext
      · show ((ops.foldl SpillBlock.step {}).readPartition q close).2.bytesWritten = _
        rw [hwritten, hbytes, appended_read]

theorem mem_pending {p : Int} {ops : List Op} {b : Batch} (h : b ∈ pending p ops) :
    .append b ∈ ops := by
  induction ops using List.reverseRecOn with
  | nil => cases h
  | append_singleton ops op ih =>
    rw [pending, List.foldl_append] at h
    cases op with
    | append b' =>
      cases List.mem_append.mp (show b ∈ pending p ops ++ [b'] from h) with
      | inl h => exact List.mem_append_left _ (ih h)
      | inr h => exact List.mem_append_right _ (List.mem_singleton.mp h ▸ .head _)
    | read q close =>
      have h : b ∈ (if close = true ∧ p = q then [] else pending p ops) := h
      split_ifs at h
      · cases h
      · exact List.mem_append_left _ (ih h)

/-- Reading a partition returns the rows appended with its id since it was closed last, in order
and column by column, and a partition without a row is not there. The bytes counted are those of
all rows appended. -/
theorem spill_round_trip (cellDtype : Dtype) (schema : List (String × Dtype))
    (hnames : (schema.map Prod.fst).Nodup) (ops : List Op)
    (hops : ∀ b, .append b ∈ ops → b.Aligned cellDtype schema) :
    (∀ (p : Int) (close : Bool), ((ops.foldl SpillBlock.step {}).readPartition p close).1 =
      if ∃ b ∈ pending p ops, p ∈ b.partIds then
        .ok ((pending p ops).flatMap fun b => rowsOf p b none,
          schema.map fun c => (c.1, (pending p ops).flatMap fun b => rowsOf p b (some c.1)))
      else .error .noPartition) ∧
    (ops.foldl SpillBlock.step {}).bytesWritten =
      ((appended ops).map fun b => b.partIds.length).sum * rowBytes cellDtype schema := by
  obtain ⟨hs, hbytes⟩ := run_holds hnames hops
  refine ⟨fun p close => ?_, hbytes⟩
  obtain ⟨hread, -, -⟩ := readPartition_spec hs p close
  have hcolumn : ∀ l ∈ labelled cellDtype schema,
      (((pending p ops).flatMap (segmentsFor p)).flatMap fun seg => seg.2 l.1) =
        (pending p ops).flatMap fun b => rowsOf p b l.1 := by
    intro l hl
    rw [List.flatMap_assoc]
    refine List.flatMap_congr fun b hb => ?_
    exact flatMap_segmentsFor (hops b (mem_pending hb)) hnames p hl
  have hempty : (pending p ops).flatMap (segmentsFor p) = [] ↔
      ¬∃ b ∈ pending p ops, p ∈ b.partIds := by
    rw [List.flatMap_eq_nil_iff]
    simp only [segmentsFor_eq_nil, not_exists, not_and]
  have hcells := hcolumn (none, cellDtype) (.head _)
  have hcols : (schema.map fun c => (c.1, ((pending p ops).flatMap (segmentsFor p)).flatMap
      fun seg => seg.2 (some c.1))) =
        schema.map fun c => (c.1, (pending p ops).flatMap fun b => rowsOf p b (some c.1)) := by
    refine List.map_congr_left fun c hc => congrArg (Prod.mk c.1) ?_
    exact hcolumn (some c.1, c.2) (.tail _ (List.mem_map.mpr ⟨c, hc, rfl⟩))
  rw [hread, hcells, hcols]
  exact (if_congr hempty rfl rfl).trans (ite_not ..)

section Sample

def sampleCells : Dtype := ⟨"uint16", 2⟩

def sampleSchema : List (String × Dtype) := [("h", ⟨"uint8", 1⟩)]

/-- A batch of cells and heights by partition. -/
def sampleBatch (ids : List Int) (cells heights : List UInt8) : Batch :=
  ⟨ids, ⟨sampleCells, cells.map fun x => [0, x], by simp [sampleCells]⟩,
    [("h", ⟨⟨"uint8", 1⟩, heights.map fun h => [h], by simp⟩)]⟩

/-- Partition 3 twice in one batch, a batch without a row, and partition 5 closed in between. -/
def sampleOps : List Op :=
  [.append (sampleBatch [3, 5, 3] [1, 2, 3] [10, 20, 30]),
    .append (sampleBatch [] [] []), .read 5 true, .append (sampleBatch [3] [4] [40])]

theorem sampleOps_aligned (b : Batch) (h : .append b ∈ sampleOps) :
    b.Aligned sampleCells sampleSchema := by
  simp only [sampleOps, List.mem_cons, Op.append.injEq, List.not_mem_nil, or_false, reduceCtorEq,
    false_or] at h
  obtain rfl | rfl | rfl := h
  all_goals exact ⟨rfl, rfl, rfl, by simp [sampleBatch]⟩

theorem spill_round_trip_sample :
    ((sampleOps.foldl SpillBlock.step {}).readPartition 3 false).1 =
        .ok ([[0, 1], [0, 3], [0, 4]], [("h", [[10], [30], [40]])]) ∧
      ((sampleOps.foldl SpillBlock.step {}).readPartition 5 false).1 = .error .noPartition ∧
      (sampleOps.foldl SpillBlock.step {}).bytesWritten = 12 := by
  obtain ⟨hread, hbytes⟩ := spill_round_trip sampleCells sampleSchema (by decide) sampleOps
    sampleOps_aligned
  refine ⟨(hread 3 false).trans ?_, (hread 5 false).trans ?_, hbytes.trans rfl⟩
  · rfl
  · rfl

end Sample

end Runs

/-! ## The blocks of rows -/

section Rows
variable {κ ρ : Type} (layout : Layout κ ρ) (partOf : κ → Nat)

/-- The dtype of the cells of a layout. -/
def cellDtypeOf : Dtype := ⟨"cells", layout.cellSize⟩

/-- Rows as the arrays that an append takes. -/
def Batch.ofRows (rows : List ρ) : Batch where
  partIds := rows.map fun x => (partOf (layout.cell x) : Int)
  cells := ⟨cellDtypeOf layout, rows.map fun x => layout.word (layout.cell x), fun _ h => by
    obtain ⟨x, -, rfl⟩ := List.mem_map.mp h
    exact layout.length_word _⟩
  cols := layout.cols.attach.map fun d =>
    (d.1.name, ⟨d.1, rows.map fun x => layout.item x d.1.name, fun _ h => by
      obtain ⟨x, -, rfl⟩ := List.mem_map.mp h
      exact layout.length_item x d.1 d.2⟩)

/-- The arrays of some rows, in the order they are written. -/
def rowArrays (rows : List ρ) : List (List Item) :=
  (rows.map fun x => layout.word (layout.cell x)) ::
    layout.cols.map fun d => rows.map fun x => layout.item x d.name

variable {layout} in
theorem segmentArrays_eq (rows : List ρ) :
    segmentArrays layout rows = (rowArrays layout rows).map List.flatten := by
  rw [segmentArrays, rowArrays, List.map_cons, List.map_map, List.flatMap_def]
  refine congrArg _ (List.map_congr_left fun d _ => ?_)
  exact List.flatMap_def ..

theorem arrays_ofRows (rows : List ρ) :
    (Batch.ofRows layout partOf rows).arrays = rowArrays layout rows := by
  rw [Batch.arrays, Batch.ofRows, rowArrays, List.map_map]
  refine congrArg _ ?_
  exact List.attach_map_val (f := fun d : Dtype => rows.map fun x => layout.item x d.name)

theorem schema_ofRows (rows : List ρ) :
    (Batch.ofRows layout partOf rows).schema = layout.cols.map fun d => (d.name, d) := by
  rw [Batch.schema, Batch.ofRows, List.map_map]
  exact List.attach_map_val (f := fun d : Dtype => (d.name, d))

theorem slice_rowArrays (rows : List ρ) (s e : Nat) :
    (rowArrays layout rows).map (fun a => slice a s e) = rowArrays layout (slice rows s e) := by
  rw [rowArrays, rowArrays, List.map_cons, List.map_map, slice_map]
  refine congrArg _ (List.map_congr_left fun d _ => ?_)
  exact slice_map ..

/-- One partition's file, by its rows and by its arrays. -/
structure SamePart (p : Spill.Partition ρ) (q : Partition) : Prop where
  bytes : q.file.bytes = p.file
  pos : q.file.pos = p.file.length
  segments : q.segments = p.segments
  nbytes : q.nbytes = p.nbytes

theorem samePart_empty : SamePart ({} : Spill.Partition ρ) {} := ⟨rfl, rfl, rfl, rfl⟩

variable {layout}

variable (layout) in
/-- A segment that is written whole. -/
theorem SamePart.writeSegment {p : Spill.Partition ρ} {q : Partition} (h : SamePart p q)
    (rows : List ρ) :
    (p.writeSegment layout rows none).2.ok = true ∧
      (p.writeSegment layout rows none).2.fault = none ∧
      (q.writeSegment (rowArrays layout rows)).2 = (p.writeSegment layout rows none).2.bytes.length ∧
      SamePart (p.writeSegment layout rows none).1 (q.writeSegment (rowArrays layout rows)).1 := by
  obtain ⟨hok, hdone⟩ := writeAll_spec (segmentArrays layout rows) none
  have hok := hok.mpr nofun
  obtain ⟨hbytes, hfault⟩ := hdone hok
  have hflat : (rowArrays layout rows).flatMap List.flatten = (segmentArrays layout rows).flatten := by
    rw [segmentArrays_eq, List.flatMap_def]
  have hlen : ((rowArrays layout rows).map fun a => a.flatten.length).sum =
      (segmentArrays layout rows).flatten.length := by
    rw [segmentArrays_eq, List.length_flatten, List.map_map]
    rfl
  have hend : q.file.pos = q.file.bytes.length := by rw [h.pos, h.bytes]
  have hrows : ((rowArrays layout rows).headD []).length = rows.length := List.length_map _
  unfold Spill.Partition.writeSegment Partition.writeSegment
  dsimp only
  rw [if_pos hok, hbytes, foldl_write hend, hflat, hlen, hrows]
  exact ⟨hok, hfault, rfl, by rw [h.bytes], by rw [h.bytes], by rw [h.segments], by rw [h.nbytes]⟩

/-- Partitions in creation order, with equal ids. -/
def SameParts (parts : List (Nat × Spill.Partition ρ)) (raw : List (Int × Partition)) : Prop :=
  List.Forall₂ (fun e e' => e'.1 = (e.1 : Int) ∧ SamePart e.2 e'.2) parts raw

theorem SameParts.lookup? {parts : List (Nat × Spill.Partition ρ)} {raw : List (Int × Partition)}
    (h : SameParts parts raw) (key : Nat) :
    Option.Rel SamePart (parts.lookup key) (raw.lookup (key : Int)) := by
  induction h with
  | nil => exact .none
  | @cons e e' _ _ he _ ih =>
    rw [List.lookup_cons, List.lookup_cons, he.1]
    by_cases hkey : key = e.1
    · rw [hkey, beq_self_eq_true, beq_self_eq_true]
      exact .some he.2
    · rw [beq_false_of_ne hkey, beq_false_of_ne fun hcast => hkey (Int.ofNat_inj.mp hcast)]
      exact ih

theorem SameParts.lookup {parts : List (Nat × Spill.Partition ρ)} {raw : List (Int × Partition)}
    (h : SameParts parts raw) (key : Nat) :
    SamePart ((parts.lookup key).getD {}) ((raw.lookup (key : Int)).getD {}) := by
  have hrel := h.lookup? key
  generalize parts.lookup key = p at hrel ⊢
  generalize raw.lookup (key : Int) = q at hrel ⊢
  cases hrel with
  | none => exact samePart_empty
  | some hpart => exact hpart

theorem SameParts.put {parts : List (Nat × Spill.Partition ρ)} {raw : List (Int × Partition)}
    (h : SameParts parts raw) (key : Nat) {p : Spill.Partition ρ} {q : Partition}
    (hpart : SamePart p q) : SameParts (putPartition key p parts) (put (key : Int) q raw) := by
  induction h with
  | nil => exact .cons ⟨rfl, hpart⟩ .nil
  | @cons e e' parts raw he hrest ih =>
    by_cases hkey : e.1 = key
    · rw [putPartition, if_pos hkey, Zagg.Lib.put, if_pos (he.1.trans (congrArg _ hkey))]
      exact .cons ⟨rfl, hpart⟩ hrest
    · rw [putPartition, if_neg hkey, Zagg.Lib.put,
        if_neg fun hcast => hkey (Int.ofNat_inj.mp (he.1.symm.trans hcast))]
      exact .cons he ih

variable (layout) in
/-- The segments of an append, run by run. -/
theorem SameParts.append {parts : List (Nat × Spill.Partition ρ)} {raw : List (Int × Partition)}
    (h : SameParts parts raw) (rows : List ρ) (rs : List (Nat × Nat × Nat)) (n : Nat) :
    let a := appendSegments layout (rs.map fun r => (r.1, slice rows r.2.1 r.2.2)) ⟨parts, n, none, true⟩
    let w := (rs.map fun r => ((r.1 : Int), r.2)).foldl (writeRun (rowArrays layout rows)) (raw, n)
    a.ok = true ∧ a.written = w.2 ∧ SameParts a.partitions w.1 := by
  induction rs generalizing parts raw n with
  | nil => exact ⟨rfl, rfl, h⟩
  | cons r rs ih =>
    obtain ⟨hok, hfault, hbytes, hpart⟩ := (h.lookup r.1).writeSegment layout
      (slice rows r.2.1 r.2.2)
    have hnext := ih (h.put r.1 hpart)
      (n + (((parts.lookup r.1).getD {}).writeSegment layout (slice rows r.2.1 r.2.2) none).2.bytes.length)
    simp only [List.map_cons, List.foldl_cons, appendSegments, if_true, hok, hfault]
    rw [writeRun, slice_rowArrays, hbytes]
    exact hnext

/-- One block, by its rows and by its arrays. -/
structure SameBlock (layout : Layout κ ρ) (b : Spill.SpillBlock ρ) (s : SpillBlock) : Prop where
  parts : SameParts b.partitions s.partitions
  bytes : s.bytesWritten = b.bytesWritten
  schema : s.schema = b.schema.map (List.map fun d => (d.name, d))
  cells : s.cellDtype = b.schema.map fun _ => cellDtypeOf layout
  pinned : ∀ cols ∈ b.schema, cols = layout.cols
  unpinned : b.schema = none → b.partitions = []

theorem sameBlock_start : SameBlock layout {} {} := ⟨.nil, rfl, rfl, rfl, nofun, fun _ => rfl⟩

theorem SameBlock.pin {b : Spill.SpillBlock ρ} {s : SpillBlock} (h : SameBlock layout b s)
    (rows : List ρ) :
    (s.pin (Batch.ofRows layout partOf rows)).partitions = s.partitions ∧
      (s.pin (Batch.ofRows layout partOf rows)).bytesWritten = s.bytesWritten ∧
      (s.pin (Batch.ofRows layout partOf rows)).schema = some (layout.cols.map fun d => (d.name, d)) ∧
      (s.pin (Batch.ofRows layout partOf rows)).cellDtype = some (cellDtypeOf layout) := by
  have hschema := h.schema
  have hcells := h.cells
  unfold SpillBlock.pin
  cases hb : b.schema with
  | none =>
    rw [hb, Option.map_none] at hschema
    rw [hschema]
    exact ⟨rfl, rfl, congrArg some (schema_ofRows layout partOf rows), rfl⟩
  | some cols =>
    obtain rfl := h.pinned cols hb
    rw [hb, Option.map_some] at hschema hcells
    rw [hschema]
    exact ⟨rfl, rfl, hschema, hcells⟩

/-- The append of rows is the append of their arrays. -/
theorem SameBlock.append {b : Spill.SpillBlock ρ} {s : SpillBlock} (h : SameBlock layout b s)
    (rows : List ρ) :
    (s.append (Batch.ofRows layout partOf rows)).2 = .ok (b.append layout partOf rows none).2.1 ∧
      SameBlock layout (b.append layout partOf rows none).1
        (s.append (Batch.ofRows layout partOf rows)).1 := by
  obtain ⟨hparts, hbytes, hschema, hcells⟩ := h.pin partOf rows
  have hor : b.schema.or (some layout.cols) = some layout.cols := by
    cases hb : b.schema with
    | none => rfl
    | some cols => exact congrArg some (h.pinned cols hb)
  have hids : runs (Batch.ofRows layout partOf rows).partIds =
      (runs (rows.map fun x => partOf (layout.cell x))).map fun r => ((r.1 : Int), r.2) := by
    rw [← runs_map (f := fun n : Nat => (n : Int)) fun _ _ => Int.ofNat_inj.mp, List.map_map]
    rfl
  have hdrift : ¬((s.pin (Batch.ofRows layout partOf rows)).schema ≠
        some (Batch.ofRows layout partOf rows).schema ∨
      (s.pin (Batch.ofRows layout partOf rows)).cellDtype ≠
        some (Batch.ofRows layout partOf rows).cells.dtype) := by
    rw [hschema, hcells, schema_ofRows]
    exact not_or.mpr ⟨not_not_intro rfl, not_not_intro rfl⟩
  have haligned : ¬((Batch.ofRows layout partOf rows).partIds.length ≠
        (Batch.ofRows layout partOf rows).cells.items.length ∨
      (Batch.ofRows layout partOf rows).cols.any (fun c => c.2.items.length ≠
        (Batch.ofRows layout partOf rows).cells.items.length) = true) := by
    simp [Batch.ofRows]
  obtain ⟨hok, hwritten, hsame⟩ := h.parts.append layout rows
    (runs (rows.map fun x => partOf (layout.cell x))) 0
  unfold SpillBlock.append Spill.SpillBlock.append segmentsOf
  simp only [if_neg hdrift, if_neg haligned, hok, if_true, hor, hids, arrays_ofRows, hparts, hbytes,
    hwritten]
  split_ifs with hnil
  · -- without a row nothing is written
    have hrows : rows = [] := List.map_eq_nil_iff.mp hnil
    subst hrows
    exact ⟨rfl, ⟨hparts ▸ h.parts, hbytes.trans h.bytes, hschema, hcells,
      fun cols hc => (Option.some.inj hc).symm, nofun⟩⟩
  · exact ⟨rfl, ⟨hsame, by rw [h.bytes], hschema, hcells, fun cols hc => (Option.some.inj hc).symm,
      nofun⟩⟩

theorem readInto_rest {itemsize n : Nat} {bytes : List UInt8} {r : List Item × List UInt8}
    (h : readInto itemsize n bytes = some r) : r.2 = bytes.drop (n * itemsize) := by
  induction n generalizing bytes r with
  | zero =>
    obtain rfl := Option.some.inj h
    rw [Nat.zero_mul, List.drop_zero]
  | succ n ih =>
    rw [readInto] at h
    split_ifs at h
    obtain ⟨r', hr', rfl⟩ := Option.map_eq_some_iff.mp h
    rw [ih hr', List.drop_drop, Nat.succ_mul, Nat.add_comm]

/-- The arrays of a segment are its columns, read on from the position. -/
theorem readArrays_eq (n : Nat) (ds : List Dtype) (f : File) :
    (readArrays n ds f = (readColumns n ds (f.bytes.drop f.pos)).map fun r =>
        (r.1, ⟨f.bytes, f.pos + n * (ds.map Dtype.itemsize).sum⟩)) ∧
      ∀ r ∈ readColumns n ds (f.bytes.drop f.pos),
        r.2 = f.bytes.drop (f.pos + n * (ds.map Dtype.itemsize).sum) := by
  induction ds generalizing f with
  | nil =>
    refine ⟨rfl, fun r hr => ?_⟩
    obtain rfl := Option.some.inj hr
    rfl
  | cons d ds ih =>
    rw [readArrays, readColumns, File.readItems]
    cases hread : readInto d.itemsize n (f.bytes.drop f.pos) with
    | none => exact ⟨rfl, fun r hr => by cases hr⟩
    | some r =>
      have hrest := readInto_rest hread
      rw [List.drop_drop] at hrest
      obtain ⟨hcols, hafter⟩ := ih ⟨f.bytes, f.pos + n * d.itemsize⟩
      have hsum : f.pos + n * ((d :: ds).map Dtype.itemsize).sum =
          f.pos + n * d.itemsize + n * (ds.map Dtype.itemsize).sum := by
        rw [List.map_cons, List.sum_cons, Nat.mul_add, Nat.add_assoc]
      simp only [Option.map_some, Option.bind_some, hcols, ← hrest, Option.map_map, hsum] at hafter ⊢
      refine ⟨rfl, fun r' hr' => ?_⟩
      obtain ⟨r'', hr'', rfl⟩ := Option.map_eq_some_iff.mp hr'
      exact hafter r'' hr''

variable (layout) in
theorem readSegments_eq (segments : List Nat) (f : File) :
    (readSegments (cellDtypeOf layout :: layout.cols) segments f).map (fun r => (r.1, r.2.bytes)) =
      (Spill.readSegments layout segments (f.bytes.drop f.pos)).map fun r => (r.1 :: r.2, f.bytes) := by
  induction segments generalizing f with
  | nil => rfl
  | cons n segments ih =>
    have hsize : (cellDtypeOf layout).itemsize = layout.cellSize := rfl
    obtain ⟨harrays, hafter⟩ := readArrays_eq n layout.cols ⟨f.bytes, f.pos + n * layout.cellSize⟩
    have hnext := ih ⟨f.bytes, f.pos + n * layout.cellSize + n * (layout.cols.map Dtype.itemsize).sum⟩
    dsimp only at harrays hafter hnext
    rw [readSegments, Spill.readSegments, readArrays, File.readItems, hsize]
    cases hread : readInto layout.cellSize n (f.bytes.drop f.pos) with
    | none => rfl
    | some cells =>
      have hrest := readInto_rest hread
      rw [List.drop_drop] at hrest
      rw [← hrest] at harrays hafter
      simp only [Option.map_some, Option.bind_some, harrays]
      cases hcols : readColumns n layout.cols cells.2 with
      | none => rfl
      | some cols =>
        rw [← hafter cols hcols] at hnext
        simp only [Option.map_some, Option.bind_some]
        cases hleft : readSegments (cellDtypeOf layout :: layout.cols) segments
            ⟨f.bytes, f.pos + n * layout.cellSize + n * (layout.cols.map Dtype.itemsize).sum⟩ with
        | none =>
          rw [hleft] at hnext
          rw [Option.map_none, Option.map_eq_none_iff.mp hnext.symm]
          rfl
        | some rest =>
          rw [hleft, Option.map_some] at hnext
          obtain ⟨rest', hrest', heq⟩ := Option.map_eq_some_iff.mp hnext.symm
          obtain ⟨harr, hbytes⟩ := Prod.mk.inj heq
          rw [Option.map_some, Option.map_some, hrest', Option.map_some, Option.map_some, ← harr, ← hbytes]
          rfl

/-- A partition reads back the same rows, and its file is left as it was. -/
theorem SamePart.read {p : Spill.Partition ρ} {q : Partition} (h : SamePart p q) :
    q.read (cellDtypeOf layout :: layout.cols) =
      (Spill.readSegments layout p.segments p.file).map fun r => (r.1 :: r.2, q) := by
  have hsegments := readSegments_eq layout q.segments ⟨q.file.bytes, 0⟩
  rw [List.drop_zero, h.segments, h.bytes] at hsegments
  have hfile : (⟨p.file, p.file.length⟩ : File) = q.file := by rw [← h.pos, ← h.bytes]
  rw [Partition.read, h.segments, h.bytes]
  cases hleft : readSegments (cellDtypeOf layout :: layout.cols) p.segments ⟨p.file, 0⟩ with
  | none =>
    rw [hleft] at hsegments
    rw [Option.map_eq_none_iff.mp hsegments.symm]
    rfl
  | some r =>
    rw [hleft, Option.map_some] at hsegments
    obtain ⟨r', hr', heq⟩ := Option.map_eq_some_iff.mp hsegments.symm
    obtain ⟨harr, hbytes⟩ := Prod.mk.inj heq
    rw [hr', Option.map_some, Option.map_some, ← harr, ← hbytes, hfile, ← h.segments]

/-- A partition of the block reads back as it does by its arrays. -/
theorem SameBlock.read {b : Spill.SpillBlock ρ} {s : SpillBlock} (h : SameBlock layout b s)
    (key : Nat) (close : Bool) :
    (s.readPartition key close).1.toOption.map (fun r => (r.1.map layout.unword, r.2)) =
      (b.partitions.lookup key).bind fun p => p.read layout := by
  have hlookup := h.parts.lookup? key
  have hschema := h.schema
  have hcells := h.cells
  unfold SpillBlock.readPartition
  cases hb : b.schema with
  | none =>
    rw [h.unpinned hb] at hlookup ⊢
    generalize s.partitions.lookup (key : Int) = q at hlookup ⊢
    cases hlookup
    rfl
  | some cols =>
    obtain rfl := h.pinned cols hb
    rw [hb, Option.map_some] at hschema hcells
    rw [hschema, hcells]
    generalize b.partitions.lookup key = p at hlookup ⊢
    generalize s.partitions.lookup (key : Int) = q at hlookup ⊢
    cases hlookup with
    | none => rfl
    | @some p q hsame =>
      have hdtypes : (layout.cols.map fun d => (d.name, d)).map Prod.snd = layout.cols := by
        rw [List.map_map]
        exact List.map_id _
      have hnames : (layout.cols.map fun d => (d.name, d)).map Prod.fst = layout.cols.map Dtype.name := by
        rw [List.map_map]
        rfl
      simp only [hdtypes, hnames, hsame.read, Option.bind_some, Spill.Partition.read]
      cases Spill.readSegments layout p.segments p.file <;> rfl

end Rows

end Zagg.Spill.Raw
