import Zagg.Processing.Grouping

/-!
# Spill blocks

A block keeps one append file per partition. A flush cuts its sorted rows at the
partition borders; each segment is written as the cell words followed by one raw
column after the other, and only its row count is kept in memory. `read` walks the
counts and slices the bytes again, so it returns the rows as long as the file is
exactly the segments the counts describe (`read_clean`).
-/
namespace Zagg.Spill

open Zagg.Lib Zagg.Processing

/-- A numpy dtype as the byte stream sees it. -/
structure Dtype where
  name : String
  itemsize : Nat
deriving DecidableEq

instance neZeroWord : NeZero (2 ^ 64) := ⟨by decide⟩

/-- One array element in its raw bytes. -/
abbrev Item := List UInt8

/-- The one column schema of a run's reads, and the cell word of an observation. -/
structure Layout (κ ρ : Type) where
  cols : List Dtype
  cellSize : Nat
  word : κ → Item
  unword : Item → κ
  cell : ρ → κ
  item : ρ → String → Item
  length_word : ∀ c, (word c).length = cellSize
  unword_word : ∀ c, unword (word c) = c
  length_item : ∀ x, ∀ d ∈ cols, (item x d.name).length = d.itemsize

/-- A `_Partition`. `rows` is ghost: the rows of the segments whose count was recorded. -/
structure Partition (ρ : Type) where
  file : List UInt8 := []
  segments : List Nat := []
  nbytes : Nat := 0
  rows : List ρ := []

/-- One file write raises `OSError`: the writes before it succeed, and `landed` of its
bytes reach the file. -/
structure Fault where
  before : Nat
  landed : Nat
deriving DecidableEq

/-- What a sequence of writes left in the file, and whether it ran to the end. -/
structure Written where
  bytes : List UInt8
  fault : Option Fault
  ok : Bool

def writeAll : List (List UInt8) → Option Fault → Written
  | [], f => ⟨[], f, true⟩
  | b :: bs, none =>
    let w := writeAll bs none
    ⟨b ++ w.bytes, w.fault, w.ok⟩
  | b :: _, some ⟨0, landed⟩ => ⟨b.take landed, none, false⟩
  | b :: bs, some ⟨before + 1, landed⟩ =>
    let w := writeAll bs (some ⟨before, landed⟩)
    ⟨b ++ w.bytes, w.fault, w.ok⟩

/-- `f.readinto` of `n` elements, or a short read. -/
def readInto (itemsize : Nat) : Nat → List UInt8 → Option (List Item × List UInt8)
  | 0, bytes => some ([], bytes)
  | n + 1, bytes =>
    if bytes.length < itemsize then none
    else (readInto itemsize n (bytes.drop itemsize)).map fun r =>
      (bytes.take itemsize :: r.1, r.2)

/-- The columns of one segment, in schema order. -/
def readColumns (n : Nat) : List Dtype → List UInt8 → Option (List (List Item) × List UInt8)
  | [], bytes => some ([], bytes)
  | d :: ds, bytes =>
    (readInto d.itemsize n bytes).bind fun r =>
      (readColumns n ds r.2).map fun rs => (r.1 :: rs.1, rs.2)

variable {κ ρ : Type} (layout : Layout κ ρ)

/-- The arrays of one segment as bytes: cells, then each column. -/
def segmentArrays (rows : List ρ) : List (List UInt8) :=
  rows.flatMap (fun x => layout.word (layout.cell x)) ::
    layout.cols.map fun d => rows.flatMap fun x => layout.item x d.name

/-- `write_segment`: the count is recorded after the last write. -/
def Partition.writeSegment (p : Partition ρ) (rows : List ρ) (f : Option Fault) :
    Partition ρ × Written :=
  let w := writeAll (segmentArrays layout rows) f
  if w.ok then
    (⟨p.file ++ w.bytes, p.segments ++ [rows.length], p.nbytes + w.bytes.length, p.rows ++ rows⟩, w)
  else ({ p with file := p.file ++ w.bytes }, w)

/-- The body of `read`: `off` advances by whole segments. -/
def readSegments : List Nat → List UInt8 → Option (List Item × List (List Item))
  | [], _ => some ([], layout.cols.map fun _ => [])
  | n :: ns, bytes =>
    (readInto layout.cellSize n bytes).bind fun cells =>
      (readColumns n layout.cols cells.2).bind fun cols =>
        (readSegments ns cols.2).map fun rest =>
          (cells.1 ++ rest.1, List.zipWith (· ++ ·) cols.1 rest.2)

/-- `read`: the cells and the named columns, or `OSError` on a short read. -/
def Partition.read (p : Partition ρ) : Option (List κ × Columns Item) :=
  (readSegments layout p.segments p.file).map fun r =>
    (r.1.map layout.unword, (layout.cols.map Dtype.name).zip r.2)

/-- A `SpillBlock`: its partitions in creation order, and the schema the first append pins. -/
structure SpillBlock (ρ : Type) where
  partitions : List (Nat × Partition ρ) := []
  schema : Option (List Dtype) := none
  bytesWritten : Nat := 0

/-- `self._partitions[key] = part`. -/
def putPartition (key : Nat) (p : Partition ρ) : List (Nat × Partition ρ) → List (Nat × Partition ρ)
  | [] => [(key, p)]
  | e :: parts => if e.1 = key then (key, p) :: parts else e :: putPartition key p parts

/-- Where an append stands: what it left, the bytes it counted, and whether it raised. -/
structure Appended (ρ : Type) where
  partitions : List (Nat × Partition ρ)
  written : Nat
  fault : Option Fault
  ok : Bool

def appendSegments : List (Nat × List ρ) → Appended ρ → Appended ρ
  | [], a => a
  | (key, rows) :: segs, a =>
    if a.ok then
      let part := (a.partitions.lookup key).getD {}
      let (part', w) := part.writeSegment layout rows a.fault
      appendSegments segs
        ⟨putPartition key part' a.partitions, a.written + w.bytes.length, w.fault, w.ok⟩
    else a

/-- One segment per maximal run of one partition id. -/
def segmentsOf (partOf : κ → Nat) (rows : List ρ) : List (Nat × List ρ) :=
  (runs (rows.map fun x => partOf (layout.cell x))).map fun r => (r.1, slice rows r.2.1 r.2.2)

/-- `append`: the block, the bytes written, and whether it raised. A raise leaves the
bytes that landed and skips the block's own count. -/
def SpillBlock.append (partOf : κ → Nat) (b : SpillBlock ρ) (rows : List ρ) (f : Option Fault) :
    SpillBlock ρ × Nat × Bool :=
  let a := appendSegments layout (segmentsOf layout partOf rows) ⟨b.partitions, 0, f, true⟩
  let schema := b.schema.or (some layout.cols)
  if a.ok then (⟨a.partitions, schema, b.bytesWritten + a.written⟩, a.written, true)
  else (⟨a.partitions, schema, b.bytesWritten⟩, a.written, false)

section Writes
variable {layout}

/-- A fault lies beyond the writes that are made. -/
def Beyond (n : Nat) (f : Option Fault) : Prop := ∀ g, f = some g → n ≤ g.before

instance (n : Nat) (f : Option Fault) : Decidable (Beyond n f) :=
  match f with
  | none => .isTrue fun _ h => nomatch h
  | some g => decidable_of_iff (n ≤ g.before) ⟨fun h _ he => Option.some.inj he ▸ h, fun h => h g rfl⟩

/-- The fault that is left once `n` writes are made. -/
def later (n : Nat) (f : Option Fault) : Option Fault :=
  f.map fun g => ⟨g.before - n, g.landed⟩

theorem writeAll_spec (bs : List (List UInt8)) (f : Option Fault) :
    ((writeAll bs f).ok = true ↔ Beyond bs.length f) ∧
      ((writeAll bs f).ok = true →
        (writeAll bs f).bytes = bs.flatten ∧ (writeAll bs f).fault = later bs.length f) := by
  induction bs generalizing f with
  | nil =>
    refine ⟨iff_of_true rfl fun _ _ => Nat.zero_le _, fun _ => ⟨rfl, ?_⟩⟩
    cases f <;> rfl
  | cons b bs ih =>
    match f with
    | none =>
      obtain ⟨h1, h2⟩ := ih none
      refine ⟨iff_of_true (h1.mpr nofun) nofun, fun h => ?_⟩
      obtain ⟨hb, -⟩ := h2 h
      exact ⟨congrArg (b ++ ·) hb, (h2 h).2⟩
    | some ⟨0, landed⟩ =>
      refine ⟨iff_of_false nofun fun h => ?_, nofun⟩
      exact absurd (h _ rfl) (by simp)
    | some ⟨before + 1, landed⟩ =>
      obtain ⟨h1, h2⟩ := ih (some ⟨before, landed⟩)
      refine ⟨h1.trans ⟨fun h g hg => ?_, fun h g hg => ?_⟩, fun h => ?_⟩
      · obtain rfl := Option.some.inj hg
        exact Nat.succ_le_succ (h _ rfl)
      · obtain rfl := Option.some.inj hg
        exact Nat.le_of_succ_le_succ (h _ rfl)
      · obtain ⟨hb, hf⟩ := h2 h
        refine ⟨congrArg (b ++ ·) hb, hf.trans ?_⟩
        simp only [later, Option.map_some, List.length_cons, Nat.add_sub_add_right]

theorem length_segmentArrays (rows : List ρ) :
    (segmentArrays layout rows).length = layout.cols.length + 1 := by
  simp only [segmentArrays, List.length_cons, List.length_map]

theorem readInto_encode {itemsize : Nat} (enc : ρ → Item) (rows : List ρ)
    (h : ∀ x ∈ rows, (enc x).length = itemsize) (rest : List UInt8) :
    readInto itemsize rows.length (rows.flatMap enc ++ rest) = some (rows.map enc, rest) := by
  induction rows with
  | nil => rfl
  | cons x rows ih =>
    have hx := h x (.head _)
    have hlen : ¬ ((x :: rows).flatMap enc ++ rest).length < itemsize := by
      rw [List.flatMap_cons, List.length_append, List.length_append, hx]
      omega
    rw [List.length_cons, readInto, if_neg hlen, List.flatMap_cons, List.append_assoc,
      List.drop_left' hx, List.take_left' hx, ih fun y hy => h y (.tail _ hy)]
    rfl

theorem readColumns_encode (rows : List ρ) (item : ρ → String → Item) (ds : List Dtype)
    (h : ∀ x, ∀ d ∈ ds, (item x d.name).length = d.itemsize) (rest : List UInt8) :
    readColumns rows.length ds
        ((ds.map fun d => rows.flatMap fun x => item x d.name).flatten ++ rest) =
      some (ds.map fun d => rows.map fun x => item x d.name, rest) := by
  induction ds with
  | nil => rfl
  | cons d ds ih =>
    rw [readColumns, List.map_cons, List.flatten_cons, List.append_assoc,
      readInto_encode (fun x => item x d.name) rows fun x _ => h x d (.head _)]
    simp only [Option.bind_some]
    rw [ih fun x d' hd => h x d' (.tail _ hd)]
    rfl

/-- A file that is exactly the segments its counts describe. -/
def Partition.Clean (layout : Layout κ ρ) (p : Partition ρ) : Prop :=
  ∃ segs : List (List ρ), p.file = segs.flatMap (fun s => (segmentArrays layout s).flatten) ∧
    p.segments = segs.map List.length ∧ p.rows = segs.flatten

theorem readSegments_encode (segs : List (List ρ)) :
    readSegments layout (segs.map List.length)
        (segs.flatMap fun s => (segmentArrays layout s).flatten) =
      some (segs.flatten.map (fun x => layout.word (layout.cell x)),
        layout.cols.map fun d => segs.flatten.map fun x => layout.item x d.name) := by
  induction segs with
  | nil => rfl
  | cons s segs ih =>
    have hcells := readInto_encode (fun x => layout.word (layout.cell x)) s
      (fun x _ => layout.length_word (layout.cell x))
      ((layout.cols.map fun d => s.flatMap fun x => layout.item x d.name).flatten ++
        segs.flatMap fun s => (segmentArrays layout s).flatten)
    rw [List.map_cons, readSegments, List.flatMap_cons, segmentArrays, List.flatten_cons,
      List.append_assoc, hcells, Option.bind_some,
      readColumns_encode s layout.item layout.cols layout.length_item, Option.bind_some, ih]
    simp only [Option.map_some, List.flatten_cons, List.map_append, List.zipWith_map,
      List.zipWith_self]

/-- A clean partition reads back its rows, every column aligned. -/
theorem read_clean {p : Partition ρ} (h : p.Clean layout) :
    p.read layout = some (p.rows.map layout.cell,
      table (layout.cols.map Dtype.name) layout.item p.rows) := by
  obtain ⟨segs, hfile, hsegs, hrows⟩ := h
  unfold Partition.read
  rw [hfile, hsegs, readSegments_encode, Option.map_some, hrows, List.map_map]
  congr 2
  · exact List.map_congr_left fun x _ => layout.unword_word (layout.cell x)
  · unfold table
    rw [List.zip_map', List.map_map]
    rfl

theorem clean_empty : ({} : Partition ρ).Clean layout := ⟨[], rfl, rfl, rfl⟩

theorem clean_append {p : Partition ρ} (h : p.Clean layout) (rows : List ρ) (nbytes : Nat) :
    Partition.Clean layout ⟨p.file ++ (segmentArrays layout rows).flatten,
      p.segments ++ [rows.length], nbytes, p.rows ++ rows⟩ := by
  obtain ⟨segs, hfile, hsegs, hrows⟩ := h
  refine ⟨segs ++ [rows], ?_, ?_, ?_⟩
  · rw [hfile, List.flatMap_append, List.flatMap_singleton]
  · rw [hsegs, List.map_append]
    rfl
  · rw [hrows, List.flatten_append, List.flatten_singleton]

/-- The rows that can be read back. -/
def rowsIn (parts : List (Nat × Partition ρ)) : List ρ := parts.flatMap fun e => e.2.rows

theorem mem_putPartition {key : Nat} {p : Partition ρ} {parts : List (Nat × Partition ρ)}
    {e : Nat × Partition ρ} (h : e ∈ putPartition key p parts) : e = (key, p) ∨ e ∈ parts := by
  induction parts with
  | nil => exact .inl (List.mem_singleton.mp h)
  | cons e' parts ih =>
    unfold putPartition at h
    split_ifs at h
    · exact (List.mem_cons.mp h).imp_right (.tail _)
    · rcases List.mem_cons.mp h with rfl | h
      · exact .inr (.head _)
      · exact (ih h).imp_right (.tail _)

/-- Storing an extended partition extends the rows of the block. -/
theorem rowsIn_put (key : Nat) (p : Partition ρ) (parts : List (Nat × Partition ρ)) (ext : List ρ)
    (h : p.rows = ((parts.lookup key).getD {}).rows ++ ext) :
    (rowsIn (putPartition key p parts)).Perm (rowsIn parts ++ ext) := by
  induction parts with
  | nil =>
    rw [putPartition, rowsIn, List.flatMap_singleton, h]
    exact .refl _
  | cons e parts ih =>
    unfold putPartition
    split_ifs with he
    · rw [List.lookup_cons, he, beq_self_eq_true] at h
      have hp : p.rows = e.2.rows ++ ext := h
      rw [rowsIn, rowsIn, List.flatMap_cons, List.flatMap_cons, hp, List.append_assoc,
        List.append_assoc]
      exact (List.perm_append_comm).append_left _
    · rw [List.lookup_cons, beq_false_of_ne (Ne.symm he)] at h
      rw [rowsIn, rowsIn, List.flatMap_cons, List.flatMap_cons, List.append_assoc]
      exact (ih h).append_left _

theorem clean_lookup {parts : List (Nat × Partition ρ)} (h : ∀ e ∈ parts, e.2.Clean layout)
    (key : Nat) : ((parts.lookup key).getD {}).Clean layout := by
  cases hk : parts.lookup key with
  | none => exact clean_empty
  | some p =>
    obtain ⟨l₁, l₂, rfl, -⟩ := List.lookup_eq_some_iff.mp hk
    exact h (key, p) (List.mem_append_right _ (.head _))

theorem beyond_add {m n : Nat} {f : Option Fault} :
    Beyond (m + n) f ↔ Beyond m f ∧ Beyond n (later m f) := by
  cases f with
  | none => exact iff_of_true nofun ⟨nofun, nofun⟩
  | some g =>
    constructor
    · intro h
      have hg := h g rfl
      refine ⟨fun g' he => ?_, fun g' he => ?_⟩
      · obtain rfl := Option.some.inj he
        omega
      · obtain rfl := Option.some.inj he
        show n ≤ g.before - m
        omega
    · rintro ⟨h1, h2⟩ g' he
      obtain rfl := Option.some.inj he
      have h1 := h1 g rfl
      have h2 : n ≤ g.before - m := h2 _ rfl
      omega

theorem writeSegment_ok {p : Partition ρ} {rows : List ρ} {f : Option Fault} :
    (p.writeSegment layout rows f).2.ok = true ↔ Beyond (layout.cols.length + 1) f := by
  have h := (writeAll_spec (segmentArrays layout rows) f).1
  rw [length_segmentArrays] at h
  unfold Partition.writeSegment
  dsimp only
  split_ifs <;> exact h

/-- A segment that is written extends the partition by its rows, cleanly. -/
theorem writeSegment_done {p : Partition ρ} {rows : List ρ} {f : Option Fault}
    (h : (p.writeSegment layout rows f).2.ok = true) :
    (p.writeSegment layout rows f).1.rows = p.rows ++ rows ∧
      (p.Clean layout → (p.writeSegment layout rows f).1.Clean layout) ∧
      (p.writeSegment layout rows f).2.fault = later (layout.cols.length + 1) f := by
  have hw := writeSegment_ok.mp h
  have hspec := writeAll_spec (segmentArrays layout rows) f
  rw [length_segmentArrays] at hspec
  have hok := hspec.1.mpr hw
  obtain ⟨hb, hf⟩ := hspec.2 hok
  unfold Partition.writeSegment
  rw [if_pos hok]
  refine ⟨rfl, fun hc => ?_, hf⟩
  rw [hb]
  exact clean_append hc rows _

/-- A segment whose write raises leaves the recorded rows as they were. -/
theorem writeSegment_raised {p : Partition ρ} {rows : List ρ} {f : Option Fault}
    (h : ¬ (p.writeSegment layout rows f).2.ok = true) :
    (p.writeSegment layout rows f).1.rows = p.rows := by
  unfold Partition.writeSegment at h ⊢
  dsimp only at h ⊢
  split_ifs at h ⊢ with hok
  · exact absurd hok h
  · rfl

theorem appendSegments_raised (segs : List (Nat × List ρ)) {a : Appended ρ} (h : ¬ a.ok = true) :
    appendSegments layout segs a = a := by
  cases segs with
  | nil => rfl
  | cons seg segs => rw [appendSegments, if_neg h]

/-- An append succeeds when the fault lies beyond its writes; then the block gains
exactly the segments' rows, else it gains fewer. -/
theorem appendSegments_spec (layout : Layout κ ρ) (segs : List (Nat × List ρ)) {a : Appended ρ} (ha : a.ok = true) :
    ((appendSegments layout segs a).ok = true ↔
      Beyond (segs.length * (layout.cols.length + 1)) a.fault) ∧
    ((appendSegments layout segs a).ok = true →
      (rowsIn (appendSegments layout segs a).partitions).Perm
        (rowsIn a.partitions ++ segs.flatMap Prod.snd) ∧
      ((∀ e ∈ a.partitions, e.2.Clean layout) →
        ∀ e ∈ (appendSegments layout segs a).partitions, e.2.Clean layout)) ∧
    (¬ (appendSegments layout segs a).ok = true → (∀ seg ∈ segs, seg.2 ≠ []) →
      (rowsIn (appendSegments layout segs a).partitions).length <
        (rowsIn a.partitions).length + (segs.flatMap Prod.snd).length) := by
  induction segs generalizing a with
  | nil =>
    refine ⟨iff_of_true ha fun _ _ => ?_, fun _ => ⟨?_, fun h => h⟩, fun h => absurd ha h⟩
    · rw [List.length_nil, Nat.zero_mul]
      exact Nat.zero_le _
    · rw [List.flatMap_nil, List.append_nil]
      exact .refl _
  | cons seg segs ih =>
    obtain ⟨key, rows⟩ := seg
    rw [appendSegments, if_pos ha]
    set part := (a.partitions.lookup key).getD {} with hpart
    set w := part.writeSegment layout rows a.fault with hw
    dsimp only
    have hmul : ((key, rows) :: segs).length * (layout.cols.length + 1) =
        layout.cols.length + 1 + segs.length * (layout.cols.length + 1) := by
      rw [List.length_cons, Nat.add_mul, Nat.one_mul, Nat.add_comm]
    rw [hmul, beyond_add]
    by_cases hok : w.2.ok = true
    · obtain ⟨hrows, hclean, hfault⟩ := writeSegment_done hok
      have hput := rowsIn_put key w.1 a.partitions rows hrows
      obtain ⟨h1, h2, h3⟩ := ih
        (a := ⟨putPartition key w.1 a.partitions, a.written + w.2.bytes.length, w.2.fault, w.2.ok⟩) hok
      refine ⟨?_, fun hdone => ?_, fun hfail hne => ?_⟩
      · rw [h1, and_iff_right (writeSegment_ok.mp hok)]
        exact iff_of_eq (congrArg _ hfault)
      · obtain ⟨hp, hc⟩ := h2 hdone
        refine ⟨?_, fun hall => hc fun e he => ?_⟩
        · rw [List.flatMap_cons, ← List.append_assoc]
          exact hp.trans (hput.append_right _)
        · rcases mem_putPartition he with rfl | he
          · exact hclean (clean_lookup hall key)
          · exact hall e he
      · have hlt := h3 hfail fun s hs => hne s (.tail _ hs)
        have hlen := hput.length_eq
        rw [List.length_append] at hlen
        rw [List.flatMap_cons, List.length_append]
        refine hlt.trans_eq ?_
        show (rowsIn (putPartition key w.1 a.partitions)).length + _ =
          (rowsIn a.partitions).length + (rows.length + _)
        omega
    · have hrows := writeSegment_raised hok
      have hput := rowsIn_put key w.1 a.partitions []
        (hrows.trans (List.append_nil _).symm)
      rw [appendSegments_raised (a := ⟨_, _, _, w.2.ok⟩) segs hok]
      refine ⟨iff_of_false hok fun h => hok (writeSegment_ok.mpr h.1), fun h => absurd h hok,
        fun _ hne => ?_⟩
      have hpos : 0 < rows.length := List.length_pos_iff.mpr (hne _ (.head _))
      have hlen := hput.length_eq
      rw [List.append_nil] at hlen
      rw [List.flatMap_cons, List.length_append]
      refine hlen.trans_lt ?_
      show (rowsIn a.partitions).length < (rowsIn a.partitions).length + (rows.length + _)
      omega

theorem segmentsOf_flatten (partOf : κ → Nat) (rows : List ρ) :
    (segmentsOf layout partOf rows).flatMap Prod.snd = rows := by
  rw [segmentsOf, List.flatMap_map]
  exact flatMap_slice_runs _ _ (List.length_map _).symm

theorem segmentsOf_ne_nil (partOf : κ → Nat) (rows : List ρ) :
    ∀ seg ∈ segmentsOf layout partOf rows, seg.2 ≠ [] := by
  intro seg hs
  obtain ⟨r, hr, rfl⟩ := List.mem_map.mp hs
  obtain ⟨h1, h2, -⟩ := run_spec hr
  rw [List.length_map] at h2
  intro hnil
  have hnil : slice rows r.2.1 r.2.2 = [] := hnil
  have hlen := length_slice (s := r.2.1) h2
  rw [hnil, List.length_nil] at hlen
  omega

/-- `append` on a block: it returns when the fault lies beyond its writes, and then the
block gains exactly the rows. -/
theorem append_spec (layout : Layout κ ρ) (partOf : κ → Nat) (b : SpillBlock ρ) (rows : List ρ) (f : Option Fault) :
    ((b.append layout partOf rows f).2.2 = true ↔
      Beyond ((segmentsOf layout partOf rows).length * (layout.cols.length + 1)) f) ∧
    ((b.append layout partOf rows f).2.2 = true →
      (rowsIn (b.append layout partOf rows f).1.partitions).Perm (rowsIn b.partitions ++ rows) ∧
      ((∀ e ∈ b.partitions, e.2.Clean layout) →
        ∀ e ∈ (b.append layout partOf rows f).1.partitions, e.2.Clean layout)) ∧
    (¬ (b.append layout partOf rows f).2.2 = true →
      (rowsIn (b.append layout partOf rows f).1.partitions).length <
        (rowsIn b.partitions).length + rows.length) := by
  obtain ⟨h1, h2, h3⟩ := appendSegments_spec layout (segmentsOf layout partOf rows)
    (a := ⟨b.partitions, 0, f, true⟩) rfl
  rw [segmentsOf_flatten] at h2 h3
  unfold SpillBlock.append
  dsimp only
  split_ifs with hok
  · exact ⟨iff_of_true rfl (h1.mp hok), fun _ => h2 hok, fun h => absurd rfl h⟩
  · exact ⟨iff_of_false nofun fun h => hok (h1.mpr h), nofun,
      fun _ => h3 hok (segmentsOf_ne_nil partOf rows)⟩

end Writes
end Zagg.Spill
