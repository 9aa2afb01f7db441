import Mathlib.Data.List.Dedup
import Mathlib.Data.List.Sort
import Mathlib.Data.Set.Basic
import Zagg.Lib.Dict
import Zagg.Lib.Masks
import Zagg.Lib.Ragged

/-!
# Shard assignment

A catalog's granules are assigned to the shards of an AOI. The mortie paths intersect
row-aligned footprint MOCs, or the MOCs of each granule's rings, in blocks, and regroup
the flat `(shard, record)` hits into a dictionary. Records are then decoded for the hit
rows only and the assignment renumbered onto them.
-/
namespace Zagg.Catalog

open Zagg.Lib

/-- A packed morton word. -/
abbrev Word := Nat

/-- A ragged array of words, as mortie takes and returns it: values and offsets. -/
abbrev RaggedWords := List Word × List Nat

/-- What the assignment calls in `mortie`. `V` is a vertex coordinate. -/
structure Mortie (V : Type) where
  compressMoc : List Word → List Word
  mocsIntersect : List Word → RaggedWords → List Bool
  mocsAnd : List Word → RaggedWords → Except String RaggedWords
  mocsToOrders : RaggedWords → Nat → Except String RaggedWords
  coverageMoc : List V → List V → Nat → Except String (List Word)
  polygonsToMocs : List V → List V → List Nat → Nat → Except String RaggedWords
  mocToOrder : List Word → Nat → Except String (List Word)

/-- The shard-to-records dictionary, in insertion order. -/
abbrev ShardRecords := List (Word × List Nat)

/-- `_first_of_run`: it indexes the first element, so an empty array raises. -/
def firstOfRun : List Nat → Option (List Bool)
  | [] => none
  | v :: vs => some (true :: List.zipWith (fun a b => decide (a ≠ b)) vs (v :: vs))

/-- `_regroup_hits`; `none` is the `IndexError` of an empty run. -/
def regroupHits (hitShards : List (List Word)) (hitOwners : List (List Nat)) :
    Option ShardRecords :=
  if hitShards = [] then some []
  else
    let srt := argsort hitShards.flatten
    let cand := gather hitShards.flatten srt
    let own := gather hitOwners.flatten srt
    (firstOfRun cand).bind fun mask =>
      let bounds := flatnonzero mask
      (bounds.zip (bounds.tail ++ [cand.length])).foldlM (fun out r =>
        let granules := slice own r.1 r.2
        (firstOfRun granules).map fun first =>
          put (cand.getD r.1 0) (select granules first) out) []

/-- `np.unique`. -/
def unique (l : List Nat) : List Nat := (l.insertionSort (· ≤ ·)).dedup

theorem mem_unique {l : List Nat} {x : Nat} : x ∈ unique l ↔ x ∈ l := by
  rw [unique, List.mem_dedup]
  exact (List.perm_insertionSort _ l).mem_iff

theorem pairwise_unique (l : List Nat) : (unique l).Pairwise (· < ·) := by
  have hle : (unique l).Pairwise (· ≤ ·) :=
    (List.pairwise_insertionSort (· ≤ ·) l).sublist (List.dedup_sublist _)
  have hnodup : (unique l).Pairwise (· ≠ ·) := List.nodup_dedup _
  exact (hle.and hnodup).imp fun h => Nat.lt_of_le_of_ne h.1 h.2

/-- An increasing list is determined by its members. -/
theorem eq_unique {l l' : List Nat} (hl : l'.Pairwise (· < ·)) (h : ∀ x, x ∈ l' ↔ x ∈ l) :
    l' = unique l := by
  have hperm : l'.Perm (unique l) := by
    refine (List.perm_ext_iff_of_nodup (hl.imp Nat.ne_of_lt) ?_).mpr fun x => ?_
    · exact (pairwise_unique l).imp Nat.ne_of_lt
    · rw [mem_unique, h x]
  exact hperm.eq_of_pairwise (fun _ _ _ _ h h' => absurd h (Nat.lt_asymm h')) hl (pairwise_unique l)

/-- `np.searchsorted(arr, x)` on a sorted array. -/
def searchsorted (arr : List Nat) (x : Nat) : Nat := arr.findIdx fun y => decide (x ≤ y)

section Assignment
variable {V : Type} (m : Mortie V) (parentOrder batch : Nat)

/-- The prefilter: one bool a table row. -/
def prefilter (aoiMoc : List Word) (values : List Word) (offsets : List Nat) : List Bool :=
  (steps (offsets.length - 1) batch).flatMap fun a =>
    let b := min (a + batch) (offsets.length - 1)
    let base := offsets.getD a 0
    m.mocsIntersect aoiMoc
      (slice values base (offsets.getD b 0), (slice offsets a (b + 1)).map (· - base))

/-- The remediation clause of a refusal: what an indexed build or a live cover can do. -/
def remedy (stored : Bool) : String :=
  if stored then "Re-index the catalog at a coarser order, or drop the footprint_cells column " ++
    "to build from geometry."
  else s!"This build covered the catalog itself -- there is no footprint_cells column to re-cut " ++
    s!"or drop, and the cover is flattened to the grid's parent_order {parentOrder} whatever " ++
    "order it ran at. The bound is one granule's AOI-clipped footprint densified at " ++
    s!"parent_order {parentOrder}: build against a grid with a coarser parent_order, or narrow " ++
    "or split the region so that footprint clips smaller."

def batchFailed (own : List Nat) (stored : Bool) (exc : String) : String :=
  (if stored then "footprint_cells" else "footprint cover") ++ " batch failed within records " ++
    s!"{own.headD 0}-{own.getLastD 0} (the MOC index in the message counts this block's " ++
    s!"{own.length} prefilter survivors inside that range, which are generally not contiguous " ++
    s!"records): {exc}. " ++ remedy parentOrder stored

/-- One block of prefilter survivors: their slots gathered, intersected and flattened to
shards, with their owners. -/
def blockHits (aoiMoc : List Word) (values : List Word) (offsets : List Nat) (stored : Bool)
    (own blk : List Nat) : Except String (Option (List Word × List Nat)) :=
  let starts := blk.map (offsets.getD · 0)
  let lens := List.zipWith (· - ·) (blk.map fun r => offsets.getD (r + 1) 0) starts
  let recOff := lens.scanl (· + ·) 0
  let idx := (raggedIndex starts lens).map Int.toNat
  match (m.mocsAnd aoiMoc (gather values idx, recOff)).bind fun hit =>
      m.mocsToOrders hit parentOrder with
  | .error exc => .error (batchFailed parentOrder own stored exc)
  | .ok (flat, flatOff) =>
    let owners := repeats own (List.zipWith (· - ·) flatOff.tail flatOff)
    .ok (if flat = [] then none else some (flat, owners))

def intersectFootprintCells (rows : List Nat) (values : List Word) (offsets : List Nat)
    (allShards : List Word) (stored : Bool) : Except String ShardRecords :=
  if rows = [] ∨ allShards = [] then .ok []
  else
    let aoiMoc := m.compressMoc (allShards.insertionSort (· ≤ ·))
    let hits := prefilter m batch aoiMoc values offsets
    let surv := flatnonzero (rows.map (hits.getD · false))
    if surv = [] then .ok []
    else
      let survRows := surv.map (rows.getD · 0)
      ((steps survRows.length batch).mapM fun start =>
        blockHits m parentOrder aoiMoc values offsets stored (slice surv start (start + batch))
          (slice survRows start (start + batch))).bind fun blocks =>
        let kept := blocks.filterMap id
        match regroupHits (kept.map Prod.fst) (kept.map Prod.snd) with
        | none => .error "index 0 is out of bounds for axis 0 with size 0"
        | some out => .ok out

/-- A ring's latitudes and longitudes. -/
abbrev Ring (V : Type) := List V × List V

/-- Rings mortie would reject: too short, of unequal lengths, or not finite. -/
def accepted (finite : V → Bool) (ring : Ring V) : Bool :=
  !(decide (ring.1.length ≠ ring.2.length) || decide (ring.1.length < 3)) &&
    (ring.1.all finite && ring.2.all finite)

/-- `_flatten_rings`: the accepted rings of every record with the record's index. -/
def flattenRings {R : Type} (footprints : R → List (Ring V)) (finite : V → Bool)
    (records : List R) : Option (List V × List V × List Nat × List Nat) :=
  let kept := records.zipIdx.flatMap fun r =>
    ((footprints r.1).filter (accepted finite)).map fun ring => (ring, r.2)
  if kept = [] then none
  else some ((kept.map fun k => k.1.1).flatten, (kept.map fun k => k.1.2).flatten,
    (kept.map fun k => k.1.1.length).scanl (· + ·) 0, kept.map Prod.snd)

/-- `_batch_ring_mocs`: one batch call, or ring by ring when it raises. -/
def batchRingMocs (order : Nat) (lats lons : List V) (offsets : List Nat) (start stop : Nat) :
    List (List Word) :=
  let lo := offsets.getD start 0
  let hi := offsets.getD stop 0
  match m.polygonsToMocs (slice lats lo hi) (slice lons lo hi)
      ((slice offsets start (stop + 1)).map (· - lo)) order with
  | .ok (values, outOffsets) => (List.range (stop - start)).map fun r =>
    slice values (outOffsets.getD r 0) (outOffsets.getD (r + 1) 0)
  | .error _ => (List.range' start (stop - start)).map fun r =>
    let a := offsets.getD r 0
    let b := offsets.getD (r + 1) 0
    match m.coverageMoc (slice lats a b) (slice lons a b) order with
    | .ok moc => moc
    | .error _ => []

/-- One ring's shards in the AOI. A refused refinement drops the ring. -/
def ringShards (shardArr : List Word) (moc : List Word) : List Word :=
  if moc = [] then []
  else
    match m.mocToOrder moc parentOrder with
    | .error _ => []
    | .ok cells => (unique cells).filter fun c =>
      shardArr.getD (min (searchsorted shardArr c) (shardArr.length - 1)) 0 == c

/-- `_intersect_mortie` on a HEALPix grid; `none` is `_regroup_hits`' `IndexError`. -/
def intersectMortie {R : Type} (footprints : R → List (Ring V)) (finite : V → Bool) (order : Nat)
    (records : List R) (allShards : List Word) : Option ShardRecords :=
  match flattenRings footprints finite records with
  | none => some []
  | some (lats, lons, offsets, owners) =>
    if allShards = [] then some []
    else
      let shardArr := allShards.insertionSort (· ≤ ·)
      let kept := (steps owners.length batch).flatMap fun start =>
        let stop := min (start + batch) owners.length
        (batchRingMocs m order lats lons offsets start stop).zipIdx.filterMap fun r =>
          let kept := ringShards m parentOrder shardArr r.1
          if kept = [] then none
          else some (kept, List.replicate kept.length (owners.getD (start + r.2) 0))
      regroupHits (kept.map Prod.fst) (kept.map Prod.snd)

end Assignment

section Records
variable {R Q : Type}

/-- `granule_records`: rows without a polygon are skipped. -/
def granuleRecords (decode : R → Option Q) (table : List R) : List Q := table.filterMap decode

def granuleRowMask (decode : R → Option Q) (table : List R) : List Bool :=
  table.map fun row => (decode row).isSome

def hitRecords (decode : R → Option Q) (table : List R) (rows : List Nat) (shardToIdx : ShardRecords) :
    Except String (List Q × ShardRecords) :=
  if shardToIdx = [] then .ok ([], shardToIdx)
  else
    let hits := unique (shardToIdx.map Prod.snd).flatten
    let records := granuleRecords decode (gather table (hits.map (rows.getD · 0)))
    if records.length ≠ hits.length then
      .error (s!"footprint_cells row screen and granule_records disagree: {hits.length} rows " ++
        s!"taken yielded {records.length} records. Drop the footprint_cells column to build " ++
        "from geometry, and report this (issue #439).")
    else .ok (records, shardToIdx.map fun e => (e.1, e.2.map fun i => hits.idxOf i))

end Records
end Zagg.Catalog
