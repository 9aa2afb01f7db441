import Mathlib.Data.Finset.Dedup
import Zagg.Catalog.ShardMap
import Zagg.Dedup.GranuleIds
import Zagg.Lib.Collapse
import Zagg.Lib.Collect

/-!
# Shard maps at another order

A shard map lists the granules of each shard. At a coarser order the shards of one parent are
merged and their granules united: the entry listed last stands at the place of the first. A map
in which two granules of one shard are recorded under one id is refused.
-/
namespace Zagg.Catalog

open Zagg.Lib
open Zagg.Dedup (GranuleId basename rstripSlash)

abbrev Text := List Char

/-- One granule of a shard; `extra` is what a derived map drops. -/
structure ShardEntry where
  id : Option Text
  s3 : Option Text
  https : Option Text
  assets : Option Json
  datetime : Option Text
  timeKey : Option Text
  timeStart : Option Text
  timeEnd : Option Text
  extra : List (String × Json)

/-- A granule of the catalog: the fields of an entry, and the ring of its footprint. -/
structure CatalogRecord (V : Type) extends ShardEntry where
  lats : List V
  lons : List V

/-- Shards with their granules. -/
abbrev Shards := List (Word × List ShardEntry)

/-- `_granule_entry`. -/
def granuleEntry (g : ShardEntry) : ShardEntry := { g with extra := [] }

section Identity

/-- `a or b`. -/
def orText (a b : Option Text) : Option Text := if a.getD [] = [] then b else a

/-- What separates one granule from another. -/
structure Distinguishing where
  id : Option Text
  s3 : Option Text
  https : Option Text
  datetime : Option Text
deriving DecidableEq

def distinguishing (e : ShardEntry) : Distinguishing := ⟨e.id, e.s3, e.https, e.datetime⟩

/-- What an entry is named by: its hrefs, else its id, else its datetime. -/
def spellings (e : ShardEntry) : List (String × Option Text) :=
  if e.s3.getD [] = [] ∧ e.https.getD [] = [] then [("id", orText e.id e.datetime)]
  else [("s3", e.s3), ("https", e.https)]

/-- `canonical_granule_id` of a text, and nothing of no text. -/
def canonicalText (named : Option Text) : GranuleId :=
  if named.getD [] = [] then [] else basename (rstripSlash (named.getD []))

def canonicals (e : ShardEntry) : List (String × GranuleId) :=
  ((spellings e).map fun n => (n.1, canonicalText n.2)).filter fun n => n.2 ≠ []

def recordedIdentity (e : ShardEntry) : List (String × GranuleId) × Distinguishing :=
  (canonicals e, distinguishing e)

def collisionLabel (e : ShardEntry) : Text :=
  let href := (orText e.s3 e.https).getD []
  let named := (orText e.id e.datetime).getD []
  if href ≠ [] then href
  else if e.id.getD [] ≠ [] ∧ e.datetime.getD [] ≠ [] then
    e.id.getD [] ++ " @ ".toList ++ e.datetime.getD []
  else if named ≠ [] then named
  else "<entry with no id, href, or datetime>".toList

end Identity

section Collisions

/-- `by_canonical` of one shard: the granules recorded under each id of a spelling. -/
def byCanonical (entries : List ShardEntry) :
    List ((String × GranuleId) × List (Distinguishing × Text)) :=
  registered (entries.flatMap fun e =>
    (recordedIdentity e).1.map fun sc => (sc, (recordedIdentity e).2, collisionLabel e))

/-- One item of the sorted loop: a pair of granules counts once, in whatever spelling. -/
def countCollision (st : List (GranuleId × List Text) × List (Finset Distinguishing))
    (item : (String × GranuleId) × List (Distinguishing × Text)) :
    List (GranuleId × List Text) × List (Finset Distinguishing) :=
  if 1 < item.2.length ∧ (item.2.map Prod.fst).toFinset ∉ st.2 then
    (st.1 ++ [(item.1.2, (item.2.map Prod.snd).insertionSort (· ≤ ·))],
      (item.2.map Prod.fst).toFinset :: st.2)
  else st

def foundCollisions (entries : List ShardEntry) : List (GranuleId × List Text) :=
  let items := (byCanonical entries).insertionSort fun a b =>
    a.1.1 < b.1.1 ∨ a.1.1 = b.1.1 ∧ a.1.2 ≤ b.1.2
  (items.foldl countCollision ([], [])).1

/-- What the message of a refusal names. -/
structure CollisionReport where
  collisions : Nat
  shown : List (Word × GranuleId × List Text)

/-- `_basename_collision_message`, as what it reports. -/
def basenameCollisions (shards : Shards) : Option CollisionReport :=
  let report := shards.foldl (fun report s =>
    let found := foundCollisions s.2
    { collisions := report.collisions + found.length
      shown := report.shown ++ (found.take (4 - report.shown.length)).map fun f => (s.1, f) })
    (CollisionReport.mk 0 [])
  if report.collisions = 0 then none else some { report with shown := report.shown.take 3 }

end Collisions

section Maps

structure GridSignature where
  kind : String
  parentOrder : Option Nat
  childOrder : Option Nat
  layout : String

/-- What a derived map takes from the target grid. -/
structure TargetGrid where
  parentOrder : Option Nat
  childOrder : Option Nat
  spatialSignature : GridSignature

structure ShardMap where
  gridSignature : GridSignature
  shards : Shards
  metadata : List (String × Json)
  aoiMask : Option (List (List Nat))

inductive ReprojectError
  | targetGrid
  | sourceGrid
  | childOrder (source : Option Nat) (target : Nat)
  | range (target child : Nat)
  | noCatalog
  | refine (err : PyError)
  | collision (report : CollisionReport)

/-- The granules of some shards, one entry a granule. -/
def unionGranules (shards : List (List ShardEntry)) : List ShardEntry :=
  (dictOf (shards.flatten.map fun g =>
    ((recordedIdentity (granuleEntry g)).2, granuleEntry g))).map Prod.snd

/-- The coarsen branch: the shards grouped by their clipped keys. -/
def coarsen (clip2order : Nat → Word → Word) (target : Nat) (shards : Shards) : Shards :=
  let groups := collect (shards.map fun s => (clip2order target s.1, [s.2]))
  (readIn ((groups.map Prod.fst).insertionSort (· ≤ ·)) groups).map fun g =>
    (g.1, unionGranules g.2)

def reprojectBlock (source target : Nat) (method : String) : Json :=
  .obj [("source_parent_order", .num source), ("target_parent_order", .num target),
    ("method", .str method)]

/-- `meta.pop(key, None)`. -/
def popKey (key : String) (metadata : List (String × Json)) : List (String × Json) :=
  metadata.filter fun f => f.1 ≠ key

def derivedMetadata (m : ShardMap) (source target : Nat) (shards : Shards)
    (mortieOrder : Option Nat) : List (String × Json) :=
  let method := if mortieOrder.isSome then "refine" else "coarsen"
  let assigned := ((shards.flatMap Prod.snd).map ShardEntry.id).dedup.length
  let metadata := putAll [("reproject", reprojectBlock source target method),
    ("total_shards", .num shards.length),
    ("total_pairs", .num (shards.map fun s => s.2.length).sum),
    ("granules_assigned", .num assigned)] m.metadata
  let metadata := popKey "build_wall_s" (popKey "aoi_mask" metadata)
  match mortieOrder with
  | some order => putAll [("backend", .str "mortie"), ("mortie_order", .num order)] metadata
  | none => popKey "mortie_order" (popKey "backend" metadata)

/-- A map of new shards, which owns the invariant on recorded ids. -/
def derivedMap (m : ShardMap) (grid : TargetGrid) (source target : Nat) (shards : Shards)
    (mortieOrder : Option Nat) : Except ReprojectError ShardMap :=
  match basenameCollisions shards with
  | some report => .error (.collision report)
  | none => .ok ⟨grid.spatialSignature, shards,
      derivedMetadata m source target shards mortieOrder, none⟩

def unchangedMap (m : ShardMap) (grid : TargetGrid) (source target : Nat) : ShardMap where
  gridSignature := grid.spatialSignature
  shards := m.shards.map fun s => (s.1, s.2.map granuleEntry)
  metadata := put "reproject" (reprojectBlock source target "noop") m.metadata
  aoiMask := m.aoiMask

-- `clip2order` of `mortie`, and the shards and the order of the refine branch, given a catalog.
variable (clip2order : Nat → Word → Word)
  (refined : Option (Except PyError (Shards × Nat)))

def reproject (m : ShardMap) (grid : TargetGrid) : Except ReprojectError ShardMap :=
  match grid.parentOrder, grid.childOrder, m.gridSignature.parentOrder with
  | some target, some child, some source =>
    if m.gridSignature.kind ≠ "healpix" then .error .sourceGrid
    else if m.gridSignature.childOrder ≠ some child then
      .error (.childOrder m.gridSignature.childOrder child)
    else if child < target then .error (.range target child)
    else if target = source then .ok (unchangedMap m grid source target)
    else if target < source then
      derivedMap m grid source target (coarsen clip2order target m.shards) none
    else
      match refined with
      | none => .error .noCatalog
      | some (.error err) => .error (.refine err)
      | some (.ok (shards, order)) => derivedMap m grid source target shards (some order)
  | some _, some _, none => .error .sourceGrid
  | _, _, _ => .error .targetGrid

end Maps

end Zagg.Catalog
