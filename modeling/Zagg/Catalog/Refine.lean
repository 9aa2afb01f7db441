import Zagg.Catalog.ReprojectExact
import Zagg.Catalog.Rings

/-!
# Refining shard maps

At a finer order every granule of a shard is looked up in the catalog by its id, and its
footprint intersected again with the descendants of the shard. The buckets of the finer shards
keep one entry for each granule, as the coarser ones do.
-/
namespace Zagg.Catalog

open Zagg.Lib

def mocBatchRings : Nat := 32

def mortieMocOrderCap : Nat := 18

/-- What refining calls: `mortie`, the beam corridors of a footprint, `str.upper` and
`np.isfinite`. -/
structure RefineCalls (V : Type) where
  mortie : Mortie V
  generateMortonChildren : Word → Nat → List Word
  beamTracks : List V → List V → Text → List (Ring V)
  upper : Text → Text
  finite : V → Bool

/-- How footprints are covered. -/
structure FootprintPlan where
  beams : Bool
  product : Text
  mortieOrder : Nat

/-- `(metadata.get("collection") or "").split("_")[0].upper()`. -/
def collectionProduct (upper : Text → Text) (metadata : List (String × Json)) :
    Except PyError Text :=
  let collection := Json.field metadata "collection"
  if collection.truthy then
    match collection with
    | .str name => .ok (upper (name.toList.takeWhile (· ≠ '_')))
    | _ => .error .attributeError
  else .ok (upper [])

/-- `_resolve_mortie_order` of a HEALPix grid, without a pinned order. -/
def resolveMortieOrder (parentOrder chunkOrder : Nat) : Except PyError Nat :=
  let order := min chunkOrder mortieMocOrderCap
  if order < parentOrder then .error .valueError else .ok order

section Refine
variable {V : Type} (calls : RefineCalls V)

def footprintPlan (metadata : List (String × Json)) (parentOrder chunkOrder : Nat) :
    Except PyError FootprintPlan :=
  (collectionProduct calls.upper metadata).bind fun product =>
    (resolveMortieOrder parentOrder chunkOrder).bind fun order =>
      .ok ⟨(Json.field metadata "footprint").pyEq (.str "beams"), product, order⟩

/-- `_granule_footprints`. -/
def granuleFootprints (plan : FootprintPlan) (rec : CatalogRecord V) : List (Ring V) :=
  if plan.beams then calls.beamTracks rec.lats rec.lons plan.product else [(rec.lats, rec.lons)]

/-- `records_by_id.get(gid)`. -/
def recordById (records : List (CatalogRecord V)) (gid : Option Text) : Option (CatalogRecord V) :=
  dictGet (records.map fun r => (r.id, r)) gid

/-- A record with the sibling assets of the map's own entry. -/
def subRecord (rec : CatalogRecord V) (g : ShardEntry) : CatalogRecord V :=
  match g.assets with
  | none => rec
  | some assets => { rec with assets := some assets }

/-- The item of the bucket that a record becomes. -/
def recordItem (rec : CatalogRecord V) : Distinguishing × ShardEntry :=
  ((recordedIdentity (granuleEntry rec.toShardEntry)).2, granuleEntry rec.toShardEntry)

/-- One source shard: the descendants its granules meet, each with its items. -/
def refineShard (plan : FootprintPlan) (targetOrder : Nat) (records : List (CatalogRecord V))
    (shardKey : Word) (granules : List ShardEntry) :
    Except PyError (List (Word × List (Distinguishing × ShardEntry))) :=
  match granules.mapM fun g => (recordById records g.id).map fun rec => subRecord rec g with
  | none => .error .valueError
  | some subRecords =>
    let descendants := (calls.generateMortonChildren shardKey targetOrder).dedup
    match intersectMortie calls.mortie targetOrder mocBatchRings (granuleFootprints calls plan)
        calls.finite plan.mortieOrder subRecords descendants with
    | none => .error .indexError
    | some shardToIdx =>
      .ok (shardToIdx.map fun hit => (hit.1, (gather subRecords hit.2).map recordItem))

/-- The refine branch: the finer shards in the order of their keys, and the order of the cover. -/
def refineShards (metadata : List (String × Json)) (targetOrder chunkOrder : Nat)
    (records : List (CatalogRecord V)) (shards : Shards) : Except PyError (Shards × Nat) :=
  (footprintPlan calls metadata targetOrder chunkOrder).bind fun plan =>
    (shards.mapM fun s =>
      refineShard calls plan targetOrder records s.1 s.2).bind fun hits =>
        let granules := bucketed hits.flatten
        .ok ((readIn ((granules.map Prod.fst).insertionSort (· ≤ ·)) granules).map fun g =>
          (g.1, g.2.map Prod.snd), plan.mortieOrder)

/-- What the refine branch gives `reproject`: nothing without a catalog. -/
def refined (m : ShardMap) (targetOrder chunkOrder : Nat)
    (catalog : Option (List (CatalogRecord V))) : Option (Except PyError (Shards × Nat)) :=
  catalog.map fun records => refineShards calls m.metadata targetOrder chunkOrder records m.shards

end Refine

end Zagg.Catalog
