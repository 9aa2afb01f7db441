import Mathlib.Data.Nat.Cast.Order.Field
import Mathlib.Tactic.NormNum
import Zagg.Catalog.NearestAcquisition
import Zagg.Catalog.ShardMap
import Zagg.Lib.Collect
import Zagg.Lib.Json
import Zagg.Lib.Pointwise

/-!
# The closest-observation ledger

Each reference epoch of a shard is paired with its nearest acquisition, or dropped: because its
bucket is too coarse for the cap, because the catalog does not reach the shard, or because the
nearest acquisition lies beyond the cap. The emitted granules and the dropped rows account for
every epoch exactly once.
-/
namespace Zagg.Catalog.Closest

open Zagg.Lib Zagg.Catalog.Nearest

/-- One shard's epochs with their temporal orders. The midpoints of a cover are distinct
instants, and a bucket has a midpoint only if it is at least two nanoseconds long. -/
structure ShardEpochs where
  shard : Word
  epochs : List Ns
  orders : Option (List Nat)
  aligned : ∀ eo ∈ orders, eo.length = epochs.length
  resolved : ∀ eo ∈ orders, ∀ o ∈ eo, o ≤ 62
  nodup : epochs.Nodup
  real : naT ∉ epochs

structure ReferenceEpochs where
  order : Nat
  epochs : List ShardEpochs
  stores : List String
  orders : List (Word × Nat)
  nodup : (epochs.map ShardEpochs.shard).Nodup

/-- A granule entry of a catalog. -/
abbrev Entry := List (String × Json)

/-- The spatial shard map. -/
structure SpatialMap where
  shardKeys : List Word
  granules : List (List Entry)

/-- A selected entry with its provenance keys. -/
structure Granule where
  src : Entry
  datetime : Json
  pairedEpochs : List String
  epochOffsets : List (Option Int)

/-- A row of `dropped`. -/
inductive Row where
  | lowResolution (shard epoch : String) (temporalOrder : Nat) (coverHalfSpan : Int)
  | unselected (shard epoch : String) (nearestOffset : Option Int)

def Row.shard : Row → String
  | .lowResolution shard _ _ _ => shard
  | .unselected shard _ _ => shard

def Row.epoch : Row → String
  | .lowResolution _ epoch _ _ => epoch
  | .unselected _ epoch _ => epoch

def Row.isLowResolution : Row → Bool
  | .lowResolution .. => true
  | .unselected .. => false

/-- What the builder calls in `numpy`, `datetime` and `mortie`. -/
structure Calls (Offset : Type) where
  np : Timedeltas Offset
  parseTime : Json → Except String Ns
  asString : Ns → String
  decimal : Word → String
  repr : Json → String

/-- The lists and counters of the loop over the shards. -/
structure Pairing where
  shardKeys : List Word
  granules : List (List Granule)
  dropped : List Row
  noAcquisitions : List String
  epochsPaired : Nat
  lowResolution : Nat

/-- What the loop over one shard's epochs changes. -/
structure Selected where
  chosen : List (Nat × Granule)
  dropped : List Row
  epochsPaired : Nat

/-- `entry.get("datetime") or entry.get("time_start")`. -/
def instantOf (entry : Entry) : Json :=
  let datetime := (entry.lookup "datetime").getD .null
  if datetime.truthy then datetime else (entry.lookup "time_start").getD .null

/-- `np.int64(1) << (np.int64(62) - eo)`: a negative shift gives zero. -/
def halfSpan (o : Nat) : Int := if o ≤ 62 then 2 ^ (62 - o) else 0

/-- `None if np.isnat(off) else int(off_ns)`. -/
def offsetNs (off : Ns) : Option Int := if off = naT then none else some off.toInt

/-- `{k: i for i, k in enumerate(shard_keys)}`. -/
def spatialIdx (keys : List Word) : List (Word × Nat) :=
  keys.zipIdx.foldl (fun d x => put x.1 x.2 d) []

section Code
variable {Offset : Type} (calls : Calls Offset)

/-- One entry of `_acquisition_times`. -/
def acquisitionTime (shard : String) (entry : Entry) : Except String Ns :=
  match instantOf entry with
  | .null =>
    let id := calls.repr ((entry.lookup "id").getD .null)
    .error (s!"closest_obs_shardmap: granule {id} in shard {shard} " ++
      "carries no acquisition time (neither 'datetime' nor 'time_start') — " ++
      "the catalog cannot be temporally paired (issue #509)")
  | iso => calls.parseTime iso

/-- The cover-resolution gate: the rows it drops, and the epochs it leaves. -/
def gate (cap : Option Int) (se : ShardEpochs) : List Row × List Ns :=
  match cap, se.orders with
  | some cap, some eo =>
    (((se.epochs.zip eo).filter fun r => cap < halfSpan r.2).map fun r =>
        .lowResolution (calls.decimal se.shard) (calls.asString r.1) r.2 (halfSpan r.2),
      ((se.epochs.zip eo).filter fun r => ¬cap < halfSpan r.2).map Prod.fst)
  | _, _ => ([], se.epochs)

/-- One round of the loop over a shard's epochs. -/
def pairEpoch (decimal : String) (entries : List Entry) (s : Selected) (r : Ns × Int × Ns) : Selected :=
  let iso := calls.asString r.1
  if r.2.1 < 0 then
    { s with dropped := s.dropped ++ [.unselected decimal iso (offsetNs r.2.2)] }
  else
    let src := entries.getD r.2.1.toNat []
    let entry := (s.chosen.lookup r.2.1.toNat).getD ⟨src, instantOf src, [], []⟩
    { s with
      chosen := put r.2.1.toNat { entry with
        pairedEpochs := entry.pairedEpochs ++ [iso]
        epochOffsets := entry.epochOffsets ++ [offsetNs r.2.2] } s.chosen
      epochsPaired := s.epochsPaired + 1 }

/-- `[chosen[j] for j in sorted(chosen)]`. -/
def inOrder (chosen : List (Nat × Granule)) : List Granule :=
  (readIn ((chosen.map Prod.fst).insertionSort (· ≤ ·)) chosen).map Prod.snd

/-- The end of a shard's round: the shard is emitted if something was chosen. -/
def emit (shard : Word) (p : Selected) (s : Pairing) : Pairing :=
  let s := { s with dropped := p.dropped, epochsPaired := p.epochsPaired }
  if p.chosen = [] then s
  else { s with shardKeys := s.shardKeys ++ [shard], granules := s.granules ++ [inOrder p.chosen] }

/-- One round of the loop over the shards. -/
def pairShard (spatial : SpatialMap) (maxTimeOffset : Option Offset) (cap : Option Int) (s : Pairing)
    (se : ShardEpochs) : Except String Pairing :=
  let decimal := calls.decimal se.shard
  let gated := gate calls cap se
  let s := { s with
    dropped := s.dropped ++ gated.1
    lowResolution := s.lowResolution + gated.1.length }
  match (spatialIdx spatial.shardKeys).lookup se.shard with
  | none => .ok { s with
      noAcquisitions := s.noAcquisitions ++ [decimal]
      dropped := s.dropped ++ gated.2.map fun t => .unselected decimal (calls.asString t) none }
  | some i =>
    if gated.2.length = 0 then .ok s
    else do
      let entries := spatial.granules.getD i []
      let times ← entries.mapM (acquisitionTime calls decimal)
      let selected ← nearestAcquisitions calls.np gated.2 times maxTimeOffset
      let p := (gated.2.zip (selected.1.zip selected.2)).foldl (pairEpoch calls decimal entries)
        ⟨[], s.dropped, s.epochsPaired⟩
      return emit se.shard p s

/-- The loop of `closest_obs_shardmap`. -/
def pairShards (ref : ReferenceEpochs) (spatial : SpatialMap) (maxTimeOffset : Option Offset) :
    Except String Pairing := do
  let cap ← capNs calls.np maxTimeOffset
  (ref.epochs.insertionSort fun a b => a.shard ≤ b.shard).foldlM
    (pairShard calls spatial maxTimeOffset cap) ⟨[], [], [], [], 0, 0⟩

/-- `metadata["closest_obs"]`. -/
structure ClosestMeta where
  referenceStores : List String
  shardOrder : Nat
  maxTimeOffsetNs : Option Int
  epochsTotal : Nat
  epochsPaired : Nat
  epochsDropped : Nat
  epochsDroppedLowResolution : Nat
  dropped : List Row
  shardsWithoutAcquisitions : List String
  spatialShardsWithoutEpochs : Nat
  coarsenedOrders : List (String × Nat)

/-- `ReferenceEpochs.total`. -/
def ReferenceEpochs.total (ref : ReferenceEpochs) : Nat := (ref.epochs.map fun se => se.epochs.length).sum

/-- `TEMPORAL_COVER_ORDER`. -/
def temporalCoverOrder : Nat := 18

def closestMeta (ref : ReferenceEpochs) (spatial : SpatialMap) (aoiKeys : Option (List Word))
    (cap : Option Int) (s : Pairing) : ClosestMeta where
  referenceStores := ref.stores
  shardOrder := ref.order
  maxTimeOffsetNs := cap
  epochsTotal := ref.total
  epochsPaired := s.epochsPaired
  epochsDropped := s.dropped.length
  epochsDroppedLowResolution := s.lowResolution
  dropped := s.dropped
  shardsWithoutAcquisitions := s.noAcquisitions
  spatialShardsWithoutEpochs := spatial.shardKeys.countP fun k =>
    k ∉ ref.epochs.map ShardEpochs.shard ∧ ∀ keys ∈ aoiKeys, k ∈ keys
  coarsenedOrders := (ref.orders.filter fun x => x.2 < temporalCoverOrder).map fun x =>
    (calls.decimal x.1, x.2)

/-- `closest_obs_shardmap`: the pairing and its metadata. -/
def closestObsShardmap (parentOrder : Nat) (ref : ReferenceEpochs) (spatial : SpatialMap)
    (aoiKeys : Option (List Word)) (maxTimeOffset : Option Offset) :
    Except String (Pairing × ClosestMeta) := do
  let order := ref.order
  if parentOrder ≠ ref.order then
    throw (s!"closest_obs_shardmap: grid.parent_order {parentOrder} != the covers' " ++
      s!"shard order {order} — the emitted map would key shards on a different " ++
      "grid than the epochs (spec §10.5)")
  let cap ← capNs calls.np maxTimeOffset
  let s ← pairShards calls ref spatial maxTimeOffset
  return (s, closestMeta calls ref spatial aoiKeys cap s)

end Code
section Epochs
variable {Offset : Type} {calls : Calls Offset}

/-- A granule that some rows select. -/
def granuleOf (entries : List Entry) (k : Nat) (rows : List (String × Option Int)) : Granule where
  src := entries.getD k []
  datetime := instantOf (entries.getD k [])
  pairedEpochs := rows.map Prod.fst
  epochOffsets := rows.map Prod.snd

/-- A row of the manifest, with the granule it belongs to. -/
def itemOf (calls : Calls Offset) (r : Ns × Int × Ns) : Nat × List (String × Option Int) :=
  (r.2.1.toNat, [(calls.asString r.1, offsetNs r.2.2)])

def itemsOf (calls : Calls Offset) (rs : List (Ns × Int × Ns)) :
    List (Nat × List (String × Option Int)) :=
  (rs.filter fun r => ¬r.2.1 < 0).map (itemOf calls)

def unselectedOf (calls : Calls Offset) (decimal : String) (rs : List (Ns × Int × Ns)) : List Row :=
  (rs.filter fun r => r.2.1 < 0).map fun r => .unselected decimal (calls.asString r.1) (offsetNs r.2.2)

/-- The loop over a shard's epochs collects the selected rows by granule and drops the others. -/
theorem foldl_pairEpoch (decimal : String) (entries : List Entry) (dropped : List Row) (paired : Nat)
    (rs : List (Ns × Int × Ns)) :
    rs.foldl (pairEpoch calls decimal entries) ⟨[], dropped, paired⟩ =
      ⟨(collect (itemsOf calls rs)).map fun e => (e.1, granuleOf entries e.1 e.2),
        dropped ++ unselectedOf calls decimal rs, paired + (itemsOf calls rs).length⟩ := by
  induction rs using List.reverseRecOn with
  | nil =>
    rw [unselectedOf, List.filter_nil, List.map_nil, List.append_nil]
    rfl
  | append_singleton rs r ih =>
    rw [List.foldl_append, ih, List.foldl_cons, List.foldl_nil, pairEpoch]
    unfold itemsOf unselectedOf
    rw [List.filter_append, List.filter_append, List.map_append, List.map_append]
    split_ifs with h
    · have hkeep : [r].filter (fun r => decide ¬r.2.1 < 0) = [] := by simp [h]
      have hdrop : [r].filter (fun r => decide (r.2.1 < 0)) = [r] := by simp [h]
      rw [hkeep, hdrop, List.map_nil, List.append_nil, List.map_singleton, List.append_assoc]
    · have hkeep : [r].filter (fun r => decide ¬r.2.1 < 0) = [r] := by simpa using h
      have hdrop : [r].filter (fun r => decide (r.2.1 < 0)) = [] := by simp [h]
      rw [hkeep, hdrop, List.map_nil, List.append_nil, List.map_singleton, collect_concat,
        List.length_append, extendAt, itemOf, ← put_map_keyed, lookup_map_keyed]
      cases (collect ((rs.filter fun r => decide ¬r.2.1 < 0).map (itemOf calls))).lookup r.2.1.toNat with
      | none => rfl
      | some rows =>
        simp [granuleOf, Nat.add_assoc]

/-- What is chosen, by catalog record. -/
def chosenOf (entries : List Entry) (items : List (Nat × List (String × Option Int))) :
    List (Nat × Granule) :=
  (collect items).map fun e => (e.1, granuleOf entries e.1 e.2)

theorem keys_chosenOf (entries : List Entry) (items : List (Nat × List (String × Option Int))) :
    (chosenOf entries items).map Prod.fst = (collect items).map Prod.fst := by
  rw [chosenOf, List.map_map]
  rfl

/-- The records a shard emits, in their order. -/
def recordsOf (items : List (Nat × List (String × Option Int))) : List Nat :=
  ((collect items).map Prod.fst).insertionSort (· ≤ ·)

theorem mem_recordsOf {items : List (Nat × List (String × Option Int))} {k : Nat} :
    k ∈ recordsOf items ↔ k ∈ items.map Prod.fst := by
  rw [recordsOf, (List.perm_insertionSort _ _).mem_iff, mem_keys_collect]

theorem strictly_recordsOf (items : List (Nat × List (String × Option Int))) :
    (recordsOf items).Pairwise (· < ·) := by
  have hnodup : (recordsOf items).Nodup := (List.perm_insertionSort _ _).nodup_iff.mpr (nodup_collect items)
  have hle : (recordsOf items).Pairwise (· ≤ ·) := List.pairwise_insertionSort _ _
  exact (hle.and hnodup).imp fun h => lt_of_le_of_ne h.1 h.2

theorem recordsOf_eq_nil {entries : List Entry} {items : List (Nat × List (String × Option Int))} :
    recordsOf items = [] ↔ chosenOf entries items = [] := by
  rw [← List.length_eq_zero_iff, recordsOf, List.length_insertionSort, List.length_map,
    ← List.length_eq_zero_iff, chosenOf, List.length_map]

/-- The granules of a shard in the order of the catalog, each with the rows that select it. -/
theorem inOrder_chosenOf (entries : List Entry) (items : List (Nat × List (String × Option Int))) :
    inOrder (chosenOf entries items) = (recordsOf items).map fun k =>
      granuleOf entries k ((items.filter fun item => item.1 = k).flatMap Prod.snd) := by
  have hread : ∀ k ∈ recordsOf items, ((chosenOf entries items).lookup k).map (fun v => (k, v)) =
      some (k, granuleOf entries k ((items.filter fun item => item.1 = k).flatMap Prod.snd)) := by
    intro k hk
    rw [chosenOf, lookup_map_keyed, lookup_collect, if_pos (mem_recordsOf.mp hk)]
    rfl
  have hkeys : ((chosenOf entries items).map Prod.fst).insertionSort (· ≤ ·) = recordsOf items := by
    rw [keys_chosenOf]
    rfl
  rw [inOrder, readIn, hkeys, List.filterMap_congr hread, List.map_filterMap, ← List.filterMap_eq_map]
  rfl

/-- Every selected row is in one granule. -/
theorem perm_inOrder (entries : List Entry) (items : List (Nat × List (String × Option Int))) :
    ((inOrder (chosenOf entries items)).flatMap Granule.pairedEpochs).Perm
      ((items.flatMap Prod.snd).map Prod.fst) := by
  have hnodup : ((chosenOf entries items).map Prod.fst).Nodup := by
    rw [keys_chosenOf]
    exact nodup_collect items
  have hread := perm_readIn hnodup ((List.perm_insertionSort (· ≤ ·) _).nodup_iff.mpr hnodup)
    fun k hk => (List.perm_insertionSort (· ≤ ·) _).mem_iff.mpr hk
  have hchosen : (chosenOf entries items).flatMap (fun e => e.2.pairedEpochs) =
      ((collect items).flatMap Prod.snd).map Prod.fst := by
    rw [chosenOf, List.flatMap_map, List.map_flatMap]
    rfl
  rw [inOrder, List.flatMap_map]
  apply (hread.flatMap_right _).trans
  rw [hchosen]
  exact (perm_collect items).map _

end Epochs

section Shards
variable {Offset : Type} {calls : Calls Offset} {spatial : SpatialMap} {maxTimeOffset : Option Offset}
  {cap : Option Int}

def Pairing.empty : Pairing := ⟨[], [], [], [], 0, 0⟩

def Pairing.add (s t : Pairing) : Pairing where
  shardKeys := s.shardKeys ++ t.shardKeys
  granules := s.granules ++ t.granules
  dropped := s.dropped ++ t.dropped
  noAcquisitions := s.noAcquisitions ++ t.noAcquisitions
  epochsPaired := s.epochsPaired + t.epochsPaired
  lowResolution := s.lowResolution + t.lowResolution

/-- A shard's round adds what it adds to the empty state. -/
theorem pairShard_add (s : Pairing) (se : ShardEpochs) :
    pairShard calls spatial maxTimeOffset cap s se =
      (pairShard calls spatial maxTimeOffset cap .empty se).map s.add := by
  unfold pairShard
  dsimp only
  cases (spatialIdx spatial.shardKeys).lookup se.shard with
  | none => simp [Pairing.add, Pairing.empty, Except.map]
  | some i =>
    dsimp only
    split_ifs with hlen
    · simp [Pairing.add, Pairing.empty, Except.map]
    · cases (spatial.granules.getD i []).mapM (acquisitionTime calls (calls.decimal se.shard)) with
      | error e => rfl
      | ok times =>
        show (nearestAcquisitions ..).bind _ = ((nearestAcquisitions ..).bind _).map _
        cases nearestAcquisitions calls.np (gate calls cap se).2 times maxTimeOffset with
        | error e => rfl
        | ok selected =>
          show Except.ok _ = (Except.ok _).map _
          rw [foldl_pairEpoch, foldl_pairEpoch, Except.map, emit, emit]
          congr 1
          split_ifs
          · simp [Pairing.add, Pairing.empty]
          · simp [Pairing.add, Pairing.empty]

/-- The loop over the shards adds up their rounds. -/
theorem foldlM_pairShard (ses : List ShardEpochs) (s : Pairing) :
    ses.foldlM (pairShard calls spatial maxTimeOffset cap) s =
      (ses.mapM (pairShard calls spatial maxTimeOffset cap .empty)).map fun parts =>
        parts.foldl Pairing.add s := by
  induction ses generalizing s with
  | nil => rfl
  | cons se ses ih =>
    rw [List.foldlM_cons, List.mapM_cons, pairShard_add]
    cases pairShard calls spatial maxTimeOffset cap .empty se with
    | error e => rfl
    | ok part =>
      show ses.foldlM (pairShard calls spatial maxTimeOffset cap) (s.add part) = _
      rw [ih]
      cases ses.mapM (pairShard calls spatial maxTimeOffset cap .empty) with
      | error e => rfl
      | ok parts => rfl

end Shards
section Ledger
variable {Offset : Type} (calls : Calls Offset) (duration : Offset → ℚ)

/-- An epoch and its own temporal order. -/
def ShardEpochs.Claims (se : ShardEpochs) (e : Ns) (o : Nat) : Prop :=
  ∃ eo ∈ se.orders, (e, o) ∈ se.epochs.zip eo

/-- Half a bucket of the order is longer than the cap. -/
def TooCoarse (maxTimeOffset : Option Offset) (o : Nat) : Prop :=
  ∃ cap, maxTimeOffset = some cap ∧ duration cap < 2 ^ (62 - o)

/-- The entries of a shard of the spatial map. -/
def SpatialMap.entries (spatial : SpatialMap) (shard : Word) : Option (List Entry) :=
  ((spatialIdx spatial.shardKeys).lookup shard).map fun i => spatial.granules.getD i []

/-- An epoch's row in a granule: the granule is its nearest acquisition. -/
structure PairedRow (maxTimeOffset : Option Offset) (se : ShardEpochs) (times : List Ns) (k : Nat)
    (e : Ns) (off : Option Int) : Prop where
  epoch : e ∈ se.epochs
  resolvable : ∀ o, se.Claims e o → ¬TooCoarse duration maxTimeOffset o
  nearest : ∃ t, NearestAt times e k t ∧ (∀ cap ∈ maxTimeOffset, (distance t e : ℚ) ≤ duration cap) ∧
    (Representable (t.toInt - e.toInt) → off = some (t.toInt - e.toInt)) ∧
    (¬Representable (t.toInt - e.toInt) → off = none)

/-- An emitted granule: the record it copies, and its rows. -/
structure Emitted (maxTimeOffset : Option Offset) (se : ShardEpochs) (entries : List Entry)
    (times : List Ns) (k : Nat) (g : Granule) : Prop where
  src : entries[k]? = some g.src
  datetime : g.datetime = instantOf g.src
  nonempty : g.pairedEpochs ≠ []
  aligned : g.pairedEpochs.length = g.epochOffsets.length
  rows : ∀ row ∈ g.pairedEpochs.zip g.epochOffsets, ∃ e, row.1 = calls.asString e ∧
    PairedRow duration maxTimeOffset se times k e row.2

/-- The granules of an emitted shard, each once and in the order of the catalog. -/
def EmittedShard (spatial : SpatialMap) (maxTimeOffset : Option Offset) (se : ShardEpochs)
    (gs : List Granule) : Prop :=
  ∃ entries times ks, spatial.entries se.shard = some entries ∧
    List.Forall₂ (fun entry t => acquisitionTime calls (calls.decimal se.shard) entry = .ok t) entries times ∧
    ks ≠ [] ∧ ks.Pairwise (· < ·) ∧
    List.Forall₂ (Emitted calls duration maxTimeOffset se entries times) ks gs

/-- What one shard's round adds. -/
structure ShardLedger (spatial : SpatialMap) (maxTimeOffset : Option Offset) (se : ShardEpochs)
    (part : Pairing) : Prop where
  balance : (se.epochs.map calls.asString).Perm
    (part.granules.flatten.flatMap Granule.pairedEpochs ++ part.dropped.map Row.epoch)
  own : ∀ row ∈ part.dropped, row.shard = calls.decimal se.shard
  paired : part.epochsPaired = (part.granules.flatten.flatMap Granule.pairedEpochs).length
  lowResolution : part.lowResolution = part.dropped.countP Row.isLowResolution
  coarse : ∀ e o, se.Claims e o →
    (.lowResolution (calls.decimal se.shard) (calls.asString e) o (2 ^ (62 - o)) ∈ part.dropped ↔
      TooCoarse duration maxTimeOffset o)
  emitted : (part.shardKeys = [] ∧ part.granules = []) ∨ ∃ gs, part.shardKeys = [se.shard] ∧
    part.granules = [gs] ∧ EmittedShard calls duration spatial maxTimeOffset se gs

end Ledger

section Gate
variable {Offset : Type} {calls : Calls Offset} {duration : Offset → ℚ} {maxTimeOffset : Option Offset}
  {cap : Option Int}

theorem halfSpan_eq {o : Nat} (h : o ≤ 62) : halfSpan o = 2 ^ (62 - o) := if_pos h

theorem lt_halfSpan_iff (hnp : calls.np.Exact duration) (hcap : capNs calls.np maxTimeOffset = .ok cap)
    {o : Nat} (h : o ≤ 62) : (∃ c ∈ cap, c < halfSpan o) ↔ TooCoarse duration maxTimeOffset o := by
  rcases capNs_spec hnp hcap with ⟨rfl, rfl⟩ | ⟨c, rfl, rfl, -, hexact⟩
  · constructor
    · rintro ⟨c, hc, -⟩
      cases hc
    · rintro ⟨c, hc, -⟩
      cases hc
  · rw [halfSpan_eq h, TooCoarse]
    constructor
    · rintro ⟨c', hc', hlt⟩
      obtain rfl := Option.some.inj hc'
      refine ⟨c, rfl, ?_⟩
      rw [← hexact]
      exact_mod_cast hlt
    · rintro ⟨c', hc', hlt⟩
      obtain rfl := Option.some.inj hc'
      refine ⟨_, rfl, ?_⟩
      rw [← hexact] at hlt
      exact_mod_cast hlt

/-- What the gate does with a shard. -/
structure Gated (calls : Calls Offset) (duration : Offset → ℚ) (maxTimeOffset : Option Offset)
    (se : ShardEpochs) (rows : List Row) (kept : List Ns) : Prop where
  balance : (se.epochs.map calls.asString).Perm (kept.map calls.asString ++ rows.map Row.epoch)
  own : ∀ row ∈ rows, row.shard = calls.decimal se.shard
  low : ∀ row ∈ rows, row.isLowResolution = true
  coarse : ∀ e o, se.Claims e o →
    (.lowResolution (calls.decimal se.shard) (calls.asString e) o (2 ^ (62 - o)) ∈ rows ↔
      TooCoarse duration maxTimeOffset o)
  kept : ∀ e ∈ kept, e ∈ se.epochs ∧ ∀ o, se.Claims e o → ¬TooCoarse duration maxTimeOffset o

theorem claims_order {se : ShardEpochs} {e : Ns} {o : Nat} (h : se.Claims e o) : o ≤ 62 := by
  obtain ⟨eo, heo, hzip⟩ := h
  exact se.resolved eo heo o (List.of_mem_zip hzip).2

/-- An epoch has one order. -/
theorem claims_unique {se : ShardEpochs} {e : Ns} {o o' : Nat} (h : se.Claims e o)
    (h' : se.Claims e o') : o = o' := by
  obtain ⟨eo, heo, hzip⟩ := h
  obtain ⟨eo', heo', hzip'⟩ := h'
  obtain rfl : eo = eo' := Option.some.inj (heo.symm.trans heo')
  have hkeys : ((se.epochs.zip eo).map Prod.fst).Nodup := by
    rw [List.map_fst_zip (se.aligned eo heo).ge]
    exact se.nodup
  have hlookup := lookup_of_nodup hkeys hzip
  rw [lookup_of_nodup hkeys hzip'] at hlookup
  exact (Option.some.inj hlookup).symm

theorem gate_spec (hnp : calls.np.Exact duration) (hcap : capNs calls.np maxTimeOffset = .ok cap)
    (se : ShardEpochs) :
    Gated calls duration maxTimeOffset se (gate calls cap se).1 (gate calls cap se).2 := by
  have hiff : ∀ o, o ≤ 62 → ((∃ c ∈ cap, c < halfSpan o) ↔ TooCoarse duration maxTimeOffset o) :=
    fun o => lt_halfSpan_iff hnp hcap
  have hnone : (cap = none ∨ se.orders = none) →
      Gated calls duration maxTimeOffset se [] se.epochs := by
    intro hor
    have hfine : ∀ e o, se.Claims e o → ¬TooCoarse duration maxTimeOffset o := by
      intro e o hclaims hcoarse
      rcases hor with hor | hor
      · obtain ⟨c, hc, -⟩ := (hiff o (claims_order hclaims)).mpr hcoarse
        rw [hor] at hc
        cases hc
      · obtain ⟨eo, heo, -⟩ := hclaims
        rw [hor] at heo
        cases heo
    refine ⟨?_, nofun, nofun, fun e o hclaims => ?_, fun e he => ⟨he, hfine e⟩⟩
    · rw [List.map_nil, List.append_nil]
    · exact ⟨nofun, fun hcoarse => absurd hcoarse (hfine e o hclaims)⟩
  cases cap with
  | none => exact hnone (.inl rfl)
  | some c =>
    unfold gate
    cases heo : se.orders with
    | none => exact hnone (.inr heo)
    | some eo =>
      dsimp only
      have hclaims : ∀ r ∈ se.epochs.zip eo, se.Claims r.1 r.2 := fun r hr => ⟨eo, heo, hr⟩
      have hspan : ∀ r ∈ se.epochs.zip eo, (c < halfSpan r.2 ↔ TooCoarse duration maxTimeOffset r.2) := by
        intro r hr
        rw [← hiff r.2 (claims_order (hclaims r hr))]
        exact ⟨fun hlt => ⟨c, rfl, hlt⟩, fun ⟨c', hc', hlt⟩ => Option.some.inj hc' ▸ hlt⟩
      refine ⟨?_, ?_, ?_, fun e o hc => ?_, fun e he => ?_⟩
      · have hsplit := (List.filter_append_perm (fun r => decide ¬c < halfSpan r.2) (se.epochs.zip eo)).map
          fun r => calls.asString r.1
        have hfst : (se.epochs.zip eo).map (fun r => calls.asString r.1) = se.epochs.map calls.asString :=
          calc (se.epochs.zip eo).map (fun r => calls.asString r.1)
              = ((se.epochs.zip eo).map Prod.fst).map calls.asString := List.map_map.symm
            _ = se.epochs.map calls.asString := by rw [List.map_fst_zip (se.aligned eo heo).ge]
        have hneg : (se.epochs.zip eo).filter (fun r => decide (c < halfSpan r.2)) =
            (se.epochs.zip eo).filter fun r => !decide ¬c < halfSpan r.2 :=
          List.filter_congr fun r _ => by rw [decide_not, Bool.not_not]
        rw [hfst, List.map_append] at hsplit
        rw [List.map_map, List.map_map, hneg]
        exact hsplit.symm
      · intro row hrow
        obtain ⟨r, -, rfl⟩ := List.mem_map.mp hrow
        rfl
      · intro row hrow
        obtain ⟨r, -, rfl⟩ := List.mem_map.mp hrow
        rfl
      · rw [List.mem_map]
        constructor
        · rintro ⟨r, hr, heq⟩
          obtain ⟨hmem, hlt⟩ := List.mem_filter.mp hr
          obtain ⟨-, -, ho, -⟩ := Row.lowResolution.inj heq
          rw [← ho]
          exact (hspan r hmem).mp (of_decide_eq_true hlt)
        · intro hcoarse
          obtain ⟨eo', heo', hzip⟩ := hc
          obtain rfl : eo = eo' := Option.some.inj (heo.symm.trans heo')
          refine ⟨(e, o), List.mem_filter.mpr ⟨hzip, decide_eq_true ((hspan _ hzip).mpr hcoarse)⟩, ?_⟩
          rw [halfSpan_eq (claims_order (hclaims _ hzip))]
      · obtain ⟨r, hr, rfl⟩ := List.mem_map.mp he
        obtain ⟨hmem, hlt⟩ := List.mem_filter.mp hr
        refine ⟨(List.of_mem_zip hmem).1, fun o ho hcoarse => ?_⟩
        obtain rfl := claims_unique ho (hclaims r hmem)
        exact of_decide_eq_true hlt ((hspan r hmem).mpr hcoarse)

end Gate
section Round
variable {Offset : Type} {calls : Calls Offset} {duration : Offset → ℚ} {maxTimeOffset : Option Offset}
  {cap : Option Int} {spatial : SpatialMap}

variable (calls) in
theorem length_itemsOf (rs : List (Ns × Int × Ns)) :
    (itemsOf calls rs).length = (((itemsOf calls rs).flatMap Prod.snd).map Prod.fst).length := by
  rw [itemsOf, List.flatMap_map, List.length_map, List.length_map]
  induction rs.filter fun r => ¬r.2.1 < 0 with
  | nil => rfl
  | cons r rs ih =>
    rw [List.length_cons, ih]
    rfl

variable (calls) in
/-- A row is selected or dropped. -/
theorem perm_rows (decimal : String) (rs : List (Ns × Int × Ns)) :
    (rs.map fun r => calls.asString r.1).Perm
      (((itemsOf calls rs).flatMap Prod.snd).map Prod.fst ++ (unselectedOf calls decimal rs).map Row.epoch) := by
  have hitems : ((itemsOf calls rs).flatMap Prod.snd).map Prod.fst =
      (rs.filter fun r => ¬r.2.1 < 0).map fun r => calls.asString r.1 := by
    rw [itemsOf, List.flatMap_map, List.map_flatMap]
    exact List.map_eq_flatMap.symm
  have hneg : rs.filter (fun r => decide (r.2.1 < 0)) = rs.filter fun r => !decide ¬r.2.1 < 0 :=
    List.filter_congr fun r _ => by rw [decide_not, Bool.not_not]
  have hsplit := (List.filter_append_perm (fun r => decide ¬r.2.1 < 0) rs).map fun r => calls.asString r.1
  rw [List.map_append] at hsplit
  rw [hitems, unselectedOf, List.map_map, hneg]
  exact hsplit.symm

/-- The answers of a shard's epochs make its granules. -/
theorem emitted_of_answers {se : ShardEpochs} {entries : List Entry} {times kept : List Ns}
    {s : Ns → Int} {o : Ns → Ns} (hlen : times.length = entries.length)
    (hkept : ∀ e ∈ kept, e ∈ se.epochs ∧ ∀ o, se.Claims e o → ¬TooCoarse duration maxTimeOffset o)
    (hanswer : ∀ e ∈ kept, Answer duration times maxTimeOffset e (s e) (o e)) :
    List.Forall₂ (Emitted calls duration maxTimeOffset se entries times)
      (recordsOf (itemsOf calls (kept.map fun e => (e, s e, o e))))
      (inOrder (chosenOf entries (itemsOf calls (kept.map fun e => (e, s e, o e))))) := by
  have hitem : ∀ item ∈ itemsOf calls (kept.map fun e => (e, s e, o e)), ∃ e ∈ kept,
      item.2 = [(calls.asString e, offsetNs (o e))] ∧
        PairedRow duration maxTimeOffset se times item.1 e (offsetNs (o e)) ∧ item.1 < entries.length := by
    intro item hmem
    obtain ⟨r, hr, rfl⟩ := List.mem_map.mp hmem
    obtain ⟨hr, hpos⟩ := List.mem_filter.mp hr
    obtain ⟨e, he, rfl⟩ := List.mem_map.mp hr
    have hsel : ¬s e < 0 := of_decide_eq_true hpos
    have hans := hanswer e he
    have hne : times ≠ [] := by
      intro hnil
      rw [(hans.empty hnil).1] at hsel
      exact hsel (by decide)
    obtain ⟨i, t, hat, hcases, hcap, hfits, hover⟩ := hans.nearest hne
    have hi : s e = i := by
      rcases hcases with h | h
      · exact h
      · rw [h] at hsel
        exact absurd (by decide) hsel
    have hkey : (itemOf calls (e, s e, o e)).1 = i := by
      rw [itemOf, hi]
      rfl
    have hwithin : ∀ cap ∈ maxTimeOffset, (distance t e : ℚ) ≤ duration cap := by
      intro c hc
      by_contra hlt
      have hneg := hcap.mpr ⟨c, hc, not_le.mp hlt⟩
      rw [hi] at hneg
      omega
    refine ⟨e, he, rfl, ⟨(hkept e he).1, (hkept e he).2, t, hkey.symm ▸ hat, hwithin, ?_, ?_⟩, ?_⟩
    · intro hrep
      rw [offsetNs, if_neg (hfits hrep).1, (hfits hrep).2]
    · intro hrep
      rw [offsetNs, if_pos (hover hrep)]
    · rw [hkey, ← hlen]
      exact (List.getElem?_eq_some_iff.mp hat.get).1
  rw [inOrder_chosenOf, List.forall₂_map_right_iff, List.forall₂_same]
  intro k hk
  obtain ⟨item, hmem, rfl⟩ := List.mem_map.mp (mem_recordsOf.mp hk)
  obtain ⟨e, he, hitem2, -, hlt⟩ := hitem item hmem
  have hown : item ∈ (itemsOf calls (kept.map fun e => (e, s e, o e))).filter fun x => x.1 = item.1 :=
    List.mem_filter.mpr ⟨hmem, decide_eq_true rfl⟩
  refine ⟨?_, rfl, ?_, ?_, ?_⟩
  · rw [granuleOf, List.getD_eq_getElem _ _ hlt]
    exact List.getElem?_eq_getElem hlt
  · intro hnil
    have hrows := List.map_eq_nil_iff.mp hnil
    have hempty := List.flatMap_eq_nil_iff.mp hrows item hown
    rw [hitem2] at hempty
    cases hempty
  · rw [granuleOf, List.length_map, List.length_map]
  · intro row hrow
    have hzip : row ∈ ((itemsOf calls (kept.map fun e => (e, s e, o e))).filter
        fun x => x.1 = item.1).flatMap Prod.snd := by
      rw [granuleOf, ← List.zip_of_prod rfl rfl] at hrow
      exact hrow
    obtain ⟨x, hx, hin⟩ := List.mem_flatMap.mp hzip
    obtain ⟨hx, hsame⟩ := List.mem_filter.mp hx
    obtain ⟨e', -, hx2, hpaired, -⟩ := hitem x hx
    rw [hx2] at hin
    obtain rfl := List.mem_singleton.mp hin
    rw [of_decide_eq_true hsame] at hpaired
    exact ⟨e', rfl, hpaired⟩

theorem unselectedOf_spec {decimal : String} {rs : List (Ns × Int × Ns)} {row : Row}
    (h : row ∈ unselectedOf calls decimal rs) : row.shard = decimal ∧ row.isLowResolution = false := by
  obtain ⟨r, -, rfl⟩ := List.mem_map.mp h
  exact ⟨rfl, rfl⟩

/-- The gate's rows and later ones that are not about resolution. -/
theorem low_append {se : ShardEpochs} {rows more : List Row} {kept : List Ns}
    (hg : Gated calls duration maxTimeOffset se rows kept)
    (hmore : ∀ row ∈ more, row.isLowResolution = false) :
    rows.length = (rows ++ more).countP Row.isLowResolution ∧
      ∀ e o, se.Claims e o →
        (.lowResolution (calls.decimal se.shard) (calls.asString e) o (2 ^ (62 - o)) ∈ rows ++ more ↔
          TooCoarse duration maxTimeOffset o) := by
  constructor
  · have hzero : more.countP Row.isLowResolution = 0 :=
      List.countP_eq_zero.mpr fun row hrow => by rw [hmore row hrow]; exact Bool.false_ne_true
    rw [List.countP_append, List.countP_eq_length.mpr hg.low, hzero, Nat.add_zero]
  · intro e o hclaims
    rw [List.mem_append, hg.coarse e o hclaims]
    constructor
    · rintro (h | h)
      · exact h
      · exact absurd (hmore _ h).symm Bool.false_ne_true
    · exact .inl

/-- The round of a shard with answers. -/
theorem emit_ledger {se : ShardEpochs} {rows : List Row} {kept : List Ns} {entries : List Entry}
    {times : List Ns} {s : Ns → Int} {o : Ns → Ns} (hg : Gated calls duration maxTimeOffset se rows kept)
    (hentries : spatial.entries se.shard = some entries)
    (htimes : List.Forall₂ (fun entry t => acquisitionTime calls (calls.decimal se.shard) entry = .ok t)
      entries times)
    (hanswer : ∀ e ∈ kept, Answer duration times maxTimeOffset e (s e) (o e)) :
    let rs := kept.map fun e => (e, s e, o e)
    ShardLedger calls duration spatial maxTimeOffset se (emit se.shard
      ⟨chosenOf entries (itemsOf calls rs), rows ++ unselectedOf calls (calls.decimal se.shard) rs,
        (itemsOf calls rs).length⟩ ⟨[], [], rows, [], 0, rows.length⟩) := by
  intro rs
  have hemitted : List.Forall₂ (Emitted calls duration maxTimeOffset se entries times)
      (recordsOf (itemsOf calls rs)) (inOrder (chosenOf entries (itemsOf calls rs))) :=
    emitted_of_answers htimes.length_eq.symm hg.kept hanswer
  obtain ⟨hlow, hcoarse⟩ := low_append hg
    fun row (hrow : row ∈ unselectedOf calls (calls.decimal se.shard) rs) => (unselectedOf_spec hrow).2
  have hbalance : (se.epochs.map calls.asString).Perm
      (((itemsOf calls rs).flatMap Prod.snd).map Prod.fst ++
        (rows ++ unselectedOf calls (calls.decimal se.shard) rs).map Row.epoch) := by
    have hrows := perm_rows calls (calls.decimal se.shard) rs
    rw [List.map_map] at hrows
    rw [List.map_append]
    apply hg.balance.trans
    apply (hrows.append_right _).trans
    rw [List.append_assoc]
    exact List.perm_append_comm.append_left _
  have hown : ∀ row ∈ rows ++ unselectedOf calls (calls.decimal se.shard) rs,
      row.shard = calls.decimal se.shard := by
    intro row hrow
    rcases List.mem_append.mp hrow with hrow | hrow
    · exact hg.own row hrow
    · exact (unselectedOf_spec hrow).1
  have hchosen := perm_inOrder entries (itemsOf calls rs)
  have hcount := length_itemsOf calls rs
  rw [emit]
  dsimp only
  split_ifs with hnil
  · have hitems : (itemsOf calls rs).flatMap Prod.snd = [] := by
      rw [hnil] at hchosen
      exact List.map_eq_nil_iff.mp hchosen.nil_eq.symm
    rw [hitems] at hbalance hcount
    exact ⟨hbalance, hown, hcount, hlow, hcoarse, .inl ⟨rfl, rfl⟩⟩
  · have hflat : ([] ++ [inOrder (chosenOf entries (itemsOf calls rs))]).flatten =
        inOrder (chosenOf entries (itemsOf calls rs)) := by
      rw [List.nil_append, List.flatten_singleton]
    refine ⟨?_, hown, ?_, hlow, hcoarse, .inr ⟨_, rfl, rfl, entries, times, _, hentries, htimes, ?_,
      strictly_recordsOf _, hemitted⟩⟩
    · show (se.epochs.map calls.asString).Perm (([] ++ [_]).flatten.flatMap _ ++ _)
      rw [hflat]
      exact hbalance.trans (hchosen.symm.append_right _)
    · show _ = (([] ++ [_]).flatten.flatMap _).length
      rw [hflat, hchosen.length_eq]
      exact hcount
    · exact fun hrec => hnil (recordsOf_eq_nil.mp hrec)

variable (spatial) in
/-- A round that returns accounts for every epoch of its shard. -/
theorem pairShard_ledger (hnp : calls.np.Exact duration) (hcap : capNs calls.np maxTimeOffset = .ok cap)
    {se : ShardEpochs} {part : Pairing}
    (h : pairShard calls spatial maxTimeOffset cap .empty se = .ok part) :
    ShardLedger calls duration spatial maxTimeOffset se part := by
  have hg := gate_spec hnp hcap se
  unfold pairShard at h
  dsimp only at h
  cases hidx : (spatialIdx spatial.shardKeys).lookup se.shard with
  | none =>
    rw [hidx] at h
    obtain rfl := Except.ok.inj h
    have hmore : ∀ row ∈ (gate calls cap se).2.map fun t =>
        Row.unselected (calls.decimal se.shard) (calls.asString t) none, row.isLowResolution = false := by
      simp [Row.isLowResolution]
    obtain ⟨hlow, hcoarse⟩ := low_append hg hmore
    refine ⟨?_, ?_, rfl, ?_, hcoarse, .inl ⟨rfl, rfl⟩⟩
    · have hmap : ((gate calls cap se).2.map fun t =>
          Row.unselected (calls.decimal se.shard) (calls.asString t) none).map Row.epoch =
          (gate calls cap se).2.map calls.asString := by
        rw [List.map_map]
        rfl
      show (se.epochs.map calls.asString).Perm ([] ++ List.map Row.epoch (([] ++ _) ++ _))
      rw [List.nil_append, List.nil_append, List.map_append, hmap]
      exact hg.balance.trans List.perm_append_comm
    · intro row hrow
      rcases List.mem_append.mp hrow with hrow | hrow
      · exact hg.own row hrow
      · obtain ⟨t, -, rfl⟩ := List.mem_map.mp hrow
        rfl
    · show 0 + (gate calls cap se).1.length = _
      rw [Nat.zero_add]
      exact hlow
  | some i =>
    rw [hidx] at h
    dsimp only at h
    split_ifs at h with hlen
    · obtain rfl := Except.ok.inj h
      have hmore : ∀ row ∈ ([] : List Row), row.isLowResolution = false := by simp
      obtain ⟨hlow, hcoarse⟩ := low_append hg hmore
      rw [List.append_nil] at hlow hcoarse
      have hnone : (gate calls cap se).2 = [] := List.eq_nil_of_length_eq_zero hlen
      refine ⟨?_, hg.own, rfl, ?_, hcoarse, .inl ⟨rfl, rfl⟩⟩
      · have hbalance := hg.balance
        rw [hnone] at hbalance
        exact hbalance
      · show 0 + (gate calls cap se).1.length = _
        rw [Nat.zero_add]
        exact hlow
    · obtain ⟨times, htimes, h⟩ := bind_ok h
      obtain ⟨selected, hselected, h⟩ := bind_ok h
      have hepochs : naT ∉ (gate calls cap se).2 := fun hmem => se.real (hg.kept _ hmem).1
      obtain ⟨s, o, hrun, hanswer⟩ :=
        nearestAcquisitions_spec hnp hepochs (naT_notMem_of_ok hselected) hcap
      obtain rfl := Except.ok.inj (hrun.symm.trans hselected)
      have hzip : ∀ kept : List Ns, kept.zip ((kept.map s).zip (kept.map o)) =
          kept.map fun e => (e, s e, o e) := fun kept =>
        calc kept.zip ((kept.map s).zip (kept.map o))
            = (kept.map id).zip (kept.map fun e => (s e, o e)) := by rw [List.map_id, List.zip_map']
          _ = kept.map fun e => (e, s e, o e) := List.zip_map' ..
      have hentries : spatial.entries se.shard = some (spatial.granules.getD i []) := by
        rw [SpatialMap.entries, hidx]
        rfl
      dsimp only at h
      rw [hzip, foldl_pairEpoch] at h
      obtain rfl := Except.ok.inj h
      have hledger := emit_ledger hg hentries (forall₂_mapM htimes) hanswer
      simpa [Pairing.empty, chosenOf] using hledger

end Round
section Run
variable {Offset : Type} {calls : Calls Offset} {duration : Offset → ℚ} {maxTimeOffset : Option Offset}
  {spatial : SpatialMap}

/-- The emitted shards with their granules. -/
def Pairing.shards (s : Pairing) : List (Word × List Granule) := s.shardKeys.zip s.granules

def Pairing.granulesOf (s : Pairing) (shard : Word) : List Granule := (s.shards.lookup shard).getD []

def Pairing.droppedOf (s : Pairing) (decimal : String) : List Row :=
  s.dropped.filter fun row => row.shard = decimal

theorem foldl_add (parts : List Pairing) (s : Pairing) : parts.foldl Pairing.add s =
    ⟨s.shardKeys ++ parts.flatMap Pairing.shardKeys, s.granules ++ parts.flatMap Pairing.granules,
      s.dropped ++ parts.flatMap Pairing.dropped, s.noAcquisitions ++ parts.flatMap Pairing.noAcquisitions,
      s.epochsPaired + (parts.map Pairing.epochsPaired).sum,
      s.lowResolution + (parts.map Pairing.lowResolution).sum⟩ := by
  induction parts generalizing s with
  | nil => simp
  | cons part parts ih =>
    rw [List.foldl_cons, ih]
    simp [Pairing.add, Nat.add_assoc]

def total (parts : List Pairing) : Pairing := parts.foldl Pairing.add .empty

@[simp] theorem total_shardKeys (parts : List Pairing) :
    (total parts).shardKeys = parts.flatMap Pairing.shardKeys := by
  rw [total, foldl_add]
  rfl

@[simp] theorem total_granules (parts : List Pairing) :
    (total parts).granules = parts.flatMap Pairing.granules := by
  rw [total, foldl_add]
  rfl

@[simp] theorem total_dropped (parts : List Pairing) :
    (total parts).dropped = parts.flatMap Pairing.dropped := by
  rw [total, foldl_add]
  rfl

@[simp] theorem total_epochsPaired (parts : List Pairing) :
    (total parts).epochsPaired = (parts.map Pairing.epochsPaired).sum := by
  rw [total, foldl_add]
  exact Nat.zero_add _

@[simp] theorem total_lowResolution (parts : List Pairing) :
    (total parts).lowResolution = (parts.map Pairing.lowResolution).sum := by
  rw [total, foldl_add]
  exact Nat.zero_add _

theorem length_shardKeys {se : ShardEpochs} {part : Pairing}
    (h : ShardLedger calls duration spatial maxTimeOffset se part) :
    part.shardKeys.length = part.granules.length := by
  rcases h.emitted with ⟨hk, hg⟩ | ⟨gs, hk, hg, -⟩
  · rw [hk, hg]
    rfl
  · rw [hk, hg]
    rfl

theorem length_total_shardKeys {ses : List ShardEpochs} {parts : List Pairing}
    (h : List.Forall₂ (ShardLedger calls duration spatial maxTimeOffset) ses parts) :
    (total parts).shardKeys.length = (total parts).granules.length := by
  rw [total_shardKeys, total_granules]
  induction h with
  | nil => rfl
  | cons hpart _ ih =>
    rw [List.flatMap_cons, List.flatMap_cons, List.length_append, List.length_append,
      length_shardKeys hpart, ih]

/-- The shards of the whole are those of the rounds. -/
theorem total_shards {ses : List ShardEpochs} {parts : List Pairing}
    (h : List.Forall₂ (ShardLedger calls duration spatial maxTimeOffset) ses parts) :
    (total parts).shards = parts.flatMap Pairing.shards := by
  rw [Pairing.shards, total_shardKeys, total_granules]
  induction h with
  | nil => rfl
  | cons hpart _ ih =>
    rw [List.flatMap_cons, List.flatMap_cons, List.flatMap_cons, List.zip_append (length_shardKeys hpart), ih]
    rfl

theorem keys_of_shards {se : ShardEpochs} {part : Pairing}
    (h : ShardLedger calls duration spatial maxTimeOffset se part) {x : Word × List Granule}
    (hx : x ∈ part.shards) : x.1 = se.shard ∧ EmittedShard calls duration spatial maxTimeOffset se x.2 := by
  rcases h.emitted with ⟨hk, hg⟩ | ⟨gs, hk, hg, hemitted⟩
  · rw [Pairing.shards, hk] at hx
    cases hx
  · rw [Pairing.shards, hk, hg] at hx
    obtain rfl := List.mem_singleton.mp hx
    exact ⟨rfl, hemitted⟩

theorem lookup_shards {se : ShardEpochs} {part : Pairing}
    (h : ShardLedger calls duration spatial maxTimeOffset se part) :
    (part.shards.lookup se.shard).getD [] = part.granules.flatten := by
  rcases h.emitted with ⟨hk, hg⟩ | ⟨gs, hk, hg, -⟩
  · rw [Pairing.shards, hk, hg]
    rfl
  · rw [Pairing.shards, hk, hg, List.zip_cons_cons, List.lookup_cons, beq_self_eq_true,
      List.flatten_singleton]
    rfl

/-- A shard that no round is about has no granules and no rows. -/
theorem absent_of_notMem {se : ShardEpochs} {ses : List ShardEpochs} {parts : List Pairing}
    (h : List.Forall₂ (ShardLedger calls duration spatial maxTimeOffset) ses parts)
    (hdecimal : ∀ se' ∈ ses, calls.decimal se'.shard = calls.decimal se.shard → se'.shard = se.shard)
    (hnot : se.shard ∉ ses.map ShardEpochs.shard) :
    (parts.flatMap Pairing.shards).lookup se.shard = none ∧
      (parts.flatMap Pairing.dropped).filter (fun row => row.shard = calls.decimal se.shard) = [] := by
  constructor
  · rw [lookup_eq_none, List.mem_map]
    rintro ⟨x, hx, hkey⟩
    obtain ⟨part, hpart, hx⟩ := List.mem_flatMap.mp hx
    obtain ⟨se', hse', hledger⟩ := forall₂_exists_of_mem_right h hpart
    exact hnot (List.mem_map.mpr ⟨se', hse', (keys_of_shards hledger hx).1.symm.trans hkey⟩)
  · rw [List.filter_eq_nil_iff]
    intro row hrow hkey
    obtain ⟨part, hpart, hrow⟩ := List.mem_flatMap.mp hrow
    obtain ⟨se', hse', hledger⟩ := forall₂_exists_of_mem_right h hpart
    have hsame := hdecimal se' hse' ((hledger.own row hrow).symm.trans (of_decide_eq_true hkey))
    exact hnot (List.mem_map.mpr ⟨se', hse', hsame⟩)

/-- A shard's granules and rows in the whole are those of its own round. -/
theorem exists_part {ses : List ShardEpochs} {parts : List Pairing}
    (h : List.Forall₂ (ShardLedger calls duration spatial maxTimeOffset) ses parts)
    (hnodup : (ses.map ShardEpochs.shard).Nodup) {se : ShardEpochs} (hse : se ∈ ses)
    (hdecimal : ∀ se' ∈ ses, calls.decimal se'.shard = calls.decimal se.shard → se'.shard = se.shard) :
    ∃ part, ShardLedger calls duration spatial maxTimeOffset se part ∧
      ((parts.flatMap Pairing.shards).lookup se.shard).getD [] = part.granules.flatten ∧
      (parts.flatMap Pairing.dropped).filter (fun row => row.shard = calls.decimal se.shard) =
        part.dropped := by
  induction h with
  | nil => cases hse
  | @cons se' part ses parts hpart hparts ih =>
    rw [List.map_cons, List.nodup_cons] at hnodup
    rw [List.flatMap_cons, List.flatMap_cons, List.filter_append]
    have hrest := fun se'' hse'' => hdecimal se'' (List.mem_cons_of_mem se' hse'')
    cases List.mem_cons.mp hse with
    | inl heq =>
      subst heq
      obtain ⟨hnone, hnil⟩ := absent_of_notMem hparts hrest hnodup.1
      have hown : part.dropped.filter (fun row => row.shard = calls.decimal se.shard) = part.dropped :=
        List.filter_eq_self.mpr fun row hrow => decide_eq_true (hpart.own row hrow)
      refine ⟨part, hpart, ?_, by rw [hown, hnil, List.append_nil]⟩
      rw [List.lookup_append, hnone, Option.or_none]
      exact lookup_shards hpart
    | inr hse =>
      have hne : se'.shard ≠ se.shard := fun heq => hnodup.1 (heq ▸ List.mem_map_of_mem hse)
      obtain ⟨part', hpart', hlookup, hfilter⟩ := ih hnodup.2 hse hrest
      refine ⟨part', hpart', ?_, ?_⟩
      · have hnone : part.shards.lookup se.shard = none := by
          rw [lookup_eq_none, List.mem_map]
          rintro ⟨x, hx, hkey⟩
          exact hne ((keys_of_shards hpart hx).1.symm.trans hkey)
        rw [List.lookup_append, hnone, Option.none_or]
        exact hlookup
      · have hnil : part.dropped.filter (fun row => row.shard = calls.decimal se.shard) = [] := by
          rw [List.filter_eq_nil_iff]
          intro row hrow hkey
          exact hne (hdecimal se' (.head _) ((hpart.own row hrow).symm.trans (of_decide_eq_true hkey)))
        rw [hnil, List.nil_append]
        exact hfilter

theorem sublist_keys {ses : List ShardEpochs} {parts : List Pairing}
    (h : List.Forall₂ (ShardLedger calls duration spatial maxTimeOffset) ses parts) :
    (parts.flatMap Pairing.shardKeys).Sublist (ses.map ShardEpochs.shard) := by
  induction h with
  | nil => exact .slnil
  | @cons se part ses parts hpart _ ih =>
    rw [List.flatMap_cons, List.map_cons]
    rcases hpart.emitted with ⟨hk, -⟩ | ⟨gs, hk, -⟩
    · rw [hk]
      exact ih.cons _
    · rw [hk]
      exact ih.cons_cons _

/-- The counters over all shards. -/
theorem total_counts {ses : List ShardEpochs} {parts : List Pairing}
    (h : List.Forall₂ (ShardLedger calls duration spatial maxTimeOffset) ses parts) :
    (ses.map fun se => se.epochs.length).sum = (total parts).epochsPaired + (total parts).dropped.length ∧
      (total parts).epochsPaired =
        ((total parts).granules.flatten.flatMap Granule.pairedEpochs).length ∧
      (total parts).lowResolution = (total parts).dropped.countP Row.isLowResolution := by
  simp only [total_epochsPaired, total_dropped, total_granules, total_lowResolution]
  induction h with
  | nil => exact ⟨rfl, rfl, rfl⟩
  | @cons se part ses parts hpart _ ih =>
    obtain ⟨hsum, hpaired, hlow⟩ := ih
    have hlen := hpart.balance.length_eq
    rw [List.length_map, List.length_append, List.length_map, ← hpart.paired] at hlen
    simp only [List.map_cons, List.sum_cons, List.flatMap_cons, List.flatten_append, List.flatMap_append,
      List.length_append, List.countP_append]
    rw [← hpart.paired, ← hpart.lowResolution, ← hpaired, ← hlow, hsum, hlen]
    exact ⟨by omega, rfl, rfl⟩

end Run
section Dated
variable {Offset : Type} {calls : Calls Offset} {spatial : SpatialMap} {maxTimeOffset : Option Offset}
  {cap : Option Int}

/-- Every entry of the catalog has an acquisition instant. -/
def Dated (calls : Calls Offset) (spatial : SpatialMap) : Prop :=
  ∀ entries ∈ spatial.granules, ∀ entry ∈ entries, ∃ t, t ≠ naT ∧
    ∀ shard, acquisitionTime calls shard entry = .ok t

theorem pairShard_ok {duration : Offset → ℚ} (hnp : calls.np.Exact duration)
    (hcap : capNs calls.np maxTimeOffset = .ok cap) (hdated : Dated calls spatial) (se : ShardEpochs) :
    ∃ part, pairShard calls spatial maxTimeOffset cap .empty se = .ok part := by
  unfold pairShard
  dsimp only
  cases (spatialIdx spatial.shardKeys).lookup se.shard with
  | none => exact ⟨_, rfl⟩
  | some i =>
    dsimp only
    split_ifs
    · exact ⟨_, rfl⟩
    · have hentries : ∀ entry ∈ spatial.granules.getD i [], ∃ t, t ≠ naT ∧
          ∀ shard, acquisitionTime calls shard entry = .ok t := by
        intro entry hmem
        by_cases hi : i < spatial.granules.length
        · rw [List.getD_eq_getElem _ _ hi] at hmem
          exact hdated _ (List.getElem_mem hi) entry hmem
        · rw [List.getD_eq_default _ _ (not_lt.mp hi)] at hmem
          cases hmem
      have hmap : ∀ entry ∈ spatial.granules.getD i [],
          ∃ t, acquisitionTime calls (calls.decimal se.shard) entry = .ok t := by
        intro entry hmem
        obtain ⟨t, -, ht⟩ := hentries entry hmem
        exact ⟨t, ht _⟩
      obtain ⟨times, htimes⟩ := exists_mapM hmap
      have hreal : naT ∉ times := by
        intro hmem
        obtain ⟨entry, hentry, hacq⟩ := forall₂_exists_of_mem_right (forall₂_mapM htimes) hmem
        obtain ⟨t, hne, ht⟩ := hentries entry hentry
        exact hne (Except.ok.inj ((ht _).symm.trans hacq))
      have hepochs : naT ∉ (gate calls cap se).2 := fun hmem =>
        se.real ((gate_spec hnp hcap se).kept _ hmem).1
      obtain ⟨s, o, hrun, -⟩ := nearestAcquisitions_spec hnp hepochs hreal hcap
      rw [htimes]
      show ∃ part, (nearestAcquisitions ..).bind _ = .ok part
      rw [hrun]
      exact ⟨_, rfl⟩

end Dated

/-- The ledger of a run. -/
structure Ledger {Offset : Type} (calls : Calls Offset) (duration : Offset → ℚ) (ref : ReferenceEpochs)
    (spatial : SpatialMap) (maxTimeOffset : Option Offset) (r : Pairing) (m : ClosestMeta) : Prop where
  /-- The granules' epochs and the dropped rows of a shard are its epochs. -/
  balance : ∀ se ∈ ref.epochs, (se.epochs.map calls.asString).Perm
    ((r.granulesOf se.shard).flatMap Granule.pairedEpochs ++
      (r.droppedOf (calls.decimal se.shard)).map Row.epoch)
  /-- An epoch is listed once. -/
  once : ∀ se ∈ ref.epochs, ∀ e ∈ se.epochs, ((r.granulesOf se.shard).flatMap Granule.pairedEpochs ++
    (r.droppedOf (calls.decimal se.shard)).map Row.epoch).count (calls.asString e) = 1
  coarse : ∀ se ∈ ref.epochs, ∀ e o, se.Claims e o →
    (.lowResolution (calls.decimal se.shard) (calls.asString e) o (2 ^ (62 - o)) ∈ r.dropped ↔
      TooCoarse duration maxTimeOffset o)
  keys : r.shardKeys.Pairwise (· < ·)
  aligned : r.shardKeys.length = r.granules.length
  emitted : ∀ x ∈ r.shards, ∃ se ∈ ref.epochs, x.1 = se.shard ∧
    EmittedShard calls duration spatial maxTimeOffset se x.2
  total : m.epochsTotal = m.epochsPaired + m.epochsDropped
  paired : m.epochsPaired = (r.granules.flatten.flatMap Granule.pairedEpochs).length
  dropped : m.dropped = r.dropped ∧ m.epochsDropped = r.dropped.length
  lowResolution : m.epochsDroppedLowResolution = r.dropped.countP Row.isLowResolution

/-- The shards in the order of the loop. -/
def ReferenceEpochs.inOrder (ref : ReferenceEpochs) : List ShardEpochs :=
  ref.epochs.insertionSort fun a b => a.shard ≤ b.shard

section Whole
variable {Offset : Type} {calls : Calls Offset} {duration : Offset → ℚ} {maxTimeOffset : Option Offset}
  {cap : Option Int} {spatial : SpatialMap} {ref : ReferenceEpochs}

theorem perm_inOrder_epochs (ref : ReferenceEpochs) : ref.inOrder.Perm ref.epochs :=
  List.perm_insertionSort _ _

theorem strictly_inOrder (ref : ReferenceEpochs) : (ref.inOrder.map ShardEpochs.shard).Pairwise (· < ·) := by
  have : Std.Total fun a b : ShardEpochs => a.shard ≤ b.shard := ⟨fun a b => Nat.le_total a.shard b.shard⟩
  have : IsTrans ShardEpochs fun a b => a.shard ≤ b.shard := ⟨fun _ _ _ => Nat.le_trans⟩
  have hle : (ref.inOrder.map ShardEpochs.shard).Pairwise (· ≤ ·) :=
    List.pairwise_map.mpr (List.pairwise_insertionSort _ _)
  have hnodup : (ref.inOrder.map ShardEpochs.shard).Nodup :=
    ((perm_inOrder_epochs ref).map _).nodup_iff.mpr ref.nodup
  exact (hle.and hnodup).imp fun h => lt_of_le_of_ne h.1 h.2

theorem pairShards_eq (hcap : capNs calls.np maxTimeOffset = .ok cap) :
    pairShards calls ref spatial maxTimeOffset =
      (ref.inOrder.mapM (pairShard calls spatial maxTimeOffset cap .empty)).map total := by
  rw [pairShards, hcap]
  exact foldlM_pairShard ref.inOrder .empty

theorem ledger_of_parts
    (hdecimal : Set.InjOn calls.decimal {w | w ∈ ref.epochs.map ShardEpochs.shard})
    (hasString : Function.Injective calls.asString) {parts : List Pairing} (aoiKeys : Option (List Word))
    (h : List.Forall₂ (ShardLedger calls duration spatial maxTimeOffset) ref.inOrder parts) :
    Ledger calls duration ref spatial maxTimeOffset (total parts)
      (closestMeta calls ref spatial aoiKeys cap (total parts)) := by
  have hshards := total_shards h
  have hown : ∀ se ∈ ref.epochs, ∃ part, ShardLedger calls duration spatial maxTimeOffset se part ∧
      (total parts).granulesOf se.shard = part.granules.flatten ∧
      (total parts).droppedOf (calls.decimal se.shard) = part.dropped := by
    intro se hse
    have hdistinct : ∀ se' ∈ ref.inOrder,
        calls.decimal se'.shard = calls.decimal se.shard → se'.shard = se.shard := fun se' hse' hsame =>
      hdecimal (List.mem_map_of_mem ((perm_inOrder_epochs ref).mem_iff.mp hse'))
        (List.mem_map_of_mem hse) hsame
    obtain ⟨part, hpart, hlookup, hfilter⟩ := exists_part h ((strictly_inOrder ref).imp Nat.ne_of_lt)
      ((perm_inOrder_epochs ref).mem_iff.mpr hse) hdistinct
    refine ⟨part, hpart, ?_, ?_⟩
    · rw [Pairing.granulesOf, hshards]
      exact hlookup
    · rw [Pairing.droppedOf, total_dropped]
      exact hfilter
  have hbalance : ∀ se ∈ ref.epochs, (se.epochs.map calls.asString).Perm
      (((total parts).granulesOf se.shard).flatMap Granule.pairedEpochs ++
        ((total parts).droppedOf (calls.decimal se.shard)).map Row.epoch) := by
    intro se hse
    obtain ⟨part, hpart, hgranules, hdropped⟩ := hown se hse
    rw [hgranules, hdropped]
    exact hpart.balance
  obtain ⟨hsum, hpaired, hlow⟩ := total_counts h
  constructor
  · exact hbalance
  · intro se hse e he
    rw [← (hbalance se hse).count_eq]
    exact List.count_eq_one_of_mem (se.nodup.map hasString) (List.mem_map_of_mem he)
  · intro se hse e o hclaims
    obtain ⟨part, hpart, -, hdropped⟩ := hown se hse
    rw [← hpart.coarse e o hclaims, ← hdropped, Pairing.droppedOf, List.mem_filter]
    exact ⟨fun hrow => ⟨hrow, decide_eq_true rfl⟩, fun hrow => hrow.1⟩
  · rw [total_shardKeys]
    exact (strictly_inOrder ref).sublist (sublist_keys h)
  · exact length_total_shardKeys h
  · intro x hx
    rw [hshards] at hx
    obtain ⟨part, hpart, hx⟩ := List.mem_flatMap.mp hx
    obtain ⟨se, hse, hledger⟩ := forall₂_exists_of_mem_right h hpart
    obtain ⟨hkey, hemitted⟩ := keys_of_shards hledger hx
    exact ⟨se, (perm_inOrder_epochs ref).mem_iff.mp hse, hkey, hemitted⟩
  · show ref.total = _
    rw [ReferenceEpochs.total, ← ((perm_inOrder_epochs ref).map _).sum_nat]
    exact hsum
  · exact hpaired
  · exact ⟨rfl, rfl⟩
  · exact hlow

end Whole

section Sample

/-- The text of an instant; only the first one's is written out. -/
def sampleText (t : Ns) : String :=
  if t = 0 then "1970-01-01T00:00:00.000000000" else String.ofList (PyText.pyStr t.toNat)

theorem sampleText_injective : Function.Injective sampleText := by
  have hback : ∀ t : Ns, t ≠ 0 → PyText.pyInt (sampleText t).toList = some (t.toNat : Int) := by
    intro t ht
    rw [sampleText, if_neg ht, String.toList_ofList]
    exact PyText.pyInt_pyStr (Int.natCast_nonneg _) (by exact_mod_cast t.isLt)
  have hzero : PyText.pyInt (sampleText 0).toList = none := by decide
  intro a b h
  by_cases ha : a = 0
  · by_cases hb : b = 0
    · rw [ha, hb]
    · have hval := hback b hb
      rw [← h, ha, hzero] at hval
      cases hval
  · have hval := hback a ha
    by_cases hb : b = 0
    · rw [h, hb, hzero] at hval
      cases hval
    · rw [h, hback b hb] at hval
      exact (BitVec.eq_of_toNat_eq (Int.ofNat.inj (Option.some.inj hval))).symm

def sampleCalls : Calls Duration where
  np := durations
  parseTime
    | .str "1970-01-01T00:00:01" => .ok 1000000000
    | .str "1970-01-01T00:00:30" => .ok 30000000000
    | _ => .error "Invalid isoformat string"
  asString := sampleText
  decimal shard := String.ofList (PyText.pyStr shard)
  repr _ := "None"

/-- The second epoch of the first shard is far from any acquisition, the second one of the other
shard comes from a bucket of hours. -/
def sampleEpochs : ReferenceEpochs where
  order := 4
  epochs := [{
    shard := 9
    epochs := [31000000000, 30000000000]
    orders := some [33, 20]
    aligned := by simp
    resolved := by simp
    nodup := by decide
    real := by decide }, {
    shard := 7
    epochs := [0, 10000000000]
    orders := some [33, 33]
    aligned := by simp
    resolved := by simp
    nodup := by decide
    real := by decide }]
  stores := ["s3://reference"]
  orders := [(7, 33), (9, 20)]
  nodup := by decide

def sampleSpatial : SpatialMap where
  shardKeys := [7, 9]
  granules := [[[("id", .str "S2A"), ("datetime", .str "1970-01-01T00:00:01")],
      [("id", .str "S2B"), ("time_start", .str "1970-01-01T00:00:30")]],
    [[("id", .str "S2C"), ("datetime", .str "1970-01-01T00:00:30")]]]

end Sample

/-- The ledger balances in every run that returns, and a run returns on every catalog whose
entries are dated. -/
theorem closest_obs_ledger {Offset : Type} {calls : Calls Offset} {duration : Offset → ℚ}
    (hnp : calls.np.Exact duration) (hasString : Function.Injective calls.asString)
    (ref : ReferenceEpochs)
    (hdecimal : Set.InjOn calls.decimal {w | w ∈ ref.epochs.map ShardEpochs.shard})
    (spatial : SpatialMap)
    (aoiKeys : Option (List Word)) (maxTimeOffset : Option Offset) :
    (∀ parentOrder r m, closestObsShardmap calls parentOrder ref spatial aoiKeys maxTimeOffset = .ok (r, m) →
      Ledger calls duration ref spatial maxTimeOffset r m) ∧
    ∀ cap, capNs calls.np maxTimeOffset = .ok cap → Dated calls spatial →
      ∃ r m, closestObsShardmap calls ref.order ref spatial aoiKeys maxTimeOffset = .ok (r, m) := by
  constructor
  · intro parentOrder r m h
    rw [closestObsShardmap] at h
    split_ifs at h
    · cases h
    · obtain ⟨cap, hcap, h⟩ := bind_ok h
      obtain ⟨s, hs, h⟩ := bind_ok h
      obtain ⟨rfl, rfl⟩ := Prod.mk.inj (Except.ok.inj h)
      rw [pairShards_eq hcap] at hs
      cases hparts : ref.inOrder.mapM (pairShard calls spatial maxTimeOffset cap .empty) with
      | error e =>
        rw [hparts] at hs
        cases hs
      | ok parts =>
        rw [hparts] at hs
        obtain rfl := Except.ok.inj hs
        apply ledger_of_parts hdecimal hasString
        exact (forall₂_mapM hparts).imp fun se part hpart => pairShard_ledger spatial hnp hcap hpart
  · intro cap hcap hdated
    obtain ⟨parts, hparts⟩ := exists_mapM fun se (_ : se ∈ ref.inOrder) => pairShard_ok hnp hcap hdated se
    have hrun : pairShards calls ref spatial maxTimeOffset = .ok (total parts) := by
      rw [pairShards_eq hcap, hparts]
      rfl
    refine ⟨total parts, closestMeta calls ref spatial aoiKeys cap (total parts), ?_⟩
    rw [closestObsShardmap, if_neg (not_not_intro rfl), hcap, hrun]
    rfl

/-- One epoch of each shard is paired and one dropped. -/
theorem closest_obs_ledger_twoShards :
    ∃ r m, closestObsShardmap sampleCalls 4 sampleEpochs sampleSpatial none (some (.s 1)) = .ok (r, m) ∧
      Ledger sampleCalls Duration.exact sampleEpochs sampleSpatial (some (.s 1)) r m ∧
      r.shardKeys = [7, 9] ∧ m.epochsPaired = 2 ∧ m.epochsDropped = 2 ∧
      m.epochsDroppedLowResolution = 1 := by
  have hdecimal : Set.InjOn sampleCalls.decimal {w | w ∈ sampleEpochs.epochs.map ShardEpochs.shard} := by
    have hall : ∀ a ∈ [9, 7], ∀ b ∈ [9, 7],
        sampleCalls.decimal a = sampleCalls.decimal b → a = b := by decide
    exact fun a ha b hb h => hall a ha b hb h
  obtain ⟨hledger, hreturns⟩ := @closest_obs_ledger _ sampleCalls _ durations_exact
    sampleText_injective sampleEpochs hdecimal sampleSpatial none (some (.s 1))
  have hdated : Dated sampleCalls sampleSpatial := by
    intro entries hentries entry hentry
    simp only [sampleSpatial, List.mem_cons, List.not_mem_nil, or_false] at hentries
    rcases hentries with rfl | rfl
    · simp only [List.mem_cons, List.not_mem_nil, or_false] at hentry
      rcases hentry with rfl | rfl
      · exact ⟨1000000000, by decide, fun _ => rfl⟩
      · exact ⟨30000000000, by decide, fun _ => rfl⟩
    · obtain rfl := List.mem_singleton.mp hentry
      exact ⟨30000000000, by decide, fun _ => rfl⟩
  obtain ⟨r, m, hrun⟩ := hreturns (some 1000000000) rfl hdated
  have hcounts : (closestObsShardmap sampleCalls sampleEpochs.order sampleEpochs sampleSpatial none (some (.s 1))).map
      (fun x => (x.1.shardKeys, x.2.epochsPaired, x.2.epochsDropped,
        x.2.epochsDroppedLowResolution)) = .ok ([7, 9], 2, 2, 1) := by decide +kernel
  rw [hrun] at hcounts
  simp only [Except.map, Except.ok.injEq, Prod.mk.injEq] at hcounts
  exact ⟨r, m, hrun, hledger 4 r m hrun, hcounts⟩

end Zagg.Catalog.Closest
