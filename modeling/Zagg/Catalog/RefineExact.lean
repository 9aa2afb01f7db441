import Zagg.Catalog.Assignment
import Zagg.Catalog.Refine

/-!
# What refining lists

An entry is found again by its id alone, so a finer shard lists, for each id of its source shard,
the last record of that id with the assets of the last entry of that id. These are the shard's own
entries exactly when every one of them is what its id finds.
-/
namespace Zagg.Catalog

open Zagg.Lib

section Found
open Classical

variable {V P : Type} (calls : RefineCalls V) (v : Cover P) (plan : FootprintPlan) (target : Nat)
  (records : List (CatalogRecord V))

/-- The cover of a record's footprint meets a shard. -/
def Meets (rec : CatalogRecord V) (d : Word) : Prop :=
  recordMeets calls.mortie v target plan.mortieOrder (granuleFootprints calls plan) calls.finite rec d

/-- What a listed entry says of its granule. -/
def ownFields (e : ShardEntry) : Distinguishing × Option Json := (distinguishing e, e.assets)

/-- The record an entry is mapped back to. -/
def foundRecord (g : ShardEntry) : Option (CatalogRecord V) :=
  (recordById records g.id).map fun rec => subRecord rec g

/-- The items a source shard's entries give one of its descendants. -/
noncomputable def hitItems (granules : List ShardEntry) (d : Word) :
    List (Distinguishing × ShardEntry) :=
  ((granules.filterMap (foundRecord records)).filter fun rec =>
    Meets calls v plan target rec d).map recordItem

variable {calls v plan target records}

theorem granuleFootprints_subRecord (rec : CatalogRecord V) (g : ShardEntry) :
    granuleFootprints calls plan (subRecord rec g) = granuleFootprints calls plan rec := by
  unfold granuleFootprints subRecord
  cases g.assets <;> rfl

theorem meets_subRecord {rec : CatalogRecord V} {g : ShardEntry} {d : Word} :
    Meets calls v plan target (subRecord rec g) d ↔ Meets calls v plan target rec d := by
  unfold Meets recordMeets
  rw [granuleFootprints_subRecord]

theorem distinguishing_subRecord (rec : CatalogRecord V) (g : ShardEntry) :
    distinguishing (subRecord rec g).toShardEntry = distinguishing rec.toShardEntry := by
  unfold subRecord
  cases g.assets <;> rfl

/-- The dictionary keeps the last record of an id. -/
theorem recordById_eq (id : Option Text) :
    recordById records id = records.reverse.find? fun r => decide (r.id = id) := by
  rw [recordById, dictGet, lookup_dictOf_map, Option.map_id_fun']
  rfl

theorem id_of_recordById {id : Option Text} {rec : CatalogRecord V}
    (h : recordById records id = some rec) : rec.id = id := by
  rw [recordById_eq] at h
  have hid : decide (rec.id = id) = true :=
    List.find?_some (p := fun r : CatalogRecord V => decide (r.id = id)) h
  exact of_decide_eq_true hid

/-- The last entry of an id. -/
def lastEntry (granules : List ShardEntry) (id : Option Text) : Option ShardEntry :=
  granules.reverse.find? fun g => g.id = id

variable (calls v plan target records) in
/-- An entry gives the item of a key when its id finds a record of that key that meets. -/
noncomputable def givesKey (d : Word) (key : Distinguishing) (g : ShardEntry) : Bool :=
  (foundRecord records g).any fun rec =>
    Meets calls v plan target rec d ∧ distinguishing rec.toShardEntry = key

theorem givesKey_iff {g : ShardEntry} {d : Word} {key : Distinguishing} :
    givesKey calls v plan target records d key g = true ↔
      ∃ rec, recordById records g.id = some rec ∧ Meets calls v plan target rec d ∧
        distinguishing rec.toShardEntry = key := by
  rw [givesKey, foundRecord, Option.any_map, Option.any_eq_true]
  refine exists_congr fun rec => and_congr_right fun _ => ?_
  show decide _ = true ↔ _
  rw [decide_eq_true_eq, meets_subRecord, distinguishing_subRecord]

/-- Where a record of the key meets, the entries that give the key are those of its id. -/
theorem find?_givesKey {granules : List ShardEntry} {d : Word} {key : Distinguishing}
    {rec : CatalogRecord V} (hrec : recordById records key.id = some rec)
    (hmeets : Meets calls v plan target rec d) (hkey : distinguishing rec.toShardEntry = key) :
    granules.reverse.find? (givesKey calls v plan target records d key) =
      lastEntry granules key.id := by
  refine congrArg (List.find? · granules.reverse) (funext fun g => ?_)
  rw [Bool.eq_iff_iff, givesKey_iff, decide_eq_true_eq]
  constructor
  · rintro ⟨rec', hrec', -, hkey'⟩
    rw [← id_of_recordById hrec', ← hkey']
    rfl
  · intro hid
    exact ⟨rec, hid ▸ hrec, hmeets, hkey⟩

theorem id_of_lastEntry {granules : List ShardEntry} {id : Option Text} {g : ShardEntry}
    (h : lastEntry granules id = some g) : g.id = id := by
  have hid : decide (g.id = id) = true :=
    List.find?_some (p := fun g : ShardEntry => decide (g.id = id)) h
  exact of_decide_eq_true hid

/-- The items of a descendant, one for each granule: the record found by an id, with the assets of
the last entry of that id. -/
theorem mem_dictOf_hitItems {granules : List ShardEntry} {d : Word} {key : Distinguishing}
    {e : ShardEntry} : (key, e) ∈ dictOf (hitItems calls v plan target records granules d) ↔
      ∃ rec g, recordById records key.id = some rec ∧ Meets calls v plan target rec d ∧
        distinguishing rec.toShardEntry = key ∧ lastEntry granules key.id = some g ∧
        granuleEntry (subRecord rec g).toShardEntry = e := by
  have hfind : (((granules.filterMap (foundRecord records)).filter fun rec =>
      Meets calls v plan target rec d).reverse.find? fun rec =>
        distinguishing rec.toShardEntry = key) =
      (granules.reverse.find? (givesKey calls v plan target records d key)).bind
        (foundRecord records) := by
    rw [← List.filter_reverse, ← List.filterMap_reverse, List.find?_filter, List.find?_filterMap]
    congr 2
    funext g
    unfold givesKey
    congr 1
    funext rec
    simp
  have hitem : (recordItem : CatalogRecord V → _) = fun rec =>
      (distinguishing rec.toShardEntry, granuleEntry rec.toShardEntry) := rfl
  rw [hitItems, hitem, mem_dictOf_map, hfind]
  constructor
  · rintro ⟨sub, hsub, rfl⟩
    obtain ⟨g, hgives, hfound⟩ := Option.bind_eq_some_iff.mp hsub
    obtain ⟨rec, hrec, hmeets, hkey⟩ := givesKey_iff.mp (List.find?_some hgives)
    have hid : g.id = key.id := by
      rw [← id_of_recordById hrec, ← hkey]
      rfl
    rw [hid] at hrec
    rw [find?_givesKey hrec hmeets hkey] at hgives
    rw [foundRecord, hid, hrec] at hfound
    exact ⟨rec, g, hrec, hmeets, hkey, hgives, by rw [← Option.some.inj hfound]⟩
  · rintro ⟨rec, g, hrec, hmeets, hkey, hlast, rfl⟩
    refine ⟨subRecord rec g, ?_, rfl⟩
    rw [find?_givesKey hrec hmeets hkey, hlast, Option.bind_some, foundRecord, id_of_lastEntry hlast,
      hrec]
    rfl

end Found

section Refined
open Classical

variable {V P : Type} {calls : RefineCalls V} {v : Cover P} {plan : FootprintPlan} {target : Nat}
  {records : List (CatalogRecord V)}

theorem mapM_isSome {α β : Type} {f : α → Option β} {l : List α} (h : ∀ a ∈ l, (f a).isSome) :
    l.mapM f = some (l.filterMap f) := by
  induction l with
  | nil => rfl
  | cons a l ih =>
    obtain ⟨b, hb⟩ := Option.isSome_iff_exists.mp (h a (.head _))
    rw [List.mapM_cons, hb, ih fun x hx => h x (.tail _ hx), List.filterMap_cons, hb]
    rfl

variable (plan) in
/-- One source shard gives each descendant the items of the records that meet it. -/
theorem refineShard_spec (hring : calls.mortie.RingAlgebra v target) {shardKey : Word}
    (hshards : ∀ d ∈ calls.generateMortonChildren shardKey target, v.isShard d)
    {granules : List ShardEntry} (hfound : ∀ g ∈ granules, (recordById records g.id).isSome) :
    ∃ hits, refineShard calls plan target records shardKey granules = .ok hits ∧
      (hits.map Prod.fst).Nodup ∧
      (∀ h ∈ hits, h.1 ∈ calls.generateMortonChildren shardKey target ∧
        h.2 = hitItems calls v plan target records granules h.1) ∧
      ∀ d ∈ calls.generateMortonChildren shardKey target,
        hitItems calls v plan target records granules d ≠ [] → d ∈ hits.map Prod.fst := by
  have hsubs : (granules.mapM fun g => (recordById records g.id).map fun rec => subRecord rec g) =
      some (granules.filterMap (foundRecord records)) :=
    mapM_isSome fun g hg => (Option.isSome_map ..).trans (hfound g hg)
  have hbatch : 0 < mocBatchRings := by decide
  obtain ⟨dict, hdict, hassigned⟩ := intersectMortie_spec hring hbatch plan.mortieOrder (granuleFootprints calls plan) calls.finite
    (granules.filterMap (foundRecord records))
    (fun d hd => hshards d (List.mem_dedup.mp hd) :
      ∀ d ∈ (calls.generateMortonChildren shardKey target).dedup, v.isShard d)
  have hchild : ∀ h ∈ dict, h.1 ∈ calls.generateMortonChildren shardKey target := by
    intro h hh
    obtain ⟨i, hi⟩ := List.exists_mem_of_ne_nil _ (hassigned.ne_nil h hh)
    exact List.mem_dedup.mp ((hassigned.mem_iff h hh i).mp hi).1
  refine ⟨dict.map fun hit => (hit.1,
    (gather (granules.filterMap (foundRecord records)) hit.2).map recordItem), ?_, ?_, ?_, ?_⟩
  · unfold refineShard
    rw [hsubs]
    dsimp only
    rw [hdict]
  · rw [List.map_map]
    exact hassigned.keys.imp Nat.ne_of_lt
  · intro h hh
    obtain ⟨hit, hhit, rfl⟩ := List.mem_map.mp hh
    refine ⟨hchild hit hhit, congrArg (List.map recordItem) ?_⟩
    refine gather_increasing (hassigned.increasing hit hhit) fun i => ?_
    rw [hassigned.mem_iff hit hhit i]
    simp only [decide_eq_true_eq]
    exact ⟨fun hi => hi.2, fun hi => ⟨List.mem_dedup.mpr (hchild hit hhit), hi⟩⟩
  · intro d hd hne
    obtain ⟨item, hitem⟩ := List.exists_mem_of_ne_nil _ hne
    obtain ⟨rec, hrec, -⟩ := List.mem_map.mp hitem
    obtain ⟨hrec, hmeets⟩ := List.mem_filter.mp hrec
    obtain ⟨i, hi⟩ := List.mem_iff_getElem?.mp hrec
    rw [List.map_map]
    exact hassigned.complete d i ⟨List.mem_dedup.mpr hd, rec, hi, of_decide_eq_true hmeets⟩

/-- Items of different keys are collected as they are. -/
theorem mem_of_mem_collect {κ ν : Type} [DecidableEq κ] {items : List (κ × List ν)}
    (hn : (items.map Prod.fst).Nodup) {e : κ × List ν} (he : e ∈ collect items) : e ∈ items := by
  obtain ⟨item, hitem, hkey⟩ :=
    List.mem_map.mp ((mem_keys_collect items).mp (List.mem_map_of_mem he))
  have hmem : item ∈ items.filter fun x => x.1 = e.1 :=
    List.mem_filter.mpr ⟨hitem, decide_eq_true hkey⟩
  have hnodup : ((items.filter fun x => x.1 = e.1).map Prod.fst).Nodup :=
    hn.sublist (List.filter_sublist.map Prod.fst)
  have hsnd : e.2 = item.2 := by
    rw [snd_of_mem_collect he]
    refine flatMap_of_unique hnodup hmem fun e' he' hne => ?_
    exact absurd ((of_decide_eq_true (List.mem_filter.mp he').2).trans hkey.symm) hne
  have heq : e = item := Prod.ext hkey.symm hsnd
  exact heq ▸ hitem

/-- The finer shards: each lies below one source shard and has the granules of its items, and no
descendant with an item is left out. -/
theorem refineShards_spec {metadata : List (String × Json)} {chunkOrder : Nat} {shards : Shards}
    (hplan : footprintPlan calls metadata target chunkOrder = .ok plan)
    (hring : calls.mortie.RingAlgebra v target)
    (hshards : ∀ s ∈ shards, ∀ d ∈ calls.generateMortonChildren s.1 target, v.isShard d)
    (hfound : ∀ s ∈ shards, ∀ g ∈ s.2, (recordById records g.id).isSome)
    (hkeys : (shards.map Prod.fst).Nodup)
    (hdisjoint : ∀ s ∈ shards, ∀ s' ∈ shards, ∀ d, d ∈ calls.generateMortonChildren s.1 target →
      d ∈ calls.generateMortonChildren s'.1 target → s.1 = s'.1) :
    ∃ out, refineShards calls metadata target chunkOrder records shards =
        .ok (out, plan.mortieOrder) ∧ (out.map Prod.fst).Nodup ∧
      (∀ o ∈ out, ∃ s ∈ shards, o.1 ∈ calls.generateMortonChildren s.1 target ∧
        o.2 = (dictOf (hitItems calls v plan target records s.2 o.1)).map Prod.snd) ∧
      ∀ s ∈ shards, ∀ d ∈ calls.generateMortonChildren s.1 target,
        hitItems calls v plan target records s.2 d ≠ [] → d ∈ out.map Prod.fst := by
  choose! hits hcall hnodup hitems hcomplete using
    fun s hs => refineShard_spec plan hring (hshards s hs) (hfound s hs)
  have hmapM : (shards.mapM fun s => refineShard calls plan target records s.1 s.2) =
      .ok (shards.map hits) := mapM_ok hcall
  have hflat : ((shards.map hits).flatten.map Prod.fst).Nodup := by
    rw [← List.flatMap_def, List.map_flatMap, List.nodup_flatMap]
    refine ⟨hnodup, (List.Nodup.of_map _ hkeys).pairwise_of_forall_ne fun s hs s' hs' hne => ?_⟩
    intro d hd hd'
    obtain ⟨h, hh, rfl⟩ := List.mem_map.mp hd
    obtain ⟨h', hh', heq⟩ := List.mem_map.mp hd'
    have hchild' := (hitems s' hs' h' hh').1
    rw [heq] at hchild'
    have hkey := hdisjoint s hs s' hs' h.1 (hitems s hs h hh).1 hchild'
    exact hne (List.inj_on_of_nodup_map hkeys hs hs' hkey)
  have hbuckets : ((bucketed (shards.map hits).flatten).map Prod.fst).Nodup := by
    rw [bucketed_eq, List.map_map]
    exact nodup_collect _
  have hperm : (readIn (((bucketed (shards.map hits).flatten).map Prod.fst).insertionSort (· ≤ ·))
      (bucketed (shards.map hits).flatten)).Perm (bucketed (shards.map hits).flatten) :=
    perm_readIn hbuckets ((List.perm_insertionSort _ _).nodup_iff.mpr hbuckets)
      fun k hk => (List.mem_insertionSort _).mpr hk
  refine ⟨(readIn (((bucketed (shards.map hits).flatten).map Prod.fst).insertionSort (· ≤ ·))
    (bucketed (shards.map hits).flatten)).map fun g => (g.1, g.2.map Prod.snd), ?_, ?_, ?_, ?_⟩
  · unfold refineShards
    rw [hplan]
    show ((shards.mapM fun s => refineShard calls plan target records s.1 s.2).bind _) = _
    rw [hmapM]
    rfl
  · rw [List.map_map]
    exact (hperm.map Prod.fst).nodup_iff.mpr hbuckets
  · intro o ho
    obtain ⟨b, hb, rfl⟩ := List.mem_map.mp ho
    have hb := hperm.mem_iff.mp hb
    rw [bucketed_eq] at hb
    obtain ⟨e, he, rfl⟩ := List.mem_map.mp hb
    obtain ⟨l, hl, he⟩ := List.mem_flatten.mp (mem_of_mem_collect hflat he)
    obtain ⟨s, hs, rfl⟩ := List.mem_map.mp hl
    obtain ⟨hchild, hval⟩ := hitems s hs e he
    exact ⟨s, hs, hchild, by rw [← hval]⟩
  · intro s hs d hd hne
    obtain ⟨h, hh, hkey⟩ := List.mem_map.mp (hcomplete s hs d hd hne)
    have hmem : d ∈ (bucketed (shards.map hits).flatten).map Prod.fst := by
      rw [bucketed_eq, List.map_map]
      refine (mem_keys_collect _).mpr (List.mem_map.mpr ⟨h, ?_, hkey⟩)
      exact List.mem_flatten.mpr ⟨hits s, List.mem_map_of_mem hs, hh⟩
    rw [List.map_map]
    exact (hperm.map Prod.fst).mem_iff.mpr hmem

/-- What the finer shards list: what the ids of a source shard find. -/
theorem listed_iff {shards out : Shards} (hkeys : (shards.map Prod.fst).Nodup)
    (hdisjoint : ∀ s ∈ shards, ∀ s' ∈ shards, ∀ d, d ∈ calls.generateMortonChildren s.1 target →
      d ∈ calls.generateMortonChildren s'.1 target → s.1 = s'.1)
    (hout : ∀ o ∈ out, ∃ s ∈ shards, o.1 ∈ calls.generateMortonChildren s.1 target ∧
      o.2 = (dictOf (hitItems calls v plan target records s.2 o.1)).map Prod.snd)
    (hcomplete : ∀ s ∈ shards, ∀ d ∈ calls.generateMortonChildren s.1 target,
      hitItems calls v plan target records s.2 d ≠ [] → d ∈ out.map Prod.fst)
    (d : Word) (f : Distinguishing × Option Json) :
    (∃ o ∈ out, o.1 = d ∧ f ∈ o.2.map ownFields) ↔
      ∃ s ∈ shards, d ∈ calls.generateMortonChildren s.1 target ∧ ∃ id rec g,
        recordById records id = some rec ∧ lastEntry s.2 id = some g ∧
        Meets calls v plan target rec d ∧ ownFields (subRecord rec g).toShardEntry = f := by
  constructor
  · rintro ⟨o, ho, rfl, hf⟩
    obtain ⟨s, hs, hchild, hval⟩ := hout o ho
    rw [hval] at hf
    obtain ⟨e, he, rfl⟩ := List.mem_map.mp hf
    obtain ⟨⟨key, e⟩, hitem, rfl⟩ := List.mem_map.mp he
    obtain ⟨rec, g, hrec, hmeets, -, hlast, rfl⟩ := mem_dictOf_hitItems.mp hitem
    exact ⟨s, hs, hchild, key.id, rec, g, hrec, hlast, hmeets, rfl⟩
  · rintro ⟨s, hs, hchild, id, rec, g, hrec, hlast, hmeets, rfl⟩
    have hid : (distinguishing rec.toShardEntry).id = id := id_of_recordById hrec
    have hitem : (distinguishing rec.toShardEntry, granuleEntry (subRecord rec g).toShardEntry) ∈
        dictOf (hitItems calls v plan target records s.2 d) :=
      mem_dictOf_hitItems.mpr ⟨rec, g, hid.symm ▸ hrec, hmeets, rfl, hid.symm ▸ hlast, rfl⟩
    have hne : hitItems calls v plan target records s.2 d ≠ [] := by
      intro hnil
      rw [hnil] at hitem
      cases hitem
    obtain ⟨o, ho, rfl⟩ := List.mem_map.mp (hcomplete s hs d hchild hne)
    obtain ⟨s', hs', hchild', hval⟩ := hout o ho
    obtain rfl := List.inj_on_of_nodup_map hkeys hs hs' (hdisjoint s hs s' hs' o.1 hchild hchild')
    refine ⟨o, ho, rfl, ?_⟩
    rw [hval, List.map_map]
    exact List.mem_map.mpr ⟨_, hitem, rfl⟩

/-- The list of a finer shard has each granule once. -/
theorem nodup_listed (granules : List ShardEntry) (d : Word) :
    (((dictOf (hitItems calls v plan target records granules d)).map Prod.snd).map
      distinguishing).Nodup := by
  have hkeys : ((dictOf (hitItems calls v plan target records granules d)).map Prod.snd).map
      distinguishing = (dictOf (hitItems calls v plan target records granules d)).map Prod.fst := by
    rw [List.map_map]
    refine List.map_congr_left fun item hitem => ?_
    obtain ⟨key, e⟩ := item
    obtain ⟨rec, g, -, -, rfl, -, rfl⟩ := mem_dictOf_hitItems.mp hitem
    exact distinguishing_subRecord rec g
  rw [hkeys]
  exact nodup_dictOf _

end Refined

section Built
variable {V P : Type}

/-- An entry built from a record; sibling assets may have been attached since. -/
structure BuiltFrom (e : ShardEntry) (rec : CatalogRecord V) : Prop where
  fields : distinguishing e = distinguishing rec.toShardEntry
  assets : e.assets = none → rec.assets = none

/-- A map's entries beside the records they were built from. -/
abbrev BuiltShards (V : Type) := List (Word × List (ShardEntry × CatalogRecord V))

structure BuiltMap (m : ShardMap) (records : List (CatalogRecord V)) (built : BuiltShards V) :
    Prop where
  shards : m.shards = built.map fun s => (s.1, s.2.map Prod.fst)
  records : ∀ s ∈ built, ∀ p ∈ s.2, p.2 ∈ records
  built : ∀ s ∈ built, ∀ p ∈ s.2, BuiltFrom p.1 p.2

variable (calls : RefineCalls V) (v : Cover P) (plan : FootprintPlan) (target : Nat)

/-- Each entry of a source shard once, in the descendants its own record's cover meets, and
nothing else. -/
structure ListsOwn (built : BuiltShards V) (shards : Shards) : Prop where
  keys : (shards.map Prod.fst).Nodup
  once : ∀ s ∈ shards, (s.2.map ownFields).Nodup
  listed : ∀ d f, (∃ s ∈ shards, s.1 = d ∧ f ∈ s.2.map ownFields) ↔
    ∃ s ∈ built, d ∈ calls.generateMortonChildren s.1 target ∧
      ∃ p ∈ s.2, Meets calls v plan target p.2 d ∧ ownFields p.1 = f

/-- In each descendant, the last record of an id meets it when the own record of an entry of that
id does, and each such entry is that record with the assets of the shard's last entry of the id. -/
def FoundById (records : List (CatalogRecord V)) (built : BuiltShards V) : Prop :=
  ∀ s ∈ built, ∀ d ∈ calls.generateMortonChildren s.1 target, ∀ p ∈ s.2, ∀ rec g,
    recordById records p.1.id = some rec → lastEntry (s.2.map Prod.fst) p.1.id = some g →
      (Meets calls v plan target rec d ↔
        ∃ q ∈ s.2, q.1.id = p.1.id ∧ Meets calls v plan target q.2 d) ∧
      (Meets calls v plan target p.2 d → ownFields p.1 = ownFields (subRecord rec g).toShardEntry)

variable {calls v plan target} {m : ShardMap} {records : List (CatalogRecord V)}
  {built : BuiltShards V}

theorem exists_recordById {id : Option Text} {rec : CatalogRecord V} (h : rec ∈ records)
    (hid : rec.id = id) : ∃ r, recordById records id = some r := by
  rw [recordById_eq, ← Option.isSome_iff_exists, List.find?_isSome]
  exact ⟨rec, List.mem_reverse.mpr h, decide_eq_true hid⟩

theorem exists_lastEntry {granules : List ShardEntry} {g : ShardEntry} (h : g ∈ granules) :
    ∃ last, lastEntry granules g.id = some last := by
  rw [lastEntry, ← Option.isSome_iff_exists, List.find?_isSome]
  exact ⟨g, List.mem_reverse.mpr h, decide_eq_true rfl⟩

theorem BuiltMap.exists_found (hbuilt : BuiltMap m records built) {s : Word × List (ShardEntry × CatalogRecord V)}
    (hs : s ∈ built) {p : ShardEntry × CatalogRecord V} (hp : p ∈ s.2) :
    ∃ rec g, recordById records p.1.id = some rec ∧
      lastEntry (s.2.map Prod.fst) p.1.id = some g := by
  have hid : p.2.id = p.1.id := (congrArg Distinguishing.id (hbuilt.built s hs p hp).fields).symm
  obtain ⟨rec, hrec⟩ := exists_recordById (hbuilt.records s hs p hp) hid
  obtain ⟨g, hg⟩ := exists_lastEntry (List.mem_map_of_mem hp)
  exact ⟨rec, g, hrec, hg⟩

theorem id_of_ownFields {e e' : ShardEntry} (h : ownFields e = ownFields e') : e.id = e'.id :=
  congrArg (fun f => f.1.id) h

/-- What the ids find is each shard's own granules exactly when every entry is what its id
finds. -/
theorem foundById_iff (hbuilt : BuiltMap m records built) (hkeys : (built.map Prod.fst).Nodup)
    (hdisjoint : ∀ s ∈ built, ∀ s' ∈ built, ∀ d, d ∈ calls.generateMortonChildren s.1 target →
      d ∈ calls.generateMortonChildren s'.1 target → s.1 = s'.1) :
    (∀ d f, (∃ s ∈ built, d ∈ calls.generateMortonChildren s.1 target ∧ ∃ id rec g,
        recordById records id = some rec ∧ lastEntry (s.2.map Prod.fst) id = some g ∧
        Meets calls v plan target rec d ∧ ownFields (subRecord rec g).toShardEntry = f) ↔
      ∃ s ∈ built, d ∈ calls.generateMortonChildren s.1 target ∧
        ∃ p ∈ s.2, Meets calls v plan target p.2 d ∧ ownFields p.1 = f) ↔
    FoundById calls v plan target records built := by
  have hsame : ∀ s ∈ built, ∀ s' ∈ built, ∀ d, d ∈ calls.generateMortonChildren s.1 target →
      d ∈ calls.generateMortonChildren s'.1 target → s' = s := fun s hs s' hs' d hd hd' =>
    List.inj_on_of_nodup_map hkeys hs' hs (hdisjoint s' hs' s hs d hd' hd)
  have hsub : ∀ (rec : CatalogRecord V) (g : ShardEntry), (subRecord rec g).id = rec.id :=
    fun rec g => congrArg Distinguishing.id (distinguishing_subRecord rec g)
  constructor
  · intro h s hs d hd p hp rec g hrec hg
    -- an own record that meets makes its entry listed, so the id's record meets
    have hown : ∀ q ∈ s.2, q.1.id = p.1.id → Meets calls v plan target q.2 d →
        Meets calls v plan target rec d ∧ ownFields q.1 = ownFields (subRecord rec g).toShardEntry := by
      intro q hq hid hmeets
      obtain ⟨s', hs', hd', id, rec', g', hrec', hg', hmeets', hfields⟩ :=
        (h d (ownFields q.1)).mpr ⟨s, hs, hd, q, hq, hmeets, rfl⟩
      obtain rfl := hsame s hs s' hs' d hd hd'
      have hid' : id = p.1.id := by
        rw [← hid, ← id_of_ownFields hfields, hsub, id_of_recordById hrec']
      rw [hid', hrec] at hrec'
      rw [hid', hg] at hg'
      obtain rfl := Option.some.inj hrec'
      obtain rfl := Option.some.inj hg'
      exact ⟨hmeets', hfields.symm⟩
    refine ⟨⟨fun hmeets => ?_, fun ⟨q, hq, hid, hmeets⟩ => (hown q hq hid hmeets).1⟩,
      fun hmeets => (hown p hp rfl hmeets).2⟩
    obtain ⟨s', hs', hd', q, hq, hqmeets, hfields⟩ :=
      (h d _).mp ⟨s, hs, hd, p.1.id, rec, g, hrec, hg, hmeets, rfl⟩
    obtain rfl := hsame s hs s' hs' d hd hd'
    exact ⟨q, hq, (id_of_ownFields hfields).trans ((hsub rec g).trans (id_of_recordById hrec)),
      hqmeets⟩
  · intro h d f
    constructor
    · rintro ⟨s, hs, hd, id, rec, g, hrec, hg, hmeets, rfl⟩
      obtain ⟨p, hp, rfl⟩ := List.mem_map.mp (List.mem_reverse.mp (List.mem_of_find?_eq_some hg))
      have hpid := id_of_lastEntry hg
      obtain ⟨q, hq, hqid, hqmeets⟩ :=
        ((h s hs d hd p hp rec p.1 (hpid.symm ▸ hrec) (hpid.symm ▸ hg)).1.mp hmeets)
      have hqid : q.1.id = id := hqid.trans hpid
      have hown := (h s hs d hd q hq rec p.1 (hqid.symm ▸ hrec) (hqid.symm ▸ hg)).2 hqmeets
      exact ⟨s, hs, hd, q, hq, hqmeets, hown⟩
    · rintro ⟨s, hs, hd, p, hp, hmeets, rfl⟩
      obtain ⟨rec, g, hrec, hg⟩ := hbuilt.exists_found hs hp
      obtain ⟨hiff, hown⟩ := h s hs d hd p hp rec g hrec hg
      exact ⟨s, hs, hd, p.1.id, rec, g, hrec, hg, hiff.mpr ⟨p, hp, rfl, hmeets⟩, (hown hmeets).symm⟩

end Built

section Whole
variable {V P : Type} {calls : RefineCalls V} {v : Cover P} {clip2order : Nat → Word → Word}
  {IsAt : Nat → Word → Prop} {m : ShardMap} {source target child chunkOrder : Nat} {layout : String}
  {records : List (CatalogRecord V)} {built : BuiltShards V}

/-- The children of a word of the source order are the shards below it. -/
def Descends (calls : RefineCalls V) (v : Cover P) (clip2order : Nat → Word → Word)
    (IsAt : Nat → Word → Prop) (source target : Nat) : Prop :=
  ∀ k, IsAt source k → ∀ d, d ∈ calls.generateMortonChildren k target ↔
    v.isShard d ∧ clip2order source d = k

/-- A shard map of a HEALPix grid that the identity guard accepts, and a finer order for it. -/
structure Refinable (IsAt : Nat → Word → Prop) (m : ShardMap) (source target child : Nat) :
    Prop where
  kind : m.gridSignature.kind = "healpix"
  parentOrder : m.gridSignature.parentOrder = some source
  childOrder : m.gridSignature.childOrder = some child
  finer : source < target
  order_le : target ≤ child
  words : ∀ s ∈ m.shards, IsAt source s.1
  keys : (m.shards.map Prod.fst).Nodup
  accepted : basenameCollisions m.shards = none

theorem reproject_finer (hm : Refinable IsAt m source target child) {shards : Shards} {order : Nat} :
    reproject clip2order (some (.ok (shards, order))) m (healpixGrid target child layout) =
      derivedMap m (healpixGrid target child layout) source target shards (some order) := by
  simp only [reproject, healpixGrid, hm.parentOrder]
  rw [if_neg (not_not.mpr hm.kind), if_neg (not_not.mpr hm.childOrder),
    if_neg (Nat.not_lt.mpr hm.order_le), if_neg hm.finer.ne', if_neg (Nat.not_lt.mpr hm.finer.le)]

/-- The finer shards of a map, and what they list. -/
theorem refineShards_listed {plan : FootprintPlan} (hm : Refinable IsAt m source target child)
    (hbuilt : BuiltMap m records built) (hring : calls.mortie.RingAlgebra v target)
    (hchildren : Descends calls v clip2order IsAt source target)
    (hplan : footprintPlan calls m.metadata target chunkOrder = .ok plan) :
    ∃ out, refineShards calls m.metadata target chunkOrder records m.shards =
        .ok (out, plan.mortieOrder) ∧
      (∀ o ∈ out, ∃ s ∈ m.shards, o.1 ∈ calls.generateMortonChildren s.1 target) ∧
      (ListsOwn calls v plan target built out ↔ FoundById calls v plan target records built) := by
  have hdisjoint : ∀ s ∈ m.shards, ∀ s' ∈ m.shards, ∀ d,
      d ∈ calls.generateMortonChildren s.1 target →
      d ∈ calls.generateMortonChildren s'.1 target → s.1 = s'.1 := fun s hs s' hs' d hd hd' =>
    ((hchildren s.1 (hm.words s hs) d).mp hd).2.symm.trans
      ((hchildren s'.1 (hm.words s' hs') d).mp hd').2
  have hmem : ∀ s ∈ built, (s.1, s.2.map Prod.fst) ∈ m.shards := fun s hs =>
    hbuilt.shards ▸ List.mem_map_of_mem hs
  have hfound : ∀ s ∈ m.shards, ∀ g ∈ s.2, (recordById records g.id).isSome := by
    intro s hs g hg
    rw [hbuilt.shards] at hs
    obtain ⟨b, hb, rfl⟩ := List.mem_map.mp hs
    obtain ⟨p, hp, rfl⟩ := List.mem_map.mp hg
    obtain ⟨rec, -, hrec, -⟩ := hbuilt.exists_found hb hp
    exact Option.isSome_iff_exists.mpr ⟨rec, hrec⟩
  obtain ⟨out, hcall, hnodup, hout, hcomplete⟩ := refineShards_spec hplan hring
    (fun s hs d hd => ((hchildren s.1 (hm.words s hs) d).mp hd).1) hfound hm.keys hdisjoint
  refine ⟨out, hcall, fun o ho => ?_, ?_⟩
  · obtain ⟨s, hs, hchild, -⟩ := hout o ho
    exact ⟨s, hs, hchild⟩
  have honce : ∀ o ∈ out, (o.2.map ownFields).Nodup := by
    intro o ho
    obtain ⟨s, -, -, hval⟩ := hout o ho
    have hdist : (((dictOf (hitItems calls v plan target records s.2 o.1)).map Prod.snd).map
        distinguishing).Nodup := nodup_listed s.2 o.1
    rw [hval]
    refine List.Nodup.of_map Prod.fst ?_
    rw [List.map_map]
    exact hdist
  have hbuiltKeys : (built.map Prod.fst).Nodup := by
    have hkeys := hm.keys
    rw [hbuilt.shards, List.map_map] at hkeys
    exact hkeys
  rw [← foundById_iff hbuilt hbuiltKeys fun s hs s' hs' =>
    hdisjoint _ (hmem s hs) _ (hmem s' hs')]
  have hlisted : ∀ d f, (∃ o ∈ out, o.1 = d ∧ f ∈ o.2.map ownFields) ↔
      ∃ s ∈ built, d ∈ calls.generateMortonChildren s.1 target ∧ ∃ id rec g,
        recordById records id = some rec ∧ lastEntry (s.2.map Prod.fst) id = some g ∧
        Meets calls v plan target rec d ∧ ownFields (subRecord rec g).toShardEntry = f := by
    intro d f
    rw [listed_iff hm.keys hdisjoint hout hcomplete, hbuilt.shards]
    simp only [List.mem_map, exists_exists_and_eq_and]
  constructor
  · exact fun h d f => (hlisted d f).symm.trans (h.listed d f)
  · exact fun h => ⟨hnodup, honce, fun d f => (hlisted d f).trans (h d f)⟩

/-- Finer shards that list the map's own granules are not refused. -/
theorem accepted_of_listsOwn {plan : FootprintPlan} (hm : Refinable IsAt m source target child)
    (hbuilt : BuiltMap m records built) (hchildren : Descends calls v clip2order IsAt source target)
    {out : Shards} (hout : ∀ o ∈ out, ∃ s ∈ m.shards, o.1 ∈ calls.generateMortonChildren s.1 target)
    (hown : ListsOwn calls v plan target built out) : basenameCollisions out = none := by
  apply basenameCollisions_eq_none.mpr
  intro o ho hcollides
  obtain ⟨s, hs, hchild⟩ := hout o ho
  refine basenameCollisions_eq_none.mp hm.accepted s hs (hcollides.mono fun d hd => ?_)
  obtain ⟨e, he, rfl⟩ := List.mem_map.mp hd
  obtain ⟨s', hs', hchild', p, hp, -, hfields⟩ :=
    (hown.listed o.1 (ownFields e)).mp ⟨o, ho, rfl, List.mem_map_of_mem he⟩
  have hmem : (s'.1, s'.2.map Prod.fst) ∈ m.shards := hbuilt.shards ▸ List.mem_map_of_mem hs'
  have hkey : s'.1 = s.1 := ((hchildren s'.1 (hm.words _ hmem) o.1).mp hchild').2.symm.trans
    ((hchildren s.1 (hm.words s hs) o.1).mp hchild).2
  obtain rfl := List.inj_on_of_nodup_map hm.keys hmem hs hkey
  exact List.mem_map.mpr ⟨p.1, List.mem_map_of_mem hp, congrArg Prod.fst hfields⟩

/-- Refining a map lists every entry once in the descendants its own record meets, and nothing
else, exactly when the footprints have an order and each entry's id finds the entry's own
record. -/
theorem refine_lists_own_iff (layout : String) (hm : Refinable IsAt m source target child)
    (hbuilt : BuiltMap m records built) (hring : calls.mortie.RingAlgebra v target)
    (hchildren : Descends calls v clip2order IsAt source target) :
    (∃ plan r, footprintPlan calls m.metadata target chunkOrder = .ok plan ∧
      reproject clip2order (refined calls m target chunkOrder (some records)) m
        (healpixGrid target child layout) = .ok r ∧
      ListsOwn calls v plan target built r.shards) ↔
    ∃ plan, footprintPlan calls m.metadata target chunkOrder = .ok plan ∧
      FoundById calls v plan target records built := by
  refine exists_congr fun plan => ?_
  constructor
  · intro ⟨r, hplan, hr, hown⟩
    obtain ⟨out, hcall, -, hiff⟩ := refineShards_listed hm hbuilt hring hchildren hplan
    rw [refined, Option.map_some, hcall, reproject_finer hm, derivedMap_ok_iff] at hr
    obtain ⟨-, rfl⟩ := hr
    exact ⟨hplan, hiff.mp hown⟩
  · intro ⟨hplan, hfound⟩
    obtain ⟨out, hcall, hout, hiff⟩ := refineShards_listed hm hbuilt hring hchildren hplan
    have hown := hiff.mpr hfound
    refine ⟨⟨(healpixGrid target child layout).spatialSignature, out,
      derivedMetadata m source target out (some plan.mortieOrder), none⟩, hplan, ?_, hown⟩
    rw [refined, Option.map_some, hcall, reproject_finer hm, derivedMap_ok_iff]
    exact ⟨accepted_of_listsOwn hm hbuilt hchildren hout hown, rfl⟩

/-- Ids that name one record, and one entry of a shard, find every entry's own record. -/
theorem foundById_of_unique (plan : FootprintPlan) (hbuilt : BuiltMap m records built)
    (hrecords : (records.map fun r => r.id).Nodup)
    (hentries : ∀ s ∈ built, (s.2.map fun p => p.1.id).Nodup) :
    FoundById calls v plan target records built := by
  intro s hs d _ p hp rec g hrec hg
  have hid := congrArg Distinguishing.id (hbuilt.built s hs p hp).fields
  have hmem : rec ∈ records := by
    rw [recordById_eq] at hrec
    exact List.mem_reverse.mp (List.mem_of_find?_eq_some hrec)
  obtain rfl : rec = p.2 := List.inj_on_of_nodup_map hrecords hmem (hbuilt.records s hs p hp)
    ((id_of_recordById hrec).trans hid)
  obtain ⟨q, hq, rfl⟩ := List.mem_map.mp (List.mem_reverse.mp (List.mem_of_find?_eq_some hg))
  obtain rfl : q = p := List.inj_on_of_nodup_map (hentries s hs) hq hp (id_of_lastEntry hg)
  refine ⟨⟨fun hmeets => ⟨q, hq, rfl, hmeets⟩, fun ⟨q', hq', hid', hmeets⟩ => ?_⟩, fun _ => ?_⟩
  · exact List.inj_on_of_nodup_map (hentries s hs) hq' hq hid' ▸ hmeets
  · have hbuiltq := hbuilt.built s hs q hq
    refine Prod.ext (hbuiltq.fields.trans (distinguishing_subRecord q.2 q.1).symm) ?_
    show q.1.assets = (subRecord q.2 q.1).assets
    unfold subRecord
    cases hassets : q.1.assets with
    | none => exact (hbuiltq.assets hassets).symm
    | some assets => rfl

end Whole

section Sample

/-- Source shards of four finer shards each, over the quads. -/
def quadCalls : RefineCalls Nat where
  mortie := quads
  generateMortonChildren k _ := List.range' (4 * k) 4
  beamTracks _ _ _ := []
  upper name := name
  finite _ := true

def QuadAt (_ : Nat) (k : Word) : Prop := k < 25

def quadClip (_ : Nat) (d : Word) : Word := d / 4

theorem mem_quadChildren {k d : Nat} (hk : k < 25) :
    d ∈ List.range' (4 * k) 4 ↔ d < 100 ∧ d / 4 = k := by
  rw [List.mem_range'_1]
  omega

theorem quadCalls_descends : Descends quadCalls quadCover quadClip QuadAt 1 2 :=
  fun _ hk _ => mem_quadChildren hk

def quadRecord (id href : String) (lats : List Nat) : CatalogRecord Nat :=
  ⟨sampleEntry id href, lats, lats⟩

/-- Granules in the first and the second of the finer shards. -/
def quadBuilt (id id' : String) : BuiltShards Nat :=
  [(0, [(sampleEntry id "s3://b/a.h5", quadRecord id "s3://b/a.h5" [0, 1, 2]),
    (sampleEntry id' "s3://b/b.h5", quadRecord id' "s3://b/b.h5" [4, 5, 6])])]

def quadRecords (id id' : String) : List (CatalogRecord Nat) :=
  [quadRecord id "s3://b/a.h5" [0, 1, 2], quadRecord id' "s3://b/b.h5" [4, 5, 6]]

def quadMap (id id' : String) : ShardMap where
  gridSignature := ⟨"healpix", some 1, some 4, "packed"⟩
  shards := (quadBuilt id id').map fun s => (s.1, s.2.map Prod.fst)
  metadata := []
  aoiMask := none

theorem quadMap_built (id id' : String) :
    BuiltMap (quadMap id id') (quadRecords id id') (quadBuilt id id') where
  shards := rfl
  records := by
    intro s hs p hp
    obtain rfl := List.mem_singleton.mp hs
    rcases List.mem_cons.mp hp with rfl | hp
    · exact .head _
    · exact List.mem_singleton.mp hp ▸ .tail _ (.head _)
  built := by
    intro s hs p hp
    obtain rfl := List.mem_singleton.mp hs
    rcases List.mem_cons.mp hp with rfl | hp
    · exact ⟨rfl, fun _ => rfl⟩
    · obtain rfl := List.mem_singleton.mp hp
      exact ⟨rfl, fun _ => rfl⟩

/-- The two files have different names, so the guard accepts them under any ids. -/
theorem quadMap_refinable (id id' : String) : Refinable QuadAt (quadMap id id') 1 2 4 where
  kind := rfl
  parentOrder := rfl
  childOrder := rfl
  finer := by decide
  order_le := by decide
  words := by
    intro s hs
    obtain rfl := List.mem_singleton.mp hs
    exact show (0 : Nat) < 25 by decide
  keys := List.nodup_singleton _
  accepted := by
    apply basenameCollisions_eq_none.mpr
    intro s hs hcollides
    obtain rfl := List.mem_singleton.mp hs
    have hfirst : canonicals (sampleEntry id "s3://b/a.h5") = [("s3", "a.h5".toList)] := by rfl
    have hsecond : canonicals (sampleEntry id' "s3://b/b.h5") = [("s3", "b.h5".toList)] := by rfl
    obtain ⟨e, he, e', he', hne, sc, hsc, hsc'⟩ := hcollides
    have hentry : ∀ x, x ∈ [sampleEntry id "s3://b/a.h5", sampleEntry id' "s3://b/b.h5"] →
        x = sampleEntry id "s3://b/a.h5" ∨ x = sampleEntry id' "s3://b/b.h5" := fun x hx =>
      (List.mem_cons.mp hx).imp_right List.mem_singleton.mp
    rcases hentry e he with rfl | rfl <;> rcases hentry e' he' with rfl | rfl
    · exact hne rfl
    · rw [hfirst, List.mem_singleton] at hsc
      rw [hsecond, List.mem_singleton, hsc] at hsc'
      exact absurd hsc' (by decide)
    · rw [hsecond, List.mem_singleton] at hsc
      rw [hfirst, List.mem_singleton, hsc] at hsc'
      exact absurd hsc' (by decide)
    · exact hne rfl

theorem quadPlan (id id' : String) : footprintPlan quadCalls (quadMap id id').metadata 2 3 =
    .ok ⟨false, [], 3⟩ := by rfl

theorem quadRegion_points (points : List Nat) :
    quadCover.region (points.map (· + 100)) = {p | p ∈ points} := by
  have hpoint : ∀ q, quadPoints (q + 100) = [q] := fun q => by
    rw [quadPoints, if_neg (Nat.not_lt.mpr (Nat.le_add_left 100 q)), Nat.add_sub_cancel]
  ext p
  rw [mem_quadRegion, List.flatMap_map]
  simp only [hpoint, List.flatMap_singleton', Set.mem_ofPred_eq]

/-- A record meets the quads that its points are in. -/
theorem meets_quadRecord {id href : String} {lats : List Nat}
    (hlats : accepted (fun _ : Nat => true) (lats, lats) = true) {d : Word} :
    Meets quadCalls quadCover ⟨false, [], 3⟩ 2 (quadRecord id href lats) d ↔
      (quadCover.area d ∩ {p | p ∈ lats}).Nonempty := by
  rw [← quadRegion_points]
  constructor
  · rintro ⟨ring, hring, -, moc, hmoc, -, hmeets⟩
    obtain rfl := List.mem_singleton.mp hring
    exact Except.ok.inj hmoc ▸ hmeets
  · exact fun h => ⟨(lats, lats), .head _, hlats, _, rfl, ⟨_, rfl⟩, h⟩

/-- With ids of their own both granules are refined. -/
theorem refine_lists_own_iff_quads : ∃ plan r,
    footprintPlan quadCalls (quadMap "A" "B").metadata 2 3 = .ok plan ∧
    reproject quadClip (refined quadCalls (quadMap "A" "B") 2 3 (some (quadRecords "A" "B")))
      (quadMap "A" "B") (healpixGrid 2 4 "packed") = .ok r ∧
    ListsOwn quadCalls quadCover plan 2 (quadBuilt "A" "B") r.shards :=
  (refine_lists_own_iff "packed" (quadMap_refinable "A" "B") (quadMap_built "A" "B")
    (quads_ringAlgebra 2) quadCalls_descends).mpr
      ⟨_, quadPlan "A" "B", foundById_of_unique _ (quadMap_built "A" "B") (by decide) (by decide)⟩

/-- Two granules of one id in one shard: refining looks both up as the second, and the first is
lost. -/
theorem refine_takes_last_of_id : Refinable QuadAt (quadMap "A" "A") 1 2 4 ∧
    BuiltMap (quadMap "A" "A") (quadRecords "A" "A") (quadBuilt "A" "A") ∧
    ¬∃ plan r, footprintPlan quadCalls (quadMap "A" "A").metadata 2 3 = .ok plan ∧
      reproject quadClip (refined quadCalls (quadMap "A" "A") 2 3 (some (quadRecords "A" "A")))
        (quadMap "A" "A") (healpixGrid 2 4 "packed") = .ok r ∧
      ListsOwn quadCalls quadCover plan 2 (quadBuilt "A" "A") r.shards := by
  refine ⟨quadMap_refinable "A" "A", quadMap_built "A" "A", ?_⟩
  rintro ⟨plan, r, hplan, hr, hown⟩
  obtain rfl := Except.ok.inj ((quadPlan "A" "A").symm.trans hplan)
  obtain ⟨out, hcall, -, hiff⟩ := refineShards_listed (quadMap_refinable "A" "A")
    (quadMap_built "A" "A") (quads_ringAlgebra 2) quadCalls_descends hplan
  rw [refined, Option.map_some, hcall, reproject_finer (quadMap_refinable "A" "A"),
    derivedMap_ok_iff] at hr
  obtain ⟨-, rfl⟩ := hr
  have hfirst : Meets quadCalls quadCover ⟨false, [], 3⟩ 2
      (quadRecord "A" "s3://b/a.h5" [0, 1, 2]) 0 :=
    (meets_quadRecord (by decide)).mpr ⟨0, show (0 : Nat) ∈ quadPoints 0 by decide,
      show 0 ∈ [0, 1, 2] by decide⟩
  have hlast := (hiff.mp hown _ (.head _) 0 (show 0 ∈ List.range' (4 * 0) 4 by decide) _ (.head _)
    (quadRecord "A" "s3://b/b.h5" [4, 5, 6]) _ (by rfl) (by rfl)).1.mpr ⟨_, .head _, rfl, hfirst⟩
  obtain ⟨p, hp, hpoint⟩ := (meets_quadRecord (by decide)).mp hlast
  have hnone : ∀ p ∈ [0, 1, 2, 3], p ∉ [4, 5, 6] := by decide
  exact hnone p hp hpoint

end Sample

end Zagg.Catalog
