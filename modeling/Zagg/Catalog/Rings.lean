import Zagg.Lib.Pointwise
import Zagg.Catalog.Cover
import Zagg.Catalog.Regroup

/-!
# Footprint rings

The geometry path flattens every record's accepted rings into one ragged array and covers it
in blocks, falling back ring by ring where a block raises. Either way each ring gets its own
MOC and keeps its owner, so that a record is assigned by its own rings alone.
-/
namespace Zagg.Catalog

open Zagg.Lib

section Spec
variable {V P R : Type} {m : Mortie V} {v : Cover P} {parentOrder batch : Nat}

/-- A ring's MOC: its coverage, or nothing where the coverage raises. -/
def ringMoc (m : Mortie V) (order : Nat) (ring : Ring V) : List Word :=
  match m.coverageMoc ring.1 ring.2 order with
  | .ok moc => moc
  | .error _ => []

theorem compact_ringMoc (hm : m.RingAlgebra v parentOrder) {order : Nat} {ring : Ring V}
    (h : ringMoc m order ring ≠ []) : v.compact (ringMoc m order ring) := by
  cases hcov : m.coverageMoc ring.1 ring.2 order with
  | error exc =>
    rw [ringMoc, hcov] at h
    exact absurd rfl h
  | ok moc =>
    rw [ringMoc, hcov]
    exact hm.coverageMoc _ _ _ _ hcov

theorem map_ringMoc {order : Nat} {rings : List (Ring V)} {mocs : List (List Word)}
    (h : List.Forall₂ (fun r moc => m.coverageMoc r.1 r.2 order = .ok moc) rings mocs) :
    rings.map (ringMoc m order) = mocs := by
  induction h with
  | nil => rfl
  | cons hfirst _ ih => rw [List.map_cons, ih, ringMoc, hfirst]

/-- The shard meets a ring of the record: one that is accepted, covered, and flattened to the
parent order without a refusal. -/
def recordMeets (m : Mortie V) (v : Cover P) (parentOrder order : Nat)
    (footprints : R → List (Ring V)) (finite : V → Bool) (rec : R) (s : Word) : Prop :=
  ∃ ring ∈ footprints rec, accepted finite ring = true ∧
    ∃ moc, m.coverageMoc ring.1 ring.2 order = .ok moc ∧
      (∃ cells, m.mocToOrder moc parentOrder = .ok cells) ∧ v.meets moc s

theorem length_of_accepted {finite : V → Bool} {ring : Ring V} (h : accepted finite ring = true) :
    ring.1.length = ring.2.length := by
  by_contra hne
  simp [accepted, hne] at h

/-- The offsets of a batch result are its slots. -/
theorem map_slice_pack (mocs : List (List Word)) {n : Nat} (h : mocs.length = n) :
    ((List.range n).map fun r => slice (pack mocs).1 ((pack mocs).2.getD r 0)
      ((pack mocs).2.getD (r + 1) 0)) = mocs := by
  subst h
  refine List.ext_getElem? fun i => ?_
  have hslots := getElem?_slots mocs.flatten (offsetsOf mocs) i
  rw [slots_offsetsOf] at hslots
  rw [List.getElem?_map]
  by_cases hi : i < mocs.length
  · rw [List.getElem?_range hi, Option.map_some, hslots, pack, List.getD_eq_getElem?_getD,
      List.getD_eq_getElem?_getD]
    rw [List.getElem?_eq_getElem hi] at hslots
    obtain ⟨a, ha, hb⟩ := Option.bind_eq_some_iff.mp hslots.symm
    obtain ⟨b, hb, -⟩ := Option.map_eq_some_iff.mp hb
    rw [ha, hb]
    rfl
  · rw [List.getElem?_eq_none (by rw [List.length_range]; omega),
      List.getElem?_eq_none (not_lt.mp hi)]
    rfl

section Batch
variable {rings : List (Ring V)} (hlen : ∀ r ∈ rings, r.1.length = r.2.length)

include hlen in
theorem offsetsOf_lons : offsetsOf (rings.map Prod.fst) = offsetsOf (rings.map Prod.snd) := by
  rw [offsetsOf, offsetsOf, List.map_map, List.map_map]
  exact congrArg (List.scanl (· + ·) 0) (List.map_congr_left hlen)

include hlen in
/-- Every ring of a block gets its own MOC, from the batch call or on its own. -/
theorem batchRingMocs_eq (hm : m.RingAlgebra v parentOrder) (order : Nat) {start stop : Nat}
    (hle : start ≤ stop) (hstop : stop ≤ rings.length) :
    batchRingMocs m order (rings.map Prod.fst).flatten (rings.map Prod.snd).flatten
        (offsetsOf (rings.map Prod.fst)) start stop =
      (slice rings start stop).map (ringMoc m order) := by
  have hoff := offsetsOf_lons hlen
  have hsize : (offsetsOf (rings.map Prod.fst)).length = rings.length + 1 := by
    rw [offsetsOf, List.length_scanl, List.length_map, List.length_map]
  have hlats : ∀ a b, a ≤ b → b ≤ rings.length →
      slice (rings.map Prod.fst).flatten ((offsetsOf (rings.map Prod.fst)).getD a 0)
          ((offsetsOf (rings.map Prod.fst)).getD b 0) =
        ((slice rings a b).map Prod.fst).flatten ∧
      (slice (offsetsOf (rings.map Prod.fst)) a (b + 1)).map
          (· - (offsetsOf (rings.map Prod.fst)).getD a 0) =
        offsetsOf ((slice rings a b).map Prod.fst) := by
    intro a b hab hb
    have hw := (rowAligned_pack (rings.map Prod.fst)).window hab (hsize ▸ Nat.lt_succ_of_le hb)
    rwa [slots_offsetsOf, slice_map] at hw
  have hlons : ∀ a b, a ≤ b → b ≤ rings.length →
      slice (rings.map Prod.snd).flatten ((offsetsOf (rings.map Prod.fst)).getD a 0)
          ((offsetsOf (rings.map Prod.fst)).getD b 0) =
        ((slice rings a b).map Prod.snd).flatten := by
    intro a b hab hb
    rw [hoff] at hsize ⊢
    have hw := ((rowAligned_pack (rings.map Prod.snd)).window hab
      (hsize ▸ Nat.lt_succ_of_le hb)).1
    rwa [slots_offsetsOf, slice_map] at hw
  have hblk : ∀ r ∈ slice rings start stop, r.1.length = r.2.length := fun r hr =>
    hlen r (List.mem_of_mem_drop (List.mem_of_mem_take hr))
  have hcount : (slice rings start stop).length = stop - start := length_slice hstop
  rw [batchRingMocs]
  simp only [(hlats start stop hle hstop).1, (hlats start stop hle hstop).2, hlons start stop hle hstop]
  cases hbatch : m.polygonsToMocs ((slice rings start stop).map Prod.fst).flatten
      ((slice rings start stop).map Prod.snd).flatten
      (offsetsOf ((slice rings start stop).map Prod.fst)) order with
  | ok out =>
    obtain ⟨mocs, rfl, hmocs⟩ := hm.polygonsToMocs _ order out hblk hbatch
    have hn : mocs.length = stop - start := hmocs.length_eq.symm.trans hcount
    rw [map_ringMoc hmocs]
    exact map_slice_pack mocs hn
  | error exc =>
    refine List.ext_getElem? fun i => ?_
    rw [List.getElem?_map, List.getElem?_map, getElem?_slice]
    by_cases hi : i < stop - start
    · have hget : (List.range' start (stop - start))[i]? = some (start + i) := by
        rw [List.getElem?_range' hi, Nat.one_mul]
      have hlt : start + i < rings.length := by omega
      have hone : slice rings (start + i) (start + i + 1) = [rings[start + i]] := by
        rw [slice, Nat.add_sub_cancel_left, List.drop_eq_getElem_cons hlt]
        rfl
      have hlat := (hlats (start + i) (start + i + 1) (Nat.le_succ _) hlt).1
      have hlon := hlons (start + i) (start + i + 1) (Nat.le_succ _) hlt
      rw [hone, List.map_singleton, List.flatten_singleton] at hlat hlon
      rw [hget, Option.map_some, hlat, hlon, if_pos hi, List.getElem?_eq_getElem hlt]
      rfl
    · rw [if_neg hi, List.getElem?_eq_none (by rw [List.length_range']; omega)]
      rfl

end Batch

section Ring

/-- The clipped search finds exactly the members. -/
theorem searchsorted_iff {arr : List Word} (hs : arr.Pairwise (· ≤ ·)) (hne : arr ≠ []) (w : Word) :
    (arr.getD (min (searchsorted arr w) (arr.length - 1)) 0 == w) = true ↔ w ∈ arr := by
  have hpos := List.length_pos_iff.mpr hne
  have hlt : min (searchsorted arr w) (arr.length - 1) < arr.length := by omega
  rw [List.getD_eq_getElem?_getD, List.getElem?_eq_getElem hlt, Option.getD_some, beq_iff_eq]
  constructor
  · intro h
    exact h ▸ List.getElem_mem hlt
  · intro h
    obtain ⟨k, hk, rfl⟩ := List.getElem_of_mem h
    have hle : searchsorted arr arr[k] ≤ k := by
      by_contra hgt
      have hnot := List.not_of_lt_findIdx (not_le.mp hgt)
      simp at hnot
    have hat : searchsorted arr arr[k] < arr.length := lt_of_le_of_lt hle hk
    have hfound : arr[k] ≤ arr[searchsorted arr arr[k]] := by
      have hp := List.findIdx_getElem (p := fun y => decide (arr[k] ≤ y)) (w := hat)
      exact of_decide_eq_true hp
    have hmin : min (searchsorted arr arr[k]) (arr.length - 1) = searchsorted arr arr[k] := by omega
    simp only [hmin]
    rcases Nat.lt_or_eq_of_le hle with hlt | heq
    · exact le_antisymm (List.pairwise_iff_getElem.mp hs _ k hat hk hlt) hfound
    · simp only [heq]

theorem mem_ringShards (hm : m.RingAlgebra v parentOrder) {shards : List Word}
    (hne : shards ≠ []) (hshards : ∀ s ∈ shards, v.isShard s) {moc : List Word}
    (hc : moc ≠ [] → v.compact moc) (s : Word) :
    s ∈ ringShards m parentOrder (shards.insertionSort (· ≤ ·)) moc ↔
      s ∈ shards ∧ (∃ cells, m.mocToOrder moc parentOrder = .ok cells) ∧ v.meets moc s := by
  have hperm := List.perm_insertionSort (· ≤ ·) shards
  have hsorted := List.pairwise_insertionSort (· ≤ ·) shards
  have hne' : shards.insertionSort (· ≤ ·) ≠ [] := by
    intro hnil
    rw [hnil] at hperm
    exact hne hperm.nil_eq.symm
  rw [ringShards]
  split_ifs with hmoc
  · constructor
    · intro h
      cases h
    · rintro ⟨-, -, hmeet⟩
      rw [hmoc] at hmeet
      exact absurd hmeet (v.not_meets_nil s)
  · cases hcells : m.mocToOrder moc parentOrder with
    | error exc =>
      constructor
      · intro h
        cases h
      · rintro ⟨-, ⟨cells, h⟩, -⟩
        cases h
    | ok cells =>
      have hflat := hm.mocToOrder moc cells (hc hmoc) hcells s
      simp only [List.mem_filter, mem_unique, searchsorted_iff hsorted hne', hperm.mem_iff, hflat]
      constructor
      · rintro ⟨⟨-, hmeet⟩, hs⟩
        exact ⟨hs, ⟨cells, rfl⟩, hmeet⟩
      · rintro ⟨hs, -, hmeet⟩
        exact ⟨⟨hshards s hs, hmeet⟩, hs⟩

end Ring

section Loop

/-- The accepted rings of all the records, each with its record's index. -/
def ownedRings (footprints : R → List (Ring V)) (finite : V → Bool) (records : List R) :
    List (Ring V × Nat) :=
  records.zipIdx.flatMap fun r =>
    ((footprints r.1).filter (accepted finite)).map fun ring => (ring, r.2)

theorem mem_ownedRings {footprints : R → List (Ring V)} {finite : V → Bool} {records : List R}
    {k : Ring V × Nat} :
    k ∈ ownedRings footprints finite records ↔
      ∃ rec, records[k.2]? = some rec ∧ k.1 ∈ footprints rec ∧ accepted finite k.1 = true := by
  rw [ownedRings, List.mem_flatMap]
  constructor
  · rintro ⟨r, hr, hk⟩
    obtain ⟨ring, hring, rfl⟩ := List.mem_map.mp hk
    obtain ⟨hmem, hacc⟩ := List.mem_filter.mp hring
    exact ⟨r.1, List.mk_mem_zipIdx_iff_getElem?.mp hr, hmem, hacc⟩
  · rintro ⟨rec, hrec, hmem, hacc⟩
    exact ⟨(rec, k.2), List.mk_mem_zipIdx_iff_getElem?.mpr hrec,
      List.mem_map.mpr ⟨k.1, List.mem_filter.mpr ⟨hmem, hacc⟩, rfl⟩⟩

theorem pairwise_ownedRings (footprints : R → List (Ring V)) (finite : V → Bool) (records : List R) :
    ((ownedRings footprints finite records).map Prod.snd).Pairwise (· ≤ ·) := by
  have key : ∀ n, ((records.zipIdx n).flatMap fun r =>
      ((footprints r.1).filter (accepted finite)).map fun ring => (ring, r.2)).Pairwise
        (fun a b => a.2 ≤ b.2) := by
    induction records with
    | nil => exact fun _ => .nil
    | cons rec records ih =>
      intro n
      rw [List.zipIdx_cons, List.flatMap_cons]
      refine List.pairwise_append.mpr ⟨?_, ih (n + 1), ?_⟩
      · exact List.pairwise_map.mpr (List.pairwise_of_forall fun _ _ => le_rfl)
      · intro a ha b hb
        obtain ⟨ring, -, rfl⟩ := List.mem_map.mp ha
        obtain ⟨r, hr, hb⟩ := List.mem_flatMap.mp hb
        obtain ⟨ring', -, rfl⟩ := List.mem_map.mp hb
        exact (Nat.le_succ n).trans (List.le_snd_of_mem_zipIdx (x := r) hr)
  exact List.pairwise_map.mpr (key 0)

/-- One ring's hits: its shards in the AOI beside its record's index. -/
def ringHits (m : Mortie V) (parentOrder order : Nat) (shardArr : List Word) (k : Ring V × Nat) :
    Option (List Word × List Nat) :=
  let kept := ringShards m parentOrder shardArr (ringMoc m order k.1)
  if kept = [] then none else some (kept, List.replicate kept.length k.2)

/-- The block loop visits the owned rings one by one. -/
theorem ringLoop_eq (hm : m.RingAlgebra v parentOrder) (hb : 0 < batch) (order : Nat)
    (shardArr : List Word) {owned : List (Ring V × Nat)}
    (hlen : ∀ k ∈ owned, k.1.1.length = k.1.2.length) :
    ((steps (owned.map Prod.snd).length batch).flatMap fun start =>
        let stop := min (start + batch) (owned.map Prod.snd).length
        (batchRingMocs m order (owned.map fun k => k.1.1).flatten (owned.map fun k => k.1.2).flatten
          ((owned.map fun k => k.1.1.length).scanl (· + ·) 0) start stop).zipIdx.filterMap fun r =>
            let kept := ringShards m parentOrder shardArr r.1
            if kept = [] then none
            else some (kept, List.replicate kept.length ((owned.map Prod.snd).getD (start + r.2) 0))) =
      owned.filterMap (ringHits m parentOrder order shardArr) := by
  have hrings : ∀ r ∈ owned.map Prod.fst, r.1.length = r.2.length := by
    intro r hr
    obtain ⟨k, hk, rfl⟩ := List.mem_map.mp hr
    exact hlen k hk
  have hlats : (owned.map fun k => k.1.1) = (owned.map Prod.fst).map Prod.fst := by
    rw [List.map_map]
    rfl
  have hlons : (owned.map fun k => k.1.2) = (owned.map Prod.fst).map Prod.snd := by
    rw [List.map_map]
    rfl
  have hoffs : (owned.map fun k => k.1.1.length).scanl (· + ·) 0 =
      offsetsOf ((owned.map Prod.fst).map Prod.fst) := by
    rw [offsetsOf, List.map_map, List.map_map]
    rfl
  have hblocks : owned.filterMap (ringHits m parentOrder order shardArr) =
      (blocks owned batch).flatMap fun b => b.filterMap (ringHits m parentOrder order shardArr) := by
    conv_lhs => rw [← flatten_blocks hb owned, List.filterMap_flatten, ← List.flatMap_def]
  rw [hblocks, blocks, List.flatMap_map, List.length_map, hlats, hlons, hoffs]
  refine List.flatMap_congr fun start hstart => ?_
  have hlt := mem_steps hb hstart
  have hle : start ≤ min (start + batch) owned.length := by omega
  have hbatch := batchRingMocs_eq hrings hm order hle (by rw [List.length_map]; omega)
  have hslice : slice (owned.map Prod.fst) start (min (start + batch) owned.length) =
      (slice owned start (start + batch)).map Prod.fst := by
    rw [slice_map, slice_min]
  have howner : ∀ r ∈ (slice owned start (start + batch)).zipIdx,
      (owned.map Prod.snd).getD (start + r.2) 0 = r.1.2 := by
    intro r hr
    have hget := List.mk_mem_zipIdx_iff_getElem?.mp hr
    rw [getElem?_slice] at hget
    split_ifs at hget
    rw [List.getD_eq_getElem?_getD, List.getElem?_map, hget]
    rfl
  dsimp only
  rw [hbatch, hslice, List.map_map, List.zipIdx_map, List.filterMap_map]
  have hzip : (slice owned start (start + batch)).filterMap
        (ringHits m parentOrder order shardArr) =
      (slice owned start (start + batch)).zipIdx.filterMap fun r =>
        ringHits m parentOrder order shardArr r.1 := by
    conv_lhs => rw [← List.zipIdx_map_fst 0 (slice owned start (start + batch)), List.filterMap_map]
    rfl
  rw [hzip]
  refine List.filterMap_congr fun r hr => ?_
  simp only [Function.comp, Prod.map, id, howner r hr, ringHits]

/-- The kept hits, ring after ring. -/
theorem ringHits_flatten (parentOrder order : Nat) (shardArr : List Word)
    (owned : List (Ring V × Nat)) :
    let xs := owned.map fun k => (k.2, ringShards m parentOrder shardArr (ringMoc m order k.1))
    let kept := owned.filterMap (ringHits m parentOrder order shardArr)
    (kept.map Prod.fst).flatten = xs.flatMap Prod.snd ∧
      (kept.map Prod.snd).flatten = (xs.flatMap fun x => List.replicate x.2.length x.1) ∧
      ∀ k ∈ kept, k.1 ≠ [] := by
  induction owned with
  | nil => exact ⟨rfl, rfl, nofun⟩
  | cons k owned ih =>
    obtain ⟨hcells, howners, hne⟩ := ih
    dsimp only at hcells howners hne ⊢
    rw [List.map_cons, List.flatMap_cons, List.flatMap_cons, ← hcells, ← howners, List.filterMap_cons]
    by_cases hnil : ringShards m parentOrder shardArr (ringMoc m order k.1) = []
    · rw [ringHits, if_pos hnil, hnil]
      exact ⟨rfl, rfl, hne⟩
    · rw [ringHits, if_neg hnil]
      refine ⟨rfl, rfl, fun k' hk' => ?_⟩
      rcases List.mem_cons.mp hk' with rfl | hk'
      · exact hnil
      · exact hne k' hk'

end Loop

/-- The geometry path: the dictionary of the records' own rings. -/
theorem intersectMortie_spec (hm : m.RingAlgebra v parentOrder) (hb : 0 < batch) (order : Nat)
    (footprints : R → List (Ring V)) (finite : V → Bool) (records : List R) {shards : List Word}
    (hshards : ∀ s ∈ shards, v.isShard s) :
    ∃ d, intersectMortie m parentOrder batch footprints finite order records shards = some d ∧
      Assigned (fun s i => s ∈ shards ∧ ∃ rec, records[i]? = some rec ∧
        recordMeets m v parentOrder order footprints finite rec s) d := by
  have hflat : flattenRings footprints finite records =
      if ownedRings footprints finite records = [] then none
      else some (((ownedRings footprints finite records).map fun k => k.1.1).flatten,
        ((ownedRings footprints finite records).map fun k => k.1.2).flatten,
        ((ownedRings footprints finite records).map fun k => k.1.1.length).scanl (· + ·) 0,
        (ownedRings footprints finite records).map Prod.snd) := rfl
  have hmem : ∀ k, k ∈ ownedRings footprints finite records ↔ ∃ rec, records[k.2]? = some rec ∧
      k.1 ∈ footprints rec ∧ accepted finite k.1 = true := fun _ => mem_ownedRings
  have hmono := pairwise_ownedRings footprints finite records
  rw [intersectMortie, hflat]
  generalize ownedRings footprints finite records = owned at hmem hmono ⊢
  by_cases hnone : owned = []
  · rw [if_pos hnone]
    refine ⟨[], rfl, assigned_nil ?_⟩
    rintro s i ⟨-, rec, hrec, ring, hring, hacc, -⟩
    have hk := (hmem (ring, i)).mpr ⟨rec, hrec, hring, hacc⟩
    rw [hnone] at hk
    cases hk
  · rw [if_neg hnone]
    dsimp only
    split_ifs with hempty
    · refine ⟨[], rfl, assigned_nil ?_⟩
      rintro s i ⟨hs, -⟩
      rw [hempty] at hs
      cases hs
    · have hlen : ∀ k ∈ owned, k.1.1.length = k.1.2.length := by
        intro k hk
        obtain ⟨rec, -, -, hacc⟩ := (hmem k).mp hk
        exact length_of_accepted hacc
      have hloop := ringLoop_eq hm hb order (shards.insertionSort (· ≤ ·)) hlen
      dsimp only at hloop
      rw [hloop]
      obtain ⟨hcells, howners, hne⟩ := ringHits_flatten (m := m) parentOrder order
        (shards.insertionSort (· ≤ ·)) owned
      obtain ⟨d, hd, hassigned⟩ := regroupHits_owned hne hcells howners
        (by rw [List.map_map]; exact hmono)
      refine ⟨d, hd, hassigned.congr fun s i => ?_⟩
      have hring := fun ring => mem_ringShards hm hempty hshards
        (@compact_ringMoc V P m v parentOrder hm order ring) s
      constructor
      · rintro ⟨x, hx, rfl, hs⟩
        obtain ⟨k, hk, rfl⟩ := List.mem_map.mp hx
        obtain ⟨rec, hrec, hmemk, hacc⟩ := (hmem k).mp hk
        obtain ⟨hsh, hcell, hmeet⟩ := (hring k.1).mp hs
        cases hcov : m.coverageMoc k.1.1 k.1.2 order with
        | error exc =>
          rw [ringMoc, hcov] at hmeet
          exact absurd hmeet (v.not_meets_nil s)
        | ok moc =>
          rw [ringMoc, hcov] at hcell hmeet
          exact ⟨hsh, rec, hrec, k.1, hmemk, hacc, moc, hcov, hcell, hmeet⟩
      · rintro ⟨hsh, rec, hrec, ring, hmemk, hacc, moc, hcov, hcell, hmeet⟩
        refine ⟨_, List.mem_map_of_mem ((hmem (ring, i)).mpr ⟨rec, hrec, hmemk, hacc⟩), rfl, ?_⟩
        refine (hring ring).mpr ⟨hsh, ?_⟩
        rw [ringMoc, hcov]
        exact ⟨hcell, hmeet⟩

end Spec
end Zagg.Catalog
