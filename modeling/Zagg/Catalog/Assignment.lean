import Zagg.Catalog.Footprints
import Zagg.Catalog.Rings

/-!
# The assignment, record by record

Blocks, offsets and owners are bookkeeping: each path returns the dictionary of the records'
own regions. Decoding the hit rows alone and renumbering keeps every shard's granules.
-/
namespace Zagg.Catalog

open Zagg.Lib

section Renumber
variable {R Q : Type}

/-- A decoded record for every row of the screen. -/
theorem getElem?_granuleRecords (decode : R → Option Q) (table : List R) {i : Nat}
    (hi : i < (flatnonzero (granuleRowMask decode table)).length) :
    ∃ q, (granuleRecords decode table)[i]? = some q ∧
      (table[(flatnonzero (granuleRowMask decode table)).getD i 0]?).bind decode = some q := by
  induction table generalizing i with
  | nil => exact absurd hi (Nat.not_lt_zero i)
  | cons row table ih =>
    have hmask : granuleRowMask decode (row :: table) =
        (decode row).isSome :: granuleRowMask decode table := rfl
    have hrec : granuleRecords decode (row :: table) =
        (decode row).elim (granuleRecords decode table) fun q => q :: granuleRecords decode table := by
      rw [granuleRecords, List.filterMap_cons]
      cases decode row <;> rfl
    rw [hmask, flatnonzero_cons] at hi ⊢
    rw [hrec]
    have hshift : ∀ j, j < (flatnonzero (granuleRowMask decode table)).length →
        ((row :: table)[((flatnonzero (granuleRowMask decode table)).map (· + 1)).getD j 0]?) =
          table[(flatnonzero (granuleRowMask decode table)).getD j 0]? := by
      intro j hj
      rw [List.getD_eq_getElem?_getD, List.getElem?_map, List.getElem?_eq_getElem hj,
        List.getD_eq_getElem?_getD, List.getElem?_eq_getElem hj]
      rfl
    cases hd : decode row with
    | none =>
      rw [hd] at hi
      simp only [Option.isSome_none, Bool.false_eq_true, if_false, List.length_map] at hi ⊢
      rw [hshift i hi]
      exact ih hi
    | some q =>
      rw [hd] at hi
      simp only [Option.isSome_some, if_true, List.length_cons, List.length_map] at hi ⊢
      cases i with
      | zero => exact ⟨q, rfl, hd⟩
      | succ i =>
        have hi' := Nat.lt_of_succ_lt_succ hi
        rw [List.getD_cons_succ, hshift i hi']
        show ∃ r, (q :: granuleRecords decode table)[i + 1]? = some r ∧ _
        rw [List.getElem?_cons_succ]
        exact ih hi'

theorem map_some_gather {arr : List Q} {idx : List Nat} (h : ∀ i ∈ idx, i < arr.length) :
    (gather arr idx).map some = idx.map (arr[·]?) := by
  induction idx with
  | nil => rfl
  | cons i idx ih =>
    have hi := List.getElem?_eq_getElem (h i (.head _))
    have hrest := ih fun j hj => h j (.tail _ hj)
    rw [gather] at hrest
    rw [gather, List.filterMap_cons, hi, List.map_cons, List.map_cons, hi, hrest]

/-- Decoding the hit rows alone, and renumbering, keeps the granules of every shard. -/
theorem hitRecords_spec (decode : R → Option Q) (table : List R) {d : ShardRecords}
    (h : ∀ e ∈ d, ∀ i ∈ e.2, i < (flatnonzero (granuleRowMask decode table)).length) :
    ∃ records d', hitRecords decode table (flatnonzero (granuleRowMask decode table)) d =
        .ok (records, d') ∧ d'.map Prod.fst = d.map Prod.fst ∧
      (d'.map fun e => e.2.map (records[·]?)) =
        d.map fun e => e.2.map ((granuleRecords decode table)[·]?) := by
  by_cases hd : d = []
  · exact ⟨[], d, by rw [hitRecords, if_pos hd], rfl, by rw [hd]; rfl⟩
  · set full := granuleRecords decode table with hfull
    set rows := flatnonzero (granuleRowMask decode table) with hrows
    set hits := unique (d.map Prod.snd).flatten with hhits
    have hmem : ∀ i, i ∈ hits ↔ ∃ e ∈ d, i ∈ e.2 := by
      intro i
      rw [hhits, mem_unique, List.mem_flatten]
      constructor
      · rintro ⟨l, hl, hi⟩
        obtain ⟨e, he, rfl⟩ := List.mem_map.mp hl
        exact ⟨e, he, hi⟩
      · rintro ⟨e, he, hi⟩
        exact ⟨e.2, List.mem_map_of_mem he, hi⟩
    have hin : ∀ i ∈ hits, i < rows.length := by
      intro i hi
      obtain ⟨e, he, hie⟩ := (hmem i).mp hi
      exact h e he i hie
    have hlt : ∀ i ∈ hits, i < full.length := by
      intro i hi
      obtain ⟨q, hq, -⟩ := getElem?_granuleRecords decode table (hin i hi)
      exact (List.getElem?_eq_some_iff.mp hq).1
    have hrecords : granuleRecords decode (gather table (hits.map (rows.getD · 0))) =
        gather full hits := by
      rw [granuleRecords, gather, List.filterMap_map, List.filterMap_filterMap, gather]
      refine List.filterMap_congr fun i hi => ?_
      obtain ⟨q, hq, hdec⟩ := getElem?_granuleRecords decode table (hin i hi)
      rw [Function.comp, hdec, hq]
    have hsome := map_some_gather hlt
    have hlen : (gather full hits).length = hits.length := by
      have hl := congrArg List.length hsome
      rwa [List.length_map, List.length_map] at hl
    refine ⟨gather full hits, d.map fun e => (e.1, e.2.map fun i => hits.idxOf i), ?_, ?_, ?_⟩
    · rw [hitRecords, if_neg hd]
      simp only [← hhits, hrecords, hlen, ne_eq, not_true_eq_false, if_false]
    · rw [List.map_map]
      rfl
    · rw [List.map_map]
      refine List.map_congr_left fun e he => ?_
      simp only [Function.comp, List.map_map]
      refine List.map_congr_left fun i hi => ?_
      have hihits := (hmem i).mpr ⟨e, he, hi⟩
      have hat := congrArg (·[hits.idxOf i]?) hsome
      simp only [List.getElem?_map, List.getElem?_idxOf hihits, Option.map_some,
        List.getElem?_eq_getElem (hlt i hihits)] at hat
      simp only [Function.comp]
      obtain ⟨q, hq, he⟩ := Option.map_eq_some_iff.mp hat
      rw [hq, he, List.getElem?_eq_getElem (hlt i hihits)]

end Renumber
section Assignment
variable {V P R Row Q : Type} {m : Mortie V} {v : Cover P} {parentOrder batch : Nat}

theorem lt_of_mem_mask (decode : Row → Option Q) (table : List Row) {r : Nat}
    (h : r ∈ flatnonzero (granuleRowMask decode table)) : r < table.length := by
  have hget := mem_flatnonzero.mp h
  rw [granuleRowMask, List.getElem?_map] at hget
  obtain ⟨row, hrow, -⟩ := Option.map_eq_some_iff.mp hget
  exact (List.getElem?_eq_some_iff.mp hrow).1

/-- The footprint path returns the dictionary of the records' MOCs unless mortie refuses a
clipped footprint, the geometry path that of the records' covered rings, and the records
decoded for the hit rows, renumbered, are each shard's own. -/
theorem assignment_eq_records (hset : m.SetAlgebra v parentOrder)
    (hring : m.RingAlgebra v parentOrder) (hb : 0 < batch) (shards : List Word)
    (hshards : ∀ s ∈ shards, v.isShard s) :
    (∀ (values : List Word) (offsets rows : List Nat) (stored : Bool),
      RowAligned values offsets → (∀ x ∈ slots values offsets, v.compact x) →
      (∀ r ∈ rows, r + 1 < offsets.length) →
        (∀ d, intersectFootprintCells m parentOrder batch rows values offsets shards stored = .ok d →
          Assigned (fun s i => s ∈ shards ∧ i < rows.length ∧
            v.meets (recordMoc values offsets rows i) s) d) ∧
        ((∀ i < rows.length,
            v.fits (v.region (recordMoc values offsets rows i) ∩ v.region shards)) →
          ∃ d, intersectFootprintCells m parentOrder batch rows values offsets shards stored =
            .ok d)) ∧
    (∀ (footprints : R → List (Ring V)) (finite : V → Bool) (order : Nat) (records : List R),
      ∃ d, intersectMortie m parentOrder batch footprints finite order records shards = some d ∧
        Assigned (fun s i => s ∈ shards ∧ ∃ rec, records[i]? = some rec ∧
          recordMeets m v parentOrder order footprints finite rec s) d) ∧
    (∀ (decode : Row → Option Q) (table : List Row) (values : List Word) (offsets : List Nat)
        (stored : Bool) (d : ShardRecords),
      RowAligned values offsets → (∀ x ∈ slots values offsets, v.compact x) →
      offsets.length = table.length + 1 →
      intersectFootprintCells m parentOrder batch (flatnonzero (granuleRowMask decode table)) values
        offsets shards stored = .ok d →
      ∃ records d', hitRecords decode table (flatnonzero (granuleRowMask decode table)) d =
          .ok (records, d') ∧ d'.map Prod.fst = d.map Prod.fst ∧
        (d'.map fun e => e.2.map (records[·]?)) =
          d.map fun e => e.2.map ((granuleRecords decode table)[·]?)) := by
  refine ⟨fun values offsets rows stored ho hcol hrows => ?_, fun footprints finite order records => ?_,
    fun decode table values offsets stored d ho hcol hsize hd => ?_⟩
  · exact intersectFootprintCells_spec hset ho hcol hshards hb hrows stored
  · exact intersectMortie_spec hring hb order footprints finite records hshards
  · have hrows : ∀ r ∈ flatnonzero (granuleRowMask decode table), r + 1 < offsets.length := by
      intro r hr
      have hlt := lt_of_mem_mask decode table hr
      omega
    have hassigned := (intersectFootprintCells_spec hset ho hcol hshards hb hrows stored).1 d hd
    exact hitRecords_spec decode table fun e he i hi => ((hassigned.mem_iff e he i).mp hi).2.1

end Assignment

section Quads

/-- The points of a word: a shard is a quad of points, and a word from 100 on one point. -/
def quadPoints (w : Word) : List Nat := if w < 100 then List.range' (4 * w) 4 else [w - 100]

def quadShards (moc : List Word) : List Word :=
  ((moc.flatMap quadPoints).map (· / 4)).filter fun s => decide (s < 100)

/-- Words over points: every call works on the points of its MOCs. -/
def quads : Mortie Nat where
  compressMoc moc := moc
  mocsIntersect moc mocs := (slots mocs.1 mocs.2).map fun x =>
    (x.flatMap quadPoints).any fun p => decide (p ∈ moc.flatMap quadPoints)
  mocsAnd moc mocs := .ok (pack ((slots mocs.1 mocs.2).map fun x =>
    ((x.flatMap quadPoints).filter fun p => decide (p ∈ moc.flatMap quadPoints)).map (· + 100)))
  mocsToOrders mocs _ := .ok (pack ((slots mocs.1 mocs.2).map quadShards))
  coverageMoc lats _ _ := .ok (lats.map (· + 100))
  polygonsToMocs lats _ offsets _ := .ok (pack ((slots lats offsets).map (·.map (· + 100))))
  mocToOrder moc _ := .ok (quadShards moc)

def quadCover : Cover Nat where
  area w := {p | p ∈ quadPoints w}
  compact _ := True
  isShard w := w < 100
  fits _ := True

theorem mem_quadRegion {moc : List Word} {p : Nat} :
    p ∈ quadCover.region moc ↔ p ∈ moc.flatMap quadPoints := List.mem_flatMap.symm

theorem mem_quadPoints {w p : Nat} (h : w < 100) : p ∈ quadPoints w ↔ p / 4 = w := by
  rw [quadPoints, if_pos h, List.mem_range'_1]
  omega

theorem quadShards_flattened (moc : List Word) : quadCover.flattened moc (quadShards moc) := by
  intro w
  rw [quadShards, List.mem_filter, List.mem_map, decide_eq_true_eq]
  constructor
  · rintro ⟨⟨p, hp, rfl⟩, hw⟩
    exact ⟨hw, p, (mem_quadPoints hw).mpr rfl, mem_quadRegion.mpr hp⟩
  · rintro ⟨hw, p, hpw, hp⟩
    exact ⟨⟨p, mem_quadRegion.mp hp, (mem_quadPoints hw).mp hpw⟩, hw⟩

theorem quads_setAlgebra (parentOrder : Nat) : quads.SetAlgebra quadCover parentOrder where
  shards_disjoint s t hs ht hst := Set.disjoint_left.mpr fun p hps hpt =>
    hst (((mem_quadPoints hs).mp hps).symm.trans ((mem_quadPoints ht).mp hpt))
  compressMoc moc _ := ⟨trivial, rfl⟩
  mocsIntersect moc mocs _ _ := by
    show List.Forall₂ _ mocs ((slots mocs.flatten (offsetsOf mocs)).map _)
    rw [slots_offsetsOf, List.forall₂_map_right_iff]
    refine List.forall₂_same.mpr fun x _ => ?_
    simp only [List.any_eq_true, decide_eq_true_eq, Set.Nonempty, Set.mem_inter_iff, mem_quadRegion]
  mocsAnd moc mocs _ _ := by
    refine ⟨_, rfl, ?_⟩
    show List.Forall₂ _ mocs ((slots mocs.flatten (offsetsOf mocs)).map _)
    rw [slots_offsetsOf, List.forall₂_map_right_iff]
    refine List.forall₂_same.mpr fun x _ => ⟨trivial, Set.ext fun p => ?_⟩
    have hpoint : ∀ q, quadPoints (q + 100) = [q] := fun q => by
      rw [quadPoints, if_neg (Nat.not_lt.mpr (Nat.le_add_left 100 q)), Nat.add_sub_cancel]
    rw [Set.mem_inter_iff, mem_quadRegion, mem_quadRegion, mem_quadRegion, List.flatMap_map]
    simp only [hpoint, List.flatMap_singleton', List.mem_filter, decide_eq_true_eq]
  mocsToOrders mocs flat _ h := by
    have hslots : slots (pack mocs).1 (pack mocs).2 = mocs := slots_offsetsOf mocs
    refine ⟨mocs.map quadShards, (Except.ok.inj h).symm.trans (by rw [hslots]), ?_⟩
    exact List.forall₂_map_right_iff.mpr (List.forall₂_same.mpr fun x _ => quadShards_flattened x)
  mocsToOrders_fits mocs _ := ⟨_, rfl⟩

theorem quads_ringAlgebra (parentOrder : Nat) : quads.RingAlgebra quadCover parentOrder where
  mocToOrder moc cells _ h := Except.ok.inj h ▸ quadShards_flattened moc
  coverageMoc _ _ _ _ _ := trivial
  polygonsToMocs rings order out _ h := by
    have hslots : slots (rings.map Prod.fst).flatten (offsetsOf (rings.map Prod.fst)) =
        rings.map Prod.fst := slots_offsetsOf _
    refine ⟨(rings.map Prod.fst).map (·.map (· + 100)),
      (Except.ok.inj h).symm.trans (by rw [hslots]), ?_⟩
    rw [List.map_map, List.forall₂_map_right_iff]
    exact List.forall₂_same.mpr fun r _ => rfl

/-- Four rows, one without a record, in blocks of two: the last record meets both shards. -/
theorem assignment_eq_records_quads :
    Assigned (fun s i => s ∈ [2, 1] ∧ i < 3 ∧ quadCover.meets
        (recordMoc [104, 105, 120, 1, 108] [0, 2, 2, 3, 5] [0, 2, 3] i) s)
      [(1, [0, 2]), (2, [2])] :=
  ((@assignment_eq_records Nat Nat Unit Unit Unit quads quadCover 0 2 (quads_setAlgebra 0)
    (quads_ringAlgebra 0) Nat.two_pos [2, 1] (show ∀ s ∈ [2, 1], s < 100 by decide)).1 [104, 105, 120, 1, 108] [0, 2, 2, 3, 5]
      [0, 2, 3] true ⟨by decide, by decide, by decide⟩ (fun _ _ => trivial) (by decide)).1 _
    (by rfl)

end Quads
end Zagg.Catalog
