import Zagg.Lib.Pointwise
import Zagg.Catalog.Cover
import Zagg.Catalog.Regroup

/-!
# Stored footprints

The column is walked twice in blocks: the prefilter tests contiguous windows of it, and the
surviving records' slots are gathered, clipped to the AOI and flattened. Both walks work
slot by slot, so that the hits are each surviving record's own, whatever the block size.
-/
namespace Zagg.Catalog

open Zagg.Lib

section Spec
variable {V P : Type} {m : Mortie V} {v : Cover P} {parentOrder batch : Nat}
variable {values : List Word} {offsets rows : List Nat}

/-- The MOC of a record: the slot of its row. -/
def recordMoc (values : List Word) (offsets rows : List Nat) (i : Nat) : List Word :=
  (slots values offsets).getD (rows.getD i 0) []

/-- The prefilter holds of the rows whose MOC meets the AOI's. -/
theorem prefilter_spec (hm : m.SetAlgebra v parentOrder) (hb : 0 < batch)
    (ho : RowAligned values offsets) (hcol : ∀ x ∈ slots values offsets, v.compact x)
    {aoi : List Word} (haoi : v.compact aoi) :
    List.Forall₂ (fun x b => b = true ↔ (v.region x ∩ v.region aoi).Nonempty)
      (slots values offsets) (prefilter m batch aoi values offsets) := by
  have hlen := length_slots values offsets
  have hwindows : prefilter m batch aoi values offsets =
      (blocks (slots values offsets) batch).flatMap fun b => m.mocsIntersect aoi (pack b) := by
    rw [prefilter, blocks, hlen, List.flatMap_map]
    refine List.flatMap_congr fun a ha => ?_
    have hlt := mem_steps hb ha
    obtain ⟨hflat, hoff⟩ := ho.window (a := a) (b := min (a + batch) (offsets.length - 1))
      (by omega) (by omega)
    have hmin := slice_min (slots values offsets) a (a + batch)
    rw [hlen] at hmin
    rw [hmin] at hflat hoff
    simp only [hflat, hoff, pack]
  rw [hwindows]
  refine forall₂_blocks hb fun b hmem => hm.mocsIntersect aoi b haoi fun x hx => ?_
  exact hcol x ((mem_blocks hmem).subset hx)

/-- The cells of a record in the AOI, beside its index. -/
def Owned (v : Cover P) (shards : List Word) (moc : Nat → List Word) (x : Nat × List Word) : Prop :=
  ∀ s, s ∈ x.2 ↔ s ∈ shards ∧ v.meets (moc x.1) s

/-- What a block of hits keeps of its owners' cells. -/
def keptHits (xs : List (Nat × List Word)) : Option (List Word × List Nat) :=
  if xs.flatMap Prod.snd = [] then none
  else some (xs.flatMap Prod.snd, xs.flatMap fun x => List.replicate x.2.length x.1)

/-- A block keeps the hits of its owners. -/
def BlockOf (v : Cover P) (shards : List Word) (moc : Nat → List Word) (own : List Nat)
    (r : Option (List Word × List Nat)) : Prop :=
  ∃ xs : List (Nat × List Word), xs.map Prod.fst = own ∧ (∀ x ∈ xs, Owned v shards moc x) ∧
    r = keptHits xs

/-- The gather of a block is the packed MOCs of its records. -/
theorem blockHits_eq (ho : RowAligned values offsets) (aoi : List Word) (stored : Bool)
    {own : List Nat} (hrows : ∀ i ∈ own, rows.getD i 0 + 1 < offsets.length) :
    blockHits m parentOrder aoi values offsets stored own (own.map (rows.getD · 0)) =
      match (m.mocsAnd aoi (pack (own.map (recordMoc values offsets rows)))).bind fun hit =>
        m.mocsToOrders hit parentOrder with
      | .error exc => .error (batchFailed parentOrder own stored exc)
      | .ok (flat, flatOff) => .ok (if flat = [] then none else
          some (flat, repeats own (List.zipWith (· - ·) flatOff.tail flatOff))) := by
  have hin : ∀ r ∈ own.map (rows.getD · 0), r + 1 < offsets.length := by
    intro r hr
    obtain ⟨i, hi, rfl⟩ := List.mem_map.mp hr
    exact hrows i hi
  obtain ⟨hgather, hoff⟩ := ho.gather_rows hin
  have hmocs : (own.map (rows.getD · 0)).map (fun r => (slots values offsets).getD r []) =
      own.map (recordMoc values offsets rows) := by
    rw [List.map_map]
    rfl
  rw [hmocs] at hgather hoff
  rw [blockHits]
  simp only [hgather, hoff]
  rfl

variable (hm : m.SetAlgebra v parentOrder) (ho : RowAligned values offsets)
variable (hcol : ∀ x ∈ slots values offsets, v.compact x)
variable {shards aoi : List Word} (hshards : ∀ s ∈ shards, v.isShard s) (haoi : v.compact aoi)
variable (hregion : v.region aoi = v.region shards)

include hcol in
theorem compact_recordMoc {i : Nat} (h : rows.getD i 0 + 1 < offsets.length) :
    v.compact (recordMoc values offsets rows i) := by
  have hlt : rows.getD i 0 < (slots values offsets).length := by
    rw [length_slots]
    omega
  rw [recordMoc, List.getD_eq_getElem?_getD, List.getElem?_eq_getElem hlt, Option.getD_some]
  exact hcol _ (List.getElem_mem hlt)

include hm ho hcol hshards haoi hregion in
/-- A block that is not refused keeps its records' cells in the AOI. -/
theorem blockHits_ok {stored : Bool} {own : List Nat}
    (hrows : ∀ i ∈ own, rows.getD i 0 + 1 < offsets.length) {r : Option (List Word × List Nat)}
    (h : blockHits m parentOrder aoi values offsets stored own (own.map (rows.getD · 0)) = .ok r) :
    BlockOf v shards (recordMoc values offsets rows) own r := by
  have hcompact : ∀ x ∈ own.map (recordMoc values offsets rows), v.compact x := by
    intro x hx
    obtain ⟨i, hi, rfl⟩ := List.mem_map.mp hx
    exact compact_recordMoc hcol (hrows i hi)
  obtain ⟨clipped, hand, hclip⟩ := hm.mocsAnd aoi _ haoi hcompact
  rw [blockHits_eq ho aoi stored hrows, hand, Except.bind] at h
  cases hflat : m.mocsToOrders (pack clipped) parentOrder with
  | error exc => rw [hflat] at h; cases h
  | ok flat =>
    have hclipc : ∀ x ∈ clipped, v.compact x := by
      intro x hx
      obtain ⟨a, -, ha⟩ := forall₂_exists_of_mem_right hclip hx
      exact ha.1
    obtain ⟨outs, rfl, houts⟩ := hm.mocsToOrders clipped flat hclipc hflat
    have hown : List.Forall₂ (fun i o => Owned v shards (recordMoc values offsets rows) (i, o))
        own outs := by
      refine forall₂_comp (fun i c o hc hfl s => ?_) (List.forall₂_map_left_iff.mp hclip) houts
      rw [hfl s]
      constructor
      · rintro ⟨hs, hmeet⟩
        exact (hm.meets_clipped hshards (hregion ▸ hc.2) hs).mp hmeet
      · intro hs
        exact ⟨hshards s hs.1, (hm.meets_clipped hshards (hregion ▸ hc.2) (hshards s hs.1)).mpr hs⟩
    have hlen := hown.length_eq
    refine ⟨own.zip outs, List.map_fst_zip hlen.le, fun x hx => List.forall₂_zip hown hx, ?_⟩
    rw [hflat] at h
    have hcells : (own.zip outs).flatMap Prod.snd = outs.flatten := by
      rw [List.flatMap_def, List.map_snd_zip hlen.ge]
    rw [keptHits, hcells, ← repeats_diff_offsetsOf]
    exact (Except.ok.inj h).symm

include hm ho hcol haoi in
/-- A block is refused only where a clipped MOC is over mortie's budget. -/
theorem exists_blockHits {stored : Bool} {own : List Nat}
    (hrows : ∀ i ∈ own, rows.getD i 0 + 1 < offsets.length)
    (hfits : ∀ i ∈ own, v.fits (v.region (recordMoc values offsets rows i) ∩ v.region aoi)) :
    ∃ r, blockHits m parentOrder aoi values offsets stored own (own.map (rows.getD · 0)) = .ok r := by
  have hcompact : ∀ x ∈ own.map (recordMoc values offsets rows), v.compact x := by
    intro x hx
    obtain ⟨i, hi, rfl⟩ := List.mem_map.mp hx
    exact compact_recordMoc hcol (hrows i hi)
  obtain ⟨clipped, hand, hclip⟩ := hm.mocsAnd aoi _ haoi hcompact
  have hall : ∀ x ∈ clipped, v.compact x ∧ v.fits (v.region x) := by
    intro x hx
    obtain ⟨i, hi, ha⟩ := forall₂_exists_of_mem_right (List.forall₂_map_left_iff.mp hclip) hx
    exact ⟨ha.1, ha.2 ▸ hfits i hi⟩
  obtain ⟨flat, hflat⟩ := hm.mocsToOrders_fits clipped hall
  rw [blockHits_eq ho aoi stored hrows, hand, Except.bind, hflat]
  exact ⟨_, rfl⟩

/-- The blocks' kept hits are the hits of all their owners in turn. -/
theorem keptHits_flatten {own : List (List Nat)} {rs : List (Option (List Word × List Nat))}
    {moc : Nat → List Word}
    (h : List.Forall₂ (BlockOf v shards moc) own rs) :
    ∃ xs : List (Nat × List Word), xs.map Prod.fst = own.flatten ∧ (∀ x ∈ xs, Owned v shards moc x) ∧
      ((rs.filterMap id).map Prod.fst).flatten = xs.flatMap Prod.snd ∧
      ((rs.filterMap id).map Prod.snd).flatten =
        (xs.flatMap fun x => List.replicate x.2.length x.1) ∧
      ∀ k ∈ rs.filterMap id, k.1 ≠ [] := by
  induction h with
  | nil => exact ⟨[], rfl, nofun, rfl, rfl, nofun⟩
  | cons hfirst _ ih =>
    obtain ⟨xs, rfl, hxs, rfl⟩ := hfirst
    obtain ⟨ys, hys, hyo, hyc, hyr, hyne⟩ := ih
    refine ⟨xs ++ ys, by rw [List.map_append, hys, List.flatten_cons],
      fun x hx => (List.mem_append.mp hx).elim (hxs x) (hyo x), ?_⟩
    rw [List.flatMap_append, List.flatMap_append, ← hyc, ← hyr]
    by_cases hnil : xs.flatMap Prod.snd = []
    · have hrep : (xs.flatMap fun x => List.replicate x.2.length x.1) = [] := by
        apply List.eq_nil_of_length_eq_zero
        rw [length_owned, hnil]
        rfl
      rw [keptHits, if_pos hnil, hnil, hrep]
      exact ⟨rfl, rfl, hyne⟩
    · rw [keptHits, if_neg hnil]
      refine ⟨rfl, rfl, fun k hk => ?_⟩
      rcases List.mem_cons.mp hk with rfl | hk
      · exact hnil
      · exact hyne k hk

theorem slices_eq_blocks (surv : List Nat) (f : Nat → Nat) (size : Nat) {β ε : Type}
    (g : List Nat → List Nat → Except ε β) :
    ((steps (surv.map f).length size).mapM fun a =>
        g (slice surv a (a + size)) (slice (surv.map f) a (a + size))) =
      (blocks surv size).mapM fun own => g own (own.map f) := by
  rw [blocks, List.mapM_map, List.length_map]
  simp only [slice_map]
  rfl

include hm hshards in
theorem compressed_aoi : v.compact (m.compressMoc (shards.insertionSort (· ≤ ·))) ∧
    v.region (m.compressMoc (shards.insertionSort (· ≤ ·))) = v.region shards := by
  have hperm := List.perm_insertionSort (· ≤ ·) shards
  obtain ⟨hcompact, hregion⟩ := hm.compressMoc (shards.insertionSort (· ≤ ·))
    fun w hw => hshards w (hperm.mem_iff.mp hw)
  refine ⟨hcompact, hregion.trans (Set.ext fun p => ?_)⟩
  simp only [Cover.region, hperm.mem_iff]

include hm ho hcol haoi hregion in
/-- The survivors are the records whose MOC meets a shard of the AOI. -/
theorem mem_survivors (hb : 0 < batch) (hrows : ∀ r ∈ rows, r + 1 < offsets.length) {i : Nat} :
    i ∈ flatnonzero (rows.map ((prefilter m batch aoi values offsets).getD · false)) ↔
      i < rows.length ∧ ∃ s ∈ shards, v.meets (recordMoc values offsets rows i) s := by
  have hhits := prefilter_spec hm hb ho hcol haoi
  rw [mem_flatnonzero, List.getElem?_map]
  by_cases hi : i < rows.length
  · have hrow : rows.getD i 0 = rows[i] := by
      rw [List.getD_eq_getElem?_getD, List.getElem?_eq_getElem hi, Option.getD_some]
    have hlt : rows[i] < (slots values offsets).length := by
      have hmem := hrows rows[i] (List.getElem_mem hi)
      rw [length_slots]
      omega
    have hlt' : rows[i] < (prefilter m batch aoi values offsets).length := hhits.length_eq ▸ hlt
    have hbit := hhits.get hlt hlt'
    rw [List.get_eq_getElem, List.get_eq_getElem, hregion] at hbit
    have hmoc : recordMoc values offsets rows i = (slots values offsets)[rows[i]] := by
      rw [recordMoc, hrow, List.getD_eq_getElem?_getD, List.getElem?_eq_getElem hlt, Option.getD_some]
    rw [List.getElem?_eq_getElem hi, Option.map_some, Option.some_inj, List.getD_eq_getElem?_getD,
      List.getElem?_eq_getElem hlt', Option.getD_some, hbit, hmoc]
    constructor
    · rintro ⟨p, hp, s, hs, hps⟩
      exact ⟨hi, s, hs, p, hps, hp⟩
    · rintro ⟨-, s, hs, p, hps, hp⟩
      exact ⟨p, hp, s, hs, hps⟩
  · rw [List.getElem?_eq_none (not_lt.mp hi)]
    simp [hi]

include hm ho hcol hshards in
/-- The footprint path: what it returns is the dictionary of the records' own hits, and it
returns where every clipped footprint is within mortie's budget. -/
theorem intersectFootprintCells_spec (hb : 0 < batch) (hrows : ∀ r ∈ rows, r + 1 < offsets.length)
    (stored : Bool) :
    (∀ d, intersectFootprintCells m parentOrder batch rows values offsets shards stored = .ok d →
      Assigned (fun s i => s ∈ shards ∧ i < rows.length ∧
        v.meets (recordMoc values offsets rows i) s) d) ∧
    ((∀ i < rows.length, v.fits (v.region (recordMoc values offsets rows i) ∩ v.region shards)) →
      ∃ d, intersectFootprintCells m parentOrder batch rows values offsets shards stored = .ok d) := by
  obtain ⟨haoi, hregion⟩ := compressed_aoi hm hshards
  rw [intersectFootprintCells]
  split_ifs with hempty
  · refine ⟨fun d hd => ?_, fun _ => ⟨[], rfl⟩⟩
    cases hd
    refine assigned_nil fun s i h => ?_
    rcases hempty with hr | hs
    · rw [hr] at h
      exact absurd h.2.1 (Nat.not_lt_zero i)
    · rw [hs] at h
      cases h.1
  · have hmem := fun i : Nat => mem_survivors (i := i) hm ho hcol haoi hregion hb hrows
    have hsorted := pairwise_flatnonzero (rows.map
      ((prefilter m batch (m.compressMoc (shards.insertionSort (· ≤ ·))) values offsets).getD · false))
    dsimp only
    generalize flatnonzero (rows.map
      ((prefilter m batch (m.compressMoc (shards.insertionSort (· ≤ ·))) values offsets).getD
        · false)) = surv at hmem hsorted ⊢
    have hin : ∀ own ∈ blocks surv batch, ∀ i ∈ own, i < rows.length ∧
        rows.getD i 0 + 1 < offsets.length := by
      intro own hown i hi
      have hlt := ((hmem i).mp ((mem_blocks hown).subset hi)).1
      rw [List.getD_eq_getElem?_getD, List.getElem?_eq_getElem hlt, Option.getD_some]
      exact ⟨hlt, hrows _ (List.getElem_mem hlt)⟩
    rw [slices_eq_blocks surv (rows.getD · 0) batch
      (blockHits m parentOrder (m.compressMoc (shards.insertionSort (· ≤ ·))) values offsets stored)]
    have hfinal : ∀ rs, (blocks surv batch).mapM (fun own => blockHits m parentOrder
          (m.compressMoc (shards.insertionSort (· ≤ ·))) values offsets stored own
          (own.map (rows.getD · 0))) = .ok rs →
        ∃ d, regroupHits ((rs.filterMap id).map Prod.fst) ((rs.filterMap id).map Prod.snd) = some d ∧
          Assigned (fun s i => s ∈ shards ∧ i < rows.length ∧
            v.meets (recordMoc values offsets rows i) s) d := by
      intro rs hrs
      have hblocks : List.Forall₂ (BlockOf v shards (recordMoc values offsets rows))
          (blocks surv batch) rs := by
        have hok := forall₂_mapM hrs
        refine List.forall₂_iff_get.mpr ⟨hok.length_eq, fun k h1 h2 => ?_⟩
        have hmemk := List.get_mem (blocks surv batch) ⟨k, h1⟩
        exact blockHits_ok hm ho hcol hshards haoi hregion (fun i hi => (hin _ hmemk i hi).2)
          (hok.get h1 h2)
      obtain ⟨xs, hfst, howned, hcells, howners, hne⟩ := keptHits_flatten hblocks
      rw [flatten_blocks hb] at hfst
      obtain ⟨d, hd, hassigned⟩ := regroupHits_owned hne hcells howners
        (hfst ▸ hsorted.imp fun h => h.le)
      refine ⟨d, hd, hassigned.congr fun s i => ?_⟩
      constructor
      · rintro ⟨x, hx, rfl, hs⟩
        obtain ⟨hsh, hmeet⟩ := (howned x hx s).mp hs
        exact ⟨hsh, ((hmem x.1).mp (hfst ▸ List.mem_map_of_mem hx)).1, hmeet⟩
      · rintro ⟨hs, hi, hmeet⟩
        have hsurv := (hmem i).mpr ⟨hi, s, hs, hmeet⟩
        rw [← hfst] at hsurv
        obtain ⟨x, hx, rfl⟩ := List.mem_map.mp hsurv
        exact ⟨x, hx, rfl, (howned x hx s).mpr ⟨hs, hmeet⟩⟩
    split_ifs with hnone
    · refine ⟨fun d hd => ?_, fun _ => ⟨[], rfl⟩⟩
      cases hd
      refine assigned_nil fun s i h => ?_
      have hsurv := (hmem i).mpr ⟨h.2.1, s, h.1, h.2.2⟩
      rw [hnone] at hsurv
      cases hsurv
    · constructor
      · intro d hd
        obtain ⟨rs, hrs, hd⟩ := bind_ok hd
        obtain ⟨d', hd', hassigned⟩ := hfinal rs hrs
        rw [hd'] at hd
        cases hd
        exact hassigned
      · intro hfits
        obtain ⟨rs, hrs⟩ := exists_mapM fun own hown => exists_blockHits 
          hm ho hcol haoi (fun i hi => (hin own hown i hi).2) fun i hi =>
            hregion ▸ hfits i (hin own hown i hi).1
        obtain ⟨d, hd, -⟩ := hfinal rs hrs
        refine ⟨d, ?_⟩
        rw [hrs, Except.bind, hd]

end Spec
end Zagg.Catalog
