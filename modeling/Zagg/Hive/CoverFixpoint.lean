import Zagg.Hive.CoverMerge
import Zagg.Hive.PackedToc

/-!
# The composition of whole cover objects

Covers at one shard order compose to a cover that claims every instant any of them claims,
in blocks within the cap. Composing the incoming one again reproduces the object's content,
so the skip test sees no change.
-/
namespace Zagg.Hive

open Zagg.Lib
open Zagg.Catalog (Word)

/-- A cover body as its writers leave it, at shard order `n`. -/
structure Cover (g : Toc) (n : Int) where
  carrier : Fields
  shards : Fields
  pin : Int
  names : List String
  spec_eq : Json.field carrier "spec" = .str coverSpec
  order_eq : Json.field carrier "order" = .num n
  pin_eq : objectPin carrier = .ok pin
  shards_eq : coverShards carrier = .ok shards
  nodup : (shards.map Prod.fst).Nodup
  blocks : BlocksWf g shards pin
  names_eq : fieldSet carrier = .ok (names.map .str)

variable {g : Toc} {n : Int}

theorem distinct_texts (names : List String) : ∃ ds : List String,
    distinct (names.map .str) = ds.map .str ∧ ds.Nodup ∧ ∀ s, s ∈ ds ↔ s ∈ names := by
  have hfold : ∀ (l seen : List String), seen.Nodup → ∃ ds : List String,
      (l.map Json.str).foldl (fun seen x => if seen.any (·.pyEq x) then seen else seen ++ [x])
        (seen.map .str) = ds.map .str ∧ ds.Nodup ∧ ∀ s, s ∈ ds ↔ s ∈ seen ∨ s ∈ l := by
    intro l
    induction l with
    | nil => exact fun seen hn => ⟨seen, rfl, hn, fun s => by simp⟩
    | cons name l ih =>
      intro seen hn
      have hany : (seen.map Json.str).any (·.pyEq (.str name)) = true ↔ name ∈ seen := by
        simp [Json.pyEq]
      rw [List.map_cons, List.foldl_cons]
      by_cases hmem : name ∈ seen
      · obtain ⟨ds, hds, hnodup, hiff⟩ := ih seen hn
        rw [if_pos (hany.mpr hmem)]
        refine ⟨ds, hds, hnodup, fun s => (hiff s).trans ?_⟩
        rw [List.mem_cons]
        constructor
        · exact fun h => h.imp_right .inr
        · rintro (h | rfl | h)
          · exact .inl h
          · exact .inl hmem
          · exact .inr h
      · have hn' : (seen ++ [name]).Nodup :=
          List.nodup_append.mpr ⟨hn, List.nodup_singleton name, fun a ha b hb heq =>
            hmem (List.mem_singleton.mp hb ▸ heq ▸ ha)⟩
        obtain ⟨ds, hds, hnodup, hiff⟩ := ih (seen ++ [name]) hn'
        rw [if_neg fun h => hmem (hany.mp h)]
        refine ⟨ds, ?_, hnodup, fun s => (hiff s).trans ?_⟩
        · rw [← hds, List.map_append]
          rfl
        · rw [List.mem_append, List.mem_singleton, List.mem_cons, or_assoc]
  obtain ⟨ds, hds, hnodup, hiff⟩ := hfold names [] List.nodup_nil
  exact ⟨ds, hds, hnodup, fun s => (hiff s).trans (by simp)⟩

theorem pySorted_texts (names : List String) :
    pySorted (names.map .str) = .ok ((names.insertionSort (· ≤ ·)).map .str) := by
  have htext : (names.map Json.str).all isText = true := by simp [isText]
  rw [pySorted, if_pos (.inr (.inl htext))]
  refine congrArg Except.ok (List.map_insertionSort _ _ _ _ fun a _ b _ => ?_).symm
  simp [scalarLe]

theorem pySorted_distinct (names : List String) :
    pySorted (distinct (names.map .str)) = .ok ((sortedSet names).map .str) := by
  obtain ⟨ds, hds, hnodup, hiff⟩ := distinct_texts names
  rw [hds, pySorted_texts]
  refine congrArg (fun l => Except.ok (l.map Json.str)) (eq_sortedSet ?_ ?_ fun x => ?_)
  · exact (List.perm_insertionSort _ _).nodup_iff.mpr hnodup
  · exact List.pairwise_insertionSort _ _
  · rw [List.mem_insertionSort, hiff x]

theorem fieldSet_of_texts {carrier : Fields} {names : List String}
    (h : Json.field carrier "fields" = .arr (names.map .str)) :
    fieldSet carrier = .ok (names.map .str) := by
  have hhash : (names.map Json.str).all hashable = true := by simp [hashable]
  rw [fieldSet, h]
  cases names with
  | nil => rfl
  | cons name names =>
    simp only [List.map_cons] at hhash ⊢
    simp [Json.truthy, Json.items, hhash, bind, Except.bind, pure, Except.pure]

theorem sortedFields_of_texts {carrier : Fields} {names : List String}
    (h : Json.field carrier "fields" = .arr (names.map .str)) :
    sortedFields carrier = .ok ((names.insertionSort (· ≤ ·)).map .str) := by
  rw [sortedFields, h, ← Json.sort_texts]
  cases names <;> rfl

theorem mergeCoverShard_fst {shardsA shardsB : Fields} {pinA pinB : Int} {decimal : String}
    {e : String × Json} (h : mergeCoverShard g shardsA shardsB pinA pinB decimal = .ok e) :
    e.1 = decimal := by
  rw [mergeCoverShard] at h
  obtain ⟨sides, -, h⟩ := bind_ok h
  obtain ⟨joined, -, h⟩ := bind_ok h
  obtain ⟨capped, -, h⟩ := bind_ok h
  cases h
  rfl

/-- The block a composition writes for one shard. -/
structure BlockOf (a b m : Cover g n) (decimal : String) (r : List Word × Int) : Prop where
  merged : mergeCoverShard g a.shards b.shards a.pin b.pin decimal =
    .ok (decimal, encodeCoverBlock r.1 r.2 m.pin)
  stands : m.shards.lookup decimal = some (encodeCoverBlock r.1 r.2 m.pin)
  listed : Listed m.shards m.pin decimal r
  quantized : Quantized g r.2 r.1
  capped : r.1.length ≤ coverCap
  standing : ∀ side, Listed a.shards a.pin decimal side → TakesIn g r side
  incoming : ∀ side, Listed b.shards b.pin decimal side → TakesIn g r side

/-- The composition of two covers. -/
structure MergeOf (a b m : Cover g n) : Prop where
  carrier : m.carrier = mergedCover a.carrier b.carrier m.pin (m.names.map .str) m.shards
  pin : m.pin = max a.pin b.pin
  names : m.names = sortedSet (a.names ++ b.names)
  shards : (sortedKeys a.shards b.shards).mapM
    (mergeCoverShard g a.shards b.shards a.pin b.pin) = .ok m.shards
  keys : m.shards.map Prod.fst = sortedKeys a.shards b.shards
  block : ∀ decimal ∈ sortedKeys a.shards b.shards, ∃ r, BlockOf a b m decimal r

theorem Listed.mem_keys {shards : Fields} {pin : Int} {decimal : String} {side : List Word × Int}
    (h : Listed shards pin decimal side) : decimal ∈ shards.map Prod.fst := by
  obtain ⟨block, hblock, -⟩ := h
  exact List.mem_map_of_mem (mem_of_lookup hblock)

theorem mem_sortedKeys {a b : Fields} {decimal : String} : decimal ∈ sortedKeys a b ↔
    decimal ∈ a.map Prod.fst ∨ decimal ∈ b.map Prod.fst := by
  rw [sortedKeys, mem_sortedSet, List.mem_append]

theorem usable_cover (a : Cover g n) : coverUsable (.obj a.carrier) = some a.carrier := by
  rw [coverUsable, a.spec_eq]
  simp [Json.pyEq]

theorem mergeCoverSections_eq (a b : Cover g n) :
    mergeCoverSections g (.obj a.carrier) (.obj b.carrier) =
      (mergeUsableCovers g a.carrier b.carrier).map some := by
  have horder : (Json.num n).pyEq (.num n) = true := (Json.pyEq_of_number rfl).mpr rfl
  rw [mergeCoverSections, usable_cover, usable_cover]
  simp only [a.order_eq, b.order_eq, horder, if_true]

theorem mergeUsableCovers_eq {a b : Cover g n} {shards : Fields}
    (h : (sortedKeys a.shards b.shards).mapM
      (mergeCoverShard g a.shards b.shards a.pin b.pin) = .ok shards) :
    mergeUsableCovers g a.carrier b.carrier = .ok (mergedCover a.carrier b.carrier
      (max a.pin b.pin) ((sortedSet (a.names ++ b.names)).map .str) shards) := by
  rw [mergeUsableCovers]
  simp only [bind, Except.bind, a.pin_eq, b.pin_eq, a.shards_eq, b.shards_eq]
  rw [h]
  simp only [a.names_eq, b.names_eq, ← List.map_append, pySorted_distinct]
  rfl

theorem getDefault_eq {carrier : Fields} {key : String} {v : Json} (h : Json.field carrier key = v)
    (hv : v ≠ .null) (default : Json) : getDefault carrier key default = v := by
  rw [Json.field] at h
  rw [getDefault]
  cases hlook : carrier.lookup key with
  | none =>
    rw [hlook] at h
    exact absurd h.symm hv
  | some value =>
    rw [hlook] at h
    exact h

theorem objectPin_of_num {carrier : Fields} {pin : Int}
    (h : Json.field carrier "temporal_order" = .num pin) : objectPin carrier = .ok pin := by
  rw [objectPin, getDefault_eq h nofun, Json.toInt_num]

theorem coverShards_of_obj {carrier shards : Fields}
    (h : Json.field carrier "shards" = .obj shards) : coverShards carrier = .ok shards := by
  rw [coverShards, h, orEmpty_obj]

/-- Two covers at one shard order compose. -/
theorem exists_mergeOf (hg : g.Lawful) (a b : Cover g n) : ∃ m : Cover g n, MergeOf a b m := by
  have hshard : ∀ decimal ∈ sortedKeys a.shards b.shards, ∃ r : List Word × Int,
      mergeCoverShard g a.shards b.shards a.pin b.pin decimal =
        .ok (decimal, encodeCoverBlock r.1 r.2 (max a.pin b.pin)) ∧
      Quantized g r.2 r.1 ∧ r.1.length ≤ coverCap ∧
      (∀ side, Listed a.shards a.pin decimal side → TakesIn g r side) ∧
      ∀ side, Listed b.shards b.pin decimal side → TakesIn g r side :=
    fun _ hkey => exists_mergeCoverShard hg a.blocks b.blocks (mem_sortedKeys.mp hkey)
  obtain ⟨shards, hshards⟩ := exists_mapM fun decimal hkey =>
    let ⟨_, hr, _⟩ := hshard decimal hkey
    ⟨_, hr⟩
  have hkeys : shards.map Prod.fst = sortedKeys a.shards b.shards := by
    have hrel := (forall₂_mapM hshards).imp fun _ _ h => (mergeCoverShard_fst h).symm
    rw [← List.forall₂_map_right_iff, List.forall₂_eq_eq_eq] at hrel
    exact hrel.symm
  have hnodup : (shards.map Prod.fst).Nodup := hkeys ▸ nodup_sortedSet _
  have hlook : ∀ decimal ∈ sortedKeys a.shards b.shards, ∀ block,
      mergeCoverShard g a.shards b.shards a.pin b.pin decimal = .ok (decimal, block) →
      shards.lookup decimal = some block := by
    intro decimal hkey block hblock
    obtain ⟨e, he, hok⟩ := ok_of_mapM hshards hkey
    cases hblock.symm.trans hok
    exact lookup_of_nodup hnodup he
  -- the coarser side of a shard stays at or below its own pin
  have hpin : ∀ decimal ∈ sortedKeys a.shards b.shards, ∀ r : List Word × Int,
      (∀ side, Listed a.shards a.pin decimal side → TakesIn g r side) →
      (∀ side, Listed b.shards b.pin decimal side → TakesIn g r side) →
      r.2 ≤ max a.pin b.pin := by
    intro decimal hkey r hA hB
    rcases mem_sortedKeys.mp hkey with hkey | hkey
    · obtain ⟨e, he, rfl⟩ := List.mem_map.mp hkey
      have hla := lookup_of_nodup a.nodup he
      obtain ⟨side, hdec, -⟩ := a.blocks _ _ hla
      exact ((hA side ⟨_, hla, hdec⟩).coarser.trans (order_le_pin hdec)).trans (le_max_left _ _)
    · obtain ⟨e, he, rfl⟩ := List.mem_map.mp hkey
      have hlb := lookup_of_nodup b.nodup he
      obtain ⟨side, hdec, -⟩ := b.blocks _ _ hlb
      exact ((hB side ⟨_, hlb, hdec⟩).coarser.trans (order_le_pin hdec)).trans (le_max_right _ _)
  have hblocks : BlocksWf g shards (max a.pin b.pin) := by
    intro decimal block hblock
    have hkey : decimal ∈ sortedKeys a.shards b.shards :=
      hkeys ▸ List.mem_map_of_mem (mem_of_lookup hblock)
    obtain ⟨r, hr, hq, -, hA, hB⟩ := hshard decimal hkey
    obtain rfl := Option.some.inj (hblock.symm.trans (hlook decimal hkey _ hr))
    exact ⟨r, decodeCoverBlock_encode hg hq (hpin decimal hkey r hA hB), hq⟩
  refine ⟨{
    carrier := mergedCover a.carrier b.carrier (max a.pin b.pin)
      ((sortedSet (a.names ++ b.names)).map .str) shards
    shards := shards
    pin := max a.pin b.pin
    names := sortedSet (a.names ++ b.names)
    spec_eq := rfl
    order_eq := getDefault_eq b.order_eq nofun _
    pin_eq := objectPin_of_num rfl
    shards_eq := coverShards_of_obj rfl
    nodup := hnodup
    blocks := hblocks
    names_eq := fieldSet_of_texts rfl }, rfl, rfl, rfl, hshards, hkeys, ?_⟩
  intro decimal hkey
  obtain ⟨r, hr, hq, hcap, hA, hB⟩ := hshard decimal hkey
  have hstands := hlook decimal hkey _ hr
  exact ⟨r, hr, hstands, ⟨_, hstands, decodeCoverBlock_encode hg hq (hpin decimal hkey r hA hB)⟩,
    hq, hcap, hA, hB⟩

section Merged
variable {a b m : Cover g n} (h : MergeOf a b m)
include h

theorem MergeOf.merge_eq : mergeCoverSections g (.obj a.carrier) (.obj b.carrier) = .ok (some m.carrier) := by
  rw [mergeCoverSections_eq, mergeUsableCovers_eq h.shards, h.carrier, h.pin, h.names]
  rfl

theorem MergeOf.blockOf {decimal : String} {r : List Word × Int}
    (hr : Listed m.shards m.pin decimal r) : BlockOf a b m decimal r := by
  obtain ⟨r', hblock⟩ := h.block decimal (h.keys ▸ hr.mem_keys)
  exact hr.unique hblock.listed ▸ hblock

theorem MergeOf.takesIn {decimal : String} {side : List Word × Int}
    (hside : Listed a.shards a.pin decimal side ∨ Listed b.shards b.pin decimal side) :
    ∃ r, Listed m.shards m.pin decimal r ∧ TakesIn g r side := by
  obtain ⟨r, hblock⟩ := h.block decimal
    (mem_sortedKeys.mpr (hside.imp Listed.mem_keys Listed.mem_keys))
  exact ⟨r, hblock.listed, hside.elim (hblock.standing side) (hblock.incoming side)⟩

/-- The composition takes the incoming cover in again without a change. -/
theorem MergeOf.merge_again (hg : g.Lawful) :
    mergeUsableCovers g m.carrier b.carrier =
      .ok (mergedCover m.carrier b.carrier m.pin (m.names.map .str) m.shards) := by
  have hpin : max m.pin b.pin = m.pin := max_eq_left (h.pin ▸ le_max_right _ _)
  have hkeys : sortedKeys m.shards b.shards = sortedKeys a.shards b.shards := by
    refine sortedSet_congr fun decimal => ?_
    rw [h.keys, List.mem_append, List.mem_append, mem_sortedKeys]
    tauto
  have hnames : sortedSet (m.names ++ b.names) = m.names := by
    rw [h.names]
    refine sortedSet_congr fun name => ?_
    rw [List.mem_append, List.mem_append, mem_sortedSet, List.mem_append]
    tauto
  have hshards : (sortedKeys m.shards b.shards).mapM
      (mergeCoverShard g m.shards b.shards m.pin b.pin) = .ok m.shards := by
    rw [hkeys, ← h.shards]
    refine mapM_congr fun decimal hkey => ?_
    obtain ⟨r, hr⟩ := h.block decimal hkey
    rw [hr.merged, mergeCoverShard_fixed hg hr.listed b.blocks hr.quantized hr.capped hr.incoming, hpin]
  rw [mergeUsableCovers_eq hshards, hpin, hnames]

end Merged

/-- The content of a composed object, from its fields. -/
theorem coverContent_merged {carrier shards : Fields} {names : List String} {pin : Int}
    (hshards : Json.field carrier "shards" = .obj shards)
    (hnames : Json.field carrier "fields" = .arr (names.map .str))
    (horder : Json.field carrier "order" = .num n)
    (hpin : Json.field carrier "temporal_order" = .num pin)
    (hcap : Json.field carrier "cap" = .num coverCap) :
    coverContent (some carrier) = .ok (.arr [.obj (shards.filterMap blockContent),
      .arr ((names.insertionSort (· ≤ ·)).map .str), .num n, .num pin, .num coverCap]) := by
  have hitems : shardItems carrier = .ok shards := by rw [shardItems, hshards, orEmpty_obj]
  simp only [coverContent, hitems, sortedFields_of_texts hnames, horder, hpin, hcap, bind,
    Except.bind, pure, Except.pure]

theorem map_fst_blockContent (shards : Fields) :
    ((shards.filterMap blockContent).map Prod.fst).Sublist (shards.map Prod.fst) := by
  induction shards with
  | nil => exact .slnil
  | cons e shards ih =>
    rw [List.filterMap_cons, List.map_cons]
    cases hcontent : blockContent e with
    | none => exact ih.cons _
    | some r =>
      have hkey : r.1 = e.1 := by
        obtain ⟨decimal, block⟩ := e
        cases block with
        | obj block => exact (Option.some.inj hcontent) ▸ rfl
        | _ => cases hcontent
      rw [← hkey]
      exact ih.cons_cons _

theorem distinct_blockContent {r : List Word × Int} {pin : Int} {decimal : String} {e : String × Json}
    (h : blockContent (decimal, encodeCoverBlock r.1 r.2 pin) = some e) : e.2.Distinct := by
  obtain rfl := Option.some.inj h
  refine .arr fun item hitem => ?_
  by_cases hcoarse : r.2 = pin
  · simp [hcoarse, Json.field, List.lookup_cons, List.lookup_nil] at hitem
    rcases hitem with rfl | rfl | rfl
    · exact .str _
    · exact .num _
    · exact .null
  · simp [hcoarse, Json.field, List.lookup_cons] at hitem
    rcases hitem with rfl | rfl | rfl
    · exact .str _
    · exact .num _
    · exact .num _

theorem MergeOf.unchanged {a b m : Cover g n} (h : MergeOf a b m) (hg : g.Lawful) :
    coverUnchanged g (.obj m.carrier) (.obj b.carrier) = .ok true := by
  have hblock : ∀ e ∈ m.shards, ∃ r : List Word × Int, e.2 = encodeCoverBlock r.1 r.2 m.pin := by
    intro e he
    obtain ⟨r, hr⟩ := h.block e.1 (h.keys ▸ List.mem_map_of_mem he)
    exact ⟨r, Option.some.inj ((lookup_of_nodup m.nodup he).symm.trans hr.stands)⟩
  have hdistinct : (Json.arr [.obj (m.shards.filterMap blockContent),
      .arr ((m.names.insertionSort (· ≤ ·)).map .str), .num n, .num m.pin,
      .num coverCap]).Distinct := by
    refine .arr fun item hitem => ?_
    simp only [List.mem_cons, List.not_mem_nil, or_false] at hitem
    rcases hitem with rfl | rfl | rfl | rfl | rfl
    · refine .obj ((map_fst_blockContent m.shards).nodup m.nodup) fun e he => ?_
      obtain ⟨⟨decimal, block⟩, hmem, hcontent⟩ := List.mem_filterMap.mp he
      obtain ⟨r, rfl⟩ := hblock _ hmem
      exact distinct_blockContent hcontent
    · refine .arr fun name hname => ?_
      obtain ⟨s, -, rfl⟩ := List.mem_map.mp hname
      exact .str s
    · exact .num _
    · exact .num _
    · exact .num _
  have hstanding : coverContent (some m.carrier) = .ok (.arr [.obj (m.shards.filterMap blockContent),
      .arr ((m.names.insertionSort (· ≤ ·)).map .str), .num n, .num m.pin, .num coverCap]) := by
    have horder := m.order_eq
    rw [h.carrier] at horder ⊢
    exact coverContent_merged rfl rfl horder rfl rfl
  have hagain : coverContent (some (mergedCover m.carrier b.carrier m.pin (m.names.map .str) m.shards)) =
      .ok (.arr [.obj (m.shards.filterMap blockContent),
        .arr ((m.names.insertionSort (· ≤ ·)).map .str), .num n, .num m.pin, .num coverCap]) :=
    coverContent_merged rfl rfl (getDefault_eq b.order_eq (fun h => by cases h) _) rfl rfl
  rw [coverUnchanged, mergeCoverSections_eq, h.merge_again hg]
  simp only [Except.map, hagain, hstanding, bind, Except.bind, pure, Except.pure]
  rw [Json.pyEq_refl hdistinct]

/-- Results of composing covers in any order, with the bodies they are composed of. -/
inductive Merged (g : Toc) (n : Int) : List (Cover g n) → Fields → Prop where
  | body (b : Cover g n) : Merged g n [b] b.carrier
  | merge {bs cs : List (Cover g n)} {e i m : Fields} (he : Merged g n bs e) (hi : Merged g n cs i)
      (h : mergeCoverSections g (.obj e) (.obj i) = .ok (some m)) : Merged g n (bs ++ cs) m

/-- Every side a body lists is within a block of the cover. -/
def TakesAll (m : Cover g n) (bs : List (Cover g n)) : Prop :=
  ∀ b ∈ bs, ∀ decimal side, Listed b.shards b.pin decimal side →
    ∃ r, Listed m.shards m.pin decimal r ∧ TakesIn g r side

theorem MergeOf.takesAll {a b m : Cover g n} (h : MergeOf a b m) {bs cs : List (Cover g n)}
    (ha : TakesAll a bs) (hb : TakesAll b cs) : TakesAll m (bs ++ cs) := by
  intro body hbody decimal side hside
  rcases List.mem_append.mp hbody with hbody | hbody
  · obtain ⟨r, hr, hin⟩ := ha body hbody decimal side hside
    obtain ⟨r', hr', hin'⟩ := h.takesIn (.inl hr)
    exact ⟨r', hr', hin'.trans hin⟩
  · obtain ⟨r, hr, hin⟩ := hb body hbody decimal side hside
    obtain ⟨r', hr', hin'⟩ := h.takesIn (.inr hr)
    exact ⟨r', hr', hin'.trans hin⟩

/-- Every result of compositions is a cover that takes in the bodies it is composed of. -/
theorem Merged.exists_cover (hg : g.Lawful) {bs : List (Cover g n)} {e : Fields}
    (h : Merged g n bs e) : ∃ a : Cover g n, a.carrier = e ∧ TakesAll a bs := by
  induction h with
  | body b =>
    refine ⟨b, rfl, fun body hbody decimal side hside => ?_⟩
    obtain rfl := List.mem_singleton.mp hbody
    exact ⟨side, hside, .refl side⟩
  | merge _ _ hm ihe ihi =>
    obtain ⟨a, rfl, ha⟩ := ihe
    obtain ⟨b, rfl, hb⟩ := ihi
    obtain ⟨m, hmerge⟩ := exists_mergeOf hg a b
    obtain rfl := Option.some.inj (Except.ok.inj (hmerge.merge_eq.symm.trans hm))
    exact ⟨m, rfl, hmerge.takesAll ha hb⟩

/-- Composing covers at one shard order never fails and never narrows: the result claims
every instant of every body, in aligned blocks within the cap and the pin, and taking the
incoming cover in again changes nothing. -/
theorem merged_covers_never_narrow (hg : g.Lawful) {bs cs : List (Cover g n)} {e i : Fields}
    (he : Merged g n bs e) (hi : Merged g n cs i) :
    ∃ m : Cover g n, mergeCoverSections g (.obj e) (.obj i) = .ok (some m.carrier) ∧
      (∀ decimal r, Listed m.shards m.pin decimal r → r.1.length ≤ coverCap ∧
        Quantized g r.2 r.1 ∧ g.AlignedWords (63 - r.2).toNat r.1 ∧ r.2 ≤ m.pin) ∧
      (∀ b ∈ bs ++ cs, ∀ decimal side, Listed b.shards b.pin decimal side →
        ∃ r, Listed m.shards m.pin decimal r ∧ ∀ t, g.Covered side.1 t → g.Covered r.1 t) ∧
      coverUnchanged g (.obj m.carrier) (.obj i) = .ok true := by
  obtain ⟨a, rfl, ha⟩ := he.exists_cover hg
  obtain ⟨b, rfl, hb⟩ := hi.exists_cover hg
  obtain ⟨m, hmerge⟩ := exists_mergeOf hg a b
  refine ⟨m, hmerge.merge_eq, ?_, ?_, hmerge.unchanged hg⟩
  · intro decimal r hr
    have hblock := hmerge.blockOf hr
    obtain ⟨block, -, hdec⟩ := hr
    exact ⟨hblock.capped, hblock.quantized, hblock.quantized.aligned hg, order_le_pin hdec⟩
  · intro body hbody decimal side hside
    obtain ⟨r, hr, hin⟩ := hmerge.takesAll ha hb body hbody decimal side hside
    exact ⟨r, hr, hin.covers⟩

/-- A body with one shard. -/
def oneShard (hg : g.Lawful) (n pin order : Int) (decimal name : String) (ws : List Word)
    (hq : Quantized g order ws) (hpin : order ≤ pin) : Cover g n where
  carrier := mergedCover [] [("order", .num n)] pin [.str name]
    [(decimal, encodeCoverBlock ws order pin)]
  shards := [(decimal, encodeCoverBlock ws order pin)]
  pin := pin
  names := [name]
  spec_eq := rfl
  order_eq := rfl
  pin_eq := objectPin_of_num rfl
  shards_eq := coverShards_of_obj rfl
  nodup := List.nodup_singleton decimal
  blocks := by
    intro key block hblock
    obtain ⟨-, rfl⟩ := Prod.mk.inj (List.mem_singleton.mp (mem_of_lookup hblock))
    exact ⟨(ws, order), decodeCoverBlock_encode (r := (ws, order)) hg hq hpin, hq⟩
  names_eq := by
    have hfields : Json.field (mergedCover [] [("order", .num n)] pin [.str name]
        [(decimal, encodeCoverBlock ws order pin)]) "fields" = .arr ([name].map .str) := rfl
    exact fieldSet_of_texts hfields

theorem quantized_run (order : Int) (horder : 0 ≤ order ∧ order ≤ 31) :
    Quantized packedToc order (packedToc.coarsen (63 - order).toNat [PackedToc.runWord (5, 9)]) :=
  have hencodable : packedToc.Encodable [PackedToc.runWord (5, 9)] := by
    intro w hw
    rw [List.mem_singleton.mp hw]
    decide
  quantized_iff.mpr ⟨horder, _, hencodable, rfl⟩

def standingBody : Cover packedToc 8 :=
  oneShard packedToc_lawful 8 18 17 "11" "h_li" _ (quantized_run 17 (by decide)) (by decide)

def incomingBody : Cover packedToc 8 :=
  oneShard packedToc_lawful 8 20 20 "11" "h_ph" _ (quantized_run 20 (by decide)) (by decide)

theorem merged_covers_never_narrow_two :
    ∃ m : Cover packedToc 8, mergeCoverSections packedToc (.obj standingBody.carrier)
        (.obj incomingBody.carrier) = .ok (some m.carrier) ∧
      (∀ decimal r, Listed m.shards m.pin decimal r → r.1.length ≤ coverCap ∧
        Quantized packedToc r.2 r.1 ∧ packedToc.AlignedWords (63 - r.2).toNat r.1 ∧ r.2 ≤ m.pin) ∧
      (∀ b ∈ [standingBody] ++ [incomingBody], ∀ decimal side, Listed b.shards b.pin decimal side →
        ∃ r, Listed m.shards m.pin decimal r ∧
          ∀ t, packedToc.Covered side.1 t → packedToc.Covered r.1 t) ∧
      coverUnchanged packedToc (.obj m.carrier) (.obj incomingBody.carrier) = .ok true :=
  merged_covers_never_narrow packedToc_lawful (.body standingBody) (.body incomingBody)

end Zagg.Hive
