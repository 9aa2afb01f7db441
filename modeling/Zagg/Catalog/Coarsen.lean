import Zagg.Catalog.Reproject

/-!
# Coarsening shard maps

Coarsening in two steps is coarsening in one: the keys nest, the united lists are united again,
and a collision of one step is one of the direct coarsening.
-/
namespace Zagg.Catalog

open Zagg.Lib
open Zagg.Dedup (GranuleId)

section Collisions

/-- The ids an entry is recorded by depend on what separates it from others. -/
theorem canonicals_congr {e e' : ShardEntry} (h : distinguishing e = distinguishing e') :
    canonicals e = canonicals e' := by
  obtain ⟨hid, hs3, hhttps, hdatetime⟩ := Distinguishing.mk.inj h
  rw [canonicals, canonicals, spellings, spellings, hid, hs3, hhttps, hdatetime]

/-- Two granules recorded under one id of a spelling. -/
def Collides (entries : List ShardEntry) : Prop :=
  ∃ e ∈ entries, ∃ e' ∈ entries, distinguishing e ≠ distinguishing e' ∧
    ∃ sc ∈ canonicals e, sc ∈ canonicals e'

/-- What is found stays found. -/
theorem countCollision_ne_nil {items : List ((String × GranuleId) × List (Distinguishing × Text))}
    {st : List (GranuleId × List Text) × List (Finset Distinguishing)} (h : st.1 ≠ []) :
    (items.foldl countCollision st).1 ≠ [] := by
  induction items generalizing st with
  | nil => exact h
  | cons item items ih =>
    apply ih
    unfold countCollision
    split_ifs
    · exact List.append_ne_nil_of_left_ne_nil h _
    · exact h

/-- The loop finds something exactly when an id names two granules. -/
theorem foldl_countCollision_eq_nil
    {items : List ((String × GranuleId) × List (Distinguishing × Text))} :
    (items.foldl countCollision ([], [])).1 = [] ↔ ∀ item ∈ items, ¬1 < item.2.length := by
  induction items with
  | nil => exact iff_of_true rfl nofun
  | cons item items ih =>
    rw [List.foldl_cons, List.forall_mem_cons]
    by_cases h : 1 < item.2.length
    · have hfirst : (countCollision ([], []) item).1 ≠ [] := by
        unfold countCollision
        rw [if_pos ⟨h, List.not_mem_nil⟩]
        exact List.cons_ne_nil _ _
      exact iff_of_false (countCollision_ne_nil hfirst) fun hall => hall.1 h
    · have hsame : countCollision ([], []) item = ([], []) := if_neg fun hand => h hand.1
      rw [hsame, ih]
      exact (and_iff_right h).symm

/-- An id names two granules in the registry exactly when two entries collide. -/
theorem byCanonical_iff {entries : List ShardEntry} :
    (∃ item ∈ byCanonical entries, 1 < item.2.length) ↔ Collides entries := by
  have hitem {item : (String × GranuleId) × Distinguishing × Text} :
      (item ∈ entries.flatMap fun e => (recordedIdentity e).1.map fun sc =>
        (sc, (recordedIdentity e).2, collisionLabel e)) ↔
      ∃ e ∈ entries, item.1 ∈ canonicals e ∧ item.2 = (distinguishing e, collisionLabel e) := by
    rw [List.mem_flatMap]
    refine exists_congr fun e => and_congr_right fun _ => ?_
    rw [List.mem_map]
    constructor
    · rintro ⟨sc, hsc, rfl⟩
      exact ⟨hsc, rfl⟩
    · exact fun ⟨hsc, hrest⟩ => ⟨item.1, hsc, Prod.ext rfl hrest.symm⟩
  rw [byCanonical, exists_one_lt_registered]
  constructor
  · intro ⟨i, hi, j, hj, hkey, hne⟩
    obtain ⟨e, he, hsc, hi⟩ := hitem.mp hi
    obtain ⟨e', he', hsc', hj⟩ := hitem.mp hj
    rw [hi, hj] at hne
    exact ⟨e, he, e', he', hne, i.1, hsc, hkey ▸ hsc'⟩
  · intro ⟨e, he, e', he', hne, sc, hsc, hsc'⟩
    exact ⟨(sc, distinguishing e, collisionLabel e), hitem.mpr ⟨e, he, hsc, rfl⟩,
      (sc, distinguishing e', collisionLabel e'), hitem.mpr ⟨e', he', hsc', rfl⟩, rfl, hne⟩

theorem foundCollisions_eq_nil {entries : List ShardEntry} :
    foundCollisions entries = [] ↔ ¬Collides entries := by
  unfold foundCollisions
  rw [foldl_countCollision_eq_nil, ← byCanonical_iff]
  simp only [List.mem_insertionSort, not_exists, not_and]

/-- A map is refused exactly when granules of one of its shards collide. -/
theorem basenameCollisions_eq_none {shards : Shards} :
    basenameCollisions shards = none ↔ ∀ s ∈ shards, ¬Collides s.2 := by
  have hcount (report : CollisionReport) : (shards.foldl (fun report s =>
      { collisions := report.collisions + (foundCollisions s.2).length
        shown := report.shown ++
          ((foundCollisions s.2).take (4 - report.shown.length)).map fun f => (s.1, f) })
      report).collisions = report.collisions + (shards.map fun s => (foundCollisions s.2).length).sum := by
    induction shards generalizing report with
    | nil => rfl
    | cons s shards ih => rw [List.foldl_cons, ih, List.map_cons, List.sum_cons, Nat.add_assoc]
  have hzero : (basenameCollisions shards = none) ↔
      0 + (shards.map fun s => (foundCollisions s.2).length).sum = 0 := by
    unfold basenameCollisions
    dsimp only
    rw [hcount ⟨0, []⟩]
    split_ifs with h
    · exact iff_of_true rfl h
    · exact iff_of_false nofun h
  rw [hzero, Nat.zero_add, List.sum_eq_zero_iff_forall_eq_nat, List.forall_mem_map]
  exact forall₂_congr fun s _ => List.length_eq_zero_iff.trans foundCollisions_eq_nil

/-- Whether granules collide depends on which granules there are. -/
theorem Collides.mono {entries entries' : List ShardEntry} (h : Collides entries)
    (hsub : ∀ d ∈ entries.map distinguishing, d ∈ entries'.map distinguishing) :
    Collides entries' := by
  have hother {e : ShardEntry} (he : e ∈ entries) :
      ∃ x ∈ entries', distinguishing x = distinguishing e :=
    List.mem_map.mp (hsub _ (List.mem_map_of_mem he))
  obtain ⟨e, he, e', he', hne, sc, hsc, hsc'⟩ := h
  obtain ⟨x, hx, hxe⟩ := hother he
  obtain ⟨x', hx', hxe'⟩ := hother he'
  refine ⟨x, hx, x', hx', ?_, sc, ?_, ?_⟩
  · rwa [hxe, hxe']
  · rwa [canonicals_congr hxe]
  · rwa [canonicals_congr hxe']

end Collisions

section Union

/-- The item of the dictionary that an entry becomes. -/
def entryPair (g : ShardEntry) : Distinguishing × ShardEntry := (distinguishing g, granuleEntry g)

def entryDict (shards : List (List ShardEntry)) : List (Distinguishing × ShardEntry) :=
  dictOf (shards.flatten.map entryPair)

theorem unionGranules_eq (shards : List (List ShardEntry)) :
    unionGranules shards = (entryDict shards).map Prod.snd := rfl

/-- The entries of a union are their own items. -/
theorem map_entryPair_union (shards : List (List ShardEntry)) :
    (unionGranules shards).map entryPair = entryDict shards := by
  rw [unionGranules_eq, List.map_map]
  refine (List.map_congr_left fun item hitem => ?_).trans (List.map_id _)
  obtain ⟨g, -, rfl⟩ := List.mem_map.mp (mem_of_mem_dictOf hitem)
  rfl

theorem map_distinguishing_union (shards : List (List ShardEntry)) :
    (unionGranules shards).map distinguishing = (entryDict shards).map Prod.fst := by
  rw [← map_entryPair_union, List.map_map]
  rfl

/-- A union has a granule of the shards once. -/
theorem nodup_union (shards : List (List ShardEntry)) :
    ((unionGranules shards).map distinguishing).Nodup := by
  rw [map_distinguishing_union]
  exact nodup_dictOf _

theorem mem_union {shards : List (List ShardEntry)} {d : Distinguishing} :
    d ∈ (unionGranules shards).map distinguishing ↔
      ∃ entries ∈ shards, d ∈ entries.map distinguishing := by
  rw [map_distinguishing_union, entryDict, mem_keys_dictOf, List.map_map]
  show d ∈ shards.flatten.map distinguishing ↔ _
  simp only [List.mem_map, List.mem_flatten]
  constructor
  · intro ⟨e, ⟨entries, hentries, he⟩, hd⟩
    exact ⟨entries, hentries, e, he, hd⟩
  · intro ⟨entries, hentries, e, he, hd⟩
    exact ⟨e, ⟨entries, hentries, he⟩, hd⟩

theorem exists_of_mem_union {shards : List (List ShardEntry)} {e : ShardEntry}
    (h : e ∈ unionGranules shards) : ∃ entries ∈ shards, ∃ g ∈ entries, e = granuleEntry g := by
  obtain ⟨item, hitem, rfl⟩ := List.mem_map.mp h
  obtain ⟨g, hg, rfl⟩ := List.mem_map.mp (mem_of_mem_dictOf hitem)
  obtain ⟨entries, hentries, hg⟩ := List.mem_flatten.mp hg
  exact ⟨entries, hentries, g, hg, rfl⟩

/-- Uniting the unions of groups is uniting all of them. -/
theorem union_union (groups : List (List (List ShardEntry))) :
    unionGranules (groups.map unionGranules) = unionGranules groups.flatten := by
  have hitems : (groups.map unionGranules).flatten.map entryPair =
      (groups.map fun group => group.flatten.map entryPair).flatMap dictOf := by
    rw [List.map_flatten, List.map_map, List.flatMap_map, List.flatMap_def]
    refine congrArg List.flatten (List.map_congr_left fun group _ => ?_)
    exact map_entryPair_union group
  have hflat : (groups.map fun group => group.flatten.map entryPair).flatten =
      groups.flatten.flatten.map entryPair := by
    rw [List.flatten_flatten, List.map_flatten, List.map_map]
    rfl
  rw [unionGranules_eq, unionGranules_eq, entryDict, entryDict, hitems, dictOf_flatMap_dictOf, hflat]

theorem union_map_granuleEntry (shards : List (List ShardEntry)) :
    unionGranules (shards.map (List.map granuleEntry)) = unionGranules shards := by
  rw [unionGranules_eq, unionGranules_eq, entryDict, entryDict, ← List.map_flatten, List.map_map]
  rfl

end Union

section Orders

/-- What coarsening relies on in `clip2order`: the words of an order, which clipping keeps in
order and which nest. -/
structure Nesting (clip2order : Nat → Word → Word) (IsAt : Nat → Word → Prop) : Prop where
  clip_at : ∀ a b w, b ≤ a → IsAt a w → IsAt b (clip2order b w)
  clip_clip : ∀ a b c w, c ≤ b → b ≤ a → IsAt a w →
    clip2order c (clip2order b w) = clip2order c w
  mono : ∀ a b w w', b ≤ a → IsAt a w → IsAt a w' → w ≤ w' → clip2order b w ≤ clip2order b w'

variable {clip2order : Nat → Word → Word}

/-- The coarse shards in the order of their keys, each with the granules of its descendants. -/
theorem coarsen_eq (target : Nat) (shards : Shards) : coarsen clip2order target shards =
    (sortedSet (shards.map fun s => clip2order target s.1)).map fun k =>
      (k, unionGranules ((shards.filter fun s => clip2order target s.1 = k).map Prod.snd)) := by
  unfold coarsen
  dsimp only
  generalize hitems : shards.map (fun s => (clip2order target s.1, [s.2])) = items
  have hkeys : items.map Prod.fst = shards.map fun s => clip2order target s.1 := by
    rw [← hitems, List.map_map]
    rfl
  have hsorted : ((collect items).map Prod.fst).insertionSort (· ≤ ·) =
      sortedSet (shards.map fun s => clip2order target s.1) := by
    apply eq_sortedSet
    · exact (List.perm_insertionSort _ _).nodup_iff.mpr (nodup_collect items)
    · exact List.pairwise_insertionSort _ _
    · intro k
      rw [List.mem_insertionSort, mem_keys_collect, hkeys]
  have hread : readIn (sortedSet (shards.map fun s => clip2order target s.1)) (collect items) =
      (sortedSet (shards.map fun s => clip2order target s.1)).map fun k =>
        (k, (shards.filter fun s => clip2order target s.1 = k).map Prod.snd) := by
    rw [readIn]
    refine (List.filterMap_congr (g := some ∘ fun k => (k, (shards.filter fun s =>
      clip2order target s.1 = k).map Prod.snd)) fun k hk => ?_).trans
        (congrFun List.filterMap_eq_map _)
    rw [lookup_collect, hkeys, if_pos (mem_sortedSet.mp hk), ← hitems, List.filter_map,
      List.flatMap_map]
    exact congrArg (fun entries => some (k, entries)) List.map_eq_flatMap.symm
  rw [hsorted, hread, List.map_map]
  rfl

variable {IsAt : Nat → Word → Prop} {a b c : Nat} {shards : Shards}

theorem mem_keys_coarsen {target : Nat} {k : Word} :
    k ∈ (coarsen clip2order target shards).map Prod.fst ↔
      ∃ s ∈ shards, clip2order target s.1 = k := by
  rw [coarsen_eq, List.map_map]
  show k ∈ (sortedSet _).map id ↔ _
  rw [List.map_id, mem_sortedSet, List.mem_map]

/-- The shards of a coarse key, by the keys of an order between. -/
theorem flatMap_descendants (hclip : Nesting clip2order IsAt) (hcb : c ≤ b) (hba : b ≤ a)
    (hat : ∀ s ∈ shards, IsAt a s.1) (hsorted : shards.Pairwise fun s s' => s.1 ≤ s'.1) (k : Word) :
    (((sortedSet (shards.map fun s => clip2order b s.1)).filter
        fun p => clip2order c p = k).flatMap fun p => shards.filter fun s => clip2order b s.1 = p) =
      shards.filter fun s => clip2order c s.1 = k := by
  have hnest : ∀ s ∈ shards, clip2order c (clip2order b s.1) = clip2order c s.1 :=
    fun s hs => hclip.clip_clip a b c s.1 hcb hba (hat s hs)
  have hgroups : (((sortedSet (shards.map fun s => clip2order b s.1)).filter
        fun p => clip2order c p = k).flatMap fun p => shards.filter fun s => clip2order b s.1 = p) =
      ((sortedSet (shards.map fun s => clip2order b s.1)).filter
        fun p => clip2order c p = k).flatMap fun p =>
          (shards.filter fun s => clip2order c s.1 = k).filter fun s => clip2order b s.1 = p := by
    refine List.flatMap_congr fun p hp => ?_
    have hpk : clip2order c p = k := of_decide_eq_true (List.mem_filter.mp hp).2
    rw [List.filter_filter]
    refine List.filter_congr fun s hs => ?_
    by_cases hsp : clip2order b s.1 = p
    · have hsk : clip2order c s.1 = k := by rw [← hnest s hs, hsp, hpk]
      simp [hsp, hsk]
    · simp [hsp]
  rw [hgroups]
  apply flatMap_filter_key
  · exact (strictly_sortedSet _).filter _
  · apply List.Pairwise.filter
    refine hsorted.imp_of_mem fun {s s'} hs hs' hle => ?_
    exact hclip.mono a b s.1 s'.1 hba (hat s hs) (hat s' hs') hle
  · intro s hs
    obtain ⟨hs, hk⟩ := List.mem_filter.mp hs
    refine List.mem_filter.mpr ⟨mem_sortedSet.mpr (List.mem_map_of_mem hs), ?_⟩
    exact decide_eq_true ((hnest s hs).trans (of_decide_eq_true hk))

/-- Coarsening a coarse map is coarsening its source. -/
theorem coarsen_coarsen (hclip : Nesting clip2order IsAt) (hcb : c ≤ b) (hba : b ≤ a)
    (hat : ∀ s ∈ shards, IsAt a s.1) (hsorted : shards.Pairwise fun s s' => s.1 ≤ s'.1) :
    coarsen clip2order c (coarsen clip2order b shards) = coarsen clip2order c shards := by
  have hkeys : sortedSet ((coarsen clip2order b shards).map fun s => clip2order c s.1) =
      sortedSet (shards.map fun s => clip2order c s.1) := by
    apply sortedSet_congr
    intro k
    have hfst : (coarsen clip2order b shards).map (fun s => clip2order c s.1) =
        ((coarsen clip2order b shards).map Prod.fst).map (clip2order c) := List.map_map.symm
    rw [hfst, List.mem_map, List.mem_map]
    constructor
    · rintro ⟨p, hp, rfl⟩
      obtain ⟨s, hs, rfl⟩ := mem_keys_coarsen.mp hp
      exact ⟨s, hs, (hclip.clip_clip a b c s.1 hcb hba (hat s hs)).symm⟩
    · rintro ⟨s, hs, rfl⟩
      exact ⟨_, mem_keys_coarsen.mpr ⟨s, hs, rfl⟩, hclip.clip_clip a b c s.1 hcb hba (hat s hs)⟩
  rw [coarsen_eq c (coarsen clip2order b shards), hkeys, coarsen_eq c shards]
  refine List.map_congr_left fun k _ => congrArg (Prod.mk k) ?_
  have hgroups : ((coarsen clip2order b shards).filter fun s => clip2order c s.1 = k).map Prod.snd =
      (((sortedSet (shards.map fun s => clip2order b s.1)).filter
        fun p => clip2order c p = k).map fun p =>
          (shards.filter fun s => clip2order b s.1 = p).map Prod.snd).map unionGranules := by
    rw [coarsen_eq b, List.filter_map, List.map_map, List.map_map]
    rfl
  rw [hgroups, union_union, ← List.flatMap_def, ← List.map_flatMap,
    flatMap_descendants hclip hcb hba hat hsorted]

/-- Normalized entries are coarsened as the entries they come from. -/
theorem coarsen_map_granuleEntry (target : Nat) (shards : Shards) :
    coarsen clip2order target (shards.map fun s => (s.1, s.2.map granuleEntry)) =
      coarsen clip2order target shards := by
  rw [coarsen_eq, coarsen_eq, List.map_map]
  refine List.map_congr_left fun k _ => congrArg (Prod.mk k) ?_
  have hsnd (l : Shards) : (l.map fun s => (s.1, s.2.map granuleEntry)).map Prod.snd =
      (l.map Prod.snd).map (List.map granuleEntry) := by
    rw [List.map_map, List.map_map]
    rfl
  rw [List.filter_map, hsnd, union_map_granuleEntry]
  rfl

end Orders

end Zagg.Catalog
