import Zagg.Windows.PointDispatch

/-!
# Where the acquisitions go

A raster record is placed at dispatch: the records of one acquisition go together to the
window of their earliest instant. Every record with assets is in one unit of its shard; a
declared list drops the acquisitions that none of its windows has.
-/
namespace Zagg.Windows

open Zagg.Lib

section Model
variable (parseUtc : String → Option Instant) {κ : Type} [DecidableEq κ]

/-- The acquisition of a record with assets. -/
def entryKey (e : GranuleRecord) : String := (truthy e.timeKey).getD (e.datetime.getD "")

/-- The records a raster worker would read. -/
def withAssets (records : List GranuleRecord) : List GranuleRecord :=
  records.filter fun e => e.assets ≠ []

/-- Every record with assets has an instant. -/
def Dated (records : List GranuleRecord) : Prop :=
  ∀ e ∈ withAssets records, ∃ datetime t, truthy e.datetime = some datetime ∧ parseUtc datetime = some t

/-- What the units of a raster run make of the records with assets. -/
structure RasterPlaced (w : Windowing) (cells : List (κ × List GranuleRecord))
    (units : List (WorkUnit κ Label)) : Prop where
  nonempty : ∀ u ∈ units, u.records ≠ []
  distinct : (units.map fun u => (u.shard, u.window)).Nodup
  shards : ∀ u ∈ units, ∃ cell ∈ cells, u.shard = cell.1
  placed : w.schedule ≠ .explicit → ∀ cell ∈ cells,
    ((units.filter fun u => u.shard = cell.1).flatMap WorkUnit.records).Perm (withAssets cell.2)
  atMost : ∀ cell ∈ cells,
    ((units.filter fun u => u.shard = cell.1).flatMap WorkUnit.records).Subperm (withAssets cell.2)
  unique : ∀ u ∈ units, ∀ u' ∈ units, u.shard = u'.shard → ∀ e ∈ u.records, e ∈ u'.records → u = u'
  together : ∀ cell ∈ cells, ∀ u ∈ units, u.shard = cell.1 → ∀ e ∈ u.records,
    ∀ e' ∈ withAssets cell.2, entryKey e' = entryKey e → e' ∈ u.records

end Model

section Groups
variable {parseUtc : String → Option Instant} {records : List GranuleRecord}

theorem truthy_some {value : Option String} {s : String} (h : truthy value = some s) :
    value = some s := by
  obtain ⟨hvalue, -⟩ := Option.filter_eq_some_iff.mp h
  exact hvalue

/-- The acquisition groups of a shard. -/
def groupsOf (records : List GranuleRecord) : List (String × List GranuleRecord) :=
  collect ((withAssets records).map fun e => (entryKey e, [e]))

theorem keyedEntries_eq (h : Dated parseUtc records) :
    keyedEntries records = .ok ((withAssets records).map fun e => (entryKey e, [e])) := by
  apply mapM_ok
  intro e he
  obtain ⟨datetime, t, hdatetime, -⟩ := h e he
  rw [hdatetime, entryKey, truthy_some hdatetime]
  rfl

/-- A group is the records of its key, in their order. -/
theorem snd_of_mem_groupsOf {group : String × List GranuleRecord} (h : group ∈ groupsOf records) :
    group.2 = (withAssets records).filter fun e => entryKey e = group.1 := by
  rw [snd_of_mem_collect h, List.filter_map, List.flatMap_map]
  exact List.flatMap_singleton' _

theorem mem_group {group : String × List GranuleRecord} (h : group ∈ groupsOf records)
    {e : GranuleRecord} : e ∈ group.2 ↔ e ∈ withAssets records ∧ entryKey e = group.1 := by
  rw [snd_of_mem_groupsOf h, List.mem_filter, decide_eq_true_eq]

theorem group_ne_nil {group : String × List GranuleRecord} (h : group ∈ groupsOf records) :
    group.2 ≠ [] := by
  have hkey := (mem_keys_collect _).mp (List.mem_map_of_mem h)
  rw [List.map_map] at hkey
  obtain ⟨e, he, hsame⟩ := List.mem_map.mp hkey
  exact List.ne_nil_of_mem ((mem_group h).mpr ⟨he, hsame⟩)

/-- A group is known by any of its records. -/
theorem group_unique {group group' : String × List GranuleRecord} (h : group ∈ groupsOf records)
    (h' : group' ∈ groupsOf records) {e : GranuleRecord} (he : e ∈ group.2) (he' : e ∈ group'.2) :
    group = group' := by
  have hkey : group.1 = group'.1 := ((mem_group h).mp he).2.symm.trans ((mem_group h').mp he').2
  exact List.inj_on_of_nodup_map (nodup_collect _) h h' hkey

theorem perm_groupsOf (records : List GranuleRecord) :
    ((groupsOf records).flatMap Prod.snd).Perm (withAssets records) := by
  have hperm := perm_collect ((withAssets records).map fun e => (entryKey e, [e]))
  rw [List.flatMap_map] at hperm
  exact hperm.trans (.of_eq (List.flatMap_singleton' _))

theorem earliest_ok (h : Dated parseUtc records) {group : String × List GranuleRecord}
    (hgroup : group ∈ groupsOf records) : ∃ t, earliest parseUtc group.2 = .ok t := by
  have hparse : ∀ e ∈ group.2, ∃ t, parsed parseUtc (e.datetime.getD "") = .ok t := by
    intro e he
    obtain ⟨datetime, t, hdatetime, ht⟩ := h e ((mem_group hgroup).mp he).1
    refine ⟨t, ?_⟩
    rw [truthy_some hdatetime, Option.getD_some, parsed, ht]
  obtain ⟨ts, hts⟩ := exists_mapM hparse
  have hlen := (forall₂_mapM hts).length_eq
  rw [earliest, hts]
  cases ts with
  | nil => exact absurd (List.length_eq_zero_iff.mp hlen) (group_ne_nil hgroup)
  | cons t ts => exact ⟨_, rfl⟩

end Groups

section Placement
variable {parseUtc : String → Option Instant} {w : Windowing} {records : List GranuleRecord}

/-- The windows of one instant: there is one under a generative schedule, and a declared one
else, if any. -/
theorem windowsOf_instant (w : Windowing) (t : Instant) : ∃ labels,
    windowsOf (t, t) w.schedule w.windows = .ok labels ∧
      (w.schedule ≠ .explicit → labels ≠ []) ∧
      (w.schedule = .explicit → ∀ label ∈ labels, label ∈ w.windows.map Declared.label) := by
  have hself : ¬t.before t := Instant.not_before_iff.mpr le_rfl
  cases hw : w.schedule with
  | none => exact absurd hw w.windowed
  | generative c =>
    obtain ⟨starts, hok, hmem⟩ := windowsOf_generative (c := c) (show ¬(t, t).2.before (t, t).1 from hself) w.windows
    refine ⟨_, hok, fun _ hnil => ?_, nofun⟩
    have hfloor := (hmem _).mpr ⟨c.isStart_floor t.date, le_rfl, le_rfl⟩
    rw [List.map_eq_nil_iff.mp hnil] at hfloor
    cases hfloor
  | explicit =>
    refine ⟨(w.windows.filter fun d => ¬t.before d.start ∧ t.before d.stop).map Declared.label,
      ?_, fun h => absurd rfl h, fun _ label hlabel => ?_⟩
    · have hrun : windowsIntersecting passes t t .explicit w.windows =
          some (.ok ((w.windows.filter fun d =>
            ¬t.before d.start ∧ t.before d.stop).map Declared.label)) := by
        unfold windowsIntersecting
        rw [if_neg hself]
      rw [windowsOf]
      simp only [hrun, Option.get_some]
      rfl
    · obtain ⟨d, hd, rfl⟩ := List.mem_map.mp hlabel
      exact List.mem_map_of_mem (List.mem_filter.mp hd).1

/-- The window of a group's earliest instant. -/
def windowIn (parseUtc : String → Option Instant) (w : Windowing) (items : List GranuleRecord) :
    Option Label :=
  match earliest parseUtc items >>= fun t => windowsOf (t, t) w.schedule w.windows with
  | .ok labels => labels.head?
  | .error _ => none

theorem windowIn_spec (w : Windowing) (h : Dated parseUtc records)
    {group : String × List GranuleRecord} (hgroup : group ∈ groupsOf records) :
    (∃ t labels, earliest parseUtc group.2 = .ok t ∧
      windowsOf (t, t) w.schedule w.windows = .ok labels ∧
      windowIn parseUtc w group.2 = labels.head?) ∧
    (w.schedule ≠ .explicit → ∃ label, windowIn parseUtc w group.2 = some label) ∧
    (w.schedule = .explicit → ∀ label, windowIn parseUtc w group.2 = some label →
      label ∈ w.windows.map Declared.label) := by
  obtain ⟨t, ht⟩ := earliest_ok h hgroup
  obtain ⟨labels, hlabels, hne, hdeclared⟩ := windowsOf_instant w t
  have hin : windowIn parseUtc w group.2 = labels.head? := by
    rw [windowIn, ht]
    show (match windowsOf (t, t) w.schedule w.windows with
      | .ok labels => labels.head?
      | .error _ => none) = _
    rw [hlabels]
  refine ⟨⟨t, labels, ht, hlabels, hin⟩, fun hw => ?_, fun hw label hlabel => ?_⟩
  · exact ⟨labels.head (hne hw), by rw [hin, List.head?_eq_some_head (hne hw)]⟩
  · rw [hin] at hlabel
    exact hdeclared hw label (List.mem_of_mem_head? hlabel)

/-- What the windows of a shard hold. -/
def placedOf (parseUtc : String → Option Instant) (w : Windowing) (records : List GranuleRecord) :
    List (Label × List GranuleRecord) :=
  collect ((groupsOf records).filterMap fun group =>
    (windowIn parseUtc w group.2).map fun label => (label, group.2))

theorem rasterUnitsOf_eq {κ : Type} {cell : κ × List GranuleRecord} (h : Dated parseUtc cell.2) :
    rasterUnitsOf parseUtc w cell = .ok ((readIn (labelOrder w (placedOf parseUtc w cell.2))
      (placedOf parseUtc w cell.2)).map fun entry => ⟨cell.1, entry.2, entry.1⟩) := by
  have hplaced : placedGroups parseUtc w (groupsOf cell.2) =
      .ok ((groupsOf cell.2).map fun group => (windowIn parseUtc w group.2, group.2)) := by
    apply mapM_ok
    intro group hgroup
    obtain ⟨⟨t, labels, ht, hlabels, hin⟩, -⟩ := windowIn_spec w h hgroup
    rw [ht]
    show (windowsOf (t, t) w.schedule w.windows >>= fun labels => _) = _
    rw [hlabels, hin]
    rfl
  have hby : byWindow ((groupsOf cell.2).map fun group => (windowIn parseUtc w group.2, group.2)) =
      placedOf parseUtc w cell.2 := by
    rw [byWindow, List.filterMap_map, placedOf]
    rfl
  rw [rasterUnitsOf, keyedEntries_eq h]
  show (placedGroups parseUtc w (groupsOf cell.2) >>= fun placed => _) = _
  rw [hplaced]
  show Except.ok ((readIn (labelOrder w (byWindow _)) (byWindow _)).map _) = _
  rw [hby]

/-- A window holds the groups placed in it. -/
theorem mem_placed {entry : Label × List GranuleRecord} (h : entry ∈ placedOf parseUtc w records)
    {e : GranuleRecord} : e ∈ entry.2 ↔
      ∃ group ∈ groupsOf records, windowIn parseUtc w group.2 = some entry.1 ∧ e ∈ group.2 := by
  rw [snd_of_mem_collect h]
  simp only [List.mem_flatMap, List.mem_filter, List.mem_filterMap, Option.map_eq_some_iff,
    decide_eq_true_eq]
  constructor
  · rintro ⟨item, ⟨⟨group, hgroup, label', hlabel, rfl⟩, hsame⟩, he⟩
    exact ⟨group, hgroup, hsame ▸ hlabel, he⟩
  · intro ⟨group, hgroup, hlabel, he⟩
    exact ⟨(entry.1, group.2), ⟨⟨group, hgroup, entry.1, hlabel, rfl⟩, rfl⟩, he⟩

theorem placed_ne_nil {entry : Label × List GranuleRecord}
    (h : entry ∈ placedOf parseUtc w records) : entry.2 ≠ [] := by
  have hkey := (mem_keys_collect _).mp (List.mem_map_of_mem h)
  obtain ⟨item, hitem, hsame⟩ := List.mem_map.mp hkey
  obtain ⟨group, hgroup, hlabel⟩ := List.mem_filterMap.mp hitem
  obtain ⟨label', hin, rfl⟩ := Option.map_eq_some_iff.mp hlabel
  obtain ⟨e, he⟩ := List.exists_mem_of_ne_nil _ (group_ne_nil hgroup)
  exact List.ne_nil_of_mem ((mem_placed h).mpr ⟨group, hgroup, hsame ▸ hin, he⟩)

/-- Every window that holds a group is dispatched, once. -/
theorem labelOrder_spec (h : Dated parseUtc records) :
    (labelOrder w (placedOf parseUtc w records)).Nodup ∧
      ∀ label ∈ (placedOf parseUtc w records).map Prod.fst,
        label ∈ labelOrder w (placedOf parseUtc w records) := by
  unfold labelOrder
  cases hw : w.schedule with
  | none => exact absurd hw w.windowed
  | generative c => exact ⟨nodup_sortedSet _, fun label hlabel => mem_sortedSet.mpr hlabel⟩
  | explicit =>
    refine ⟨w.unique, fun label hlabel => ?_⟩
    obtain ⟨item, hitem, rfl⟩ := List.mem_map.mp ((mem_keys_collect _).mp hlabel)
    obtain ⟨group, hgroup, hitem⟩ := List.mem_filterMap.mp hitem
    obtain ⟨label', hin, rfl⟩ := Option.map_eq_some_iff.mp hitem
    exact (windowIn_spec w h hgroup).2.2 hw label' hin

/-- The units of one shard. -/
def unitsIn {κ : Type} (parseUtc : String → Option Instant) (w : Windowing)
    (cell : κ × List GranuleRecord) : List (WorkUnit κ Label) :=
  (readIn (labelOrder w (placedOf parseUtc w cell.2)) (placedOf parseUtc w cell.2)).map fun entry =>
    ⟨cell.1, entry.2, entry.1⟩

section Cell
variable {κ : Type} {cell : κ × List GranuleRecord}

theorem perm_entries (h : Dated parseUtc cell.2) :
    (readIn (labelOrder w (placedOf parseUtc w cell.2)) (placedOf parseUtc w cell.2)).Perm
      (placedOf parseUtc w cell.2) :=
  perm_readIn (nodup_collect _) (labelOrder_spec h).1 (labelOrder_spec h).2

theorem mem_unitsIn (h : Dated parseUtc cell.2) {u : WorkUnit κ Label} :
    u ∈ unitsIn parseUtc w cell ↔
      u.shard = cell.1 ∧ (u.window, u.records) ∈ placedOf parseUtc w cell.2 := by
  rw [unitsIn, List.mem_map]
  constructor
  · rintro ⟨entry, hentry, rfl⟩
    exact ⟨rfl, (perm_entries h).mem_iff.mp hentry⟩
  · intro ⟨hshard, hentry⟩
    refine ⟨_, (perm_entries h).mem_iff.mpr hentry, ?_⟩
    cases u
    cases hshard
    rfl

/-- The records of a shard's units are those of its placed groups. -/
theorem perm_records (h : Dated parseUtc cell.2) :
    ((unitsIn parseUtc w cell).flatMap WorkUnit.records).Perm
      (((groupsOf cell.2).filterMap fun group =>
        (windowIn parseUtc w group.2).map fun label => (label, group.2)).flatMap Prod.snd) := by
  rw [unitsIn, List.flatMap_map]
  exact ((perm_entries h).flatMap_right Prod.snd).trans (perm_collect _)

/-- Under a generative schedule every record with assets is in the units once. -/
theorem perm_records_generative (h : Dated parseUtc cell.2) (hw : w.schedule ≠ .explicit) :
    ((unitsIn parseUtc w cell).flatMap WorkUnit.records).Perm (withAssets cell.2) := by
  refine (perm_records h).trans (.trans (.of_eq ?_) (perm_groupsOf cell.2))
  have hplaced : ∀ group ∈ groupsOf cell.2, ∃ label, windowIn parseUtc w group.2 = some label :=
    fun _ hgroup => (windowIn_spec w h hgroup).2.1 hw
  generalize groupsOf cell.2 = groups at hplaced
  induction groups with
  | nil => rfl
  | cons group groups ih =>
    obtain ⟨label, hlabel⟩ := hplaced group (.head _)
    rw [List.filterMap_cons, hlabel, List.flatMap_cons]
    exact congrArg (group.2 ++ ·) (ih fun g hg => hplaced g (.tail _ hg))

theorem subperm_records (h : Dated parseUtc cell.2) :
    ((unitsIn parseUtc w cell).flatMap WorkUnit.records).Subperm (withAssets cell.2) := by
  refine (perm_records h).subperm.trans (.trans ?_ (perm_groupsOf cell.2).subperm)
  apply List.Sublist.subperm
  generalize groupsOf cell.2 = groups
  induction groups with
  | nil => exact .slnil
  | cons group groups ih =>
    rw [List.filterMap_cons]
    cases windowIn parseUtc w group.2 with
    | none => exact ih.trans (List.sublist_append_right ..)
    | some label => exact ih.append_left group.2

/-- A record with assets has one window in its shard. -/
theorem window_unique {entry entry' : Label × List GranuleRecord}
    (h : entry ∈ placedOf parseUtc w records) (h' : entry' ∈ placedOf parseUtc w records)
    {e : GranuleRecord} (he : e ∈ entry.2) (he' : e ∈ entry'.2) : entry = entry' := by
  obtain ⟨group, hgroup, hin, he⟩ := (mem_placed h).mp he
  obtain ⟨group', hgroup', hin', he'⟩ := (mem_placed h').mp he'
  cases group_unique hgroup hgroup' he he'
  exact List.inj_on_of_nodup_map (nodup_collect _) h h' (Option.some.inj (hin.symm.trans hin'))

/-- The records of one acquisition are together. -/
theorem placed_together {entry : Label × List GranuleRecord}
    (h : entry ∈ placedOf parseUtc w records) {e e' : GranuleRecord} (he : e ∈ entry.2)
    (he' : e' ∈ withAssets records) (hkey : entryKey e' = entryKey e) : e' ∈ entry.2 := by
  obtain ⟨group, hgroup, hin, he⟩ := (mem_placed h).mp he
  have hsame := hkey.trans ((mem_group hgroup).mp he).2
  exact (mem_placed h).mpr ⟨group, hgroup, hin, (mem_group hgroup).mpr ⟨he', hsame⟩⟩

end Cell

end Placement

section Run
variable {parseUtc : String → Option Instant} {κ : Type} [DecidableEq κ]
  {cells : List (κ × List GranuleRecord)}

/-- Every record with assets is placed, and no acquisition is split. -/
theorem raster_placed (w : Windowing) (hkeys : (cells.map Prod.fst).Nodup)
    (h : ∀ cell ∈ cells, Dated parseUtc cell.2) : ∃ units,
      rasterWindowedUnits parseUtc cells w = .ok units ∧ RasterPlaced w cells units := by
  have hrun : cells.mapM (rasterUnitsOf parseUtc w) = .ok (cells.map (unitsIn parseUtc w)) :=
    mapM_ok fun cell hcell => rasterUnitsOf_eq (h cell hcell)
  have hok : rasterWindowedUnits parseUtc cells w = .ok (cells.flatMap (unitsIn parseUtc w)) := by
    rw [rasterWindowedUnits, hrun]
    rfl
  have hmem : ∀ u, u ∈ cells.flatMap (unitsIn parseUtc w) ↔ ∃ cell ∈ cells,
      u.shard = cell.1 ∧ (u.window, u.records) ∈ placedOf parseUtc w cell.2 := by
    intro u
    rw [List.mem_flatMap]
    exact exists_congr fun cell => and_congr_right fun hcell => mem_unitsIn (h cell hcell)
  have hown : ∀ cell ∈ cells, (cells.flatMap (unitsIn parseUtc w)).filter
      (fun u => u.shard = cell.1) = unitsIn parseUtc w cell := fun cell hcell =>
    filter_flatMap_key hkeys (fun e he u hu => ((mem_unitsIn (h e he)).mp hu).1) hcell
  have hcell_unique : ∀ cell ∈ cells, ∀ cell' ∈ cells, cell.1 = cell'.1 → cell = cell' :=
    fun cell hcell cell' hcell' => List.inj_on_of_nodup_map hkeys hcell hcell'
  refine ⟨_, hok, ⟨?_, ?_, ?_, ?_, ?_, ?_, ?_⟩⟩
  · intro u hu
    obtain ⟨cell, -, -, hentry⟩ := (hmem u).mp hu
    exact placed_ne_nil hentry
  · rw [List.map_flatMap, List.nodup_flatMap]
    constructor
    · intro cell hcell
      rw [unitsIn, List.map_map]
      have hkeyed : ((readIn (labelOrder w (placedOf parseUtc w cell.2))
          (placedOf parseUtc w cell.2)).map Prod.fst).Nodup :=
        ((perm_entries (h cell hcell)).map Prod.fst).nodup_iff.mpr (nodup_collect _)
      exact List.Nodup.of_map Prod.snd (by rw [List.map_map]; exact hkeyed)
    · rw [List.Nodup, List.pairwise_map] at hkeys
      refine hkeys.imp_of_mem fun {cell cell'} hcell hcell' hne pair hpair hpair' => ?_
      obtain ⟨u, hu, rfl⟩ := List.mem_map.mp hpair
      obtain ⟨u', hu', heq⟩ := List.mem_map.mp hpair'
      rw [((mem_unitsIn (h cell hcell)).mp hu).1, ((mem_unitsIn (h cell' hcell')).mp hu').1] at heq
      exact hne (Prod.mk.inj heq).1.symm
  · intro u hu
    obtain ⟨cell, hcell, hshard, -⟩ := (hmem u).mp hu
    exact ⟨cell, hcell, hshard⟩
  · intro hw cell hcell
    rw [hown cell hcell]
    exact perm_records_generative (h cell hcell) hw
  · intro cell hcell
    rw [hown cell hcell]
    exact subperm_records (h cell hcell)
  · intro u hu u' hu' hshard e he he'
    obtain ⟨cell, hcell, hown, hentry⟩ := (hmem u).mp hu
    obtain ⟨cell', hcell', hown', hentry'⟩ := (hmem u').mp hu'
    cases hcell_unique cell hcell cell' hcell' (hown.symm.trans (hshard.trans hown'))
    have hsame := window_unique hentry hentry' he he'
    cases u
    cases u'
    cases hshard
    cases hsame
    rfl
  · intro cell hcell u hu hshard e he e' he' hkey
    obtain ⟨cell', hcell', hown, hentry⟩ := (hmem u).mp hu
    cases hcell_unique cell hcell cell' hcell' (hshard.symm.trans hown)
    exact placed_together hentry he he' hkey

end Run


end Zagg.Windows
