import Zagg.Windows.WindowTimes

/-!
# Where the observations go

The windows a generative run enumerates cover the closed span of every record, or
`bounds.temporal` where a span is unknown, so each observation meets the one window that takes
it; the subset test keeps its record there. The run fails exactly if a range reaches the last
window of the calendar, whose end is no date.
-/
namespace Zagg.Windows

open Zagg.Lib Processing

section Labels
variable {c : Cadence}

/-- The labels of a range that starts before it ends. -/
theorem windowsOf_generative {range : Instant × Instant} (h : ¬range.2.before range.1)
    (windows : List Declared) : ∃ starts : List Date,
      windowsOf range (.generative c) windows = .ok (starts.map c.labelText) ∧
      ∀ s, s ∈ starts ↔ c.IsStart s ∧ (c.floor range.1.date).rank ≤ s.rank ∧
        s.rank ≤ (c.floor range.2.date).rank := by
  obtain ⟨starts, hrun, hsorted, hmem⟩ := exists_windows (c := c) h
  have hpasses := hrun (passes - starts.length)
  rw [Nat.add_sub_cancel' (length_le_passes hsorted)] at hpasses
  refine ⟨starts, ?_, fun s => ?_⟩
  · have hsame : windowsIntersecting passes range.1 range.2 (.generative c) windows =
        windowsIntersecting passes range.1 range.2 (.generative c) [] := rfl
    rw [windowsOf]
    simp only [hsame, hpasses, Option.get_some]
    rfl
  · rw [hmem]
    exact and_congr_right fun hs => meets_iff hs h

/-- The labels of a range, none where the enumeration raises. -/
def labelsIn (c : Cadence) (range : Instant × Instant) : List Label :=
  match windowsOf range (.generative c) [] with
  | .ok labels => labels
  | .error _ => []

/-- A label of a window that a range meets. -/
def Labels (c : Cadence) (range : Instant × Instant) (label : Label) : Prop :=
  ∃ s, c.IsStart s ∧ label = c.labelText s ∧ (c.floor range.1.date).rank ≤ s.rank ∧
    s.rank ≤ (c.floor range.2.date).rank

theorem windowsOf_eq_labelsIn {range : Instant × Instant} (h : ¬range.2.before range.1) :
    windowsOf range (.generative c) [] = .ok (labelsIn c range) := by
  obtain ⟨starts, hok, -⟩ := windowsOf_generative (c := c) h []
  rw [labelsIn, hok]

theorem mem_labelsIn {range : Instant × Instant} (h : ¬range.2.before range.1) {label : Label} :
    label ∈ labelsIn c range ↔ Labels c range label := by
  obtain ⟨starts, hok, hmem⟩ := windowsOf_generative (c := c) h []
  rw [labelsIn, hok, List.mem_map, Labels]
  constructor
  · intro ⟨s, hs, hlabel⟩
    obtain ⟨hstart, hrange⟩ := (hmem s).mp hs
    exact ⟨s, hstart, hlabel.symm, hrange⟩
  · intro ⟨s, hstart, hlabel, hrange⟩
    exact ⟨s, (hmem s).mpr ⟨hstart, hrange⟩, hlabel.symm⟩

end Labels

section Model
variable (parseUtc : String → Option Instant) {κ : Type}

/-- The span of a record whose times can be read. -/
def spanOf (record : GranuleRecord) : Option (Instant × Instant) :=
  match granuleTimeSpan parseUtc record with
  | .ok span => span
  | .error _ => none

/-- A closed range whose windows are enumerated: a known span or, beside an unknown one,
`bounds.temporal`. -/
def Enumerated (cells : List (κ × List GranuleRecord)) (bounds : Option BoundsTemporal)
    (range : Instant × Instant) : Prop :=
  (∃ cell ∈ cells, ∃ r ∈ cell.2, granuleTimeSpan parseUtc r = .ok (some range)) ∨
    (∃ cell ∈ cells, ∃ r ∈ cell.2, granuleTimeSpan parseUtc r = .ok none) ∧
      ∃ b ∈ bounds, b.range parseUtc = .ok range

/-- Times that can be read: no span ends before it starts, and a generative schedule has
`bounds.temporal` for records without times. -/
structure Readable (cells : List (κ × List GranuleRecord)) (w : Windowing)
    (bounds : Option BoundsTemporal) : Prop where
  spans : ∀ cell ∈ cells, ∀ r ∈ cell.2, ∃ span, granuleTimeSpan parseUtc r = .ok span ∧
    ∀ range ∈ span, ¬range.2.before range.1
  bounded : w.schedule ≠ .explicit → ∀ cell ∈ cells, ∀ r ∈ cell.2,
    granuleTimeSpan parseUtc r = .ok none →
      ∃ b ∈ bounds, ∃ range, b.range parseUtc = .ok range ∧ ¬range.2.before range.1

/-- An observation of a record: its instant is in the record's span or, where that is unknown,
in `bounds.temporal` with its whole last day; a declared list has a window for it. -/
structure Observed (w : Windowing) (bounds : Option BoundsTemporal) (record : GranuleRecord)
    (value : ℚ) : Prop where
  spanned : ∀ range, granuleTimeSpan parseUtc record = .ok (some range) →
    range.1.seconds ≤ w.encoding.offsetToUtc value ∧ w.encoding.offsetToUtc value ≤ range.2.seconds
  bounded : w.schedule ≠ .explicit → granuleTimeSpan parseUtc record = .ok none →
    ∃ b ∈ bounds, ∃ range, b.range parseUtc = .ok range ∧
      range.1.seconds ≤ w.encoding.offsetToUtc value ∧ w.encoding.offsetToUtc value < dayEnd range.2
  declared : w.schedule = .explicit →
    ∃ d ∈ w.windows, Within d.start d.stop (w.encoding.offsetToUtc value)

/-- What the units of a run make of the observations. -/
structure Placed (src : DataSource ℚ) (w : Windowing) (cells : List (κ × List GranuleRecord))
    (bounds : Option BoundsTemporal) (units : List (WorkUnit κ Window)) : Prop where
  nonempty : ∀ u ∈ units, u.records ≠ []
  distinct : (units.map fun u => (u.shard, u.window.label)).Nodup
  windows : ∀ u ∈ units, ∃ lo hi, w.HasWindow u.window lo hi
  records : ∀ u ∈ units, ∃ cell ∈ cells, u.shard = cell.1 ∧ u.records.Sublist cell.2
  observed : ∀ cell ∈ cells, ∀ r ∈ cell.2, ∀ value, Observed parseUtc w bounds r value →
    ∃ window, (∃ lo hi, w.HasWindow window lo hi) ∧ Passes src w window value ∧
      (∀ window' lo hi, w.HasWindow window' lo hi → Passes src w window' value →
        window' = window) ∧
      ∃ u ∈ units, u.shard = cell.1 ∧ u.window = window ∧ r ∈ u.records

end Model

section Run
variable {parseUtc : String → Option Instant} {κ : Type} {cells : List (κ × List GranuleRecord)}
  {w : Windowing} {bounds : Option BoundsTemporal}

theorem spanOf_eq {record : GranuleRecord} {span : Option (Instant × Instant)}
    (h : granuleTimeSpan parseUtc record = .ok span) : spanOf parseUtc record = span := by
  rw [spanOf, h]

theorem Readable.span (h : Readable parseUtc cells w bounds) {cell : κ × List GranuleRecord}
    (hcell : cell ∈ cells) {r : GranuleRecord} (hr : r ∈ cell.2) :
    granuleTimeSpan parseUtc r = .ok (spanOf parseUtc r) := by
  obtain ⟨span, hspan, -⟩ := h.spans cell hcell r hr
  rw [spanOf_eq hspan, hspan]

theorem spannedCells_eq (h : Readable parseUtc cells w bounds) :
    spannedCells parseUtc cells =
      .ok (cells.map fun cell => (cell.1, cell.2.map fun r => (r, spanOf parseUtc r))) := by
  apply mapM_ok
  intro cell hcell
  have hrecords : (cell.2.mapM fun r => do return (r, ← granuleTimeSpan parseUtc r)) =
      (.ok (cell.2.map fun r => (r, spanOf parseUtc r)) : Except DispatchError _) := by
    apply mapM_ok
    intro r hr
    rw [h.span hcell hr]
    rfl
  rw [hrecords]
  rfl

/-- Every enumerated range starts before it ends. -/
theorem Readable.enumerated (h : Readable parseUtc cells w bounds) (hw : w.schedule ≠ .explicit)
    {range : Instant × Instant} (hrange : Enumerated parseUtc cells bounds range) :
    ¬range.2.before range.1 := by
  cases hrange with
  | inl hknown =>
    obtain ⟨cell, hcell, r, hr, hspan⟩ := hknown
    obtain ⟨span, hspan', hle⟩ := h.spans cell hcell r hr
    rw [hspan] at hspan'
    cases hspan'
    exact hle range rfl
  | inr hlegacy =>
    obtain ⟨⟨cell, hcell, r, hr, hnone⟩, b, hb, hrange⟩ := hlegacy
    obtain ⟨b', hb', range', hrange', hle⟩ := h.bounded hw cell hcell r hr hnone
    rw [Option.mem_unique hb hb', hrange'] at hrange
    cases hrange
    exact hle

/-- The spans of a run, record by record. -/
def spansOf (parseUtc : String → Option Instant) (cells : List (κ × List GranuleRecord)) :
    List (Option (Instant × Instant)) := cells.flatMap fun cell => cell.2.map (spanOf parseUtc)

theorem Readable.mem_spansOf (h : Readable parseUtc cells w bounds)
    {span : Option (Instant × Instant)} : span ∈ spansOf parseUtc cells ↔
      ∃ cell ∈ cells, ∃ r ∈ cell.2, granuleTimeSpan parseUtc r = .ok span := by
  rw [spansOf, List.mem_flatMap]
  constructor
  · intro ⟨cell, hcell, hspan⟩
    obtain ⟨r, hr, rfl⟩ := List.mem_map.mp hspan
    exact ⟨cell, hcell, r, hr, h.span hcell hr⟩
  · intro ⟨cell, hcell, r, hr, hspan⟩
    exact ⟨cell, hcell, List.mem_map.mpr ⟨r, hr, spanOf_eq hspan⟩⟩

theorem Readable.mem_known (h : Readable parseUtc cells w bounds) {range : Instant × Instant} :
    range ∈ (spansOf parseUtc cells).filterMap id ↔
      ∃ cell ∈ cells, ∃ r ∈ cell.2, granuleTimeSpan parseUtc r = .ok (some range) := by
  rw [← h.mem_spansOf, List.mem_filterMap]
  constructor
  · rintro ⟨span, hspan, rfl⟩
    exact hspan
  · intro hspan
    exact ⟨some range, hspan, rfl⟩

theorem Readable.any_unknown (h : Readable parseUtc cells w bounds) :
    (spansOf parseUtc cells).any Option.isNone = true ↔
      ∃ cell ∈ cells, ∃ r ∈ cell.2, granuleTimeSpan parseUtc r = .ok none := by
  rw [← h.mem_spansOf, List.any_eq_true]
  constructor
  · intro ⟨span, hspan, hnone⟩
    rw [Option.isNone_iff_eq_none] at hnone
    exact hnone ▸ hspan
  · intro hspan
    exact ⟨none, hspan, rfl⟩

/-- Records without times stand for all of `bounds.temporal`. -/
theorem legacyLabels_ok (h : Readable parseUtc cells w bounds) {c : Cadence}
    (hw : w.schedule = .generative c) : ∃ legacy,
      legacyLabels parseUtc (.generative c) bounds (spansOf parseUtc cells) = .ok legacy ∧
      ∀ label, label ∈ legacy ↔
        ∃ range, ((∃ cell ∈ cells, ∃ r ∈ cell.2, granuleTimeSpan parseUtc r = .ok none) ∧
          ∃ b ∈ bounds, b.range parseUtc = .ok range) ∧ Labels c range label := by
  have hexplicit : w.schedule ≠ .explicit := hw ▸ nofun
  unfold legacyLabels
  by_cases hmissing : (spansOf parseUtc cells).any Option.isNone = true
  · obtain ⟨cell, hcell, r, hr, hnone⟩ := h.any_unknown.mp hmissing
    obtain ⟨b, hb, range, hrange, hle⟩ := h.bounded hexplicit cell hcell r hr hnone
    cases hb
    refine ⟨labelsIn c range, ?_, fun label => ?_⟩
    · rw [if_pos hmissing]
      show (b.range parseUtc >>= fun range => windowsOf range (.generative c) []) = _
      rw [hrange]
      exact windowsOf_eq_labelsIn hle
    · rw [mem_labelsIn hle]
      constructor
      · intro hlabel
        exact ⟨range, ⟨⟨cell, hcell, r, hr, hnone⟩, b, rfl, hrange⟩, hlabel⟩
      · rintro ⟨range', ⟨-, b', hb', hrange'⟩, hlabel⟩
        cases hb'
        rw [hrange] at hrange'
        cases hrange'
        exact hlabel
  · refine ⟨[], by rw [if_neg hmissing], fun label => ⟨nofun, ?_⟩⟩
    rintro ⟨range, ⟨hnone, -⟩, -⟩
    exact absurd (h.any_unknown.mpr hnone) hmissing

/-- The windows of a generative run are those of the enumerated ranges. -/
theorem windowLabels_generative (h : Readable parseUtc cells w bounds) {c : Cadence}
    (hw : w.schedule = .generative c) : ∃ labels,
      windowLabels parseUtc w bounds (spansOf parseUtc cells) = .ok labels ∧ labels.Nodup ∧
      ∀ label, label ∈ labels ↔
        ∃ range, Enumerated parseUtc cells bounds range ∧ Labels c range label := by
  have hexplicit : w.schedule ≠ .explicit := hw ▸ nofun
  have hfound : (((spansOf parseUtc cells).filterMap id).mapM fun span =>
      windowsOf span (.generative c) []) =
        .ok (((spansOf parseUtc cells).filterMap id).map (labelsIn c)) := by
    apply mapM_ok
    intro range hrange
    exact windowsOf_eq_labelsIn (h.enumerated hexplicit (.inl (h.mem_known.mp hrange)))
  obtain ⟨legacy, hlegacy, hmem⟩ := legacyLabels_ok h hw
  refine ⟨sortedSet ((((spansOf parseUtc cells).filterMap id).map (labelsIn c)).flatten ++ legacy),
    ?_, nodup_sortedSet _, fun label => ?_⟩
  · rw [windowLabels, hw]
    show ((List.mapM _ _) >>= fun found => _) = _
    rw [hfound]
    show (legacyLabels parseUtc _ bounds _ >>= fun legacy => _) = _
    rw [hlegacy]
    rfl
  · rw [mem_sortedSet, List.mem_append, List.mem_flatten, hmem]
    constructor
    · intro hlabel
      cases hlabel with
      | inl hfrom =>
        obtain ⟨l, hl, hlabel⟩ := hfrom
        obtain ⟨range, hrange, rfl⟩ := List.mem_map.mp hl
        have henum : Enumerated parseUtc cells bounds range := .inl (h.mem_known.mp hrange)
        exact ⟨range, henum, (mem_labelsIn (h.enumerated hexplicit henum)).mp hlabel⟩
      | inr hfrom =>
        obtain ⟨range, hrange, hlabel⟩ := hfrom
        exact ⟨range, .inr hrange, hlabel⟩
    · intro ⟨range, henum, hlabel⟩
      cases henum with
      | inl hrange =>
        have hin := (mem_labelsIn (h.enumerated hexplicit (.inl hrange))).mpr hlabel
        exact .inl ⟨_, List.mem_map_of_mem (h.mem_known.mpr hrange), hin⟩
      | inr hrange => exact .inr ⟨range, hrange, hlabel⟩

end Run

section Units
variable {parseUtc : String → Option Instant} {κ : Type} {cells : List (κ × List GranuleRecord)}
  {w : Windowing} {bounds : Option BoundsTemporal} {src : DataSource ℚ}

/-- A record with its span, for each of a cell's. -/
def spannedCell (parseUtc : String → Option Instant) (cell : κ × List GranuleRecord) :
    κ × List (GranuleRecord × Option (Instant × Instant)) :=
  (cell.1, cell.2.map fun r => (r, spanOf parseUtc r))

theorem unitOf_eq_some {cell : κ × List GranuleRecord} {window : Window × Instant × Instant}
    {u : WorkUnit κ Window} : unitOf (spannedCell parseUtc cell) window = some u ↔
      u.records ≠ [] ∧ u.shard = cell.1 ∧ u.window = window.1 ∧ u.records =
        cell.2.filter fun r => spanMeets window.2.1 window.2.2 (spanOf parseUtc r) := by
  have hsubset : subsetOf (spannedCell parseUtc cell).2 window.2.1 window.2.2 =
      cell.2.filter fun r => spanMeets window.2.1 window.2.2 (spanOf parseUtc r) := by
    rw [subsetOf, spannedCell, List.filter_map, List.map_map]
    exact List.map_id _
  rw [unitOf, hsubset]
  split_ifs with hnil
  · constructor
    · exact nofun
    · rintro ⟨hne, -, -, hrecords⟩
      exact absurd (hrecords.trans hnil) hne
  · constructor
    · intro h
      cases h
      exact ⟨hnil, rfl, rfl, rfl⟩
    · rintro ⟨-, hshard, hwindow, hrecords⟩
      cases u
      cases hshard
      cases hwindow
      cases hrecords
      rfl

/-- A run whose windows are found is the expansion of its cells. -/
theorem windowedUnits_eq (h : Readable parseUtc cells w bounds) {labels : List Label}
    (hlabels : windowLabels parseUtc w bounds (spansOf parseUtc cells) = .ok labels) :
    windowedUnits parseUtc cells w bounds = (labels.mapM (windowBounds w)).map fun windows =>
      cells.flatMap fun cell => windows.filterMap (unitOf (spannedCell parseUtc cell)) := by
  have hspans : ((cells.map (spannedCell parseUtc)).flatMap fun cell => cell.2.map Prod.snd) =
      spansOf parseUtc cells := by
    rw [List.flatMap_map, spansOf]
    apply List.flatMap_congr
    intro cell _
    rw [spannedCell, List.map_map]
    rfl
  rw [windowedUnits, spannedCells_eq h]
  show (windowLabels parseUtc w bounds ((cells.map (spannedCell parseUtc)).flatMap fun cell =>
    cell.2.map Prod.snd) >>= fun labels => _) = _
  rw [hspans, hlabels]
  show (labels.mapM (windowBounds w) >>= fun windows => _) = _
  cases labels.mapM (windowBounds w) with
  | error e => rfl
  | ok windows =>
    show Except.ok ((cells.map (spannedCell parseUtc)).flatMap _) = _
    rw [List.flatMap_map]
    rfl

section Windows
variable {labels : List Label} {windows : List (Window × Instant × Instant)}

theorem mem_windows (hwindows : labels.mapM (windowBounds w) = .ok windows)
    {x : Window × Instant × Instant} (hx : x ∈ windows) :
    x.1.label ∈ labels ∧ windowBounds w x.1.label = .ok x := by
  obtain ⟨label, hlabel, hbounds⟩ := forall₂_exists_of_mem_right (forall₂_mapM hwindows) hx
  have hsame : x.1.label = label := congrArg Window.label (eq_payload hbounds)
  rw [hsame]
  exact ⟨hlabel, hbounds⟩

theorem labels_windows (hwindows : labels.mapM (windowBounds w) = .ok windows) :
    windows.map (fun x => x.1.label) = labels := by
  have hall : List.Forall₂ Eq labels (windows.map fun x => x.1.label) :=
    List.forall₂_map_right_iff.mpr ((forall₂_mapM hwindows).imp fun _ _ hx =>
      (congrArg Window.label (eq_payload hx)).symm)
  rw [List.forall₂_eq_eq_eq] at hall
  exact hall.symm

/-- Each shard has a unit for a window once at most. -/
theorem nodup_units (hkeys : (cells.map Prod.fst).Nodup)
    (hwindows : labels.mapM (windowBounds w) = .ok windows) (hlabels : labels.Nodup) :
    ((cells.flatMap fun cell => windows.filterMap (unitOf (spannedCell parseUtc cell))).map
      fun u => (u.shard, u.window.label)).Nodup := by
  rw [List.map_flatMap, List.nodup_flatMap]
  constructor
  · intro cell _
    have hnodup : (windows.map fun x => x.1.label).Nodup := (labels_windows hwindows).symm ▸ hlabels
    rw [List.Nodup, List.pairwise_map] at hnodup
    rw [List.map_filterMap]
    refine hnodup.filterMap _ fun x x' hne pair hpair pair' hpair' heq => ?_
    obtain ⟨u, hu, rfl⟩ := Option.map_eq_some_iff.mp hpair
    obtain ⟨u', hu', rfl⟩ := Option.map_eq_some_iff.mp hpair'
    obtain ⟨-, -, hwindow, -⟩ := unitOf_eq_some.mp hu
    obtain ⟨-, -, hwindow', -⟩ := unitOf_eq_some.mp hu'
    rw [hwindow, hwindow'] at heq
    exact hne (Prod.mk.inj heq).2
  · rw [List.Nodup, List.pairwise_map] at hkeys
    refine hkeys.imp fun {cell cell'} hne pair hpair hpair' => ?_
    obtain ⟨u, hu, rfl⟩ := List.mem_map.mp hpair
    obtain ⟨u', hu', heq⟩ := List.mem_map.mp hpair'
    obtain ⟨x, -, hx⟩ := List.mem_filterMap.mp hu
    obtain ⟨x', -, hx'⟩ := List.mem_filterMap.mp hu'
    obtain ⟨-, hshard, -, -⟩ := unitOf_eq_some.mp hx
    obtain ⟨-, hshard', -, -⟩ := unitOf_eq_some.mp hx'
    rw [hshard, hshard'] at heq
    exact hne (Prod.mk.inj heq).1.symm

/-- A record with an observation in a window has a span that meets it. -/
theorem spanMeets_of_observed {lo hi : Instant} {r : GranuleRecord} {value : ℚ}
    {span : Option (Instant × Instant)} (hspan : granuleTimeSpan parseUtc r = .ok span)
    (hobs : Observed parseUtc w bounds r value)
    (hin : Within lo hi (w.encoding.offsetToUtc value)) : spanMeets lo hi span = true := by
  cases span with
  | none => rfl
  | some range =>
    obtain ⟨hstart, hstop⟩ := hobs.spanned range hspan
    apply decide_eq_true
    constructor
    · exact Instant.before_iff.mpr (hstart.trans_lt hin.2)
    · exact Instant.not_before_iff.mpr (hin.1.trans hstop)

/-- With the windows found, each observation that meets one of them is placed. -/
theorem placed_of_windows (hkeys : (cells.map Prod.fst).Nodup)
    (h : Readable parseUtc cells w bounds) (hfield : HasTimeField src w)
    (hwindows : labels.mapM (windowBounds w) = .ok windows) (hlabels : labels.Nodup)
    (hown : ∀ label ∈ labels, w.IsLabel label)
    (hcover : ∀ cell ∈ cells, ∀ r ∈ cell.2, ∀ value, Observed parseUtc w bounds r value →
      ∃ x ∈ windows, Within x.2.1 x.2.2 (w.encoding.offsetToUtc value)) :
    Placed parseUtc src w cells bounds
      (cells.flatMap fun cell => windows.filterMap (unitOf (spannedCell parseUtc cell))) := by
  have hunits : ∀ u, u ∈ (cells.flatMap fun cell =>
      windows.filterMap (unitOf (spannedCell parseUtc cell))) ↔
        ∃ cell ∈ cells, ∃ x ∈ windows, unitOf (spannedCell parseUtc cell) x = some u := by
    intro u
    simp only [List.mem_flatMap, List.mem_filterMap]
  have hhas : ∀ x ∈ windows, w.HasWindow x.1 x.2.1 x.2.2 := fun x hx =>
    ⟨hown _ (mem_windows hwindows hx).1, (mem_windows hwindows hx).2⟩
  constructor
  · intro u hu
    obtain ⟨cell, -, x, -, hunit⟩ := (hunits u).mp hu
    exact (unitOf_eq_some.mp hunit).1
  · exact nodup_units hkeys hwindows hlabels
  · intro u hu
    obtain ⟨cell, -, x, hx, hunit⟩ := (hunits u).mp hu
    obtain ⟨-, -, hwindow, -⟩ := unitOf_eq_some.mp hunit
    exact ⟨x.2.1, x.2.2, hwindow ▸ hhas x hx⟩
  · intro u hu
    obtain ⟨cell, hcell, x, -, hunit⟩ := (hunits u).mp hu
    obtain ⟨-, hshard, -, hrecords⟩ := unitOf_eq_some.mp hunit
    exact ⟨cell, hcell, hshard, hrecords ▸ List.filter_sublist⟩
  · intro cell hcell r hr value hobs
    obtain ⟨x, hx, hin⟩ := hcover cell hcell r hr value hobs
    have hwindow := hhas x hx
    refine ⟨x.1, ⟨x.2.1, x.2.2, hwindow⟩, (hwindow.passes_iff hfield).mpr hin, ?_, ?_⟩
    · intro window' lo hi hwindow' hpasses
      exact hwindow'.unique hwindow ((hwindow'.passes_iff hfield).mp hpasses) hin
    · have hmem : r ∈ cell.2.filter fun r => spanMeets x.2.1 x.2.2 (spanOf parseUtc r) :=
        List.mem_filter.mpr ⟨hr, spanMeets_of_observed (h.span hcell hr) hobs hin⟩
      refine ⟨⟨cell.1, _, x.1⟩, (hunits _).mpr ⟨cell, hcell, x, hx, ?_⟩, rfl, rfl, hmem⟩
      exact unitOf_eq_some.mpr ⟨List.ne_nil_of_mem hmem, rfl, rfl, rfl⟩

end Windows

/-- A declared list is dispatched with all of its windows. -/
theorem explicit_placed (hkeys : (cells.map Prod.fst).Nodup)
    (h : Readable parseUtc cells w bounds) (hfield : HasTimeField src w)
    (hw : w.schedule = .explicit) : ∃ units,
      windowedUnits parseUtc cells w bounds = .ok units ∧
        Placed parseUtc src w cells bounds units := by
  have hlabels : windowLabels parseUtc w bounds (spansOf parseUtc cells) =
      .ok (w.windows.map Declared.label) := by
    rw [windowLabels, hw]
  obtain ⟨windows, hwindows⟩ := exists_mapM (f := windowBounds w)
    (l := w.windows.map Declared.label) fun label hlabel => by
      obtain ⟨d, hd, rfl⟩ := List.mem_map.mp hlabel
      exact ⟨_, windowBounds_declared hw hd⟩
  refine ⟨_, by rw [windowedUnits_eq h hlabels, hwindows]; rfl,
    placed_of_windows hkeys h hfield hwindows w.unique (fun label hlabel => ?_) ?_⟩
  · rw [Windowing.IsLabel, hw]
    exact hlabel
  · intro cell _ r _ value hobs
    obtain ⟨d, hd, hin⟩ := hobs.declared hw
    obtain ⟨x, hx, hbounds⟩ := ok_of_mapM hwindows (List.mem_map_of_mem hd)
    rw [windowBounds_declared hw hd] at hbounds
    cases hbounds
    exact ⟨_, hx, hin⟩

section Generative
variable {c : Cadence}

/-- A range that ends in the last window of the calendar, whose own end is no date. -/
def ReachesEnd (c : Cadence) (range : Instant × Instant) : Prop :=
  c.next (c.floor range.2.date) = none

/-- The windows before the last one have ends. -/
theorem exists_next_of_not_reachesEnd {range : Instant × Instant} (hend : ¬ReachesEnd c range)
    {s : Date} (hs : c.IsStart s) (hle : s.rank ≤ (c.floor range.2.date).rank) :
    ∃ e, c.next s = some e := by
  cases hnext : c.next s with
  | some e => exact ⟨e, rfl⟩
  | none =>
    have htop := c.succeeds.top s hs hnext _ (c.isStart_floor range.2.date)
    have hsame : c.floor range.2.date = s := Date.rank_inj (Nat.le_antisymm htop hle)
    rw [ReachesEnd, hsame] at hend
    exact absurd hnext hend

/-- A generative run whose ranges end before the last window places every observation. -/
theorem generative_placed (hkeys : (cells.map Prod.fst).Nodup)
    (h : Readable parseUtc cells w bounds) (hfield : HasTimeField src w)
    (hw : w.schedule = .generative c)
    (hend : ∀ range, Enumerated parseUtc cells bounds range → ¬ReachesEnd c range) : ∃ units,
      windowedUnits parseUtc cells w bounds = .ok units ∧
        Placed parseUtc src w cells bounds units := by
  have hexplicit : w.schedule ≠ .explicit := hw ▸ nofun
  obtain ⟨labels, hlabels, hnodup, hmem⟩ := windowLabels_generative h hw
  have hok : ∀ label ∈ labels, ∃ r, windowBounds w label = .ok r := by
    intro label hlabel
    obtain ⟨range, henum, s, hs, rfl, -, hle⟩ := (hmem label).mp hlabel
    obtain ⟨e, hnext⟩ := exists_next_of_not_reachesEnd (hend range henum) hs hle
    rw [windowBounds_labelText hw hs, hnext]
    exact ⟨_, rfl⟩
  obtain ⟨windows, hwindows⟩ := exists_mapM hok
  refine ⟨_, by rw [windowedUnits_eq h hlabels, hwindows]; rfl,
    placed_of_windows hkeys h hfield hwindows hnodup (fun label hlabel => ?_) ?_⟩
  · obtain ⟨range, henum, s, hs, rfl, -⟩ := (hmem label).mp hlabel
    rw [Windowing.IsLabel, hw]
    exact c.pattern_labelText s
  · intro cell hcell r hr value hobs
    -- the range that covers the observation
    have hcovered : ∃ range, Enumerated parseUtc cells bounds range ∧
        range.1.seconds ≤ w.encoding.offsetToUtc value ∧
        w.encoding.offsetToUtc value < dayEnd range.2 := by
      have hspan := h.span hcell hr
      cases hknown : spanOf parseUtc r with
      | some range =>
        rw [hknown] at hspan
        obtain ⟨hlo, hhi⟩ := hobs.spanned range hspan
        exact ⟨range, .inl ⟨cell, hcell, r, hr, hspan⟩, hlo,
          hhi.trans_lt (seconds_lt_dayEnd range.2)⟩
      | none =>
        rw [hknown] at hspan
        obtain ⟨b, hb, range, hrange, hlo, hhi⟩ := hobs.bounded hexplicit hspan
        exact ⟨range, .inr ⟨⟨cell, hcell, r, hr, hspan⟩, b, hb, hrange⟩, hlo, hhi⟩
    obtain ⟨range, henum, hlo, hhi⟩ := hcovered
    obtain ⟨s, hs, hfirst, hlast, hstarted, hbefore⟩ := exists_started (c := c) hlo hhi
    obtain ⟨e, hnext⟩ := exists_next_of_not_reachesEnd (hend range henum) hs hlast
    obtain ⟨x, hx, hbounds⟩ := ok_of_mapM hwindows
      ((hmem _).mpr ⟨range, henum, s, hs, rfl, hfirst, hlast⟩)
    rw [windowBounds_labelText hw hs, hnext] at hbounds
    cases hbounds
    exact ⟨_, hx, hstarted, hbefore e hnext⟩

/-- A range that reaches the last window makes the run raise. -/
theorem generative_raises (h : Readable parseUtc cells w bounds) (hw : w.schedule = .generative c)
    {range : Instant × Instant} (henum : Enumerated parseUtc cells bounds range)
    (hend : ReachesEnd c range) :
    windowedUnits parseUtc cells w bounds = .error (.window c.pastEnd) := by
  have hexplicit : w.schedule ≠ .explicit := hw ▸ nofun
  obtain ⟨labels, hlabels, -, hmem⟩ := windowLabels_generative h hw
  have hrank : range.1.date.rank ≤ range.2.date.rank := by
    have hle := h.enumerated hexplicit henum
    rw [Instant.before] at hle
    omega
  have hlast := (hmem (c.labelText (c.floor range.2.date))).mpr ⟨range, henum, _,
    c.isStart_floor _, rfl, floor_mono c.succeeds c.floors hrank, le_rfl⟩
  rw [windowedUnits_eq h hlabels]
  cases hrun : labels.mapM (windowBounds w) with
  | ok windows =>
    obtain ⟨x, -, hx⟩ := ok_of_mapM hrun hlast
    rw [windowBounds_labelText hw (c.isStart_floor _), hend] at hx
    cases hx
  | error e =>
    obtain ⟨label, hlabel, he⟩ := mapM_error hrun
    obtain ⟨-, -, s, hs, rfl, -⟩ := (hmem label).mp hlabel
    rw [windowBounds_labelText hw hs] at he
    cases hnext : c.next s with
    | some e =>
      rw [hnext] at he
      cases he
    | none =>
      rw [hnext] at he
      cases he
      rfl

end Generative

end Units

end Zagg.Windows
