import Mathlib.Data.Char
import Mathlib.Data.List.Lex
import Zagg.Lib.Collect
import Zagg.Lib.SortedSet
import Zagg.Processing.PointRead
import Zagg.Windows.DatasetTime

/-!
# Windowed dispatch

A windowed run expands the records of each shard into units of one window each. The windows
come from the declared list or from the closed time spans of the records; a unit has the
records whose span meets its window, and the worker keeps the observations between the
window's bounds in dataset time. Raster records are placed by the earliest instant of their
acquisition, with no filter behind.
-/
namespace Zagg.Windows

open Zagg.Lib

section Enumerated

/-- More passes than a range has windows. -/
def passes : Nat := lastDate.rank + 1

theorem length_le_passes {starts : List Date} (h : starts.Pairwise fun s s' => s.rank < s'.rank) :
    starts.length ≤ passes := by
  have hnodup : (starts.map Date.rank).Nodup :=
    List.pairwise_map.mpr (h.imp fun hlt => hlt.ne)
  have hsub : starts.map Date.rank ⊆ List.range passes := by
    intro n hn
    obtain ⟨s, -, rfl⟩ := List.mem_map.mp hn
    exact List.mem_range.mpr (Nat.lt_succ_of_le (rank_le_last s))
  have hlen := (hnodup.subperm hsub).length_le
  rwa [List.length_map, List.length_range] at hlen

/-- The loop ends within the calendar. -/
theorem windowsIntersecting_isSome (start stop : Instant) (schedule : Schedule)
    (windows : List Declared) :
    (windowsIntersecting passes start stop schedule windows).isSome := by
  unfold windowsIntersecting
  by_cases hle : stop.before start
  · rw [if_pos hle]
    rfl
  · rw [if_neg hle]
    cases schedule with
    | none => rfl
    | explicit => rfl
    | generative c =>
      obtain ⟨starts, hrun, hsorted, -⟩ := exists_windows (c := c) hle
      have hmore := hrun (passes - starts.length)
      rw [Nat.add_sub_cancel' (length_le_passes hsorted)] at hmore
      unfold windowsIntersecting at hmore
      rw [if_neg hle] at hmore
      exact Option.isSome_iff_exists.mpr ⟨_, hmore⟩

end Enumerated

/-- A record of a shard's granules, as far as the dispatcher reads it. -/
structure GranuleRecord where
  id : Option String
  timeStart : Option String
  timeEnd : Option String
  datetime : Option String
  timeKey : Option String
  assets : List (String × String)
deriving DecidableEq

inductive DispatchError
  | window (e : WindowError)
  /-- `ValueError` of `parse_utc`. -/
  | notIso (value : String)
  /-- Records without times under a generative schedule, and no `bounds.temporal`. -/
  | noTimes
  | noDatetime (id : Option String)
  /-- `min` of nothing. -/
  | noInstant
  /-- The time field has no base-rate dataset path. -/
  | noPath (timeField : String)
deriving DecidableEq

/-- The normalized declaration of `get_windowing`, as validation leaves it. -/
structure Windowing where
  schedule : Schedule
  timeField : String
  encoding : TimeEncoding
  windows : List Declared
  windowed : schedule ≠ .none
  valid : ∀ d ∈ windows, validateLabel d.label .explicit = .ok d.label
  unique : (windows.map Declared.label).Nodup
  halfOpen : ∀ d ∈ windows, d.start.before d.stop
  disjoint : windows.Pairwise fun a b => ¬b.start.before a.stop ∨ ¬a.start.before b.stop

/-- A bound of `bounds.temporal`: text, or what a YAML loader makes of a bare date or of an
instant. -/
inductive BoundDate
  | text (value : String)
  | date (value : Date)
  | instant (value : Instant)

structure BoundsTemporal where
  startDate : BoundDate
  endDate : BoundDate

/-- A window as dispatched, with its bounds in dataset time. -/
structure Window where
  label : Label
  start : ℚ
  stop : ℚ
deriving DecidableEq

structure WorkUnit (κ ω : Type) where
  shard : κ
  records : List GranuleRecord
  window : ω

/-- What stands before an `or`. -/
def truthy (value : Option String) : Option String := value.filter fun s => s ≠ ""

section Spans
variable (parseUtc : String → Option Instant)

def parsed (value : String) : Except DispatchError Instant :=
  match parseUtc value with
  | some t => .ok t
  | none => .error (.notIso value)

def granuleTimeSpan (record : GranuleRecord) :
    Except DispatchError (Option (Instant × Instant)) :=
  match (truthy record.timeStart).or record.datetime with
  | none => .ok none
  | some start => do
    let lo ← parsed parseUtc start
    let hi ← parsed parseUtc ((truthy record.timeEnd).getD start)
    return some (lo, hi)

def BoundDate.parse : BoundDate → Except DispatchError Instant
  | .text value => parsed parseUtc value
  | .date value => .ok (.midnight value)
  | .instant value => .ok value

/-- A bare end date is the end of its day. -/
def BoundDate.closing : BoundDate → BoundDate
  | .text value =>
    if value.length = 10 ∧ 'T' ∉ value.toList then .text (value ++ "T23:59:59") else .text value
  | bound => bound

def BoundsTemporal.range (bounds : BoundsTemporal) : Except DispatchError (Instant × Instant) := do
  let lo ← bounds.startDate.parse parseUtc
  let hi ← bounds.endDate.closing.parse parseUtc
  return (lo, hi)

end Spans

/-- `windows_intersecting`, run to its end. -/
def windowsOf (range : Instant × Instant) (schedule : Schedule) (windows : List Declared) :
    Except DispatchError (List Label) :=
  ((windowsIntersecting passes range.1 range.2 schedule windows).get
    (windowsIntersecting_isSome ..)).mapError .window

section Units
variable (parseUtc : String → Option Instant) {κ : Type}

/-- The records of each shard with their spans. -/
def spannedCells (cells : List (κ × List GranuleRecord)) :
    Except DispatchError (List (κ × List (GranuleRecord × Option (Instant × Instant)))) :=
  cells.mapM fun cell => do
    return (cell.1, ← cell.2.mapM fun r => do return (r, ← granuleTimeSpan parseUtc r))

/-- The windows of `bounds.temporal`, for the records without times. -/
def legacyLabels (schedule : Schedule) (bounds : Option BoundsTemporal)
    (spans : List (Option (Instant × Instant))) : Except DispatchError (List Label) :=
  if spans.any Option.isNone then
    match bounds with
    | none => .error .noTimes
    | some bounds => do windowsOf (← bounds.range parseUtc) schedule []
  else .ok []

/-- The windows of the run from the spans of its records. -/
def windowLabels (w : Windowing) (bounds : Option BoundsTemporal)
    (spans : List (Option (Instant × Instant))) : Except DispatchError (List Label) :=
  match w.schedule with
  | .explicit => .ok (w.windows.map Declared.label)
  | schedule => do
    let found ← (spans.filterMap id).mapM fun span => windowsOf span schedule []
    let legacy ← legacyLabels parseUtc schedule bounds spans
    return sortedSet (found.flatten ++ legacy)

/-- A window's bounds, and its payload with the bounds in dataset time. -/
def windowBounds (w : Windowing) (label : Label) :
    Except DispatchError (Window × Instant × Instant) := do
  let (lo, hi) ← (windowRange label w.schedule w.windows).mapError .window
  return (⟨label, w.encoding.utcToOffset lo, w.encoding.utcToOffset hi⟩, lo, hi)

/-- The subset test of a record's span. -/
def spanMeets (lo hi : Instant) : Option (Instant × Instant) → Bool
  | none => true
  | some span => decide (span.1.before hi ∧ ¬span.2.before lo)

def subsetOf (records : List (GranuleRecord × Option (Instant × Instant))) (lo hi : Instant) :
    List GranuleRecord := (records.filter fun r => spanMeets lo hi r.2).map Prod.fst

def unitOf (cell : κ × List (GranuleRecord × Option (Instant × Instant)))
    (window : Window × Instant × Instant) : Option (WorkUnit κ Window) :=
  if subsetOf cell.2 window.2.1 window.2.2 = [] then none
  else some ⟨cell.1, subsetOf cell.2 window.2.1 window.2.2, window.1⟩

/-- `_windowed_units`. -/
def windowedUnits (cells : List (κ × List GranuleRecord)) (w : Windowing)
    (bounds : Option BoundsTemporal) : Except DispatchError (List (WorkUnit κ Window)) := do
  let spanned ← spannedCells parseUtc cells
  let labels ← windowLabels parseUtc w bounds (spanned.flatMap fun cell => cell.2.map Prod.snd)
  let windows ← labels.mapM (windowBounds w)
  return spanned.flatMap fun cell => windows.filterMap (unitOf cell)

end Units

section Filters
open Processing

/-- The pair of predicates of one window. -/
def windowTimeFilters (src : DataSource ℚ) (w : Windowing) (start stop : ℚ) :
    Except DispatchError (List (Predicate ℚ)) :=
  match src.vars.find? fun v => v.name = w.timeField with
  | none => .error (.noPath w.timeField)
  | some v =>
    if v.path = "" then .error (.noPath w.timeField)
    else .ok [⟨v.path, none, v.column, .ge, start, [], true⟩,
      ⟨v.path, none, v.column, .lt, stop, [], true⟩]

end Filters

section Raster
variable (parseUtc : String → Option Instant) {κ : Type}

/-- The records with assets, each under its `time_key`. -/
def keyedEntries (records : List GranuleRecord) :
    Except DispatchError (List (String × List GranuleRecord)) :=
  (records.filter fun e => e.assets ≠ []).mapM fun e =>
    match truthy e.datetime with
    | none => .error (.noDatetime e.id)
    | some datetime => .ok ((truthy e.timeKey).getD datetime, [e])

/-- `min(parse_utc(e["datetime"]) for e in items)`. -/
def earliest (items : List GranuleRecord) : Except DispatchError Instant := do
  match ← items.mapM fun e => parsed parseUtc (e.datetime.getD "") with
  | [] => .error .noInstant
  | t :: ts => return ts.foldl (fun least t => if t.before least then t else least) t

/-- The acquisition groups of a shard, each with the window of its earliest instant. -/
def placedGroups (w : Windowing) (groups : List (String × List GranuleRecord)) :
    Except DispatchError (List (Option Label × List GranuleRecord)) :=
  groups.mapM fun group => do
    let instant ← earliest parseUtc group.2
    let labels ← windowsOf (instant, instant) w.schedule w.windows
    return (labels.head?, group.2)

/-- The records of each window of a shard. -/
def byWindow (placed : List (Option Label × List GranuleRecord)) :
    List (Label × List GranuleRecord) :=
  collect (placed.filterMap fun group => group.1.map fun label => (label, group.2))

/-- The order in which a shard's windows are dispatched. -/
def labelOrder (w : Windowing) (windows : List (Label × List GranuleRecord)) : List Label :=
  match w.schedule with
  | .explicit => w.windows.map Declared.label
  | _ => sortedSet (windows.map Prod.fst)

def rasterUnitsOf (w : Windowing) (cell : κ × List GranuleRecord) :
    Except DispatchError (List (WorkUnit κ Label)) := do
  let placed ← placedGroups parseUtc w (collect (← keyedEntries cell.2))
  return (readIn (labelOrder w (byWindow placed)) (byWindow placed)).map fun entry =>
    ⟨cell.1, entry.2, entry.1⟩

/-- `_raster_windowed_units`. -/
def rasterWindowedUnits (cells : List (κ × List GranuleRecord)) (w : Windowing) :
    Except DispatchError (List (WorkUnit κ Label)) := do
  return (← cells.mapM (rasterUnitsOf parseUtc w)).flatten

end Raster

end Zagg.Windows
