import Zagg.Windows.RasterDispatch

/-!
# Every observation in one window

The four conventions meet: closed spans are enumerated into half-open windows, the subsets are
taken by a closed span against a half-open window, the bounds are converted once, and the worker
filters half-open. Together they put each observation in one unit, unless a range reaches the
last window of the calendar, which has no end to filter by.
-/
namespace Zagg.Windows

open Zagg.Lib Processing

/-- A point run places every observation of its records in the one window that takes it, unless
a range reaches the calendar's last window, where it raises. A raster run places every
acquisition with assets whole, in one window or, under a declared list, in none. -/
theorem windowed_dispatch (parseUtc : String → Option Instant) (w : Windowing) {κ : Type}
    [DecidableEq κ] {cells : List (κ × List GranuleRecord)} (hkeys : (cells.map Prod.fst).Nodup) :
    (∀ (bounds : Option BoundsTemporal) (src : DataSource ℚ), Readable parseUtc cells w bounds →
      HasTimeField src w →
        (∀ c range, w.schedule = .generative c → Enumerated parseUtc cells bounds range →
          ReachesEnd c range →
            windowedUnits parseUtc cells w bounds = .error (.window c.pastEnd)) ∧
        ((∀ c range, w.schedule = .generative c → Enumerated parseUtc cells bounds range →
          ¬ReachesEnd c range) →
            ∃ units, windowedUnits parseUtc cells w bounds = .ok units ∧
              Placed parseUtc src w cells bounds units)) ∧
    ((∀ cell ∈ cells, Dated parseUtc cell.2) →
      ∃ units, rasterWindowedUnits parseUtc cells w = .ok units ∧ RasterPlaced w cells units) := by
  constructor
  · intro bounds src h hfield
    constructor
    · intro c range hw henum hend
      exact generative_raises h hw henum hend
    · intro hends
      cases hw : w.schedule with
      | none => exact absurd hw w.windowed
      | generative c =>
        exact generative_placed hkeys h hfield hw fun range => hends c range hw
      | explicit => exact explicit_placed hkeys h hfield hw
  · exact raster_placed w hkeys

section Samples

/-- Two midnights of a year's turn, and one in the last year. -/
def sampleParse : String → Option Instant
  | "2019-12-31" => some (.midnight ⟨2019, 12, 31, by decide⟩)
  | "2020-01-01" => some (.midnight ⟨2020, 1, 1, by decide⟩)
  | "9999-05-02" => some (.midnight ⟨9999, 5, 2, by decide⟩)
  | _ => none

/-- Yearly windows of a field in days since 2018. -/
def yearlyWindowing : Windowing where
  schedule := .generative .yearly
  timeField := "t"
  encoding := ⟨.midnight ⟨2018, 1, 1, by decide⟩, .gps, .days⟩
  windows := []
  windowed := nofun
  valid := nofun
  unique := .nil
  halfOpen := nofun
  disjoint := .nil

def spanRecord (first last : String) : GranuleRecord :=
  ⟨some "granule", some first, some last, some first, none, [("B04", "href")]⟩

/-- A source with the days as its time variable. -/
def daysSource : DataSource ℚ := ⟨"lat", "lon", [⟨"t", "/t", none⟩], [], [], "", "", 0⟩

theorem daysSource_hasTimeField : HasTimeField daysSource yearlyWindowing := ⟨_, rfl, by decide⟩

/-- Two shards: a record of two years, and one of the new year's day. -/
def turnOfYear : List (Nat × List GranuleRecord) :=
  [(7, [spanRecord "2019-12-31" "2020-01-01"]), (8, [spanRecord "2020-01-01" "2020-01-01"])]

def newYear : Instant := .midnight ⟨2020, 1, 1, by decide⟩

theorem turnOfYear_span : ∀ cell ∈ turnOfYear, ∀ r ∈ cell.2, ∃ first,
    granuleTimeSpan sampleParse r = .ok (some (first, newYear)) ∧ ¬newYear.before first := by
  intro cell hcell r hr
  rcases List.mem_pair.mp hcell with rfl | rfl
  · cases List.mem_singleton.mp hr
    exact ⟨.midnight ⟨2019, 12, 31, by decide⟩, rfl, by decide⟩
  · cases List.mem_singleton.mp hr
    exact ⟨newYear, rfl, by decide⟩

theorem turnOfYear_readable : Readable sampleParse turnOfYear yearlyWindowing none where
  spans cell hcell r hr := by
    obtain ⟨first, hspan, hbefore⟩ := turnOfYear_span cell hcell r hr
    refine ⟨_, hspan, fun range hrange => ?_⟩
    cases hrange
    exact hbefore
  bounded _ cell hcell r hr hnone := by
    obtain ⟨first, hspan, -⟩ := turnOfYear_span cell hcell r hr
    cases hspan.symm.trans hnone

theorem turnOfYear_dated : ∀ cell ∈ turnOfYear, Dated sampleParse cell.2 := by
  intro cell hcell e he
  rcases List.mem_pair.mp hcell with rfl | rfl
  · cases List.mem_singleton.mp he
    exact ⟨"2019-12-31", .midnight ⟨2019, 12, 31, by decide⟩, by decide, by decide⟩
  · cases List.mem_singleton.mp he
    exact ⟨"2020-01-01", newYear, by decide, by decide⟩

/-- Both dispatches of these shards. -/
theorem windowed_dispatch_turnOfYear :
    (∃ units, windowedUnits sampleParse turnOfYear yearlyWindowing none = .ok units ∧
      Placed sampleParse daysSource yearlyWindowing turnOfYear none units) ∧
    ∃ units, rasterWindowedUnits sampleParse turnOfYear yearlyWindowing = .ok units ∧
      RasterPlaced yearlyWindowing turnOfYear units := by
  have hends : ∀ c range, yearlyWindowing.schedule = .generative c →
      Enumerated sampleParse turnOfYear none range → ¬ReachesEnd c range := by
    intro c range hc henum
    cases hc
    rcases henum with ⟨cell, hcell, r, hr, hrange⟩ | ⟨-, b, hb, -⟩
    · obtain ⟨first, hspan, -⟩ := turnOfYear_span cell hcell r hr
      cases hspan.symm.trans hrange
      show ¬Cadence.next .yearly (Cadence.floor .yearly newYear.date) = none
      decide
    · cases hb
  obtain ⟨hpoint, hraster⟩ := windowed_dispatch sampleParse yearlyWindowing
    (show (turnOfYear.map Prod.fst).Nodup by decide)
  exact ⟨(hpoint none daysSource turnOfYear_readable daysSource_hasTimeField).2 hends,
    hraster turnOfYear_dated⟩

/-- An observation in the last year of the calendar is in no unit: its window has no end. -/
theorem windowed_dispatch_last_year :
    ∃ (src : DataSource ℚ) (value : ℚ),
      ([(7, [spanRecord "9999-05-02" "9999-05-02"])].map Prod.fst).Nodup ∧
      Readable sampleParse [(7, [spanRecord "9999-05-02" "9999-05-02"])] yearlyWindowing none ∧
      HasTimeField src yearlyWindowing ∧
      Observed sampleParse yearlyWindowing none (spanRecord "9999-05-02" "9999-05-02") value ∧
      ∀ units, windowedUnits sampleParse [(7, [spanRecord "9999-05-02" "9999-05-02"])]
        yearlyWindowing none ≠ .ok units := by
  have hspan : granuleTimeSpan sampleParse (spanRecord "9999-05-02" "9999-05-02") =
      .ok (some (.midnight ⟨9999, 5, 2, by decide⟩, .midnight ⟨9999, 5, 2, by decide⟩)) := rfl
  have hread : Readable sampleParse [(7, [spanRecord "9999-05-02" "9999-05-02"])]
      yearlyWindowing none := by
    constructor
    · intro cell hcell r hr
      cases List.mem_singleton.mp hcell
      cases List.mem_singleton.mp hr
      refine ⟨_, hspan, fun range hrange => ?_⟩
      cases hrange
      decide
    · intro _ cell hcell r hr hnone
      cases List.mem_singleton.mp hcell
      cases List.mem_singleton.mp hr
      cases hspan.symm.trans hnone
  refine ⟨daysSource, yearlyWindowing.encoding.utcToOffset (.midnight ⟨9999, 5, 2, by decide⟩), by decide, hread,
    daysSource_hasTimeField, ⟨?_, ?_, nofun⟩, ?_⟩
  · intro range hrange
    cases hspan.symm.trans hrange
    rw [TimeEncoding.offsetToUtc_utcToOffset]
    exact ⟨le_rfl, le_rfl⟩
  · intro _ hnone
    cases hspan.symm.trans hnone
  · intro units hunits
    have henum : Enumerated sampleParse [(7, [spanRecord "9999-05-02" "9999-05-02"])] none
        (.midnight ⟨9999, 5, 2, by decide⟩, .midnight ⟨9999, 5, 2, by decide⟩) :=
      .inl ⟨_, .head _, _, .head _, hspan⟩
    have hend : Cadence.next .yearly (Cadence.floor .yearly ⟨9999, 5, 2, by decide⟩) = none := by
      decide
    have hraise := generative_raises (c := .yearly) hread rfl henum hend
    rw [hraise] at hunits
    cases hunits

end Samples

end Zagg.Windows
