import Zagg.Hive.RootRoundTrip
import Zagg.Hive.TemporalSection

/-!
# Writing the root coverage object

The incoming envelope is unioned into whatever stands at `coverage.moc`: a compatible
object that parses is accumulated, anything else is overwritten.
-/
namespace Zagg.Hive

open Zagg.Lib
open Zagg.Catalog (Word unique)

/-- What the write calls outside this package: mortie, and the parsing and printing of
instants. -/
structure Platform where
  mortie : Mortie
  parseUtc : Json → Except PyError Int
  isoUtc : Int → String
  tocMerge : Int → Int → Except PyError Int

variable (p : Platform)

/-- One range of `union_time_range`; a fault drops what was not yet appended. -/
def addRange (ends : List Int × List Int) (range : Json) : Except PyError (List Int × List Int) :=
  if range.pyEq .null then .ok ends
  else
    match range.pair with
    | .error _ => .ok ends
    | .ok (lo, hi) =>
      match p.parseUtc lo with
      | .error .typeError => .ok ends
      | .error .valueError => .ok ends
      | .error err => .error err
      | .ok start =>
        match p.parseUtc hi with
        | .error .typeError => .ok (ends.1 ++ [start], ends.2)
        | .error .valueError => .ok (ends.1 ++ [start], ends.2)
        | .error err => .error err
        | .ok stop => .ok (ends.1 ++ [start], ends.2 ++ [stop])

/-- The union of the parsed ranges; `max` of no end is a `ValueError`. -/
def unionTimeRange (ranges : List Json) : Except PyError (Option (List String)) := do
  let (starts, stops) ← ranges.foldlM (addRange p) ([], [])
  match starts.min?, stops.max? with
  | none, _ => return none
  | some _, none => throw .valueError
  | some start, some stop => return some [p.isoUtc start, p.isoUtc stop]

/-- What is read back from `coverage.moc`. -/
inductive Standing where
  | absent
  | notJson
  | json (value : Json)

def Standing.existing : Standing → Option Fields
  | .json (.obj fields) => some fields
  | _ => none

def compatible (existing envelope : Fields) : Bool :=
  (Json.field existing "spec").pyEq (Json.field envelope "spec") &&
    (Json.field existing "encoding").pyEq (Json.field envelope "encoding") &&
    (Json.field existing "order").pyEq (Json.field envelope "order")

/-- The union of two compatible envelopes. -/
def unionEnvelopes (generatedAt : String) (existing envelope : Fields) : Except PyError Fields := do
  let old ← rootCoverageWords p.mortie existing
  let new ← rootCoverageWords p.mortie envelope
  let order ← (← Json.item envelope "order").toInt
  let timeRange ← unionTimeRange p [Json.field existing "time_range", Json.field envelope "time_range"]
  buildRootCoverage p.mortie generatedAt (unique (old ++ new)) order
    (getDefault envelope "source" (.str "dispatcher")) timeRange none

/-- The object before its temporal section, and whether the standing one went into it. -/
def mergeSpatial (generatedAt : String) (standing : Standing) (envelope : Fields) :
    Except PyError (Fields × Option Fields) :=
  match standing.existing with
  | none => .ok (envelope, none)
  | some existing =>
    if compatible existing envelope then
      match unionEnvelopes p generatedAt existing envelope with
      | .ok merged => .ok (merged, some existing)
      | .error err =>
        if err = .keyError ∨ err = .typeError ∨ err = .valueError then .ok (envelope, none)
        else .error err
    else .ok (envelope, none)

def withSection (merged : Fields) : Option Fields → Fields
  | none => merged
  | some carrier => put temporalKey (.obj carrier) merged

/-- The object written over the standing one. -/
def writeRootCoverage (generatedAt : String) (standing : Standing) (envelope : Fields) :
    Except PyError Fields := do
  let (merged, carried) ← mergeSpatial p generatedAt standing envelope
  let composed ← mergeTemporalSections p.tocMerge
    ((carried.map fun existing => Json.field existing temporalKey).getD .null)
    (Json.field envelope temporalKey)
  return withSection merged composed

/-- Sequential writes, each with the clock it reads. -/
def writeRun : Standing → List (String × Fields) → Except PyError Standing
  | standing, [] => .ok standing
  | standing, (generatedAt, envelope) :: rest => do
    let written ← writeRootCoverage p generatedAt standing envelope
    writeRun (.json (.obj written)) rest

end Zagg.Hive
