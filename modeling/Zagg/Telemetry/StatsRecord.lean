import Zagg.Dedup.GranuleIds
import Zagg.Lib.JsonEq

/-!
# Stats records

The record a worker makes of a shard, and the fold of records into one. Numbers are exact: an
infinity or a nan, which none of them is, raises.
-/
namespace Zagg.Telemetry

open Zagg.Lib
open Zagg.Dedup (canonicalGranuleIds granulesSha256 idJson)

abbrev Record := List (String × Json)

def schemaVersion : Json := .num 1

section Tables

def sumKeys : List String := ["n_shards", "n_granules", "n_obs", "cells_with_data", "duration_s"]

def sumOrNoneKeys : List String :=
  ["gb_seconds", "est_cost_usd", "n_obs_read", "spill_bytes", "spill_blocks_closed",
    "raster_bytes_read", "raster_px_decoded", "raster_px_sampled"]

def maxOrNoneKeys : List String := ["max_memory_mb", "container_hwm_mb"]

def eqOrNoneKeys : List String :=
  ["window", "shard_key", "run_id", "semantic_hash", "granules_sha256", "content_hashes",
    "leaf_column", "zagg_version", "lambda", "invoked_by", "error"]

end Tables

section Merge

inductive MergeError
  | noRecord
  | schemaVersions
  | raised (err : PyError)

def isNull : Json → Bool
  | .null => true
  | _ => false

/-- The value of the first record where all have it, and `None` otherwise. -/
def equalOrNone (values : List Json) : Json :=
  match values with
  | [] => .null
  | first :: _ => if values.all fun v => v.pyEq first then first else .null

def add (a b : Json) : Except PyError Json :=
  match a.number, b.number with
  | some p, some q => .ok (.num (p + q))
  | _, _ => .error .typeError

/-- `sum(values)`. -/
def sum (values : List Json) : Except PyError Json := values.foldlM add (.num 0)

def larger (best v : Json) : Except PyError Json :=
  if best.comparable v then .ok (if best.less v then v else best) else .error .typeError

/-- `max(values)`. -/
def largest : List Json → Except PyError Json
  | [] => .error .valueError
  | v :: values => values.foldlM larger v

/-- A fold of the values that are not `None`, and `None` of none. -/
def orNone (f : List Json → Except PyError Json) (values : List Json) : Except PyError Json :=
  match values.filter fun v => !isNull v with
  | [] => .ok .null
  | v :: values => f (v :: values)

/-- `value or 0`. -/
def orZero (v : Json) : Json := if v.truthy then v else .num 0

/-- The items of `record.get("phase_timings") or {}`. -/
def phaseItems (r : Record) : Except PyError Record :=
  match (Json.field r "phase_timings").orEmpty with
  | .obj fields => .ok fields
  | _ => .error .attributeError

def addPhase (phases : Record) (entry : String × Json) : Except PyError Record := do
  let secs ← add ((phases.lookup entry.1).getD (.num 0)) entry.2
  return put entry.1 secs phases

def addPhases (phases : Record) (r : Record) : Except PyError Record := do
  let entries ← phaseItems r
  entries.foldlM addPhase phases

/-- The values of the records under each key of a table, folded. -/
def foldKeys (f : List Json → Except PyError Json) (keys : List String) (records : List Record) :
    Except PyError Record :=
  keys.mapM fun key => do
    let value ← f (records.map fun r => Json.field r key)
    return (key, value)

def mergeRecords (records : List Record) : Except PyError Record := do
  let identity ← foldKeys (fun values => .ok (equalOrNone values)) eqOrNoneKeys records
  let sums ← foldKeys (fun values => sum (values.map orZero)) sumKeys records
  let phases ← records.foldlM addPhases []
  let totals ← foldKeys (orNone sum) sumOrNoneKeys records
  let peaks ← foldKeys (orNone largest) maxOrNoneKeys records
  let stamp ← orNone largest (records.map fun r => Json.field r "timestamp")
  let success := records.all fun r => (Json.field r "success").truthy
  return ("schema_version", schemaVersion) :: identity ++ sums ++ [("phase_timings", .obj phases)]
    ++ totals ++ peaks ++ [("timestamp", stamp), ("success", .bool success)]

def merge (records : List Record) : Except MergeError Record :=
  if records.isEmpty then .error .noRecord
  else if records.all fun r => (Json.field r "schema_version").pyEq schemaVersion then
    match mergeRecords records with
    | .ok out => .ok out
    | .error err => .error (.raised err)
  else .error .schemaVersions

end Merge

section Build

def archAliases : List (String × String) :=
  [("aarch64", "arm64"), ("arm64", "arm64"), ("x86_64", "x86_64"), ("amd64", "x86_64")]

def lambdaPricePerGbSecByArch : List (String × ℚ) := [("arm64", 0.0000133334)]

def lambdaPricePerGbSec : ℚ := 0.0000133334

/-- `_SEMANTIC_HASH_RE.match`: a line break may follow the digest. -/
def isSemanticHash (text : List Char) : Bool :=
  let body := if text.getLast? = some '\n' then text.dropLast else text
  body.length = 64 && body.all fun ch => ch.isDigit || ('a' ≤ ch && ch ≤ 'f')

/-- The arguments of `build_record`, `None` as null. -/
structure BuildArguments where
  shardKey : Json
  metadata : Record
  granuleIds : Option (List Json)
  invokedBy : Record
  runId : Json
  window : Json
  semanticHash : Json
  lambdaConfig : Record

/-- `metadata.get(key)`. -/
def BuildArguments.get (args : BuildArguments) (key : String) : Json := Json.field args.metadata key

/-- What a worker runs on: `str()` of a value that is no text, `float()` of a text, the digest, the
version of the package, the time. -/
structure Environment where
  str : Json → List Char
  float : String → Except PyError ℚ
  sha256 : List Char → List Char
  zaggVersion : String
  timestamp : String

variable (env : Environment)

def Environment.text : Json → String
  | .str s => s
  | value => String.ofList (env.str value)

/-- `float(value)`. -/
def Environment.toFloat : Json → Except PyError Json
  | .num q => .ok (.num q)
  | .bool b => .ok (.num (if b then 1 else 0))
  | .str s => (env.float s).map .num
  | _ => .error .typeError

def optFloat (value : Json) : Except PyError Json :=
  if isNull value then .ok .null else env.toFloat value

/-- `int(value)`. -/
def asInt (value : Json) : Except PyError Json := value.toInt.map fun n => .num n

def optInt (value : Json) : Except PyError Json := if isNull value then .ok .null else asInt value

def resolvedSemanticHash (given fallback : Json) : Json :=
  if isNull given then
    match fallback with
    | .str s => if isSemanticHash s.toList then .str s else .null
    | _ => .null
  else given

/-- Whether a value is an `int` or a `float` and no `bool`. -/
def isPlainNumber : Json → Bool
  | .bool _ => false
  | v => v.isNumber

def phaseEntries (metadata : Record) : Except PyError Record := do
  let entries ← phaseItems metadata
  (entries.filter fun f => isPlainNumber f.2).mapM fun f => do
    let secs ← env.toFloat f.2
    return (f.1, secs)

def isSeconds (key : String) : Bool := !key.endsWith "_bytes" && key ≠ "spill_blocks_closed"

def times (a b : Json) : Except PyError ℚ :=
  match a.number, b.number with
  | some p, some q => .ok (p * q)
  | _, _ => .error .typeError

def priceOf (arch : Json) : ℚ :=
  let known := archAliases.lookup (env.text (if arch.truthy then arch else .str "")).toLower
  (known.bind fun name => lambdaPricePerGbSecByArch.lookup name).getD lambdaPricePerGbSec

/-- `gb_seconds` and `est_cost_usd`. -/
def costs (lambdaConfig : Record) (duration : Json) : Except PyError (Json × Json) :=
  if (Json.field lambdaConfig "memory_mb").truthy then do
    let mbSeconds ← times duration (Json.field lambdaConfig "memory_mb")
    return (.num (mbSeconds / 1024),
      .num (mbSeconds / 1024 * priceOf env (Json.field lambdaConfig "arch")))
  else .ok (.null, .null)

def granuleCount (metadata : Record) (listed : Nat) : Json :=
  if isNull (Json.field metadata "granule_count") then .num listed
  else Json.field metadata "granule_count"

def digestJson (digest : Option (List Char)) : Json :=
  match digest with
  | some hex => .str (String.ofList hex)
  | none => .null

/-- `dict(d) if d else None`. -/
def dictOrNone (d : Record) : Json := if d.isEmpty then .null else .obj d

def textOrNone (value : Json) : Json := if value.truthy then .str (env.text value) else .null

def buildRecord (args : BuildArguments) : Except PyError Record := do
  let duration ← env.toFloat (orZero (args.get "duration_s"))
  let cost ← costs env args.lambdaConfig duration
  let phases ← phaseEntries env args.metadata
  let blocks ← optInt ((phases.lookup "spill_blocks_closed").getD .null)
  let ids ← canonicalGranuleIds env.str (args.granuleIds.getD [])
  let shardKey ← asInt args.shardKey
  let nGranules ← asInt (granuleCount args.metadata ids.length)
  let granules ← granulesSha256 env.str env.sha256 (ids.map idJson)
  let nObs ← asInt (orZero (args.get "total_obs"))
  let nObsRead ← optInt (args.get "total_obs_read")
  let cells ← asInt (orZero (args.get "cells_with_data"))
  let bytesRead ← optInt (args.get "raster_bytes_read")
  let decoded ← optInt (args.get "raster_px_decoded")
  let sampled ← optInt (args.get "raster_px_sampled")
  let maxMemory ← optFloat env (args.get "max_memory_mb")
  let hwm ← optFloat env (args.get "container_hwm_mb")
  return [
    ("schema_version", schemaVersion),
    ("shard_key", shardKey),
    ("window", if isNull args.window then .null else .str (env.text args.window)),
    ("run_id", args.runId),
    ("semantic_hash", resolvedSemanticHash args.semanticHash (args.get "semantic_hash")),
    ("zagg_version", .str env.zaggVersion),
    ("n_shards", .num 1),
    ("n_granules", nGranules),
    ("granules_sha256", digestJson granules),
    ("content_hashes", args.get "content_hashes"),
    ("n_obs", nObs),
    ("n_obs_read", nObsRead),
    ("cells_with_data", cells),
    ("phase_timings", .obj (phases.filter fun f => isSeconds f.1)),
    ("duration_s", duration),
    ("spill_bytes", (phases.lookup "spill_bytes").getD .null),
    ("spill_blocks_closed", blocks),
    ("raster_bytes_read", bytesRead),
    ("raster_px_decoded", decoded),
    ("raster_px_sampled", sampled),
    ("leaf_column", args.get "leaf_column"),
    ("gb_seconds", cost.1),
    ("est_cost_usd", cost.2),
    ("max_memory_mb", maxMemory),
    ("container_hwm_mb", hwm),
    ("lambda", dictOrNone args.lambdaConfig),
    ("timestamp", .str env.timestamp),
    ("success", .bool (!(args.get "error").truthy)),
    ("error", textOrNone env (args.get "error")),
    ("invoked_by", dictOrNone args.invokedBy)]

end Build

end Zagg.Telemetry
