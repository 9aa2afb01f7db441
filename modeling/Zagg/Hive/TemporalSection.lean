import Mathlib.Data.List.Sort
import Zagg.Lib.Dict
import Zagg.Lib.Json

/-!
# Composing temporal sections

The `temporal` member of a root coverage object: a word per shard, the fields the words
come from, an optional digest and the marker of the cover sibling. A write composes the
standing section with the incoming one; either may be any JSON value.
-/
namespace Zagg.Hive

open Zagg.Lib

abbrev Fields := List (String × Json)

def temporalCoverageSpec : String := "zagg-coverage-toc/1"

def coverSpec : String := "zagg-coverage-toc-cover/1"

def coverKey : String := "cover"

/-- A section at the revision this code implements. -/
def usable : Json → Option Fields
  | .obj carrier =>
    if (Json.field carrier "spec").pyEq (.str temporalCoverageSpec) then some carrier else none
  | _ => none

/-- A section marked with another revision, kept as it stands. -/
def preserved : Json → Option Fields
  | .obj carrier =>
    match Json.field carrier "spec" with
    | .str spec => if spec ≠ "" ∧ spec ≠ temporalCoverageSpec then some carrier else none
    | _ => none
  | _ => none

/-- `(section.get("shards") or {}).items()`. -/
def shardItems (carrier : Fields) : Except PyError Fields :=
  match (Json.field carrier "shards").orEmpty with
  | .obj shards => .ok shards
  | _ => .error .attributeError

def sectionWords (carrier : Fields) : Except PyError (List (String × Int)) := do
  let items ← shardItems carrier
  let entries ← items.mapM fun e => do return (e.1, ← e.2.toInt)
  return entries.foldl (fun shards e => put e.1 e.2 shards) []

/-- One incoming shard joins the word map. -/
def mergeShard (tocMerge : Int → Int → Except PyError Int) (shards : List (String × Int))
    (entry : String × Json) : Except PyError (List (String × Int)) := do
  let w ← entry.2.toInt
  match shards.lookup entry.1 with
  | none => return put entry.1 w shards
  | some prior => return put entry.1 (← tocMerge prior w) shards

def hashable : Json → Bool
  | .arr _ => false
  | .obj _ => false
  | _ => true

/-- `set(section.get("fields") or [])`, in order of insertion. -/
def fieldSet (carrier : Fields) : Except PyError (List Json) := do
  let fields := Json.field carrier "fields"
  let items ← if fields.truthy then fields.items else return []
  if items.all hashable then return items else throw .typeError

/-- `set(items)`: of equal values the first stays. -/
def distinct (items : List Json) : List Json :=
  items.foldl (fun seen item => if seen.any (·.pyEq item) then seen else seen ++ [item]) []

def isText : Json → Bool
  | .str _ => true
  | _ => false

/-- `a <= b` between two strings or two numbers. -/
def scalarLe : Json → Json → Bool
  | .str s, .str t => s ≤ t
  | a, b => !b.numberLt a

/-- `sorted(items)` of distinct scalars: two of them compare only as strings or as numbers. -/
def pySorted (items : List Json) : Except PyError (List Json) :=
  if items.length ≤ 1 ∨ items.all isText ∨ items.all Json.isNumber then
    .ok (items.insertionSort fun a b => scalarLe a b)
  else .error .typeError

def strJson (n : Int) : Json := .str (String.ofList (PyText.pyStr n))

def sortedShards (shards : List (String × Int)) : Fields :=
  (shards.insertionSort fun a b => a.1 ≤ b.1).map fun e => (e.1, strJson e.2)

/-- `section.get(key, default)`. -/
def getDefault (fields : Fields) (key : String) (default : Json) : Json :=
  (fields.lookup key).getD default

/-- The shards a section lists; the argument is a section whose items were read. -/
def listsAll (carrier : Fields) (shards : List (String × Int)) : Bool :=
  match shardItems carrier with
  | .ok items => shards.all fun e => e.1 ∈ items.map Prod.fst
  | .error _ => false

/-- The digest of the newest section whose own map lists every shard. -/
def carriedDigest (a b : Fields) (shards : List (String × Int)) : Fields :=
  let vouches := [b, a].find? fun side =>
    !(Json.field side "digest").pyEq .null && listsAll side shards
  match vouches with
  | some side => [("digest", Json.field side "digest")]
  | none => []

def coverMarker (a b : Fields) : Fields :=
  let marker := getDefault b coverKey (Json.field a coverKey)
  let marker := match Json.field a coverKey with
    | .str standing =>
      if marker.pyEq (.str coverSpec) ∧ standing ≠ "" ∧ standing ≠ coverSpec then .str standing
      else marker
    | _ => marker
  if marker.pyEq .null then [] else [(coverKey, marker)]

def composed (a b : Fields) (fields : List Json) (shards : List (String × Int)) : Fields :=
  [("spec", .str temporalCoverageSpec),
    ("source", getDefault b "source" (Json.field a "source")),
    ("generated_at", getDefault b "generated_at" (Json.field a "generated_at")),
    ("fields", .arr fields), ("shards", .obj (sortedShards shards))] ++
    carriedDigest a b shards ++ coverMarker a b

/-- Two sections of this revision. -/
def mergeUsable (tocMerge : Int → Int → Except PyError Int) (a b : Fields) :
    Except PyError Fields := do
  let standing ← sectionWords a
  let shards ← (← shardItems b).foldlM (mergeShard tocMerge) standing
  let fields ← pySorted (distinct ((← fieldSet a) ++ (← fieldSet b)))
  return composed a b fields shards

/-- The standing section composed with the incoming one; `null` is an absent section. -/
def mergeTemporalSections (tocMerge : Int → Int → Except PyError Int) (existing incoming : Json) :
    Except PyError (Option Fields) :=
  match usable existing, usable incoming with
  | some a, none => .ok (some a)
  | none, none => .ok (preserved existing)
  | none, some b => .ok (some ((preserved existing).getD b))
  | some a, some b => (mergeUsable tocMerge a b).map some

end Zagg.Hive
