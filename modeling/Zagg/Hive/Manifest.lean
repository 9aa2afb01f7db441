import Zagg.Lib.JsonEq

/-!
# The store's manifest

`morton_hive.json` at a store root carries the keys that may not change under its leaves.
`validate_manifest` checks a run against it, `ensure_manifest` also writes it. A store is
the manifest and the names of the root's children; a step is one call or one leaf.
-/
namespace Zagg.Hive

open Zagg.Lib

def frozenManifestKeys : List String :=
  ["spec", "dataset", "semantic_hash", "cell_order", "shard_order", "split_schedule",
    "path_grouping", "temporal"]

/-- A frozen key's value; an absent path grouping is 1. -/
def frozenValue (manifest : List (String × Json)) (key : String) : Json :=
  let value := Json.field manifest key
  if key = "path_grouping" ∧ value.truthy = false then .num 1 else value

/-- The frozen-key projection. -/
def frozen (manifest : List (String × Json)) : List (String × Json) :=
  frozenManifestKeys.map fun key => (key, frozenValue manifest key)

def popHash (projection : List (String × Json)) : List (String × Json) :=
  projection.filter fun f => f.1 ≠ "semantic_hash"

def isNone : Json → Bool
  | .null => true
  | _ => false

/-- Whether two manifests agree on every frozen key; hashes are compared if both have one. -/
def frozenMatches (existing manifest : List (String × Json)) : Bool :=
  let fa := frozen existing
  let fb := frozen manifest
  if isNone (Json.field fa "semantic_hash") || isNone (Json.field fb "semantic_hash") then
    (Json.obj (popHash fa)).pyEq (.obj (popHash fb))
  else (Json.obj fa).pyEq (.obj fb)

/-- A `{sign+base}`-shaped child of the root. -/
def isBaseComponent (name : String) : Bool :=
  let base := match name.toList with
    | '-' :: rest => rest
    | chars => chars
  match base with
  | [ch] => ch ∈ ['1', '2', '3', '4', '5', '6']
  | _ => false

/-- The root of a store; `null` is an absent manifest. -/
structure Root where
  manifest : Json
  children : List String

/-- The existing manifest, where a run may proceed. -/
def validateManifest (root : Root) (manifest : List (String × Json)) (overwriting : Bool) :
    Except PyError (Option (List (String × Json))) :=
  match root.manifest with
  | .null => .ok none
  | .obj existing =>
    if frozenMatches existing manifest then .ok (some existing)
    else if overwriting then
      if root.children.any isBaseComponent then .error .valueError else .ok (some existing)
    else .error .valueError
  | _ => .error .attributeError

/-- The store after the call. -/
def ensureManifest (root : Root) (manifest : List (String × Json)) (overwriting : Bool) :
    Except PyError Root := do
  let existing ← validateManifest root manifest overwriting
  if existing.isSome && !overwriting then return root
  else return { root with manifest := .obj manifest }

end Zagg.Hive
