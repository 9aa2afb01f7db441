import Mathlib.Data.String.Basic
import Zagg.Catalog.ShardMap
import Zagg.Hive.TemporalSection
import Zagg.Lib.Base64
import Zagg.Lib.JsonEq
import Zagg.Lib.SortedSet

/-!
# The cover object

`coverage.toc` lists, per shard, a canonical set of toc words quantized to aligned buckets:
temporal order `o` has `2 ** o` of them, each of `2 ** (63 - o)` ns. A write composes the
standing object with the incoming one shard by shard.
-/
namespace Zagg.Hive

open Zagg.Lib
open Zagg.Catalog (Word)

def temporalCoverOrder : Int := 18

def coverCap : Nat := 512

/-- The time grammar of `mortie`. -/
structure Toc where
  toc2time : Word → Nat × Nat
  span2toc : Nat → Nat → Word
  normalize : List Word → List Word
  maxNs : Nat

/-- The exceptions that mark a standing object as debris. -/
def isDebris (err : PyError) : Bool :=
  err = .keyError || err = .typeError || err = .valueError

variable (g : Toc)

/-- One word's envelope widened to buckets of `2 ^ k` ns. -/
def widen (k : Nat) (w : Word) : Word :=
  let span := g.toc2time w
  let lo := span.1 / 2 ^ k * 2 ^ k
  let last := max span.2 (span.1 + 1) - 1
  let hi := min ((last / 2 ^ k + 1) * 2 ^ k) g.maxNs
  g.span2toc lo (hi - 1)

def quantizeWords (words : List Word) (order : Int) : Except PyError (List Word) :=
  if 0 ≤ order ∧ order ≤ 31 then
    if words = [] then .ok words
    else .ok (g.normalize (words.map (widen g (63 - order).toNat)))
  else .error .valueError

/-- Coarsen until the cover fits; `fuel` bounds the orders left. -/
def capFrom (cap : Nat) : Nat → List Word → Int → Except PyError (List Word × Int)
  | 0, cover, order => .ok (cover, order)
  | fuel + 1, cover, order =>
    if cover.length > cap ∧ order > 0 then do
      capFrom cap fuel (← quantizeWords g cover (order - 1)) (order - 1)
    else .ok (cover, order)

def capCover (cover : List Word) (order : Int) : Except PyError (List Word × Int) :=
  capFrom g coverCap order.toNat cover order

/-- The base64 text of the words' bytes. -/
def encodeWords (cover : List Word) : String :=
  String.ofList (Base64.encode (cover.flatMap Base64.wordBytes))

def encodeCoverBlock (cover : List Word) (order pinned : Int) : Json :=
  .obj ([("words", .str (encodeWords cover)), ("count", .num (cover.length : Int))] ++
    if order ≠ pinned then [("temporal_order", .num order)] else [])

def objectPin (carrier : Fields) : Except PyError Int :=
  match (getDefault carrier "temporal_order" (.num temporalCoverOrder)).toInt with
  | .error .typeError => .error .valueError
  | result => result

def decodeWords : Json → Except PyError (List Word)
  | .str text =>
    if text.toList.all fun ch => ch.toNat < 128 then
      match (Base64.decode text.toList).bind Base64.bytesWords with
      | some words => .ok words
      | none => .error .valueError
    else .error .valueError
  | _ => .error .typeError

def decodeCoverBlock (block : Json) (pinned : Int) : Except PyError (List Word × Int) :=
  match block with
  | .obj fields => do
    let words ← decodeWords (← Json.item fields "words")
    if (Json.field fields "count").pyEq (.num (words.length : Int)) then
      let order ← (getDefault fields "temporal_order" (.num pinned)).toInt
      if order > pinned then throw .valueError else return (words, order)
    else throw .valueError
  | _ => .error .valueError

/-- `section.get("shards") or {}`, used as a mapping. -/
def coverShards (carrier : Fields) : Except PyError Fields :=
  match (Json.field carrier "shards").orEmpty with
  | .obj shards => .ok shards
  | _ => .error .typeError

def coverUsable : Json → Option Fields
  | .obj carrier => if (Json.field carrier "spec").pyEq (.str coverSpec) then some carrier else none
  | _ => none

def coverPreserved : Json → Option Fields
  | .obj carrier =>
    match Json.field carrier "spec" with
    | .str spec => if spec ≠ "" ∧ spec ≠ coverSpec then some carrier else none
    | _ => none
  | _ => none

/-- The decoded blocks of the sides that list a shard. -/
def coverSides (shardsA shardsB : Fields) (pinA pinB : Int) (decimal : String) :
    Except PyError (List (List Word × Int)) := do
  let a ← match shardsA.lookup decimal with
    | some block => (decodeCoverBlock block pinA).map fun side => [side]
    | none => .ok []
  let b ← match shardsB.lookup decimal with
    | some block => (decodeCoverBlock block pinB).map fun side => [side]
    | none => .ok []
  return a ++ b

/-- The two sides of a shard at the coarser order, or the one there is. -/
def joinSides : List (List Word × Int) → Except PyError (List Word × Int)
  | [(words, order)] => .ok (words, order)
  | [(words, order), (words', order')] => do
    return (← quantizeWords g (words ++ words') (min order order'), min order order')
  | _ => .ok ([], 0)

def mergeCoverShard (shardsA shardsB : Fields) (pinA pinB : Int) (decimal : String) :
    Except PyError (String × Json) := do
  let (words, order) ← joinSides g (← coverSides shardsA shardsB pinA pinB decimal)
  let (words, order) ← capCover g words order
  return (decimal, encodeCoverBlock words order (max pinA pinB))

/-- `sorted(set(a) | set(b))` of shard ids. -/
def sortedKeys (a b : Fields) : List String := sortedSet (a.map Prod.fst ++ b.map Prod.fst)

def mergedCover (a b : Fields) (pinned : Int) (fields : List Json) (shards : Fields) : Fields :=
  [("spec", .str coverSpec), ("source", getDefault b "source" (Json.field a "source")),
    ("generated_at", getDefault b "generated_at" (Json.field a "generated_at")),
    ("order", getDefault b "order" (Json.field a "order")), ("temporal_order", .num pinned),
    ("cap", .num coverCap), ("fields", .arr fields),
    ("element", .obj [("dtype", .str "uint64"), ("shape", .arr [.num (-1)])]),
    ("encoding", .str "base64"), ("shards", .obj shards)]

def mergeUsableCovers (a b : Fields) : Except PyError Fields := do
  let pinA ← objectPin a
  let pinB ← objectPin b
  let shardsA ← coverShards a
  let shardsB ← coverShards b
  let shards ← (sortedKeys shardsA shardsB).mapM (mergeCoverShard g shardsA shardsB pinA pinB)
  let fields ← pySorted (distinct ((← fieldSet a) ++ (← fieldSet b)))
  return mergedCover a b (max pinA pinB) fields shards

/-- The standing cover composed with the incoming one; `null` is an absent object. -/
def mergeCoverSections (existing incoming : Json) : Except PyError (Option Fields) :=
  match coverUsable existing, coverUsable incoming with
  | some a, none => .ok (some a)
  | none, none => .ok (coverPreserved existing)
  | none, some b => .ok (some ((coverPreserved existing).getD b))
  | some a, some b =>
    if (Json.field a "order").pyEq (Json.field b "order") then (mergeUsableCovers g a b).map some
    else .ok (some b)

/-- One block's content. -/
def blockContent : String × Json → Option (String × Json)
  | (decimal, .obj block) => some (decimal,
      .arr [Json.field block "words", Json.field block "count", Json.field block "temporal_order"])
  | _ => none

def sortedFields (carrier : Fields) : Except PyError (List Json) := do
  let fields := Json.field carrier "fields"
  Json.sort (← if fields.truthy then fields.items else return [])

/-- What a pass that changes nothing reproduces. -/
def coverContent : Option Fields → Except PyError Json
  | none => .ok .null
  | some carrier => do
    let shards ← shardItems carrier
    let fields ← sortedFields carrier
    return .arr [.obj (shards.filterMap blockContent), .arr fields, Json.field carrier "order",
      Json.field carrier "temporal_order", Json.field carrier "cap"]

def coverUnchanged (existing incoming : Json) : Except PyError Bool :=
  match mergeCoverSections g existing incoming with
  | .error err =>
    if err = .keyError ∨ err = .typeError ∨ err = .valueError then .ok false else .error err
  | .ok merged => do
    let content ← coverContent merged
    let standing ← coverContent (match existing with
      | .obj carrier => some carrier
      | _ => none)
    return content.pyEq standing

end Zagg.Hive
