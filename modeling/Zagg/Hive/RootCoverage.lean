import Zagg.Catalog.ShardMap
import Zagg.Lib.Json
import Zagg.Sweep.Node

/-!
# The root coverage envelope

`coverage.moc` lists a store's shards as ranges of decimal strings: inclusive runs of
cells of one order within one base cell, consecutive in the base-4 rank of their digit
tails.
-/
namespace Zagg.Hive

open Zagg.Lib
open Zagg.Lib.PyText (digitValue)
open Zagg.Catalog (Word unique)

/-- A decimal id as text. -/
abbrev Text := List Char

/-- The `{sign+base}` component. -/
def decimalBase (decimal : Text) : Text :=
  if decimal.head? = some '-' then decimal.take 2 else decimal.take 1

def decimalOrder (decimal : Text) : Int :=
  decimal.length - if decimal.head? = some '-' then 2 else 1

def rankStep (rank : Int) (ch : Char) : Except PyError Int :=
  match digitValue ch with
  | some v => .ok (rank * 4 + (v - 1))
  | none => .error .valueError

/-- Base-4 value of the digit tail. -/
def decimalRank (decimal : Text) : Except PyError Int :=
  (decimal.drop (decimalBase decimal).length).foldlM rankStep 0

/-- The low `depth` digits of a rank, lowest first. -/
def rankDigits (rank : Int) : Nat → Text
  | 0 => []
  | depth + 1 => Char.ofNat (49 + (rank % 4).toNat) :: rankDigits (rank / 4) depth

def rankTail (rank : Int) (depth : Nat) : Text := (rankDigits rank depth).reverse

/-- Words as `mortie` prints and parses them; `none` is a `ValueError`. -/
structure Mortie where
  decimalRepr : Word → Option Text
  decimalToWord : Text → Option Word

def orValueError {α : Type} : Option α → Except PyError α
  | some a => .ok a
  | none => .error .valueError

def sameRun (prev dec : Text) : Except PyError Bool := do
  if decimalBase dec = decimalBase prev then
    return (← decimalRank dec) = (← decimalRank prev) + 1
  else return false

/-- One pass over the sorted decimals; `start` and `prev` are the open run. -/
def rangesFrom (start prev : Text) : List Text → Except PyError (List (Text × Text))
  | [] => .ok [(start, prev)]
  | dec :: decs => do
    if ← sameRun prev dec then rangesFrom start dec decs
    else return (start, prev) :: (← rangesFrom dec dec decs)

def coverageSpec : String := "morton-moc/1"

def temporalKey : String := "temporal"

def textJson (text : Text) : Json := .str (String.ofList text)

def rangesJson (ranges : List (Text × Text)) : Json :=
  .arr (ranges.map fun r => .arr [textJson r.1, textJson r.2])

/-- The optional members of an envelope. -/
def optional (key : String) : Option Json → List (String × Json)
  | some value => [(key, value)]
  | none => []

def rootEnvelope (generatedAt : String) (order : Int) (source : Json) (ranges : List (Text × Text))
    (timeRange : Option (List String)) (temporal : Option Json) : List (String × Json) :=
  [("spec", .str coverageSpec), ("encoding", .str "ranges"), ("order", .num order),
    ("source", source), ("generated_at", .str generatedAt), ("ranges", rangesJson ranges)] ++
    optional "time_range" (timeRange.map fun ts => .arr (ts.map Json.str)) ++
    optional temporalKey temporal

/-- The root envelope of completed shard keys; `generatedAt` is the clock's reading. -/
def buildRootCoverage (m : Mortie) (generatedAt : String) (shardKeys : List Word) (order : Int)
    (source : Json) (timeRange : Option (List String)) (temporal : Option Json) :
    Except PyError (List (String × Json)) := do
  let words := unique shardKeys
  let decs ← words.mapM fun w => orValueError (m.decimalRepr w)
  match decs with
  | [] => throw .valueError
  | dec :: rest =>
    if decs.any fun d => decimalOrder d ≠ order then throw .valueError
    let ranges ← rangesFrom dec dec rest
    return rootEnvelope generatedAt order source ranges timeRange temporal

/-- The cells of one range. -/
def rangeDecimals (order : Int) (range : Json) : Except PyError (List Text) := do
  let (lo, hi) ← range.pair
  let lo ← lo.text
  let base := decimalBase lo
  let loRank ← decimalRank lo
  let hi ← hi.text
  let hiRank ← decimalRank hi
  if decimalBase hi = base ∧ loRank ≤ hiRank ∧ decimalOrder lo = order ∧ decimalOrder hi = order then
    return (List.range (hiRank + 1 - loRank).toNat).map fun k : Nat =>
      base ++ rankTail (loRank + k) order.toNat
  else throw .valueError

/-- The inverse of the builder. -/
def rootCoverageWords (m : Mortie) (envelope : List (String × Json)) : Except PyError (List Word) := do
  let order ← (← Json.item envelope "order").toInt
  let ranges ← (← Json.item envelope "ranges").items
  let decimals ← ranges.mapM (rangeDecimals order)
  let words ← decimals.flatten.mapM fun d => orValueError (m.decimalToWord d)
  return unique words

def rangeContains (base : Text) (rank : Int) (range : Json) : Except PyError Bool := do
  let (lo, hi) ← range.pair
  let hi ← hi.text
  let lo ← lo.text
  if decimalBase hi = decimalBase lo then
    if decimalBase lo = base then
      if (← decimalRank lo) ≤ rank then return rank ≤ (← decimalRank hi) else return false
    else return false
  else return false

/-- Whether the envelope's ranges list one shard. -/
def rangesContain (envelope : List (String × Json)) (decimal : Text) : Except PyError Bool := do
  if decimalOrder decimal ≠ (← (← Json.item envelope "order").toInt) then return false
  let rank ← decimalRank decimal
  (← (← Json.item envelope "ranges").items).anyM (rangeContains (decimalBase decimal) rank)

end Zagg.Hive
