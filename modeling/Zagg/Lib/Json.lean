import Mathlib.Algebra.Order.Ring.Unbundled.Rat
import Zagg.Lib.PyText

/-!
# JSON values

What `json.loads` returns, with the Python operations read paths apply to it: truth,
subscripts and `dict.get`, `int()`, iteration and unpacking.
-/
namespace Zagg.Lib

/-- The exceptions the modelled code raises. -/
inductive PyError where
  | attributeError
  | indexError
  | keyError
  | overflowError
  | typeError
  | valueError
  deriving DecidableEq

inductive Json where
  | null
  | bool (b : Bool)
  | num (q : ℚ)
  /-- What `json.loads` makes of `Infinity`, `-Infinity` and a number past the float range. -/
  | inf (negative : Bool)
  | nan
  | str (s : String)
  | arr (items : List Json)
  | obj (fields : List (String × Json))

namespace Json

/-- The value of a number or a truth value. -/
def number : Json → Option ℚ
  | num q => some q
  | bool b => some (if b then 1 else 0)
  | _ => none

def isNumber : Json → Bool
  | num _ => true
  | bool _ => true
  | inf _ => true
  | nan => true
  | _ => false

/-- `value < other` between two numbers; `nan` is neither below nor above any. -/
def numberLt : Json → Json → Bool
  | nan, _ => false
  | _, nan => false
  | inf below, inf negative => below && !negative
  | inf below, _ => below
  | _, inf negative => !negative
  | value, other => value.number.getD 0 < other.number.getD 0

mutual

/-- `value == other`. -/
def pyEq : Json → Json → Bool
  | null, other => match other with
    | null => true
    | _ => false
  | str s, other => match other with
    | str t => s = t
    | _ => false
  | num q, other => other.number = some q
  | inf negative, other => match other with
    | inf n => negative = n
    | _ => false
  | nan, _ => false
  | bool b, other => other.number = some (if b then 1 else 0)
  | arr items, other => match other with
    | arr others => pyEqItems items others
    | _ => false
  | obj fields, other => match other with
    | obj others => fields.length = others.length && pyEqFields fields others
    | _ => false

def pyEqItems : List Json → List Json → Bool
  | [], others => others.isEmpty
  | item :: items, others => match others with
    | [] => false
    | other :: others => pyEq item other && pyEqItems items others

def pyEqFields : List (String × Json) → List (String × Json) → Bool
  | [], _ => true
  | (key, value) :: fields, others =>
    (match others.lookup key with
    | some other => pyEq value other
    | none => false) && pyEqFields fields others

end

/-- `bool(value)`. -/
def truthy : Json → Bool
  | null => false
  | bool b => b
  | num q => q ≠ 0
  | inf _ => true
  | nan => true
  | str s => s ≠ ""
  | arr items => !items.isEmpty
  | obj fields => !fields.isEmpty

/-- `fields.get(key)`. -/
def field (fields : List (String × Json)) (key : String) : Json := (fields.lookup key).getD null

/-- `value or {}`. -/
def orEmpty (value : Json) : Json := if value.truthy then value else obj []

/-- `fields[key]`. -/
def item (fields : List (String × Json)) (key : String) : Except PyError Json :=
  match fields.lookup key with
  | some value => .ok value
  | none => .error .keyError

/-- `int(value)`; a float is cut towards zero. -/
def toInt : Json → Except PyError Int
  | num q => .ok (q.num.tdiv q.den)
  | bool b => .ok (if b then 1 else 0)
  | inf _ => .error .overflowError
  | nan => .error .valueError
  | str s =>
    match PyText.pyInt s.toList with
    | some n => .ok n
    | none => .error .valueError
  | _ => .error .typeError

/-- What iterating over a value yields. -/
def items : Json → Except PyError (List Json)
  | arr items => .ok items
  | str s => .ok (s.toList.map fun ch => str (String.singleton ch))
  | obj fields => .ok (fields.map fun f => str f.1)
  | _ => .error .typeError

/-- `first, second = value`. -/
def pair (value : Json) : Except PyError (Json × Json) := do
  match ← value.items with
  | [first, second] => .ok (first, second)
  | _ => .error .valueError

/-- A value used through a method of `str`. -/
def text : Json → Except PyError (List Char)
  | str s => .ok s.toList
  | _ => .error .attributeError

def isDict : Json → Bool
  | obj _ => true
  | _ => false

/-- A value equal to one of some strings. -/
def isOneOf (texts : List String) : Json → Bool
  | str s => decide (s ∈ texts)
  | _ => false

theorem pyEq_null {v : Json} : v.pyEq null = true ↔ v = null := by
  cases v <;> simp [pyEq, number]

theorem items_error {v : Json} {err : PyError} (h : v.items = .error err) : err = .typeError := by
  cases v with
  | arr items => cases h
  | str s => cases h
  | obj fields => cases h
  | _ => exact (Except.error.inj h).symm

theorem pair_error {v : Json} {err : PyError} (h : v.pair = .error err) :
    err = .typeError ∨ err = .valueError := by
  rw [pair] at h
  cases hitems : v.items with
  | error e =>
    rw [hitems] at h
    obtain rfl := Except.error.inj h
    exact .inl (items_error hitems)
  | ok items =>
    rw [hitems] at h
    simp only [bind, Except.bind] at h
    split at h
    · cases h
    · exact .inr (Except.error.inj h).symm

theorem toInt_num (n : Int) : (num n).toInt = .ok n := by
  rw [toInt, Rat.num_intCast, Rat.den_intCast, Nat.cast_one, Int.tdiv_one]

theorem orEmpty_of_truthy {value : Json} (h : value.truthy = true) : value.orEmpty = value := if_pos h

theorem orEmpty_of_falsy {value : Json} (h : value.truthy = false) : value.orEmpty = obj [] :=
  if_neg (by rw [h]; exact Bool.false_ne_true)

end Json
end Zagg.Lib
