import Mathlib.Logic.Function.Basic
import Zagg.Stats.Composition
import Zagg.Stats.Tdigest

/-!
# Declared fields and their arrays

A declaration names its composable fields: `exact` scalars with a reduction law,
`approximate` digests with up to two companion channels, and `packed` composition
words whose divisor is the `of` digest. A slab is one array of cells; its extent is
the caller's, and cells beyond it are not looked at.
-/
namespace Zagg.Stage

open Zagg.Stats

variable {V N : Type}

/-- What numpy fixes for an exact field's dtype: the reductions with their
identities, and which value is NaN. -/
structure Dtype (V : Type) where
  isNan : V → Bool
  add : V → V → V
  minimum : V → V → V
  maximum : V → V → V
  zero : V
  top : V
  bot : V

/-- Numbers with sums; nothing is NaN. -/
def natDtype : Dtype Nat := ⟨fun _ => false, (· + ·), min, max, 0, 0, 0⟩

inductive Law
  | sum
  | min
  | max
deriving DecidableEq

inductive FieldMeta (V N : Type)
  | exact (dtype : Dtype V) (law : Law) (fill : V)
  | approximate (delta : Nat) (location temporal : Bool)
  | packed (of : N)

/-- `meta["class"]`. -/
inductive FieldClass
  | exact
  | approximate
  | packed
deriving DecidableEq

def FieldMeta.cls : FieldMeta V N → FieldClass
  | .exact _ _ _ => .exact
  | .approximate _ _ _ => .approximate
  | .packed _ => .packed

/-- A declaration, in its own order. -/
abbrev Fields (V N : Type) := List (N × FieldMeta V N)

/-- The arrays of one resolution group. -/
inductive ArrayKey (N : Type)
  | exact (name : N)
  | digest (name : N)
  | sibling (name : N) (channel : Channel)
  | packed (name : N)
deriving DecidableEq

abbrev ArrayKey.Cell (V : Type) : ArrayKey N → Type
  | .exact _ => V
  | .digest _ => Digest
  | .sibling _ _ => Words
  | .packed _ => Word

abbrev Slab (V : Type) (k : ArrayKey N) := Nat → k.Cell V

/-- `field_companions`: the declared channels, in kernel order. -/
def FieldMeta.companions : FieldMeta V N → List Channel
  | .approximate _ location temporal =>
    (if location then [.locations] else []) ++ (if temporal then [.temporal] else [])
  | _ => []

def FieldMeta.key (name : N) : FieldMeta V N → ArrayKey N
  | .exact _ _ _ => .exact name
  | .approximate _ _ _ => .digest name
  | .packed _ => .packed name

/-- A field's arrays: its own, then its siblings. -/
def FieldMeta.keys (name : N) (m : FieldMeta V N) : List (ArrayKey N) :=
  m.key name :: m.companions.map (.sibling name)

def Fields.keys (fields : Fields V N) : List (ArrayKey N) := fields.flatMap fun f => f.2.keys f.1

section Exact
variable [DecidableEq V]

/-- `_is_missing`: the fill sentinel and NaN. -/
def isMissing (d : Dtype V) (fill v : V) : Bool := d.isNan v || v = fill

def Law.reduce (d : Dtype V) : Law → V → V → V
  | .sum => d.add
  | .min => d.minimum
  | .max => d.maximum

def Law.identity (d : Dtype V) : Law → V
  | .sum => d.zero
  | .min => d.top
  | .max => d.bot

/-- One group of `fold_dense`: missing cells leave the reduction, and a group of
nothing else folds back to the fill. -/
def foldGroup (d : Dtype V) (law : Law) (fill : V) (group : List V) : V :=
  if group.all (isMissing d fill) then fill
  else
    (group.map fun v => if isMissing d fill v then law.identity d else v).foldl
      (law.reduce d) (law.identity d)

/-- Fold a slab `factor`-to-one. -/
def foldDense (d : Dtype V) (law : Law) (fill : V) (factor : Nat) (values : Nat → V) : Nat → V :=
  fun j => foldGroup d law fill ((List.range factor).map fun t => values (j * factor + t))

/-- Interleave two partial folds and fold them 2-to-one. -/
def combineDense (d : Dtype V) (law : Law) (fill : V) (a b : Nat → V) : Nat → V :=
  foldDense d law fill 2 fun i => if i % 2 = 0 then a (i / 2) else b (i / 2)

end Exact

/-- `slab[i * span : (i + 1) * span] = values`, when there are values. -/
def assignSegment {α : Type} (i span : Nat) (values : Option (Nat → α)) (slab : Nat → α) :
    Nat → α :=
  match values with
  | none => slab
  | some v => fun j => if i * span ≤ j ∧ j < (i + 1) * span then v (j - i * span) else slab j

/-- A stored digest's total weight, rounded to the count it stores. -/
def payloadWeight (d : Digest) : Nat := (rint (d.map Centroid.weight).sum).toNat

section
variable [DecidableEq N] [Inhabited V]

/-- The arrays of a level under one declaration. -/
abbrev Slabs (V N : Type) := (k : ArrayKey N) → Slab V k

/-- `_empty_slab` of every array: empty payloads, the declared fill, the zero word. -/
def emptySlabs (fields : Fields V N) : Slabs V N
  | .exact name => fun _ =>
    match fields.lookup name with
    | some (.exact _ _ fill) => fill
    | _ => (default : V)
  | .digest _ => fun _ => ([] : Digest)
  | .sibling _ _ => fun _ => ([] : Words)
  | .packed _ => fun _ => (0 : Word)

def Slabs.assign (slabs : Slabs V N) (k : ArrayKey N) (i span : Nat)
    (values : Option (Slab V k)) : Slabs V N :=
  Function.update slabs k (assignSegment i span values (slabs k))

omit [Inhabited V] in
@[simp] theorem assign_self (slabs : Slabs V N) (k : ArrayKey N) (i span : Nat)
    (values : Option (Slab V k)) :
    slabs.assign k i span values k = assignSegment i span values (slabs k) :=
  Function.update_self ..

omit [Inhabited V] in
theorem assign_of_ne (slabs : Slabs V N) {k k' : ArrayKey N} (h : k' ≠ k) (i span : Nat)
    (values : Option (Slab V k)) : slabs.assign k i span values k' = slabs k' :=
  Function.update_of_ne h ..

end

end Zagg.Stage
