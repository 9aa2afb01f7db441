import Mathlib.Data.Char
import Mathlib.Data.List.Lex
import Mathlib.Data.List.Sort
import Mathlib.Data.List.Dedup
import Zagg.Lib.Digits

/-!
# Morton decimals

A node of the store's digit tree is a base cell of one of the two hemispheres and a
digit path below it. `order` is the length of the path, `ancestor` drops its last
digit and `child` appends one. The printed form carries the sign, the base digit and
the path with digits `1..4`; `sorted` orders decimals by it.
-/
namespace Zagg.Sweep

open Zagg.Lib

/-- The `{sign+base}` component of a decimal id. -/
structure Base where
  south : Bool
  cell : Fin 6
deriving DecidableEq

theorem Base.cell_pos : 0 < 6 := by decide

/-- A decimal id; the digit `i` prints as `i + 1`. -/
structure Decimal where
  base : Base
  digits : List (Fin 4)
deriving DecidableEq

namespace Decimal

theorem digit_pos : 0 < 4 := by decide

theorem one_lt_digits : 1 < 4 := by decide

def digitChar {n : Nat} (i : Fin n) : Char := Char.ofNat (49 + i.val)

def chars (d : Decimal) : List Char :=
  (if d.base.south then ['-'] else []) ++ digitChar d.base.cell :: d.digits.map digitChar

instance : ToString Decimal := ⟨fun d => String.ofList d.chars⟩

def order (d : Decimal) : Nat := d.digits.length

def ofBase (b : Base) : Decimal := ⟨b, []⟩

/-- The parent prefix, `none` at a base component. -/
def ancestor (d : Decimal) : Option Decimal :=
  if d.digits = [] then none else some { d with digits := d.digits.dropLast }

def child (d : Decimal) (g : Fin 4) : Decimal := { d with digits := d.digits ++ [g] }

def children (d : Decimal) : List Decimal := (List.finRange 4).map d.child

/-- `d ++ t`: the node at digit path `t` under `d`. -/
def extend (d : Decimal) (t : List (Fin 4)) : Decimal := { d with digits := d.digits ++ t }

/-- The order-`k` prefix. -/
def nodeAt (d : Decimal) (k : Nat) : Decimal := { d with digits := d.digits.take k }

def startsWith (d a : Decimal) : Bool := decide (a.base = d.base) && a.digits.isPrefixOf d.digits

/-- Base-4 value of the digit tail. -/
def decimalRank (d : Decimal) : Nat := Digits.rank d.digits

def sorted (ds : List Decimal) : List Decimal :=
  ds.dedup.insertionSort fun a b => a.chars ≤ b.chars

@[simp] theorem mem_sorted {ds : List Decimal} {d : Decimal} : d ∈ sorted ds ↔ d ∈ ds := by
  rw [sorted, List.mem_insertionSort, List.mem_dedup]

theorem nodup_sorted (ds : List Decimal) : (sorted ds).Nodup :=
  (List.perm_insertionSort _ _).nodup_iff.mpr ds.nodup_dedup

@[simp] theorem order_child (d : Decimal) (g : Fin 4) : (d.child g).order = d.order + 1 :=
  List.length_append

@[simp] theorem order_ofBase (b : Base) : (ofBase b).order = 0 := rfl

theorem order_extend (d : Decimal) (t : List (Fin 4)) : (d.extend t).order = d.order + t.length :=
  List.length_append

theorem order_nodeAt (d : Decimal) (k : Nat) : (d.nodeAt k).order = min k d.order :=
  List.length_take

@[simp] theorem ancestor_child (d : Decimal) (g : Fin 4) : (d.child g).ancestor = some d := by
  simp [ancestor, child]

@[simp] theorem ancestor_ofBase (b : Base) : (ofBase b).ancestor = none := rfl

theorem ancestor_eq_some {d a : Decimal} : d.ancestor = some a ↔ ∃ g, d = a.child g := by
  refine ⟨fun h => ?_, fun ⟨g, hg⟩ => by rw [hg, ancestor_child]⟩
  unfold ancestor at h
  split at h
  · cases h
  · next hne =>
    obtain rfl := Option.some.inj h
    refine ⟨d.digits.getLast hne, ?_⟩
    rw [child, List.dropLast_append_getLast hne]

theorem mem_children {d c : Decimal} : c ∈ d.children ↔ ∃ g, c = d.child g := by
  simp [children, eq_comm]

theorem ne_of_mem_children {d c : Decimal} (h : c ∈ d.children) : c ≠ d := by
  obtain ⟨g, rfl⟩ := mem_children.mp h
  intro he
  have ho := congrArg order he
  rw [order_child] at ho
  omega

theorem startsWith_iff {d a : Decimal} : d.startsWith a = true ↔ ∃ t, d = a.extend t := by
  simp only [startsWith, Bool.and_eq_true, decide_eq_true_eq, List.isPrefixOf_iff_prefix]
  constructor
  · rintro ⟨hb, t, ht⟩
    exact ⟨t, by rw [extend, ht, hb]⟩
  · rintro ⟨t, rfl⟩
    exact ⟨rfl, t, rfl⟩

theorem startsWith_refl (d : Decimal) : d.startsWith d = true :=
  startsWith_iff.mpr ⟨[], congrArg (Decimal.mk d.base) (List.append_nil _).symm⟩

theorem startsWith_nodeAt (d : Decimal) (k : Nat) : d.startsWith (d.nodeAt k) = true :=
  startsWith_iff.mpr ⟨d.digits.drop k, congrArg (Decimal.mk d.base) (List.take_append_drop _ _).symm⟩

theorem extend_extend (d : Decimal) (s t : List (Fin 4)) :
    (d.extend s).extend t = d.extend (s ++ t) :=
  congrArg (Decimal.mk d.base) (List.append_assoc _ _ _)

theorem child_eq_extend (d : Decimal) (g : Fin 4) : d.child g = d.extend [g] := rfl

theorem startsWith_trans {a b c : Decimal} (h : c.startsWith b = true)
    (h' : b.startsWith a = true) : c.startsWith a = true := by
  obtain ⟨t, rfl⟩ := startsWith_iff.mp h'
  obtain ⟨u, rfl⟩ := startsWith_iff.mp h
  exact startsWith_iff.mpr ⟨t ++ u, extend_extend a t u⟩

theorem startsWith_of_mem_children {d c : Decimal} (h : c ∈ d.children) :
    c.startsWith d = true := by
  obtain ⟨g, rfl⟩ := mem_children.mp h
  exact startsWith_iff.mpr ⟨[g], rfl⟩

/-- A prefix at order at least `k` has the same order-`k` prefix. -/
theorem nodeAt_of_startsWith {d a : Decimal} {k : Nat} (h : d.startsWith a = true)
    (hk : k ≤ a.order) : d.nodeAt k = a.nodeAt k := by
  obtain ⟨t, rfl⟩ := startsWith_iff.mp h
  simp [nodeAt, extend, List.take_append_of_le_length (show k ≤ a.digits.length from hk)]

end Decimal

end Zagg.Sweep
