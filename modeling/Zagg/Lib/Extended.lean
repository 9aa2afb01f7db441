import Mathlib.Algebra.Order.Field.Basic

/-!
# Exact numbers with the exceptional values of a float

The arithmetic and the comparison of IEEE numbers with no rounding: a finite result is the exact
one, and the infinities and the not-a-number value pass through as they do in the floats.
-/
namespace Zagg.Lib

universe u v

/-- A number, an infinity or no number at all. -/
inductive Extended (K : Type u)
  | nan
  | inf (negative : Bool)
  | fin (x : K)
deriving DecidableEq

namespace Extended
variable {K : Type u} [Field K] [LinearOrder K]

def neg : Extended K → Extended K
  | nan => nan
  | inf negative => inf (!negative)
  | fin x => fin (-x)

def add : Extended K → Extended K → Extended K
  | nan, _ => nan
  | _, nan => nan
  | inf negative, inf negative' => if negative = negative' then inf negative else nan
  | inf negative, fin _ => inf negative
  | fin _, inf negative => inf negative
  | fin x, fin y => fin (x + y)

/-- An infinity times a number: no number at zero, and the sign of the product elsewhere. -/
def scaleInf (negative : Bool) (x : K) : Extended K :=
  if x = 0 then nan else inf (negative != decide (x < 0))

def mul : Extended K → Extended K → Extended K
  | nan, _ => nan
  | _, nan => nan
  | inf negative, inf negative' => inf (negative != negative')
  | inf negative, fin x => scaleInf negative x
  | fin x, inf negative => scaleInf negative x
  | fin x, fin y => fin (x * y)

/-- `<=`; a comparison with no number is false. -/
def le : Extended K → Extended K → Bool
  | nan, _ => false
  | _, nan => false
  | inf negative, inf negative' => negative || !negative'
  | inf negative, fin _ => negative
  | fin _, inf negative => !negative
  | fin x, fin y => decide (x ≤ y)

instance : Neg (Extended K) := ⟨neg⟩
instance : Add (Extended K) := ⟨add⟩
instance : Sub (Extended K) := ⟨fun a b => a + -b⟩
instance : Mul (Extended K) := ⟨mul⟩
instance : LE (Extended K) := ⟨fun a b => le a b = true⟩
instance (a b : Extended K) : Decidable (a ≤ b) := inferInstanceAs (Decidable (le a b = true))

section Finite
variable {K : Type v} (x y : K)

@[simp]
theorem fin_sub_fin [Field K] : (fin x - fin y : Extended K) = fin (x - y) := by
  rw [sub_eq_add_neg]
  rfl

@[simp]
theorem fin_add_fin [Field K] : (fin x + fin y : Extended K) = fin (x + y) := rfl

@[simp]
theorem fin_mul_fin [Field K] [LinearOrder K] : (fin x * fin y : Extended K) = fin (x * y) := rfl

@[simp]
theorem fin_le_fin [LinearOrder K] : (fin x ≤ fin y) ↔ x ≤ y := decide_eq_true_iff

end Finite

end Extended

end Zagg.Lib
