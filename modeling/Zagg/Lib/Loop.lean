import Mathlib.Logic.Function.Iterate
import Mathlib.Order.Nat
import Mathlib.Tactic.Common

/-!
# `while` loops

A loop is given a number of rounds and reports when they are not enough, so that a result is
always the one of a loop that ended by its own test. Enough rounds exist as soon as some iterate
of the body fails the test.
-/
namespace Zagg.Lib

universe u

variable {σ : Type u}

/-- `while cond: body`, within `fuel` rounds of which the last only tests. -/
def whileLoop (cond : σ → Bool) (body : σ → σ) : Nat → σ → Option σ
  | 0, _ => none
  | fuel + 1, s => if cond s then whileLoop cond body fuel (body s) else some s

variable {cond : σ → Bool} {body : σ → σ}

/-- A loop whose test holds for `k` rounds and then fails. -/
theorem whileLoop_iterate {k fuel : Nat} {s : σ} (hfuel : k < fuel)
    (hrun : ∀ j < k, cond (body^[j] s) = true) (hstop : cond (body^[k] s) = false) :
    whileLoop cond body fuel s = some (body^[k] s) := by
  induction k generalizing fuel s with
  | zero =>
    obtain ⟨fuel, rfl⟩ := Nat.exists_eq_succ_of_ne_zero hfuel.ne'
    have hstop : cond s = false := hstop
    rw [whileLoop, hstop]
    rfl
  | succ k ih =>
    obtain ⟨fuel, rfl⟩ := Nat.exists_eq_succ_of_ne_zero (Nat.zero_lt_of_lt hfuel).ne'
    have hfirst : cond s = true := hrun 0 (Nat.succ_pos k)
    rw [whileLoop, if_pos hfirst, Function.iterate_succ_apply]
    apply ih
    · exact Nat.lt_of_succ_lt_succ hfuel
    · intro j hj
      have hnext := hrun (j + 1) (Nat.succ_lt_succ hj)
      rwa [Function.iterate_succ_apply] at hnext
    · rwa [Function.iterate_succ_apply] at hstop

variable (cond) in
/-- A loop that some iterate of the body ends. -/
theorem exists_whileLoop {s : σ} (h : ∃ k, cond (body^[k] s) = false) :
    ∃ k, cond (body^[k] s) = false ∧ (∀ j < k, cond (body^[j] s) = true) ∧
      ∀ fuel, k < fuel → whileLoop cond body fuel s = some (body^[k] s) := by
  have hstop := Nat.find_spec h
  have hrun : ∀ j < Nat.find h, cond (body^[j] s) = true := by
    intro j hj
    have hnot := Nat.find_min h hj
    exact Bool.not_eq_false _ |>.mp hnot
  exact ⟨Nat.find h, hstop, hrun, fun fuel hfuel => whileLoop_iterate hfuel hrun hstop⟩

/-- A number of rounds that is enough for each of finitely many. -/
theorem exists_enough {α : Type*} {l : List α} {P : α → Nat → Prop}
    (h : ∀ s ∈ l, ∃ enough, ∀ fuel, enough ≤ fuel → P s fuel) :
    ∃ enough, ∀ fuel, enough ≤ fuel → ∀ s ∈ l, P s fuel := by
  induction l with
  | nil => exact ⟨0, fun _ _ s hs => by cases hs⟩
  | cons s l ih =>
    obtain ⟨enough, hs⟩ := h s (.head _)
    obtain ⟨enough', hl⟩ := ih fun s' hs' => h s' (.tail _ hs')
    refine ⟨max enough enough', fun fuel hfuel s' hs' => ?_⟩
    cases List.mem_cons.mp hs' with
    | inl heq =>
      rw [heq]
      exact hs fuel (by omega)
    | inr htail => exact hl fuel (by omega) s' htail

end Zagg.Lib
