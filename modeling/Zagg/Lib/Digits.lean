import Mathlib.Data.List.Induction
import Mathlib.Data.Fin.Basic
import Mathlib.Tactic.Ring

/-!
# Digit strings in a fixed base

`rank` reads a big-endian digit string as a number. Splitting a string splits its rank,
and every number below the power has a string of its width.
-/
namespace Zagg.Lib.Digits

variable {b : Nat}

def rank (ds : List (Fin b)) : Nat := ds.foldl (fun r d => r * b + d.val) 0

theorem foldl_eq (ds : List (Fin b)) : ∀ r : Nat,
    ds.foldl (fun r d => r * b + d.val) r = r * b ^ ds.length + rank ds := by
  induction ds with
  | nil => intro r; simp [rank]
  | cons d ds ih =>
    intro r
    have h0 := ih (0 * b + d.val)
    rw [rank, List.foldl_cons, List.foldl_cons, ih, h0, List.length_cons, pow_succ]
    ring

@[simp] theorem rank_nil : rank ([] : List (Fin b)) = 0 := rfl

theorem rank_append (ds es : List (Fin b)) :
    rank (ds ++ es) = rank ds * b ^ es.length + rank es := by
  rw [rank, List.foldl_append, foldl_eq]
  rfl

@[simp] theorem rank_singleton (d : Fin b) : rank [d] = d.val := by simp [rank]

theorem rank_concat (ds : List (Fin b)) (d : Fin b) : rank (ds ++ [d]) = rank ds * b + d.val := by
  rw [rank_append, rank_singleton, List.length_singleton, pow_one]

theorem rank_cons (d : Fin b) (ds : List (Fin b)) :
    rank (d :: ds) = d.val * b ^ ds.length + rank ds := by
  rw [← List.singleton_append, rank_append, rank_singleton]

theorem rank_lt (ds : List (Fin b)) : rank ds < b ^ ds.length := by
  induction ds with
  | nil => simp
  | cons d ds ih =>
    rw [rank_cons, List.length_cons, pow_succ']
    calc d.val * b ^ ds.length + rank ds
        < d.val * b ^ ds.length + b ^ ds.length := Nat.add_lt_add_left ih _
      _ = (d.val + 1) * b ^ ds.length := by ring
      _ ≤ b * b ^ ds.length := Nat.mul_le_mul_right _ d.isLt

/-- At one width a string is determined by its rank. -/
theorem rank_inj {ds es : List (Fin b)} (hl : ds.length = es.length) (h : rank ds = rank es) :
    ds = es := by
  induction ds generalizing es with
  | nil => exact (List.length_eq_zero_iff.mp hl.symm).symm
  | cons d ds ih =>
    cases es with
    | nil => simp at hl
    | cons e es =>
      have hl' : ds.length = es.length := by simpa using hl
      rw [rank_cons, rank_cons, hl'] at h
      have hd := rank_lt ds
      have he := rank_lt es
      rw [hl'] at hd
      have hpos : 0 < b ^ es.length := by omega
      have hdiv := congrArg (· / b ^ es.length) h
      simp only [Nat.mul_comm _ (b ^ es.length), Nat.mul_add_div hpos,
        Nat.div_eq_of_lt hd, Nat.div_eq_of_lt he, Nat.add_zero] at hdiv
      have hde : d = e := Fin.ext hdiv
      subst hde
      rw [ih hl' (by omega)]

/-- Every number below `b ^ n` is the rank of a string of width `n`. -/
theorem exists_rank_eq {n r : Nat} (h : r < b ^ n) :
    ∃ ds : List (Fin b), ds.length = n ∧ rank ds = r := by
  induction n generalizing r with
  | zero => exact ⟨[], rfl, (Nat.lt_one_iff.mp h).symm⟩
  | succ n ih =>
    have hb : 0 < b := by
      rcases Nat.eq_zero_or_pos b with rfl | hb
      · exact absurd h (by simp)
      · exact hb
    have hq : r / b < b ^ n := Nat.div_lt_of_lt_mul (by rwa [pow_succ'] at h)
    obtain ⟨ds, hlen, hrank⟩ := ih hq
    refine ⟨ds ++ [⟨r % b, Nat.mod_lt r hb⟩], ?_, ?_⟩
    · rw [List.length_append, List.length_singleton, hlen]
    · rw [rank_concat, hrank]
      exact Nat.div_add_mod' r b

end Zagg.Lib.Digits
