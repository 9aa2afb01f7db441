import Mathlib.Algebra.Order.Ring.Nat
import Mathlib.Data.List.Pairwise
import Mathlib.Data.Nat.Basic
import Mathlib.Order.Nat
import Mathlib.Tactic.Common

/-!
# Maximal runs of consecutive entries

One linear pass over a list cuts it where an entry does not follow the one before it, and
keeps each run's ends. Of an increasing list of numbers these are its maximal intervals. The
instants of an interval meet consecutive buckets of `2 ^ k` instants, numbered by `t / 2 ^ k`.
-/
namespace Zagg.Lib

universe u v

variable {α : Type u} {β : Type v}

def runsFrom (next : α → α → Bool) (start prev : α) : List α → List (α × α)
  | [] => [(start, prev)]
  | x :: xs =>
    if next prev x then runsFrom next start x xs else (start, prev) :: runsFrom next x x xs

/-- The ends of the maximal runs. -/
def runEnds (next : α → α → Bool) : List α → List (α × α)
  | [] => []
  | x :: xs => runsFrom next x x xs

theorem runsFrom_map (f : α → β) {next : α → α → Bool} {next' : β → β → Bool}
    (h : ∀ a b, next' (f a) (f b) = next a b) (s p : α) (l : List α) :
    runsFrom next' (f s) (f p) (l.map f) = (runsFrom next s p l).map (Prod.map f f) := by
  induction l generalizing s p with
  | nil => rfl
  | cons x l ih =>
    rw [List.map_cons, runsFrom, runsFrom, h]
    split_ifs
    · exact ih s x
    · rw [ih x x, List.map_cons]
      rfl

theorem runEnds_map (f : α → β) {next : α → α → Bool} {next' : β → β → Bool}
    (h : ∀ a b, next' (f a) (f b) = next a b) (l : List α) :
    runEnds next' (l.map f) = (runEnds next l).map (Prod.map f f) := by
  cases l with
  | nil => rfl
  | cons x l => exact runsFrom_map f h x x l

def follows (a b : Nat) : Bool := b = a + 1

/-- The numbers of an interval. -/
def interval (r : Nat × Nat) : List Nat := List.range' r.1 (r.2 + 1 - r.1)

@[simp] theorem mem_interval {r : Nat × Nat} {n : Nat} : n ∈ interval r ↔ r.1 ≤ n ∧ n ≤ r.2 := by
  rw [interval, List.mem_range'_1]
  omega

theorem interval_concat {s p : Nat} (h : s ≤ p) : interval (s, p + 1) = interval (s, p) ++ [p + 1] := by
  have hlen : p + 1 + 1 - s = (p + 1 - s) + 1 := by omega
  have hlast : s + (p + 1 - s) = p + 1 := by omega
  rw [interval, interval, hlen, List.range'_1_concat, hlast]

/-- The runs of an increasing list cover it in order and leave a gap after each. -/
theorem runsFrom_spec {s p : Nat} {l : List Nat} (hsp : s ≤ p) (h : (p :: l).Pairwise (· < ·)) :
    (runsFrom follows s p l).flatMap interval = interval (s, p) ++ l ∧
      (runsFrom follows s p l).Pairwise (fun a b => a.2 + 1 < b.1) ∧
      ∀ r ∈ runsFrom follows s p l, s ≤ r.1 ∧ r.1 ≤ r.2 := by
  induction l generalizing s p with
  | nil =>
    refine ⟨?_, List.pairwise_singleton _ _, fun r hr => ?_⟩
    · rw [runsFrom, List.flatMap_singleton, List.append_nil]
    · rw [List.mem_singleton.mp hr]
      exact ⟨le_rfl, hsp⟩
  | cons x l ih =>
    obtain ⟨hp, htail⟩ := List.pairwise_cons.mp h
    have hpx := hp x (.head _)
    rw [runsFrom]
    split_ifs with hnext
    · obtain rfl : x = p + 1 := of_decide_eq_true hnext
      obtain ⟨hcover, happart, hbounds⟩ := ih (by omega : s ≤ p + 1) htail
      refine ⟨?_, happart, hbounds⟩
      rw [hcover, interval_concat hsp, List.append_assoc, List.singleton_append]
    · obtain ⟨hcover, happart, hbounds⟩ := ih (le_refl x) htail
      have hgap : p + 1 < x := by
        have hne : x ≠ p + 1 := fun heq => hnext (decide_eq_true heq)
        omega
      have hone : interval (x, x) = [x] := by
        have hlen : x + 1 - x = 1 := by omega
        rw [interval, hlen, List.range'_one]
      refine ⟨?_, List.pairwise_cons.mpr ⟨fun r hr => ?_, happart⟩, fun r hr => ?_⟩
      · rw [List.flatMap_cons, hcover, hone, List.singleton_append]
      · exact hgap.trans_le (hbounds r hr).1
      · rcases List.mem_cons.mp hr with rfl | hr
        · exact ⟨le_rfl, hsp⟩
        · have hr := hbounds r hr
          exact ⟨by omega, hr.2⟩

theorem runEnds_spec {l : List Nat} (h : l.Pairwise (· < ·)) :
    (runEnds follows l).flatMap interval = l ∧
      (runEnds follows l).Pairwise (fun a b => a.2 + 1 < b.1) ∧
      ∀ r ∈ runEnds follows l, r.1 ≤ r.2 := by
  cases l with
  | nil => exact ⟨rfl, .nil, nofun⟩
  | cons x l =>
    obtain ⟨hcover, happart, hbounds⟩ := runsFrom_spec (le_refl x) h
    refine ⟨?_, happart, fun r hr => (hbounds r hr).2⟩
    have hone : interval (x, x) = [x] := by
      have hlen : x + 1 - x = 1 := by omega
      rw [interval, hlen, List.range'_one]
    rw [runEnds, hcover, hone, List.singleton_append]

theorem mem_runEnds {l : List Nat} (h : l.Pairwise (· < ·)) (n : Nat) :
    n ∈ l ↔ ∃ r ∈ runEnds follows l, r.1 ≤ n ∧ n ≤ r.2 := by
  have hcover := (runEnds_spec h).1
  calc n ∈ l ↔ n ∈ (runEnds follows l).flatMap interval := by rw [hcover]
    _ ↔ ∃ r ∈ runEnds follows l, r.1 ≤ n ∧ n ≤ r.2 := by
      simp only [List.mem_flatMap, mem_interval]

/-- No run can be extended. -/
theorem runEnds_maximal {l : List Nat} (h : l.Pairwise (· < ·)) {r : Nat × Nat}
    (hr : r ∈ runEnds follows l) : r.2 + 1 ∉ l ∧ ∀ n, n + 1 = r.1 → n ∉ l := by
  obtain ⟨-, happart, hbounds⟩ := runEnds_spec h
  have hpair : ∀ r' ∈ runEnds follows l, r' = r ∨ r'.2 + 1 < r.1 ∨ r.2 + 1 < r'.1 := by
    intro r' hr'
    by_cases heq : r' = r
    · exact .inl heq
    · have happart' : (runEnds follows l).Pairwise fun a b => a.2 + 1 < b.1 ∨ b.2 + 1 < a.1 :=
        happart.imp .inl
      have : Std.Symm fun a b : Nat × Nat => a.2 + 1 < b.1 ∨ b.2 + 1 < a.1 := ⟨fun _ _ => Or.symm⟩
      exact .inr (happart'.forall hr' hr heq)
  have hle := hbounds r hr
  constructor
  · intro hn
    obtain ⟨r', hr', h1, h2⟩ := (mem_runEnds h _).mp hn
    have hle' := hbounds r' hr'
    rcases hpair r' hr' with rfl | hlt | hlt <;> omega
  · intro n hn hmemn
    obtain ⟨r', hr', h1, h2⟩ := (mem_runEnds h _).mp hmemn
    have hle' := hbounds r' hr'
    rcases hpair r' hr' with rfl | hlt | hlt <;> omega

/-! ## Aligned buckets -/

theorem bucket_coarsen {k k' t t' : Nat} (hk : k ≤ k') (h : t / 2 ^ k = t' / 2 ^ k) :
    t / 2 ^ k' = t' / 2 ^ k' := by
  obtain ⟨d, rfl⟩ := Nat.exists_eq_add_of_le hk
  rw [Nat.pow_add, ← Nat.div_div_eq_div_mul, ← Nat.div_div_eq_div_mul, h]

/-- An interval meets the buckets from its first instant's to its last one's. -/
theorem exists_in_bucket {start stop k b : Nat} (h : start < stop) :
    (∃ t, start ≤ t ∧ t < stop ∧ t / 2 ^ k = b) ↔ start / 2 ^ k ≤ b ∧ b ≤ (stop - 1) / 2 ^ k := by
  constructor
  · rintro ⟨t, hstart, hstop, rfl⟩
    exact ⟨Nat.div_le_div_right hstart, Nat.div_le_div_right (by omega)⟩
  · intro ⟨hlo, hhi⟩
    have hpos : 0 < 2 ^ k := Nat.two_pow_pos k
    have hlast : b * 2 ^ k ≤ stop - 1 := (Nat.le_div_iff_mul_le hpos).mp hhi
    by_cases hin : start ≤ b * 2 ^ k
    · exact ⟨b * 2 ^ k, hin, by omega, Nat.mul_div_cancel b hpos⟩
    · have hb : b ≤ start / 2 ^ k := (Nat.le_div_iff_mul_le hpos).mpr (by omega)
      exact ⟨start, le_rfl, h, le_antisymm hlo hb⟩

end Zagg.Lib
