import Mathlib.Algebra.Order.Ring.Cast
import Mathlib.Data.List.GetD
import Mathlib.Data.List.TakeWhile

/-!
# Greedy cuts

A list of right edges is cut into runs: from its left edge a run takes every following edge
within one unit, and at least its first. Runs are never empty, a run of two edges or more
spans at most one unit, and two runs in a row span more than one.
-/
namespace Zagg.Lib

universe u

variable {K : Type u} {α : Type u}

section Search
variable [LinearOrder K]

/-- How many leading entries are at most `v`: where `v` goes in a sorted list, on the right. -/
def searchsorted (right : List K) (v : K) : Nat := (right.takeWhile (· ≤ v)).length

theorem searchsorted_cons (k : K) (right : List K) (v : K) :
    searchsorted (k :: right) v = if k ≤ v then searchsorted right v + 1 else 0 := by
  rw [searchsorted, List.takeWhile_cons]
  simp only [decide_eq_true_eq]
  split_ifs <;> rfl

theorem searchsorted_le_length (right : List K) (v : K) : searchsorted right v ≤ right.length :=
  (List.takeWhile_sublist _).length_le

variable [Zero K]

theorem le_of_lt_searchsorted {right : List K} {v : K} {i : Nat} (h : i < searchsorted right v) :
    right.getD i 0 ≤ v := by
  induction right generalizing i with
  | nil => exact absurd h (Nat.not_lt_zero i)
  | cons k right ih =>
    rw [searchsorted_cons] at h
    split_ifs at h with hk
    · cases i with
      | zero => exact hk
      | succ i => exact ih (Nat.lt_of_succ_lt_succ h)
    · exact absurd h (Nat.not_lt_zero i)

theorem lt_of_searchsorted_lt {right : List K} {v : K} (h : searchsorted right v < right.length) :
    v < right.getD (searchsorted right v) 0 := by
  induction right with
  | nil => exact absurd h (Nat.not_lt_zero _)
  | cons k right ih =>
    rw [searchsorted_cons] at h ⊢
    split_ifs at h ⊢ with hk
    · exact ih (Nat.lt_of_succ_lt_succ h)
    · exact not_le.mp hk

theorem getD_le_getD {right : List K} (h : right.Pairwise (· ≤ ·)) {i j : Nat} (hij : i ≤ j)
    (hj : j < right.length) : right.getD i 0 ≤ right.getD j 0 := by
  rw [List.getD_eq_getElem _ _ (hij.trans_lt hj), List.getD_eq_getElem _ _ hj]
  rcases Nat.lt_or_eq_of_le hij with hlt | rfl
  · exact List.pairwise_iff_getElem.mp h i j (hlt.trans hj) hj hlt
  · exact le_rfl

end Search

section Cut
variable [LinearOrder K] [Add K] [One K] [Zero K] (left0 : K) (right : List K)

/-- The left edge of a run that starts at `s`. -/
def leftEdge (s : Nat) : K := if s = 0 then left0 else right.getD (s - 1) 0

/-- Where the run that starts at `s` ends. -/
def cutEnd (s : Nat) : Nat :=
  let e := searchsorted right (leftEdge left0 right s + 1)
  if e ≤ s then s + 1 else e

theorem lt_cutEnd (s : Nat) : s < cutEnd left0 right s := by
  unfold cutEnd
  dsimp only
  split_ifs <;> omega

/-- The starts of the runs from `s` on. -/
def cuts (s : Nat) : List Nat :=
  if s < right.length then s :: cuts (cutEnd left0 right s) else []
termination_by right.length - s
decreasing_by
  have := lt_cutEnd left0 right s
  omega

theorem cuts_of_lt {s : Nat} (h : s < right.length) :
    cuts left0 right s = s :: cuts left0 right (cutEnd left0 right s) := by
  rw [cuts, if_pos h]

theorem cuts_of_ge {s : Nat} (h : right.length ≤ s) : cuts left0 right s = [] := by
  rw [cuts, if_neg (Nat.not_lt.mpr h)]

theorem cutEnd_le {s : Nat} (h : s < right.length) : cutEnd left0 right s ≤ right.length := by
  have hle := searchsorted_le_length right (leftEdge left0 right s + 1)
  unfold cutEnd
  dsimp only
  split_ifs <;> omega

theorem le_of_mem_cuts (s : Nat) : ∀ i ∈ cuts left0 right s, s ≤ i ∧ i < right.length := by
  induction s using cuts.induct left0 right with
  | case1 s hs ih =>
    rw [cuts_of_lt left0 right hs]
    intro i hi
    rcases List.mem_cons.mp hi with rfl | hi
    · exact ⟨le_rfl, hs⟩
    · have hnext := ih i hi
      have hlt := lt_cutEnd left0 right s
      omega
  | case2 s hs =>
    rw [cuts_of_ge left0 right (Nat.not_lt.mp hs)]
    exact nofun

theorem pairwise_cuts (s : Nat) : (cuts left0 right s).Pairwise (· < ·) := by
  induction s using cuts.induct left0 right with
  | case1 s hs ih =>
    rw [cuts_of_lt left0 right hs]
    refine List.pairwise_cons.mpr ⟨fun i hi => ?_, ih⟩
    have hnext := le_of_mem_cuts left0 right _ i hi
    have hlt := lt_cutEnd left0 right s
    omega
  | case2 s hs =>
    rw [cuts_of_ge left0 right (Nat.not_lt.mp hs)]
    exact .nil

/-- Every edge within one unit of its predecessor's left edge cuts singletons. -/
theorem cuts_of_steep (h : ∀ s, s + 1 < right.length → leftEdge left0 right s + 1 < right.getD (s + 1) 0)
    (s : Nat) : cuts left0 right s = List.range' s (right.length - s) := by
  induction s using cuts.induct left0 right with
  | case1 s hs ih =>
    have hend : cutEnd left0 right s = s + 1 := by
      unfold cutEnd
      dsimp only
      split_ifs with hle
      · rfl
      · by_contra hne
        have hlen : s + 1 < searchsorted right (leftEdge left0 right s + 1) := by omega
        have hlt := hlen.trans_le (searchsorted_le_length right _)
        exact absurd (le_of_lt_searchsorted hlen) (not_le.mpr (h s hlt))
    rw [cuts_of_lt left0 right hs, ih, hend]
    have hn : right.length - s = right.length - (s + 1) + 1 := by omega
    rw [hn, List.range'_succ]
  | case2 s hs =>
    have hn : right.length - s = 0 := by omega
    rw [cuts_of_ge left0 right (Nat.not_lt.mp hs), hn, List.range'_zero]

end Cut

/-- The parts of a list between consecutive starts. -/
def pieces (l : List α) : List Nat → List (List α)
  | [] => []
  | [s] => [l.drop s]
  | s :: e :: ss => (l.drop s).take (e - s) :: pieces l (e :: ss)

theorem length_pieces (l : List α) (ss : List Nat) : (pieces l ss).length = ss.length := by
  induction ss with
  | nil => rfl
  | cons s ss ih =>
    cases ss with
    | nil => rfl
    | cons e ss => exact congrArg Nat.succ ih

theorem pieces_map {β : Type*} (f : α → β) (l : List α) (ss : List Nat) :
    pieces (l.map f) ss = (pieces l ss).map (List.map f) := by
  induction ss with
  | nil => rfl
  | cons s ss ih =>
    cases ss with
    | nil => rw [pieces, pieces, List.map_singleton, List.map_drop]
    | cons e ss => rw [pieces, pieces, ih, List.map_cons, List.map_take, List.map_drop]

/-- Cutting at every index leaves singletons. -/
theorem pieces_range' (l : List α) : pieces l (List.range' 0 l.length) = l.map fun a => [a] := by
  have h : ∀ n s, s + n = l.length → pieces l (List.range' s n) = (l.drop s).map fun a => [a] := by
    intro n
    induction n with
    | zero =>
      intro s hs
      rw [List.range'_zero, List.drop_eq_nil_of_le (by omega)]
      rfl
    | succ n ih =>
      intro s hs
      have hlt : s < l.length := by omega
      rw [List.drop_eq_getElem_cons hlt, List.map_cons, ← ih (s + 1) (by omega)]
      cases n with
      | zero =>
        show [l.drop s] = [[l[s]]]
        rw [List.drop_eq_getElem_cons hlt, List.drop_eq_nil_of_le (by omega)]
      | succ n =>
        rw [List.range'_succ, List.range'_succ, pieces, Nat.add_sub_cancel_left,
          List.drop_eq_getElem_cons hlt]
        rfl
  exact h l.length 0 (Nat.zero_add _)

/-- The leading parts of a concatenation. -/
theorem take_of_flatten {runs before after : List (List α)} {run : List α}
    (h : runs = before ++ run :: after) :
    runs.flatten.take before.flatten.length = before.flatten ∧
      runs.flatten.take (before.flatten.length + run.length) = before.flatten ++ run := by
  rw [h, List.flatten_append, List.flatten_cons, ← List.append_assoc]
  constructor
  · rw [List.append_assoc, List.take_left]
  · rw [← List.length_append, List.take_left]

section Pieces
variable [LinearOrder K] [Add K] [One K] [Zero K] {left0 : K} {right : List K} {l : List α}

/-- The first run ends where the next starts, or with the list. -/
theorem pieces_cuts (hlen : right.length = l.length) {s : Nat} (hs : s < right.length) :
    pieces l (cuts left0 right s) =
      (l.drop s).take (cutEnd left0 right s - s) :: pieces l (cuts left0 right (cutEnd left0 right s)) := by
  have hlt := lt_cutEnd left0 right s
  rw [cuts_of_lt left0 right hs]
  by_cases hend : cutEnd left0 right s < right.length
  · rw [cuts_of_lt left0 right hend, pieces]
  · rw [cuts_of_ge left0 right (Nat.not_lt.mp hend), pieces, pieces, List.take_of_length_le]
    rw [List.length_drop]
    omega

theorem flatten_pieces (hlen : right.length = l.length) (s : Nat) :
    (pieces l (cuts left0 right s)).flatten = l.drop s := by
  induction s using cuts.induct left0 right with
  | case1 s hs ih =>
    have hlt := lt_cutEnd left0 right s
    have hskip : l.drop (cutEnd left0 right s) = (l.drop s).drop (cutEnd left0 right s - s) := by
      rw [List.drop_drop, Nat.add_sub_cancel' hlt.le]
    rw [pieces_cuts hlen hs, List.flatten_cons, ih, hskip, List.take_append_drop]
  | case2 s hs =>
    rw [cuts_of_ge left0 right (Nat.not_lt.mp hs), List.drop_eq_nil_of_le (by omega)]
    rfl

theorem ne_nil_of_mem_pieces (hlen : right.length = l.length) (s : Nat) :
    ∀ run ∈ pieces l (cuts left0 right s), run ≠ [] := by
  induction s using cuts.induct left0 right with
  | case1 s hs ih =>
    have hlt := lt_cutEnd left0 right s
    rw [pieces_cuts hlen hs]
    refine List.forall_mem_cons.mpr ⟨fun hnil => ?_, ih⟩
    have hzero := congrArg List.length hnil
    rw [List.length_take, List.length_drop, List.length_nil] at hzero
    omega
  | case2 s hs =>
    rw [cuts_of_ge left0 right (Nat.not_lt.mp hs)]
    exact nofun

/-- A run of two edges or more ends within one unit of its left edge. -/
theorem span_of_mem_pieces (hlen : right.length = l.length) {s : Nat} {before after : List (List α)}
    {run : List α} (h : pieces l (cuts left0 right s) = before ++ run :: after) (hrun : 1 < run.length) :
    right.getD (s + before.flatten.length + run.length - 1) 0 ≤
      leftEdge left0 right (s + before.flatten.length) + 1 := by
  induction s using cuts.induct left0 right generalizing before with
  | case1 s hs ih =>
    have hlt := lt_cutEnd left0 right s
    rw [pieces_cuts hlen hs] at h
    cases before with
    | nil =>
      obtain ⟨rfl, -⟩ := List.cons.inj h
      rw [List.length_take, List.length_drop] at hrun ⊢
      simp only [List.flatten_nil, List.length_nil, Nat.add_zero]
      refine le_of_lt_searchsorted ?_
      have hle := cutEnd_le left0 right hs
      unfold cutEnd at hrun hle ⊢
      dsimp only at hrun hle ⊢
      split_ifs at hrun hle ⊢ <;> omega
    | cons first before =>
      obtain ⟨rfl, hrest⟩ := List.cons.inj h
      have hmore : cutEnd left0 right s < right.length := by
        by_contra hge
        rw [cuts_of_ge left0 right (Nat.not_lt.mp hge)] at hrest
        cases before <;> cases hrest
      have hspan := ih hrest
      have hfirst : ((l.drop s).take (cutEnd left0 right s - s)).length = cutEnd left0 right s - s := by
        rw [List.length_take, List.length_drop]
        omega
      have hpos : s + ((l.drop s).take (cutEnd left0 right s - s) :: before).flatten.length =
          cutEnd left0 right s + before.flatten.length := by
        rw [List.flatten_cons, List.length_append, hfirst]
        omega
      rw [hpos]
      exact hspan
  | case2 s hs =>
    rw [cuts_of_ge left0 right (Nat.not_lt.mp hs)] at h
    cases before <;> cases h

end Pieces

section Count
variable [Ring K] [LinearOrder K] {left0 : K} {right : List K}

/-- The edge after a run lies more than one unit from the run's left edge. -/
theorem lt_of_cutEnd_lt (hsorted : right.Pairwise (· ≤ ·)) {s : Nat}
    (h : cutEnd left0 right s < right.length) :
    leftEdge left0 right s + 1 < right.getD (cutEnd left0 right s) 0 := by
  have hle : searchsorted right (leftEdge left0 right s + 1) ≤ cutEnd left0 right s := by
    unfold cutEnd
    dsimp only
    split_ifs <;> omega
  exact (lt_of_searchsorted_lt (hle.trans_lt h)).trans_le (getD_le_getD hsorted hle h)

variable (left0 right) in
theorem length_cuts_le (s : Nat) : (cuts left0 right s).length ≤ right.length - s := by
  induction s using cuts.induct left0 right with
  | case1 s hs ih =>
    have hlt := lt_cutEnd left0 right s
    rw [cuts_of_lt left0 right hs, List.length_cons]
    omega
  | case2 s hs =>
    rw [cuts_of_ge left0 right (Nat.not_lt.mp hs)]
    exact Nat.zero_le _

/-- As many runs as edges: from every start the cut advances by one. -/
theorem cutEnd_of_length_cuts (h : (cuts left0 right 0).length = right.length) {s : Nat}
    (hs : s < right.length) : cutEnd left0 right s = s + 1 := by
  have hall : ∀ s ≤ right.length, (cuts left0 right s).length = right.length - s ∧
      ∀ i < s, cutEnd left0 right i = i + 1 := by
    intro s
    induction s with
    | zero => exact fun _ => ⟨h, nofun⟩
    | succ s ih =>
      intro hs
      obtain ⟨hlen, hends⟩ := ih (by omega)
      have hlt := lt_cutEnd left0 right s
      rw [cuts_of_lt left0 right hs, List.length_cons] at hlen
      have hrest := length_cuts_le left0 right (cutEnd left0 right s)
      have hle := cutEnd_le left0 right hs
      have hend : cutEnd left0 right s = s + 1 := by omega
      rw [hend] at hlen
      refine ⟨by omega, fun i hi => ?_⟩
      rcases Nat.lt_succ_iff_lt_or_eq.mp hi with hi | rfl
      · exact hends i hi
      · exact hend
  exact (hall (s + 1) hs).2 s (Nat.lt_succ_self s)

/-- As many runs as edges: no edge but the next lies within a unit of a run's left edge. -/
theorem steep_of_length_cuts (hsorted : right.Pairwise (· ≤ ·))
    (h : (cuts left0 right 0).length = right.length) {s : Nat} (hs : s + 1 < right.length) :
    leftEdge left0 right s + 1 < right.getD (s + 1) 0 := by
  have hend := cutEnd_of_length_cuts h (Nat.lt_of_succ_lt hs)
  rw [← hend] at hs ⊢
  exact lt_of_cutEnd_lt hsorted hs

/-- Every two runs spend more than one unit. -/
theorem count_cuts [IsStrictOrderedRing K] (hsorted : right.Pairwise (· ≤ ·)) (s : Nat)
    (hmany : 2 ≤ (cuts left0 right s).length) :
    leftEdge left0 right s + ((cuts left0 right s).length / 2 : Nat) < right.getD (right.length - 1) 0 := by
  induction hlen : (cuts left0 right s).length using Nat.strong_induction_on generalizing s with
  | _ m ih =>
    have hs : s < right.length := by
      by_contra hge
      rw [cuts_of_ge left0 right (Nat.not_lt.mp hge)] at hmany
      exact absurd hmany (by decide)
    rw [cuts_of_lt left0 right hs] at hmany hlen
    generalize he : cutEnd left0 right s = e at hmany hlen
    have hend : e < right.length := by
      by_contra hge
      rw [cuts_of_ge left0 right (Nat.not_lt.mp hge), List.length_singleton] at hmany
      exact absurd hmany (by decide)
    have hpair : leftEdge left0 right s + 1 < right.getD e 0 := by
      rw [← he]
      exact lt_of_cutEnd_lt hsorted (by omega)
    rw [cuts_of_lt left0 right hend] at hlen
    generalize hf : cutEnd left0 right e = f at hlen
    have hef : e < f := hf ▸ lt_cutEnd left0 right e
    rw [List.length_cons, List.length_cons] at hlen
    by_cases hrest : 2 ≤ (cuts left0 right f).length
    · have hflt : f < right.length := by
        by_contra hge
        rw [cuts_of_ge left0 right (Nat.not_lt.mp hge)] at hrest
        exact absurd hrest (by decide)
      have hlater := ih _ (by omega) f hrest rfl
      have hleft : right.getD e 0 ≤ leftEdge left0 right f := by
        rw [leftEdge, if_neg (by omega)]
        exact getD_le_getD hsorted (by omega) (by omega)
      have hhalf : m / 2 = (cuts left0 right f).length / 2 + 1 := by omega
      rw [hhalf, Nat.cast_succ]
      calc leftEdge left0 right s + (((cuts left0 right f).length / 2 : Nat) + 1)
          = leftEdge left0 right s + 1 + ((cuts left0 right f).length / 2 : Nat) := by
            rw [add_right_comm, add_assoc]
        _ < right.getD e 0 + ((cuts left0 right f).length / 2 : Nat) := by gcongr
        _ ≤ leftEdge left0 right f + ((cuts left0 right f).length / 2 : Nat) := by gcongr
        _ < right.getD (right.length - 1) 0 := hlater
    · have hhalf : m / 2 = 1 := by omega
      rw [hhalf, Nat.cast_one]
      exact hpair.trans_le (getD_le_getD hsorted (by omega) (by omega))

end Count

end Zagg.Lib
