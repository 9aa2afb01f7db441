import Zagg.Lib.GreedyCut
import Zagg.Lib.Ragged

/-!
# Segments of a concatenation

Nonempty lists behind one another are the pieces of their concatenation between the offsets
at which they start, the last of which ends with the list. Two partitions behind one another,
the second shifted by the length of the first list, partition the concatenation.
-/
namespace Zagg.Lib

universe u

variable {α : Type u}

theorem offsets_ne_nil (ss : List (List α)) : offsetsOf ss ≠ [] := List.scanl_ne_nil

/-- Parts of a list that follow a prefix. -/
theorem pieces_append (s l : List α) (os : List Nat) :
    pieces (s ++ l) (os.map (s.length + ·)) = pieces l os := by
  induction os with
  | nil => rfl
  | cons o os ih =>
    cases os with
    | nil =>
      show [(s ++ l).drop (s.length + o)] = [l.drop o]
      rw [List.drop_append, List.drop_eq_nil_of_le (Nat.le_add_right ..), List.nil_append,
        Nat.add_sub_cancel_left]
    | cons o' os =>
      rw [List.map_cons, List.map_cons, pieces, pieces, ← List.map_cons, ih, List.drop_append,
        List.drop_eq_nil_of_le (Nat.le_add_right ..), List.nil_append, Nat.add_sub_cancel_left,
        Nat.add_sub_add_left]

/-- The last segment needs no end. -/
theorem pieces_flatten {ss : List (List α)} (h : ss ≠ []) :
    pieces ss.flatten (offsetsOf ss.dropLast) = ss := by
  induction ss with
  | nil => exact absurd rfl h
  | cons s ss ih =>
    cases ss with
    | nil =>
      show [[s].flatten.drop 0] = [s]
      rw [List.drop_zero, List.flatten_singleton]
    | cons t ss =>
      have hrest := ih nofun
      obtain ⟨o, os, hos⟩ := List.exists_cons_of_ne_nil (offsets_ne_nil (t :: ss).dropLast)
      have hzero : o = 0 := by
        have hhead := congrArg List.head? hos
        rw [offsetsOf, List.head?_scanl] at hhead
        exact (Option.some.inj hhead).symm
      rw [List.dropLast_cons_of_ne_nil (List.cons_ne_nil t ss), offsetsOf_cons, List.flatten_cons]
      have hshift := pieces_append s (t :: ss).flatten (offsetsOf (t :: ss).dropLast)
      rw [hrest, hos, List.map_cons] at hshift
      rw [hos, List.map_cons, pieces, hshift, hzero, Nat.add_zero, List.drop_zero, Nat.sub_zero,
        List.take_left]

theorem pairwise_offsets {ss : List (List α)} (h : ∀ s ∈ ss, s ≠ []) :
    (offsetsOf ss).Pairwise (· < ·) := by
  induction ss with
  | nil => exact List.pairwise_singleton _ 0
  | cons s ss ih =>
    have hpos : 0 < s.length := List.length_pos_iff.mpr (h s (.head _))
    rw [offsetsOf_cons]
    constructor
    · intro o ho
      obtain ⟨o', -, rfl⟩ := List.mem_map.mp ho
      show 0 < s.length + o'
      omega
    · refine List.pairwise_map.mpr ((ih fun t ht => h t (.tail _ ht)).imp fun hlt => ?_)
      exact Nat.add_lt_add_left hlt s.length

/-- Starts that cut a list of `n` entries into nonempty segments. -/
structure Partition (starts : List Nat) (n : Nat) : Prop where
  head : starts.head? = some 0
  mono : starts.Pairwise (· < ·)
  lt : ∀ s ∈ starts, s < n

theorem Partition.ne_nil {ss : List Nat} {n : Nat} (h : Partition ss n) : ss ≠ [] := by
  intro hnil
  have hhead := h.head
  rw [hnil] at hhead
  cases hhead

/-- The pieces from `s` on are the list from `s` on, and none is empty. -/
theorem pieces_from {l : List α} {s : Nat} {ss : List Nat} (hmono : (s :: ss).Pairwise (· < ·))
    (hlt : ∀ i ∈ s :: ss, i < l.length) :
    (pieces l (s :: ss)).flatten = l.drop s ∧ ∀ p ∈ pieces l (s :: ss), p ≠ [] := by
  induction ss generalizing s with
  | nil =>
    have hs := hlt s (.head _)
    constructor
    · exact List.flatten_singleton
    · intro p hp
      rw [List.mem_singleton.mp hp]
      exact List.ne_nil_of_length_pos (by rw [List.length_drop]; omega)
  | cons e ss ih =>
    have hse : s < e := List.rel_of_pairwise_cons hmono (.head _)
    have he := hlt e (.tail _ (.head _))
    obtain ⟨hflat, hne⟩ := ih hmono.of_cons fun i hi => hlt i (.tail _ hi)
    rw [pieces]
    constructor
    · have hdrop : l.drop e = (l.drop s).drop (e - s) := by
        rw [List.drop_drop, Nat.add_sub_cancel' hse.le]
      rw [List.flatten_cons, hflat, hdrop, List.take_append_drop]
    · intro p hp
      cases List.mem_cons.mp hp with
      | inl hp =>
        rw [hp]
        apply List.ne_nil_of_length_pos
        rw [List.length_take, List.length_drop]
        omega
      | inr hp => exact hne p hp

theorem Partition.pieces {l : List α} {ss : List Nat} (h : Partition ss l.length) :
    (pieces l ss).flatten = l ∧ ∀ p ∈ pieces l ss, p ≠ [] := by
  obtain ⟨s, rest, rfl⟩ := List.exists_cons_of_ne_nil h.ne_nil
  have hzero : s = 0 := Option.some.inj h.head
  obtain ⟨hflat, hne⟩ := pieces_from h.mono h.lt
  rw [hzero, List.drop_zero] at hflat
  rw [hzero] at hne ⊢
  exact ⟨hflat, hne⟩

theorem Partition.append {ss ss' : List Nat} {n n' : Nat} (h : Partition ss n) (h' : Partition ss' n') :
    Partition (ss ++ ss'.map (· + n)) (n + n') := by
  constructor
  · rw [List.head?_append, h.head]
    rfl
  · refine List.pairwise_append.mpr ⟨h.mono, List.pairwise_map.mpr (h'.mono.imp fun hlt => ?_), ?_⟩
    · omega
    · intro s hs t ht
      obtain ⟨t', -, rfl⟩ := List.mem_map.mp ht
      have hlt := h.lt s hs
      omega
  · intro s hs
    rcases List.mem_append.mp hs with hs | hs
    · have hlt := h.lt s hs
      omega
    · obtain ⟨t, ht, rfl⟩ := List.mem_map.mp hs
      have hlt := h'.lt t ht
      omega

/-- Every segment but the last ends where the next starts. -/
theorem pieces_concat {l l' : List α} {ss ss' : List Nat} (hne : ss ≠ [])
    (hlt : ∀ s ∈ ss, s < l.length) (hhead : ss'.head? = some 0) :
    pieces (l ++ l') (ss ++ ss'.map (· + l.length)) = pieces l ss ++ pieces l' ss' := by
  induction ss with
  | nil => exact absurd rfl hne
  | cons s ss ih =>
    have hs := hlt s (.head _)
    cases ss with
    | nil =>
      obtain ⟨ss', rfl⟩ : ∃ rest, ss' = 0 :: rest := by
        cases ss' with
        | nil => cases hhead
        | cons o rest => exact ⟨rest, by rw [Option.some.inj hhead]⟩
      have hshift : (0 :: ss').map (· + l.length) = (0 :: ss').map (l.length + ·) :=
        List.map_congr_left fun o _ => Nat.add_comm o l.length
      show pieces (l ++ l') (s :: (0 :: ss').map (· + l.length)) = l.drop s :: pieces l' (0 :: ss')
      rw [hshift, ← pieces_append l l' (0 :: ss'), List.map_cons, pieces, Nat.add_zero,
        List.drop_append_of_le_length hs.le, List.take_append_of_le_length (by simp)]
      rw [List.take_of_length_le (by simp)]
    | cons e ss =>
      have he := hlt e (.tail _ (.head _))
      have hrest := ih (List.cons_ne_nil e ss) fun o ho => hlt o (.tail _ ho)
      rw [List.cons_append, List.cons_append, pieces, ← List.cons_append, hrest, pieces,
        List.cons_append, List.drop_append_of_le_length hs.le,
        List.take_append_of_le_length (by rw [List.length_drop]; omega)]

/-- The slots between the starts and the end. -/
theorem slots_concat_length (l : List α) {ss : List Nat} (hne : ss ≠ []) :
    slots l (ss ++ [l.length]) = pieces l ss := by
  induction ss with
  | nil => exact absurd rfl hne
  | cons s ss ih =>
    cases ss with
    | nil =>
      show [slice l s l.length] = [l.drop s]
      rw [slice, List.take_of_length_le (by rw [List.length_drop])]
    | cons e ss =>
      have hrest := ih (List.cons_ne_nil e ss)
      show slice l s e :: slots l ((e :: ss) ++ [l.length]) = _
      rw [hrest]
      rfl

end Zagg.Lib
