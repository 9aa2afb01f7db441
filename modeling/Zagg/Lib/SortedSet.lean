import Mathlib.Data.List.Basic
import Mathlib.Data.List.Dedup
import Mathlib.Data.List.Sort
import Mathlib.Order.MinMax
import Mathlib.Order.Monotone.Basic
import Zagg.Lib.Pointwise

/-!
# Sorted sets

`sorted(set(l))`: increasing, with the members of `l`, and determined by them. The least member of
a list, if there is one, commutes with a monotone function and does not see how the list is
grouped.
-/
namespace Zagg.Lib

universe u

variable {α : Type u} [LinearOrder α] {l l' : List α}

def sortedSet (l : List α) : List α := l.dedup.insertionSort (· ≤ ·)

@[simp] theorem mem_sortedSet {x : α} : x ∈ sortedSet l ↔ x ∈ l := by
  rw [sortedSet, List.mem_insertionSort, List.mem_dedup]

theorem nodup_sortedSet (l : List α) : (sortedSet l).Nodup :=
  (List.perm_insertionSort _ _).nodup_iff.mpr (List.nodup_dedup l)

theorem pairwise_sortedSet (l : List α) : (sortedSet l).Pairwise (· ≤ ·) :=
  List.pairwise_insertionSort _ _

theorem strictly_sortedSet (l : List α) : (sortedSet l).Pairwise (· < ·) :=
  ((pairwise_sortedSet l).and (nodup_sortedSet l)).imp fun h => lt_of_le_of_ne h.1 h.2

/-- The first fault of a loop over increasing values. -/
theorem mapM_error_increasing {ε γ β : Type} [LinearOrder γ] {l : List γ} {f : γ → Except ε β}
    {err : ε} (hs : l.Pairwise (· < ·)) (h : l.mapM f = .error err) :
    ∃ a ∈ l, f a = .error err ∧ ∀ b ∈ l, b < a → ∃ r, f b = .ok r := by
  obtain ⟨before, a, after, rfl, hbefore, ha⟩ := mapM_error_iff.mp h
  refine ⟨a, by simp, ha, fun b hb hlt => ?_⟩
  rcases List.mem_append.mp hb with hb | hb
  · exact hbefore b hb
  · have hafter := (List.pairwise_append.mp hs).2.1
    rcases List.mem_cons.mp hb with rfl | hb
    · exact absurd hlt (lt_irrefl b)
    · exact absurd hlt ((List.pairwise_cons.mp hafter).1 b hb).asymm

theorem eq_sortedSet (hn : l'.Nodup) (hs : l'.Pairwise (· ≤ ·)) (h : ∀ x, x ∈ l' ↔ x ∈ l) :
    l' = sortedSet l := by
  have hperm : l'.Perm (sortedSet l) :=
    (List.perm_ext_iff_of_nodup hn (nodup_sortedSet l)).mpr fun x => by rw [h x, mem_sortedSet]
  exact hperm.eq_of_pairwise (fun _ _ _ _ hle hge => le_antisymm hle hge) hs (pairwise_sortedSet l)

theorem sortedSet_congr (h : ∀ x, x ∈ l ↔ x ∈ l') : sortedSet l = sortedSet l' :=
  eq_sortedSet (nodup_sortedSet l) (pairwise_sortedSet l) fun x => mem_sortedSet.trans (h x)

section Groups
variable {β : Type*} {f : β → α}

/-- The items of the least key stand first. -/
theorem filter_append_filter_ne {items : List β} {p : α}
    (hs : items.Pairwise fun a b => f a ≤ f b) (hp : ∀ a ∈ items, p ≤ f a) :
    (items.filter fun a => f a = p) ++ (items.filter fun a => f a ≠ p) = items := by
  induction items with
  | nil => rfl
  | cons a items ih =>
    rw [List.pairwise_cons] at hs
    by_cases ha : f a = p
    · rw [List.filter_cons_of_pos (by simpa using ha), List.filter_cons_of_neg (by simpa using ha),
        List.cons_append, ih hs.2 fun b hb => hp b (.tail _ hb)]
    · have hlt : p < f a := lt_of_le_of_ne (hp a (.head _)) (Ne.symm ha)
      have hrest : ∀ b ∈ a :: items, f b ≠ p := by
        intro b hb
        cases List.mem_cons.mp hb with
        | inl h => exact h ▸ ha
        | inr h => exact (hlt.trans_le (hs.1 b h)).ne'
      rw [List.filter_eq_nil_iff.mpr fun b hb => by simpa using hrest b hb, List.nil_append]
      exact List.filter_eq_self.mpr fun b hb => by simpa using hrest b hb

/-- Items in the order of their keys are their groups one behind the other. -/
theorem flatMap_filter_key {ps : List α} (hps : ps.Pairwise (· < ·)) {items : List β}
    (hs : items.Pairwise fun a b => f a ≤ f b) (hmem : ∀ a ∈ items, f a ∈ ps) :
    (ps.flatMap fun p => items.filter fun a => f a = p) = items := by
  induction ps generalizing items with
  | nil => exact (List.eq_nil_iff_forall_not_mem.mpr fun a ha => nomatch hmem a ha).symm
  | cons p ps ih =>
    rw [List.pairwise_cons] at hps
    have hp : ∀ a ∈ items, p ≤ f a := by
      intro a ha
      cases List.mem_cons.mp (hmem a ha) with
      | inl h => exact h.ge
      | inr h => exact (hps.1 _ h).le
    have hrest : ∀ a ∈ items.filter (fun a => f a ≠ p), f a ∈ ps := by
      intro a ha
      obtain ⟨ha, hne⟩ := List.mem_filter.mp ha
      exact (List.mem_cons.mp (hmem a ha)).resolve_left (of_decide_eq_true hne)
    have hgroups : (ps.flatMap fun q => items.filter fun a => f a = q) =
        ps.flatMap fun q => (items.filter fun a => f a ≠ p).filter fun a => f a = q := by
      apply List.flatMap_congr
      intro q hq
      have hne : q ≠ p := (hps.1 q hq).ne'
      rw [List.filter_filter]
      refine List.filter_congr fun a _ => ?_
      by_cases ha : f a = q
      · simp [ha, hne]
      · simp [ha]
    rw [List.flatMap_cons, hgroups, ih hps.2 (hs.filter _) hrest, filter_append_filter_ne hs hp]

end Groups

/-! ## The least and the greatest of a list -/

section Extremes
variable {β : Type u} [LinearOrder β]

instance lawfulOrderMin : Std.LawfulOrderMin α where
  le_min_iff _ _ _ := le_min_iff
  min_eq_or := min_choice

/-- Order and repetition do not matter. -/
theorem min?_congr {l l' : List α} (h : ∀ a, a ∈ l ↔ a ∈ l') : l.min? = l'.min? := by
  apply Option.ext
  intro a
  rw [List.min?_eq_some_iff, List.min?_eq_some_iff, h a]
  exact and_congr_right fun _ => forall_congr' fun b => by rw [h b]

theorem min?_concat (l : List α) (a : α) : (l ++ [a]).min? = some (min (l.min?.getD a) a) := by
  cases l with
  | nil => exact congrArg some (min_self a).symm
  | cons x l =>
    show some ((l ++ [a]).foldl min x) = _
    rw [List.foldl_append]
    rfl

theorem min?_map {f : α → β} (hf : Monotone f) (l : List α) : (l.map f).min? = l.min?.map f := by
  cases hl : l.min? with
  | none =>
    rw [List.min?_eq_none_iff.mp hl]
    rfl
  | some a =>
    obtain ⟨ha, hle⟩ := List.min?_eq_some_iff.mp hl
    refine List.min?_eq_some_iff.mpr ⟨List.mem_map_of_mem ha, fun b hb => ?_⟩
    obtain ⟨c, hc, rfl⟩ := List.mem_map.mp hb
    exact hf (hle c hc)

/-- The least of the groups' least members. -/
theorem min?_groups (groups : List (List α)) :
    (groups.filterMap List.min?).min? = groups.flatten.min? := by
  apply Option.ext
  intro a
  rw [List.min?_eq_some_iff, List.min?_eq_some_iff]
  constructor
  · intro ⟨ha, hle⟩
    obtain ⟨g, hg, hmin⟩ := List.mem_filterMap.mp ha
    refine ⟨List.mem_flatten.mpr ⟨g, hg, List.min?_mem hmin⟩, fun b hb => ?_⟩
    obtain ⟨g', hg', hb⟩ := List.mem_flatten.mp hb
    obtain ⟨c, hc⟩ := Option.isSome_iff_exists.mp (List.isSome_min?_of_mem hb)
    exact (hle c (List.mem_filterMap.mpr ⟨g', hg', hc⟩)).trans ((List.min?_eq_some_iff.mp hc).2 b hb)
  · intro ⟨ha, hle⟩
    obtain ⟨g, hg, hmem⟩ := List.mem_flatten.mp ha
    have hmin : g.min? = some a :=
      List.min?_eq_some_iff.mpr ⟨hmem, fun b hb => hle b (List.mem_flatten.mpr ⟨g, hg, hb⟩)⟩
    refine ⟨List.mem_filterMap.mpr ⟨g, hg, hmin⟩, fun b hb => ?_⟩
    obtain ⟨g', hg', hb⟩ := List.mem_filterMap.mp hb
    exact hle b (List.mem_flatten.mpr ⟨g', hg', List.min?_mem hb⟩)

theorem max?_congr {l l' : List α} (h : ∀ a, a ∈ l ↔ a ∈ l') : l.max? = l'.max? :=
  min?_congr (α := αᵒᵈ) h

theorem max?_map {f : α → β} (hf : Monotone f) (l : List α) : (l.map f).max? = l.max?.map f :=
  min?_map (α := αᵒᵈ) (β := βᵒᵈ) hf.dual l

theorem max?_groups (groups : List (List α)) :
    (groups.filterMap List.max?).max? = groups.flatten.max? := min?_groups (α := αᵒᵈ) groups

end Extremes

end Zagg.Lib
