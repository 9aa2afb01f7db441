import Mathlib.Algebra.Order.Group.Int
import Mathlib.Data.List.GetD
import Zagg.Lib.Runs

/-!
# The nearest entry of a sorted list

A lower-bound search puts a point between its two flanks. The nearer flank is nearest among
all entries, and the search for its value goes back to the first entry equal to it. After a
stable sort that entry is the one that came first before the sort (`argsort_bisectLeft`).
-/
namespace Zagg.Lib

universe u

section Bisect
variable {K : Type u} [LinearOrder K]

/-- `np.searchsorted(arr, v, side="left")`. -/
def bisectLeft (arr : List K) (v : K) : Nat := arr.findIdx fun y => decide (v ≤ y)

theorem bisectLeft_le_length (arr : List K) (v : K) : bisectLeft arr v ≤ arr.length :=
  List.findIdx_le_length

theorem lt_of_lt_bisectLeft {arr : List K} {v : K} {i : Nat} (h : i < bisectLeft arr v)
    (hi : i < arr.length) : arr[i] < v := by
  have hnot := List.not_of_lt_findIdx h
  simpa using hnot

theorem le_getElem_bisectLeft {arr : List K} {v : K} (h : bisectLeft arr v < arr.length) :
    v ≤ arr[bisectLeft arr v] := by
  have hfound := List.findIdx_getElem (w := h)
  exact of_decide_eq_true hfound

/-- In a sorted list the search for an entry finds the first one equal to it. -/
theorem getElem_bisectLeft {arr : List K} (hs : arr.Pairwise (· ≤ ·)) {v : K} (hv : v ∈ arr) :
    ∃ h : bisectLeft arr v < arr.length, arr[bisectLeft arr v] = v := by
  have h : bisectLeft arr v < arr.length := List.findIdx_lt_length_of_exists ⟨v, hv, by simp⟩
  obtain ⟨j, hj, rfl⟩ := List.mem_iff_getElem.mp hv
  have hle : bisectLeft arr arr[j] ≤ j := by
    by_contra hlt
    exact lt_irrefl _ (lt_of_lt_bisectLeft (not_le.mp hlt) hj)
  refine ⟨h, le_antisymm ?_ (le_getElem_bisectLeft h)⟩
  rcases Nat.lt_or_eq_of_le hle with hlt | heq
  · exact List.pairwise_iff_getElem.mp hs _ _ h hj hlt
  · simp only [heq, le_refl]

end Bisect

section Stable
variable {K : Type u} [LinearOrder K]

/-- The keys in the order of their `argsort`. -/
def sortedKeys (keys : List K) : List K := (keys.zipIdx.insertionSort byKey).map Prod.fst

theorem gather_argsort (keys : List K) : gather keys (argsort keys) = sortedKeys keys := by
  have hkeys : ∀ x ∈ keys.zipIdx.insertionSort byKey, keys[x.2]? = some x.1 := fun x hx =>
    List.mk_mem_zipIdx_iff_getElem?.mp ((List.perm_insertionSort _ _).mem_iff.mp hx)
  rw [gather, argsort, sortedKeys, List.filterMap_map, ← List.filterMap_eq_map]
  exact List.filterMap_congr hkeys

theorem perm_sortedKeys (keys : List K) : (sortedKeys keys).Perm keys := by
  have hperm := (List.perm_insertionSort byKey keys.zipIdx).map Prod.fst
  rwa [List.zipIdx_map_fst] at hperm

theorem pairwise_sortedKeys (keys : List K) : (sortedKeys keys).Pairwise (· ≤ ·) :=
  pairwise_insertionSort_byKey _

theorem length_argsort (keys : List K) : (argsort keys).length = keys.length := by
  rw [argsort, List.length_map, List.length_insertionSort, List.length_zipIdx]

/-- The search for a key in the sorted keys leads to the first position that holds the key. -/
theorem argsort_bisectLeft {keys : List K} {v : K} (hv : v ∈ keys) :
    ∃ i, (argsort keys)[bisectLeft (sortedKeys keys) v]? = some i ∧ keys[i]? = some v ∧
      ∀ k, keys[k]? = some v → i ≤ k := by
  obtain ⟨h, hat⟩ := getElem_bisectLeft (pairwise_sortedKeys keys)
    ((perm_sortedKeys keys).mem_iff.mpr hv)
  have hfind : (keys.zipIdx.insertionSort byKey).find? (fun x => decide (x.1 = v)) =
      (keys.zipIdx.insertionSort byKey)[bisectLeft (sortedKeys keys) v]? := by
    have hlen : bisectLeft (sortedKeys keys) v < (keys.zipIdx.insertionSort byKey).length := by
      simpa only [sortedKeys, List.length_map] using h
    rw [List.getElem?_eq_getElem hlen]
    apply List.find?_eq_some_iff_getElem.mpr
    have hval : (keys.zipIdx.insertionSort byKey)[bisectLeft (sortedKeys keys) v].1 = v := by
      simpa only [sortedKeys, List.getElem_map] using hat
    refine ⟨decide_eq_true hval, _, hlen, rfl, fun i hi => ?_⟩
    have hlt := lt_of_lt_bisectLeft hi (hi.trans h)
    simp only [sortedKeys, List.getElem_map] at hlt
    simpa using ne_of_lt hlt
  rw [← List.head?_filter, filter_insertionSort, List.head?_filter] at hfind
  cases hfound : keys.zipIdx.find? (fun x => decide (x.1 = v)) with
  | none =>
    obtain ⟨j, hj, rfl⟩ := List.mem_iff_getElem.mp hv
    have hnone := List.find?_eq_none.mp hfound (keys[j], j)
      (List.mk_mem_zipIdx_iff_getElem?.mpr (List.getElem?_eq_getElem hj))
    exact absurd (decide_eq_true rfl) hnone
  | some x =>
    obtain ⟨hx, i, hi, hxi, hbefore⟩ := List.find?_eq_some_iff_getElem.mp hfound
    rw [List.getElem_zipIdx, Nat.zero_add] at hxi
    subst hxi
    rw [List.length_zipIdx] at hi
    refine ⟨i, ?_, ?_, fun k hk => ?_⟩
    · rw [argsort, List.getElem?_map, ← hfind, hfound]
      rfl
    · rw [List.getElem?_eq_getElem hi]
      exact congrArg some (of_decide_eq_true hx)
    · by_contra hlt
      have hki := hbefore k (not_le.mp hlt)
      obtain ⟨_, hkv⟩ := List.getElem?_eq_some_iff.mp hk
      rw [List.getElem_zipIdx] at hki
      simp [hkv] at hki

end Stable

section Flanks

/-- No entry is nearer to `e` than `v`, and none as near is earlier. -/
def IsNearest (arr : List Int) (e v : Int) : Prop :=
  ∀ x ∈ arr, (v - e).natAbs < (x - e).natAbs ∨ (v - e).natAbs = (x - e).natAbs ∧ v ≤ x

/-- The distance to the entry before the point, or a value no distance reaches. -/
def leftGap (far : Nat) (arr : List Int) (e : Int) : Nat :=
  if 0 < bisectLeft arr e then (e - arr.getD (bisectLeft arr e - 1) 0).toNat else far

/-- The distance to the entry at or after the point, or a value no distance reaches. -/
def rightGap (far : Nat) (arr : List Int) (e : Int) : Nat :=
  if bisectLeft arr e < arr.length then (arr.getD (bisectLeft arr e) 0 - e).toNat else far

variable {far : Nat} {arr : List Int} {e : Int}

theorem left_flank (h : 0 < bisectLeft arr e) :
    arr.getD (bisectLeft arr e - 1) 0 ∈ arr ∧ arr.getD (bisectLeft arr e - 1) 0 < e := by
  have hlen : bisectLeft arr e - 1 < arr.length := by
    have hle := bisectLeft_le_length arr e
    omega
  rw [List.getD_eq_getElem _ _ hlen]
  exact ⟨List.getElem_mem hlen, lt_of_lt_bisectLeft (Nat.sub_lt h Nat.one_pos) hlen⟩

theorem right_flank (h : bisectLeft arr e < arr.length) :
    arr.getD (bisectLeft arr e) 0 ∈ arr ∧ e ≤ arr.getD (bisectLeft arr e) 0 := by
  rw [List.getD_eq_getElem _ _ h]
  exact ⟨List.getElem_mem h, le_getElem_bisectLeft h⟩

/-- Every entry lies at or outside the flanks. -/
theorem outside_flanks (hs : arr.Pairwise (· ≤ ·)) {x : Int} (hx : x ∈ arr) :
    (0 < bisectLeft arr e ∧ x ≤ arr.getD (bisectLeft arr e - 1) 0) ∨
      (bisectLeft arr e < arr.length ∧ arr.getD (bisectLeft arr e) 0 ≤ x) := by
  obtain ⟨i, hi, rfl⟩ := List.mem_iff_getElem.mp hx
  have hget : ∀ j, j < arr.length → i ≤ j → arr[i] ≤ arr.getD j 0 := by
    intro j hj hij
    rw [List.getD_eq_getElem _ _ hj]
    rcases Nat.lt_or_eq_of_le hij with hlt | rfl
    · exact List.pairwise_iff_getElem.mp hs _ _ hi hj hlt
    · exact le_rfl
  rcases Nat.lt_or_ge i (bisectLeft arr e) with hlt | hge
  · have hle := bisectLeft_le_length arr e
    exact .inl ⟨by omega, hget _ (by omega) (by omega)⟩
  · have hlen : bisectLeft arr e < arr.length := hge.trans_lt hi
    refine .inr ⟨hlen, ?_⟩
    rw [List.getD_eq_getElem _ _ hlen]
    rcases Nat.lt_or_eq_of_le hge with hlt | heq
    · exact List.pairwise_iff_getElem.mp hs _ _ hlen hi hlt
    · simp only [heq, le_refl]

/-- The right flank is nearest when it is strictly nearer than the left one. -/
theorem right_nearest (hs : arr.Pairwise (· ≤ ·)) (hfar : ∀ x ∈ arr, (x - e).natAbs < far)
    (h : rightGap far arr e < leftGap far arr e) :
    bisectLeft arr e < arr.length ∧
      arr.getD (bisectLeft arr e) 0 - e = rightGap far arr e ∧
      IsNearest arr e (arr.getD (bisectLeft arr e) 0) := by
  have hlen : bisectLeft arr e < arr.length := by
    by_contra hge
    rw [rightGap, if_neg hge, leftGap] at h
    split_ifs at h with hpos
    · obtain ⟨hmem, hlt⟩ := left_flank hpos
      have hgap := hfar _ hmem
      omega
    · exact lt_irrefl _ h
  obtain ⟨-, hright⟩ := right_flank hlen
  have hgap : arr.getD (bisectLeft arr e) 0 - e = rightGap far arr e := by
    rw [rightGap, if_pos hlen]
    omega
  refine ⟨hlen, hgap, fun x hx => ?_⟩
  rcases outside_flanks (e := e) hs hx with ⟨hpos, hxl⟩ | ⟨-, hxr⟩
  · obtain ⟨-, hleft⟩ := left_flank hpos
    rw [leftGap, if_pos hpos] at h
    left
    omega
  · omega

/-- Else the left one is. -/
theorem left_nearest (hs : arr.Pairwise (· ≤ ·)) (hne : arr ≠ [])
    (hfar : ∀ x ∈ arr, (x - e).natAbs < far) (h : ¬rightGap far arr e < leftGap far arr e) :
    0 < bisectLeft arr e ∧
      arr.getD (bisectLeft arr e - 1) 0 - e = -(leftGap far arr e : Int) ∧
      IsNearest arr e (arr.getD (bisectLeft arr e - 1) 0) := by
  have hpos : 0 < bisectLeft arr e := by
    by_contra hzero
    have hlen : bisectLeft arr e < arr.length := by
      have hne' := List.length_pos_iff.mpr hne
      omega
    obtain ⟨hmem, hright⟩ := right_flank hlen
    have hgap := hfar _ hmem
    rw [rightGap, if_pos hlen, leftGap, if_neg hzero] at h
    omega
  obtain ⟨-, hleft⟩ := left_flank hpos
  have hgap : arr.getD (bisectLeft arr e - 1) 0 - e = -(leftGap far arr e : Int) := by
    rw [leftGap, if_pos hpos]
    omega
  refine ⟨hpos, hgap, fun x hx => ?_⟩
  rcases outside_flanks (e := e) hs hx with ⟨-, hxl⟩ | ⟨hlen, hxr⟩
  · omega
  · obtain ⟨-, hright⟩ := right_flank hlen
    rw [rightGap, if_pos hlen] at h
    omega

end Flanks
end Zagg.Lib
