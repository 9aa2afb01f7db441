import Mathlib.Data.List.Chain
import Mathlib.Data.List.Sort
import Mathlib.Data.List.TakeWhile
import Mathlib.Order.Defs.LinearOrder
import Mathlib.Tactic.Common

/-!
# Maximal runs and stable grouping

`runs` cuts a list where its value changes and keeps each run's value and bounds. Any
list of the same length is the concatenation of its slices at these bounds
(`flatMap_slice_runs`). A stable sort by key leaves the entries of one key in order
(`filter_insertionSort`), so the slice of a sorted list at a key's run is the list of
that key's entries (`slice_run_sorted`).
-/
namespace Zagg.Lib

universe u v

variable {α : Type u} {β : Type v}

/-- `l[s:e]`. -/
def slice (l : List β) (s e : Nat) : List β := (l.drop s).take (e - s)

@[simp] theorem slice_cons_succ (b : β) (l : List β) (s e : Nat) :
    slice (b :: l) (s + 1) (e + 1) = slice l s e := by
  simp only [slice, List.drop_succ_cons, Nat.add_sub_add_right]

@[simp] theorem slice_cons_zero (b : β) (l : List β) (e : Nat) :
    slice (b :: l) 0 (e + 1) = b :: slice l 0 e := by
  simp only [slice, List.drop_zero, Nat.sub_zero, List.take_succ_cons]

theorem slice_map {δ : Type*} (f : β → δ) (l : List β) (s e : Nat) :
    slice (l.map f) s e = (slice l s e).map f := by
  simp only [slice, List.map_drop, List.map_take]

theorem length_slice {l : List β} {s e : Nat} (h : e ≤ l.length) :
    (slice l s e).length = e - s := by
  rw [slice, List.length_take, List.length_drop]
  omega

theorem slice_zip (l : List α) (arr : List β) (s e : Nat) :
    slice (l.zip arr) s e = (slice l s e).zip (slice arr s e) := by
  rw [slice, slice, slice, List.zip, List.drop_zipWith, List.take_zipWith]

section Runs
variable [DecidableEq α]

/-- The positions whose value differs from the one before: `flatnonzero(diff) + 1`. -/
def boundaries (l : List α) : List Nat :=
  ((List.range (l.length - 1)).filter fun i => decide (l[i]? ≠ l[i + 1]?)).map (· + 1)

/-- A stretch together with the value it starts with. -/
def valued (l : List α) (r : Nat × Nat) : Option (α × Nat × Nat) :=
  (l[r.1]?).map fun a => (a, r.1, r.2)

/-- The maximal runs with their value, start and end. -/
def runs (l : List α) : List (α × Nat × Nat) :=
  ((0 :: boundaries l).zip (boundaries l ++ [l.length])).filterMap (valued l)

def shift (r : α × Nat × Nat) : α × Nat × Nat := (r.1, r.2.1 + 1, r.2.2 + 1)

theorem boundaries_cons_cons (a b : α) (l : List α) :
    boundaries (a :: b :: l) =
      if a = b then (boundaries (b :: l)).map (· + 1)
      else 1 :: (boundaries (b :: l)).map (· + 1) := by
  have hlen : (a :: b :: l).length - 1 = (b :: l).length - 1 + 1 := rfl
  have htail : ((List.range ((b :: l).length - 1)).map (· + 1)).filter
      (fun i => decide ((a :: b :: l)[i]? ≠ (a :: b :: l)[i + 1]?)) =
      ((List.range ((b :: l).length - 1)).filter fun i =>
        decide ((b :: l)[i]? ≠ (b :: l)[i + 1]?)).map (· + 1) := by
    rw [List.filter_map]
    rfl
  unfold boundaries
  rw [hlen, List.range_succ_eq_map, List.filter_cons, htail]
  by_cases hab : a = b
  · subst hab
    rw [if_neg (by simp), if_pos rfl]
  · rw [if_pos (by simpa using hab), if_neg hab]
    rfl

theorem zip_map_succ (l l' : List Nat) :
    (l.map (· + 1)).zip (l'.map (· + 1)) = (l.zip l').map fun r => (r.1 + 1, r.2 + 1) :=
  List.zip_map

omit [DecidableEq α] in
/-- The values a shifted list of bounds picks from a longer list. -/
theorem filterMap_shift (a : α) (l : List α) (bs : List (Nat × Nat)) :
    (bs.map fun r => (r.1 + 1, r.2 + 1)).filterMap (valued (a :: l)) =
      (bs.filterMap (valued l)).map shift := by
  rw [List.filterMap_map, List.map_filterMap]
  refine List.filterMap_congr fun r _ => ?_
  simp only [Function.comp, valued, List.getElem?_cons_succ, Option.map_map]
  rfl

/-- Renaming the values renames the runs. -/
theorem runs_map {δ : Type*} [DecidableEq δ] {f : α → δ} (hf : Function.Injective f) (l : List α) :
    runs (l.map f) = (runs l).map fun r => (f r.1, r.2) := by
  have hbounds : boundaries (l.map f) = boundaries l := by
    rw [boundaries, boundaries, List.length_map]
    refine congrArg _ (List.filter_congr fun i _ => ?_)
    rw [List.getElem?_map, List.getElem?_map, decide_eq_decide]
    exact (Option.map_injective hf).ne_iff
  rw [runs, runs, hbounds, List.length_map, List.map_filterMap]
  refine List.filterMap_congr fun r _ => ?_
  rw [valued, valued, List.getElem?_map, Option.map_map, Option.map_map]
  rfl

@[simp] theorem runs_nil : runs ([] : List α) = [] := rfl

@[simp] theorem runs_singleton (a : α) : runs [a] = [(a, 0, 1)] := rfl

/-- The first run starts at the front with the first value. -/
theorem runs_cons_cons (a b : α) (l : List α) :
    ∃ e rest, runs (b :: l) = (b, 0, e) :: rest ∧
      runs (a :: b :: l) =
        if a = b then (b, 0, e + 1) :: rest.map shift
        else (a, 0, 1) :: (b, 1, e + 1) :: rest.map shift := by
  obtain ⟨e, bs, hz⟩ : ∃ e bs, (0 :: boundaries (b :: l)).zip
      (boundaries (b :: l) ++ [(b :: l).length]) = (0, e) :: bs := by
    cases hb : boundaries (b :: l) with
    | nil => exact ⟨_, _, rfl⟩
    | cons x xs => exact ⟨_, _, rfl⟩
  refine ⟨e, bs.filterMap (valued (b :: l)), ?_, ?_⟩
  · unfold runs
    rw [hz]
    rfl
  · have hends : (boundaries (b :: l)).map (· + 1) ++ [(a :: b :: l).length] =
        (boundaries (b :: l) ++ [(b :: l).length]).map (· + 1) := by
      rw [List.map_append]
      rfl
    have hshift : ((0 :: boundaries (b :: l)).map (· + 1)).zip
        ((boundaries (b :: l) ++ [(b :: l).length]).map (· + 1)) =
        (1, e + 1) :: bs.map fun r => (r.1 + 1, r.2 + 1) := by
      rw [zip_map_succ, hz]
      rfl
    unfold runs
    rw [boundaries_cons_cons]
    by_cases hab : a = b
    · subst hab
      rw [if_pos rfl, if_pos rfl]
      have hz' : (0 :: (boundaries (a :: l)).map (· + 1)).zip
          ((boundaries (a :: l)).map (· + 1) ++ [(a :: a :: l).length]) =
          (0, e + 1) :: bs.map fun r => (r.1 + 1, r.2 + 1) := by
        have h1 : (boundaries (a :: l)).map (· + 1) ++ [(a :: a :: l).length] =
            (boundaries (a :: l) ++ [(a :: l).length]).map (· + 1) := hends
        rw [h1]
        cases hr : (boundaries (a :: l) ++ [(a :: l).length]).map (· + 1) with
        | nil => rw [hr] at hshift; cases hshift
        | cons x xs =>
          rw [hr, List.map_cons, List.zip_cons_cons] at hshift
          rw [List.zip_cons_cons]
          obtain ⟨hx, hxs⟩ := List.cons.inj hshift
          rw [hxs, (Prod.mk.inj hx).2]
      have h0 : valued (a :: a :: l) (0, e + 1) = some (a, 0, e + 1) := rfl
      rw [hz', List.filterMap_cons_some h0, filterMap_shift]
    · rw [if_neg hab, if_neg hab]
      have hz' : (0 :: 1 :: (boundaries (b :: l)).map (· + 1)).zip
          (1 :: (boundaries (b :: l)).map (· + 1) ++ [(a :: b :: l).length]) =
          (0, 1) :: (1, e + 1) :: bs.map fun r => (r.1 + 1, r.2 + 1) := by
        rw [List.cons_append, List.zip_cons_cons]
        exact congrArg _ ((congrArg (List.zip _) hends).trans hshift)
      have h0 : valued (a :: b :: l) (0, 1) = some (a, 0, 1) := rfl
      have h1 : valued (a :: b :: l) (1, e + 1) = some (b, 1, e + 1) := rfl
      rw [hz', List.filterMap_cons_some h0, List.filterMap_cons_some h1, filterMap_shift]

/-- An aligned list is the concatenation of its slices at the runs. -/
theorem flatMap_slice_runs (l : List α) (arr : List β) (h : arr.length = l.length) :
    (runs l).flatMap (fun r => slice arr r.2.1 r.2.2) = arr := by
  induction l generalizing arr with
  | nil => rw [runs_nil, List.eq_nil_of_length_eq_zero h]; rfl
  | cons a l ih =>
    cases arr with
    | nil => cases h
    | cons x arr =>
      have h' : arr.length = l.length := Nat.succ.inj h
      cases l with
      | nil =>
        rw [List.eq_nil_of_length_eq_zero h']
        rfl
      | cons b l =>
        obtain ⟨e, rest, hr, hc⟩ := runs_cons_cons a b l
        have ih := ih arr h'
        rw [hr, List.flatMap_cons] at ih
        have hrest : (rest.map shift).flatMap (fun r => slice (x :: arr) r.2.1 r.2.2) =
            rest.flatMap fun r => slice arr r.2.1 r.2.2 := by
          rw [List.flatMap_map]
          exact List.flatMap_congr fun r _ => slice_cons_succ x arr r.2.1 r.2.2
        rw [hc]
        split_ifs
        · rw [List.flatMap_cons, hrest, slice_cons_zero, List.cons_append, ih]
        · rw [List.flatMap_cons, List.flatMap_cons, hrest, slice_cons_succ, ih]
          rfl

/-- A run is a constant, nonempty stretch of the list. -/
theorem run_spec {l : List α} {r : α × Nat × Nat} (h : r ∈ runs l) :
    r.2.1 < r.2.2 ∧ r.2.2 ≤ l.length ∧ slice l r.2.1 r.2.2 = List.replicate (r.2.2 - r.2.1) r.1 := by
  induction l generalizing r with
  | nil => cases h
  | cons a l ih =>
    cases l with
    | nil =>
      obtain rfl := List.mem_singleton.mp h
      exact ⟨Nat.one_pos, le_rfl, rfl⟩
    | cons b l =>
      obtain ⟨e, rest, hr, hc⟩ := runs_cons_cons a b l
      have hfirst := ih (r := (b, 0, e)) (by rw [hr]; exact .head _)
      have hshift : ∀ r' ∈ (b, 0, e) :: rest, (shift r').2.1 < (shift r').2.2 ∧
          (shift r').2.2 ≤ (a :: b :: l).length ∧
          slice (a :: b :: l) (shift r').2.1 (shift r').2.2 =
            List.replicate ((shift r').2.2 - (shift r').2.1) (shift r').1 := by
        intro r' hr'
        obtain ⟨h1, h2, h3⟩ := ih (r := r') (by rw [hr]; exact hr')
        refine ⟨Nat.succ_lt_succ h1, Nat.succ_le_succ h2, ?_⟩
        simp only [shift, slice_cons_succ, Nat.add_sub_add_right]
        exact h3
      rw [hc] at h
      split_ifs at h with hab
      · rcases List.mem_cons.mp h with rfl | h
        · obtain ⟨h1, h2, h3⟩ := hfirst
          refine ⟨Nat.succ_pos e, Nat.succ_le_succ h2, ?_⟩
          simp only [slice_cons_zero, Nat.sub_zero] at h3 ⊢
          rw [h3, List.replicate_succ, hab]
        · obtain ⟨r', hr', rfl⟩ := List.mem_map.mp h
          exact hshift r' (.tail _ hr')
      · rcases List.mem_cons.mp h with rfl | h
        · exact ⟨Nat.one_pos, Nat.succ_le_succ (Nat.zero_le _), rfl⟩
        · rcases List.mem_cons.mp h with rfl | h
          · exact hshift (b, 0, e) (.head _)
          · obtain ⟨r', hr', rfl⟩ := List.mem_map.mp h
            exact hshift r' (.tail _ hr')

/-- The runs of one value cut out of another list the entries beside that value. -/
theorem flatMap_slice_runs_of (l : List α) (arr : List β) (h : arr.length = l.length) (a : α) :
    (((runs l).filter fun r => r.1 = a).flatMap fun r => slice arr r.2.1 r.2.2) =
      ((l.zip arr).filter fun x => x.1 = a).map Prod.snd := by
  have hzip := flatMap_slice_runs l (l.zip arr) (by rw [List.length_zip, h, Nat.min_self])
  have hrun : ∀ r ∈ runs l, ((slice (l.zip arr) r.2.1 r.2.2).filter fun x => x.1 = a).map Prod.snd =
      if r.1 = a then slice arr r.2.1 r.2.2 else [] := by
    intro r hr
    obtain ⟨hlt, hle, hconst⟩ := run_spec hr
    have hlen : (slice arr r.2.1 r.2.2).length = r.2.2 - r.2.1 := length_slice (h ▸ hle)
    have hfst : ∀ x ∈ slice (l.zip arr) r.2.1 r.2.2, x.1 = r.1 := by
      intro x hx
      rw [slice_zip, hconst] at hx
      exact (List.mem_replicate.mp (List.of_mem_zip hx).1).2
    split_ifs with hra
    · rw [List.filter_eq_self.mpr fun x hx => decide_eq_true ((hfst x hx).trans hra), slice_zip]
      apply List.map_snd_zip
      rw [hconst, List.length_replicate, hlen]
    · rw [List.filter_eq_nil_iff.mpr fun x hx hxa =>
        hra ((hfst x hx).symm.trans (of_decide_eq_true hxa))]
      rfl
  rw [← hzip, List.filter_flatMap, List.map_flatMap]
  generalize runs l = rs at hrun
  induction rs with
  | nil => rfl
  | cons r rs ih =>
    have hrest := ih fun x hx => hrun x (.tail _ hx)
    rw [List.filter_cons, List.flatMap_cons, hrun r (.head _), ← hrest]
    by_cases hra : r.1 = a
    · rw [if_pos (decide_eq_true hra), if_pos hra, List.flatMap_cons]
    · rw [if_neg (by simp [hra]), if_neg hra, List.nil_append]

/-- Neighbouring runs hold different values. -/
theorem isChain_runs (l : List α) : ((runs l).map Prod.fst).IsChain (· ≠ ·) := by
  induction l with
  | nil => exact .nil
  | cons a l ih =>
    cases l with
    | nil => exact .singleton a
    | cons b l =>
      obtain ⟨e, rest, hr, hc⟩ := runs_cons_cons a b l
      have hfst : (rest.map shift).map Prod.fst = rest.map Prod.fst := by
        rw [List.map_map]
        rfl
      rw [hr, List.map_cons] at ih
      rw [hc]
      split_ifs with hab
      · rw [List.map_cons, hfst]
        exact ih
      · rw [List.map_cons, List.map_cons, hfst]
        exact .cons_cons hab ih

theorem mem_runs_fst {l : List α} {a : α} : a ∈ (runs l).map Prod.fst ↔ a ∈ l := by
  have hcover := flatMap_slice_runs l l rfl
  constructor
  · intro h
    obtain ⟨r, hr, rfl⟩ := List.mem_map.mp h
    obtain ⟨h1, -, h3⟩ := run_spec hr
    have hmem : r.1 ∈ slice l r.2.1 r.2.2 := by
      rw [h3]
      exact List.mem_replicate.mpr ⟨by omega, rfl⟩
    rw [← hcover]
    exact List.mem_flatMap.mpr ⟨r, hr, hmem⟩
  · intro h
    rw [← hcover] at h
    obtain ⟨r, hr, ha⟩ := List.mem_flatMap.mp h
    rw [(run_spec hr).2.2] at ha
    exact List.mem_map.mpr ⟨r, hr, (List.eq_of_mem_replicate ha).symm⟩

theorem sublist_runs_fst (l : List α) : ((runs l).map Prod.fst).Sublist l := by
  have key : ∀ rs : List (α × Nat × Nat), (∀ r ∈ rs, r ∈ runs l) →
      (rs.map Prod.fst).Sublist (rs.flatMap fun r => slice l r.2.1 r.2.2) := by
    intro rs hrs
    induction rs with
    | nil => exact List.Sublist.refl _
    | cons r rs ih =>
      obtain ⟨h1, -, h3⟩ := run_spec (hrs r (.head _))
      have hpos : r.2.2 - r.2.1 = r.2.2 - r.2.1 - 1 + 1 := by omega
      rw [List.map_cons, List.flatMap_cons, h3, hpos, List.replicate_succ, List.cons_append]
      exact ((ih fun r' hr' => hrs r' (.tail _ hr')).trans (List.sublist_append_right _ _)).cons_cons _
  have hcover := flatMap_slice_runs l l rfl
  have hsub := key (runs l) fun _ h => h
  rwa [hcover] at hsub

/-- One entry per value and the rest empty: the concatenation is that entry. -/
theorem flatMap_of_nodup {δ : Type*} {rs : List (α × Nat × Nat)} {f : α × Nat × Nat → List δ}
    (hn : (rs.map Prod.fst).Nodup) {r : α × Nat × Nat} (hr : r ∈ rs) :
    rs.flatMap (fun r' => if r'.1 = r.1 then f r' else []) = f r := by
  induction rs with
  | nil => cases hr
  | cons r' rs ih =>
    rw [List.map_cons, List.nodup_cons] at hn
    rw [List.flatMap_cons]
    rcases List.mem_cons.mp hr with rfl | hr'
    · have hnil : rs.flatMap (fun r' => if r'.1 = r.1 then f r' else []) = [] := by
        refine List.flatMap_eq_nil_iff.mpr fun r' hr' => if_neg fun he => hn.1 ?_
        exact he ▸ List.mem_map_of_mem hr'
      rw [if_pos rfl, hnil, List.append_nil]
    · rw [if_neg, ih hn.2 hr', List.nil_append]
      rintro he
      exact hn.1 (he ▸ List.mem_map_of_mem hr')

end Runs

section Stable
variable [LinearOrder α]

/-- The order a stable sort by key compares with. -/
def byKey (a b : α × β) : Prop := a.1 ≤ b.1

instance : DecidableRel (byKey (α := α) (β := β)) := fun a b => inferInstanceAs (Decidable (a.1 ≤ b.1))

/-- The increasing values of the runs of a sorted list. -/
theorem pairwise_lt_runs {l : List α} (h : l.Pairwise (· ≤ ·)) :
    ((runs l).map Prod.fst).Pairwise (· < ·) := by
  have hle := h.sublist (sublist_runs_fst l)
  have hne := isChain_runs l
  generalize (runs l).map Prod.fst = ks at hle hne
  refine List.isChain_iff_pairwise.mp ?_
  induction ks with
  | nil => exact .nil
  | cons a ks ih =>
    cases ks with
    | nil => exact .singleton a
    | cons b ks =>
      rw [List.isChain_cons_cons] at hne ⊢
      rw [List.pairwise_cons] at hle
      exact ⟨lt_of_le_of_ne (hle.1 b (.head _)) hne.1, ih hle.2 hne.2⟩

/-- A stable sort keeps the entries of one key in their order. -/
theorem filter_insertionSort (l : List (α × β)) (c : α) :
    (l.insertionSort byKey).filter (fun x => decide (x.1 = c)) =
      l.filter fun x => decide (x.1 = c) := by
  induction l with
  | nil => rfl
  | cons a l ih =>
    rw [List.insertionSort_cons_eq_take_drop, List.filter_append, List.filter_cons, List.filter_cons]
    have hsplit := List.takeWhile_append_dropWhile (p := fun b => decide ¬byKey a b)
      (l := l.insertionSort byKey)
    by_cases hc : a.1 = c
    · have hnil : ((l.insertionSort byKey).takeWhile fun b => decide ¬byKey a b).filter
          (fun x => decide (x.1 = c)) = [] := by
        refine List.filter_eq_nil_iff.mpr fun b hb => ?_
        have hlt := of_decide_eq_true
          (List.mem_takeWhile_imp (p := fun b => decide ¬byKey a b) hb)
        intro he
        exact hlt (le_of_eq (hc.trans (of_decide_eq_true he).symm))
      rw [if_pos (decide_eq_true hc), if_pos (decide_eq_true hc), hnil, List.nil_append, ← ih,
        ← hsplit, List.filter_append, hnil, List.nil_append, hsplit]
    · rw [if_neg (by simpa using hc), if_neg (by simpa using hc), ← List.filter_append, hsplit, ih]

theorem pairwise_insertionSort_byKey (l : List (α × β)) :
    ((l.insertionSort byKey).map Prod.fst).Pairwise (· ≤ ·) := by
  have : Std.Total (byKey (α := α) (β := β)) := ⟨fun a b => le_total a.1 b.1⟩
  have : IsTrans (α × β) byKey := ⟨fun _ _ _ => le_trans⟩
  exact List.pairwise_map.mpr (List.pairwise_insertionSort byKey l)

/-- In a list sorted by key, the slice at a key's run holds that key's entries. -/
theorem slice_run_sorted {l : List (α × β)} (h : (l.map Prod.fst).Pairwise (· ≤ ·))
    {r : α × Nat × Nat} (hr : r ∈ runs (l.map Prod.fst)) :
    slice l r.2.1 r.2.2 = l.filter fun x => decide (x.1 = r.1) := by
  have hn : ((runs (l.map Prod.fst)).map Prod.fst).Nodup :=
    (pairwise_lt_runs h).imp fun hlt => ne_of_lt hlt
  have hcover := flatMap_slice_runs (l.map Prod.fst) l (List.length_map ..).symm
  have hslice : ∀ r' ∈ runs (l.map Prod.fst),
      (slice l r'.2.1 r'.2.2).filter (fun x => decide (x.1 = r.1)) =
        if r'.1 = r.1 then slice l r'.2.1 r'.2.2 else [] := by
    intro r' hr'
    have hkeys : ∀ x ∈ slice l r'.2.1 r'.2.2, x.1 = r'.1 := by
      intro x hx
      have hx' : x.1 ∈ slice (l.map Prod.fst) r'.2.1 r'.2.2 := by
        rw [slice_map]
        exact List.mem_map_of_mem hx
      rw [(run_spec hr').2.2] at hx'
      exact List.eq_of_mem_replicate hx'
    split_ifs with he
    · exact List.filter_eq_self.mpr fun x hx => decide_eq_true ((hkeys x hx).trans he)
    · refine List.filter_eq_nil_iff.mpr fun x hx hxr => he ?_
      exact (hkeys x hx).symm.trans (of_decide_eq_true hxr)
  have hfilter : l.filter (fun x => decide (x.1 = r.1)) =
      (runs (l.map Prod.fst)).flatMap fun r' =>
        if r'.1 = r.1 then slice l r'.2.1 r'.2.2 else [] := by
    rw [← List.flatMap_congr hslice, ← List.filter_flatMap, hcover]
  rw [hfilter, flatMap_of_nodup hn hr]

/-- `argsort(kind="stable")`. -/
def argsort (keys : List α) : List Nat := (keys.zipIdx.insertionSort byKey).map Prod.snd

/-- `arr[idx]`. -/
def gather (arr : List β) (idx : List Nat) : List β := idx.filterMap fun i => arr[i]?

/-- Sorting keys and an aligned column through one `argsort` sorts their pairs. -/
theorem zip_gather_argsort {keys : List α} {arr : List β} (h : arr.length = keys.length) :
    gather keys (argsort keys) = ((keys.zip arr).insertionSort byKey).map Prod.fst ∧
      gather arr (argsort keys) = ((keys.zip arr).insertionSort byKey).map Prod.snd := by
  have hpairs : (keys.zip arr).map (fun x => (x.1, some x.2)) =
      keys.zipIdx.map fun x => (x.1, arr[x.2]?) := by
    refine List.ext_getElem? fun i => ?_
    simp only [List.getElem?_map, List.getElem?_zipIdx]
    by_cases hi : i < keys.length
    · have ha : i < arr.length := h ▸ hi
      rw [List.getElem?_eq_getElem (by simpa using ⟨hi, ha⟩), List.getElem?_eq_getElem hi]
      simp [List.getElem_zip, ha]
    · rw [List.getElem?_eq_none (by simp; omega), List.getElem?_eq_none (not_lt.mp hi)]
      rfl
  have hsorted : ((keys.zip arr).insertionSort byKey).map (fun x => (x.1, some x.2)) =
      (keys.zipIdx.insertionSort byKey).map fun x => (x.1, arr[x.2]?) := by
    have hzip := List.map_insertionSort byKey byKey (fun x : α × β => (x.1, some x.2))
      (keys.zip arr) fun _ _ _ _ => Iff.rfl
    have hidx := List.map_insertionSort byKey byKey (fun x : α × Nat => (x.1, arr[x.2]?))
      keys.zipIdx fun _ _ _ _ => Iff.rfl
    rw [hzip, hpairs, hidx]
  constructor
  · have hkeys : ∀ x ∈ keys.zipIdx.insertionSort byKey, keys[x.2]? = some x.1 := by
      intro x hx
      exact List.mk_mem_zipIdx_iff_getElem?.mp ((List.perm_insertionSort _ _).mem_iff.mp hx)
    rw [gather, argsort, List.filterMap_map]
    calc (keys.zipIdx.insertionSort byKey).filterMap (fun x => keys[x.2]?)
        = (keys.zipIdx.insertionSort byKey).filterMap (fun x => some x.1) :=
          List.filterMap_congr hkeys
      _ = ((keys.zipIdx.insertionSort byKey).map fun x => (x.1, arr[x.2]?)).map Prod.fst := by
          rw [List.map_map, ← List.filterMap_eq_map]
          rfl
      _ = ((keys.zip arr).insertionSort byKey).map Prod.fst := by
          rw [← hsorted, List.map_map]
          rfl
  · rw [gather, argsort, List.filterMap_map]
    calc (keys.zipIdx.insertionSort byKey).filterMap (fun x => arr[x.2]?)
        = ((keys.zipIdx.insertionSort byKey).map fun x => (x.1, arr[x.2]?)).filterMap Prod.snd := by
          rw [List.filterMap_map]
          rfl
      _ = ((keys.zip arr).insertionSort byKey).map Prod.snd := by
          rw [← hsorted, List.filterMap_map, ← List.filterMap_eq_map]
          rfl

end Stable
end Zagg.Lib
