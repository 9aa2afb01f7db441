import Mathlib.Algebra.GroupWithZero.Nat
import Mathlib.Algebra.BigOperators.Group.List.Basic
import Mathlib.Logic.Function.Basic
import Mathlib.Tactic.Common

/-!
# Insertion-ordered dictionaries

A dictionary is the list of its items, read with `List.lookup`. `put` overwrites in
place or appends, so a key keeps the position of its first assignment.
-/
namespace Zagg.Lib

universe u v

variable {κ : Type u} {ν : Type v} [DecidableEq κ]

/-- `d[k] = v`. -/
def put (k : κ) (v : ν) : List (κ × ν) → List (κ × ν)
  | [] => [(k, v)]
  | e :: d => if e.1 = k then (k, v) :: d else e :: put k v d

theorem lookup_put (k j : κ) (v : ν) (d : List (κ × ν)) :
    (put k v d).lookup j = if j = k then some v else d.lookup j := by
  induction d with
  | nil =>
    rw [put, List.lookup_cons]
    split_ifs with h
    · rw [h, beq_self_eq_true]
    · rw [beq_false_of_ne h]
  | cons e d ih =>
    rw [put]
    split_ifs with he hj hj
    · rw [List.lookup_cons, hj, beq_self_eq_true]
    · rw [List.lookup_cons, List.lookup_cons, beq_false_of_ne hj, he, beq_false_of_ne hj]
    · have hej : (j == e.1) = false := beq_false_of_ne fun h => he (h.symm.trans hj)
      rw [List.lookup_cons, hej, ih, if_pos hj]
    · rw [List.lookup_cons, List.lookup_cons, ih, if_neg hj]

@[simp] theorem lookup_put_self (k : κ) (v : ν) (d : List (κ × ν)) :
    (put k v d).lookup k = some v := by
  rw [lookup_put, if_pos rfl]

theorem lookup_put_of_ne {k j : κ} (h : j ≠ k) (v : ν) (d : List (κ × ν)) :
    (put k v d).lookup j = d.lookup j := by
  rw [lookup_put, if_neg h]

theorem map_fst_put (k : κ) (v : ν) (d : List (κ × ν)) :
    (put k v d).map Prod.fst =
      if k ∈ d.map Prod.fst then d.map Prod.fst else d.map Prod.fst ++ [k] := by
  induction d with
  | nil => rfl
  | cons e d ih =>
    rw [put]
    split_ifs with he hmem hmem
    · rw [List.map_cons, List.map_cons, he]
    · rw [List.map_cons, he] at hmem
      exact absurd (.head _) hmem
    · rw [List.map_cons] at hmem
      have htail := (List.mem_cons.mp hmem).resolve_left (Ne.symm he)
      rw [List.map_cons, List.map_cons, ih, if_pos htail]
    · rw [List.map_cons, List.mem_cons, not_or] at hmem
      rw [List.map_cons, List.map_cons, ih, if_neg hmem.2, List.cons_append]

theorem mem_put {k : κ} {v : ν} {d : List (κ × ν)} {e : κ × ν} (h : e ∈ put k v d) :
    e = (k, v) ∨ e ∈ d := by
  induction d with
  | nil => exact .inl (List.mem_singleton.mp h)
  | cons e' d ih =>
    rw [put] at h
    split_ifs at h
    · exact (List.mem_cons.mp h).imp_right (.tail _)
    · rcases List.mem_cons.mp h with rfl | h
      · exact .inr (.head _)
      · exact (ih h).imp_right (.tail _)

theorem mem_of_lookup {k : κ} {v : ν} {d : List (κ × ν)} (h : d.lookup k = some v) : (k, v) ∈ d := by
  obtain ⟨l₁, l₂, rfl, -⟩ := List.lookup_eq_some_iff.mp h
  exact List.mem_append_right _ (.head _)

theorem put_of_notMem {k : κ} {v : ν} {d : List (κ × ν)} (h : k ∉ d.map Prod.fst) :
    put k v d = d ++ [(k, v)] := by
  induction d with
  | nil => rfl
  | cons e d ih =>
    rw [List.map_cons, List.mem_cons, not_or] at h
    rw [put, if_neg (Ne.symm h.1), ih h.2, List.cons_append]

theorem nodup_put (k : κ) (v : ν) {d : List (κ × ν)} (h : (d.map Prod.fst).Nodup) :
    ((put k v d).map Prod.fst).Nodup := by
  rw [map_fst_put]
  split_ifs with hk
  · exact h
  · exact List.nodup_append.mpr ⟨h, List.pairwise_singleton _ k, fun a ha b hb he =>
      hk (List.mem_singleton.mp hb ▸ he ▸ ha)⟩

/-- Overwriting trades the old count of a key for the new one. -/
theorem sum_put (k : κ) (n : Nat) (d : List (κ × Nat)) :
    ((put k n d).map Prod.snd).sum + (d.lookup k).getD 0 = (d.map Prod.snd).sum + n := by
  induction d with
  | nil => simp [put]
  | cons e d ih =>
    rw [put]
    split_ifs with he
    · rw [List.lookup_cons, he, beq_self_eq_true]
      simp only [List.map_cons, List.sum_cons, Option.getD_some]
      omega
    · rw [List.lookup_cons, beq_false_of_ne (Ne.symm he)]
      simp only [List.map_cons, List.sum_cons]
      omega

/-- A key is present once it is assigned, and a list of items with distinct keys is
read back entry by entry. -/
theorem lookup_of_nodup {d : List (κ × ν)} (hn : (d.map Prod.fst).Nodup) {e : κ × ν}
    (he : e ∈ d) : d.lookup e.1 = some e.2 := by
  induction d with
  | nil => cases he
  | cons e' d ih =>
    rw [List.map_cons, List.nodup_cons] at hn
    rw [List.lookup_cons]
    rcases List.mem_cons.mp he with rfl | he'
    · rw [beq_self_eq_true]
    · have hne : e.1 ≠ e'.1 := fun h => hn.1 (h ▸ List.mem_map_of_mem he')
      rw [beq_false_of_ne hne]
      exact ih hn.2 he'

/-- `del d[k]`. -/
theorem lookup_filter_ne {k j : κ} (h : j ≠ k) (d : List (κ × ν)) :
    (d.filter fun e => decide (e.1 ≠ k)).lookup j = d.lookup j := by
  induction d with
  | nil => rfl
  | cons e d ih =>
    rw [List.filter_cons]
    split_ifs with he
    · rw [List.lookup_cons, List.lookup_cons, ih]
    · have hk : e.1 = k := by simpa using he
      rw [ih, List.lookup_cons, hk, beq_false_of_ne h]

theorem lookup_eq_none {d : List (κ × ν)} {k : κ} :
    d.lookup k = none ↔ k ∉ d.map Prod.fst := by
  induction d with
  | nil => exact iff_of_true rfl (List.not_mem_nil)
  | cons e d ih =>
    rw [List.lookup_cons, List.map_cons, List.mem_cons, not_or]
    by_cases h : k = e.1
    · rw [h, beq_self_eq_true]
      exact iff_of_false nofun fun h' => h'.1 rfl
    · rw [beq_false_of_ne h]
      exact ih.trans (and_iff_right h).symm

/-- The order of the items does not show in a lookup. -/
theorem lookup_perm {d d' : List (κ × ν)} (hn : (d.map Prod.fst).Nodup) (h : d.Perm d') (k : κ) :
    d.lookup k = d'.lookup k := by
  have hn' := (h.map Prod.fst).nodup_iff.mp hn
  cases hk : d.lookup k with
  | some v => exact (lookup_of_nodup hn' (h.mem_iff.mp (mem_of_lookup hk))).symm
  | none =>
    rw [lookup_eq_none, (h.map Prod.fst).mem_iff] at hk
    exact (lookup_eq_none.mpr hk).symm

/-- `d.update(entries)`. -/
def putAll (entries d : List (κ × ν)) : List (κ × ν) := entries.foldl (fun d e => put e.1 e.2 d) d

theorem nodup_putAll {entries d : List (κ × ν)} (h : (d.map Prod.fst).Nodup) :
    ((putAll entries d).map Prod.fst).Nodup := by
  induction entries generalizing d with
  | nil => exact h
  | cons e entries ih => exact ih (nodup_put e.1 e.2 h)

theorem lookup_putAll {entries : List (κ × ν)} (h : (entries.map Prod.fst).Nodup) (d : List (κ × ν))
    (k : κ) : (putAll entries d).lookup k = (entries.lookup k).or (d.lookup k) := by
  induction entries generalizing d with
  | nil => rfl
  | cons e entries ih =>
    rw [List.map_cons, List.nodup_cons] at h
    show (putAll entries (put e.1 e.2 d)).lookup k = _
    rw [ih h.2, lookup_put, List.lookup_cons]
    by_cases hk : k = e.1
    · rw [if_pos hk, hk, beq_self_eq_true, lookup_eq_none.mpr h.1]
      rfl
    · rw [if_neg hk, beq_false_of_ne hk]

/-- A table of a function at some keys. -/
theorem lookup_map_key (f : κ → ν) (keys : List κ) (k : κ) :
    (keys.map fun key => (key, f key)).lookup k = if k ∈ keys then some (f k) else none := by
  induction keys with
  | nil => rfl
  | cons key keys ih =>
    rw [List.map_cons, List.lookup_cons, ih]
    by_cases hk : k = key
    · subst hk
      simp
    · simp [hk, beq_false_of_ne hk]

/-- A mapped dictionary. -/
theorem lookup_map_snd {μ : Type*} (f : ν → μ) (d : List (κ × ν)) (k : κ) :
    (d.map fun e => (e.1, f e.2)).lookup k = (d.lookup k).map f := by
  induction d with
  | nil => rfl
  | cons e d ih =>
    rw [List.map_cons, List.lookup_cons, List.lookup_cons]
    cases k == e.1 with
    | true => rfl
    | false => exact ih

theorem put_map_snd {μ : Type*} (f : ν → μ) (k : κ) (v : ν) (d : List (κ × ν)) :
    put k (f v) (d.map fun e => (e.1, f e.2)) = (put k v d).map fun e => (e.1, f e.2) := by
  induction d with
  | nil => rfl
  | cons e d ih =>
    rw [List.map_cons, put, put]
    split_ifs with he
    · rfl
    · rw [List.map_cons, ih]

/-- The entry of one index among the indexed results. -/
theorem lookup_filterMap_zipIdx {α β : Type*} (g : α → Option β) (l : List α) (n i : Nat) :
    ((l.zipIdx n).filterMap fun c => (g c.1).map (Prod.mk c.2)).lookup (n + i) =
      l[i]?.bind g := by
  induction l generalizing n i with
  | nil => rfl
  | cons a l ih =>
    rw [List.zipIdx_cons, List.filterMap_cons]
    have htail := ih (n + 1)
    generalize htl : (l.zipIdx (n + 1)).filterMap (fun c => (g c.1).map (Prod.mk c.2)) = tl at htail ⊢
    cases i with
    | zero =>
      rw [List.getElem?_cons_zero, Option.bind_some, Nat.add_zero]
      cases ha : g a with
      | some b => simp only [Option.map_some, List.lookup_cons, beq_self_eq_true]
      | none =>
        simp only [Option.map_none]
        rw [lookup_eq_none, ← htl]
        intro hmem
        obtain ⟨e, he, hn⟩ := List.mem_map.mp hmem
        obtain ⟨c, hc, hce⟩ := List.mem_filterMap.mp he
        obtain ⟨b, -, rfl⟩ := Option.map_eq_some_iff.mp hce
        have hle := (List.mem_zipIdx hc).1
        have hn : c.2 = n := hn
        omega
    | succ i =>
      rw [List.getElem?_cons_succ, ← htail i, Nat.add_right_comm, Nat.add_assoc]
      have hne : ((n + (i + 1)) == n) = false := beq_false_of_ne (by omega)
      cases ha : g a with
      | some b => simp only [Option.map_some, List.lookup_cons, hne]
      | none => simp only [Option.map_none]

section Slots
variable {N : Type u} {S : Type v} {F : Type*} [DecidableEq N]

/-- A loop in which every item updates its own slot leaves the other slots alone. -/
theorem foldl_update_of_notMem (name : F → N) (g : F → S → S) (fs : List F) (m : N → S) {n : N}
    (h : n ∉ fs.map name) :
    fs.foldl (fun m f => Function.update m (name f) (g f (m (name f)))) m n = m n := by
  induction fs generalizing m with
  | nil => rfl
  | cons f fs ih =>
    rw [List.map_cons, List.mem_cons, not_or] at h
    rw [List.foldl_cons, ih _ h.2, Function.update_of_ne h.1]

/-- With distinct names every slot is updated once. -/
theorem foldl_update_of_mem (name : F → N) (g : F → S → S) {fs : List F}
    (hn : (fs.map name).Nodup) (m : N → S) {f : F} (hf : f ∈ fs) :
    fs.foldl (fun m f => Function.update m (name f) (g f (m (name f)))) m (name f) =
      g f (m (name f)) := by
  induction fs generalizing m with
  | nil => cases hf
  | cons f' fs ih =>
    rw [List.map_cons, List.nodup_cons] at hn
    rw [List.foldl_cons]
    rcases List.mem_cons.mp hf with rfl | hf'
    · rw [foldl_update_of_notMem name g fs _ hn.1, Function.update_self]
    · have hne : name f ≠ name f' := fun he => hn.1 (he ▸ List.mem_map_of_mem hf')
      rw [ih hn.2 _ hf', Function.update_of_ne hne]

variable {B : Type*} {C : Type*}

omit [DecidableEq N] in
/-- A view that only the item of one name changes stays when no item has the name. -/
theorem foldl_view_of_notMem (name : F → N) (step : B → F → B) (view : B → C) {n : N} {fs : List F}
    (hother : ∀ f ∈ fs, name f ≠ n → ∀ b, view (step b f) = view b) (h : n ∉ fs.map name) (b : B) :
    view (fs.foldl step b) = view b := by
  induction fs generalizing b with
  | nil => rfl
  | cons f fs ih =>
    rw [List.map_cons, List.mem_cons, not_or] at h
    rw [List.foldl_cons, ih (fun g hg => hother g (.tail _ hg)) h.2, hother f (.head _) fun he => h.1 he.symm]

omit [DecidableEq N] in
/-- With distinct names it is changed by that item alone. -/
theorem foldl_view_of_mem (name : F → N) (step : B → F → B) (view : B → C) (u : C → C) {fs : List F}
    (hn : (fs.map name).Nodup) {f : F} (hf : f ∈ fs)
    (hother : ∀ f' ∈ fs, name f' ≠ name f → ∀ b, view (step b f') = view b)
    (hself : ∀ b, view (step b f) = u (view b)) (b : B) :
    view (fs.foldl step b) = u (view b) := by
  induction fs generalizing b with
  | nil => cases hf
  | cons f' fs ih =>
    rw [List.map_cons, List.nodup_cons] at hn
    rw [List.foldl_cons]
    by_cases he : f' = f
    · rw [he] at hn ⊢
      rw [foldl_view_of_notMem name step view (fun g hg => hother g (.tail _ hg)) hn.1, hself]
    · have hmem : f ∈ fs := (List.mem_cons.mp hf).resolve_left fun h => he h.symm
      have hne : name f' ≠ name f := fun h => hn.1 (h ▸ List.mem_map_of_mem hmem)
      rw [ih hn.2 hmem fun g hg => hother g (.tail _ hg), hother f' (.head _) hne]

end Slots

end Zagg.Lib
