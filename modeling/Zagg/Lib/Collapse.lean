import Mathlib.Data.List.Dedup
import Mathlib.Data.List.Induction
import Mathlib.Data.List.Nodup
import Zagg.Lib.Collect

/-!
# Collapsing by key

A dictionary built from pairs has each key at the place of its first pair, with the value of its
last. Building it in groups first, from dictionaries of the groups, gives the same dictionary.
-/
namespace Zagg.Lib

universe u v

variable {κ : Type u} {ν : Type v} [DecidableEq κ]

/-- `dict(entries)`. -/
def dictOf (entries : List (κ × ν)) : List (κ × ν) := putAll entries []

theorem put_put_self (k : κ) (v v' : ν) (d : List (κ × ν)) : put k v (put k v' d) = put k v d := by
  induction d with
  | nil => exact if_pos rfl
  | cons e d ih =>
    rw [put, put]
    by_cases he : e.1 = k
    · rw [if_pos he, if_pos he, put, if_pos rfl]
    · rw [if_neg he, if_neg he, put, if_neg he, ih]

/-- Assignments to different keys commute once the first key has its place. -/
theorem put_comm {k k' : κ} (hne : k ≠ k') {d : List (κ × ν)} (hk : k ∈ d.map Prod.fst) (v v' : ν) :
    put k v (put k' v' d) = put k' v' (put k v d) := by
  induction d with
  | nil => cases hk
  | cons e d ih =>
    rw [put, put]
    by_cases he' : e.1 = k'
    · have he : e.1 ≠ k := he'.trans_ne hne.symm
      rw [if_pos he', if_neg he, put, put, if_pos he', if_neg hne.symm]
    · by_cases he : e.1 = k
      · rw [if_neg he', if_pos he, put, put, if_pos he, if_neg hne]
      · have hrest : k ∈ d.map Prod.fst := (List.mem_cons.mp hk).resolve_left (Ne.symm he)
        rw [if_neg he', if_neg he, put, put, if_neg he, if_neg he', ih hrest]

theorem putAll_cons (e : κ × ν) (entries d : List (κ × ν)) :
    putAll (e :: entries) d = putAll entries (put e.1 e.2 d) := rfl

theorem putAll_append (entries entries' d : List (κ × ν)) :
    putAll (entries ++ entries') d = putAll entries' (putAll entries d) := List.foldl_append

theorem mem_keys_put {k j : κ} {v : ν} {d : List (κ × ν)} :
    j ∈ (put k v d).map Prod.fst ↔ j = k ∨ j ∈ d.map Prod.fst := by
  rw [map_fst_put]
  split_ifs with h
  · exact ⟨.inr, fun hj => hj.elim (fun he => he ▸ h) id⟩
  · rw [List.mem_append, List.mem_singleton, or_comm]

theorem put_putAll_of_notMem {k : κ} {entries d : List (κ × ν)} (hk : k ∉ entries.map Prod.fst)
    (hd : k ∈ d.map Prod.fst) (v : ν) : put k v (putAll entries d) = putAll entries (put k v d) := by
  induction entries generalizing d with
  | nil => rfl
  | cons e entries ih =>
    rw [List.map_cons, List.mem_cons, not_or] at hk
    rw [putAll_cons, putAll_cons, ih hk.2 (mem_keys_put.mpr (.inr hd)), put_comm hk.1 hd]

theorem putAll_put {entries : List (κ × ν)} (h : (entries.map Prod.fst).Nodup) (k : κ) (v : ν)
    (d : List (κ × ν)) : putAll (put k v entries) d = put k v (putAll entries d) := by
  induction entries generalizing d with
  | nil => rfl
  | cons e entries ih =>
    rw [List.map_cons, List.nodup_cons] at h
    rw [put, putAll_cons]
    by_cases he : e.1 = k
    · subst he
      rw [if_pos rfl, putAll_cons, put_putAll_of_notMem h.1 (mem_keys_put.mpr (.inl rfl)),
        put_put_self]
    · rw [if_neg he, putAll_cons, ih h.2]

theorem nodup_dictOf (entries : List (κ × ν)) : ((dictOf entries).map Prod.fst).Nodup :=
  nodup_putAll List.nodup_nil

/-- Updating with a dictionary is updating with the pairs it was built from. -/
theorem putAll_dictOf (entries d : List (κ × ν)) : putAll (dictOf entries) d = putAll entries d := by
  induction entries using List.reverseRecOn with
  | nil => rfl
  | append_singleton entries e ih =>
    have hlast : dictOf (entries ++ [e]) = put e.1 e.2 (dictOf entries) := putAll_append ..
    rw [hlast, putAll_put (nodup_dictOf entries), ih, putAll_append]
    rfl

/-- Collapsing the groups first changes nothing. -/
theorem dictOf_flatMap_dictOf (groups : List (List (κ × ν))) :
    dictOf (groups.flatMap dictOf) = dictOf groups.flatten := by
  have hgroups (d : List (κ × ν)) : putAll (groups.flatMap dictOf) d = putAll groups.flatten d := by
    induction groups generalizing d with
    | nil => rfl
    | cons group groups ih =>
      rw [List.flatMap_cons, List.flatten_cons, putAll_append, putAll_append, putAll_dictOf, ih]
  exact hgroups []

theorem mem_keys_dictOf {entries : List (κ × ν)} {k : κ} :
    k ∈ (dictOf entries).map Prod.fst ↔ k ∈ entries.map Prod.fst := by
  induction entries using List.reverseRecOn with
  | nil => exact .rfl
  | append_singleton entries e ih =>
    have hlast : dictOf (entries ++ [e]) = put e.1 e.2 (dictOf entries) := putAll_append ..
    rw [hlast, mem_keys_put, ih, List.map_append, List.mem_append, List.map_singleton,
      List.mem_singleton, or_comm]

theorem mem_of_mem_dictOf {entries : List (κ × ν)} {e : κ × ν} (h : e ∈ dictOf entries) :
    e ∈ entries := by
  induction entries using List.reverseRecOn with
  | nil => exact h
  | append_singleton entries e' ih =>
    have hlast : dictOf (entries ++ [e']) = put e'.1 e'.2 (dictOf entries) := putAll_append ..
    rw [hlast] at h
    exact List.mem_append.mpr ((mem_put h).symm.imp ih List.mem_singleton.mpr)

/-- More than one key is left exactly when two pairs have different ones. -/
theorem one_lt_length_dictOf {entries : List (κ × ν)} : 1 < (dictOf entries).length ↔
    ∃ e ∈ entries, ∃ e' ∈ entries, e.1 ≠ e'.1 := by
  have hkeys {k : κ} := @mem_keys_dictOf κ ν _ entries k
  constructor
  · intro h
    match hd : dictOf entries with
    | [] | [_] => rw [hd] at h; exact absurd h (by simp)
    | e :: e' :: rest =>
      have hnodup := nodup_dictOf entries
      rw [hd, List.map_cons, List.nodup_cons] at hnodup
      refine ⟨e, mem_of_mem_dictOf (hd ▸ .head _), e', mem_of_mem_dictOf (hd ▸ .tail _ (.head _)), ?_⟩
      exact fun he => hnodup.1 (he ▸ .head _)
  · intro ⟨e, he, e', he', hne⟩
    have hmem := hkeys.mpr (List.mem_map_of_mem he)
    have hmem' := hkeys.mpr (List.mem_map_of_mem he')
    rw [← List.length_map Prod.fst]
    by_contra hle
    match hd : (dictOf entries).map Prod.fst with
    | [] => rw [hd] at hmem; cases hmem
    | [k] =>
      rw [hd, List.mem_singleton] at hmem hmem'
      exact hne (hmem.trans hmem'.symm)
    | _ :: _ :: _ => rw [hd] at hle; exact hle (by simp)

/-- A key keeps its last value. -/
theorem lookup_dictOf (entries : List (κ × ν)) (k : κ) :
    (dictOf entries).lookup k = entries.reverse.lookup k := by
  induction entries using List.reverseRecOn with
  | nil => rfl
  | append_singleton entries e ih =>
    have hlast : dictOf (entries ++ [e]) = put e.1 e.2 (dictOf entries) := putAll_append ..
    rw [hlast, lookup_put, List.reverse_append, List.reverse_singleton, List.singleton_append,
      List.lookup_cons, ih]
    by_cases hk : k = e.1
    · rw [if_pos hk, hk, beq_self_eq_true]
    · rw [if_neg hk, beq_false_of_ne hk]

/-- A dictionary of mapped elements has at each key the last element of that key. -/
theorem lookup_dictOf_map {α : Type*} (key : α → κ) (val : α → ν) (l : List α) (k : κ) :
    (dictOf (l.map fun a => (key a, val a))).lookup k =
      (l.reverse.find? fun a => key a = k).map val := by
  rw [lookup_dictOf, ← List.map_reverse]
  induction l.reverse with
  | nil => rfl
  | cons a l ih =>
    rw [List.map_cons, List.lookup_cons, ih, List.find?_cons]
    by_cases hk : k = key a
    · rw [hk, beq_self_eq_true, decide_eq_true rfl]
      rfl
    · rw [beq_false_of_ne hk, decide_eq_false (Ne.symm hk)]

theorem mem_dictOf_map {α : Type*} {key : α → κ} {val : α → ν} {l : List α} {k : κ} {v : ν} :
    (k, v) ∈ dictOf (l.map fun a => (key a, val a)) ↔
      ∃ a, l.reverse.find? (fun a => key a = k) = some a ∧ val a = v := by
  have hlookup : (k, v) ∈ dictOf (l.map fun a => (key a, val a)) ↔
      (dictOf (l.map fun a => (key a, val a))).lookup k = some v :=
    ⟨lookup_of_nodup (nodup_dictOf _), mem_of_lookup⟩
  rw [hlookup, lookup_dictOf_map, Option.map_eq_some_iff]

/-- `dict(entries).get(k)`. -/
def dictGet (entries : List (κ × ν)) (k : κ) : Option ν := (dictOf entries).lookup k

/-- Two readings that agree on what is the same leave equally many different values. -/
theorem length_dedup_map {α β γ : Type*} [DecidableEq β] [DecidableEq γ] {f : α → β} {g : α → γ}
    {l : List α} (h : ∀ a ∈ l, ∀ b ∈ l, f a = f b ↔ g a = g b) :
    (l.map f).dedup.length = (l.map g).dedup.length := by
  induction l with
  | nil => rfl
  | cons a l ih =>
    have hrest := ih fun x hx y hy => h x (.tail _ hx) y (.tail _ hy)
    have hmem : f a ∈ l.map f ↔ g a ∈ l.map g := by
      rw [List.mem_map, List.mem_map]
      refine exists_congr fun b => and_congr_right fun hb => ?_
      exact h b (.tail _ hb) a (.head _)
    rw [List.map_cons, List.map_cons]
    by_cases hf : f a ∈ l.map f
    · rw [List.dedup_cons_of_mem hf, List.dedup_cons_of_mem (hmem.mp hf), hrest]
    · rw [List.dedup_cons_of_notMem hf, List.dedup_cons_of_notMem (mt hmem.mpr hf),
        List.length_cons, List.length_cons, hrest]

section Bucketed
variable {κ' : Type*} [DecidableEq κ']

/-- A dictionary of dictionaries: `d.setdefault(k, {}).update(entries)`, item by item. -/
def bucketed (items : List (κ × List (κ' × ν))) : List (κ × List (κ' × ν)) :=
  items.foldl (fun d item => put item.1 (putAll item.2 ((d.lookup item.1).getD [])) d) []

/-- Each bucket is the dictionary of all that its key was given. -/
theorem bucketed_eq (items : List (κ × List (κ' × ν))) :
    bucketed items = (collect items).map fun e => (e.1, dictOf e.2) := by
  induction items using List.reverseRecOn with
  | nil => rfl
  | append_singleton items item ih =>
    have hlast : bucketed (items ++ [item]) =
        put item.1 (putAll item.2 (((bucketed items).lookup item.1).getD [])) (bucketed items) := by
      rw [bucketed, List.foldl_append]
      rfl
    have hbucket : putAll item.2 ((((collect items).lookup item.1).map dictOf).getD []) =
        dictOf (((collect items).lookup item.1).getD [] ++ item.2) := by
      cases (collect items).lookup item.1 with
      | none => rfl
      | some entries => exact (putAll_append ..).symm
    rw [hlast, ih, lookup_map_snd, hbucket, put_map_snd, collect_concat, extendAt]

end Bucketed

section Registered
variable {κ' : Type*} [DecidableEq κ']

/-- A dictionary of dictionaries: `d.setdefault(k, {})[k'] = v`, item by item. -/
def registered (items : List (κ × κ' × ν)) : List (κ × List (κ' × ν)) :=
  items.foldl (fun d item => put item.1 (put item.2.1 item.2.2 ((d.lookup item.1).getD [])) d) []

theorem lookup_registered (items : List (κ × κ' × ν)) (k : κ) :
    ((registered items).lookup k).getD [] =
      dictOf ((items.filter fun item => item.1 = k).map Prod.snd) := by
  induction items using List.reverseRecOn with
  | nil => rfl
  | append_singleton items item ih =>
    have hlast : registered (items ++ [item]) = put item.1 (put item.2.1 item.2.2
        (((registered items).lookup item.1).getD [])) (registered items) := by
      rw [registered, List.foldl_append]
      rfl
    rw [hlast, lookup_put, List.filter_append, List.map_append]
    by_cases hk : k = item.1
    · subst hk
      rw [if_pos rfl, ih, List.filter_singleton, decide_eq_true rfl]
      exact (putAll_append _ [item.2] []).symm
    · rw [if_neg hk, ih, List.filter_singleton, decide_eq_false (Ne.symm hk), Bool.cond_false,
        List.map_nil, List.append_nil]

theorem nodup_registered (items : List (κ × κ' × ν)) : ((registered items).map Prod.fst).Nodup := by
  induction items using List.reverseRecOn with
  | nil => exact List.nodup_nil
  | append_singleton items item ih =>
    rw [registered, List.foldl_append]
    exact nodup_put _ _ ih

/-- Some key has two keys below it exactly when two items of one key differ in the second. -/
theorem exists_one_lt_registered {items : List (κ × κ' × ν)} :
    (∃ e ∈ registered items, 1 < e.2.length) ↔
      ∃ i ∈ items, ∃ j ∈ items, i.1 = j.1 ∧ i.2.1 ≠ j.2.1 := by
  have hlookup := lookup_registered items
  constructor
  · intro ⟨e, he, hlong⟩
    have hown := hlookup e.1
    rw [lookup_of_nodup (nodup_registered items) he] at hown
    rw [show e.2 = _ from hown, one_lt_length_dictOf] at hlong
    obtain ⟨x, hx, y, hy, hne⟩ := hlong
    obtain ⟨i, hi, rfl⟩ := List.mem_map.mp hx
    obtain ⟨j, hj, rfl⟩ := List.mem_map.mp hy
    obtain ⟨hi, hik⟩ := List.mem_filter.mp hi
    obtain ⟨hj, hjk⟩ := List.mem_filter.mp hj
    exact ⟨i, hi, j, hj, (of_decide_eq_true hik).trans (of_decide_eq_true hjk).symm, hne⟩
  · intro ⟨i, hi, j, hj, hkey, hne⟩
    have hmem {x : κ × κ' × ν} (hx : x ∈ items) (hk : x.1 = i.1) :
        x.2 ∈ (items.filter fun item => item.1 = i.1).map Prod.snd :=
      List.mem_map_of_mem (List.mem_filter.mpr ⟨hx, decide_eq_true hk⟩)
    have hlong := one_lt_length_dictOf.mpr ⟨_, hmem hi rfl, _, hmem hj hkey.symm, hne⟩
    rw [← hlookup i.1] at hlong
    cases hv : (registered items).lookup i.1 with
    | none => rw [hv] at hlong; exact absurd hlong (Nat.not_lt_zero _)
    | some v =>
      rw [hv] at hlong
      exact ⟨_, mem_of_lookup hv, hlong⟩

end Registered

end Zagg.Lib
