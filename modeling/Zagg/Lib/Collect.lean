import Mathlib.Data.List.Induction
import Mathlib.Data.List.Nodup
import Mathlib.Data.List.Perm.Basic
import Zagg.Lib.Dict
import Zagg.Lib.Pointwise

/-!
# Collecting by key

A dictionary of lists, built by appending each item's list to what its key has so far: every
item is there once, under its own key, and the keys stand in the order of their first items.
-/
namespace Zagg.Lib

universe u v

variable {κ : Type u} {ν : Type v} [DecidableEq κ]

/-- `d.setdefault(k, []).extend(xs)`. -/
def extendAt (k : κ) (xs : List ν) (d : List (κ × List ν)) : List (κ × List ν) :=
  put k ((d.lookup k).getD [] ++ xs) d

def collect (items : List (κ × List ν)) : List (κ × List ν) :=
  items.foldl (fun d item => extendAt item.1 item.2 d) []

/-- `[(k, d[k]) for k in order if k in d]`. -/
def readIn {μ : Type*} (order : List κ) (d : List (κ × μ)) : List (κ × μ) :=
  order.filterMap fun k => (d.lookup k).map fun v => (k, v)

theorem perm_extendAt (k : κ) (xs : List ν) (d : List (κ × List ν)) :
    ((extendAt k xs d).flatMap Prod.snd).Perm (d.flatMap Prod.snd ++ xs) := by
  induction d with
  | nil =>
    show ([] ++ xs ++ []).Perm ([] ++ xs)
    rw [List.append_nil]
  | cons e d ih =>
    rw [extendAt, put, List.lookup_cons, List.flatMap_cons]
    by_cases he : e.1 = k
    · rw [if_pos he, he, beq_self_eq_true, List.flatMap_cons]
      show (e.2 ++ xs ++ d.flatMap Prod.snd).Perm _
      rw [List.append_assoc, List.append_assoc]
      exact (List.perm_append_comm).append_left e.2
    · rw [if_neg he, beq_false_of_ne (Ne.symm he), List.flatMap_cons, List.append_assoc]
      exact ih.append_left e.2

variable (items : List (κ × List ν))

theorem collect_concat (item : κ × List ν) :
    collect (items ++ [item]) = extendAt item.1 item.2 (collect items) := by
  rw [collect, List.foldl_append]
  rfl

/-- No item is lost and none is there twice. -/
theorem perm_collect : ((collect items).flatMap Prod.snd).Perm (items.flatMap Prod.snd) := by
  induction items using List.reverseRecOn with
  | nil => exact .refl _
  | append_singleton items item ih =>
    rw [collect_concat, List.flatMap_append, List.flatMap_singleton]
    exact (perm_extendAt ..).trans (ih.append_right item.2)

theorem nodup_collect : ((collect items).map Prod.fst).Nodup := by
  induction items using List.reverseRecOn with
  | nil => exact .nil
  | append_singleton items item ih =>
    rw [collect_concat]
    exact nodup_put _ _ ih

/-- A key has the lists of its items, one behind the other. -/
theorem lookup_collect (k : κ) : (collect items).lookup k =
    if k ∈ items.map Prod.fst then
      some ((items.filter fun item => item.1 = k).flatMap Prod.snd) else none := by
  induction items using List.reverseRecOn with
  | nil => rfl
  | append_singleton items item ih =>
    have hkeys : k ∈ (items ++ [item]).map Prod.fst ↔ k ∈ items.map Prod.fst ∨ k = item.1 := by
      rw [List.map_append, List.mem_append, List.map_singleton, List.mem_singleton]
    rw [collect_concat, extendAt, lookup_put, List.filter_append, List.flatMap_append]
    by_cases hk : k = item.1
    · rw [if_pos hk, if_pos (hkeys.mpr (.inr hk)), ← hk, ih, List.filter_singleton,
        decide_eq_true hk.symm, Bool.cond_true, List.flatMap_singleton]
      congr 2
      split_ifs with hmem
      · rfl
      · have hnone : items.filter (fun i => i.1 = k) = [] := by
          rw [List.filter_eq_nil_iff]
          intro i hi he
          exact hmem (of_decide_eq_true he ▸ List.mem_map_of_mem hi)
        rw [hnone]
        rfl
    · have hsame : k ∈ (items ++ [item]).map Prod.fst ↔ k ∈ items.map Prod.fst :=
        hkeys.trans (or_iff_left hk)
      rw [if_neg hk, ih, List.filter_singleton, decide_eq_false (Ne.symm hk), Bool.cond_false,
        List.flatMap_nil, List.append_nil]
      exact if_congr hsame.symm rfl rfl

theorem mem_keys_collect {k : κ} : k ∈ (collect items).map Prod.fst ↔ k ∈ items.map Prod.fst := by
  rw [← not_iff_not, ← lookup_eq_none, lookup_collect]
  split_ifs with h
  · exact ⟨nofun, fun hn => absurd h hn⟩
  · exact ⟨fun _ => h, fun _ => rfl⟩

variable {items}

/-- Reading a dictionary in an order of its keys meets every entry once. -/
theorem perm_readIn {μ : Type*} {d : List (κ × μ)} (hd : (d.map Prod.fst).Nodup) {order : List κ}
    (ho : order.Nodup) (hsub : ∀ k ∈ d.map Prod.fst, k ∈ order) : (readIn order d).Perm d := by
  have hread {k : κ} {e : κ × μ} (h : (d.lookup k).map (fun v => (k, v)) = some e) :
      e.1 = k ∧ e ∈ d := by
    obtain ⟨v, hv, rfl⟩ := Option.map_eq_some_iff.mp h
    exact ⟨rfl, mem_of_lookup hv⟩
  apply (List.perm_ext_iff_of_nodup _ (List.Nodup.of_map _ hd)).mpr
  · intro e
    rw [readIn, List.mem_filterMap]
    constructor
    · intro ⟨k, _, h⟩
      exact (hread h).2
    · intro he
      exact ⟨e.1, hsub e.1 (List.mem_map_of_mem he), by rw [lookup_of_nodup hd he]; rfl⟩
  · exact List.Nodup.filterMap (fun k k' e h h' => (hread h).1.symm.trans (hread h').1) ho

/-- What an entry gave is found by its key, behind all others. -/
theorem filter_flatMap_key {β : Type*} {μ : Type*} {key : β → κ} {d : List (κ × μ)}
    (hd : (d.map Prod.fst).Nodup) {f : κ × μ → List β} (hf : ∀ e ∈ d, ∀ b ∈ f e, key b = e.1)
    {e : κ × μ} (he : e ∈ d) : (d.flatMap f).filter (fun b => key b = e.1) = f e := by
  induction d with
  | nil => cases he
  | cons e' d ih =>
    rw [List.map_cons, List.nodup_cons] at hd
    have hrest := fun e he => hf e (List.mem_cons_of_mem e' he)
    rw [List.flatMap_cons, List.filter_append]
    cases List.mem_cons.mp he with
    | inl heq =>
      subst heq
      have hown : (f e).filter (fun b => key b = e.1) = f e :=
        List.filter_eq_self.mpr fun b hb => decide_eq_true (hf e (.head _) b hb)
      have hothers : (d.flatMap f).filter (fun b => key b = e.1) = [] := by
        rw [List.filter_eq_nil_iff]
        intro b hb hkey
        obtain ⟨e', he', hb⟩ := List.mem_flatMap.mp hb
        have hsame : e'.1 = e.1 := (hrest e' he' b hb).symm.trans (of_decide_eq_true hkey)
        exact hd.1 (hsame ▸ List.mem_map_of_mem he')
      rw [hown, hothers, List.append_nil]
    | inr he =>
      have hother : (f e').filter (fun b => key b = e.1) = [] := by
        rw [List.filter_eq_nil_iff]
        intro b hb hkey
        have hsame : e'.1 = e.1 := (hf e' (.head _) b hb).symm.trans (of_decide_eq_true hkey)
        exact hd.1 (hsame ▸ List.mem_map_of_mem he)
      rw [hother, List.nil_append]
      exact ih hd.2 hrest he

/-- A filter and a map in one. -/
theorem map_filter_eq_filterMap {α β : Type*} (p : α → Bool) (f : α → β) (l : List α) :
    (l.filter p).map f = l.filterMap fun a => if p a then some (f a) else none := by
  induction l with
  | nil => rfl
  | cons a l ih =>
    rw [List.filter_cons, List.filterMap_cons]
    cases p a with
    | true => exact congrArg (f a :: ·) ih
    | false => exact ih

/-- Where only one entry gives anything, it gives all. -/
theorem flatMap_of_unique {β : Type*} {μ : Type*} {d : List (κ × μ)} (hd : (d.map Prod.fst).Nodup)
    {f : κ × μ → List β} {e : κ × μ} (he : e ∈ d) (hf : ∀ e' ∈ d, e'.1 ≠ e.1 → f e' = []) :
    d.flatMap f = f e := by
  induction d with
  | nil => cases he
  | cons e' d ih =>
    rw [List.map_cons, List.nodup_cons] at hd
    have hrest := fun x hx => hf x (List.mem_cons_of_mem e' hx)
    rw [List.flatMap_cons]
    by_cases heq : e' = e
    · subst heq
      have hothers : d.flatMap f = [] := by
        rw [List.flatMap_eq_nil_iff]
        intro x hx
        exact hrest x hx fun hkey => hd.1 (hkey ▸ List.mem_map_of_mem hx)
      rw [hothers, List.append_nil]
    · have hmem : e ∈ d := (List.mem_cons.mp he).resolve_left (Ne.symm heq)
      have hne : e'.1 ≠ e.1 := fun hkey => hd.1 (hkey ▸ List.mem_map_of_mem hmem)
      rw [hf e' (.head _) hne, List.nil_append]
      exact ih hd.2 hmem hrest

/-- An entry holds the items of its key. -/
theorem snd_of_mem_collect {e : κ × List ν} (h : e ∈ collect items) :
    e.2 = (items.filter fun item => item.1 = e.1).flatMap Prod.snd := by
  have hlookup := lookup_of_nodup (nodup_collect items) h
  have hkey := (mem_keys_collect items).mp (List.mem_map_of_mem h)
  rw [lookup_collect, if_pos hkey] at hlookup
  exact (Option.some.inj hlookup).symm

theorem mem_entry {e : κ × List ν} (he : e ∈ collect items) {x : ν} :
    x ∈ e.2 ↔ ∃ item ∈ items, item.1 = e.1 ∧ x ∈ item.2 := by
  rw [snd_of_mem_collect he, List.mem_flatMap]
  simp only [List.mem_filter, decide_eq_true_iff, and_assoc]

/-- The entries of some keys. -/
theorem lookup_filter_mem (d : List (κ × ν)) (keys : List κ) (k : κ) :
    (d.filter fun e => e.1 ∈ keys).lookup k = if k ∈ keys then d.lookup k else none := by
  induction d with
  | nil => split_ifs <;> rfl
  | cons e d ih =>
    by_cases hmem : e.1 ∈ keys
    · have hkeep : (e :: d).filter (fun e => decide (e.1 ∈ keys)) =
          e :: d.filter fun e => decide (e.1 ∈ keys) := by simp [hmem]
      rw [hkeep, List.lookup_cons, List.lookup_cons, ih]
      cases hk : k == e.1 with
      | true =>
        have heq : k = e.1 := eq_of_beq hk
        subst heq
        exact (if_pos hmem).symm
      | false => rfl
    · have hskip : (e :: d).filter (fun e => decide (e.1 ∈ keys)) =
          d.filter fun e => decide (e.1 ∈ keys) := by simp [hmem]
      rw [hskip, ih, List.lookup_cons]
      by_cases hk : k = e.1
      · rw [hk, if_neg hmem, if_neg hmem]
      · rw [beq_false_of_ne hk]

/-- A dictionary made of the entries of another, some of them left out. -/
theorem lookup_filterMap_of_forall₂ {α : Type*} {R : κ × α → Option (κ × ν) → Prop}
    (hR : ∀ e r, R e (some r) → r.1 = e.1) {l : List (κ × α)} {rs : List (Option (κ × ν))}
    (h : List.Forall₂ R l rs) (hn : (l.map Prod.fst).Nodup) {e : κ × α} (he : e ∈ l) :
    ∃ r, R e r ∧ (rs.filterMap id).lookup e.1 = r.map Prod.snd := by
  have habsent : ∀ {l : List (κ × α)} {rs : List (Option (κ × ν))}, List.Forall₂ R l rs → ∀ k,
      k ∉ l.map Prod.fst → (rs.filterMap id).lookup k = none := by
    intro l rs h k hk
    rw [lookup_eq_none]
    intro hmem
    obtain ⟨entry, hentry, rfl⟩ := List.mem_map.mp hmem
    obtain ⟨r, hr, hsome⟩ := List.mem_filterMap.mp hentry
    obtain ⟨e, he, hrel⟩ := forall₂_exists_of_mem_right h hr
    obtain rfl : r = some entry := hsome
    exact hk (hR e entry hrel ▸ List.mem_map_of_mem he)
  induction h with
  | nil => cases he
  | @cons e' r l rs hrel hrest ih =>
    rw [List.map_cons, List.nodup_cons] at hn
    rcases List.mem_cons.mp he with rfl | he
    · refine ⟨r, hrel, ?_⟩
      cases r with
      | none => exact habsent hrest e.1 hn.1
      | some entry =>
        show List.lookup e.1 (entry :: rs.filterMap id) = some entry.2
        rw [List.lookup_cons, hR e entry hrel, beq_self_eq_true]
    · obtain ⟨r', hrel', hlookup⟩ := ih hn.2 he
      refine ⟨r', hrel', ?_⟩
      cases r with
      | none => exact hlookup
      | some entry =>
        have hne : e.1 ≠ entry.1 := fun heq =>
          hn.1 ((heq.trans (hR e' entry hrel)) ▸ List.mem_map_of_mem he)
        show List.lookup e.1 (entry :: rs.filterMap id) = _
        rw [List.lookup_cons, beq_false_of_ne hne]
        exact hlookup

/-- A dictionary whose values are mapped with their keys. -/
theorem lookup_map_keyed {μ : Type*} (f : κ → ν → μ) (d : List (κ × ν)) (k : κ) :
    (d.map fun e => (e.1, f e.1 e.2)).lookup k = (d.lookup k).map (f k) := by
  induction d with
  | nil => rfl
  | cons e d ih =>
    rw [List.map_cons, List.lookup_cons, List.lookup_cons]
    by_cases hk : k = e.1
    · rw [hk, beq_self_eq_true]
      rfl
    · rw [beq_false_of_ne hk]
      exact ih

theorem put_map_keyed {μ : Type*} (f : κ → ν → μ) (k : κ) (v : ν) (d : List (κ × ν)) :
    put k (f k v) (d.map fun e => (e.1, f e.1 e.2)) = (put k v d).map fun e => (e.1, f e.1 e.2) := by
  induction d with
  | nil => rfl
  | cons e d ih =>
    rw [List.map_cons, put, put]
    split_ifs with he
    · rfl
    · rw [List.map_cons, ih]

end Zagg.Lib
