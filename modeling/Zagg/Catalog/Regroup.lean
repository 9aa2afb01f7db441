import Mathlib.Data.List.Destutter
import Zagg.Catalog.ShardMap

/-!
# Regrouping the hits

Both mortie paths end in parallel arrays of hit shards and hit records. A stable sort by
shard keeps the records of one shard in their order, so where records are visited in order
every repeat of a record within a shard is adjacent, and the dictionary holds each shard
with the increasing list of its records.
-/
namespace Zagg.Catalog

open Zagg.Lib

/-- The dictionary of a hit relation: increasing shards, each with the increasing list of
its records, and no shard without one. -/
structure Assigned (hits : Word → Nat → Prop) (d : ShardRecords) : Prop where
  keys : (d.map Prod.fst).Pairwise (· < ·)
  ne_nil : ∀ e ∈ d, e.2 ≠ []
  increasing : ∀ e ∈ d, e.2.Pairwise (· < ·)
  mem_iff : ∀ e ∈ d, ∀ i, i ∈ e.2 ↔ hits e.1 i
  complete : ∀ s i, hits s i → s ∈ d.map Prod.fst

theorem Assigned.congr {hits hits' : Word → Nat → Prop} {d : ShardRecords}
    (h : ∀ s i, hits s i ↔ hits' s i) (hd : Assigned hits d) : Assigned hits' d where
  keys := hd.keys
  ne_nil := hd.ne_nil
  increasing := hd.increasing
  mem_iff e he i := (hd.mem_iff e he i).trans (h e.1 i)
  complete s i hs := hd.complete s i ((h s i).mpr hs)

theorem assigned_nil {hits : Word → Nat → Prop} (h : ∀ s i, ¬hits s i) : Assigned hits [] where
  keys := .nil
  ne_nil := nofun
  increasing := nofun
  mem_iff := nofun
  complete s i hs := absurd hs (h s i)

section Masks

/-- The first elements of the runs are where the boundaries say. -/
theorem flatnonzero_firstOfRun {l : List Nat} (h : l ≠ []) :
    (firstOfRun l).map flatnonzero = some (0 :: boundaries l) := by
  have key : ∀ (a : Nat) (l : List Nat),
      (flatnonzero (List.zipWith (fun a b => decide (a ≠ b)) l (a :: l))).map (· + 1) =
        boundaries (a :: l) := by
    intro a l
    induction l generalizing a with
    | nil => rfl
    | cons b l ih =>
      rw [List.zipWith_cons_cons, flatnonzero_cons, boundaries_cons_cons, ih b]
      by_cases hab : a = b
      · rw [if_pos hab, if_neg (by simpa using hab.symm)]
      · rw [if_neg hab, if_pos (by simpa using Ne.symm hab)]
        rfl
  cases l with
  | nil => exact absurd rfl h
  | cons a l => rw [firstOfRun, Option.map_some, flatnonzero_cons, if_pos rfl, key]

/-- Keeping the first of every run drops the repeats. -/
theorem select_firstOfRun (l : List Nat) (h : l ≠ []) :
    (firstOfRun l).map (select l) = some (l.destutter (· ≠ ·)) := by
  have key : ∀ (a : Nat) (l : List Nat),
      a :: select l (List.zipWith (fun a b => decide (a ≠ b)) l (a :: l)) =
        l.destutter' (· ≠ ·) a := by
    intro a l
    induction l generalizing a with
    | nil => rfl
    | cons b l ih =>
      have hstep := ih b
      rw [select] at hstep
      rw [List.zipWith_cons_cons, select, List.zip_cons_cons, List.filter_cons]
      by_cases hab : a = b
      · subst hab
        rw [if_neg (by simp), List.destutter'_cons_neg _ (by simp), hstep]
      · rw [if_pos (by simpa using Ne.symm hab), List.destutter'_cons_pos _ hab, List.map_cons, hstep]
  cases l with
  | nil => exact absurd rfl h
  | cons a l => rw [firstOfRun, Option.map_some, List.destutter, ← key a l]; rfl

end Masks

section Regroup

/-- Distinct keys are appended in their order. -/
theorem foldlM_put {ρ : Type} (key : ρ → Word) (val : ρ → Option (List Nat)) (res : ρ → List Nat)
    {rs : List ρ} (hval : ∀ r ∈ rs, val r = some (res r)) (out : ShardRecords)
    (hn : (out.map Prod.fst ++ rs.map key).Nodup) :
    rs.foldlM (fun out r => (val r).map fun v => put (key r) v out) out =
      some (out ++ rs.map fun r => (key r, res r)) := by
  induction rs generalizing out with
  | nil => rw [List.foldlM_nil, List.map_nil, List.append_nil]; rfl
  | cons r rs ih =>
    have hfresh : key r ∉ out.map Prod.fst := by
      intro hmem
      exact (List.nodup_append.mp hn).2.2 _ hmem _ (.head _) rfl
    have hput : put (key r) (res r) out = out ++ [(key r, res r)] := put_of_notMem hfresh
    rw [List.foldlM_cons, hval r (.head _), Option.map_some, hput]
    have hnext : ((out ++ [(key r, res r)]).map Prod.fst ++ rs.map key).Nodup := by
      rw [List.map_append, List.append_assoc]
      exact hn
    have hrest := ih (fun r' hr' => hval r' (.tail _ hr')) _ hnext
    rw [List.append_assoc] at hrest
    exact hrest

/-- The bounds paired with the next ones are the runs. -/
theorem zip_bounds {l : List Nat} (h : l ≠ []) :
    runs l = ((0 :: boundaries l).zip (boundaries l ++ [l.length])).map
      fun r => (l.getD r.1 0, r.1, r.2) := by
  rw [runs, ← List.filterMap_eq_map]
  refine List.filterMap_congr fun r hr => ?_
  have hlt : r.1 < l.length := by
    rcases List.mem_cons.mp (List.of_mem_zip hr).1 with h0 | hb
    · rw [h0]
      exact List.length_pos_iff.mpr h
    · rw [boundaries, List.mem_map] at hb
      obtain ⟨i, hi, he⟩ := hb
      have hi' := List.mem_range.mp (List.mem_filter.mp hi).1
      omega
  have hget : l.getD r.1 0 = l[r.1] := by
    rw [List.getD_eq_getElem?_getD, List.getElem?_eq_getElem hlt, Option.getD_some]
  rw [valued, List.getElem?_eq_getElem hlt, Option.map_some, Function.comp, hget]

/-- Owners in order, over nonempty hits: the dictionary of the pairs. -/
theorem regroupHits_spec {hitShards : List (List Word)} {hitOwners : List (List Nat)}
    (hlen : hitOwners.flatten.length = hitShards.flatten.length) (hne : ∀ l ∈ hitShards, l ≠ [])
    (hmono : hitOwners.flatten.Pairwise (· ≤ ·)) :
    ∃ d, regroupHits hitShards hitOwners = some d ∧
      Assigned (fun s i => (s, i) ∈ hitShards.flatten.zip hitOwners.flatten) d := by
  by_cases hempty : hitShards = []
  · refine ⟨[], by rw [regroupHits, if_pos hempty], assigned_nil fun s i h => ?_⟩
    rw [hempty] at h
    cases h
  · obtain ⟨hcand, hown⟩ := zip_gather_argsort hlen
    set pairs := hitShards.flatten.zip hitOwners.flatten with hpairs
    set sorted := pairs.insertionSort byKey with hsorted
    have hperm : sorted.Perm pairs := List.perm_insertionSort _ _
    have hsort : (sorted.map Prod.fst).Pairwise (· ≤ ·) := pairwise_insertionSort_byKey pairs
    have hcne : sorted.map Prod.fst ≠ [] := by
      obtain ⟨l, ls, hcons⟩ := List.exists_cons_of_ne_nil hempty
      have hpos : 0 < hitShards.flatten.length := by
        rw [hcons, List.flatten_cons, List.length_append]
        have hl := List.length_pos_iff.mpr (hne l (hcons ▸ .head _))
        omega
      apply List.ne_nil_of_length_pos
      rw [List.length_map, hperm.length_eq, hpairs, List.length_zip, hlen, Nat.min_self]
      exact hpos
    have hslice : ∀ r ∈ runs (sorted.map Prod.fst),
        slice (sorted.map Prod.snd) r.2.1 r.2.2 =
          (pairs.filter fun x => decide (x.1 = r.1)).map Prod.snd := by
      intro r hr
      rw [slice_map, slice_run_sorted hsort hr, hsorted, filter_insertionSort]
    have hmem : ∀ s i, i ∈ (pairs.filter fun x => decide (x.1 = s)).map Prod.snd ↔ (s, i) ∈ pairs := by
      intro s i
      simp only [List.mem_map, List.mem_filter, decide_eq_true_eq]
      constructor
      · rintro ⟨⟨s', i'⟩, ⟨h, rfl⟩, rfl⟩
        exact h
      · intro h
        exact ⟨(s, i), ⟨h, rfl⟩, rfl⟩
    have hgroup : ∀ s, ((pairs.filter fun x => decide (x.1 = s)).map Prod.snd).Pairwise (· ≤ ·) := by
      intro s
      have hsnd : pairs.map Prod.snd = hitOwners.flatten := List.map_snd_zip hlen.le
      have hsub : ((pairs.filter fun x => decide (x.1 = s)).map Prod.snd).Sublist (pairs.map Prod.snd) :=
        List.Sublist.map _ List.filter_sublist
      rw [hsnd] at hsub
      exact hmono.sublist hsub
    let records := fun r : Word × Nat × Nat =>
      ((pairs.filter fun x => decide (x.1 = r.1)).map Prod.snd).dedup
    have hval : ∀ r ∈ runs (sorted.map Prod.fst),
        ((firstOfRun (slice (sorted.map Prod.snd) r.2.1 r.2.2)).map
          (select (slice (sorted.map Prod.snd) r.2.1 r.2.2))) = some (records r) := by
      intro r hr
      have hrun : slice (sorted.map Prod.snd) r.2.1 r.2.2 ≠ [] := by
        obtain ⟨hlt, hle, -⟩ := run_spec hr
        apply List.ne_nil_of_length_pos
        rw [List.length_map] at hle
        rw [length_slice (by rw [List.length_map]; exact hle)]
        omega
      rw [select_firstOfRun _ hrun, hslice r hr, (hgroup r.1).destutter_eq_dedup]
    refine ⟨(runs (sorted.map Prod.fst)).map fun r => (r.1, records r), ?_, ?_⟩
    · obtain ⟨mask, hmask, hflat⟩ := Option.map_eq_some_iff.mp (flatnonzero_firstOfRun hcne)
      have hn : ((runs (sorted.map Prod.fst)).map Prod.fst).Nodup :=
        (pairwise_lt_runs hsort).imp fun hlt => ne_of_lt hlt
      have hfold := foldlM_put Prod.fst _ records hval [] hn
      rw [zip_bounds hcne, List.foldlM_map] at hfold
      rw [regroupHits, if_neg hempty]
      simp only [hcand, hown, hmask, Option.bind_some, hflat, List.tail_cons]
      rw [zip_bounds hcne]
      simp only [Option.map_map] at hfold
      exact hfold
    · have hkeys : ∀ s, s ∈ (runs (sorted.map Prod.fst)).map Prod.fst ↔ ∃ i, (s, i) ∈ pairs := by
        intro s
        rw [mem_runs_fst, (hperm.map Prod.fst).mem_iff, List.mem_map]
        exact ⟨fun ⟨x, hx, he⟩ => ⟨x.2, he ▸ hx⟩, fun ⟨i, hi⟩ => ⟨(s, i), hi, rfl⟩⟩
      have hrecords : ∀ r i, i ∈ records r ↔ (r.1, i) ∈ pairs := fun r i =>
        List.mem_dedup.trans (hmem r.1 i)
      have hfst : ((runs (sorted.map Prod.fst)).map fun r => (r.1, records r)).map Prod.fst =
          (runs (sorted.map Prod.fst)).map Prod.fst := by
        rw [List.map_map]
        rfl
      constructor
      · rw [hfst]
        exact pairwise_lt_runs hsort
      · intro e he hnil
        obtain ⟨r, hr, rfl⟩ := List.mem_map.mp he
        obtain ⟨i, hi⟩ := (hkeys r.1).mp (List.mem_map_of_mem hr)
        have himem := (hrecords r i).mpr hi
        rw [show records r = [] from hnil] at himem
        cases himem
      · intro e he
        obtain ⟨r, -, rfl⟩ := List.mem_map.mp he
        have hle := (hgroup r.1).sublist (List.dedup_sublist _)
        exact hle.imp₂ (fun _ _ h hn => lt_of_le_of_ne h hn) (List.nodup_dedup _)
      · intro e he i
        obtain ⟨r, -, rfl⟩ := List.mem_map.mp he
        exact hrecords r i
      · intro s i h
        rw [hfst]
        exact (hkeys s).mpr ⟨i, h⟩

/-- The cells of each owner in turn, beside the owner repeated over them. -/
theorem zip_owned (xs : List (Nat × List Word)) :
    (xs.flatMap Prod.snd).zip (xs.flatMap fun x => List.replicate x.2.length x.1) =
      xs.flatMap fun x => x.2.map fun s => (s, x.1) := by
  induction xs with
  | nil => rfl
  | cons x xs ih =>
    have hfirst : x.2.zip (List.replicate x.2.length x.1) = x.2.map fun s => (s, x.1) := by
      induction x.2 with
      | nil => rfl
      | cons s l ih => rw [List.length_cons, List.replicate_succ, List.zip_cons_cons, ih, List.map_cons]
    rw [List.flatMap_cons, List.flatMap_cons, List.flatMap_cons, ← ih, ← hfirst]
    exact List.zip_append (List.length_replicate ..).symm

theorem length_owned (xs : List (Nat × List Word)) :
    (xs.flatMap fun x => List.replicate x.2.length x.1).length = (xs.flatMap Prod.snd).length := by
  simp only [List.length_flatMap, List.length_replicate]

theorem pairwise_owned {xs : List (Nat × List Word)} (h : (xs.map Prod.fst).Pairwise (· ≤ ·)) :
    (xs.flatMap fun x => List.replicate x.2.length x.1).Pairwise (· ≤ ·) := by
  induction xs with
  | nil => exact .nil
  | cons x xs ih =>
    obtain ⟨hhead, htail⟩ := List.pairwise_cons.mp h
    rw [List.flatMap_cons]
    refine List.pairwise_append.mpr ⟨List.pairwise_replicate.mpr (.inr le_rfl), ih htail, ?_⟩
    intro a ha b hb
    obtain ⟨y, hy, hb⟩ := List.mem_flatMap.mp hb
    rw [List.eq_of_mem_replicate ha, List.eq_of_mem_replicate hb]
    exact hhead y.1 (List.mem_map_of_mem hy)

/-- Hits gathered owner after owner, in the owners' order. -/
theorem regroupHits_owned {kept : List (List Word × List Nat)} {xs : List (Nat × List Word)}
    (hne : ∀ k ∈ kept, k.1 ≠ []) (hs : (kept.map Prod.fst).flatten = xs.flatMap Prod.snd)
    (ho : (kept.map Prod.snd).flatten = xs.flatMap fun x => List.replicate x.2.length x.1)
    (hmono : (xs.map Prod.fst).Pairwise (· ≤ ·)) :
    ∃ d, regroupHits (kept.map Prod.fst) (kept.map Prod.snd) = some d ∧
      Assigned (fun s i => ∃ x ∈ xs, x.1 = i ∧ s ∈ x.2) d := by
  have hlen : (kept.map Prod.snd).flatten.length = (kept.map Prod.fst).flatten.length := by
    rw [hs, ho, length_owned]
  have hne' : ∀ l ∈ kept.map Prod.fst, l ≠ [] := by
    intro l hl
    obtain ⟨k, hk, rfl⟩ := List.mem_map.mp hl
    exact hne k hk
  obtain ⟨d, hd, hassigned⟩ := regroupHits_spec hlen hne' (ho ▸ pairwise_owned hmono)
  refine ⟨d, hd, hassigned.congr fun s i => ?_⟩
  rw [hs, ho, zip_owned, List.mem_flatMap]
  constructor
  · rintro ⟨x, hx, hsi⟩
    obtain ⟨s', hs', he⟩ := List.mem_map.mp hsi
    obtain ⟨rfl, rfl⟩ := Prod.mk.inj he
    exact ⟨x, hx, rfl, hs'⟩
  · rintro ⟨x, hx, rfl, hs⟩
    exact ⟨x, hx, List.mem_map_of_mem hs⟩

end Regroup
end Zagg.Catalog
