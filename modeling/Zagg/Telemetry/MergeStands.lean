import Zagg.Lib.JsonEq
import Zagg.Lib.Pointwise
import Zagg.Telemetry.MergeFold

/-!
# What a fold of records stands for

A folded record has the observations of the records behind it, so a fold of folds is a fold of
them all.
-/
namespace Zagg.Telemetry

open Zagg.Lib

section Identity

/-- The value that all of some values equal, and `None` where they differ. -/
structure Common (values : List Json) (v : Json) : Prop where
  equal : (∀ w ∈ values, ∀ w' ∈ values, w.pyEq w' = true) → ∀ w ∈ values, w.pyEq v = true
  differ : (¬∀ w ∈ values, ∀ w' ∈ values, w.pyEq w' = true) → v = .null

theorem equalOrNone_common {values : List Json} (h : ∀ w ∈ values, w.Distinct) :
    Common values (equalOrNone values) := by
  cases values with
  | nil => exact ⟨fun _ => nofun, fun hne => absurd (fun _ hw => nomatch hw) hne⟩
  | cons first values =>
    rw [equalOrNone]
    by_cases hall : ∀ w ∈ first :: values, w.pyEq first = true
    · rw [if_pos (List.all_eq_true.mpr hall)]
      refine ⟨fun _ => hall, fun hne => absurd (fun w hw w' hw' => ?_) hne⟩
      exact Json.pyEq_trans (hall w hw) (Json.pyEq_symm (h w' hw').keyed (h first (.head _)).keyed (hall w' hw'))
    · rw [if_neg fun hb => hall (List.all_eq_true.mp hb)]
      exact ⟨fun heq => absurd (fun w hw => heq w hw first (.head _)) hall, fun _ => rfl⟩

theorem Common.unique {values values' : List Json} {v v' : Json} (h : Common values v)
    (h' : Common values' v') (hsame : ∀ w, w ∈ values ↔ w ∈ values') (hne : values ≠ [])
    (hdistinct : ∀ w ∈ values, w.Distinct) (hv : v.Distinct) : v.pyEq v' = true := by
  by_cases hall : ∀ w ∈ values, ∀ w' ∈ values, w.pyEq w' = true
  · obtain ⟨w, hw⟩ := List.exists_mem_of_ne_nil values hne
    have hall' : ∀ w ∈ values', ∀ w' ∈ values', w.pyEq w' = true := by
      simpa only [hsame] using hall
    have hwv := Json.pyEq_symm (hdistinct w hw).keyed hv.keyed (h.equal hall w hw)
    exact Json.pyEq_trans hwv (h'.equal hall' w ((hsame w).mp hw))
  · have hall' : ¬∀ w ∈ values', ∀ w' ∈ values', w.pyEq w' = true := by
      simpa only [hsame] using hall
    rw [h.differ hall, h'.differ hall']
    rfl

theorem eq_null_of_pyEq {v : Json} (h : Json.null.pyEq v = true) : v = .null := by
  cases v with
  | null => rfl
  | _ => cases h

/-- What is common to results that stand for groups is common to the groups. -/
theorem Common.flatten {α : Type} {obs : α → Json} {groups : List (List α)} {outs : List α}
    {v : Json} (hgroups : List.Forall₂ (fun group out => group ≠ [] ∧ (obs out).Distinct ∧
      (∀ a ∈ group, (obs a).Distinct) ∧ Common (group.map obs) (obs out)) groups outs)
    (h : Common (outs.map obs) v) : Common (groups.flatten.map obs) v := by
  have hout {out : α} (hmem : out ∈ outs) : ∃ group ∈ groups, group ≠ [] ∧ (obs out).Distinct ∧
      (∀ a ∈ group, (obs a).Distinct) ∧ Common (group.map obs) (obs out) :=
    forall₂_exists_of_mem_right hgroups hmem
  have hitem {w : Json} (hw : w ∈ groups.flatten.map obs) : ∃ out ∈ outs, ∃ group ∈ groups,
      w ∈ group.map obs ∧ (obs out).Distinct ∧ (∀ a ∈ group, (obs a).Distinct) ∧
        Common (group.map obs) (obs out) := by
    obtain ⟨a, ha, rfl⟩ := List.mem_map.mp hw
    obtain ⟨group, hgroup, ha⟩ := List.mem_flatten.mp ha
    obtain ⟨out, hmem, -, hd, hds, hcommon⟩ := forall₂_exists_of_mem_right hgroups.flip hgroup
    exact ⟨out, hmem, group, hgroup, List.mem_map_of_mem ha, hd, hds, hcommon⟩
  have hsub {group : List α} (hgroup : group ∈ groups) :
      ∀ w ∈ group.map obs, w ∈ groups.flatten.map obs := by
    intro w hw
    obtain ⟨a, ha, rfl⟩ := List.mem_map.mp hw
    exact List.mem_map_of_mem (List.mem_flatten_of_mem hgroup ha)
  have hdistinct {out : α} (hmem : out ∈ outs) : (obs out).Distinct := by
    obtain ⟨-, -, -, hd, -⟩ := hout hmem
    exact hd
  constructor
  · intro hall w hw
    -- results of equal items are equal
    have houts : ∀ u ∈ outs.map obs, ∀ u' ∈ outs.map obs, u.pyEq u' = true := by
      intro u hu u' hu'
      obtain ⟨out, hmem, rfl⟩ := List.mem_map.mp hu
      obtain ⟨out', hmem', rfl⟩ := List.mem_map.mp hu'
      obtain ⟨group, hgroup, hne, hd, hds, hcommon⟩ := hout hmem
      obtain ⟨group', hgroup', hne', hd', hds', hcommon'⟩ := hout hmem'
      obtain ⟨a, ha⟩ := List.exists_mem_of_ne_nil group hne
      obtain ⟨a', ha'⟩ := List.exists_mem_of_ne_nil group' hne'
      have hau : (obs a).pyEq (obs out) = true := hcommon.equal
        (fun w hw w' hw' => hall w (hsub hgroup w hw) w' (hsub hgroup w' hw')) _
          (List.mem_map_of_mem ha)
      have hau' : (obs a').pyEq (obs out') = true := hcommon'.equal
        (fun w hw w' hw' => hall w (hsub hgroup' w hw) w' (hsub hgroup' w' hw')) _
          (List.mem_map_of_mem ha')
      have haa := hall _ (hsub hgroup _ (List.mem_map_of_mem ha)) _
        (hsub hgroup' _ (List.mem_map_of_mem ha'))
      exact Json.pyEq_trans (Json.pyEq_symm (hds a ha).keyed hd.keyed hau) (Json.pyEq_trans haa hau')
    obtain ⟨out, hmem, group, hgroup, hw, -, -, hcommon⟩ := hitem hw
    have hwu := hcommon.equal
      (fun w hw w' hw' => hall w (hsub hgroup w hw) w' (hsub hgroup w' hw')) w hw
    exact Json.pyEq_trans hwu (h.equal houts _ (List.mem_map_of_mem hmem))
  · intro hne
    by_cases houts : ∀ u ∈ outs.map obs, ∀ u' ∈ outs.map obs, u.pyEq u' = true
    · -- some group is not of equal items, and its result is `None`
      by_contra hnull
      refine hne fun w hw w' hw' => ?_
      have hreach {w : Json} (hw : w ∈ groups.flatten.map obs) :
          ∃ out ∈ outs, w.Distinct ∧ w.pyEq (obs out) = true := by
        obtain ⟨out, hmem, group, hgroup, hw, -, hds, hcommon⟩ := hitem hw
        have hw' : w.Distinct := by
          obtain ⟨a, ha, rfl⟩ := List.mem_map.mp hw
          exact hds a ha
        refine ⟨out, hmem, hw', hcommon.equal ?_ w hw⟩
        by_contra hdiffer
        have hnone := h.equal houts _ (List.mem_map_of_mem hmem)
        rw [hcommon.differ hdiffer] at hnone
        exact hnull (eq_null_of_pyEq hnone)
      obtain ⟨out, hmem, hd, hwu⟩ := hreach hw
      obtain ⟨out', hmem', hd', hwu'⟩ := hreach hw'
      have huu := houts _ (List.mem_map_of_mem hmem) _ (List.mem_map_of_mem hmem')
      exact Json.pyEq_trans hwu
        (Json.pyEq_trans huu (Json.pyEq_symm hd'.keyed (hdistinct hmem').keyed hwu'))
    · exact h.differ houts

end Identity

end Zagg.Telemetry
