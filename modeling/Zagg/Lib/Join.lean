import Mathlib.Tactic.Common

/-!
# Joins of nonempty lists

A join on a domain that is associative, commutative and idempotent there, with the reduction
of a list by it. What a list reduces to is the least value above its entries, so it depends
on neither their order nor their grouping.
-/
namespace Zagg.Lib

universe u

variable {α : Type u}

structure Joins (D : α → Prop) (join : α → α → α) (reduce : List α → α) : Prop where
  closed : ∀ v w, D v → D w → D (join v w)
  assoc : ∀ u v w, D u → D v → D w → join (join u v) w = join u (join v w)
  comm : ∀ v w, D v → D w → join v w = join w v
  idem : ∀ w, D w → join w w = w
  reduce_cons : ∀ w ws, D w → (∀ v ∈ ws, D v) → reduce (w :: ws) = ws.foldl join w

/-- `w` covers `v`. -/
def Under (join : α → α → α) (v w : α) : Prop := join v w = w

variable {D : α → Prop} {join : α → α → α} {reduce : List α → α} (h : Joins D join reduce)
include h

namespace Joins

theorem refl {w : α} (hw : D w) : Under join w w := h.idem w hw

theorem antisymm {v w : α} (hv : D v) (hw : D w) (hvw : Under join v w) (hwv : Under join w v) :
    v = w := by
  rw [← hwv, h.comm w v hw hv, hvw]

theorem join_under_iff {u v w : α} (hu : D u) (hv : D v) (hw : D w) :
    Under join (join u v) w ↔ Under join u w ∧ Under join v w := by
  constructor
  · intro huv
    constructor
    · calc join u w = join u (join (join u v) w) := by rw [huv]
        _ = join (join u (join u v)) w := (h.assoc u _ w hu (h.closed u v hu hv) hw).symm
        _ = join (join u v) w := by rw [← h.assoc u u v hu hu hv, h.idem u hu]
        _ = w := huv
    · have hcomm := h.comm u v hu hv
      calc join v w = join v (join (join u v) w) := by rw [huv]
        _ = join (join v (join u v)) w := (h.assoc v _ w hv (h.closed u v hu hv) hw).symm
        _ = join (join u v) w := by rw [hcomm, ← h.assoc v v u hv hv hu, h.idem v hv]
        _ = w := huv
  · intro ⟨hu', hv'⟩
    calc join (join u v) w = join u (join v w) := h.assoc u v w hu hv hw
      _ = join u w := by rw [hv']
      _ = w := hu'

theorem foldl_mem {ws : List α} (hws : ∀ v ∈ ws, D v) {w : α} (hw : D w) : D (ws.foldl join w) := by
  induction ws generalizing w with
  | nil => exact hw
  | cons v ws ih =>
    exact ih (fun x hx => hws x (.tail _ hx)) (h.closed w v hw (hws v (.head _)))

theorem foldl_under_iff {ws : List α} (hws : ∀ v ∈ ws, D v) {w u : α} (hw : D w) (hu : D u) :
    Under join (ws.foldl join w) u ↔ Under join w u ∧ ∀ v ∈ ws, Under join v u := by
  induction ws generalizing w with
  | nil => exact ⟨fun hwu => ⟨hwu, nofun⟩, fun hwu => hwu.1⟩
  | cons v ws ih =>
    have hv := hws v (.head _)
    rw [List.foldl_cons, ih (fun x hx => hws x (.tail _ hx)) (h.closed w v hw hv),
      h.join_under_iff hw hv hu, List.forall_mem_cons, and_assoc]

theorem reduce_mem {ws : List α} (hne : ws ≠ []) (hws : ∀ v ∈ ws, D v) : D (reduce ws) := by
  match ws, hne, hws with
  | w :: ws, _, hws =>
    have hw := hws w (.head _)
    have htail : ∀ v ∈ ws, D v := fun v hv => hws v (.tail _ hv)
    rw [h.reduce_cons w ws hw htail]
    exact h.foldl_mem htail hw

/-- The reduction is the least value that covers every entry. -/
theorem reduce_under_iff {ws : List α} (hne : ws ≠ []) (hws : ∀ v ∈ ws, D v) {u : α} (hu : D u) :
    Under join (reduce ws) u ↔ ∀ v ∈ ws, Under join v u := by
  match ws, hne, hws with
  | w :: ws, _, hws =>
    have hw := hws w (.head _)
    have htail : ∀ v ∈ ws, D v := fun v hv => hws v (.tail _ hv)
    rw [h.reduce_cons w ws hw htail, h.foldl_under_iff htail hw hu, List.forall_mem_cons]

theorem under_reduce {ws : List α} (hws : ∀ v ∈ ws, D v) {v : α} (hv : v ∈ ws) :
    Under join v (reduce ws) := by
  have hne := List.ne_nil_of_mem hv
  have hmem := h.reduce_mem hne hws
  exact (h.reduce_under_iff hne hws hmem).mp (h.refl hmem) v hv

/-- Lists with the same upper bounds have one reduction. -/
theorem reduce_congr {ws ws' : List α} (hne : ws ≠ []) (hne' : ws' ≠ []) (hws : ∀ v ∈ ws, D v)
    (hws' : ∀ v ∈ ws', D v)
    (heq : ∀ u, D u → ((∀ v ∈ ws, Under join v u) ↔ ∀ v ∈ ws', Under join v u)) :
    reduce ws = reduce ws' := by
  have hmem := h.reduce_mem hne hws
  have hmem' := h.reduce_mem hne' hws'
  refine h.antisymm hmem hmem' ?_ ?_
  · exact (h.reduce_under_iff hne hws hmem').mpr ((heq _ hmem').mpr fun v hv => h.under_reduce hws' hv)
  · exact (h.reduce_under_iff hne' hws' hmem).mpr ((heq _ hmem).mp fun v hv => h.under_reduce hws hv)

theorem reduce_perm {ws ws' : List α} (hperm : ws.Perm ws') (hws : ∀ v ∈ ws, D v) :
    reduce ws = reduce ws' := by
  by_cases hne : ws = []
  · subst hne
    rw [hperm.nil_eq]
  · have hne' : ws' ≠ [] := fun hnil => hne (by rw [hnil] at hperm; exact hperm.eq_nil)
    refine h.reduce_congr hne hne' hws (fun v hv => hws v (hperm.mem_iff.mpr hv)) fun u _ => ?_
    exact forall_congr' fun v => imp_congr_left hperm.mem_iff

/-- Reducing group by group and then the groups' words is reducing once. -/
theorem reduce_flatten {groups : List (List α)} (hne : ∀ g ∈ groups, g ≠ [])
    (hD : ∀ g ∈ groups, ∀ v ∈ g, D v) : reduce (groups.map reduce) = reduce groups.flatten := by
  by_cases hnil : groups = []
  · subst hnil
    rfl
  · obtain ⟨g, hg⟩ := List.exists_mem_of_ne_nil groups hnil
    obtain ⟨v, hv⟩ := List.exists_mem_of_ne_nil g (hne g hg)
    have hall : ∀ v ∈ groups.flatten, D v := by
      intro v hv
      obtain ⟨g, hg, hv⟩ := List.mem_flatten.mp hv
      exact hD g hg v hv
    have hmap : ∀ w ∈ groups.map reduce, D w := by
      intro w hw
      obtain ⟨g, hg, rfl⟩ := List.mem_map.mp hw
      exact h.reduce_mem (hne g hg) (hD g hg)
    refine h.reduce_congr (List.ne_nil_of_mem (List.mem_map_of_mem hg))
      (List.ne_nil_of_mem (List.mem_flatten.mpr ⟨g, hg, hv⟩)) hmap hall fun u hu => ?_
    simp only [List.forall_mem_map, List.mem_flatten]
    constructor
    · intro hall v ⟨g, hg, hv⟩
      exact (h.reduce_under_iff (hne g hg) (hD g hg) hu).mp (hall g hg) v hv
    · intro hall g hg
      exact (h.reduce_under_iff (hne g hg) (hD g hg) hu).mpr fun v hv => hall v ⟨g, hg, hv⟩

end Joins
end Zagg.Lib
