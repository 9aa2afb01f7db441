import Mathlib.Data.Fintype.Card
import Mathlib.Data.List.Dedup
import Mathlib.Data.Set.Lattice
import Mathlib.Data.Stream.Init
import Mathlib.Order.CompletePartialOrder

/-!
# Cells of a digit tree

A cell is a finite digit path and its points are the streams below it. A finite set of cells
covers a region. One set for a region is compact: no cell of it lies below another and no family
of siblings is complete. Its cells are the maximal cells of the region.
-/
namespace Zagg.Lib.DigitTree

universe u

variable {D : Type u}

def points (p : List D) : Set (Stream' D) := {x | x.take p.length = p}

def region (S : List (List D)) : Set (Stream' D) := {x | ∃ p ∈ S, x ∈ points p}

section Points
variable {p q : List D} {x : Stream' D} {S T : List (List D)}

theorem mem_points_append (p : List D) (x : Stream' D) : p ++ₛ x ∈ points p := by
  show (p ++ₛ x).take p.length = p
  rw [Stream'.take_append_of_le_length p.length p x le_rfl, List.take_length]

theorem take_prefix_take {m n : Nat} (h : m ≤ n) (x : Stream' D) : x.take m <+: x.take n := by
  have htake : (x.take n).take m = x.take m := by
    rw [Stream'.take_take, Nat.min_eq_right h]
  rw [← htake]
  exact List.take_prefix m _

theorem points_mono (h : p <+: q) : points q ⊆ points p := by
  intro x hx
  have hx : x.take q.length = q := hx
  have hinit := take_prefix_take h.length_le x
  rw [hx] at hinit
  have hlen : (x.take p.length).length = p.length := Stream'.length_take ..
  have hsame := List.prefix_of_prefix_length_le hinit h hlen.le
  exact hsame.eq_of_length hlen

/-- Two cells with a common point are nested. -/
theorem nested_of_mem (hp : x ∈ points p) (hq : x ∈ points q) : p <+: q ∨ q <+: p := by
  have hp : x.take p.length = p := hp
  have hq : x.take q.length = q := hq
  rw [← hp, ← hq]
  exact (Nat.le_total p.length q.length).imp (fun h => take_prefix_take h x)
    (fun h => take_prefix_take h x)

theorem disjoint_points (hpq : ¬p <+: q) (hqp : ¬q <+: p) : Disjoint (points p) (points q) := by
  rw [Set.disjoint_left]
  intro x hp hq
  exact (nested_of_mem hp hq).elim hpq hqp

theorem mem_region_of_mem (h : p ∈ S) : points p ⊆ region S := fun _ hx => ⟨p, h, hx⟩

theorem region_congr (h : ∀ p, p ∈ S ↔ p ∈ T) : region S = region T := by
  ext x
  exact exists_congr fun p => and_congr_left' (h p)

theorem region_cons_of_isPrefix (h : p ∈ S) (hq : p <+: q) : region (q :: S) = region S := by
  ext x
  constructor
  · rintro ⟨r, hr, hx⟩
    cases List.mem_cons.mp hr with
    | inl heq => exact ⟨p, h, points_mono hq (heq ▸ hx)⟩
    | inr hr => exact ⟨r, hr, hx⟩
  · rintro ⟨r, hr, hx⟩
    exact ⟨r, .tail _ hr, hx⟩

/-- A stream below a cell is below one of the cell's children. -/
theorem mem_child (h : x ∈ points p) : x ∈ points (p ++ [x.get p.length]) := by
  have h : x.take p.length = p := h
  show x.take (p ++ [x.get p.length]).length = _
  rw [List.length_append, List.length_singleton, Stream'.take_succ', h]

/-- A complete family of siblings covers their parent. -/
theorem region_of_siblings (h : ∀ d, p ++ [d] ∈ S)
    (hT : ∀ q, q ∈ T ↔ q = p ∨ q ∈ S ∧ ∀ d, q ≠ p ++ [d]) : region T = region S := by
  ext x
  constructor
  · rintro ⟨q, hq, hx⟩
    cases (hT q).mp hq with
    | inl heq => exact ⟨_, h _, mem_child (heq ▸ hx)⟩
    | inr hq => exact ⟨q, hq.1, hx⟩
  · rintro ⟨q, hq, hx⟩
    by_cases hchild : ∃ d, q = p ++ [d]
    · obtain ⟨d, rfl⟩ := hchild
      exact ⟨p, (hT p).mpr (.inl rfl), points_mono (List.prefix_append p [d]) hx⟩
    · exact ⟨q, (hT q).mpr (.inr ⟨hq, fun d hd => hchild ⟨d, hd⟩⟩), hx⟩

variable [Nontrivial D]

theorem points_subset_iff : points q ⊆ points p ↔ p <+: q := by
  refine ⟨fun h => ?_, points_mono⟩
  by_cases hlen : p.length ≤ q.length
  · obtain ⟨d, -⟩ := exists_pair_ne D
    have hq := mem_points_append q (Stream'.const d)
    exact (nested_of_mem (h hq) hq).elim id fun hqp =>
      (hqp.eq_of_length (Nat.le_antisymm hqp.length_le hlen)).symm ▸ List.prefix_rfl
  · -- the digit behind `q` is free, and `p` would fix it
    exfalso
    have hdigit : ∀ d, p[q.length]? = some d := by
      intro d
      have hmem : q ++ₛ Stream'.const d ∈ points p := h (mem_points_append q _)
      have hget := Stream'.getElem?_take (s := q ++ₛ Stream'.const d) (Nat.lt_of_not_le hlen)
      rw [show (q ++ₛ Stream'.const d).take p.length = p from hmem] at hget
      have hnext : (q ++ₛ Stream'.const d).get q.length = d := by
        rw [← Nat.add_zero q.length, ← Stream'.get_drop, Stream'.drop_append_stream]
        rfl
      rw [hget, hnext]
    obtain ⟨d, e, hne⟩ := exists_pair_ne D
    exact hne (Option.some.inj ((hdigit d).symm.trans (hdigit e)))

theorem nonempty_points (p : List D) : ∃ x, x ∈ points p := by
  obtain ⟨d, -⟩ := exists_pair_ne D
  exact ⟨_, mem_points_append p (Stream'.const d)⟩

end Points

section Compact
variable {S T W : List (List D)} {p q m : List D}

/-- No cell lies below another, and no family of siblings is complete. -/
structure Compact (S : List (List D)) : Prop where
  antichain : ∀ p ∈ S, ∀ q ∈ S, p <+: q → p = q
  incomplete : ∀ p, ¬∀ d, p ++ [d] ∈ S

theorem exists_length_le (S : List (List D)) : ∃ n, ∀ p ∈ S, p.length ≤ n := by
  induction S with
  | nil => exact ⟨0, nofun⟩
  | cons p S ih =>
    obtain ⟨n, hn⟩ := ih
    refine ⟨max p.length n, fun q hq => ?_⟩
    cases List.mem_cons.mp hq with
    | inl heq => exact heq ▸ Nat.le_max_left ..
    | inr hq => exact (hn q hq).trans (Nat.le_max_right ..)

variable [Nontrivial D]

/-- A cell inside the region of a compact set lies below one of its cells. -/
theorem Compact.exists_prefix (h : Compact S) (hp : points p ⊆ region S) : ∃ m ∈ S, m <+: p := by
  obtain ⟨n, hn⟩ := exists_length_le S
  -- by induction on how far the cell stands above the deepest cell of the set
  induction hk : n + 1 - p.length generalizing p with
  | zero =>
    obtain ⟨x, hx⟩ := nonempty_points p
    obtain ⟨m, hm, hxm⟩ := hp hx
    have hlen := hn m hm
    refine ⟨m, hm, (nested_of_mem hx hxm).elim (fun hpm => ?_) id⟩
    have hle := hpm.length_le
    omega
  | succ k ih =>
    have hchild : ∀ d, ∃ m ∈ S, m <+: p ++ [d] := by
      intro d
      apply ih ((points_mono (List.prefix_append p [d])).trans hp)
      rw [List.length_append, List.length_singleton]
      omega
    by_contra hno
    refine h.incomplete p fun d => ?_
    obtain ⟨m, hm, hmd⟩ := hchild d
    cases List.prefix_concat_iff.mp hmd with
    | inl heq => exact heq ▸ hm
    | inr hmp => exact absurd ⟨m, hm, hmp⟩ hno

/-- The cells of a compact set are the maximal cells of its region. -/
theorem Compact.mem_iff (h : Compact S) : m ∈ S ↔
    points m ⊆ region S ∧ ∀ p, p <+: m → points p ⊆ region S → p = m := by
  constructor
  · intro hm
    refine ⟨mem_region_of_mem hm, fun p hpm hp => ?_⟩
    obtain ⟨q, hq, hqp⟩ := h.exists_prefix hp
    have hqm := h.antichain q hq m hm (hqp.trans hpm)
    rw [hqm] at hqp
    exact hpm.eq_of_length (Nat.le_antisymm hpm.length_le hqp.length_le)
  · rintro ⟨hm, hmax⟩
    obtain ⟨q, hq, hqm⟩ := h.exists_prefix hm
    exact hmax q hqm (mem_region_of_mem hq) ▸ hq

/-- There is one compact set for a region. -/
theorem Compact.mem_congr (hS : Compact S) (hT : Compact T) (h : region S = region T) :
    m ∈ S ↔ m ∈ T := by
  rw [hS.mem_iff, hT.mem_iff, h]

/-- The cells a compact set was made from all lie below its cells. -/
theorem Compact.exists_above (h : Compact S) (hW : region S = region W) (hp : p ∈ W) :
    ∃ m ∈ S, m <+: p :=
  h.exists_prefix (hW ▸ mem_region_of_mem hp)

/-- They cover each of its cells from below. -/
theorem Compact.covered (h : Compact S) (hW : region S = region W) (hm : m ∈ S)
    {x : Stream' D} (hx : x ∈ points m) : ∃ w ∈ W, m <+: w ∧ x ∈ points w := by
  obtain ⟨w, hw, hxw⟩ : x ∈ region W := hW ▸ mem_region_of_mem hm hx
  obtain ⟨q, hq, hqw⟩ := h.exists_above hW hw
  have hxq := points_mono hqw hxw
  have hqm : q = m := (nested_of_mem hxq hx).elim (h.antichain q hq m hm)
    fun hmq => (h.antichain m hm q hq hmq).symm
  exact ⟨w, hw, hqm ▸ hqw, hxw⟩

theorem Compact.exists_below (h : Compact S) (hW : region S = region W) (hm : m ∈ S) :
    ∃ w ∈ W, m <+: w := by
  obtain ⟨x, hx⟩ := nonempty_points m
  obtain ⟨w, hw, hmw, -⟩ := h.covered hW hm hx
  exact ⟨w, hw, hmw⟩

end Compact

section Deepest
variable {S T W G : List (List D)} {a b p q : List D}

/-- The deepest cell that contains all cells of a set. -/
structure Deepest (S : List (List D)) (b : List D) : Prop where
  contains : ∀ p ∈ S, b <+: p
  deepest : ∀ q, (∀ p ∈ S, q <+: p) → q <+: b

theorem Deepest.congr (h : ∀ p, p ∈ S ↔ p ∈ T) (hb : Deepest S b) : Deepest T b :=
  ⟨fun p hp => hb.contains p ((h p).mpr hp), fun q hq => hb.deepest q fun p hp => hq p ((h p).mp hp)⟩

theorem Deepest.unique (ha : Deepest S a) (hb : Deepest S b) : a = b :=
  (hb.deepest a ha.contains).eq_of_length
    (Nat.le_antisymm (hb.deepest a ha.contains).length_le (ha.deepest b hb.contains).length_le)

theorem deepest_singleton (p : List D) : Deepest [p] p :=
  ⟨fun _ hq => List.mem_singleton.mp hq ▸ List.prefix_rfl, fun _ hq => hq p (.head _)⟩

/-- In a compact set of more than one cell, every cell lies strictly below the deepest cell that
contains them all. -/
theorem Compact.length_lt (h : Compact S) (hn : S.Nodup) (hS : S.length ≠ 1) (ha : Deepest S a)
    (hp : p ∈ S) : a.length < p.length := by
  have hap := ha.contains p hp
  apply Nat.lt_of_le_of_ne hap.length_le
  intro hlen
  have heq := hap.eq_of_length hlen
  have hall : ∀ q ∈ S, q = p := fun q hq => (h.antichain p hp q hq (heq ▸ ha.contains q hq)).symm
  apply hS
  rw [List.eq_replicate_of_mem hall] at hn ⊢
  rw [List.length_replicate]
  exact Nat.le_antisymm (List.nodup_replicate.mp hn)
    (List.length_pos_iff.mpr (List.ne_nil_of_mem hp))

variable [Nontrivial D]

/-- The deepest cell above some cells of a compact set is the deepest cell above the cells below
it that the set was made from. -/
theorem Compact.deepest_below [DecidableEq D] (h : Compact S) (hW : region S = region W)
    (hG : ∀ m ∈ G, m ∈ S) (hb : Deepest G b) : Deepest (W.filter fun w => b <+: w) b := by
  refine ⟨fun w hw => of_decide_eq_true (List.mem_filter.mp hw).2, fun q hq => ?_⟩
  refine hb.deepest q fun m hm => points_subset_iff.mp fun x hx => ?_
  obtain ⟨w, hw, hmw, hxw⟩ := h.covered hW (hG m hm) hx
  have hbw : b <+: w := (hb.contains m hm).trans hmw
  exact points_mono (hq w (List.mem_filter.mpr ⟨hw, decide_eq_true hbw⟩)) hxw

end Deepest

section Common
variable [DecidableEq D] {S : List (List D)} {p q r : List D}

def commonPrefix : List D → List D → List D
  | d :: p, e :: q => if d = e then d :: commonPrefix p q else []
  | _, _ => []

theorem prefix_commonPrefix_iff : r <+: commonPrefix p q ↔ r <+: p ∧ r <+: q := by
  induction p generalizing q r with
  | nil =>
    rw [commonPrefix]
    · exact ⟨fun h => ⟨h, h.trans (List.nil_prefix)⟩, And.left⟩
    · nofun
  | cons d p ih =>
    cases q with
    | nil => exact ⟨fun h => ⟨h.trans List.nil_prefix, h⟩, And.right⟩
    | cons e q =>
      cases r with
      | nil => exact iff_of_true List.nil_prefix ⟨List.nil_prefix, List.nil_prefix⟩
      | cons c r =>
        rw [commonPrefix, List.cons_prefix_cons, List.cons_prefix_cons]
        split_ifs with hde
        · rw [List.cons_prefix_cons, ih, ← hde]
          constructor
          · intro h
            exact ⟨⟨h.1, h.2.1⟩, h.1, h.2.2⟩
          · intro h
            exact ⟨h.1.1, h.1.2, h.2.2⟩
        · refine iff_of_false (fun h => List.cons_ne_nil _ _ (List.prefix_nil.mp h)) fun h => ?_
          exact hde (h.1.1.symm.trans h.2.1)

/-- The deepest cell that contains the cells of a non-empty set. -/
def ancestor : List (List D) → List D
  | [] => []
  | [p] => p
  | p :: S => commonPrefix p (ancestor S)

theorem prefix_ancestor_iff (hS : S ≠ []) : q <+: ancestor S ↔ ∀ p ∈ S, q <+: p := by
  induction S with
  | nil => exact absurd rfl hS
  | cons p S ih =>
    cases S with
    | nil =>
      rw [ancestor]
      exact (List.forall_mem_singleton).symm
    | cons r S =>
      rw [ancestor, prefix_commonPrefix_iff, ih (List.cons_ne_nil r S)]
      · exact List.forall_mem_cons.symm
      · exact List.cons_ne_nil r S

theorem deepest_ancestor (hS : S ≠ []) : Deepest S (ancestor S) :=
  ⟨(prefix_ancestor_iff hS).mp List.prefix_rfl, fun _ => (prefix_ancestor_iff hS).mpr⟩

end Common

section Box
variable [DecidableEq D] {S T W : List (List D)} {c p q m w : List D} {n : Nat}

/-- The cells of a set below a cell of length `n`. -/
def family (n : Nat) (S : List (List D)) (c : List D) : List (List D) :=
  S.filter fun p => p.take n = c

theorem mem_family : p ∈ family n S c ↔ p ∈ S ∧ p.take n = c := by
  rw [family, List.mem_filter, decide_eq_true_eq]

/-- A cell of the box of a set: its only cell, or the deepest cell above its cells below one child
of their deepest common cell. -/
def BoxCell (S : List (List D)) (p : List D) : Prop :=
  S.length = 1 ∧ p ∈ S ∨ S.length ≠ 1 ∧ ∃ a, Deepest S a ∧
    ∃ m ∈ S, Deepest (family (a.length + 1) S (m.take (a.length + 1))) p

theorem BoxCell.congr (h : S.Perm T) (hp : BoxCell S p) : BoxCell T p := by
  have hmem : ∀ q, q ∈ S ↔ q ∈ T := fun _ => h.mem_iff
  cases hp with
  | inl hp => exact .inl ⟨h.length_eq ▸ hp.1, (hmem p).mp hp.2⟩
  | inr hp =>
    obtain ⟨hlen, a, ha, m, hm, hp⟩ := hp
    refine .inr ⟨h.length_eq ▸ hlen, a, ha.congr hmem, m, (hmem m).mp hm, hp.congr fun q => ?_⟩
    rw [mem_family, mem_family, hmem]

/-- The cells below one child have their deepest common cell below it. -/
theorem take_prefix_of_family (hp : Deepest (family n S (m.take n)) p) : m.take n <+: p :=
  hp.deepest _ fun _ hq => (mem_family.mp hq).2 ▸ List.take_prefix n _

theorem take_of_family (hn : n ≤ m.length) (hp : Deepest (family n S (m.take n)) p) :
    p.take n = m.take n := by
  have hpre := take_prefix_of_family hp
  have hlen : (m.take n).length = n := List.length_take_of_le hn
  have htake := List.prefix_iff_eq_take.mp hpre
  rw [hlen] at htake
  exact htake.symm

/-- Two cells of a box are equal or disjoint. -/
theorem BoxCell.antichain (h : Compact S) (hn : S.Nodup) (hp : BoxCell S p) (hq : BoxCell S q)
    (hpq : p <+: q) : p = q := by
  rcases hp with ⟨hone, hp⟩ | ⟨hlen, a, ha, m, hm, hp⟩
  · rcases hq with ⟨-, hq⟩ | ⟨hlen, -⟩
    · exact h.antichain p hp q hq hpq
    · exact absurd hone hlen
  · rcases hq with ⟨hone, -⟩ | ⟨-, a', ha', m', hm', hq⟩
    · exact absurd hone hlen
    · rw [← ha.unique ha'] at hq
      have hptake := take_of_family (h.length_lt hn hlen ha hm) hp
      have hqtake := take_of_family (h.length_lt hn hlen ha hm') hq
      have hplen : a.length + 1 ≤ p.length := by
        have hle := (take_prefix_of_family hp).length_le
        rwa [List.length_take_of_le (h.length_lt hn hlen ha hm)] at hle
      have hsame : m.take (a.length + 1) = m'.take (a.length + 1) := by
        rw [← hptake, ← hqtake]
        obtain ⟨t, rfl⟩ := hpq
        exact (List.take_append_of_le_length hplen).symm
      rw [hsame] at hp
      exact hp.unique hq

theorem exists_boxCell (hm : m ∈ S) : ∃ p, BoxCell S p ∧ p <+: m := by
  have hne : S ≠ [] := List.ne_nil_of_mem hm
  by_cases hlen : S.length = 1
  · exact ⟨m, .inl ⟨hlen, hm⟩, List.prefix_rfl⟩
  · have ha := deepest_ancestor hne
    have hmem : m ∈ family ((ancestor S).length + 1) S (m.take ((ancestor S).length + 1)) :=
      mem_family.mpr ⟨hm, rfl⟩
    have hp := deepest_ancestor (List.ne_nil_of_mem hmem)
    exact ⟨_, .inr ⟨hlen, _, ha, m, hm, hp⟩, hp.contains m hmem⟩

/-- A box has no more cells than there are digits. -/
theorem length_box_le [Fintype D] [Nonempty D] (h : Compact S) (hn : S.Nodup) {box : List (List D)}
    (hbox : box.Nodup) (hcell : ∀ p ∈ box, BoxCell S p) : box.length ≤ Fintype.card D := by
  by_cases hone : S.length = 1
  · have hsub : box ⊆ S := fun p hp => (hcell p hp).elim And.right fun hno => absurd hone hno.1
    have hle := (List.subperm_of_subset hbox hsub).length_le
    exact hle.trans (hone ▸ Fintype.card_pos)
  by_cases hS : S = []
  · cases box with
    | nil => exact Nat.zero_le _
    | cons p box =>
      obtain ⟨hno, -⟩ | ⟨-, -, -, m, hm, -⟩ := hcell p (.head _)
      · exact absurd hno hone
      · exact absurd hS (List.ne_nil_of_mem hm)
  · have ha := deepest_ancestor hS
    -- each cell lies below its own child of the common ancestor
    have hchild : ∀ p ∈ box, ∃ m ∈ S,
        Deepest (family ((ancestor S).length + 1) S (m.take ((ancestor S).length + 1))) p ∧
          p.take ((ancestor S).length + 1) = m.take ((ancestor S).length + 1) := by
      intro p hp
      obtain ⟨hno, -⟩ | ⟨hlen, a, ha', m, hm, hdeep⟩ := hcell p hp
      · exact absurd hno hone
      · rw [← ha.unique ha'] at hdeep
        exact ⟨m, hm, hdeep, take_of_family (h.length_lt hn hlen ha hm) hdeep⟩
    have hnodup : (box.map (List.take ((ancestor S).length + 1))).Nodup := by
      refine hbox.map_on fun p hp q hq hpq => ?_
      obtain ⟨m, -, hdeep, htake⟩ := hchild p hp
      obtain ⟨m', -, hdeep', htake'⟩ := hchild q hq
      rw [← htake, hpq, htake'] at hdeep
      exact hdeep.unique hdeep'
    have hsub : box.map (List.take ((ancestor S).length + 1)) ⊆
        (Finset.univ : Finset D).toList.map fun d => ancestor S ++ [d] := by
      intro c hc
      obtain ⟨p, hp, rfl⟩ := List.mem_map.mp hc
      obtain ⟨m, hm, -, htake⟩ := hchild p hp
      have hlt := h.length_lt hn hone ha hm
      rw [htake, List.take_succ_eq_append_getElem hlt,
        ← List.prefix_iff_eq_take.mp (ha.contains m hm)]
      exact List.mem_map.mpr ⟨_, Finset.mem_toList.mpr (Finset.mem_univ _), rfl⟩
    have hle := (List.subperm_of_subset hnodup hsub).length_le
    rwa [List.length_map, List.length_map, Finset.length_toList, Finset.card_univ] at hle

variable [Nontrivial D]

/-- Each cell of the box is the deepest cell above what the set was made from below it. -/
theorem BoxCell.deepest (h : Compact S) (hW : region S = region W) (hp : BoxCell S p) :
    Deepest (W.filter fun w => p <+: w) p := by
  rcases hp with ⟨-, hp⟩ | ⟨-, a, -, m, -, hp⟩
  · exact h.deepest_below hW (fun q hq => List.mem_singleton.mp hq ▸ hp) (deepest_singleton p)
  · exact h.deepest_below hW (fun q hq => (mem_family.mp hq).1) hp

/-- What the set was made from lies below exactly one cell of the box. -/
theorem existsUnique_boxCell (h : Compact S) (hn : S.Nodup) (hW : region S = region W)
    (hw : w ∈ W) : ∃! p, BoxCell S p ∧ p <+: w := by
  obtain ⟨m, hm, hmw⟩ := h.exists_above hW hw
  obtain ⟨p, hp, hpm⟩ := exists_boxCell hm
  refine ⟨p, ⟨hp, hpm.trans hmw⟩, fun q hq => ?_⟩
  exact (List.prefix_or_prefix_of_prefix hq.2 (hpm.trans hmw)).elim (hq.1.antichain h hn hp)
    fun hpq => (hp.antichain h hn hq.1 hpq).symm

end Box

section Compaction
variable {S : List (List D)} {sub : D → List (List D)} {p : List D} {d e : D} {x : Stream' D}

theorem mem_points_cons : x ∈ points (d :: p) ↔ x.head = d ∧ x.tail ∈ points p := by
  show x.take (p.length + 1) = d :: p ↔ _
  rw [Stream'.take_succ, List.cons.injEq]
  rfl

theorem region_of_nil_mem (h : [] ∈ S) : region S = Set.univ :=
  Set.eq_univ_of_forall fun _ => ⟨[], h, rfl⟩

theorem compact_root [Nonempty D] : Compact [([] : List D)] := by
  refine ⟨fun p hp q hq _ => ?_, fun p hp => ?_⟩
  · rw [List.mem_singleton.mp hp, List.mem_singleton.mp hq]
  · obtain ⟨d⟩ := ‹Nonempty D›
    exact List.append_ne_nil_of_right_ne_nil p (List.cons_ne_nil d []) (List.mem_singleton.mp (hp d))

theorem compact_nil [Nonempty D] : Compact ([] : List (List D)) := by
  refine ⟨nofun, fun p hp => ?_⟩
  obtain ⟨d⟩ := ‹Nonempty D›
  exact List.not_mem_nil (hp d)

/-- A compact set with the root has no other cell. -/
theorem Compact.eq_root (h : Compact S) (hn : S.Nodup) (hroot : [] ∈ S) : S = [[]] := by
  have hall : ∀ p ∈ S, p = [] := fun p hp => (h.antichain [] hroot p hp List.nil_prefix).symm
  rw [List.eq_replicate_of_mem hall] at hn ⊢
  rw [Nat.le_antisymm (List.nodup_replicate.mp hn)
    (List.length_pos_iff.mpr (List.ne_nil_of_mem hroot))]
  rfl

variable [DecidableEq D]

/-- The cells below a digit, seen from its child of the root. -/
def below (d : D) (S : List (List D)) : List (List D) :=
  S.filterMap fun p => if p.head? = some d then some p.tail else none

theorem mem_below : p ∈ below d S ↔ d :: p ∈ S := by
  rw [below, List.mem_filterMap]
  constructor
  · rintro ⟨q, hq, hp⟩
    split_ifs at hp with hd
    obtain rfl := Option.some.inj hp
    rwa [List.cons_head?_tail hd]
  · intro h
    exact ⟨d :: p, h, if_pos rfl⟩

theorem mem_region_below (h : [] ∉ S) : x ∈ region S ↔ x.tail ∈ region (below x.head S) := by
  constructor
  · rintro ⟨p, hp, hx⟩
    cases p with
    | nil => exact absurd hp h
    | cons d p =>
      obtain ⟨hd, hx⟩ := mem_points_cons.mp hx
      exact ⟨p, mem_below.mpr (hd.symm ▸ hp), hx⟩
  · rintro ⟨p, hp, hx⟩
    exact ⟨x.head :: p, mem_below.mp hp, mem_points_cons.mpr ⟨rfl, hx⟩⟩

variable {digits : List D}

/-- The sets of the root's children joined: all of them full make the root. -/
def join (digits : List D) (sub : D → List (List D)) : List (List D) :=
  if ∀ d ∈ digits, sub d = [[]] then [[]] else digits.flatMap fun d => (sub d).map (d :: ·)

/-- Compaction of cells of at most this length. -/
def compaction (digits : List D) : Nat → List (List D) → List (List D)
  | 0, S => if [] ∈ S then [[]] else []
  | n + 1, S => if [] ∈ S then [[]] else join digits fun d => compaction digits n (below d S)

theorem mem_join (hall : ∀ d, d ∈ digits) (hfull : ¬∀ d ∈ digits, sub d = [[]]) :
    p ∈ join digits sub ↔ ∃ d, ∃ q ∈ sub d, d :: q = p := by
  rw [join, if_neg hfull, List.mem_flatMap]
  constructor
  · rintro ⟨d, -, hp⟩
    exact ⟨d, List.mem_map.mp hp⟩
  · rintro ⟨d, hp⟩
    exact ⟨d, hall d, List.mem_map.mpr hp⟩

theorem mem_region_join (hall : ∀ d, d ∈ digits) :
    x ∈ region (join digits sub) ↔ x.tail ∈ region (sub x.head) := by
  by_cases hfull : ∀ d ∈ digits, sub d = [[]]
  · rw [join, if_pos hfull, hfull _ (hall _)]
    exact iff_of_true ⟨[], .head _, rfl⟩ ⟨[], .head _, rfl⟩
  · constructor
    · rintro ⟨p, hp, hx⟩
      obtain ⟨d, q, hq, rfl⟩ := (mem_join hall hfull).mp hp
      obtain ⟨rfl, htail⟩ := mem_points_cons.mp hx
      exact ⟨q, hq, htail⟩
    · rintro ⟨q, hq, hx⟩
      exact ⟨x.head :: q, (mem_join hall hfull).mpr ⟨_, q, hq, rfl⟩, mem_points_cons.mpr ⟨rfl, hx⟩⟩

theorem compact_join [Nonempty D] (hall : ∀ d, d ∈ digits) (hsub : ∀ d, Compact (sub d))
    (hn : ∀ d, (sub d).Nodup) : Compact (join digits sub) := by
  by_cases hfull : ∀ d ∈ digits, sub d = [[]]
  · rw [join, if_pos hfull]
    exact compact_root
  · refine ⟨fun p hp q hq hpq => ?_, fun p hp => ?_⟩
    · obtain ⟨d, p', hp', rfl⟩ := (mem_join hall hfull).mp hp
      obtain ⟨e, q', hq', rfl⟩ := (mem_join hall hfull).mp hq
      obtain ⟨rfl, htail⟩ := List.cons_prefix_cons.mp hpq
      rw [(hsub d).antichain p' hp' q' hq' htail]
    · have hfamily : ∀ e, ∃ d, ∃ q ∈ sub d, d :: q = p ++ [e] := fun e =>
        (mem_join hall hfull).mp (hp e)
      cases p with
      | nil =>
        refine hfull fun d _ => (hsub d).eq_root (hn d) ?_
        obtain ⟨d', q, hq, heq⟩ := hfamily d
        obtain ⟨rfl, rfl⟩ := List.cons.inj heq
        exact hq
      | cons c p =>
        refine (hsub c).incomplete p fun e => ?_
        obtain ⟨d', q, hq, heq⟩ := hfamily e
        obtain ⟨rfl, rfl⟩ := List.cons.inj heq
        exact hq

theorem nodup_join (hdigits : digits.Nodup) (hn : ∀ d, (sub d).Nodup) :
    (join digits sub).Nodup := by
  rw [join]
  split_ifs with hfull
  · exact List.nodup_singleton []
  · refine List.nodup_flatMap.mpr ⟨fun d _ => (hn d).map (List.cons_injective), ?_⟩
    refine hdigits.imp fun hde p hp hq => ?_
    obtain ⟨q, -, rfl⟩ := List.mem_map.mp hp
    obtain ⟨q', -, heq⟩ := List.mem_map.mp hq
    exact hde (List.cons.inj heq).1.symm

/-- The compaction of a set is the compact set of its region. -/
theorem compaction_spec [Nonempty D] (hall : ∀ d, d ∈ digits) (hdigits : digits.Nodup) {n : Nat}
    (hS : ∀ p ∈ S, p.length ≤ n) : Compact (compaction digits n S) ∧
      (compaction digits n S).Nodup ∧ region (compaction digits n S) = region S := by
  induction n generalizing S with
  | zero =>
    rw [compaction]
    split_ifs with hroot
    · exact ⟨compact_root, List.nodup_singleton [], by
        rw [region_of_nil_mem hroot, region_of_nil_mem (.head _)]⟩
    · have hempty : S = [] := by
        refine List.eq_nil_iff_forall_not_mem.mpr fun p hp => hroot ?_
        rwa [List.eq_nil_of_length_eq_zero (Nat.le_zero.mp (hS p hp))] at hp
      rw [hempty]
      exact ⟨compact_nil, List.nodup_nil, rfl⟩
  | succ n ih =>
    rw [compaction]
    split_ifs with hroot
    · exact ⟨compact_root, List.nodup_singleton [], by
        rw [region_of_nil_mem hroot, region_of_nil_mem (.head _)]⟩
    · have hbelow : ∀ d, ∀ p ∈ below d S, p.length ≤ n := fun d p hp =>
        Nat.le_of_succ_le_succ (hS _ (mem_below.mp hp))
      refine ⟨compact_join hall (fun d => (ih (hbelow d)).1) fun d => (ih (hbelow d)).2.1,
        nodup_join hdigits fun d => (ih (hbelow d)).2.1, ?_⟩
      ext x
      rw [mem_region_join hall, (ih (hbelow x.head)).2.2, mem_region_below hroot]

end Compaction

end Zagg.Lib.DigitTree
