import Zagg.Catalog.Coarsen

/-!
# Reprojection to coarser orders

A map derived at a coarser order lists a granule in a shard exactly when the source lists it in a
descendant, once. Two derivations give what one gives, and are refused when it is.
-/
namespace Zagg.Catalog

open Zagg.Lib

/-- The part of a HEALPix grid that a derived map is made for. -/
def healpixGrid (order child : Nat) (layout : String) : TargetGrid :=
  ⟨some order, some child, ⟨"healpix", some order, some child, layout⟩⟩

/-- A shard map of a HEALPix grid, its keys in order. -/
structure HealpixMap (IsAt : Nat → Word → Prop) (m : ShardMap) (order child : Nat) : Prop where
  kind : m.gridSignature.kind = "healpix"
  parentOrder : m.gridSignature.parentOrder = some order
  childOrder : m.gridSignature.childOrder = some child
  order_le : order ≤ child
  words : ∀ s ∈ m.shards, IsAt order s.1
  sorted : m.shards.Pairwise fun s s' => s.1 ≤ s'.1

section Steps
variable {clip2order : Nat → Word → Word} {IsAt : Nat → Word → Prop} {m : ShardMap}
  {a b c child : Nat} {layout : String} {refined : Option (Except PyError (Shards × Nat))}

theorem reproject_same (hm : HealpixMap IsAt m a child) :
    reproject clip2order refined m (healpixGrid a child layout) =
      .ok (unchangedMap m (healpixGrid a child layout) a a) := by
  simp only [reproject, healpixGrid, hm.parentOrder]
  rw [if_neg (not_not.mpr hm.kind), if_neg (not_not.mpr hm.childOrder),
    if_neg (Nat.not_lt.mpr hm.order_le), if_pos trivial]

theorem reproject_coarser (hm : HealpixMap IsAt m a child) (hb : b < a) :
    reproject clip2order refined m (healpixGrid b child layout) =
      derivedMap m (healpixGrid b child layout) a b (coarsen clip2order b m.shards) none := by
  simp only [reproject, healpixGrid, hm.parentOrder]
  rw [if_neg (not_not.mpr hm.kind), if_neg (not_not.mpr hm.childOrder),
    if_neg (Nat.not_lt.mpr (hb.le.trans hm.order_le)), if_neg hb.ne, if_pos hb]

theorem derivedMap_ok_iff {grid : TargetGrid} {source target : Nat} {shards : Shards}
    {order : Option Nat} {r : ShardMap} : derivedMap m grid source target shards order = .ok r ↔
      basenameCollisions shards = none ∧ r = ⟨grid.spatialSignature, shards,
        derivedMetadata m source target shards order, none⟩ := by
  unfold derivedMap
  cases basenameCollisions shards with
  | none => exact ⟨fun h => ⟨rfl, (Except.ok.inj h).symm⟩, fun h => congrArg Except.ok h.2.symm⟩
  | some report => exact iff_of_false nofun nofun

theorem derivedMap_error_iff {grid : TargetGrid} {source target : Nat} {shards : Shards}
    {order : Option Nat} :
    (∃ report, derivedMap m grid source target shards order = .error (.collision report)) ↔
      ∃ s ∈ shards, Collides s.2 := by
  have hnone := @basenameCollisions_eq_none shards
  unfold derivedMap
  cases h : basenameCollisions shards with
  | none =>
    refine iff_of_false nofun fun ⟨s, hs, hcollides⟩ => ?_
    exact hnone.mp h s hs hcollides
  | some report =>
    refine iff_of_true ⟨report, rfl⟩ ?_
    by_contra hall
    rw [hnone.mpr fun s hs hcollides => hall ⟨s, hs, hcollides⟩] at h
    cases h

/-- A map derived at an order is one of that order. -/
theorem healpixMap_reproject (hclip : Nesting clip2order IsAt) (hm : HealpixMap IsAt m a child)
    (hb : b ≤ a) {r : ShardMap}
    (h : reproject clip2order refined m (healpixGrid b child layout) = .ok r) :
    HealpixMap IsAt r b child := by
  cases Nat.lt_or_eq_of_le hb with
  | inl hlt =>
    rw [reproject_coarser hm hlt, derivedMap_ok_iff] at h
    obtain ⟨-, rfl⟩ := h
    refine ⟨rfl, rfl, rfl, hb.trans hm.order_le, fun s hs => ?_, ?_⟩
    · obtain ⟨s', hs', hkey⟩ := mem_keys_coarsen.mp (List.mem_map_of_mem hs)
      exact hkey ▸ hclip.clip_at a b s'.1 hb (hm.words s' hs')
    · show (coarsen clip2order b m.shards).Pairwise fun s s' => s.1 ≤ s'.1
      rw [coarsen_eq, List.pairwise_map]
      exact pairwise_sortedSet _
  | inr heq =>
    subst heq
    rw [reproject_same hm] at h
    obtain rfl := Except.ok.inj h
    refine ⟨rfl, rfl, rfl, hm.order_le, fun s hs => ?_, ?_⟩
    · obtain ⟨s', hs', rfl⟩ := List.mem_map.mp hs
      exact hm.words s' hs'
    · exact List.pairwise_map.mpr hm.sorted

/-- The shards derived from a derived map, collisions apart. -/
theorem coarsen_reproject (hclip : Nesting clip2order IsAt) (hm : HealpixMap IsAt m a child)
    (hcb : c ≤ b) (hba : b ≤ a) {mid : ShardMap}
    (h : reproject clip2order refined m (healpixGrid b child layout) = .ok mid) :
    coarsen clip2order c mid.shards = coarsen clip2order c m.shards := by
  cases Nat.lt_or_eq_of_le hba with
  | inl hlt =>
    rw [reproject_coarser hm hlt, derivedMap_ok_iff] at h
    obtain ⟨-, rfl⟩ := h
    exact coarsen_coarsen hclip hcb hba hm.words hm.sorted
  | inr heq =>
    subst heq
    rw [reproject_same hm] at h
    obtain rfl := Except.ok.inj h
    exact coarsen_map_granuleEntry c m.shards

/-- Granules that collide in a shard collide in the shard's parent. -/
theorem collides_coarser (hclip : Nesting clip2order IsAt) (hm : HealpixMap IsAt m a child)
    (hcb : c ≤ b) (hba : b ≤ a) (h : ∃ s ∈ coarsen clip2order b m.shards, Collides s.2) :
    ∃ s ∈ coarsen clip2order c m.shards, Collides s.2 := by
  obtain ⟨s, hs, hcollides⟩ := h
  rw [coarsen_eq] at hs
  obtain ⟨p, hp, rfl⟩ := List.mem_map.mp hs
  have hk : clip2order c p ∈ sortedSet (m.shards.map fun s => clip2order c s.1) := by
    obtain ⟨s', hs', rfl⟩ := List.mem_map.mp (mem_sortedSet.mp hp)
    rw [hclip.clip_clip a b c s'.1 hcb hba (hm.words s' hs'), mem_sortedSet]
    exact List.mem_map_of_mem hs'
  have hmem : (clip2order c p, unionGranules
      ((m.shards.filter fun s => clip2order c s.1 = clip2order c p).map Prod.snd)) ∈
        coarsen clip2order c m.shards := by
    rw [coarsen_eq]
    exact List.mem_map_of_mem hk
  refine ⟨_, hmem, hcollides.mono fun d hd => ?_⟩
  obtain ⟨entries, hentries, hd⟩ := mem_union.mp hd
  obtain ⟨s', hs', rfl⟩ := List.mem_map.mp hentries
  obtain ⟨hs', hkey⟩ := List.mem_filter.mp hs'
  refine mem_union.mpr ⟨s'.2, List.mem_map_of_mem (List.mem_filter.mpr ⟨hs', ?_⟩), hd⟩
  rw [← hclip.clip_clip a b c s'.1 hcb hba (hm.words s' hs'), of_decide_eq_true hkey]
  exact decide_eq_true rfl

/-- The shards of a map derived at an order that is not finer. -/
def shardsAt (clip2order : Nat → Word → Word) (source target : Nat) (shards : Shards) : Shards :=
  if target < source then coarsen clip2order target shards
  else shards.map fun s => (s.1, s.2.map granuleEntry)

theorem shards_reproject (hm : HealpixMap IsAt m a child) (hb : b ≤ a) {r : ShardMap}
    (h : reproject clip2order refined m (healpixGrid b child layout) = .ok r) :
    r.shards = shardsAt clip2order a b m.shards := by
  unfold shardsAt
  cases Nat.lt_or_eq_of_le hb with
  | inl hlt =>
    rw [reproject_coarser hm hlt, derivedMap_ok_iff] at h
    obtain ⟨-, rfl⟩ := h
    rw [if_pos hlt]
  | inr heq =>
    subst heq
    rw [reproject_same hm] at h
    obtain rfl := Except.ok.inj h
    rw [if_neg (Nat.lt_irrefl b)]
    rfl

theorem map_granuleEntry_coarsen (target : Nat) (shards : Shards) :
    (coarsen clip2order target shards).map (fun s => (s.1, s.2.map granuleEntry)) =
      coarsen clip2order target shards := by
  rw [coarsen_eq, List.map_map]
  refine List.map_congr_left fun k _ => congrArg (Prod.mk k) ?_
  refine (List.map_congr_left fun e he => ?_).trans (List.map_id _)
  obtain ⟨-, -, g, -, rfl⟩ := exists_of_mem_union he
  rfl

/-- Two derivations list the granules that one lists. -/
theorem shardsAt_shardsAt (hclip : Nesting clip2order IsAt) (hm : HealpixMap IsAt m a child)
    (hcb : c ≤ b) (hba : b ≤ a) :
    shardsAt clip2order b c (shardsAt clip2order a b m.shards) =
      shardsAt clip2order a c m.shards := by
  unfold shardsAt
  by_cases hb : b < a
  · rw [if_pos hb, if_pos (hcb.trans_lt hb)]
    by_cases hlt : c < b
    · rw [if_pos hlt]
      exact coarsen_coarsen hclip hcb hba hm.words hm.sorted
    · obtain rfl := Nat.le_antisymm hcb (Nat.not_lt.mp hlt)
      rw [if_neg hlt]
      exact map_granuleEntry_coarsen c m.shards
  · obtain rfl := Nat.le_antisymm hba (Nat.not_lt.mp hb)
    rw [if_neg hb]
    split_ifs
    · exact coarsen_map_granuleEntry c m.shards
    · rw [List.map_map]
      refine List.map_congr_left fun s _ => congrArg (Prod.mk s.1) ?_
      show (s.2.map granuleEntry).map granuleEntry = _
      rw [List.map_map]
      rfl

/-- A derivation is refused for a collision, and for nothing else. -/
theorem reproject_settled (refined : Option (Except PyError (Shards × Nat))) (layout : String)
    (hm : HealpixMap IsAt m a child) (hb : b ≤ a) :
    (∃ r, reproject clip2order refined m (healpixGrid b child layout) = .ok r) ∨
      ∃ report, reproject clip2order refined m (healpixGrid b child layout) =
        .error (.collision report) := by
  cases Nat.lt_or_eq_of_le hb with
  | inl hlt =>
    rw [reproject_coarser hm hlt, derivedMap]
    cases basenameCollisions (coarsen clip2order b m.shards) with
    | none => exact .inl ⟨_, rfl⟩
    | some report => exact .inr ⟨report, rfl⟩
  | inr heq =>
    subst heq
    exact .inl ⟨_, reproject_same hm⟩

theorem reproject_refused_iff (hm : HealpixMap IsAt m a child) (hb : b ≤ a) :
    (∃ report, reproject clip2order refined m (healpixGrid b child layout) =
        .error (.collision report)) ↔
      b < a ∧ ∃ s ∈ coarsen clip2order b m.shards, Collides s.2 := by
  cases Nat.lt_or_eq_of_le hb with
  | inl hlt =>
    rw [reproject_coarser hm hlt, derivedMap_error_iff]
    exact (and_iff_right hlt).symm
  | inr heq =>
    subst heq
    rw [reproject_same hm]
    exact iff_of_false nofun fun h => Nat.lt_irrefl b h.1

end Steps

/-- What deriving a map of order `a` at an order `c`, directly or by way of an order `b`, comes
to. -/
structure CoarsensExactly (clip2order : Nat → Word → Word)
    (refined : Option (Except PyError (Shards × Nat))) (m : ShardMap) (a : Nat)
    (middle target : TargetGrid) (c : Nat) : Prop where
  settled : (∃ r, reproject clip2order refined m target = .ok r) ∨
    ∃ report, reproject clip2order refined m target = .error (.collision report)
  membership : c < a → ∀ r, reproject clip2order refined m target = .ok r →
    (r.shards.map Prod.fst).Pairwise (· < ·) ∧
    (∀ k, k ∈ r.shards.map Prod.fst ↔ ∃ s ∈ m.shards, clip2order c s.1 = k) ∧
    ∀ s ∈ r.shards, (s.2.map distinguishing).Nodup ∧
      (∀ d, d ∈ s.2.map distinguishing ↔
        ∃ s' ∈ m.shards, clip2order c s'.1 = s.1 ∧ d ∈ s'.2.map distinguishing) ∧
      ∀ e ∈ s.2, ∃ s' ∈ m.shards, clip2order c s'.1 = s.1 ∧ ∃ g ∈ s'.2, e = granuleEntry g
  composition : ∀ r, reproject clip2order refined m target = .ok r →
    ∃ mid r', reproject clip2order refined m middle = .ok mid ∧
      reproject clip2order refined mid target = .ok r' ∧ r'.shards = r.shards
  refusal : (∃ report, reproject clip2order refined m target = .error (.collision report)) ↔
    (∃ report, reproject clip2order refined m middle = .error (.collision report)) ∨
    ∃ mid, reproject clip2order refined m middle = .ok mid ∧
      ∃ report, reproject clip2order refined mid target = .error (.collision report)

section Whole
variable {clip2order : Nat → Word → Word} {IsAt : Nat → Word → Prop} {m : ShardMap}
  {a b c child : Nat} {layout layout' : String} {refined : Option (Except PyError (Shards × Nat))}

theorem coarsen_membership (k : Word × List ShardEntry)
    (h : k ∈ coarsen clip2order c m.shards) : (k.2.map distinguishing).Nodup ∧
      (∀ d, d ∈ k.2.map distinguishing ↔
        ∃ s' ∈ m.shards, clip2order c s'.1 = k.1 ∧ d ∈ s'.2.map distinguishing) ∧
      ∀ e ∈ k.2, ∃ s' ∈ m.shards, clip2order c s'.1 = k.1 ∧ ∃ g ∈ s'.2, e = granuleEntry g := by
  rw [coarsen_eq] at h
  obtain ⟨p, -, rfl⟩ := List.mem_map.mp h
  have hshards {P : List ShardEntry → Prop} :
      (∃ entries ∈ (m.shards.filter fun s => clip2order c s.1 = p).map Prod.snd, P entries) ↔
        ∃ s' ∈ m.shards, clip2order c s'.1 = p ∧ P s'.2 := by
    simp only [List.mem_map, List.mem_filter, decide_eq_true_eq]
    constructor
    · rintro ⟨_, ⟨s', ⟨hs', hp⟩, rfl⟩, hP⟩
      exact ⟨s', hs', hp, hP⟩
    · exact fun ⟨s', hs', hp, hP⟩ => ⟨s'.2, ⟨s', ⟨hs', hp⟩, rfl⟩, hP⟩
  refine ⟨nodup_union _, fun d => mem_union.trans hshards, fun e he => ?_⟩
  exact hshards.mp (exists_of_mem_union he)

/-- The direct derivation is refused exactly when a step is. -/
theorem refusal_steps (layout : String) (hclip : Nesting clip2order IsAt) (hm : HealpixMap IsAt m a child)
    (hcb : c ≤ b) (hba : b ≤ a) :
    (∃ report, reproject clip2order refined m (healpixGrid c child layout') =
        .error (.collision report)) ↔
      (∃ report, reproject clip2order refined m (healpixGrid b child layout) =
        .error (.collision report)) ∨
      ∃ mid, reproject clip2order refined m (healpixGrid b child layout) = .ok mid ∧
        ∃ report, reproject clip2order refined mid (healpixGrid c child layout') =
          .error (.collision report) := by
  constructor
  · intro h
    obtain ⟨-, hcollides⟩ := (reproject_refused_iff hm (hcb.trans hba)).mp h
    cases reproject_settled refined layout hm hba with
    | inr hrefused => exact .inl hrefused
    | inl hok =>
      obtain ⟨mid, hmid⟩ := hok
      cases Nat.lt_or_eq_of_le hcb with
      | inl hlt =>
        refine .inr ⟨mid, hmid, ?_⟩
        rw [reproject_refused_iff (healpixMap_reproject hclip hm hba hmid) hcb,
          coarsen_reproject hclip hm hcb hba hmid]
        exact ⟨hlt, hcollides⟩
      | inr heq =>
        subst heq
        exact .inl ((reproject_refused_iff hm hba).mpr ((reproject_refused_iff hm hba).mp h))
  · intro h
    rw [reproject_refused_iff hm (hcb.trans hba)]
    cases h with
    | inl hfirst =>
      obtain ⟨hb, hcollides⟩ := (reproject_refused_iff hm hba).mp hfirst
      exact ⟨hcb.trans_lt hb, collides_coarser hclip hm hcb hba hcollides⟩
    | inr hsecond =>
      obtain ⟨mid, hmid, hsecond⟩ := hsecond
      rw [reproject_refused_iff (healpixMap_reproject hclip hm hba hmid) hcb,
        coarsen_reproject hclip hm hcb hba hmid] at hsecond
      exact ⟨hsecond.1.trans_le hba, hsecond.2⟩

/-- Two derivations give the shards that one gives. -/
theorem composed_shards (hclip : Nesting clip2order IsAt) (hm : HealpixMap IsAt m a child)
    (hcb : c ≤ b) (hba : b ≤ a) {r : ShardMap}
    (h : reproject clip2order refined m (healpixGrid c child layout') = .ok r) :
    ∃ mid r', reproject clip2order refined m (healpixGrid b child layout) = .ok mid ∧
      reproject clip2order refined mid (healpixGrid c child layout') = .ok r' ∧
        r'.shards = r.shards := by
  have hnot := mt (refusal_steps layout hclip hm hcb hba).mpr (by rw [h]; exact nofun)
  obtain ⟨mid, hmid⟩ := (reproject_settled refined layout hm hba).resolve_right fun hrefused => hnot (.inl hrefused)
  have hmidMap := healpixMap_reproject hclip hm hba hmid
  obtain ⟨r', hr'⟩ := (reproject_settled refined layout' hmidMap hcb).resolve_right
    fun hrefused => hnot (.inr ⟨mid, hmid, hrefused⟩)
  refine ⟨mid, r', hmid, hr', ?_⟩
  rw [shards_reproject hmidMap hcb hr', shards_reproject hm hba hmid,
    shardsAt_shardsAt hclip hm hcb hba, shards_reproject hm (hcb.trans hba) h]

/-- Coarsening a shard map is exact, and by way of an order between gives the same shards and
the same refusal. -/
theorem reproject_coarsens_exactly (hclip : Nesting clip2order IsAt)
    (hm : HealpixMap IsAt m a child) (hcb : c ≤ b) (hba : b ≤ a) :
    CoarsensExactly clip2order refined m a (healpixGrid b child layout)
      (healpixGrid c child layout') c := by
  constructor
  · exact reproject_settled refined layout' hm (hcb.trans hba)
  · intro hlt r hr
    have hshards := shards_reproject hm hlt.le hr
    rw [shardsAt, if_pos hlt] at hshards
    rw [hshards]
    refine ⟨?_, fun k => mem_keys_coarsen, coarsen_membership⟩
    rw [coarsen_eq, List.map_map]
    show ((sortedSet _).map id).Pairwise _
    rw [List.map_id]
    exact strictly_sortedSet _
  · exact fun r hr => composed_shards hclip hm hcb hba hr
  · exact refusal_steps layout hclip hm hcb hba

end Whole

section Sample

/-- A packed word: the path of a cell from the upper bits down, its order in the lower ones. -/
def sampleClip (order : Nat) (w : Word) : Word := w / 2 ^ (60 - 2 * order) * 2 ^ (60 - 2 * order) + order

def SampleAt (order : Nat) (w : Word) : Prop := order ≤ 27 ∧ w % 2 ^ (60 - 2 * order) = order

theorem order_lt_unit {order : Nat} (h : order ≤ 27) : order < 2 ^ (60 - 2 * order) := by
  have hunit : 2 ^ 6 ≤ 2 ^ (60 - 2 * order) := Nat.pow_le_pow_right Nat.two_pos (by omega)
  omega

theorem sampleClip_nesting : Nesting sampleClip SampleAt where
  clip_at a b w hba hw := by
    have hb : b ≤ 27 := hba.trans hw.1
    refine ⟨hb, ?_⟩
    rw [sampleClip, Nat.mul_add_mod', Nat.mod_eq_of_lt (order_lt_unit hb)]
  clip_clip a b c w hcb hba hw := by
    have hb : b ≤ 27 := hba.trans hw.1
    have hunit : 2 ^ (60 - 2 * c) = 2 ^ (60 - 2 * b) * 2 ^ (2 * b - 2 * c) := by
      rw [← Nat.pow_add]
      congr 1
      omega
    have hpath : sampleClip b w / 2 ^ (60 - 2 * b) = w / 2 ^ (60 - 2 * b) := by
      rw [sampleClip, Nat.mul_comm, Nat.mul_add_div (Nat.two_pow_pos _),
        Nat.div_eq_of_lt (order_lt_unit hb), Nat.add_zero]
    rw [sampleClip, sampleClip.eq_1 c w, hunit, ← Nat.div_div_eq_div_mul, hpath,
      Nat.div_div_eq_div_mul]
  mono a b w w' hba hw hw' hle :=
    Nat.add_le_add_right (Nat.mul_le_mul_right _ (Nat.div_le_div_right hle)) b

def sampleEntry (id href : String) : ShardEntry where
  id := some id.toList
  s3 := some href.toList
  https := none
  assets := none
  datetime := none
  timeKey := none
  timeStart := none
  timeEnd := none
  extra := []

/-- Three shards of order 2 under one of order 1 and a sibling; the first granule is in all. -/
def sampleMap : ShardMap where
  gridSignature := ⟨"healpix", some 2, some 4, "packed"⟩
  shards := [
    (2 ^ 60 + 2, [sampleEntry "A" "s3://b/a.h5"]),
    (2 ^ 60 + 2 ^ 56 + 2, [sampleEntry "B" "s3://b/b.h5", sampleEntry "A" "s3://b/a.h5"]),
    (2 ^ 60 + 2 ^ 58 + 2, [sampleEntry "A" "s3://b/a.h5"])]
  metadata := []
  aoiMask := none

theorem sampleMap_healpixMap : HealpixMap SampleAt sampleMap 2 4 where
  kind := rfl
  parentOrder := rfl
  childOrder := rfl
  order_le := by decide
  words := by
    unfold SampleAt sampleMap
    decide
  sorted := by decide

theorem reproject_coarsens_exactly_sample :
    CoarsensExactly sampleClip none sampleMap 2 (healpixGrid 1 4 "packed")
      (healpixGrid 0 4 "packed") 0 :=
  reproject_coarsens_exactly sampleClip_nesting sampleMap_healpixMap (by decide) (by decide)

end Sample

end Zagg.Catalog
