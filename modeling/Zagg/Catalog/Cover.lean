import Mathlib.Order.CompletePartialOrder
import Mathlib.Data.Set.Lattice
import Zagg.Catalog.ShardMap

/-!
# What the packed words cover

A word stands for a region of the sphere and a MOC for the union of its words. The shards
are cells of one order, so two of them never overlap. The assignment relies on what mortie
documents for compact MOCs: intersecting, testing and flattening them is set algebra on
their regions, slot by slot.
-/
namespace Zagg.Catalog

open Zagg.Lib

/-- The regions of the words. `isShard` holds of the words of the parent order, and `fits` of
the regions mortie flattens to that order within its cell budget. -/
structure Cover (P : Type) where
  area : Word → Set P
  compact : List Word → Prop
  isShard : Word → Prop
  fits : Set P → Prop

namespace Cover
variable {P : Type} (v : Cover P)

def region (moc : List Word) : Set P := {p | ∃ w ∈ moc, p ∈ v.area w}

/-- The MOC meets the shard. -/
def meets (moc : List Word) (s : Word) : Prop := (v.area s ∩ v.region moc).Nonempty

/-- `out` is the MOC flattened to the parent order: the cells it meets. -/
def flattened (moc out : List Word) : Prop := ∀ w, w ∈ out ↔ v.isShard w ∧ v.meets moc w

theorem region_nil : v.region [] = ∅ := by
  apply Set.eq_empty_of_forall_notMem
  rintro p ⟨w, hw, -⟩
  cases hw

theorem not_meets_nil (s : Word) : ¬v.meets [] s := by
  rintro ⟨p, -, hp⟩
  rw [region_nil] at hp
  exact hp

end Cover

/-- Concatenated slots and their offsets. -/
def pack (mocs : List (List Word)) : RaggedWords := (mocs.flatten, offsetsOf mocs)

/-- mortie's documented behaviour on compact MOCs, at the parent order. The batch calls work
slot by slot; flattening may refuse a MOC over its cell budget, and a coverage its ring. -/
structure Mortie.SetAlgebra {V P : Type} (m : Mortie V) (v : Cover P) (parentOrder : Nat) :
    Prop where
  shards_disjoint : ∀ s t, v.isShard s → v.isShard t → s ≠ t → Disjoint (v.area s) (v.area t)
  compressMoc : ∀ moc, (∀ w ∈ moc, v.isShard w) →
    v.compact (m.compressMoc moc) ∧ v.region (m.compressMoc moc) = v.region moc
  mocsIntersect : ∀ moc mocs, v.compact moc → (∀ x ∈ mocs, v.compact x) →
    List.Forall₂ (fun x b => b = true ↔ (v.region x ∩ v.region moc).Nonempty) mocs
      (m.mocsIntersect moc (pack mocs))
  mocsAnd : ∀ moc mocs, v.compact moc → (∀ x ∈ mocs, v.compact x) →
    ∃ outs, m.mocsAnd moc (pack mocs) = .ok (pack outs) ∧
      List.Forall₂ (fun x o => v.compact o ∧ v.region o = v.region x ∩ v.region moc) mocs outs
  mocsToOrders : ∀ mocs flat, (∀ x ∈ mocs, v.compact x) →
    m.mocsToOrders (pack mocs) parentOrder = .ok flat →
      ∃ outs, flat = pack outs ∧ List.Forall₂ v.flattened mocs outs
  mocsToOrders_fits : ∀ mocs, (∀ x ∈ mocs, v.compact x ∧ v.fits (v.region x)) →
    ∃ flat, m.mocsToOrders (pack mocs) parentOrder = .ok flat

/-- The same for the geometry path: a batch coverage is the coverage ring by ring. -/
structure Mortie.RingAlgebra {V P : Type} (m : Mortie V) (v : Cover P) (parentOrder : Nat) :
    Prop where
  mocToOrder : ∀ moc cells, v.compact moc → m.mocToOrder moc parentOrder = .ok cells →
    v.flattened moc cells
  coverageMoc : ∀ lats lons order moc, m.coverageMoc lats lons order = .ok moc → v.compact moc
  polygonsToMocs : ∀ (rings : List (Ring V)) order out, (∀ r ∈ rings, r.1.length = r.2.length) →
    m.polygonsToMocs (rings.map Prod.fst).flatten (rings.map Prod.snd).flatten
        (offsetsOf (rings.map Prod.fst)) order = .ok out →
      ∃ mocs, out = pack mocs ∧
        List.Forall₂ (fun r moc => m.coverageMoc r.1 r.2 order = .ok moc) rings mocs

section Shards
variable {V P : Type} {m : Mortie V} {v : Cover P} {parentOrder : Nat}

/-- A shard meets a MOC clipped to the AOI exactly when it is of the AOI and meets the MOC. -/
theorem Mortie.SetAlgebra.meets_clipped (h : m.SetAlgebra v parentOrder) {shards : List Word}
    (hshards : ∀ s ∈ shards, v.isShard s) {moc clipped : List Word}
    (hclip : v.region clipped = v.region moc ∩ v.region shards) {s : Word} (hs : v.isShard s) :
    v.meets clipped s ↔ s ∈ shards ∧ v.meets moc s := by
  constructor
  · rintro ⟨p, hp, hc⟩
    rw [hclip] at hc
    obtain ⟨hm, t, ht, hpt⟩ := hc
    have hst : s = t := by
      by_contra hne
      exact Set.disjoint_left.mp (h.shards_disjoint s t hs (hshards t ht) hne) hp hpt
    exact ⟨hst ▸ ht, p, hp, hm⟩
  · rintro ⟨hmem, p, hp, hm⟩
    refine ⟨p, hp, ?_⟩
    rw [hclip]
    exact ⟨hm, s, hmem, hp⟩

end Shards
end Zagg.Catalog
