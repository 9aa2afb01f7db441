import Zagg.Lib.RowMajor
import Zagg.Catalog.ShardMap

/-!
# HEALPix grids

A cell's place in the store is its nested number at its order, and so is a chunk's block. The
cells of a shard have consecutive numbers, and so have its chunks; `mortie` translates between
words and numbers.
-/
namespace Zagg.Grids

open Zagg.Lib
open Zagg.Catalog (Word)
open BoxIndex (Inside size ravel unravel)

def healpixBaseCells : Nat := 12

/-- What the grid calls in `mortie`; `mort2healpix` as the nested number. -/
structure MortonCalls where
  mort2healpix : Word → Nat
  generateMortonChildren : Word → Nat → List Word
  clip2order : Nat → Word → Word

/-- The words of the orders up to `top`, as their numbers place them. -/
structure MortonCalls.Nested (m : MortonCalls) (top : Nat) (IsAt : Nat → Word → Prop) : Prop where
  nested_lt : ∀ {o w}, IsAt o w → m.mort2healpix w < healpixBaseCells * 4 ^ o
  exists_word : ∀ {o n}, o ≤ top → n < healpixBaseCells * 4 ^ o → ∃ w, IsAt o w ∧ m.mort2healpix w = n
  nested_inj : ∀ {o v w}, IsAt o v → IsAt o w → m.mort2healpix v = m.mort2healpix w → v = w
  children_at : ∀ {o o' w}, o ≤ o' → o' ≤ top → IsAt o w → ∀ v ∈ m.generateMortonChildren w o', IsAt o' v
  children_eq : ∀ {o o' w}, o ≤ o' → o' ≤ top → IsAt o w →
    (m.generateMortonChildren w o').map m.mort2healpix = tile (4 ^ (o' - o)) (m.mort2healpix w)
  clip_at : ∀ {o o' w}, o ≤ o' → IsAt o' w → IsAt o (m.clip2order o w)
  clip_eq : ∀ {o o' w}, o ≤ o' → IsAt o' w →
    m.mort2healpix (m.clip2order o w) = m.mort2healpix w / 4 ^ (o' - o)

/-- The same words without those of the orders beyond `top'`. -/
theorem MortonCalls.Nested.restrict {m : MortonCalls} {top top' : Nat} {IsAt : Nat → Word → Prop}
    (h : m.Nested top IsAt) (htop : top' ≤ top) : m.Nested top' fun o w => o ≤ top' ∧ IsAt o w where
  nested_lt hw := h.nested_lt hw.2
  exists_word ho hn := by
    obtain ⟨w, hw, hnum⟩ := h.exists_word (ho.trans htop) hn
    exact ⟨w, ⟨ho, hw⟩, hnum⟩
  nested_inj hv hw := h.nested_inj hv.2 hw.2
  children_at ho ho' hw v hv := ⟨ho', h.children_at ho (ho'.trans htop) hw.2 v hv⟩
  children_eq ho ho' hw := h.children_eq ho (ho'.trans htop) hw.2
  clip_at ho hw := ⟨ho.trans hw.1, h.clip_at ho hw.2⟩
  clip_eq ho hw := h.clip_eq ho hw.2

/-- The orders of a grid. -/
structure HealpixGrid where
  parentOrder : Nat
  chunkOrder : Nat
  childOrder : Nat
  parent_le : parentOrder ≤ chunkOrder
  chunk_le : chunkOrder ≤ childOrder

inductive HealpixError where
  | childAboveParent
  | unknownLayout
  | chunkOrder

namespace HealpixGrid

/-- `__init__`. -/
def init (parentOrder childOrder : Nat) (layout : String) (chunkInner : Option Nat) :
    Except HealpixError HealpixGrid :=
  if childOrder < parentOrder then .error .childAboveParent
  else if layout ≠ "fullsphere" then .error .unknownLayout
  else if h : parentOrder ≤ chunkInner.getD parentOrder ∧ chunkInner.getD parentOrder ≤ childOrder then
    .ok ⟨parentOrder, chunkInner.getD parentOrder, childOrder, h.1, h.2⟩
  else .error .chunkOrder

variable (m : MortonCalls) (g : HealpixGrid)

def cellsPerChunk : Nat := 4 ^ (g.childOrder - g.chunkOrder)

def chunksPerShard : Nat := 4 ^ (g.chunkOrder - g.parentOrder)

def cellsPerShard : Nat := 4 ^ (g.childOrder - g.parentOrder)

def chunkShape : Nat := g.cellsPerChunk

def shardSlabShape : Nat := g.cellsPerShard

def children (shard : Word) : List Word := m.generateMortonChildren shard g.childOrder

def blockIndex (shard : Word) : Nat := m.mort2healpix shard

def iterChunks (shard : Word) : List (Nat × List Word) :=
  if g.chunksPerShard = 1 then [(blockIndex m shard, g.children m shard)]
  else (m.generateMortonChildren shard g.chunkOrder).map fun sub =>
    (m.mort2healpix sub, m.generateMortonChildren sub g.childOrder)

/-- `shard_local_region`: the bounds of the slice. -/
def shardLocalRegion (block : Nat) (shard : Word) : Int × Int :=
  let lo := (block : Int) - ((blockIndex m shard * g.chunksPerShard : Nat) : Int)
  (lo * g.cellsPerChunk, lo * g.cellsPerChunk + g.cellsPerChunk)

/-- `shards_of`, of one leaf. -/
def shardsOf (leaf : Word) : Word := m.clip2order g.parentOrder leaf

section Numbers
variable {m : MortonCalls} {top : Nat} {IsAt : Nat → Word → Prop} (hm : m.Nested top IsAt)
include hm

/-- The descendants of a word are the words with the numbers of its block. -/
theorem mem_generateMortonChildren {o o' : Nat} {w v : Word} (ho : o ≤ o') (htop : o' ≤ top) (hw : IsAt o w) :
    v ∈ m.generateMortonChildren w o' ↔
      IsAt o' v ∧ m.mort2healpix v ∈ tile (4 ^ (o' - o)) (m.mort2healpix w) := by
  rw [← hm.children_eq ho htop hw, List.mem_map]
  constructor
  · intro hv
    exact ⟨hm.children_at ho htop hw v hv, v, hv, rfl⟩
  · rintro ⟨hat, v', hv', heq⟩
    exact hm.nested_inj (hm.children_at ho htop hw v' hv') hat heq ▸ hv'

/-- A word is its own only descendant at its order. -/
theorem generateMortonChildren_self {o : Nat} {w : Word} (htop : o ≤ top) (hw : IsAt o w) :
    m.generateMortonChildren w o = [w] := by
  have hmap := hm.children_eq le_rfl htop hw
  have htile : tile (4 ^ (o - o)) (m.mort2healpix w) = [m.mort2healpix w] := by
    rw [Nat.sub_self]
    show [m.mort2healpix w * 1 + 0] = _
    rw [Nat.mul_one, Nat.add_zero]
  rw [htile] at hmap
  cases hlist : m.generateMortonChildren w o with
  | nil =>
    rw [hlist] at hmap
    cases hmap
  | cons v vs =>
    rw [hlist, List.map_cons, List.cons_eq_cons, List.map_eq_nil_iff] at hmap
    have hv := hm.children_at le_rfl htop hw v (hlist ▸ List.mem_cons_self)
    rw [hmap.2, hm.nested_inj hv hw hmap.1]

end Numbers

section Chunks
variable {m : MortonCalls} {top : Nat} {IsAt : Nat → Word → Prop} (hm : m.Nested top IsAt) {g : HealpixGrid}

theorem chunksPerShard_mul (g : HealpixGrid) : g.chunksPerShard * g.chunkShape = g.shardSlabShape := by
  have hparent := g.parent_le
  have hchunk := g.chunk_le
  rw [chunksPerShard, chunkShape, cellsPerChunk, shardSlabShape, cellsPerShard, ← Nat.pow_add]
  congr 1
  omega

include hm in
/-- The chunks of a shard are its descendants at the chunk order. -/
theorem iterChunks_eq (htop : g.childOrder ≤ top) {shard : Word} (hs : IsAt g.parentOrder shard) :
    g.iterChunks m shard = (m.generateMortonChildren shard g.chunkOrder).map fun sub =>
      (m.mort2healpix sub, m.generateMortonChildren sub g.childOrder) := by
  rw [iterChunks]
  split_ifs with hone
  · have hdiff : g.chunkOrder - g.parentOrder = 0 := by
      by_contra hne
      exact absurd hone (Nat.one_lt_pow hne (by decide)).ne'
    have hsame : g.chunkOrder = g.parentOrder := by
      have hle := g.parent_le
      omega
    have htop' : g.parentOrder ≤ top := (g.parent_le.trans g.chunk_le).trans htop
    rw [hsame, generateMortonChildren_self hm htop' hs]
    rfl
  · rfl

/-- The slice of one of the shard's chunks. -/
theorem shardLocalRegion_eq (shard : Word) (o : Nat) :
    g.shardLocalRegion m (blockIndex m shard * g.chunksPerShard + o) shard =
      (((o * g.chunkShape : Nat) : Int), (((o + 1) * g.chunkShape : Nat) : Int)) := by
  have hlocal : ((blockIndex m shard * g.chunksPerShard + o : Nat) : Int) -
      ((blockIndex m shard * g.chunksPerShard : Nat) : Int) = o := by omega
  rw [shardLocalRegion, hlocal, Nat.succ_mul, Nat.cast_add, Nat.cast_mul]
  rfl

end Chunks
end HealpixGrid
end Zagg.Grids
