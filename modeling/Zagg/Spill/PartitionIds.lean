import Zagg.Grids.ShardTiles
import Zagg.Spill.Emission

/-!
# The partitions of a grid

A HEALPix grid whose shards own several inner chunks clips each cell to the group order, at most
`groupLevels` below the shard's. A chunk lies in one group, and as the chunks come in the order of
their nested numbers a group's chunks are visited in one run. Every other grid has the single
partition zero.
-/
namespace Zagg.Spill

open Zagg.Lib Zagg.Processing
open Zagg.Catalog (Word)
open Zagg.Grids (MortonCalls HealpixGrid RectilinearGrid asUint64)

/-- A cell word of the sink. -/
abbrev CellWord := Fin (2 ^ 64)

def cellWord (w : Nat) : CellWord := Fin.ofNat (2 ^ 64) w

theorem val_cellWord {w : Nat} (h : w < 2 ^ 64) : (cellWord w).val = w := Nat.mod_eq_of_lt h

def groupLevels : Nat := 3

/-- `_group_order`. -/
def groupOrder (g : HealpixGrid) : Nat := min g.chunkOrder (g.parentOrder + groupLevels)

/-- The sink's grid and the shard it works on; a stub knows its chunks only. -/
inductive ShardGrid
  | healpix (g : HealpixGrid) (shard : Word)
  | rectilinear (g : RectilinearGrid) (shard : Nat)
  | stub (chunks : List (List CellWord))

namespace ShardGrid

variable (m : MortonCalls)

/-- The cells of the chunks, in the order of `iter_chunks`. -/
def chunks : ShardGrid → List (List CellWord)
  | .healpix g shard => (g.iterChunks m shard).map fun e => e.2.map cellWord
  | .rectilinear g shard => (g.iterChunks shard).map fun e => e.2.map fun id => cellWord (asUint64 id)
  | .stub chunks => chunks

/-- `partition_ids`, of one cell. Only a HEALPix grid has a `chunk_order`. -/
def partitionIds : ShardGrid → CellWord → Nat
  | .healpix g _, c => if g.chunksPerShard ≤ 1 then 0 else m.clip2order (groupOrder g) c.val
  | .rectilinear _ _, _ => 0
  | .stub _, _ => 0

/-- The shard is a word of the parent order, and `mortie` reaches down to the cells. -/
def Admits (top : Nat) (IsAt : Nat → Word → Prop) : ShardGrid → Prop
  | .healpix g shard => IsAt g.parentOrder shard ∧ g.childOrder ≤ top
  | .rectilinear _ _ => True
  | .stub _ => True

end ShardGrid

/-! ## Runs of equal keys -/

/-- Keys in the order of some numbers that tell them apart stand together. -/
theorem contiguous_of_sorted {l : List Nat} (f : Nat → Nat)
    (hinj : ∀ a ∈ l, ∀ b ∈ l, f a = f b → a = b) (hsorted : (l.map f).Pairwise (· ≤ ·)) :
    Contiguous l := by
  induction l with
  | nil => trivial
  | cons a l ih =>
    cases l with
    | nil => trivial
    | cons b l =>
      rw [List.map_cons, List.pairwise_cons] at hsorted
      obtain ⟨hhead, htail⟩ := hsorted
      refine ⟨?_, ih (fun x hx y hy => hinj x (.tail _ hx) y (.tail _ hy)) htail⟩
      by_cases hab : a = b
      · exact .inl hab
      · right
        intro hmem
        rcases List.mem_cons.mp hmem with heq | hmem
        · exact hab heq
        · -- a later equal key would enclose `b`
          rw [List.map_cons, List.pairwise_cons] at htail
          have hle : f a ≤ f b := hhead _ (.head _)
          have hge : f b ≤ f a := htail.1 _ (List.mem_map_of_mem hmem)
          exact hab (hinj a (.head _) b (.tail _ (.head _)) (Nat.le_antisymm hle hge))

theorem contiguous_replicate (n a : Nat) : Contiguous (List.replicate n a) := by
  apply contiguous_of_sorted id
  · exact fun x _ y _ h => h
  · rw [List.map_id]
    exact List.pairwise_replicate.mpr (.inr le_rfl)

theorem pairwise_tile (s b : Nat) : (tile s b).Pairwise (· ≤ ·) := by
  rw [tile, List.pairwise_map]
  exact List.pairwise_le_range.imp fun h => Nat.add_le_add_left h _

/-! ## Groups of chunks -/

theorem groupOrder_le (g : HealpixGrid) : groupOrder g ≤ g.chunkOrder := Nat.min_le_left _ _

namespace ShardGrid

section Healpix
variable {m : MortonCalls} {top : Nat} {IsAt : Nat → Word → Prop} (hm : m.Nested top IsAt)
  {g : HealpixGrid} (htop : g.childOrder ≤ top)
include hm htop

/-- A cell's group is that of the chunk it lies in. -/
theorem clip_cell {sub v : Word} (hsub : IsAt g.chunkOrder sub)
    (hv : v ∈ m.generateMortonChildren sub g.childOrder) :
    m.clip2order (groupOrder g) v = m.clip2order (groupOrder g) sub := by
  have hgroup := groupOrder_le g
  have hchild := g.chunk_le
  obtain ⟨hat, htile⟩ := (HealpixGrid.mem_generateMortonChildren hm hchild htop hsub).mp hv
  obtain ⟨o, ho, hnum⟩ := mem_tile.mp htile
  have ho : o < 4 ^ (g.childOrder - g.chunkOrder) := ho
  have hpow : 4 ^ (g.childOrder - groupOrder g) =
      4 ^ (g.childOrder - g.chunkOrder) * 4 ^ (g.chunkOrder - groupOrder g) := by
    rw [← Nat.pow_add]
    congr 1
    omega
  apply hm.nested_inj (hm.clip_at (hgroup.trans hchild) hat) (hm.clip_at hgroup hsub)
  rw [hm.clip_eq (hgroup.trans hchild) hat, hm.clip_eq hgroup hsub, hpow, ← Nat.div_div_eq_div_mul,
    hnum, (div_mod_join ho _).1]

/-- The groups of a shard's chunks stand together. -/
theorem contiguous_clip {shard : Word} (hs : IsAt g.parentOrder shard) :
    Contiguous ((m.generateMortonChildren shard g.chunkOrder).map (m.clip2order (groupOrder g))) := by
  have hgroup := groupOrder_le g
  have hat := hm.children_at g.parent_le (g.chunk_le.trans htop) hs
  apply contiguous_of_sorted m.mort2healpix
  · intro a ha b hb heq
    obtain ⟨v, hv, rfl⟩ := List.mem_map.mp ha
    obtain ⟨w, hw, rfl⟩ := List.mem_map.mp hb
    exact hm.nested_inj (hm.clip_at hgroup (hat v hv)) (hm.clip_at hgroup (hat w hw)) heq
  · have hnumbers : ((m.generateMortonChildren shard g.chunkOrder).map (m.clip2order (groupOrder g))).map
        m.mort2healpix = ((m.generateMortonChildren shard g.chunkOrder).map m.mort2healpix).map
          (· / 4 ^ (g.chunkOrder - groupOrder g)) := by
      rw [List.map_map, List.map_map]
      exact List.map_congr_left fun v hv => hm.clip_eq hgroup (hat v hv)
    rw [hnumbers, hm.children_eq g.parent_le (g.chunk_le.trans htop) hs, List.pairwise_map]
    exact (pairwise_tile _ _).imp fun h => Nat.div_le_div_right h

/-- The chunks of a shard that owns several: the cells under each word of the chunk order. -/
theorem chunks_healpix {shard : Word} (hs : IsAt g.parentOrder shard) :
    (healpix g shard).chunks m = (m.generateMortonChildren shard g.chunkOrder).map fun sub =>
      (m.generateMortonChildren sub g.childOrder).map cellWord := by
  rw [chunks, HealpixGrid.iterChunks_eq hm htop hs, List.map_map]
  rfl

variable (hword : ∀ {o w}, IsAt o w → w < 2 ^ 64)
include hword

theorem partitionIds_cell (hmany : ¬ g.chunksPerShard ≤ 1) (shard : Word) {sub : Word}
    (hsub : IsAt g.chunkOrder sub) {c : CellWord} (hc : c ∈ (m.generateMortonChildren sub g.childOrder).map cellWord) :
    (healpix g shard).partitionIds m c = m.clip2order (groupOrder g) sub := by
  obtain ⟨v, hv, rfl⟩ := List.mem_map.mp hc
  have hat := hm.children_at g.chunk_le htop hsub v hv
  rw [partitionIds, if_neg hmany, val_cellWord (hword hat)]
  exact clip_cell hm htop hsub hv

/-- The partition of a chunk is its group. -/
theorem chunkKey_cells (hmany : ¬ g.chunksPerShard ≤ 1) {shard sub : Word} (hsub : IsAt g.chunkOrder sub) :
    chunkKey ((healpix g shard).partitionIds m) ((m.generateMortonChildren sub g.childOrder).map cellWord) =
      m.clip2order (groupOrder g) sub := by
  have hne : (m.generateMortonChildren sub g.childOrder).map cellWord ≠ [] := by
    intro hnil
    have hlen := congrArg List.length (hm.children_eq g.chunk_le htop hsub)
    rw [List.map_eq_nil_iff.mp hnil, List.map_nil, length_tile] at hlen
    exact absurd hlen.symm (Nat.pow_pos (by decide)).ne'
  obtain ⟨c, rest, hcons⟩ := List.exists_cons_of_ne_nil hne
  rw [hcons]
  exact partitionIds_cell hm htop hword hmany shard hsub (hcons ▸ List.mem_cons_self)

end Healpix

section Laws
variable {m : MortonCalls} {top : Nat} {IsAt : Nat → Word → Prop} (hm : m.Nested top IsAt)
  (hword : ∀ {o w}, IsAt o w → w < 2 ^ 64) (grid : ShardGrid) (hgrid : grid.Admits top IsAt)

/-- Without groups every chunk has the key zero. -/
theorem chunkKey_zero (chunk : List CellWord) : chunkKey (fun _ => 0) chunk = 0 := by
  cases chunk <;> rfl

include hm hword hgrid

/-- A chunk lies in one partition. -/
theorem partitionIds_uniform : ∀ chunk ∈ grid.chunks m, ∀ c ∈ chunk,
    grid.partitionIds m c = chunkKey (grid.partitionIds m) chunk := by
  intro chunk hchunk c hc
  cases grid with
  | healpix g shard =>
    obtain ⟨hs, htop⟩ := hgrid
    by_cases hmany : g.chunksPerShard ≤ 1
    · have hzero : (healpix g shard).partitionIds m = fun _ => 0 := funext fun _ => if_pos hmany
      rw [hzero, chunkKey_zero]
    · rw [chunks_healpix hm htop hs] at hchunk
      obtain ⟨sub, hsub, rfl⟩ := List.mem_map.mp hchunk
      have hat := hm.children_at g.parent_le (g.chunk_le.trans htop) hs sub hsub
      rw [partitionIds_cell hm htop hword hmany shard hat hc, chunkKey_cells hm htop hword hmany hat]
  | rectilinear g shard => exact (chunkKey_zero chunk).symm
  | stub chunks => exact (chunkKey_zero chunk).symm

/-- The chunks of a partition are visited in one run. -/
theorem partitionIds_contiguous :
    Contiguous ((grid.chunks m).map (chunkKey (grid.partitionIds m))) := by
  have hzero : ∀ chunks : List (List CellWord), Contiguous (chunks.map (chunkKey fun _ => 0)) := by
    intro chunks
    rw [List.map_congr_left fun chunk _ => chunkKey_zero chunk, List.map_const']
    exact contiguous_replicate _ _
  cases grid with
  | healpix g shard =>
    obtain ⟨hs, htop⟩ := hgrid
    by_cases hmany : g.chunksPerShard ≤ 1
    · have hids : (healpix g shard).partitionIds m = fun _ => 0 := funext fun _ => if_pos hmany
      rw [hids]
      exact hzero _
    · have hkeys : ((healpix g shard).chunks m).map (chunkKey ((healpix g shard).partitionIds m)) =
          (m.generateMortonChildren shard g.chunkOrder).map (m.clip2order (groupOrder g)) := by
        rw [chunks_healpix hm htop hs, List.map_map]
        exact List.map_congr_left fun sub hsub => chunkKey_cells hm htop hword hmany
          (hm.children_at g.parent_le (g.chunk_le.trans htop) hs sub hsub)
      rw [hkeys]
      exact contiguous_clip hm htop hs
  | rectilinear g shard => exact hzero _
  | stub chunks => exact hzero chunks

/-- What the emission relies on, of every grid. -/
def toGrid : Grid CellWord where
  chunks := grid.chunks m
  partOf := grid.partitionIds m
  uniform := partitionIds_uniform hm hword grid hgrid
  contiguous := partitionIds_contiguous hm hword grid hgrid

end Laws
end ShardGrid
end Zagg.Spill
