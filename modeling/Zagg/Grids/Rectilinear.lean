import Zagg.Lib.RowMajor

/-!
# Rectilinear grids

The cells of a rectilinear grid are numbered row by row over an extent that is padded to whole
shard tiles. A shard tile falls into the inner chunks of the store. Cell ids are `int64`, so
they stand for cells as long as the extent has fewer than `2 ^ 63` of them.
-/
namespace Zagg.Grids

open Zagg.Lib
open BoxIndex (Inside size ravel unravel)

/-- The `int64` of a value; sums and products wrap. -/
def asInt64 (x : Int) : Int := Int.bmod x (2 ^ 64)

/-- `astype(np.uint64)` of an `int64`. -/
def asUint64 (x : Int) : Nat := (x % 2 ^ 64).toNat

def oobSentinel : Int := -1

inductive GridError where
  | zeroDivision
  | innerDoesNotDivide
  | shardedWithoutInner
  | resolutionTooLarge

/-- The extent in shard tiles, the tile and its inner chunk. Extents beyond `int64`, on which
numpy raises, are not told apart. -/
structure RectilinearGrid where
  chunkH : Nat
  chunkW : Nat
  innerH : Nat
  innerW : Nat
  nRowBlocks : Nat
  nColBlocks : Nat
  sharded : Bool
  chunkH_pos : 0 < chunkH
  chunkW_pos : 0 < chunkW
  innerH_dvd : innerH ∣ chunkH
  innerW_dvd : innerW ∣ chunkW

theorem asInt64_of_lt {n : Nat} (h : n < 2 ^ 63) : asInt64 n = n := by
  apply Int.bmod_eq_of_le
  · omega
  · omega

theorem asUint64_of_lt {n : Nat} (h : n < 2 ^ 63) : asUint64 n = n := by
  rw [asUint64]
  omega

namespace RectilinearGrid

/-- `-(-a // b)`. -/
def ceilDiv (a b : Nat) : Nat := (a + b - 1) / b

/-- `__init__`, from the extent that covers the bounds. -/
def init (rawH rawW : Nat) (chunkShape : Nat × Nat) (chunkInner : Option (Nat × Nat)) (sharded : Bool) :
    Except GridError RectilinearGrid :=
  let inner := chunkInner.getD chunkShape
  if inner.1 = 0 then .error .zeroDivision
  else if hh : inner.1 ∣ chunkShape.1 then
    if inner.2 = 0 then .error .zeroDivision
    else if hw : inner.2 ∣ chunkShape.2 then
      if sharded ∧ chunkShape.1 / inner.1 * (chunkShape.2 / inner.2) ≤ 1 then .error .shardedWithoutInner
      else if rawW = 0 ∨ rawH = 0 then .error .resolutionTooLarge
      else if hpos : 0 < chunkShape.1 ∧ 0 < chunkShape.2 then
        .ok ⟨chunkShape.1, chunkShape.2, inner.1, inner.2, ceilDiv rawH chunkShape.1,
          ceilDiv rawW chunkShape.2, sharded, hpos.1, hpos.2, hh, hw⟩
      else .error .zeroDivision
    else .error .innerDoesNotDivide
  else .error .innerDoesNotDivide

variable (g : RectilinearGrid)

def height : Nat := g.nRowBlocks * g.chunkH

def width : Nat := g.nColBlocks * g.chunkW

def pack (rb cb : Nat) : Nat := rb * g.nColBlocks + cb

def unpack (packed : Nat) : Nat × Nat := (packed / g.nColBlocks, packed % g.nColBlocks)

/-- The id of the cell in a row and a column. -/
def cellId (p : Nat × Nat) : Int := asInt64 (p.1 * g.width + p.2)

/-- `assign`, of a point in this row and this column. -/
def assign (row col : Int) : Int :=
  if 0 ≤ row ∧ row < g.height ∧ 0 ≤ col ∧ col < g.width then asInt64 (row * g.width + col) else oobSentinel

/-- The ids of a rectangle of cells, row by row. -/
def cellIds (h w r0 c0 : Nat) : List Int :=
  (List.range h).flatMap fun i => (List.range w).map fun j =>
    asInt64 (((i + r0 : Nat) : Int) * g.width + ((j + c0 : Nat) : Int))

def children (shard : Nat) : List Int :=
  let b := g.unpack shard
  g.cellIds g.chunkH g.chunkW (b.1 * g.chunkH) (b.2 * g.chunkW)

def blockIndex (shard : Nat) : Nat × Nat := g.unpack shard

def chunkShape : Nat × Nat := (g.innerH, g.innerW)

def shardSlabShape : Nat × Nat := (g.chunkH, g.chunkW)

def iterChunks (shard : Nat) : List ((Nat × Nat) × List Int) :=
  if g.innerH = g.chunkH ∧ g.innerW = g.chunkW then [(g.blockIndex shard, g.children shard)]
  else
    let b := g.unpack shard
    (List.range (g.chunkH / g.innerH)).flatMap fun ir =>
      (List.range (g.chunkW / g.innerW)).map fun ic =>
        let r0 := b.1 * g.chunkH + ir * g.innerH
        let c0 := b.2 * g.chunkW + ic * g.innerW
        ((r0 / g.innerH, c0 / g.innerW), g.cellIds g.innerH g.innerW r0 c0)

/-- `shard_local_region`: the bounds of the two slices. -/
def shardLocalRegion (block : Nat × Nat) (shard : Nat) : (Int × Int) × (Int × Int) :=
  let b := g.unpack shard
  let lir : Int := (block.1 : Int) - ((b.1 * (g.chunkH / g.innerH) : Nat) : Int)
  let lic : Int := (block.2 : Int) - ((b.2 * (g.chunkW / g.innerW) : Nat) : Int)
  ((lir * g.innerH, (lir + 1) * g.innerH), (lic * g.innerW, (lic + 1) * g.innerW))

/-- `shards_of`, of one leaf. -/
def shardsOf (leaf : Int) : Int :=
  if leaf = oobSentinel then oobSentinel
  else
    let v := asUint64 leaf
    let rb := v / g.width / g.chunkH
    let cb := v % g.width / g.chunkW
    asInt64 ((rb * g.nColBlocks + cb : Nat) : Int)

section Tiles
variable {g : RectilinearGrid}

theorem innerH_pos (g : RectilinearGrid) : 0 < g.innerH := Nat.pos_of_dvd_of_pos g.innerH_dvd g.chunkH_pos

theorem innerW_pos (g : RectilinearGrid) : 0 < g.innerW := Nat.pos_of_dvd_of_pos g.innerW_dvd g.chunkW_pos

/-- The inner chunks of a tile, along either axis. -/
def innerCounts (g : RectilinearGrid) : Nat × Nat := (g.chunkH / g.innerH, g.chunkW / g.innerW)

def shardGrid (g : RectilinearGrid) : Nat × Nat := (g.nRowBlocks, g.nColBlocks)

theorem innerCounts_mul (g : RectilinearGrid) : g.innerCounts * g.chunkShape = g.shardSlabShape :=
  Prod.ext (Nat.div_mul_cancel g.innerH_dvd) (Nat.div_mul_cancel g.innerW_dvd)

theorem shardGrid_mul (g : RectilinearGrid) : g.shardGrid * g.shardSlabShape = (g.height, g.width) := rfl

/-- A rectangle of whole blocks holds the cells of one of them. -/
theorem cellIds_eq (h w : Nat) (b : Nat × Nat) :
    g.cellIds h w (b.1 * h) (b.2 * w) = (tile (h, w) b).map g.cellId := by
  have hpair : tile (h, w) b = tile (h, w) (b.1, b.2) := rfl
  have hcell : ∀ i j, asInt64 (((i + b.1 * h : Nat) : Int) * g.width + ((j + b.2 * w : Nat) : Int)) =
      g.cellId (b.1 * h + i, b.2 * w + j) := by
    intro i j
    rw [cellId, Nat.add_comm i, Nat.add_comm j]
  rw [hpair, tile_prod, cellIds, List.map_flatMap]
  simp only [hcell, tile, List.flatMap_map, List.map_map, Function.comp_def]
  rfl

theorem children_eq (shard : Nat) : g.children shard = (tile g.shardSlabShape (g.unpack shard)).map g.cellId :=
  cellIds_eq _ _ _

theorem inner_start {chunk inner : Nat} (h : inner ∣ chunk) (b i : Nat) :
    b * chunk + i * inner = (b * (chunk / inner) + i) * inner := by
  rw [Nat.add_mul, Nat.mul_assoc, Nat.div_mul_cancel h]

/-- The chunks of a shard are the blocks of its tile. -/
theorem iterChunks_eq (shard : Nat) : g.iterChunks shard =
    (tile g.innerCounts (g.unpack shard)).map fun b => (b, (tile g.chunkShape b).map g.cellId) := by
  unfold iterChunks
  split_ifs with hone
  · have hshape : g.chunkShape = g.shardSlabShape := Prod.ext hone.1 hone.2
    have hcounts : g.innerCounts = (1, 1) := by
      rw [innerCounts, hone.1, hone.2, Nat.div_self g.chunkH_pos, Nat.div_self g.chunkW_pos]
    have htile : tile (1, 1) (g.unpack shard) = [g.unpack shard] := by
      show [g.unpack shard * 1 + 0] = _
      rw [mul_one, add_zero]
    rw [hcounts, htile, children_eq, hshape]
    rfl
  · have hpair : tile g.innerCounts (g.unpack shard) =
        tile (g.chunkH / g.innerH, g.chunkW / g.innerW) ((g.unpack shard).1, (g.unpack shard).2) := rfl
    rw [hpair, tile_prod, List.map_flatMap, tile, tile, List.flatMap_map]
    apply List.flatMap_congr
    intro ir _
    rw [List.map_map, List.map_map]
    apply List.map_congr_left
    intro ic _
    have hcells := cellIds_eq (g := g) g.innerH g.innerW
      ((g.unpack shard).1 * (g.chunkH / g.innerH) + ir, (g.unpack shard).2 * (g.chunkW / g.innerW) + ic)
    dsimp only at hcells
    rw [inner_start g.innerH_dvd, inner_start g.innerW_dvd]
    dsimp only
    rw [Nat.mul_div_cancel _ g.innerH_pos, Nat.mul_div_cancel _ g.innerW_pos, hcells]
    rfl

/-- Two slices with these bounds. -/
def IsSlices (r : (Int × Int) × (Int × Int)) (start stop : Nat × Nat) : Prop :=
  r = (((start.1 : Int), (stop.1 : Int)), ((start.2 : Int), (stop.2 : Int)))

/-- The slices of one of the shard's chunks. -/
theorem shardLocalRegion_eq {shard : Nat} {b o : Nat × Nat} (hb : b = g.unpack shard * g.innerCounts + o) :
    IsSlices (g.shardLocalRegion b shard) (o * g.chunkShape) ((o + 1) * g.chunkShape) := by
  subst hb
  have haxis : ∀ u m o s : Nat, (((u * m + o : Nat) : Int) - ((u * m : Nat) : Int)) * s = ((o * s : Nat) : Int) ∧
      (((u * m + o : Nat) : Int) - ((u * m : Nat) : Int) + 1) * s = (((o + 1) * s : Nat) : Int) := by
    intro u m o s
    have hlocal : ((u * m + o : Nat) : Int) - ((u * m : Nat) : Int) = o := by omega
    rw [hlocal, Nat.cast_mul, Nat.cast_mul, Nat.cast_succ]
    exact ⟨rfl, rfl⟩
  obtain ⟨h1, h2⟩ := haxis (g.unpack shard).1 (g.chunkH / g.innerH) o.1 g.innerH
  obtain ⟨h3, h4⟩ := haxis (g.unpack shard).2 (g.chunkW / g.innerW) o.2 g.innerW
  exact Prod.ext (Prod.ext h1 h2) (Prod.ext h3 h4)

theorem unpack_inside {shard : Nat} (h : shard < g.nRowBlocks * g.nColBlocks) :
    Inside (g.unpack shard) g.shardGrid :=
  ⟨Nat.div_lt_of_lt_mul (Nat.mul_comm .. ▸ h), Nat.mod_lt _ (pos_of_lt_mul h)⟩

theorem unpack_pack {b : Nat × Nat} (h : Inside b g.shardGrid) : g.unpack (g.pack b.1 b.2) = b := by
  obtain ⟨hdiv, hmod⟩ := div_mod_join h.2 b.1
  exact Prod.ext hdiv hmod

theorem pack_unpack (shard : Nat) : g.pack (g.unpack shard).1 (g.unpack shard).2 = shard :=
  Nat.div_add_mod' shard g.nColBlocks

theorem pack_lt {b : Nat × Nat} (h : Inside b g.shardGrid) : g.pack b.1 b.2 < g.nRowBlocks * g.nColBlocks :=
  join_lt h.1 h.2

/-- The cells of a shard lie in the extent. -/
theorem inside_of_mem_tile {shard : Nat} (h : shard < g.nRowBlocks * g.nColBlocks) {p : Nat × Nat}
    (hp : p ∈ tile g.shardSlabShape (g.unpack shard)) : Inside p (g.height, g.width) := by
  obtain ⟨o, ho, rfl⟩ := mem_tile.mp hp
  exact g.shardGrid_mul ▸ BoxIndex.inside_join (unpack_inside h) ho

/-- Every position of the extent lies in the tile of its shard. -/
theorem exists_shard {p : Nat × Nat} (hp : Inside p (g.height, g.width)) :
    ∃ shard, shard < g.nRowBlocks * g.nColBlocks ∧ p ∈ tile g.shardSlabShape (g.unpack shard) := by
  rw [← g.shardGrid_mul] at hp
  obtain ⟨b, o, hb, ho, rfl⟩ := BoxIndex.exists_join hp
  refine ⟨g.pack b.1 b.2, pack_lt hb, mem_tile.mpr ⟨o, ho, ?_⟩⟩
  rw [unpack_pack hb]

end Tiles

section Cells
variable {g : RectilinearGrid} (hcells : g.height * g.width < 2 ^ 63)
include hcells

/-- The id of a cell is its number, row by row. -/
theorem cellId_eq {p : Nat × Nat} (hp : Inside p (g.height, g.width)) :
    g.cellId p = ((ravel (g.height, g.width) p : Nat) : Int) ∧ ravel (g.height, g.width) p < 2 ^ 63 := by
  have hlt : ravel (g.height, g.width) p < 2 ^ 63 := (BoxIndex.ravel_lt hp).trans hcells
  have hnum : (p.1 : Int) * g.width + p.2 = ((ravel (g.height, g.width) p : Nat) : Int) := by
    show _ = ((p.1 * g.width + p.2 : Nat) : Int)
    rw [Nat.cast_add, Nat.cast_mul]
  refine ⟨?_, hlt⟩
  rw [cellId, hnum, asInt64_of_lt hlt]

theorem shardsOf_cellId {shard : Nat} (h : shard < g.nRowBlocks * g.nColBlocks) {p : Nat × Nat}
    (hp : p ∈ tile g.shardSlabShape (g.unpack shard)) : g.shardsOf (g.cellId p) = shard := by
  have hin := inside_of_mem_tile h hp
  obtain ⟨hid, hlt⟩ := cellId_eq hcells hin
  have hvalid : ((ravel (g.height, g.width) p : Nat) : Int) ≠ oobSentinel := by
    rw [oobSentinel]
    omega
  obtain ⟨hrow, hcol⟩ := div_mod_join hin.2 p.1
  obtain ⟨o, ho, rfl⟩ := mem_tile.mp hp
  have hrb : ((g.unpack shard).1 * g.chunkH + o.1) / g.chunkH = (g.unpack shard).1 := (div_mod_join ho.1 _).1
  have hcb : ((g.unpack shard).2 * g.chunkW + o.2) / g.chunkW = (g.unpack shard).2 := (div_mod_join ho.2 _).1
  have hshard : shard < 2 ^ 63 := by
    apply lt_of_lt_of_le h (le_trans _ hcells.le)
    exact Nat.mul_le_mul (Nat.le_mul_of_pos_right _ g.chunkH_pos) (Nat.le_mul_of_pos_right _ g.chunkW_pos)
  rw [hid, shardsOf, if_neg hvalid, asUint64_of_lt hlt]
  show asInt64 (((_ / g.width / g.chunkH) * g.nColBlocks + _ % g.width / g.chunkW : Nat) : Int) = _
  rw [show ravel (g.height, g.width) (g.unpack shard * g.shardSlabShape + o) =
    (g.unpack shard * g.shardSlabShape + o).1 * g.width + (g.unpack shard * g.shardSlabShape + o).2 from rfl,
    hrow, hcol]
  show asInt64 ((((g.unpack shard).1 * g.chunkH + o.1) / g.chunkH * g.nColBlocks +
    ((g.unpack shard).2 * g.chunkW + o.2) / g.chunkW : Nat) : Int) = _
  rw [hrb, hcb]
  have hpack := g.pack_unpack shard
  rw [pack] at hpack
  rw [hpack, asInt64_of_lt hshard]

end Cells
end RectilinearGrid
end Zagg.Grids
