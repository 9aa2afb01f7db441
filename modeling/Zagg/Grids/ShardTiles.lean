import Zagg.Grids.Healpix
import Zagg.Grids.Rectilinear

/-!
# Shards tile the domain

A grid's shards are blocks of its array, and a shard's chunks are blocks of the shard. From
this alone every cell has one shard, the chunks part the shard, and a chunk's slice of the
shard's slab holds the cells that its own block of the array holds. Both grids are laid out so.
-/
namespace Zagg.Grids

open Zagg.Lib
open Zagg.Catalog (Word)
open BoxIndex (Inside size ravel unravel)

/-- What the code of a grid computes, for positions `P`, cells `C` and shard keys `S`. -/
structure GridCode (P C S : Type) where
  IsShard : S → Prop
  IsCell : C → Prop
  position : C → P
  arrayShape : P
  chunkShape : P
  slabShape : P
  children : S → List C
  iterChunks : S → List (P × List C)
  blockIndex : S → P
  /-- `shards_of` gives the cell this shard. -/
  OfShard : C → S → Prop
  /-- `shard_local_region` gives the block of the shard the slices of this start and stop. -/
  IsRegion : P → S → P → P → Prop

section Layout
variable {P C S : Type} [BoxIndex P] (code : GridCode P C S)

/-- The blocks of the grid: `counts` chunks to a shard. -/
structure GridCode.Blocks (counts : P) : Prop where
  slab_eq : counts * code.chunkShape = code.slabShape
  position_inj : ∀ c c', code.IsCell c → code.IsCell c' → code.position c = code.position c' → c = c'
  inside : ∀ c, code.IsCell c → Inside (code.position c) code.arrayShape
  block_inj : ∀ s s', code.IsShard s → code.IsShard s' → code.blockIndex s = code.blockIndex s' → s = s'
  shard_of_cell : ∀ c, code.IsCell c → ∃ s, code.IsShard s ∧
    code.position c ∈ tile code.slabShape (code.blockIndex s)
  children_cell : ∀ s, code.IsShard s → ∀ c ∈ code.children s, code.IsCell c ∧ code.OfShard c s
  children_eq : ∀ s, code.IsShard s →
    (code.children s).map code.position = tile code.slabShape (code.blockIndex s)
  chunks_eq : ∀ s, code.IsShard s → (code.iterChunks s).map Prod.fst = tile counts (code.blockIndex s)
  chunk_cell : ∀ s, code.IsShard s → ∀ e ∈ code.iterChunks s, ∀ c ∈ e.2, code.IsCell c
  chunk_eq : ∀ s, code.IsShard s → ∀ e ∈ code.iterChunks s,
    e.2.map code.position = tile code.chunkShape e.1
  region : ∀ s, code.IsShard s → ∀ o start,
    code.IsRegion (code.blockIndex s * counts + o) s start (start + code.chunkShape) ↔
      start = o * code.chunkShape

/-- A place of the slab lies in the slices of a chunk. -/
def GridCode.InRegion (block : P) (s : S) (i : P) : Prop :=
  ∃ start o, code.IsRegion block s start (start + code.chunkShape) ∧ Inside o code.chunkShape ∧ i = start + o

/-- The shards of a grid tile its domain, and a shard's chunks tile the shard and its slab. -/
structure GridCode.TilesDomain : Prop where
  one_shard : ∀ c, code.IsCell c → ∃ s, code.IsShard s ∧ c ∈ code.children s ∧
    ∀ s', code.IsShard s' → c ∈ code.children s' → s' = s
  own_shard : ∀ s, code.IsShard s → ∀ c ∈ code.children s, code.IsCell c ∧ code.OfShard c s
  disjoint : ∀ s, code.IsShard s → ((code.iterChunks s).map Prod.snd).Pairwise List.Disjoint
  union : ∀ s, code.IsShard s → ((code.iterChunks s).flatMap Prod.snd).Perm (code.children s)
  nodup : ∀ s, code.IsShard s → (code.children s).Nodup
  same_place : ∀ s, code.IsShard s → ∀ e ∈ code.iterChunks s, e.2.length = size code.chunkShape ∧
    ∃ start, code.IsRegion e.1 s start (start + code.chunkShape) ∧
      ∀ (k : Nat) c, e.2[k]? = some c → Inside (code.position c) code.arrayShape ∧
        code.position c = e.1 * code.chunkShape + unravel code.chunkShape k ∧
        code.position c = code.blockIndex s * code.slabShape + (start + unravel code.chunkShape k)
  slab : ∀ s, code.IsShard s → ∀ i,
    Inside i code.slabShape ↔ ∃ e ∈ code.iterChunks s, code.InRegion e.1 s i
  slab_disjoint : ∀ s, code.IsShard s → (code.iterChunks s).Pairwise fun e e' =>
    ∀ i, code.InRegion e.1 s i → ¬code.InRegion e'.1 s i

variable {code} {counts : P}

namespace GridCode.Blocks
variable (h : code.Blocks counts) {s : S}
include h

theorem mem_children (hs : code.IsShard s) {c : C} (hc : code.IsCell c) :
    c ∈ code.children s ↔ code.position c ∈ tile code.slabShape (code.blockIndex s) := by
  rw [← h.children_eq s hs, List.mem_map]
  constructor
  · exact fun hmem => ⟨c, hmem, rfl⟩
  · rintro ⟨c', hmem, heq⟩
    exact h.position_inj c' c (h.children_cell s hs c' hmem).1 hc heq ▸ hmem

theorem nodup_children (hs : code.IsShard s) : (code.children s).Nodup :=
  List.Nodup.of_map code.position (h.children_eq s hs ▸ nodup_tile)

theorem nodup_blocks (hs : code.IsShard s) : ((code.iterChunks s).map Prod.fst).Nodup :=
  h.chunks_eq s hs ▸ nodup_tile

/-- A chunk's block, counted from the shard's first. -/
theorem exists_local (hs : code.IsShard s) {e : P × List C} (he : e ∈ code.iterChunks s) :
    ∃ o, Inside o counts ∧ e.1 = code.blockIndex s * counts + o := by
  have hmem : e.1 ∈ (code.iterChunks s).map Prod.fst := List.mem_map_of_mem he
  rw [h.chunks_eq s hs] at hmem
  exact mem_tile.mp hmem

theorem mem_chunk (hs : code.IsShard s) {e : P × List C} (he : e ∈ code.iterChunks s) {c : C} (hc : c ∈ e.2) :
    code.position c ∈ tile code.chunkShape e.1 :=
  h.chunk_eq s hs e he ▸ List.mem_map_of_mem hc

theorem disjoint_chunks (hs : code.IsShard s) :
    ((code.iterChunks s).map Prod.snd).Pairwise List.Disjoint := by
  have hblocks := List.pairwise_map.mp (h.nodup_blocks hs)
  rw [List.pairwise_map]
  apply hblocks.imp_of_mem
  intro e e' he he' hne c hc hc'
  exact hne (eq_of_mem_tile (h.mem_chunk hs he hc) (h.mem_chunk hs he' hc'))

theorem perm_chunks (hs : code.IsShard s) :
    ((code.iterChunks s).flatMap Prod.snd).Perm (code.children s) := by
  have hmap : ((code.iterChunks s).flatMap Prod.snd).map code.position =
      (tile counts (code.blockIndex s)).flatMap (tile code.chunkShape) := by
    rw [List.map_flatMap, ← h.chunks_eq s hs, List.flatMap_map]
    exact List.flatMap_congr fun e he => h.chunk_eq s hs e he
  have hperm : ((code.iterChunks s).flatMap Prod.snd).map code.position |>.Perm
      ((code.children s).map code.position) := by
    rw [hmap, h.children_eq s hs, ← h.slab_eq]
    exact perm_tile_mul
  apply (List.perm_ext_iff_of_nodup _ (h.nodup_children hs)).mpr
  · intro c
    constructor
    · intro hc
      obtain ⟨e, he, hce⟩ := List.mem_flatMap.mp hc
      apply (h.mem_children hs (h.chunk_cell s hs e he c hce)).mpr
      rw [← h.children_eq s hs]
      exact hperm.mem_iff.mp (List.mem_map_of_mem hc)
    · intro hc
      obtain ⟨c', hc', heq⟩ := List.mem_map.mp (hperm.mem_iff.mpr (List.mem_map_of_mem hc))
      obtain ⟨e, he, hce⟩ := List.mem_flatMap.mp hc'
      exact h.position_inj c' c (h.chunk_cell s hs e he c' hce) (h.children_cell s hs c hc).1 heq ▸ hc'
  · exact List.Nodup.of_map code.position (hperm.nodup_iff.mpr (h.children_eq s hs ▸ nodup_tile))

/-- The slices of a chunk are its block of the slab. -/
theorem inRegion_iff (hs : code.IsShard s) {b o : P} (hb : b = code.blockIndex s * counts + o) {i : P} :
    code.InRegion b s i ↔ i ∈ tile code.chunkShape o := by
  subst hb
  rw [mem_tile]
  constructor
  · rintro ⟨start, o', hregion, ho', rfl⟩
    exact ⟨o', ho', by rw [(h.region s hs o start).mp hregion]⟩
  · rintro ⟨o', ho', rfl⟩
    exact ⟨_, o', (h.region s hs o _).mpr rfl, ho', rfl⟩

theorem same_place (hs : code.IsShard s) {e : P × List C} (he : e ∈ code.iterChunks s) :
    e.2.length = size code.chunkShape ∧ ∃ start, code.IsRegion e.1 s start (start + code.chunkShape) ∧
      ∀ (k : Nat) c, e.2[k]? = some c → Inside (code.position c) code.arrayShape ∧
        code.position c = e.1 * code.chunkShape + unravel code.chunkShape k ∧
        code.position c = code.blockIndex s * code.slabShape + (start + unravel code.chunkShape k) := by
  obtain ⟨o, -, hblock⟩ := h.exists_local hs he
  have hlen := congrArg List.length (h.chunk_eq s hs e he)
  rw [List.length_map, length_tile] at hlen
  refine ⟨hlen, o * code.chunkShape, hblock ▸ (h.region s hs o _).mpr rfl, fun k c hk => ?_⟩
  have hlt : k < size code.chunkShape := hlen ▸ (List.getElem?_eq_some_iff.mp hk).1
  have hat : (e.2.map code.position)[k]? = some (code.position c) := by rw [List.getElem?_map, hk]; rfl
  rw [h.chunk_eq s hs e he, getElem?_tile hlt] at hat
  have hpos := (Option.some.inj hat).symm
  refine ⟨h.inside c (h.chunk_cell s hs e he c (List.mem_of_getElem? hk)), hpos, ?_⟩
  rw [hpos, hblock, ← h.slab_eq]
  ring

theorem slab_iff (hs : code.IsShard s) (i : P) :
    Inside i code.slabShape ↔ ∃ e ∈ code.iterChunks s, code.InRegion e.1 s i := by
  rw [← h.slab_eq]
  constructor
  · intro hi
    obtain ⟨b, o, hb, ho, rfl⟩ := BoxIndex.exists_join hi
    have hmem : code.blockIndex s * counts + b ∈ (code.iterChunks s).map Prod.fst := by
      rw [h.chunks_eq s hs]
      exact mem_tile.mpr ⟨b, hb, rfl⟩
    obtain ⟨e, he, heq⟩ := List.mem_map.mp hmem
    exact ⟨e, he, (h.inRegion_iff hs heq).mpr (mem_tile.mpr ⟨o, ho, rfl⟩)⟩
  · rintro ⟨e, he, hregion⟩
    obtain ⟨b, hb, hblock⟩ := h.exists_local hs he
    obtain ⟨o, ho, rfl⟩ := mem_tile.mp ((h.inRegion_iff hs hblock).mp hregion)
    exact BoxIndex.inside_join hb ho

theorem slab_disjoint (hs : code.IsShard s) : (code.iterChunks s).Pairwise fun e e' =>
    ∀ i, code.InRegion e.1 s i → ¬code.InRegion e'.1 s i := by
  apply (List.pairwise_map.mp (h.nodup_blocks hs)).imp_of_mem
  intro e e' he he' hne i hi hi'
  obtain ⟨b, -, hb⟩ := h.exists_local hs he
  obtain ⟨b', -, hb'⟩ := h.exists_local hs he'
  have hsame := eq_of_mem_tile ((h.inRegion_iff hs hb).mp hi) ((h.inRegion_iff hs hb').mp hi')
  exact hne (by rw [hb, hb', hsame])

/-- A grid laid out in blocks of blocks tiles its domain. -/
theorem tilesDomain : code.TilesDomain where
  one_shard := by
    intro c hc
    obtain ⟨s, hs, hmem⟩ := h.shard_of_cell c hc
    refine ⟨s, hs, (h.mem_children hs hc).mpr hmem, fun s' hs' hmem' => ?_⟩
    exact h.block_inj s' s hs' hs (eq_of_mem_tile ((h.mem_children hs' hc).mp hmem') hmem)
  own_shard := h.children_cell
  disjoint _ hs := h.disjoint_chunks hs
  union _ hs := h.perm_chunks hs
  nodup _ hs := h.nodup_children hs
  same_place _ hs _ he := h.same_place hs he
  slab _ hs := h.slab_iff hs
  slab_disjoint _ hs := h.slab_disjoint hs

end GridCode.Blocks
end Layout

namespace RectilinearGrid
variable (g : RectilinearGrid)

/-- The functions of a rectilinear grid; a cell's position is where its id's row and column are. -/
def code : GridCode (Nat × Nat) Int Nat where
  IsShard s := s < g.nRowBlocks * g.nColBlocks
  IsCell c := ∃ p, Inside p (g.height, g.width) ∧ c = g.assign p.1 p.2
  position c := (asUint64 c / g.width, asUint64 c % g.width)
  arrayShape := (g.height, g.width)
  chunkShape := g.chunkShape
  slabShape := g.shardSlabShape
  children := g.children
  iterChunks := g.iterChunks
  blockIndex := g.blockIndex
  OfShard c s := g.shardsOf c = s
  IsRegion b s start stop := IsSlices (g.shardLocalRegion b s) start stop

variable {g} (hcells : g.height * g.width < 2 ^ 63)

theorem assign_eq {p : Nat × Nat} (hp : Inside p (g.height, g.width)) : g.assign p.1 p.2 = g.cellId p := by
  have hrow : (p.1 : Int) < g.height := Int.ofNat_lt.mpr hp.1
  have hcol : (p.2 : Int) < g.width := Int.ofNat_lt.mpr hp.2
  rw [assign, if_pos ⟨Int.natCast_nonneg _, hrow, Int.natCast_nonneg _, hcol⟩, cellId]

include hcells

theorem position_cellId {p : Nat × Nat} (hp : Inside p (g.height, g.width)) :
    g.code.position (g.cellId p) = p := by
  obtain ⟨hid, hlt⟩ := cellId_eq hcells hp
  show (asUint64 (g.cellId p) / g.width, asUint64 (g.cellId p) % g.width) = p
  rw [hid, asUint64_of_lt hlt]
  exact BoxIndex.unravel_ravel hp

theorem map_position {l : List (Nat × Nat)} (h : ∀ p ∈ l, Inside p (g.height, g.width)) :
    (l.map g.cellId).map g.code.position = l := by
  rw [List.map_map]
  exact (List.map_congr_left fun p hp => position_cellId hcells (h p hp)).trans (List.map_id l)

omit hcells in
theorem exists_chunk {s : Nat} (hs : s < g.nRowBlocks * g.nColBlocks) {e : (Nat × Nat) × List Int}
    (he : e ∈ g.iterChunks s) : e.2 = (tile g.chunkShape e.1).map g.cellId ∧
      ∀ p ∈ tile g.chunkShape e.1, Inside p (g.height, g.width) := by
  rw [iterChunks_eq] at he
  obtain ⟨b, hb, rfl⟩ := List.mem_map.mp he
  refine ⟨rfl, fun p hp => inside_of_mem_tile hs ?_⟩
  rw [← g.innerCounts_mul]
  exact mem_tile_mul.mpr ⟨b, hb, hp⟩

/-- The blocks of a rectilinear grid. -/
theorem blocks : g.code.Blocks g.innerCounts where
  slab_eq := g.innerCounts_mul
  position_inj := by
    rintro c c' ⟨p, hp, rfl⟩ ⟨p', hp', rfl⟩ heq
    rw [assign_eq hp, assign_eq hp'] at heq ⊢
    rw [position_cellId hcells hp, position_cellId hcells hp'] at heq
    rw [heq]
  inside := by
    rintro c ⟨p, hp, rfl⟩
    rw [assign_eq hp, position_cellId hcells hp]
    exact hp
  block_inj := by
    intro s s' _ _ heq
    rw [← g.pack_unpack s, ← g.pack_unpack s']
    exact congrArg (fun b : Nat × Nat => g.pack b.1 b.2) heq
  shard_of_cell := by
    rintro c ⟨p, hp, rfl⟩
    rw [assign_eq hp, position_cellId hcells hp]
    exact exists_shard hp
  children_cell := by
    intro s hs c hc
    have hc : c ∈ g.children s := hc
    rw [children_eq] at hc
    obtain ⟨p, hp, rfl⟩ := List.mem_map.mp hc
    have hin := inside_of_mem_tile hs hp
    exact ⟨⟨p, hin, (assign_eq hin).symm⟩, shardsOf_cellId hcells hs hp⟩
  children_eq := by
    intro s hs
    show (g.children s).map g.code.position = _
    rw [children_eq, map_position hcells fun p hp => inside_of_mem_tile hs hp]
    rfl
  chunks_eq := by
    intro s _
    show (g.iterChunks s).map Prod.fst = _
    rw [iterChunks_eq, List.map_map]
    exact List.map_id _
  chunk_cell := by
    intro s hs e he c hc
    obtain ⟨heq, hin⟩ := exists_chunk hs he
    rw [heq] at hc
    obtain ⟨p, hp, rfl⟩ := List.mem_map.mp hc
    exact ⟨p, hin p hp, (assign_eq (hin p hp)).symm⟩
  chunk_eq := by
    intro s hs e he
    obtain ⟨heq, hin⟩ := exists_chunk hs he
    rw [heq]
    exact map_position hcells hin
  region := by
    intro s _ o start
    have hslices := shardLocalRegion_eq (g := g) (rfl : g.unpack s * g.innerCounts + o = _)
    have hstop : (o + 1) * g.chunkShape = o * g.chunkShape + g.chunkShape := by ring
    rw [hstop] at hslices
    constructor
    · intro hstart
      have heq := hstart.symm.trans hslices
      have h1 := congrArg (fun r : (Int × Int) × (Int × Int) => r.1.1) heq
      have h2 := congrArg (fun r : (Int × Int) × (Int × Int) => r.2.1) heq
      exact Prod.ext (Int.ofNat.inj h1) (Int.ofNat.inj h2)
    · rintro rfl
      exact hslices

end RectilinearGrid

namespace HealpixGrid
variable (m : MortonCalls) (IsAt : Nat → Word → Prop) (g : HealpixGrid)

/-- The functions of a HEALPix grid; a cell's position is its nested number. -/
def code : GridCode Nat Word Word where
  IsShard := IsAt g.parentOrder
  IsCell := IsAt g.childOrder
  position := m.mort2healpix
  arrayShape := healpixBaseCells * 4 ^ g.childOrder
  chunkShape := g.chunkShape
  slabShape := g.shardSlabShape
  children := g.children m
  iterChunks := g.iterChunks m
  blockIndex := blockIndex m
  OfShard c s := g.shardsOf m c = s
  IsRegion b s start stop := g.shardLocalRegion m b s = ((start : Int), (stop : Int))

variable {m IsAt g} {top : Nat} (hm : m.Nested top IsAt) (htop : g.childOrder ≤ top)
include hm

/-- A cell lies under its clipped word. -/
theorem position_mem {c : Word} (hc : IsAt g.childOrder c) : IsAt g.parentOrder (g.shardsOf m c) ∧
    m.mort2healpix c ∈ tile g.shardSlabShape (m.mort2healpix (g.shardsOf m c)) := by
  have horder := g.parent_le.trans g.chunk_le
  refine ⟨hm.clip_at horder hc, mem_tile.mpr ⟨m.mort2healpix c % g.shardSlabShape, ?_, ?_⟩⟩
  · exact Nat.mod_lt _ (Nat.pow_pos (by decide))
  · rw [shardsOf, hm.clip_eq horder hc]
    exact (Nat.div_add_mod' _ _).symm

include htop

/-- The blocks of a HEALPix grid. -/
theorem blocks : (g.code m IsAt).Blocks g.chunksPerShard where
  slab_eq := g.chunksPerShard_mul
  position_inj _ _ := hm.nested_inj
  inside _ := hm.nested_lt
  block_inj _ _ := hm.nested_inj
  shard_of_cell c hc := ⟨g.shardsOf m c, position_mem hm hc⟩
  children_cell := by
    intro s hs c hc
    obtain ⟨hat, hmem⟩ := (mem_generateMortonChildren hm (g.parent_le.trans g.chunk_le) htop hs).mp hc
    obtain ⟨hparent, hown⟩ := position_mem hm hat
    exact ⟨hat, hm.nested_inj hparent hs (eq_of_mem_tile hown hmem)⟩
  children_eq s hs := hm.children_eq (g.parent_le.trans g.chunk_le) htop hs
  chunks_eq := by
    intro s hs
    show (g.iterChunks m s).map Prod.fst = _
    rw [iterChunks_eq hm htop hs, List.map_map]
    exact hm.children_eq g.parent_le (g.chunk_le.trans htop) hs
  chunk_cell := by
    intro s hs e he c hc
    have he : e ∈ g.iterChunks m s := he
    rw [iterChunks_eq hm htop hs] at he
    obtain ⟨sub, hsub, rfl⟩ := List.mem_map.mp he
    have hat := hm.children_at g.parent_le (g.chunk_le.trans htop) hs sub hsub
    exact hm.children_at g.chunk_le htop hat c hc
  chunk_eq := by
    intro s hs e he
    have he : e ∈ g.iterChunks m s := he
    rw [iterChunks_eq hm htop hs] at he
    obtain ⟨sub, hsub, rfl⟩ := List.mem_map.mp he
    have hat := hm.children_at g.parent_le (g.chunk_le.trans htop) hs sub hsub
    exact hm.children_eq g.chunk_le htop hat
  region := by
    intro s _ o start
    have hslice := shardLocalRegion_eq (m := m) (g := g) s o
    rw [Nat.succ_mul] at hslice
    show g.shardLocalRegion m (blockIndex m s * g.chunksPerShard + o) s = _ ↔ _
    rw [hslice]
    constructor
    · intro heq
      exact (Int.ofNat.inj (congrArg Prod.fst heq)).symm
    · rintro rfl
      rfl

end HealpixGrid

section Sample

/-- A word as its nested number beside its order. -/
def pairCalls : MortonCalls where
  mort2healpix w := w / 32
  generateMortonChildren w o := (tile (4 ^ (o - w % 32)) (w / 32)).map fun n => n * 32 + o
  clip2order o w := w / 32 / 4 ^ (w % 32 - o) * 32 + o

def PairAt (o : Nat) (w : Word) : Prop := o ≤ 29 ∧ w % 32 = o ∧ w / 32 < healpixBaseCells * 4 ^ o

theorem pairCalls_nested : pairCalls.Nested 29 PairAt := by
  have hjoin : ∀ n o : Nat, o ≤ 29 → (n * 32 + o) / 32 = n ∧ (n * 32 + o) % 32 = o := fun n o ho =>
    div_mod_join (Nat.lt_of_le_of_lt ho (by decide)) n
  have hpow : ∀ {o o' : Nat}, o ≤ o' → healpixBaseCells * 4 ^ o' = healpixBaseCells * 4 ^ o * 4 ^ (o' - o) := by
    intro o o' ho
    rw [Nat.mul_assoc, ← Nat.pow_add, Nat.add_sub_cancel' ho]
  have hchildren : ∀ {o o' w v}, o ≤ o' → o' ≤ 29 → PairAt o w → v ∈ tile (4 ^ (o' - w % 32)) (w / 32) →
      v < healpixBaseCells * 4 ^ o' := by
    rintro o o' w v ho - ⟨-, horder, hlt⟩ hv
    obtain ⟨r, hr, rfl⟩ := mem_tile.mp hv
    rw [hpow ho]
    rw [horder] at hr ⊢
    exact join_lt hlt hr
  refine ⟨fun h => h.2.2, fun ho hn => ⟨_, ⟨ho, (hjoin _ _ ho).2, ?_⟩, (hjoin _ _ ho).1⟩, ?_, ?_, ?_, ?_, ?_⟩
  · rw [(hjoin _ _ ho).1]
    exact hn
  · rintro o v w ⟨-, hv, -⟩ ⟨-, hw, -⟩ (heq : v / 32 = w / 32)
    rw [← Nat.div_add_mod v 32, ← Nat.div_add_mod w 32, hv, hw, heq]
  · intro o o' w ho htop hw v hv
    obtain ⟨n, hn, rfl⟩ := List.mem_map.mp hv
    refine ⟨htop, (hjoin n o' htop).2, ?_⟩
    rw [(hjoin n o' htop).1]
    exact hchildren ho htop hw hn
  · intro o o' w _ htop hw
    show ((tile (4 ^ (o' - w % 32)) (w / 32)).map fun n => n * 32 + o').map (· / 32) = _
    rw [List.map_map, hw.2.1]
    exact (List.map_congr_left fun n _ => (hjoin n o' htop).1).trans (List.map_id _)
  · rintro o o' w ho ⟨htop, horder, hlt⟩
    have ho29 := ho.trans htop
    refine ⟨ho29, (hjoin _ _ ho29).2, ?_⟩
    show (w / 32 / 4 ^ (w % 32 - o) * 32 + o) / 32 < _
    rw [(hjoin _ _ ho29).1, horder]
    rw [hpow ho, Nat.mul_comm] at hlt
    exact Nat.div_lt_of_lt_mul hlt
  · rintro o o' w ho ⟨htop, horder, -⟩
    show (w / 32 / 4 ^ (w % 32 - o) * 32 + o) / 32 = w / 32 / 4 ^ (o' - o)
    rw [(hjoin _ _ (ho.trans htop)).1, horder]

/-- Five rows and nine columns in tiles of four by four, of chunks of two by four. -/
def raggedGrid : RectilinearGrid := ⟨4, 4, 2, 4, 2, 3, true, by decide, by decide, by decide, by decide⟩

example : RectilinearGrid.init 5 9 (4, 4) (some (2, 4)) true = .ok raggedGrid := rfl

def sampleOrders : HealpixGrid := ⟨2, 3, 5, by decide, by decide⟩

end Sample

/-- The shards of both grids tile their domains, as long as the cell ids of a rectilinear grid fit
an `int64`. -/
theorem grid_shards_tile {m : MortonCalls} {top : Nat} {IsAt : Nat → Word → Prop} (hm : m.Nested top IsAt) :
    (∀ g : RectilinearGrid, g.height * g.width < 2 ^ 63 → g.code.TilesDomain) ∧
      ∀ g : HealpixGrid, g.childOrder ≤ top → (g.code m IsAt).TilesDomain :=
  ⟨fun _ hcells => (RectilinearGrid.blocks hcells).tilesDomain,
    fun _ htop => (HealpixGrid.blocks hm htop).tilesDomain⟩

theorem grid_shards_tile_ragged :
    raggedGrid.code.TilesDomain ∧ (sampleOrders.code pairCalls PairAt).TilesDomain :=
  ⟨(grid_shards_tile pairCalls_nested).1 raggedGrid (by decide),
    (grid_shards_tile pairCalls_nested).2 sampleOrders (by decide)⟩

def hugeGrid : RectilinearGrid := ⟨1, 1, 1, 1, 2 ^ 32, 2 ^ 32, false, by decide, by decide, by decide, by decide⟩

/-- On `2 ^ 64` cells the last one's id is the sentinel, and `shards_of` does not lead back. -/
theorem grid_shards_tile_overflow :
    RectilinearGrid.init (2 ^ 32) (2 ^ 32) (1, 1) none false = .ok hugeGrid ∧ ¬hugeGrid.code.TilesDomain := by
  refine ⟨rfl, fun h => ?_⟩
  have hlt : 2 ^ 64 - 1 < 2 ^ 32 * 2 ^ 32 := by decide
  have hmem : (-1 : Int) ∈ hugeGrid.children (2 ^ 64 - 1) := by decide +kernel
  have hshard : hugeGrid.shardsOf (-1) = ((2 ^ 64 - 1 : Nat) : Int) := (h.own_shard _ hlt _ hmem).2
  have hoob : hugeGrid.shardsOf (-1) = -1 := by decide +kernel
  rw [hoob] at hshard
  omega

end Zagg.Grids
