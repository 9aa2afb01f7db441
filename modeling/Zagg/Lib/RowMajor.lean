import Mathlib.Algebra.Ring.Prod
import Mathlib.Data.List.Nodup
import Mathlib.Data.List.Perm.Basic
import Mathlib.Tactic.Ring

/-!
# Row-major boxes

Positions of an array form a commutative semiring by coordinates, and so do shapes. A box of a
shape is numbered row by row. The box of a product of two shapes falls into blocks of the one
shape, laid out in a box of the other: the block of a position and its place there are the
quotient and the remainder.
-/
namespace Zagg.Lib

/-- Positions and shapes of arrays of one rank. -/
class BoxIndex (P : Type) extends CommSemiring P where
  /-- Every coordinate lies below the shape's. -/
  Inside : P → P → Prop
  size : P → Nat
  /-- The number of a position, row by row. -/
  ravel : P → P → Nat
  unravel : P → Nat → P
  ravel_lt : ∀ {s i}, Inside i s → ravel s i < size s
  inside_unravel : ∀ {s k}, k < size s → Inside (unravel s k) s
  unravel_ravel : ∀ {s i}, Inside i s → unravel s (ravel s i) = i
  ravel_unravel : ∀ {s k}, k < size s → ravel s (unravel s k) = k
  inside_join : ∀ {m s b o}, Inside b m → Inside o s → Inside (b * s + o) (m * s)
  exists_join : ∀ {m s i}, Inside i (m * s) → ∃ b o, Inside b m ∧ Inside o s ∧ i = b * s + o
  join_inj : ∀ {s b b' o o'}, Inside o s → Inside o' s → b * s + o = b' * s + o' → b = b' ∧ o = o'

open BoxIndex (Inside size ravel unravel)

theorem div_mod_join {s o : Nat} (ho : o < s) (b : Nat) : (b * s + o) / s = b ∧ (b * s + o) % s = o := by
  constructor
  · rw [Nat.mul_comm, Nat.mul_add_div (Nat.zero_lt_of_lt ho), Nat.div_eq_of_lt ho, Nat.add_zero]
  · rw [Nat.mul_comm, Nat.mul_add_mod, Nat.mod_eq_of_lt ho]

theorem join_lt {m s b o : Nat} (hb : b < m) (ho : o < s) : b * s + o < m * s := by
  have hle : (b + 1) * s ≤ m * s := Nat.mul_le_mul_right s hb
  rw [Nat.succ_mul] at hle
  omega

theorem pos_of_lt_mul {m s k : Nat} (h : k < m * s) : 0 < s :=
  Nat.pos_of_ne_zero fun hs => by
    rw [hs, Nat.mul_zero] at h
    exact Nat.not_lt_zero k h

instance : BoxIndex Nat where
  Inside i s := i < s
  size s := s
  ravel _ i := i
  unravel _ k := k
  ravel_lt h := h
  inside_unravel h := h
  unravel_ravel _ := rfl
  ravel_unravel _ := rfl
  inside_join hb ho := join_lt hb ho
  exists_join {m s i} hi := ⟨i / s, i % s, Nat.div_lt_of_lt_mul (Nat.mul_comm m s ▸ hi),
    Nat.mod_lt i (pos_of_lt_mul hi), (Nat.div_add_mod' i s).symm⟩
  join_inj := by
    intro s b b' o o' ho ho' heq
    have hb := (div_mod_join ho b).1
    have hmod := (div_mod_join ho b).2
    rw [heq, (div_mod_join ho' b').1] at hb
    rw [heq, (div_mod_join ho' b').2] at hmod
    exact ⟨hb.symm, hmod.symm⟩

instance {P Q : Type} [BoxIndex P] [BoxIndex Q] : BoxIndex (P × Q) where
  Inside i s := Inside i.1 s.1 ∧ Inside i.2 s.2
  size s := size s.1 * size s.2
  ravel s i := ravel s.1 i.1 * size s.2 + ravel s.2 i.2
  unravel s k := (unravel s.1 (k / size s.2), unravel s.2 (k % size s.2))
  ravel_lt h := join_lt (BoxIndex.ravel_lt h.1) (BoxIndex.ravel_lt h.2)
  inside_unravel h := ⟨BoxIndex.inside_unravel (Nat.div_lt_of_lt_mul (Nat.mul_comm .. ▸ h)),
    BoxIndex.inside_unravel (Nat.mod_lt _ (pos_of_lt_mul h))⟩
  unravel_ravel := by
    intro s i h
    obtain ⟨hdiv, hmod⟩ := div_mod_join (BoxIndex.ravel_lt h.2) (ravel s.1 i.1)
    rw [hdiv, hmod, BoxIndex.unravel_ravel h.1, BoxIndex.unravel_ravel h.2]
  ravel_unravel := by
    intro s k h
    rw [BoxIndex.ravel_unravel (Nat.div_lt_of_lt_mul (Nat.mul_comm .. ▸ h)),
      BoxIndex.ravel_unravel (Nat.mod_lt k (pos_of_lt_mul h)), Nat.div_add_mod']
  inside_join h h' := ⟨BoxIndex.inside_join h.1 h'.1, BoxIndex.inside_join h.2 h'.2⟩
  exists_join := by
    intro m s i h
    obtain ⟨b₁, o₁, hb₁, ho₁, h₁⟩ := BoxIndex.exists_join h.1
    obtain ⟨b₂, o₂, hb₂, ho₂, h₂⟩ := BoxIndex.exists_join h.2
    exact ⟨(b₁, b₂), (o₁, o₂), ⟨hb₁, hb₂⟩, ⟨ho₁, ho₂⟩, Prod.ext h₁ h₂⟩
  join_inj := by
    intro s b b' o o' ho ho' heq
    obtain ⟨hb₁, ho₁⟩ := BoxIndex.join_inj ho.1 ho'.1 (congrArg Prod.fst heq)
    obtain ⟨hb₂, ho₂⟩ := BoxIndex.join_inj ho.2 ho'.2 (congrArg Prod.snd heq)
    exact ⟨Prod.ext hb₁ hb₂, Prod.ext ho₁ ho₂⟩

section Tiles
variable {P : Type} [BoxIndex P]

/-- The positions of a block, row by row. -/
def tile (shape block : P) : List P := (List.range (size shape)).map fun k => block * shape + unravel shape k

variable {m s b c : P}

theorem mem_tile {p : P} : p ∈ tile s b ↔ ∃ o, Inside o s ∧ p = b * s + o := by
  rw [tile, List.mem_map]
  constructor
  · rintro ⟨k, hk, rfl⟩
    exact ⟨_, BoxIndex.inside_unravel (List.mem_range.mp hk), rfl⟩
  · rintro ⟨o, ho, rfl⟩
    exact ⟨ravel s o, List.mem_range.mpr (BoxIndex.ravel_lt ho), by rw [BoxIndex.unravel_ravel ho]⟩

theorem getElem?_tile {k : Nat} (hk : k < size s) : (tile s b)[k]? = some (b * s + unravel s k) := by
  rw [tile, List.getElem?_map, List.getElem?_range hk]
  rfl

theorem length_tile : (tile s b).length = size s := by
  rw [tile, List.length_map, List.length_range]

theorem nodup_tile : (tile s b).Nodup := by
  rw [tile]
  apply List.Nodup.map_on _ List.nodup_range
  intro k hk k' hk' heq
  have hk := List.mem_range.mp hk
  have hk' := List.mem_range.mp hk'
  have hsame := (BoxIndex.join_inj (BoxIndex.inside_unravel hk) (BoxIndex.inside_unravel hk') heq).2
  rw [← BoxIndex.ravel_unravel hk, hsame, BoxIndex.ravel_unravel hk']

/-- A box of two ranks, row by row. -/
theorem tile_prod {Q : Type} [BoxIndex Q] (s b : P) (t c : Q) :
    tile (s, t) (b, c) = (tile s b).flatMap fun i => (tile t c).map fun j => (i, j) := by
  have hrange : ∀ {α : Type} (f : Nat → Nat → α) (h w : Nat),
      (List.range (h * w)).map (fun k => f (k / w) (k % w)) =
        (List.range h).flatMap fun i => (List.range w).map fun j => f i j := by
    intro α f h w
    induction h with
    | zero => rw [Nat.zero_mul]; rfl
    | succ h ih =>
      have hrow : ((List.range w).map (h * w + ·)).map (fun k => f (k / w) (k % w)) =
          (List.range w).map fun j => f h j := by
        rw [List.map_map]
        apply List.map_congr_left
        intro j hj
        obtain ⟨hdiv, hmod⟩ := div_mod_join (List.mem_range.mp hj) h
        show f ((h * w + j) / w) ((h * w + j) % w) = f h j
        rw [hdiv, hmod]
      rw [Nat.succ_mul, List.range_add, List.map_append, hrow, ih, List.range_succ, List.flatMap_append,
        List.flatMap_singleton]
  rw [tile, tile, tile, List.flatMap_map]
  simp only [List.map_map]
  exact hrange (fun i j => (b * s + unravel s i, c * t + unravel t j)) (size s) (size t)

/-- A position lies in one block only. -/
theorem eq_of_mem_tile {p : P} (h : p ∈ tile s b) (h' : p ∈ tile s c) : b = c := by
  obtain ⟨o, ho, rfl⟩ := mem_tile.mp h
  obtain ⟨o', ho', heq⟩ := mem_tile.mp h'
  exact (BoxIndex.join_inj ho ho' heq).1

/-- The positions of a block of blocks are those of its blocks. -/
theorem mem_tile_mul {p : P} : p ∈ tile (m * s) b ↔ ∃ d ∈ tile m b, p ∈ tile s d := by
  simp only [mem_tile]
  constructor
  · rintro ⟨o, ho, rfl⟩
    obtain ⟨d, o', hd, ho', rfl⟩ := BoxIndex.exists_join ho
    exact ⟨b * m + d, ⟨d, hd, rfl⟩, o', ho', by ring⟩
  · rintro ⟨_, ⟨d, hd, rfl⟩, o, ho, rfl⟩
    exact ⟨d * s + o, BoxIndex.inside_join hd ho, by ring⟩

/-- A block of blocks, block by block. -/
theorem perm_tile_mul : ((tile m b).flatMap (tile s)).Perm (tile (m * s) b) := by
  apply (List.perm_ext_iff_of_nodup _ nodup_tile).mpr
  · intro p
    rw [List.mem_flatMap, mem_tile_mul]
  · rw [List.nodup_flatMap]
    refine ⟨fun d _ => nodup_tile, nodup_tile.imp fun hne p hp hp' => hne (eq_of_mem_tile hp hp')⟩

end Tiles
end Zagg.Lib
