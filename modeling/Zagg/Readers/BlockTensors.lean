import Mathlib.Data.List.SplitBy
import Mathlib.Data.Set.Function
import Mathlib.Order.Interval.Set.Defs
import Zagg.Catalog.Rings
import Zagg.Readers.Tensors

/-!
# Every populated cell has its place in one block

On a nested axis the chunks and the blocks start at multiples of their sizes, so the chunks of a
block are grouped together and the ranks of a block's cells are their places behind its start. A
block then holds its populated cells, each in the place its rank deinterleaves to.
-/
namespace Zagg.Readers

open Zagg.Lib Zagg.Stats
open Zagg.Catalog (searchsorted_iff)

variable {m : Mortie} {arr : Ragged} {g : Geometry} {cellOrder : ℕ}

section Span

/-- A multiple below another one is a whole step below it. -/
theorem le_of_dvd_of_lt {c x y : ℕ} (hx : c ∣ x) (hy : c ∣ y) (h : x < y) : x + c ≤ y := by
  obtain ⟨i, rfl⟩ := hx
  obtain ⟨j, rfl⟩ := hy
  rw [← Nat.mul_succ]
  exact Nat.mul_le_mul_left _ (Nat.lt_of_mul_lt_mul_left h)

/-- The order of the axis root; the fullsphere's base cells are roots of their own. -/
def Geometry.rootOrder (g : Geometry) (cellOrder : ℕ) : ℕ :=
  match g with
  | .fullsphere => 0
  | .subtree depth _ => cellOrder - depth

/-- The subtrees below the root divide the axis. -/
theorem Geometry.dvd_cells (hfit : g.Fits cellOrder) {o : ℕ} (hroot : g.rootOrder cellOrder ≤ o) :
    4 ^ (cellOrder - o) ∣ g.cells cellOrder ∧ 4 ^ (cellOrder - o) ∣ g.start := by
  cases g with
  | fullsphere => exact ⟨Dvd.dvd.mul_left (pow_dvd_pow 4 (Nat.sub_le _ _)) 12, Nat.dvd_zero _⟩
  | subtree depth root =>
    have hroot : cellOrder - depth ≤ o := hroot
    have hdvd : 4 ^ (cellOrder - o) ∣ 4 ^ depth := pow_dvd_pow 4 (by omega)
    exact ⟨hdvd, Dvd.dvd.mul_left hdvd root⟩

/-- What a `subtree=` visits: the order of the subtree's part on the axis, and its cells. -/
inductive Visit (m : Mortie) (g : Geometry) (cellOrder : ℕ) : Option Subtree → ℕ → (ℕ → Bool) → Prop
  | all : Visit m g cellOrder none (g.rootOrder cellOrder) fun _ => true
  | below {subtree : Subtree} {w k h : ℕ} (hn : subtree.Names m w) (hw : Area m w k h) (hk : k ≤ cellOrder) :
    Visit m g cellOrder (some subtree) (max k (g.rootOrder cellOrder)) fun i => below cellOrder k h (g.start + i)

theorem Visit.root_le {subtree : Option Subtree} {order : ℕ} {visited : ℕ → Bool}
    (hv : Visit m g cellOrder subtree order visited) : g.rootOrder cellOrder ≤ order := by
  cases hv with
  | all => exact le_rfl
  | below hn hw hk => exact le_max_right _ _

/-- The visited cells are those from `a` to `b`, and whole subtrees. -/
structure VisitedSpan (g : Geometry) (cellOrder order : ℕ) (visited : ℕ → Bool) (a b : ℕ) : Prop where
  visited_iff : ∀ i < g.cells cellOrder, (visited i = true ↔ a ≤ i ∧ i < b)
  le_cells : b ≤ g.cells cellOrder
  dvd_start : 4 ^ (cellOrder - order) ∣ a
  dvd_stop : 4 ^ (cellOrder - order) ∣ b

/-- Two intervals of an axis with the same cells. -/
theorem interval_unique {n a b a' b' : ℕ} (hab : a < b) (hb : b ≤ n) (hab' : a' < b') (hb' : b' ≤ n)
    (hsame : ∀ i < n, (a ≤ i ∧ i < b ↔ a' ≤ i ∧ i < b')) : a = a' ∧ b = b' := by
  have h1 := hsame a (by omega)
  have h2 := hsame a' (by omega)
  have h3 := hsame (b - 1) (by omega)
  have h4 := hsame (b' - 1) (by omega)
  omega

/-- A width that divides the axis and its start cuts it into intervals. -/
theorem interval_of_quotient {n start width h a b : ℕ} (hwidth : 0 < width) (hn : width ∣ n)
    (hstart : width ∣ start) (hab : a < b) (hb : b ≤ n)
    (hspan : ∀ i < n, (a ≤ i ∧ i < b ↔ (start + i) / width = h)) : width ∣ a ∧ b - a = width := by
  obtain ⟨q, rfl⟩ := hstart
  obtain ⟨p, rfl⟩ := hn
  have ha := (hspan a (by omega)).mp ⟨le_rfl, hab⟩
  rw [Nat.mul_add_div hwidth] at ha
  have hplace : a / width < p := Nat.div_lt_of_lt_mul (by omega)
  have hfull : a / width * width + width ≤ width * p := by
    rw [← Nat.succ_mul, Nat.mul_comm]
    exact Nat.mul_le_mul_left width hplace
  obtain ⟨hlow, hhigh⟩ := interval_unique hab hb (Nat.lt_add_of_pos_right hwidth) hfull fun i hi => by
    rw [hspan i hi, Nat.mul_add_div hwidth, ← ha, Nat.add_left_cancel_iff, Nat.div_eq_iff hwidth]
    omega
  have hdvd : width ∣ a / width * width := Nat.dvd_mul_left _ _
  exact ⟨by rwa [← hlow] at hdvd, by omega⟩

/-- A span that holds the cells below a word is the span of a subtree of the axis. -/
theorem span_of_below (hfit : g.Fits cellOrder) {k h a b : ℕ} (hab : a < b) (hb : b ≤ g.cells cellOrder)
    (hspan : ∀ i < g.cells cellOrder, (a ≤ i ∧ i < b ↔ below cellOrder k h (g.start + i) = true)) :
    4 ^ (cellOrder - max k (g.rootOrder cellOrder)) ∣ a ∧
      b - a = 4 ^ (cellOrder - max k (g.rootOrder cellOrder)) := by
  rcases Nat.le_total (g.rootOrder cellOrder) k with hroot | hroot
  · rw [max_eq_left hroot]
    obtain ⟨hcells, hstart⟩ := Geometry.dvd_cells hfit hroot
    exact interval_of_quotient (by positivity) hcells hstart hab hb fun i hi => by
      rw [hspan i hi, below, beq_iff_eq]
  · rw [max_eq_right hroot]
    cases g with
    | fullsphere =>
      obtain ⟨hcells, hstart⟩ := Geometry.dvd_cells hfit (le_refl (Geometry.fullsphere.rootOrder cellOrder))
      obtain rfl : k = 0 := Nat.le_zero.mp hroot
      exact interval_of_quotient (by positivity) hcells hstart hab hb fun i hi => by
        rw [hspan i hi, below, beq_iff_eq]
        rfl
    | subtree depth root =>
      -- the word is above the axis root, so it holds the whole axis
      have hdepth : depth ≤ cellOrder := hfit.1
      have hall : ∀ i < 4 ^ depth, a ≤ i ∧ i < b := by
        intro i hi
        apply (hspan i hi).mpr
        have hin := (hspan a (by omega)).mp ⟨le_rfl, hab⟩
        have ha : a < 4 ^ depth := hab.trans_le hb
        have hsplit : cellOrder - k = depth + (cellOrder - depth - k) := by
          have hroot : k ≤ cellOrder - depth := hroot
          omega
        apply below_of_root hroot hdepth ?_ hi
        rw [below, beq_iff_eq, hsplit, pow_add, ← Nat.div_div_eq_div_mul] at hin
        rw [← hin, Geometry.start, Nat.mul_comm root, Nat.mul_add_div (by positivity), Nat.div_eq_of_lt ha,
          Nat.add_zero]
      have hpos : 0 < 4 ^ depth := by positivity
      have hb : b ≤ 4 ^ depth := hb
      have hdiff : cellOrder - (cellOrder - depth) = depth := Nat.sub_sub_self hdepth
      have hzero := (hall 0 hpos).1
      have hlast := (hall (4 ^ depth - 1) (by omega)).2
      obtain rfl : a = 0 := by omega
      show 4 ^ (cellOrder - (cellOrder - depth)) ∣ 0 ∧ b - 0 = 4 ^ (cellOrder - (cellOrder - depth))
      rw [hdiff]
      exact ⟨Nat.dvd_zero _, by omega⟩

end Span

section Chunks

/-- What the store holds of an array: objects of whole chunks, each on the axis, with every payload. -/
structure Stored (arr : Ragged) : Prop where
  chunk_pos : 0 < arr.chunk
  span_pos : 0 < arr.span
  dvd_span : arr.chunk ∣ arr.span
  dvd_shape : arr.chunk ∣ arr.shape
  nodup : arr.ordinals.Nodup
  onAxis : ∀ o ∈ arr.ordinals, o * arr.span < arr.shape
  payload : ∀ i < arr.shape, arr.raw i ≠ [] → i / arr.span ∈ arr.ordinals

/-- The chunk at a start, when it is populated. -/
def chunkOf (arr : Ragged) (x : ℕ) : Option (ℕ × List (ℕ × Bytes)) := chunkAt arr (x + arr.chunk) x

/-- The populated ones of the cells behind a position, by their ranks. -/
def cellsIn (arr : Ragged) (start n : ℕ) : List (ℕ × Bytes) :=
  (List.range n).filterMap fun r => if arr.raw (start + r) = [] then none else some (r, arr.raw (start + r))

theorem mem_cellsIn {start n : ℕ} {cell : ℕ × Bytes} :
    cell ∈ cellsIn arr start n ↔ cell.1 < n ∧ arr.raw (start + cell.1) = cell.2 ∧ cell.2 ≠ [] := by
  rw [cellsIn, List.mem_filterMap]
  constructor
  · intro h
    obtain ⟨r, hr, hcell⟩ := h
    split_ifs at hcell with hempty
    obtain rfl := Option.some.inj hcell
    exact ⟨List.mem_range.mp hr, rfl, hempty⟩
  · intro h
    obtain ⟨hr, hraw, hne⟩ := h
    refine ⟨cell.1, List.mem_range.mpr hr, ?_⟩
    rw [hraw, if_neg hne]

theorem zipIdx_slice {β : Type} (values : ℕ → β) {start n : ℕ} (h : start + n ≤ arr.shape) :
    (arr.slice values start (start + n)).zipIdx = (List.range n).map fun r => (values (start + r), r) := by
  rw [Ragged.slice, Nat.min_eq_left h, Nat.add_sub_cancel_left]
  apply List.ext_getElem
  · simp
  · intro i hi hi'
    simp

theorem populatedCells_slice {start n : ℕ} (h : start + n ≤ arr.shape) :
    populatedCells (arr.slice arr.raw start (start + n)) = cellsIn arr start n := by
  rw [populatedCells, zipIdx_slice arr.raw h, cellsIn, List.filterMap_map]
  rfl

theorem chunkOf_eq {x : ℕ} (h : x + arr.chunk ≤ arr.shape) :
    chunkOf arr x = if cellsIn arr x arr.chunk = [] then none else some (x, cellsIn arr x arr.chunk) := by
  rw [chunkOf, chunkAt, Nat.min_self, populatedCells_slice h]

/-- A list of starts may leave out the starts of chunks that are not populated. -/
theorem filterMap_sorted {β : Type} {f : ℕ → Option β} {l l' : List ℕ} (hl : l.Pairwise (· < ·))
    (hl' : l'.Pairwise (· < ·)) (hsub : ∀ x ∈ l, x ∈ l') (hnone : ∀ x ∈ l', x ∉ l → f x = none) :
    l.filterMap f = l'.filterMap f := by
  have hfilter : l = l'.filter (· ∈ l) := by
    apply hl.eq_of_mem_iff (hl'.filter _)
    intro x
    rw [List.mem_filter, decide_eq_true_eq]
    exact ⟨fun hx => ⟨hsub x hx, hx⟩, fun hx => hx.2⟩
  rw [hfilter, List.filterMap_filter]
  apply List.filterMap_congr
  intro x hx
  by_cases hmem : x ∈ l
  · rw [if_pos (decide_eq_true hmem)]
  · rw [if_neg (by rwa [decide_eq_true_eq]), hnone x hx hmem]

theorem ordinals_sorted (hs : Stored arr) : (arr.ordinals.insertionSort (· ≤ ·)).Pairwise (· < ·) := by
  have hperm := List.perm_insertionSort (· ≤ ·) arr.ordinals
  have hle := List.pairwise_insertionSort (· ≤ ·) arr.ordinals
  have hne := hperm.nodup_iff.mpr hs.nodup
  exact (hle.and hne).imp fun h => lt_of_le_of_ne h.1 h.2

/-- The chunk starts of the stored objects, from `a` to `b`. -/
def storedStarts (arr : Ragged) (a b : ℕ) : List ℕ :=
  (storedChunkSpans arr).flatMap fun stored => (starts arr.chunk stored).filter fun x => decide (a ≤ x ∧ x < b)

theorem dvd_stop (hs : Stored arr) (o : ℕ) : arr.chunk ∣ min ((o + 1) * arr.span) arr.shape := by
  rcases min_choice ((o + 1) * arr.span) arr.shape with h | h
  · rw [h]
    exact Dvd.dvd.mul_left hs.dvd_span _
  · rw [h]
    exact hs.dvd_shape

theorem mem_storedStarts (hs : Stored arr) {a b x : ℕ} :
    x ∈ storedStarts arr a b ↔ (∃ o ∈ arr.ordinals, o * arr.span ≤ x ∧ x < (o + 1) * arr.span) ∧
      x < arr.shape ∧ arr.chunk ∣ x ∧ a ≤ x ∧ x < b := by
  have hperm := List.perm_insertionSort (· ≤ ·) arr.ordinals
  have hdvd : ∀ o, arr.chunk ∣ (o * arr.span, min ((o + 1) * arr.span) arr.shape).1 := fun o =>
    Dvd.dvd.mul_left hs.dvd_span o
  simp only [storedStarts, storedChunkSpans, List.mem_flatMap, List.mem_map, List.mem_filter, decide_eq_true_eq,
    exists_exists_and_eq_and, hperm.mem_iff, mem_starts hs.chunk_pos (hdvd _), lt_min_iff]
  constructor
  · intro h
    obtain ⟨o, ho, ⟨hle, ⟨hlt, hshape⟩, hdvd⟩, hab⟩ := h
    exact ⟨⟨o, ho, hle, hlt⟩, hshape, hdvd, hab⟩
  · intro h
    obtain ⟨⟨o, ho, hle, hlt⟩, hshape, hdvd, hab⟩ := h
    exact ⟨o, ho, ⟨hle, ⟨hlt, hshape⟩, hdvd⟩, hab⟩

theorem storedStarts_sorted (hs : Stored arr) (a b : ℕ) : (storedStarts arr a b).Pairwise (· < ·) := by
  rw [storedStarts, storedChunkSpans, List.flatMap_map, List.pairwise_flatMap]
  refine ⟨fun o _ => (pairwise_starts hs.chunk_pos _).filter _, (ordinals_sorted hs).imp fun {o o'} ho x hx y hy => ?_⟩
  have hx := (mem_starts hs.chunk_pos (Dvd.dvd.mul_left hs.dvd_span o)).mp (List.mem_filter.mp hx).1
  have hy := (mem_starts hs.chunk_pos (Dvd.dvd.mul_left hs.dvd_span o')).mp (List.mem_filter.mp hy).1
  have hmul : (o + 1) * arr.span ≤ o' * arr.span := Nat.mul_le_mul_right _ ho
  omega

/-- A chunk of an object that is not stored has no payload. -/
theorem chunkOf_unstored (hs : Stored arr) {a b x : ℕ} (hb : b ≤ arr.shape)
    (hx : x ∈ starts arr.chunk (a, b)) (ha : arr.chunk ∣ a) (hno : x ∉ storedStarts arr a b) :
    chunkOf arr x = none := by
  obtain ⟨hle, hlt, hdvd⟩ := (mem_starts hs.chunk_pos ha).mp hx
  have hfull := le_of_dvd_of_lt hdvd hs.dvd_shape (hlt.trans_le hb)
  obtain ⟨j, rfl⟩ := id hdvd
  obtain ⟨p, hp⟩ := hs.dvd_span
  rw [chunkOf_eq hfull, if_pos]
  rw [List.eq_nil_iff_forall_not_mem]
  intro cell hcell
  obtain ⟨hr, hraw, hne⟩ := mem_cellsIn.mp hcell
  have hpayload := hs.payload (arr.chunk * j + cell.1) (by omega) (by rwa [hraw])
  have hquot : (arr.chunk * j + cell.1) / arr.span = arr.chunk * j / arr.span := by
    rw [hp, ← Nat.div_div_eq_div_mul, ← Nat.div_div_eq_div_mul, Nat.mul_add_div hs.chunk_pos, Nat.div_eq_of_lt hr,
      Nat.add_zero, Nat.mul_div_cancel_left _ hs.chunk_pos]
  rw [hquot] at hpayload
  refine hno ((mem_storedStarts hs).mpr ⟨⟨_, hpayload, Nat.div_mul_le_self _ _, ?_⟩, by omega, hdvd, hle, hlt⟩)
  rw [Nat.succ_mul]
  exact Nat.lt_div_mul_add hs.span_pos

/-- The covering chunks of a span of whole chunks are the span's own. -/
theorem coveringSpan_of_dvd {a b : ℕ} (ha : arr.chunk ∣ a) (hb : arr.chunk ∣ b) (stored : ℕ × ℕ) :
    coveringSpan arr (a, b) stored = (max stored.1 a, min stored.2 b) := by
  have hlow : a % arr.chunk = 0 := Nat.mod_eq_zero_of_dvd ha
  have hhigh : -(b : ℤ) % arr.chunk = 0 :=
    Int.emod_eq_zero_of_dvd (Int.dvd_neg.mpr (Int.natCast_dvd_natCast.mpr hb))
  rw [coveringSpan, hlow, hhigh, Int.toNat_zero, Nat.sub_zero, Nat.add_zero]

/-- A sweep of whole chunks reads the populated ones, in order. -/
theorem iterPopulatedChunks_some (hs : Stored arr) {a b : ℕ} (ha : arr.chunk ∣ a) (hb : arr.chunk ∣ b)
    (hle : b ≤ arr.shape) : iterPopulatedChunks arr (some (a, b)) (some (storedChunkSpans arr)) =
      (starts arr.chunk (a, b)).filterMap (chunkOf arr) := by
  have hsorted : (storedStarts arr a b).filterMap (chunkOf arr) = (starts arr.chunk (a, b)).filterMap (chunkOf arr) := by
    apply filterMap_sorted (storedStarts_sorted hs a b) (pairwise_starts hs.chunk_pos _)
    · intro x hx
      obtain ⟨-, -, hdvd, hlow, hhigh⟩ := (mem_storedStarts hs).mp hx
      exact (mem_starts hs.chunk_pos ha).mpr ⟨hlow, hhigh, hdvd⟩
    · exact fun x hx hno => chunkOf_unstored hs hle hx ha hno
  rw [← hsorted, iterPopulatedChunks, Option.getD_some, storedStarts, List.filterMap_flatMap]
  apply List.flatMap_congr
  intro stored hstored
  obtain ⟨o, -, rfl⟩ := List.mem_map.mp hstored
  have hstart : arr.chunk ∣ (o * arr.span, min ((o + 1) * arr.span) arr.shape).1 := Dvd.dvd.mul_left hs.dvd_span o
  have hstop : arr.chunk ∣ min (min ((o + 1) * arr.span) arr.shape) b := by
    rcases min_choice (min ((o + 1) * arr.span) arr.shape) b with h | h
    · rw [h]
      exact dvd_stop hs o
    · rw [h]
      exact hb
  rw [← starts_filter hs.chunk_pos hstart ha b]
  dsimp only
  rw [coveringSpan_of_dvd ha hb]
  have hlow : arr.chunk ∣ max (o * arr.span) a := by
    rcases max_choice (o * arr.span) a with h | h
    · rw [h]
      exact hstart
    · rw [h]
      exact ha
  split_ifs with hempty
  · rw [starts_of_le _ hempty]
    rfl
  · rw [spanChunks_eq]
    apply List.filterMap_congr
    intro x hx
    obtain ⟨-, hlt, hdvd⟩ := (mem_starts hs.chunk_pos hlow).mp hx
    have hfull : x + arr.chunk ≤ min (min ((o + 1) * arr.span) arr.shape) b := le_of_dvd_of_lt hdvd hstop hlt
    rw [chunkOf, chunkAt, chunkAt, Nat.min_self, Nat.min_eq_left hfull]

/-- The full sweep is the sweep of the whole axis. -/
theorem iterPopulatedChunks_none (hs : Stored arr) : iterPopulatedChunks arr none none =
    (starts arr.chunk (0, arr.shape)).filterMap (chunkOf arr) := by
  rw [← iterPopulatedChunks_some hs (Nat.dvd_zero _) hs.dvd_shape le_rfl]
  unfold iterPopulatedChunks
  apply List.flatMap_congr
  intro stored hstored
  obtain ⟨o, -, rfl⟩ := List.mem_map.mp hstored
  dsimp only
  rw [coveringSpan_of_dvd (Nat.dvd_zero _) hs.dvd_shape, Nat.max_zero, Nat.min_eq_left (Nat.min_le_right _ _)]
  split_ifs with hempty
  · rw [spanChunks_eq, starts_of_le _ hempty]
    rfl
  · rfl

end Chunks

section Blocks
variable {D a b s : ℕ}

/-- The populated chunks of the block at a start. -/
def chunksOf (arr : Ragged) (D s : ℕ) : List (ℕ × List (ℕ × Bytes)) :=
  (starts arr.chunk (s, s + 4 ^ D)).filterMap (chunkOf arr)

/-- The blocks of a span cut its chunks apart. -/
theorem starts_blocks (hs : Stored arr) (hD : arr.chunk ∣ 4 ^ D) (ha : 4 ^ D ∣ a) (hb : 4 ^ D ∣ b) :
    starts arr.chunk (a, b) = (starts (4 ^ D) (a, b)).flatMap fun s => starts arr.chunk (s, s + 4 ^ D) := by
  have hpos : 0 < 4 ^ D := by positivity
  have hdvd : ∀ s ∈ starts (4 ^ D) (a, b), arr.chunk ∣ s := fun s hs => hD.trans ((mem_starts hpos ha).mp hs).2.2
  apply (pairwise_starts hs.chunk_pos _).eq_of_mem_iff
  · rw [List.pairwise_flatMap]
    refine ⟨fun s _ => pairwise_starts hs.chunk_pos _, (pairwise_starts hpos _).imp_of_mem ?_⟩
    intro s s' hmem hmem' hlt x hx y hy
    have hx := ((mem_starts hs.chunk_pos (hdvd s hmem)).mp hx).2.1
    have hy := ((mem_starts hs.chunk_pos (hdvd s' hmem')).mp hy).1
    have hle := le_of_dvd_of_lt ((mem_starts hpos ha).mp hmem).2.2 ((mem_starts hpos ha).mp hmem').2.2 hlt
    dsimp only at hx hy
    omega
  · intro x
    rw [mem_starts hs.chunk_pos (hD.trans ha), List.mem_flatMap]
    constructor
    · intro h
      obtain ⟨hle, hlt, hx⟩ := h
      have hstart : 4 ^ D ∣ x / 4 ^ D * 4 ^ D := Nat.dvd_mul_left _ _
      have hin : a ≤ x / 4 ^ D * 4 ^ D := by
        rw [← Nat.div_mul_cancel ha]
        exact Nat.mul_le_mul_right _ (Nat.div_le_div_right hle)
      refine ⟨_, (mem_starts hpos ha).mpr ⟨hin, (Nat.div_mul_le_self _ _).trans_lt hlt, hstart⟩, ?_⟩
      exact (mem_starts hs.chunk_pos (hD.trans hstart)).mpr
        ⟨Nat.div_mul_le_self _ _, Nat.lt_div_mul_add hpos, hx⟩
    · intro h
      obtain ⟨s, hmem, hx⟩ := h
      obtain ⟨hle, hlt, hxdvd⟩ := (mem_starts hs.chunk_pos (hdvd s hmem)).mp hx
      obtain ⟨hlow, hhigh, hstart⟩ := (mem_starts hpos ha).mp hmem
      have hstop := le_of_dvd_of_lt hstart hb hhigh
      dsimp only at hle hlt
      exact ⟨by omega, by omega, hxdvd⟩

/-- The chunks of a block name it. -/
theorem div_of_mem_chunksOf (hs : Stored arr) (hD : arr.chunk ∣ 4 ^ D) (hstart : 4 ^ D ∣ s)
    {c : ℕ × List (ℕ × Bytes)} (hc : c ∈ chunksOf arr D s) : c.1 / 4 ^ D = s / 4 ^ D := by
  have hpos : 0 < 4 ^ D := by positivity
  obtain ⟨x, hx, hxc⟩ := List.mem_filterMap.mp hc
  obtain ⟨hle, hlt, -⟩ := (mem_starts hs.chunk_pos (hD.trans hstart)).mp hx
  obtain ⟨heq, -⟩ := chunkAt_spec hxc
  obtain ⟨q, rfl⟩ := hstart
  rw [heq, Nat.mul_div_cancel_left _ hpos]
  apply Nat.div_eq_of_lt_le
  · rwa [Nat.mul_comm]
  · rwa [Nat.succ_mul, Nat.mul_comm q]

/-- Grouping the chunks by their blocks' numbers gives the blocks that have a populated chunk. -/
theorem blockGroups_chunks (hs : Stored arr) (hD : arr.chunk ∣ 4 ^ D) (ha : 4 ^ D ∣ a) (hb : 4 ^ D ∣ b) :
    blockGroups D ((starts arr.chunk (a, b)).filterMap (chunkOf arr)) =
      ((starts (4 ^ D) (a, b)).map (chunksOf arr D)).filter (· ≠ []) := by
  have hpos : 0 < 4 ^ D := by positivity
  have hmem : ∀ s ∈ starts (4 ^ D) (a, b), 4 ^ D ∣ s := fun s hs => ((mem_starts hpos ha).mp hs).2.2
  have hflat : (starts arr.chunk (a, b)).filterMap (chunkOf arr) =
      (((starts (4 ^ D) (a, b)).map (chunksOf arr D)).filter (· ≠ [])).flatten := by
    rw [starts_blocks hs hD ha hb, List.filterMap_flatMap, List.flatten_filter_ne_nil, List.flatMap_def]
    rfl
  rw [hflat, blockGroups]
  apply List.splitBy_flatten
  · intro hnil
    exact of_decide_eq_true (List.mem_filter.mp hnil).2 rfl
  · intro group hgroup
    obtain ⟨s, hstart, rfl⟩ := List.mem_map.mp (List.mem_filter.mp hgroup).1
    apply List.Pairwise.isChain
    apply List.pairwise_of_forall_mem_list
    intro x hx y hy
    rw [beq_iff_eq, div_of_mem_chunksOf hs hD (hmem s hstart) hx, div_of_mem_chunksOf hs hD (hmem s hstart) hy]
  · apply List.Pairwise.isChain
    rw [List.pairwise_filter, List.pairwise_map]
    apply (pairwise_starts hpos _).imp_of_mem
    intro s s' hstart hstart' hlt hne hne'
    refine ⟨of_decide_eq_true hne, of_decide_eq_true hne', ?_⟩
    rw [beq_eq_false_iff_ne, div_of_mem_chunksOf hs hD (hmem s hstart) (List.getLast_mem _),
      div_of_mem_chunksOf hs hD (hmem s' hstart') (List.head_mem _)]
    have hle := Nat.div_le_div_right (c := 4 ^ D) (le_of_dvd_of_lt (hmem s hstart) (hmem s' hstart') hlt)
    rw [Nat.add_div_right _ hpos] at hle
    exact (Nat.lt_of_succ_le hle).ne

/-- The cells behind a longer range are those behind its parts. -/
theorem cellsIn_add (start n n' : ℕ) : cellsIn arr start (n + n') =
    cellsIn arr start n ++ (cellsIn arr (start + n) n').map fun cell => (n + cell.1, cell.2) := by
  rw [cellsIn, List.range_add, List.filterMap_append, List.filterMap_map, cellsIn, cellsIn, List.map_filterMap]
  congr 1
  apply List.filterMap_congr
  intro r _
  rw [Function.comp, Nat.add_assoc]
  split_ifs with hempty
  · rfl
  · rfl

theorem cellsIn_chunks (start q : ℕ) : cellsIn arr start (q * arr.chunk) = (List.range q).flatMap fun j =>
    (cellsIn arr (start + j * arr.chunk) arr.chunk).map fun cell => (j * arr.chunk + cell.1, cell.2) := by
  induction q with
  | zero => rw [Nat.zero_mul, cellsIn, List.range_zero, List.filterMap_nil, List.flatMap_nil]
  | succ q ih => rw [Nat.succ_mul, cellsIn_add, ih, List.range_succ, List.flatMap_append, List.flatMap_singleton]

/-- The cells of a block are the populated ones behind its start, by rank. -/
theorem blockCellsOf_chunksOf (hs : Stored arr) (hD : arr.chunk ∣ 4 ^ D) (hfull : s + 4 ^ D ≤ arr.shape) :
    blockCellsOf s (chunksOf arr D s) = cellsIn arr s (4 ^ D) := by
  obtain ⟨q, hq⟩ := hD
  rw [Nat.mul_comm] at hq
  have hsteps : starts arr.chunk (s, s + 4 ^ D) = (List.range q).map fun j => s + j * arr.chunk := by
    have hpos := hs.chunk_pos
    have hcount : (q * arr.chunk + arr.chunk - 1) / arr.chunk = q := by
      rw [Nat.add_sub_assoc hpos, Nat.mul_comm, Nat.mul_add_div hpos, Nat.div_eq_of_lt (by omega), Nat.add_zero]
    rw [starts, Nat.add_sub_cancel_left, steps, hq, hcount, List.map_map]
    rfl
  have hflat : ∀ l : List ℕ, blockCellsOf s (l.filterMap (chunkOf arr)) = l.flatMap fun x =>
      (chunkOf arr x).elim [] fun chunk => chunk.2.map fun cell => (chunk.1 - s + cell.1, cell.2) := by
    intro l
    induction l with
    | nil => rfl
    | cons x l ih =>
      rw [List.filterMap_cons, List.flatMap_cons, ← ih]
      cases chunkOf arr x with
      | none => rfl
      | some chunk => rfl
  rw [chunksOf, hflat, hsteps, List.flatMap_map, hq, cellsIn_chunks]
  apply List.flatMap_congr
  intro j hj
  have hin : (j + 1) * arr.chunk ≤ q * arr.chunk := Nat.mul_le_mul_right _ (List.mem_range.mp hj)
  rw [Nat.succ_mul] at hin
  rw [chunkOf_eq (by omega)]
  split_ifs with hempty
  · rw [hempty]
    rfl
  · rw [Option.elim_some, Nat.add_sub_cancel_left]

end Blocks

section Words
variable {D s : ℕ}

/-- A span of whole blocks that has a written word is at the cells' order. -/
theorem cellsOrder_slice (hplaced : Placed m arr cellOrder g) {start stop : ℕ}
    (hwritten : ∃ i, start ≤ i ∧ i < stop ∧ i < arr.shape ∧ arr.morton i ≠ 0) (field : String) (at_ : ℕ) :
    cellsOrder m (arr.slice arr.morton start stop) field at_ = .ok (cellOrder : ℤ) ∧
      ∃ i < arr.shape, arr.morton i ≠ 0 ∧ ((arr.slice arr.morton start stop).filter (· ≠ 0)).headD 0 = arr.morton i := by
  have hmem : ∀ w, w ∈ (arr.slice arr.morton start stop).filter (· ≠ 0) ↔
      w ≠ 0 ∧ ∃ i, start ≤ i ∧ i < stop ∧ i < arr.shape ∧ arr.morton i = w := by
    intro w
    rw [List.mem_filter, Ragged.slice, List.mem_map, decide_eq_true_eq, and_comm]
    constructor
    · intro h
      obtain ⟨hw, i, hi, hiw⟩ := h
      have hi := List.mem_range'_1.mp hi
      exact ⟨hw, i, by omega, by omega, by omega, hiw⟩
    · intro h
      obtain ⟨hw, i, hlow, hhigh, hshape, hiw⟩ := h
      exact ⟨hw, i, List.mem_range'_1.mpr (by omega), hiw⟩
  unfold cellsOrder
  cases hwords : (arr.slice arr.morton start stop).filter (· ≠ 0) with
  | nil =>
    obtain ⟨i, hlow, hhigh, hshape, hnz⟩ := hwritten
    have hi := (hmem (arr.morton i)).mpr ⟨hnz, i, hlow, hhigh, hshape, rfl⟩
    rw [hwords] at hi
    cases hi
  | cons w ws =>
    obtain ⟨hnz, i, -, -, hshape, rfl⟩ := (hmem w).mp (hwords ▸ .head _)
    obtain ⟨label, hlabel, horder⟩ := mortonDecimal_of_area (hplaced i hshape hnz)
    dsimp only
    rw [hlabel, Except.map, horder]
    exact ⟨rfl, i, hshape, hnz, rfl⟩

/-- A block's word is the ancestor of its cells. -/
theorem chunkWord_block (hm : m.Lawful) (hplaced : Placed m arr cellOrder g) (hD : D ≤ cellOrder)
    (hstart : 4 ^ D ∣ g.start) (hs : 4 ^ D ∣ s) (hfull : s + 4 ^ D ≤ arr.shape)
    (hwritten : ∃ r < 4 ^ D, arr.morton (s + r) ≠ 0) (field : String) :
    ∃ word, chunkWord m (arr.slice arr.morton s (s + 4 ^ D)) field s = .ok word ∧
      Area m word (cellOrder - D) ((g.start + s) / 4 ^ D) := by
  have hpos : 0 < 4 ^ D := by positivity
  obtain ⟨r₀, hr₀, hnz₀⟩ := hwritten
  have hancestor : ∀ r < 4 ^ D, arr.morton (s + r) ≠ 0 → ∃ a, m.clip2order (cellOrder - D : ℕ) (arr.morton (s + r)) = .ok a ∧
      Area m a (cellOrder - D) ((g.start + s) / 4 ^ D) := by
    intro r hr hnz
    obtain ⟨a, hclip, harea⟩ := hm.clip (hplaced (s + r) (by omega) hnz) (Nat.sub_le cellOrder D)
    rw [Nat.sub_sub_self hD] at harea
    have hsame : (g.start + (s + r)) / 4 ^ D = (g.start + s) / 4 ^ D := by
      rw [← Nat.add_assoc]
      obtain ⟨q, hq⟩ := Nat.dvd_add hstart hs
      rw [hq, Nat.mul_add_div hpos, Nat.div_eq_of_lt hr, Nat.add_zero, Nat.mul_div_cancel_left _ hpos]
    exact ⟨a, hclip, hsame ▸ harea⟩
  obtain ⟨word, -, hword⟩ := hancestor r₀ hr₀ hnz₀
  have hcells := (@cellsOrder_slice m arr g cellOrder hplaced s (s + 4 ^ D)
    ⟨s + r₀, by omega, by omega, by omega, hnz₀⟩ field s).1
  have hlen : (arr.slice arr.morton s (s + 4 ^ D)).length = 4 ^ D := by
    rw [Ragged.slice, List.length_map, List.length_range', Nat.min_eq_left hfull, Nat.add_sub_cancel_left]
  have horder : (cellOrder : ℤ) - D = (cellOrder - D : ℕ) := by omega
  have hclip : ((arr.slice arr.morton s (s + 4 ^ D)).filter (· ≠ 0)).mapM (m.clip2order (cellOrder - D : ℕ)) =
      .ok (((arr.slice arr.morton s (s + 4 ^ D)).filter (· ≠ 0)).map fun _ => word) := by
    apply mapM_ok
    intro w hw
    obtain ⟨hslice, hnz⟩ := List.mem_filter.mp hw
    obtain ⟨i, hi, rfl⟩ := List.mem_map.mp hslice
    have hi := List.mem_range'_1.mp hi
    obtain ⟨a, hclip, harea⟩ := hancestor (i - s) (by omega) (by
      rw [Nat.add_sub_cancel' hi.1]
      exact of_decide_eq_true hnz)
    rw [Nat.add_sub_cancel' hi.1] at hclip
    rw [hclip, hm.unique harea hword]
  have hmem : arr.morton (s + r₀) ∈ (arr.slice arr.morton s (s + 4 ^ D)).filter (· ≠ 0) := by
    apply List.mem_filter.mpr
    exact ⟨List.mem_map.mpr ⟨s + r₀, List.mem_range'_1.mpr (by omega), rfl⟩, decide_eq_true hnz₀⟩
  refine ⟨word, ?_, hword⟩
  simp only [chunkWord, hcells, bind, Except.bind, hlen, axisDepth_four_pow, horder, hclip]
  cases hwords : (arr.slice arr.morton s (s + 4 ^ D)).filter (· ≠ 0) with
  | nil =>
    rw [hwords] at hmem
    cases hmem
  | cons w ws =>
    rw [List.map_cons, List.headD_cons, if_neg]
    · rfl
    · simp

end Words

section Places
variable {D s : ℕ}

/-- The ranks of a subtree deinterleave to the places of its square, one to one. -/
def Deinterleaves (m : Mortie) (depth : ℕ) : Prop :=
  Set.BijOn (fun rank => m.rankToXy rank depth) (Set.Iio (4 ^ depth)) (Set.Iio (2 ^ depth) ×ˢ Set.Iio (2 ^ depth))

theorem rankToRowcol_inj (hm : Deinterleaves m D) {r r' : ℕ} (hr : r < 4 ^ D) (hr' : r' < 4 ^ D)
    (h : rankToRowcol m r D = rankToRowcol m r' D) : r = r' := by
  apply hm.injOn hr hr'
  exact Prod.ext (Prod.mk.inj h).2 (Prod.mk.inj h).1

theorem exists_rankToRowcol (hm : Deinterleaves m D) {p : ℕ × ℕ} (hrow : p.1 < 2 ^ D) (hcol : p.2 < 2 ^ D) :
    ∃ r < 4 ^ D, rankToRowcol m r D = p := by
  obtain ⟨r, hr, hxy⟩ := hm.surjOn (Set.mk_mem_prod hcol hrow)
  have hxy : m.rankToXy r D = (p.2, p.1) := hxy
  refine ⟨r, hr, ?_⟩
  rw [rankToRowcol, hxy]

/-- The cells an occupancy marks: all of them, or those whose written word it holds. -/
def Occupancy.Marks (arr : Ragged) : Option Occupancy → ℕ → Prop
  | none, _ => False
  | some .full, _ => True
  | some (.bitmap occupied), i => arr.morton i ≠ 0 ∧ arr.morton i ∈ occupied

/-- The words of an occupancy are sorted. -/
def Occupancy.Sorted : Option Occupancy → Prop
  | some (.bitmap occupied) => occupied.Pairwise (· ≤ ·)
  | _ => True

theorem occupiedHit_iff {occupied : List ℕ} (hsorted : occupied.Pairwise (· ≤ ·)) (hne : occupied ≠ []) (word : ℕ) :
    occupiedHit occupied word = true ↔ word ≠ 0 ∧ word ∈ occupied := by
  rw [occupiedHit, Bool.and_eq_true, searchsorted_iff hsorted hne, bne_iff_ne, and_comm]

/-- The base of the mask is one at the marked cells of the block, and zero at the others. -/
theorem blockMask_eq (hm : Deinterleaves m D) (hfull : s + 4 ^ D ≤ arr.shape) {occupancy : Option Occupancy}
    (hsorted : Occupancy.Sorted occupancy) {r : ℕ} (hr : r < 4 ^ D) :
    (Occupancy.Marks arr occupancy (s + r) →
      blockMask m (arr.slice arr.morton s (s + 4 ^ D)) occupancy D (rankToRowcol m r D) = 1) ∧
    (¬Occupancy.Marks arr occupancy (s + r) →
      blockMask m (arr.slice arr.morton s (s + 4 ^ D)) occupancy D (rankToRowcol m r D) = 0) := by
  cases occupancy with
  | none => exact ⟨fun h => h.elim, fun _ => rfl⟩
  | some occupancy =>
    cases occupancy with
    | full => exact ⟨fun _ => rfl, fun h => absurd trivial h⟩
    | bitmap occupied =>
      rw [blockMask]
      by_cases hne : occupied = []
      · rw [if_pos hne]
        refine ⟨fun h => ?_, fun _ => rfl⟩
        rw [Occupancy.Marks, hne] at h
        cases h.2
      · rw [if_neg hne, zipIdx_slice arr.morton hfull]
        have hhit := occupiedHit_iff hsorted hne
        have hone : ∀ w ∈ (((List.range (4 ^ D)).map fun r => (arr.morton (s + r), r)).filter fun w =>
            occupiedHit occupied w.1).map fun w => (rankToRowcol m w.2 D, 1),
            w.2 = 1 ∧ ∃ r' < 4 ^ D, w.1 = rankToRowcol m r' D ∧ Occupancy.Marks arr (some (.bitmap occupied)) (s + r') := by
          intro w hw
          obtain ⟨v, hv, rfl⟩ := List.mem_map.mp hw
          obtain ⟨hv, hocc⟩ := List.mem_filter.mp hv
          obtain ⟨r', hr', rfl⟩ := List.mem_map.mp hv
          exact ⟨rfl, r', List.mem_range.mp hr', rfl, (hhit _).mp hocc⟩
        constructor
        · intro hmark
          apply assignAll_eq
          · exact fun w hw _ => (hone w hw).1
          · refine .inl ⟨(rankToRowcol m r D, 1), ?_, rfl⟩
            apply List.mem_map.mpr
            refine ⟨(arr.morton (s + r), r), List.mem_filter.mpr ⟨?_, (hhit _).mpr hmark⟩, rfl⟩
            exact List.mem_map.mpr ⟨r, List.mem_range.mpr hr, rfl⟩
        · intro hmark
          apply assignAll_of_notMem
          intro hmem
          obtain ⟨w, hw, hplace⟩ := List.mem_map.mp hmem
          obtain ⟨-, r', hr', hfst, hmark'⟩ := hone w hw
          rw [rankToRowcol_inj hm hr hr' (hplace.symm.trans hfst)] at hmark
          exact hmark hmark'

variable (digest : ℕ → Digest) (float32 : ℚ → ℚ)

/-- The counts of a cell under a window. -/
def cellCounts (dtype : TensorDtype) (window : ℚ × ℕ × ℚ) (i : ℕ) : List ℚ :=
  (rasterizeCell (digest i) window.1 window.2.2 window.2.1).map fun count => dtype.cast float32 count

/-- What the place of a cell holds in the tensor and in the mask. -/
structure PlaceHolds (arr : Ragged) (dtype : TensorDtype) (window : ℚ × ℕ × ℚ) (observed : ℕ → Prop) (i : ℕ)
    (counts : List ℚ) (mask : ℕ) : Prop where
  populated : arr.raw i ≠ [] → counts = cellCounts digest float32 dtype window i ∧ mask = 2
  empty : arr.raw i = [] → counts = List.replicate window.2.1 0
  marked : arr.raw i = [] → observed i → mask = 1
  unmarked : arr.raw i = [] → ¬observed i → mask = 0

/-- A block under a window: each place of its square holds the cell of one rank. -/
structure BlockHolds (m : Mortie) (arr : Ragged) (g : Geometry) (cellOrder D : ℕ) (dtype : TensorDtype)
    (observed : ℕ → Prop) (s : ℕ) (window : ℚ × ℕ × ℚ) (block : TensorBlock) : Prop where
  word : Area m block.word (cellOrder - D) ((g.start + s) / 4 ^ D)
  offset : block.offset = window.1
  gain : block.gain = window.2.2
  place : ∀ p : ℕ × ℕ, p.1 < 2 ^ D → p.2 < 2 ^ D → ∃ r < 4 ^ D, rankToRowcol m r D = p ∧
    (∀ r' < 4 ^ D, rankToRowcol m r' D = p → r' = r) ∧
    PlaceHolds digest float32 arr dtype window observed (s + r) (block.tensor p) (block.mask p)

/-- The digests of a block, by rank. -/
def blockDigests (arr : Ragged) (s n : ℕ) : List Digest := (cellsIn arr s n).map fun cell => digest (s + cell.1)

variable {digest float32} {element : Bytes → Except String Digest} {fuel : ℕ} {req : TensorRequest}

/-- Every payload of the array is a digest. -/
def Decodes (arr : Ragged) (element : Bytes → Except String Digest) (digest : ℕ → Digest) : Prop :=
  ∀ i < arr.shape, arr.raw i ≠ [] → element (arr.raw i) = .ok (digest i) ∧ digest i ≠ []

/-- The decoded cells of a block, and their digests. -/
theorem mapM_cellsIn (hdecodes : Decodes arr element digest) (hfull : s + 4 ^ D ≤ arr.shape) :
    ((cellsIn arr s (4 ^ D)).mapM fun cell => (ofText (element cell.2)).map fun digest => (cell.1, digest)) =
        .ok ((cellsIn arr s (4 ^ D)).map fun cell => (cell.1, digest (s + cell.1))) ∧
      ((cellsIn arr s (4 ^ D)).map fun cell => (cell.1, digest (s + cell.1))).map Prod.snd =
        blockDigests digest arr s (4 ^ D) := by
  refine ⟨mapM_ok fun cell hcell => ?_, by rw [List.map_map]; rfl⟩
  obtain ⟨hr, hraw, hne⟩ := mem_cellsIn.mp hcell
  have hdecode := (hdecodes (s + cell.1) (by omega) (by rwa [hraw])).1
  rw [hraw] at hdecode
  rw [hdecode]
  rfl

/-- The start of a block, from its first chunk. -/
theorem start_of_chunksOf (hs : Stored arr) (hD : arr.chunk ∣ 4 ^ D) (hstart : 4 ^ D ∣ s)
    (hne : chunksOf arr D s ≠ []) : ((chunksOf arr D s).map Prod.fst).headD 0 / 4 ^ D * 4 ^ D = s := by
  have hdiv : ∀ c ∈ chunksOf arr D s, c.1 / 4 ^ D = s / 4 ^ D := fun c hc => div_of_mem_chunksOf hs hD hstart hc
  cases hchunks : chunksOf arr D s with
  | nil => exact absurd hchunks hne
  | cons c cs =>
    rw [List.map_cons, List.headD_cons, hdiv c (hchunks ▸ .head _), Nat.div_mul_cancel hstart]

/-- What the populated cells of a block assign at the places of their ranks. -/
theorem assignAll_cellsIn (hplaces : Deinterleaves m D) {β : Type} (f : ℕ → β) (base : ℕ × ℕ → β) {r : ℕ}
    (hr : r < 4 ^ D) : assignAll ((cellsIn arr s (4 ^ D)).map fun cell => (rankToRowcol m cell.1 D, f cell.1)) base
      (rankToRowcol m r D) = if arr.raw (s + r) = [] then base (rankToRowcol m r D) else f r := by
  have honly : ∀ cell ∈ cellsIn arr s (4 ^ D), rankToRowcol m cell.1 D = rankToRowcol m r D → cell.1 = r :=
    fun cell hcell heq => rankToRowcol_inj hplaces (mem_cellsIn.mp hcell).1 hr heq
  by_cases hraw : arr.raw (s + r) = []
  · rw [if_pos hraw]
    apply assignAll_of_notMem
    intro hmem
    obtain ⟨w, hw, hplace⟩ := List.mem_map.mp hmem
    obtain ⟨cell, hcell, rfl⟩ := List.mem_map.mp hw
    obtain ⟨-, hcellraw, hcellne⟩ := mem_cellsIn.mp hcell
    rw [honly cell hcell hplace, hraw] at hcellraw
    exact hcellne hcellraw.symm
  · rw [if_neg hraw]
    apply assignAll_eq
    · intro w hw hplace
      obtain ⟨cell, hcell, rfl⟩ := List.mem_map.mp hw
      rw [← honly cell hcell hplace]
    · have hcell : (r, arr.raw (s + r)) ∈ cellsIn arr s (4 ^ D) := mem_cellsIn.mpr ⟨hr, rfl, hraw⟩
      exact .inl ⟨_, List.mem_map.mpr ⟨_, hcell, rfl⟩, rfl⟩

/-- The body of the block loop, once its window is found: the block is emitted whole. -/
theorem readBlock_emits (hm : m.Lawful) (hplaces : Deinterleaves m D) (hs : Stored arr)
    (hplaced : Placed m arr cellOrder g) (hdecodes : Decodes arr element digest) (hD : arr.chunk ∣ 4 ^ D)
    (hle : D ≤ cellOrder) (hroot : 4 ^ D ∣ g.start) (hstart : 4 ^ D ∣ s) (hfull : s + 4 ^ D ≤ arr.shape)
    (hne : chunksOf arr D s ≠ []) (hwritten : ∃ r < 4 ^ D, arr.morton (s + r) ≠ 0)
    {occupancy : Option Occupancy} (hsorted : Occupancy.Sorted occupancy) {observed : ℕ → Prop}
    (hmarks : ∀ i < arr.shape, (Occupancy.Marks arr occupancy i ↔ observed i)) {window : ℚ × ℕ × ℚ}
    (hwindow : chunkZRange fuel (blockDigests digest arr s (4 ^ D)) req.nBins req.resolution req.bottom req.top
      req.fit = some (.ok window)) :
    ∃ block, readBlock m arr float32 element fuel req occupancy D (chunksOf arr D s) = .ok block ∧
      BlockHolds digest float32 m arr g cellOrder D req.dtype observed s window block := by
  obtain ⟨word, hword, harea⟩ := chunkWord_block hm hplaced hle hroot hstart hfull hwritten arr.field
  obtain ⟨zLo, nBins, resolution⟩ := window
  obtain ⟨hdecoded, hdigests⟩ := mapM_cellsIn hdecodes hfull
  have hread : readBlock m arr float32 element fuel req occupancy D (chunksOf arr D s) = .ok
      ⟨assignAll ((cellsIn arr s (4 ^ D)).map fun cell => (rankToRowcol m cell.1 D,
          cellCounts digest float32 req.dtype (zLo, nBins, resolution) (s + cell.1))) fun _ => List.replicate nBins 0,
        assignAll ((cellsIn arr s (4 ^ D)).map fun cell => (rankToRowcol m cell.1 D, 2))
          (blockMask m (arr.slice arr.morton s (s + 4 ^ D)) occupancy D),
        zLo, resolution, word⟩ := by
    rw [readBlock, start_of_chunksOf hs hD hstart hne, blockCellsOf_chunksOf hs hD hfull,
      hdecoded, Except.bind, hdigests, hwindow]
    dsimp only
    rw [hword, List.map_map, List.map_map]
    rfl
  refine ⟨_, hread, harea, rfl, rfl, ?_⟩
  intro p hrow hcol
  obtain ⟨r, hr, rfl⟩ := exists_rankToRowcol hplaces hrow hcol
  refine ⟨r, hr, rfl, fun r' hr' heq => rankToRowcol_inj hplaces hr' hr heq, ?_⟩
  have htensor := @assignAll_cellsIn m arr D s hplaces _
    (fun r => cellCounts digest float32 req.dtype (zLo, nBins, resolution) (s + r)) (fun _ => List.replicate nBins 0) r hr
  have hmask := @assignAll_cellsIn m arr D s hplaces _ (fun _ => 2)
    (blockMask m (arr.slice arr.morton s (s + 4 ^ D)) occupancy D) r hr
  obtain ⟨hone, hzero⟩ := blockMask_eq hplaces hfull hsorted hr
  have hmark := hmarks (s + r) (by omega)
  constructor
  · intro hraw
    rw [if_neg hraw] at htensor hmask
    exact ⟨htensor, hmask⟩
  · intro hraw
    rwa [if_pos hraw] at htensor
  · intro hraw hobserved
    rw [if_pos hraw, hone (hmark.mpr hobserved)] at hmask
    exact hmask
  · intro hraw hobserved
    rw [if_pos hraw, hzero fun h => hobserved (hmark.mp h)] at hmask
    exact hmask

theorem readBlock_refuses (hs : Stored arr) (hdecodes : Decodes arr element digest) (hD : arr.chunk ∣ 4 ^ D)
    (hstart : 4 ^ D ∣ s) (hfull : s + 4 ^ D ≤ arr.shape) (hne : chunksOf arr D s ≠ []) (occupancy : Option Occupancy)
    {e : ZRangeError} (hwindow : chunkZRange fuel (blockDigests digest arr s (4 ^ D)) req.nBins req.resolution
      req.bottom req.top req.fit = some (.error e)) :
    readBlock m arr float32 element fuel req occupancy D (chunksOf arr D s) = .error (.window e) := by
  obtain ⟨hdecoded, hdigests⟩ := mapM_cellsIn hdecodes hfull
  rw [readBlock, start_of_chunksOf hs hD hstart hne, blockCellsOf_chunksOf hs hD hfull,
    hdecoded, Except.bind, hdigests, hwindow]

end Places

section Occupied

/-- The exact occupancy that a stamp stands for, as the cells it holds; a leaf without a stamp has none. -/
inductive Exact (m : Mortie) (g : Geometry) (cellOrder : ℕ)
    (decodeCoverageBitmap : Bytes → ℕ → ℤ → Except String (List ℕ)) : Option Coverage → (ℕ → Prop) → Prop
  | absent : Exact m g cellOrder decodeCoverageBitmap none fun _ => False
  | full : Exact m g cellOrder decodeCoverageBitmap (some .full) fun _ => True
  | bitmap {payload : Bytes} {depth root shard : ℕ} {words : List ℕ} {occupied : ℕ → Prop}
    (hg : g = .subtree depth root) (hshard : Area m shard (cellOrder - depth) root)
    (hdecode : decodeCoverageBitmap payload shard cellOrder = .ok words) (hsorted : words.Pairwise (· ≤ ·))
    (hword : ∀ i, occupied i → ∃ w ∈ words, Area m w cellOrder (g.start + i))
    (hcell : ∀ w ∈ words, ∃ i, occupied i ∧ Area m w cellOrder (g.start + i)) :
    Exact m g cellOrder decodeCoverageBitmap (some (.bitmap cellOrder payload)) occupied

/-- The occupied cells a mask can show: their words are looked up, unless every cell is occupied. -/
def Observed (arr : Ragged) (coverage : Option Coverage) (occupied : ℕ → Prop) (i : ℕ) : Prop :=
  occupied i ∧ (coverage = some .full ∨ arr.morton i ≠ 0)

theorem loadOccupancy_exact (hm : m.Lawful) (hfit : g.Fits cellOrder) (hshape : arr.shape = g.cells cellOrder)
    (hplaced : Placed m arr cellOrder g) {decodeCoverageBitmap : Bytes → ℕ → ℤ → Except String (List ℕ)}
    {coverage : Option Coverage} {occupied : ℕ → Prop}
    (hexact : Exact m g cellOrder decodeCoverageBitmap coverage occupied) {start stop : ℕ}
    (hwritten : ∃ i, start ≤ i ∧ i < stop ∧ i < arr.shape ∧ arr.morton i ≠ 0) :
    ∃ occupancy, loadOccupancy m arr decodeCoverageBitmap coverage (arr.slice arr.morton start stop) = .ok occupancy ∧
      Occupancy.Sorted occupancy ∧
      ∀ i < arr.shape, (Occupancy.Marks arr occupancy i ↔ Observed arr coverage occupied i) := by
  cases hexact with
  | absent => exact ⟨none, rfl, trivial, fun i _ => ⟨fun h => h.elim, fun h => h.1.elim⟩⟩
  | full => exact ⟨some .full, rfl, trivial, fun i _ => ⟨fun _ => ⟨trivial, .inl rfl⟩, fun _ => trivial⟩⟩
  | @bitmap payload depth root shard words _ hg hshard hdecode hsorted hword hcell =>
    subst hg
    have hcells : arr.shape = 4 ^ depth := hshape
    obtain ⟨horder, i₀, hi₀, hnz₀, hhead⟩ := cellsOrder_slice hplaced hwritten arr.field 0
    have hclip : m.clip2order ((cellOrder : ℤ) - depth) (arr.morton i₀) = .ok shard := by
      have hle : (cellOrder : ℤ) - depth = (cellOrder - depth : ℕ) := by
        have hdepth := hfit.1
        omega
      obtain ⟨a, hclip, harea⟩ := hm.clip (hplaced i₀ hi₀ hnz₀) (Nat.sub_le cellOrder depth)
      rw [Nat.sub_sub_self hfit.1, Geometry.start, Nat.mul_comm root, Nat.mul_add_div (by positivity),
        Nat.div_eq_of_lt (hcells ▸ hi₀), Nat.add_zero] at harea
      rw [hle, hclip, hm.unique harea hshard]
    refine ⟨some (.bitmap words), ?_, hsorted, fun i hi => ?_⟩
    · rw [loadOccupancy, horder, hcells, axisDepth_four_pow, hhead]
      dsimp only [ofText, Except.mapError, Except.bind]
      rw [if_neg (not_not_intro rfl), if_neg (not_not_intro rfl), hclip]
      dsimp only
      rw [hdecode]
      rfl
    · constructor
      · intro h
        obtain ⟨hnz, hmem⟩ := h
        obtain ⟨i', hocc, harea⟩ := hcell _ hmem
        have heq := (hplaced i hi hnz).healpix.symm.trans harea.healpix
        obtain rfl := Nat.add_left_cancel heq
        exact ⟨hocc, .inr hnz⟩
      · intro h
        obtain ⟨hocc, hwhen⟩ := h
        have hnz : arr.morton i ≠ 0 := hwhen.resolve_left (by
          intro hfull
          cases hfull)
        obtain ⟨w, hw, harea⟩ := hword i hocc
        exact ⟨hnz, hm.unique harea (hplaced i hi hnz) ▸ hw⟩

end Occupied

section Blocks
variable {D : ℕ}

/-- The starts of the blocks with a populated cell that is visited, in order. -/
def populatedBlocks (arr : Ragged) (visited : ℕ → Bool) (D : ℕ) : List ℕ :=
  (starts (4 ^ D) (0, arr.shape)).filter fun s =>
    (List.range (4 ^ D)).any fun r => visited (s + r) && !(arr.raw (s + r)).isEmpty

theorem mem_populatedBlocks (hD : 4 ^ D ∣ arr.shape) {visited : ℕ → Bool} {s : ℕ} :
    s ∈ populatedBlocks arr visited D ↔ 4 ^ D ∣ s ∧ s + 4 ^ D ≤ arr.shape ∧
      ∃ r < 4 ^ D, visited (s + r) = true ∧ arr.raw (s + r) ≠ [] := by
  have hpos : 0 < 4 ^ D := by positivity
  rw [populatedBlocks, List.mem_filter, mem_starts hpos (Nat.dvd_zero _), List.any_eq_true]
  simp only [List.mem_range, Bool.and_eq_true, Bool.not_eq_true', List.isEmpty_eq_false_iff]
  constructor
  · intro h
    obtain ⟨⟨-, hlt, hdvd⟩, r, hr, hvisited, hraw⟩ := h
    exact ⟨hdvd, le_of_dvd_of_lt hdvd hD hlt, r, hr, hvisited, hraw⟩
  · intro h
    obtain ⟨hdvd, hfull, r, hr, hvisited, hraw⟩ := h
    exact ⟨⟨Nat.zero_le _, by omega, hdvd⟩, r, hr, hvisited, hraw⟩

/-- A block has a populated chunk when it has a populated cell. -/
theorem chunksOf_ne_nil (hs : Stored arr) (hD : arr.chunk ∣ 4 ^ D) {s : ℕ} (hfull : s + 4 ^ D ≤ arr.shape) :
    chunksOf arr D s ≠ [] ↔ ∃ r < 4 ^ D, arr.raw (s + r) ≠ [] := by
  have hcells := blockCellsOf_chunksOf hs hD hfull
  constructor
  · intro hne
    obtain ⟨c, hc⟩ := List.exists_mem_of_ne_nil _ hne
    have hpopulated : c.2 ≠ [] := by
      obtain ⟨x, -, hx⟩ := List.mem_filterMap.mp hc
      rw [chunkOf, chunkAt] at hx
      split_ifs at hx with hempty
      rw [← Option.some.inj hx]
      exact hempty
    obtain ⟨cell, hcell⟩ := List.exists_mem_of_ne_nil _ hpopulated
    have hmem : (c.1 - s + cell.1, cell.2) ∈ cellsIn arr s (4 ^ D) := by
      rw [← hcells]
      exact List.mem_flatMap.mpr ⟨c, hc, List.mem_map.mpr ⟨cell, hcell, rfl⟩⟩
    obtain ⟨hr, hraw, hne⟩ := mem_cellsIn.mp hmem
    exact ⟨_, hr, hraw ▸ hne⟩
  · intro h hnil
    obtain ⟨r, hr, hraw⟩ := h
    have hmem : (r, arr.raw (s + r)) ∈ cellsIn arr s (4 ^ D) := mem_cellsIn.mpr ⟨hr, rfl, hraw⟩
    rw [← hcells, hnil] at hmem
    cases hmem

/-- The groups of the visited chunks are the chunks of the blocks with a visited populated cell. -/
theorem blockGroups_visited (hs : Stored arr) (hD : arr.chunk ∣ 4 ^ D) (hshape : arr.shape = g.cells cellOrder)
    (hcells : 4 ^ D ∣ arr.shape) {order a b : ℕ} {visited : ℕ → Bool}
    (hspan : VisitedSpan g cellOrder order visited a b) (ha : 4 ^ D ∣ a) (hb : 4 ^ D ∣ b) :
    blockGroups D ((starts arr.chunk (a, b)).filterMap (chunkOf arr)) =
      (populatedBlocks arr visited D).map (chunksOf arr D) := by
  have hpos : 0 < 4 ^ D := by positivity
  have hblocks : (starts (4 ^ D) (a, b)).filter (fun s => decide (chunksOf arr D s ≠ [])) =
      populatedBlocks arr visited D := by
    apply ((pairwise_starts hpos _).filter _).eq_of_mem_iff ((pairwise_starts hpos _).filter _)
    intro s
    rw [← populatedBlocks, mem_populatedBlocks hcells, List.mem_filter, mem_starts hpos ha, decide_eq_true_eq]
    constructor
    · intro h
      obtain ⟨⟨hlow, hhigh, hdvd⟩, hne⟩ := h
      have hle := hspan.le_cells
      have hstop := le_of_dvd_of_lt hdvd hb hhigh
      have hfull : s + 4 ^ D ≤ arr.shape := by omega
      obtain ⟨r, hr, hraw⟩ := (chunksOf_ne_nil hs hD hfull).mp hne
      exact ⟨hdvd, hfull, r, hr, (hspan.visited_iff _ (by omega)).mpr (by omega), hraw⟩
    · intro h
      obtain ⟨hdvd, hfull, r, hr, hvisited, hraw⟩ := h
      obtain ⟨hlow, hhigh⟩ := (hspan.visited_iff _ (by omega)).mp hvisited
      have hstart := le_of_dvd_of_lt ha (Nat.dvd_add hdvd (Nat.dvd_refl _)) (by omega : a < s + 4 ^ D)
      exact ⟨⟨by omega, by omega, hdvd⟩, (chunksOf_ne_nil hs hD hfull).mpr ⟨r, hr, hraw⟩⟩
  rw [blockGroups_chunks hs hD ha hb, List.filter_map, ← hblocks]
  rfl

end Blocks

section Visits

/-- The dense coordinate write reached every chunk of every stored object. -/
def Covered (arr : Ragged) : Prop :=
  ∀ o ∈ arr.ordinals, ∀ x, arr.chunk ∣ x → o * arr.span ≤ x → x < (o + 1) * arr.span → x < arr.shape →
    ∃ i, x ≤ i ∧ i < x + arr.chunk ∧ i < arr.shape ∧ arr.morton i ≠ 0

theorem Covered.written (hcover : Covered arr) (hs : Stored arr) : Written arr := by
  intro o ho
  obtain ⟨i, hlow, hhigh, hshape, hnz⟩ := hcover o ho (o * arr.span) (Dvd.dvd.mul_left hs.dvd_span o) le_rfl (by
    rw [Nat.succ_mul]
    exact Nat.lt_add_of_pos_right hs.span_pos) (hs.onAxis o ho)
  exact ⟨i, hlow, hhigh, hshape, hnz⟩

/-- A chunk with a payload has a written word. -/
theorem Covered.chunk (hcover : Covered arr) (hs : Stored arr) {x i : ℕ} (hx : arr.chunk ∣ x) (hlow : x ≤ i)
    (hhigh : i < x + arr.chunk) (hi : i < arr.shape) (hraw : arr.raw i ≠ []) :
    ∃ j, x ≤ j ∧ j < x + arr.chunk ∧ j < arr.shape ∧ arr.morton j ≠ 0 := by
  have hobject : i / arr.span * arr.span ≤ x ∧ x < (i / arr.span + 1) * arr.span := by
    have hle := Nat.div_mul_le_self i arr.span
    have hlt := Nat.lt_div_mul_add hs.span_pos (a := i)
    rw [Nat.succ_mul]
    refine ⟨?_, by omega⟩
    have hstart : arr.chunk ∣ i / arr.span * arr.span := Dvd.dvd.mul_left hs.dvd_span _
    by_contra hgt
    have hstep := le_of_dvd_of_lt hx hstart (Nat.lt_of_not_le hgt)
    omega
  exact hcover _ (hs.payload i hi hraw) x hx hobject.1 hobject.2 (by omega)

/-- What `subtree=` resolves to: the populated chunks of the span it visits. -/
theorem subtreeSpan_visit (hm : m.Lawful) (hfit : g.Fits cellOrder) (hshape : arr.shape = g.cells cellOrder)
    (hs : Stored arr) (hplaced : Placed m arr cellOrder g) (hwritten : Written arr) (hne : arr.ordinals ≠ [])
    {subtree : Option Subtree} {order : ℕ} {visited : ℕ → Bool} (hv : Visit m g cellOrder subtree order visited)
    (hchunk : arr.chunk ∣ 4 ^ (cellOrder - order)) :
    ∃ span spans a b, subtreeSpan m arr subtree = .ok (span, spans) ∧
      iterPopulatedChunks arr (span.map Prod.fst) spans = (starts arr.chunk (a, b)).filterMap (chunkOf arr) ∧
      VisitedSpan g cellOrder order visited a b ∧
      ∀ cells ∈ span.map Prod.fst, cells = (a, b) ∧
        (cells = (0, 0) ∨ cells.2 - cells.1 = 4 ^ (cellOrder - order)) := by
  cases hv with
  | all =>
    refine ⟨none, none, 0, arr.shape, rfl, iterPopulatedChunks_none hs, ?_, fun cells h => by cases h⟩
    rw [hshape]
    exact ⟨fun i hi => iff_of_true rfl ⟨Nat.zero_le _, hi⟩, le_rfl, Nat.dvd_zero _, (Geometry.dvd_cells hfit le_rfl).1⟩
  | @below sub w k h hn hw hk =>
    obtain ⟨index, hanchor, hindex, hnz⟩ := exists_anchor hwritten hne
    have harea := hplaced index hindex hnz
    obtain ⟨a, b, warning, hcell, hcover, hbounds⟩ := subtreeCellSpan_spec hm hfit hn hw hk
      (hshape ▸ hindex) harea arr.field
    have hspan : subtreeSpan m arr (some sub) = .ok (some ((a, b), warning), some (storedChunkSpans arr)) := by
      rw [subtreeSpan_of_anchor hanchor harea, hshape, hcell]
      rfl
    have hvisited : VisitedSpan g cellOrder (max k (g.rootOrder cellOrder))
        (fun i => below cellOrder k h (g.start + i)) a b ∧
        ((a, b) = (0, 0) ∨ b - a = 4 ^ (cellOrder - max k (g.rootOrder cellOrder))) := by
      rcases hbounds with hzero | hpos
      · obtain ⟨rfl, rfl⟩ := hzero
        exact ⟨⟨fun i hi => (hcover i hi).symm, Nat.zero_le _, Nat.dvd_zero _, Nat.dvd_zero _⟩, .inl rfl⟩
      · obtain ⟨hlt, hle⟩ := hpos
        obtain ⟨hdvd, hwidth⟩ := span_of_below hfit hlt hle hcover
        refine ⟨⟨fun i hi => (hcover i hi).symm, hle, hdvd, ?_⟩, .inr hwidth⟩
        have hsum : b = a + 4 ^ (cellOrder - max k (g.rootOrder cellOrder)) := by omega
        rw [hsum]
        exact Nat.dvd_add hdvd (Nat.dvd_refl _)
    refine ⟨_, _, a, b, hspan, ?_, hvisited.1, ?_⟩
    · exact iterPopulatedChunks_some hs (hchunk.trans hvisited.1.dvd_start) (hchunk.trans hvisited.1.dvd_stop)
        (hshape ▸ hvisited.1.le_cells)
    · intro cells h
      obtain rfl := Option.some.inj h
      exact ⟨rfl, hvisited.2⟩

/-- The depth of the blocks asked for. -/
theorem blockDepthOf_eq {e order o : ℕ} (hcells : 4 ^ (cellOrder - o) ∣ arr.shape) (hplaced : Placed m arr cellOrder g)
    {blockOrder : Option ℤ} (horder : order ≤ o) (ho : o + e ≤ cellOrder)
    (hblock : blockOrder = some (o : ℤ) ∨ blockOrder = none ∧ o + e = cellOrder) {span : Option (ℕ × ℕ)}
    (hspan : ∀ cells ∈ span, cells.2 - cells.1 = 4 ^ (cellOrder - order)) {start stop : ℕ}
    (hwritten : ∃ i, start ≤ i ∧ i < stop ∧ i < arr.shape ∧ arr.morton i ≠ 0) (at_ : ℕ) :
    blockDepthOf m arr e span (arr.slice arr.morton start stop) at_ blockOrder = .ok (cellOrder - o) := by
  rcases hblock with hsome | hnone
  · have hmin : (span.elim 0 fun span => (cellOrder : ℤ) - axisDepth (span.2 - span.1)) ≤ o := by
      cases span with
      | none => exact Int.natCast_nonneg o
      | some cells =>
        rw [Option.elim_some, hspan cells rfl, axisDepth_four_pow]
        omega
    have hdepth : ((cellOrder : ℤ) - o).toNat = cellOrder - o := by omega
    rw [hsome, blockDepthOf, (cellsOrder_slice hplaced hwritten arr.field at_).1]
    dsimp only [ofText, Except.mapError, Except.bind]
    rw [if_neg (not_not_intro ⟨hmin, by omega⟩), hdepth, if_neg (not_not_intro (Nat.mod_eq_zero_of_dvd hcells))]
  · obtain ⟨rfl, hsum⟩ := hnone
    rw [blockDepthOf]
    congr 1
    omega

end Visits

section Events
variable {digest : ℕ → Digest} {element : Bytes → Except String Digest}
  {decodeCoverageBitmap : Bytes → ℕ → ℤ → Except String (List ℕ)} {coverage : Option Coverage} {occupied : ℕ → Prop}

/-- The outcome of a window, once the rounds are enough. -/
def Windowed (digests : List Digest) (req : TensorRequest) (outcome : Except ZRangeError (ℚ × ℕ × ℚ)) : Prop :=
  ∃ enough, ∀ fuel, enough ≤ fuel →
    chunkZRange fuel digests req.nBins req.resolution req.bottom req.top req.fit = some outcome

/-- What the read yields for a block: the block under the window of its digests, unless that is refused. -/
inductive BlockEvent (digest : ℕ → Digest) (float32 : ℚ → ℚ) (m : Mortie) (arr : Ragged) (g : Geometry)
    (cellOrder D : ℕ) (req : TensorRequest) (observed : ℕ → Prop) (s : ℕ) : Except TensorError TensorBlock → Prop
  | refused {e : ZRangeError} (h : Windowed (blockDigests digest arr s (4 ^ D)) req (.error e)) :
    BlockEvent digest float32 m arr g cellOrder D req observed s (.error (.window e))
  | emitted {window : ℚ × ℕ × ℚ} {block : TensorBlock}
    (h : Windowed (blockDigests digest arr s (4 ^ D)) req (.ok window))
    (hblock : BlockHolds digest float32 m arr g cellOrder D req.dtype observed s window block) :
    BlockEvent digest float32 m arr g cellOrder D req observed s (.ok block)

/-- Every block with a populated cell has its window, or is refused one; the degrading fit refuses none. -/
theorem exists_windowed (hdecodes : Decodes arr element digest) {D s : ℕ} (hfull : s + 4 ^ D ≤ arr.shape)
    (hne : ∃ r < 4 ^ D, arr.raw (s + r) ≠ []) {req : TensorRequest} (hbins : 1 ≤ req.nBins) (hres : 0 < req.resolution) :
    ∃ outcome, Windowed (blockDigests digest arr s (4 ^ D)) req outcome ∧
      (req.fit = .degradeResolution → ∃ window, outcome = .ok window) := by
  obtain ⟨r, hr, hraw⟩ := hne
  have hmem : digest (s + r) ∈ blockDigests digest arr s (4 ^ D) :=
    List.mem_map.mpr ⟨(r, arr.raw (s + r)), mem_cellsIn.mpr ⟨hr, rfl, hraw⟩, rfl⟩
  obtain ⟨z, outcome, -, hwindow, hfitted⟩ := chunkZRange_fits ⟨_, hmem, (hdecodes (s + r) (by omega) hraw).2⟩
    hbins hres req.bottom req.top req.fit
  refine ⟨outcome, hwindow, fun hfit => ?_⟩
  cases outcome with
  | error e => exact absurd hfit hfitted.1
  | ok window => exact ⟨window, rfl⟩

/-- A ragged field on a nested cells axis, as a store holds it. -/
structure NestedField (m : Mortie) (arr : Ragged) (g : Geometry) (cellOrder : ℕ)
    (element : Bytes → Except String Digest) (digest : ℕ → Digest) : Prop where
  fits : g.Fits cellOrder
  shape : arr.shape = g.cells cellOrder
  stored : Stored arr
  placed : Placed m arr cellOrder g
  covered : Covered arr
  decodes : Decodes arr element digest

/-- A request for the blocks of order `o`, between the visited root and the chunks; each is within the limit. -/
structure Admissible (req : TensorRequest) (cellOrder order e o : ℕ) : Prop where
  bins : 1 ≤ req.nBins
  resolution : 0 < req.resolution
  root_le : order ≤ o
  le_chunk : o + e ≤ cellOrder
  asked : req.blockOrder = some (o : ℤ) ∨ req.blockOrder = none ∧ o + e = cellOrder
  bytes : ((4 ^ (cellOrder - o) * req.nBins * req.dtype.itemsize : ℕ) : ℤ) ≤ req.maxBlockBytes

theorem Admissible.chunk_dvd {req : TensorRequest} {e o order : ℕ} (h : Admissible req cellOrder order e o)
    (hchunk : arr.chunk = 4 ^ e) : arr.chunk ∣ 4 ^ (cellOrder - o) := by
  have hle := h.le_chunk
  rw [hchunk]
  exact pow_dvd_pow 4 (by omega)

variable {req : TensorRequest} {e o order : ℕ} {visited : ℕ → Bool}

/-- Nothing is read of a store without objects. -/
theorem readTensors_unstored (hs : Stored arr) (hD : 4 ^ D ∣ arr.shape) (hnone : arr.ordinals = [])
    (hside : tensorSide arr = .ok (2 ^ e, e)) (hv : Visit m g cellOrder req.subtree order visited)
    (float32 : ℚ → ℚ) (fuel : ℕ) : populatedBlocks arr visited D = [] ∧
      readTensors m arr float32 element fuel req decodeCoverageBitmap coverage = ⟨[], none⟩ := by
  constructor
  · rw [List.eq_nil_iff_forall_not_mem]
    intro s hmem
    obtain ⟨-, hfull, r, hr, -, hraw⟩ := (mem_populatedBlocks hD).mp hmem
    have hpayload := hs.payload (s + r) (by omega) hraw
    rw [hnone] at hpayload
    cases hpayload
  · have hspans : storedChunkSpans arr = [] := by
      rw [storedChunkSpans, hnone]
      rfl
    rw [readTensors, hside]
    dsimp only
    generalize req.subtree = subtree at hv
    cases hv with
    | all =>
      rw [subtreeSpan]
      dsimp only
      rw [Option.map_none, Option.any_none, if_neg Bool.false_ne_true, iterPopulatedChunks, Option.getD_none, hspans]
      rfl
    | @below sub w k h hn hw hk =>
      obtain ⟨label, hnorm⟩ := normalizeSubtree_of_area hn hw
      have hspan : subtreeSpan m arr (some sub) = .ok (some ((0, 0), none), some []) := by
        simp only [subtreeSpan, hspans, hnorm, Except.map]
      rw [hspan]
      dsimp only
      rw [Option.map_some, Option.any_some, if_neg]
      · rfl
      · simp only [ne_eq, not_true_eq_false, false_and, decide_false, Bool.false_eq_true, not_false_eq_true]

/-- A populated chunk has a written word. -/
theorem written_of_chunkOf (hs : Stored arr) (hcover : Covered arr) {x : ℕ} (hx : arr.chunk ∣ x)
    (hfull : x + arr.chunk ≤ arr.shape) {c : ℕ × List (ℕ × Bytes)} (hc : chunkOf arr x = some c) :
    c.1 = x ∧ ∃ i, x ≤ i ∧ i < x + arr.chunk ∧ i < arr.shape ∧ arr.morton i ≠ 0 := by
  rw [chunkOf_eq hfull] at hc
  split_ifs at hc with hempty
  obtain rfl := Option.some.inj hc
  obtain ⟨cell, hcell⟩ := List.exists_mem_of_ne_nil _ hempty
  obtain ⟨hr, hraw, hne⟩ := mem_cellsIn.mp hcell
  exact ⟨rfl, hcover.chunk hs hx (Nat.le_add_right x cell.1) (by omega) (by omega) (by rwa [hraw])⟩

/-- The read is the block loop over the blocks with a populated cell. -/
theorem readTensors_eq (hm : m.Lawful) (hfield : NestedField m arr g cellOrder element digest)
    (hchunk : arr.chunk = 4 ^ e) (hv : Visit m g cellOrder req.subtree order visited)
    (hreq : Admissible req cellOrder order e o) (hexact : Exact m g cellOrder decodeCoverageBitmap coverage occupied)
    (float32 : ℚ → ℚ) : ∃ occupancy, (populatedBlocks arr visited (cellOrder - o) ≠ [] → Occupancy.Sorted occupancy ∧
        ∀ i < arr.shape, (Occupancy.Marks arr occupancy i ↔ Observed arr coverage occupied i)) ∧
      ∀ fuel, readTensors m arr float32 element fuel req decodeCoverageBitmap coverage =
        generate ((populatedBlocks arr visited (cellOrder - o)).map fun s =>
          readBlock m arr float32 element fuel req occupancy (cellOrder - o) (chunksOf arr (cellOrder - o) s)) := by
  have hs := hfield.stored
  have hside := tensorSide_four_pow hchunk
  have hD := hreq.chunk_dvd hchunk
  have hwide : 4 ^ (cellOrder - o) ∣ 4 ^ (cellOrder - order) := by
    apply pow_dvd_pow
    have hle := hreq.root_le
    omega
  have hcells : 4 ^ (cellOrder - o) ∣ arr.shape := by
    rw [hfield.shape]
    exact (Geometry.dvd_cells hfield.fits (hv.root_le.trans hreq.root_le)).1
  by_cases hnone : arr.ordinals = []
  · have hunstored : ∀ fuel, populatedBlocks arr visited (cellOrder - o) = [] ∧
        readTensors m arr float32 element fuel req decodeCoverageBitmap coverage = ⟨[], none⟩ := fun fuel =>
      readTensors_unstored hs hcells hnone hside hv float32 fuel
    refine ⟨none, fun h => absurd (hunstored 0).1 h, fun fuel => ?_⟩
    rw [(hunstored fuel).2, (hunstored fuel).1]
    rfl
  · obtain ⟨span, spans, a, b, hspan, hiter, hvisited, hclip⟩ := subtreeSpan_visit hm hfield.fits hfield.shape hs
      hfield.placed (hfield.covered.written hs) hnone hv (hD.trans hwide)
    have hgroups := blockGroups_visited hs hD hfield.shape hcells hvisited (hwide.trans hvisited.dvd_start)
      (hwide.trans hvisited.dvd_stop)
    have hcoarse : ((span.map Prod.fst).any fun cells =>
        decide (cells ≠ (0, 0) ∧ cells.2 - cells.1 < arr.chunk)) = false := by
      rw [Option.any_eq_false]
      intro cells hmem
      rw [decide_eq_false_iff_not]
      intro h
      rcases (hclip cells hmem).2 with hzero | hwidth
      · exact h.1 hzero
      · have hle := Nat.le_of_dvd (by positivity) (hD.trans hwide)
        omega
    have hsquare : 2 ^ e * 2 ^ e = arr.chunk := by
      rw [hchunk, ← Nat.mul_pow]
    cases hchunks : iterPopulatedChunks arr (span.map Prod.fst) spans with
    | nil =>
      rw [← hiter, hchunks] at hgroups
      have hblocks : populatedBlocks arr visited (cellOrder - o) = [] := List.map_eq_nil_iff.mp hgroups.symm
      refine ⟨none, fun h => absurd hblocks h, fun fuel => ?_⟩
      rw [hblocks, readTensors, hside]
      dsimp only
      rw [hspan]
      dsimp only
      rw [hsquare, hcoarse, if_neg Bool.false_ne_true, hchunks]
      rfl
    | cons first chunks =>
      have hfirst : first ∈ (starts arr.chunk (a, b)).filterMap (chunkOf arr) := by
        rw [← hiter, hchunks]
        exact .head _
      obtain ⟨x, hx, hxc⟩ := List.mem_filterMap.mp hfirst
      obtain ⟨hlow, hhigh, hdvd⟩ := (mem_starts hs.chunk_pos (hD.trans (hwide.trans hvisited.dvd_start))).mp hx
      have hin : x < arr.shape := hhigh.trans_le (hfield.shape ▸ hvisited.le_cells)
      obtain ⟨rfl, hwritten⟩ := written_of_chunkOf hs hfield.covered hdvd (le_of_dvd_of_lt hdvd hs.dvd_shape hin) hxc
      obtain ⟨occupancy, hload, hsorted, hmarks⟩ := loadOccupancy_exact hm hfield.fits hfield.shape hfield.placed hexact
        hwritten
      have hwidth : ∀ cells ∈ span.map Prod.fst, cells.2 - cells.1 = 4 ^ (cellOrder - order) := by
        intro cells hmem
        obtain ⟨hab, hor⟩ := hclip cells hmem
        refine hor.resolve_left fun hzero => ?_
        obtain ⟨rfl, rfl⟩ := Prod.mk.inj (hab.symm.trans hzero)
        exact Nat.not_lt_zero _ hhigh
      have hdepth := blockDepthOf_eq hcells hfield.placed hreq.root_le hreq.le_chunk hreq.asked hwidth hwritten first.1
      refine ⟨occupancy, fun _ => ⟨hsorted, hmarks⟩, fun fuel => ?_⟩
      rw [← hiter, hchunks] at hgroups
      rw [readTensors, hside]
      dsimp only
      rw [hspan]
      dsimp only
      rw [hsquare, hcoarse, if_neg Bool.false_ne_true, hchunks]
      dsimp only
      rw [tensorEvents, hsquare, hload, Except.bind, hdepth, Except.bind]
      dsimp only
      rw [if_neg (not_lt_of_ge hreq.bytes), hgroups, List.map_map]
      rfl

/-- A populated block has a written word. -/
theorem exists_written (hs : Stored arr) (hcover : Covered arr) {s : ℕ} (hD : arr.chunk ∣ 4 ^ D) (hstart : 4 ^ D ∣ s)
    (hfull : s + 4 ^ D ≤ arr.shape) (hne : ∃ r < 4 ^ D, arr.raw (s + r) ≠ []) :
    ∃ r < 4 ^ D, arr.morton (s + r) ≠ 0 := by
  obtain ⟨r, hr, hraw⟩ := hne
  have hx : arr.chunk ∣ (s + r) / arr.chunk * arr.chunk := Nat.dvd_mul_left _ _
  have hle := Nat.div_mul_le_self (s + r) arr.chunk
  have hlt : s + r < (s + r) / arr.chunk * arr.chunk + arr.chunk := Nat.lt_div_mul_add hs.chunk_pos
  obtain ⟨i, hlow, hhigh, -, hnz⟩ := hcover.chunk hs hx hle hlt (by omega) hraw
  have hstop := le_of_dvd_of_lt hx (Nat.dvd_add (hD.trans hstart) hD) (by omega : _ < s + 4 ^ D)
  have hbegin := le_of_dvd_of_lt (hD.trans hstart) (Nat.dvd_add hx (Nat.dvd_refl _)) (by omega : s < _)
  refine ⟨i - s, by omega, ?_⟩
  rwa [Nat.add_sub_cancel' (by omega)]

/-- One round of the block loop. -/
theorem readBlock_event (hm : m.Lawful) (hfield : NestedField m arr g cellOrder element digest)
    (hchunk : arr.chunk = 4 ^ e) (hv : Visit m g cellOrder req.subtree order visited)
    (hreq : Admissible req cellOrder order e o) (hplaces : Deinterleaves m (cellOrder - o)) {s : ℕ}
    (hmem : s ∈ populatedBlocks arr visited (cellOrder - o)) {occupancy : Option Occupancy}
    (hsorted : Occupancy.Sorted occupancy) {observed : ℕ → Prop}
    (hmarks : ∀ i < arr.shape, (Occupancy.Marks arr occupancy i ↔ observed i)) (float32 : ℚ → ℚ) :
    ∃ enough, ∀ fuel, enough ≤ fuel → BlockEvent digest float32 m arr g cellOrder (cellOrder - o) req observed s
      (readBlock m arr float32 element fuel req occupancy (cellOrder - o) (chunksOf arr (cellOrder - o) s)) := by
  have hs := hfield.stored
  have hD := hreq.chunk_dvd hchunk
  obtain ⟨hcells, hroot⟩ := Geometry.dvd_cells hfield.fits (hv.root_le.trans hreq.root_le)
  rw [← hfield.shape] at hcells
  obtain ⟨hstart, hfull, r, hr, -, hraw⟩ := (mem_populatedBlocks hcells).mp hmem
  have hpopulated : ∃ r < 4 ^ (cellOrder - o), arr.raw (s + r) ≠ [] := ⟨r, hr, hraw⟩
  have hne := (chunksOf_ne_nil hs hD hfull).mpr hpopulated
  obtain ⟨outcome, ⟨enough, hwindow⟩, -⟩ := exists_windowed hfield.decodes hfull hpopulated hreq.bins hreq.resolution
  refine ⟨enough, fun fuel hfuel => ?_⟩
  cases outcome with
  | error e =>
    rw [readBlock_refuses hs hfield.decodes hD hstart hfull hne occupancy (hwindow fuel hfuel)]
    exact .refused ⟨enough, hwindow⟩
  | ok window =>
    obtain ⟨block, hread, hblock⟩ := readBlock_emits hm hplaces hs hfield.placed hfield.decodes hD (Nat.sub_le _ _)
      hroot hstart hfull hne (exists_written hs hfield.covered hD hstart hfull hpopulated) hsorted hmarks
      (hwindow fuel hfuel)
    rw [hread]
    exact .emitted ⟨enough, hwindow⟩ hblock

theorem Windowed.unique {digests : List Digest} {outcome outcome' : Except ZRangeError (ℚ × ℕ × ℚ)}
    (h : Windowed digests req outcome) (h' : Windowed digests req outcome') : outcome = outcome' := by
  obtain ⟨enough, h⟩ := h
  obtain ⟨enough', h'⟩ := h'
  have heq := (h (max enough enough') (Nat.le_max_left _ _)).symm.trans (h' _ (Nat.le_max_right _ _))
  exact Option.some.inj heq

/-- The blocks of a read, with a bijective deinterleave: in increasing order, one for each subtree with a
visited populated cell, up to the first one whose window is refused. Each place of a block holds its one
cell: the counts of the cell's own digest under the block's window, or zeros; and 2, 1 or 0. -/
theorem readTensors_blocks (hm : m.Lawful) (hfield : NestedField m arr g cellOrder element digest)
    (hchunk : arr.chunk = 4 ^ e) (hv : Visit m g cellOrder req.subtree order visited)
    (hreq : Admissible req cellOrder order e o) (hplaces : Deinterleaves m (cellOrder - o))
    (hexact : Exact m g cellOrder decodeCoverageBitmap coverage occupied) (float32 : ℚ → ℚ) :
    let blocks := populatedBlocks arr visited (cellOrder - o)
    let read fuel := readTensors m arr float32 element fuel req decodeCoverageBitmap coverage
    blocks.Pairwise (· < ·) ∧ ∃ enough, ∀ fuel, enough ≤ fuel →
      (∃ events, read fuel = generate events ∧ List.Forall₂ (BlockEvent digest float32 m arr g cellOrder
        (cellOrder - o) req (Observed arr coverage occupied)) blocks events) ∧
      ((∀ s ∈ blocks, ∃ window, Windowed (blockDigests digest arr s (4 ^ (cellOrder - o))) req (.ok window)) →
        (read fuel).raised = none ∧ List.Forall₂ (fun s block => ∃ window,
          Windowed (blockDigests digest arr s (4 ^ (cellOrder - o))) req (.ok window) ∧
          BlockHolds digest float32 m arr g cellOrder (cellOrder - o) req.dtype (Observed arr coverage occupied) s
            window block) blocks (read fuel).yields) := by
  obtain ⟨occupancy, hocc, hread⟩ := readTensors_eq hm hfield hchunk hv hreq hexact float32
  intro blocks read
  refine ⟨(pairwise_starts (by positivity) _).filter _, ?_⟩
  have hevents : ∀ s ∈ blocks, ∃ enough, ∀ fuel, enough ≤ fuel → BlockEvent digest float32 m arr g cellOrder
      (cellOrder - o) req (Observed arr coverage occupied) s (readBlock m arr float32 element fuel req occupancy
        (cellOrder - o) (chunksOf arr (cellOrder - o) s)) := by
    intro s hs
    obtain ⟨hsorted, hmarks⟩ := hocc (List.ne_nil_of_mem hs)
    exact readBlock_event hm hfield hchunk hv hreq hplaces hs hsorted hmarks float32
  obtain ⟨enough, hall⟩ := exists_enough hevents
  refine ⟨enough, fun fuel hfuel => ?_⟩
  have hloop : List.Forall₂ (BlockEvent digest float32 m arr g cellOrder (cellOrder - o) req
      (Observed arr coverage occupied)) blocks (blocks.map fun s => readBlock m arr float32 element fuel req occupancy
        (cellOrder - o) (chunksOf arr (cellOrder - o) s)) := by
    rw [List.forall₂_map_right_iff, List.forall₂_same]
    exact hall fuel hfuel
  refine ⟨⟨_, hread fuel, hloop⟩, fun hok => ?_⟩
  have hyields : read fuel = generate (blocks.map fun s => readBlock m arr float32 element fuel req occupancy
      (cellOrder - o) (chunksOf arr (cellOrder - o) s)) := hread fuel
  rw [hyields]
  apply generate_yields hloop
  intro s hs event hevent
  obtain ⟨window, hwindow⟩ := hok s hs
  cases hevent with
  | refused h => cases hwindow.unique h
  | @emitted window' block h hblock => exact ⟨block, rfl, window', h, hblock⟩

/-- A rank's even bits are its column and its odd bits its row. -/
def deinterleave : ℕ → ℕ → ℕ × ℕ
  | _, 0 => (0, 0)
  | rank, depth + 1 =>
    (2 * (deinterleave (rank / 4) depth).1 + rank % 2, 2 * (deinterleave (rank / 4) depth).2 + rank / 2 % 2)

/-- The numbered words, with the deinterleave of a Z-order curve. -/
def zOrder : Mortie := { numbered with rankToXy := deinterleave }

theorem deinterleaves_zOrder (depth : ℕ) : Deinterleaves zOrder depth := by
  induction depth with
  | zero =>
    refine ⟨fun rank _ => ?_, fun rank hrank rank' hrank' _ => ?_, fun p hp => ⟨0, ?_, ?_⟩⟩
    · exact ⟨Nat.one_pos, Nat.one_pos⟩
    · have hrank : rank < 1 := hrank
      have hrank' : rank' < 1 := hrank'
      omega
    · exact Nat.one_pos
    · obtain ⟨hx, hy⟩ := hp
      exact Prod.ext (Nat.lt_one_iff.mp hx).symm (Nat.lt_one_iff.mp hy).symm
  | succ depth ih =>
    have hfour : 4 ^ (depth + 1) = 4 * 4 ^ depth := Nat.pow_succ'
    have htwo : 2 ^ (depth + 1) = 2 * 2 ^ depth := Nat.pow_succ'
    refine ⟨fun rank hrank => ?_, fun rank hrank rank' hrank' heq => ?_, fun p hp => ?_⟩
    · have hrank : rank < 4 ^ (depth + 1) := hrank
      obtain ⟨hx, hy⟩ := ih.mapsTo (show rank / 4 < 4 ^ depth by omega)
      have hx : (deinterleave (rank / 4) depth).1 < 2 ^ depth := hx
      have hy : (deinterleave (rank / 4) depth).2 < 2 ^ depth := hy
      constructor
      · show 2 * (deinterleave (rank / 4) depth).1 + rank % 2 < 2 ^ (depth + 1)
        omega
      · show 2 * (deinterleave (rank / 4) depth).2 + rank / 2 % 2 < 2 ^ (depth + 1)
        omega
    · have hrank : rank < 4 ^ (depth + 1) := hrank
      have hrank' : rank' < 4 ^ (depth + 1) := hrank'
      obtain ⟨hx, hy⟩ := Prod.mk.inj heq
      have hquot : rank / 4 = rank' / 4 := by
        apply ih.injOn (show rank / 4 < 4 ^ depth by omega) (show rank' / 4 < 4 ^ depth by omega)
        exact Prod.ext (show (deinterleave (rank / 4) depth).1 = (deinterleave (rank' / 4) depth).1 by omega)
          (show (deinterleave (rank / 4) depth).2 = (deinterleave (rank' / 4) depth).2 by omega)
      omega
    · obtain ⟨hx, hy⟩ := hp
      have hx : p.1 < 2 ^ (depth + 1) := hx
      have hy : p.2 < 2 ^ (depth + 1) := hy
      obtain ⟨rank, hrank, hplace⟩ := ih.surjOn (Set.mk_mem_prod (show p.1 / 2 < 2 ^ depth by omega)
        (show p.2 / 2 < 2 ^ depth by omega))
      have hrank : rank < 4 ^ depth := hrank
      have hplace : deinterleave rank depth = (p.1 / 2, p.2 / 2) := hplace
      have hquot : (4 * rank + (2 * (p.2 % 2) + p.1 % 2)) / 4 = rank := by omega
      refine ⟨4 * rank + (2 * (p.2 % 2) + p.1 % 2), ?_, ?_⟩
      · show 4 * rank + (2 * (p.2 % 2) + p.1 % 2) < 4 ^ (depth + 1)
        omega
      · have hrow : 2 * (p.1 / 2) + (4 * rank + (2 * (p.2 % 2) + p.1 % 2)) % 2 = p.1 := by omega
        have hcol : 2 * (p.2 / 2) + (4 * rank + (2 * (p.2 % 2) + p.1 % 2)) / 2 % 2 = p.2 := by omega
        show deinterleave (4 * rank + (2 * (p.2 % 2) + p.1 % 2)) (depth + 1) = p
        rw [deinterleave, hquot, hplace]
        exact Prod.ext hrow hcol

theorem area_zOrder {w k h : ℕ} : Area zOrder w k h ↔ Area numbered w k h :=
  ⟨fun ha => ⟨ha.decimal, ha.healpix, ha.inRange⟩, fun ha => ⟨ha.decimal, ha.healpix, ha.inRange⟩⟩

theorem zOrder_lawful : zOrder.Lawful where
  unique h h' := numbered_lawful.unique (area_zOrder.mp h) (area_zOrder.mp h')
  clip h hj := by
    obtain ⟨a, hclip, ha⟩ := numbered_lawful.clip (area_zOrder.mp h) hj
    exact ⟨a, hclip, area_zOrder.mpr ha⟩

/-- The sixteen cells once more; cells 5 and 6 have no payload, and cell 6 has no word. -/
def gappedCells : Ragged :=
  { sixteenCells with
    raw := fun i => if i = 5 ∨ i = 6 then [] else [UInt8.ofNat i]
    morton := fun i => if i = 6 then 0 else 4 ^ 3 - 3 + (48 + i) }

def gappedDigest (i : ℕ) : Digest := [⟨(UInt8.ofNat i).toNat, 1⟩]

/-- One block of all sixteen cells. -/
def wholeAxis : TensorRequest where
  nBins := 2
  resolution := 1
  bottom := 0
  top := 1
  fit := .degradeResolution
  dtype := .uint32
  blockOrder := some 0
  subtree := none
  maxBlockBytes := 1024

/-- A sidecar that holds all sixteen words. -/
def allOccupied (_ : Bytes) (_ : ℕ) (_ : ℤ) : Except String (List ℕ) := .ok (List.range' 109 16)

theorem gappedCells_field : NestedField zOrder gappedCells (.subtree 2 3) 2 byteDigest gappedDigest where
  fits := ⟨le_rfl, by decide⟩
  shape := rfl
  stored := by
    refine ⟨by decide, by decide, by decide, by decide, by decide, by decide, ?_⟩
    intro i hi _
    have hi : i < 16 := hi
    show i / 8 ∈ [1, 0]
    rw [List.mem_pair]
    omega
  placed i hi hnz := by
    have hi : i < 16 := hi
    have hstart : (Geometry.subtree 2 3).start = 48 := rfl
    have hne : i ≠ 6 := by
      intro h
      exact hnz (if_pos h)
    apply area_zOrder.mpr
    apply area_numbered.mpr
    refine ⟨?_, by omega⟩
    show (if i = 6 then 0 else 4 ^ 3 - 3 + (48 + i)) = _
    rw [if_neg hne, hstart]
  covered := by
    intro o _ x hdvd _ _ hx
    have hx : x < 16 := hx
    have hdvd : 4 ∣ x := hdvd
    refine ⟨x, le_rfl, Nat.lt_add_of_pos_right (by decide), hx, ?_⟩
    show (if x = 6 then 0 else 4 ^ 3 - 3 + (48 + x)) ≠ 0
    rw [if_neg (by omega)]
    omega
  decodes i hi hne := by
    have hraw : gappedCells.raw i = [UInt8.ofNat i] := by
      by_cases h : i = 5 ∨ i = 6
      · exact absurd (if_pos h) hne
      · exact if_neg h
    rw [hraw]
    exact ⟨rfl, List.cons_ne_nil _ _⟩

theorem gappedCells_exact : Exact zOrder (.subtree 2 3) 2 allOccupied (some (.bitmap (2 : ℕ) [])) (· < 16) := by
  have hword : ∀ i < 16, Area zOrder (109 + i) 2 ((Geometry.subtree 2 3).start + i) := by
    intro i hi
    have hstart : (Geometry.subtree 2 3).start = 48 := rfl
    apply area_zOrder.mpr
    apply area_numbered.mpr
    omega
  apply Exact.bitmap rfl (area_zOrder.mpr (area_numbered.mpr ⟨rfl, by decide⟩ : Area numbered 4 0 3)) rfl (by decide)
  · intro i hi
    exact ⟨109 + i, List.mem_range'_1.mpr (by omega), hword i hi⟩
  · intro w hw
    have hw := List.mem_range'_1.mp hw
    refine ⟨w - 109, by omega, ?_⟩
    have hsame := hword (w - 109) (by omega)
    rwa [Nat.add_sub_cancel' hw.1] at hsame

/-- Of the gapped cells, 4 is populated and 5 and 6 are occupied; only 5 shows it. -/
theorem readTensors_blocks_gappedCells :
    ∃ enough, ∀ fuel, enough ≤ fuel → ∃ block, readTensors zOrder gappedCells id byteDigest fuel wholeAxis
        allOccupied (some (.bitmap (2 : ℕ) [])) = ⟨[block], none⟩ ∧
      block.mask (rankToRowcol zOrder 4 2) = 2 ∧ block.mask (rankToRowcol zOrder 5 2) = 1 ∧
      block.mask (rankToRowcol zOrder 6 2) = 0 := by
  have hreq : Admissible wholeAxis 2 0 1 0 := by
    refine ⟨by decide, by norm_num [wholeAxis], le_rfl, by decide, .inl rfl, by decide⟩
  obtain ⟨-, enough, hread⟩ := readTensors_blocks zOrder_lawful gappedCells_field rfl
    (.all : Visit zOrder (.subtree 2 3) 2 none _ _) hreq (deinterleaves_zOrder 2) gappedCells_exact id
  refine ⟨enough, fun fuel hfuel => ?_⟩
  have hblocks : populatedBlocks gappedCells (fun _ => true) (2 - 0) = [0] := by decide +kernel
  have hwindows : ∀ s ∈ populatedBlocks gappedCells (fun _ => true) (2 - 0), ∃ window,
      Windowed (blockDigests gappedDigest gappedCells s (4 ^ (2 - 0))) wholeAxis
        (.ok window) := by
    intro s hs
    rw [hblocks, List.mem_singleton] at hs
    rw [hs]
    have hres : 0 < wholeAxis.resolution := by norm_num [wholeAxis]
    obtain ⟨outcome, hwindow, hok⟩ := exists_windowed (D := 2) (s := 0) gappedCells_field.decodes (by decide)
      ⟨0, by decide, by decide⟩ (by decide) hres
    obtain ⟨window, rfl⟩ := hok rfl
    exact ⟨window, hwindow⟩
  obtain ⟨hraised, hyields⟩ := (hread fuel hfuel).2 hwindows
  rw [hblocks] at hyields
  obtain ⟨block, rest, ⟨window, -, hblock⟩, hrest, hall⟩ := List.forall₂_cons_left_iff.mp hyields
  have hraised : (readTensors zOrder gappedCells id byteDigest fuel wholeAxis allOccupied
    (some (.bitmap (2 : ℕ) []))).raised = none := hraised
  have hall : (readTensors zOrder gappedCells id byteDigest fuel wholeAxis allOccupied
    (some (.bitmap (2 : ℕ) []))).yields = block :: rest := hall
  rw [List.forall₂_nil_left_iff.mp hrest] at hall
  have hplace : ∀ i < 16, PlaceHolds gappedDigest id gappedCells .uint32 window
      (Observed gappedCells (some (.bitmap (2 : ℕ) [])) (· < 16)) i (block.tensor (rankToRowcol zOrder i 2))
      (block.mask (rankToRowcol zOrder i 2)) := by
    intro i hi
    obtain ⟨hcol, hrow⟩ := (deinterleaves_zOrder 2).mapsTo (show i < 4 ^ 2 from hi)
    obtain ⟨r, -, -, honly, hholds⟩ := hblock.place (rankToRowcol zOrder i 2) hrow hcol
    rw [← honly i hi rfl, Nat.zero_add] at hholds
    exact hholds
  have hunwritten : ¬(some (Coverage.bitmap (2 : ℕ) []) = some .full ∨ gappedCells.morton 6 ≠ 0) := by
    intro h
    cases h with
    | inl h => cases h
    | inr h => exact h rfl
  refine ⟨block, ?_, ?_, ?_, ?_⟩
  · rw [← hraised, ← hall]
  · exact ((hplace 4 (by decide)).populated (by decide)).2
  · exact (hplace 5 (by decide)).marked rfl ⟨by decide, .inr (by decide)⟩
  · exact (hplace 6 (by decide)).unmarked rfl fun h => hunwritten h.2

/-- An occupied cell without a word does not show in the mask. -/
theorem readTensors_mask_unwritten :
    NestedField zOrder gappedCells (.subtree 2 3) 2 byteDigest gappedDigest ∧
      Exact zOrder (.subtree 2 3) 2 allOccupied (some (.bitmap (2 : ℕ) [])) (· < 16) ∧
      gappedCells.raw 6 = [] ∧
      (readTensors zOrder gappedCells id byteDigest 8 wholeAxis allOccupied
        (some (.bitmap (2 : ℕ) []))).yields.map (fun block => block.mask (rankToRowcol zOrder 6 2)) = [0] := by
  refine ⟨gappedCells_field, gappedCells_exact, rfl, ?_⟩
  decide +kernel

end Events

end Zagg.Readers
