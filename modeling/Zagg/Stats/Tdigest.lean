import Mathlib.Algebra.Ring.Rat
import Mathlib.Data.List.Lex
import Mathlib.Data.List.Sort
import Mathlib.Data.Prod.Lex
import Mathlib.Data.Rat.Defs
import Mathlib.Algebra.Order.Ring.Unbundled.Rat
import Mathlib.Algebra.BigOperators.Group.List.Basic

/-!
# The k-way t-digest merge

A digest is a list of `(mean, weight)` centroids; a located or temporal field carries
one word per centroid and channel beside it. `mergeTdigestsKway` concatenates all
centroids, sorts them on `(mean, weight, words)` and compresses the sorted list once,
so it does not see the order of its inputs. What numpy and mortie compute on a float
or on packed words is taken as given: the `k1` scale, the `float32` cast, the common
ancestor of morton words and the envelope of toc words.
-/
namespace Zagg.Stats

/-- The companion channels, in the fixed order of the kernel's return values. -/
inductive Channel
  | locations
  | temporal
deriving DecidableEq

instance : ToString Channel where
  toString
    | .locations => "locations"
    | .temporal => "temporal"

structure Centroid where
  mean : ℚ
  weight : ℚ
deriving DecidableEq

abbrev Digest := List Centroid

/-- One channel's words, aligned with the centroids of a digest. -/
abbrev Words := List Nat

structure Numerics where
  k1 : Nat → ℚ → ℚ
  float32 : ℚ → ℚ
  commonAncestor : Words → Nat
  tocsReduce : Words → Nat

/-- A centroid with its word in each declared channel: the sort row. -/
structure Row where
  mean : ℚ
  weight : ℚ
  words : List Nat
deriving DecidableEq

/-- The `lexsort` key: mean, weight, then the channels' words in order. -/
def Row.key (r : Row) : ℚ ×ₗ (ℚ ×ₗ List Nat) := toLex (r.mean, toLex (r.weight, r.words))

theorem Row.key_injective : Function.Injective Row.key := by
  rintro ⟨m, w, ws⟩ ⟨m', w', ws'⟩ h
  simp only [Row.key, EmbeddingLike.apply_eq_iff_eq, Prod.mk.injEq] at h
  simp [h]

def lexsort (rows : List Row) : List Row := rows.insertionSort fun a b => a.key ≤ b.key

theorem lexsort_perm {rows rows' : List Row} (h : rows.Perm rows') :
    lexsort rows = lexsort rows' := by
  have : Std.Total fun a b : Row => a.key ≤ b.key := ⟨fun a b => le_total a.key b.key⟩
  have : IsTrans Row fun a b : Row => a.key ≤ b.key := ⟨fun _ _ _ => le_trans⟩
  have : Std.Antisymm fun a b : Row => a.key ≤ b.key :=
    ⟨fun _ _ h h' => Row.key_injective (le_antisymm h h')⟩
  exact ((List.perm_insertionSort _ rows).trans
    (h.trans (List.perm_insertionSort _ rows').symm)).eq_of_pairwise'
      (List.pairwise_insertionSort _ rows) (List.pairwise_insertionSort _ rows')

section
variable (num : Numerics)

/-- Prefix sums: entry `i` is the weight up to and with centroid `i`. -/
def cumsum (weights : List ℚ) : List ℚ := (weights.scanl (· + ·) 0).tail

/-- The greedy starts: from `s` a centroid takes what stays within one unit of `k1`,
at least itself. `fuel` bounds the rounds, one centroid each. -/
def starts (kLeft0 : ℚ) (kRight : List ℚ) : (fuel s : Nat) → List Nat
  | 0, _ => []
  | fuel + 1, s =>
    if s < kRight.length then
      let kLeft := if s = 0 then kLeft0 else kRight.getD (s - 1) 0
      let e := (kRight.takeWhile (· ≤ kLeft + 1)).length
      s :: starts kLeft0 kRight fuel (if e ≤ s then s + 1 else e)
    else []

/-- The runs between consecutive starts. -/
def segments (rows : List Row) : List Nat → List (List Row)
  | [] => []
  | [s] => [rows.drop s]
  | s :: e :: ss => (rows.drop s).take (e - s) :: segments rows (e :: ss)

/-- `_compress`: the sorted rows, cut into the runs that become one centroid each. -/
def compress (delta : Nat) (rows : List Row) : List (List Row) :=
  let cumw := cumsum (rows.map Row.weight)
  let total := cumw.getLastD 0
  let kRight := cumw.map fun c => num.k1 delta (c / total)
  segments rows (starts (num.k1 delta 0) kRight rows.length 0)

def channelWord (channel : Channel) (words : Words) : Nat :=
  match channel with
  | .locations => if words.length = 1 then words.headD 0 else num.commonAncestor words
  | .temporal => num.tocsReduce words

/-- A digest with its declared channels' words. -/
structure Part where
  digest : Digest
  words : List Words
deriving DecidableEq

def Part.rows (p : Part) : List Row :=
  p.digest.zipIdx.map fun c => ⟨c.1.mean, c.1.weight, p.words.map fun v => v.getD c.2 0⟩

/-- One run's output centroid: the weighted mean and the summed weight. -/
def centroidOf (run : List Row) : Centroid :=
  let weight := (run.map Row.weight).sum
  ⟨num.float32 ((run.map fun r => r.mean * r.weight).sum / weight), num.float32 weight⟩

def mergeTdigestsKway (delta : Nat) (declared : List Channel) (parts : List Part) : Part :=
  match parts.filter fun p => p.digest ≠ [] with
  | [] => ⟨[], declared.map fun _ => []⟩
  | [p] => ⟨p.digest.map fun c => ⟨num.float32 c.mean, num.float32 c.weight⟩, p.words⟩
  | kept =>
    let runs := compress num delta (lexsort (kept.flatMap Part.rows))
    ⟨runs.map (centroidOf num),
      declared.zipIdx.map fun c =>
        runs.map fun run => channelWord num c.1 (run.map fun r => r.words.getD c.2 0)⟩

/-- The first channel vector that is not aligned with its digest, as the error names it. -/
def misaligned (declared : List Channel) (keep : List Part) : Option String :=
  declared.zipIdx.findSome? fun c => keep.findSome? fun p =>
    let words := (p.words.getD c.2 []).length
    let centroids := p.digest.length
    if words ≠ centroids then
      some (s!"{c.1} sibling has {words} words for a {centroids}-centroid digest — the " ++
        "channel must be row-aligned with its payload (spec §1.1)")
    else none

/-- `fold_digests`: one output cell's accumulated digests, each with its channels. -/
def foldDigests (delta : Nat) (declared : List Channel) (cell : List Part) :
    Except String Part :=
  let keep := cell.filter fun p => p.digest ≠ []
  match misaligned declared keep with
  | some msg => .error msg
  | none =>
    match keep with
    | [] => .ok ⟨[], declared.map fun _ => []⟩
    | [p] => .ok p
    | kept => .ok (mergeTdigestsKway num delta declared kept)

/-- One word per centroid in every declared channel. -/
def Part.Aligned (declared : List Channel) (p : Part) : Prop :=
  ∀ c < declared.length, (p.words.getD c []).length = p.digest.length

theorem misaligned_eq_none {declared : List Channel} {keep : List Part}
    (h : ∀ p ∈ keep, p.Aligned declared) : misaligned declared keep = none := by
  rw [misaligned, List.findSome?_eq_none_iff]
  intro c hc
  rw [List.findSome?_eq_none_iff]
  intro p hp
  have hlt : c.2 < declared.length := List.snd_lt_of_mem_zipIdx hc
  simp only [h p hp c.2 hlt, ne_eq, not_true_eq_false, if_false]

theorem mergeTdigestsKway_perm (delta : Nat) (declared : List Channel) {parts parts' : List Part}
    (h : parts.Perm parts') :
    mergeTdigestsKway num delta declared parts = mergeTdigestsKway num delta declared parts' := by
  have hk := h.filter fun p => decide (p.digest ≠ [])
  simp only [mergeTdigestsKway]
  generalize parts.filter _ = kept at hk ⊢
  generalize parts'.filter _ = kept' at hk ⊢
  match kept, kept', hk with
  | [], _, hk => rw [hk.nil_eq]
  | [p], _, hk => rw [List.singleton_perm.mp hk]
  | p :: q :: kept, kept', hk =>
    have hlen := hk.length_eq
    match kept', hk, hlen with
    | p' :: q' :: kept', hk, _ =>
      have hrows := lexsort_perm (hk.flatMap_right Part.rows)
      simp only [hrows]

/-- What an aligned cell folds to. -/
def foldAligned (delta : Nat) (declared : List Channel) (cell : List Part) : Part :=
  match cell.filter fun p => p.digest ≠ [] with
  | [] => ⟨[], declared.map fun _ => []⟩
  | [p] => p
  | kept => mergeTdigestsKway num delta declared kept

theorem foldDigests_aligned (delta : Nat) {declared : List Channel} {cell : List Part}
    (h : ∀ p ∈ cell, p.Aligned declared) :
    foldDigests num delta declared cell = .ok (foldAligned num delta declared cell) := by
  have hkeep : ∀ p ∈ cell.filter fun p => p.digest ≠ [], p.Aligned declared :=
    fun p hp => h p (List.mem_of_mem_filter hp)
  have hnone := misaligned_eq_none hkeep
  simp only [foldDigests, foldAligned, hnone]
  split <;> rfl

end

/-- The scale on the points `0`, `1 / 2` and `1`, and words of single centroids. -/
def smallNumerics : Numerics where
  k1 delta q := delta * q
  float32 q := q
  commonAncestor words := words.headD 0
  tocsReduce words := words.headD 0

end Zagg.Stats
