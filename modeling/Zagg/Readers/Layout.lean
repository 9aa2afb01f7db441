import Mathlib.Data.Int.Lemmas
import Mathlib.Data.Nat.Size
import Mathlib.Tactic.Linarith
import Mathlib.Tactic.Ring

/-!
# Subtree spans

On a nested cells axis a cell's position is its HEALPix nested id, less the start of the
axis root, so the cells below a morton word are a contiguous span. The span is derived
from the word and from one written cell, the anchor, whose own placement is checked.
-/
namespace Zagg.Readers

/-- What the readers call in `mortie`. A word is the packed morton word of an area; zero
is the unwritten fill. -/
structure Mortie where
  decimalRepr : ℕ → Except String (List Char)
  fromDecimal : List Char → Except String ℕ
  clip2order : ℤ → ℕ → Except String ℕ
  mort2healpix : ℕ → ℕ
  rankToXy : ℕ → ℕ → ℕ × ℕ

variable (m : Mortie)

def mortonDecimal (word : ℤ) : Except String (List Char) :=
  if word < 0 then
    .error (s!"packed morton word must be non-negative (got {word}); a signed decimal id " ++
      "like '-4211322' is the external form — parse it with morton_word(str(id))")
  else m.decimalRepr word.toNat

def mortonWord (label : List Char) : Except String ℕ := m.fromDecimal label

/-- The order a decimal string spells: its digits after the base cell. -/
def decimalOrder (decimal : List Char) : ℤ :=
  decimal.length - if decimal.head? = some '-' then 2 else 1

/-- The two currencies of `subtree=`. -/
inductive Subtree
  | word (w : ℤ)
  | label (decimal : List Char)

def normalizeSubtree (subtree : Subtree) : Except String (ℤ × List Char × ℤ) := do
  let word ← match subtree with
    | .label decimal => (mortonWord m decimal).map Int.ofNat
    | .word w => .ok w
  let decimal ← mortonDecimal m word
  return (word, decimal, decimalOrder decimal)

/-- `(n.bit_length() - 1) // 2`. -/
def axisDepth (n : ℕ) : ℕ := (Nat.size n - 1) / 2

/-- A cell span, and the warning that came with it. -/
abbrev Span := (ℕ × ℕ) × Option String

def notNested (field : String) (anchorIndex : ℕ) (decimal : List Char) (position : ℤ) : String :=
  s!"'{field}'s cells axis is not in canonical nested placement: cell {anchorIndex} carries " ++
    s!"morton {String.ofList decimal}, whose nested id puts it at axis position {position}. A " ++
    "subtree span is derived arithmetically (cell position == nested id minus the axis root's " ++
    "start), so this axis would yield the wrong cells"

/-- The order of the axis root, the root word and where its own span starts. The fullsphere
has no root. -/
def axisRoot (anchor : ℕ) (cellOrder : ℤ) (nCells : ℕ) : Except String (ℤ × ℕ × ℕ) :=
  let depth := axisDepth nCells
  let rootOrder := cellOrder - depth
  if 4 ^ depth = nCells then
    (m.clip2order rootOrder anchor).map fun root =>
      (rootOrder, root, m.mort2healpix root * 4 ^ depth)
  else .ok (rootOrder, 0, 0)

def subtreeCellSpan (subtree : Subtree) (anchor anchorIndex : ℕ) (cellOrder : ℤ) (nCells : ℕ)
    (field : String) : Except String Span := do
  let (word, decimal, order) ← normalizeSubtree m subtree
  if cellOrder < order then
    throw (s!"subtree {String.ofList decimal} is order {order} — deeper than '{field}'s " ++
      s!"order-{cellOrder} cells axis, so nothing stored can be its descendant (a subtree " ++
      "names an ancestor, at any order up to the cell order)")
  let width : ℤ := 4 ^ (cellOrder - order).toNat
  let lo : ℤ := m.mort2healpix word.toNat * width
  let (rootOrder, root, rootStart) ← axisRoot m anchor cellOrder nCells
  let position : ℤ := m.mort2healpix anchor - rootStart
  if position ≠ anchorIndex then
    let label ← mortonDecimal m anchor
    throw (notNested field anchorIndex label position)
  if 4 ^ axisDepth nCells ≠ nCells then
    return ((lo.toNat, (lo + width).toNat), none)
  let start := max (lo - rootStart) 0
  let stop := min (lo - rootStart + width) nCells
  if stop ≤ start then
    let label ← mortonDecimal m root
    return ((0, 0), some (s!"subtree {String.ofList decimal} is outside this axis' " ++
      s!"order-{rootOrder} root {String.ofList label} — yielding nothing"))
  return ((start.toNat, stop.toNat), none)

section Geometry

/-- `word` is the area word of the cell of this order and nested id: the one its decimal string
parses back to. -/
structure Area (word order nested : ℕ) : Prop where
  decimal : ∃ label, m.decimalRepr word = .ok label ∧ m.fromDecimal label = .ok word ∧
    decimalOrder label = order
  healpix : m.mort2healpix word = nested
  inRange : nested < 12 * 4 ^ order

/-- `mortie` on area words: one area word for a cell, and the area word of a cell's ancestor at an
order. -/
structure Mortie.Lawful : Prop where
  unique : ∀ {w w' k h : ℕ}, Area m w k h → Area m w' k h → w = w'
  clip : ∀ {w k h j : ℕ}, Area m w k h → j ≤ k →
    ∃ a, m.clip2order j w = .ok a ∧ Area m a j (h / 4 ^ (k - j))

/-- The cells axes of a store: all base cells at one order, or the subtree of one root. -/
inductive Geometry
  | fullsphere
  | subtree (depth root : ℕ)

/-- The number of cells. -/
def Geometry.cells (cellOrder : ℕ) : Geometry → ℕ
  | .fullsphere => 12 * 4 ^ cellOrder
  | .subtree depth _ => 4 ^ depth

/-- The nested id of the axis' first cell. -/
def Geometry.start : Geometry → ℕ
  | .fullsphere => 0
  | .subtree depth root => root * 4 ^ depth

/-- The root lies on the sphere, at an order the cells are below. -/
def Geometry.Fits (cellOrder : ℕ) : Geometry → Prop
  | .fullsphere => True
  | .subtree depth root => depth ≤ cellOrder ∧ root < 12 * 4 ^ (cellOrder - depth)

/-- The cell with this nested id is a descendant of the order-`k` cell `h`. -/
def below (cellOrder k h nested : ℕ) : Bool := nested / 4 ^ (cellOrder - k) == h

theorem size_four_pow (d : ℕ) : Nat.size (4 ^ d) = 2 * d + 1 := by
  have h4 : (4 : ℕ) ^ d = 2 ^ (2 * d) := by rw [pow_mul]; norm_num
  rw [h4, Nat.size_pow]

/-- A power of four is recognised, and its depth read off. -/
theorem axisDepth_four_pow (d : ℕ) : axisDepth (4 ^ d) = d := by
  rw [axisDepth, size_four_pow]
  omega

/-- The fullsphere is not a power of four: three divides it. -/
theorem four_pow_ne_fullsphere (d c : ℕ) : 4 ^ d ≠ 12 * 4 ^ c := by
  intro h
  have h1 : 4 ^ d % 3 = 1 := by rw [Nat.pow_mod, Nat.one_pow]
  omega

variable {m} {cellOrder : ℕ}

/-- The argument names this word, in either currency. -/
def Subtree.Names (m : Mortie) (w : ℕ) : Subtree → Prop
  | .word z => z = w
  | .label decimal => m.fromDecimal decimal = .ok w

theorem mortonDecimal_of_area {w k h : ℕ} (ha : Area m w k h) :
    ∃ label, mortonDecimal m w = .ok label ∧ decimalOrder label = k := by
  obtain ⟨label, hlabel, -, horder⟩ := ha.decimal
  refine ⟨label, ?_, horder⟩
  rw [mortonDecimal, if_neg (by omega), Int.toNat_natCast, hlabel]

theorem normalizeSubtree_of_area {subtree : Subtree} {w k h : ℕ} (hn : subtree.Names m w)
    (ha : Area m w k h) : ∃ label, normalizeSubtree m subtree = .ok (↑w, label, ↑k) := by
  obtain ⟨label, hlabel, horder⟩ := mortonDecimal_of_area ha
  refine ⟨label, ?_⟩
  cases subtree with
  | word z =>
    obtain rfl : z = w := hn
    simp only [normalizeSubtree, bind, Except.bind, hlabel, horder, pure, Except.pure]
  | label decimal =>
    have hw : m.fromDecimal decimal = .ok w := hn
    simp only [normalizeSubtree, mortonWord, hw, Except.map, Int.ofNat_eq_natCast, bind,
      Except.bind, hlabel, horder, pure, Except.pure]

/-- Where a cell lies on the axis, as the anchor's own root places it. -/
def Geometry.position (g : Geometry) (nested : ℕ) : ℕ :=
  match g with
  | .fullsphere => nested
  | .subtree depth _ => nested % 4 ^ depth

theorem Geometry.position_start (g : Geometry) {i : ℕ} (hi : i < g.cells cellOrder) :
    g.position (g.start + i) = i := by
  cases g with
  | fullsphere => exact Nat.zero_add i
  | subtree depth root =>
    have hi : i < 4 ^ depth := hi
    simp only [position, start, Nat.mul_add_mod_of_lt hi]

/-- The root the reader derives from an anchor, and the anchor's place under it. -/
theorem axisRoot_spec (hm : m.Lawful) {g : Geometry} (hfit : g.Fits cellOrder) {anchor nested : ℕ}
    (ha : Area m anchor cellOrder nested) :
    ∃ rootOrder root rootStart,
      axisRoot m anchor cellOrder (g.cells cellOrder) = .ok (rootOrder, root, rootStart) ∧
      nested = rootStart + g.position nested ∧
      (4 ^ axisDepth (g.cells cellOrder) = g.cells cellOrder →
        ∃ label, mortonDecimal m root = .ok label) := by
  cases g with
  | fullsphere =>
    have hne := four_pow_ne_fullsphere (axisDepth (12 * 4 ^ cellOrder)) cellOrder
    refine ⟨_, 0, 0, if_neg hne, (Nat.zero_add _).symm, fun h => absurd h hne⟩
  | subtree depth root =>
    obtain ⟨hdepth, -⟩ := hfit
    obtain ⟨a, hclip, harea⟩ := hm.clip ha (Nat.sub_le cellOrder depth)
    rw [Nat.sub_sub_self hdepth] at harea
    obtain ⟨label, hlabel, -⟩ := mortonDecimal_of_area harea
    refine ⟨(cellOrder - depth : ℕ), a, nested / 4 ^ depth * 4 ^ depth, ?_, ?_, fun _ =>
      ⟨label, hlabel⟩⟩
    · have hcast : (cellOrder : ℤ) - depth = (cellOrder - depth : ℕ) := by omega
      simp only [axisRoot, Geometry.cells, axisDepth_four_pow, if_true, hcast, hclip, Except.map,
        harea.healpix]
    · exact (Nat.div_add_mod' nested (4 ^ depth)).symm

/-- The unclipped span holds the positions whose nested id is below the word. -/
theorem below_iff_span (k h rootStart i : ℕ) :
    below cellOrder k h (rootStart + i) = true ↔
      (h * 4 ^ (cellOrder - k) - rootStart : ℤ) ≤ i ∧
        (i : ℤ) < h * 4 ^ (cellOrder - k) - rootStart + 4 ^ (cellOrder - k) := by
  have hpos : 0 < 4 ^ (cellOrder - k) := by positivity
  have hcast : (4 : ℤ) ^ (cellOrder - k) = (4 ^ (cellOrder - k) : ℕ) := by push_cast; rfl
  rw [below, beq_iff_eq, Nat.div_eq_iff hpos, hcast, ← Nat.cast_mul]
  omega

/-- The span of a word on a nested axis: the positions below the word. -/
theorem subtreeCellSpan_spec (hm : m.Lawful) {g : Geometry} (hfit : g.Fits cellOrder)
    {subtree : Subtree} {w k h : ℕ} (hn : subtree.Names m w) (hw : Area m w k h)
    (hk : k ≤ cellOrder) {anchor index : ℕ} (hindex : index < g.cells cellOrder)
    (ha : Area m anchor cellOrder (g.start + index)) (field : String) :
    ∃ a b warning, subtreeCellSpan m subtree anchor index cellOrder (g.cells cellOrder) field =
        .ok ((a, b), warning) ∧
      (∀ i < g.cells cellOrder, (a ≤ i ∧ i < b ↔ below cellOrder k h (g.start + i) = true)) ∧
      (a = 0 ∧ b = 0 ∨ a < b ∧ b ≤ g.cells cellOrder) := by
  obtain ⟨label, hnorm⟩ := normalizeSubtree_of_area hn hw
  obtain ⟨rootOrder, root, rootStart, hroot, hplace, hlabel⟩ := axisRoot_spec hm hfit ha
  rw [g.position_start hindex] at hplace
  have hstart : rootStart = g.start := by omega
  have hwidth : ((cellOrder : ℤ) - k).toNat = cellOrder - k := by omega
  have hpos : ((m.mort2healpix anchor : ℤ) - rootStart) = index := by
    rw [ha.healpix, hstart]
    push_cast
    ring
  subst hstart
  unfold subtreeCellSpan
  rw [hnorm]
  simp only [bind, Except.bind, hroot, if_neg (by omega : ¬(cellOrder : ℤ) < k), hpos, ne_eq,
    not_true_eq_false, if_false, Int.toNat_natCast, hw.healpix, hwidth]
  have hwide : (0 : ℤ) ≤ h * 4 ^ (cellOrder - k) := by positivity
  by_cases hsingle : 4 ^ axisDepth (g.cells cellOrder) = g.cells cellOrder
  · obtain ⟨label', hlabel'⟩ := hlabel hsingle
    rw [if_neg (not_not_intro hsingle), hlabel']
    split_ifs with hempty
    · refine ⟨0, 0, _, rfl, fun i hi => ?_, .inl ⟨rfl, rfl⟩⟩
      rw [below_iff_span]
      omega
    · refine ⟨_, _, _, rfl, fun i hi => ?_, .inr (by omega)⟩
      rw [below_iff_span]
      omega
  · have hzero : g.start = 0 := by
      cases g with
      | fullsphere => rfl
      | subtree depth root => exact absurd (congrArg (4 ^ ·) (axisDepth_four_pow depth)) hsingle
    have hfits : h * 4 ^ (cellOrder - k) + 4 ^ (cellOrder - k) ≤ g.cells cellOrder := by
      cases g with
      | fullsphere =>
        have hsplit : 12 * 4 ^ cellOrder = 12 * 4 ^ k * 4 ^ (cellOrder - k) := by
          rw [Nat.mul_assoc, ← Nat.pow_add, Nat.add_sub_cancel' hk]
        rw [Geometry.cells, hsplit, ← Nat.succ_mul]
        exact Nat.mul_le_mul_right _ hw.inRange
      | subtree depth root => exact absurd (congrArg (4 ^ ·) (axisDepth_four_pow depth)) hsingle
    have hlt : 0 < 4 ^ (cellOrder - k) := by positivity
    have hcast : (4 : ℤ) ^ (cellOrder - k) = (4 ^ (cellOrder - k) : ℕ) := by push_cast; rfl
    rw [if_pos hsingle]
    refine ⟨_, _, _, rfl, fun i hi => ?_, .inr ?_⟩
    · rw [below_iff_span, hzero]
      omega
    · rw [hcast, ← Nat.cast_mul]
      omega

/-- A misplaced anchor is refused. -/
theorem subtreeCellSpan_misplaced (hm : m.Lawful) {g : Geometry} (hfit : g.Fits cellOrder)
    {subtree : Subtree} {w k h : ℕ} (hn : subtree.Names m w) (hw : Area m w k h)
    (hk : k ≤ cellOrder) {anchor nested index : ℕ} (ha : Area m anchor cellOrder nested)
    (hbad : g.position nested ≠ index) (field : String) :
    ∃ label, subtreeCellSpan m subtree anchor index cellOrder (g.cells cellOrder) field =
      .error (notNested field index label (g.position nested)) := by
  obtain ⟨label, hnorm⟩ := normalizeSubtree_of_area hn hw
  obtain ⟨rootOrder, root, rootStart, hroot, hplace, -⟩ := axisRoot_spec hm hfit ha
  obtain ⟨label', hlabel', -⟩ := mortonDecimal_of_area ha
  have hpos : ((m.mort2healpix anchor : ℤ) - rootStart) = g.position nested := by
    rw [ha.healpix]
    omega
  refine ⟨label', ?_⟩
  unfold subtreeCellSpan
  rw [hnorm]
  simp only [bind, Except.bind, hroot, if_neg (by omega : ¬(cellOrder : ℤ) < k), hpos, ne_eq,
    Nat.cast_inj, hbad, not_false_eq_true, if_true, hlabel', throw, throwThe, MonadExceptOf.throw]

end Geometry

end Zagg.Readers
