import Zagg.Hive.RootRoundTrip
import Zagg.Lib.DigitTree
import Zagg.Lib.Masks
import Zagg.Lib.SortedSet
import Zagg.Readers.Layout

/-!
# The morton box

The box of a set of words is the set's compaction where that is one word. Else the compaction is
split at the children of its deepest common ancestor, and each part is tightened to its own
deepest common ancestor.
-/
namespace Zagg.Grids.MortonBox

open Zagg.Lib Zagg.Lib.DigitTree
open Zagg.Catalog (Word)
open Zagg.Sweep (Decimal Base)
open Zagg.Readers (mortonDecimal decimalOrder)

section Code

/-- What `morton_box` calls in `mortie`. -/
structure Mortie extends Readers.Mortie where
  compressMoc : List Word → List Word
  commonAncestor : List Word → Except String Word

variable (m : Mortie)

/-- The cells of the compaction below one child of the ancestor, as their common ancestor. -/
def tighten (occ children : List Word) (child : Word) : Except String Word :=
  m.commonAncestor (select occ (children.map fun ch => decide (ch = child)))

def mortonBox (words : List Word) : Except String (List Word) :=
  if words = [] then .error "morton_box requires at least one occupied cell"
  else
    let occ := m.compressMoc words
    if occ.length = 1 then .ok occ
    else do
      let anc ← mortonDecimal m.toMortie (← m.commonAncestor occ)
      let children ← occ.mapM (m.clip2order (decimalOrder anc + 1))
      let box ← (sortedSet children).mapM (tighten m occ children)
      return box.insertionSort (· ≤ ·)

end Code

section Laws

/-- The word of a cell of a base cell. -/
def cellWord (word : Decimal → Word) (b : Base) (path : List (Fin 4)) : Word := word ⟨b, path⟩

/-- What the box relies on, for the cells down to an order: one word for a cell, which prints as
the cell's decimal and clips to its ancestors; the compact set of a region; and the deepest
common ancestor of cells of one base cell. -/
structure Mortie.Lawful (m : Mortie) (maxOrder : Nat) (word : Decimal → Word) : Prop where
  inj : ∀ d e : Decimal, d.order ≤ maxOrder → e.order ≤ maxOrder → word d = word e → d = e
  repr_word : ∀ d : Decimal, d.order ≤ maxOrder → m.decimalRepr (word d) = .ok d.chars
  clip : ∀ (d : Decimal) (k : Nat), d.order ≤ maxOrder → k ≤ d.order →
    m.clip2order k (word d) = .ok (word (d.nodeAt k))
  compress : ∀ (b : Base) (W : List (List (Fin 4))), W ≠ [] → (∀ p ∈ W, p.length ≤ maxOrder) →
    ∃ S, m.compressMoc (W.map (cellWord word b)) = S.map (cellWord word b) ∧ S.Nodup ∧ Compact S ∧
      region S = region W
  ancestor : ∀ (b : Base) (W : List (List (Fin 4))), W ≠ [] → (∀ p ∈ W, p.length ≤ maxOrder) →
    ∃ a, m.commonAncestor (W.map (cellWord word b)) = .ok (cellWord word b a) ∧ Deepest W a

variable {m : Mortie} {maxOrder : Nat} {word : Decimal → Word} {b : Base}
  {S W : List (List (Fin 4))}

theorem Mortie.Lawful.cellWord_inj (h : m.Lawful maxOrder word) {p q : List (Fin 4)}
    (hp : p.length ≤ maxOrder) (hq : q.length ≤ maxOrder)
    (heq : cellWord word b p = cellWord word b q) : p = q :=
  congrArg Decimal.digits (h.inj ⟨b, p⟩ ⟨b, q⟩ hp hq heq)

/-- The length of the printed ancestor is its order. -/
theorem Mortie.Lawful.ancestor_order (h : m.Lawful maxOrder word) {a : List (Fin 4)}
    (ha : a.length ≤ maxOrder) :
    mortonDecimal m.toMortie (cellWord word b a) = .ok (Decimal.chars ⟨b, a⟩) ∧
      decimalOrder (Decimal.chars ⟨b, a⟩) = a.length := by
  constructor
  · rw [mortonDecimal, if_neg (by omega), Int.toNat_natCast, cellWord, h.repr_word ⟨b, a⟩ ha]
  · exact Hive.decimalOrder_chars ⟨b, a⟩

end Laws

section Spec
variable {m : Mortie} {maxOrder : Nat} {word : Decimal → Word} {b : Base}
  {S S' W W' : List (List (Fin 4))}

/-- The children of a set's cells at a length. -/
def childWords (word : Decimal → Word) (b : Base) (n : Nat) (S : List (List (Fin 4))) : List Word :=
  S.map fun p => cellWord word b (p.take n)

theorem clip_children (h : m.Lawful maxOrder word) (hS : ∀ p ∈ S, p.length ≤ maxOrder) {n : Nat}
    (hn : ∀ p ∈ S, n ≤ p.length) :
    (S.map (cellWord word b)).mapM (m.clip2order n) = .ok (childWords word b n S) := by
  rw [List.mapM_map]
  exact mapM_ok fun p hp => h.clip ⟨b, p⟩ n (hS p hp) (hn p hp)

/-- The cells below a child are tightened to their deepest common cell. -/
theorem tighten_spec (h : m.Lawful maxOrder word) (hS : ∀ p ∈ S, p.length ≤ maxOrder) (n : Nat)
    {q : List (Fin 4)} (hq : q ∈ S) : ∃ a,
      tighten m (S.map (cellWord word b)) (childWords word b n S) (cellWord word b (q.take n)) =
        .ok (cellWord word b a) ∧
      Deepest (family n S (q.take n)) a := by
  have htake : ∀ p ∈ S, (p.take n).length ≤ maxOrder := fun p hp =>
    (List.length_take_le' n p).trans (hS p hp)
  have hselect : select (S.map (cellWord word b)) ((childWords word b n S).map
      fun ch => decide (ch = cellWord word b (q.take n))) =
        (family n S (q.take n)).map (cellWord word b) := by
    rw [childWords, List.map_map, select_map, family]
    refine congrArg _ (List.filter_congr fun p hp => ?_)
    refine decide_eq_decide.mpr ⟨fun heq => ?_, fun heq => congrArg _ heq⟩
    exact h.cellWord_inj (htake p hp) (htake q hq) heq
  have hmem : q ∈ family n S (q.take n) := mem_family.mpr ⟨hq, rfl⟩
  rw [tighten, hselect]
  exact h.ancestor b _ (List.ne_nil_of_mem hmem) fun p hp => hS p (mem_family.mp hp).1

/-- Each child names the cell its part is tightened to. -/
theorem exists_tightened (h : m.Lawful maxOrder word) (hS : ∀ p ∈ S, p.length ≤ maxOrder) (n : Nat) :
    ∃ g : Word → List (Fin 4), ∀ x ∈ sortedSet (childWords word b n S),
      tighten m (S.map (cellWord word b)) (childWords word b n S) x = .ok (cellWord word b (g x)) ∧
      ∃ p ∈ S, x = cellWord word b (p.take n) ∧ Deepest (family n S (p.take n)) (g x) := by
  have htight : ∀ x, ∃ q, x ∈ sortedSet (childWords word b n S) →
      tighten m (S.map (cellWord word b)) (childWords word b n S) x = .ok (cellWord word b q) ∧
      ∃ p ∈ S, x = cellWord word b (p.take n) ∧ Deepest (family n S (p.take n)) q := by
    intro x
    by_cases hx : x ∈ sortedSet (childWords word b n S)
    · obtain ⟨p, hp, rfl⟩ := List.mem_map.mp (mem_sortedSet.mp hx)
      obtain ⟨q, hq, hdeep⟩ := tighten_spec h hS n hp
      exact ⟨q, fun _ => ⟨hq, p, hp, rfl, hdeep⟩⟩
    · exact ⟨[], fun hno => absurd hno hx⟩
  choose g hg using htight
  exact ⟨g, hg⟩

/-- The box of a compact set, as a list of cells. -/
structure Boxed (word : Decimal → Word) (b : Base) (S box : List (List (Fin 4)))
    (words : List Word) : Prop where
  words_eq : words = box.map (cellWord word b)
  nodup : words.Nodup
  sorted : words.Pairwise (· ≤ ·)
  mem_iff : ∀ p, p ∈ box ↔ BoxCell S p

/-- The split of a compaction of more than one word, tightened and sorted, is its box. -/
theorem exists_boxed (h : m.Lawful maxOrder word) (hc : Compact S) (hn : S.Nodup)
    (hS : ∀ p ∈ S, p.length ≤ maxOrder) (hone : S.length ≠ 1) {a : List (Fin 4)}
    (ha : Deepest S a) : ∃ box words, Boxed word b S box (words.insertionSort (· ≤ ·)) ∧
      (sortedSet (childWords word b (a.length + 1) S)).mapM
        (tighten m (S.map (cellWord word b)) (childWords word b (a.length + 1) S)) = .ok words := by
  obtain ⟨g, hg⟩ := exists_tightened (b := b) h hS (a.length + 1)
  have hdeep : ∀ x ∈ sortedSet (childWords word b (a.length + 1) S), ∃ p ∈ S,
      x = cellWord word b ((g x).take (a.length + 1)) ∧
      Deepest (family (a.length + 1) S (p.take (a.length + 1))) (g x) ∧ (g x).length ≤ maxOrder := by
    intro x hx
    obtain ⟨-, p, hp, heq, hdeep⟩ := hg x hx
    rw [← take_of_family (hc.length_lt hn hone ha hp) hdeep] at heq
    refine ⟨p, hp, heq, hdeep, ?_⟩
    exact (hdeep.contains p (mem_family.mpr ⟨hp, rfl⟩)).length_le.trans (hS p hp)
  have hmem : ∀ q, q ∈ (sortedSet (childWords word b (a.length + 1) S)).map g ↔ BoxCell S q := by
    intro q
    constructor
    · intro hq
      obtain ⟨x, hx, rfl⟩ := List.mem_map.mp hq
      obtain ⟨p, hp, -, hdeep, -⟩ := hdeep x hx
      exact .inr ⟨hone, a, ha, p, hp, hdeep⟩
    · rintro (⟨hno, -⟩ | ⟨-, a', ha', p, hp, hq⟩)
      · exact absurd hno hone
      · rw [← ha.unique ha'] at hq
        have hx : cellWord word b (p.take (a.length + 1)) ∈
            sortedSet (childWords word b (a.length + 1) S) :=
          mem_sortedSet.mpr (List.mem_map.mpr ⟨p, hp, rfl⟩)
        obtain ⟨-, p', hp', heq, hdeep'⟩ := hg _ hx
        have hsame := h.cellWord_inj ((List.length_take_le' _ p).trans (hS p hp))
          ((List.length_take_le' _ p').trans (hS p' hp')) heq
        rw [← hsame] at hdeep'
        exact List.mem_map.mpr ⟨_, hx, hdeep'.unique hq⟩
  have hnodup : (((sortedSet (childWords word b (a.length + 1) S)).map g).map
      (cellWord word b)).Nodup := by
    rw [List.map_map]
    refine (nodup_sortedSet _).map_on fun x hx y hy hxy => ?_
    obtain ⟨-, -, hx, -, hxlen⟩ := hdeep x hx
    obtain ⟨-, -, hy, -, hylen⟩ := hdeep y hy
    rw [hx, hy, h.cellWord_inj hxlen hylen hxy]
  refine ⟨((sortedSet (childWords word b (a.length + 1) S)).map g).insertionSort
      fun p q => cellWord word b p ≤ cellWord word b q,
    ((sortedSet (childWords word b (a.length + 1) S)).map g).map (cellWord word b),
    ⟨?_, ?_, List.pairwise_insertionSort _ _, fun p => ?_⟩, ?_⟩
  · exact (List.map_insertionSort (fun p q => cellWord word b p ≤ cellWord word b q) (· ≤ ·)
      (cellWord word b) _ fun _ _ _ _ => Iff.rfl).symm
  · exact (List.perm_insertionSort _ _).nodup_iff.mpr hnodup
  · rw [List.mem_insertionSort]
    exact hmem p
  · rw [List.map_map]
    exact mapM_ok fun x hx => (hg x hx).1

/-- The box of any cells of one base cell is the box of their compaction. -/
theorem mortonBox_spec (h : m.Lawful maxOrder word) (hW : W ≠ [])
    (hlen : ∀ p ∈ W, p.length ≤ maxOrder) : ∃ S box words, Compact S ∧ S.Nodup ∧
      region S = region W ∧ mortonBox m (W.map (cellWord word b)) = .ok words ∧
      Boxed word b S box words := by
  obtain ⟨S, hocc, hn, hc, hregion⟩ := h.compress b W hW hlen
  have hS : ∀ p ∈ S, p.length ≤ maxOrder := by
    intro p hp
    obtain ⟨w, hw, hpw⟩ := hc.exists_below hregion hp
    exact hpw.length_le.trans (hlen w hw)
  have hwords : W.map (cellWord word b) ≠ [] := by
    rwa [Ne, List.map_eq_nil_iff]
  rw [mortonBox, if_neg hwords, hocc]
  dsimp only
  rw [List.length_map]
  by_cases hone : S.length = 1
  · obtain ⟨p, rfl⟩ := List.length_eq_one_iff.mp hone
    rw [if_pos hone]
    refine ⟨[p], [p], _, hc, hn, hregion, rfl, rfl, List.nodup_singleton _,
      List.pairwise_singleton _ _, fun q => ⟨fun hq => .inl ⟨rfl, hq⟩, fun hq => ?_⟩⟩
    exact hq.elim And.right fun hno => absurd rfl hno.1
  · have hne : S ≠ [] := by
      obtain ⟨w, hw⟩ := List.exists_mem_of_ne_nil W hW
      obtain ⟨p, hp, -⟩ := hc.exists_above hregion hw
      exact List.ne_nil_of_mem hp
    obtain ⟨a, hanc, ha⟩ := h.ancestor b S hne hS
    obtain ⟨p, hp⟩ := List.exists_mem_of_ne_nil S hne
    have hprinted := h.ancestor_order (b := b) ((ha.contains p hp).length_le.trans (hS p hp))
    have hclip := clip_children (b := b) h hS fun p hp => hc.length_lt hn hone ha hp
    obtain ⟨box, words, hboxed, hbox⟩ := exists_boxed (b := b) h hc hn hS hone ha
    refine ⟨S, box, _, hc, hn, hregion, ?_, hboxed⟩
    rw [if_neg hone, hanc]
    show (mortonDecimal m.toMortie (cellWord word b a)).bind _ = _
    rw [hprinted.1]
    show ((S.map (cellWord word b)).mapM
      (m.clip2order (decimalOrder (Decimal.chars ⟨b, a⟩) + 1))).bind _ = _
    rw [hprinted.2]
    show ((S.map (cellWord word b)).mapM (m.clip2order ((a.length + 1 : Nat) : Int))).bind _ = _
    rw [hclip]
    show ((sortedSet (childWords word b (a.length + 1) S)).mapM (tighten m
      (S.map (cellWord word b)) (childWords word b (a.length + 1) S))).bind _ = _
    rw [hbox]
    rfl

/-- Sets of one region have one box. -/
theorem mortonBox_congr (h : m.Lawful maxOrder word) (hW : W ≠ [])
    (hlen : ∀ p ∈ W, p.length ≤ maxOrder) (hW' : W' ≠ []) (hlen' : ∀ p ∈ W', p.length ≤ maxOrder)
    (hregion : region W' = region W) :
    mortonBox m (W'.map (cellWord word b)) = mortonBox m (W.map (cellWord word b)) := by
  obtain ⟨S, box, words, hc, hn, hS, hrun, hbox⟩ := mortonBox_spec (b := b) h hW hlen
  obtain ⟨S', box', words', hc', hn', hS', hrun', hbox'⟩ := mortonBox_spec (b := b) h hW' hlen'
  have hperm : S.Perm S' := (List.perm_ext_iff_of_nodup hn hn').mpr fun p =>
    hc.mem_congr hc' (hS.trans (hregion.symm.trans hS'.symm))
  have hcell : ∀ p, p ∈ box' ↔ p ∈ box := by
    intro p
    rw [hbox.mem_iff, hbox'.mem_iff]
    exact ⟨fun hp => hp.congr hperm.symm, fun hp => hp.congr hperm⟩
  have hwords : ∀ x, x ∈ words' ↔ x ∈ words := by
    intro x
    rw [hbox.words_eq, hbox'.words_eq, List.mem_map, List.mem_map]
    exact exists_congr fun p => and_congr_left' (hcell p)
  rw [hrun, hrun', eq_sortedSet hbox'.nodup hbox'.sorted hwords,
    ← eq_sortedSet hbox.nodup hbox.sorted fun x => Iff.rfl]

end Spec

section Main
variable {m : Mortie} {maxOrder : Nat} {word : Decimal → Word}

/-- The box of any cells of one base cell: at most four disjoint words, each the deepest cell above
the inputs below it, with every input below exactly one. It depends on the inputs' region only. -/
theorem morton_box_canonical (h : m.Lawful maxOrder word) (b : Base) (W : List (List (Fin 4)))
    (hW : W ≠ []) (hlen : ∀ p ∈ W, p.length ≤ maxOrder) :
    (∃ box : List (List (Fin 4)),
      mortonBox m (W.map (cellWord word b)) = .ok (box.map (cellWord word b)) ∧
      1 ≤ box.length ∧ box.length ≤ 4 ∧
      box.Pairwise (fun p q => Disjoint (points p) (points q)) ∧
      (∀ w ∈ W, ∃! p, p ∈ box ∧ p <+: w) ∧
      ∀ p ∈ box, Deepest (W.filter fun w => p <+: w) p) ∧
    (∀ W' : List (List (Fin 4)), W' ≠ [] → (∀ p ∈ W', p.length ≤ maxOrder) →
      region W' = region W →
      mortonBox m (W'.map (cellWord word b)) = mortonBox m (W.map (cellWord word b))) ∧
    (∀ W' : List (List (Fin 4)), (∀ p, p ∈ W' ↔ p ∈ W) →
      mortonBox m (W'.map (cellWord word b)) = mortonBox m (W.map (cellWord word b))) ∧
    (∀ p ∈ W, ∀ q, p <+: q → q.length ≤ maxOrder →
      mortonBox m ((q :: W).map (cellWord word b)) = mortonBox m (W.map (cellWord word b))) ∧
    ∀ p, (∀ d, p ++ [d] ∈ W) →
      mortonBox m ((p :: W.filter fun q => ∀ d, q ≠ p ++ [d]).map (cellWord word b)) =
        mortonBox m (W.map (cellWord word b)) := by
  refine ⟨?_, fun W' hW' hlen' hregion => mortonBox_congr h hW hlen hW' hlen' hregion, ?_, ?_, ?_⟩
  · obtain ⟨S, box, words, hc, hn, hS, hrun, hbox⟩ := mortonBox_spec (b := b) h hW hlen
    have hnodup : box.Nodup := (hbox.words_eq ▸ hbox.nodup).of_map
    have hunique : ∀ w ∈ W, ∃! p, p ∈ box ∧ p <+: w := by
      intro w hw
      simpa only [hbox.mem_iff] using existsUnique_boxCell hc hn hS hw
    refine ⟨box, hbox.words_eq ▸ hrun, ?_, ?_, ?_, hunique, fun p hp => ?_⟩
    · obtain ⟨w, hw⟩ := List.exists_mem_of_ne_nil W hW
      obtain ⟨p, ⟨hp, -⟩, -⟩ := hunique w hw
      exact List.length_pos_of_mem hp
    · exact length_box_le hc hn hnodup fun p hp => (hbox.mem_iff p).mp hp
    · refine hnodup.pairwise_of_forall_ne fun p hp q hq hne => ?_
      have hp := (hbox.mem_iff p).mp hp
      have hq := (hbox.mem_iff q).mp hq
      exact disjoint_points (fun hpq => hne (hp.antichain hc hn hq hpq))
        fun hqp => hne (hq.antichain hc hn hp hqp).symm
    · exact ((hbox.mem_iff p).mp hp).deepest hc hS
  · intro W' hmem
    have hW' : W' ≠ [] := by
      obtain ⟨w, hw⟩ := List.exists_mem_of_ne_nil W hW
      exact List.ne_nil_of_mem ((hmem w).mpr hw)
    exact mortonBox_congr h hW hlen hW' (fun p hp => hlen p ((hmem p).mp hp)) (region_congr hmem)
  · intro p hp q hpq hq
    exact mortonBox_congr h hW hlen (List.cons_ne_nil q W)
      (List.forall_mem_cons.mpr ⟨hq, hlen⟩) (region_cons_of_isPrefix hp hpq)
  · intro p hp
    have hplen : p.length ≤ maxOrder := by
      have hle := hlen _ (hp 0)
      rw [List.length_append, List.length_singleton] at hle
      omega
    refine mortonBox_congr h hW hlen (List.cons_ne_nil _ _) (List.forall_mem_cons.mpr ⟨hplen,
      fun q hq => hlen q (List.mem_filter.mp hq).1⟩) (region_of_siblings hp fun q => ?_)
    rw [List.mem_cons, List.mem_filter, decide_eq_true_eq]

end Main

section Sample

/-- A path as a number in bijective base 4, its first digit the lowest. -/
def pathKey : List (Fin 4) → Nat
  | [] => 0
  | d :: p => 4 * pathKey p + d + 1

def keyPath : Nat → Nat → List (Fin 4)
  | 0, _ => []
  | _ + 1, 0 => []
  | fuel + 1, key + 1 => Fin.ofNat 4 key :: keyPath fuel (key / 4)

theorem keyPath_pathKey (p : List (Fin 4)) {fuel : Nat} (h : p.length ≤ fuel) :
    keyPath fuel (pathKey p) = p := by
  induction p generalizing fuel with
  | nil => cases fuel <;> rfl
  | cons d p ih =>
    obtain ⟨fuel, rfl⟩ : ∃ n, fuel = n + 1 := Nat.exists_eq_add_one.mpr (Nat.lt_of_lt_of_le
      (Nat.succ_pos _) h)
    have hd := d.isLt
    have hdigit : Fin.ofNat 4 (4 * pathKey p + d) = d := Fin.ext (by
      show (4 * pathKey p + d) % 4 = d
      omega)
    have hrest : (4 * pathKey p + d) / 4 = pathKey p := by omega
    rw [pathKey, keyPath, hdigit, hrest, ih (Nat.le_of_succ_le_succ h)]

theorem length_le_pathKey (p : List (Fin 4)) : p.length ≤ pathKey p := by
  induction p with
  | nil => exact le_rfl
  | cons d p ih =>
    rw [List.length_cons, pathKey]
    omega

/-- A cell as a word: its path's key, and its base cell below. -/
def sampleWord (d : Decimal) : Nat :=
  12 * pathKey d.digits + (if d.base.south then 6 else 0) + d.base.cell

def sampleCell (w : Nat) : Decimal :=
  ⟨⟨6 ≤ w % 12, Fin.ofNat 6 (w % 12)⟩, keyPath (w / 12) (w / 12)⟩

theorem sampleCell_sampleWord (d : Decimal) : sampleCell (sampleWord d) = d := by
  obtain ⟨⟨south, cell⟩, digits⟩ := d
  have hcell := cell.isLt
  obtain ⟨code, hcode, hsouth, hlow⟩ : ∃ code : Nat, sampleWord ⟨⟨south, cell⟩, digits⟩ =
      12 * pathKey digits + code ∧ decide (6 ≤ code % 12) = south ∧ code % 6 = cell ∧ code < 12 := by
    cases south with
    | false => exact ⟨cell, rfl, decide_eq_false (by omega), by omega, by omega⟩
    | true => exact ⟨6 + cell, Nat.add_assoc .., decide_eq_true (by omega), by omega, by omega⟩
  have hpath : (12 * pathKey digits + code) / 12 = pathKey digits := by omega
  have hmod : (12 * pathKey digits + code) % 12 = code % 12 := by omega
  have hfin : Fin.ofNat 6 (code % 12) = cell := Fin.ext (by
    show code % 12 % 6 = cell
    omega)
  rw [sampleCell, hcode, hpath, hmod, hsouth, hfin, keyPath_pathKey digits (length_le_pathKey digits)]

def samplePaths (words : List Word) : List (List (Fin 4)) := words.map fun w => (sampleCell w).digits

def sampleBase (words : List Word) : Base := (sampleCell (words.headD 0)).base

def sampleDepth (paths : List (List (Fin 4))) : Nat := (paths.map List.length).foldr max 0

def sampleMortie : Mortie where
  decimalRepr w := .ok (sampleCell w).chars
  fromDecimal _ := .error "not a decimal"
  clip2order k w := .ok (sampleWord ((sampleCell w).nodeAt k.toNat))
  mort2healpix w := (sampleCell w).decimalRank
  rankToXy _ _ := (0, 0)
  compressMoc words := (compaction (List.finRange 4) (sampleDepth (samplePaths words))
    (samplePaths words)).map (cellWord sampleWord (sampleBase words))
  commonAncestor words :=
    .ok (cellWord sampleWord (sampleBase words) (ancestor (samplePaths words)))

theorem samplePaths_map (b : Base) (W : List (List (Fin 4))) :
    samplePaths (W.map (cellWord sampleWord b)) = W := by
  rw [samplePaths, List.map_map]
  have hpath : ∀ p ∈ W, ((fun w => (sampleCell w).digits) ∘ cellWord sampleWord b) p = id p :=
    fun p _ => congrArg Decimal.digits (sampleCell_sampleWord ⟨b, p⟩)
  rw [List.map_congr_left hpath, List.map_id]

theorem sampleBase_map (b : Base) {W : List (List (Fin 4))} (hW : W ≠ []) :
    sampleBase (W.map (cellWord sampleWord b)) = b := by
  cases W with
  | nil => exact absurd rfl hW
  | cons p W => exact congrArg Decimal.base (sampleCell_sampleWord ⟨b, p⟩)

theorem le_sampleDepth {W : List (List (Fin 4))} {p : List (Fin 4)} (hp : p ∈ W) :
    p.length ≤ sampleDepth W := by
  induction W with
  | nil => cases hp
  | cons q W ih =>
    cases List.mem_cons.mp hp with
    | inl heq => exact heq ▸ Nat.le_max_left ..
    | inr hp => exact (ih hp).trans (Nat.le_max_right ..)

theorem sampleMortie_lawful : sampleMortie.Lawful 29 sampleWord where
  inj d e _ _ h := by rw [← sampleCell_sampleWord d, h, sampleCell_sampleWord]
  repr_word d _ := by
    show Except.ok (sampleCell (sampleWord d)).chars = _
    rw [sampleCell_sampleWord]
  clip d k _ _ := by
    show Except.ok (sampleWord ((sampleCell (sampleWord d)).nodeAt (k : Int).toNat)) = _
    rw [sampleCell_sampleWord, Int.toNat_natCast]
  compress b W hW _ := by
    obtain ⟨hc, hn, hregion⟩ := compaction_spec List.mem_finRange (List.nodup_finRange 4)
      (S := W) fun p hp => le_sampleDepth hp
    refine ⟨_, ?_, hn, hc, hregion⟩
    show (compaction _ (sampleDepth (samplePaths _)) (samplePaths _)).map _ = _
    rw [samplePaths_map, sampleBase_map b hW]
  ancestor b W hW _ := by
    refine ⟨ancestor W, ?_, deepest_ancestor hW⟩
    show Except.ok (cellWord _ (sampleBase _) (ancestor (samplePaths _))) = _
    rw [samplePaths_map, sampleBase_map b hW]

/-- A complete family with a descendant listed beside it, and two cousins. -/
def sampleInputs : List (List (Fin 4)) :=
  [[0, 3], [2, 1, 0], [0, 0], [0, 1, 2], [0, 2], [2, 1, 3], [0, 1]]

theorem morton_box_canonical_sample :
    mortonBox sampleMortie (sampleInputs.map (cellWord sampleWord ⟨true, 2⟩)) =
        .ok ([[0], [2, 1]].map (cellWord sampleWord ⟨true, 2⟩)) ∧
      mortonBox sampleMortie ([[0], [2, 1, 0], [0, 1, 2], [2, 1, 3]].map
        (cellWord sampleWord ⟨true, 2⟩)) = .ok ([[0], [2, 1]].map (cellWord sampleWord ⟨true, 2⟩)) := by
  obtain ⟨-, -, -, -, hsiblings⟩ := morton_box_canonical sampleMortie_lawful ⟨true, 2⟩ sampleInputs
    (by decide) (by decide)
  have hbox : mortonBox sampleMortie (sampleInputs.map (cellWord sampleWord ⟨true, 2⟩)) =
      .ok ([[0], [2, 1]].map (cellWord sampleWord ⟨true, 2⟩)) := by rfl
  exact ⟨hbox, (hsiblings [0] (by decide)).trans hbox⟩

end Sample

end Zagg.Grids.MortonBox
