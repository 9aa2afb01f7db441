import Mathlib.Data.Set.List
import Mathlib.Tactic.Ring
import Zagg.Hive.RootCoverage
import Zagg.Lib.Intervals
import Zagg.Lib.Pointwise

/-!
# What the root envelope lists

A cell of an order is coded by its base cell and its rank, with one code left free at the
end of each base cell: consecutive codes are then exactly consecutive cells of one base
cell, and the envelope's ranges are the maximal intervals of the coded key set.
-/
namespace Zagg.Hive

open Zagg.Lib
open Zagg.Catalog (Word unique mem_unique pairwise_unique eq_unique)
open Zagg.Sweep (Decimal Base)

def baseText (b : Base) : Text := (if b.south then ['-'] else []) ++ [Decimal.digitChar b.cell]

theorem chars_eq (d : Decimal) : d.chars = baseText d.base ++ d.digits.map Decimal.digitChar := by
  rw [Decimal.chars, baseText, List.append_assoc, List.singleton_append]

theorem baseText_eq_iff (a b : Base) : baseText a = baseText b ↔ a = b := by
  revert a b
  have h : ∀ s t : Bool, ∀ i j : Fin 6, baseText ⟨s, i⟩ = baseText ⟨t, j⟩ ↔
      s = t ∧ i = j := by decide +kernel
  intro a b
  obtain ⟨s, i⟩ := a
  obtain ⟨t, j⟩ := b
  rw [h, Base.mk.injEq]

theorem head_digits (i : Fin 6) : Decimal.digitChar i ≠ '-' := by
  revert i
  decide

/-- The sign decides how much of a decimal is its base. -/
theorem head_eq (b : Base) (tail : Text) :
    (baseText b ++ tail).head? = some '-' ↔ b.south = true := by
  obtain ⟨south, cell⟩ := b
  cases south with
  | true => simp [baseText]
  | false => simp [baseText, head_digits cell]

theorem decimalBase_append (b : Base) (tail : Text) : decimalBase (baseText b ++ tail) = baseText b := by
  rw [decimalBase]
  simp only [head_eq]
  obtain ⟨south, cell⟩ := b
  cases south <;> rfl

theorem decimalOrder_append (b : Base) (tail : Text) :
    decimalOrder (baseText b ++ tail) = tail.length := by
  rw [decimalOrder]
  simp only [head_eq, List.length_append]
  obtain ⟨south, cell⟩ := b
  cases south <;> simp [baseText]

theorem rankStep_digit (rank : Int) (i : Fin 4) :
    rankStep rank (Decimal.digitChar i) = .ok (rank * 4 + i.val) := by
  have h : ∀ i : Fin 4, PyText.digitValue (Decimal.digitChar i) = some (i.val + 1) := by decide +kernel
  rw [rankStep, h i]
  simp

theorem foldlM_rankStep (ds : List (Fin 4)) (rank : Int) :
    (ds.map Decimal.digitChar).foldlM rankStep rank = .ok (rank * 4 ^ ds.length + Digits.rank ds) := by
  induction ds generalizing rank with
  | nil =>
    rw [Digits.rank_nil, List.length_nil, pow_zero, Int.mul_one, Int.natCast_zero, Int.add_zero]
    rfl
  | cons d ds ih =>
    rw [List.map_cons, List.foldlM_cons, rankStep_digit]
    change (ds.map Decimal.digitChar).foldlM rankStep _ = _
    rw [ih, Digits.rank_cons, List.length_cons, pow_succ]
    push_cast
    congr 1
    ring

@[simp] theorem decimalBase_chars (d : Decimal) : decimalBase d.chars = baseText d.base := by
  rw [chars_eq, decimalBase_append]

theorem split_base (t : Text) : t = decimalBase t ++ t.drop (decimalBase t).length := by
  have hpre : decimalBase t <+: t := by
    rw [decimalBase]
    split_ifs
    · exact List.take_prefix 2 t
    · exact List.take_prefix 1 t
  exact (List.prefix_iff_eq_append.mp hpre).symm

/-- A base cell's text with cell digits behind it is a cell's decimal. -/
theorem exists_chars {t : Text} {b : Base} (hb : decimalBase t = baseText b)
    (hdigits : ∀ ch ∈ t.drop (decimalBase t).length, ∃ i : Fin 4, ch = Decimal.digitChar i) :
    ∃ d : Decimal, t = d.chars := by
  have htail : t.drop (decimalBase t).length ∈
      Set.range (List.map (Decimal.digitChar (n := 4))) := by
    rw [Set.range_list_map]
    intro ch hch
    obtain ⟨i, hi⟩ := hdigits ch hch
    exact ⟨i, hi.symm⟩
  obtain ⟨ds, hds⟩ := htail
  refine ⟨⟨b, ds⟩, ?_⟩
  rw [chars_eq, hds, ← hb]
  exact split_base t

@[simp] theorem decimalOrder_chars (d : Decimal) : decimalOrder d.chars = d.order := by
  rw [chars_eq, decimalOrder_append, List.length_map, Decimal.order]

@[simp] theorem decimalRank_chars (d : Decimal) : decimalRank d.chars = .ok (d.decimalRank : Int) := by
  rw [decimalRank, decimalBase_chars, chars_eq, List.drop_left, foldlM_rankStep, Int.zero_mul,
    Int.zero_add, Decimal.decimalRank]

/-- Printing a rank inverts reading it. -/
theorem rankTail_rank (ds : List (Fin 4)) :
    rankTail (Digits.rank ds) ds.length = ds.map Decimal.digitChar := by
  have hdigits : rankDigits (Digits.rank ds) ds.length = (ds.map Decimal.digitChar).reverse := by
    induction ds using List.reverseRecOn with
    | nil => rfl
    | append_singleton ds d ih =>
      have hd := d.isLt
      have hlow : ((Digits.rank (ds ++ [d]) : Nat) : Int) % 4 = (d.val : Int) := by
        rw [Digits.rank_concat]
        omega
      have hhigh : ((Digits.rank (ds ++ [d]) : Nat) : Int) / 4 = (Digits.rank ds : Nat) := by
        rw [Digits.rank_concat]
        omega
      rw [List.length_append, List.length_singleton, rankDigits, hlow, hhigh, ih, List.map_append,
        List.reverse_append]
      rfl
  rw [rankTail, hdigits, List.reverse_reverse]

/-- The cells of one order. -/
abbrev Cell (o : Nat) := { d : Decimal // d.order = o }

variable {o : Nat}

theorem Cell.rank_lt (d : Cell o) : d.1.decimalRank < 4 ^ o := by
  have h := Digits.rank_lt d.1.digits
  rwa [show d.1.digits.length = o from d.2] at h

theorem Cell.ext {d e : Cell o} (hbase : d.1.base = e.1.base)
    (hrank : d.1.decimalRank = e.1.decimalRank) : d = e := by
  have hlen : d.1.digits.length = e.1.digits.length := d.2.trans e.2.symm
  have hdigits := Digits.rank_inj hlen hrank
  obtain ⟨⟨b, ds⟩, hd⟩ := d
  obtain ⟨⟨b', es⟩, he⟩ := e
  simp_all

/-- How `mortie` packs the cells of one order: the words of a base cell are contiguous and
ascend with the rank. -/
structure Mortie.Packing (m : Mortie) (o : Nat) where
  word : Cell o → Word
  cell : Base → Nat
  cell_inj : ∀ a b, cell a = cell b → a = b
  word_lt : ∀ d e : Cell o, word d < word e ↔
    cell d.1.base < cell e.1.base ∨ d.1.base = e.1.base ∧ d.1.decimalRank < e.1.decimalRank
  repr_word : ∀ d, m.decimalRepr (word d) = some d.1.chars
  word_repr : ∀ d : Cell o, m.decimalToWord d.1.chars = some (word d)

namespace Mortie.Packing

variable {m : Mortie} (p : m.Packing o)

def code (d : Cell o) : Nat := p.cell d.1.base * (4 ^ o + 1) + d.1.decimalRank

theorem code_lt_of_cell {d e : Cell o} (h : p.cell d.1.base < p.cell e.1.base) :
    p.code d + 1 < p.code e := by
  have hd := d.rank_lt
  have hstep : (p.cell d.1.base + 1) * (4 ^ o + 1) ≤ p.cell e.1.base * (4 ^ o + 1) :=
    Nat.mul_le_mul_right _ h
  rw [Nat.add_mul, Nat.one_mul] at hstep
  rw [code, code]
  omega

theorem word_lt_iff (d e : Cell o) : p.word d < p.word e ↔ p.code d < p.code e := by
  rw [p.word_lt]
  rcases Nat.lt_trichotomy (p.cell d.1.base) (p.cell e.1.base) with h | h | h
  · have hcode := p.code_lt_of_cell h
    exact iff_of_true (.inl h) (by omega)
  · have hbase := p.cell_inj _ _ h
    rw [code, code, h]
    simp [hbase]
  · have hcode := p.code_lt_of_cell h
    have hbase : d.1.base ≠ e.1.base := fun heq => by rw [heq] at h; omega
    refine iff_of_false ?_ (by omega)
    rintro (hlt | ⟨heq, -⟩)
    · omega
    · exact hbase heq

theorem code_inj {d e : Cell o} (h : p.code d = p.code e) : d = e := by
  rcases Nat.lt_trichotomy (p.cell d.1.base) (p.cell e.1.base) with hc | hc | hc
  · have hcode := p.code_lt_of_cell hc
    omega
  · rw [code, code, hc] at h
    exact Cell.ext (p.cell_inj _ _ hc) (by omega)
  · have hcode := p.code_lt_of_cell hc
    omega

theorem word_inj {d e : Cell o} (h : p.word d = p.word e) : d = e := by
  have hde : ¬p.code d < p.code e := mt (p.word_lt_iff d e).mpr (Nat.not_lt.mpr h.ge)
  have hed : ¬p.code e < p.code d := mt (p.word_lt_iff e d).mpr (Nat.not_lt.mpr h.le)
  exact p.code_inj (by omega)

def nextCell (d e : Cell o) : Bool := e.1.base = d.1.base ∧ e.1.decimalRank = d.1.decimalRank + 1

theorem follows_code (d e : Cell o) : follows (p.code d) (p.code e) = nextCell d e := by
  rw [follows, nextCell, decide_eq_decide]
  rcases Nat.lt_trichotomy (p.cell d.1.base) (p.cell e.1.base) with h | h | h
  · have hcode := p.code_lt_of_cell h
    have hbase : e.1.base ≠ d.1.base := fun heq => by rw [heq] at h; omega
    exact iff_of_false (by omega) fun hc => hbase hc.1
  · have hbase := p.cell_inj _ _ h
    rw [code, code, h]
    simp only [hbase, true_and]
    omega
  · have hcode := p.code_lt_of_cell h
    have hbase : e.1.base ≠ d.1.base := fun heq => by rw [heq] at h; omega
    exact iff_of_false (by omega) fun hc => hbase hc.1

/-- The code after a base cell's last one is no cell's. -/
theorem code_ne_free (d : Cell o) (b : Base) : p.code d ≠ p.cell b * (4 ^ o + 1) + 4 ^ o := by
  have hd := d.rank_lt
  rw [code]
  rcases Nat.lt_trichotomy (p.cell d.1.base) (p.cell b) with h | h | h
  · have hstep := Nat.mul_le_mul_right (4 ^ o + 1) (show p.cell d.1.base + 1 ≤ p.cell b from h)
    rw [Nat.add_mul, Nat.one_mul] at hstep
    omega
  · rw [h]
    omega
  · have hstep := Nat.mul_le_mul_right (4 ^ o + 1) (show p.cell b + 1 ≤ p.cell d.1.base from h)
    rw [Nat.add_mul, Nat.one_mul] at hstep
    omega

end Mortie.Packing

/-- The cells of a range, ends included. -/
def InRun (r : Cell o × Cell o) (d : Cell o) : Prop :=
  d.1.base = r.1.1.base ∧ r.1.1.decimalRank ≤ d.1.decimalRank ∧ d.1.decimalRank ≤ r.2.1.decimalRank

/-- The maximal runs of consecutive cells of a key set, each within one base cell, in the
order of the packed words. -/
structure MaximalRuns {m : Mortie} (p : m.Packing o) (keys : List (Cell o))
    (runs : List (Cell o × Cell o)) : Prop where
  within : ∀ r ∈ runs, r.1.1.base = r.2.1.base ∧ r.1.1.decimalRank ≤ r.2.1.decimalRank
  covers : ∀ d, d ∈ keys ↔ ∃ r ∈ runs, InRun r d
  maximal : ∀ r ∈ runs, ∀ d ∈ keys,
    Mortie.Packing.nextCell d r.1 = false ∧ Mortie.Packing.nextCell r.2 d = false
  increasing : runs.Pairwise fun a b => p.word a.2 < p.word b.1
  disjoint : runs.Pairwise fun a b => ∀ d, ¬(InRun a d ∧ InRun b d)

namespace Mortie.Packing

variable {m : Mortie} (p : m.Packing o)

theorem inRun_iff {r : Cell o × Cell o} (hbase : r.1.1.base = r.2.1.base) (d : Cell o) :
    InRun r d ↔ p.code r.1 ≤ p.code d ∧ p.code d ≤ p.code r.2 := by
  rcases Nat.lt_trichotomy (p.cell d.1.base) (p.cell r.1.1.base) with h | h | h
  · have hcode := p.code_lt_of_cell h
    refine iff_of_false (fun hr => ?_) (by omega)
    rw [hr.1] at h
    omega
  · have hd := p.cell_inj _ _ h
    rw [InRun, code, code, code, ← hbase, hd]
    simp only [true_and]
    omega
  · have hcode := p.code_lt_of_cell (hbase ▸ h)
    refine iff_of_false (fun hr => ?_) (by omega)
    rw [hr.1] at h
    omega

theorem maximalRuns {keys : List (Cell o)} (h : (keys.map p.code).Pairwise (· < ·)) :
    MaximalRuns p keys (runEnds nextCell keys) := by
  have hmap := runEnds_map p.code p.follows_code keys
  obtain ⟨-, happart, hbounds⟩ := runEnds_spec h
  rw [hmap] at happart hbounds
  have hcodes : ∀ n, n ∈ keys.map p.code ↔
      ∃ r ∈ runEnds nextCell keys, p.code r.1 ≤ n ∧ n ≤ p.code r.2 := by
    intro n
    rw [mem_runEnds h, hmap]
    simp only [List.mem_map, exists_exists_and_eq_and, Prod.map_fst, Prod.map_snd]
  have hkeys : ∀ d, d ∈ keys ↔ p.code d ∈ keys.map p.code := fun d =>
    (List.mem_map_of_injective fun _ _ => p.code_inj).symm
  have hends : ∀ r ∈ runEnds nextCell keys, p.code r.1 ≤ p.code r.2 := fun r hr =>
    hbounds _ (List.mem_map_of_mem hr)
  have hbase : ∀ r ∈ runEnds nextCell keys, r.1.1.base = r.2.1.base := by
    intro r hr
    have hle := hends r hr
    rcases Nat.lt_trichotomy (p.cell r.1.1.base) (p.cell r.2.1.base) with hc | hc | hc
    · -- the free code of the first base cell would lie inside the run
      have hr1 := r.1.rank_lt
      have hstep := Nat.mul_le_mul_right (4 ^ o + 1)
        (show p.cell r.1.1.base + 1 ≤ p.cell r.2.1.base from hc)
      rw [Nat.add_mul, Nat.one_mul] at hstep
      have hfree : p.cell r.1.1.base * (4 ^ o + 1) + 4 ^ o ∈ keys.map p.code := by
        refine (hcodes _).mpr ⟨r, hr, ?_, ?_⟩
        · rw [code]
          omega
        · rw [code]
          omega
      obtain ⟨d, -, hd⟩ := List.mem_map.mp hfree
      exact absurd hd (p.code_ne_free d _)
    · exact p.cell_inj _ _ hc
    · have hcode := p.code_lt_of_cell hc
      omega
  have hdisjoint : (runEnds nextCell keys).Pairwise fun a b => p.code a.2 + 1 < p.code b.1 :=
    List.pairwise_map.mp happart
  refine ⟨fun r hr => ⟨hbase r hr, ?_⟩, fun d => ?_, fun r hr d hd => ?_, ?_, ?_⟩
  · have hle := hends r hr
    rw [code, code, hbase r hr] at hle
    omega
  · rw [hkeys, hcodes]
    refine exists_congr fun r => and_congr_right fun hr => ?_
    exact (p.inRun_iff (hbase r hr) d).symm
  · have hmax := runEnds_maximal h (hmap ▸ List.mem_map_of_mem hr)
    have hd := (hkeys d).mp hd
    rw [← p.follows_code, ← p.follows_code, follows, follows, decide_eq_false_iff_not,
      decide_eq_false_iff_not]
    refine ⟨fun heq => hmax.2 _ heq.symm hd, fun heq => hmax.1 ?_⟩
    change p.code r.2 + 1 ∈ _
    rwa [← heq]
  · refine hdisjoint.imp fun hab => (p.word_lt_iff _ _).mpr (by omega)
  · refine hdisjoint.imp_of_mem fun {a b} ha hb hab d hd => ?_
    have h1 := (p.inRun_iff (hbase a ha) d).mp hd.1
    have h2 := (p.inRun_iff (hbase b hb) d).mp hd.2
    omega

end Mortie.Packing

/-! ## Encoding and decoding -/

theorem sameRun_chars (d e : Cell o) :
    sameRun d.1.chars e.1.chars = .ok (Mortie.Packing.nextCell d e) := by
  rw [sameRun, decimalBase_chars, decimalBase_chars, decimalRank_chars, decimalRank_chars,
    Mortie.Packing.nextCell]
  simp only [baseText_eq_iff]
  split_ifs with h
  · change Except.ok _ = Except.ok _
    simp only [h, true_and, Except.ok.injEq, decide_eq_decide]
    omega
  · simp [h, pure, Except.pure]

/-- The cells of a run, printed. -/
def runTexts (r : Cell o × Cell o) : Text × Text := (r.1.1.chars, r.2.1.chars)

theorem rangesFrom_chars (s d : Cell o) (l : List (Cell o)) :
    rangesFrom s.1.chars d.1.chars (l.map fun e => e.1.chars) =
      .ok ((runsFrom Mortie.Packing.nextCell s d l).map runTexts) := by
  induction l generalizing s d with
  | nil => rfl
  | cons e l ih =>
    rw [List.map_cons, rangesFrom, sameRun_chars, runsFrom]
    change (if Mortie.Packing.nextCell d e = true then _ else _) = _
    split_ifs
    · exact ih s e
    · rw [ih e e]
      rfl

theorem pair_run (r : Cell o × Cell o) :
    Json.pair (.arr [textJson (runTexts r).1, textJson (runTexts r).2]) =
      .ok (.str (String.ofList r.1.1.chars), .str (String.ofList r.2.1.chars)) := rfl

theorem text_chars (t : Text) : Json.text (.str (String.ofList t)) = .ok t := by
  rw [Json.text, String.toList_ofList]

/-- A cell is determined by its base and its rank's digit tail. -/
theorem exists_cell (b : Base) {r : Nat} (h : r < 4 ^ o) :
    ∃ d : Cell o, d.1.base = b ∧ d.1.decimalRank = r ∧ d.1.chars = baseText b ++ rankTail r o := by
  obtain ⟨ds, hlen, hrank⟩ := Digits.exists_rank_eq h
  have htail := rankTail_rank ds
  rw [hlen, hrank] at htail
  refine ⟨⟨⟨b, ds⟩, hlen⟩, rfl, hrank, ?_⟩
  rw [chars_eq, htail]

/-- A range within one base cell decodes to its cells. -/
theorem rangeDecimals_run {r : Cell o × Cell o} (hbase : r.1.1.base = r.2.1.base)
    (hrank : r.1.1.decimalRank ≤ r.2.1.decimalRank) :
    ∃ cells : List (Cell o),
      rangeDecimals o (.arr [textJson (runTexts r).1, textJson (runTexts r).2]) =
        .ok (cells.map fun d => d.1.chars) ∧ ∀ d, d ∈ cells ↔ InRun r d := by
  have hhi := r.2.rank_lt
  have hcell : ∀ k : Nat, ∃ d : Cell o, r.1.1.decimalRank + k ≤ r.2.1.decimalRank →
      d.1.base = r.1.1.base ∧ d.1.decimalRank = r.1.1.decimalRank + k ∧
        d.1.chars = baseText r.1.1.base ++ rankTail (r.1.1.decimalRank + k : Nat) o := by
    intro k
    by_cases hk : r.1.1.decimalRank + k ≤ r.2.1.decimalRank
    · obtain ⟨d, hd⟩ := exists_cell r.1.1.base (show r.1.1.decimalRank + k < 4 ^ o by omega)
      exact ⟨d, fun _ => hd⟩
    · exact ⟨r.1, fun h => absurd h hk⟩
  choose cellAt hcellAt using hcell
  refine ⟨(List.range (r.2.1.decimalRank + 1 - r.1.1.decimalRank)).map cellAt, ?_, fun d => ?_⟩
  · have hlen : ((r.2.1.decimalRank : Int) + 1 - r.1.1.decimalRank).toNat =
        r.2.1.decimalRank + 1 - r.1.1.decimalRank := by omega
    rw [rangeDecimals, pair_run]
    simp only [text_chars, decimalRank_chars, decimalBase_chars, decimalOrder_chars, hbase, r.1.2,
      r.2.2, Nat.cast_le, hrank, and_self, if_true, bind, Except.bind, pure, Except.pure, hlen,
      List.map_map, Int.toNat_natCast]
    congr 1
    refine List.map_congr_left fun k hk => ?_
    rw [List.mem_range] at hk
    rw [Function.comp_apply, (hcellAt k (by omega)).2.2, hbase]
    push_cast
    rfl
  · rw [List.mem_map, InRun]
    constructor
    · rintro ⟨k, hk, rfl⟩
      rw [List.mem_range] at hk
      obtain ⟨hb, hr, -⟩ := hcellAt k (by omega)
      exact ⟨hb, by omega, by omega⟩
    · rintro ⟨hb, hlo, hhi⟩
      have hk := hcellAt (d.1.decimalRank - r.1.1.decimalRank) (by omega)
      refine ⟨d.1.decimalRank - r.1.1.decimalRank, List.mem_range.mpr (by omega), ?_⟩
      exact Cell.ext (hk.1.trans hb.symm) (by omega)

/-- What `_ranges_contain` asks of one range of the envelope. -/
theorem rangeContains_run {r : Cell o × Cell o} (hbase : r.1.1.base = r.2.1.base) (d : Cell o) :
    ∃ b, rangeContains (baseText d.1.base) d.1.decimalRank
        (.arr [textJson (runTexts r).1, textJson (runTexts r).2]) = .ok b ∧ (b = true ↔ InRun r d) := by
  rw [rangeContains, pair_run]
  simp only [text_chars, decimalBase_chars, decimalRank_chars, hbase, if_true, baseText_eq_iff,
    bind, Except.bind, pure, Except.pure, Nat.cast_le, InRun]
  split_ifs with hb hlo
  · exact ⟨_, rfl, by simp [hb, hlo]⟩
  · exact ⟨_, rfl, by simp [hlo]⟩
  · exact ⟨_, rfl, by simp [Ne.symm hb]⟩

theorem rangesJson_runs (runs : List (Cell o × Cell o)) : rangesJson (runs.map runTexts) =
    .arr (runs.map fun r => .arr [textJson (runTexts r).1, textJson (runTexts r).2]) := by
  rw [rangesJson, List.map_map]
  rfl

theorem rootCoverageWords_runs {m : Mortie} (p : m.Packing o) {keys : List (Cell o)}
    {runs : List (Cell o × Cell o)} (h : MaximalRuns p keys runs) {envelope : List (String × Json)}
    (horder : Json.item envelope "order" = .ok (.num (o : Int)))
    (hranges : Json.item envelope "ranges" = .ok (rangesJson (runs.map runTexts))) :
    rootCoverageWords m envelope = .ok (unique (keys.map p.word)) := by
  have hcells : ∀ r : Cell o × Cell o, ∃ cells : List (Cell o), r ∈ runs →
      rangeDecimals o (.arr [textJson (runTexts r).1, textJson (runTexts r).2]) =
        .ok (cells.map fun d => d.1.chars) ∧ ∀ d, d ∈ cells ↔ InRun r d := by
    intro r
    by_cases hr : r ∈ runs
    · obtain ⟨cells, hcells⟩ := rangeDecimals_run (h.within r hr).1 (h.within r hr).2
      exact ⟨cells, fun _ => hcells⟩
    · exact ⟨[], fun hr' => absurd hr' hr⟩
  choose cellsOf hcellsOf using hcells
  have hdecimals : (runs.map fun r => Json.arr [textJson (runTexts r).1, textJson (runTexts r).2]).mapM
      (rangeDecimals o) = .ok (runs.map fun r => (cellsOf r).map fun d => d.1.chars) := by
    rw [List.mapM_map]
    exact mapM_ok fun r hr => (hcellsOf r hr).1
  have hflat : (runs.map fun r => (cellsOf r).map fun d => d.1.chars).flatten =
      (runs.flatMap cellsOf).map fun d => d.1.chars := by
    rw [List.map_flatMap, List.flatMap_def]
  have hwords : ((runs.flatMap cellsOf).map fun d => d.1.chars).mapM
      (fun d => orValueError (m.decimalToWord d)) = .ok ((runs.flatMap cellsOf).map p.word) := by
    rw [List.mapM_map]
    exact mapM_ok fun d _ => by rw [Function.comp_apply, p.word_repr, orValueError]
  have hunique : unique ((runs.flatMap cellsOf).map p.word) = unique (keys.map p.word) := by
    refine eq_unique (pairwise_unique _) fun w => ?_
    rw [mem_unique, List.mem_map, List.mem_map]
    refine exists_congr fun d => and_congr_left fun _ => ?_
    rw [List.mem_flatMap, h.covers]
    exact exists_congr fun r => and_congr_right fun hr => (hcellsOf r hr).2 d
  rw [rootCoverageWords, horder, hranges, rangesJson_runs]
  simp only [bind, Except.bind, Json.toInt_num, Json.items, hdecimals, hflat, hwords, hunique, pure,
    Except.pure]

theorem rangesContain_runs {m : Mortie} {p : m.Packing o} {keys : List (Cell o)}
    {runs : List (Cell o × Cell o)} (h : MaximalRuns p keys runs) {envelope : List (String × Json)}
    (horder : Json.item envelope "order" = .ok (.num (o : Int)))
    (hranges : Json.item envelope "ranges" = .ok (rangesJson (runs.map runTexts))) (d : Decimal) :
    rangesContain envelope d.chars = .ok (decide (d ∈ keys.map Subtype.val)) := by
  rw [rangesContain, horder, hranges, rangesJson_runs]
  simp only [bind, Except.bind, Json.toInt_num, Json.items, decimalOrder_chars, decimalRank_chars,
    decimalBase_chars, pure, Except.pure, ne_eq, Nat.cast_inj]
  split_ifs with hd
  · have hcontains : ∀ r : Cell o × Cell o, ∃ b : Bool, r ∈ runs →
        rangeContains (baseText d.base) d.decimalRank
          (.arr [textJson (runTexts r).1, textJson (runTexts r).2]) = .ok b ∧
        (b = true ↔ InRun r ⟨d, hd⟩) := by
      intro r
      by_cases hr : r ∈ runs
      · obtain ⟨b, hb⟩ := rangeContains_run (h.within r hr).1 ⟨d, hd⟩
        exact ⟨b, fun _ => hb⟩
      · exact ⟨false, fun hr' => absurd hr' hr⟩
    choose has hhas using hcontains
    have hany : (runs.map fun r => Json.arr [textJson (runTexts r).1, textJson (runTexts r).2]).anyM
        (rangeContains (baseText d.base) d.decimalRank) = .ok (runs.any has) := by
      exact anyM_map_ok fun r hr => (hhas r hr).1
    have hmem : d ∈ keys.map Subtype.val ↔ runs.any has = true := by
      have hcell : d ∈ keys.map Subtype.val ↔ (⟨d, hd⟩ : Cell o) ∈ keys := by simp [hd]
      rw [hcell, h.covers, List.any_eq_true]
      exact exists_congr fun r => and_congr_right fun hr => ((hhas r hr).2).symm
    rw [hany, ← Bool.decide_coe (runs.any has)]
    simp only [hmem]
  · have hnot : d ∉ keys.map Subtype.val := by
      intro hmem
      obtain ⟨e, -, rfl⟩ := List.mem_map.mp hmem
      exact hd e.2
    rw [decide_eq_false hnot]

/-- The keys in the order of their words. -/
theorem exists_sorted {m : Mortie} (p : m.Packing o) (keys : List (Cell o)) :
    ∃ cells : List (Cell o), cells.map p.word = unique (keys.map p.word) ∧
      (∀ d, d ∈ cells ↔ d ∈ keys) ∧ (cells.map p.code).Pairwise (· < ·) := by
  have hrange : unique (keys.map p.word) ∈ Set.range (List.map p.word) := by
    rw [Set.range_list_map]
    intro w hw
    obtain ⟨d, -, hd⟩ := List.mem_map.mp (mem_unique.mp hw)
    exact ⟨d, hd⟩
  obtain ⟨cells, hcells⟩ := hrange
  refine ⟨cells, hcells, fun d => ?_, ?_⟩
  · have hword : Function.Injective p.word := fun _ _ => p.word_inj
    rw [← List.mem_map_of_injective hword, hcells, mem_unique, List.mem_map_of_injective hword]
  · have hlt := pairwise_unique (keys.map p.word)
    rw [← hcells, List.pairwise_map] at hlt
    exact List.pairwise_map.mpr (hlt.imp (p.word_lt_iff _ _).mp)

theorem MaximalRuns.congr {m : Mortie} {p : m.Packing o} {keys cells : List (Cell o)}
    {runs : List (Cell o × Cell o)} (h : MaximalRuns p cells runs) (hmem : ∀ d, d ∈ cells ↔ d ∈ keys) :
    MaximalRuns p keys runs where
  within := h.within
  covers d := (hmem d).symm.trans (h.covers d)
  maximal r hr d hd := h.maximal r hr d ((hmem d).mpr hd)
  increasing := h.increasing
  disjoint := h.disjoint

section
variable {m : Mortie} (p : m.Packing o) {keys : List (Cell o)} (generatedAt : String) (source : Json)
  (timeRange : Option (List String)) (temporal : Option Json)

theorem buildRootCoverage_ok (hne : keys ≠ []) :
    ∃ runs, buildRootCoverage m generatedAt (keys.map p.word) o source timeRange temporal =
        .ok (rootEnvelope generatedAt o source (runs.map runTexts) timeRange temporal) ∧
      MaximalRuns p keys runs := by
  obtain ⟨cells, hwords, hmem, hcodes⟩ := exists_sorted p keys
  have hdecs : (unique (keys.map p.word)).mapM (fun w => orValueError (m.decimalRepr w)) =
      .ok (cells.map fun d => d.1.chars) := by
    rw [← hwords, List.mapM_map]
    exact mapM_ok fun d _ => by rw [Function.comp_apply, p.repr_word, orValueError]
  cases cells with
  | nil =>
    obtain ⟨d, hd⟩ := List.exists_mem_of_ne_nil keys hne
    exact absurd ((hmem d).mpr hd) List.not_mem_nil
  | cons d rest =>
    have horder : ((d :: rest).map fun e : Cell o => e.1.chars).any
        (fun t => decide (decimalOrder t ≠ o)) = false := by
      rw [List.any_map, List.any_eq_false]
      intro e _
      simp [e.2]
    refine ⟨runsFrom Mortie.Packing.nextCell d d rest, ?_, (p.maximalRuns hcodes).congr hmem⟩
    rw [buildRootCoverage]
    rw [List.map_cons] at horder
    simp only [hdecs, bind, Except.bind, List.map_cons, horder, rangesFrom_chars]
    rfl

/-- The envelope of a nonempty key set decodes to the sorted unique keys; its ranges are the
maximal runs, and the containment test answers membership for every cell. -/
theorem root_coverage_round_trip (hne : keys ≠ []) :
    ∃ envelope runs, buildRootCoverage m generatedAt (keys.map p.word) o source timeRange temporal =
        .ok envelope ∧ rootCoverageWords m envelope = .ok (unique (keys.map p.word)) ∧
      Json.item envelope "ranges" = .ok (rangesJson (runs.map runTexts)) ∧ MaximalRuns p keys runs ∧
      ∀ d : Decimal, rangesContain envelope d.chars = .ok (decide (d ∈ keys.map Subtype.val)) := by
  obtain ⟨runs, hbuild, hruns⟩ := buildRootCoverage_ok p generatedAt source timeRange temporal hne
  exact ⟨_, runs, hbuild, rootCoverageWords_runs p hruns rfl rfl, rfl, hruns,
    rangesContain_runs hruns rfl rfl⟩

end

/-! ## A layout of the words -/

/-- The number of a base component, one more than the base cell. -/
def baseNumber (b : Base) : Nat := (if b.south then 7 else 1) + b.cell

def bases : List Base := [false, true].flatMap fun south => (List.finRange 6).map fun i => ⟨south, i⟩

/-- The base number in the top four of 64 bits, two bits a digit below it, the order last. -/
def packedWord (d : Decimal) : Word :=
  (baseNumber d.base * 4 ^ d.order + d.decimalRank) * 4 ^ (30 - d.order) + d.order

def packedRepr (w : Word) : Option Text :=
  let order := w % 64
  let path := w / 4 ^ (30 - order)
  (bases.find? fun b => baseNumber b = path / 4 ^ order).map fun b =>
    baseText b ++ rankTail (path % 4 ^ order : Nat) order

def packedParse (t : Text) : Option Word :=
  let tail := t.drop (decimalBase t).length
  match bases.find? fun b => baseText b = decimalBase t, decimalRank t with
  | some b, .ok rank =>
    if tail.all fun ch => ch ∈ (List.finRange 4).map Decimal.digitChar then
      some ((baseNumber b * 4 ^ tail.length + rank.toNat) * 4 ^ (30 - tail.length) + tail.length)
    else none
  | _, _ => none

def packedMortie : Mortie := ⟨packedRepr, packedParse⟩

theorem baseNumber_inj : ∀ a b, baseNumber a = baseNumber b → a = b := by
  have h : ∀ s t : Bool, ∀ i j : Fin 6, baseNumber ⟨s, i⟩ = baseNumber ⟨t, j⟩ → s = t ∧ i = j := by
    decide +kernel
  intro a b hab
  obtain ⟨hs, hi⟩ := h a.south b.south a.cell b.cell hab
  exact Base.mk.injEq .. ▸ ⟨hs, hi⟩

theorem mem_bases (b : Base) : b ∈ bases := by
  obtain ⟨south, cell⟩ := b
  cases south <;> simp [bases]

theorem find?_bases {q : Base → Bool} {b : Base} (hb : q b = true) (h : ∀ a, q a = true → a = b) :
    bases.find? q = some b := by
  cases hf : bases.find? q with
  | none => exact absurd hb (List.find?_eq_none.mp hf b (mem_bases b))
  | some a => rw [h a (List.find?_some hf)]

def packing (ho : o ≤ 27) : packedMortie.Packing o where
  word d := packedWord d.1
  cell := baseNumber
  cell_inj := baseNumber_inj
  word_lt d e := by
    have hd := d.rank_lt
    have he := e.rank_lt
    rw [packedWord, packedWord, d.2, e.2, Nat.add_lt_add_iff_right, Nat.mul_lt_mul_right (Nat.pow_pos (by decide))]
    rcases Nat.lt_trichotomy (baseNumber d.1.base) (baseNumber e.1.base) with h | h | h
    · have hstep := Nat.mul_le_mul_right (4 ^ o) (show baseNumber d.1.base + 1 ≤ _ from h)
      rw [Nat.add_mul, Nat.one_mul] at hstep
      exact iff_of_true (by omega) (.inl h)
    · have hbase := baseNumber_inj _ _ h
      rw [h]
      simp [hbase]
    · have hstep := Nat.mul_le_mul_right (4 ^ o) (show baseNumber e.1.base + 1 ≤ _ from h)
      rw [Nat.add_mul, Nat.one_mul] at hstep
      have hbase : d.1.base ≠ e.1.base := fun heq => by rw [heq] at h; omega
      refine iff_of_false (by omega) ?_
      rintro (hlt | ⟨heq, -⟩)
      · omega
      · exact hbase heq
  repr_word d := by
    have hd := d.rank_lt
    have hpow : 4 ^ (30 - o) = 64 * 4 ^ (27 - o) := by
      rw [show 30 - o = 3 + (27 - o) by omega, pow_add]
      rfl
    have hpos : 0 < 4 ^ (27 - o) := Nat.pow_pos (by decide)
    have horder : packedWord d.1 % 64 = o := by
      rw [packedWord, d.2, hpow, Nat.mul_left_comm, Nat.mul_add_mod]
      exact Nat.mod_eq_of_lt (by omega)
    have hpath : packedWord d.1 / 4 ^ (30 - o) = 4 ^ o * baseNumber d.1.base + d.1.decimalRank := by
      rw [packedWord, d.2, Nat.mul_comm _ (4 ^ (30 - o)), Nat.mul_add_div (Nat.pow_pos (by decide)),
        Nat.div_eq_of_lt (by omega), Nat.add_zero, Nat.mul_comm (baseNumber _)]
    have hbase : (4 ^ o * baseNumber d.1.base + d.1.decimalRank) / 4 ^ o = baseNumber d.1.base := by
      rw [Nat.mul_add_div (Nat.pow_pos (by decide)), Nat.div_eq_of_lt hd, Nat.add_zero]
    have hrank : (4 ^ o * baseNumber d.1.base + d.1.decimalRank) % 4 ^ o = d.1.decimalRank := by
      rw [Nat.mul_add_mod, Nat.mod_eq_of_lt hd]
    have hfind : (bases.find? fun b => baseNumber b = baseNumber d.1.base) = some d.1.base :=
      find?_bases (decide_eq_true rfl) fun a ha => baseNumber_inj _ _ (of_decide_eq_true ha)
    have htail := rankTail_rank d.1.digits
    rw [show d.1.digits.length = o from d.2] at htail
    change packedRepr _ = _
    simp only [packedRepr, horder, hpath, hbase, hrank, hfind, Option.map_some]
    rw [chars_eq, Decimal.decimalRank, htail]
  word_repr d := by
    have hfind : (bases.find? fun b => baseText b = baseText d.1.base) = some d.1.base :=
      find?_bases (decide_eq_true rfl) fun a ha => (baseText_eq_iff _ _).mp (of_decide_eq_true ha)
    have htail : d.1.chars.drop (baseText d.1.base).length = d.1.digits.map Decimal.digitChar := by
      rw [chars_eq, List.drop_left]
    have hdigits : ((d.1.digits.map Decimal.digitChar).all fun ch =>
        ch ∈ (List.finRange 4).map Decimal.digitChar) = true := by
      rw [List.all_eq_true]
      intro ch hch
      obtain ⟨i, -, rfl⟩ := List.mem_map.mp hch
      exact decide_eq_true (List.mem_map_of_mem (List.mem_finRange i))
    change packedParse _ = _
    simp only [packedParse, decimalBase_chars, hfind, decimalRank_chars, htail, hdigits, if_true,
      List.length_map]
    rfl

/-- An accepted text is a cell's decimal. -/
theorem packedParse_chars {t : Text} {w : Word} (h : packedParse t = some w) :
    ∃ d : Decimal, t = d.chars := by
  rw [packedParse] at h
  cases hfind : bases.find? fun b => baseText b = decimalBase t with
  | none =>
    rw [hfind] at h
    cases h
  | some b =>
    have hfound := List.find?_some hfind
    have hbase : baseText b = decimalBase t := of_decide_eq_true hfound
    simp only [hfind] at h
    split at h
    · next b' rank _ _ =>
      split_ifs at h with hall
      apply exists_chars hbase.symm
      intro ch hch
      have hmem := of_decide_eq_true (List.all_eq_true.mp hall ch hch)
      obtain ⟨i, -, hi⟩ := List.mem_map.mp hmem
      exact ⟨i, hi.symm⟩
    · cases h

/-- Two southern neighbours and a northern cell. -/
theorem root_coverage_round_trip_mixed :
    ∃ envelope runs,
      buildRootCoverage packedMortie "2026-01-01T00:00:00Z"
        ([⟨⟨⟨true, 0⟩, [0, 3]⟩, rfl⟩, ⟨⟨⟨false, 2⟩, [1, 1]⟩, rfl⟩, ⟨⟨⟨true, 0⟩, [1, 0]⟩, rfl⟩].map
          (packing (by decide : 2 ≤ 27)).word) 2 (.str "dispatcher") none none = .ok envelope ∧
      rootCoverageWords packedMortie envelope = .ok (unique
        ([⟨⟨⟨true, 0⟩, [0, 3]⟩, rfl⟩, ⟨⟨⟨false, 2⟩, [1, 1]⟩, rfl⟩, ⟨⟨⟨true, 0⟩, [1, 0]⟩, rfl⟩].map
          (packing (by decide : 2 ≤ 27)).word)) ∧
      Json.item envelope "ranges" = .ok (rangesJson (runs.map runTexts)) ∧
      MaximalRuns (packing (by decide : 2 ≤ 27))
        [⟨⟨⟨true, 0⟩, [0, 3]⟩, rfl⟩, ⟨⟨⟨false, 2⟩, [1, 1]⟩, rfl⟩, ⟨⟨⟨true, 0⟩, [1, 0]⟩, rfl⟩] runs ∧
      ∀ d : Decimal, rangesContain envelope d.chars = .ok (decide (d ∈
        [(⟨⟨true, 0⟩, [0, 3]⟩ : Decimal), ⟨⟨false, 2⟩, [1, 1]⟩, ⟨⟨true, 0⟩, [1, 0]⟩])) :=
  root_coverage_round_trip (packing (by decide : 2 ≤ 27)) "2026-01-01T00:00:00Z" (.str "dispatcher")
    none none (List.cons_ne_nil _ _)

end Zagg.Hive
