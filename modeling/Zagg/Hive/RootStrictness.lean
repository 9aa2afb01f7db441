import Zagg.Hive.StandingRanges

/-!
# What the root decoder lets through

`root_coverage_words` promises a `ValueError` on malformed ranges. The order, the base and the
ranks of two endpoints are compared, and the base is parsed again with every cell printed; the
digits below it are only ever used through their rank, so that a digit outside `1..4` passes
for the digits its rank prints as.
-/
namespace Zagg.Hive

open Zagg.Lib
open Zagg.Catalog (Word unique mem_unique pairwise_unique)
open Zagg.Sweep (Decimal Base)

/-- `root_coverage_words` on any JSON value; only a mapping takes the subscript. -/
def decodeRootCoverage (m : Mortie) : Json → Except PyError (List Word)
  | .obj envelope => rootCoverageWords m envelope
  | _ => .error .typeError

/-- `mortie` parses the decimals of its own cells, down to its finest order, and nothing else. -/
def Mortie.Strict (m : Mortie) (top : Nat) : Prop :=
  ∀ t, (∃ w, m.decimalToWord t = some w) ↔ ∃ d : Decimal, d.order ≤ top ∧ t = d.chars

/-! ## The claim of the decoder -/

/-- A range whose endpoints are two cells of the order, in one base cell and in order. -/
structure EndsAt (order : Int) (range : Json) (run : Decimal × Decimal) : Prop where
  pair : ∃ lo hi, range.pair = .ok (.str lo, .str hi) ∧ lo.toList = run.1.chars ∧ hi.toList = run.2.chars
  lo_order : (run.1.order : Int) = order
  hi_order : (run.2.order : Int) = order
  base : run.1.base = run.2.base
  rank : run.1.decimalRank ≤ run.2.decimalRank

/-- The cells between two ends, both included. -/
def Between (run : Decimal × Decimal) (d : Decimal) : Prop :=
  d.order = run.1.order ∧ d.base = run.1.base ∧ run.1.decimalRank ≤ d.decimalRank ∧
    d.decimalRank ≤ run.2.decimalRank

/-- Every range has two cells for its ends, and the words are those of the cells between. -/
structure ExactCells (m : Mortie) (fields : List (String × Json)) (words : List Word) : Prop where
  ranges : ∃ v n ranges runs, Json.item fields "order" = .ok v ∧ v.toInt = .ok n ∧
    rangesOf fields = .ok ranges ∧ List.Forall₂ (EndsAt n) ranges runs ∧
    ∀ w, w ∈ words ↔ ∃ run ∈ runs, ∃ d, Between run d ∧ m.decimalToWord d.chars = some w
  sorted : words.Pairwise (· < ·)

def StrictlyDecoded (m : Mortie) (envelope : Json) : Prop :=
  decodeRootCoverage m envelope = .error .valueError ∨
    ∃ fields words, envelope = .obj fields ∧ decodeRootCoverage m envelope = .ok words ∧
      ExactCells m fields words

/-! ## The envelopes it holds for -/

/-- What the decoder compares of two endpoints. -/
def Agree (order : Int) (lo hi : Text) (loRank hiRank : Int) : Prop :=
  decimalBase hi = decimalBase lo ∧ loRank ≤ hiRank ∧ decimalOrder lo = order ∧ decimalOrder hi = order

/-- Two texts of decimal digits below one base, at the order and not reversed. -/
structure Accepted (order : Int) (range : Json) (lo hi : String) (loRank hiRank : Int) : Prop where
  pair : range.pair = .ok (.str lo, .str hi)
  lo_rank : decimalRank lo.toList = .ok loRank
  hi_rank : decimalRank hi.toList = .ok hiRank
  agree : Agree order lo.toList hi.toList loRank hiRank

def Accepts (order : Int) (range : Json) : Prop :=
  ∃ lo hi loRank hiRank, Accepted order range lo hi loRank hiRank

/-- A range the decoder answers with a `ValueError`: of another length than two, with a character
that is no decimal digit below a base, or with ends that disagree. -/
inductive Rejected (order : Int) (range : Json) : Prop where
  | length (h : range.pair = .error .valueError)
  | first (lo : String) (hi : Json) (h : range.pair = .ok (.str lo, hi))
      (hrank : ∀ r, decimalRank lo.toList ≠ .ok r)
  | second (lo hi : String) (h : range.pair = .ok (.str lo, .str hi))
      (hrank : ∀ r, decimalRank hi.toList ≠ .ok r)
  | apart (lo hi : String) (loRank hiRank : Int) (h : range.pair = .ok (.str lo, .str hi))
      (hlo : decimalRank lo.toList = .ok loRank) (hhi : decimalRank hi.toList = .ok hiRank)
      (hagree : ¬Agree order lo.toList hi.toList loRank hiRank)

def ForeignBase (range : Json) : Prop :=
  ∃ lo hi, range.pair = .ok (.str lo, hi) ∧ ∀ b, decimalBase lo.toList ≠ baseText b

/-- Every digit below the base is one of `1..4`. -/
def CellDigits (decimal : Text) : Prop :=
  ∀ ch ∈ decimal.drop (decimalBase decimal).length, ∃ i : Fin 4, ch = Decimal.digitChar i

def CellEnds (range : Json) : Prop :=
  ∀ lo hi, range.pair = .ok (.str lo, .str hi) → CellDigits lo.toList ∧ CellDigits hi.toList

/-- The ranges that are refused loudly or hold cells only. -/
inductive SoundRanges (top : Nat) (order : Int) (ranges : List Json) : Prop where
  | rejected (before : List Json) (range : Json) (after : List Json)
      (split : ranges = before ++ range :: after) (haccepts : ∀ r ∈ before, Accepts order r)
      (hrejected : Rejected order range)
  | foreign (haccepts : ∀ r ∈ ranges, Accepts order r)
      (h : ∃ r ∈ ranges, ForeignBase r ∨ (top : Int) < order)
  | cells (haccepts : ∀ r ∈ ranges, Accepts order r) (h : ∀ r ∈ ranges, CellEnds r)

inductive SoundEnvelope (top : Nat) : Json → Prop where
  | order {fields : List (String × Json)} {v : Json} (horder : Json.item fields "order" = .ok v)
      (hint : v.toInt = .error .valueError) : SoundEnvelope top (.obj fields)
  | ranges {fields : List (String × Json)} {v : Json} {n : Int} {ranges : List Json}
      (horder : Json.item fields "order" = .ok v) (hint : v.toInt = .ok n)
      (hranges : rangesOf fields = .ok ranges) (h : SoundRanges top n ranges) :
      SoundEnvelope top (.obj fields)

/-! ## One range -/

/-- The cells printed for a range. -/
def rangeCells (order : Int) (lo : Text) (loRank hiRank : Int) : List Text :=
  (List.range (hiRank + 1 - loRank).toNat).map fun k : Nat =>
    decimalBase lo ++ rankTail (loRank + k) order.toNat

section
variable {order : Int} {range : Json} {lo hi : String} {loRank hiRank : Int}

theorem rangeDecimals_of_pair (hpair : range.pair = .ok (.str lo, .str hi))
    (hlo : decimalRank lo.toList = .ok loRank) (hhi : decimalRank hi.toList = .ok hiRank) :
    (Agree order lo.toList hi.toList loRank hiRank →
      rangeDecimals order range = .ok (rangeCells order lo.toList loRank hiRank)) ∧
    (¬Agree order lo.toList hi.toList loRank hiRank → rangeDecimals order range = .error .valueError) := by
  rw [rangeDecimals, hpair]
  simp only [Json.text, hlo, hhi, bind, Except.bind, pure, Except.pure, throw, throwThe,
    MonadExceptOf.throw]
  constructor
  · exact fun h => if_pos h
  · exact fun h => if_neg h

theorem Accepted.decimals (h : Accepted order range lo hi loRank hiRank) :
    rangeDecimals order range = .ok (rangeCells order lo.toList loRank hiRank) :=
  (rangeDecimals_of_pair h.pair h.lo_rank h.hi_rank).1 h.agree

/-- A range decodes, is refused, or fails with another exception. -/
theorem rangeDecimals_cases (order : Int) (range : Json) :
    (∃ lo hi loRank hiRank, Accepted order range lo hi loRank hiRank) ∨
    (rangeDecimals order range = .error .valueError ∧ Rejected order range) ∨
    ∃ err, rangeDecimals order range = .error err ∧ err ≠ .valueError ∧ ¬Rejected order range := by
  cases hpair : range.pair with
  | error err =>
    have hfails : rangeDecimals order range = .error err := by rw [rangeDecimals, hpair]; rfl
    by_cases herr : err = .valueError
    · subst herr
      exact .inr (.inl ⟨hfails, .length hpair⟩)
    · refine .inr (.inr ⟨err, hfails, herr, fun hrej => ?_⟩)
      cases hrej with
      | length h => exact herr (Except.error.inj (hpair.symm.trans h))
      | first lo hi h | second lo hi h | apart lo hi _ _ h => cases hpair.symm.trans h
  | ok ends =>
    obtain ⟨lo, hi⟩ := ends
    cases lo with
    | str lo =>
      cases hlo : decimalRank lo.toList with
      | error err =>
        obtain rfl := decimalRank_error hlo
        refine .inr (.inl ⟨?_, .first lo hi hpair fun r hr => by cases hlo.symm.trans hr⟩)
        simp [rangeDecimals, hpair, hlo, Json.text, bind, Except.bind]
      | ok loRank =>
        cases hi with
        | str hi =>
          cases hhi : decimalRank hi.toList with
          | error err =>
            obtain rfl := decimalRank_error hhi
            refine .inr (.inl ⟨?_, .second lo hi hpair fun r hr => by cases hhi.symm.trans hr⟩)
            simp [rangeDecimals, hpair, hlo, hhi, Json.text, bind, Except.bind]
          | ok hiRank =>
            by_cases hagree : Agree order lo.toList hi.toList loRank hiRank
            · exact .inl ⟨lo, hi, loRank, hiRank, hpair, hlo, hhi, hagree⟩
            · exact .inr (.inl ⟨(rangeDecimals_of_pair hpair hlo hhi).2 hagree,
                .apart lo hi loRank hiRank hpair hlo hhi hagree⟩)
        | _ =>
          refine .inr (.inr ⟨.attributeError, ?_, (fun h => by cases h), fun hrej => ?_⟩)
          · simp [rangeDecimals, hpair, hlo, Json.text, bind, Except.bind]
          · cases hrej with
            | length h => cases hpair.symm.trans h
            | first lo' hi' h hrank =>
              cases hpair.symm.trans h
              exact hrank loRank hlo
            | second lo' hi' h | apart lo' hi' _ _ h => cases hpair.symm.trans h
    | _ =>
      refine .inr (.inr ⟨.attributeError, ?_, (fun h => by cases h), fun hrej => ?_⟩)
      · simp [rangeDecimals, hpair, Json.text, bind, Except.bind]
      · cases hrej with
        | length h => cases hpair.symm.trans h
        | first lo' hi' h | second lo' hi' h | apart lo' hi' _ _ h => cases hpair.symm.trans h

theorem rangeDecimals_ok_iff : (∃ cells, rangeDecimals order range = .ok cells) ↔ Accepts order range := by
  constructor
  · rintro ⟨cells, hok⟩
    rcases rangeDecimals_cases order range with h | ⟨h, -⟩ | ⟨err, h, -⟩
    · exact h
    · exact nomatch hok.symm.trans h
    · exact nomatch hok.symm.trans h
  · rintro ⟨lo, hi, loRank, hiRank, h⟩
    exact ⟨_, h.decimals⟩

theorem rangeDecimals_valueError_iff :
    rangeDecimals order range = .error .valueError ↔ Rejected order range := by
  rcases rangeDecimals_cases order range with ⟨lo, hi, loRank, hiRank, h⟩ | ⟨h, hrej⟩ | ⟨err, h, herr, hrej⟩
  · apply iff_of_false
    · rw [h.decimals]
      nofun
    · intro hrej
      cases hrej with
      | length hpair => exact nomatch h.pair.symm.trans hpair
      | first lo' hi' hpair hrank =>
        cases h.pair.symm.trans hpair
        exact hrank loRank h.lo_rank
      | second lo' hi' hpair hrank =>
        cases h.pair.symm.trans hpair
        exact hrank hiRank h.hi_rank
      | apart lo' hi' r r' hpair hlo hhi hagree =>
        cases h.pair.symm.trans hpair
        obtain rfl := Except.ok.inj (h.lo_rank.symm.trans hlo)
        obtain rfl := Except.ok.inj (h.hi_rank.symm.trans hhi)
        exact hagree h.agree
  · exact iff_of_true h hrej
  · apply iff_of_false
    · rw [h]
      exact fun heq => herr (Except.error.inj heq)
    · exact hrej

end

/-! ## The cells of an accepted range -/

/-- Whatever the rank, its tail is digits of cells. -/
theorem rankTail_digits (rank : Int) (depth : Nat) :
    ∃ ds : List (Fin 4), ds.length = depth ∧ rankTail rank depth = ds.map Decimal.digitChar := by
  have hdigits : ∃ ds : List (Fin 4), ds.length = depth ∧
      rankDigits rank depth = ds.map Decimal.digitChar := by
    induction depth generalizing rank with
    | zero => exact ⟨[], rfl, rfl⟩
    | succ depth ih =>
      obtain ⟨ds, hlen, hds⟩ := ih (rank / 4)
      have hlt : (rank % 4).toNat < 4 := by omega
      refine ⟨⟨(rank % 4).toNat, hlt⟩ :: ds, by rw [List.length_cons, hlen], ?_⟩
      rw [rankDigits, hds]
      rfl
  obtain ⟨ds, hlen, hds⟩ := hdigits
  refine ⟨ds.reverse, by rw [List.length_reverse, hlen], ?_⟩
  rw [rankTail, hds, List.map_reverse]

/-- Below the base of a text at the order, a tail of the order's length keeps the base. -/
theorem decimalBase_tail {lo : Text} {order : Int} (h : decimalOrder lo = order) (rank : Int) :
    decimalBase (decimalBase lo ++ rankTail rank order.toNat) = decimalBase lo := by
  rw [decimalOrder] at h
  cases lo with
  | nil =>
    obtain rfl : order = -1 := by simpa using h.symm
    rfl
  | cons ch cs =>
    by_cases hsign : ch = '-'
    · subst hsign
      cases cs with
      | nil =>
        obtain rfl : order = -1 := by simpa using h.symm
        rfl
      | cons d ds => simp [decimalBase]
    · simp [decimalBase, hsign]

/-- A text is a cell's decimal exactly if its base is one and its tail is of their digits. -/
theorem exists_chars_iff {t : Text} : (∃ d : Decimal, t = d.chars) ↔
    (∃ b, decimalBase t = baseText b) ∧ CellDigits t := by
  constructor
  · rintro ⟨d, rfl⟩
    refine ⟨⟨d.base, decimalBase_chars d⟩, fun ch hch => ?_⟩
    rw [decimalBase_chars, chars_eq, List.drop_left] at hch
    obtain ⟨i, -, rfl⟩ := List.mem_map.mp hch
    exact ⟨i, rfl⟩
  · rintro ⟨⟨b, hb⟩, hdigits⟩
    exact exists_chars hb hdigits

section
variable {m : Mortie} {top : Nat} {order : Int} {range : Json} {lo hi : String} {loRank hiRank : Int}

/-- The cells printed for a range parse exactly if its base is a base cell's and its order is one
of the grammar. -/
theorem Accepted.parses (h : Accepted order range lo hi loRank hiRank) (hm : m.Strict top) :
    (∀ t ∈ rangeCells order lo.toList loRank hiRank, ∃ w, m.decimalToWord t = some w) ↔
      ¬(ForeignBase range ∨ (top : Int) < order) := by
  have horder := h.agree.2.2.1
  have hbaseOf : ForeignBase range ↔ ∀ b, decimalBase lo.toList ≠ baseText b := by
    constructor
    · rintro ⟨lo', hi', hpair, hforeign⟩
      cases h.pair.symm.trans hpair
      exact hforeign
    · exact fun hforeign => ⟨lo, .str hi, h.pair, hforeign⟩
  rw [hbaseOf, not_or, not_forall]
  simp only [not_not, not_lt]
  constructor
  · intro hparse
    have hfirst : decimalBase lo.toList ++ rankTail loRank order.toNat ∈
        rangeCells order lo.toList loRank hiRank := by
      rw [rangeCells, List.mem_map]
      have hrank := h.agree.2.1
      exact ⟨0, List.mem_range.mpr (by omega), by simp⟩
    obtain ⟨d, hd, hchars⟩ := (hm _).mp (hparse _ hfirst)
    have hbase : decimalBase lo.toList = baseText d.base := by
      rw [← decimalBase_tail horder loRank, hchars, decimalBase_chars]
    refine ⟨⟨d.base, hbase⟩, ?_⟩
    obtain ⟨ds, hlen, hds⟩ := rankTail_digits loRank order.toNat
    rw [hbase, chars_eq, hds, List.append_cancel_left_eq] at hchars
    have hlength := congrArg List.length hchars
    rw [List.length_map, List.length_map, hlen] at hlength
    rw [Decimal.order] at hd
    omega
  · rintro ⟨⟨b, hb⟩, htop⟩ t ht
    obtain ⟨k, -, rfl⟩ := List.mem_map.mp ht
    obtain ⟨ds, hlen, hds⟩ := rankTail_digits (loRank + k) order.toNat
    refine (hm _).mpr ⟨⟨b, ds⟩, ?_, ?_⟩
    · rw [Decimal.order, hlen]
      omega
    · rw [hb, hds, chars_eq]

/-- The ends of a range are cells exactly if their digits are. -/
theorem Accepted.endsAt_iff (h : Accepted order range lo hi loRank hiRank)
    (hbase : ∃ b, decimalBase lo.toList = baseText b) :
    (∃ run, EndsAt order range run) ↔ CellEnds range := by
  constructor
  · rintro ⟨run, hrun⟩ lo' hi' hpair
    obtain ⟨lo'', hi'', hpair', hlo, hhi⟩ := hrun.pair
    cases hpair.symm.trans hpair'
    exact ⟨(exists_chars_iff.mp ⟨_, hlo⟩).2, (exists_chars_iff.mp ⟨_, hhi⟩).2⟩
  · intro hcells
    obtain ⟨hlo, hhi⟩ := hcells lo hi h.pair
    obtain ⟨d, hd⟩ := exists_chars_iff.mpr ⟨hbase, hlo⟩
    obtain ⟨e, he⟩ := exists_chars_iff.mpr ⟨h.agree.1.symm ▸ hbase, hhi⟩
    obtain ⟨hsame, hrank, hordLo, hordHi⟩ := h.agree
    have hrankLo := h.lo_rank
    have hrankHi := h.hi_rank
    rw [hd, decimalRank_chars] at hrankLo
    rw [he, decimalRank_chars] at hrankHi
    rw [hd, decimalOrder_chars] at hordLo
    rw [he, decimalOrder_chars] at hordHi
    rw [hd, he, decimalBase_chars, decimalBase_chars, baseText_eq_iff] at hsame
    have hlo := Except.ok.inj hrankLo
    have hhi := Except.ok.inj hrankHi
    exact ⟨(d, e), ⟨lo, hi, h.pair, hd, he⟩, hordLo, hordHi, hsame.symm, by dsimp only; omega⟩

/-- Between two cells of a range the printed cells are the cells between. -/
theorem EndsAt.cells {run : Decimal × Decimal} (h : EndsAt order range run) {cells : List Text}
    (hcells : rangeDecimals order range = .ok cells) (t : Text) :
    t ∈ cells ↔ ∃ d, Between run d ∧ t = d.chars := by
  obtain ⟨lo, hi, hpair, hlo, hhi⟩ := h.pair
  have hordHi : run.2.order = run.1.order := by
    have h1 := h.lo_order
    have h2 := h.hi_order
    omega
  obtain ⟨ds, hds, hmem⟩ := rangeDecimals_run (r := (⟨run.1, rfl⟩, ⟨run.2, hordHi⟩)) h.base h.rank
  have hsame : rangeDecimals order range =
      rangeDecimals run.1.order (.arr [textJson run.1.chars, textJson run.2.chars]) := by
    rw [rangeDecimals, hpair, rangeDecimals]
    simp [textJson, Json.pair, Json.items, Json.text, hlo, hhi, h.lo_order, bind, Except.bind]
  rw [hsame] at hcells
  obtain rfl := Except.ok.inj (hcells.symm.trans hds)
  rw [List.mem_map]
  constructor
  · rintro ⟨d, hd, rfl⟩
    exact ⟨d.1, ⟨d.2, (hmem d).mp hd⟩, rfl⟩
  · rintro ⟨d, ⟨horder, hin⟩, rfl⟩
    exact ⟨⟨d, horder⟩, (hmem ⟨d, horder⟩).mpr hin, rfl⟩

end

/-! ## The whole envelope -/

/-- The decoder on ranges it can walk. -/
def decodeRanges (m : Mortie) (order : Int) (ranges : List Json) : Except PyError (List Word) := do
  let decimals ← ranges.mapM (rangeDecimals order)
  let words ← decimals.flatten.mapM fun d => orValueError (m.decimalToWord d)
  return unique words

section
variable {m : Mortie} {top : Nat} {order : Int} {ranges : List Json} {fields : List (String × Json)}
  {v : Json}

theorem accepts_of_decimals {decimals : List (List Text)}
    (h : ranges.mapM (rangeDecimals order) = .ok decimals) : ∀ r ∈ ranges, Accepts order r := by
  intro r hr
  obtain ⟨cells, -, hcells⟩ := ok_of_mapM h hr
  exact rangeDecimals_ok_iff.mp ⟨cells, hcells⟩

theorem rejected_iff : ranges.mapM (rangeDecimals order) = .error .valueError ↔
    ∃ before range after, ranges = before ++ range :: after ∧ (∀ r ∈ before, Accepts order r) ∧
      Rejected order range := by
  rw [mapM_error_iff]
  simp only [rangeDecimals_ok_iff, rangeDecimals_valueError_iff]

/-- Accepted ranges decode to words unless a base or the order is foreign to the grammar. -/
theorem decodeRanges_accepted (hm : m.Strict top) {decimals : List (List Text)}
    (h : ranges.mapM (rangeDecimals order) = .ok decimals) :
    (decodeRanges m order ranges = .error .valueError ∧
      ∃ r ∈ ranges, ForeignBase r ∨ (top : Int) < order) ∨
    (∀ r ∈ ranges, ¬(ForeignBase r ∨ (top : Int) < order)) ∧ ∃ words,
      decodeRanges m order ranges = .ok words ∧ words.Pairwise (· < ·) ∧
      ∀ w, w ∈ words ↔ ∃ cells ∈ decimals, ∃ t ∈ cells, m.decimalToWord t = some w := by
  have hrel := forall₂_mapM h
  have haccepts := accepts_of_decimals h
  rw [decodeRanges, h]
  simp only [bind, Except.bind]
  cases hwords : decimals.flatten.mapM fun d => orValueError (m.decimalToWord d) with
  | error err =>
    obtain ⟨t, ht, herr⟩ := mapM_error hwords
    obtain rfl := orValueError_error herr
    obtain ⟨cells, hcells, htcells⟩ := List.mem_flatten.mp ht
    obtain ⟨r, hr, hdec⟩ := forall₂_exists_of_mem_right hrel hcells
    obtain ⟨lo, hi, loRank, hiRank, hacc⟩ := haccepts r hr
    obtain rfl := Except.ok.inj (hdec.symm.trans hacc.decimals)
    refine .inl ⟨rfl, r, hr, ?_⟩
    by_contra hnative
    obtain ⟨w, hw⟩ := (hacc.parses hm).mpr hnative t htcells
    rw [hw] at herr
    cases herr
  | ok words =>
    have hparsed := forall₂_mapM hwords
    refine .inr ⟨fun r hr => ?_, unique words, rfl, pairwise_unique words, fun w => ?_⟩
    · obtain ⟨lo, hi, loRank, hiRank, hacc⟩ := haccepts r hr
      obtain ⟨cells, hcells, hdec⟩ := ok_of_mapM h hr
      obtain rfl := Except.ok.inj (hdec.symm.trans hacc.decimals)
      apply (hacc.parses hm).mp
      intro t ht
      obtain ⟨w, -, hw⟩ := ok_of_mapM hwords (List.mem_flatten.mpr ⟨_, hcells, ht⟩)
      cases hword : m.decimalToWord t with
      | none => rw [hword] at hw; cases hw
      | some w' => exact ⟨w', rfl⟩
    · rw [mem_unique]
      constructor
      · intro hw
        obtain ⟨t, ht, htw⟩ := forall₂_exists_of_mem_right hparsed hw
        obtain ⟨cells, hcells, htcells⟩ := List.mem_flatten.mp ht
        refine ⟨cells, hcells, t, htcells, ?_⟩
        cases hword : m.decimalToWord t with
        | none => rw [hword] at htw; cases htw
        | some w' => rw [hword] at htw; exact congrArg some (Except.ok.inj htw)
      · rintro ⟨cells, hcells, t, ht, hword⟩
        obtain ⟨w', hw', hok⟩ := ok_of_mapM hwords (List.mem_flatten.mpr ⟨cells, hcells, ht⟩)
        rw [hword] at hok
        rwa [← Except.ok.inj hok] at hw'

theorem decodeRootCoverage_eq (horder : Json.item fields "order" = .ok v) (hint : v.toInt = .ok order)
    (hranges : rangesOf fields = .ok ranges) :
    decodeRootCoverage m (.obj fields) = decodeRanges m order ranges := by
  rw [decodeRootCoverage, rootCoverageWords_eq horder hint, hranges]
  rfl

/-- Words decoded from accepted ranges are exact exactly if the ends are cells. -/
theorem exactCells_iff (horder : Json.item fields "order" = .ok v) (hint : v.toInt = .ok order)
    (hranges : rangesOf fields = .ok ranges) {decimals : List (List Text)}
    (h : ranges.mapM (rangeDecimals order) = .ok decimals)
    (hnative : ∀ r ∈ ranges, ¬(ForeignBase r ∨ (top : Int) < order)) {words : List Word}
    (hsorted : words.Pairwise (· < ·))
    (hmem : ∀ w, w ∈ words ↔ ∃ cells ∈ decimals, ∃ t ∈ cells, m.decimalToWord t = some w) :
    ExactCells m fields words ↔ ∀ r ∈ ranges, CellEnds r := by
  have hrel := forall₂_mapM h
  have hends : ∀ r ∈ ranges, (∃ run, EndsAt order r run) ↔ CellEnds r := by
    intro r hr
    obtain ⟨lo, hi, loRank, hiRank, hacc⟩ := accepts_of_decimals h r hr
    apply hacc.endsAt_iff
    by_contra hforeign
    exact hnative r hr (.inl ⟨lo, .str hi, hacc.pair, fun b hb => hforeign ⟨b, hb⟩⟩)
  constructor
  · rintro ⟨⟨v', n, ranges', runs, hv', hn, hranges', hruns, -⟩, -⟩ r hr
    cases horder.symm.trans hv'
    cases hint.symm.trans hn
    cases hranges.symm.trans hranges'
    obtain ⟨run, -, hrun⟩ := forall₂_exists_of_mem_right hruns.flip hr
    exact (hends r hr).mp ⟨run, hrun⟩
  · intro hcells
    have hruns : ∃ runs, List.Forall₂ (EndsAt order) ranges runs := by
      have hall : ∀ r ∈ ranges, ∃ run, EndsAt order r run := fun r hr => (hends r hr).mpr (hcells r hr)
      clear hrel hranges hends hcells hnative h
      induction ranges with
      | nil => exact ⟨[], .nil⟩
      | cons r ranges ih =>
        obtain ⟨run, hrun⟩ := hall r (.head _)
        obtain ⟨runs, hruns⟩ := ih fun r' hr' => hall r' (.tail _ hr')
        exact ⟨run :: runs, .cons hrun hruns⟩
    obtain ⟨runs, hruns⟩ := hruns
    refine ⟨⟨v, order, ranges, runs, horder, hint, hranges, hruns, fun w => ?_⟩, hsorted⟩
    -- a range, its cells and its run stand at one place of their lists
    have hcellsOf := forall₂_comp (T := fun cells run => ∀ t : Text, t ∈ cells ↔
      ∃ d, Between run d ∧ t = d.chars) (fun cells r run hdec hrun => hrun.cells hdec) hrel.flip hruns
    rw [hmem]
    constructor
    · rintro ⟨cells, hc, t, ht, hw⟩
      obtain ⟨run, hrun, hiff⟩ := forall₂_exists_of_mem_right hcellsOf.flip hc
      obtain ⟨d, hd, rfl⟩ := (hiff t).mp ht
      exact ⟨run, hrun, d, hd, hw⟩
    · rintro ⟨run, hrun, d, hd, hw⟩
      obtain ⟨cells, hc, hiff⟩ := forall₂_exists_of_mem_right hcellsOf hrun
      exact ⟨cells, hc, d.chars, (hiff _).mpr ⟨d, hd, rfl⟩, hw⟩

theorem soundRanges_iff (hm : m.Strict top) (horder : Json.item fields "order" = .ok v)
    (hint : v.toInt = .ok order) (hranges : rangesOf fields = .ok ranges) :
    StrictlyDecoded m (.obj fields) ↔ SoundRanges top order ranges := by
  rw [StrictlyDecoded, decodeRootCoverage_eq horder hint hranges]
  cases hdecimals : ranges.mapM (rangeDecimals order) with
  | error err =>
    have hfails : decodeRanges m order ranges = .error err := by rw [decodeRanges, hdecimals]; rfl
    rw [hfails]
    constructor
    · rintro (herr | ⟨_, _, -, hok, -⟩)
      · rw [Except.error.inj herr] at hdecimals
        obtain ⟨before, range, after, hsplit, hbefore, hrej⟩ := rejected_iff.mp hdecimals
        exact .rejected before range after hsplit hbefore hrej
      · exact nomatch hok
    · intro hsound
      have hnot : ¬∀ r ∈ ranges, Accepts order r := by
        intro hall
        obtain ⟨decimals, hok⟩ := exists_mapM fun r hr => rangeDecimals_ok_iff.mpr (hall r hr)
        exact nomatch hdecimals.symm.trans hok
      cases hsound with
      | rejected before range after hsplit hbefore hrej =>
        have hvalue := rejected_iff.mpr ⟨before, range, after, hsplit, hbefore, hrej⟩
        rw [Except.error.inj (hdecimals.symm.trans hvalue)]
        exact .inl rfl
      | foreign hall => exact absurd hall hnot
      | cells hall => exact absurd hall hnot
  | ok decimals =>
    have haccepts := accepts_of_decimals hdecimals
    rcases decodeRanges_accepted hm hdecimals with ⟨hfails, hforeign⟩ | ⟨hnative, words, hok, hsorted, hmem⟩
    · exact iff_of_true (.inl hfails) (.foreign haccepts hforeign)
    · have hexact := exactCells_iff horder hint hranges hdecimals hnative hsorted hmem
      rw [hok]
      constructor
      · rintro (herr | ⟨fields', words', hfields, hwords, h⟩)
        · exact nomatch herr
        · cases hfields
          cases hwords
          exact .cells haccepts (hexact.mp h)
      · intro hsound
        cases hsound with
        | rejected before range after hsplit hbefore hrej =>
          have hvalue := rejected_iff.mpr ⟨before, range, after, hsplit, hbefore, hrej⟩
          exact nomatch hdecimals.symm.trans hvalue
        | foreign _ hforeign =>
          obtain ⟨r, hr, h⟩ := hforeign
          exact absurd h (hnative r hr)
        | cells _ hcells => exact .inr ⟨fields, words, rfl, rfl, hexact.mpr hcells⟩

end

/-- The decoder is strict on exactly the envelopes whose first fault it answers with a
`ValueError` and, of those without a fault, the ones that hold cells only or a base cell or an
order that the grammar refuses. -/
theorem strictlyDecoded_iff {m : Mortie} {top : Nat} (hm : m.Strict top) (envelope : Json) :
    StrictlyDecoded m envelope ↔ SoundEnvelope top envelope := by
  cases envelope with
  | obj fields =>
    cases horder : Json.item fields "order" with
    | error err =>
      have hfails : decodeRootCoverage m (.obj fields) = .error .keyError := by
        rw [decodeRootCoverage, rootCoverageWords, horder]
        rw [Json.item] at horder
        split at horder
        · cases horder
        · rw [← Except.error.inj horder]
          rfl
      apply iff_of_false
      · rw [StrictlyDecoded, hfails]
        rintro (h | ⟨_, _, -, h, -⟩)
        · cases h
        · cases h
      · intro h
        cases h with
        | order h => cases horder.symm.trans h
        | ranges h => cases horder.symm.trans h
    | ok v =>
      cases hint : v.toInt with
      | error err =>
        have hfails : decodeRootCoverage m (.obj fields) = .error err := by
          rw [decodeRootCoverage, rootCoverageWords, horder]
          simp only [bind, Except.bind, hint]
        rw [StrictlyDecoded, hfails]
        constructor
        · rintro (h | ⟨_, _, -, h, -⟩)
          · exact .order horder (hint.trans (congrArg Except.error (Except.error.inj h)))
          · cases h
        · intro h
          cases h with
          | order h hvalue =>
            cases horder.symm.trans h
            exact .inl (congrArg Except.error (Except.error.inj (hint.symm.trans hvalue)))
          | ranges h hn =>
            cases horder.symm.trans h
            cases hint.symm.trans hn
      | ok n =>
        cases hranges : rangesOf fields with
        | error err =>
          have hfails : decodeRootCoverage m (.obj fields) = .error err := by
            rw [decodeRootCoverage, rootCoverageWords_eq horder hint, hranges]
            rfl
          rw [StrictlyDecoded, hfails]
          apply iff_of_false
          · rintro (h | ⟨_, _, -, h, -⟩)
            · cases h
              cases rangesOf_error hranges with
              | inl h => cases h
              | inr h => cases h
            · cases h
          · intro h
            cases h with
            | order h hvalue =>
              cases horder.symm.trans h
              cases hint.symm.trans hvalue
            | ranges h hn hr => cases hranges.symm.trans hr
        | ok ranges =>
          rw [soundRanges_iff hm horder hint hranges]
          constructor
          · exact fun h => .ranges horder hint hranges h
          · intro h
            cases h with
            | order h hvalue =>
              cases horder.symm.trans h
              cases hint.symm.trans hvalue
            | ranges h hn hr hs =>
              cases horder.symm.trans h
              cases hint.symm.trans hn
              cases hranges.symm.trans hr
              exact hs
  | _ =>
    apply iff_of_false
    · rintro (h | ⟨_, _, h, -⟩)
      · cases h
      · cases h
    · intro h
      cases h

/-! ## Against a concrete grammar -/

/-- The packed layout, parsed down to its finest order. -/
def strictMortie : Mortie :=
  ⟨packedRepr, fun t => if decimalOrder t ≤ 27 then packedParse t else none⟩

theorem strictMortie_strict : strictMortie.Strict 27 := by
  intro t
  constructor
  · rintro ⟨w, hw⟩
    change (if decimalOrder t ≤ 27 then packedParse t else none) = some w at hw
    split_ifs at hw with horder
    obtain ⟨d, rfl⟩ := packedParse_chars hw
    rw [decimalOrder_chars] at horder
    exact ⟨d, by omega, rfl⟩
  · rintro ⟨d, hd, rfl⟩
    have horder : decimalOrder d.chars ≤ 27 := by
      rw [decimalOrder_chars]
      omega
    exact ⟨_, (if_pos horder).trans ((packing hd).word_repr ⟨d, rfl⟩)⟩

/-- An envelope of one range at order 1. -/
def oneRange (lo hi : String) : Json :=
  .obj [("order", .num (1 : Int)), ("ranges", .arr [.arr [.str lo, .str hi]])]

theorem oneRange_ends {m : Mortie} {lo hi : String} {words : List Word} {fields : List (String × Json)}
    (hfields : oneRange lo hi = .obj fields) (h : ExactCells m fields words) :
    ∃ d e : Decimal, lo.toList = d.chars ∧ hi.toList = e.chars := by
  obtain ⟨v, n, ranges, runs, -, -, hranges, hruns, -⟩ := h.ranges
  cases hfields
  cases hranges
  obtain ⟨run, -, hrun⟩ := forall₂_exists_of_mem_right hruns.flip (.head _)
  obtain ⟨lo', hi', hpair, hlo, hhi⟩ := hrun.pair
  cases hpair
  exact ⟨run.1, run.2, hlo, hhi⟩

/-- The digit 7 passes for the digit 3. -/
theorem seven_decodes_to_three :
    decodeRootCoverage strictMortie (oneRange "17" "17") = .ok [packedWord ⟨⟨false, 0⟩, [2]⟩] ∧
      ¬StrictlyDecoded strictMortie (oneRange "17" "17") := by
  have hdecoded : decodeRootCoverage strictMortie (oneRange "17" "17") =
      .ok [packedWord ⟨⟨false, 0⟩, [2]⟩] := by decide +kernel
  refine ⟨hdecoded, ?_⟩
  rintro (h | ⟨fields, words, hfields, -, hexact⟩)
  · exact nomatch hdecoded.symm.trans h
  · obtain ⟨d, e, hd, -⟩ := oneRange_ends hfields hexact
    obtain ⟨i, hi⟩ := (exists_chars_iff.mp ⟨d, hd⟩).2 '7' (by decide)
    revert i
    decide

theorem strictlyDecoded_iff_neighbours : StrictlyDecoded strictMortie (oneRange "11" "14") :=
  (strictlyDecoded_iff strictMortie_strict _).mpr <|
    .ranges rfl (Json.toInt_num 1) rfl <| .cells
      (List.forall_mem_singleton.mpr ⟨"11", "14", 0, 3, rfl, by decide, by decide, by unfold Agree; decide⟩)
      (List.forall_mem_singleton.mpr fun lo hi h => by
        cases h
        exact ⟨(exists_chars_iff.mp ⟨⟨⟨false, 0⟩, [0]⟩, by decide⟩).2,
          (exists_chars_iff.mp ⟨⟨⟨false, 0⟩, [3]⟩, by decide⟩).2⟩)

end Zagg.Hive
