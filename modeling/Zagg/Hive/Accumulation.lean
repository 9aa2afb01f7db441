import Zagg.Hive.CoverageWrite
import Zagg.Hive.SectionMerge
import Zagg.Hive.StandingRanges

/-!
# Accumulating over whatever stands

A well-formed envelope is written over any JSON value. The write accumulates, except over
the standing objects that break one of its steps: a range endpoint or a section the decoder
does not survive, an instant past the calendar, or a time range of which one end only
parses.
-/
namespace Zagg.Hive

open Zagg.Lib
open Zagg.Catalog (Word unique mem_unique pairwise_unique eq_unique)

variable {p : Platform} {o : Nat}

/-- What the write relies on: parsed decimals are cells, the instant parser raises for a text
it does not read or an instant it cannot convert, and the time grammar's join is total. -/
structure Platform.Lawful (p : Platform) (pk : p.mortie.Packing o) (TocWord : Int → Prop) : Prop where
  parsed_word : ∀ t w, p.mortie.decimalToWord t = some w → decimalOrder t = o → ∃ d, w = pk.word d
  parse_error : ∀ v err, p.parseUtc v = .error err → err = .valueError ∨ err = .overflowError
  parse_iso : ∀ v t, p.parseUtc v = .ok t → ∃ t', p.parseUtc (.str (p.isoUtc t)) = .ok t'
  toc_bound : ∀ w, TocWord w → 0 ≤ w ∧ w < 2 ^ 64
  toc_merge : ∀ v w, TocWord v → TocWord w → ∃ u, p.tocMerge v w = .ok u ∧ TocWord u

/-- A well-formed incoming envelope of order `o`. -/
structure Incoming (p : Platform) (pk : p.mortie.Packing o) (TocWord : Int → Prop) where
  keys : List (Cell o)
  keys_ne : keys ≠ []
  generatedAt : String
  source : String
  timeRange : Option (String × String)
  times : ∀ lo hi, timeRange = some (lo, hi) →
    ∃ s t, p.parseUtc (.str lo) = .ok s ∧ p.parseUtc (.str hi) = .ok t
  carrier : Option Fields
  carrier_wf : ∀ c, carrier = some c → SectionWf TocWord c
  envelope : Fields
  built : buildRootCoverage p.mortie generatedAt (keys.map pk.word) o (.str source)
    (timeRange.map fun r => [r.1, r.2]) (carrier.map Json.obj) = .ok envelope

/-- An endpoint whose conversion to UTC leaves the calendar. -/
def Overflows (p : Platform) (range : Json) : Prop :=
  ∃ lo hi, range.pair = .ok (lo, hi) ∧ (p.parseUtc lo = .error .overflowError ∨
    (∃ s, p.parseUtc lo = .ok s) ∧ p.parseUtc hi = .error .overflowError)

/-- The start parses and the end does not. -/
def HalfParsed (p : Platform) (range : Json) : Prop :=
  ∃ lo hi s, range.pair = .ok (lo, hi) ∧ p.parseUtc lo = .ok s ∧ p.parseUtc hi = .error .valueError

section
variable {pk : p.mortie.Packing o} {TocWord : Int → Prop}

/-- The standing objects the write accumulates over. -/
def Tolerated (standing : Standing) (e : Incoming p pk TocWord) : Prop :=
  ∀ existing, standing.existing = some existing → compatible existing e.envelope = true →
    (∀ ranges, rangesOf existing = .ok ranges → nonStringEndpoint o ranges = false) ∧
    ∀ old, rootCoverageWords p.mortie existing = .ok old →
      ¬Overflows p (Json.field existing "time_range") ∧
      (HalfParsed p (Json.field existing "time_range") ∧ e.timeRange = none →
        ∀ w ∈ old, w ∈ e.keys.map pk.word) ∧
      (¬(HalfParsed p (Json.field existing "time_range") ∧ e.timeRange = none) →
        ∀ a b, usable (Json.field existing temporalKey) = some a → e.carrier = some b →
          Composes p.tocMerge a b)

/-- The write completes, lists the incoming shards, and over a compatible object whose ranges
decode it lists exactly the union. -/
def Accumulates (generatedAt : String) (standing : Standing) (e : Incoming p pk TocWord) : Prop :=
  ∃ written words, writeRootCoverage p generatedAt standing e.envelope = .ok written ∧
    rootCoverageWords p.mortie written = .ok words ∧ (∀ d ∈ e.keys, pk.word d ∈ words) ∧
    ∀ existing old, standing.existing = some existing → compatible existing e.envelope = true →
      rootCoverageWords p.mortie existing = .ok old → words = unique (old ++ e.keys.map pk.word)

/-- An object that lists the cells `keys`. -/
structure RootObject (pk : p.mortie.Packing o) (keys : List (Cell o)) (written : Fields) : Prop where
  spec : Json.field written "spec" = .str coverageSpec
  encoding : Json.field written "encoding" = .str "ranges"
  order : Json.item written "order" = .ok (.num (o : Int))
  ranges : ∃ runs, Json.item written "ranges" = .ok (rangesJson (runs.map runTexts)) ∧
    MaximalRuns pk keys runs

theorem RootObject.words {keys : List (Cell o)} {written : Fields} (h : RootObject pk keys written) :
    rootCoverageWords p.mortie written = .ok (unique (keys.map pk.word)) := by
  obtain ⟨runs, hranges, hruns⟩ := h.ranges
  exact rootCoverageWords_runs pk hruns h.order hranges

theorem item_eq_lookup {fields fields' : Fields} {key : String}
    (h : fields.lookup key = fields'.lookup key) : Json.item fields key = Json.item fields' key := by
  rw [Json.item, Json.item, h]

theorem field_eq_lookup {fields fields' : Fields} {key : String}
    (h : fields.lookup key = fields'.lookup key) : Json.field fields key = Json.field fields' key := by
  rw [Json.field, Json.field, h]

theorem RootObject.put {keys : List (Cell o)} {written : Fields} (h : RootObject pk keys written)
    (v : Json) : RootObject pk keys (put temporalKey v written) := by
  have hframe : ∀ key, key ≠ temporalKey →
      (Lib.put temporalKey v written).lookup key = written.lookup key := fun key hne =>
    lookup_put_of_ne hne v written
  obtain ⟨runs, hranges, hruns⟩ := h.ranges
  exact {
    spec := (field_eq_lookup (hframe _ (by decide))).trans h.spec
    encoding := (field_eq_lookup (hframe _ (by decide))).trans h.encoding
    order := (item_eq_lookup (hframe _ (by decide))).trans h.order
    ranges := ⟨runs, (item_eq_lookup (hframe _ (by decide))).trans hranges, hruns⟩ }

/-- What the builder makes of a nonempty key set. -/
theorem rootObject_of_build (pk : p.mortie.Packing o) {keys : List (Cell o)} (hne : keys ≠ []) (generatedAt : String)
    (source : Json) (timeRange : Option (List String)) (temporal : Option Json) :
    ∃ written, buildRootCoverage p.mortie generatedAt (keys.map pk.word) o source timeRange temporal =
        .ok written ∧ RootObject pk keys written ∧
      Json.field written "time_range" = (timeRange.map fun ts => .arr (ts.map Json.str)).getD .null ∧
      Json.field written temporalKey = temporal.getD .null := by
  obtain ⟨runs, hbuild, hruns⟩ := buildRootCoverage_ok pk generatedAt source timeRange temporal hne
  refine ⟨_, hbuild, ⟨rfl, rfl, rfl, runs, rfl, hruns⟩, ?_, ?_⟩
  · cases timeRange <;> cases temporal <;> rfl
  · cases timeRange <;> cases temporal <;> rfl

theorem Incoming.rootObject (e : Incoming p pk TocWord) : RootObject pk e.keys e.envelope ∧
    Json.field e.envelope "time_range" =
      (e.timeRange.map fun r => .arr [.str r.1, .str r.2]).getD .null ∧
    Json.field e.envelope temporalKey = (e.carrier.map Json.obj).getD .null := by
  obtain ⟨written, hbuild, hroot, htime, htemporal⟩ := rootObject_of_build pk e.keys_ne
    e.generatedAt (.str e.source) (e.timeRange.map fun r => [r.1, r.2]) (e.carrier.map Json.obj)
  obtain rfl := Except.ok.inj (hbuild.symm.trans e.built)
  refine ⟨hroot, ?_, htemporal⟩
  rw [htime, Option.map_map]
  rfl

/-- A compatible object's order reads as the incoming one. -/
theorem order_of_compatible {existing : Fields} {e : Incoming p pk TocWord}
    (h : compatible existing e.envelope = true) :
    ∃ v, Json.item existing "order" = .ok v ∧ v.toInt = .ok o := by
  have horder : Json.field e.envelope "order" = .num (o : Int) := by
    have hitem := e.rootObject.1.order
    rw [Json.item] at hitem
    rw [Json.field]
    cases hlook : e.envelope.lookup "order" with
    | none => rw [hlook] at hitem; cases hitem
    | some v => rw [hlook] at hitem; exact Except.ok.inj hitem
  rw [compatible, horder, Bool.and_eq_true] at h
  have hnumber := number_of_pyEq h.2
  rw [Json.field] at hnumber
  cases hlook : existing.lookup "order" with
  | none => rw [hlook] at hnumber; cases hnumber
  | some v =>
    rw [hlook] at hnumber
    exact ⟨v, by rw [Json.item, hlook], toInt_of_number hnumber⟩

/-- Decoded words of a standing object are cells. -/
theorem exists_cells (hp : p.Lawful pk TocWord) {existing : Fields} {v : Json}
    (horder : Json.item existing "order" = .ok v) (hint : v.toInt = .ok o) {old : List Word}
    (h : rootCoverageWords p.mortie existing = .ok old) : ∃ cells : List (Cell o), cells.map pk.word = old := by
  have hrange : old ∈ Set.range (List.map pk.word) := by
    rw [Set.range_list_map]
    intro w hw
    obtain ⟨_, _, _, t, -, -, hcells, ht, hword⟩ := mem_rootCoverageWords horder hint h hw
    obtain ⟨d, hd⟩ := hp.parsed_word t w hword (order_of_mem_rangeDecimals hcells ht)
    exact ⟨d, hd.symm⟩
  exact hrange

/-! ## The union of the time ranges -/

/-- One range overflows, gives its start alone, is dropped, or gives both ends. -/
theorem addRange_cases (hp : p.Lawful pk TocWord) (range : Json) :
    (Overflows p range ∧ ∀ ends, addRange p ends range = .error .overflowError) ∨
    (¬Overflows p range ∧ HalfParsed p range ∧
      ∃ s, ∀ ends, addRange p ends range = .ok (ends.1 ++ [s], ends.2)) ∨
    (¬Overflows p range ∧ ¬HalfParsed p range ∧ ((∀ ends, addRange p ends range = .ok ends) ∨
      ∃ lo hi s t, p.parseUtc lo = .ok s ∧ p.parseUtc hi = .ok t ∧
        ∀ ends, addRange p ends range = .ok (ends.1 ++ [s], ends.2 ++ [t]))) := by
  cases hpair : range.pair with
  | error err =>
    refine .inr (.inr ⟨?_, ?_, .inl fun ends => ?_⟩)
    · rintro ⟨lo, hi, h, -⟩
      cases hpair.symm.trans h
    · rintro ⟨lo, hi, s, h, -⟩
      cases hpair.symm.trans h
    · rw [addRange, hpair]
      split_ifs <;> rfl
  | ok pair =>
    obtain ⟨lo, hi⟩ := pair
    have hnull : range.pyEq .null = false := by
      cases range with
      | null => cases hpair
      | _ => simp [Json.pyEq, Json.number]
    have hover : Overflows p range ↔ p.parseUtc lo = .error .overflowError ∨
        (∃ s, p.parseUtc lo = .ok s) ∧ p.parseUtc hi = .error .overflowError := by
      constructor
      · rintro ⟨lo', hi', h, hov⟩
        cases hpair.symm.trans h
        exact hov
      · exact fun h => ⟨lo, hi, hpair, h⟩
    have hhalf : HalfParsed p range ↔
        ∃ s, p.parseUtc lo = .ok s ∧ p.parseUtc hi = .error .valueError := by
      constructor
      · rintro ⟨lo', hi', s, h, hs⟩
        cases hpair.symm.trans h
        exact ⟨s, hs⟩
      · intro hex
        obtain ⟨s, h⟩ := hex
        exact ⟨lo, hi, s, hpair, h⟩
    simp only [hover, hhalf, addRange, hnull, hpair]
    cases hlo : p.parseUtc lo with
    | error err =>
      rcases hp.parse_error lo err hlo with rfl | rfl
      · exact .inr (.inr (by simp))
      · exact .inl (by simp)
    | ok s =>
      cases hhi : p.parseUtc hi with
      | error err =>
        rcases hp.parse_error hi err hhi with rfl | rfl
        · exact .inr (.inl (by simp))
        · exact .inl (by simp)
      | ok t =>
        refine .inr (.inr ⟨by simp, by simp, .inr ⟨lo, hi, s, t, hlo, hhi, fun _ => by simp⟩⟩)

/-- A time range the writer produces: absent, or two instants that parse. -/
def TimesParse (p : Platform) (range : Option (List String)) : Prop :=
  range = none ∨ ∃ lo hi s t, range = some [lo, hi] ∧ p.parseUtc (.str lo) = .ok s ∧
    p.parseUtc (.str hi) = .ok t

theorem unionTimeRange_of_fold (hp : p.Lawful pk TocWord) {ranges : List Json} {starts stops : List Int}
    (h : ranges.foldlM (addRange p) ([], []) = .ok (starts, stops))
    (hstarts : ∀ s ∈ starts, ∃ v, p.parseUtc v = .ok s)
    (hstops : ∀ s ∈ stops, ∃ v, p.parseUtc v = .ok s) :
    (starts ≠ [] ∧ stops = [] → unionTimeRange p ranges = .error .valueError) ∧
    (¬(starts ≠ [] ∧ stops = []) → ∃ r, unionTimeRange p ranges = .ok r ∧ TimesParse p r) := by
  rw [unionTimeRange, h]
  cases starts with
  | nil => exact ⟨fun hne => absurd rfl hne.1, fun _ => ⟨none, rfl, .inl rfl⟩⟩
  | cons s starts =>
    cases stops with
    | nil =>
      refine ⟨fun _ => ?_, fun hne => absurd ⟨List.cons_ne_nil _ _, rfl⟩ hne⟩
      obtain ⟨lo, hlo⟩ : ∃ lo, (s :: starts).min? = some lo := ⟨_, List.min?_cons'⟩
      simp only [bind, Except.bind, hlo]
      rfl
    | cons t stops =>
      refine ⟨fun hne => absurd hne.2 (List.cons_ne_nil _ _), fun _ => ?_⟩
      obtain ⟨lo, hlo⟩ : ∃ lo, (s :: starts).min? = some lo := ⟨_, List.min?_cons'⟩
      obtain ⟨hi, hhi⟩ : ∃ hi, (t :: stops).max? = some hi := ⟨_, List.max?_cons'⟩
      obtain ⟨v, hv⟩ := hstarts lo (List.min?_mem hlo)
      obtain ⟨v', hv'⟩ := hstops hi (List.max?_mem hhi)
      obtain ⟨s', hs'⟩ := hp.parse_iso v lo hv
      obtain ⟨t', ht'⟩ := hp.parse_iso v' hi hv'
      refine ⟨some [p.isoUtc lo, p.isoUtc hi], ?_, .inr ⟨_, _, s', t', rfl, hs', ht'⟩⟩
      simp only [bind, Except.bind, hlo, hhi]
      rfl

/-- The union over a standing range and a well-formed incoming one. -/
theorem unionTimeRange_cases (hp : p.Lawful pk TocWord) (range : Json) (e : Incoming p pk TocWord) :
    (Overflows p range → unionTimeRange p [range, Json.field e.envelope "time_range"] =
      .error .overflowError) ∧
    (¬Overflows p range → HalfParsed p range ∧ e.timeRange = none →
      unionTimeRange p [range, Json.field e.envelope "time_range"] = .error .valueError) ∧
    (¬Overflows p range → ¬(HalfParsed p range ∧ e.timeRange = none) →
      ∃ r, unionTimeRange p [range, Json.field e.envelope "time_range"] = .ok r ∧ TimesParse p r) := by
  have hincoming : ∃ starts stops : List Int, (∀ ends, addRange p ends
        (Json.field e.envelope "time_range") = .ok (ends.1 ++ starts, ends.2 ++ stops)) ∧
      (e.timeRange = none → starts = [] ∧ stops = []) ∧ (e.timeRange ≠ none → stops ≠ []) ∧
      (∀ s ∈ starts, ∃ v, p.parseUtc v = .ok s) ∧ (∀ s ∈ stops, ∃ v, p.parseUtc v = .ok s) := by
    rw [e.rootObject.2.1]
    cases hrange : e.timeRange with
    | none =>
      refine ⟨[], [], fun ends => ?_, fun _ => ⟨rfl, rfl⟩, fun h => absurd rfl h, nofun, nofun⟩
      rw [List.append_nil, List.append_nil]
      rfl
    | some r =>
      obtain ⟨s, t, hs, ht⟩ := e.times r.1 r.2 hrange
      refine ⟨[s], [t], fun ends => ?_, nofun, fun _ => List.cons_ne_nil _ _, ?_, ?_⟩
      · have hpair : (Json.arr [.str r.1, .str r.2]).pair = .ok (.str r.1, .str r.2) := rfl
        simp [addRange, Json.pyEq, hpair, hs, ht]
      · exact fun _ h => List.mem_singleton.mp h ▸ ⟨_, hs⟩
      · exact fun _ h => List.mem_singleton.mp h ▸ ⟨_, ht⟩
  obtain ⟨starts, stops, hadd, hnone, hsome, hstarts, hstops⟩ := hincoming
  have hfold : ∀ s t, addRange p ([], []) range = .ok (s, t) →
      [range, Json.field e.envelope "time_range"].foldlM (addRange p) ([], []) =
        .ok (s ++ starts, t ++ stops) := by
    intro s t h
    rw [List.foldlM_cons, h]
    change List.foldlM (addRange p) (s, t) [_] = _
    rw [List.foldlM_cons, hadd]
    rfl
  rcases addRange_cases hp range with ⟨hov, hadd'⟩ | ⟨hov, hhalf, s, hadd'⟩ | ⟨hov, hhalf, hadd' | h⟩
  · refine ⟨fun _ => ?_, fun h => absurd hov h, fun h => absurd hov h⟩
    rw [unionTimeRange, List.foldlM_cons, hadd']
    rfl
  · have hparsed : ∃ v, p.parseUtc v = .ok s := by
      obtain ⟨lo, hi, s', hpair, hlo, hhi⟩ := hhalf
      have hs := hadd' ([], [])
      have hnull : range.pyEq .null = false := by
        cases range with
        | null => cases hpair
        | _ => simp [Json.pyEq, Json.number]
      simp only [addRange, hnull, hpair, hlo, hhi] at hs
      simp only [Bool.false_eq_true, if_false, Except.ok.injEq, Prod.mk.injEq, List.nil_append,
        List.cons.injEq, and_true] at hs
      exact ⟨lo, hs ▸ hlo⟩
    have hunion := unionTimeRange_of_fold hp (hfold _ _ (hadd' ([], [])))
      (by simpa using ⟨hparsed, hstarts⟩) (by simpa using hstops)
    refine ⟨fun h => absurd h hov, fun _ h => hunion.1 ⟨by simp, by simp [hnone h.2]⟩,
      fun _ h => hunion.2 fun hne => ?_⟩
    have hrange : e.timeRange ≠ none := fun heq => h ⟨hhalf, heq⟩
    exact hsome hrange (by simpa using hne.2)
  · have hunion := unionTimeRange_of_fold hp (hfold _ _ (hadd' ([], [])))
      (by simpa using hstarts) (by simpa using hstops)
    refine ⟨fun h => absurd h hov, fun _ h => absurd h.1 hhalf, fun _ _ => hunion.2 fun hne => ?_⟩
    by_cases hrange : e.timeRange = none
    · exact hne.1 (by simp [hnone hrange])
    · exact hsome hrange (by simpa using hne.2)
  · obtain ⟨lo, hi, s, t, hs, ht, hadd'⟩ := h
    have hunion := unionTimeRange_of_fold hp (hfold _ _ (hadd' ([], [])))
      (by simpa using ⟨⟨lo, hs⟩, hstarts⟩) (by simpa using ⟨⟨hi, ht⟩, hstops⟩)
    exact ⟨fun h => absurd h hov, fun _ h => absurd h.1 hhalf, fun _ _ => hunion.2 fun hne => by
      simp at hne⟩

end

end Zagg.Hive
