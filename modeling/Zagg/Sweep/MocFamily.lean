import Zagg.Hive.RootRoundTrip
import Zagg.Lib.JsonEq
import Zagg.Sweep.IncrementalSweep
import Zagg.Windows.RangeUnion

/-!
# The coverage family of the sweep

A rollup of the `moc` family is a ranges body: the shard cells at or below its node and the
union of their stamps' time ranges. A leaf contributes its own cell. Merging bodies unites
both, so what a body tells is a set of facts, and the facts of a merge are those of its parts.
-/
namespace Zagg.Sweep

open Zagg.Lib
open Zagg.Hive (Mortie Cell MaximalRuns Text runTexts rangesJson decimalOrder
  orValueError buildRootCoverage rootCoverageWords rootCoverageWords_runs buildRootCoverage_ok
  decimalOrder_chars packedMortie packing)
open Zagg.Windows (Instant Stamp unionTimeRange goodUnion goodRange optionJson rangeJson seconds
  Reads union_of_harmless harmless_of_good goodRange_optionJson optionJson_seconds join join_some
  join_eq_none readStr readIso readIso_reads dayEntry)
open Zagg.Catalog (Word unique mem_unique pairwise_unique eq_unique)

/-- A payload as the fold handles it. -/
abbrev Body := List (String × Json)

section Code
variable (m : Mortie) (str : Json → String) (fromisoformat : String → Option Stamp)

/-- `[str(t) for t in time_range]`; `None` leaves the member out. -/
def timeTexts : Json → Option (List String)
  | .arr items => some (items.map str)
  | _ => none

/-- A rollup's ranges body: the root envelope without its carrier fields, the clock's reading
among them. -/
def mocPayload (words : List Word) (timeRange : Json) : Except PyError Body := do
  match words with
  | [] => throw .indexError
  | word :: _ =>
    let order := decimalOrder (← orValueError (m.decimalRepr word))
    let union ← unionTimeRange str fromisoformat [timeRange]
    let envelope ← buildRootCoverage m "" words order (.str "dispatcher") (timeTexts str union) none
    return [("encoding", .str "ranges"), ("order", ← Json.item envelope "order"),
      ("ranges", ← Json.item envelope "ranges")] ++
      Hive.optional "time_range" (envelope.lookup "time_range")

/-- The fold: a union of words, and of time ranges. Concatenating nothing raises. -/
def mocMerge (payloads : List Body) : Except PyError Body := do
  if payloads.isEmpty then throw .valueError
  let words ← payloads.mapM (rootCoverageWords m)
  let union ← unionTimeRange str fromisoformat (payloads.map fun p => Json.field p "time_range")
  mocPayload m str fromisoformat (unique words.flatten) union

end Code

variable {o : Nat} {m : Mortie} {str : Json → String} {fromisoformat : String → Option Stamp}

/-! ## Bodies -/

def bodyFields (o : Nat) (ranges : List (Text × Text)) (span : Option (Instant × Instant)) : Body :=
  [("encoding", .str "ranges"), ("order", .num (o : Int)), ("ranges", rangesJson ranges)] ++
    Hive.optional "time_range" (span.map rangeJson)

/-- The body lists the cells `keys` and spans `span`, which is kept to the second. -/
structure IsBody (pk : m.Packing o) (body : Body) (keys : List (Cell o))
    (span : Option (Instant × Instant)) : Prop where
  keys_ne : keys ≠ []
  whole : span.map seconds = span
  runs : ∃ runs, MaximalRuns pk keys runs ∧ body = bodyFields o (runs.map runTexts) span

theorem field_bodyFields (ranges : List (Text × Text)) (span : Option (Instant × Instant)) :
    Json.field (bodyFields o ranges span) "time_range" = optionJson span := by
  cases span <;> rfl

namespace IsBody

variable {pk : m.Packing o} {body : Body} {keys : List (Cell o)} {span : Option (Instant × Instant)}

theorem words (h : IsBody pk body keys span) :
    rootCoverageWords m body = .ok (unique (keys.map pk.word)) := by
  obtain ⟨runs, hruns, rfl⟩ := h.runs
  exact rootCoverageWords_runs pk hruns rfl rfl

theorem timeRange (h : IsBody pk body keys span) : Json.field body "time_range" = optionJson span := by
  obtain ⟨runs, -, rfl⟩ := h.runs
  exact field_bodyFields _ _

theorem congr {cells : List (Cell o)} (h : IsBody pk body keys span) (hmem : ∀ d, d ∈ keys ↔ d ∈ cells) :
    IsBody pk body cells span := by
  obtain ⟨runs, hruns, hbody⟩ := h.runs
  refine ⟨?_, h.whole, runs, hruns.congr hmem, hbody⟩
  obtain ⟨d, hd⟩ := List.exists_mem_of_ne_nil _ h.keys_ne
  exact List.ne_nil_of_mem ((hmem d).mp hd)

end IsBody

section Fold
variable (pk : m.Packing o) (hreads : Reads str fromisoformat)
include hreads

theorem unionTimeRange_good {ranges : List Json}
    (h : ∀ r ∈ ranges, r = .null ∨ (goodRange str fromisoformat r).isSome) :
    unionTimeRange str fromisoformat ranges =
      .ok (optionJson ((goodUnion str fromisoformat ranges).map seconds)) := by
  rw [optionJson_seconds]
  exact union_of_harmless hreads (harmless_of_good h)

theorem timeTexts_option (span : Option (Instant × Instant)) :
    (timeTexts str (optionJson span)).map (fun ts => Json.arr (ts.map Json.str)) =
      span.map rangeJson := by
  cases span with
  | none => rfl
  | some range =>
    show some (Json.arr [.str (str (.str _)), .str (str (.str _))]) = _
    rw [hreads.text, hreads.text]
    rfl

omit hreads in
theorem seconds_seconds (span : Option (Instant × Instant)) :
    (span.map seconds).map seconds = span.map seconds := by
  cases span with
  | none => rfl
  | some range =>
    rw [Option.map_some, Option.map_some, seconds, seconds, Instant.second_second,
      Instant.second_second]

theorem goodUnion_option (span : Option (Instant × Instant)) :
    goodUnion str fromisoformat [optionJson span] = span.map seconds := by
  rw [goodUnion, List.filterMap_cons, goodRange_optionJson hreads]
  cases span <;> rfl

theorem good_optionJson (span : Option (Instant × Instant)) :
    optionJson span = .null ∨ (goodRange str fromisoformat (optionJson span)).isSome := by
  rw [goodRange_optionJson hreads]
  cases span with
  | none => exact .inl rfl
  | some range => exact .inr rfl

/-- The payload of some cells is a body that lists them. -/
theorem mocPayload_ok {keys : List (Cell o)} (hne : keys ≠ []) {range : Json}
    (hrange : range = .null ∨ (goodRange str fromisoformat range).isSome) :
    ∃ body, mocPayload m str fromisoformat (keys.map pk.word) range = .ok body ∧
      IsBody pk body keys ((goodUnion str fromisoformat [range]).map seconds) := by
  cases keys with
  | nil => exact absurd rfl hne
  | cons d rest =>
    have hunion := unionTimeRange_good hreads (List.forall_mem_singleton.mpr hrange)
    obtain ⟨runs, hbuild, hruns⟩ := buildRootCoverage_ok pk "" (.str "dispatcher") (timeTexts str
      (optionJson ((goodUnion str fromisoformat [range]).map seconds))) none hne
    rw [List.map_cons] at hbuild ⊢
    refine ⟨_, ?_, hne, seconds_seconds _, runs, hruns, rfl⟩
    have horder : decimalOrder d.1.chars = o := by rw [decimalOrder_chars, d.2]
    rw [mocPayload]
    simp only [pk.repr_word, orValueError, hunion, bind, Except.bind, pure, Except.pure, horder, hbuild]
    have htime := timeTexts_option hreads ((goodUnion str fromisoformat [range]).map seconds)
    generalize timeTexts str (optionJson ((goodUnion str fromisoformat [range]).map seconds)) = texts
      at htime ⊢
    rw [bodyFields, ← htime]
    cases texts <;> rfl

section Parts
variable {pk} {parts : List (Body × List (Cell o) × Option (Instant × Instant))}
  (h : ∀ part ∈ parts, IsBody pk part.1 part.2.1 part.2.2)
include h

omit hreads in
/-- The words of some bodies are those of the cells they list. -/
theorem mapM_words : ∃ words, (parts.map (·.1)).mapM (rootCoverageWords m) = .ok words ∧
    unique words.flatten = unique ((parts.flatMap (·.2.1)).map pk.word) := by
  refine ⟨parts.map fun part => unique (part.2.1.map pk.word), ?_, ?_⟩
  · rw [List.mapM_map]
    exact mapM_ok fun part hp => (h part hp).words
  · apply eq_unique (pairwise_unique _)
    intro w
    rw [mem_unique, List.mem_flatten, List.map_flatMap, List.mem_flatMap]
    simp only [List.mem_map, exists_exists_and_eq_and, mem_unique]

omit hreads in
/-- A join of spans is kept to the second. -/
theorem join_whole : (join (parts.filterMap (·.2.2))).map seconds = join (parts.filterMap (·.2.2)) := by
  cases hjoin : join (parts.filterMap (·.2.2)) with
  | none => rfl
  | some range =>
    obtain ⟨⟨low, hlow, hfst, -⟩, high, hhigh, hsnd, -⟩ := join_some hjoin
    have hsec : ∀ r ∈ parts.filterMap (·.2.2), seconds r = r := by
      intro r hr
      obtain ⟨part, hp, hpr⟩ := List.mem_filterMap.mp hr
      have hw := (h part hp).whole
      rw [hpr] at hw
      exact Option.some.inj hw
    have h1 := congrArg Prod.fst (hsec low hlow)
    have h2 := congrArg Prod.snd (hsec high hhigh)
    rw [seconds, hfst] at h1
    rw [seconds, hsnd] at h2
    exact congrArg some (Prod.ext h1 h2)

/-- The union of the bodies' time ranges. -/
theorem goodUnion_parts : goodUnion str fromisoformat (parts.map fun part => optionJson part.2.2) =
    join (parts.filterMap (·.2.2)) := by
  rw [goodUnion, List.filterMap_map]
  apply congrArg join
  apply List.filterMap_congr
  intro part hp
  rw [Function.comp_apply, goodRange_optionJson hreads, (h part hp).whole]

omit hreads in
theorem map_timeRange : (parts.map (·.1)).map (fun b => Json.field b "time_range") =
    parts.map fun part => optionJson part.2.2 := by
  rw [List.map_map]
  exact List.map_congr_left fun part hp => (h part hp).timeRange

theorem unionTimeRange_parts :
    unionTimeRange str fromisoformat ((parts.map (·.1)).map fun b => Json.field b "time_range") =
      .ok (optionJson (join (parts.filterMap (·.2.2)))) := by
  have hgood : ∀ r ∈ parts.map fun part => optionJson part.2.2,
      r = .null ∨ (goodRange str fromisoformat r).isSome := by
    intro r hr
    obtain ⟨part, -, rfl⟩ := List.mem_map.mp hr
    exact good_optionJson hreads _
  rw [map_timeRange h, unionTimeRange_good hreads hgood, goodUnion_parts hreads h, join_whole h]

omit hreads in
/-- The listed cells, in the order of their words. -/
theorem exists_cells (hne : parts ≠ []) : ∃ cells : List (Cell o), cells ≠ [] ∧
    cells.map pk.word = unique ((parts.flatMap (·.2.1)).map pk.word) ∧
    ∀ d, d ∈ cells ↔ d ∈ parts.flatMap (·.2.1) := by
  obtain ⟨cells, hwords, hmem, -⟩ := Hive.exists_sorted pk (parts.flatMap (·.2.1))
  refine ⟨cells, ?_, hwords, hmem⟩
  obtain ⟨part, hp⟩ := List.exists_mem_of_ne_nil _ hne
  obtain ⟨d, hd⟩ := List.exists_mem_of_ne_nil _ (h part hp).keys_ne
  exact List.ne_nil_of_mem ((hmem d).mpr (List.mem_flatMap.mpr ⟨part, hp, hd⟩))

/-- Merging bodies lists the cells of all and spans what they span. -/
theorem mocMerge_ok (hne : parts ≠ []) :
    ∃ body, mocMerge m str fromisoformat (parts.map (·.1)) = .ok body ∧
      IsBody pk body (parts.flatMap (·.2.1)) (join (parts.filterMap (·.2.2))) := by
  obtain ⟨words, hwords, hunique⟩ := mapM_words h
  obtain ⟨cells, hcells, hcellWords, hmem⟩ := exists_cells h hne
  have hempty : (parts.map (·.1)).isEmpty = false := by
    rw [List.isEmpty_map]
    exact List.isEmpty_eq_false_iff.mpr hne
  obtain ⟨body, hbody, his⟩ := mocPayload_ok pk hreads hcells
    (good_optionJson hreads (join (parts.filterMap (·.2.2))))
  refine ⟨body, ?_, ?_⟩
  · rw [mocMerge, hempty]
    simp only [hwords, unionTimeRange_parts hreads h, hunique, bind, Except.bind, Bool.false_eq_true,
      if_false]
    rw [← hcellWords]
    exact hbody
  · apply IsBody.congr _ hmem
    rwa [goodUnion_option hreads, join_whole h, join_whole h] at his

end Parts

end Fold

/-! ## Facts -/

/-- What a body tells: a shard it lists, an instant its span reaches from below or above. -/
inductive Fact (o : Nat) where
  | lists (d : Cell o)
  | since (t : Instant)
  | upTo (t : Instant)

/-- The facts a reader takes from a body. -/
def Tells (pk : m.Packing o) (str : Json → String) (fromisoformat : String → Option Stamp) (body : Body) :
    Fact o → Prop
  | .lists d => ∃ words, rootCoverageWords m body = .ok words ∧ pk.word d ∈ words
  | .since t => ∃ range, goodRange str fromisoformat (Json.field body "time_range") = some range ∧
      range.1 ≤ t
  | .upTo t => ∃ range, goodRange str fromisoformat (Json.field body "time_range") = some range ∧
      t ≤ range.2

theorem IsBody.tells_lists {pk : m.Packing o} {body : Body} {keys : List (Cell o)}
    {span : Option (Instant × Instant)} (h : IsBody pk body keys span) (d : Cell o) :
    Tells pk str fromisoformat body (.lists d) ↔ d ∈ keys := by
  have hword : Function.Injective pk.word := fun _ _ => pk.word_inj
  rw [Tells, h.words]
  constructor
  · intro htells
    obtain ⟨words, hwords, hd⟩ := htells
    obtain rfl := Except.ok.inj hwords
    rwa [mem_unique, List.mem_map_of_injective hword] at hd
  · intro hd
    exact ⟨_, rfl, mem_unique.mpr (List.mem_map_of_mem hd)⟩

section Spans
variable (hreads : Reads str fromisoformat) {pk : m.Packing o} {body : Body} {keys : List (Cell o)}
  {span : Option (Instant × Instant)}
include hreads

theorem IsBody.goodRange (h : IsBody pk body keys span) :
    goodRange str fromisoformat (Json.field body "time_range") = span := by
  rw [h.timeRange, goodRange_optionJson hreads, h.whole]

omit hreads in
/-- A join reaches below an instant when one of its spans does, and above it likewise. -/
theorem exists_join (rs : List (Instant × Instant)) (t : Instant) :
    ((∃ r, join rs = some r ∧ r.1 ≤ t) ↔ ∃ r ∈ rs, r.1 ≤ t) ∧
      ((∃ r, join rs = some r ∧ t ≤ r.2) ↔ ∃ r ∈ rs, t ≤ r.2) := by
  cases hjoin : join rs with
  | none =>
    rw [join_eq_none.mp hjoin]
    simp
  | some range =>
    obtain ⟨⟨low, hlow, hfst, hleast⟩, high, hhigh, hsnd, hmost⟩ := join_some hjoin
    simp only [Option.some.injEq, exists_eq_left']
    constructor
    · exact ⟨fun ht => ⟨low, hlow, hfst ▸ ht⟩, fun ht => ht.elim fun r hr => (hleast r hr.1).trans hr.2⟩
    · exact ⟨fun ht => ⟨high, hhigh, hsnd ▸ ht⟩, fun ht => ht.elim fun r hr => hr.2.trans (hmost r hr.1)⟩

/-- The facts of a merged body are those of its parts. -/
theorem tells_merge {parts : List (Body × List (Cell o) × Option (Instant × Instant))}
    (h : ∀ part ∈ parts, IsBody pk part.1 part.2.1 part.2.2)
    (hbody : IsBody pk body (parts.flatMap (·.2.1)) (join (parts.filterMap (·.2.2)))) (x : Fact o) :
    Tells pk str fromisoformat body x ↔ ∃ part ∈ parts, Tells pk str fromisoformat part.1 x := by
  have hparts : ∀ P : Instant × Instant → Prop, (∃ r ∈ parts.filterMap (·.2.2), P r) ↔
      ∃ part ∈ parts, ∃ r, goodRange str fromisoformat (Json.field part.1 "time_range") = some r ∧ P r := by
    intro P
    constructor
    · intro hr
      obtain ⟨r, hr, hP⟩ := hr
      obtain ⟨part, hp, hpr⟩ := List.mem_filterMap.mp hr
      exact ⟨part, hp, r, ((h part hp).goodRange hreads).trans hpr, hP⟩
    · intro hpart
      obtain ⟨part, hp, r, hr, hP⟩ := hpart
      exact ⟨r, List.mem_filterMap.mpr ⟨part, hp, ((h part hp).goodRange hreads).symm.trans hr⟩, hP⟩
  cases x with
  | lists d =>
    rw [hbody.tells_lists, List.mem_flatMap]
    exact exists_congr fun part => and_congr_right fun hp => ((h part hp).tells_lists d).symm
  | since t =>
    rw [Tells, hbody.goodRange hreads, (exists_join _ t).1]
    exact hparts _
  | upTo t =>
    rw [Tells, hbody.goodRange hreads, (exists_join _ t).2]
    exact hparts _

/-- Two spans that tell the same are the same. -/
theorem span_ext {body' : Body} {keys' : List (Cell o)} {span' : Option (Instant × Instant)}
    (h : IsBody pk body keys span) (h' : IsBody pk body' keys' span')
    (htells : ∀ x, Tells pk str fromisoformat body x ↔ Tells pk str fromisoformat body' x) : span = span' := by
  have hsince : ∀ t, (∃ r, span = some r ∧ r.1 ≤ t) ↔ ∃ r, span' = some r ∧ r.1 ≤ t := by
    intro t
    have hx := htells (.since t)
    rwa [Tells, Tells, h.goodRange hreads, h'.goodRange hreads] at hx
  have hupTo : ∀ t, (∃ r, span = some r ∧ t ≤ r.2) ↔ ∃ r, span' = some r ∧ t ≤ r.2 := by
    intro t
    have hx := htells (.upTo t)
    rwa [Tells, Tells, h.goodRange hreads, h'.goodRange hreads] at hx
  cases span with
  | none =>
    cases span' with
    | none => rfl
    | some r' =>
      obtain ⟨r, hr, -⟩ := (hsince r'.1).mpr ⟨r', rfl, le_refl _⟩
      cases hr
  | some r =>
    cases span' with
    | none =>
      obtain ⟨r', hr', -⟩ := (hsince r.1).mp ⟨r, rfl, le_refl _⟩
      cases hr'
    | some r' =>
      obtain ⟨a, ha, ha'⟩ := (hsince r.1).mp ⟨r, rfl, le_refl _⟩
      obtain ⟨b, hb, hb'⟩ := (hsince r'.1).mpr ⟨r', rfl, le_refl _⟩
      obtain ⟨e, he, he'⟩ := (hupTo r.2).mp ⟨r, rfl, le_refl _⟩
      obtain ⟨f, hf, hf'⟩ := (hupTo r'.2).mpr ⟨r', rfl, le_refl _⟩
      cases ha; cases hb; cases he; cases hf
      exact congrArg some (Prod.ext (le_antisymm hb' ha') (le_antisymm he' hf'))

end Spans

/-! ## The family -/

theorem rangesJson_pyEq {ranges ranges' : List (Text × Text)}
    (h : (rangesJson ranges).pyEq (rangesJson ranges') = true) : ranges = ranges' := by
  rw [rangesJson, rangesJson, Json.pyEq, Json.pyEqItems_iff, List.forall₂_map_left_iff,
    List.forall₂_map_right_iff] at h
  induction h with
  | nil => rfl
  | cons hr _ ih =>
    rw [Json.pyEq, Json.pyEqItems_iff, List.forall₂_cons, List.forall₂_cons] at hr
    have h1 := of_decide_eq_true hr.1
    have h2 := of_decide_eq_true hr.2.1
    rw [ih, Prod.ext (String.ofList_injective h1) (String.ofList_injective h2)]

theorem rangeJson_pyEq {range range' : Instant × Instant}
    (h : (rangeJson range).pyEq (rangeJson range') = true) : rangeJson range = rangeJson range' := by
  rw [rangeJson, rangeJson, Json.pyEq, Json.pyEqItems_iff, List.forall₂_cons, List.forall₂_cons] at h
  have h1 := of_decide_eq_true h.1
  have h2 := of_decide_eq_true h.2.1
  rw [rangeJson, rangeJson, h1, h2]

theorem distinct_texts (texts : List String) : (Json.arr (texts.map Json.str)).Distinct := by
  apply Json.Distinct.arr
  intro item hitem
  obtain ⟨t, -, rfl⟩ := List.mem_map.mp hitem
  exact .str t

theorem distinct_bodyFields (ranges : List (Text × Text)) (span : Option (Instant × Instant)) :
    (Json.obj (bodyFields o ranges span)).Distinct := by
  have hranges : (rangesJson ranges).Distinct := by
    apply Json.Distinct.arr
    intro item hitem
    obtain ⟨r, -, rfl⟩ := List.mem_map.mp hitem
    exact distinct_texts [String.ofList r.1, String.ofList r.2]
  cases span with
  | none =>
    apply Json.Distinct.obj (by simp [bodyFields, Hive.optional])
    intro f hf
    simp only [bodyFields, Hive.optional, Option.map_none, List.append_nil, List.mem_cons, List.not_mem_nil,
      or_false] at hf
    rcases hf with rfl | rfl | rfl
    · exact .str _
    · exact .num _
    · exact hranges
  | some range =>
    apply Json.Distinct.obj (by simp [bodyFields, Hive.optional])
    intro f hf
    simp only [bodyFields, Hive.optional, Option.map_some, List.cons_append, List.nil_append, List.mem_cons,
      List.not_mem_nil, or_false] at hf
    rcases hf with rfl | rfl | rfl | rfl
    · exact .str _
    · exact .num _
    · exact hranges
    · exact distinct_texts [_, _]

/-- Python's `==` tells bodies apart. -/
theorem bodyFields_pyEq_iff {ranges ranges' : List (Text × Text)} {span span' : Option (Instant × Instant)} :
    (Json.obj (bodyFields o ranges span)).pyEq (.obj (bodyFields o ranges' span')) = true ↔
      bodyFields o ranges span = bodyFields o ranges' span' := by
  constructor
  · intro h
    obtain ⟨hlen, hall⟩ := Json.pyEq_obj_iff.mp h
    obtain ⟨other, hother, heq⟩ := hall ("ranges", rangesJson ranges) (by simp [bodyFields])
    obtain rfl : rangesJson ranges' = other := Option.some.inj hother
    have hspan : span.map rangeJson = span'.map rangeJson := by
      cases span with
      | none =>
        cases span' with
        | none => rfl
        | some range' => simp [bodyFields, Hive.optional] at hlen
      | some range =>
        cases span' with
        | none => simp [bodyFields, Hive.optional] at hlen
        | some range' =>
          obtain ⟨other, hother, heq⟩ := hall ("time_range", rangeJson range) (by simp [bodyFields, Hive.optional])
          obtain rfl : rangeJson range' = other := Option.some.inj hother
          exact congrArg some (rangeJson_pyEq heq)
    rw [bodyFields, bodyFields, rangesJson_pyEq heq, hspan]
  · intro h
    rw [h]
    exact Json.pyEq_refl (distinct_bodyFields _ _)

/-- A payload the family folds: a body. -/
def MocPayload (pk : m.Packing o) := { body : Body // ∃ keys span, IsBody pk body keys span }

/-- The facts of a payload. -/
def facts (pk : m.Packing o) (str : Json → String) (fromisoformat : String → Option Stamp)
    (p : MocPayload pk) : Set (Fact o) := {x | Tells pk str fromisoformat p.1 x}

theorem mem_facts {pk : m.Packing o} {p : MocPayload pk} {x : Fact o} :
    x ∈ facts pk str fromisoformat p ↔ Tells pk str fromisoformat p.1 x := Iff.rfl

/-- The skip test compares payloads with `==`. -/
instance instDecidableEqMocPayload (pk : m.Packing o) : DecidableEq (MocPayload pk) := fun a b =>
  decidable_of_iff ((Json.obj a.1).pyEq (.obj b.1) = true) (by
    obtain ⟨body, keys, span, -, -, runs, -, rfl⟩ := a
    obtain ⟨body', keys', span', -, -, runs', -, rfl⟩ := b
    rw [bodyFields_pyEq_iff]
    exact Subtype.mk.injEq .. ▸ Iff.rfl)

section Family
variable (pk : m.Packing o) (hreads : Reads str fromisoformat)

theorem exists_parts (ps : List (MocPayload pk)) :
    ∃ parts : List (Body × List (Cell o) × Option (Instant × Instant)),
      parts.map (·.1) = ps.map (·.1) ∧ (parts = [] ↔ ps = []) ∧
      (∀ P : Body → Prop, (∃ part ∈ parts, P part.1) ↔ ∃ p ∈ ps, P p.1) ∧
      ∀ part ∈ parts, IsBody pk part.1 part.2.1 part.2.2 := by
  have hall : ∀ p : MocPayload pk, ∃ part : List (Cell o) × Option (Instant × Instant),
      IsBody pk p.1 part.1 part.2 := by
    intro p
    obtain ⟨keys, span, h⟩ := p.2
    exact ⟨(keys, span), h⟩
  choose part hpart using hall
  refine ⟨ps.map fun p => (p.1, part p), ?_, List.map_eq_nil_iff, fun P => ?_, ?_⟩
  · rw [List.map_map]
    rfl
  · simp only [List.mem_map, exists_exists_and_eq_and]
  · intro q hq
    obtain ⟨p, -, rfl⟩ := List.mem_map.mp hq
    exact hpart p

include hreads in
/-- The fold of payloads is a payload that tells what they tell. -/
theorem mocMerge_tells {ps : List (MocPayload pk)} {body : Body}
    (h : mocMerge m str fromisoformat (ps.map (·.1)) = .ok body) :
    (∃ keys span, IsBody pk body keys span) ∧ ps ≠ [] ∧
      ∀ x, Tells pk str fromisoformat body x ↔ ∃ p ∈ ps, Tells pk str fromisoformat p.1 x := by
  have hne : ps ≠ [] := by
    rintro rfl
    cases h
  obtain ⟨parts, hparts, hnil, hsame, hall⟩ := exists_parts pk ps
  obtain ⟨body', hbody, his⟩ := mocMerge_ok hreads hall (mt hnil.mp hne)
  rw [hparts, h] at hbody
  obtain rfl := Except.ok.inj hbody
  refine ⟨⟨_, _, his⟩, hne, fun x => ?_⟩
  rw [tells_merge hreads hall his]
  exact hsame fun body => Tells pk str fromisoformat body x

/-- `MocFamily.merge`; it looks at neither the node nor its order. -/
def mocFold (ps : List (MocPayload pk)) (_node : Decimal) (_order : Nat) : Option (MocPayload pk) :=
  match h : mocMerge m str fromisoformat (ps.map (·.1)) with
  | .ok body => some ⟨body, (mocMerge_tells pk hreads h).1⟩
  | .error _ => none

theorem mocFold_isSome (ps : List (MocPayload pk)) (d : Decimal) (k : Nat) (hne : ps ≠ []) :
    (mocFold pk hreads ps d k).isSome = true := by
  obtain ⟨parts, hparts, hnil, -, hall⟩ := exists_parts pk ps
  obtain ⟨body, hbody, -⟩ := mocMerge_ok hreads hall (mt hnil.mp hne)
  rw [hparts] at hbody
  unfold mocFold
  split
  · rfl
  · next err herr =>
    rw [hbody] at herr
    cases herr

theorem mocFold_tells : UnionOfWords (facts pk str fromisoformat) (mocFold pk hreads) := by
  intro ps d k p hp x
  unfold mocFold at hp
  split at hp
  · next body hbody =>
    obtain rfl := Option.some.inj hp
    exact (mocMerge_tells pk hreads hbody).2.2 x
  · cases hp

/-- The family over a store's digit tree. -/
def mocProduct (L T : Type) (root : String) : Product L (MocPayload pk) T where
  root := root
  shardOrder := o
  family := "moc"
  merge := mocFold pk hreads

end Family

/-! ## Histories -/

section Below
variable {L P T : Type} [DecidableEq P] [LinearOrder L] [LinearOrder T] {pr : Product L P T}

/-- The payloads of the leaves at or below a node. -/
def standing (pr : Product L P T) (h : Hive L P T) (refs : List (Decimal × Window L)) (d : Decimal) :
    List P :=
  (refs.filter fun ref => ref.1.order = pr.shardOrder ∧ ref.1.startsWith d = true).filterMap
    fun ref => (h.leaves ref.1 ref.2).map Prod.fst

omit [DecidableEq P] [LinearOrder L] [LinearOrder T] in
theorem mem_standing {h : Hive L P T} {refs : List (Decimal × Window L)} {d : Decimal} {p : P} :
    p ∈ standing pr h refs d ↔ ∃ s w ts, (s, w) ∈ refs ∧ s.order = pr.shardOrder ∧
      s.startsWith d = true ∧ h.leaves s w = some (p, ts) := by
  simp only [standing, List.mem_filterMap, List.mem_filter, decide_eq_true_eq, Option.map_eq_some_iff]
  constructor
  · intro hmem
    obtain ⟨⟨s, w⟩, ⟨href, ho, hs⟩, ⟨q, ts⟩, hl, rfl⟩ := hmem
    exact ⟨s, w, ts, href, ho, hs, hl⟩
  · intro hmem
    obtain ⟨s, w, ts, href, ho, hs, hl⟩ := hmem
    exact ⟨(s, w), ⟨href, ho, hs⟩, (p, ts), hl, rfl⟩

omit [DecidableEq P] [LinearOrder L] [LinearOrder T] in
theorem standing_mono {h : Hive L P T} {refs : List (Decimal × Window L)} {a d : Decimal}
    (hd : d.startsWith a = true) {p : P} (hp : p ∈ standing pr h refs d) : p ∈ standing pr h refs a := by
  obtain ⟨s, w, ts, href, ho, hs, hl⟩ := mem_standing.mp hp
  exact mem_standing.mpr ⟨s, w, ts, href, ho, Decimal.startsWith_trans hs hd, hl⟩

section Words
variable {W : Type} {words : P → Set W} (hm : ∀ ps d o, ps ≠ [] → (pr.merge ps d o).isSome = true)
  (hu : UnionOfWords words pr.merge) {h : Hive L P T} {refs : List (Decimal × Window L)}
include hu

omit [DecidableEq P] in
/-- A word of the ideal rollup is a leaf's below it. -/
theorem standing_of_ideal : ∀ k d, d.order + k = pr.shardOrder → ∀ v, pr.ideal h refs k d = some v →
    ∀ x ∈ words v.2, ∃ p ∈ standing pr h refs d, x ∈ words p := by
  intro k
  induction k with
  | zero =>
    intro d hd v hv x hx
    obtain ⟨w, hw, p, ts, hread, hxp⟩ := (shardFold_words hu hv x).mp hx
    obtain ⟨-, hl⟩ := (fam_readLeaf_got pr).mp hread
    exact ⟨p, mem_standing.mpr ⟨d, w, ts, Work.mem_windowsOf.mp hw, hd, Decimal.startsWith_refl d, hl⟩, hxp⟩
  | succ k ih =>
    intro d hd v hv x hx
    obtain ⟨u, hu', hxu⟩ := (interiorFold_words hu hv x).mp hx
    obtain ⟨child, hc, hview⟩ := List.mem_filterMap.mp hu'
    obtain ⟨g, rfl⟩ := Decimal.mem_children.mp hc
    obtain ⟨p, hp, hxp⟩ := ih _ (by rw [Decimal.order_child]; omega) u hview x hxu
    exact ⟨p, standing_mono (Decimal.startsWith_of_mem_children hc) hp, hxp⟩

include hm in
omit [DecidableEq P] in
/-- A leaf's word is a word of the ideal rollup above it. -/
theorem ideal_of_standing {k : Nat} {d : Decimal} (hd : d.order + k = pr.shardOrder) {p : P}
    (hp : p ∈ standing pr h refs d) {x : W} (hx : x ∈ words p) :
    ∃ v, pr.ideal h refs k d = some v ∧ x ∈ words v.2 := by
  obtain ⟨s, w, ts, href, ho, hs, hl⟩ := mem_standing.mp hp
  obtain ⟨t, rfl⟩ := Decimal.startsWith_iff.mp hs
  have hk : t.length = k := by
    rw [Decimal.order_extend] at ho
    omega
  rw [← hk]
  exact ideal_words hm hu refs hx t d href hl

end Words

omit [DecidableEq P] [LinearOrder L] [LinearOrder T] in
theorem mem_written {es : List (Event L P T)} {s : Decimal} {w : Window L} :
    (s, w) ∈ written es ↔ ∃ p ts, Event.write s w p ts ∈ es := by
  simp only [written, List.mem_flatMap]
  constructor
  · intro hmem
    obtain ⟨e, he, hw⟩ := hmem
    cases e with
    | write d w' p ts =>
      obtain ⟨rfl, rfl⟩ := Prod.mk.inj (List.mem_singleton.mp hw)
      exact ⟨p, ts, he⟩
    | sweep leaves partition fails => cases hw
  · intro hmem
    obtain ⟨p, ts, he⟩ := hmem
    exact ⟨_, he, .head _⟩

/-- What stands at a leaf was there before or some write put it there. -/
theorem replay_leaves {es : List (Event L P T)} : ∀ {h : Hive L P T} {s : Decimal} {w : Window L} {p : P}
    {ts : Option T}, (pr.replay h es).leaves s w = some (p, ts) →
      h.leaves s w = some (p, ts) ∨ Event.write s w p ts ∈ es := by
  induction es with
  | nil => exact fun hl => .inl hl
  | cons e es ih =>
    intro h s w p ts hl
    rcases ih (h := pr.apply h e) hl with hl | he
    · cases e with
      | write d w' p' ts' =>
        simp only [Product.apply] at hl
        by_cases hs : s = d
        · subst hs
          rw [Function.update_self] at hl
          by_cases hw : w = w'
          · subst hw
            rw [Function.update_self] at hl
            cases hl
            exact .inr (.head _)
          · rw [Function.update_of_ne hw] at hl
            exact .inl hl
        · rw [Function.update_of_ne hs] at hl
          exact .inl hl
      | sweep leaves partition fails =>
        rw [Product.apply, sweep_leaves] at hl
        exact .inl hl
    · exact .inr (.tail _ he)

end Below

/-- The shard cells of a dirty set at or below a node. -/
def shardsBelow {L : Type} (o : Nat) (refs : List (Decimal × Window L)) (d : Decimal) : List (Cell o) :=
  refs.filterMap fun ref =>
    if h : ref.1.order = o then if ref.1.startsWith d then some ⟨ref.1, h⟩ else none else none

theorem mem_shardsBelow {L : Type} {refs : List (Decimal × Window L)} {d : Decimal} {s : Cell o} :
    s ∈ shardsBelow o refs d ↔ (∃ w, (s.1, w) ∈ refs) ∧ s.1.startsWith d = true := by
  simp only [shardsBelow, List.mem_filterMap]
  constructor
  · intro hmem
    obtain ⟨⟨s', w⟩, href, hs⟩ := hmem
    split_ifs at hs with ho hstart
    obtain rfl := Option.some.inj hs
    exact ⟨⟨w, href⟩, hstart⟩
  · intro hmem
    obtain ⟨⟨w, href⟩, hstart⟩ := hmem
    exact ⟨(s.1, w), href, by rw [dif_pos s.2, if_pos hstart]⟩

section Leaves
variable {L T : Type} [LinearOrder L] [LinearOrder T] {pk : m.Packing o}

/-- Every leaf written at the store's order carries what `read_leaf` makes of its stamp: its own
cell, and the stamp's time range, if it has one. -/
def LeafWrites (str : Json → String) (fromisoformat : String → Option Stamp) (pk : m.Packing o)
    (es : List (Event L (MocPayload pk) T)) : Prop :=
  ∀ (s : Cell o) w p ts, Event.write s.1 w p ts ∈ es → ∃ range,
    (range = .null ∨ (goodRange str fromisoformat range).isSome) ∧
      mocPayload m str fromisoformat [pk.word s] range = .ok p.1

/-- `stamp` holds the time ranges the standing leaves were read from. -/
def Stamped (str : Json → String) (fromisoformat : String → Option Stamp) (pk : m.Packing o)
    (h : Hive L (MocPayload pk) T) (stamp : Decimal → Window L → Json) : Prop :=
  ∀ (s : Cell o) w p ts, h.leaves s.1 w = some (p, ts) →
    (stamp s.1 w = .null ∨ (goodRange str fromisoformat (stamp s.1 w)).isSome) ∧
      mocPayload m str fromisoformat [pk.word s] (stamp s.1 w) = .ok p.1

/-- The stamps of the leaves at or below a node. -/
def stampsBelow (o : Nat) (refs : List (Decimal × Window L)) (stamp : Decimal → Window L → Json)
    (d : Decimal) : List Json :=
  (refs.filter fun ref => ref.1.order = o ∧ ref.1.startsWith d = true).map fun ref => stamp ref.1 ref.2

variable (hreads : Reads str fromisoformat) {es : List (Event L (MocPayload pk) T)}
include hreads

omit [LinearOrder L] [LinearOrder T] in
theorem LeafWrites.tells_lists (hleaf : LeafWrites str fromisoformat pk es) {s : Cell o} {w : Window L}
    {p : MocPayload pk} {ts : Option T} (he : Event.write s.1 w p ts ∈ es) (d : Cell o) :
    Tells pk str fromisoformat p.1 (.lists d) ↔ d = s := by
  obtain ⟨range, hrange, hp⟩ := hleaf s w p ts he
  obtain ⟨body, hbody, his⟩ := mocPayload_ok pk hreads (List.cons_ne_nil s []) hrange
  rw [List.map_cons, List.map_nil, hp] at hbody
  obtain rfl := Except.ok.inj hbody
  rw [his.tells_lists, List.mem_singleton]

omit [LinearOrder L] [LinearOrder T] in
/-- A standing leaf's own time range is its stamp's, kept to the second. -/
theorem Stamped.timeRange {h : Hive L (MocPayload pk) T} {stamp : Decimal → Window L → Json}
    (hst : Stamped str fromisoformat pk h stamp) {s : Cell o} {w : Window L} {p : MocPayload pk}
    {ts : Option T} (hl : h.leaves s.1 w = some (p, ts)) :
    Json.field p.1 "time_range" = optionJson (goodUnion str fromisoformat [stamp s.1 w]) := by
  obtain ⟨hgood, hp⟩ := hst s w p ts hl
  obtain ⟨body, hbody, his⟩ := mocPayload_ok pk hreads (List.cons_ne_nil s []) hgood
  rw [List.map_cons, List.map_nil, hp] at hbody
  obtain rfl := Except.ok.inj hbody
  rw [his.timeRange, optionJson_seconds]

section Node
variable (root : String)

/-- The leaves standing below a node were written by the history. -/
theorem mem_standing_replay {d : Decimal} {p : MocPayload pk} :
    let pr := mocProduct pk hreads L T root
    let final := pr.replay emptyHive es
    p ∈ standing pr final (written es) d ↔ ∃ (s : Cell o) (w : Window L) (ts : Option T),
      s.1.startsWith d = true ∧ final.leaves s.1 w = some (p, ts) ∧ Event.write s.1 w p ts ∈ es := by
  intro pr final
  rw [mem_standing]
  constructor
  · intro hp
    obtain ⟨s, w, ts, -, ho, hstart, hl⟩ := hp
    rcases replay_leaves hl with hl' | he
    · cases hl'
    · exact ⟨⟨s, ho⟩, w, ts, hstart, hl, he⟩
  · intro hp
    obtain ⟨s, w, ts, hstart, hl, he⟩ := hp
    exact ⟨s.1, w, ts, mem_written.mpr ⟨p, ts, he⟩, s.2, hstart, hl⟩

/-- The shards committed below a node are those its standing leaves list. -/
theorem mem_shardsBelow_replay (hleaf : LeafWrites str fromisoformat pk es) {d : Decimal} {s : Cell o}
    (hpresent : ∀ w, (s.1, w) ∈ written es →
      (((mocProduct pk hreads L T root).replay emptyHive es).leaves s.1 w).isSome = true) :
    let pr := mocProduct pk hreads L T root
    s ∈ shardsBelow o (written es) d ↔
      ∃ p ∈ standing pr (pr.replay emptyHive es) (written es) d,
        Tells pk str fromisoformat p.1 (.lists s) := by
  intro pr
  rw [mem_shardsBelow]
  constructor
  · intro hmem
    obtain ⟨⟨w, href⟩, hstart⟩ := hmem
    obtain ⟨⟨p, ts⟩, hl⟩ := Option.isSome_iff_exists.mp (hpresent w href)
    rcases replay_leaves hl with hl' | he
    · cases hl'
    · exact ⟨p, (mem_standing_replay hreads root).mpr ⟨s, w, ts, hstart, hl, he⟩,
        (hleaf.tells_lists hreads he s).mpr rfl⟩
  · intro hmem
    obtain ⟨p, hp, hx⟩ := hmem
    obtain ⟨s', w, ts, hstart, -, he⟩ := (mem_standing_replay hreads root).mp hp
    obtain rfl := (hleaf.tells_lists hreads he s).mp hx
    exact ⟨⟨w, mem_written.mpr ⟨p, ts, he⟩⟩, hstart⟩

omit [LinearOrder L] [LinearOrder T] in
/-- The time ranges of the standing leaves unite to those of their stamps. -/
theorem goodUnion_standing {h : Hive L (MocPayload pk) T} {stamp : Decimal → Window L → Json}
    (hst : Stamped str fromisoformat pk h stamp) {refs : List (Decimal × Window L)}
    (hpresent : ∀ ref ∈ refs, (h.leaves ref.1 ref.2).isSome = true) (d : Decimal) :
    goodUnion str fromisoformat ((standing (mocProduct pk hreads L T root) h refs d).map fun p =>
        Json.field p.1 "time_range") =
      (goodUnion str fromisoformat (stampsBelow o refs stamp d)).map seconds := by
  have hranges : (standing (mocProduct pk hreads L T root) h refs d).map
      (fun p => Json.field p.1 "time_range") =
      ((stampsBelow o refs stamp d).map fun r => [r]).map fun g => optionJson (goodUnion str fromisoformat g) := by
    rw [standing, stampsBelow, List.map_filterMap, List.map_map, List.map_map, ← List.filterMap_eq_map]
    refine List.filterMap_congr fun ref hr => ?_
    obtain ⟨href, hbelow⟩ := List.mem_filter.mp hr
    have ho : ref.1.order = o := (of_decide_eq_true hbelow).1
    obtain ⟨⟨p, ts⟩, hl⟩ := Option.isSome_iff_exists.mp (hpresent ref href)
    rw [hl]
    exact congrArg some (hst.timeRange hreads (s := ⟨ref.1, ho⟩) hl)
  rw [hranges, Windows.goodUnion_groups hreads]
  congr 2
  rw [← List.flatMap_def, List.flatMap_singleton']

variable (hclean : ∀ e ∈ es, e.Clean) {d : Decimal} (hd : d.order ≤ o) (hcovered : Covered o d es)
include hclean hd hcovered

/-- A node whose changed leaves later passes took up to it holds the ideal rollup. -/
theorem view_eq_ideal_replay :
    let pr := mocProduct pk hreads L T root
    let final := pr.replay emptyHive es
    (pr.rollup final d).map Envelope.view = pr.ideal final (written es) (o - d.order) d := by
  intro pr final
  obtain ⟨t, ht, hs⟩ := synced_replay (mocFold_isSome pk hreads) hclean (synced_empty pr)
  rw [List.nil_append] at hs
  have hview := hs.agree (o - d.order) d (show _ = o by omega)
    (quiet_of_covered [] hcovered fun ref hr => by cases hr)
  rwa [ht] at hview

/-- Its rollup tells what the leaves standing below it tell, and stands when one does. -/
theorem rollup_tells :
    let pr := mocProduct pk hreads L T root
    let final := pr.replay emptyHive es
    let leaves := standing pr final (written es) d
    (pr.rollup final d = none → ∀ p ∈ leaves, ∀ x, ¬Tells pk str fromisoformat p.1 x) ∧
    ∀ e, pr.rollup final d = some e → ∀ x, Tells pk str fromisoformat e.payload.1 x ↔
      ∃ p ∈ leaves, Tells pk str fromisoformat p.1 x := by
  intro pr final leaves
  have hview : (pr.rollup final d).map Envelope.view = pr.ideal final (written es) (o - d.order) d :=
    view_eq_ideal_replay hreads root hclean hd hcovered
  have hheight : d.order + (o - d.order) = pr.shardOrder := show _ = o by omega
  have htells : UnionOfWords (facts pk str fromisoformat) pr.merge := mocFold_tells pk hreads
  constructor
  · intro hnone p hp x hx
    obtain ⟨v, hv, -⟩ := ideal_of_standing (mocFold_isSome pk hreads) htells hheight hp (mem_facts.mpr hx)
    rw [hnone, hv] at hview
    cases hview
  · intro e he x
    rw [he, Option.map_some] at hview
    constructor
    · exact fun hx => standing_of_ideal htells _ d hheight _ hview.symm x hx
    · intro hx
      obtain ⟨p, hp, hx⟩ := hx
      obtain ⟨v, hv, hvx⟩ := ideal_of_standing (mocFold_isSome pk hreads) htells hheight hp (mem_facts.mpr hx)
      obtain rfl : e.view = v := Option.some.inj (hview.trans hv)
      exact hvx

end Node

/-- A body that tells what some payloads tell lists their cells and spans their time ranges. -/
theorem body_of_tells {body : Body} {keys : List (Cell o)} {span : Option (Instant × Instant)}
    (his : IsBody pk body keys span) {ps : List (MocPayload pk)}
    (htells : ∀ x, Tells pk str fromisoformat body x ↔ ∃ p ∈ ps, Tells pk str fromisoformat p.1 x) :
    Json.field body "time_range" =
      optionJson (goodUnion str fromisoformat (ps.map fun p => Json.field p.1 "time_range")) := by
  obtain ⟨s, hk⟩ := List.exists_mem_of_ne_nil _ his.keys_ne
  obtain ⟨q, hq, -⟩ := (htells _).mp ((his.tells_lists s).mpr hk)
  obtain ⟨parts, hparts, hnil, hbodies, hall⟩ := exists_parts pk ps
  obtain ⟨merged, -, hmerged⟩ := mocMerge_ok hreads hall (mt hnil.mp (List.ne_nil_of_mem hq))
  have hsame : ∀ x, Tells pk str fromisoformat body x ↔ Tells pk str fromisoformat merged x := by
    intro x
    rw [htells, tells_merge hreads hall hmerged]
    exact (hbodies fun body => Tells pk str fromisoformat body x).symm
  have hmap : ps.map (fun p => Json.field p.1 "time_range") =
      (ps.map (·.1)).map fun b : Body => Json.field b "time_range" := by
    rw [List.map_map]
    rfl
  rw [his.timeRange, span_ext hreads his hmerged hsame, hmap, ← hparts, map_timeRange hall,
    goodUnion_parts hreads hall]

/-- After a failure-free history of leaf commits and passes, a node whose changed leaves were each
in the work set of a later pass that walks up to it has a rollup exactly when a shard below it was
committed; it lists exactly those shards, and its time range is the union of the time ranges of
the standing leaves' stamps. -/
theorem moc_rollup_lists (root : String) (hclean : ∀ e ∈ es, e.Clean)
    (hleaf : LeafWrites str fromisoformat pk es) (d : Decimal) (hd : d.order ≤ o)
    (hcovered : Covered o d es) :
    let pr := mocProduct pk hreads L T root
    let final := pr.replay emptyHive es
    let shards := shardsBelow o (written es) d
    (pr.rollup final d = none ↔ shards = []) ∧
    ∀ e, pr.rollup final d = some e →
      rootCoverageWords m e.payload.1 = .ok (unique (shards.map pk.word)) ∧
      ∀ stamp, Stamped str fromisoformat pk final stamp →
        Json.field e.payload.1 "time_range" =
          optionJson (goodUnion str fromisoformat (stampsBelow o (written es) stamp d)) := by
  intro pr final shards
  obtain ⟨t, ht, hs⟩ := synced_replay (mocFold_isSome pk hreads) hclean (synced_empty pr)
  rw [List.nil_append] at hs
  have hpresent : ∀ s w, (s, w) ∈ written es → (final.leaves s w).isSome = true := by
    intro s w href
    have hl := (hs.present s w).mpr href
    rwa [ht] at hl
  have hshards : ∀ s, s ∈ shards ↔
      ∃ p ∈ standing pr final (written es) d, Tells pk str fromisoformat p.1 (.lists s) :=
    fun s => mem_shardsBelow_replay hreads root hleaf (hpresent s.1)
  obtain ⟨hnone, hsome⟩ := rollup_tells hreads root hclean hd hcovered
  constructor
  · constructor
    · intro h
      rw [List.eq_nil_iff_forall_not_mem]
      intro s hmem
      obtain ⟨p, hp, hx⟩ := (hshards s).mp hmem
      exact hnone h p hp _ hx
    · intro hnil
      by_contra hne
      obtain ⟨e, he⟩ := Option.ne_none_iff_exists'.mp hne
      obtain ⟨keys, span, his⟩ := e.payload.2
      obtain ⟨s, hk⟩ := List.exists_mem_of_ne_nil _ his.keys_ne
      have hmem := (hshards s).mpr ((hsome e he _).mp ((his.tells_lists s).mpr hk))
      rw [hnil] at hmem
      cases hmem
  · intro e he
    obtain ⟨keys, span, his⟩ := e.payload.2
    constructor
    · refine (his.congr fun s => ?_).words
      have hkey : Tells pk str fromisoformat e.payload.1 (.lists s) ↔ s ∈ keys := his.tells_lists s
      rw [← hkey, hsome e he, ← hshards]
    · intro stamp hst
      rw [body_of_tells hreads his (hsome e he),
        goodUnion_standing hreads root hst (fun ref href => hpresent ref.1 ref.2 href) d,
        optionJson_seconds]

end Leaves

/-- The shard `-1` followed by one digit. -/
def southShard (i : Fin 4) : Cell 1 := ⟨⟨⟨true, ⟨0, Base.cell_pos⟩⟩, [i]⟩, rfl⟩

def firstSouth : Cell 1 := southShard ⟨0, Decimal.digit_pos⟩

def secondSouth : Cell 1 := southShard ⟨1, Decimal.one_lt_digits⟩

theorem one_le_orders : 1 ≤ 27 := by decide

def onePacking : packedMortie.Packing 1 := packing one_le_orders

/-- Two shards of one base cell, the first one stamped with a day, committed and swept in turn. -/
def twoShardRun (first second : MocPayload onePacking) : List (Event Nat (MocPayload onePacking) Nat) :=
  [.write firstSouth.1 ⊥ first (some 1), .sweep [(firstSouth.1, ⊥)] none fun _ _ => false,
   .write secondSouth.1 ⊥ second (some 2), .sweep [(secondSouth.1, ⊥)] none fun _ _ => false]

theorem twoShardRun_clean (first second : MocPayload onePacking) : ∀ e ∈ twoShardRun first second, e.Clean := by
  intro e he
  simp only [twoShardRun, List.mem_cons, List.not_mem_nil, or_false] at he
  rcases he with rfl | rfl | rfl | rfl <;> simp [Event.Clean]

theorem twoShardRun_covered (first second : MocPayload onePacking) (d : Decimal) :
    Covered 1 d (twoShardRun first second) :=
  ⟨fun _ _ => sweptLater_of_mem (.head _) (.head _) rfl,
    fun _ _ => sweptLater_of_mem (.head _) (.head _) rfl, trivial⟩

/-- The first shard's stamp spans a day, the second one's nothing. -/
def twoStamps : Decimal → Window Nat → Json := fun s _ => if s = firstSouth.1 then dayEntry else .null

theorem exists_twoShardRun : ∃ first second : MocPayload onePacking,
    LeafWrites readStr readIso onePacking (twoShardRun first second) ∧
      Stamped readStr readIso onePacking
        ((mocProduct onePacking readIso_reads Nat Nat "root").replay emptyHive (twoShardRun first second))
        twoStamps := by
  have hday : dayEntry = .null ∨ (goodRange readStr readIso dayEntry).isSome := .inr (by decide +kernel)
  have hnone : Json.null = .null ∨ (goodRange readStr readIso .null).isSome := .inl rfl
  obtain ⟨body, hbody, his⟩ := mocPayload_ok onePacking readIso_reads (List.cons_ne_nil firstSouth []) hday
  obtain ⟨body', hbody', his'⟩ :=
    mocPayload_ok onePacking readIso_reads (List.cons_ne_nil secondSouth []) hnone
  let first : MocPayload onePacking := ⟨body, _, _, his⟩
  let second : MocPayload onePacking := ⟨body', _, _, his'⟩
  have hwrites : ∀ (s : Cell 1) w p ts, Event.write s.1 w p ts ∈ twoShardRun first second →
      (twoStamps s.1 w = .null ∨ (goodRange readStr readIso (twoStamps s.1 w)).isSome) ∧
        mocPayload packedMortie readStr readIso [onePacking.word s] (twoStamps s.1 w) = .ok p.1 := by
    intro s w p ts he
    simp only [twoShardRun, List.mem_cons, List.not_mem_nil, or_false, reduceCtorEq, false_or] at he
    rcases he with he | he
    · obtain ⟨hs, -, rfl, -⟩ := Event.write.inj he
      obtain rfl := Subtype.ext hs
      exact ⟨hday, hbody⟩
    · obtain ⟨hs, -, rfl, -⟩ := Event.write.inj he
      obtain rfl := Subtype.ext hs
      exact ⟨hnone, hbody'⟩
  refine ⟨first, second, fun s w p ts he => ⟨_, hwrites s w p ts he⟩, fun s w p ts hl => ?_⟩
  rcases replay_leaves hl with hl' | he
  · cases hl'
  · exact hwrites s w p ts he

theorem moc_rollup_lists_two_shards :
    ∃ first second : MocPayload onePacking,
      let es := twoShardRun first second
      let pr := mocProduct onePacking readIso_reads Nat Nat "root"
      let final := pr.replay emptyHive es
      let d : Decimal := .ofBase ⟨true, ⟨0, Base.cell_pos⟩⟩
      (pr.rollup final d = none ↔ shardsBelow 1 (written es) d = []) ∧
      ∀ e, pr.rollup final d = some e →
        rootCoverageWords packedMortie e.payload.1 =
          .ok (unique ((shardsBelow 1 (written es) d).map onePacking.word)) ∧
        Json.field e.payload.1 "time_range" =
          optionJson (goodUnion readStr readIso (stampsBelow 1 (written es) twoStamps d)) := by
  obtain ⟨first, second, hleaf, hstamped⟩ := exists_twoShardRun
  obtain ⟨hnone, hsome⟩ := moc_rollup_lists readIso_reads "root" (twoShardRun_clean first second) hleaf
    (.ofBase ⟨true, ⟨0, Base.cell_pos⟩⟩) (Nat.zero_le 1) (twoShardRun_covered first second _)
  exact ⟨first, second, hnone, fun e he => ⟨(hsome e he).1, (hsome e he).2 twoStamps hstamped⟩⟩

end Zagg.Sweep
