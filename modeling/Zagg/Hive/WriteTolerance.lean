import Zagg.Hive.Accumulation

/-!
# Which standing objects a write accumulates over

One write accumulates exactly over the tolerated standing objects. A run of writes that
starts from no object at all only ever meets objects of its own making, which are tolerated,
and ends with the union of every envelope written.
-/
namespace Zagg.Hive

open Zagg.Lib
open Zagg.Catalog (Word unique mem_unique pairwise_unique eq_unique)

variable {p : Platform} {o : Nat} {pk : p.mortie.Packing o} {TocWord : Int → Prop}

theorem usable_carrier {c : Fields} (h : SectionWf TocWord c) : usable (.obj c) = some c := by
  rw [usable, h.spec]
  simp [Json.pyEq]

/-- The incoming section, as the composition reads it. -/
theorem usable_incoming (e : Incoming p pk TocWord) :
    usable (Json.field e.envelope temporalKey) = e.carrier := by
  rw [e.rootObject.2.2]
  cases hc : e.carrier with
  | none => rfl
  | some c => exact usable_carrier (e.carrier_wf c hc)

theorem RootObject.withSection {keys : List (Cell o)} {merged : Fields} (h : RootObject pk keys merged)
    (composed : Option Fields) : RootObject pk keys (withSection merged composed) := by
  cases composed with
  | none => exact h
  | some carrier => exact h.put _

theorem timeRange_withSection (merged : Fields) (composed : Option Fields) :
    Json.field (withSection merged composed) "time_range" = Json.field merged "time_range" := by
  cases composed with
  | none => rfl
  | some carrier => exact field_eq_lookup (lookup_put_of_ne (by decide) _ _)

/-- Over an object it does not read, the write is the envelope with its own section. -/
theorem write_overwrite (e : Incoming p pk TocWord) {generatedAt : String} {standing : Standing}
    (h : mergeSpatial p generatedAt standing e.envelope = .ok (e.envelope, none)) :
    writeRootCoverage p generatedAt standing e.envelope =
      .ok (withSection e.envelope e.carrier) := by
  rw [writeRootCoverage, h]
  simp only [bind, Except.bind, Option.map_none, Option.getD_none, mergeTemporalSections,
    usable_incoming e]
  cases e.carrier <;> rfl

/-- Over an object it has read, the write goes through exactly if the sections compose. -/
theorem write_carried (e : Incoming p pk TocWord) {generatedAt : String} {standing : Standing}
    {merged existing : Fields}
    (h : mergeSpatial p generatedAt standing e.envelope = .ok (merged, some existing)) :
    ((∃ written, writeRootCoverage p generatedAt standing e.envelope = .ok written) ↔
      ∀ a b, usable (Json.field existing temporalKey) = some a → e.carrier = some b →
        Composes p.tocMerge a b) ∧
    ∀ written, writeRootCoverage p generatedAt standing e.envelope = .ok written →
      ∃ composed, mergeTemporalSections p.tocMerge (Json.field existing temporalKey)
        (Json.field e.envelope temporalKey) = .ok composed ∧ written = withSection merged composed := by
  rw [writeRootCoverage, h]
  constructor
  · simp only [exists_bind_ok, Except.ok.injEq, exists_eq_left', Option.map_some, Option.getD_some]
    have hok : ∀ composed, ∃ r, (pure (withSection merged composed) : Except PyError Fields) = .ok r :=
      fun _ => ⟨_, rfl⟩
    simp only [hok, and_true]
    rw [mergeTemporalSections_ok_iff, usable_incoming]
    refine forall₄_congr fun a b _ hb => ?_
    exact mergeUsable_ok_iff (e.carrier_wf b hb)
  · intro written hwritten
    obtain ⟨_, hmerged, hrest⟩ := bind_ok hwritten
    cases hmerged
    obtain ⟨composed, hcomposed, hreturn⟩ := bind_ok hrest
    exact ⟨composed, hcomposed, (Except.ok.inj hreturn).symm⟩

/-- The union of two envelopes, once their times union. -/
theorem unionEnvelopes_ok (hp : p.Lawful pk TocWord) (e : Incoming p pk TocWord)
    (generatedAt : String) {existing : Fields} {v : Json}
    (horder : Json.item existing "order" = .ok v) (hint : v.toInt = .ok o) {old : List Word}
    (hold : rootCoverageWords p.mortie existing = .ok old) :
    (∀ err, unionTimeRange p [Json.field existing "time_range", Json.field e.envelope "time_range"] =
        .error err → unionEnvelopes p generatedAt existing e.envelope = .error err) ∧
    ∀ times, unionTimeRange p [Json.field existing "time_range", Json.field e.envelope "time_range"] =
        .ok times → ∃ merged cells, unionEnvelopes p generatedAt existing e.envelope = .ok merged ∧
      RootObject pk cells merged ∧ cells.map pk.word = unique (old ++ e.keys.map pk.word) ∧
      Json.field merged "time_range" = (times.map fun ts => .arr (ts.map Json.str)).getD .null ∧
      Json.field merged temporalKey = .null := by
  obtain ⟨oldCells, rfl⟩ := exists_cells hp horder hint hold
  obtain ⟨cells, hcells, hmem, -⟩ := exists_sorted pk (oldCells ++ e.keys)
  rw [List.map_append] at hcells
  have hunique : unique (unique (oldCells.map pk.word ++ e.keys.map pk.word)) = cells.map pk.word := by
    rw [hcells]
    exact (eq_unique (pairwise_unique _) fun w => Iff.rfl).symm
  have hnew : unique (oldCells.map pk.word ++ unique (e.keys.map pk.word)) =
      unique (oldCells.map pk.word ++ e.keys.map pk.word) := by
    refine eq_unique (pairwise_unique _) fun w => ?_
    rw [mem_unique, List.mem_append, List.mem_append, mem_unique]
  have hne : cells ≠ [] := by
    obtain ⟨d, hd⟩ := List.exists_mem_of_ne_nil e.keys e.keys_ne
    exact List.ne_nil_of_mem ((hmem d).mpr (List.mem_append_right _ hd))
  have hroot := e.rootObject.1
  constructor
  · intro err herr
    rw [unionEnvelopes, hold, hroot.words, hroot.order]
    simp only [bind, Except.bind, Json.toInt_num, herr]
  · intro times htimes
    obtain ⟨merged, hbuild, hmerged, htime, htemporal⟩ := rootObject_of_build pk hne
      generatedAt (getDefault e.envelope "source" (.str "dispatcher")) times none
    refine ⟨merged, cells, ?_, hmerged, hcells, htime, htemporal⟩
    rw [unionEnvelopes, hold, hroot.words, hroot.order]
    simp only [bind, Except.bind, Json.toInt_num, htimes, hnew]
    rw [← hcells]
    exact hbuild

/-- The words a write carries over. -/
def carriedWords (p : Platform) (standing : Standing) (envelope : Fields) : List Word :=
  match standing.existing with
  | none => []
  | some existing =>
    if compatible existing envelope then
      match rootCoverageWords p.mortie existing with
      | .ok old => old
      | .error _ => []
    else []

/-- What a write that goes through leaves. -/
def Wrote (generatedAt : String) (standing : Standing) (e : Incoming p pk TocWord) : Prop :=
  ∃ written cells, writeRootCoverage p generatedAt standing e.envelope = .ok written ∧
    RootObject pk cells written ∧
    unique (cells.map pk.word) = unique (carriedWords p standing e.envelope ++ e.keys.map pk.word)

theorem wrote_overwrite (e : Incoming p pk TocWord) {generatedAt : String} {standing : Standing}
    (h : mergeSpatial p generatedAt standing e.envelope = .ok (e.envelope, none))
    (hcarried : ∀ w ∈ carriedWords p standing e.envelope, w ∈ e.keys.map pk.word) :
    Wrote generatedAt standing e := by
  refine ⟨_, e.keys, write_overwrite e h, e.rootObject.1.withSection _, ?_⟩
  refine eq_unique (pairwise_unique _) fun w => ?_
  rw [mem_unique, List.mem_append, or_iff_right_of_imp (hcarried w)]

theorem Wrote.accumulates {generatedAt : String} {standing : Standing} {e : Incoming p pk TocWord}
    (h : Wrote generatedAt standing e) : Accumulates generatedAt standing e := by
  obtain ⟨written, cells, hwrite, hroot, hwords⟩ := h
  refine ⟨written, _, hwrite, hroot.words, fun d hd => ?_, fun existing old hex hcompat hold => ?_⟩
  · rw [hwords, mem_unique]
    exact List.mem_append_right _ (List.mem_map_of_mem hd)
  · rw [hwords, carriedWords, hex]
    simp only [hcompat, if_true, hold]

/-- Over a compatible object whose ranges decode. -/
theorem wrote_decoded (hp : p.Lawful pk TocWord) (generatedAt : String) {standing : Standing}
    (e : Incoming p pk TocWord) {existing : Fields} (hex : standing.existing = some existing)
    (hcompat : compatible existing e.envelope = true) {old : List Word}
    (hdecode : rootCoverageWords p.mortie existing = .ok old) :
    (Accumulates generatedAt standing e → Tolerated standing e) ∧
      (Tolerated standing e → Wrote generatedAt standing e) := by
  obtain ⟨v, horder, hint⟩ := order_of_compatible hcompat
  have hcarried : carriedWords p standing e.envelope = old := by
    rw [carriedWords, hex]
    simp only [hcompat, if_true, hdecode]
  have hwalk := nonStringEndpoint_eq_false (m := p.mortie) horder hint
    (by rw [hdecode]; exact nofun)
  have htolerated : Tolerated standing e ↔
      ¬Overflows p (Json.field existing "time_range") ∧
      (HalfParsed p (Json.field existing "time_range") ∧ e.timeRange = none →
        ∀ w ∈ old, w ∈ e.keys.map pk.word) ∧
      (¬(HalfParsed p (Json.field existing "time_range") ∧ e.timeRange = none) →
        ∀ a b, usable (Json.field existing temporalKey) = some a → e.carrier = some b →
          Composes p.tocMerge a b) := by
    constructor
    · exact fun h => (h existing hex hcompat).2 old hdecode
    · intro h existing' hex' _
      obtain rfl := Option.some.inj (hex.symm.trans hex')
      refine ⟨hwalk, fun old' hold' => ?_⟩
      obtain rfl := Except.ok.inj (hdecode.symm.trans hold')
      exact h
  obtain ⟨hover, hhalf, hfull⟩ := unionTimeRange_cases hp (Json.field existing "time_range") e
  obtain ⟨hunionError, hunionOk⟩ := unionEnvelopes_ok hp e generatedAt horder hint hdecode
  rw [htolerated]
  by_cases hov : Overflows p (Json.field existing "time_range")
  · have hfails : writeRootCoverage p generatedAt standing e.envelope = .error .overflowError := by
      rw [writeRootCoverage, mergeSpatial, hex]
      simp only [hcompat, if_true, hunionError _ (hover hov)]
      rfl
    refine ⟨?_, fun h => absurd hov h.1⟩
    rintro ⟨written, _, hwrite, -⟩
    rw [hfails] at hwrite
    cases hwrite
  by_cases hh : HalfParsed p (Json.field existing "time_range") ∧ e.timeRange = none
  · have hspatial : mergeSpatial p generatedAt standing e.envelope = .ok (e.envelope, none) := by
      rw [mergeSpatial, hex]
      simp only [hcompat, if_true, hunionError _ (hhalf hov hh)]
      rfl
    constructor
    · rintro ⟨written, words, hwrite, hwords, -, hexact⟩
      refine ⟨hov, fun _ w hw => ?_, fun h => absurd hh h⟩
      rw [write_overwrite e hspatial] at hwrite
      obtain rfl := Except.ok.inj hwrite
      rw [(e.rootObject.1.withSection _).words] at hwords
      have hall := hexact existing old hex hcompat hdecode
      rw [← Except.ok.inj hwords] at hall
      rw [← mem_unique, hall, mem_unique]
      exact List.mem_append_left _ hw
    · exact fun h => wrote_overwrite e hspatial (hcarried ▸ h.2.1 hh)
  · obtain ⟨times, htimes, -⟩ := hfull hov hh
    obtain ⟨merged, cells, hmerged, hroot, hcells, -⟩ := hunionOk times htimes
    have hspatial : mergeSpatial p generatedAt standing e.envelope = .ok (merged, some existing) := by
      rw [mergeSpatial, hex]
      simp only [hcompat, if_true, hmerged]
    obtain ⟨hiff, hwritten⟩ := write_carried e hspatial
    constructor
    · rintro ⟨written, _, hwrite, -⟩
      exact ⟨hov, fun h => absurd h hh, fun _ => hiff.mp ⟨written, hwrite⟩⟩
    · intro h
      obtain ⟨written, hwrite⟩ := hiff.mpr (h.2.2 hh)
      obtain ⟨composed, -, rfl⟩ := hwritten written hwrite
      refine ⟨_, cells, hwrite, hroot.withSection _, ?_⟩
      rw [hcells, hcarried]
      exact (eq_unique (pairwise_unique _) fun w => Iff.rfl).symm

/-- A write accumulates exactly over the tolerated standing objects, and then it leaves the
union. -/
theorem wrote_iff (hp : p.Lawful pk TocWord) (generatedAt : String) (standing : Standing)
    (e : Incoming p pk TocWord) :
    (Accumulates generatedAt standing e → Tolerated standing e) ∧
      (Tolerated standing e → Wrote generatedAt standing e) := by
  cases hex : standing.existing with
  | none =>
    have hspatial : mergeSpatial p generatedAt standing e.envelope = .ok (e.envelope, none) := by
      rw [mergeSpatial, hex]
    refine ⟨fun _ _ h => (by rw [hex] at h; cases h), fun _ => wrote_overwrite e hspatial ?_⟩
    rw [carriedWords, hex]
    exact nofun
  | some existing =>
    by_cases hcompat : compatible existing e.envelope = true
    · obtain ⟨v, horder, hint⟩ := order_of_compatible hcompat
      have hnonString := rootCoverageWords_attribute (m := p.mortie) horder hint
      cases hdecode : rootCoverageWords p.mortie existing with
      | error err =>
        have hcarried : carriedWords p standing e.envelope = [] := by
          rw [carriedWords, hex]
          simp only [hcompat, if_true, hdecode]
        have hunion : unionEnvelopes p generatedAt existing e.envelope = .error err := by
          rw [unionEnvelopes, hdecode]
          rfl
        by_cases hattr : err = .attributeError
        · subst hattr
          have hfails : writeRootCoverage p generatedAt standing e.envelope =
              .error .attributeError := by
            rw [writeRootCoverage, mergeSpatial, hex]
            simp only [hcompat, if_true, hunion]
            rfl
          obtain ⟨ranges, hranges, hwalk⟩ := hnonString.mp hdecode
          constructor
          · rintro ⟨written, _, hwrite, -⟩
            rw [hfails] at hwrite
            cases hwrite
          · intro h
            have hgood := (h existing hex hcompat).1 ranges hranges
            rw [hwalk] at hgood
            cases hgood
        · have hcaught : err = .keyError ∨ err = .typeError ∨ err = .valueError :=
            (rootCoverageWords_error horder hint hdecode).resolve_left hattr
          have hspatial : mergeSpatial p generatedAt standing e.envelope = .ok (e.envelope, none) := by
            rw [mergeSpatial, hex]
            simp only [hcompat, if_true, hunion, hcaught]
          refine ⟨fun _ existing' h _ => ?_, fun _ => wrote_overwrite e hspatial ?_⟩
          · obtain rfl := Option.some.inj (hex.symm.trans h)
            refine ⟨nonStringEndpoint_eq_false (m := p.mortie) horder hint ?_, fun old hold => ?_⟩
            · rw [hdecode]
              exact fun h => hattr (Except.error.inj h)
            · rw [hdecode] at hold
              cases hold
          · rw [hcarried]
            exact nofun
      | ok old => exact wrote_decoded hp generatedAt e hex hcompat hdecode
    · have hspatial : mergeSpatial p generatedAt standing e.envelope = .ok (e.envelope, none) := by
        rw [mergeSpatial, hex]
        simp only [hcompat]
        rfl
      refine ⟨fun _ existing' h h' => ?_, fun _ => wrote_overwrite e hspatial ?_⟩
      · obtain rfl := Option.some.inj (hex.symm.trans h)
        exact absurd h' hcompat
      · rw [carriedWords, hex]
        simp only [hcompat]
        exact nofun

/-! ## Runs of writes -/

theorem pyEq_str (s : String) : (Json.str s).pyEq (.str s) = true := by simp [Json.pyEq]

theorem field_of_item {fields : Fields} {key : String} {v : Json}
    (h : Json.item fields key = .ok v) : Json.field fields key = v := by
  rw [Json.item] at h
  rw [Json.field]
  cases hlook : fields.lookup key with
  | none => rw [hlook] at h; cases h
  | some w => rw [hlook] at h; exact Except.ok.inj h

theorem RootObject.compatible {cells cells' : List (Cell o)} {written envelope : Fields}
    (h : RootObject pk cells written) (h' : RootObject pk cells' envelope) :
    compatible written envelope = true := by
  rw [Hive.compatible, h.spec, h'.spec, h.encoding, h'.encoding, field_of_item h.order,
    field_of_item h'.order, pyEq_str, pyEq_str]
  simp [Json.pyEq, Json.number]

theorem RootObject.carriedWords {cells : List (Cell o)} {written : Fields}
    (h : RootObject pk cells written) (e : Incoming p pk TocWord) :
    carriedWords p (.json (.obj written)) e.envelope = unique (cells.map pk.word) := by
  have hcompat := h.compatible e.rootObject.1
  rw [Hive.carriedWords]
  simp only [Standing.existing, hcompat, if_true, h.words]

/-- Every write of a run meets a standing object it accumulates over. -/
def ToleratedRun : Standing → List (String × Incoming p pk TocWord) → Prop
  | _, [] => True
  | standing, (generatedAt, e) :: rest => Tolerated standing e ∧
      ∀ written, writeRootCoverage p generatedAt standing e.envelope = .ok written →
        ToleratedRun (.json (.obj written)) rest

def envelopes (es : List (String × Incoming p pk TocWord)) : List (String × Fields) :=
  es.map fun e => (e.1, e.2.envelope)

def incomingWords (es : List (String × Incoming p pk TocWord)) : List Word :=
  es.flatMap fun e => e.2.keys.map pk.word

theorem toleratedRun_writes (hp : p.Lawful pk TocWord) {standing : Standing} {generatedAt : String}
    {e : Incoming p pk TocWord} {rest : List (String × Incoming p pk TocWord)}
    (h : ToleratedRun standing ((generatedAt, e) :: rest)) :
    ∃ written cells, writeRun p standing (envelopes ((generatedAt, e) :: rest)) =
        .ok (.json (.obj written)) ∧ RootObject pk cells written ∧
      unique (cells.map pk.word) = unique (carriedWords p standing e.envelope ++
        incomingWords ((generatedAt, e) :: rest)) := by
  induction rest generalizing standing generatedAt e with
  | nil =>
    obtain ⟨written, cells, hwrite, hroot, hwords⟩ := (wrote_iff hp generatedAt standing e).2 h.1
    refine ⟨written, cells, ?_, hroot, ?_⟩
    · rw [envelopes, List.map_singleton, writeRun, hwrite]
      rfl
    · rw [hwords, incomingWords, List.flatMap_singleton]
  | cons e' rest ih =>
    obtain ⟨generatedAt', e'⟩ := e'
    obtain ⟨first, cells, hwrite, hroot, hwords⟩ := (wrote_iff hp generatedAt standing e).2 h.1
    obtain ⟨written, cells', hrun, hroot', hwords'⟩ := ih (h.2 first hwrite)
    refine ⟨written, cells', ?_, hroot', ?_⟩
    · rw [envelopes, List.map_cons, writeRun, hwrite]
      exact hrun
    · rw [hwords', hroot.carriedWords, hwords]
      refine eq_unique (pairwise_unique _) fun w => ?_
      rw [mem_unique, List.mem_append, mem_unique, List.mem_append, List.mem_append, incomingWords,
        incomingWords, List.flatMap_cons (x := (generatedAt, e)), List.mem_append, or_assoc]

/-- An object the writer made itself. -/
structure OwnObject (p : Platform) (pk : p.mortie.Packing o) (TocWord : Int → Prop)
    (written : Fields) : Prop where
  root : ∃ cells, RootObject pk cells written
  times : ∃ r, Json.field written "time_range" =
    (r.map fun ts => Json.arr (ts.map Json.str)).getD .null ∧ TimesParse p r
  carrier : ∀ a, usable (Json.field written temporalKey) = some a → SectionWf TocWord a

theorem OwnObject.ranges {written : Fields} (h : OwnObject p pk TocWord written) :
    ¬Overflows p (Json.field written "time_range") ∧
      ¬HalfParsed p (Json.field written "time_range") := by
  obtain ⟨r, hr, rfl | ⟨lo, hi, s, t, rfl, hs, ht⟩⟩ := h.times
  · rw [hr]
    constructor
    · rintro ⟨_, _, h, -⟩
      cases h
    · rintro ⟨_, _, _, h, -⟩
      cases h
  · rw [hr]
    have hpair : ∀ lo' hi', (Json.arr [.str lo, .str hi]).pair = .ok (lo', hi') →
        lo' = .str lo ∧ hi' = .str hi := by
      intro lo' hi' h
      cases h
      exact ⟨rfl, rfl⟩
    constructor
    · rintro ⟨lo', hi', h, hov⟩
      obtain ⟨rfl, rfl⟩ := hpair lo' hi' h
      rw [hs, ht] at hov
      simp at hov
    · rintro ⟨lo', hi', s', h, -, hhi⟩
      obtain ⟨rfl, rfl⟩ := hpair lo' hi' h
      rw [ht] at hhi
      cases hhi

theorem OwnObject.tolerated (hp : p.Lawful pk TocWord) {written : Fields}
    (h : OwnObject p pk TocWord written) (e : Incoming p pk TocWord) :
    Tolerated (.json (.obj written)) e := by
  intro existing hex hcompat
  obtain rfl := Option.some.inj hex
  obtain ⟨cells, hroot⟩ := h.root
  obtain ⟨hov, hhalf⟩ := h.ranges
  refine ⟨nonStringEndpoint_eq_false (m := p.mortie) hroot.order (Json.toInt_num o)
    (by rw [hroot.words]; exact nofun), fun old _ => ⟨hov, fun hh => absurd hh.1 hhalf,
      fun _ a b ha hb => ?_⟩⟩
  have hbwf := e.carrier_wf b hb
  obtain ⟨r, hr, -⟩ := mergeUsable_wf hp.toc_bound hp.toc_merge (h.carrier a ha) hbwf
  exact (mergeUsable_ok_iff hbwf).mp ⟨r, hr⟩

/-- The section a write composes from well-formed ones is well formed, where it is read. -/
theorem composed_wf (hp : p.Lawful pk TocWord) {existing incoming : Json} {composed : Option Fields}
    (ha : ∀ a, usable existing = some a → SectionWf TocWord a)
    (hb : ∀ b, usable incoming = some b → SectionWf TocWord b)
    (h : mergeTemporalSections p.tocMerge existing incoming = .ok composed) {c : Fields}
    (hc : composed = some c) (husable : usable (.obj c) = some c) : SectionWf TocWord c := by
  rw [mergeTemporalSections] at h
  have hpreserved : ∀ f, preserved existing = some f → usable existing = none → usable (.obj f) = some f →
      False := by
    intro f hf hnone hsome
    cases existing with
    | obj fields =>
      have hfields : f = fields := by
        rw [preserved] at hf
        split at hf
        · split_ifs at hf
          exact (Option.some.inj hf).symm
        · cases hf
      rw [hfields, hnone] at hsome
      cases hsome
    | _ => cases hf
  cases hua : usable existing with
  | none =>
    cases hub : usable incoming with
    | none =>
      rw [hua, hub] at h
      obtain rfl := Except.ok.inj h
      exact (hpreserved c hc hua husable).elim
    | some b =>
      rw [hua, hub] at h
      obtain rfl := Except.ok.inj h
      cases hpre : preserved existing with
      | none =>
        rw [hpre] at hc
        exact Option.some.inj hc ▸ hb b hub
      | some f =>
        rw [hpre] at hc
        obtain rfl := Option.some.inj hc
        exact (hpreserved f hpre hua husable).elim
  | some a =>
    cases hub : usable incoming with
    | none =>
      rw [hua, hub] at h
      obtain rfl := Except.ok.inj h
      exact Option.some.inj hc ▸ ha a hua
    | some b =>
      rw [hua, hub] at h
      obtain ⟨r, hr, hwf⟩ := mergeUsable_wf hp.toc_bound hp.toc_merge (ha a hua) (hb b hub)
      change (mergeUsable p.tocMerge a b).map some = _ at h
      rw [hr] at h
      obtain rfl := Except.ok.inj h
      exact Option.some.inj hc ▸ hwf

theorem usable_eq {v : Json} {c : Fields} (h : usable v = some c) : v = .obj c := by
  cases v with
  | obj fields =>
    rw [usable] at h
    split_ifs at h
    rw [Option.some.inj h]
  | _ => cases h

/-- A section installed on an object whose own was absent. -/
theorem carrier_withSection (hp : p.Lawful pk TocWord) {merged : Fields} {existing incoming : Json}
    {composed : Option Fields} (hmerged : ∀ a, usable (Json.field merged temporalKey) = some a →
      SectionWf TocWord a)
    (ha : ∀ a, usable existing = some a → SectionWf TocWord a)
    (hb : ∀ b, usable incoming = some b → SectionWf TocWord b)
    (h : mergeTemporalSections p.tocMerge existing incoming = .ok composed) :
    ∀ a, usable (Json.field (withSection merged composed) temporalKey) = some a →
      SectionWf TocWord a := by
  intro a husable
  cases hc : composed with
  | none =>
    rw [hc] at husable
    exact hmerged a husable
  | some c =>
    rw [hc, withSection, Json.field, lookup_put_self] at husable
    obtain rfl := Json.obj.inj (usable_eq husable)
    exact composed_wf hp ha hb h hc husable

theorem incoming_wf (e : Incoming p pk TocWord) :
    ∀ b, usable (Json.field e.envelope temporalKey) = some b → SectionWf TocWord b := by
  intro b hb
  rw [usable_incoming] at hb
  exact e.carrier_wf b hb

theorem ownObject_of_absent (hp : p.Lawful pk TocWord) {generatedAt : String}
    {e : Incoming p pk TocWord} {written : Fields}
    (h : writeRootCoverage p generatedAt .absent e.envelope = .ok written) :
    OwnObject p pk TocWord written := by
  rw [write_overwrite e rfl] at h
  obtain rfl := Except.ok.inj h
  refine ⟨⟨e.keys, e.rootObject.1.withSection _⟩, ⟨e.timeRange.map fun r => [r.1, r.2], ?_, ?_⟩, ?_⟩
  · rw [timeRange_withSection, e.rootObject.2.1, Option.map_map]
    rfl
  · cases hr : e.timeRange with
    | none => exact .inl rfl
    | some r =>
      obtain ⟨s, t, hs, ht⟩ := e.times r.1 r.2 hr
      exact .inr ⟨r.1, r.2, s, t, rfl, hs, ht⟩
  · have hmerge : mergeTemporalSections p.tocMerge .null (Json.field e.envelope temporalKey) =
        .ok e.carrier := by
      rw [mergeTemporalSections, usable_incoming]
      cases e.carrier <;> rfl
    have hnull : ∀ a, usable .null = some a → SectionWf TocWord a := fun _ h => by cases h
    exact carrier_withSection hp (incoming_wf e) hnull (incoming_wf e) hmerge

theorem OwnObject.write (hp : p.Lawful pk TocWord) {existing : Fields}
    (h : OwnObject p pk TocWord existing) {generatedAt : String} {e : Incoming p pk TocWord}
    {written : Fields}
    (hw : writeRootCoverage p generatedAt (.json (.obj existing)) e.envelope = .ok written) :
    OwnObject p pk TocWord written := by
  obtain ⟨cells, hroot⟩ := h.root
  obtain ⟨hov, hhalf⟩ := h.ranges
  have hcompat := hroot.compatible e.rootObject.1
  obtain ⟨times, htimes, hparse⟩ := (unionTimeRange_cases hp (Json.field existing "time_range") e).2.2
    hov fun hh => hhalf hh.1
  obtain ⟨merged, cells', hmerged, hroot', -, htime, htemporal⟩ :=
    (unionEnvelopes_ok hp e generatedAt hroot.order (Json.toInt_num o) hroot.words).2 times htimes
  have hspatial : mergeSpatial p generatedAt (.json (.obj existing)) e.envelope =
      .ok (merged, some existing) := by
    rw [mergeSpatial]
    simp only [Standing.existing, hcompat, if_true, hmerged]
  obtain ⟨composed, hcomposed, rfl⟩ := (write_carried e hspatial).2 written hw
  refine ⟨⟨cells', hroot'.withSection _⟩, ⟨times, ?_, hparse⟩, ?_⟩
  · rw [timeRange_withSection, htime]
  · refine carrier_withSection hp ?_ h.carrier (incoming_wf e) hcomposed
    intro a ha
    rw [htemporal] at ha
    cases ha

theorem OwnObject.toleratedRun (hp : p.Lawful pk TocWord) {existing : Fields}
    (h : OwnObject p pk TocWord existing) (es : List (String × Incoming p pk TocWord)) :
    ToleratedRun (.json (.obj existing)) es := by
  induction es generalizing existing with
  | nil => trivial
  | cons e es ih => exact ⟨h.tolerated hp e.2, fun _ hw => ih (h.write hp hw)⟩

/-- Runs that start from no object meet only objects of the writer's own making. -/
theorem toleratedRun_absent (hp : p.Lawful pk TocWord) (es : List (String × Incoming p pk TocWord)) :
    ToleratedRun .absent es := by
  cases es with
  | nil => trivial
  | cons e es => exact ⟨nofun, fun _ hw => (ownObject_of_absent hp hw).toleratedRun hp es⟩

/-- One write accumulates exactly over the tolerated standing objects; a run whose writes all
meet one lists the union, and a run from no object always does. -/
theorem write_accumulates_iff (hp : p.Lawful pk TocWord) :
    (∀ generatedAt standing (e : Incoming p pk TocWord),
      Accumulates generatedAt standing e ↔ Tolerated standing e) ∧
    (∀ standing generatedAt (e : Incoming p pk TocWord) rest,
      ToleratedRun standing ((generatedAt, e) :: rest) →
      ∃ written, writeRun p standing (envelopes ((generatedAt, e) :: rest)) =
          .ok (.json (.obj written)) ∧
        rootCoverageWords p.mortie written = .ok (unique (carriedWords p standing e.envelope ++
          incomingWords ((generatedAt, e) :: rest)))) ∧
    ∀ generatedAt (e : Incoming p pk TocWord) rest,
      ∃ written, writeRun p .absent (envelopes ((generatedAt, e) :: rest)) =
          .ok (.json (.obj written)) ∧
        rootCoverageWords p.mortie written =
          .ok (unique (incomingWords ((generatedAt, e) :: rest))) := by
  have hrun : ∀ standing generatedAt (e : Incoming p pk TocWord) rest,
      ToleratedRun standing ((generatedAt, e) :: rest) →
      ∃ written, writeRun p standing (envelopes ((generatedAt, e) :: rest)) =
          .ok (.json (.obj written)) ∧
        rootCoverageWords p.mortie written = .ok (unique (carriedWords p standing e.envelope ++
          incomingWords ((generatedAt, e) :: rest))) := by
    intro standing generatedAt e rest h
    obtain ⟨written, cells, hwrite, hroot, hwords⟩ := toleratedRun_writes hp h
    exact ⟨written, hwrite, by rw [hroot.words, hwords]⟩
  refine ⟨fun generatedAt standing e => ?_, hrun, fun generatedAt e rest => ?_⟩
  · obtain ⟨honly, hwrote⟩ := wrote_iff hp generatedAt standing e
    exact ⟨honly, fun h => (hwrote h).accumulates⟩
  · exact hrun .absent generatedAt e rest (toleratedRun_absent hp _)

/-! ## A standing object that is dropped -/

def sampleInstant : String := "2020-01-01T00:00:00+00:00"

/-- A platform that reads one instant and joins two words to the larger. -/
def samplePlatform : Platform where
  mortie := packedMortie
  parseUtc
    | .str s => if s = sampleInstant then .ok 1577836800 else .error .valueError
    | _ => .error .valueError
  isoUtc _ := sampleInstant
  tocMerge v w := .ok (max v w)

def IsWord (w : Int) : Prop := 0 ≤ w ∧ w < 2 ^ 64

theorem samplePlatform_lawful (ho : o ≤ 27) : samplePlatform.Lawful (packing ho) IsWord where
  parsed_word t w h horder := by
    obtain ⟨d, rfl⟩ := packedParse_chars h
    rw [decimalOrder_chars] at horder
    have hword := (packing ho).word_repr ⟨d, by omega⟩
    exact ⟨⟨d, by omega⟩, Option.some.inj (h.symm.trans hword)⟩
  parse_error v err h := by
    cases v with
    | str s =>
      change (if s = sampleInstant then Except.ok 1577836800 else .error PyError.valueError) = _ at h
      split_ifs at h
      exact .inl (Except.error.inj h).symm
    | _ => exact .inl (Except.error.inj h).symm
  parse_iso _ _ _ := ⟨1577836800, rfl⟩
  toc_bound _ h := h
  toc_merge v w hv hw := ⟨max v w, rfl, by
    have h1 := hv.1
    have h2 := hv.2
    have h3 := hw.2
    constructor <;> omega⟩

def firstShard : Cell 1 := ⟨⟨⟨false, ⟨0, Sweep.Base.cell_pos⟩⟩, [⟨0, Sweep.Decimal.digit_pos⟩]⟩, rfl⟩

def secondShard : Cell 1 := ⟨⟨⟨false, ⟨0, Sweep.Base.cell_pos⟩⟩, [⟨1, Sweep.Decimal.one_lt_digits⟩]⟩, rfl⟩

def sampleEnvelope (shard : Cell 1) (timeRange : Option (List String)) : Fields :=
  rootEnvelope "2026-01-01T00:00:00+00:00" 1 (.str "dispatcher") [(shard.1.chars, shard.1.chars)]
    timeRange none

def firstIncoming : Incoming samplePlatform (packing (by decide : 1 ≤ 27)) IsWord where
  keys := [firstShard]
  keys_ne := List.cons_ne_nil _ _
  generatedAt := "2026-01-01T00:00:00+00:00"
  source := "dispatcher"
  timeRange := none
  times := nofun
  carrier := none
  carrier_wf := nofun
  envelope := sampleEnvelope firstShard none
  built := rfl

def secondIncoming : Incoming samplePlatform (packing (by decide : 1 ≤ 27)) IsWord where
  keys := [secondShard]
  keys_ne := List.cons_ne_nil _ _
  generatedAt := "2026-01-01T00:00:00+00:00"
  source := "dispatcher"
  timeRange := none
  times := nofun
  carrier := none
  carrier_wf := nofun
  envelope := sampleEnvelope secondShard none
  built := rfl

theorem write_accumulates_two :
    (Accumulates "2026-01-02T00:00:00+00:00" .notJson secondIncoming ↔
      Tolerated .notJson secondIncoming) ∧
    ∃ written, writeRun samplePlatform .absent (envelopes
        [("2026-01-02T00:00:00+00:00", firstIncoming), ("2026-01-03T00:00:00+00:00", secondIncoming)]) =
          .ok (.json (.obj written)) ∧
      rootCoverageWords packedMortie written = .ok (unique (incomingWords
        [("2026-01-02T00:00:00+00:00", firstIncoming), ("2026-01-03T00:00:00+00:00", secondIncoming)])) :=
  have h := write_accumulates_iff (samplePlatform_lawful (by decide : 1 ≤ 27))
  ⟨h.1 _ .notJson secondIncoming, h.2.2 _ firstIncoming [(_, secondIncoming)]⟩

/-- A standing time range whose end does not parse loses the standing shard. -/
theorem half_parsed_range_drops_shard :
    writeRootCoverage samplePlatform "2026-01-02T00:00:00+00:00"
        (.json (.obj (sampleEnvelope firstShard (some [sampleInstant, "yesterday"]))))
        secondIncoming.envelope = .ok secondIncoming.envelope ∧
      ¬Accumulates "2026-01-02T00:00:00+00:00"
        (.json (.obj (sampleEnvelope firstShard (some [sampleInstant, "yesterday"])))) secondIncoming := by
  refine ⟨rfl, fun h => ?_⟩
  have htolerated := (wrote_iff (samplePlatform_lawful (by decide)) _ _ _).1 h _ rfl rfl
  have hdropped := (htolerated.2 [packedWord firstShard.1] rfl).2.1
    ⟨⟨.str sampleInstant, .str "yesterday", 1577836800, rfl, rfl, rfl⟩, rfl⟩
  exact absurd (hdropped (packedWord firstShard.1) (.head _)) (by decide +kernel)

end Zagg.Hive
