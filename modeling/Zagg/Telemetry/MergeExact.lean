import Zagg.Telemetry.MergeLaws

/-!
# Merging is exact

Nested merges of the same records are equal, and the record a worker builds is its own merge.
-/
namespace Zagg.Telemetry

open Zagg.Lib

section Equal

/-- Mappings with equal values under equal keys are equal. -/
theorem pyEq_of_fields {r r' : Record} (hn : (r.map Prod.fst).Nodup) (hlen : r.length = r'.length)
    (hkeys : ∀ key ∈ r.map Prod.fst, key ∈ r'.map Prod.fst)
    (h : ∀ key ∈ r.map Prod.fst, (Json.field r key).pyEq (Json.field r' key) = true) :
    (Json.obj r).pyEq (.obj r') = true := by
  refine Json.pyEq_obj_iff.mpr ⟨hlen, fun f hf => ?_⟩
  have hkey := List.mem_map_of_mem (f := Prod.fst) hf
  have heq := h f.1 hkey
  rw [field_of_mem hn hf, Json.field] at heq
  cases hlookup : r'.lookup f.1 with
  | none => exact absurd (hkeys f.1 hkey) (lookup_eq_none.mp hlookup)
  | some v =>
    rw [hlookup] at heq
    exact ⟨v, rfl, heq⟩

theorem mem_mergedKeys {P : String → Prop} : (∀ key ∈ mergedKeys, P key) ↔
    P "schema_version" ∧ (∀ key ∈ eqOrNoneKeys, P key) ∧ (∀ key ∈ sumKeys, P key) ∧
      P "phase_timings" ∧ (∀ key ∈ sumOrNoneKeys, P key) ∧ (∀ key ∈ maxOrNoneKeys, P key) ∧
        P "timestamp" ∧ P "success" := by
  simp only [mergedKeys, List.forall_mem_append, List.forall_mem_cons, List.cons_append, and_assoc,
    List.not_mem_nil, IsEmpty.forall_iff, implies_true, and_true]

theorem num_pyEq (q : ℚ) : (Json.num q).pyEq (.num q) = true := (Json.pyEq_of_number rfl).mpr rfl

theorem render_num_pyEq (q : Option ℚ) : (render .num q).pyEq (render .num q) = true := by
  cases q with
  | none => rfl
  | some q => exact num_pyEq q

theorem mem_keys_of_seconds {phases : Record} {secs : String → Option ℚ} (h : Seconds phases secs)
    {name : String} : name ∈ phases.map Prod.fst ↔ secs name ≠ none := by
  have hlookup := h.2 name
  rw [← not_iff_not, ← lookup_eq_none, hlookup, not_not, Option.map_eq_none_iff]

/-- Blocks of the same seconds are equal. -/
theorem seconds_pyEq {phases phases' : Record} {secs : String → Option ℚ} (h : Seconds phases secs)
    (h' : Seconds phases' secs) : (Json.obj phases).pyEq (.obj phases') = true := by
  have hperm : (phases.map Prod.fst).Perm (phases'.map Prod.fst) :=
    (List.perm_ext_iff_of_nodup h.1 h'.1).mpr fun name => by
      rw [mem_keys_of_seconds h, mem_keys_of_seconds h']
  apply pyEq_of_fields h.1
  · simpa only [List.length_map] using hperm.length_eq
  · exact fun name hname => hperm.mem_iff.mp hname
  · intro name _
    rw [Json.field, Json.field, h.2 name, h'.2 name]
    cases secs name with
    | none => rfl
    | some q => exact num_pyEq q

/-- Folds that stand for the same records are equal. -/
theorem merged_pyEq {records records' outs outs' : List Record} {phases phases' : Record}
    (h : Stands records (merged outs phases)) (h' : Stands records' (merged outs' phases'))
    (hsecs : Seconds phases (phasesOf outs)) (hsecs' : Seconds phases' (phasesOf outs'))
    (hperm : records.Perm records') :
    (Json.obj (merged outs phases)).pyEq (.obj (merged outs' phases')) = true := by
  have hkeys : (merged outs phases).map Prod.fst = (merged outs' phases').map Prod.fst := rfl
  apply pyEq_of_fields (keys_merged outs phases ▸ nodup_mergedKeys)
  · rfl
  · exact fun key hkey => hkeys ▸ hkey
  rw [keys_merged, mem_mergedKeys]
  refine ⟨?_, fun key hkey => ?_, fun key hkey => ?_, ?_, fun key hkey => ?_, fun key hkey => ?_, ?_, ?_⟩
  · rw [version_merged, version_merged]
    exact num_pyEq 1
  · apply (h.identity key hkey).unique (h'.identity key hkey)
    · exact fun w => (hperm.map _).mem_iff
    · exact mt List.map_eq_nil_iff.mp h.nonempty
    · exact List.forall_mem_map.mpr fun r hr => (h.inputs r hr).identity key hkey
    · exact h.current.identity key hkey
  · have hcount := h.counts key hkey
    have hcount' := h'.counts key hkey
    have hsame : countOf records key = countOf records' key := foldr_perm hperm
    rw [count, count_merged hkey] at hcount hcount'
    rw [count_merged hkey, count_merged hkey]
    exact (Json.pyEq_of_number rfl).mpr (congrArg some (hcount'.trans (hsame.symm.trans hcount.symm)))
  · have hphases (name : String) : phasesOf outs name = phasesOf outs' name := by
      rw [← phase_merged hsecs name, h.phases name, ← phase_merged hsecs' name, h'.phases name]
      exact foldr_perm hperm
    rw [phases_merged, phases_merged]
    exact seconds_pyEq hsecs (hsecs'.congr fun name => (hphases name).symm)
  · have htotal := h.totals key hkey
    have htotal' := h'.totals key hkey
    have hsame : combined (· + ·) (optional key) records = combined (· + ·) (optional key) records' :=
      foldr_perm hperm
    rw [optional, total_merged hkey, number_render] at htotal htotal'
    rw [total_merged hkey, total_merged hkey, htotal, htotal', hsame]
    exact render_num_pyEq _
  · have hpeak := h.peaks key hkey
    have hpeak' := h'.peaks key hkey
    have hsame : combined max (optional key) records = combined max (optional key) records' :=
      foldr_perm hperm
    rw [optional, peak_merged hkey, number_render] at hpeak hpeak'
    rw [peak_merged hkey, peak_merged hkey, hpeak, hpeak', hsame]
    exact render_num_pyEq _
  · have hstamp := h.stamp
    have hstamp' := h'.stamp
    have hsame : combined max stamp records = combined max stamp records' := foldr_perm hperm
    rw [stamp, stamp_merged, textOf_render] at hstamp hstamp'
    rw [stamp_merged, stamp_merged, hstamp, hstamp', hsame]
    cases combined max stamp records' with
    | none => rfl
    | some s => exact decide_eq_true rfl
  · have hsuccess := h.success
    have hsuccess' := h'.success
    have hsame : allSucceeded records = allSucceeded records' := foldr_perm hperm
    rw [succeeded, success_merged] at hsuccess hsuccess'
    rw [success_merged, success_merged]
    have hbool : allSucceeded outs = allSucceeded outs' := hsuccess.trans (hsame.trans hsuccess'.symm)
    rw [hbool]
    exact (Json.pyEq_of_number rfl).mpr rfl

end Equal

section Nesting

theorem current_of_stands {groups : List (List Record)} {outs : List Record}
    (h : List.Forall₂ Stands groups outs) : ∀ out ∈ outs, Current out := by
  intro out hout
  obtain ⟨group, -, hstands⟩ := forall₂_exists_of_mem_right h hout
  exact hstands.current

/-- A call on what stands for groups gives what stands for all of them. -/
theorem merge_stands (groups : List (List Record)) (outs : List Record) (hne : outs ≠ [])
    (h : List.Forall₂ Stands groups outs) :
    ∃ out, merge outs = .ok out ∧ Stands groups.flatten out := by
  obtain ⟨phases, hsecs, hmerge⟩ := merge_eq hne (current_of_stands h)
  exact ⟨_, hmerge, .flatten h (stands_merged hne (current_of_stands h) hsecs)⟩

theorem eval_merged {first : Nested Record} {rest : List (Nested Record)}
    (h : ∀ r ∈ (Nested.call first rest).items, Current r) :
    ∃ outs phases, (Nested.call first rest).eval merge = .ok (merged outs phases) ∧
      Seconds phases (phasesOf outs) ∧ Stands (Nested.call first rest).items (merged outs phases) := by
  obtain ⟨groups, outs, hne, hstands, hitems, heval⟩ :=
    Nested.eval_call (fun r => stands_item) merge_stands first rest h
  obtain ⟨phases, hsecs, hmerge⟩ := merge_eq hne (current_of_stands hstands)
  refine ⟨outs, phases, heval.trans hmerge, hsecs, hitems ▸ ?_⟩
  exact .flatten hstands (stands_merged hne (current_of_stands hstands) hsecs)

/-- Nested merges of the same records are equal. -/
theorem eval_merge_perm {first first' : Nested Record} {rest rest' : List (Nested Record)}
    (h : ∀ r ∈ (Nested.call first rest).items, Current r)
    (hperm : (Nested.call first rest).items.Perm (Nested.call first' rest').items) :
    ∃ out out', (Nested.call first rest).eval merge = .ok out ∧
      (Nested.call first' rest').eval merge = .ok out' ∧ (Json.obj out).pyEq (.obj out') = true := by
  obtain ⟨outs, phases, heval, hsecs, hstands⟩ := eval_merged h
  obtain ⟨outs', phases', heval', hsecs', hstands'⟩ :=
    eval_merged fun r hr => h r (hperm.mem_iff.mpr hr)
  exact ⟨_, _, heval, heval', merged_pyEq hstands hstands' hsecs hsecs' hperm⟩

end Nesting

section Single

/-- A record with all the keys of a fold, and of its shapes. -/
structure Complete (r : Record) : Prop where
  keys : ∀ key ∈ mergedKeys, key ∈ r.map Prod.fst
  length : r.length = mergedKeys.length
  version : Json.field r "schema_version" = schemaVersion
  counts : ∀ key ∈ sumKeys, ∃ q, Json.field r key = .num q
  phases : ∃ fields, Json.field r "phase_timings" = .obj fields
  success : ∃ b, Json.field r "success" = .bool b

theorem seconds_of_block {r : Record} (h : PhaseBlock (Json.field r "phase_timings")) {fields : Record}
    (hfields : Json.field r "phase_timings" = .obj fields) : Seconds fields (phasesOf [r]) := by
  obtain hnull | ⟨items, hitems, hn, hnum⟩ := h
  · rw [hnull] at hfields
    cases hfields
  rw [hfields] at hitems
  obtain rfl := Json.obj.inj hitems
  refine ⟨hn, fun name => ?_⟩
  rw [phasesOf, combined_singleton, phase, hfields]
  show fields.lookup name = ((fields.lookup name).bind Json.number).map .num
  cases hlookup : fields.lookup name with
  | none => rfl
  | some v =>
    obtain ⟨q, rfl⟩ : ∃ q, v = .num q := hnum _ (mem_of_lookup hlookup)
    rfl

/-- The merge of one record is the record. -/
theorem merge_singleton {r : Record} (h : Current r) (hr : Complete r) :
    ∃ out, merge [r] = .ok out ∧ (Json.obj out).pyEq (.obj r) = true := by
  obtain ⟨phases, hsecs, hmerge⟩ := merge_eq (List.cons_ne_nil r []) (List.forall_mem_singleton.mpr h)
  refine ⟨_, hmerge, ?_⟩
  apply pyEq_of_fields (keys_merged [r] phases ▸ nodup_mergedKeys)
  · exact hr.length.symm
  · exact hr.keys
  rw [keys_merged, mem_mergedKeys]
  refine ⟨?_, fun key hkey => ?_, fun key hkey => ?_, ?_, fun key hkey => ?_, fun key hkey => ?_, ?_, ?_⟩
  · rw [version_merged, hr.version]
    exact num_pyEq 1
  · have hself := Json.pyEq_refl (h.identity key hkey)
    have hfirst : identityOf [r] key = Json.field r key := by
      rw [identityOf, List.map_singleton, equalOrNone, List.all_cons, hself]
      rfl
    rw [identity_merged hkey, hfirst]
    exact hself
  · obtain ⟨q, hq⟩ := hr.counts key hkey
    have hcount : countOf [r] key = q := by
      show count key r + 0 = q
      rw [add_zero, count, hq]
      rfl
    rw [count_merged hkey, hcount, hq]
    exact num_pyEq q
  · obtain ⟨fields, hfields⟩ := hr.phases
    rw [phases_merged, hfields]
    exact seconds_pyEq hsecs (seconds_of_block h.phases hfields)
  · rw [total_merged hkey, combined_singleton, (h.totals key hkey).eq_render]
    exact render_num_pyEq _
  · rw [peak_merged hkey, combined_singleton, (h.peaks key hkey).eq_render]
    exact render_num_pyEq _
  · rw [stamp_merged, combined_singleton, stamp]
    obtain hnull | ⟨s, hs⟩ := h.timestamp
    · rw [hnull]
      rfl
    · rw [hs]
      exact decide_eq_true rfl
  · obtain ⟨b, hb⟩ := hr.success
    have hall : allSucceeded [r] = b := by
      show (succeeded r && true) = b
      rw [Bool.and_true, succeeded, hb]
      rfl
    rw [success_merged, hall, hb]
    exact (Json.pyEq_of_number rfl).mpr rfl

end Single

section Build
variable {env : Environment} {args : BuildArguments}

/-- Arguments that are JSON without a nan. -/
structure JsonArguments (args : BuildArguments) : Prop where
  metadata : (Json.obj args.metadata).Distinct
  invokedBy : (Json.obj args.invokedBy).Distinct
  runId : args.runId.Distinct
  semanticHash : args.semanticHash.Distinct
  lambdaConfig : (Json.obj args.lambdaConfig).Distinct

theorem distinct_field {fields : Record} (h : (Json.obj fields).Distinct) (key : String) :
    (Json.field fields key).Distinct := by
  cases h with
  | obj _ h =>
    rw [Json.field]
    cases hlookup : fields.lookup key with
    | none => exact .null
    | some v => exact h _ (mem_of_lookup hlookup)

theorem asInt_num {v w : Json} (h : asInt v = .ok w) : ∃ q, w = .num q := by
  rw [asInt] at h
  cases hv : v.toInt with
  | error err => rw [hv] at h; cases h
  | ok n =>
    rw [hv] at h
    exact ⟨n, (Except.ok.inj h).symm⟩

theorem toFloat_num {v w : Json} (h : env.toFloat v = .ok w) : ∃ q, w = .num q := by
  cases v with
  | num q => exact ⟨q, (Except.ok.inj h).symm⟩
  | bool b => exact ⟨_, (Except.ok.inj h).symm⟩
  | str s =>
    rw [Environment.toFloat] at h
    cases hs : env.float s with
    | error err => rw [hs] at h; cases h
    | ok q =>
      rw [hs] at h
      exact ⟨q, (Except.ok.inj h).symm⟩
  | _ => cases h

theorem optInt_numeric {v w : Json} (h : optInt v = .ok w) : Numeric w := by
  unfold optInt at h
  split_ifs at h
  · exact .inl (Except.ok.inj h).symm
  · exact .inr (asInt_num h)

theorem optFloat_numeric {v w : Json} (h : optFloat env v = .ok w) : Numeric w := by
  unfold optFloat at h
  split_ifs at h
  · exact .inl (Except.ok.inj h).symm
  · exact .inr (toFloat_num h)

theorem costs_numeric {config : Record} {duration : Json} {cost : Json × Json}
    (h : costs env config duration = .ok cost) : Numeric cost.1 ∧ Numeric cost.2 := by
  unfold costs at h
  split_ifs at h
  · obtain ⟨mbSeconds, -, hcost⟩ := bind_ok h
    obtain rfl := Except.ok.inj hcost
    exact ⟨.inr ⟨_, rfl⟩, .inr ⟨_, rfl⟩⟩
  · obtain rfl := Except.ok.inj h
    exact ⟨.inl rfl, .inl rfl⟩

theorem toFloat_entries {fields phases : Record}
    (h : (fields.mapM fun f => do
      let secs ← env.toFloat f.2
      return (f.1, secs)) = .ok phases) :
    phases.map Prod.fst = fields.map Prod.fst ∧ ∀ f ∈ phases, ∃ q, f.2 = .num q := by
  have hall := forall₂_mapM h
  clear h
  induction hall with
  | nil => exact ⟨rfl, nofun⟩
  | cons hf _ ih =>
    obtain ⟨secs, hsecs, hpair⟩ := bind_ok hf
    obtain rfl := Except.ok.inj hpair
    exact ⟨congrArg (_ :: ·) ih.1, List.forall_mem_cons.mpr ⟨toFloat_num hsecs, ih.2⟩⟩

theorem phaseEntries_block {metadata phases : Record} (h : (Json.obj metadata).Distinct)
    (hphases : phaseEntries env metadata = .ok phases) :
    (phases.map Prod.fst).Nodup ∧ ∀ f ∈ phases, ∃ q, f.2 = .num q := by
  obtain ⟨fields, hfields, hentries⟩ := bind_ok hphases
  obtain ⟨hkeys, hnum⟩ := toFloat_entries hentries
  refine ⟨?_, hnum⟩
  have hdistinct : (Json.field metadata "phase_timings").orEmpty.Distinct := by
    rw [Json.orEmpty]
    split_ifs
    · exact distinct_field h _
    · exact .obj List.nodup_nil nofun
  rw [phaseItems] at hfields
  rw [hkeys]
  cases hvalue : (Json.field metadata "phase_timings").orEmpty with
  | obj items =>
    rw [hvalue] at hfields hdistinct
    obtain rfl := Except.ok.inj hfields
    cases hdistinct with
    | obj hn _ => exact (List.filter_sublist.map Prod.fst).nodup hn
  | _ => rw [hvalue] at hfields; cases hfields

theorem lookup_numeric {phases : Record} (h : ∀ f ∈ phases, ∃ q, f.2 = .num q) (key : String) :
    Numeric ((phases.lookup key).getD .null) := by
  cases hlookup : phases.lookup key with
  | none => exact .inl rfl
  | some v => exact .inr (h _ (mem_of_lookup hlookup))

theorem filter_block {phases : Record} (hn : (phases.map Prod.fst).Nodup)
    (h : ∀ f ∈ phases, ∃ q, f.2 = .num q) (keep : String × Json → Bool) :
    PhaseBlock (.obj (phases.filter keep)) :=
  .inr ⟨_, rfl, (List.filter_sublist.map Prod.fst).nodup hn, fun f hf => h f (List.mem_of_mem_filter hf)⟩

theorem distinct_window (env : Environment) (window : Json) :
    (if isNull window then Json.null else .str (env.text window)).Distinct := by
  split_ifs
  · exact .null
  · exact .str _

theorem distinct_semanticHash {given : Json} (h : given.Distinct) (fallback : Json) :
    (resolvedSemanticHash given fallback).Distinct := by
  unfold resolvedSemanticHash
  split_ifs
  · cases fallback with
    | str s =>
      dsimp only
      split_ifs
      · exact .str s
      · exact .null
    | _ => exact .null
  · exact h

theorem distinct_digest (digest : Option (List Char)) : (digestJson digest).Distinct := by
  cases digest with
  | none => exact .null
  | some hex => exact .str _

theorem distinct_dictOrNone {d : Record} (h : (Json.obj d).Distinct) : (dictOrNone d).Distinct := by
  unfold dictOrNone
  split_ifs
  · exact .null
  · exact h

theorem distinct_textOrNone (env : Environment) (value : Json) : (textOrNone env value).Distinct := by
  unfold textOrNone
  split_ifs
  · exact .str _
  · exact .null

def recordKeys : List String :=
  ["schema_version", "shard_key", "window", "run_id", "semantic_hash", "zagg_version", "n_shards",
    "n_granules", "granules_sha256", "content_hashes", "n_obs", "n_obs_read", "cells_with_data",
    "phase_timings", "duration_s", "spill_bytes", "spill_blocks_closed", "raster_bytes_read",
    "raster_px_decoded", "raster_px_sampled", "leaf_column", "gb_seconds", "est_cost_usd",
    "max_memory_mb", "container_hwm_mb", "lambda", "timestamp", "success", "error", "invoked_by"]

theorem mergedKeys_subset : ∀ key ∈ mergedKeys, key ∈ recordKeys := by decide +kernel

theorem nodup_recordKeys : recordKeys.Nodup := by
  have hperm : mergedKeys.Perm recordKeys :=
    (List.subperm_of_subset nodup_mergedKeys mergedKeys_subset).perm_of_length_le (by decide)
  exact hperm.nodup_iff.mp nodup_mergedKeys

/-- The record of a worker is one of the schema, with every key. -/
theorem buildRecord_complete {r : Record} (hargs : JsonArguments args)
    (h : buildRecord env args = .ok r) : Current r ∧ Complete r := by
  obtain ⟨duration, hduration, h⟩ := bind_ok h
  obtain ⟨cost, hcost, h⟩ := bind_ok h
  obtain ⟨phases, hphases, h⟩ := bind_ok h
  obtain ⟨blocks, hblocks, h⟩ := bind_ok h
  obtain ⟨ids, -, h⟩ := bind_ok h
  obtain ⟨shardKey, hshardKey, h⟩ := bind_ok h
  obtain ⟨nGranules, hnGranules, h⟩ := bind_ok h
  obtain ⟨granules, -, h⟩ := bind_ok h
  obtain ⟨nObs, hnObs, h⟩ := bind_ok h
  obtain ⟨nObsRead, hnObsRead, h⟩ := bind_ok h
  obtain ⟨cells, hcells, h⟩ := bind_ok h
  obtain ⟨bytesRead, hbytesRead, h⟩ := bind_ok h
  obtain ⟨decoded, hdecoded, h⟩ := bind_ok h
  obtain ⟨sampled, hsampled, h⟩ := bind_ok h
  obtain ⟨maxMemory, hmaxMemory, h⟩ := bind_ok h
  obtain ⟨hwm, hhwm, h⟩ := bind_ok h
  have hr := (Except.ok.inj h).symm
  have hkeys : r.map Prod.fst = recordKeys := by rw [hr]; rfl
  have hfield {key : String} {v : Json} (hmem : (key, v) ∈ r) : Json.field r key = v :=
    field_of_mem (hkeys ▸ nodup_recordKeys) hmem
  obtain ⟨hn, hnum⟩ := phaseEntries_block hargs.metadata hphases
  have hphaseField : Json.field r "phase_timings" = .obj (phases.filter fun f => isSeconds f.1) :=
    hfield (by simp [hr])
  have hversion : Json.field r "schema_version" = schemaVersion := hfield (by simp [hr])
  have hcounts : ∀ key ∈ sumKeys, ∃ q, Json.field r key = .num q := by
    obtain ⟨q₁, rfl⟩ := asInt_num hnGranules
    obtain ⟨q₂, rfl⟩ := asInt_num hnObs
    obtain ⟨q₃, rfl⟩ := asInt_num hcells
    obtain ⟨q₄, rfl⟩ := toFloat_num hduration
    simp only [sumKeys, List.forall_mem_cons]
    exact ⟨⟨1, hfield (by simp [hr])⟩, ⟨q₁, hfield (by simp [hr])⟩, ⟨q₂, hfield (by simp [hr])⟩,
      ⟨q₃, hfield (by simp [hr])⟩, ⟨q₄, hfield (by simp [hr])⟩, nofun⟩
  have hnumeric {key : String} {v : Json} (hv : Numeric v) (hmem : (key, v) ∈ r) :
      Numeric (Json.field r key) := hfield hmem ▸ hv
  have htotals : ∀ key ∈ sumOrNoneKeys, Numeric (Json.field r key) := by
    simp only [sumOrNoneKeys, List.forall_mem_cons]
    exact ⟨hnumeric (costs_numeric hcost).1 (by simp [hr]), hnumeric (costs_numeric hcost).2 (by simp [hr]),
      hnumeric (optInt_numeric hnObsRead) (by simp [hr]),
      hnumeric (lookup_numeric hnum "spill_bytes") (by simp [hr]),
      hnumeric (optInt_numeric hblocks) (by simp [hr]), hnumeric (optInt_numeric hbytesRead) (by simp [hr]),
      hnumeric (optInt_numeric hdecoded) (by simp [hr]), hnumeric (optInt_numeric hsampled) (by simp [hr]),
      nofun⟩
  have hpeaks : ∀ key ∈ maxOrNoneKeys, Numeric (Json.field r key) := by
    simp only [maxOrNoneKeys, List.forall_mem_cons]
    exact ⟨hnumeric (optFloat_numeric hmaxMemory) (by simp [hr]),
      hnumeric (optFloat_numeric hhwm) (by simp [hr]), nofun⟩
  have hdistinct {key : String} {v : Json} (hv : v.Distinct) (hmem : (key, v) ∈ r) :
      (Json.field r key).Distinct := hfield hmem ▸ hv
  have hidentity : ∀ key ∈ eqOrNoneKeys, (Json.field r key).Distinct := by
    obtain ⟨shard, rfl⟩ := asInt_num hshardKey
    simp only [eqOrNoneKeys, List.forall_mem_cons]
    exact ⟨hdistinct (distinct_window env args.window) (by simp [hr]), hdistinct (.num shard) (by simp [hr]),
      hdistinct hargs.runId (by simp [hr]),
      hdistinct (distinct_semanticHash hargs.semanticHash (args.get "semantic_hash")) (by simp [hr]),
      hdistinct (distinct_digest granules) (by simp [hr]),
      hdistinct (distinct_field hargs.metadata "content_hashes") (by simp [hr, BuildArguments.get]),
      hdistinct (distinct_field hargs.metadata "leaf_column") (by simp [hr, BuildArguments.get]),
      hdistinct (.str env.zaggVersion) (by simp [hr]),
      hdistinct (distinct_dictOrNone hargs.lambdaConfig) (by simp [hr]),
      hdistinct (distinct_dictOrNone hargs.invokedBy) (by simp [hr]),
      hdistinct (distinct_textOrNone env (args.get "error")) (by simp [hr]), nofun⟩
  constructor
  · constructor
    · rw [hversion]
      exact num_pyEq 1
    · exact fun key hkey => .inr (hcounts key hkey)
    · exact htotals
    · exact hpeaks
    · exact hphaseField ▸ filter_block hn hnum _
    · exact .inr ⟨env.timestamp, hfield (by simp [hr])⟩
    · exact hidentity
  · constructor
    · exact fun key hkey => hkeys ▸ mergedKeys_subset key hkey
    · rw [hr]
      rfl
    · exact hversion
    · exact hcounts
    · exact ⟨_, hphaseField⟩
    · exact ⟨!(args.get "error").truthy, hfield (by simp [hr])⟩

end Build

/-- Nested merges give equal records whatever their nesting and order, and a built record is its
own merge. -/
theorem merge_laws {first first' : Nested Record} {rest rest' : List (Nested Record)}
    (h : ∀ r ∈ (Nested.call first rest).items, Current r)
    (hperm : (Nested.call first rest).items.Perm (Nested.call first' rest').items)
    {env : Environment} {args : BuildArguments} (hargs : JsonArguments args) {r : Record}
    (hr : buildRecord env args = .ok r) :
    (∃ out out', (Nested.call first rest).eval merge = .ok out ∧
      (Nested.call first' rest').eval merge = .ok out' ∧ (Json.obj out).pyEq (.obj out') = true) ∧
      Current r ∧ ∃ out, merge [r] = .ok out ∧ (Json.obj out).pyEq (.obj r) = true := by
  obtain ⟨hcurrent, hcomplete⟩ := buildRecord_complete hargs hr
  exact ⟨eval_merge_perm h hperm, hcurrent, merge_singleton hcurrent hcomplete⟩

section Sample

def sampleEnvironment : Environment where
  str _ := []
  float _ := .error .valueError
  sha256 text := text
  zaggVersion := "1"
  timestamp := "2026-08-17T00:00:00+00:00"

/-- A shard of some observations; the second is of another run and has no measured memory. -/
def sampleArguments (shard : ℚ) (memory : Json) : BuildArguments where
  shardKey := .num shard
  metadata := [("duration_s", .num 2), ("total_obs", .num shard), ("max_memory_mb", memory),
    ("phase_timings", .obj [("read", .num 1), ("spill_bytes", .num 7)])]
  granuleIds := some [.str "s3://b/a.h5"]
  invokedBy := []
  runId := .str "r"
  window := .null
  semanticHash := .null
  lambdaConfig := [("memory_mb", .num 1024), ("arch", .str "aarch64")]

def sampleRecord (shard : ℚ) (memory : Json) : Record :=
  match buildRecord sampleEnvironment (sampleArguments shard memory) with
  | .ok r => r
  | .error _ => []

theorem sampleArguments_json {shard : ℚ} {memory : Json} (h : memory.Distinct) :
    JsonArguments (sampleArguments shard memory) where
  metadata := by
    have hkeys : ["duration_s", "total_obs", "max_memory_mb", "phase_timings"].Nodup := by decide
    refine .obj hkeys (List.forall_mem_cons.mpr ⟨.num 2, List.forall_mem_cons.mpr ⟨.num shard,
      List.forall_mem_cons.mpr ⟨h, List.forall_mem_singleton.mpr ?_⟩⟩⟩)
    exact .obj (by decide) (List.forall_mem_cons.mpr ⟨.num 1, List.forall_mem_singleton.mpr (.num 7)⟩)
  invokedBy := .obj List.nodup_nil nofun
  runId := .str "r"
  semanticHash := .null
  lambdaConfig := by
    have hkeys : ["memory_mb", "arch"].Nodup := by decide
    exact .obj hkeys
      (List.forall_mem_cons.mpr ⟨.num 1024, List.forall_mem_singleton.mpr (.str "aarch64")⟩)

theorem build_measured : buildRecord sampleEnvironment (sampleArguments 4 (.num 5)) =
    .ok (sampleRecord 4 (.num 5)) := rfl

theorem build_unmeasured : buildRecord sampleEnvironment (sampleArguments 6 .null) =
    .ok (sampleRecord 6 .null) := rfl

def measured : Nested Record := .item (sampleRecord 4 (.num 5))

def unmeasured : Nested Record := .item (sampleRecord 6 .null)

theorem current_samples : ∀ r ∈ (Nested.call (.call measured [unmeasured]) [measured]).items,
    Current r := by
  have hmeasured := (buildRecord_complete (sampleArguments_json (.num 5)) build_measured).1
  have hunmeasured := (buildRecord_complete (sampleArguments_json .null) build_unmeasured).1
  simp only [Nested.items, Nested.itemsAll, measured, unmeasured, List.append_nil, List.cons_append,
    List.nil_append, List.forall_mem_cons]
  exact ⟨hmeasured, hunmeasured, hmeasured, nofun⟩

theorem samples_perm : (Nested.call (.call measured [unmeasured]) [measured]).items.Perm
    (Nested.call unmeasured [.call measured [measured]]).items := by
  simp only [Nested.items, Nested.itemsAll, measured, unmeasured, List.append_nil, List.cons_append,
    List.nil_append]
  exact .swap _ _ _

theorem merge_laws_sample :
    (∃ out out', (Nested.call (.call measured [unmeasured]) [measured]).eval merge = .ok out ∧
      (Nested.call unmeasured [.call measured [measured]]).eval merge = .ok out' ∧
        (Json.obj out).pyEq (.obj out') = true) ∧
      Current (sampleRecord 4 (.num 5)) ∧ ∃ out, merge [sampleRecord 4 (.num 5)] = .ok out ∧
        (Json.obj out).pyEq (.obj (sampleRecord 4 (.num 5))) = true :=
  merge_laws current_samples samples_perm (sampleArguments_json (.num 5)) build_measured

end Sample

end Zagg.Telemetry
