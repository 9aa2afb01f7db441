import Zagg.Telemetry.MergeStands

/-!
# The laws of merging

Nested merges of the same records give equal records, however they are nested and ordered.
-/
namespace Zagg.Telemetry

open Zagg.Lib

section Merged

/-- The keys of a folded record, in its order. -/
def mergedKeys : List String :=
  "schema_version" :: eqOrNoneKeys ++ sumKeys ++ ["phase_timings"] ++ sumOrNoneKeys ++ maxOrNoneKeys
    ++ ["timestamp", "success"]

theorem nodup_mergedKeys : mergedKeys.Nodup := by decide +kernel

/-- What is there of an observation of some records, combined. -/
def combined {α : Type} (op : α → α → α) (obs : Record → Option α) (records : List Record) : Option α :=
  (records.map obs).foldr (Option.merge op) none

def identityOf (records : List Record) (key : String) : Json :=
  equalOrNone (records.map fun r => Json.field r key)

def countOf (records : List Record) (key : String) : ℚ := (records.map (count key)).foldr (· + ·) 0

def allSucceeded (records : List Record) : Bool := (records.map succeeded).foldr (· && ·) true

/-- The record of a fold, given its phases. -/
def merged (records : List Record) (phases : Record) : Record :=
  ("schema_version", schemaVersion)
    :: eqOrNoneKeys.map (fun key => (key, identityOf records key))
    ++ sumKeys.map (fun key => (key, .num (countOf records key)))
    ++ [("phase_timings", .obj phases)]
    ++ sumOrNoneKeys.map (fun key => (key, render .num (combined (· + ·) (optional key) records)))
    ++ maxOrNoneKeys.map (fun key => (key, render .num (combined max (optional key) records)))
    ++ [("timestamp", render .str (combined max stamp records)), ("success", .bool (allSucceeded records))]

def phasesOf (records : List Record) (name : String) : Option ℚ := combined (· + ·) (phase name) records

theorem foldKeys_eq {f : List Json → Except PyError Json} {g : String → Json} {keys : List String}
    {records : List Record} (h : ∀ key ∈ keys, f (records.map fun r => Json.field r key) = .ok (g key)) :
    foldKeys f keys records = .ok (keys.map fun key => (key, g key)) := by
  induction keys with
  | nil => rfl
  | cons key keys ih =>
    obtain ⟨hkey, hkeys⟩ := List.forall_mem_cons.mp h
    have hrest := ih hkeys
    rw [foldKeys] at hrest ⊢
    rw [List.mapM_cons, hrest, hkey]
    rfl

variable {records : List Record}

theorem foldKeys_orNone {f : List Json → Except PyError Json} (op : ℚ → ℚ → ℚ) [Std.Associative op]
    (hf : ∀ a as, f ((a :: as).map .num) = .ok (.num (as.foldl op a))) {keys : List String}
    (h : ∀ r ∈ records, ∀ key ∈ keys, Numeric (Json.field r key)) :
    foldKeys (orNone f) keys records =
      .ok (keys.map fun key => (key, render .num (combined op (optional key) records))) := by
  refine foldKeys_eq fun key hkey => ?_
  have hvalues : ∀ v ∈ records.map fun r => Json.field r key, v = render .num v.number :=
    List.forall_mem_map.mpr fun r hr => (h r hr key hkey).eq_render
  rw [orNone_eq (fun _ => rfl) hf hvalues, List.map_map]
  rfl

theorem foldKeys_sum (h : ∀ r ∈ records, ∀ key ∈ sumKeys, Numeric (Json.field r key)) :
    foldKeys (fun values => sum (values.map orZero)) sumKeys records =
      .ok (sumKeys.map fun key => (key, .num (countOf records key))) := by
  refine foldKeys_eq fun key hkey => ?_
  have hzero : (records.map fun r => Json.field r key).map orZero = (records.map (count key)).map .num := by
    rw [List.map_map, List.map_map]
    refine List.map_congr_left fun r hr => ?_
    obtain hnull | ⟨q, hq⟩ := h r hr key hkey
    · simp [orZero, count, hnull, Json.truthy, Json.number]
    · by_cases hz : q = 0
      · simp [orZero, count, hq, Json.truthy, Json.number, hz]
      · simp [orZero, count, hq, Json.truthy, Json.number, hz]
  rw [hzero, sum_nums]
  rfl

theorem orNone_stamp (h : ∀ r ∈ records,
    Json.field r "timestamp" = .null ∨ ∃ s, Json.field r "timestamp" = .str s) :
    orNone largest (records.map fun r => Json.field r "timestamp") =
      .ok (render .str (combined max stamp records)) := by
  have hvalues : ∀ v ∈ records.map fun r => Json.field r "timestamp", v = render .str (textOf v) := by
    refine List.forall_mem_map.mpr fun r hr => ?_
    obtain hnull | ⟨s, hs⟩ := h r hr
    · rw [hnull]
      rfl
    · rw [hs]
      rfl
  rw [orNone_eq (fun _ => rfl) (fun a as => foldlM_embed max larger_str a as) hvalues, List.map_map]
  rfl

theorem all_succeeded : (records.all fun r => (Json.field r "success").truthy) = allSucceeded records := by
  induction records with
  | nil => rfl
  | cons r records ih => exact congrArg (succeeded r && ·) ih

/-- Records of the schema merge. -/
theorem merge_eq (hne : records ≠ []) (h : ∀ r ∈ records, Current r) :
    ∃ phases, Seconds phases (phasesOf records) ∧ merge records = .ok (merged records phases) := by
  obtain ⟨phases, hphases, hsecs⟩ := foldlM_addPhases_seconds (fun r hr => (h r hr).phases)
    (show Seconds [] fun _ => none from ⟨List.nodup_nil, fun _ => rfl⟩)
  refine ⟨phases, hsecs.congr fun name => Std.LawfulLeftIdentity.left_id _, ?_⟩
  have hversions : (records.all fun r => (Json.field r "schema_version").pyEq schemaVersion) = true :=
    List.all_eq_true.mpr fun r hr => (h r hr).version
  have hrecords : mergeRecords records = .ok (merged records phases) := by
    unfold mergeRecords
    rw [foldKeys_eq (g := identityOf records) fun _ _ => rfl,
      foldKeys_sum fun r hr => (h r hr).counts, hphases,
      foldKeys_orNone (· + ·) sum_cons fun r hr => (h r hr).totals,
      foldKeys_orNone max (fun a as => foldlM_embed max larger_num a as) fun r hr => (h r hr).peaks,
      orNone_stamp fun r hr => (h r hr).timestamp, all_succeeded]
    rfl
  rw [merge, if_neg (by simpa using hne), if_pos hversions, hrecords]

end Merged

section Fields
variable {records : List Record} {phases : Record}

theorem keys_merged (records : List Record) (phases : Record) :
    (merged records phases).map Prod.fst = mergedKeys := rfl

theorem field_of_mem {r : Record} (hn : (r.map Prod.fst).Nodup) {key : String} {v : Json}
    (h : (key, v) ∈ r) : Json.field r key = v := by
  rw [Json.field, lookup_of_nodup hn h]
  rfl

theorem field_merged {key : String} {v : Json} (h : (key, v) ∈ merged records phases) :
    Json.field (merged records phases) key = v :=
  field_of_mem (keys_merged records phases ▸ nodup_mergedKeys) h

theorem version_merged : Json.field (merged records phases) "schema_version" = schemaVersion :=
  field_merged (by simp [merged])

theorem identity_merged {key : String} (h : key ∈ eqOrNoneKeys) :
    Json.field (merged records phases) key = identityOf records key :=
  field_merged (by simp [merged, h])

theorem count_merged {key : String} (h : key ∈ sumKeys) :
    Json.field (merged records phases) key = .num (countOf records key) :=
  field_merged (by simp [merged, h])

theorem phases_merged : Json.field (merged records phases) "phase_timings" = .obj phases :=
  field_merged (by simp [merged])

theorem total_merged {key : String} (h : key ∈ sumOrNoneKeys) :
    Json.field (merged records phases) key =
      render .num (combined (· + ·) (optional key) records) :=
  field_merged (by simp [merged, h])

theorem peak_merged {key : String} (h : key ∈ maxOrNoneKeys) :
    Json.field (merged records phases) key = render .num (combined max (optional key) records) :=
  field_merged (by simp [merged, h])

theorem stamp_merged : Json.field (merged records phases) "timestamp" =
    render .str (combined max stamp records) :=
  field_merged (by simp [merged])

theorem success_merged : Json.field (merged records phases) "success" = .bool (allSucceeded records) :=
  field_merged (by simp [merged])

end Fields

section Stands

/-- A record that has the observations of some records together. -/
structure Stands (records : List Record) (out : Record) : Prop where
  nonempty : records ≠ []
  inputs : ∀ r ∈ records, Current r
  current : Current out
  identity : ∀ key ∈ eqOrNoneKeys,
    Common (records.map fun r => Json.field r key) (Json.field out key)
  counts : ∀ key ∈ sumKeys, count key out = countOf records key
  totals : ∀ key ∈ sumOrNoneKeys, optional key out = combined (· + ·) (optional key) records
  peaks : ∀ key ∈ maxOrNoneKeys, optional key out = combined max (optional key) records
  phases : ∀ name, phase name out = phasesOf records name
  stamp : stamp out = combined max stamp records
  success : succeeded out = allSucceeded records

theorem combined_singleton {α : Type} (op : α → α → α) (obs : Record → Option α) (r : Record) :
    combined op obs [r] = obs r := Std.LawfulRightIdentity.right_id (obs r)

theorem stands_item {r : Record} (h : Current r) : Stands [r] r where
  nonempty := List.cons_ne_nil r []
  inputs := List.forall_mem_singleton.mpr h
  current := h
  identity key hkey := by
    have hself : (Json.field r key).pyEq (Json.field r key) = true := Json.pyEq_refl (h.identity key hkey)
    have hall : ∀ w ∈ [Json.field r key], w.pyEq (Json.field r key) = true := List.forall_mem_singleton.mpr hself
    refine ⟨fun _ => hall, fun hne => absurd (fun w hw w' hw' => ?_) hne⟩
    rw [List.mem_singleton.mp hw']
    exact hall w hw
  counts key _ := (add_zero (count key r)).symm
  totals key _ := (combined_singleton (· + ·) (optional key) r).symm
  peaks key _ := (combined_singleton max (optional key) r).symm
  phases name := (combined_singleton (· + ·) (phase name) r).symm
  stamp := (combined_singleton max Telemetry.stamp r).symm
  success := (Bool.and_true (succeeded r)).symm

theorem number_render (q : Option ℚ) : (render Json.num q).number = q := by
  cases q with
  | none => rfl
  | some q => rfl

theorem textOf_render (s : Option String) : textOf (render .str s) = s := by
  cases s with
  | none => rfl
  | some s => rfl

theorem numeric_render (q : Option ℚ) : Numeric (render .num q) := by
  cases q with
  | none => exact .inl rfl
  | some q => exact .inr ⟨q, rfl⟩

variable {records : List Record} {phases : Record}

theorem distinct_identityOf (h : ∀ r ∈ records, Current r) {key : String} (hkey : key ∈ eqOrNoneKeys) :
    (identityOf records key).Distinct := by
  cases records with
  | nil => exact .null
  | cons r records =>
    rw [identityOf, List.map_cons, equalOrNone]
    split_ifs
    · exact (h r (.head _)).identity key hkey
    · exact .null

theorem phaseBlock_of_seconds {secs : String → Option ℚ} (h : Seconds phases secs) :
    PhaseBlock (.obj phases) := by
  refine .inr ⟨phases, rfl, h.1, fun f hf => ?_⟩
  have hlookup := (h.2 f.1).symm.trans (lookup_of_nodup h.1 hf)
  obtain ⟨q, -, hq⟩ := Option.map_eq_some_iff.mp hlookup
  exact ⟨q, hq.symm⟩

theorem current_merged (h : ∀ r ∈ records, Current r) (hsecs : Seconds phases (phasesOf records)) :
    Current (merged records phases) where
  version := by rw [version_merged]; rfl
  counts key hkey := by
    rw [count_merged hkey]
    exact .inr ⟨_, rfl⟩
  totals key hkey := by
    rw [total_merged hkey]
    exact numeric_render _
  peaks key hkey := by
    rw [peak_merged hkey]
    exact numeric_render _
  phases := by
    rw [phases_merged]
    exact phaseBlock_of_seconds hsecs
  timestamp := by
    rw [stamp_merged]
    cases combined max stamp records with
    | none => exact .inl rfl
    | some s => exact .inr ⟨s, rfl⟩
  identity key hkey := by
    rw [identity_merged hkey]
    exact distinct_identityOf h hkey

theorem phase_merged {secs : String → Option ℚ} (h : Seconds phases secs) (name : String) :
    phase name (merged records phases) = secs name := by
  rw [phase, phases_merged]
  show (phases.lookup name).bind Json.number = _
  rw [h.2 name]
  cases secs name with
  | none => rfl
  | some q => rfl

/-- The fold of records stands for them. -/
theorem stands_merged (hne : records ≠ []) (h : ∀ r ∈ records, Current r)
    (hsecs : Seconds phases (phasesOf records)) : Stands records (merged records phases) where
  nonempty := hne
  inputs := h
  current := current_merged h hsecs
  identity key hkey := by
    rw [identity_merged hkey]
    exact equalOrNone_common (List.forall_mem_map.mpr fun r hr => (h r hr).identity key hkey)
  counts key hkey := by
    rw [count, count_merged hkey]
    rfl
  totals key hkey := by rw [optional, total_merged hkey, number_render]
  peaks key hkey := by rw [optional, peak_merged hkey, number_render]
  phases name := phase_merged hsecs name
  stamp := by rw [stamp, stamp_merged, textOf_render]
  success := by
    rw [succeeded, success_merged]
    rfl

/-- A fold of what stands for groups stands for the groups. -/
theorem Stands.flatten {groups : List (List Record)} {outs : List Record} {out : Record}
    (hgroups : List.Forall₂ Stands groups outs) (h : Stands outs out) : Stands groups.flatten out where
  nonempty := by
    obtain ⟨o, ho⟩ := List.exists_mem_of_ne_nil outs h.nonempty
    obtain ⟨group, hgroup, hstands⟩ := forall₂_exists_of_mem_right hgroups ho
    obtain ⟨r, hr⟩ := List.exists_mem_of_ne_nil group hstands.nonempty
    exact List.ne_nil_of_mem (List.mem_flatten_of_mem hgroup hr)
  inputs r hr := by
    obtain ⟨group, hgroup, hr⟩ := List.mem_flatten.mp hr
    obtain ⟨o, ho, hstands⟩ := forall₂_exists_of_mem_right hgroups.flip hgroup
    exact hstands.inputs r hr
  current := h.current
  identity key hkey := by
    refine Common.flatten (hgroups.imp fun group o hstands => ?_) (h.identity key hkey)
    exact ⟨hstands.nonempty, hstands.current.identity key hkey,
      fun r hr => (hstands.inputs r hr).identity key hkey, hstands.identity key hkey⟩
  counts key hkey := (h.counts key hkey).trans
    (foldr_groups (hgroups.imp fun _ _ hstands => hstands.counts key hkey))
  totals key hkey := (h.totals key hkey).trans
    (foldr_groups (hgroups.imp fun _ _ hstands => hstands.totals key hkey))
  peaks key hkey := (h.peaks key hkey).trans
    (foldr_groups (hgroups.imp fun _ _ hstands => hstands.peaks key hkey))
  phases name := (h.phases name).trans
    (foldr_groups (hgroups.imp fun _ _ hstands => hstands.phases name))
  stamp := h.stamp.trans (foldr_groups (hgroups.imp fun _ _ hstands => hstands.stamp))
  success := h.success.trans (foldr_groups (hgroups.imp fun _ _ hstands => hstands.success))

end Stands

end Zagg.Telemetry
