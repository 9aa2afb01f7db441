import Zagg.Dedup.GranuleIds

/-!
# A unit against its leaf's record

A unit is its planned granules and the hash of what is made of them. The record beside the leaf has
the digest of the granules it was folded from; their list, in a sibling object, is only looked at
when the digests differ.
-/
namespace Zagg.Dedup

open Zagg.Lib

abbrev Fields := List (String × Json)

/-- What reading an object gives: a fault, nothing, or its decoded body. -/
abbrev Stored := Except Unit (Option Json)

inductive IdentityAction
  | skip
  | rewrite
  | refuse
deriving DecidableEq

inductive Classification
  | noSidecar
  | unknownPlanned
  | equal
  | semanticMismatch
  | unrecordedIds
  | contraction
  | mixed
  | idMultisetDrift
  | expansion
  | unstampedLeaf
  | columnDrift
deriving DecidableEq

structure Identity where
  action : IdentityAction
  classification : Classification
  missing : List GranuleId
deriving DecidableEq

/-- A verdict that overwrites the leaf. -/
def Identity.rewriteAs (classification : Classification) : Identity :=
  ⟨.rewrite, classification, []⟩

/-- The list of an object, when it is one. -/
def listedIds (fields : Fields) : Option (List Json) :=
  match Json.field fields "granule_ids" with
  | .arr ids => some ids
  | _ => none

/-- `_sibling_ids`: the sibling's list, if its digest is the record's. -/
def siblingIds (sibling : Stored) (recorded : Fields) : Option (List Json) :=
  match sibling with
  | .ok (some (.obj fields)) =>
    match listedIds fields with
    | some ids =>
      if (Json.field fields "granules_sha256").pyEq (Json.field recorded "granules_sha256") then
        some ids
      else none
    | none => none
  | _ => none

/-- The sibling's list, or one that the record itself carries. -/
def leafRecordedIds (sibling : Stored) (recorded : Fields) : Option (List Json) :=
  match siblingIds sibling recorded with
  | some ids => some ids
  | none => listedIds recorded

def digestJson : Option (List Char) → Json
  | none => .null
  | some digest => idJson digest

/-- The run's hash is known and recorded. -/
def semanticMatch (recorded : Fields) : Option (List Char) → Bool
  | none => false
  | some hash => (Json.field recorded "semantic_hash").pyEq (idJson hash)

/-- `sorted(recorded_set - set(planned))`. -/
def droppedIds (recorded planned : List GranuleId) : List GranuleId :=
  sortedSet (recorded.filter (· ∉ planned))

/-- The verdict of two known sets of ids. -/
def diffIds (semantic : Bool) (recorded planned : List GranuleId) : Identity :=
  if droppedIds recorded planned ≠ [] then
    ⟨.refuse, if planned.all (· ∈ recorded) then .contraction else .mixed,
      droppedIds recorded planned⟩
  else if planned.all (· ∈ recorded) && recorded.all (· ∈ planned) then
    .rewriteAs (if semantic then .idMultisetDrift else .semanticMismatch)
  else .rewriteAs .expansion

section Classify
variable (str : Json → List Char) (sha256 : List Char → List Char)

/-- The record's digest is known and is that of the planned ids. -/
def hashesMatch (recorded : Fields) (planned : List GranuleId) : Except PyError Bool :=
  match Json.field recorded "granules_sha256" with
  | .null => .ok false
  | recHash => do
    let digest ← granulesSha256 str sha256 (planned.map idJson)
    return recHash.pyEq (digestJson digest)

/-- The verdict when the digests differ. -/
def diffRecorded (semantic : Bool) (planned : List GranuleId) :
    Option (List Json) → Except PyError Identity
  | none => .ok (.rewriteAs .unrecordedIds)
  | some recIds => do
    let recorded ← canonicalGranuleIds str recIds
    return diffIds semantic recorded planned

def classifyLeafIdentity (recorded : Option Fields) (semanticHash : Option (List Char))
    (plannedIds : Option (List Json)) (recordedIds : Option (List Json)) :
    Except PyError Identity :=
  match recorded, plannedIds with
  | none, _ => .ok (.rewriteAs .noSidecar)
  | some _, none => .ok (.rewriteAs .unknownPlanned)
  | some recorded, some plannedIds => do
    let planned ← canonicalGranuleIds str plannedIds
    let semantic := semanticMatch recorded semanticHash
    if ← hashesMatch str sha256 recorded planned then
      return if semantic then ⟨.skip, .equal, []⟩ else .rewriteAs .semanticMismatch
    else diffRecorded str semantic planned recordedIds

end Classify

section Diff
theorem droppedIds_ne_nil {recorded planned : List GranuleId} : droppedIds recorded planned ≠ [] ↔ ∃ id ∈ recorded, id ∉ planned := by
  have hmem (id : GranuleId) : id ∈ droppedIds recorded planned ↔ id ∈ recorded ∧ id ∉ planned := by
    rw [droppedIds, mem_sortedSet, List.mem_filter, decide_eq_true_eq]
  constructor
  · intro hne
    obtain ⟨id, hid⟩ := List.exists_mem_of_ne_nil _ hne
    exact ⟨id, (hmem id).mp hid⟩
  · intro ⟨id, hid⟩
    exact List.ne_nil_of_mem ((hmem id).mpr hid)

/-- The missing ids are those that the plan drops, and there are some just when it is refused. -/
theorem diffIds_spec (semantic : Bool) (recorded planned : List GranuleId) :
    (diffIds semantic recorded planned).missing = droppedIds recorded planned ∧
    ((diffIds semantic recorded planned).action = .refuse ↔ droppedIds recorded planned ≠ []) ∧
    (diffIds semantic recorded planned).action ≠ .skip := by
  unfold diffIds
  by_cases hdrop : droppedIds recorded planned ≠ []
  · rw [if_pos hdrop]
    exact ⟨rfl, iff_of_true rfl hdrop, nofun⟩
  · have hnil := not_not.mp hdrop
    rw [if_neg hdrop, hnil]
    split
    · exact ⟨rfl, iff_of_false nofun (not_not.mpr rfl), nofun⟩
    · exact ⟨rfl, iff_of_false nofun (not_not.mpr rfl), nofun⟩

end Diff

section Matches
variable {str : Json → List Char} {sha256 : List Char → List Char} {recorded : Fields}

theorem pyEq_idJson {value : Json} {id : GranuleId} : value.pyEq (idJson id) = true ↔ value = idJson id := by
  constructor
  · intro h
    cases value with
    | str s =>
      have hs : s = String.ofList id := of_decide_eq_true h
      rw [hs]
      rfl
    | null | bool | num | inf | nan | arr | obj => simp [idJson, Json.pyEq, Json.number] at h
  · intro h
    rw [h]
    exact decide_eq_true rfl

theorem idJson_inj {id id' : GranuleId} : idJson id = idJson id' ↔ id = id' := by
  rw [idJson, idJson, Json.str.injEq, String.ofList_inj]

theorem digestJson_inj {a b : Option (List Char)} : digestJson a = digestJson b ↔ a = b := by
  cases a with
  | none =>
    cases b with
    | none => exact iff_of_true rfl rfl
    | some _ => exact iff_of_false nofun nofun
  | some _ =>
    cases b with
    | none => exact iff_of_false nofun nofun
    | some _ => exact idJson_inj.trans Option.some_inj.symm

theorem pyEq_digestJson {digest : Option (List Char)} {value : Json}
    (h : (digestJson digest).pyEq value = true) : value = digestJson digest := by
  cases digest with
  | none =>
    cases value with
    | null => rfl
    | bool | num | inf | nan | str | arr | obj => simp [digestJson, Json.pyEq] at h
  | some digest =>
    cases value with
    | str s =>
      have hs : String.ofList digest = s := by simpa [digestJson, idJson, Json.pyEq] using h
      rw [← hs]
      rfl
    | bool | num | inf | nan | null | arr | obj => simp [digestJson, idJson, Json.pyEq] at h

/-- The record names the granules `ids`: it has their digest, and there are some. -/
def RecordedOver (sha256 : List Char → List Char) (recorded : Fields) (ids : List GranuleId) : Prop :=
  ids ≠ [] ∧ Json.field recorded "granules_sha256" = digestJson (digestOf sha256 ids)

/-- Ids that have a canonical form: some text, without a slash. -/
def Bare (ids : List GranuleId) : Prop := ∀ id ∈ ids, id ≠ [] ∧ '/' ∉ id

theorem hashesMatch_eq (str : Json → List Char) (sha256 : List Char → List Char) (recorded : Fields)
    {planned : List GranuleId} (h : Bare planned) :
    ∃ b, hashesMatch str sha256 recorded planned = .ok b ∧
      (b = true ↔ RecordedOver sha256 recorded planned) := by
  have hdigest : granulesSha256 str sha256 (planned.map idJson) = .ok (digestOf sha256 planned) := by
    rw [granulesSha256, canonicalGranuleIds_idJson h]
    rfl
  unfold hashesMatch
  split
  · rename_i hnull
    refine ⟨false, rfl, iff_of_false (fun h => by cases h) ?_⟩
    rintro ⟨hne, hrec⟩
    rw [hnull, digestOf, if_neg hne] at hrec
    cases hrec
  · rename_i hnull
    rw [hdigest]
    refine ⟨_, rfl, ?_⟩
    by_cases hempty : planned = []
    · rw [digestOf_eq_none.mpr hempty]
      refine iff_of_false ?_ fun hover => hover.1 hempty
      cases hrec : Json.field recorded "granules_sha256" with
      | null => exact absurd hrec hnull
      | str | bool | num | inf | nan | arr | obj => simp [digestJson, Json.pyEq, Json.number]
    · rw [RecordedOver, digestOf, if_neg hempty, digestJson, pyEq_idJson]
      exact ⟨fun hrec => ⟨hempty, hrec⟩, fun hover => hover.2⟩

/-- Records over two lists of ids are of the same multiset. -/
theorem RecordedOver.perm (hsha : Function.Injective sha256) {ids ids' : List GranuleId}
    (h : RecordedOver sha256 recorded ids) (hids : ∀ id ∈ ids, '\n' ∉ id)
    (hids' : ∀ id ∈ ids', '\n' ∉ id) : RecordedOver sha256 recorded ids' ↔ ids.Perm ids' := by
  rw [RecordedOver, h.2, digestJson_inj, digestOf_inj hsha hids hids']
  constructor
  · exact fun hover => hover.2
  · intro hperm
    refine ⟨?_, hperm⟩
    intro he
    rw [he] at hperm
    exact h.1 (List.perm_nil.mp hperm)

end Matches

section Verdicts
variable {str : Json → List Char} {sha256 : List Char → List Char} {recorded : Fields}
  {semanticHash : Option (List Char)} {entries : List Json} {planned : List GranuleId}
  {recordedIds : Option (List Json)}

theorem classify_matched (hplan : canonicalGranuleIds str entries = .ok planned)
    (hbare : Bare planned) (hover : RecordedOver sha256 recorded planned) :
    classifyLeafIdentity str sha256 (some recorded) semanticHash (some entries) recordedIds =
      .ok (if semanticMatch recorded semanticHash then ⟨.skip, .equal, []⟩
        else .rewriteAs .semanticMismatch) := by
  obtain ⟨b, hmatch, hb⟩ := hashesMatch_eq str sha256 recorded hbare
  show (canonicalGranuleIds str entries >>= fun planned =>
    hashesMatch str sha256 recorded planned >>= fun matched => if matched then _ else _) = _
  rw [hplan]
  show (hashesMatch str sha256 recorded planned >>= fun matched => if matched then _ else _) = _
  rw [hmatch, hb.mpr hover]
  rfl

theorem classify_unmatched (hplan : canonicalGranuleIds str entries = .ok planned)
    (hbare : Bare planned) (hover : ¬RecordedOver sha256 recorded planned) :
    classifyLeafIdentity str sha256 (some recorded) semanticHash (some entries) recordedIds =
      diffRecorded str (semanticMatch recorded semanticHash) planned recordedIds := by
  obtain ⟨b, hmatch, hb⟩ := hashesMatch_eq str sha256 recorded hbare
  have hfalse : b = false := Bool.eq_false_iff.mpr fun h => hover (hb.mp h)
  show (canonicalGranuleIds str entries >>= fun planned =>
    hashesMatch str sha256 recorded planned >>= fun matched => if matched then _ else _) = _
  rw [hplan]
  show (hashesMatch str sha256 recorded planned >>= fun matched => if matched then _ else _) = _
  rw [hmatch, hfalse]
  rfl

end Verdicts

end Zagg.Dedup
