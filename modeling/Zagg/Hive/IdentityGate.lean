import Zagg.Dedup.LeafIdentity
import Zagg.Windows.Labels

/-!
# The gate before a leaf's fold

A rerun asks, before it reads any input, whether the leaf that stands is current, and whether the
plan drops granules that the leaf was folded from. What stands is what the writers of earlier runs
left: the stamps of the leaf and its column, the record, and the list of granules beside it.
-/
namespace Zagg.Hive

open Zagg.Lib Zagg.Dedup Zagg.Windows

/-- A leaf's artifacts as reads find them; a stamp is the commit attribute of a root group. -/
structure StandingLeaf where
  sidecar : Stored
  sibling : Stored
  leaf : Stored
  column : Stored

/-- Nothing was written yet. -/
def StandingLeaf.absent : StandingLeaf := ⟨.ok none, .ok none, .ok none, .ok none⟩

/-- The sidecar's record; a fault, an absence and a body that is no object are all none. -/
def recordOf : Stored → Option Dedup.Fields
  | .ok (some (.obj fields)) => some fields
  | _ => none

/-- `_leaf_is_committed`. -/
def isCommitted : Stored → Bool
  | .ok (some (.obj _)) => true
  | _ => false

/-- What a run plans for one leaf. -/
structure PlannedUnit where
  shardKey : Int
  window : Option Label
  plannedIds : Option (List Json)
  semanticHash : Option (List Char)
  allowContraction : Bool
  /-- `column_declared`, where there is a `column_path`. -/
  columnDeclared : Option (Option Bool)

inductive UnitOutcome
  | current
  | refused (missingGranules : List GranuleId)
deriving DecidableEq

structure UnitMeta where
  shardKey : Int
  window : Option Label
  identity : Classification
  semanticHash : Option (List Char)
  cellsWithData : Nat
  totalObs : Nat
  granuleCount : Nat
  error : Option String
  outcome : UnitOutcome
deriving DecidableEq

/-- What keeps a unit of matching identity from being current. -/
def artifactDrift (st : StandingLeaf) (columnDeclared : Option (Option Bool)) : Option Classification :=
  if !isCommitted st.leaf then some .unstampedLeaf
  else match columnDeclared with
    | none => none
    | some declared => if declared ≠ some (isCommitted st.column) then some .columnDrift else none

/-- A skip stands only over current artifacts. -/
def checkArtifacts (st : StandingLeaf) (columnDeclared : Option (Option Bool)) (identity : Identity) :
    Identity :=
  match identity.action, artifactDrift st columnDeclared with
  | .skip, some drift => .rewriteAs drift
  | _, _ => identity

def baseMeta (u : PlannedUnit) (identity : Identity) (outcome : UnitOutcome) : UnitMeta where
  shardKey := u.shardKey
  window := u.window
  identity := identity.classification
  semanticHash := u.semanticHash
  cellsWithData := 0
  totalObs := 0
  granuleCount := (u.plannedIds.map List.length).getD 0
  error := none
  outcome := outcome

/-- The early return of a unit that must not fold. -/
def unitMeta (u : PlannedUnit) (identity : Identity) : Option UnitMeta :=
  match identity.action with
  | .skip => some (baseMeta u identity .current)
  | .refuse =>
    if u.allowContraction then none else some (baseMeta u identity (.refused identity.missing))
  | .rewrite => none

section Gate
variable (str : Json → List Char) (sha256 : List Char → List Char)

def leafIdentityGate (st : StandingLeaf) (u : PlannedUnit) :
    Except PyError (Identity × Option UnitMeta) := do
  let recorded := recordOf st.sidecar
  let found ← classifyLeafIdentity str sha256 recorded u.semanticHash u.plannedIds
    (recorded.bind (leafRecordedIds st.sibling))
  let identity := checkArtifacts st u.columnDeclared found
  return (identity, unitMeta u identity)

end Gate

section Writers

/-- What `build_record` has of a unit's identity. -/
def buildRecord (sha256 : List Char → List Char) (semanticHash : Option (List Char))
    (ids : List GranuleId) : Json :=
  .obj [("semantic_hash", digestJson semanticHash),
    ("granules_sha256", digestJson (digestOf sha256 ids))]

/-- The object of `write_granule_ids`. -/
def granuleIdsObject (sha256 : List Char → List Char) (ids : List GranuleId) : Json :=
  .obj [("spec", .str "zagg-granule-ids/1"),
    ("granules_sha256", digestJson (digestOf sha256 ids)),
    ("granule_ids", .arr ((ids.insertionSort (· ≤ ·)).map idJson))]

/-- A record of before the list had its own object; the names in it may be whole paths. -/
def legacyRecord (sha256 : List Char → List Char) (semanticHash : Option (List Char))
    (names : List (List Char)) : Json :=
  .obj [("semantic_hash", digestJson semanticHash),
    ("granules_sha256", digestJson (digestOf sha256 names)),
    ("granule_ids", .arr (names.map idJson))]

/-- One object put, taken or damaged. -/
inductive LeafWrite
  | leaf (stamp : Stored)
  | column (stamp : Stored)
  | record (semanticHash : Option (List Char)) (names : List (List Char))
  | legacyRecord (semanticHash : Option (List Char)) (names : List (List Char))
  | granuleIds (names : List (List Char))
  | loseRecord (faulty : Bool)
  | loseGranuleIds (faulty : Bool)

/-- What is left of an object that is gone, or does not read. -/
def lost (faulty : Bool) : Stored := if faulty then .error () else .ok none

def StandingLeaf.apply (sha256 : List Char → List Char) (st : StandingLeaf) : LeafWrite → StandingLeaf
  | .leaf stamp => { st with leaf := stamp }
  | .column stamp => { st with column := stamp }
  | .record semanticHash names =>
    { st with sidecar := .ok (some (buildRecord sha256 semanticHash names)) }
  | .legacyRecord semanticHash names =>
    { st with sidecar := .ok (some (legacyRecord sha256 semanticHash names)) }
  | .granuleIds names => { st with sibling := .ok (some (granuleIdsObject sha256 names)) }
  | .loseRecord faulty => { st with sidecar := lost faulty }
  | .loseGranuleIds faulty => { st with sibling := lost faulty }

/-- A rerun: what its fold writes lands on the leaf only if the gate lets it fold. -/
def rerun (str : Json → List Char) (sha256 : List Char → List Char) (st : StandingLeaf)
    (u : PlannedUnit) (landed : List LeafWrite) : StandingLeaf :=
  match leafIdentityGate str sha256 st u with
  | .ok (_, none) => landed.foldl (StandingLeaf.apply sha256) st
  | _ => st

end Writers

section Faithful
variable {sha256 : List Char → List Char}

/-- The list that an object carries is the one that its digest was taken over. -/
def ListedOver (sha256 : List Char → List Char) (body : Stored) : Prop :=
  ∀ fields entries, body = .ok (some (.obj fields)) → listedIds fields = some entries →
    ∃ names : List (List Char), entries = names.map idJson ∧
      (∀ name ∈ names, name ≠ [] ∧ '\n' ∉ name) ∧
      Json.field fields "granules_sha256" = digestJson (digestOf sha256 names)

/-- Every list beside a leaf is the one that was digested. -/
structure Faithful (sha256 : List Char → List Char) (st : StandingLeaf) : Prop where
  sidecar : ListedOver sha256 st.sidecar
  sibling : ListedOver sha256 st.sibling

/-- The names that a write records are texts, on one line. -/
def LeafWrite.Named : LeafWrite → Prop
  | .legacyRecord _ names => ∀ name ∈ names, name ≠ [] ∧ '\n' ∉ name
  | .granuleIds names => ∀ name ∈ names, name ≠ [] ∧ '\n' ∉ name
  | _ => True

theorem listed_lost (faulty : Bool) : ListedOver sha256 (lost faulty) := by
  intro fields entries h
  cases faulty with
  | true => exact nomatch h
  | false => exact nomatch h

theorem listed_buildRecord (semanticHash : Option (List Char)) (ids : List GranuleId) :
    ListedOver sha256 (.ok (some (buildRecord sha256 semanticHash ids))) := by
  intro fields entries h hlist
  cases h
  exact nomatch hlist

theorem listed_legacyRecord (semanticHash : Option (List Char)) {names : List (List Char)}
    (h : ∀ name ∈ names, name ≠ [] ∧ '\n' ∉ name) :
    ListedOver sha256 (.ok (some (legacyRecord sha256 semanticHash names))) := by
  intro fields entries hbody hlist
  cases hbody
  cases hlist
  exact ⟨names, rfl, h, rfl⟩

theorem listed_granuleIds {names : List (List Char)} (h : ∀ name ∈ names, name ≠ [] ∧ '\n' ∉ name) :
    ListedOver sha256 (.ok (some (granuleIdsObject sha256 names))) := by
  intro fields entries hbody hlist
  cases hbody
  cases hlist
  refine ⟨names.insertionSort (· ≤ ·), rfl, fun name hname => ?_, ?_⟩
  · exact h name ((List.mem_insertionSort _).mp hname)
  · rw [digestOf_perm (List.perm_insertionSort _ names)]
    rfl

theorem faithful_apply {st : StandingLeaf} (h : Faithful sha256 st) {w : LeafWrite} (hw : w.Named) :
    Faithful sha256 (st.apply sha256 w) := by
  cases w with
  | leaf stamp => exact ⟨h.sidecar, h.sibling⟩
  | column stamp => exact ⟨h.sidecar, h.sibling⟩
  | record semanticHash names => exact ⟨listed_buildRecord semanticHash names, h.sibling⟩
  | legacyRecord semanticHash names => exact ⟨listed_legacyRecord semanticHash hw, h.sibling⟩
  | granuleIds names => exact ⟨h.sidecar, listed_granuleIds hw⟩
  | loseRecord faulty => exact ⟨listed_lost faulty, h.sibling⟩
  | loseGranuleIds faulty => exact ⟨h.sidecar, listed_lost faulty⟩

theorem faithful_foldl {st : StandingLeaf} (h : Faithful sha256 st) {writes : List LeafWrite}
    (hw : ∀ w ∈ writes, w.Named) : Faithful sha256 (writes.foldl (StandingLeaf.apply sha256) st) := by
  induction writes generalizing st with
  | nil => exact h
  | cons w writes ih =>
    rw [List.forall_mem_cons] at hw
    exact ih (faithful_apply h hw.1) hw.2

theorem faithful_absent : Faithful sha256 .absent := ⟨nofun, nofun⟩

/-- A list that is looked at is the one that the record's digest was taken over. -/
theorem Faithful.recorded {st : StandingLeaf} (h : Faithful sha256 st) {recorded : Dedup.Fields}
    {entries : List Json} (hrec : recordOf st.sidecar = some recorded)
    (hids : leafRecordedIds st.sibling recorded = some entries) :
    ∃ names : List (List Char), entries = names.map idJson ∧
      (∀ name ∈ names, name ≠ [] ∧ '\n' ∉ name) ∧
      Json.field recorded "granules_sha256" = digestJson (digestOf sha256 names) := by
  have hbody : st.sidecar = .ok (some (.obj recorded)) := by
    unfold recordOf at hrec
    split at hrec
    · rename_i hside
      rw [hside, Option.some.inj hrec]
    · cases hrec
  unfold leafRecordedIds at hids
  split at hids
  · rename_i ids hsib
    cases hids
    unfold siblingIds at hsib
    split at hsib
    · rename_i fields hsibling
      split at hsib
      · rename_i hlist
        split at hsib
        · rename_i hpair
          cases hsib
          obtain ⟨names, hnames, hone, hdigest⟩ := h.sibling _ _ hsibling hlist
          rw [hdigest] at hpair
          exact ⟨names, hnames, hone, pyEq_digestJson hpair⟩
        · cases hsib
      · cases hsib
    · cases hsib
  · exact h.sidecar _ _ hbody hids

end Faithful

section Verdict
variable {str : Json → List Char} {sha256 : List Char → List Char} {st : StandingLeaf}

/-- The set of granules that the leaf was folded from is known. -/
def KnownGranules (str : Json → List Char) (st : StandingLeaf) (granules : List GranuleId) : Prop :=
  ∃ recorded entries, recordOf st.sidecar = some recorded ∧
    leafRecordedIds st.sibling recorded = some entries ∧
    canonicalGranuleIds str entries = .ok granules

/-- The leaf's record has the digest of the granules. -/
def StampedOver (sha256 : List Char → List Char) (st : StandingLeaf) (granules : List GranuleId) : Prop :=
  ∃ recorded, recordOf st.sidecar = some recorded ∧ RecordedOver sha256 recorded granules

/-- The run's hash is known, and recorded. -/
def SameSemantic (st : StandingLeaf) (semanticHash : Option (List Char)) : Prop :=
  ∃ recorded hash, recordOf st.sidecar = some recorded ∧ semanticHash = some hash ∧
    Json.field recorded "semantic_hash" = idJson hash

/-- Where a column is looked for, there is one just as declared. -/
def ColumnAgrees (st : StandingLeaf) (columnDeclared : Option (Option Bool)) : Prop :=
  ∀ declared ∈ columnDeclared, declared = some (isCommitted st.column)

/-- What a verdict says of the standing leaf and the plan. -/
structure Decides (str : Json → List Char) (sha256 : List Char → List Char) (st : StandingLeaf)
    (planned : List GranuleId) (semanticHash : Option (List Char)) (identity : Identity) : Prop where
  skip : identity.action = .skip ↔ StampedOver sha256 st planned ∧ SameSemantic st semanticHash
  refuse : identity.missing ≠ [] ↔ identity.action = .refuse
  known : identity.action = .refuse → ∃ granules, KnownGranules str st granules
  missing : ∀ granules, KnownGranules str st granules → identity.missing = droppedIds granules planned

theorem semanticMatch_iff {recorded : Dedup.Fields} {semanticHash : Option (List Char)} :
    semanticMatch recorded semanticHash = true ↔
      ∃ hash, semanticHash = some hash ∧ Json.field recorded "semantic_hash" = idJson hash := by
  cases semanticHash with
  | none => exact iff_of_false (fun h => by cases h) (fun hex => by cases hex.choose_spec.1)
  | some hash =>
    rw [semanticMatch, pyEq_idJson]
    constructor
    · exact fun h => ⟨hash, rfl, h⟩
    · rintro ⟨hash', heq, h⟩
      cases heq
      exact h

/-- Names that have the digest of bare ids are these ids. -/
theorem perm_of_recordedOver (hsha : Function.Injective sha256) {recorded : Dedup.Fields}
    {planned : List GranuleId} {names : List (List Char)}
    (hover : RecordedOver sha256 recorded planned) (hplanned : ∀ id ∈ planned, '\n' ∉ id)
    (hnames : ∀ name ∈ names, name ≠ [] ∧ '\n' ∉ name)
    (hdigest : Json.field recorded "granules_sha256" = digestJson (digestOf sha256 names)) :
    names.Perm planned := by
  have hne : names ≠ [] := by
    intro he
    rw [digestOf_eq_none.mpr he, hover.2, digestJson_inj] at hdigest
    exact hover.1 (digestOf_eq_none.mp hdigest)
  have hnamesOver : RecordedOver sha256 recorded names := ⟨hne, hdigest⟩
  exact (hnamesOver.perm hsha (fun name h => (hnames name h).2) hplanned).mp hover

theorem droppedIds_of_perm {granules planned : List GranuleId} (h : granules.Perm planned) :
    droppedIds granules planned = [] := by
  by_contra hne
  obtain ⟨id, hid, hnot⟩ := droppedIds_ne_nil.mp hne
  exact hnot (h.mem_iff.mp hid)

section Recorded
variable {recorded : Dedup.Fields} (hrec : recordOf st.sidecar = some recorded)
include hrec

theorem stampedOver_iff {granules : List GranuleId} :
    StampedOver sha256 st granules ↔ RecordedOver sha256 recorded granules := by
  constructor
  · rintro ⟨_, h, hover⟩
    rw [hrec] at h
    cases h
    exact hover
  · exact fun hover => ⟨recorded, hrec, hover⟩

theorem sameSemantic_iff {semanticHash : Option (List Char)} :
    SameSemantic st semanticHash ↔ semanticMatch recorded semanticHash = true := by
  rw [semanticMatch_iff]
  constructor
  · rintro ⟨_, hash, h, hhash⟩
    rw [hrec] at h
    cases h
    exact ⟨hash, hhash⟩
  · intro hex
    obtain ⟨hash, hhash⟩ := hex
    exact ⟨recorded, hash, hrec, hhash⟩

theorem KnownGranules.entries {granules : List GranuleId} (h : KnownGranules str st granules) :
    ∃ entries, leafRecordedIds st.sibling recorded = some entries ∧
      canonicalGranuleIds str entries = .ok granules := by
  obtain ⟨_, entries, h, hids⟩ := h
  rw [hrec] at h
  cases h
  exact ⟨entries, hids⟩

/-- A verdict that is no refusal is right where nothing recorded is dropped. -/
theorem decides_covered {planned : List GranuleId} {semanticHash : Option (List Char)}
    {identity : Identity} (hnil : identity.missing = []) (hact : identity.action ≠ .refuse)
    (hskip : identity.action = .skip ↔
      RecordedOver sha256 recorded planned ∧ semanticMatch recorded semanticHash = true)
    (hcovered : ∀ granules, KnownGranules str st granules → droppedIds granules planned = []) :
    Decides str sha256 st planned semanticHash identity where
  skip := by rw [hskip, stampedOver_iff hrec, sameSemantic_iff hrec]
  refuse := iff_of_false (not_not.mpr hnil) hact
  known h := absurd h hact
  missing granules h := by rw [hnil, hcovered granules h]

/-- Digests that agree leave no recorded granule to drop. -/
theorem covered_of_recordedOver (hsha : Function.Injective sha256) {planned : List GranuleId}
    (hbare : Bare planned) (hone : ∀ id ∈ planned, '\n' ∉ id) (hst : Faithful sha256 st)
    (hover : RecordedOver sha256 recorded planned) :
    ∀ granules, KnownGranules str st granules → droppedIds granules planned = [] := by
  intro granules h
  obtain ⟨entries, hids, hcanon⟩ := h.entries hrec
  obtain ⟨names, rfl, hnames, hdigest⟩ := hst.recorded hrec hids
  have hperm := perm_of_recordedOver hsha hover hone hnames hdigest
  have hbareNames : Bare names := fun name hname => hbare name (hperm.mem_iff.mp hname)
  rw [canonicalGranuleIds_idJson hbareNames] at hcanon
  cases hcanon
  exact droppedIds_of_perm hperm

/-- The verdict of two known sets, when the digests differ. -/
theorem decides_diff {planned granules : List GranuleId} {entries : List Json}
    {semanticHash : Option (List Char)} (hids : leafRecordedIds st.sibling recorded = some entries)
    (hcanon : canonicalGranuleIds str entries = .ok granules)
    (hover : ¬RecordedOver sha256 recorded planned) :
    Decides str sha256 st planned semanticHash
      (diffIds (semanticMatch recorded semanticHash) granules planned) := by
  obtain ⟨hmissing, hrefuse, hskip⟩ :=
    diffIds_spec (semanticMatch recorded semanticHash) granules planned
  constructor
  · exact iff_of_false hskip fun h => hover ((stampedOver_iff hrec).mp h.1)
  · rw [hmissing, hrefuse]
  · exact fun _ => ⟨granules, recorded, entries, hrec, hids, hcanon⟩
  · intro granules' h
    obtain ⟨entries', hids', hcanon'⟩ := h.entries hrec
    rw [hids] at hids'
    cases hids'
    rw [hcanon] at hcanon'
    cases hcanon'
    exact hmissing

end Recorded

/-- The classification of a unit whose plan is known. -/
theorem classify_decides (hsha : Function.Injective sha256) {entries : List Json}
    {planned : List GranuleId} (hplan : canonicalGranuleIds str entries = .ok planned)
    (hnames : ∀ id ∈ planned, id ≠ [] ∧ '\n' ∉ id) (hst : Faithful sha256 st)
    (semanticHash : Option (List Char)) :
    ∃ identity, classifyLeafIdentity str sha256 (recordOf st.sidecar) semanticHash (some entries)
        ((recordOf st.sidecar).bind (leafRecordedIds st.sibling)) = .ok identity ∧
      Decides str sha256 st planned semanticHash identity := by
  have hbare : Bare planned := fun id hid =>
    ⟨(hnames id hid).1, canonicalGranuleIds_slash hplan id hid⟩
  have hone : ∀ id ∈ planned, '\n' ∉ id := fun id hid => (hnames id hid).2
  cases hrec : recordOf st.sidecar with
  | none =>
    have hnone (recorded : Dedup.Fields) : recordOf st.sidecar ≠ some recorded := by
      rw [hrec]
      intro h
      cases h
    refine ⟨_, rfl, ⟨iff_of_false (fun h => by cases h) ?_,
      iff_of_false (not_not.mpr rfl) (fun h => by cases h), (fun h => by cases h), ?_⟩⟩
    · intro hstamped
      obtain ⟨⟨recorded, h, _⟩, _⟩ := hstamped
      exact hnone recorded h
    · intro _ hknown
      obtain ⟨recorded, _, h, _⟩ := hknown
      exact absurd h (hnone recorded)
  | some recorded =>
    by_cases hover : RecordedOver sha256 recorded planned
    · refine ⟨_, classify_matched hplan hbare hover, ?_⟩
      have hcovered : ∀ granules, KnownGranules str st granules → droppedIds granules planned = [] :=
        covered_of_recordedOver hrec hsha hbare hone hst hover
      cases hsem : semanticMatch recorded semanticHash with
      | true =>
        exact decides_covered hrec rfl (fun h => by cases h) (iff_of_true rfl ⟨hover, hsem⟩) hcovered
      | false =>
        refine decides_covered hrec rfl (fun h => by cases h) (iff_of_false (fun h => by cases h) ?_)
          hcovered
        rw [hsem]
        exact fun h => Bool.false_ne_true h.2
    · rw [classify_unmatched hplan hbare hover]
      cases hids : leafRecordedIds st.sibling recorded with
      | none =>
        refine ⟨.rewriteAs .unrecordedIds, by rw [Option.bind_some, hids]; rfl,
          decides_covered hrec rfl (fun h => by cases h)
            (iff_of_false (fun h => by cases h) fun h => hover h.1) ?_⟩
        intro granules h
        obtain ⟨_, h, _⟩ := h.entries hrec
        rw [hids] at h
        cases h
      | some listed =>
        obtain ⟨names, rfl, hrecNames, -⟩ := hst.recorded hrec hids
        obtain ⟨granules, hcanon⟩ := exists_canonicalGranuleIds str
          fun name hname => (hrecNames name hname).1
        refine ⟨_, ?_, decides_diff hrec hids hcanon hover⟩
        rw [Option.bind_some, hids, diffRecorded, hcanon]
        rfl

theorem Decides.refuse_iff {planned : List GranuleId} {semanticHash : Option (List Char)}
    {identity : Identity} (h : Decides str sha256 st planned semanticHash identity) :
    identity.action = .refuse ↔ ∃ granules, KnownGranules str st granules ∧
      ∃ id ∈ granules, id ∉ planned := by
  constructor
  · intro hact
    obtain ⟨granules, hknown⟩ := h.known hact
    have hmissing := h.refuse.mpr hact
    rw [h.missing granules hknown] at hmissing
    exact ⟨granules, hknown, droppedIds_ne_nil.mp hmissing⟩
  · intro ⟨granules, hknown, hdrop⟩
    rw [← h.refuse, h.missing granules hknown]
    exact droppedIds_ne_nil.mpr hdrop

theorem artifactDrift_eq_none {columnDeclared : Option (Option Bool)} :
    artifactDrift st columnDeclared = none ↔
      isCommitted st.leaf = true ∧ ColumnAgrees st columnDeclared := by
  unfold artifactDrift
  cases isCommitted st.leaf with
  | false => exact iff_of_false nofun fun h => Bool.false_ne_true h.1
  | true =>
    cases columnDeclared with
    | none => exact iff_of_true rfl ⟨rfl, nofun⟩
    | some declared =>
      have hagrees : ColumnAgrees st (some declared) ↔ declared = some (isCommitted st.column) :=
        ⟨fun h => h declared rfl, fun h d hd => Option.some.inj hd ▸ h⟩
      rw [hagrees]
      by_cases heq : declared = some (isCommitted st.column)
      · simp [heq]
      · simp [heq]

/-- The check of the artifacts takes skips back, and nothing else. -/
theorem checkArtifacts_spec (st : StandingLeaf) (columnDeclared : Option (Option Bool))
    {identity : Identity}
    (h : identity.action = .skip → identity.missing = []) :
    (checkArtifacts st columnDeclared identity).missing = identity.missing ∧
    ((checkArtifacts st columnDeclared identity).action = .refuse ↔ identity.action = .refuse) ∧
    ((checkArtifacts st columnDeclared identity).action = .skip ↔
      identity.action = .skip ∧ isCommitted st.leaf = true ∧ ColumnAgrees st columnDeclared) := by
  rw [← artifactDrift_eq_none]
  cases hact : identity.action with
  | skip =>
    cases hdrift : artifactDrift st columnDeclared with
    | none => simp [checkArtifacts, hact, hdrift]
    | some drift => simp [checkArtifacts, hact, hdrift, Identity.rewriteAs, h hact]
  | rewrite => simp [checkArtifacts, hact]
  | refuse => simp [checkArtifacts, hact]

theorem rerun_of_meta {u : PlannedUnit} {identity : Identity} {unit : UnitMeta}
    (h : leafIdentityGate str sha256 st u = .ok (identity, some unit)) (landed : List LeafWrite) :
    rerun str sha256 st u landed = st := by
  rw [rerun, h]

/-- The gate's answer. A skip is for a stamped leaf whose record has the digest of the planned
granules, whatever their order, and the run's hash; a refusal for a known set of granules of which
some are not planned, and these are the missing ones; and no fold lands on a leaf that is refused. -/
theorem identity_gate_exact (hsha : Function.Injective sha256) (u : PlannedUnit)
    {entries : List Json} (hu : u.plannedIds = some entries) {planned : List GranuleId}
    (hplan : canonicalGranuleIds str entries = .ok planned)
    (hnames : ∀ id ∈ planned, id ≠ [] ∧ '\n' ∉ id) (hst : Faithful sha256 st) :
    ∃ identity, leafIdentityGate str sha256 st u = .ok (identity, unitMeta u identity) ∧
      (∀ granules, StampedOver sha256 st granules → (∀ id ∈ granules, '\n' ∉ id) →
        (identity.action = .skip ↔ isCommitted st.leaf = true ∧ granules.Perm planned ∧
          SameSemantic st u.semanticHash ∧ ColumnAgrees st u.columnDeclared)) ∧
      (identity.action = .skip → StampedOver sha256 st planned) ∧
      (identity.action = .refuse ↔ ∃ granules, KnownGranules str st granules ∧
        ∃ id ∈ granules, id ∉ planned) ∧
      (identity.missing ≠ [] ↔ identity.action = .refuse) ∧
      (∀ granules, KnownGranules str st granules →
        identity.missing = droppedIds granules planned) ∧
      ∀ granules, KnownGranules str st granules → (∃ id ∈ granules, id ∉ planned) →
        u.allowContraction = false → ∀ landed, rerun str sha256 st u landed = st := by
  obtain ⟨found, hfound, hdecides⟩ := classify_decides hsha hplan hnames hst u.semanticHash
  have hskipMissing : found.action = .skip → found.missing = [] := by
    intro hskip
    by_contra hne
    rw [hdecides.refuse.mp hne] at hskip
    exact nomatch hskip
  obtain ⟨hmissing, hrefuse, hskip⟩ :=
    checkArtifacts_spec st u.columnDeclared hskipMissing
  have hgate : leafIdentityGate str sha256 st u =
      .ok (checkArtifacts st u.columnDeclared found,
        unitMeta u (checkArtifacts st u.columnDeclared found)) := by
    show (classifyLeafIdentity str sha256 (recordOf st.sidecar) u.semanticHash u.plannedIds
      ((recordOf st.sidecar).bind (leafRecordedIds st.sibling)) >>= fun found =>
        .ok (checkArtifacts st u.columnDeclared found,
          unitMeta u (checkArtifacts st u.columnDeclared found))) = _
    rw [hu, hfound]
    rfl
  refine ⟨_, hgate, ?_, ?_, ?_, ?_, ?_, ?_⟩
  · intro granules hover hone
    have hperm : StampedOver sha256 st planned ↔ granules.Perm planned := by
      obtain ⟨recorded, hrec, hrecorded⟩ := hover
      rw [stampedOver_iff hrec]
      exact hrecorded.perm hsha hone fun id hid => (hnames id hid).2
    rw [hskip, hdecides.skip, hperm]
    tauto
  · exact fun h => (hdecides.skip.mp (hskip.mp h).1).1
  · rw [hrefuse, hdecides.refuse_iff]
  · rw [hmissing, hrefuse, hdecides.refuse]
  · intro granules hknown
    rw [hmissing, hdecides.missing granules hknown]
  · intro granules hknown hdrop hallow landed
    have hact := hrefuse.mpr (hdecides.refuse_iff.mpr ⟨granules, hknown, hdrop⟩)
    have hmeta : unitMeta u (checkArtifacts st u.columnDeclared found) =
        some (baseMeta u (checkArtifacts st u.columnDeclared found)
          (.refused (checkArtifacts st u.columnDeclared found).missing)) := by
      rw [unitMeta, hact, hallow]
      rfl
    rw [hmeta] at hgate
    exact rerun_of_meta hgate landed

end Verdict

section Samples

/-- A hash given by the digests of some texts. -/
def tabled (table : List (List Char × List Char)) (text : List Char) : List Char :=
  match table.lookup text with
  | some digest => digest
  | none => '#' :: text

def sampleDigests : List (List Char × List Char) :=
  [("g1.h5".toList,
      "22fbf6c0077818e45db514849ca1ea3d8587983981731beb640398a903e84d3f".toList),
    ("s3://b/g1.h5".toList,
      "56cc99af0b96ecb10ce0397239acd2b745b30b7599ab1569758deb1ec0f29856".toList),
    ("g1.h5\ng1.h5".toList,
      "428a29e08ba252f829668b5500dfe424968e37bc122e0c97cf3298a23842fad9".toList),
    ("g1.h5\ng2.h5".toList,
      "08f198fbdc1b9cdee6e5ff3ff7fc47fb59e4074b630e3240de2040ad055634bb".toList)]

theorem tabled_injective {table : List (List Char × List Char)}
    (hvalues : (table.map Prod.snd).Nodup) (hmark : ∀ e ∈ table, e.2.head? ≠ some '#') :
    Function.Injective (tabled table) := by
  have hmem {text digest : List Char} (h : table.lookup text = some digest) :
      (text, digest) ∈ table := by
    obtain ⟨before, after, heq, -⟩ := List.lookup_eq_some_iff.mp h
    rw [heq]
    simp
  intro text text' h
  unfold tabled at h
  cases hd : table.lookup text with
  | none =>
    cases hd' : table.lookup text' with
    | none =>
      rw [hd, hd'] at h
      exact (List.cons.inj h).2
    | some digest' =>
      rw [hd, hd'] at h
      exact absurd (congrArg List.head? h.symm) (hmark _ (hmem hd'))
  | some digest =>
    cases hd' : table.lookup text' with
    | none =>
      rw [hd, hd'] at h
      exact absurd (congrArg List.head? h) (hmark _ (hmem hd))
    | some digest' =>
      rw [hd, hd'] at h
      exact congrArg Prod.fst (List.inj_on_of_nodup_map hvalues (hmem hd) (hmem hd') h)

/-- A leaf that was written over the granules `ids`, with everything beside it. -/
def sampleLeaf (semanticHash : List Char) (ids : List GranuleId) : StandingLeaf :=
  [LeafWrite.leaf (.ok (some (.obj []))), .granuleIds ids, .record (some semanticHash) ids].foldl
    (StandingLeaf.apply (tabled sampleDigests)) .absent

def sampleUnit (semanticHash : List Char) (entries : List String) : PlannedUnit where
  shardKey := 1
  window := none
  plannedIds := some (entries.map .str)
  semanticHash := some semanticHash
  allowContraction := false
  columnDeclared := none

theorem identity_gate_exact_driver_switch :
    ∃ identity, leafIdentityGate (fun _ => []) (tabled sampleDigests)
        (sampleLeaf (List.replicate 64 'a') ["g1.h5".toList, "g2.h5".toList])
        (sampleUnit (List.replicate 64 'a') ["https://h/g2.h5", "s3://b/g1.h5"]) =
          .ok (identity, unitMeta (sampleUnit (List.replicate 64 'a')
            ["https://h/g2.h5", "s3://b/g1.h5"]) identity) ∧
      identity.action = .skip := by
  have hnamed : ∀ w ∈ [LeafWrite.leaf (.ok (some (.obj []))),
      .granuleIds ["g1.h5".toList, "g2.h5".toList],
      .record (some (List.replicate 64 'a')) ["g1.h5".toList, "g2.h5".toList]], w.Named := by
    intro w hw
    simp only [List.mem_cons, List.not_mem_nil, or_false] at hw
    rcases hw with rfl | rfl | rfl
    · trivial
    · exact show ∀ name ∈ ["g1.h5".toList, "g2.h5".toList], name ≠ [] ∧ '\n' ∉ name by decide
    · trivial
  have hover : StampedOver (tabled sampleDigests)
      (sampleLeaf (List.replicate 64 'a') ["g1.h5".toList, "g2.h5".toList])
      ["g1.h5".toList, "g2.h5".toList] := ⟨_, rfl, List.cons_ne_nil _ _, rfl⟩
  obtain ⟨identity, hgate, hskip, -⟩ := identity_gate_exact
    (tabled_injective (by decide +kernel) (by decide +kernel) : Function.Injective (tabled sampleDigests))
    (sampleUnit (List.replicate 64 'a') ["https://h/g2.h5", "s3://b/g1.h5"]) rfl
    (show canonicalGranuleIds (fun _ => []) _ = Except.ok ["g2.h5".toList, "g1.h5".toList] by
      decide +kernel) (by decide +kernel)
    (faithful_foldl faithful_absent hnamed)
  refine ⟨identity, hgate, (hskip _ hover (by decide +kernel)).mpr ⟨rfl, by decide +kernel, ?_, fun _ h => by cases h⟩⟩
  exact ⟨_, List.replicate 64 'a', rfl, rfl, rfl⟩

/-- The leaf of a record over whole paths is not current for the same granules; a leaf whose list
is lost, and one with a granule recorded twice, give way to a fold of fewer granules. -/
theorem identity_gate_known_only :
    leafIdentityGate (fun _ => []) (tabled sampleDigests)
      ⟨.ok (some (legacyRecord (tabled sampleDigests) (some (List.replicate 64 'a'))
        ["s3://b/g1.h5".toList])), .ok none, .ok (some (.obj [])), .ok none⟩
      (sampleUnit (List.replicate 64 'a') ["s3://b/g1.h5"]) =
        .ok (.rewriteAs .idMultisetDrift, none) ∧
    leafIdentityGate (fun _ => []) (tabled sampleDigests)
      { sampleLeaf (List.replicate 64 'a') ["g1.h5".toList, "g2.h5".toList] with sibling := .ok none }
      (sampleUnit (List.replicate 64 'a') ["g1.h5"]) = .ok (.rewriteAs .unrecordedIds, none) ∧
    leafIdentityGate (fun _ => []) (tabled sampleDigests)
      (sampleLeaf (List.replicate 64 'a') ["g1.h5".toList, "g1.h5".toList])
      (sampleUnit (List.replicate 64 'a') ["g1.h5"]) = .ok (.rewriteAs .idMultisetDrift, none) := by
  refine ⟨by decide +kernel, by decide +kernel, by decide +kernel⟩

end Samples

end Zagg.Hive
