import Zagg.Catalog.Reproject

/-!
# Sibling pairs

A catalog of one product is paired with the catalog of another on the part of a granule's id
that both products of an acquisition share. A primary carries the hrefs of its sibling; what is
not paired is reported. A sibling whose id lacks that part is the exception: it is skipped
before anything is written down.
-/
namespace Zagg.Catalog

open Zagg.Lib

section JoinKey

/-- `\d` and `\w`. -/
structure CharClasses where
  digit : Char → Bool
  word : Char → Bool

structure JoinKey where
  datetime : Text
  orbit : Text
  subOrbit : Text
  track : Text
  generation : Text
deriving DecidableEq

variable (cls : CharClasses)

/-- A literal character. -/
def literal (ch : Char) : Text → Option Text
  | [] => none
  | first :: rest => if first = ch then some rest else none

/-- `(\d+)_`: the run of digits, and what is behind its underscore. -/
def digitField (text : Text) : Option (Text × Text) :=
  if text.takeWhile cls.digit = [] then none
  else (literal '_' (text.dropWhile cls.digit)).map fun rest => (text.takeWhile cls.digit, rest)

/-- `$`: the end, or a line feed before it. -/
def atEnd (text : Text) : Bool := text = [] ∨ text = ['\n']

/-- `(V\d+)(?:\.\w+)?$`. -/
def generationAt : Text → Option Text
  | 'V' :: rest =>
    let version := rest.takeWhile cls.digit
    let tail := rest.dropWhile cls.digit
    if version = [] then none
    else if atEnd tail then some ('V' :: version)
    else match tail with
      | '.' :: suffix =>
        if suffix.takeWhile cls.word ≠ [] ∧ atEnd (suffix.dropWhile cls.word) then
          some ('V' :: version)
        else none
      | _ => none
  | _ => none

/-- `.*_(V\d+)(?:\.\w+)?$`: the last underscore of the line that a generation follows. -/
def lastGeneration : Text → Option Text
  | [] => none
  | ch :: rest =>
    ((if ch = '\n' then none else lastGeneration rest)).or
      (if ch = '_' then generationAt cls rest else none)

/-- The pattern at one place of the id. -/
def joinKeyAt (text : Text) : Option JoinKey := do
  let text ← literal '_' text
  let (datetime, text) ← digitField cls text
  if datetime.length = 13 then
    let text ← literal 'O' text
    let (orbit, text) ← digitField cls text
    let (subOrbit, text) ← digitField cls text
    let text ← literal 'T' text
    let (track, text) ← digitField cls text
    let generation ← lastGeneration cls text
    return ⟨datetime, 'O' :: orbit, subOrbit, 'T' :: track, generation⟩
  else none

/-- `_SIBLING_ID_RE.search`: the first place where the pattern holds. -/
def searchJoinKey : Text → Option JoinKey
  | [] => none
  | ch :: rest => (joinKeyAt cls (ch :: rest)).or (searchJoinKey rest)

def siblingJoinKey (granuleId : Option Text) : Option JoinKey :=
  searchJoinKey cls (granuleId.getD [])

end JoinKey

section Pair
variable {V : Type} (key : Option Text → Option JoinKey) (asset : String)

/-- A granule that is not in the build: whose it is and what it lacks. -/
structure Pairless where
  id : Option Text
  missing : String

structure PairingState (V : Type) where
  sibByKey : List (JoinKey × CatalogRecord V)
  paired : List (CatalogRecord V)
  pairless : List Pairless
  matched : List JoinKey
  duplicatePrimaries : List (Option Text)

/-- The loop over the siblings: the first of a key is kept, an unkeyed one skipped. -/
def registerSibling (st : PairingState V) (rec : CatalogRecord V) : PairingState V :=
  match key rec.id with
  | none => st
  | some k =>
    match st.sibByKey.lookup k with
    | some _ => { st with pairless := st.pairless ++ [⟨rec.id, "duplicate-key"⟩] }
    | none => { st with sibByKey := st.sibByKey ++ [(k, rec)] }

def textJson : Option Text → Json
  | none => .null
  | some text => .str (String.ofList text)

/-- The hrefs of a sibling. -/
def hrefTrio (sib : CatalogRecord V) : Json :=
  .obj [("id", textJson sib.id), ("s3", textJson sib.s3), ("https", textJson sib.https)]

/-- `rec.get("assets") or {}`, where it is a mapping. -/
def assetFields (rec : CatalogRecord V) : Option (List (String × Json)) :=
  match (rec.assets.getD .null).orEmpty with
  | .obj fields => some fields
  | _ => none

/-- The loop over the primaries. -/
def pairPrimary (st : PairingState V) (rec : CatalogRecord V) : Except PyError (PairingState V) :=
  match key rec.id with
  | none => .ok { st with pairless := st.pairless ++ [⟨rec.id, asset⟩] }
  | some k =>
    match st.sibByKey.lookup k with
    | none => .ok { st with pairless := st.pairless ++ [⟨rec.id, asset⟩] }
    | some sib =>
      match assetFields rec with
      | none => .error .typeError
      | some fields => .ok { st with
          duplicatePrimaries :=
            if k ∈ st.matched then st.duplicatePrimaries ++ [rec.id] else st.duplicatePrimaries
          matched := if k ∈ st.matched then st.matched else st.matched ++ [k]
          paired := st.paired ++ [{ rec with assets := some (.obj (put asset (hrefTrio sib) fields)) }] }

/-- `_pair_sibling_records`: the paired primaries and the pairless granules. -/
def pairSiblingRecords (records siblings : List (CatalogRecord V)) :
    Except PyError (List (CatalogRecord V) × List Pairless) :=
  let st := siblings.foldl (registerSibling key) ⟨[], [], [], [], []⟩
  (records.foldlM (pairPrimary key asset) st).bind fun st =>
    .ok (st.paired, st.pairless ++ st.sibByKey.filterMap fun e =>
      if e.1 ∈ st.matched then none else some ⟨e.2.id, "primary"⟩)

end Pair

section Ledger
variable {V : Type} (key : Option Text → Option JoinKey) (asset : String)

/-- The first sibling of a primary's key. -/
def siblingOf (siblings : List (CatalogRecord V)) (rec : CatalogRecord V) :
    Option (CatalogRecord V) :=
  (key rec.id).bind fun k => siblings.find? fun sib => key sib.id = some k

/-- The primary with the sibling's hrefs among its assets. -/
def pairedWith (rec sib : CatalogRecord V) : CatalogRecord V :=
  { rec with assets := some (.obj (put asset (hrefTrio sib) ((assetFields rec).getD []))) }

/-- A sibling of the same key stands before it. -/
def repeated (siblings : List (CatalogRecord V)) (s : CatalogRecord V × Nat) : Bool :=
  (siblings.take s.2).any fun sib => (key sib.id).isSome && decide (key sib.id = key s.1.id)

/-- The first of its key, and some primary has the key. -/
def attachedAt (records siblings : List (CatalogRecord V)) (s : CatalogRecord V × Nat) : Bool :=
  (key s.1.id).isSome && !repeated key siblings s &&
    records.any fun rec => decide (key rec.id = key s.1.id)

def primaryReport (rec : CatalogRecord V) : Pairless := ⟨rec.id, asset⟩

def siblingReport (siblings : List (CatalogRecord V)) (s : CatalogRecord V × Nat) : Pairless :=
  ⟨s.1.id, if repeated key siblings s then "duplicate-key" else "primary"⟩

/-- Every primary is paired or reported, and every sibling attached or reported, once. -/
structure PairingLedger (records siblings paired : List (CatalogRecord V))
    (pairless : List Pairless) : Prop where
  paired : paired = records.filterMap fun rec =>
    (siblingOf key siblings rec).map (pairedWith asset rec)
  attached : ∀ s ∈ siblings.zipIdx, attachedAt key records siblings s = true → ∀ rec ∈ records,
    key rec.id = key s.1.id → siblingOf key siblings rec = some s.1
  pairless : pairless.Perm
    ((records.filter fun rec => (siblingOf key siblings rec).isNone).map (primaryReport asset) ++
      (siblings.zipIdx.filter fun s => !attachedAt key records siblings s).map
        (siblingReport key siblings))

variable {key asset} {records siblings : List (CatalogRecord V)}

section Siblings

theorem repeated_append {s : CatalogRecord V × Nat} (h : s ∈ siblings.zipIdx)
    (rest : List (CatalogRecord V)) :
    repeated key (siblings ++ rest) s = repeated key siblings s := by
  have hlt : s.2 < siblings.length := by
    have hbound := (List.mem_zipIdx h).2.1
    omega
  rw [repeated, repeated, List.take_append_of_le_length hlt.le]

theorem repeated_last (siblings : List (CatalogRecord V)) (sib : CatalogRecord V) :
    repeated key (siblings ++ [sib]) (sib, siblings.length) =
      siblings.any fun t => (key t.id).isSome && decide (key t.id = key sib.id) := by
  rw [repeated, List.take_left' rfl]

/-- The siblings that the first loop keeps, under their keys. -/
def keptSiblings (key : Option Text → Option JoinKey) (siblings : List (CatalogRecord V)) :
    List (JoinKey × CatalogRecord V) :=
  siblings.zipIdx.filterMap fun s =>
    if repeated key siblings s then none else (key s.1.id).map fun k => (k, s.1)

def repeatedReports (key : Option Text → Option JoinKey) (siblings : List (CatalogRecord V)) :
    List Pairless :=
  (siblings.zipIdx.filter (repeated key siblings)).map fun s => ⟨s.1.id, "duplicate-key"⟩

theorem keptSiblings_concat (siblings : List (CatalogRecord V)) (sib : CatalogRecord V) :
    keptSiblings key (siblings ++ [sib]) = keptSiblings key siblings ++
      (if repeated key (siblings ++ [sib]) (sib, siblings.length) then []
        else ((key sib.id).map fun k => (k, sib)).toList) := by
  rw [keptSiblings, List.zipIdx_append, List.filterMap_append]
  congr 1
  · apply List.filterMap_congr
    intro s hs
    rw [repeated_append hs]
  · rw [Nat.zero_add]
    show List.filterMap _ [(sib, siblings.length)] = _
    rw [List.filterMap_cons, List.filterMap_nil]
    split_ifs
    · rfl
    · cases key sib.id <;> rfl

theorem repeatedReports_concat (siblings : List (CatalogRecord V)) (sib : CatalogRecord V) :
    repeatedReports key (siblings ++ [sib]) = repeatedReports key siblings ++
      (if repeated key (siblings ++ [sib]) (sib, siblings.length) then
        [⟨sib.id, "duplicate-key"⟩] else []) := by
  rw [repeatedReports, List.zipIdx_append, List.filter_append, List.map_append]
  congr 1
  · have hsame : siblings.zipIdx.filter (repeated key (siblings ++ [sib])) =
        siblings.zipIdx.filter (repeated key siblings) :=
      List.filter_congr fun s hs => repeated_append hs [sib]
    rw [hsame]
    rfl
  · rw [Nat.zero_add]
    show List.map _ (List.filter _ [(sib, siblings.length)]) = _
    rw [List.filter_singleton]
    cases repeated key (siblings ++ [sib]) (sib, siblings.length) <;> rfl

variable (key) in
theorem lookup_keptSiblings (siblings : List (CatalogRecord V)) (k : JoinKey) :
    (keptSiblings key siblings).lookup k = siblings.find? fun sib => key sib.id = some k := by
  induction siblings using List.reverseRecOn with
  | nil => rfl
  | append_singleton siblings sib ih =>
    rw [keptSiblings_concat, List.lookup_append, ih, List.find?_append, repeated_last]
    cases hfind : siblings.find? fun sib => key sib.id = some k with
    | some first => rfl
    | none =>
      rw [Option.none_or, Option.none_or]
      have hnone : ∀ t ∈ siblings, key t.id ≠ some k := fun t ht hk =>
        absurd (decide_eq_true hk) (List.find?_eq_none.mp hfind t ht)
      cases hkey : key sib.id with
      | none => split_ifs <;> simp [hkey]
      | some k' =>
        by_cases hk : k = k'
        · subst hk
          have hfirst : (siblings.any fun t => (key t.id).isSome && decide (key t.id = some k)) =
              false := by
            rw [List.any_eq_false]
            intro t ht
            simp [hnone t ht]
          rw [hfirst]
          simp [hkey]
        · split_ifs
          · simp [hkey, Ne.symm hk]
          · simp [hkey, Ne.symm hk, List.lookup_cons, beq_false_of_ne hk]

/-- The first loop keeps the first sibling of each key and reports the others. -/
theorem foldl_registerSibling (siblings : List (CatalogRecord V)) :
    siblings.foldl (registerSibling key) ⟨[], [], [], [], []⟩ =
      ⟨keptSiblings key siblings, [], repeatedReports key siblings, [], []⟩ := by
  induction siblings using List.reverseRecOn with
  | nil => rfl
  | append_singleton siblings sib ih =>
    rw [List.foldl_append, ih, List.foldl_cons, List.foldl_nil, keptSiblings_concat,
      repeatedReports_concat, repeated_last]
    unfold registerSibling
    cases hkey : key sib.id with
    | none =>
      have hfirst : (siblings.any fun t => (key t.id).isSome && decide (key t.id = none)) = false := by
        rw [List.any_eq_false]
        intro t _
        cases key t.id <;> simp
      simp [hfirst]
    | some k =>
      have hlookup := lookup_keptSiblings key siblings k
      cases hfind : siblings.find? fun sib => key sib.id = some k with
      | none =>
        have hfirst : (siblings.any fun t => (key t.id).isSome && decide (key t.id = some k)) =
            false := by
          rw [List.any_eq_false]
          intro t ht
          have hne := List.find?_eq_none.mp hfind t ht
          simp only [decide_eq_true_eq] at hne
          simp [hne]
        simp [hlookup, hfind, hfirst]
      | some first =>
        have hrep : (siblings.any fun t => (key t.id).isSome && decide (key t.id = some k)) =
            true := by
          rw [List.any_eq_true]
          have hfirst := List.find?_some (p := fun sib : CatalogRecord V => key sib.id = some k) hfind
          refine ⟨first, List.mem_of_find?_eq_some hfind, ?_⟩
          simp [of_decide_eq_true hfirst]
        simp [hlookup, hfind, hrep]

end Siblings
section Primaries

variable (asset) in
/-- A primary whose key has a sibling. -/
theorem pairPrimary_paired {rec sib : CatalogRecord V} (hassets : (assetFields rec).isSome)
    (st : PairingState V) {k : JoinKey} (hkey : key rec.id = some k)
    (hsib : st.sibByKey.lookup k = some sib) :
    ∃ next, pairPrimary key asset st rec = .ok next ∧ next.sibByKey = st.sibByKey ∧
      next.paired = st.paired ++ [pairedWith asset rec sib] ∧ next.pairless = st.pairless ∧
      ∀ k', k' ∈ next.matched ↔ k' ∈ st.matched ∨ k' = k := by
  obtain ⟨fields, hfields⟩ := Option.isSome_iff_exists.mp hassets
  refine ⟨{ st with
    duplicatePrimaries :=
      if k ∈ st.matched then st.duplicatePrimaries ++ [rec.id] else st.duplicatePrimaries
    matched := if k ∈ st.matched then st.matched else st.matched ++ [k]
    paired := st.paired ++ [pairedWith asset rec sib] }, ?_, rfl, rfl, rfl, fun k' => ?_⟩
  · unfold pairPrimary pairedWith
    simp only [hkey, hsib, hfields, Option.getD_some]
  · show k' ∈ (if k ∈ st.matched then st.matched else st.matched ++ [k]) ↔ _
    split_ifs with hmem
    · exact ⟨.inl, fun h => h.elim id fun heq => heq ▸ hmem⟩
    · rw [List.mem_append, List.mem_singleton]

variable (asset) in
/-- The second loop pairs the primaries whose key has a sibling and reports the others. -/
theorem foldlM_pairPrimary (hassets : ∀ rec ∈ records, (assetFields rec).isSome)
    (st : PairingState V)
    (hlookup : ∀ k, st.sibByKey.lookup k = siblings.find? fun sib => key sib.id = some k) :
    ∃ out, records.foldlM (pairPrimary key asset) st = .ok out ∧ out.sibByKey = st.sibByKey ∧
      out.paired = st.paired ++ (records.filterMap fun rec =>
        (siblingOf key siblings rec).map (pairedWith asset rec)) ∧
      out.pairless = st.pairless ++
        (records.filter fun rec => (siblingOf key siblings rec).isNone).map (primaryReport asset) ∧
      ∀ k, k ∈ out.matched ↔ k ∈ st.matched ∨
        ((siblings.find? fun sib => key sib.id = some k).isSome ∧
          ∃ rec ∈ records, key rec.id = some k) := by
  induction records generalizing st with
  | nil => exact ⟨st, rfl, rfl, (List.append_nil _).symm, (List.append_nil _).symm, by simp⟩
  | cons rec records ih =>
    have hrest := fun st hl => ih (fun r hr => hassets r (.tail _ hr)) st hl
    rw [List.foldlM_cons]
    have hunpaired : siblingOf key siblings rec = none → pairPrimary key asset st rec =
        .ok { st with pairless := st.pairless ++ [⟨rec.id, asset⟩] } := by
      intro hnone
      unfold pairPrimary
      cases hkey : key rec.id with
      | none => rfl
      | some k =>
        rw [siblingOf, hkey, Option.bind_some] at hnone
        simp only [hlookup, hnone]
    cases hsib : siblingOf key siblings rec with
    | none =>
      rw [hunpaired hsib]
      obtain ⟨out, hout, hkeys, hpaired, hpairless, hmatched⟩ := hrest
        { st with pairless := st.pairless ++ [⟨rec.id, asset⟩] } hlookup
      refine ⟨out, hout, hkeys, ?_, ?_, fun k => (hmatched k).trans ?_⟩
      · rw [hpaired, List.filterMap_cons, hsib]
        rfl
      · rw [hpairless, List.filter_cons_of_pos (by rw [hsib]; rfl), List.map_cons,
          List.append_assoc]
        rfl
      · refine or_congr_right (and_congr_right fun hsome => ?_)
        constructor
        · intro ⟨r, hr, hk⟩
          exact ⟨r, .tail _ hr, hk⟩
        · intro ⟨r, hr, hk⟩
          cases List.mem_cons.mp hr with
          | inl heq =>
            subst heq
            rw [siblingOf, hk, Option.bind_some] at hsib
            rw [hsib] at hsome
            cases hsome
          | inr hr => exact ⟨r, hr, hk⟩
    | some sib =>
      obtain ⟨k, hkey, hfind⟩ := Option.bind_eq_some_iff.mp hsib
      obtain ⟨next, hnext, hsame, hpairs, hreports, hstored⟩ :=
        pairPrimary_paired asset (hassets rec (.head _)) st hkey
          ((hlookup k).trans hfind)
      rw [hnext]
      obtain ⟨out, hout, hkeys, hpaired, hpairless, hmatched⟩ :=
        hrest next fun k => hsame ▸ hlookup k
      refine ⟨out, hout, hkeys.trans hsame, ?_, ?_, fun k' => (hmatched k').trans ?_⟩
      · rw [hpaired, hpairs, List.filterMap_cons, hsib, List.append_assoc]
        rfl
      · have hskip : (rec :: records).filter (fun rec => (siblingOf key siblings rec).isNone) =
            records.filter fun rec => (siblingOf key siblings rec).isNone := by simp [hsib]
        rw [hpairless, hreports, hskip]
      · rw [hstored k', or_assoc]
        refine or_congr_right ?_
        constructor
        · rintro (rfl | ⟨hsome, r, hr, hk⟩)
          · exact ⟨Option.isSome_iff_exists.mpr ⟨sib, hfind⟩, rec, .head _, hkey⟩
          · exact ⟨hsome, r, .tail _ hr, hk⟩
        · intro ⟨hsome, r, hr, hk⟩
          cases List.mem_cons.mp hr with
          | inl heq =>
            subst heq
            exact .inl (Option.some.inj (hk.symm.trans hkey))
          | inr hr => exact .inr ⟨hsome, r, hr, hk⟩

end Primaries

section Reports

/-- The siblings of no key, which nothing reports. -/
def unkeyedReports (key : Option Text → Option JoinKey) (siblings : List (CatalogRecord V)) :
    List Pairless :=
  (siblings.zipIdx.filter fun s => (key s.1.id).isNone).map (siblingReport key siblings)

/-- A list cut by three tests that exclude each other and leave nothing. -/
theorem perm_filter_three {α : Type*} {p q r : α → Bool} {l : List α}
    (h : ∀ a ∈ l, (p a = true ∧ q a = false ∧ r a = false) ∨
      (p a = false ∧ q a = true ∧ r a = false) ∨ (p a = false ∧ q a = false ∧ r a = true)) :
    (l.filter p ++ l.filter q ++ l.filter r).Perm l := by
  induction l with
  | nil => exact .refl _
  | cons a l ih =>
    have hrest := ih fun x hx => h x (.tail _ hx)
    rcases h a (.head _) with ⟨hp, hq, hr⟩ | ⟨hp, hq, hr⟩ | ⟨hp, hq, hr⟩
    · rw [List.filter_cons, List.filter_cons, List.filter_cons, hp, hq, hr]
      exact hrest.cons a
    · rw [List.filter_cons, List.filter_cons, List.filter_cons, hp, hq, hr]
      have hmid : (l.filter p ++ a :: l.filter q ++ l.filter r).Perm
          (a :: (l.filter p ++ l.filter q ++ l.filter r)) := by
        rw [List.append_assoc, List.append_assoc]
        exact List.perm_middle
      exact hmid.trans (hrest.cons a)
    · rw [List.filter_cons, List.filter_cons, List.filter_cons, hp, hq, hr]
      exact List.perm_middle.trans (hrest.cons a)

theorem isSome_find_of_mem {s : CatalogRecord V × Nat} (hs : s ∈ siblings.zipIdx) {k : JoinKey}
    (hk : key s.1.id = some k) : (siblings.find? fun sib => key sib.id = some k).isSome = true := by
  rw [List.find?_isSome]
  exact ⟨s.1, List.fst_mem_of_mem_zipIdx hs, decide_eq_true hk⟩

/-- The third loop reports the siblings that it finds under a key without a primary. -/
theorem unmatched_reports {matched : List JoinKey}
    (hmatched : ∀ k, k ∈ matched ↔ (siblings.find? fun sib => key sib.id = some k).isSome = true ∧
      ∃ rec ∈ records, key rec.id = some k) :
    ((keptSiblings key siblings).filterMap fun e =>
        if e.1 ∈ matched then none else some (Pairless.mk e.2.id "primary")) =
      (siblings.zipIdx.filter fun s => (key s.1.id).isSome && !repeated key siblings s &&
        !attachedAt key records siblings s).map (siblingReport key siblings) := by
  rw [keptSiblings, List.filterMap_filterMap, map_filter_eq_filterMap]
  refine List.filterMap_congr fun s hs => ?_
  cases hk : key s.1.id with
  | none => simp
  | some k =>
    cases hrep : repeated key siblings s with
    | true => simp
    | false =>
      have hat : attachedAt key records siblings s = true ↔ k ∈ matched := by
        rw [hmatched, and_iff_right (isSome_find_of_mem hs hk), attachedAt, hk, hrep]
        simp
      by_cases hmem : k ∈ matched
      · simp [hmem, hat.mpr hmem]
      · have hnot : attachedAt key records siblings s = false := by
          rw [← Bool.not_eq_true, hat]
          exact hmem
        simp [hrep, hmem, hnot, siblingReport]

variable (key) in
/-- What is reported of the siblings, and what would have to be of those without a key. -/
theorem perm_siblingReports (records siblings : List (CatalogRecord V)) :
    (repeatedReports key siblings ++
        (siblings.zipIdx.filter fun s => (key s.1.id).isSome && !repeated key siblings s &&
          !attachedAt key records siblings s).map (siblingReport key siblings) ++
        unkeyedReports key siblings).Perm
      ((siblings.zipIdx.filter fun s => !attachedAt key records siblings s).map
        (siblingReport key siblings)) := by
  have hrep : repeatedReports key siblings =
      (siblings.zipIdx.filter (repeated key siblings)).map (siblingReport key siblings) := by
    refine List.map_congr_left fun s hs => ?_
    rw [siblingReport, if_pos (List.mem_filter.mp hs).2]
  have hunkeyed : ∀ s, key s.1.id = none → repeated key siblings s = false := by
    intro s hs
    rw [repeated, List.any_eq_false]
    intro t _
    cases key t.id <;> simp [hs]
  have hcut := perm_filter_three (p := repeated key siblings)
    (q := fun s => (key s.1.id).isSome && !repeated key siblings s &&
      !attachedAt key records siblings s) (r := fun s => (key s.1.id).isNone)
    (l := siblings.zipIdx.filter fun s => !attachedAt key records siblings s) (by
      intro s hs
      have hnot := (List.mem_filter.mp hs).2
      cases hk : key s.1.id with
      | none => exact .inr (.inr ⟨hunkeyed s hk, by simp, rfl⟩)
      | some k =>
        cases hr : repeated key siblings s with
        | true => exact .inl ⟨rfl, by simp, rfl⟩
        | false => exact .inr (.inl ⟨rfl, by simp only [hnot]; rfl, rfl⟩))
  have hsub : ∀ {p : CatalogRecord V × Nat → Bool},
      (∀ s, p s = true → attachedAt key records siblings s = false) →
      (siblings.zipIdx.filter fun s => !attachedAt key records siblings s).filter p =
        siblings.zipIdx.filter p := by
    intro p hp
    rw [List.filter_filter]
    refine List.filter_congr fun s _ => ?_
    cases hps : p s with
    | false => rfl
    | true => rw [hp s hps]; rfl
  rw [hsub, hsub, hsub] at hcut
  · rw [hrep, unkeyedReports, ← List.map_append, ← List.map_append]
    exact hcut.map _
  · intro s hs
    have hnone : key s.1.id = none := Option.isNone_iff_eq_none.mp hs
    simp [attachedAt, hnone]
  · intro s hs
    simp only [Bool.and_eq_true, Bool.not_eq_true'] at hs
    exact hs.2
  · intro s hs
    simp [attachedAt, hs]

end Reports

variable (key asset siblings) in
/-- The ledger of one call, with what it leaves out. -/
theorem pairSiblingRecords_spec (hassets : ∀ rec ∈ records, (assetFields rec).isSome) :
    ∃ paired pairless, pairSiblingRecords key asset records siblings = .ok (paired, pairless) ∧
      paired = (records.filterMap fun rec =>
        (siblingOf key siblings rec).map (pairedWith asset rec)) ∧
      (pairless ++ unkeyedReports key siblings).Perm
        ((records.filter fun rec => (siblingOf key siblings rec).isNone).map (primaryReport asset) ++
          (siblings.zipIdx.filter fun s => !attachedAt key records siblings s).map
            (siblingReport key siblings)) := by
  obtain ⟨out, hout, hkeys, hpaired, hpairless, hmatched⟩ := foldlM_pairPrimary asset
    hassets ⟨keptSiblings key siblings, [], repeatedReports key siblings, [], []⟩
    (lookup_keptSiblings key siblings)
  have hmem : ∀ k, k ∈ out.matched ↔
      (siblings.find? fun sib => key sib.id = some k).isSome = true ∧
        ∃ rec ∈ records, key rec.id = some k := by
    intro k
    rw [hmatched k]
    exact or_iff_right List.not_mem_nil
  refine ⟨out.paired, out.pairless ++ out.sibByKey.filterMap fun e =>
    if e.1 ∈ out.matched then none else some ⟨e.2.id, "primary"⟩, ?_, hpaired, ?_⟩
  · unfold pairSiblingRecords
    rw [foldl_registerSibling]
    dsimp only
    rw [hout]
    rfl
  · rw [hkeys, unmatched_reports hmem, hpairless]
    have hsib := (perm_siblingReports key records siblings).append_left
      ((records.filter fun rec => (siblingOf key siblings rec).isNone).map (primaryReport asset))
    refine List.Perm.trans ?_ hsib
    rw [← List.append_assoc, ← List.append_assoc]
    exact ((List.perm_append_comm).append_right _).append_right _

theorem siblingOf_of_attachedAt {s : CatalogRecord V × Nat} (hs : s ∈ siblings.zipIdx)
    (h : attachedAt key records siblings s = true) {rec : CatalogRecord V}
    (hkey : key rec.id = key s.1.id) : siblingOf key siblings rec = some s.1 := by
  simp only [attachedAt, Bool.and_eq_true, Bool.not_eq_true'] at h
  obtain ⟨⟨hsome, hfirst⟩, -⟩ := h
  obtain ⟨k, hk⟩ := Option.isSome_iff_exists.mp hsome
  rw [siblingOf, hkey, hk, Option.bind_some]
  have hget : siblings[s.2]? = some s.1 := List.mk_mem_zipIdx_iff_getElem?.mp hs
  obtain ⟨hlt, hat⟩ := List.getElem?_eq_some_iff.mp hget
  have hsplit : siblings = siblings.take s.2 ++ s.1 :: siblings.drop (s.2 + 1) := by
    conv_lhs => rw [← List.take_append_drop s.2 siblings, List.drop_eq_getElem_cons hlt, hat]
  have hbefore : (siblings.take s.2).find? (fun sib => key sib.id = some k) = none := by
    rw [List.find?_eq_none]
    intro t ht htk
    have hno := List.any_eq_false.mp hfirst t ht
    simp [of_decide_eq_true htk, hk] at hno
  rw [hsplit, List.find?_append, hbefore, Option.none_or, List.find?_cons, hk, decide_eq_true rfl]

end Ledger

/-- Every record is accounted for exactly when every sibling's id has the join key: a sibling
without one is neither attached nor reported. -/
theorem pairing_accounts_iff {V : Type} (cls : CharClasses) (asset : String)
    (records siblings : List (CatalogRecord V))
    (hassets : ∀ rec ∈ records, (assetFields rec).isSome) :
    (∃ paired pairless,
      pairSiblingRecords (siblingJoinKey cls) asset records siblings = .ok (paired, pairless) ∧
        PairingLedger (siblingJoinKey cls) asset records siblings paired pairless) ↔
      ∀ sib ∈ siblings, siblingJoinKey cls sib.id ≠ none := by
  obtain ⟨paired, pairless, hcall, hpaired, hperm⟩ := pairSiblingRecords_spec
    (siblingJoinKey cls) asset siblings hassets
  constructor
  · intro ⟨paired', pairless', hcall', hledger⟩ sib hsib hnone
    obtain ⟨-, rfl⟩ := Prod.mk.inj (Except.ok.inj (hcall.symm.trans hcall'))
    have hlen := hperm.length_eq.trans hledger.pairless.length_eq.symm
    rw [List.length_append, unkeyedReports, List.length_map] at hlen
    have hempty := List.length_eq_zero_iff.mp (Nat.left_eq_add.mp hlen.symm)
    obtain ⟨i, hi, hat⟩ := List.getElem_of_mem hsib
    have hmem : (sib, i) ∈ siblings.zipIdx :=
      List.mk_mem_zipIdx_iff_getElem?.mpr (List.getElem?_eq_some_iff.mpr ⟨hi, hat⟩)
    exact List.filter_eq_nil_iff.mp hempty (sib, i) hmem (Option.isNone_iff_eq_none.mpr hnone)
  · intro hkeyed
    refine ⟨paired, pairless, hcall, hpaired, fun s hs hat rec _ hkey =>
      siblingOf_of_attachedAt hs hat hkey, ?_⟩
    have hnone : unkeyedReports (siblingJoinKey cls) siblings = [] := by
      rw [unkeyedReports, List.map_eq_nil_iff, List.filter_eq_nil_iff]
      intro s hs hno
      exact hkeyed s.1 (List.fst_mem_of_mem_zipIdx hs) (Option.isNone_iff_eq_none.mp hno)
    rwa [hnone, List.append_nil] at hperm

section Sample

def asciiClasses : CharClasses where
  digit ch := '0' ≤ ch ∧ ch ≤ '9'
  word ch := ch.isAlphanum ∨ ch = '_'

def sampleRecord (id : String) : CatalogRecord Nat where
  id := some id.toList
  s3 := some "s3://b/g.h5".toList
  https := none
  assets := none
  datetime := none
  timeKey := none
  timeStart := none
  timeEnd := none
  extra := []
  lats := []
  lons := []

example : siblingJoinKey asciiClasses
    (some "GEDI01_B_2019108002012_O01959_01_T03909_02_005_01_V002.h5".toList) =
      some ⟨"2019108002012".toList, "O01959".toList, "01".toList, "T03909".toList, "V002".toList⟩ := by
  decide

theorem pairing_accounts_iff_sample :
    (∃ paired pairless, pairSiblingRecords (siblingJoinKey asciiClasses) "l2a"
        [sampleRecord "GEDI01_B_2019108002012_O01959_01_T03909_02_005_01_V002.h5"]
        [sampleRecord "GEDI02_A_2019108002012_O01959_01_T03909_02_003_01_V002.h5"] =
          .ok (paired, pairless) ∧
      PairingLedger (siblingJoinKey asciiClasses) "l2a"
        [sampleRecord "GEDI01_B_2019108002012_O01959_01_T03909_02_005_01_V002.h5"]
        [sampleRecord "GEDI02_A_2019108002012_O01959_01_T03909_02_003_01_V002.h5"]
        paired pairless) ↔
      ∀ sib ∈ [sampleRecord "GEDI02_A_2019108002012_O01959_01_T03909_02_003_01_V002.h5"],
        siblingJoinKey asciiClasses sib.id ≠ none :=
  pairing_accounts_iff asciiClasses "l2a" _ _ (by decide)

/-- A browse granule among the siblings: it is not paired, and no report names it. -/
theorem pairing_loses_unkeyed :
    pairSiblingRecords (siblingJoinKey asciiClasses) "l2a" []
        [sampleRecord "GEDI02_A_browse.png"] = .ok ([], []) ∧
      ∀ paired pairless, ¬(pairSiblingRecords (siblingJoinKey asciiClasses) "l2a" []
          [sampleRecord "GEDI02_A_browse.png"] = .ok (paired, pairless) ∧
        PairingLedger (siblingJoinKey asciiClasses) "l2a" [] [sampleRecord "GEDI02_A_browse.png"]
          paired pairless) := by
  have hcall : pairSiblingRecords (siblingJoinKey asciiClasses) "l2a" []
      [sampleRecord "GEDI02_A_browse.png"] = .ok ([], []) := rfl
  refine ⟨hcall, fun paired pairless h => ?_⟩
  obtain ⟨hcall', hledger⟩ := h
  obtain ⟨-, rfl⟩ := Prod.mk.inj (Except.ok.inj (hcall.symm.trans hcall'))
  have hlen := hledger.pairless.length_eq
  exact absurd hlen (by decide)

end Sample

end Zagg.Catalog
