import Zagg.Catalog.Coarsen

/-!
# The identity guard

A map is refused when two granules of one of its shards would be recorded under one id. A run
over a map that is not refused records as many ids as it reads granules, by whichever href.
-/
namespace Zagg.Catalog

open Zagg.Lib
open Zagg.Dedup (GranuleId canonicalGranuleId canonicalGranuleIds idJson)

/-- `_refuse_basename_collisions`. -/
def refuseBasenameCollisions (shards : Shards) : Except CollisionReport Unit :=
  match basenameCollisions shards with
  | some report => .error report
  | none => .ok ()

section Resolve

/-- The key of the run's endpoint. -/
def endpointKey (driver : Option String) : String := if driver = some "https" then "https" else "s3"

def endpoint (driver : Option String) (r : ShardEntry) : Option Text :=
  if driver = some "https" then r.https else r.s3

/-- The endpoint, where it is not empty. -/
def resolvedUrl (driver : Option String) (r : ShardEntry) : Option Text :=
  (endpoint driver r).filter fun url => url ≠ []

/-- `_resolve_urls`. -/
def resolveUrls (driver : Option String) (records : List ShardEntry) : List Text :=
  records.filterMap (resolvedUrl driver)

/-- The siblings' hrefs at the endpoint; one without it is left out. -/
def siblingUrls (key : String) (assets : Json) : Except PyError (List (String × Json)) :=
  match assets.orEmpty with
  | .obj fields => .ok (fields.filterMap fun f => match f.2 with
    | .obj hrefs => if (Json.field hrefs key).truthy then some (f.1, Json.field hrefs key) else none
    | _ => none)
  | _ => .error .attributeError

/-- The payload of one granule with a url. -/
def granulePayload (driver : Option String) (r : ShardEntry) (url : Text) : Except PyError Json := do
  let assets ← siblingUrls (endpointKey driver) (r.assets.getD .null)
  return if assets.isEmpty then idJson url else .obj [("url", idJson url), ("assets", .obj assets)]

/-- `_resolve_granule_entries`. -/
def resolveGranuleEntries (driver : Option String) : List ShardEntry → Except PyError (List Json)
  | [] => .ok []
  | r :: records =>
    match resolvedUrl driver r with
    | none => resolveGranuleEntries driver records
    | some url => do return (← granulePayload driver r url) :: (← resolveGranuleEntries driver records)

theorem resolvedUrl_ne_nil {driver : Option String} {r : ShardEntry} {url : Text}
    (h : resolvedUrl driver r = some url) : url ≠ [] :=
  of_decide_eq_true (Option.filter_eq_some_iff.mp h).2

end Resolve

section Guard
variable (str : Json → List Char)

/-- A run that reads the href records the id. -/
def RecordedAs (href : Option Text) (id : GranuleId) : Prop :=
  ∃ url, href = some url ∧ canonicalGranuleId str (idJson url) = .ok id

def NoHref (e : ShardEntry) : Prop := e.s3.getD [] = [] ∧ e.https.getD [] = []

/-- Two entries are recorded as one granule: by one of their hrefs, or having none, by what
else names them. -/
def RecordedAlike (e e' : ShardEntry) : Prop :=
  ∃ id, id ≠ [] ∧ (RecordedAs str e.s3 id ∧ RecordedAs str e'.s3 id ∨
    RecordedAs str e.https id ∧ RecordedAs str e'.https id ∨
    (NoHref e ∧ NoHref e') ∧ RecordedAs str (orText e.id e.datetime) id ∧
      RecordedAs str (orText e'.id e'.datetime) id)

variable {str}

theorem canonicalGranuleId_text {url : Text} (h : url ≠ []) :
    canonicalGranuleId str (idJson url) = .ok (canonicalText (some url)) := by
  have hnamed : canonicalText (some url) = Zagg.Dedup.basename (Zagg.Dedup.rstripSlash url) := if_neg h
  show (if (String.ofList url).toList.isEmpty then Except.error PyError.valueError
    else .ok (Zagg.Dedup.basename (Zagg.Dedup.rstripSlash (String.ofList url).toList))) = _
  rw [String.toList_ofList, if_neg (mt List.isEmpty_iff.mp h), hnamed]

theorem recordedAs_iff {href : Option Text} {id : GranuleId} (hid : id ≠ []) :
    RecordedAs str href id ↔ canonicalText href = id := by
  constructor
  · intro ⟨url, hurl, hrec⟩
    by_cases hne : url = []
    · subst hne
      cases hrec
    · rw [canonicalGranuleId_text hne] at hrec
      rw [hurl]
      exact Except.ok.inj hrec
  · intro h
    cases href with
    | none => exact absurd h.symm hid
    | some url =>
      have hne : url ≠ [] := by
        intro hempty
        subst hempty
        exact hid h.symm
      exact ⟨url, rfl, h ▸ canonicalGranuleId_text hne⟩

variable (str) in
/-- The spelling and the id an entry is registered under. -/
theorem mem_canonicals {e : ShardEntry} {slot : String} {id : GranuleId} (hid : id ≠ []) :
    (slot, id) ∈ canonicals e ↔ (slot = "s3" ∧ RecordedAs str e.s3 id) ∨
      (slot = "https" ∧ RecordedAs str e.https id) ∨
      (slot = "id" ∧ NoHref e ∧ RecordedAs str (orText e.id e.datetime) id) := by
  rw [recordedAs_iff hid, recordedAs_iff hid, recordedAs_iff hid, canonicals, List.mem_filter,
    and_iff_left (decide_eq_true hid), List.mem_map]
  have habsent : ∀ href : Option Text, href.getD [] = [] → canonicalText href ≠ id :=
    fun href hempty heq => hid (heq.symm.trans (if_pos hempty))
  by_cases hnone : NoHref e
  · have hspell : spellings e = [("id", orText e.id e.datetime)] := if_pos hnone
    rw [hspell]
    constructor
    · rintro ⟨n, hn, heq⟩
      obtain rfl := List.mem_singleton.mp hn
      obtain ⟨rfl, hcanon⟩ := Prod.mk.inj heq
      exact .inr (.inr ⟨rfl, hnone, hcanon⟩)
    · rintro (⟨-, h⟩ | ⟨-, h⟩ | ⟨rfl, -, h⟩)
      · exact absurd h (habsent _ hnone.1)
      · exact absurd h (habsent _ hnone.2)
      · exact ⟨_, List.mem_singleton.mpr rfl, congrArg (Prod.mk "id") h⟩
  · have hspell : spellings e = [("s3", e.s3), ("https", e.https)] := if_neg hnone
    rw [hspell]
    constructor
    · rintro ⟨n, hn, heq⟩
      rcases List.mem_cons.mp hn with rfl | hn
      · obtain ⟨rfl, hcanon⟩ := Prod.mk.inj heq
        exact .inl ⟨rfl, hcanon⟩
      · obtain rfl := List.mem_singleton.mp hn
        obtain ⟨rfl, hcanon⟩ := Prod.mk.inj heq
        exact .inr (.inl ⟨rfl, hcanon⟩)
    · rintro (⟨rfl, h⟩ | ⟨rfl, h⟩ | ⟨-, hno, -⟩)
      · exact ⟨("s3", e.s3), .head _, congrArg (Prod.mk "s3") h⟩
      · exact ⟨("https", e.https), .tail _ (.head _), congrArg (Prod.mk "https") h⟩
      · exact absurd hno hnone

variable (str) in
theorem collides_iff {entries : List ShardEntry} : Collides entries ↔
    ∃ e ∈ entries, ∃ e' ∈ entries, distinguishing e ≠ distinguishing e' ∧
      RecordedAlike str e e' := by
  refine exists_congr fun e => and_congr_right fun _ => exists_congr fun e' =>
    and_congr_right fun _ => and_congr_right fun _ => ?_
  constructor
  · intro ⟨⟨slot, id⟩, hsc, hsc'⟩
    have hid : id ≠ [] := of_decide_eq_true (List.mem_filter.mp hsc).2
    have h := (mem_canonicals str hid).mp hsc
    have h' := (mem_canonicals str hid).mp hsc'
    refine ⟨id, hid, ?_⟩
    rcases h with ⟨rfl, h⟩ | ⟨rfl, h⟩ | ⟨rfl, hno, h⟩
    · rcases h' with ⟨-, h'⟩ | ⟨hslot, -⟩ | ⟨hslot, -⟩
      · exact .inl ⟨h, h'⟩
      · exact absurd hslot (by decide)
      · exact absurd hslot (by decide)
    · rcases h' with ⟨hslot, -⟩ | ⟨-, h'⟩ | ⟨hslot, -⟩
      · exact absurd hslot (by decide)
      · exact .inr (.inl ⟨h, h'⟩)
      · exact absurd hslot (by decide)
    · rcases h' with ⟨hslot, -⟩ | ⟨hslot, -⟩ | ⟨-, hno', h'⟩
      · exact absurd hslot (by decide)
      · exact absurd hslot (by decide)
      · exact .inr (.inr ⟨⟨hno, hno'⟩, h, h'⟩)
  · rintro ⟨id, hid, ⟨h, h'⟩ | ⟨h, h'⟩ | ⟨⟨hno, hno'⟩, h, h'⟩⟩
    · exact ⟨("s3", id), (mem_canonicals str hid).mpr (.inl ⟨rfl, h⟩),
        (mem_canonicals str hid).mpr (.inl ⟨rfl, h'⟩)⟩
    · exact ⟨("https", id), (mem_canonicals str hid).mpr (.inr (.inl ⟨rfl, h⟩)),
        (mem_canonicals str hid).mpr (.inr (.inl ⟨rfl, h'⟩))⟩
    · exact ⟨("id", id), (mem_canonicals str hid).mpr (.inr (.inr ⟨rfl, hno, h⟩)),
        (mem_canonicals str hid).mpr (.inr (.inr ⟨rfl, hno', h'⟩))⟩

theorem refuse_ok_iff {shards : Shards} :
    refuseBasenameCollisions shards = .ok () ↔ ∀ s ∈ shards, ¬Collides s.2 := by
  rw [← basenameCollisions_eq_none, refuseBasenameCollisions]
  cases basenameCollisions shards with
  | none => exact iff_of_true rfl rfl
  | some report => exact iff_of_false nofun nofun

theorem refuse_error_iff {shards : Shards} :
    (∃ report, refuseBasenameCollisions shards = .error report) ↔ ∃ s ∈ shards, Collides s.2 := by
  rw [← not_iff_not]
  push Not
  rw [← refuse_ok_iff]
  cases refuseBasenameCollisions shards with
  | ok u => exact iff_of_true nofun rfl
  | error report => exact iff_of_false (fun h => h report rfl) nofun

/-- The granules of a shard whose href at the driver's endpoint names them. -/
def readBy (driver : Option String) (entries : List ShardEntry) : List ShardEntry :=
  entries.filter fun e => canonicalText (endpoint driver e) ≠ []

variable (str) in
/-- The ids a run records for the urls of a shard: one for each url, some maybe empty. -/
theorem canonicalGranuleIds_urls (driver : Option String) (entries : List ShardEntry) :
    ∃ ids, canonicalGranuleIds str ((resolveUrls driver entries).map idJson) = .ok ids ∧
      ids.filter (fun id => id ≠ []) =
        (readBy driver entries).map fun e => canonicalText (endpoint driver e) := by
  refine ⟨(resolveUrls driver entries).map fun url => canonicalText (some url), ?_, ?_⟩
  · rw [canonicalGranuleIds, List.mapM_map]
    apply mapM_ok
    intro url hurl
    obtain ⟨e, -, he⟩ := List.mem_filterMap.mp hurl
    exact canonicalGranuleId_text (resolvedUrl_ne_nil he)
  · have hall : (resolveUrls driver entries).map (fun url => canonicalText (some url)) =
        entries.filterMap fun e => (resolvedUrl driver e).map fun url => canonicalText (some url) :=
      List.map_filterMap ..
    rw [hall, List.filter_filterMap, readBy, map_filter_eq_filterMap]
    refine List.filterMap_congr fun e _ => ?_
    rw [resolvedUrl]
    generalize endpoint driver e = href
    cases href with
    | none => rfl
    | some url =>
      by_cases hurl : url = []
      · subst hurl
        rfl
      · rw [Option.filter_some, if_pos (decide_eq_true hurl), Option.map_some, Option.filter_some]

/-- A payload is recorded by its url, whatever siblings ride along. -/
theorem canonicalGranuleId_payload {driver : Option String} {r : ShardEntry} {url : Text}
    (hurl : url ≠ []) {entry : Json} (h : granulePayload driver r url = .ok entry) :
    canonicalGranuleId str entry = canonicalGranuleId str (idJson url) := by
  obtain ⟨assets, -, h⟩ := bind_ok h
  obtain rfl := Except.ok.inj h
  split_ifs
  · rfl
  · have htruthy : (idJson url).truthy = true := by
      apply decide_eq_true
      intro hempty
      exact hurl (by simpa using congrArg String.toList hempty)
    have hprimary : Dedup.primary (.obj [("url", idJson url), ("assets", .obj assets)]) =
        .ok (idJson url) := if_pos htruthy
    rw [canonicalGranuleId, hprimary]
    rfl

/-- The worker payload of a shard is recorded as its urls are. -/
theorem canonicalGranuleIds_payload {driver : Option String} {entries : List ShardEntry}
    {payload : List Json} (h : resolveGranuleEntries driver entries = .ok payload) :
    canonicalGranuleIds str payload =
      canonicalGranuleIds str ((resolveUrls driver entries).map idJson) := by
  induction entries generalizing payload with
  | nil =>
    obtain rfl := Except.ok.inj h
    rfl
  | cons e entries ih =>
    rw [resolveGranuleEntries] at h
    rw [resolveUrls, List.filterMap_cons]
    cases hurl : resolvedUrl driver e with
    | none =>
      rw [hurl] at h
      exact ih h
    | some url =>
      rw [hurl] at h
      obtain ⟨entry, hentry, h⟩ := bind_ok h
      obtain ⟨rest, hrest, h⟩ := bind_ok h
      obtain rfl := Except.ok.inj h
      have hids := ih hrest
      rw [canonicalGranuleIds, canonicalGranuleIds] at hids
      rw [canonicalGranuleIds, canonicalGranuleIds, List.map_cons, List.mapM_cons, List.mapM_cons,
        canonicalGranuleId_payload (resolvedUrl_ne_nil hurl) hentry, hids]
      rfl

variable (str) in
/-- Entries of a shard that is not refused are told apart by the id either endpoint records. -/
theorem distinguishing_of_not_collides {entries : List ShardEntry} (h : ¬Collides entries)
    {driver : Option String} {e e' : ShardEntry} (he : e ∈ entries) (he' : e' ∈ entries)
    {id : GranuleId} (hid : id ≠ []) (hrec : RecordedAs str (endpoint driver e) id)
    (hrec' : RecordedAs str (endpoint driver e') id) : distinguishing e = distinguishing e' := by
  by_contra hne
  apply h
  rw [collides_iff str]
  refine ⟨e, he, e', he', hne, id, hid, ?_⟩
  unfold endpoint at hrec hrec'
  split_ifs at hrec hrec'
  · exact .inr (.inl ⟨hrec, hrec'⟩)
  · exact .inl ⟨hrec, hrec'⟩

theorem count_recorded {entries : List ShardEntry} (h : ¬Collides entries)
    (driver : Option String) :
    ((readBy driver entries).map fun e => canonicalText (endpoint driver e)).dedup.length =
      ((readBy driver entries).map distinguishing).dedup.length := by
  apply length_dedup_map
  intro e he e' he'
  obtain ⟨he, hid⟩ := List.mem_filter.mp he
  obtain ⟨he', -⟩ := List.mem_filter.mp he'
  have hid := of_decide_eq_true hid
  constructor
  · intro heq
    exact distinguishing_of_not_collides (fun _ => []) h he he' hid
      ((recordedAs_iff hid).mpr rfl) ((recordedAs_iff hid).mpr heq.symm)
  · intro heq
    obtain ⟨-, hs3, hhttps, -⟩ := Distinguishing.mk.inj heq
    have hend : endpoint driver e = endpoint driver e' := by
      rw [endpoint, endpoint, hs3, hhttps]
    rw [hend]

/-- The guard refuses exactly the maps in which two granules of a shard are recorded alike, and
a run over any other map records as many ids as it reads granules. -/
theorem basename_guard_exact (str : Json → List Char) :
    (∀ shards : Shards, (∃ report, refuseBasenameCollisions shards = .error report) ↔
      ∃ s ∈ shards, ∃ e ∈ s.2, ∃ e' ∈ s.2, distinguishing e ≠ distinguishing e' ∧
        RecordedAlike str e e') ∧
    ∀ shards : Shards, refuseBasenameCollisions shards = .ok () → ∀ driver, ∀ s ∈ shards,
      (∀ e ∈ s.2, ∀ e' ∈ s.2, ∀ id, id ≠ [] → RecordedAs str (endpoint driver e) id →
        RecordedAs str (endpoint driver e') id → distinguishing e = distinguishing e') ∧
      ∃ ids, canonicalGranuleIds str ((resolveUrls driver s.2).map idJson) = .ok ids ∧
        (∀ payload, resolveGranuleEntries driver s.2 = .ok payload →
          canonicalGranuleIds str payload = .ok ids) ∧
        (ids.filter fun id => id ≠ []).dedup.length =
          ((readBy driver s.2).map distinguishing).dedup.length := by
  constructor
  · intro shards
    rw [refuse_error_iff]
    exact exists_congr fun s => and_congr_right fun _ => collides_iff str
  · intro shards hok driver s hs
    have hnot := refuse_ok_iff.mp hok s hs
    constructor
    · intro e he e' he' id hid hrec hrec'
      exact distinguishing_of_not_collides str hnot he he' hid hrec hrec'
    · obtain ⟨ids, hids, hnamed⟩ := canonicalGranuleIds_urls str driver s.2
      refine ⟨ids, hids, fun payload hpayload => (canonicalGranuleIds_payload hpayload).trans hids, ?_⟩
      rw [hnamed]
      exact count_recorded hnot driver

/-- One granule listed twice and another one, both of them paired with a sibling. -/
def pairedShard : List ShardEntry :=
  let sibling : Json := .obj [("s3", .str "s3://bucket/B"), ("https", .str "https://host/B")]
  let first : ShardEntry := ⟨none, some ['p', '/', 'A'], some ['q', '/', 'A'],
    some (.obj [("beside", sibling)]), none, none, none, none, []⟩
  [first, ⟨none, some ['p', '/', 'C'], none, none, none, none, none, none, []⟩, first]

/-- The map is accepted, and its run by https records the one granule that has such an href. -/
theorem basename_guard_exact_paired :
    ∃ ids, canonicalGranuleIds (fun _ => []) ((resolveUrls (some "https") pairedShard).map idJson) =
        .ok ids ∧
      (∀ payload, resolveGranuleEntries (some "https") pairedShard = .ok payload →
        canonicalGranuleIds (fun _ => []) payload = .ok ids) ∧
      (ids.filter fun id => id ≠ []).dedup.length =
        ((readBy (some "https") pairedShard).map distinguishing).dedup.length := by
  have hok : refuseBasenameCollisions [(0, pairedShard)] = .ok () := by
    rw [refuse_ok_iff]
    intro s hs
    obtain rfl := List.mem_singleton.mp hs
    unfold Collides
    decide +kernel
  exact ((basename_guard_exact fun _ => []).2 [(0, pairedShard)] hok (some "https") _ (.head _)).2

/-- Two entries whose hrefs are nothing but slashes: both have the empty basename, which the
guard does not register. -/
def slashEntry (href : Text) : ShardEntry :=
  ⟨none, some href, none, none, none, none, none, none, []⟩

theorem basename_guard_slashes :
    refuseBasenameCollisions [(0, [slashEntry ['/'], slashEntry ['/', '/']])] = .ok () ∧
      distinguishing (slashEntry ['/']) ≠ distinguishing (slashEntry ['/', '/']) ∧
      canonicalGranuleIds (fun _ => [])
        ((resolveUrls none [slashEntry ['/'], slashEntry ['/', '/']]).map idJson) =
          .ok [[], []] := by
  refine ⟨?_, by decide, rfl⟩
  rw [refuse_ok_iff]
  intro s hs
  obtain rfl := List.mem_singleton.mp hs
  intro hcollides
  obtain ⟨e, he, e', he', -, sc, hsc, -⟩ := hcollides
  have hnone : ∀ x ∈ [slashEntry ['/'], slashEntry ['/', '/']], canonicals x = [] := by decide
  rw [hnone e he] at hsc
  cases hsc

end Guard
end Zagg.Catalog
