import Zagg.Hive.TemporalSection
import Zagg.Lib.Pointwise

/-!
# When two sections compose

The writer does not guard the composition of the sections. Against a well-formed incoming
section it succeeds exactly on a standing one whose shards are integers under a mapping and
whose fields sort together with the incoming ones; two well-formed sections give one.
-/
namespace Zagg.Hive

open Zagg.Lib

/-- Items that `sorted` orders. -/
def Sortable (items : List Json) : Prop :=
  items.length ≤ 1 ∨ (∀ item ∈ items, isText item = true) ∨ ∀ item ∈ items, item.isNumber = true

/-- What the composition asks of a standing section `a` under an incoming section `b`. -/
structure Composes (tocMerge : Int → Int → Except PyError Int) (a b : Fields) : Prop where
  words : ∃ items, shardItems a = .ok items ∧ ∀ e ∈ items, ∃ w, e.2.toInt = .ok w
  joins : ∀ standing items, sectionWords a = .ok standing → shardItems b = .ok items → ∀ e ∈ items,
    ∀ w prior, e.2.toInt = .ok w → standing.lookup e.1 = some prior → ∃ u, tocMerge prior w = .ok u
  fields : ∃ names, fieldSet a = .ok names ∧ ∀ others, fieldSet b = .ok others →
    Sortable (distinct (names ++ others))

/-- A section as its builders write it; `TocWord` are the words of the time grammar. -/
structure SectionWf (TocWord : Int → Prop) (carrier : Fields) : Prop where
  spec : Json.field carrier "spec" = .str temporalCoverageSpec
  shards : ∃ items, Json.field carrier "shards" = .obj items ∧ (items.map Prod.fst).Nodup ∧
    ∀ e ∈ items, ∃ w, e.2.toInt = .ok w ∧ TocWord w
  fields : ∃ names, Json.field carrier "fields" = .arr names ∧ ∀ name ∈ names, isText name = true

variable {tocMerge : Int → Int → Except PyError Int} {TocWord : Int → Prop} {a b : Fields}

theorem orEmpty_obj (fields : Fields) : (Json.obj fields).orEmpty = .obj fields := by
  cases fields <;> rfl

theorem SectionWf.shardItems (h : SectionWf TocWord b) :
    ∃ items, shardItems b = .ok items ∧ (items.map Prod.fst).Nodup ∧
      ∀ e ∈ items, ∃ w, e.2.toInt = .ok w ∧ TocWord w := by
  obtain ⟨items, hitems, h⟩ := h.shards
  exact ⟨items, by rw [Hive.shardItems, hitems, orEmpty_obj], h⟩

theorem SectionWf.fieldSet (h : SectionWf TocWord b) :
    ∃ names, fieldSet b = .ok names ∧ ∀ name ∈ names, isText name = true := by
  obtain ⟨names, hnames, htext⟩ := h.fields
  have hhash : names.all hashable = true := by
    rw [List.all_eq_true]
    intro name hname
    have ht := htext name hname
    cases name <;> first | rfl | cases ht
  refine ⟨names, ?_, htext⟩
  rw [Hive.fieldSet, hnames]
  cases names with
  | nil => rfl
  | cons name names => simp [Json.truthy, Json.items, hhash, bind, Except.bind, pure, Except.pure]

def shardEntry (e : String × Json) : Except PyError (String × Int) := do return (e.1, ← e.2.toInt)

theorem shardEntry_ok {e : String × Json} {r : String × Int} (h : shardEntry e = .ok r) :
    e.2.toInt = .ok r.2 ∧ e.1 = r.1 := by
  obtain ⟨w, hw, hr⟩ := bind_ok h
  cases hr
  exact ⟨hw, rfl⟩

theorem sectionWords_ok_iff : (∃ standing, sectionWords a = .ok standing) ↔
    ∃ items, shardItems a = .ok items ∧ ∀ e ∈ items, ∃ w, e.2.toInt = .ok w := by
  rw [sectionWords, exists_bind_ok]
  refine exists_congr fun items => and_congr_right fun _ => ?_
  rw [exists_bind_ok]
  constructor
  · rintro ⟨entries, hentries, -⟩ e he
    obtain ⟨r, -, hr⟩ := ok_of_mapM hentries he
    exact ⟨r.2, (shardEntry_ok hr).1⟩
  · intro h
    have hok : ∀ e ∈ items, ∃ r, shardEntry e = .ok r := by
      intro e he
      obtain ⟨w, hw⟩ := h e he
      exact ⟨(e.1, w), by rw [shardEntry, hw]; rfl⟩
    obtain ⟨entries, hentries⟩ := exists_mapM hok
    exact ⟨entries, hentries, _, rfl⟩

theorem mergeShard_ok {shards : List (String × Int)} {e : String × Json} :
    (∃ r, mergeShard tocMerge shards e = .ok r) ↔ ∃ w, e.2.toInt = .ok w ∧
      ∀ prior, shards.lookup e.1 = some prior → ∃ u, tocMerge prior w = .ok u := by
  rw [mergeShard, exists_bind_ok]
  refine exists_congr fun w => and_congr_right fun _ => ?_
  cases shards.lookup e.1 with
  | none => exact iff_of_true ⟨_, rfl⟩ nofun
  | some prior =>
    simp only [exists_bind_ok, Option.some.injEq, forall_eq']
    exact exists_congr fun u => and_iff_left ⟨_, rfl⟩

theorem mergeShard_spec {shards r : List (String × Int)} {e : String × Json}
    (h : mergeShard tocMerge shards e = .ok r) : ∃ v, r = put e.1 v shards ∧
      ∃ w, e.2.toInt = .ok w ∧ (v = w ∨ ∃ prior, shards.lookup e.1 = some prior ∧
        tocMerge prior w = .ok v) := by
  obtain ⟨w, hw, h⟩ := bind_ok h
  cases hlook : shards.lookup e.1 with
  | none =>
    rw [hlook] at h
    cases h
    exact ⟨w, rfl, w, hw, .inl rfl⟩
  | some prior =>
    rw [hlook] at h
    obtain ⟨u, hu, h⟩ := bind_ok h
    cases h
    exact ⟨u, rfl, w, hw, .inr ⟨prior, rfl, hu⟩⟩

/-- Under distinct keys every incoming shard meets the standing word. -/
theorem foldlM_mergeShard_ok {items : Fields} (hn : (items.map Prod.fst).Nodup)
    (shards : List (String × Int)) :
    (∃ r, items.foldlM (mergeShard tocMerge) shards = .ok r) ↔ ∀ e ∈ items, ∃ w, e.2.toInt = .ok w ∧
      ∀ prior, shards.lookup e.1 = some prior → ∃ u, tocMerge prior w = .ok u := by
  induction items generalizing shards with
  | nil => exact iff_of_true ⟨_, rfl⟩ nofun
  | cons e items ih =>
    obtain ⟨hnew, hn⟩ := List.nodup_cons.mp hn
    have hframe : ∀ r, mergeShard tocMerge shards e = .ok r → ∀ e' ∈ items,
        r.lookup e'.1 = shards.lookup e'.1 := by
      intro r hr e' he'
      obtain ⟨v, rfl, -⟩ := mergeShard_spec hr
      exact lookup_put_of_ne (fun heq => hnew (by rw [← heq]; exact List.mem_map_of_mem he')) v shards
    rw [List.foldlM_cons, exists_bind_ok, List.forall_mem_cons, ← mergeShard_ok]
    constructor
    · rintro ⟨r, hr, hrest⟩
      refine ⟨⟨r, hr⟩, fun e' he' => ?_⟩
      rw [← hframe r hr e' he']
      exact (ih hn r).mp hrest e' he'
    · rintro ⟨⟨r, hr⟩, hrest⟩
      refine ⟨r, hr, (ih hn r).mpr fun e' he' => ?_⟩
      rw [hframe r hr e' he']
      exact hrest e' he'

theorem pySorted_ok_iff {items : List Json} : (∃ r, pySorted items = .ok r) ↔ Sortable items := by
  rw [pySorted, Sortable, ← List.all_eq_true, ← List.all_eq_true]
  split_ifs with h
  · exact iff_of_true ⟨_, rfl⟩ h
  · exact iff_of_false nofun h

/-- Against a well-formed incoming section. -/
theorem mergeUsable_ok_iff (hb : SectionWf TocWord b) :
    (∃ r, mergeUsable tocMerge a b = .ok r) ↔ Composes tocMerge a b := by
  obtain ⟨items, hitems, hn, hwords⟩ := hb.shardItems
  obtain ⟨names, hnames, -⟩ := hb.fieldSet
  have hfold : ∀ standing, (∃ r, items.foldlM (mergeShard tocMerge) standing = .ok r) ↔
      ∀ e ∈ items, ∀ w prior, e.2.toInt = .ok w → standing.lookup e.1 = some prior →
        ∃ u, tocMerge prior w = .ok u := by
    intro standing
    rw [foldlM_mergeShard_ok hn]
    refine forall₂_congr fun e he => ⟨?_, fun h => ?_⟩
    · rintro ⟨w, hw, hjoin⟩ w' prior hw' hprior
      cases hw.symm.trans hw'
      exact hjoin prior hprior
    · obtain ⟨w, hw, -⟩ := hwords e he
      exact ⟨w, hw, fun prior hprior => h w prior hw hprior⟩
  simp only [mergeUsable, exists_bind_ok, hitems, Except.ok.injEq, exists_eq_left', hnames]
  constructor
  · rintro ⟨standing, hstanding, shards, hshards, names', hnames', fields, hfields, -⟩
    refine ⟨sectionWords_ok_iff.mp ⟨standing, hstanding⟩, fun standing' items' h h' => ?_,
      names', hnames', fun others h => ?_⟩
    · cases hstanding.symm.trans h
      cases hitems.symm.trans h'
      exact (hfold standing).mp ⟨shards, hshards⟩
    · cases hnames.symm.trans h
      exact pySorted_ok_iff.mp ⟨fields, hfields⟩
  · rintro ⟨hsw, hjoins, names', hnames', hsort⟩
    obtain ⟨standing, hstanding⟩ := sectionWords_ok_iff.mpr hsw
    obtain ⟨shards, hshards⟩ := (hfold standing).mpr (hjoins standing items hstanding hitems)
    obtain ⟨fields, hfields⟩ := pySorted_ok_iff.mpr (hsort names hnames)
    exact ⟨standing, hstanding, shards, hshards, names', hnames', fields, hfields, _, rfl⟩

/-- Only two sections of this revision can fail to compose. -/
theorem mergeTemporalSections_ok_iff {existing incoming : Json} :
    (∃ r, mergeTemporalSections tocMerge existing incoming = .ok r) ↔ ∀ a b,
      usable existing = some a → usable incoming = some b → ∃ r, mergeUsable tocMerge a b = .ok r := by
  rw [mergeTemporalSections]
  cases usable existing with
  | none => cases usable incoming <;> exact iff_of_true ⟨_, rfl⟩ nofun
  | some a =>
    cases usable incoming with
    | none => exact iff_of_true ⟨_, rfl⟩ nofun
    | some b =>
      have hpair : (∀ a' b', some a = some a' → some b = some b' →
          ∃ r, mergeUsable tocMerge a' b' = .ok r) ↔ ∃ r, mergeUsable tocMerge a b = .ok r := by
        constructor
        · exact fun h => h a b rfl rfl
        · rintro h a' b' ⟨⟩ ⟨⟩
          exact h
      rw [hpair]
      change (∃ r, (mergeUsable tocMerge a b).map some = .ok r) ↔ _
      cases mergeUsable tocMerge a b with
      | error err => exact iff_of_false nofun nofun
      | ok r => exact iff_of_true ⟨_, rfl⟩ ⟨r, rfl⟩

/-- A word map of the time grammar. -/
def WordMap (TocWord : Int → Prop) (shards : List (String × Int)) : Prop :=
  (shards.map Prod.fst).Nodup ∧ ∀ e ∈ shards, TocWord e.2

theorem WordMap.put {shards : List (String × Int)} (h : WordMap TocWord shards) (k : String) {v : Int}
    (hv : TocWord v) : WordMap TocWord (put k v shards) := by
  refine ⟨nodup_put k v h.1, fun e he => ?_⟩
  rcases mem_put he with rfl | he
  · exact hv
  · exact h.2 e he

theorem sectionWords_wordMap (ha : SectionWf TocWord a) :
    ∃ standing, sectionWords a = .ok standing ∧ WordMap TocWord standing := by
  obtain ⟨items, hitems, -, hwords⟩ := ha.shardItems
  obtain ⟨standing, hstanding⟩ := sectionWords_ok_iff.mpr
    ⟨items, hitems, fun e he => (hwords e he).imp fun _ h => h.1⟩
  refine ⟨standing, hstanding, ?_⟩
  rw [sectionWords, hitems] at hstanding
  obtain ⟨entries, hentries, hfold⟩ := bind_ok (x := items.mapM shardEntry) hstanding
  obtain rfl := Except.ok.inj hfold
  have htoc : ∀ e ∈ entries, TocWord e.2 := by
    intro r hr
    obtain ⟨e, he, hok⟩ := forall₂_exists_of_mem_right (forall₂_mapM hentries) hr
    obtain ⟨w, hw, htw⟩ := hwords e he
    have heq := (shardEntry_ok hok).1
    rw [hw] at heq
    exact Except.ok.inj heq ▸ htw
  have hinv : ∀ (es : List (String × Int)) (shards : List (String × Int)), (∀ e ∈ es, TocWord e.2) →
      WordMap TocWord shards → WordMap TocWord (es.foldl (fun s e => Lib.put e.1 e.2 s) shards) := by
    intro es
    induction es with
    | nil => exact fun shards _ h => h
    | cons e es ih =>
      intro shards hes h
      exact ih _ (fun e' he' => hes e' (.tail _ he')) (h.put e.1 (hes e (.head _)))
  exact hinv entries [] htoc ⟨List.nodup_nil, nofun⟩

theorem mem_distinct {items : List Json} {item : Json} (h : item ∈ distinct items) : item ∈ items := by
  have hinv : ∀ (l seen : List Json), item ∈ l.foldl
      (fun seen x => if seen.any (·.pyEq x) then seen else seen ++ [x]) seen →
      item ∈ seen ∨ item ∈ l := by
    intro l
    induction l with
    | nil => exact fun seen h => .inl h
    | cons x l ih =>
      intro seen h
      rw [List.foldl_cons] at h
      rcases ih _ h with h | h
      · split_ifs at h with hany
        · exact .inl h
        · rcases List.mem_append.mp h with h | h
          · exact .inl h
          · exact .inr (List.mem_singleton.mp h ▸ .head _)
      · exact .inr (.tail _ h)
  exact (hinv items [] h).resolve_left List.not_mem_nil

theorem toInt_strJson {w : Int} (h : 0 ≤ w ∧ w < 2 ^ 64) : (strJson w).toInt = .ok w := by
  rw [strJson, Json.toInt, String.toList_ofList, PyText.pyInt_pyStr h.1 h.2]

/-- Two well-formed sections compose to one. -/
theorem mergeUsable_wf (hbound : ∀ w, TocWord w → 0 ≤ w ∧ w < 2 ^ 64)
    (hjoin : ∀ v w, TocWord v → TocWord w → ∃ u, tocMerge v w = .ok u ∧ TocWord u)
    (ha : SectionWf TocWord a) (hb : SectionWf TocWord b) :
    ∃ r, mergeUsable tocMerge a b = .ok r ∧ SectionWf TocWord r := by
  obtain ⟨standing, hstanding, hmap⟩ := sectionWords_wordMap ha
  obtain ⟨items, hitems, hn, hwords⟩ := hb.shardItems
  obtain ⟨names, hnames, htext⟩ := ha.fieldSet
  obtain ⟨others, hothers, htext'⟩ := hb.fieldSet
  have hmem : ∀ e ∈ standing, TocWord e.2 := hmap.2
  have hprior : ∀ k prior, standing.lookup k = some prior → TocWord prior := by
    intro k prior hk
    exact hmem (k, prior) (mem_of_lookup hk)
  have hfold : ∃ shards, items.foldlM (mergeShard tocMerge) standing = .ok shards := by
    refine (foldlM_mergeShard_ok hn standing).mpr fun e he => ?_
    obtain ⟨w, hw, htw⟩ := hwords e he
    exact ⟨w, hw, fun prior hp => (hjoin prior w (hprior _ _ hp) htw).imp fun _ h => h.1⟩
  obtain ⟨shards, hshards⟩ := hfold
  have hshardsMap : WordMap TocWord shards := by
    refine foldlM_inv (WordMap TocWord) (fun e he s s' hs hstep => ?_) hmap hshards
    obtain ⟨v, rfl, w, hw, hv⟩ := mergeShard_spec hstep
    obtain ⟨w', hw', htw⟩ := hwords e he
    cases hw.symm.trans hw'
    rcases hv with rfl | ⟨prior, hp, hu⟩
    · exact hs.put _ htw
    · obtain ⟨u, hu', htu⟩ := hjoin prior w (hs.2 (e.1, prior) (mem_of_lookup hp)) htw
      cases hu.symm.trans hu'
      exact hs.put _ htu
  have hall : ∀ x ∈ distinct (names ++ others), isText x = true := by
    intro x hx
    rcases List.mem_append.mp (mem_distinct hx) with hx | hx
    · exact htext x hx
    · exact htext' x hx
  obtain ⟨fields, hfields⟩ := pySorted_ok_iff.mpr (.inr (.inl hall))
  have hfieldsText : ∀ x ∈ fields, isText x = true := by
    rw [pySorted] at hfields
    split_ifs at hfields
    cases hfields
    exact fun x hx => hall x ((List.mem_insertionSort _).mp hx)
  refine ⟨composed a b fields shards, ?_, ⟨rfl, ⟨sortedShards shards, rfl, ?_, ?_⟩,
    ⟨fields, rfl, hfieldsText⟩⟩⟩
  · rw [mergeUsable, hstanding, hitems]
    simp only [bind, Except.bind, hnames, hothers]
    rw [hshards]
    simp only [hfields]
    rfl
  · rw [sortedShards, List.map_map]
    exact ((List.perm_insertionSort _ shards).map Prod.fst).nodup_iff.mpr hshardsMap.1
  · intro e he
    obtain ⟨s, hs, rfl⟩ := List.mem_map.mp he
    have hs := hshardsMap.2 s ((List.mem_insertionSort _).mp hs)
    exact ⟨s.2, toInt_strJson (hbound _ hs), hs⟩

end Zagg.Hive
