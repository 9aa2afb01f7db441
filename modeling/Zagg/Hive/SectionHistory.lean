import Zagg.Hive.CoverFixpoint
import Zagg.Hive.SectionMerge
import Zagg.Lib.Join

/-!
# Histories of temporal sections

Producers merge their sections one after the other into what stands. The word of a shard is
the join of all words contributed for it; the digest is that of the newest producer whose own
map lists every shard of the merged one; and merging a section again changes no content.
-/
namespace Zagg.Hive

open Zagg.Lib

/-- `str(word)`, where the words of a merge can print like it. -/
def contentWord : Json → Json
  | .null => .str "None"
  | .bool b => .str (if b then "True" else "False")
  | .num q => if q.den = 1 then strJson q.num else .num q
  | .inf negative => .str (if negative then "-inf" else "inf")
  | .nan => .str "nan"
  | word => word

/-- What a pass that changes nothing reproduces. -/
def sectionContent : Option Fields → Except PyError Json
  | none => .ok .null
  | some carrier => do
    let shards ← shardItems carrier
    let fields ← sortedFields carrier
    return .arr [.obj (shards.map fun e => (e.1, contentWord e.2)), Json.field carrier "digest",
      .arr fields, Json.field carrier coverKey]

def sectionUnchanged (tocMerge : Int → Int → Except PyError Int) (existing incoming : Json) :
    Except PyError Bool := do
  let merged ← mergeTemporalSections tocMerge existing incoming
  let content ← sectionContent merged
  let standing ← sectionContent (match existing with
    | .obj carrier => some carrier
    | _ => none)
  return content.pyEq standing

/-- What a merge leaves at the section's key. -/
def leftStanding : Option Fields → Json
  | some carrier => .obj carrier
  | none => .null

/-- Sections merged one after the other into what stands. -/
def mergeSections (tocMerge : Int → Int → Except PyError Int) : Json → List Json → Except PyError Json
  | standing, [] => .ok standing
  | standing, incoming :: rest => do
    let merged ← mergeTemporalSections tocMerge standing incoming
    mergeSections tocMerge (leftStanding merged) rest

/-- The time grammar: its words are unsigned 64-bit, and it joins them. -/
structure TocLaws (tocMerge : Int → Int → Except PyError Int) (TocWord : Int → Prop)
    (join : Int → Int → Int) (reduce : List Int → Int) : Prop where
  bound : ∀ w, TocWord w → 0 ≤ w ∧ w < 2 ^ 64
  merge : ∀ v w, TocWord v → TocWord w → tocMerge v w = .ok (join v w)
  joins : Joins TocWord join reduce

/-- A section at this revision, as its producers and the merge write it. -/
structure Section (TocWord : Int → Prop) where
  carrier : Fields
  words : List (String × Int)
  names : List String
  spec_eq : Json.field carrier "spec" = .str temporalCoverageSpec
  shards_eq : Json.field carrier "shards" = .obj (words.map fun e => (e.1, strJson e.2))
  nodup : (words.map Prod.fst).Nodup
  toc : ∀ e ∈ words, TocWord e.2
  names_eq : Json.field carrier "fields" = .arr (names.map .str)
  increasing : names.Pairwise (· < ·)
  digest_distinct : (Json.field carrier "digest").Distinct
  cover : Option String
  cover_eq : carrier.lookup coverKey = cover.map .str
  cover_ne : cover ≠ some ""

namespace Section

variable {TocWord : Int → Prop}

def digest (s : Section TocWord) : Json := Json.field s.carrier "digest"

def Lists (s : Section TocWord) (decimal : String) : Prop := decimal ∈ s.words.map Prod.fst

instance (s : Section TocWord) (decimal : String) : Decidable (s.Lists decimal) :=
  inferInstanceAs (Decidable (_ ∈ _))

/-- A section with a digest, whose own map lists every shard of a word map. -/
def vouches (s : Section TocWord) (shards : List (String × Int)) : Bool :=
  !s.digest.pyEq .null && shards.all fun e => decide (s.Lists e.1)

end Section

/-- Two words of one shard, or the one there is. -/
def joinWords (join : Int → Int → Int) : Option Int → Option Int → Option Int
  | some v, some w => some (join v w)
  | some v, none => some v
  | none, w => w

/-- The marker of the cover: the incoming one, but this revision's own over no other. -/
def joinCover : Option String → Option String → Option String
  | some standing, some incoming =>
    if incoming = coverSpec ∧ standing ≠ coverSpec then some standing else some incoming
  | some standing, none => some standing
  | none, incoming => incoming

/-- What one merge of `b` into `a` leaves. -/
structure Composed {TocWord : Int → Prop} (join : Int → Int → Int) (a b m : Section TocWord) : Prop where
  words : ∀ d, m.words.lookup d = joinWords join (a.words.lookup d) (b.words.lookup d)
  names : m.names = sortedSet (a.names ++ b.names)
  digest : m.digest =
    if b.vouches m.words then b.digest else if a.vouches m.words then a.digest else .null
  cover : m.cover = joinCover a.cover b.cover

/-! ## One merge -/

variable {tocMerge : Int → Int → Except PyError Int} {TocWord : Int → Prop} {join : Int → Int → Int}
  {reduce : List Int → Int}

theorem Section.usable_eq (s : Section TocWord) : usable (.obj s.carrier) = some s.carrier := by
  rw [usable, s.spec_eq]
  simp [Json.pyEq]

theorem Section.shardItems_eq (s : Section TocWord) :
    shardItems s.carrier = .ok (s.words.map fun e => (e.1, strJson e.2)) := by
  rw [shardItems, s.shards_eq, orEmpty_obj]

theorem foldl_put_self {l acc : List (String × Int)} (hn : ((acc ++ l).map Prod.fst).Nodup) :
    l.foldl (fun shards e => put e.1 e.2 shards) acc = acc ++ l := by
  induction l generalizing acc with
  | nil => exact (List.append_nil acc).symm
  | cons e l ih =>
    have hnew : e.1 ∉ acc.map Prod.fst := by
      rw [List.map_append, List.map_cons] at hn
      exact fun hmem => (List.nodup_append.mp hn).2.2 e.1 hmem e.1 (.head _) rfl
    rw [List.foldl_cons, put_of_notMem hnew, ih (by rwa [List.append_assoc, List.singleton_append]),
      List.append_assoc]
    rfl

theorem Section.sectionWords_eq (h : TocLaws tocMerge TocWord join reduce) (s : Section TocWord) :
    sectionWords s.carrier = .ok s.words := by
  have hentries : (s.words.map fun e => (e.1, strJson e.2)).mapM shardEntry = .ok s.words := by
    have hentry : ∀ e ∈ s.words, shardEntry (e.1, strJson e.2) = .ok (id e) := by
      intro e he
      rw [shardEntry, toInt_strJson (h.bound _ (s.toc e he))]
      rfl
    rw [List.mapM_map]
    exact (mapM_ok hentry).trans (congrArg Except.ok (List.map_id _))
  have hput := @foldl_put_self s.words [] s.nodup
  rw [List.nil_append] at hput
  rw [sectionWords, s.shardItems_eq]
  change (List.mapM shardEntry _).bind _ = _
  rw [hentries]
  exact congrArg Except.ok hput

/-- The word map after an incoming one joined it shard by shard. -/
theorem foldlM_joinWords (h : TocLaws tocMerge TocWord join reduce) {items : List (String × Int)}
    (hn : (items.map Prod.fst).Nodup) (htoc : ∀ e ∈ items, TocWord e.2)
    {shards : List (String × Int)} (hs : WordMap TocWord shards) :
    ∃ r, (items.map fun e => (e.1, strJson e.2)).foldlM (mergeShard tocMerge) shards = .ok r ∧
      WordMap TocWord r ∧ ∀ d, r.lookup d = joinWords join (shards.lookup d) (items.lookup d) := by
  induction items generalizing shards with
  | nil => exact ⟨shards, rfl, hs, fun d => by cases shards.lookup d <;> rfl⟩
  | cons e items ih =>
    obtain ⟨hnew, hn⟩ := List.nodup_cons.mp hn
    have hw := htoc e (.head _)
    have hint := toInt_strJson (h.bound _ hw)
    have hstep : ∃ u, mergeShard tocMerge shards (e.1, strJson e.2) = .ok (put e.1 u shards) ∧
        TocWord u ∧ some u = joinWords join (shards.lookup e.1) (some e.2) := by
      rw [mergeShard, hint]
      cases hlook : shards.lookup e.1 with
      | none => exact ⟨e.2, rfl, hw, rfl⟩
      | some prior =>
        have hprior := hs.2 (e.1, prior) (mem_of_lookup hlook)
        refine ⟨join prior e.2, ?_, h.joins.closed _ _ hprior hw, rfl⟩
        simp only [bind, Except.bind, h.merge prior e.2 hprior hw]
        rfl
    obtain ⟨u, hok, hu, hjoin⟩ := hstep
    obtain ⟨r, hr, hwf, hlookup⟩ := ih hn (fun e' he' => htoc e' (.tail _ he')) (hs.put e.1 hu)
    refine ⟨r, ?_, hwf, fun d => ?_⟩
    · rw [List.map_cons, List.foldlM_cons, hok]
      exact hr
    · rw [hlookup]
      by_cases hd : d = e.1
      · subst hd
        rw [lookup_put_self, lookup_eq_none.mpr hnew, List.lookup_cons_self, ← hjoin]
        rfl
      · rw [lookup_put_of_ne hd, List.lookup_cons, beq_false_of_ne hd]

theorem listsAll_eq (s : Section TocWord) (shards : List (String × Int)) :
    listsAll s.carrier shards = shards.all fun e => decide (s.Lists e.1) := by
  rw [listsAll, s.shardItems_eq]
  simp only [List.map_map]
  rfl

theorem carriedDigest_eq (a b : Section TocWord) (shards : List (String × Int)) :
    carriedDigest a.carrier b.carrier shards =
      if b.vouches shards then [("digest", b.digest)]
      else if a.vouches shards then [("digest", a.digest)] else [] := by
  have hside : ∀ s : Section TocWord, (!(Json.field s.carrier "digest").pyEq .null &&
      listsAll s.carrier shards) = s.vouches shards := by
    intro s
    rw [listsAll_eq, Section.vouches, Section.digest]
  rw [carriedDigest, List.find?_cons, List.find?_cons, List.find?_nil, hside, hside]
  cases b.vouches shards with
  | true => rfl
  | false => cases a.vouches shards <;> rfl

theorem coverMarker_eq (a b : Section TocWord) : coverMarker a.carrier b.carrier =
    match joinCover a.cover b.cover with
    | some marker => [(coverKey, .str marker)]
    | none => [] := by
  have ha := a.cover_eq
  have hb := b.cover_eq
  have hne := a.cover_ne
  rw [coverMarker, getDefault, Json.field, ha, hb]
  cases hca : a.cover with
  | none => cases b.cover <;> simp [joinCover, Json.pyEq]
  | some t =>
    rw [hca] at hne
    have ht : t ≠ "" := fun heq => hne (congrArg some heq)
    cases b.cover with
    | none => by_cases hspec : t = coverSpec <;> simp [joinCover, Json.pyEq, hspec]
    | some s =>
      by_cases hs : s = coverSpec <;> by_cases hspec : t = coverSpec <;>
        simp [joinCover, Json.pyEq, hs, hspec, ht]

theorem digest_composed (a b : Section TocWord) (fields : List Json) (shards : List (String × Int)) :
    Json.field (composed a.carrier b.carrier fields shards) "digest" =
      if b.vouches shards then b.digest else if a.vouches shards then a.digest else .null := by
  rw [composed, carriedDigest_eq, coverMarker_eq]
  cases b.vouches shards with
  | true => rfl
  | false =>
    cases a.vouches shards with
    | true => rfl
    | false => cases joinCover a.cover b.cover <;> rfl

theorem cover_composed (a b : Section TocWord) (fields : List Json) (shards : List (String × Int)) :
    (composed a.carrier b.carrier fields shards).lookup coverKey =
      (joinCover a.cover b.cover).map .str := by
  rw [composed, carriedDigest_eq, coverMarker_eq]
  cases b.vouches shards <;> cases a.vouches shards <;> cases joinCover a.cover b.cover <;> rfl

theorem joinCover_ne {standing incoming : Option String} (hs : standing ≠ some "")
    (hi : incoming ≠ some "") : joinCover standing incoming ≠ some "" := by
  cases standing with
  | none => exact hi
  | some t =>
    cases incoming with
    | none => exact hs
    | some s =>
      rw [joinCover]
      split_ifs
      · exact hs
      · exact hi

/-- Two sections compose to one. -/
theorem exists_composed (h : TocLaws tocMerge TocWord join reduce) (a b : Section TocWord) :
    ∃ m : Section TocWord, mergeTemporalSections tocMerge (.obj a.carrier) (.obj b.carrier) =
      .ok (some m.carrier) ∧ Composed join a b m := by
  obtain ⟨shards, hshards, hmap, hlookup⟩ := foldlM_joinWords h b.nodup b.toc ⟨a.nodup, a.toc⟩
  have hperm := List.perm_insertionSort (fun e e' : String × Int => e.1 ≤ e'.1) shards
  have hvouches : ∀ s : Section TocWord,
      s.vouches (shards.insertionSort fun e e' => e.1 ≤ e'.1) = s.vouches shards := by
    intro s
    rw [Section.vouches, Section.vouches, hperm.all_eq]
  have hnodup : ((shards.insertionSort fun e e' => e.1 ≤ e'.1).map Prod.fst).Nodup :=
    (hperm.map Prod.fst).nodup_iff.mpr hmap.1
  have hfields := fieldSet_of_texts a.names_eq
  have hothers := fieldSet_of_texts b.names_eq
  have hnames := pySorted_distinct (a.names ++ b.names)
  rw [List.map_append] at hnames
  have hmerge : mergeUsable tocMerge a.carrier b.carrier =
      .ok (composed a.carrier b.carrier ((sortedSet (a.names ++ b.names)).map .str) shards) := by
    rw [mergeUsable, a.sectionWords_eq h, b.shardItems_eq]
    simp only [bind, Except.bind, hfields, hothers]
    rw [hshards]
    simp only [hnames]
    rfl
  have hdigest := digest_composed a b ((sortedSet (a.names ++ b.names)).map .str) shards
  rw [← hvouches a, ← hvouches b] at hdigest
  refine ⟨{
    carrier := composed a.carrier b.carrier ((sortedSet (a.names ++ b.names)).map .str) shards
    words := shards.insertionSort fun e e' => e.1 ≤ e'.1
    names := sortedSet (a.names ++ b.names)
    spec_eq := rfl
    shards_eq := rfl
    nodup := hnodup
    toc := fun e he => hmap.2 e (hperm.mem_iff.mp he)
    names_eq := rfl
    increasing := ?_
    digest_distinct := ?_
    cover := joinCover a.cover b.cover
    cover_eq := cover_composed a b _ shards
    cover_ne := joinCover_ne a.cover_ne b.cover_ne }, ?_, ?_, rfl, hdigest, rfl⟩
  · have hle := pairwise_sortedSet (a.names ++ b.names)
    exact (hle.and (nodup_sortedSet (a.names ++ b.names))).imp fun hab => lt_of_le_of_ne hab.1 hab.2
  · rw [digest_composed]
    split_ifs
    · exact b.digest_distinct
    · exact a.digest_distinct
    · exact .null
  · rw [mergeTemporalSections, a.usable_eq, b.usable_eq]
    exact congrArg (Except.map some) hmerge
  · intro d
    rw [← hlookup]
    cases hd : shards.lookup d with
    | none =>
      rw [lookup_eq_none] at hd ⊢
      rwa [(hperm.map Prod.fst).mem_iff]
    | some w =>
      have hmem := hperm.mem_iff.mpr (mem_of_lookup hd)
      exact lookup_of_nodup hnodup hmem

/-! ## The skip test -/

/-- What a merge keeps of `b` that a further merge of `b` cannot change. -/
structure Absorbs (join : Int → Int → Int) (m b : Section TocWord) : Prop where
  words : ∀ d, joinWords join (m.words.lookup d) (b.words.lookup d) = m.words.lookup d
  names : ∀ name ∈ b.names, name ∈ m.names
  digest : b.vouches m.words = true → m.digest = b.digest
  cover : joinCover m.cover b.cover = m.cover

theorem lists_iff {s : Section TocWord} {d : String} : s.Lists d ↔ ∃ w, s.words.lookup d = some w := by
  rw [Section.Lists, ← not_iff_not, ← lookup_eq_none, ← Option.ne_none_iff_exists', not_not]

theorem toc_of_lookup {s : Section TocWord} {d : String} {w : Int} (h : s.words.lookup d = some w) :
    TocWord w := s.toc (d, w) (mem_of_lookup h)

theorem vouches_iff {s m : Section TocWord} :
    s.vouches m.words = true ↔ s.digest ≠ .null ∧ ∀ d, m.Lists d → s.Lists d := by
  rw [Section.vouches, Bool.and_eq_true, Bool.not_eq_true', ← Bool.not_eq_true, Json.pyEq_null,
    List.all_eq_true]
  refine and_congr_right fun _ => ?_
  simp only [decide_eq_true_eq]
  constructor
  · intro h d hd
    obtain ⟨e, he, rfl⟩ := List.mem_map.mp hd
    exact h e he
  · exact fun h e he => h e.1 (List.mem_map_of_mem he)

/-- What a section vouches for depends on the listed shards only. -/
theorem vouches_congr {s m m' : Section TocWord} (h : ∀ d, m'.Lists d ↔ m.Lists d) :
    s.vouches m'.words = s.vouches m.words := by
  rw [Bool.eq_iff_iff, vouches_iff, vouches_iff]
  simp only [h]

theorem joinWords_absorb (h : TocLaws tocMerge TocWord join reduce) {x y : Option Int}
    (hx : ∀ v, x = some v → TocWord v) (hy : ∀ w, y = some w → TocWord w) :
    joinWords join (joinWords join x y) y = joinWords join x y := by
  cases y with
  | none => cases x <;> rfl
  | some w =>
    have hw := hy w rfl
    cases x with
    | none => exact congrArg some (h.joins.idem w hw)
    | some v =>
      have hv := hx v rfl
      refine congrArg some ?_
      rw [h.joins.assoc v w w hv hw hw, h.joins.idem w hw]

theorem joinCover_absorb (x y : Option String) : joinCover (joinCover x y) y = joinCover x y := by
  cases y with
  | none => cases x <;> rfl
  | some s =>
    cases x with
    | none => simp [joinCover]
    | some t => by_cases hs : s = coverSpec <;> by_cases ht : t = coverSpec <;> simp [joinCover, hs, ht]

theorem Absorbs.refl (h : TocLaws tocMerge TocWord join reduce) (s : Section TocWord) :
    Absorbs join s s where
  words d := by
    have hself := joinWords_absorb h (x := none) (y := s.words.lookup d) nofun
      fun w hw => toc_of_lookup hw
    exact hself
  names _ hname := hname
  digest _ := rfl
  cover := joinCover_absorb none s.cover

theorem Composed.absorbs (h : TocLaws tocMerge TocWord join reduce) {a b m : Section TocWord}
    (hm : Composed join a b m) : Absorbs join m b where
  words d := by
    rw [hm.words]
    exact joinWords_absorb h (fun v hv => toc_of_lookup hv) fun w hw => toc_of_lookup hw
  names name hname := by
    rw [hm.names, mem_sortedSet]
    exact List.mem_append_right _ hname
  digest hb := by rw [hm.digest, if_pos hb]
  cover := by
    rw [hm.cover]
    exact joinCover_absorb a.cover b.cover

theorem content_eq (s : Section TocWord) : sectionContent (some s.carrier) =
    .ok (.arr [.obj (s.words.map fun e => (e.1, strJson e.2)), s.digest, .arr (s.names.map .str),
      Json.field s.carrier coverKey]) := by
  have hsorted : s.names.insertionSort (· ≤ ·) = s.names :=
    (s.increasing.imp fun hab => le_of_lt hab).insertionSort_eq
  have hwords : (s.words.map fun e => (e.1, strJson e.2)).map (fun e => (e.1, contentWord e.2)) =
      s.words.map fun e => (e.1, strJson e.2) := by
    rw [List.map_map]
    rfl
  rw [sectionContent, s.shardItems_eq, sortedFields_of_texts s.names_eq, hsorted]
  simp only [bind, Except.bind, hwords]
  rfl

theorem field_cover (s : Section TocWord) :
    Json.field s.carrier coverKey = (s.cover.map Json.str).getD .null := by
  rw [Json.field, s.cover_eq]

/-- Word maps with the same entries are equal mappings. -/
theorem pyEq_words {s m : Section TocWord} (h : ∀ d, s.words.lookup d = m.words.lookup d) :
    (Json.obj (s.words.map fun e => (e.1, strJson e.2))).pyEq
      (.obj (m.words.map fun e => (e.1, strJson e.2))) = true := by
  have hkeys : ∀ d, s.Lists d ↔ m.Lists d := by
    intro d
    rw [lists_iff, lists_iff, h]
  have hlen : s.words.length = m.words.length := by
    have hperm := (List.perm_ext_iff_of_nodup s.nodup m.nodup).mpr hkeys
    simpa using hperm.length_eq
  rw [Json.pyEq_obj_iff, List.length_map, List.length_map]
  refine ⟨hlen, fun f hf => ?_⟩
  obtain ⟨e, he, rfl⟩ := List.mem_map.mp hf
  refine ⟨strJson e.2, ?_, Json.pyEq_refl (.str _)⟩
  rw [lookup_map_snd, ← h, lookup_of_nodup s.nodup he]
  rfl

/-- Merging an absorbed section again leaves the content as it stands. -/
theorem Absorbs.unchanged (h : TocLaws tocMerge TocWord join reduce) {m b : Section TocWord}
    (hb : Absorbs join m b) : sectionUnchanged tocMerge (.obj m.carrier) (.obj b.carrier) = .ok true := by
  obtain ⟨r, hmerge, hr⟩ := exists_composed h m b
  have hwords : ∀ d, r.words.lookup d = m.words.lookup d := fun d => (hr.words d).trans (hb.words d)
  have hlists : ∀ d, r.Lists d ↔ m.Lists d := by
    intro d
    rw [lists_iff, lists_iff, hwords]
  have hnames : r.names = m.names := by
    rw [hr.names]
    refine (eq_sortedSet (m.increasing.imp fun hab => ne_of_lt hab)
      (m.increasing.imp fun hab => le_of_lt hab) fun name => ?_).symm
    rw [List.mem_append]
    exact ⟨.inl, fun hname => hname.elim id (hb.names name)⟩
  have hdigest : r.digest = m.digest := by
    rw [hr.digest, vouches_congr hlists, vouches_congr hlists]
    split_ifs with hvb hvm
    · exact (hb.digest hvb).symm
    · rfl
    · by_contra hne
      exact hvm (vouches_iff.mpr ⟨fun hnull => hne hnull.symm, fun _ hd => hd⟩)
  have hcover : Json.field r.carrier coverKey = Json.field m.carrier coverKey := by
    rw [field_cover, field_cover, hr.cover, hb.cover]
  have hmarker : (Json.field m.carrier coverKey).pyEq (Json.field m.carrier coverKey) = true := by
    rw [field_cover]
    cases m.cover with
    | none => rfl
    | some marker => exact Json.pyEq_refl (.str marker)
  have hfields : (Json.arr (m.names.map .str)).pyEq (.arr (m.names.map .str)) = true := by
    refine Json.pyEq_refl (.arr fun item hitem => ?_)
    obtain ⟨name, -, rfl⟩ := List.mem_map.mp hitem
    exact .str name
  rw [sectionUnchanged, hmerge]
  simp only [bind, Except.bind, content_eq]
  refine congrArg Except.ok ?_
  rw [Json.pyEq, Json.pyEqItems_iff, hdigest, hnames, hcover]
  exact .cons (pyEq_words hwords) (.cons (Json.pyEq_refl m.digest_distinct)
    (.cons hfields (.cons hmarker .nil)))

/-! ## Histories -/

/-- The words contributed for a shard, oldest first. -/
def wordsFor (bs : List (Section TocWord)) (decimal : String) : List Int :=
  bs.filterMap fun b => b.words.lookup decimal

/-- The digest of the newest producer whose own map lists every shard of a word map. -/
def newestDigest (bs : List (Section TocWord)) (shards : List (String × Int)) : Json :=
  ((bs.reverse.find? fun b => b.vouches shards).map Section.digest).getD .null

/-- What the sections merged so far have left. -/
structure Accumulated (join : Int → Int → Int) (reduce : List Int → Int) (bs : List (Section TocWord))
    (m : Section TocWord) : Prop where
  words : ∀ d, m.words.lookup d = if wordsFor bs d = [] then none else some (reduce (wordsFor bs d))
  covers : ∀ b ∈ bs, ∀ d v, b.words.lookup d = some v →
    ∃ w, m.words.lookup d = some w ∧ Under join v w
  digest : m.digest = newestDigest bs m.words

/-- A marker of an unknown revision stays, unless a later section brings another one. -/
def CoverKept (e m : Section TocWord) (ys : List (Section TocWord)) : Prop :=
  ∀ t, e.cover = some t → t ≠ coverSpec →
    ∃ t', m.cover = some t' ∧ t' ≠ coverSpec ∧ (t' = t ∨ ∃ b ∈ ys, b.cover = some t')

theorem toc_wordsFor {bs : List (Section TocWord)} {d : String} :
    ∀ w ∈ wordsFor bs d, TocWord w := by
  intro w hw
  obtain ⟨b, -, hb⟩ := List.mem_filterMap.mp hw
  exact toc_of_lookup hb

theorem wordsFor_concat (bs : List (Section TocWord)) (b : Section TocWord) (d : String) :
    wordsFor (bs ++ [b]) d = wordsFor bs d ++ (b.words.lookup d).toList := by
  rw [wordsFor, List.filterMap_append]
  cases hb : b.words.lookup d <;> simp [wordsFor, hb]

theorem reduce_concat (h : TocLaws tocMerge TocWord join reduce) {ws : List Int} {w : Int}
    (hne : ws ≠ []) (hws : ∀ v ∈ ws, TocWord v) (hw : TocWord w) :
    reduce (ws ++ [w]) = join (reduce ws) w := by
  match ws, hne, hws with
  | v :: ws, _, hws =>
    have hv := hws v (.head _)
    have htail : ∀ x ∈ ws, TocWord x := fun x hx => hws x (.tail _ hx)
    have hall : ∀ x ∈ ws ++ [w], TocWord x := by
      intro x hx
      rcases List.mem_append.mp hx with hx | hx
      · exact htail x hx
      · exact List.mem_singleton.mp hx ▸ hw
    rw [List.cons_append, h.joins.reduce_cons v _ hv hall, h.joins.reduce_cons v ws hv htail,
      List.foldl_append]
    rfl

/-- The joined words after one more section. -/
theorem joined_concat (h : TocLaws tocMerge TocWord join reduce) (bs : List (Section TocWord))
    (b : Section TocWord) (d : String) :
    joinWords join (if wordsFor bs d = [] then none else some (reduce (wordsFor bs d)))
        (b.words.lookup d) =
      if wordsFor (bs ++ [b]) d = [] then none else some (reduce (wordsFor (bs ++ [b]) d)) := by
  rw [wordsFor_concat]
  cases hb : b.words.lookup d with
  | none =>
    rw [Option.toList_none, List.append_nil]
    split_ifs <;> rfl
  | some w =>
    have hw := toc_of_lookup hb
    rw [Option.toList_some, if_neg (List.append_ne_nil_of_right_ne_nil _ (List.cons_ne_nil _ _))]
    split_ifs with hnil
    · rw [hnil, List.nil_append, h.joins.reduce_cons w [] hw nofun]
      rfl
    · rw [reduce_concat h hnil toc_wordsFor hw]
      rfl

/-- The words of a section cover those of every contribution. -/
theorem covers_of_words (h : TocLaws tocMerge TocWord join reduce) {bs : List (Section TocWord)}
    {m : Section TocWord}
    (hm : ∀ d, m.words.lookup d = if wordsFor bs d = [] then none else some (reduce (wordsFor bs d))) :
    ∀ b ∈ bs, ∀ d v, b.words.lookup d = some v → ∃ w, m.words.lookup d = some w ∧ Under join v w := by
  intro b hb d v hv
  have hmem : v ∈ wordsFor bs d := List.mem_filterMap.mpr ⟨b, hb, hv⟩
  have hne : wordsFor bs d ≠ [] := List.ne_nil_of_mem hmem
  have hreduced := h.joins.reduce_mem hne toc_wordsFor
  refine ⟨_, (hm d).trans (if_neg hne), ?_⟩
  exact (h.joins.reduce_under_iff hne toc_wordsFor hreduced).mp (h.joins.refl hreduced) v hmem

theorem Accumulated.first (h : TocLaws tocMerge TocWord join reduce) (b : Section TocWord) :
    Accumulated join reduce [b] b := by
  have hwords : ∀ d, b.words.lookup d =
      if wordsFor [b] d = [] then none else some (reduce (wordsFor [b] d)) := by
    intro d
    have hstep := joined_concat h [] b d
    exact hstep
  refine ⟨hwords, covers_of_words h hwords, ?_⟩
  rw [newestDigest, List.reverse_singleton, List.find?_cons]
  cases hv : b.vouches b.words with
  | true => rfl
  | false =>
    by_contra hne
    have hvouches : b.vouches b.words = true := vouches_iff.mpr ⟨hne, fun _ hd => hd⟩
    rw [hv] at hvouches
    cases hvouches

/-- One more section. -/
theorem Accumulated.step (h : TocLaws tocMerge TocWord join reduce) {bs : List (Section TocWord)}
    {a b m : Section TocWord} (ha : Accumulated join reduce bs a) (hm : Composed join a b m) :
    Accumulated join reduce (bs ++ [b]) m := by
  have hwords : ∀ d, m.words.lookup d =
      if wordsFor (bs ++ [b]) d = [] then none else some (reduce (wordsFor (bs ++ [b]) d)) := by
    intro d
    rw [hm.words, ha.words, joined_concat h]
  refine ⟨hwords, covers_of_words h hwords, ?_⟩
  have hgrown : ∀ d, a.Lists d → m.Lists d := by
    intro d hd
    obtain ⟨v, hv⟩ := lists_iff.mp hd
    rw [lists_iff, hm.words, hv]
    cases b.words.lookup d <;> exact ⟨_, rfl⟩
  have hlisted : ∀ s ∈ bs, ∀ d, s.Lists d → a.Lists d := by
    intro s hs d hd
    obtain ⟨v, hv⟩ := lists_iff.mp hd
    obtain ⟨w, hw, -⟩ := ha.covers s hs d v hv
    exact lists_iff.mpr ⟨w, hw⟩
  rw [hm.digest, newestDigest, List.reverse_append, List.reverse_singleton, List.singleton_append,
    List.find?_cons]
  cases b.vouches m.words with
  | true => rfl
  | false =>
    change (if a.vouches m.words = true then a.digest else .null) = newestDigest bs m.words
    by_cases hall : ∀ d, m.Lists d → a.Lists d
    · -- no new shard: the standing digest is still the newest that vouches
      have hsame : ∀ s : Section TocWord, s.vouches m.words = s.vouches a.words := fun s =>
        vouches_congr fun d => ⟨hall d, hgrown d⟩
      have hnewest : newestDigest bs m.words = a.digest := by
        rw [ha.digest, newestDigest, newestDigest]
        simp only [hsame]
      rw [hnewest]
      split_ifs with hv
      · rfl
      · by_contra hne
        exact hv (vouches_iff.mpr ⟨fun hnull => hne hnull.symm, hall⟩)
    · -- a new shard: no earlier producer lists it
      have hnone : bs.reverse.find? (fun s => s.vouches m.words) = none := by
        rw [List.find?_eq_none]
        intro s hs hv
        exact hall fun d hd => hlisted s (List.mem_reverse.mp hs) d ((vouches_iff.mp hv).2 d hd)
      rw [newestDigest, hnone, if_neg fun hv => hall (vouches_iff.mp hv).2]
      rfl

theorem CoverKept.step {e a b m : Section TocWord} {ys : List (Section TocWord)}
    (ha : CoverKept e a ys) (hm : Composed join a b m) : CoverKept e m (ys ++ [b]) := by
  intro t ht hne
  obtain ⟨t', ht', hne', hfrom⟩ := ha t ht hne
  have hkept : t' = t ∨ ∃ b' ∈ ys ++ [b], b'.cover = some t' :=
    hfrom.imp_right fun ⟨b', hb', hcover⟩ => ⟨b', List.mem_append_left _ hb', hcover⟩
  rw [hm.cover, ht']
  cases hb : b.cover with
  | none => exact ⟨t', rfl, hne', hkept⟩
  | some s =>
    by_cases hs : s = coverSpec
    · exact ⟨t', if_pos ⟨hs, hne'⟩, hne', hkept⟩
    · exact ⟨s, if_neg fun h => hs h.1, hs,
        .inr ⟨b, List.mem_append_right _ (List.mem_singleton.mpr rfl), hb⟩⟩

def Section.body (s : Section TocWord) : Json := .obj s.carrier

theorem mergeSections_concat {standing e : Json} {bs : List Json}
    (h : mergeSections tocMerge standing bs = .ok e) (b : Json) :
    mergeSections tocMerge standing (bs ++ [b]) =
      (mergeTemporalSections tocMerge e b).map leftStanding := by
  induction bs generalizing standing with
  | nil =>
    obtain rfl := Except.ok.inj h
    rw [List.nil_append, mergeSections]
    cases mergeTemporalSections tocMerge standing b <;> rfl
  | cons b' bs ih =>
    rw [mergeSections] at h
    rw [List.cons_append, mergeSections]
    cases hm : mergeTemporalSections tocMerge standing b' with
    | error err =>
      rw [hm] at h
      cases h
    | ok r =>
      rw [hm] at h
      exact ih h

/-- A run of merges that starts from a section. -/
theorem exists_accumulated (h : TocLaws tocMerge TocWord join reduce) {xs : List (Section TocWord)}
    {e : Section TocWord} (he : Accumulated join reduce xs e)
    (hlast : ∀ b, xs.getLast? = some b → Absorbs join e b) (ys : List (Section TocWord)) :
    ∃ m : Section TocWord, mergeSections tocMerge e.body (ys.map Section.body) = .ok m.body ∧
      Accumulated join reduce (xs ++ ys) m ∧ CoverKept e m ys ∧
      ∀ b, (xs ++ ys).getLast? = some b → Absorbs join m b := by
  induction ys using List.reverseRecOn with
  | nil =>
    rw [List.append_nil]
    exact ⟨e, rfl, he, fun t ht hne => ⟨t, ht, hne, .inl rfl⟩, hlast⟩
  | append_singleton ys b ih =>
    obtain ⟨a, hrun, ha, hkept, -⟩ := ih
    obtain ⟨m, hmerge, hm⟩ := exists_composed h a b
    refine ⟨m, ?_, ?_, hkept.step hm, fun b' hb' => ?_⟩
    · rw [List.map_append]
      refine (mergeSections_concat hrun b.body).trans ?_
      rw [Section.body, Section.body, hmerge]
      rfl
    · rw [← List.append_assoc]
      exact ha.step h hm
    · rw [← List.append_assoc, List.getLast?_concat] at hb'
      exact Option.some.inj hb' ▸ hm.absorbs h

/-- A section at another revision stays as it is. -/
theorem mergeSections_preserved {carrier : Fields} {spec : String}
    (hspec : Json.field carrier "spec" = .str spec) (hne : spec ≠ "") (hother : spec ≠ temporalCoverageSpec)
    (bs : List Json) : mergeSections tocMerge (.obj carrier) bs = .ok (.obj carrier) := by
  have husable : usable (.obj carrier) = none := by
    rw [usable, hspec]
    exact if_neg (by simpa [Json.pyEq] using hother)
  have hpreserved : preserved (.obj carrier) = some carrier := by
    rw [preserved, hspec]
    exact if_pos ⟨hne, hother⟩
  induction bs with
  | nil => rfl
  | cons b bs ih =>
    have hmerge : mergeTemporalSections tocMerge (.obj carrier) b = .ok (some carrier) := by
      rw [mergeTemporalSections, husable, hpreserved]
      cases usable b <;> rfl
    rw [mergeSections, hmerge]
    exact ih

/-- Over all histories of producers: from nothing or debris, each shard's word is the join of
all its contributions, the digest is that of the newest producer whose own map lists every
listed shard, a cover marker at an unknown revision stands until another one comes, and merging
the last section again changes nothing; a section at an unknown revision never changes. -/
theorem sections_accumulate (h : TocLaws tocMerge TocWord join reduce) :
    (∀ standing, usable standing = none → preserved standing = none →
      ∀ xs ys : List (Section TocWord), xs ≠ [] → ∃ e m : Section TocWord,
        mergeSections tocMerge standing (xs.map Section.body) = .ok e.body ∧
        mergeSections tocMerge e.body (ys.map Section.body) = .ok m.body ∧
        Accumulated join reduce (xs ++ ys) m ∧ CoverKept e m ys ∧
        ∀ b, (xs ++ ys).getLast? = some b → sectionUnchanged tocMerge m.body b.body = .ok true) ∧
    ∀ carrier spec, Json.field carrier "spec" = .str spec → spec ≠ "" →
      spec ≠ temporalCoverageSpec → ∀ incoming,
      mergeSections tocMerge (.obj carrier) incoming = .ok (.obj carrier) := by
  refine ⟨fun standing husable hpreserved xs ys hne => ?_, fun _ _ hspec hne hother incoming =>
    mergeSections_preserved hspec hne hother incoming⟩
  match xs, hne with
  | b :: xs, _ =>
    have hfirst : mergeTemporalSections tocMerge standing b.body = .ok (some b.carrier) := by
      rw [mergeTemporalSections, husable, Section.body, b.usable_eq, hpreserved]
      rfl
    have hself : ∀ b', [b].getLast? = some b' → Absorbs join b b' := by
      intro b' hb'
      exact Option.some.inj hb' ▸ Absorbs.refl h b
    obtain ⟨e, hxs, he, -, hlast⟩ := exists_accumulated h (.first h b) hself xs
    obtain ⟨m, hys, hm, hkept, hlast⟩ := exists_accumulated h he hlast ys
    refine ⟨e, m, ?_, hys, hm, hkept, fun b' hb' => (hlast b' hb').unchanged h⟩
    rw [List.map_cons, mergeSections, hfirst]
    exact hxs

/-! ## Against a concrete grammar -/

/-- The envelope of two spans, a word holding a span's start and end. -/
def spanMerge (v w : Int) : Int := min (v / 2 ^ 32) (w / 2 ^ 32) * 2 ^ 32 + max (v % 2 ^ 32) (w % 2 ^ 32)

def IsSpan (w : Int) : Prop := 0 ≤ w ∧ w < 2 ^ 64

instance (w : Int) : Decidable (IsSpan w) := inferInstanceAs (Decidable (_ ∧ _))

theorem spanMerge_halves (v w : Int) : spanMerge v w / 2 ^ 32 = min (v / 2 ^ 32) (w / 2 ^ 32) ∧
    spanMerge v w % 2 ^ 32 = max (v % 2 ^ 32) (w % 2 ^ 32) := by
  rw [spanMerge]
  omega

theorem span_ext {v w : Int} (hstart : v / 2 ^ 32 = w / 2 ^ 32) (hstop : v % 2 ^ 32 = w % 2 ^ 32) :
    v = w := by omega

theorem spanMerge_laws : TocLaws (fun v w => .ok (spanMerge v w)) IsSpan spanMerge
    (fun ws => ws.tail.foldl spanMerge (ws.headD 0)) where
  bound _ h := h
  merge _ _ _ _ := rfl
  joins :=
    { closed := by
        intro v w hv hw
        rw [IsSpan] at hv hw ⊢
        rw [spanMerge]
        omega
      assoc := by
        intro u v w _ _ _
        apply span_ext
        · simp only [spanMerge_halves, min_assoc]
        · simp only [spanMerge_halves, max_assoc]
      comm := by
        intro v w _ _
        rw [spanMerge, spanMerge, min_comm, max_comm]
      idem := by
        intro w _
        rw [spanMerge]
        omega
      reduce_cons := fun _ _ _ _ => rfl }

/-- A section with a digest of one member, if any. -/
def sampleSection (words : List (String × Int)) (hn : (words.map Prod.fst).Nodup)
    (htoc : ∀ e ∈ words, IsSpan e.2) (digest : Option String) (marker : String) (hm : marker ≠ "") :
    Section IsSpan where
  carrier := [("spec", .str temporalCoverageSpec), ("source", .str "sweep"),
    ("fields", .arr [.str "h_tdigest"]), ("shards", .obj (words.map fun e => (e.1, strJson e.2))),
    ("digest", (digest.map fun payload => Json.obj [("payload", .str payload)]).getD .null),
    (coverKey, .str marker)]
  words := words
  names := ["h_tdigest"]
  spec_eq := rfl
  shards_eq := rfl
  nodup := hn
  toc := htoc
  names_eq := rfl
  increasing := List.pairwise_singleton _ _
  digest_distinct := by
    cases digest with
    | none => exact .null
    | some payload =>
      exact .obj (List.nodup_singleton _) (List.forall_mem_singleton.mpr (.str payload))
  cover := some marker
  cover_eq := rfl
  cover_ne := fun h => hm (Option.some.inj h)

def wholeStore : Section IsSpan :=
  sampleSection [("11", 5), ("12", 7)] (by decide) (by decide) (some "AACAPw==")
    "zagg-coverage-toc-cover/3" (by decide)

/-- A later walk of one shard, with a longer span. -/
def oneShardAgain : Section IsSpan :=
  sampleSection [("11", 9)] (by decide) (by decide) (some "AAAAQA==")
    "zagg-coverage-toc-cover/2" (by decide)

/-- A partial producer that changes a listed shard's word leaves the older digest standing, and its
marker of one unknown revision replaces that of another. -/
theorem partial_producer_leaves_digest : ∃ m : Section IsSpan,
    mergeTemporalSections (fun v w => .ok (spanMerge v w)) wholeStore.body oneShardAgain.body =
      .ok (some m.carrier) ∧
    wholeStore.words.lookup "11" = some 5 ∧ m.words.lookup "11" = some 9 ∧
    m.digest = wholeStore.digest ∧ wholeStore.digest ≠ .null ∧
    wholeStore.cover = some "zagg-coverage-toc-cover/3" ∧ m.cover = some "zagg-coverage-toc-cover/2" := by
  obtain ⟨m, hmerge, hm⟩ := exists_composed spanMerge_laws wholeStore oneShardAgain
  have hwords := hm.words
  have hlists : ∀ d, m.Lists d ↔ d = "11" ∨ d = "12" := by
    intro d
    rw [lists_iff, hm.words]
    by_cases h11 : d = "11"
    · subst h11
      exact iff_of_true ⟨9, rfl⟩ (.inl rfl)
    · by_cases h12 : d = "12"
      · subst h12
        exact iff_of_true ⟨7, rfl⟩ (.inr rfl)
      · simp [wholeStore, oneShardAgain, sampleSection, joinWords, List.lookup_cons, List.lookup_nil, h11, h12,
          beq_false_of_ne h11, beq_false_of_ne h12]
  have hpartial : ¬oneShardAgain.vouches m.words = true := by
    intro hv
    have h12 := (vouches_iff.mp hv).2 "12" ((hlists "12").mpr (.inr rfl))
    revert h12
    decide
  have hwhole : wholeStore.vouches m.words = true := by
    refine vouches_iff.mpr ⟨nofun, fun d hd => ?_⟩
    rcases (hlists d).mp hd with rfl | rfl
    · decide
    · decide
  have hdigest := hm.digest
  rw [if_neg hpartial, if_pos hwhole] at hdigest
  exact ⟨m, hmerge, rfl, (hwords "11").trans (by decide), hdigest, nofun, rfl, hm.cover.trans (by decide)⟩

theorem sections_accumulate_two : ∃ e m : Section IsSpan,
    mergeSections (fun v w => .ok (spanMerge v w)) .null [wholeStore.body] = .ok e.body ∧
    mergeSections (fun v w => .ok (spanMerge v w)) e.body [oneShardAgain.body] = .ok m.body ∧
    Accumulated spanMerge (fun ws => ws.tail.foldl spanMerge (ws.headD 0))
      [wholeStore, oneShardAgain] m ∧ CoverKept e m [oneShardAgain] ∧
    ∀ b, [wholeStore, oneShardAgain].getLast? = some b →
      sectionUnchanged (fun v w => .ok (spanMerge v w)) m.body b.body = .ok true :=
  (sections_accumulate spanMerge_laws).1 .null rfl rfl [wholeStore] [oneShardAgain] (List.cons_ne_nil _ _)

end Zagg.Hive
