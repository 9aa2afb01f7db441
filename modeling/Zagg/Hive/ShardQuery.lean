import Zagg.Hive.CoverMerge
import Zagg.Hive.PackedToc
import Zagg.Hive.RootCoverage
import Zagg.Lib.Segments
import Zagg.Stats.Compression

/-!
# Selecting shards by time

A window query asks one word of a shard the carrier alone lists, the whole word set of a
shard the cover lists too, and nothing of a shard only the cover lists, which is always a
candidate. The word sets are asked in one batch and their verdicts summed by segment.
-/
namespace Zagg.Hive

open Zagg.Lib
open Zagg.Catalog (Word)
open Zagg.Stats (reduceat reduceat_eq)

def loadTemporalCoverage : Json → Option Fields
  | .obj envelope => usable (Json.field envelope temporalKey)
  | _ => none

/-- The word of every shard the carrier lists. -/
def coverageToc (envelope : Json) : Except PyError (Option (List (String × Int))) :=
  match loadTemporalCoverage envelope with
  | some carrier => (sectionWords carrier).map some
  | none => .ok none

def carrierOrder : Json → Json
  | .obj envelope => Json.field envelope "order"
  | _ => .null

/-- The cover a query reads: of this revision and not at another shard order. -/
def consultedCover (envelope cover : Json) : Option Fields :=
  match coverUsable cover with
  | some carrier =>
    let cOrder := Json.field carrier "order"
    let eOrder := carrierOrder envelope
    if !cOrder.pyEq .null && !eOrder.pyEq .null && !cOrder.pyEq eOrder then none else some carrier
  | none => none

/-- `(section or {}).get("shards") or {}`. -/
def coverBlocks : Option Fields → Except PyError Fields
  | some carrier => shardItems carrier
  | none => .ok []

/-- One shard's word set, or `none` where its block is debris. -/
def queryWordSet (carrier blocks : Fields) (decimal : String) :
    Except PyError (Option (List Word)) :=
  let decoded : Except PyError (List Word × Int) := do
    let block ← Json.item blocks decimal
    decodeCoverBlock block (← objectPin carrier)
  match decoded with
  | .ok side => .ok (some side.1)
  | .error err => if isDebris err then .ok none else .error err

/-- What the query reads of a shard's block, if the cover lists it. -/
def coverSetOf (cover : Option Fields) (blocks : Fields) (key : String) :
    Except PyError (Option (List Word)) :=
  match cover with
  | some carrier =>
    if key ∈ blocks.map Prod.fst then queryWordSet carrier blocks key else .ok none
  | none => .ok none

/-- What the loop over the listed shards leaves for the batched calls. -/
structure QueryPlan where
  hits : List (String × Bool)
  tier : List String
  covKeys : List String
  covSets : List (List Word)

/-- A shard of the carrier goes to the word sets, or to the words when its set is empty. -/
def fileShard (plan : QueryPlan) (key : String) : Option (List Word) → QueryPlan
  | some (w :: ws) => { plan with
      covKeys := plan.covKeys ++ [key], covSets := plan.covSets ++ [w :: ws] }
  | _ => { plan with tier := plan.tier ++ [key] }

def planShard (words : List (String × Int)) (cover : Option Fields) (blocks : Fields)
    (plan : QueryPlan) (key : String) : Except PyError QueryPlan :=
  if key ∈ words.map Prod.fst then (coverSetOf cover blocks key).map (fileShard plan key)
  else .ok { plan with hits := put key true plan.hits }

section Batches
variable (tocOverlaps : Word → Int → Int → Bool) (qStart qEnd : Int)

/-- One call over the concatenated sets, then the sum of the hits of each segment. -/
def segmentedOr (covSets : List (List Word)) : List Bool :=
  let offsets := offsetsOf covSets.dropLast
  let batch := covSets.flatten.map fun w => tocOverlaps w qStart qEnd
  (reduceat (batch.map Bool.toNat) offsets).map fun merged => 0 < merged

/-- `np.asarray(words, np.uint64)`. -/
def uint64 (w : Int) : Except PyError Word :=
  if 0 ≤ w ∧ w < 2 ^ 64 then .ok w.toNat else .error .overflowError

def tierWord (words : List (String × Int)) (key : String) : Except PyError Word :=
  match words.lookup key with
  | some w => uint64 w
  | none => .error .keyError

def answerPlan (words : List (String × Int)) (plan : QueryPlan) :
    Except PyError (List (String × Bool)) := do
  let hits := if plan.covKeys = [] then plan.hits
    else putAll (plan.covKeys.zip (segmentedOr tocOverlaps qStart qEnd plan.covSets)) plan.hits
  if plan.tier = [] then return hits
  else
    let batch ← plan.tier.mapM (tierWord words)
    return putAll (plan.tier.zip (batch.map fun w => tocOverlaps w qStart qEnd)) hits

def hitKeys (hits : List (String × Bool)) : List String :=
  ((hits.filter Prod.snd).map Prod.fst).insertionSort (· ≤ ·)

/-- The loop over the listed shards and its batched calls. -/
def selectShards (words : List (String × Int)) (cover : Option Fields) (blocks : Fields) :
    Except PyError (List String) := do
  let plan ← (sortedSet (words.map Prod.fst ++ blocks.map Prod.fst)).foldlM
    (planShard words cover blocks) ⟨[], [], [], []⟩
  return hitKeys (← answerPlan tocOverlaps qStart qEnd words plan)

/-- The listed shards that may hold an observation in `[q_start, q_end)`; `none` without any
temporal information. -/
def shardsOverlapping (envelope cover : Json) : Except PyError (Option (List String)) := do
  let words ← coverageToc envelope
  let cover := consultedCover envelope cover
  let blocks ← coverBlocks cover
  if words = none ∧ cover = none then return none
  else return some (← selectShards tocOverlaps qStart qEnd (words.getD []) cover blocks)

end Batches

/-! ## One verdict a shard -/

section Verdicts
variable {tocOverlaps : Word → Int → Int → Bool} {qStart qEnd : Int}

theorem sum_toNat_pos (hits : List Bool) : 0 < (hits.map Bool.toNat).sum ↔ true ∈ hits := by
  induction hits with
  | nil => simp
  | cons hit hits ih =>
    cases hit with
    | true => simp
    | false => simpa using ih

/-- No segment answers for its neighbour. -/
theorem segmentedOr_eq {covSets : List (List Word)} (hne : covSets ≠ [])
    (h : ∀ ws ∈ covSets, ws ≠ []) : segmentedOr tocOverlaps qStart qEnd covSets =
      covSets.map fun ws => ws.any fun w => tocOverlaps w qStart qEnd := by
  have hasc : (offsetsOf covSets.dropLast).Pairwise (· < ·) :=
    pairwise_offsets fun ws hws => h ws (List.dropLast_subset _ hws)
  rw [segmentedOr, reduceat_eq _ hasc, pieces_map, pieces_map, pieces_flatten hne, List.map_map,
    List.map_map, List.map_map]
  refine List.map_congr_left fun ws _ => ?_
  show decide (0 < ((ws.map fun w => tocOverlaps w qStart qEnd).map Bool.toNat).sum) = _
  rw [Bool.eq_iff_iff, decide_eq_true_iff, sum_toNat_pos, List.any_eq_true, List.mem_map]

variable {words : List (String × Int)} {cover : Option Fields} {blocks : Fields}
  {sets : String → List Word}

/-- The shards that one word decides. -/
def tierKeys (words : List (String × Int)) (sets : String → List Word) (keys : List String) :
    List String := keys.filter fun key => key ∈ words.map Prod.fst ∧ sets key = []

/-- The shards whose own word set decides. -/
def covKeys (words : List (String × Int)) (sets : String → List Word) (keys : List String) :
    List String := keys.filter fun key => key ∈ words.map Prod.fst ∧ sets key ≠ []

/-- The shards nothing decides. -/
def candidates (words : List (String × Int)) (keys : List String) : List String :=
  keys.filter fun key => key ∉ words.map Prod.fst

/-- `sets key` is what the query reads of each shard's block, debris and no block being empty. -/
def Reads (cover : Option Fields) (blocks : Fields) (sets : String → List Word)
    (keys : List String) : Prop :=
  ∀ key ∈ keys, ∃ set, coverSetOf cover blocks key = .ok set ∧ set.getD [] = sets key

section Step
variable {key : String} (plan : QueryPlan)

theorem planShard_candidate (h : key ∉ words.map Prod.fst) :
    planShard words cover blocks plan key = .ok { plan with hits := put key true plan.hits } :=
  if_neg h

theorem planShard_tier (h : key ∈ words.map Prod.fst) {set : Option (List Word)}
    (hset : coverSetOf cover blocks key = .ok set) (hnil : set.getD [] = []) :
    planShard words cover blocks plan key = .ok { plan with tier := plan.tier ++ [key] } := by
  rw [planShard, if_pos h, hset]
  match set with
  | none => rfl
  | some [] => rfl
  | some (w :: ws) => exact absurd hnil (List.cons_ne_nil w ws)

theorem planShard_cov (h : key ∈ words.map Prod.fst) {set : Option (List Word)}
    (hset : coverSetOf cover blocks key = .ok set) (hne : set.getD [] ≠ []) :
    planShard words cover blocks plan key = .ok { plan with
      covKeys := plan.covKeys ++ [key], covSets := plan.covSets ++ [set.getD []] } := by
  rw [planShard, if_pos h, hset]
  match set with
  | none => exact absurd rfl hne
  | some [] => exact absurd rfl hne
  | some (w :: ws) => rfl

end Step

/-- The loop sorts every shard to the call that decides it. -/
theorem foldlM_planShard {keys : List String} (h : Reads cover blocks sets keys) (plan : QueryPlan) :
    keys.foldlM (planShard words cover blocks) plan = .ok
      { hits := putAll ((candidates words keys).map fun key => (key, true)) plan.hits
        tier := plan.tier ++ tierKeys words sets keys
        covKeys := plan.covKeys ++ covKeys words sets keys
        covSets := plan.covSets ++ (covKeys words sets keys).map sets } := by
  induction keys generalizing plan with
  | nil => simp [candidates, tierKeys, covKeys, putAll, pure, Except.pure]
  | cons key keys ih =>
    obtain ⟨set, hset, hsets⟩ := h key (.head _)
    have hrest := ih fun k hk => h k (.tail _ hk)
    rw [List.foldlM_cons]
    by_cases hkey : key ∈ words.map Prod.fst
    · by_cases hnil : set.getD [] = []
      · have hsets' : sets key = [] := hsets.symm.trans hnil
        rw [planShard_tier plan hkey hset hnil]
        refine (hrest _).trans (congrArg Except.ok ?_)
        simp [candidates, tierKeys, covKeys, hkey, hsets', List.append_assoc]
      · have hsets' : sets key ≠ [] := fun hkeyNil => hnil (hsets.trans hkeyNil)
        rw [planShard_cov plan hkey hset hnil]
        refine (hrest _).trans (congrArg Except.ok ?_)
        simp [candidates, tierKeys, covKeys, hkey, hsets', hsets,
          List.append_assoc]
    · rw [planShard_candidate plan hkey]
      refine (hrest _).trans (congrArg Except.ok ?_)
      simp [candidates, tierKeys, covKeys, hkey, putAll]

/-- The verdict on a listed shard. -/
def verdict (tocOverlaps : Word → Int → Int → Bool) (qStart qEnd : Int) (words : List (String × Int))
    (sets : String → List Word) (key : String) : Bool :=
  match words.lookup key with
  | some w =>
    if sets key = [] then tocOverlaps w.toNat qStart qEnd
    else (sets key).any fun v => tocOverlaps v qStart qEnd
  | none => true

theorem uint64_ok {w : Int} (h : 0 ≤ w ∧ w < 2 ^ 64) : uint64 w = .ok w.toNat := if_pos h

theorem mem_hitKeys {hits : List (String × Bool)} (h : (hits.map Prod.fst).Nodup) (key : String) :
    key ∈ hitKeys hits ↔ hits.lookup key = some true := by
  rw [hitKeys, List.mem_insertionSort, List.mem_map]
  constructor
  · intro ⟨e, he, hkey⟩
    obtain ⟨hmem, hhit⟩ := List.mem_filter.mp he
    rw [← hkey, lookup_of_nodup h hmem, hhit]
  · intro hlook
    exact ⟨(key, true), List.mem_filter.mpr ⟨mem_of_lookup hlook, rfl⟩, rfl⟩

theorem zip_table (keys : List String) (f : String → Bool) :
    keys.zip (keys.map f) = keys.map fun key => (key, f key) := by
  have hzip : (keys.map id).zip (keys.map f) = keys.map fun key => (id key, f key) := List.zip_map'
  rwa [List.map_id] at hzip

theorem nodup_table {keys : List String} (hn : keys.Nodup) (f : String → Bool) :
    ((keys.map fun key => (key, f key)).map Prod.fst).Nodup := by
  rw [List.map_map]
  exact (List.map_id keys).symm ▸ hn

/-- The word sets' verdicts, by key. -/
theorem zip_segmentedOr {keys : List String} (h : ∀ key ∈ keys, sets key ≠ [])
    (hits : List (String × Bool)) :
    (if keys = [] then hits
      else putAll (keys.zip (segmentedOr tocOverlaps qStart qEnd (keys.map sets))) hits) =
      putAll (keys.map fun key => (key, (sets key).any fun w => tocOverlaps w qStart qEnd)) hits := by
  split_ifs with hnil
  · rw [hnil]
    rfl
  · have hne : keys.map sets ≠ [] := fun hmap => hnil (List.map_eq_nil_iff.mp hmap)
    have hsets : ∀ ws ∈ keys.map sets, ws ≠ [] := by
      intro ws hws
      obtain ⟨key, hkey, rfl⟩ := List.mem_map.mp hws
      exact h key hkey
    rw [segmentedOr_eq hne hsets, List.map_map, zip_table]
    rfl

/-- The words of the shards that one word decides. -/
theorem mapM_tierWord (hw : ∀ key w, words.lookup key = some w → 0 ≤ w ∧ w < 2 ^ 64)
    {keys : List String} (h : ∀ key ∈ keys, key ∈ words.map Prod.fst) :
    keys.mapM (tierWord words) = .ok (keys.map fun key => ((words.lookup key).getD 0).toNat) := by
  refine mapM_ok fun key hkey => ?_
  cases hlook : words.lookup key with
  | none => exact absurd (h key hkey) (lookup_eq_none.mp hlook)
  | some w =>
    rw [tierWord, hlook]
    exact uint64_ok (hw key w hlook)

variable (tocOverlaps qStart qEnd sets) in
/-- The batched calls give every listed shard its verdict. -/
theorem answerPlan_ok {keys : List String} (hn : keys.Nodup)
    (hw : ∀ key w, words.lookup key = some w → 0 ≤ w ∧ w < 2 ^ 64) :
    ∃ hits, answerPlan tocOverlaps qStart qEnd words
        { hits := putAll ((candidates words keys).map fun key => (key, true)) []
          tier := tierKeys words sets keys
          covKeys := covKeys words sets keys
          covSets := (covKeys words sets keys).map sets } = .ok hits ∧ (hits.map Prod.fst).Nodup ∧
      ∀ key, hits.lookup key =
        if key ∈ keys then some (verdict tocOverlaps qStart qEnd words sets key) else none := by
  have hcov : ∀ key ∈ covKeys words sets keys, sets key ≠ [] := by
    intro key hkey
    have hfilter := (List.mem_filter.mp hkey).2
    exact (of_decide_eq_true hfilter).2
  have htier : ∀ key ∈ tierKeys words sets keys, key ∈ words.map Prod.fst := by
    intro key hkey
    have hfilter := (List.mem_filter.mp hkey).2
    exact (of_decide_eq_true hfilter).1
  let wordHit := fun key => tocOverlaps ((words.lookup key).getD 0).toNat qStart qEnd
  let setHit := fun key => (sets key).any fun w => tocOverlaps w qStart qEnd
  have hanswer : answerPlan tocOverlaps qStart qEnd words
      { hits := putAll ((candidates words keys).map fun key => (key, true)) []
        tier := tierKeys words sets keys
        covKeys := covKeys words sets keys
        covSets := (covKeys words sets keys).map sets } = .ok
      (putAll ((tierKeys words sets keys).map fun key => (key, wordHit key))
        (putAll ((covKeys words sets keys).map fun key => (key, setHit key))
          (putAll ((candidates words keys).map fun key => (key, true)) []))) := by
    rw [answerPlan]
    dsimp only
    rw [zip_segmentedOr hcov, mapM_tierWord hw htier]
    split_ifs with hnil
    · rw [hnil]
      rfl
    · simp only [bind, Except.bind, pure, Except.pure, List.map_map, zip_table]
      rfl
  refine ⟨_, hanswer, nodup_putAll (nodup_putAll (nodup_putAll .nil)), fun key => ?_⟩
  have htierN : (tierKeys words sets keys).Nodup := hn.filter _
  have hcovN : (covKeys words sets keys).Nodup := hn.filter _
  have honlyN : (candidates words keys).Nodup := hn.filter _
  rw [lookup_putAll (nodup_table htierN wordHit), lookup_putAll (nodup_table hcovN setHit),
    lookup_putAll (nodup_table honlyN fun _ => true), lookup_map_key, lookup_map_key, lookup_map_key]
  by_cases hkey : key ∈ keys
  · cases hlook : words.lookup key with
    | none =>
      have hnot := lookup_eq_none.mp hlook
      simp [tierKeys, covKeys, candidates, hkey, hnot, verdict, hlook]
    | some w =>
      have hmem : key ∈ words.map Prod.fst := List.mem_map_of_mem (mem_of_lookup hlook)
      by_cases hnil : sets key = []
      · simp [tierKeys, covKeys, candidates, hkey, hmem, hnil, verdict, hlook, wordHit]
      · simp [tierKeys, covKeys, candidates, hkey, hmem, hnil, verdict, hlook, setHit]
  · simp [tierKeys, covKeys, candidates, hkey]

end Verdicts

/-! ## What a query answers -/

/-- The predicate of the grammar answers for every instant its word covers. -/
def NeverUnderReports (g : Toc) (tocOverlaps : Word → Int → Int → Bool) : Prop :=
  ∀ w (qStart qEnd : Int) (t : Nat), g.Covered [w] t → qStart ≤ t → t < qEnd →
    tocOverlaps w qStart qEnd = true

/-- A carrier and a cover whose words contain the observations of the shards they list; a block
of the cover may be debris. -/
structure Declares (g : Toc) (observed : String → Nat → Prop) (envelope cover : Json) : Prop where
  words : ∃ words, coverageToc envelope = .ok words ∧
    ∀ listed, words = some listed → ∀ d w, listed.lookup d = some w →
      (0 ≤ w ∧ w < 2 ^ 64) ∧ ∀ t, observed d t → g.Covered [w.toNat] t
  blocks : ∃ blocks, coverBlocks (consultedCover envelope cover) = .ok blocks ∧
    ∀ d ∈ blocks.map Prod.fst, ∃ set, coverSetOf (consultedCover envelope cover) blocks d = .ok set ∧
      ∀ ws, set = some ws → ws ≠ [] → ∀ t, observed d t → g.Covered ws t

/-- The shards selected for a window, by which side lists them. -/
structure Answers (tocOverlaps : Word → Int → Int → Bool) (qStart qEnd : Int)
    (observed : String → Nat → Prop) (words : List (String × Int)) (cover : Option Fields)
    (blocks : Fields) (ids : List String) : Prop where
  sorted : ids.Pairwise (· ≤ ·)
  listed : ∀ d ∈ ids, d ∈ words.map Prod.fst ∨ d ∈ blocks.map Prod.fst
  observed : ∀ d t, d ∈ words.map Prod.fst ∨ d ∈ blocks.map Prod.fst → observed d t →
    qStart ≤ t → (t : Int) < qEnd → d ∈ ids
  ownWords : ∀ d ws, d ∈ words.map Prod.fst → coverSetOf cover blocks d = .ok (some ws) → ws ≠ [] →
    (d ∈ ids ↔ ∃ w ∈ ws, tocOverlaps w qStart qEnd = true)
  oneWord : ∀ d w, words.lookup d = some w →
    coverSetOf cover blocks d = .ok none ∨ coverSetOf cover blocks d = .ok (some []) →
    (d ∈ ids ↔ tocOverlaps w.toNat qStart qEnd = true)
  coverOnly : ∀ d ∈ blocks.map Prod.fst, d ∉ words.map Prod.fst → d ∈ ids

section Answer
variable {tocOverlaps : Word → Int → Int → Bool} {qStart qEnd : Int} {words : List (String × Int)}
  {cover : Option Fields} {blocks : Fields}

theorem coverSetOf_of_notMem {d : String} (h : d ∉ blocks.map Prod.fst) :
    coverSetOf cover blocks d = .ok none := by
  cases cover with
  | none => rfl
  | some carrier => exact if_neg h

variable (tocOverlaps qStart qEnd) in
/-- The loop and the batched calls select the listed shards whose verdict is positive. -/
theorem exists_selectShards {sets : String → List Word}
    (hr : Reads cover blocks sets (sortedSet (words.map Prod.fst ++ blocks.map Prod.fst)))
    (hw : ∀ key w, words.lookup key = some w → 0 ≤ w ∧ w < 2 ^ 64) :
    ∃ ids, selectShards tocOverlaps qStart qEnd words cover blocks = .ok ids ∧
      ids.Pairwise (· ≤ ·) ∧
      ∀ d, d ∈ ids ↔ (d ∈ words.map Prod.fst ∨ d ∈ blocks.map Prod.fst) ∧
        verdict tocOverlaps qStart qEnd words sets d = true := by
  obtain ⟨hits, hhits, hnodup, hlook⟩ := answerPlan_ok tocOverlaps qStart qEnd sets
    (nodup_sortedSet (words.map Prod.fst ++ blocks.map Prod.fst)) hw
  refine ⟨hitKeys hits, ?_, List.pairwise_insertionSort _ _, fun d => ?_⟩
  · rw [selectShards, foldlM_planShard hr]
    simp only [bind, Except.bind, List.nil_append, hhits]
    rfl
  · have hlisted : d ∈ sortedSet (words.map Prod.fst ++ blocks.map Prod.fst) ↔
        d ∈ words.map Prod.fst ∨ d ∈ blocks.map Prod.fst := by rw [mem_sortedSet, List.mem_append]
    rw [mem_hitKeys hnodup, hlook, ← hlisted]
    split_ifs with hd
    · rw [Option.some.injEq, and_iff_right hd]
    · exact iff_of_false nofun fun h => hd h.1

variable {g : Toc} {observed : String → Nat → Prop}

/-- A shard with an observation in the window has a positive verdict. -/
theorem verdict_of_observed (hover : NeverUnderReports g tocOverlaps) {sets : String → List Word}
    {d : String} {t : Nat}
    (hw : ∀ w, words.lookup d = some w → g.Covered [w.toNat] t)
    (hs : sets d ≠ [] → g.Covered (sets d) t) (hlo : qStart ≤ t) (hhi : (t : Int) < qEnd) :
    verdict tocOverlaps qStart qEnd words sets d = true := by
  rw [verdict]
  cases hlook : words.lookup d with
  | none => rfl
  | some w =>
    show (if sets d = [] then _ else _) = true
    split_ifs with hnil
    · exact hover w.toNat qStart qEnd t (hw w hlook) hlo hhi
    · obtain ⟨v, hv, hcov⟩ := hs hnil
      exact List.any_eq_true.mpr ⟨v, hv, hover v qStart qEnd t ⟨v, .head _, hcov⟩ hlo hhi⟩

/-- The selected shards are the answer to the window. -/
theorem answers_of_verdicts (hover : NeverUnderReports g tocOverlaps) {sets : String → List Word}
    {ids : List String} (hsorted : ids.Pairwise (· ≤ ·))
    (hsets : ∀ d, ∃ set, coverSetOf cover blocks d = .ok set ∧ set.getD [] = sets d)
    (hids : ∀ d, d ∈ ids ↔ (d ∈ words.map Prod.fst ∨ d ∈ blocks.map Prod.fst) ∧
      verdict tocOverlaps qStart qEnd words sets d = true)
    (hw : ∀ d w, words.lookup d = some w → ∀ t, observed d t → g.Covered [w.toNat] t)
    (hs : ∀ d, sets d ≠ [] → ∀ t, observed d t → g.Covered (sets d) t) :
    Answers tocOverlaps qStart qEnd observed words cover blocks ids := by
  constructor
  · exact hsorted
  · exact fun d hd => ((hids d).mp hd).1
  · intro d t hlisted hobs hlo hhi
    exact (hids d).mpr ⟨hlisted, verdict_of_observed hover (fun w hlook => hw d w hlook t hobs)
      (fun hne => hs d hne t hobs) hlo hhi⟩
  · intro d ws hd hset hne
    obtain ⟨set, hset', hsd⟩ := hsets d
    cases hset'.symm.trans hset
    obtain ⟨w, hlook⟩ : ∃ w, words.lookup d = some w := by
      rw [← Option.ne_none_iff_exists']
      exact fun hnone => lookup_eq_none.mp hnone hd
    rw [hids, and_iff_right (.inl hd), verdict, hlook]
    show (if sets d = [] then _ else _) = true ↔ _
    rw [← hsd, Option.getD_some, if_neg hne, List.any_eq_true]
  · intro d w hlook hset
    obtain ⟨set, hset', hsd⟩ := hsets d
    have hnil : sets d = [] := by
      rw [← hsd]
      rcases hset with hset | hset <;> cases hset'.symm.trans hset <;> rfl
    have hd : d ∈ words.map Prod.fst := List.mem_map_of_mem (mem_of_lookup hlook)
    rw [hids, and_iff_right (.inl hd), verdict, hlook]
    show (if sets d = [] then _ else _) = true ↔ _
    rw [if_pos hnil]
  · intro d hd hnot
    refine (hids d).mpr ⟨.inr hd, ?_⟩
    rw [verdict, lookup_eq_none.mpr hnot]

variable (tocOverlaps qStart qEnd) in
theorem shardsOverlapping_eq {envelope cover : Json} {words : Option (List (String × Int))}
    {blocks : Fields} (hwords : coverageToc envelope = .ok words)
    (hblocks : coverBlocks (consultedCover envelope cover) = .ok blocks) :
    shardsOverlapping tocOverlaps qStart qEnd envelope cover =
      if words = none ∧ consultedCover envelope cover = none then .ok none
      else (selectShards tocOverlaps qStart qEnd (words.getD []) (consultedCover envelope cover)
        blocks).map some := by
  rw [shardsOverlapping]
  simp only [hwords, bind, Except.bind, hblocks]
  split_ifs
  · rfl
  · cases selectShards tocOverlaps qStart qEnd (words.getD []) (consultedCover envelope cover) blocks <;>
      rfl

end Answer

/-- A window query answers from the carrier's words and the cover's own word sets, and has no
answer only without either. -/
theorem shardsOverlapping_answers {g : Toc} {tocOverlaps : Word → Int → Int → Bool}
    (hover : NeverUnderReports g tocOverlaps) {observed : String → Nat → Prop} {envelope cover : Json}
    (h : Declares g observed envelope cover) (qStart qEnd : Int) :
    ∃ words blocks, coverageToc envelope = .ok words ∧
      coverBlocks (consultedCover envelope cover) = .ok blocks ∧
      (words = none ∧ consultedCover envelope cover = none →
        shardsOverlapping tocOverlaps qStart qEnd envelope cover = .ok none) ∧
      (¬(words = none ∧ consultedCover envelope cover = none) →
        ∃ ids, shardsOverlapping tocOverlaps qStart qEnd envelope cover = .ok (some ids) ∧
          Answers tocOverlaps qStart qEnd observed (words.getD []) (consultedCover envelope cover)
            blocks ids) := by
  obtain ⟨words, hwords, hcontains⟩ := h.words
  obtain ⟨blocks, hblocks, hread⟩ := h.blocks
  have hquery := shardsOverlapping_eq tocOverlaps qStart qEnd hwords hblocks
  refine ⟨words, blocks, hwords, hblocks, fun hnone => by rw [hquery, if_pos hnone], fun hsome => ?_⟩
  have hw : ∀ d w, (words.getD []).lookup d = some w →
      (0 ≤ w ∧ w < 2 ^ 64) ∧ ∀ t, observed d t → g.Covered [w.toNat] t := by
    cases words with
    | none => exact nofun
    | some listed => exact hcontains listed rfl
  have hset : ∀ d, ∃ set, coverSetOf (consultedCover envelope cover) blocks d = .ok set ∧
      ∀ ws, set = some ws → ws ≠ [] → ∀ t, observed d t → g.Covered ws t := by
    intro d
    by_cases hd : d ∈ blocks.map Prod.fst
    · exact hread d hd
    · exact ⟨none, coverSetOf_of_notMem hd, nofun⟩
  choose set hset hcover using hset
  obtain ⟨ids, hselect, hsorted, hids⟩ := exists_selectShards tocOverlaps qStart qEnd
    (fun d _ => ⟨set d, hset d, rfl⟩) fun d w hlook => (hw d w hlook).1
  refine ⟨ids, by rw [hquery, if_neg hsome, hselect]; rfl, ?_⟩
  refine answers_of_verdicts hover hsorted (fun d => ⟨set d, hset d, rfl⟩) hids
    (fun d w hlook => (hw d w hlook).2) fun d hne => ?_
  cases hd : set d with
  | none => exact absurd (by rw [hd]; rfl) hne
  | some ws =>
    rw [hd] at hne
    exact hcover d ws hd hne

/-- A half-open window meets a range. -/
def meetsWindow (w : Word) (qStart qEnd : Int) : Bool :=
  decide ((packedToc.start w : Int) < qEnd ∧ qStart < packedToc.stop w)

theorem meetsWindow_neverUnderReports : NeverUnderReports packedToc meetsWindow := by
  intro w qStart qEnd t ⟨v, hv, hlo, hhi⟩ hstart hend
  rw [List.mem_singleton.mp hv] at hlo hhi
  exact decide_eq_true ⟨by omega, by omega⟩

def campaign : Word := PackedToc.runWord (5, 9)

/-- One shard of both sides, one of the carrier, one of the cover. -/
def sampleCarrier : Json :=
  .obj [("order", .num 4), (temporalKey, .obj [("spec", .str temporalCoverageSpec),
    ("shards", .obj [("11213", .num campaign), ("11214", .num campaign)])])]

def sampleBlocks : Fields :=
  [("11213", encodeCoverBlock [campaign] 18 18), ("11215", encodeCoverBlock [campaign] 18 18)]

def sampleCover : Json :=
  .obj [("spec", .str coverSpec), ("order", .num 4), ("shards", .obj sampleBlocks)]

theorem sample_sets : ∀ d ∈ sampleBlocks.map Prod.fst,
    coverSetOf (consultedCover sampleCarrier sampleCover) sampleBlocks d = .ok (some [campaign]) := by
  decide +kernel

/-- Every shard has one observation, at the start of the campaign. -/
def observedOnce (_ : String) (t : Nat) : Prop := t = 5 * 2 ^ 32

theorem observedOnce_covered {d : String} {t : Nat} (h : observedOnce d t) :
    packedToc.Covered [campaign] t := by
  rw [h]
  exact ⟨campaign, .head _, by decide, by decide⟩

theorem sample_declares : Declares packedToc observedOnce sampleCarrier sampleCover := by
  constructor
  · refine ⟨some [("11213", campaign), ("11214", campaign)], rfl, fun listed hlisted d w hlook => ?_⟩
    obtain rfl := Option.some.inj hlisted
    have hw : w = campaign := by
      rcases List.mem_cons.mp (mem_of_lookup hlook) with h | h
      · exact (Prod.mk.inj h).2
      · exact (Prod.mk.inj (List.mem_singleton.mp h)).2
    rw [hw]
    exact ⟨by decide, fun t ht => observedOnce_covered ht⟩
  · refine ⟨sampleBlocks, rfl, fun d hd => ⟨_, sample_sets d hd, fun ws hws _ t ht => ?_⟩⟩
    rw [← Option.some.inj hws]
    exact observedOnce_covered ht

theorem shardsOverlapping_answers_sample :
    ∃ words blocks, coverageToc sampleCarrier = .ok words ∧
      coverBlocks (consultedCover sampleCarrier sampleCover) = .ok blocks ∧
      (words = none ∧ consultedCover sampleCarrier sampleCover = none →
        shardsOverlapping meetsWindow 0 (2 ^ 40) sampleCarrier sampleCover = .ok none) ∧
      (¬(words = none ∧ consultedCover sampleCarrier sampleCover = none) →
        ∃ ids, shardsOverlapping meetsWindow 0 (2 ^ 40) sampleCarrier sampleCover = .ok (some ids) ∧
          Answers meetsWindow 0 (2 ^ 40) observedOnce (words.getD [])
            (consultedCover sampleCarrier sampleCover) blocks ids) :=
  shardsOverlapping_answers meetsWindow_neverUnderReports sample_declares 0 (2 ^ 40)

/-- Asked for `[0, 5 * 2 ^ 32]`, the query misses the shards observed at its very end, and selects
a shard of the cover none of whose words meets the window. -/
theorem candidate_selected_instant_missed :
    shardsOverlapping meetsWindow 0 (5 * 2 ^ 32) sampleCarrier sampleCover = .ok (some ["11215"]) ∧
      observedOnce "11214" (5 * 2 ^ 32) ∧
      coverSetOf (consultedCover sampleCarrier sampleCover) sampleBlocks "11215" =
        .ok (some [campaign]) ∧
      meetsWindow campaign 0 (5 * 2 ^ 32) = false :=
  ⟨by decide +kernel, rfl, sample_sets "11215" (.tail _ (.head _)), by decide⟩

end Zagg.Hive
