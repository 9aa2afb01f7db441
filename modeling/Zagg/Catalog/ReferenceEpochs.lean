import Zagg.Catalog.NearestAcquisition
import Zagg.Hive.CoverMerge
import Zagg.Hive.PackedToc
import Zagg.Lib.Collect
import Zagg.Lib.SortedSet
import Zagg.Lib.FirstOfRuns
import Zagg.Lib.Pointwise

/-!
# Reference epochs

The covers of the reference stores claim buckets of the time scale. A cover word is a run of
buckets; it is expanded back into them, and each bucket gives one epoch, its midpoint. The
epochs of a shard are the union over the stores, each with the finest order that claims it.
-/
namespace Zagg.Catalog.Epochs

open Zagg.Lib Zagg.Hive Zagg.Catalog.Nearest

/-- What the epochs call in `mortie`. -/
structure EpochCalls where
  toc : Toc
  toDatetime64 : Nat → Ns
  mortonWord : String → Except PyError Word

inductive EpochsError where
  | noStores
  | noCover (root : String) (cover : Json)
  | shardOrder (root : String) (order : Json)
  | mismatch (root : String) (storeOrder order : Int)
  | temporalOrder (root decimal : String) (raw : Json)
  | raised (e : PyError)

/-- `2 ** k // 2 - 1` nanoseconds into bucket `b`. -/
def midpoint (k b : Nat) : Nat := b * 2 ^ k + (2 ^ k / 2 - 1)

/-- `np.cumsum(counts) - counts`. -/
def cumOffsets (counts : List Nat) : List Int :=
  List.zipWith (fun (s n : Nat) => (s : Int) - n) (counts.scanl (· + ·) 0).tail counts

/-- The bucket runs of the words, expanded by repeat and arange. -/
def expanded (b0 counts : List Nat) : List Int :=
  let within := List.zipWith (fun (i : Nat) (o : Int) => (i : Int) - o) (List.range counts.sum)
    (repeats (cumOffsets counts) counts)
  List.zipWith (fun (b : Nat) (i : Int) => (b : Int) + i) (repeats b0 counts) within

/-- The buckets of the words, each once. -/
def wordBuckets (g : Toc) (k : Nat) (words : List Word) : List Nat :=
  let b0 := words.map fun w => (g.toc2time w).1 / 2 ^ k
  let b1 := words.map fun w => (max (g.toc2time w).2 ((g.toc2time w).1 + 1) - 1) / 2 ^ k
  let counts := List.zipWith (fun s e => e + 1 - s) b0 b1
  unique ((expanded b0 counts).map Int.toNat)

section Code
variable (calls : EpochCalls)

/-- `_word_midpoints`; numpy refuses the negative shift, and the negative half of a bucket of one
nanosecond. -/
def wordMidpoints (words : List Word) (order : Nat) : Except PyError (List Ns) :=
  if words.length = 0 then .ok []
  else if 62 < order then .error .overflowError
  else .ok ((wordBuckets calls.toc (63 - order) words).map fun b =>
    calls.toDatetime64 (min (midpoint (63 - order) b) calls.toc.maxNs))

/-- `_shard_order`. -/
def shardOrder (root : String) (cover : Fields) : Except EpochsError Int :=
  match (Json.item cover "order").bind Json.toInt with
  | .ok n => .ok n
  | .error e =>
    if e = .keyError ∨ e = .typeError ∨ e = .valueError then
      .error (.shardOrder root (Json.field cover "order"))
    else .error (.raised e)

/-- `cover_words`, with the blocks as they stand. -/
def coverWords (cover : Fields) : Except PyError (Int × List (String × Json × List Word)) := do
  let pinned ← objectPin cover
  let shards ← coverShards cover
  let decoded ← shards.mapM fun d => (decodeCoverBlock d.2 pinned).map fun r => (d.1, d.2, r.1)
  return (pinned, decoded)

/-- The effective order of a block: an integer that is not negative. A number carries no tag
here, so `18.0` is read as `18`, where the source refuses a float. -/
def effectiveOrder (root decimal : String) (pinned : Int) (block : Json) : Except EpochsError Nat :=
  let fields := match block with
    | .obj fields => fields
    | _ => []
  match getDefault fields "temporal_order" (.num pinned) with
  | .num q =>
    if q.den = 1 ∧ 0 ≤ q.num then .ok q.num.toNat else .error (.temporalOrder root decimal (.num q))
  | raw => .error (.temporalOrder root decimal raw)

/-- A claim of a block: its shard, its words and their order. -/
structure Block where
  shard : Word
  words : List Word
  order : Nat

/-- The checks on one block; an empty one is passed over. -/
def readBlock (root : String) (pinned : Int) (d : String × Json × List Word) :
    Except EpochsError (Option Block) :=
  if d.2.2.length = 0 then .ok none
  else do
    let effective ← effectiveOrder root d.1 pinned d.2.1
    let shard ← (calls.mortonWord d.1).mapError .raised
    return some ⟨shard, d.2.2, effective⟩

/-- A shard's midpoints from one block, with the order. -/
abbrev Part := Word × List Ns × Nat

/-- One round of the loop over a store's blocks. -/
def readPart (root : String) (pinned : Int) (d : String × Json × List Word) :
    Except EpochsError (Option Part) := do
  match ← readBlock calls root pinned d with
  | none => return none
  | some block =>
    let mids ← (wordMidpoints calls block.words block.order).mapError .raised
    return some (block.shard, mids, block.order)

/-- The dictionaries of the loop over the stores. -/
structure EpochState where
  order : Option Int
  midsByShard : List (Word × List (List Ns × Nat))
  orders : List (Word × Nat)

/-- `mids_by_shard.setdefault(shard, []).append(...)`, and the coarsest order. -/
def addPart (s : EpochState) (part : Part) : EpochState where
  order := s.order
  midsByShard := extendAt part.1 [part.2] s.midsByShard
  orders := put part.1 (min ((s.orders.lookup part.1).getD part.2.2) part.2.2) s.orders

/-- All stores cover one shard order. -/
def checkOrder (root : String) (storeOrder : Int) : Option Int → Except EpochsError Unit
  | none => .ok ()
  | some order => if storeOrder ≠ order then .error (.mismatch root storeOrder order) else .ok ()

/-- One round of the loop over the stores; `null` is an absent object. -/
def addStore (s : EpochState) (store : String × Json) : Except EpochsError EpochState :=
  match coverUsable store.2 with
  | none => .error (.noCover store.1 store.2)
  | some cover => do
    let storeOrder ← shardOrder store.1 cover
    checkOrder store.1 storeOrder s.order
    let decoded ← (coverWords cover).mapError .raised
    let parts ← decoded.2.mapM (readPart calls store.1 decoded.1)
    return (parts.filterMap id).foldl addPart { s with order := some storeOrder }

/-- The order of `np.lexsort((-ords, mids))`. -/
def Earlier (a b : Ns × Nat) : Prop := a.1.toInt < b.1.toInt ∨ a.1.toInt = b.1.toInt ∧ b.2 ≤ a.2

instance : DecidableRel Earlier := fun a b =>
  inferInstanceAs (Decidable (a.1.toInt < b.1.toInt ∨ a.1.toInt = b.1.toInt ∧ b.2 ≤ a.2))

/-- The parts of one shard, row by row. -/
def partRows (parts : List (List Ns × Nat)) : List (Ns × Nat) :=
  parts.flatMap fun p => p.1.map fun m => (m, p.2)

/-- The epochs of one shard, each with its finest order. -/
def shardRows (parts : List (List Ns × Nat)) : List (Ns × Nat) :=
  firstRows (fun r : Ns × Nat => r.1.toInt) Earlier (partRows parts)

structure RawEpochs where
  order : Int
  epochs : List (Word × List Ns)
  stores : List String
  orders : List (Word × Nat)
  epochOrders : List (Word × List Nat)

/-- The epochs of the shards that are kept. -/
def keptRows (keep : Option (List Word)) (midsByShard : List (Word × List (List Ns × Nat))) :
    List (Word × List (Ns × Nat)) :=
  let shards := (midsByShard.map Prod.fst).insertionSort (· ≤ ·)
  let kept := shards.filter fun shard => ∀ words ∈ keep, shard ∈ words
  (readIn kept midsByShard).filterMap fun e =>
    let rows := shardRows e.2
    if rows.length = 0 then none else some (e.1, rows)

/-- `reference_epochs`; `aoiShards` resolves the AOI to shards at the covers' order. -/
def referenceEpochs (stores : List (String × Json)) (aoiShards : Int → Option (List Word)) :
    Except EpochsError RawEpochs := do
  if stores.length = 0 then throw .noStores
  let s ← stores.foldlM (addStore calls) ⟨none, [], []⟩
  let order := s.order.getD 0
  let rows := keptRows (aoiShards order) s.midsByShard
  return {
    order := order
    epochs := rows.map fun e => (e.1, e.2.map Prod.fst)
    stores := stores.map Prod.fst
    orders := s.orders.filter fun e => e.1 ∈ rows.map Prod.fst
    epochOrders := rows.map fun e => (e.1, e.2.map Prod.snd) }

end Code
section Buckets

/-- The expansion lists every word's own run of buckets. -/
theorem expanded_eq {b0 counts : List Nat} (h : b0.length = counts.length) :
    expanded b0 counts =
      ((b0.zip counts).flatMap fun r => List.range' r.1 r.2).map (Nat.cast : Nat → Int) := by
  have key : ∀ (b0 counts : List Nat) (c : Nat), b0.length = counts.length →
      List.zipWith (fun (b : Nat) (i : Int) => (b : Int) + i) (repeats b0 counts)
        (List.zipWith (fun (i : Nat) (o : Int) => (i : Int) - o) (List.range' c counts.sum)
          (repeats (List.zipWith (fun (s n : Nat) => (s : Int) - n) (counts.scanl (· + ·) c).tail counts)
            counts)) =
      ((b0.zip counts).flatMap fun r => List.range' r.1 r.2).map (Nat.cast : Nat → Int) := by
    intro b0 counts
    induction counts generalizing b0 with
    | nil =>
      intro c h
      rw [List.eq_nil_of_length_eq_zero h]
      rfl
    | cons n counts ih =>
      intro c h
      cases b0 with
      | nil => cases h
      | cons b b0 =>
        have htail := ih b0 (c + n) (Nat.succ.inj h)
        have hscan : (List.scanl (· + ·) c (n :: counts)).tail =
            (c + n) :: (List.scanl (· + ·) (c + n) counts).tail := by
          rw [List.scanl_cons, List.tail_cons]
          cases counts with
          | nil =>
            rw [List.scanl_nil]
            rfl
          | cons m counts => rw [List.scanl_cons, List.tail_cons]
        have hfirst : ((c + n : Nat) : Int) - (n : Int) = c := by omega
        have hsplit : List.range' c (n :: counts).sum =
            List.range' c n ++ List.range' (c + n) counts.sum := by
          rw [List.sum_cons, ← List.range'_append_1]
        have hrun : List.zipWith (fun (b : Nat) (i : Int) => (b : Int) + i) (List.replicate n b)
            (List.zipWith (fun (i : Nat) (o : Int) => (i : Int) - o) (List.range' c n)
              (List.replicate n (c : Int))) = (List.range' b n).map (Nat.cast : Nat → Int) := by
          apply List.ext_getElem
          · simp
          · intro i h1 h2
            simp only [List.getElem_zipWith, List.getElem_replicate, List.getElem_range',
              List.getElem_map]
            omega
        rw [hscan, List.zipWith_cons_cons, hfirst, repeats_cons, repeats_cons, hsplit,
          List.zipWith_append (by simp), List.zipWith_append (by simp), hrun, htail,
          List.zip_cons_cons, List.flatMap_cons, List.map_append]
  have h0 := key b0 counts 0 h
  rw [← List.range_eq_range'] at h0
  exact h0

/-- The words' buckets are those they meet. -/
theorem mem_wordBuckets {g : Toc} {k : Nat} {words : List Word} {b : Nat} :
    b ∈ wordBuckets g k words ↔ g.Meets k words b := by
  have hzip : ∀ words : List Word, (words.map fun w => (g.toc2time w).1 / 2 ^ k).zip
      (List.zipWith (fun s e => e + 1 - s) (words.map fun w => (g.toc2time w).1 / 2 ^ k)
        (words.map fun w => (max (g.toc2time w).2 ((g.toc2time w).1 + 1) - 1) / 2 ^ k)) =
      words.map fun w => (g.start w / 2 ^ k, (g.stop w - 1) / 2 ^ k + 1 - g.start w / 2 ^ k) := by
    intro words
    induction words with
    | nil => rfl
    | cons w words ih =>
      rw [List.map_cons, List.map_cons, List.zipWith_cons_cons, List.zip_cons_cons, ih]
      rfl
  have hcast : ((Int.toNat) ∘ (Nat.cast : Nat → Int)) = id := rfl
  rw [wordBuckets, mem_unique, expanded_eq (by simp), List.map_map, hcast, List.map_id, hzip,
    List.flatMap_map, List.mem_flatMap, Toc.Meets]
  constructor
  · rintro ⟨w, hw, hb⟩
    rw [List.mem_range'_1] at hb
    obtain ⟨t, h1, h2, h3⟩ := (exists_in_bucket (Toc.start_lt_stop (g := g) w)).mpr
      ⟨hb.1, by omega⟩
    exact ⟨t, ⟨w, hw, h1, h2⟩, h3⟩
  · rintro ⟨t, ⟨w, hw, h1, h2⟩, h3⟩
    obtain ⟨hlo, hhi⟩ := (exists_in_bucket (Toc.start_lt_stop (g := g) w)).mp ⟨t, h1, h2, h3⟩
    refine ⟨w, hw, ?_⟩
    rw [List.mem_range'_1]
    omega

end Buckets
section Stores
variable (calls : EpochCalls)

/-- The blocks of a store whose cover the code accepts. -/
def storeBlocks (store : String × Json) (n : Int) (blocks : List Block) : Prop :=
  ∃ cover decoded read, coverUsable store.2 = some cover ∧ shardOrder store.1 cover = .ok n ∧
    coverWords cover = .ok decoded ∧ decoded.2.mapM (readBlock calls store.1 decoded.1) = .ok read ∧
    read.filterMap id = blocks

/-- A store with a cover at shard order `n`, of buckets that have a midpoint, none of which
reaches the ceiling. -/
structure WellFormed (n : Int) (store : String × Json) (blocks : List Block) : Prop where
  accepted : storeBlocks calls store n blocks
  order_le : ∀ block ∈ blocks, block.order ≤ 62
  below : ∀ block ∈ blocks, ∀ b, calls.toc.Meets (63 - block.order) block.words b →
    midpoint (63 - block.order) b ≤ calls.toc.maxNs

/-- The bucket `b` of order `o` is claimed for a shard. -/
def Claims (blocks : List Block) (shard : Word) (o b : Nat) : Prop :=
  ∃ block ∈ blocks, block.shard = shard ∧ block.order = o ∧ calls.toc.Meets (63 - o) block.words b

/-- The epoch of a bucket. -/
def epochOf (o b : Nat) : Ns := calls.toDatetime64 (midpoint (63 - o) b)

end Stores

section Parts
variable {calls : EpochCalls} {n : Int}

/-- The part a block becomes. -/
def partOf (calls : EpochCalls) (block : Block) : Part :=
  (block.shard, (wordBuckets calls.toc (63 - block.order) block.words).map fun b =>
    calls.toDatetime64 (min (midpoint (63 - block.order) b) calls.toc.maxNs), block.order)

theorem readBlock_words {root : String} {pinned : Int} {d : String × Json × List Word} {block : Block}
    (h : readBlock calls root pinned d = .ok (some block)) : block.words ≠ [] := by
  unfold readBlock at h
  split_ifs at h with hlen
  · cases h
  · obtain ⟨effective, -, h⟩ := bind_ok h
    obtain ⟨shard, -, h⟩ := bind_ok h
    obtain rfl := Option.some.inj (Except.ok.inj h)
    exact fun hnil => hlen (List.length_eq_zero_iff.mpr hnil)

theorem readPart_eq {root : String} {pinned : Int} {d : String × Json × List Word} {r : Option Block}
    (h : readBlock calls root pinned d = .ok r) (horder : ∀ block ∈ r, block.order ≤ 62) :
    readPart calls root pinned d = .ok (r.map (partOf calls)) := by
  rw [readPart, h]
  cases r with
  | none => rfl
  | some block =>
    have hmids : wordMidpoints calls block.words block.order = .ok (partOf calls block).2.1 := by
      rw [wordMidpoints, if_neg, if_neg (not_lt.mpr (horder block rfl))]
      · rfl
      · exact fun hlen => readBlock_words h (List.eq_nil_of_length_eq_zero hlen)
    show ((wordMidpoints calls block.words block.order).mapError _).bind _ = _
    rw [hmids]
    rfl

theorem mapM_readPart {root : String} {pinned : Int} {ds : List (String × Json × List Word)}
    {read : List (Option Block)} (h : ds.mapM (readBlock calls root pinned) = .ok read)
    (horder : ∀ block ∈ read.filterMap id, block.order ≤ 62) :
    ∃ parts, ds.mapM (readPart calls root pinned) = .ok parts ∧
      parts.filterMap id = (read.filterMap id).map (partOf calls) := by
  induction ds generalizing read with
  | nil =>
    obtain rfl := Except.ok.inj h
    exact ⟨[], rfl, rfl⟩
  | cons d ds ih =>
    rw [List.mapM_cons] at h
    obtain ⟨r, hr, h⟩ := bind_ok h
    obtain ⟨rs, hrs, h⟩ := bind_ok h
    obtain rfl := Except.ok.inj h
    have hhead : ∀ block ∈ r, block.order ≤ 62 := fun block hb =>
      horder block (List.mem_filterMap.mpr ⟨r, .head _, hb⟩)
    have htail : ∀ block ∈ rs.filterMap id, block.order ≤ 62 := by
      intro block hb
      obtain ⟨x, hx, hxb⟩ := List.mem_filterMap.mp hb
      exact horder block (List.mem_filterMap.mpr ⟨x, .tail _ hx, hxb⟩)
    obtain ⟨parts, hparts, hfilter⟩ := ih hrs htail
    refine ⟨r.map (partOf calls) :: parts, ?_, ?_⟩
    · rw [List.mapM_cons, readPart_eq hr hhead, hparts]
      rfl
    · cases r with
      | none => exact hfilter
      | some block => exact congrArg (partOf calls block :: ·) hfilter

/-- A store adds the parts of its blocks. -/
theorem addStore_eq {store : String × Json} {blocks : List Block} (h : storeBlocks calls store n blocks)
    (horder : ∀ block ∈ blocks, block.order ≤ 62) {s : EpochState} (hs : s.order = none ∨ s.order = some n) :
    addStore calls s store =
      .ok ((blocks.map (partOf calls)).foldl addPart { s with order := some n }) := by
  obtain ⟨cover, decoded, read, husable, hshard, hwords, hread, rfl⟩ := h
  obtain ⟨parts, hparts, hfilter⟩ := mapM_readPart hread horder
  have hcheck : checkOrder store.1 n s.order = .ok () := by
    rcases hs with hs | hs
    · rw [hs]
      rfl
    · rw [hs, checkOrder, if_neg (not_not_intro rfl)]
  rw [addStore, husable]
  dsimp only
  rw [hshard, hwords]
  show (checkOrder store.1 n s.order).bind (fun _ =>
    (decoded.2.mapM (readPart calls store.1 decoded.1)).bind _) = _
  rw [hcheck, hparts, ← hfilter]
  rfl

theorem order_foldl_addPart (parts : List Part) (s : EpochState) :
    (parts.foldl addPart s).order = s.order := by
  induction parts generalizing s with
  | nil => rfl
  | cons part parts ih => exact ih _

/-- The loop over accepted stores adds up the parts of all their blocks. -/
theorem foldlM_addStore {stores : List (String × Json)} {blockss : List (List Block)}
    (h : List.Forall₂ (WellFormed calls n) stores blockss) (hne : stores ≠ []) :
    stores.foldlM (addStore calls) ⟨none, [], []⟩ =
      .ok ((blockss.flatten.map (partOf calls)).foldl addPart ⟨some n, [], []⟩) := by
  have hrest : ∀ {stores : List (String × Json)} {blockss : List (List Block)},
      List.Forall₂ (WellFormed calls n) stores blockss → ∀ s : EpochState, s.order = some n →
      stores.foldlM (addStore calls) s = .ok ((blockss.flatten.map (partOf calls)).foldl addPart s) := by
    intro stores blockss h
    induction h with
    | nil => exact fun _ _ => rfl
    | @cons store blocks stores blockss hstore _ ih =>
      intro s hs
      have hsame : { s with order := some n } = s := by rw [← hs]
      rw [List.foldlM_cons, addStore_eq hstore.accepted hstore.order_le (.inr hs), hsame]
      show List.foldlM _ _ _ = _
      rw [ih _ ((order_foldl_addPart _ _).trans hs), List.flatten_cons, List.map_append, List.foldl_append]
  cases h with
  | nil => exact absurd rfl hne
  | @cons store blocks stores blockss hstore hstores =>
    rw [List.foldlM_cons, addStore_eq hstore.accepted hstore.order_le (.inl rfl)]
    show List.foldlM _ _ _ = _
    rw [hrest hstores _ (order_foldl_addPart _ _), List.flatten_cons, List.map_append, List.foldl_append]

/-- The dictionary of the midpoints collects the parts by shard. -/
theorem midsByShard_foldl (parts : List Part) (n : Option Int) :
    (parts.foldl addPart ⟨n, [], []⟩).midsByShard = collect (parts.map fun p => (p.1, [p.2])) := by
  induction parts using List.reverseRecOn with
  | nil => rfl
  | append_singleton parts part ih =>
    rw [List.foldl_append, List.map_append, List.map_singleton, collect_concat, ← ih]
    rfl

/-- The order recorded for a shard is the coarsest of its parts. -/
theorem lookup_orders_foldl (parts : List Part) (n : Option Int) (shard : Word) :
    (parts.foldl addPart ⟨n, [], []⟩).orders.lookup shard =
      ((parts.filter fun p => p.1 = shard).map fun p => p.2.2).min? := by
  induction parts using List.reverseRecOn with
  | nil => rfl
  | append_singleton parts part ih =>
    rw [List.foldl_append, List.foldl_cons, List.foldl_nil, addPart, lookup_put, List.filter_append,
      List.map_append]
    split_ifs with h
    · have hown : [part].filter (fun p => decide (p.1 = shard)) = [part] := by simp [h]
      rw [hown, List.map_singleton, min?_concat, ← ih, ← h]
    · have hnone : [part].filter (fun p => decide (p.1 = shard)) = [] := by simp [Ne.symm h]
      rw [hnone, List.map_nil, List.append_nil]
      exact ih

theorem storeBlocks_words {store : String × Json} {blocks : List Block} (h : storeBlocks calls store n blocks)
    {block : Block} (hb : block ∈ blocks) : block.words ≠ [] := by
  obtain ⟨cover, decoded, read, -, -, -, hread, rfl⟩ := h
  obtain ⟨r, hr, hrb⟩ := List.mem_filterMap.mp hb
  obtain ⟨d, -, hd⟩ := forall₂_exists_of_mem_right (forall₂_mapM hread) hr
  obtain rfl : r = some block := hrb
  exact readBlock_words hd

end Parts

section Rows
variable {calls : EpochCalls} {blocks : List Block} {shard : Word}

/-- Every block claims something, and no midpoint reaches the ceiling. -/
structure Proper (calls : EpochCalls) (blocks : List Block) : Prop where
  words : ∀ block ∈ blocks, block.words ≠ []
  below : ∀ shard o b, Claims calls blocks shard o b → midpoint (63 - o) b ≤ calls.toc.maxNs

theorem proper_of_wellFormed {n : Int} {stores : List (String × Json)}
    {blockss : List (List Block)} (h : List.Forall₂ (WellFormed calls n) stores blockss) :
    Proper calls blockss.flatten ∧ ∀ block ∈ blockss.flatten, block.order ≤ 62 := by
  have hstore : ∀ block ∈ blockss.flatten, ∃ store, ∃ blocks, WellFormed calls n store blocks ∧
      block ∈ blocks := by
    intro block hb
    obtain ⟨blocks, hblocks, hb⟩ := List.mem_flatten.mp hb
    obtain ⟨store, -, hwf⟩ := forall₂_exists_of_mem_right h hblocks
    exact ⟨store, blocks, hwf, hb⟩
  refine ⟨⟨fun block hb => ?_, fun shard o b hclaims => ?_⟩, fun block hb => ?_⟩
  · obtain ⟨store, blocks, hwf, hb⟩ := hstore block hb
    exact storeBlocks_words hwf.accepted hb
  · obtain ⟨block, hb, -, rfl, hmeets⟩ := hclaims
    obtain ⟨store, blocks, hwf, hb⟩ := hstore block hb
    exact hwf.below block hb b hmeets
  · obtain ⟨store, blocks, hwf, hb⟩ := hstore block hb
    exact hwf.order_le block hb

/-- The parts of one shard. -/
def partsOf (calls : EpochCalls) (blocks : List Block) (shard : Word) : List (List Ns × Nat) :=
  ((blocks.filter fun block => block.shard = shard).map (partOf calls)).map Prod.snd

theorem mem_partRows (h : Proper calls blocks) {m : Ns} {o : Nat} :
    (m, o) ∈ partRows (partsOf calls blocks shard) ↔
      ∃ b, Claims calls blocks shard o b ∧ m = epochOf calls o b := by
  rw [partRows, partsOf, List.flatMap_map, List.flatMap_map, List.mem_flatMap]
  constructor
  · rintro ⟨block, hblock, hrow⟩
    obtain ⟨hblock, hshard⟩ := List.mem_filter.mp hblock
    obtain ⟨m', hm', heq⟩ := List.mem_map.mp hrow
    obtain ⟨rfl, rfl⟩ := Prod.mk.inj heq
    obtain ⟨b, hb, rfl⟩ := List.mem_map.mp hm'
    have hclaims : Claims calls blocks shard block.order b :=
      ⟨block, hblock, of_decide_eq_true hshard, rfl, mem_wordBuckets.mp hb⟩
    refine ⟨b, hclaims, ?_⟩
    rw [min_eq_left (h.below shard block.order b hclaims)]
    rfl
  · rintro ⟨b, hclaims, rfl⟩
    obtain ⟨block, hblock, hshard, rfl, hmeets⟩ := hclaims
    refine ⟨block, List.mem_filter.mpr ⟨hblock, decide_eq_true hshard⟩, List.mem_map.mpr ⟨_, ?_, rfl⟩⟩
    refine List.mem_map.mpr ⟨b, mem_wordBuckets.mpr hmeets, ?_⟩
    rw [min_eq_left (h.below shard block.order b ⟨block, hblock, hshard, rfl, hmeets⟩)]
    rfl

instance : Std.Total Earlier := ⟨fun a b => by
  unfold Earlier
  omega⟩

instance : IsTrans (Ns × Nat) Earlier := ⟨fun a b c hab hbc => by
  unfold Earlier at *
  omega⟩

instance : Std.Antisymm Earlier := ⟨fun a b hab hba => by
  unfold Earlier at hab hba
  have hmid : a.1 = b.1 := BitVec.eq_of_toInt_eq (by omega)
  have hord : a.2 = b.2 := by omega
  exact Prod.ext hmid hord⟩

theorem toInt_le_of_earlier (a b : Ns × Nat) (h : Earlier a b) : a.1.toInt ≤ b.1.toInt := by
  unfold Earlier at h
  omega

/-- A row of a shard: an epoch with the finest order that claims it. -/
theorem mem_shardRows (h : Proper calls blocks) {m : Ns} {o : Nat} :
    (m, o) ∈ shardRows (partsOf calls blocks shard) ↔
      (∃ b, Claims calls blocks shard o b ∧ m = epochOf calls o b) ∧
        ∀ o' b', Claims calls blocks shard o' b' → epochOf calls o' b' = m → o' ≤ o := by
  rw [shardRows, mem_firstRows toInt_le_of_earlier, mem_partRows h]
  refine and_congr_right fun _ => ⟨fun hfirst o' b' hclaims heq => ?_, fun hfinest r hr hkey => ?_⟩
  · have hrow : Earlier (m, o) (m, o') := hfirst (m, o') ((mem_partRows h).mpr ⟨b', hclaims, heq.symm⟩) rfl
    rcases hrow with hlt | ⟨-, hle⟩
    · exact absurd hlt (lt_irrefl _)
    · exact hle
  · obtain ⟨b', hclaims, heq⟩ := (mem_partRows h).mp (show (r.1, r.2) ∈ _ from hr)
    have hmid : r.1 = m := BitVec.eq_of_toInt_eq hkey
    have hle := hfinest r.2 b' hclaims (heq.symm.trans hmid)
    exact .inr ⟨hkey.symm, hle⟩

/-- A block claims the bucket of its first word's start. -/
theorem exists_claim (h : Proper calls blocks) {block : Block} (hb : block ∈ blocks) :
    ∃ b, Claims calls blocks block.shard block.order b := by
  obtain ⟨w, hw⟩ := List.exists_mem_of_ne_nil _ (h.words block hb)
  exact ⟨_, block, hb, rfl, rfl, _, Toc.covered_start hw, rfl⟩

/-- Every claimed bucket has its epoch, perhaps under a finer order. -/
theorem exists_row (h : Proper calls blocks) {o b : Nat} (hclaims : Claims calls blocks shard o b) :
    ∃ o', (epochOf calls o b, o') ∈ shardRows (partsOf calls blocks shard) := by
  obtain ⟨r, hr, hkey⟩ : ∃ r ∈ shardRows (partsOf calls blocks shard), r.1.toInt = _ :=
    exists_firstRow ((mem_partRows h).mpr ⟨b, hclaims, rfl⟩)
  exact ⟨r.2, (BitVec.eq_of_toInt_eq hkey : r.1 = epochOf calls o b) ▸ hr⟩

/-- The shards that are kept, in order. -/
def keptShards (keep : Option (List Word)) (blocks : List Block) : List Word :=
  (sortedSet (blocks.map Block.shard)).filter fun shard => ∀ words ∈ keep, shard ∈ words

theorem keptRows_eq (h : Proper calls blocks) (keep : Option (List Word)) :
    keptRows keep (collect ((blocks.map (partOf calls)).map fun p => (p.1, [p.2]))) =
      (keptShards keep blocks).map fun shard => (shard, shardRows (partsOf calls blocks shard)) := by
  have hkeys : ((collect ((blocks.map (partOf calls)).map fun p => (p.1, [p.2]))).map Prod.fst).insertionSort
      (· ≤ ·) = sortedSet (blocks.map Block.shard) := by
    apply eq_sortedSet
    · exact (List.perm_insertionSort _ _).nodup_iff.mpr (nodup_collect _)
    · exact List.pairwise_insertionSort _ _
    · intro shard
      rw [(List.perm_insertionSort _ _).mem_iff, mem_keys_collect, List.map_map, List.map_map]
      rfl
  have hmem : ∀ shard ∈ keptShards keep blocks, shard ∈ blocks.map Block.shard := by
    intro shard hs
    exact mem_sortedSet.mp (List.mem_filter.mp hs).1
  have hlookup : ∀ shard ∈ keptShards keep blocks,
      ((collect ((blocks.map (partOf calls)).map fun p => (p.1, [p.2]))).lookup shard).map
        (fun v => (shard, v)) = some (shard, partsOf calls blocks shard) := by
    intro shard hs
    have hin : shard ∈ ((blocks.map (partOf calls)).map fun p => (p.1, [p.2])).map Prod.fst := by
      rw [List.map_map, List.map_map]
      exact hmem shard hs
    rw [lookup_collect, if_pos hin, List.filter_map, List.flatMap_map, List.filter_map, partsOf,
      ← List.map_eq_flatMap]
    rfl
  have hnonempty : ∀ shard ∈ keptShards keep blocks, (shardRows (partsOf calls blocks shard)).length ≠ 0 := by
    intro shard hs
    obtain ⟨block, hb, rfl⟩ := List.mem_map.mp (hmem shard hs)
    obtain ⟨b, hclaims⟩ := exists_claim h hb
    obtain ⟨o, hrow⟩ := exists_row h hclaims
    exact fun hzero => List.not_mem_nil (List.eq_nil_of_length_eq_zero hzero ▸ hrow)
  have hread : readIn (keptShards keep blocks)
      (collect ((blocks.map (partOf calls)).map fun p => (p.1, [p.2]))) =
      (keptShards keep blocks).map fun shard => (shard, partsOf calls blocks shard) := by
    rw [readIn, List.filterMap_congr hlookup, ← List.filterMap_eq_map]
    rfl
  rw [keptRows, hkeys]
  show List.filterMap _ (readIn (keptShards keep blocks) _) = _
  rw [hread, List.filterMap_map, ← List.filterMap_eq_map]
  exact List.filterMap_congr fun shard hs => if_neg (hnonempty shard hs)

end Rows
section Whole
variable {calls : EpochCalls} {n : Int} {stores : List (String × Json)} {blockss : List (List Block)}
  {aoiShards : Int → Option (List Word)}

/-- What the builder returns for the claims of some blocks. -/
def epochsOf (calls : EpochCalls) (n : Int) (stores : List String) (keep : Option (List Word))
    (blocks : List Block) : RawEpochs where
  order := n
  epochs := (keptShards keep blocks).map fun shard =>
    (shard, (shardRows (partsOf calls blocks shard)).map Prod.fst)
  stores := stores
  orders := ((blocks.map (partOf calls)).foldl addPart ⟨some n, [], []⟩).orders.filter fun e =>
    e.1 ∈ keptShards keep blocks
  epochOrders := (keptShards keep blocks).map fun shard =>
    (shard, (shardRows (partsOf calls blocks shard)).map Prod.snd)

theorem referenceEpochs_eq (h : List.Forall₂ (WellFormed calls n) stores blockss) (hne : stores ≠ []) :
    referenceEpochs calls stores aoiShards =
      .ok (epochsOf calls n (stores.map Prod.fst) (aoiShards n) blockss.flatten) := by
  have hlen : ¬stores.length = 0 := fun hzero => hne (List.eq_nil_of_length_eq_zero hzero)
  have hrows := keptRows_eq (proper_of_wellFormed h).1 (aoiShards n)
  have hkeys : (keptRows (aoiShards n) (collect ((blockss.flatten.map (partOf calls)).map
      fun p => (p.1, [p.2])))).map Prod.fst = keptShards (aoiShards n) blockss.flatten := by
    rw [hrows, List.map_map]
    exact List.map_id _
  rw [referenceEpochs, if_neg hlen, foldlM_addStore h hne]
  show Except.ok _ = Except.ok _
  congr 1
  rw [order_foldl_addPart, Option.getD_some, midsByShard_foldl, hkeys, hrows, List.map_map, List.map_map]
  rfl

theorem Claims.congr_shards {blocks blocks' : List Block} (h : Proper calls blocks)
    (hclaims : ∀ shard o b, Claims calls blocks shard o b → Claims calls blocks' shard o b) {shard : Word}
    (hs : shard ∈ blocks.map Block.shard) : shard ∈ blocks'.map Block.shard := by
  obtain ⟨block, hb, rfl⟩ := List.mem_map.mp hs
  obtain ⟨b, hclaim⟩ := exists_claim h hb
  obtain ⟨block', hb', hshard, -⟩ := hclaims _ _ _ hclaim
  exact List.mem_map.mpr ⟨block', hb', hshard⟩

theorem mem_orders (h : Proper calls blockss.flatten) {shard : Word} {o : Nat} :
    o ∈ ((blockss.flatten.map (partOf calls)).filter fun p => p.1 = shard).map (fun p => p.2.2) ↔
      ∃ b, Claims calls blockss.flatten shard o b := by
  rw [List.mem_map]
  constructor
  · rintro ⟨p, hp, rfl⟩
    obtain ⟨hp, hshard⟩ := List.mem_filter.mp hp
    obtain ⟨block, hb, rfl⟩ := List.mem_map.mp hp
    obtain ⟨b, hclaim⟩ := exists_claim h hb
    exact ⟨b, of_decide_eq_true hshard ▸ hclaim⟩
  · rintro ⟨b, block, hb, hshard, rfl, -⟩
    exact ⟨partOf calls block, List.mem_filter.mpr ⟨List.mem_map_of_mem hb, decide_eq_true hshard⟩, rfl⟩

/-- The same claims give the same epochs. -/
theorem epochsOf_congr {blockss' : List (List Block)} (h : Proper calls blockss.flatten)
    (h' : Proper calls blockss'.flatten)
    (hclaims : ∀ shard o b, Claims calls blockss.flatten shard o b ↔ Claims calls blockss'.flatten shard o b)
    (roots roots' : List String) (keep : Option (List Word)) :
    let r := epochsOf calls n roots keep blockss.flatten
    let r' := epochsOf calls n roots' keep blockss'.flatten
    r'.epochs = r.epochs ∧ r'.epochOrders = r.epochOrders ∧
      ∀ shard, r'.orders.lookup shard = r.orders.lookup shard := by
  have hshards : keptShards keep blockss'.flatten = keptShards keep blockss.flatten := by
    rw [keptShards, keptShards]
    congr 1
    apply sortedSet_congr
    intro shard
    exact ⟨Claims.congr_shards h' fun shard o b => (hclaims shard o b).mpr,
      Claims.congr_shards h fun shard o b => (hclaims shard o b).mp⟩
  have hrows : ∀ shard, shardRows (partsOf calls blockss'.flatten shard) =
      shardRows (partsOf calls blockss.flatten shard) := by
    intro shard
    apply firstRows_congr toInt_le_of_earlier
    rintro ⟨m, o⟩
    rw [mem_partRows h', mem_partRows h]
    exact exists_congr fun b => and_congr_left fun _ => (hclaims shard o b).symm
  refine ⟨?_, ?_, fun shard => ?_⟩
  · simp only [epochsOf, hshards, hrows]
  · simp only [epochsOf, hshards, hrows]
  · simp only [epochsOf, lookup_filter_mem, hshards, lookup_orders_foldl]
    congr 1
    apply min?_congr
    intro o
    rw [mem_orders h, mem_orders h']
    exact exists_congr fun b => (hclaims shard o b).symm

/-- Every instant of a bucket lies within half a bucket of its midpoint. -/
theorem midpoint_near {o b t : Nat} (ho : o ≤ 62) (h : t / 2 ^ (63 - o) = b) :
    ((t : Int) - midpoint (63 - o) b).natAbs ≤ 2 ^ (62 - o) := by
  have hpow : 2 ^ (63 - o) = 2 * 2 ^ (62 - o) := by
    rw [← Nat.pow_succ']
    congr 1
    omega
  have hpos : 0 < 2 ^ (62 - o) := Nat.two_pow_pos _
  have hdiv := Nat.div_add_mod t (2 ^ (63 - o))
  have hmod := Nat.mod_lt t (Nat.two_pow_pos (63 - o))
  rw [h, Nat.mul_comm] at hdiv
  rw [midpoint]
  generalize b * 2 ^ (63 - o) = start at hdiv
  rw [hpow] at hmod hdiv ⊢
  omega

theorem mem_keptShards (h : Proper calls blockss.flatten) {keep : Option (List Word)} {shard : Word} :
    shard ∈ keptShards keep blockss.flatten ↔
      (∃ o b, Claims calls blockss.flatten shard o b) ∧ ∀ words ∈ keep, shard ∈ words := by
  rw [keptShards, List.mem_filter, mem_sortedSet, List.mem_map]
  apply and_congr
  · constructor
    · rintro ⟨block, hb, rfl⟩
      exact ⟨block.order, exists_claim h hb⟩
    · rintro ⟨o, b, block, hb, hshard, -⟩
      exact ⟨block, hb, hshard⟩
  · exact decide_eq_true_iff

/-- The stores in another order make the same claims. -/
theorem claims_of_perm {blockss' : List (List Block)} (h : blockss.Perm blockss') (shard : Word) (o b : Nat) :
    Claims calls blockss.flatten shard o b ↔ Claims calls blockss'.flatten shard o b :=
  exists_congr fun _ => and_congr_left fun _ => h.flatten.mem_iff

/-- Stores with other words for the same buckets make the same claims. -/
theorem claims_of_reencoded {blockss' : List (List Block)}
    (h : List.Forall₂ (fun blocks blocks' => ∀ shard o b,
      Claims calls blocks shard o b ↔ Claims calls blocks' shard o b) blockss blockss')
    (shard : Word) (o b : Nat) :
    Claims calls blockss.flatten shard o b ↔ Claims calls blockss'.flatten shard o b := by
  have happend : ∀ l l' : List Block, Claims calls (l ++ l') shard o b ↔
      Claims calls l shard o b ∨ Claims calls l' shard o b := by
    intro l l'
    simp only [Claims, List.mem_append, or_and_right, exists_or]
  induction h with
  | nil => exact Iff.rfl
  | cons hblocks _ ih =>
    rw [List.flatten_cons, List.flatten_cons, happend, happend]
    exact or_congr (hblocks shard o b) ih

end Whole

section Canonical
variable {calls : EpochCalls} {n : Int} {stores : List (String × Json)} {blockss : List (List Block)}
  {aoiShards : Int → Option (List Word)}

def sampleCalls : EpochCalls := ⟨packedToc, BitVec.ofNat 64, fun _ => .ok 5⟩

/-- A cover of one shard at the pinned order. -/
def sampleCover (words : List Word) : Json :=
  .obj [("spec", .str coverSpec), ("order", .num 8), ("temporal_order", .num 18),
    ("shards", .obj [("11", encodeCoverBlock words 18 18)])]

/-- The first three buckets, as one run and as two. -/
def oneRun : List Word := [PackedToc.runWord (0, 3 * 2 ^ 13 - 1)]
def twoRuns : List Word := [PackedToc.runWord (0, 2 ^ 13 - 1), PackedToc.runWord (2 ^ 13, 3 * 2 ^ 13 - 1)]

theorem covered_oneRun (t : Nat) : packedToc.Covered oneRun t ↔ t < 3 * 2 ^ 45 := by
  have hstart : packedToc.start (PackedToc.runWord (0, 3 * 2 ^ 13 - 1)) = 0 := by decide
  have hstop : packedToc.stop (PackedToc.runWord (0, 3 * 2 ^ 13 - 1)) = 3 * 2 ^ 45 := by decide
  simp only [Toc.Covered, oneRun, List.mem_singleton, exists_eq_left, hstart, hstop]
  omega

theorem covered_twoRuns (t : Nat) : packedToc.Covered twoRuns t ↔ t < 3 * 2 ^ 45 := by
  have h1 : packedToc.start (PackedToc.runWord (0, 2 ^ 13 - 1)) = 0 := by decide
  have h2 : packedToc.stop (PackedToc.runWord (0, 2 ^ 13 - 1)) = 2 ^ 45 := by decide
  have h3 : packedToc.start (PackedToc.runWord (2 ^ 13, 3 * 2 ^ 13 - 1)) = 2 ^ 45 := by decide
  have h4 : packedToc.stop (PackedToc.runWord (2 ^ 13, 3 * 2 ^ 13 - 1)) = 3 * 2 ^ 45 := by decide
  simp only [Toc.Covered, twoRuns, List.mem_cons, List.not_mem_nil, or_false, exists_eq_or_imp,
    exists_eq_left, h1, h2, h3, h4]
  omega

theorem wellFormed_sampleCover {words : List Word} (hne : words ≠ []) (hword : ∀ w ∈ words, w < 2 ^ 64)
    (hcovered : ∀ t, packedToc.Covered words t → t < 3 * 2 ^ 45) (root : String) :
    WellFormed sampleCalls 8 (root, sampleCover words) [⟨5, words, 18⟩] where
  accepted := by
    have hdecode : decodeCoverBlock (encodeCoverBlock words 18 18) 18 = .ok (words, 18) := by
      have hcount : (Json.num words.length).pyEq (.num words.length) = true :=
        (Json.pyEq_of_number rfl).mpr rfl
      have horder : (Json.num 18).toInt = .ok 18 := rfl
      simp [encodeCoverBlock, decodeCoverBlock, Json.item, Json.field, getDefault,
        decodeWords_encode hword, hcount, horder, bind, Except.bind, pure, Except.pure, List.lookup_cons]
    have hlen : ¬words.length = 0 := fun hzero => hne (List.eq_nil_of_length_eq_zero hzero)
    have hwords : coverWords [("spec", .str coverSpec), ("order", .num 8), ("temporal_order", .num 18),
        ("shards", .obj [("11", encodeCoverBlock words 18 18)])] =
        .ok (18, [("11", encodeCoverBlock words 18 18, words)]) := by
      show ((([("11", encodeCoverBlock words 18 18)] : Fields).mapM fun d =>
        (decodeCoverBlock d.2 18).map fun r => (d.1, d.2, r.1)).bind _) = _
      rw [List.mapM_cons, hdecode]
      rfl
    refine ⟨_, _, [some ⟨5, words, 18⟩], rfl, rfl, hwords, ?_, rfl⟩
    rw [List.mapM_cons, readBlock, if_neg hlen]
    rfl
  order_le := by
    intro block hb
    have hle : 18 ≤ 62 := by decide
    rw [List.mem_singleton.mp hb]
    exact hle
  below := by
    intro block hb b hmeets
    rw [List.mem_singleton.mp hb] at hmeets ⊢
    obtain ⟨t, ht, rfl⟩ := hmeets
    have hlt := hcovered t ht
    show t / 2 ^ 45 * 2 ^ 45 + (2 ^ 45 / 2 - 1) ≤ 2 ^ 63 - 2 ^ 32
    omega

/-- The epochs of a shard are a function of the buckets claimed for it: they increase, each is the
midpoint of a claimed bucket under its finest order, and none of the covered time is far from
all of them. -/
theorem reference_epochs_canonical (h : List.Forall₂ (WellFormed calls n) stores blockss) (hne : stores ≠ []) :
    ∃ r, referenceEpochs calls stores aoiShards = .ok r ∧ r.order = n ∧ r.stores = stores.map Prod.fst ∧
      (∀ stores' blockss', List.Forall₂ (WellFormed calls n) stores' blockss' →
        (∃ blockss'', List.Forall₂ (fun blocks blocks' => ∀ shard o b,
            Claims calls blocks shard o b ↔ Claims calls blocks' shard o b) blockss blockss'' ∧
          blockss''.Perm blockss') →
        ∃ r', referenceEpochs calls stores' aoiShards = .ok r' ∧ r'.order = r.order ∧
          r'.epochs = r.epochs ∧ r'.epochOrders = r.epochOrders ∧
          ∀ shard, r'.orders.lookup shard = r.orders.lookup shard) ∧
      (∀ shard, shard ∈ r.epochs.map Prod.fst ↔ (∃ o b, Claims calls blockss.flatten shard o b) ∧
        ∀ words ∈ aoiShards n, shard ∈ words) ∧
      r.epochOrders.map Prod.fst = r.epochs.map Prod.fst ∧
      ∀ shard epochs orders, ((shard, epochs), (shard, orders)) ∈ r.epochs.zip r.epochOrders →
        epochs.Pairwise (fun a b => a.toInt < b.toInt) ∧ orders.length = epochs.length ∧
        (∀ m o, (m, o) ∈ epochs.zip orders ↔
          (∃ b, Claims calls blockss.flatten shard o b ∧ m = epochOf calls o b) ∧
            ∀ o' b', Claims calls blockss.flatten shard o' b' → epochOf calls o' b' = m → o' ≤ o) ∧
        ∀ block ∈ blockss.flatten, block.shard = shard → ∀ t, calls.toc.Covered block.words t →
          ∃ m, calls.toDatetime64 m ∈ epochs ∧ ((t : Int) - m).natAbs ≤ 2 ^ (62 - block.order) := by
  obtain ⟨hproper, horder⟩ := proper_of_wellFormed h
  refine ⟨_, referenceEpochs_eq h hne, rfl, rfl, ?_, ?_, ?_, ?_⟩
  · rintro stores' blockss' h' ⟨blockss'', hsame, hperm⟩
    have hne' : stores' ≠ [] := by
      rintro rfl
      cases h'
      cases hperm.eq_nil
      cases hsame
      cases h
      exact hne rfl
    obtain ⟨hepochs, horders, hcoarsest⟩ := epochsOf_congr hproper (proper_of_wellFormed h').1
      (fun shard o b => (claims_of_reencoded hsame shard o b).trans (claims_of_perm hperm shard o b))
      (stores.map Prod.fst) (stores'.map Prod.fst) (aoiShards n)
    exact ⟨_, referenceEpochs_eq h' hne', rfl, hepochs, horders, hcoarsest⟩
  · intro shard
    have hkeys : (epochsOf calls n (stores.map Prod.fst) (aoiShards n) blockss.flatten).epochs.map Prod.fst =
        keptShards (aoiShards n) blockss.flatten := by
      simp [epochsOf, Function.comp_def]
    rw [hkeys, mem_keptShards hproper]
  · simp [epochsOf, Function.comp_def]
  · intro shard epochs orders hmem
    obtain ⟨rfl, rfl⟩ : epochs = (shardRows (partsOf calls blockss.flatten shard)).map Prod.fst ∧
        orders = (shardRows (partsOf calls blockss.flatten shard)).map Prod.snd := by
      simp only [epochsOf, List.zip_map', List.mem_map, Prod.mk.injEq] at hmem
      obtain ⟨_, -, ⟨rfl, rfl⟩, -, rfl⟩ := hmem
      exact ⟨rfl, rfl⟩
    have hrows : ((shardRows (partsOf calls blockss.flatten shard)).map Prod.fst).zip
        ((shardRows (partsOf calls blockss.flatten shard)).map Prod.snd) =
        shardRows (partsOf calls blockss.flatten shard) := (List.zip_of_prod rfl rfl).symm
    refine ⟨List.pairwise_map.mpr (strictly_firstRows toInt_le_of_earlier _), by simp, fun m o => ?_, ?_⟩
    · rw [hrows, mem_shardRows hproper]
    · intro block hb hshard t ht
      have hclaims : Claims calls blockss.flatten shard block.order (t / 2 ^ (63 - block.order)) :=
        ⟨block, hb, hshard, rfl, t, ht, rfl⟩
      obtain ⟨o', hrow⟩ := exists_row hproper hclaims
      exact ⟨_, List.mem_map.mpr ⟨_, hrow, rfl⟩, midpoint_near (horder block hb) rfl⟩

theorem reference_epochs_canonical_reencoded :
    ∃ r r', referenceEpochs sampleCalls [("a", sampleCover oneRun)] (fun _ => none) = .ok r ∧
      referenceEpochs sampleCalls [("b", sampleCover twoRuns)] (fun _ => none) = .ok r' ∧
      r.stores = ["a"] ∧ r'.epochs = r.epochs ∧ r'.epochOrders = r.epochOrders := by
  have hone : WellFormed sampleCalls 8 ("a", sampleCover oneRun) [⟨5, oneRun, 18⟩] :=
    wellFormed_sampleCover (by decide) (by decide) (fun t => (covered_oneRun t).mp) "a"
  have htwo : WellFormed sampleCalls 8 ("b", sampleCover twoRuns) [⟨5, twoRuns, 18⟩] :=
    wellFormed_sampleCover (by decide) (by decide) (fun t => (covered_twoRuns t).mp) "b"
  have hmeets : ∀ k b, packedToc.Meets k oneRun b ↔ packedToc.Meets k twoRuns b := fun k b =>
    exists_congr fun t => and_congr_left fun _ => (covered_oneRun t).trans (covered_twoRuns t).symm
  have hsame : ∀ shard o b, Claims sampleCalls [⟨5, oneRun, 18⟩] shard o b ↔
      Claims sampleCalls [⟨5, twoRuns, 18⟩] shard o b := by
    intro shard o b
    simp only [Claims, List.mem_singleton, exists_eq_left]
    exact and_congr_right fun _ => and_congr_right fun _ => hmeets _ b
  obtain ⟨r, hr, -, hstores, hcanonical, -⟩ := @reference_epochs_canonical _ _ _ _ (fun _ => none)
    (.cons hone .nil) (List.cons_ne_nil _ _)
  obtain ⟨r', hr', -, hepochs, horders, -⟩ := hcanonical _ _ (.cons htwo .nil)
    ⟨_, .cons hsame .nil, List.Perm.refl _⟩
  exact ⟨r, r', hr, hr', hstores, hepochs, horders⟩

end Canonical
end Zagg.Catalog.Epochs
