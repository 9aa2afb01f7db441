import Zagg.Lib.Dict
import Zagg.Stats.CompanionCalls

/-!
# Folding one cell's digests with their channels

The channels of a cell arrive in a dictionary, go to the merge as keywords and come back by
position. Both the fold and its callers order them by the table of channels, so what stands
in a channel's place was folded from that channel's words over the merge's own partition. The
merge returns its digest bare when it is given no channel, and the fold takes that digest
apart when its dictionary is empty.
-/
namespace Zagg.Sweep

open Zagg.Lib Zagg.Stats

/-- `COMPANION_CHANNELS`: the kernel keywords in the order of its return values. -/
def companionChannels : List (String × Channel) :=
  [("locations", .locations), ("temporal", .temporal)]

/-- `field_companions`: the keywords of the channels a field declares. -/
def fieldCompanions (location temporal : Bool) : List String :=
  (if location then ["locations"] else []) ++ if temporal then ["temporal"] else []

inductive FoldError
  | unknownChannels (names : List String)
  | vectorCount (kwarg : String) (vectors digests : Nat)
  | rowCount (kwarg : String) (words centroids : Nat)
  | arrayCount (label : String) (arrays digests : Nat)
  | words (msg : String)
  /-- A reduction of `mortie` refused its words. -/
  | refused
  | unpack
deriving DecidableEq

/-- Vectors of words by keyword, in insertion order. -/
abbrev Channels := List (String × List Words)

/-- What `merge_tdigests_kway` returns: a bare digest without channels. -/
inductive Merged
  | bare (digest : Digest)
  | tuple (digest : Digest) (words : List Words)

def orRefused : Option Words → Except FoldError Words
  | some out => .ok out
  | none => .error .refused

/-- A copy, or the fold of one channel over the call's partition. -/
def foldOutput (m : WordFolds) (o : Channel × Output) : Except FoldError Words :=
  match o.2 with
  | .copy words => .ok words
  | .fold words starts n => orRefused (centroidFold m o.1 words starts n)

section Model
variable (num : Numerics) (m : WordFolds) (delta : Nat)

/-- The channels of a call, in the kernel's order. -/
def declaredKwargs (locations temporal : Option (List Words)) : List (Channel × List Words) :=
  (locations.toList.map fun chans => (Channel.locations, chans)) ++
    temporal.toList.map fun chans => (Channel.temporal, chans)

/-- Each digest beside its words. -/
def zipParts (digests : List Digest) (declared : List (Channel × List Words)) : List Part :=
  digests.zipIdx.map fun d => ⟨d.1, declared.map fun c => c.2.getD d.2 []⟩

/-- The outputs of a merge; a call without channels returns its digest bare. -/
def finishMerge (declared : List (Channel × List Words)) (plan : Plan) :
    Except FoldError Merged := do
  let words ← plan.outputs.mapM (foldOutput m)
  return if declared = [] then .bare plan.digest else .tuple plan.digest words

def mergeDeclared (digests : List Digest) (declared : List (Channel × List Words)) :
    Except FoldError Merged := do
  declared.forM fun c =>
    if c.2.length ≠ digests.length then
      .error (.arrayCount (toString c.1) c.2.length digests.length)
    else .ok ()
  match planKway num delta (declared.map Prod.fst) (zipParts digests declared) with
  | .error msg => .error (.words msg)
  | .ok plan => finishMerge m declared plan

/-- `merge_tdigests_kway` with its two keywords. -/
def mergeTdigestsKwargs (digests : List Digest) (locations temporal : Option (List Words)) :
    Except FoldError Merged :=
  mergeDeclared num m delta digests (declaredKwargs locations temporal)

/-- The indices of the populated digests. -/
def populated (cells : List Digest) : List Nat :=
  (List.range cells.length).filter fun i => cells.getD i [] ≠ []

/-- The checks of one channel. -/
def checkChannel (cells : List Digest) (kwarg : String) (vectors : List Words) :
    Except FoldError Unit :=
  if vectors.length ≠ cells.length then .error (.vectorCount kwarg vectors.length cells.length)
  else (populated cells).forM fun i =>
    if (vectors.getD i []).length ≠ (cells.getD i []).length then
      .error (.rowCount kwarg (vectors.getD i []).length (cells.getD i []).length)
    else .ok ()

/-- The keywords of the table that the dictionary has. -/
def suppliedChannels (channels : Channels) : List (String × Channel) :=
  companionChannels.filter fun c => c.1 ∈ channels.map Prod.fst

/-- `payload, *words = merged`. A bare digest is taken apart by rows: the first encodes to the
bytes of a digest of one centroid, and each other row is encoded as two words. -/
def unpackMerged (asUint64 : ℚ → Nat) : Merged → Except FoldError (Digest × List Words)
  | .tuple digest words => .ok (digest, words)
  | .bare [] => .error .unpack
  | .bare (c :: cs) => .ok ([c], cs.map fun r => [asUint64 r.mean, asUint64 r.weight])

variable (asUint64 : ℚ → Nat)

/-- `channels[kwarg]`. -/
def vectorsOf (channels : Channels) (kwarg : String) : List Words :=
  (channels.lookup kwarg).getD []

/-- The vectors of the digests `keep`, by keyword. -/
def keptVectors (channels : Channels) (keep : List Nat) : Channels :=
  (suppliedChannels channels).map fun c =>
    (c.1, keep.map fun i => (vectorsOf channels c.1).getD i [])

/-- The merge of the populated digests `keep`, unpacked. -/
def mergeKept (cells : List Digest) (channels : Channels) (keep : List Nat) :
    Except FoldError (Digest × List Words) := do
  let merged ← mergeTdigestsKwargs num m delta (keep.map fun i => cells.getD i [])
    ((keptVectors channels keep).lookup "locations") ((keptVectors channels keep).lookup "temporal")
  unpackMerged asUint64 merged

/-- The keywords the table does not have. -/
def unknownChannels (channels : Channels) : List String :=
  (channels.map Prod.fst).filter fun k => k ∉ (suppliedChannels channels).map Prod.fst

/-- `fold_digests` over channels of the table. -/
def foldSupplied (cells : List Digest) (channels : Channels) :
    Except FoldError (Digest × List Words) := do
  (suppliedChannels channels).forM fun c => checkChannel cells c.1 (vectorsOf channels c.1)
  match populated cells with
  | [] => return ([], (suppliedChannels channels).map fun _ => [])
  | [i] => return (cells.getD i [],
      (suppliedChannels channels).map fun c => (vectorsOf channels c.1).getD i [])
  | keep => mergeKept num m delta asUint64 cells channels keep

/-- `fold_digests` with a dictionary of channels. -/
def foldDigestsWith (cells : List Digest) (channels : Channels) :
    Except FoldError (Digest × List Words) :=
  if unknownChannels channels ≠ [] then
    .error (.unknownChannels ((unknownChannels channels).insertionSort (· ≤ ·)))
  else foldSupplied num m delta asUint64 cells channels

/-- `fold_digests`. -/
def foldDigests (cells : List Digest) : Option Channels → Except FoldError (Digest × List Words)
  | some channels => foldDigestsWith num m delta asUint64 cells channels
  | none =>
    match populated cells with
    | [] => .ok ([], [])
    | [i] => .ok (cells.getD i [], [])
    | keep => do
      match ← mergeTdigestsKwargs num m delta (keep.map fun i => cells.getD i []) none none with
      | .bare digest => return (digest, [])
      | .tuple digest words => return (digest, words)

end Model

/-- One word per centroid of every populated digest, and a vector for every digest. -/
def RowsMatch (cells : List Digest) (vectors : List Words) : Prop :=
  vectors.length = cells.length ∧
    ∀ i ∈ populated cells, (vectors.getD i []).length = (cells.getD i []).length

/-- The populated rows: the digest and its centroid. -/
def positions (cells : List Digest) : List (Nat × Nat) :=
  (populated cells).flatMap fun i => (List.range (cells.getD i []).length).map fun r => (i, r)

def centroidAt (cells : List Digest) (p : Nat × Nat) : Centroid :=
  (cells.getD p.1 []).getD p.2 ⟨0, 0⟩

def wordAt (vectors : List Words) (p : Nat × Nat) : Nat := (vectors.getD p.1 []).getD p.2 0

/-- The members of one merged centroid, without words. -/
def memberRows (cells : List Digest) (run : List (Nat × Nat)) : List Row :=
  run.map fun p => ⟨(centroidAt cells p).mean, (centroidAt cells p).weight, []⟩

/-- What a fold gives for its channels, each from its own vectors: nothing, the one populated
digest's words, or over the runs of one partition of all rows the words of each run. -/
inductive FoldedAs (num : Numerics) (m : WordFolds) (join : Words → Option Nat)
    (cells : List Digest) (channels : List (Channel × List Words)) : Digest → List Words → Prop
  | empty (h : populated cells = []) :
    FoldedAs num m join cells channels [] (channels.map fun _ => [])
  | single (i : Nat) (h : populated cells = [i]) :
    FoldedAs num m join cells channels (cells.getD i []) (channels.map fun c => c.2.getD i [])
  | merged (runs : List (List (Nat × Nat))) (words : List Words)
      (h : 2 ≤ (populated cells).length)
      (members : runs.flatten.Perm (positions cells)) (populated : ∀ run ∈ runs, run ≠ [])
      (folds : List.Forall₂ (fun c ws =>
        (runs.map fun run => run.map (wordAt c.2)).mapM (segmentWord m join c.1) = some ws)
          channels words) :
    FoldedAs num m join cells channels (runs.map fun run => centroidOf num (memberRows cells run))
      words

section Checks
variable {cells : List Digest}

theorem mem_populated {i : Nat} : i ∈ populated cells ↔ cells.getD i [] ≠ [] := by
  rw [populated, List.mem_filter, List.mem_range, decide_eq_true_iff, and_iff_right_iff_imp]
  intro hne
  by_contra hle
  exact hne (List.getD_eq_default _ _ (Nat.le_of_not_lt hle))

theorem checkChannel_ok {kwarg : String} {vectors : List Words} :
    checkChannel cells kwarg vectors = .ok () ↔ RowsMatch cells vectors := by
  unfold checkChannel
  by_cases hlen : vectors.length = cells.length
  · rw [if_neg (not_not.mpr hlen), forM_ok_iff]
    apply Iff.trans _ (and_iff_right hlen).symm
    apply forall₂_congr
    intro i _
    by_cases hi : (vectors.getD i []).length = (cells.getD i []).length
    · rw [if_neg (not_not.mpr hi)]
      exact iff_of_true rfl hi
    · rw [if_pos hi]
      exact iff_of_false nofun hi
  · rw [if_pos hlen]
    exact iff_of_false nofun fun h => hlen h.1

/-- A failed check names what does not match. -/
theorem checkChannel_error {kwarg : String} {vectors : List Words} {e : FoldError}
    (h : checkChannel cells kwarg vectors = .error e) :
    (e = .vectorCount kwarg vectors.length cells.length ∧ vectors.length ≠ cells.length) ∨
      ∃ i ∈ populated cells,
        e = .rowCount kwarg (vectors.getD i []).length (cells.getD i []).length ∧
          (vectors.getD i []).length ≠ (cells.getD i []).length := by
  unfold checkChannel at h
  split at h
  · cases h
    exact .inl ⟨rfl, ‹_›⟩
  · obtain ⟨i, hi, he⟩ := forM_error h
    split at he
    · cases he
      exact .inr ⟨i, hi, rfl, ‹_›⟩
    · cases he

end Checks

section Merge
variable {num : Numerics} {m : WordFolds} {delta : Nat} {cells : List Digest}

/-- A row with the words of its channels. -/
def rowAt (cells : List Digest) (vectors : List (List Words)) (p : Nat × Nat) : Row :=
  ⟨(centroidAt cells p).mean, (centroidAt cells p).weight, vectors.map fun v => wordAt v p⟩

/-- One populated digest beside its words. -/
def partAt (cells : List Digest) (vectors : List (List Words)) (i : Nat) : Part :=
  ⟨cells.getD i [], vectors.map fun v => v.getD i []⟩

theorem zipIdx_map_getD {α β γ : Type} (l : List α) (f : α → β) (g : β × Nat → γ) (e : α → γ)
    (h : ∀ (i : Nat) (a : α), l[i]? = some a → g (f a, i) = e a) :
    (l.map f).zipIdx.map g = l.map e := by
  apply List.ext_getElem?
  intro i
  rw [List.getElem?_map, List.getElem?_zipIdx, List.getElem?_map, List.getElem?_map, Nat.zero_add]
  cases hi : l[i]? with
  | none => rfl
  | some a => exact congrArg some (h i a hi)

/-- The parts the kernel zips from its lists are those of the populated digests. -/
theorem kernel_parts (declared : List (Channel × List Words)) (keep : List Nat) :
    zipParts (keep.map fun i => cells.getD i [])
        (declared.map fun c => (c.1, keep.map fun i => c.2.getD i [])) =
      keep.map (partAt cells (declared.map Prod.snd)) := by
  apply zipIdx_map_getD
  intro i k hk
  rw [partAt, List.map_map, List.map_map]
  congr 1
  apply List.map_congr_left
  intro c _
  simp [List.getD_eq_getElem?_getD, hk]

theorem rows_partAt (vectors : List (List Words)) (i : Nat) :
    (partAt cells vectors i).rows =
      (List.range (cells.getD i []).length).map fun r => rowAt cells vectors (i, r) := by
  show ((cells.getD i []).zipIdx.map _) = _
  apply List.ext_getElem?
  intro r
  rw [List.getElem?_map, List.getElem?_zipIdx, List.getElem?_map, Nat.zero_add]
  by_cases hr : r < (cells.getD i []).length
  · have hc : centroidAt cells (i, r) = (cells.getD i [])[r] := List.getD_eq_getElem _ _ hr
    rw [List.getElem?_range hr, List.getElem?_eq_getElem hr, Option.map_some, Option.map_some,
      Option.map_some, rowAt, hc, partAt, List.map_map]
    rfl
  · rw [List.getElem?_eq_none (Nat.le_of_not_lt hr),
      List.getElem?_eq_none (by rw [List.length_range]; omega)]
    rfl

variable (cells) in
theorem flatMap_rows (vectors : List (List Words)) :
    ((populated cells).map (partAt cells vectors)).flatMap Part.rows =
      (positions cells).map (rowAt cells vectors) := by
  rw [List.flatMap_map, positions, List.map_flatMap]
  apply List.flatMap_congr
  intro i _
  rw [rows_partAt, List.map_map]
  rfl

theorem exists_perm_map {α β : Type} {f : α → β} {rows : List β} {l : List α}
    (h : rows.Perm (l.map f)) : ∃ l' : List α, l'.Perm l ∧ rows = l'.map f := by
  have hrel : List.Forall₂ (fun r a => r = f a) (l.map f) l := by
    rw [List.forall₂_map_left_iff]
    exact List.forall₂_same.mpr fun _ _ => rfl
  obtain ⟨l', hl', hp⟩ := List.perm_comp_forall₂ h hrel
  refine ⟨l', hp, ?_⟩
  rw [← List.forall₂_eq_eq_eq, List.forall₂_map_right_iff]
  exact hl'

theorem partAt_digest (vectors : List (List Words)) (i : Nat) :
    (partAt cells vectors i).digest = cells.getD i [] := rfl

variable (cells) in
theorem filter_parts (vectors : List (List Words)) :
    ((populated cells).map (partAt cells vectors)).filter (fun p => p.digest ≠ []) =
      (populated cells).map (partAt cells vectors) := by
  apply List.filter_eq_self.mpr
  intro p hp
  obtain ⟨i, hi, rfl⟩ := List.mem_map.mp hp
  exact decide_eq_true (mem_populated.mp hi)

/-- The words of one channel in the part of one digest. -/
theorem partAt_words {declared : List (Channel × List Words)} {k : Nat} {c : Channel × List Words}
    (hc : declared[k]? = some c) (i : Nat) :
    (partAt cells (declared.map Prod.snd) i).words.getD k [] = c.2.getD i [] := by
  simp [partAt, List.getD_eq_getElem?_getD, hc]

/-- Over matching rows the kernel's checks refuse the reserved word only. -/
theorem zero_of_planKway_error {declared : List (Channel × List Words)} {msg : String}
    (hrows : ∀ c ∈ declared, RowsMatch cells c.2)
    (h : planKway num delta (declared.map Prod.fst)
      ((populated cells).map (partAt cells (declared.map Prod.snd))) = .error msg) :
    ∃ c ∈ declared, ∃ i ∈ populated cells, 0 ∈ c.2.getD i [] := by
  unfold planKway at h
  cases hchecks : ((((populated cells).map (partAt cells (declared.map Prod.snd))).zipIdx.filter
      fun p => p.1.digest ≠ []).mapM fun p => (declared.map Prod.fst).zipIdx.mapM fun c =>
        checkWords s!"{c.1}[{p.2}]" (p.1.words.getD c.2 []) p.1.digest.length) with
  | ok checked =>
    rw [hchecks] at h
    dsimp only [bind, Except.bind] at h
    split at h <;> cases h
  | error e =>
    obtain ⟨p, hp, he⟩ := mapM_error hchecks
    obtain ⟨c, hc, hce⟩ := mapM_error he
    have hpart := List.mem_zipIdx' (List.mem_of_mem_filter hp)
    obtain ⟨i, hi, hpi⟩ := List.mem_map.mp (hpart.2 ▸ List.getElem_mem _)
    have hk := List.mem_zipIdx' hc
    rw [List.length_map] at hk
    have hget : declared[c.2]? = some declared[c.2] := List.getElem?_eq_getElem hk.1
    have hmem := List.getElem_mem (l := declared) hk.1
    rw [← hpi, partAt_words hget, partAt_digest, checkWords,
      if_neg (not_not.mpr ((hrows _ hmem).2 i hi))] at hce
    split at hce
    · exact ⟨_, hmem, i, hi, ‹_›⟩
    · cases hce

/-- All rows of the populated digests, sorted with their words. -/
def mergeRows (cells : List Digest) (declared : List (Channel × List Words)) : List Row :=
  lexsort ((positions cells).map (rowAt cells (declared.map Prod.snd)))

def mergeStarts (num : Numerics) (delta : Nat) (cells : List Digest)
    (declared : List (Channel × List Words)) : List Nat :=
  compressStarts num delta (mergeRows cells declared)

/-- A plan of two or more populated digests compresses their sorted rows. -/
theorem planKway_ok {declared : List (Channel × List Words)} {plan : Plan}
    (hmany : 2 ≤ (populated cells).length)
    (h : planKway num delta (declared.map Prod.fst)
      ((populated cells).map (partAt cells (declared.map Prod.snd))) = .ok plan) :
    plan = planCompressed num delta (declared.map Prod.fst) (mergeRows cells declared) := by
  obtain ⟨checked, -, h⟩ := bind_ok h
  have hfilter := filter_parts cells (declared.map Prod.snd)
  have hrows := flatMap_rows cells (declared.map Prod.snd)
  have hlen : ((populated cells).map (partAt cells (declared.map Prod.snd))).length =
      (populated cells).length := List.length_map _
  rw [hfilter] at h
  rw [mergeRows, ← hrows]
  generalize (populated cells).map (partAt cells (declared.map Prod.snd)) = parts at h hlen
  match parts, hlen with
  | [], hlen => rw [List.length_nil] at hlen; omega
  | [p], hlen => rw [List.length_singleton] at hlen; omega
  | p :: q :: parts, _ =>
    cases h
    rfl

/-- The sorted rows are those of some order of the positions. -/
theorem exists_sorted (cells : List Digest) (declared : List (Channel × List Words)) :
    ∃ sorted : List (Nat × Nat), sorted.Perm (positions cells) ∧
      mergeRows cells declared = sorted.map (rowAt cells (declared.map Prod.snd)) :=
  exists_perm_map (List.perm_insertionSort (fun a b : Row => a.key ≤ b.key) _)

section Sorted
variable {declared : List (Channel × List Words)} {sorted : List (Nat × Nat)}

variable (num delta) in
theorem partition_mergeStarts (hperm : sorted.Perm (positions cells)) (hne : positions cells ≠ [])
    (hrows : mergeRows cells declared = sorted.map (rowAt cells (declared.map Prod.snd))) :
    Partition (mergeStarts num delta cells declared) sorted.length := by
  have hlen := congrArg List.length hrows
  rw [List.length_map] at hlen
  rw [← hlen]
  apply partition_compressStarts
  intro hnil
  rw [hnil, List.length_nil, hperm.length_eq] at hlen
  exact hne (List.length_eq_zero_iff.mp hlen.symm)

theorem digest_merge
    (hrows : mergeRows cells declared = sorted.map (rowAt cells (declared.map Prod.snd))) :
    (compress num delta (mergeRows cells declared)).map (centroidOf num) =
      (pieces sorted (mergeStarts num delta cells declared)).map
        fun run => centroidOf num (memberRows cells run) := by
  show (segments _ (mergeStarts num delta cells declared)).map (centroidOf num) = _
  rw [segments_eq_pieces, hrows, pieces_map, List.map_map]
  apply List.map_congr_left
  intro run _
  show centroidOf num (run.map _) = centroidOf num (memberRows cells run)
  simp only [centroidOf, memberRows, List.map_map, Function.comp_def, rowAt]

/-- Each channel's output folds its own words over the partition. -/
theorem outputs_merge
    (hrows : mergeRows cells declared = sorted.map (rowAt cells (declared.map Prod.snd))) :
    (planCompressed num delta (declared.map Prod.fst) (mergeRows cells declared)).outputs =
      declared.map fun c => (c.1, .fold (sorted.map (wordAt c.2))
        (mergeStarts num delta cells declared) sorted.length) := by
  apply zipIdx_map_getD
  intro i c hc
  have hwords : (mergeRows cells declared).map (fun r => r.words.getD i 0) =
      sorted.map (wordAt c.2) := by
    rw [hrows, List.map_map]
    apply List.map_congr_left
    intro p _
    simp [rowAt, List.getD_eq_getElem?_getD, hc]
  have hlen : (mergeRows cells declared).length = sorted.length := by
    rw [hrows, List.length_map]
  show (c.1, Output.fold _ _ _) = _
  rw [hwords, hlen]
  rfl

theorem foldOutput_merge {join : Words → Option Nat} (hm : Segmented m join)
    (hp : Partition (mergeStarts num delta cells declared) sorted.length)
    (c : Channel × List Words) :
    foldOutput m (c.1, .fold (sorted.map (wordAt c.2)) (mergeStarts num delta cells declared)
        sorted.length) =
      orRefused (((pieces sorted (mergeStarts num delta cells declared)).map fun run =>
        run.map (wordAt c.2)).mapM (segmentWord m join c.1)) := by
  have hlen : (sorted.map (wordAt c.2)).length = sorted.length := List.length_map _
  have hp' := hp
  rw [← hlen] at hp'
  have hfold := centroidFold_eq hm c.1 hp'
  rw [hlen, pieces_map] at hfold
  show orRefused (centroidFold m c.1 _ _ _) = _
  rw [hfold]

end Sorted

/-- The channels of a call with their vectors, in the order of the table. -/
def declaredOf (channels : Channels) : List (Channel × List Words) :=
  (suppliedChannels channels).map fun c => (c.2, vectorsOf channels c.1)

theorem supplied_cases (channels : Channels) :
    suppliedChannels channels = [] ∨ suppliedChannels channels = [("locations", .locations)] ∨
      suppliedChannels channels = [("temporal", .temporal)] ∨
        suppliedChannels channels = companionChannels := by
  rw [suppliedChannels, companionChannels, List.filter_cons, List.filter_cons, List.filter_nil]
  by_cases hl : "locations" ∈ channels.map Prod.fst <;>
    by_cases ht : "temporal" ∈ channels.map Prod.fst <;> simp [hl, ht]

theorem kernel_declared (channels : Channels) (keep : List Nat) :
    declaredKwargs ((keptVectors channels keep).lookup "locations")
        ((keptVectors channels keep).lookup "temporal") =
      (declaredOf channels).map fun c => (c.1, keep.map fun i => c.2.getD i []) := by
  rw [declaredOf, keptVectors]
  cases supplied_cases channels with
  | inl h => rw [h]; rfl
  | inr h =>
    obtain h | h | h := h
    · rw [h]; rfl
    · rw [h]; rfl
    · rw [h]; rfl

/-- The kernel over the populated digests and their words. -/
theorem mergeTdigestsKwargs_eq (channels : Channels) :
    mergeTdigestsKwargs num m delta ((populated cells).map fun i => cells.getD i [])
        ((keptVectors channels (populated cells)).lookup "locations")
        ((keptVectors channels (populated cells)).lookup "temporal") =
      match planKway num delta ((declaredOf channels).map Prod.fst)
        ((populated cells).map (partAt cells ((declaredOf channels).map Prod.snd))) with
      | .error msg => .error (.words msg)
      | .ok plan => finishMerge m ((declaredOf channels).map fun c =>
          (c.1, (populated cells).map fun i => c.2.getD i [])) plan := by
  have hcounts : ((declaredOf channels).map fun c =>
      (c.1, (populated cells).map fun i => c.2.getD i [])).forM (m := Except FoldError) (fun c =>
        if c.2.length ≠ ((populated cells).map fun i => cells.getD i []).length then
          .error (.arrayCount (toString c.1) c.2.length
            ((populated cells).map fun i => cells.getD i []).length)
        else .ok ()) = .ok () := by
    apply forM_ok_iff.mpr
    intro c hc
    obtain ⟨d, -, rfl⟩ := List.mem_map.mp hc
    rw [if_neg (not_not.mpr (by rw [List.length_map, List.length_map]))]
  have hfst : ((declaredOf channels).map fun c =>
      (c.1, (populated cells).map fun i => c.2.getD i [])).map Prod.fst =
      (declaredOf channels).map Prod.fst := by
    rw [List.map_map]
    rfl
  rw [mergeTdigestsKwargs, kernel_declared, mergeDeclared, hcounts, kernel_parts, hfst]
  rfl

theorem positions_ne_nil (h : populated cells ≠ []) : positions cells ≠ [] := by
  obtain ⟨i, is, hi⟩ := List.exists_cons_of_ne_nil h
  have hcell := List.length_pos_iff.mpr (mem_populated.mp (hi ▸ List.mem_cons_self ..))
  rw [positions, hi, List.flatMap_cons]
  apply List.append_ne_nil_of_left_ne_nil
  intro hnil
  have hlen := congrArg List.length hnil
  rw [List.length_map, List.length_range, List.length_nil] at hlen
  omega

variable (num delta) in
/-- What a merge of two or more populated digests gives for its channels. -/
theorem finishMerge_spec {join : Words → Option Nat} (hm : Segmented m join)
    (declared : List (Channel × List Words)) (hmany : 2 ≤ (populated cells).length) :
    match (planCompressed num delta (declared.map Prod.fst)
        (mergeRows cells declared)).outputs.mapM (foldOutput m) with
    | .error e => e = .refused ∧ ∃ c ∈ declared, ∃ run : List (Nat × Nat), run ≠ [] ∧
        (∀ p ∈ run, p ∈ positions cells) ∧ segmentWord m join c.1 (run.map (wordAt c.2)) = none
    | .ok words => FoldedAs num m join cells declared
        ((compress num delta (mergeRows cells declared)).map (centroidOf num)) words := by
  obtain ⟨sorted, hperm, hrows⟩ := exists_sorted cells declared
  have hne : populated cells ≠ [] := by
    intro hnil
    rw [hnil, List.length_nil] at hmany
    omega
  have hpart := partition_mergeStarts num delta hperm (positions_ne_nil hne) hrows
  have hflat := hpart.pieces
  rw [outputs_merge hrows, List.mapM_map, digest_merge hrows]
  have hfold := foldOutput_merge hm hpart
  generalize mergeStarts num delta cells declared = starts at hpart hflat hfold
  have hmem : ∀ run ∈ pieces sorted starts, run ≠ [] ∧ ∀ p ∈ run, p ∈ positions cells := by
    intro run hrun
    refine ⟨hflat.2 run hrun, fun p hp => hperm.mem_iff.mp ?_⟩
    rw [← hflat.1]
    exact List.mem_flatten.mpr ⟨run, hrun, hp⟩
  cases hout : declared.mapM (m := Except FoldError) ((foldOutput m) ∘ fun c =>
      (c.1, Output.fold (sorted.map (wordAt c.2)) starts sorted.length)) with
  | error e =>
    obtain ⟨c, hc, he⟩ := mapM_error hout
    rw [Function.comp_apply, hfold] at he
    cases hword : ((pieces sorted starts).map fun run => run.map (wordAt c.2)).mapM
        (segmentWord m join c.1) with
    | some out => rw [hword] at he; cases he
    | none =>
      rw [hword] at he
      cases he
      obtain ⟨ws, hws, hnone⟩ := exists_none_of_mapM hword
      obtain ⟨run, hrun, rfl⟩ := List.mem_map.mp hws
      obtain ⟨hrunne, hpos⟩ := hmem run hrun
      exact ⟨rfl, c, hc, run, hrunne, hpos, hnone⟩
  | ok words =>
    refine .merged (pieces sorted starts) words hmany ?_ (fun run hrun => (hmem run hrun).1) ?_
    · rw [hflat.1]
      exact hperm
    · apply (forall₂_mapM hout).imp
      intro c ws hc
      rw [Function.comp_apply, hfold] at hc
      cases hword : ((pieces sorted starts).map fun run => run.map (wordAt c.2)).mapM
          (segmentWord m join c.1) with
      | none => rw [hword] at hc; cases hc
      | some out =>
        rw [hword] at hc
        cases hc
        rfl

/-- A fold leaves one vector a channel, each as long as its payload. -/
theorem FoldedAs.rows {join : Words → Option Nat} {declared : List (Channel × List Words)}
    {payload : Digest} {words : List Words} (h : FoldedAs num m join cells declared payload words)
    (hrows : ∀ c ∈ declared, RowsMatch cells c.2) :
    words.length = declared.length ∧ ∀ ws ∈ words, ws.length = payload.length := by
  cases h with
  | empty _ =>
    refine ⟨List.length_map _, fun ws hws => ?_⟩
    obtain ⟨c, -, rfl⟩ := List.mem_map.mp hws
    rfl
  | single i hi =>
    refine ⟨List.length_map _, fun ws hws => ?_⟩
    obtain ⟨c, hc, rfl⟩ := List.mem_map.mp hws
    exact (hrows c hc).2 i (by rw [hi]; exact .head _)
  | merged runs words _ _ _ folds =>
    refine ⟨folds.length_eq.symm, fun ws hws => ?_⟩
    obtain ⟨c, -, hc⟩ := forall₂_exists_of_mem_right folds hws
    have hlen := (forall₂_of_mapM_some hc).length_eq
    rw [List.length_map] at hlen
    rw [List.length_map, ← hlen]

end Merge

/-- How a fold of digests with channels ends: every error names what it refused, and what is
returned was folded channel by channel. -/
def FoldOutcome (num : Numerics) (m : WordFolds) (join : Words → Option Nat)
    (cells : List Digest) (channels : Channels) : Except FoldError (Digest × List Words) → Prop
  | .error (.unknownChannels names) => names ≠ [] ∧
      ∀ k, k ∈ names ↔ k ∈ channels.map Prod.fst ∧ k ∉ companionChannels.map Prod.fst
  | .error (.vectorCount kwarg vectors digests) =>
      kwarg ∈ (suppliedChannels channels).map Prod.fst ∧
        vectors = (vectorsOf channels kwarg).length ∧ digests = cells.length ∧ vectors ≠ digests
  | .error (.rowCount kwarg words centroids) =>
      kwarg ∈ (suppliedChannels channels).map Prod.fst ∧ ∃ i ∈ populated cells,
        words = ((vectorsOf channels kwarg).getD i []).length ∧
          centroids = (cells.getD i []).length ∧ words ≠ centroids
  | .error (.words _) => (∀ c ∈ declaredOf channels, RowsMatch cells c.2) ∧
      2 ≤ (populated cells).length ∧
        ∃ c ∈ declaredOf channels, ∃ i ∈ populated cells, 0 ∈ c.2.getD i []
  | .error .refused => (∀ c ∈ declaredOf channels, RowsMatch cells c.2) ∧
      2 ≤ (populated cells).length ∧
        ∃ c ∈ declaredOf channels, ∃ run : List (Nat × Nat), run ≠ [] ∧
          (∀ p ∈ run, p ∈ positions cells) ∧ segmentWord m join c.1 (run.map (wordAt c.2)) = none
  | .error (.arrayCount _ _ _) => False
  | .error .unpack => False
  | .ok (payload, words) => (∀ k ∈ channels.map Prod.fst, k ∈ companionChannels.map Prod.fst) ∧
      (∀ c ∈ declaredOf channels, RowsMatch cells c.2) ∧
      FoldedAs num m join cells (declaredOf channels) payload words ∧
      words.length = (suppliedChannels channels).length ∧
      ∀ ws ∈ words, ws.length = payload.length

section Outcome
variable {num : Numerics} {m : WordFolds} {delta : Nat} {asUint64 : ℚ → Nat} {cells : List Digest}
  {channels : Channels}

theorem mem_supplied {k : String} : k ∈ (suppliedChannels channels).map Prod.fst ↔
    k ∈ channels.map Prod.fst ∧ k ∈ companionChannels.map Prod.fst := by
  rw [suppliedChannels, List.mem_map]
  constructor
  · intro ⟨c, hc, hk⟩
    obtain ⟨hmem, hin⟩ := List.mem_filter.mp hc
    rw [← hk]
    exact ⟨of_decide_eq_true hin, List.mem_map_of_mem hmem⟩
  · intro ⟨hin, hmem⟩
    obtain ⟨c, hc, rfl⟩ := List.mem_map.mp hmem
    exact ⟨c, List.mem_filter.mpr ⟨hc, decide_eq_true hin⟩, rfl⟩

variable (num delta asUint64) in
/-- Over matching rows of two or more populated digests the merge decides. -/
theorem mergeKept_outcome {join : Words → Option Nat} (hm : Segmented m join)
    (hne : declaredOf channels ≠ [])
    (hknown : ∀ k ∈ channels.map Prod.fst, k ∈ companionChannels.map Prod.fst)
    (hrows : ∀ c ∈ declaredOf channels, RowsMatch cells c.2) (hmany : 2 ≤ (populated cells).length) :
    FoldOutcome num m join cells channels
      (mergeKept num m delta asUint64 cells channels (populated cells)) := by
  rw [mergeKept, mergeTdigestsKwargs_eq]
  cases hplan : planKway num delta ((declaredOf channels).map Prod.fst)
      ((populated cells).map (partAt cells ((declaredOf channels).map Prod.snd))) with
  | error msg => exact ⟨hrows, hmany, zero_of_planKway_error hrows hplan⟩
  | ok plan =>
    cases planKway_ok hmany hplan
    have hspec := finishMerge_spec num delta hm (declaredOf channels) hmany
    show FoldOutcome num m join cells channels (finishMerge m _ _ >>= unpackMerged asUint64)
    rw [finishMerge]
    cases hwords : (planCompressed num delta ((declaredOf channels).map Prod.fst)
        (mergeRows cells (declaredOf channels))).outputs.mapM (foldOutput m) with
    | error e =>
      rw [hwords] at hspec
      obtain ⟨rfl, hrun⟩ := hspec
      exact ⟨hrows, hmany, hrun⟩
    | ok words =>
      rw [hwords] at hspec
      have hlen := hspec.rows hrows
      rw [declaredOf, List.length_map] at hlen
      have hmap : ((declaredOf channels).map fun c =>
          (c.1, (populated cells).map fun i => c.2.getD i [])) ≠ [] := by
        intro hnil
        exact hne (List.map_eq_nil_iff.mp hnil)
      show FoldOutcome num m join cells channels
        (unpackMerged asUint64 (if _ = [] then .bare _ else .tuple _ words))
      rw [if_neg hmap]
      exact ⟨hknown, hrows, hspec, hlen⟩

theorem declared_ne_nil (hne : channels ≠ [])
    (hknown : ∀ k ∈ channels.map Prod.fst, k ∈ companionChannels.map Prod.fst) :
    declaredOf channels ≠ [] := by
  obtain ⟨c, cs, rfl⟩ := List.exists_cons_of_ne_nil hne
  have hc : c.1 ∈ (c :: cs).map Prod.fst := List.mem_map_of_mem (.head _)
  obtain ⟨d, hd, -⟩ := List.mem_map.mp (mem_supplied.mpr ⟨hc, hknown c.1 hc⟩)
  intro hnil
  rw [List.map_eq_nil_iff.mp hnil] at hd
  cases hd

theorem mem_unknown {k : String} : k ∈ unknownChannels channels ↔
    k ∈ channels.map Prod.fst ∧ k ∉ companionChannels.map Prod.fst := by
  rw [unknownChannels, List.mem_filter, decide_eq_true_iff, mem_supplied]
  constructor
  · intro ⟨hk, hnot⟩
    exact ⟨hk, fun hin => hnot ⟨hk, hin⟩⟩
  · intro ⟨hk, hnot⟩
    exact ⟨hk, fun h => hnot h.2⟩

/-- What is returned without a merge: one payload, and one vector of each channel. -/
theorem outcome_of_copied {join : Words → Option Nat} {payload : Digest}
    (vector : List Words → Words)
    (hknown : ∀ k ∈ channels.map Prod.fst, k ∈ companionChannels.map Prod.fst)
    (hrows : ∀ c ∈ declaredOf channels, RowsMatch cells c.2)
    (hfold : FoldedAs num m join cells (declaredOf channels) payload
      ((declaredOf channels).map fun c => vector c.2)) :
    FoldOutcome num m join cells channels
      (.ok (payload, (suppliedChannels channels).map fun c => vector (vectorsOf channels c.1))) := by
  have hlen := hfold.rows hrows
  rw [declaredOf, List.map_map, List.length_map, List.length_map] at hlen
  rw [declaredOf, List.map_map] at hfold
  exact ⟨hknown, hrows, hfold, List.length_map _, hlen.2⟩

theorem foldSupplied_outcome {join : Words → Option Nat} (hm : Segmented m join)
    (hne : channels ≠ [])
    (hknown : ∀ k ∈ channels.map Prod.fst, k ∈ companionChannels.map Prod.fst) :
    FoldOutcome num m join cells channels (foldSupplied num m delta asUint64 cells channels) := by
  unfold foldSupplied
  cases hchecks : (suppliedChannels channels).forM fun c =>
      checkChannel cells c.1 (vectorsOf channels c.1) with
  | error e =>
    obtain ⟨c, hc, he⟩ := forM_error hchecks
    have hkwarg : c.1 ∈ (suppliedChannels channels).map Prod.fst := List.mem_map_of_mem hc
    cases checkChannel_error he with
    | inl h =>
      obtain ⟨rfl, hlen⟩ := h
      exact ⟨hkwarg, rfl, rfl, hlen⟩
    | inr h =>
      obtain ⟨i, hi, rfl, hlen⟩ := h
      exact ⟨hkwarg, i, hi, rfl, rfl, hlen⟩
  | ok u =>
    have hrows : ∀ c ∈ declaredOf channels, RowsMatch cells c.2 := by
      intro c hc
      obtain ⟨d, hd, rfl⟩ := List.mem_map.mp hc
      exact checkChannel_ok.mp (forM_ok_iff.mp hchecks d hd)
    show FoldOutcome num m join cells channels (match populated cells with
      | [] => _
      | [i] => _
      | keep => _)
    match hkeep : populated cells with
    | [] => exact outcome_of_copied (fun _ => []) hknown hrows (.empty hkeep)
    | [i] =>
      exact outcome_of_copied (fun vs => vs.getD i []) hknown hrows (.single i hkeep)
    | i :: j :: keep =>
      have hmany : 2 ≤ (populated cells).length := by
        rw [hkeep]
        exact Nat.le_add_left ..
      have hout := mergeKept_outcome num delta asUint64 hm
        (declared_ne_nil hne hknown) hknown hrows hmany
      rw [hkeep] at hout
      exact hout

theorem foldDigestsWith_outcome {join : Words → Option Nat} (hm : Segmented m join)
    (hne : channels ≠ []) : FoldOutcome num m join cells channels
      (foldDigestsWith num m delta asUint64 cells channels) := by
  unfold foldDigestsWith
  have hsorted := List.perm_insertionSort (· ≤ ·) (unknownChannels channels)
  by_cases hnil : unknownChannels channels = []
  · rw [if_neg (not_not.mpr hnil)]
    apply foldSupplied_outcome hm hne
    intro k hk
    by_contra hnot
    have hin := mem_unknown.mpr ⟨hk, hnot⟩
    rw [hnil] at hin
    cases hin
  · rw [if_pos hnil]
    refine ⟨fun hempty => ?_, fun k => hsorted.mem_iff.trans mem_unknown⟩
    rw [hempty] at hsorted
    exact hnil hsorted.nil_eq.symm

/-- The order in which the mapping was built does not show. -/
theorem foldDigestsWith_perm {channels' : Channels} (hkeys : (channels.map Prod.fst).Nodup)
    (h : channels.Perm channels') :
    foldDigestsWith num m delta asUint64 cells channels =
      foldDigestsWith num m delta asUint64 cells channels' := by
  have hmem : ∀ k, k ∈ channels.map Prod.fst ↔ k ∈ channels'.map Prod.fst :=
    fun k => (h.map Prod.fst).mem_iff
  have hvectors : vectorsOf channels = vectorsOf channels' := by
    funext k
    rw [vectorsOf, vectorsOf, lookup_perm hkeys h]
  have hsupplied : suppliedChannels channels = suppliedChannels channels' := by
    rw [suppliedChannels, suppliedChannels]
    apply List.filter_congr
    intro c _
    rw [Bool.eq_iff_iff, decide_eq_true_iff, decide_eq_true_iff, hmem]
  have hunknown : (unknownChannels channels).Perm (unknownChannels channels') := by
    rw [unknownChannels, unknownChannels, hsupplied]
    exact (h.map Prod.fst).filter _
  have hsorted : (unknownChannels channels).insertionSort (· ≤ ·) =
      (unknownChannels channels').insertionSort (· ≤ ·) :=
    ((List.perm_insertionSort _ _).trans
      (hunknown.trans (List.perm_insertionSort _ _).symm)).eq_of_pairwise'
        (List.pairwise_insertionSort _ _) (List.pairwise_insertionSort _ _)
  have hnil : unknownChannels channels = [] ↔ unknownChannels channels' = [] := by
    rw [← List.length_eq_zero_iff, ← List.length_eq_zero_iff, hunknown.length_eq]
  have hfold : foldSupplied num m delta asUint64 cells channels =
      foldSupplied num m delta asUint64 cells channels' := by
    unfold foldSupplied mergeKept keptVectors
    rw [hsupplied, hvectors]
  rw [foldDigestsWith, foldDigestsWith, hsorted, hfold]
  by_cases hempty : unknownChannels channels = []
  · rw [if_neg (not_not.mpr hempty), if_neg (not_not.mpr (hnil.mp hempty))]
  · rw [if_pos hempty, if_pos fun h => hempty (hnil.mpr h)]

/-- The channels come back in the order in which a field declares them. -/
theorem supplied_fieldCompanions {location temporal : Bool}
    (h : ∀ k, k ∈ channels.map Prod.fst ↔ k ∈ fieldCompanions location temporal) :
    (suppliedChannels channels).map Prod.fst = fieldCompanions location temporal := by
  have hl := h "locations"
  have ht := h "temporal"
  rw [suppliedChannels, companionChannels, List.filter_cons, List.filter_cons, List.filter_nil]
  cases location <;> cases temporal <;> simp_all [fieldCompanions]

end Outcome

section Kernel
variable {num : Numerics} {m : WordFolds} {join : Words → Option Nat} {delta : Nat}

/-- The outputs of a call that refuses no word are the words of the plain kernel. -/
theorem compressed_of_outputs (hm : Segmented m join) (ha : Answers num m join)
    {declared : List Channel} {rows : List Row} (hne : rows ≠ []) {words : List Words}
    (h : (planCompressed num delta declared rows).outputs.mapM (foldOutput m) = .ok words) :
    compressed num delta declared rows = ⟨(compress num delta rows).map (centroidOf num), words⟩ := by
  have hruns : compress num delta rows = pieces rows (compressStarts num delta rows) :=
    segments_eq_pieces rows _
  have hrel := forall₂_mapM h
  rw [planCompressed, List.forall₂_map_left_iff] at hrel
  refine congrArg (Stats.Part.mk _) ?_
  rw [← List.forall₂_eq_eq_eq, List.forall₂_map_left_iff]
  refine hrel.imp fun c ws hc => ?_
  have hlen : (rows.map fun r => r.words.getD c.2 0).length = rows.length := List.length_map _
  have hfold := centroidFold_eq hm c.1 (hlen ▸ partition_compressStarts num delta hne)
  change orRefused (centroidFold m c.1 _ _ _) = .ok ws at hc
  rw [← hlen, hfold, pieces_map, ← hruns] at hc
  cases hword : ((compress num delta rows).map (List.map fun r => r.words.getD c.2 0)).mapM
      (segmentWord m join c.1) with
  | none => rw [hword] at hc; cases hc
  | some out =>
    rw [hword] at hc
    obtain rfl := Except.ok.inj hc
    have hwords := forall₂_of_mapM_some hword
    rw [List.forall₂_map_left_iff] at hwords
    rw [← List.forall₂_eq_eq_eq, List.forall₂_map_left_iff]
    have hboth := (List.forall₂_and_left _ _).mpr ⟨ne_nil_of_mem_compress num delta rows, hwords⟩
    refine hboth.imp fun run w hrun => ?_
    exact channelWord_of_segmentWord ha (by simpa using hrun.1) hrun.2

variable {cells : List Digest} {channels : Channels} {asUint64 : ℚ → Nat}

variable (cells) in
theorem filter_range_parts (vectors : List (List Words)) :
    ((List.range cells.length).map (partAt cells vectors)).filter (fun p => p.digest ≠ []) =
      (populated cells).map (partAt cells vectors) := by
  rw [List.filter_map]
  rfl

/-- The words of two or more populated digests, when none is refused. -/
theorem mergeKept_kernel (hm : Segmented m join) (ha : Answers num m join)
    (hne : declaredOf channels ≠ []) (hmany : 2 ≤ (populated cells).length)
    {out : Digest × List Words}
    (h : mergeKept num m delta asUint64 cells channels (populated cells) = .ok out) :
    compressed num delta ((declaredOf channels).map Prod.fst) (mergeRows cells (declaredOf channels)) =
      ⟨out.1, out.2⟩ := by
  rw [mergeKept, mergeTdigestsKwargs_eq] at h
  obtain ⟨merged, hmerged, hunpack⟩ := bind_ok h
  cases hplan : planKway num delta ((declaredOf channels).map Prod.fst)
      ((populated cells).map (partAt cells ((declaredOf channels).map Prod.snd))) with
  | error msg =>
    rw [hplan] at hmerged
    cases hmerged
  | ok plan =>
    rw [hplan] at hmerged
    cases planKway_ok hmany hplan
    obtain ⟨words, hwords, hfinish⟩ := bind_ok hmerged
    have hmap : ((declaredOf channels).map fun c =>
        (c.1, (populated cells).map fun i => c.2.getD i [])) ≠ [] := by
      intro hnil
      exact hne (List.map_eq_nil_iff.mp hnil)
    rw [if_neg hmap] at hfinish
    obtain rfl := Except.ok.inj hfinish
    obtain rfl := Except.ok.inj hunpack
    have hrows : mergeRows cells (declaredOf channels) ≠ [] := by
      obtain ⟨sorted, hperm, hrows⟩ := exists_sorted cells (declaredOf channels)
      intro hnil
      rw [hnil] at hrows
      have hsorted : sorted = [] := List.map_eq_nil_iff.mp hrows.symm
      rw [hsorted] at hperm
      refine positions_ne_nil (fun hempty => ?_) hperm.nil_eq.symm
      rw [hempty, List.length_nil] at hmany
      omega
    exact compressed_of_outputs hm ha hrows hwords

/-- A fold that returns is the plain kernel's, on the digests with their words. -/
theorem foldDigestsWith_kernel (hm : Segmented m join) (ha : Answers num m join) (hne : channels ≠ [])
    {out : Digest × List Words}
    (h : foldDigestsWith num m delta asUint64 cells channels = .ok out) :
    Stats.foldDigests num delta ((declaredOf channels).map Prod.fst)
      ((List.range cells.length).map (partAt cells ((declaredOf channels).map Prod.snd))) =
        .ok ⟨out.1, out.2⟩ := by
  unfold foldDigestsWith at h
  split at h
  · cases h
  next hunknown =>
  have hknown : ∀ k ∈ channels.map Prod.fst, k ∈ companionChannels.map Prod.fst := by
    intro k hk
    by_contra hnot
    have hin := mem_unknown.mpr ⟨hk, hnot⟩
    rw [not_not.mp hunknown] at hin
    cases hin
  obtain ⟨u, hchecks, h⟩ := bind_ok h
  have hrows : ∀ c ∈ declaredOf channels, RowsMatch cells c.2 := by
    intro c hc
    obtain ⟨d, hd, rfl⟩ := List.mem_map.mp hc
    exact checkChannel_ok.mp (forM_ok_iff.mp hchecks d hd)
  have haligned : ∀ p ∈ (populated cells).map (partAt cells ((declaredOf channels).map Prod.snd)),
      p.Aligned ((declaredOf channels).map Prod.fst) := by
    intro p hp k hk
    obtain ⟨i, hi, rfl⟩ := List.mem_map.mp hp
    rw [List.length_map] at hk
    rw [partAt_words (List.getElem?_eq_getElem hk), partAt_digest]
    exact (hrows _ (List.getElem_mem hk)).2 i hi
  unfold Stats.foldDigests
  simp only [filter_range_parts, misaligned_eq_none haligned]
  match hkeep : populated cells with
  | [] =>
    rw [hkeep] at h
    obtain rfl := Except.ok.inj h
    refine congrArg (fun words => Except.ok (Stats.Part.mk [] words)) ?_
    rw [declaredOf, List.map_map, List.map_map]
    rfl
  | [i] =>
    rw [hkeep] at h
    obtain rfl := Except.ok.inj h
    simp [declaredOf, partAt]
  | i :: j :: keep =>
    have hmany : 2 ≤ (populated cells).length := by
      rw [hkeep]
      exact Nat.le_add_left ..
    have hmerge : mergeKept num m delta asUint64 cells channels (populated cells) = .ok out := by
      rw [hkeep] at h ⊢
      exact h
    have hkernel := mergeKept_kernel hm ha (declared_ne_nil hne hknown) hmany hmerge
    have hflat := flatMap_rows cells ((declaredOf channels).map Prod.snd)
    have hfilter := filter_parts cells ((declaredOf channels).map Prod.snd)
    rw [hkeep] at hflat hfilter
    rw [mergeRows, ← hflat] at hkernel
    simp only [List.map_cons] at hkernel hfilter ⊢
    rw [mergeTdigestsKway, hfilter]
    exact congrArg Except.ok hkernel

end Kernel

/-- A fold with channels raises where a vector does not match its digest, where a merged word
is reserved or refused, or returns one row-aligned vector a channel, each folded from its own
words, in the order a field declares them and whatever the order of the mapping. -/
theorem foldDigests_channels (num : Numerics) (m : WordFolds) (join : Words → Option Nat)
    (hm : Segmented m join) (delta : Nat) (asUint64 : ℚ → Nat) (cells : List Digest)
    (channels : Channels) (hne : channels ≠ []) (hkeys : (channels.map Prod.fst).Nodup) :
    FoldOutcome num m join cells channels
      (foldDigests num m delta asUint64 cells (some channels)) ∧
    (∀ channels', channels.Perm channels' →
      foldDigests num m delta asUint64 cells (some channels') =
        foldDigests num m delta asUint64 cells (some channels)) ∧
    ∀ location temporal,
      (∀ k, k ∈ channels.map Prod.fst ↔ k ∈ fieldCompanions location temporal) →
        (suppliedChannels channels).map Prod.fst = fieldCompanions location temporal :=
  ⟨foldDigestsWith_outcome hm hne, fun _ h => (foldDigestsWith_perm hkeys h).symm,
    fun _ _ h => supplied_fieldCompanions h⟩

/-- Two populated digests with an empty one between, the later channel of the table first. -/
theorem foldDigests_channels_merged :
    FoldOutcome smallNumerics smallNumerics.folds (fun ws => some (smallNumerics.tocsReduce ws))
      [[⟨1, 1⟩, ⟨4, 1⟩], [], [⟨2, 1⟩]] [("temporal", [[7, 9], [], [8]]), ("locations", [[5, 4], [], [6]])]
      (foldDigests smallNumerics smallNumerics.folds 8 (fun _ => 0) [[⟨1, 1⟩, ⟨4, 1⟩], [], [⟨2, 1⟩]]
        (some [("temporal", [[7, 9], [], [8]]), ("locations", [[5, 4], [], [6]])])) ∧
    foldDigests smallNumerics smallNumerics.folds 8 (fun _ => 0) [[⟨1, 1⟩, ⟨4, 1⟩], [], [⟨2, 1⟩]]
        (some [("temporal", [[7, 9], [], [8]]), ("locations", [[5, 4], [], [6]])]) =
      .ok ([⟨1, 1⟩, ⟨2, 1⟩, ⟨4, 1⟩], [[5, 6, 4], [7, 8, 9]]) :=
  ⟨(foldDigests_channels smallNumerics smallNumerics.folds _ (segmented_folds smallNumerics) 8
    (fun _ => 0) [[⟨1, 1⟩, ⟨4, 1⟩], [], [⟨2, 1⟩]]
    [("temporal", [[7, 9], [], [8]]), ("locations", [[5, 4], [], [6]])] (by decide) (by decide)).1,
    by decide +kernel⟩

/-- Rows that match are refused all the same when a merged word is the reserved one. -/
theorem foldDigests_reserved_word :
    (∀ c ∈ declaredOf [("locations", [[0], [5]])], RowsMatch [[⟨1, 1⟩], [⟨2, 1⟩]] c.2) ∧
    ∃ msg, foldDigests smallNumerics smallNumerics.folds 8 (fun _ => 0) [[⟨1, 1⟩], [⟨2, 1⟩]]
      (some [("locations", [[0], [5]])]) = .error (.words msg) := by
  constructor
  · unfold RowsMatch
    decide +kernel
  · exact ⟨_, rfl⟩

end Zagg.Sweep
