import Zagg.Stats.CompanionFolds

/-!
# The calls that fold companion channels

A build or a merge takes its companion words from arrays, checks them, and leaves for every
declared channel either a copy or one fold over the partition `_compress` made. What a call
leaves depends on the arrays it reads only, and every partition it folds covers its words.
-/
namespace Zagg.Stats

open Zagg.Lib

/-- An array of words. -/
abbrev Addr := Nat

abbrev Heap := List Words

def Heap.read (heap : Heap) (a : Addr) : Words := heap.getD a []

/-- The words of the declared channels, an array each. -/
def Heap.load (heap : Heap) (declared : List Channel) (arrays : List Addr) : List Words :=
  (arrays.take declared.length).map heap.read

/-- A digest beside its channels' arrays. -/
structure Stored where
  digest : Digest
  arrays : List Addr
deriving DecidableEq

def Stored.load (heap : Heap) (declared : List Channel) (s : Stored) : Part :=
  ⟨s.digest, heap.load declared s.arrays⟩

inductive Call
  | build (delta : Nat) (declared : List Channel) (values : List Value) (arrays : List Addr)
  | merge (delta : Nat) (declared : List Channel) (a b : Stored)
  | kway (delta : Nat) (declared : List Channel) (parts : List Stored)

/-- What a call leaves for one channel. -/
inductive Output
  | copy (words : Words)
  | fold (words : Words) (starts : List Nat) (n : Nat)

/-- The digest of a call and its channels' outputs in order. -/
structure Plan where
  digest : Digest
  outputs : List (Channel × Output)

section Plan
variable (num : Numerics) (delta : Nat) (declared : List Channel)

/-- The third value of `_compress`. -/
def compressStarts (rows : List Row) : List Nat :=
  let cumw := cumsum (rows.map Row.weight)
  let kRight := cumw.map fun c => num.k1 delta (c / cumw.getLastD 0)
  starts (num.k1 delta 0) kRight rows.length 0

def planCompressed (rows : List Row) : Plan :=
  ⟨(compress num delta rows).map (centroidOf num),
    declared.zipIdx.map fun c => (c.1, .fold (rows.map fun r => r.words.getD c.2 0)
      (compressStarts num delta rows) rows.length)⟩

def planCopies (digest : Digest) (words : List Words) : Plan :=
  ⟨digest, declared.zipIdx.map fun c => (c.1, .copy (words.getD c.2 []))⟩

def planBuild (values : List Value) (words : List Words) : Except String Plan := do
  let channels ← declared.zipIdx.mapM fun c =>
    checkWords (toString c.1) (words.getD c.2 []) values.length
  match observationRows values channels with
  | [] => return planCopies declared [] []
  | rows => return planCompressed num delta declared (sortByMean rows)

def planMerge (a b : Part) : Except String Plan := do
  let _ ← declared.zipIdx.mapM fun c => do
    let left ← checkWords s!"{c.1}1" (a.words.getD c.2 []) a.digest.length
    let right ← checkWords s!"{c.1}2" (b.words.getD c.2 []) b.digest.length
    return (left, right)
  match a.digest, b.digest with
  | [], [] => return planCopies declared [] []
  | _, [] => return planCopies declared (a.asFloat32 num).digest a.words
  | [], _ => return planCopies declared (b.asFloat32 num).digest b.words
  | _, _ => return planCompressed num delta declared (sortByMean (a.rows ++ b.rows))

def planKway (parts : List Part) : Except String Plan := do
  let _ ← (parts.zipIdx.filter fun p => p.1.digest ≠ []).mapM fun p =>
    declared.zipIdx.mapM fun c =>
      checkWords s!"{c.1}[{p.2}]" (p.1.words.getD c.2 []) p.1.digest.length
  match parts.filter fun p => p.digest ≠ [] with
  | [] => return planCopies declared [] []
  | [p] => return planCopies declared (p.asFloat32 num).digest p.words
  | kept => return planCompressed num delta declared (lexsort (kept.flatMap Part.rows))

end Plan

def Call.plan (num : Numerics) (heap : Heap) : Call → Except String Plan
  | .build delta declared values arrays =>
    planBuild num delta declared values (heap.load declared arrays)
  | .merge delta declared a b =>
    planMerge num delta declared (a.load heap declared) (b.load heap declared)
  | .kway delta declared parts => planKway num delta declared (parts.map (Stored.load heap declared))

/-- The arrays a call looks into: one a channel, and none of an empty digest in a k-way
merge. -/
def Call.reads : Call → List Addr
  | .build _ declared _ arrays => arrays.take declared.length
  | .merge _ declared a b => a.arrays.take declared.length ++ b.arrays.take declared.length
  | .kway _ declared parts => (parts.filter fun p => p.digest ≠ []).flatMap fun p =>
      p.arrays.take declared.length

section Partition
variable (num : Numerics) (delta : Nat)

theorem partition_compressStarts {rows : List Row} (h : rows ≠ []) :
    Partition (compressStarts num delta rows) rows.length := by
  have hpos : 0 < rows.length := List.length_pos_iff.mpr h
  have hlen := length_edges num delta rows
  generalize hkRight : (cumsum (rows.map Row.weight)).map (fun c =>
    num.k1 delta (c / (cumsum (rows.map Row.weight)).getLastD 0)) = kRight at hlen
  have hcuts : compressStarts num delta rows = cuts (num.k1 delta 0) kRight 0 := by
    rw [compressStarts, hkRight]
    exact starts_eq_cuts (by omega)
  rw [hcuts]
  refine ⟨?_, pairwise_cuts _ _ 0, fun s hs => ?_⟩
  · rw [cuts_of_lt _ _ (by omega), List.head?_cons]
  · rw [← hlen]
    exact (le_of_mem_cuts _ _ 0 s hs).2

end Partition

/-- An output is foldable: its partition covers its words. -/
def Output.Valid : Output → Prop
  | .copy _ => True
  | .fold words starts n => Partition starts words.length ∧ n = words.length

theorem planCompressed_valid (num : Numerics) (delta : Nat) (declared : List Channel)
    {rows : List Row} (h : rows ≠ []) :
    ∀ o ∈ (planCompressed num delta declared rows).outputs, o.2.Valid := by
  intro o ho
  obtain ⟨k, -, rfl⟩ := List.mem_map.mp ho
  show Partition _ (rows.map _).length ∧ _
  rw [List.length_map]
  exact ⟨partition_compressStarts num delta h, rfl⟩

theorem planCopies_valid (declared : List Channel) (digest : Digest) (words : List Words) :
    ∀ o ∈ (planCopies declared digest words).outputs, o.2.Valid := by
  intro o ho
  obtain ⟨k, -, rfl⟩ := List.mem_map.mp ho
  trivial

theorem planBuild_valid {num : Numerics} {delta : Nat} {declared : List Channel}
    {values : List Value} {words : List Words} {plan : Plan}
    (h : planBuild num delta declared values words = .ok plan) : ∀ o ∈ plan.outputs, o.2.Valid := by
  obtain ⟨channels, -, h⟩ := bind_ok h
  split at h
  · cases h
    exact planCopies_valid declared [] []
  · next hne =>
    cases h
    refine planCompressed_valid num delta declared fun hnil => hne ?_
    have hperm := List.perm_insertionSort (fun a b : Row => a.mean ≤ b.mean)
      (observationRows values channels)
    rw [← sortByMean, hnil] at hperm
    exact List.nil_perm.mp hperm

theorem Part.length_rows (p : Part) : p.rows.length = p.digest.length := by
  rw [Part.rows, List.length_map, List.length_zipIdx]

theorem planMerge_valid {num : Numerics} {delta : Nat} {declared : List Channel} {a b : Part}
    {plan : Plan} (h : planMerge num delta declared a b = .ok plan) :
    ∀ o ∈ plan.outputs, o.2.Valid := by
  obtain ⟨checked, -, h⟩ := bind_ok h
  split at h
  · cases h
    exact planCopies_valid declared [] []
  · cases h
    exact planCopies_valid declared _ _
  · cases h
    exact planCopies_valid declared _ _
  · next hleft _ _ =>
    cases h
    refine planCompressed_valid num delta declared fun hnil => ?_
    have hlen := (List.perm_insertionSort (fun a b : Row => a.mean ≤ b.mean) (a.rows ++ b.rows)).length_eq
    rw [← sortByMean, hnil, List.length_append, a.length_rows, b.length_rows] at hlen
    have hzero : a.digest.length = 0 := by
      rw [List.length_nil] at hlen
      omega
    exact hleft (List.length_eq_zero_iff.mp hzero)

theorem planKway_valid {num : Numerics} {delta : Nat} {declared : List Channel} {parts : List Part}
    {plan : Plan} (h : planKway num delta declared parts = .ok plan) :
    ∀ o ∈ plan.outputs, o.2.Valid := by
  obtain ⟨checked, -, h⟩ := bind_ok h
  generalize hkept : parts.filter (fun p => p.digest ≠ []) = kept at h
  have hne : ∀ p ∈ kept, p.digest ≠ [] := by
    intro p hp
    rw [← hkept] at hp
    exact of_decide_eq_true (List.mem_filter.mp hp).2
  match kept with
  | [] =>
    cases h
    exact planCopies_valid declared [] []
  | [p] =>
    cases h
    exact planCopies_valid declared _ _
  | p :: q :: kept =>
    cases h
    refine planCompressed_valid num delta declared fun hnil => ?_
    have hlen := (List.perm_insertionSort (fun a b : Row => a.key ≤ b.key)
      ((p :: q :: kept).flatMap Part.rows)).length_eq
    rw [← lexsort, hnil, List.flatMap_cons, List.length_append, p.length_rows] at hlen
    have hpos := List.length_pos_iff.mpr (hne p (.head _))
    rw [List.length_nil] at hlen
    omega

theorem Call.plan_valid {num : Numerics} {heap : Heap} {call : Call} {plan : Plan}
    (h : call.plan num heap = .ok plan) : ∀ o ∈ plan.outputs, o.2.Valid := by
  cases call with
  | build => exact planBuild_valid h
  | merge => exact planMerge_valid h
  | kway => exact planKway_valid h

section Reads

theorem load_congr {heap heap' : Heap} {declared : List Channel} {arrays : List Addr}
    (h : ∀ a ∈ arrays.take declared.length, heap.read a = heap'.read a) :
    heap.load declared arrays = heap'.load declared arrays := List.map_congr_left h

/-- A k-way merge sees its nonempty digests. -/
theorem planKway_congr (num : Numerics) (delta : Nat) (declared : List Channel)
    {parts : List Stored} {f g : Stored → Part} (hf : ∀ p, (f p).digest = p.digest)
    (hg : ∀ p, (g p).digest = p.digest) (h : ∀ p ∈ parts, p.digest ≠ [] → f p = g p) :
    planKway num delta declared (parts.map f) = planKway num delta declared (parts.map g) := by
  have hkept : (parts.map f).filter (fun p => p.digest ≠ []) =
      (parts.map g).filter fun p => p.digest ≠ [] := by
    rw [List.filter_map, List.filter_map]
    simp only [Function.comp_def, hf, hg]
    apply List.map_congr_left
    intro p hp
    obtain ⟨hp, hne⟩ := List.mem_filter.mp hp
    exact h p hp (of_decide_eq_true hne)
  have hindexed : (parts.map f).zipIdx.filter (fun p => p.1.digest ≠ []) =
      (parts.map g).zipIdx.filter fun p => p.1.digest ≠ [] := by
    rw [List.zipIdx_map, List.zipIdx_map, List.filter_map, List.filter_map]
    simp only [Function.comp_def, Prod.map_fst, hf, hg]
    apply List.map_congr_left
    intro p hp
    obtain ⟨hp, hne⟩ := List.mem_filter.mp hp
    rw [Prod.map_apply, Prod.map_apply, h p.1 (List.fst_mem_of_mem_zipIdx hp) (of_decide_eq_true hne)]
  rw [planKway, planKway, hkept, hindexed]

/-- A call sees what it reads. -/
theorem Call.plan_congr (num : Numerics) {heap heap' : Heap} {call : Call}
    (h : ∀ a ∈ call.reads, heap.read a = heap'.read a) : call.plan num heap = call.plan num heap' := by
  cases call with
  | build delta declared values arrays =>
    show planBuild num delta declared values _ = planBuild num delta declared values _
    rw [load_congr h]
  | merge delta declared a b =>
    show planMerge num delta declared (a.load heap declared) (b.load heap declared) = _
    rw [Stored.load, Stored.load, load_congr fun x hx => h x (List.mem_append_left _ hx),
      load_congr fun x hx => h x (List.mem_append_right _ hx)]
    rfl
  | kway delta declared parts =>
    refine planKway_congr num delta declared (fun _ => rfl) (fun _ => rfl) fun p hp hne => ?_
    rw [Stored.load, Stored.load, load_congr fun x hx => ?_]
    exact h x (List.mem_flatMap.mpr ⟨p, List.mem_filter.mpr ⟨hp, decide_eq_true hne⟩, hx⟩)

theorem notMem_of_checkWords {label : String} {words checked : Words} {n : Nat}
    (h : checkWords label words n = .ok checked) : 0 ∉ words := by
  intro hzero
  rw [checkWords] at h
  split at h
  · cases h
  · cases h

theorem exists_loaded (heap : Heap) {declared : List Channel} {arrays : List Addr} {a : Addr}
    (h : a ∈ arrays.take declared.length) :
    ∃ c ∈ declared.zipIdx, (heap.load declared arrays).getD c.2 [] = heap.read a := by
  obtain ⟨i, hi, rfl⟩ := List.mem_iff_getElem.mp h
  have hlt : i < declared.length := by
    rw [List.length_take] at hi
    omega
  refine ⟨(declared[i], i), List.mem_zipIdx_iff_getElem?.mpr (List.getElem?_eq_getElem hlt), ?_⟩
  rw [Heap.load, List.getD_eq_getElem _ _ (by rwa [List.length_map]), List.getElem_map]

/-- No call gets by with a reserved word in an array it reads. -/
theorem Call.notMem_of_plan {num : Numerics} {heap : Heap} {call : Call} {plan : Plan}
    (h : call.plan num heap = .ok plan) : ∀ a ∈ call.reads, 0 ∉ heap.read a := by
  intro x hx
  cases call with
  | build delta declared values arrays =>
    obtain ⟨channels, hchecked, -⟩ := bind_ok h
    obtain ⟨k, hk, hload⟩ := exists_loaded heap hx
    obtain ⟨words, -, hwords⟩ := ok_of_mapM hchecked hk
    exact hload ▸ notMem_of_checkWords hwords
  | merge delta declared a b =>
    obtain ⟨checked, hchecked, -⟩ := bind_ok h
    rcases List.mem_append.mp hx with hx | hx
    · obtain ⟨k, hk, hload⟩ := exists_loaded heap hx
      obtain ⟨words, -, hwords⟩ := ok_of_mapM hchecked hk
      obtain ⟨left, hleft, -⟩ := bind_ok hwords
      exact hload ▸ notMem_of_checkWords hleft
    · obtain ⟨k, hk, hload⟩ := exists_loaded heap hx
      obtain ⟨words, -, hwords⟩ := ok_of_mapM hchecked hk
      obtain ⟨left, -, hwords⟩ := bind_ok hwords
      obtain ⟨right, hright, -⟩ := bind_ok hwords
      exact hload ▸ notMem_of_checkWords hright
  | kway delta declared parts =>
    obtain ⟨checked, hchecked, -⟩ := bind_ok h
    obtain ⟨p, hp, hx⟩ := List.mem_flatMap.mp hx
    obtain ⟨hp, hne⟩ := List.mem_filter.mp hp
    obtain ⟨i, hi, hpi⟩ := List.mem_iff_getElem.mp hp
    have hmem : (p.load heap declared, i) ∈ (parts.map (Stored.load heap declared)).zipIdx := by
      refine List.mem_zipIdx_iff_getElem?.mpr ?_
      rw [List.getElem?_map, List.getElem?_eq_getElem hi, hpi]
      rfl
    obtain ⟨k, hk, hload⟩ := exists_loaded heap hx
    obtain ⟨words, -, hwords⟩ := ok_of_mapM hchecked (List.mem_filter.mpr ⟨hmem, hne⟩)
    obtain ⟨word, -, hword⟩ := ok_of_mapM hwords hk
    exact hload ▸ notMem_of_checkWords hword

end Reads

/-- The folds with the reductions of `num`, which refuse no word. -/
def Numerics.folds (num : Numerics) : WordFolds where
  validateMorton _ := true
  commonAncestor words := some (num.commonAncestor words)
  tocsReduce words offsets := some ((slots words offsets).map num.tocsReduce)

theorem segmented_folds (num : Numerics) :
    Segmented num.folds fun words => some (num.tocsReduce words) :=
  fun _ _ _ _ _ => (mapM_some fun _ _ => rfl).symm

/-- Where the reductions of `m` answer, they answer as those of `num`. -/
structure Answers (num : Numerics) (m : WordFolds) (join : Words → Option Nat) : Prop where
  commonAncestor : ∀ words w, m.commonAncestor words = some w → num.commonAncestor words = w
  tocsReduce : ∀ words w, join words = some w → num.tocsReduce words = w

theorem answers_folds (num : Numerics) :
    Answers num num.folds fun words => some (num.tocsReduce words) :=
  ⟨fun _ _ h => Option.some.inj h, fun _ _ h => Option.some.inj h⟩

/-- A centroid's word that is not refused is that of the plain kernel. -/
theorem channelWord_of_segmentWord {num : Numerics} {m : WordFolds} {join : Words → Option Nat}
    (h : Answers num m join) {channel : Channel} {words : Words} (hne : words ≠ []) {w : Nat}
    (hw : segmentWord m join channel words = some w) : channelWord num channel words = w := by
  cases channel with
  | temporal => exact h.tocsReduce words w hw
  | locations =>
    match words, hne with
    | [x], _ =>
      simp only [segmentWord] at hw
      split at hw
      · exact Option.some.inj hw
      · cases hw
    | x :: y :: words, _ =>
      have hmany : ¬ (x :: y :: words).length = 1 := by simp
      rw [channelWord, if_neg hmany]
      exact h.commonAncestor _ w hw

end Zagg.Stats
