import Zagg.Lib.Pointwise
import Zagg.Lib.Segments
import Zagg.Stats.TdigestBuild

/-!
# The companion folds of one call

Beside its digest a call reduces the member words of every centroid to one word: a location
to the deepest cell that holds its members, a time to the envelope of its members. Both folds
read each centroid's own members only, so over two partitions behind one another they give
the words of both. `none` is a call that raised.
-/
namespace Zagg.Stats

open Zagg.Lib

/-- What the folds call in `mortie`. -/
structure WordFolds where
  validateMorton : Nat → Bool
  commonAncestor : Words → Option Nat
  tocsReduce : Words → List Nat → Option Words

section Folds
variable (m : WordFolds)

/-- The first member of each centroid and the one past its last. -/
def spans (starts : List Nat) (n : Nat) : List (Nat × Nat) := starts.zip (starts.tail ++ [n])

/-- `_centroid_ancestors`: the singletons are validated in one pass and copied through. -/
def centroidAncestors (locations : Words) (starts : List Nat) (n : Nat) : Option Words := do
  let single := (spans starts n).filter fun s => s.2 - s.1 = 1
  let singles ← single.mapM fun s => locations[s.1]?
  if singles.all m.validateMorton then
    (spans starts n).mapM fun s =>
      if s.2 - s.1 = 1 then locations[s.1]? else m.commonAncestor (slice locations s.1 s.2)
  else none

/-- `_centroid_envelopes`. -/
def centroidEnvelopes (temporal : Words) (starts : List Nat) (n : Nat) : Option Words :=
  m.tocsReduce temporal (starts ++ [n])

def centroidFold : Channel → Words → List Nat → Nat → Option Words
  | .locations => centroidAncestors m
  | .temporal => centroidEnvelopes m

/-- The segmented reduce of the time grammar: over offsets that cover the words exactly, `join`
of every slot. -/
def Segmented (join : Words → Option Nat) : Prop :=
  ∀ words offsets, offsets.head? = some 0 → offsets.getLast? = some words.length →
    offsets.Pairwise (· < ·) → m.tocsReduce words offsets = (slots words offsets).mapM join

/-- The word of one centroid from its members. -/
def segmentWord (join : Words → Option Nat) : Channel → Words → Option Nat
  | .locations, [w] => if m.validateMorton w then some w else none
  | .locations, ws => m.commonAncestor ws
  | .temporal, ws => join ws

end Folds

theorem mapM_guard {α β : Type} (p : α → Bool) (f : α → Option β) (l : List α) :
    l.mapM (fun x => if p x then f x else none) = if l.all p then l.mapM f else none := by
  induction l with
  | nil => rfl
  | cons x l ih =>
    rw [List.mapM_cons, List.mapM_cons, ih, List.all_cons]
    cases hx : p x <;> cases l.all p <;> simp

theorem map_slice_spans (words : Words) {starts : List Nat} (hne : starts ≠ []) :
    (spans starts words.length).map (fun s => slice words s.1 s.2) = pieces words starts := by
  induction starts with
  | nil => exact absurd rfl hne
  | cons s ss ih =>
    cases ss with
    | nil =>
      show [slice words s words.length] = [words.drop s]
      rw [slice, List.take_of_length_le (by rw [List.length_drop])]
    | cons e ss =>
      have hrest := ih (List.cons_ne_nil e ss)
      show slice words s e :: (spans (e :: ss) words.length).map (fun s => slice words s.1 s.2) = _
      rw [hrest]
      rfl

/-- Under a partition every centroid has members. -/
theorem lt_of_mem_spans {starts : List Nat} {n : Nat} (hmono : starts.Pairwise (· < ·))
    (hlt : ∀ s ∈ starts, s < n) : ∀ s ∈ spans starts n, s.1 < s.2 ∧ s.2 ≤ n := by
  induction starts with
  | nil => exact nofun
  | cons s ss ih =>
    cases ss with
    | nil =>
      intro r hr
      rw [List.mem_singleton.mp hr]
      exact ⟨hlt s (.head _), le_rfl⟩
    | cons e ss =>
      intro r hr
      rcases List.mem_cons.mp hr with rfl | hr
      · exact ⟨List.rel_of_pairwise_cons hmono (.head _), (hlt e (.tail _ (.head _))).le⟩
      · exact ih hmono.of_cons (fun o ho => hlt o (.tail _ ho)) r hr

theorem slice_singleton {words : Words} {s e : Nat} (h : e - s = 1) (he : e ≤ words.length) :
    ∃ w, words[s]? = some w ∧ slice words s e = [w] := by
  have hs : s < words.length := by omega
  refine ⟨words[s], List.getElem?_eq_getElem hs, ?_⟩
  rw [slice, h, List.drop_eq_getElem_cons hs]
  rfl

theorem slice_ne_singleton {words : Words} {s e : Nat} (h : e - s ≠ 1) (hlt : s < e)
    (he : e ≤ words.length) (w : Nat) : slice words s e ≠ [w] := by
  intro heq
  have hlen := congrArg List.length heq
  rw [slice, List.length_take, List.length_drop, List.length_singleton] at hlen
  omega

section Segments
variable {m : WordFolds} {words : Words} {starts : List Nat}

/-- A singleton is copied, a run reduced. -/
def spanWord (m : WordFolds) (words : Words) (s : Nat × Nat) : Option Nat :=
  if s.2 - s.1 = 1 then words[s.1]? else m.commonAncestor (slice words s.1 s.2)

def spanValid (m : WordFolds) (words : Words) (s : Nat × Nat) : Bool :=
  s.2 - s.1 ≠ 1 || (words[s.1]?).any m.validateMorton

theorem centroidAncestors_eq (join : Words → Option Nat) (hp : Partition starts words.length) :
    centroidAncestors m words starts words.length =
      (pieces words starts).mapM (segmentWord m join .locations) := by
  have hne := hp.ne_nil
  have hspan := lt_of_mem_spans hp.mono hp.lt
  have hsegment : ∀ s ∈ spans starts words.length,
      segmentWord m join .locations (slice words s.1 s.2) =
        if spanValid m words s then spanWord m words s else none := by
    intro s hs
    obtain ⟨hlt, hle⟩ := hspan s hs
    by_cases hone : s.2 - s.1 = 1
    · obtain ⟨w, hw, hslice⟩ := slice_singleton hone hle
      simp [spanValid, spanWord, hone, hw, hslice, segmentWord]
    · have hmany := slice_ne_singleton hone hlt hle
      have hword : segmentWord m join .locations (slice words s.1 s.2) =
          m.commonAncestor (slice words s.1 s.2) := by
        generalize slice words s.1 s.2 = ws at hmany ⊢
        match ws with
        | [] => rfl
        | [w] => exact absurd rfl (hmany w)
        | v :: w :: ws => rfl
      simp [spanValid, spanWord, hone, hword]
  have hsingles : ((spans starts words.length).filter fun s => s.2 - s.1 = 1).mapM
      (fun s => words[s.1]?) = some (((spans starts words.length).filter fun s =>
        s.2 - s.1 = 1).map fun s => words.getD s.1 0) := by
    refine mapM_some fun s hs => ?_
    obtain ⟨hmem, hone⟩ := List.mem_filter.mp hs
    obtain ⟨w, hw, -⟩ := slice_singleton (of_decide_eq_true hone) (hspan s hmem).2
    rw [List.getD_eq_getElem?_getD, hw]
    rfl
  have hvalid : (((spans starts words.length).filter fun s => s.2 - s.1 = 1).map
      fun s => words.getD s.1 0).all m.validateMorton =
      (spans starts words.length).all (spanValid m words) := by
    rw [List.all_map, List.all_filter, Bool.eq_iff_iff, List.all_eq_true, List.all_eq_true]
    refine forall₂_congr fun s hs => ?_
    by_cases hone : s.2 - s.1 = 1
    · obtain ⟨w, hw, -⟩ := slice_singleton hone (hspan s hs).2
      simp [spanValid, hone, hw]
    · simp [spanValid, hone]
  rw [← map_slice_spans words hne, List.mapM_map, Function.comp_def, mapM_option_congr hsegment,
    mapM_guard, ← hvalid, centroidAncestors, hsingles]
  rfl

theorem centroidFold_eq {join : Words → Option Nat} (hm : Segmented m join) (channel : Channel)
    (hp : Partition starts words.length) :
    centroidFold m channel words starts words.length =
      (pieces words starts).mapM (segmentWord m join channel) := by
  cases channel with
  | locations => exact centroidAncestors_eq join hp
  | temporal =>
    obtain ⟨rest, rfl⟩ : ∃ rest, starts = 0 :: rest := by
      cases starts with
      | nil => cases hp.head
      | cons s rest => exact ⟨rest, by rw [Option.some.inj hp.head]⟩
    have hmono : (0 :: rest ++ [words.length]).Pairwise (· < ·) := by
      refine List.pairwise_append.mpr ⟨hp.mono, List.pairwise_singleton _ _, fun s hs t ht => ?_⟩
      rw [List.mem_singleton.mp ht]
      exact hp.lt s hs
    show m.tocsReduce words (0 :: rest ++ [words.length]) = (pieces words (0 :: rest)).mapM join
    rw [hm words _ rfl List.getLast?_concat hmono, slots_concat_length words (List.cons_ne_nil 0 rest)]

/-- Over two partitions behind one another a fold gives the words of both. -/
theorem centroidFold_concat {join : Words → Option Nat} (hm : Segmented m join) (channel : Channel)
    {words' : Words} {starts' : List Nat} (hp : Partition starts words.length)
    (hp' : Partition starts' words'.length) :
    centroidFold m channel (words ++ words') (starts ++ starts'.map (· + words.length))
        (words.length + words'.length) = do
      let out ← centroidFold m channel words starts words.length
      let out' ← centroidFold m channel words' starts' words'.length
      return out ++ out' := by
  have hne := hp.ne_nil
  have happ := hp.append hp'
  rw [← List.length_append] at happ ⊢
  rw [centroidFold_eq hm channel happ, centroidFold_eq hm channel hp, centroidFold_eq hm channel hp',
    pieces_concat hne hp.lt hp'.head, List.mapM_append]

end Segments

end Zagg.Stats
