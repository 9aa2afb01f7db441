import Zagg.Lib.Join
import Zagg.Lib.Pointwise
import Zagg.Stats.TdigestBuild

/-!
# The envelope of a fold tree

Every centroid of a folded digest stands for a group of observations, and the groups make up
the finite observations of the tree. The words are the groups' joins, so their join does not
depend on how the tree groups the observations; the weights are the groups' sizes as long as
`float32` holds these exactly.
-/
namespace Zagg.Stats

open Zagg.Lib

/-- What the code relies on: `mortie` joins words on the domains `D`, no encoder writes the
reserved word, and `float32` is exact on small counts. -/
structure Lawful (num : Numerics) (D : Channel → Nat → Prop) (join : Channel → Nat → Nat → Nat) :
    Prop where
  ancestor : Joins (D .locations) (join .locations) num.commonAncestor
  envelope : Joins (D .temporal) (join .temporal) num.tocsReduce
  encoded : ∀ channel w, D channel w → w ≠ 0
  exact : ∀ n : Nat, n ≤ 2 ^ 24 → num.float32 n = n

variable {num : Numerics} {D : Channel → Nat → Prop} {join : Channel → Nat → Nat → Nat}
  {declared : List Channel}

theorem Lawful.joins (h : Lawful num D join) (channel : Channel) :
    Joins (D channel) (join channel) (channelWord num channel) := by
  cases channel with
  | temporal => exact h.envelope
  | locations =>
    refine ⟨h.ancestor.closed, h.ancestor.assoc, h.ancestor.comm, h.ancestor.idem, ?_⟩
    intro w ws hw hws
    rw [← h.ancestor.reduce_cons w ws hw hws]
    cases ws with
    | nil => exact (h.ancestor.reduce_cons w [] hw nofun).symm
    | cons v ws => rfl

/-- An observation with an encoded word in every declared channel. -/
def Obs.Encoded (D : Channel → Nat → Prop) (declared : List Channel) (o : Obs) : Prop :=
  ∀ c ∈ declared.zipIdx, D c.1 (o.word c.2)

def finiteObs (obs : List Obs) : List Obs := obs.filter fun o => o.value.isSome

def exactCount : Nat := 2 ^ 24

/-- A row stands for a group of observations. -/
structure Stands (num : Numerics) (D : Channel → Nat → Prop) (declared : List Channel) (r : Row)
    (group : List Obs) : Prop where
  nonempty : group ≠ []
  encoded : ∀ o ∈ group, o.Encoded D declared
  word : ∀ c ∈ declared.zipIdx, r.words.getD c.2 0 = channelWord num c.1 (group.map (Obs.word c.2))
  weight : group.length ≤ exactCount → r.weight = group.length

/-- The centroids of a digest stand for groups of observations. -/
structure Clusters (num : Numerics) (D : Channel → Nat → Prop) (declared : List Channel) (p : Part)
    (groups : List (List Obs)) : Prop where
  nonempty : ∀ group ∈ groups, group ≠ []
  encoded : ∀ group ∈ groups, ∀ o ∈ group, o.Encoded D declared
  weights : List.Forall₂ (fun (centroid : Centroid) (group : List Obs) =>
    group.length ≤ exactCount → centroid.weight = group.length) p.digest groups
  words : p.words = declared.zipIdx.map fun c =>
    groups.map fun group => channelWord num c.1 (group.map (Obs.word c.2))

namespace Clusters
variable {p : Part} {groups : List (List Obs)} (h : Clusters num D declared p groups)
include h

theorem wordsOf {c : Channel × Nat} (hc : c ∈ declared.zipIdx) :
    p.words.getD c.2 [] = groups.map fun group => channelWord num c.1 (group.map (Obs.word c.2)) := by
  rw [h.words, getD_map_zipIdx declared _ [] hc]

theorem digest_eq_nil : p.digest = [] ↔ groups = [] := by
  rw [← List.length_eq_zero_iff, h.weights.length_eq, List.length_eq_zero_iff]

theorem rows_stand : List.Forall₂ (Stands num D declared) p.rows groups := by
  have hlen := h.weights.length_eq
  have hweights := h.weights.get
  refine List.forall₂_iff_get.mpr ⟨by rw [Part.rows, List.length_map, List.length_zipIdx, hlen], ?_⟩
  intro i hi hg
  have hmem : groups.get ⟨i, hg⟩ ∈ groups := List.getElem_mem hg
  refine ⟨h.nonempty _ hmem, h.encoded _ hmem, fun c hc => ?_, fun hsize => ?_⟩
  · have hword : (p.words.map fun v => v.getD i 0).getD c.2 0 =
        channelWord num c.1 ((groups.get ⟨i, hg⟩).map (Obs.word c.2)) := by
      rw [h.words, List.map_map, getD_map_zipIdx declared _ 0 hc]
      simp [hg]
    simpa [Part.rows] using hword
  · have hrow := hweights (hlen ▸ hg) hg hsize
    simpa [Part.rows] using hrow

/-- The words pass every check of the entry points. -/
theorem checkWords_ok (hnum : Lawful num D join) {c : Channel × Nat} (hc : c ∈ declared.zipIdx)
    (label : String) : checkWords label (p.words.getD c.2 []) p.digest.length =
      .ok (p.words.getD c.2 []) := by
  have hlen : (p.words.getD c.2 []).length = p.digest.length := by
    rw [h.wordsOf hc, List.length_map, h.weights.length_eq]
  have hzero : 0 ∉ p.words.getD c.2 [] := by
    rw [h.wordsOf hc]
    intro hmem
    obtain ⟨group, hgroup, hword⟩ := List.mem_map.mp hmem
    have hne : group.map (Obs.word c.2) ≠ [] := fun hnil =>
      h.nonempty group hgroup (List.map_eq_nil_iff.mp hnil)
    have hD : D c.1 (channelWord num c.1 (group.map (Obs.word c.2))) := by
      refine (hnum.joins c.1).reduce_mem hne fun w hw => ?_
      obtain ⟨o, ho, rfl⟩ := List.mem_map.mp hw
      exact h.encoded group hgroup o ho c hc
    exact hnum.encoded c.1 _ hD hword
  rw [checkWords, if_neg (not_not.mpr hlen), if_neg hzero]

end Clusters

theorem clusters_empty : Clusters num D declared ⟨[], declared.map fun _ => []⟩ [] := by
  refine ⟨nofun, nofun, .nil, ?_⟩
  simp [List.map_const']

/-- Summed weights count the groups while the sum is exact. -/
theorem run_weight {run : List Row} {gs : List (List Obs)}
    (h : List.Forall₂ (Stands num D declared) run gs) (hsize : gs.flatten.length ≤ exactCount) :
    (run.map Row.weight).sum = gs.flatten.length := by
  induction h with
  | nil => rfl
  | cons hr _ ih =>
    rw [List.flatten_cons, List.length_append] at hsize
    rw [List.map_cons, List.sum_cons, List.flatten_cons, List.length_append, ih (by omega),
      hr.weight (by omega), Rat.natCast_add]

/-- The row of a finite observation. -/
def obsRow (declared : List Channel) (o : Obs) : Row :=
  ⟨o.value.getD 0, 1, declared.zipIdx.map fun c => o.word c.2⟩

theorem observationRows_eq (obs : List Obs) :
    observationRows (obs.map Obs.value) (channelsOf declared obs) =
      (finiteObs obs).map (obsRow declared) := by
  have hrow : ∀ c ∈ obs.zipIdx,
      (c.1.value.map fun x => ⟨x, 1, (channelsOf declared obs).map fun ws => ws.getD c.2 0⟩) =
        c.1.value.map fun _ => obsRow declared c.1 := by
    intro c hc
    obtain ⟨o, i⟩ := c
    obtain ⟨hi, ho⟩ := List.mem_zipIdx' hc
    have hwords : ((channelsOf declared obs).map fun ws => ws.getD i 0) =
        declared.zipIdx.map fun c => o.word c.2 := by
      rw [channelsOf, List.map_map]
      refine List.map_congr_left fun c _ => ?_
      simp [hi, ← ho]
    cases hv : o.value with
    | none => simp only [Option.map_none]
    | some x => simp only [hv, hwords, obsRow, Option.map_some, Option.getD_some]
  have hfinite : ∀ l : List Obs, (l.filterMap fun o => o.value.map fun _ => obsRow declared o) =
      (finiteObs l).map (obsRow declared) := by
    intro l
    induction l with
    | nil => rfl
    | cons o l ih =>
      rw [List.filterMap_cons, ih, finiteObs, finiteObs, List.filter_cons]
      cases o.value <;> rfl
  rw [observationRows, List.zipIdx_map, List.filterMap_map, ← hfinite]
  calc obs.zipIdx.filterMap _ = obs.zipIdx.filterMap fun c => c.1.value.map fun _ => obsRow declared c.1 :=
        List.filterMap_congr hrow
    _ = (obs.zipIdx.map Prod.fst).filterMap fun o => o.value.map fun _ => obsRow declared o := by
        rw [List.filterMap_map]
        rfl
    _ = _ := by rw [List.zipIdx_map_fst]

theorem buildTdigest_eq (delta : Nat) (obs : List Obs) :
    buildTdigest num delta declared (obs.map Obs.value) (channelsOf declared obs) =
      if finiteObs obs = [] then ⟨[], declared.map fun _ => []⟩
      else compressed num delta declared (sortByMean ((finiteObs obs).map (obsRow declared))) := by
  rw [buildTdigest, observationRows_eq]
  cases finiteObs obs <;> rfl

theorem buildTdigestChecked_eq {delta : Nat} {obs : List Obs}
    (hobs : ∀ o ∈ obs, ∀ c ∈ declared.zipIdx, o.word c.2 ≠ 0) :
    buildTdigestChecked num delta declared (obs.map Obs.value) (channelsOf declared obs) =
      .ok (buildTdigest num delta declared (obs.map Obs.value) (channelsOf declared obs)) := by
  have hchecks : (declared.zipIdx.mapM fun c => checkWords (toString c.1)
      ((channelsOf declared obs).getD c.2 []) (obs.map Obs.value).length) =
      .ok (channelsOf declared obs) := by
    refine mapM_ok fun c hc => ?_
    have hwords : (channelsOf declared obs).getD c.2 [] = obs.map (Obs.word c.2) :=
      getD_map_zipIdx declared _ [] hc
    have hzero : 0 ∉ obs.map (Obs.word c.2) := by
      intro hmem
      obtain ⟨o, ho, hword⟩ := List.mem_map.mp hmem
      exact hobs o ho c hc hword
    rw [hwords, checkWords, if_neg (by simp), if_neg hzero]
  rw [buildTdigestChecked, hchecks]
  rfl

/-- The nonempty digests hold all the observations. -/
theorem exists_kept {parts : List Part} {gss : List (List (List Obs))}
    (h : List.Forall₂ (Clusters num D declared) parts gss) :
    ∃ kept, List.Forall₂ (Clusters num D declared) (parts.filter fun p => p.digest ≠ []) kept ∧
      kept.flatten = gss.flatten := by
  induction h with
  | nil => exact ⟨[], .nil, rfl⟩
  | @cons p groups parts gss hp _ ih =>
    obtain ⟨kept, hkept, hflat⟩ := ih
    by_cases hnil : p.digest = []
    · obtain rfl := hp.digest_eq_nil.mp hnil
      refine ⟨kept, ?_, hflat⟩
      rw [List.filter_cons_of_neg (by simpa using hnil)]
      exact hkept
    · refine ⟨groups :: kept, ?_, by rw [List.flatten_cons, List.flatten_cons, hflat]⟩
      rw [List.filter_cons_of_pos (by simpa using hnil)]
      exact .cons hp hkept

section Lawful
variable (hnum : Lawful num D join)
include hnum

theorem asFloat32_clusters {p : Part} {groups : List (List Obs)}
    (h : Clusters num D declared p groups) : Clusters num D declared (p.asFloat32 num) groups := by
  refine ⟨h.nonempty, h.encoded, ?_, h.words⟩
  rw [Part.asFloat32, List.forall₂_map_left_iff]
  refine h.weights.imp fun centroid group hweight hsize => ?_
  rw [hweight hsize]
  exact hnum.exact _ hsize

/-- A run stands for the union of its rows' groups. -/
theorem run_stands {run : List Row} {gs : List (List Obs)}
    (h : List.Forall₂ (Stands num D declared) run gs) {c : Channel × Nat} (hc : c ∈ declared.zipIdx) :
    channelWord num c.1 (run.map fun r => r.words.getD c.2 0) =
      channelWord num c.1 (gs.flatten.map (Obs.word c.2)) := by
  have hwords : run.map (fun r => r.words.getD c.2 0) =
      (gs.map (List.map (Obs.word c.2))).map (channelWord num c.1) := by
    rw [List.map_map]
    induction h with
    | nil => rfl
    | cons hr _ ih => rw [List.map_cons, List.map_cons, ih, hr.word c hc]; rfl
  have hstand : ∀ g ∈ gs, ∃ r, Stands num D declared r g := by
    intro g hg
    obtain ⟨r, -, hr⟩ := forall₂_exists_of_mem_right h hg
    exact ⟨r, hr⟩
  rw [hwords, (hnum.joins c.1).reduce_flatten, List.map_flatten]
  · intro ws hws hnil
    obtain ⟨g, hg, rfl⟩ := List.mem_map.mp hws
    obtain ⟨r, hr⟩ := hstand g hg
    exact hr.nonempty (List.map_eq_nil_iff.mp hnil)
  · intro ws hws w hw
    obtain ⟨g, hg, rfl⟩ := List.mem_map.mp hws
    obtain ⟨o, ho, rfl⟩ := List.mem_map.mp hw
    obtain ⟨r, hr⟩ := hstand g hg
    exact hr.encoded o ho c hc

theorem runs_clusters {runs : List (List Row)} {gss : List (List (List Obs))}
    (h : List.Forall₂ (List.Forall₂ (Stands num D declared)) runs gss) (hne : ∀ run ∈ runs, run ≠ []) :
    Clusters num D declared ⟨runs.map (centroidOf num), declared.zipIdx.map fun c =>
      runs.map fun run => channelWord num c.1 (run.map fun r => r.words.getD c.2 0)⟩
        (gss.map List.flatten) := by
  have hstand : ∀ gs ∈ gss, ∀ g ∈ gs, ∃ r, Stands num D declared r g := by
    intro gs hgs g hg
    obtain ⟨run, -, hrun⟩ := forall₂_exists_of_mem_right h hgs
    obtain ⟨r, -, hr⟩ := forall₂_exists_of_mem_right hrun hg
    exact ⟨r, hr⟩
  refine ⟨?_, ?_, ?_, ?_⟩
  · intro group hgroup hnil
    obtain ⟨gs, hgs, rfl⟩ := List.mem_map.mp hgroup
    obtain ⟨run, hrun, hrel⟩ := forall₂_exists_of_mem_right h hgs
    have hpos : gs ≠ [] := by
      intro hgs
      subst hgs
      cases hrel
      exact hne [] hrun rfl
    obtain ⟨g, hg⟩ := List.exists_mem_of_ne_nil gs hpos
    obtain ⟨r, hr⟩ := hstand gs hgs g hg
    exact hr.nonempty (List.flatten_eq_nil_iff.mp hnil g hg)
  · intro group hgroup o ho
    obtain ⟨gs, hgs, rfl⟩ := List.mem_map.mp hgroup
    obtain ⟨g, hg, ho⟩ := List.mem_flatten.mp ho
    obtain ⟨r, hr⟩ := hstand gs hgs g hg
    exact hr.encoded o ho
  · rw [List.forall₂_map_left_iff, List.forall₂_map_right_iff]
    refine h.imp fun run gs hrun hsize => ?_
    rw [centroidOf, run_weight hrun hsize]
    exact hnum.exact _ hsize
  · refine List.map_congr_left fun c hc => ?_
    rw [List.map_map]
    induction h with
    | nil => rfl
    | cons hrun _ ih =>
      rw [List.map_cons, List.map_cons, run_stands hnum hrun hc,
        ih (fun run hrun => hne run (.tail _ hrun)) fun gs hgs => hstand gs (.tail _ hgs)]
      rfl

/-- Compressing rows in any order keeps the observations they stand for. -/
theorem exists_clusters_of_rows (delta : Nat) {rows sorted : List Row} {groups : List (List Obs)}
    (hperm : sorted.Perm rows) (h : List.Forall₂ (Stands num D declared) rows groups) :
    ∃ groups', Clusters num D declared (compressed num delta declared sorted) groups' ∧
      groups'.flatten.Perm groups.flatten := by
  obtain ⟨groups₁, hrel, hgroups⟩ := List.perm_comp_forall₂ hperm h
  have hne := ne_nil_of_mem_compress num delta sorted
  rw [← flatten_compress num delta sorted] at hrel
  obtain ⟨gss, rfl, hruns⟩ := forall₂_flatten hrel
  refine ⟨gss.map List.flatten, runs_clusters hnum hruns hne, ?_⟩
  rw [← List.flatten_flatten]
  exact hgroups.flatten

/-- A leaf's centroids stand for its finite observations. -/
theorem exists_build (delta : Nat) {obs : List Obs} (hobs : ∀ o ∈ obs, o.Encoded D declared) :
    ∃ p groups, buildTdigestChecked num delta declared (obs.map Obs.value)
        (channelsOf declared obs) = .ok p ∧ Clusters num D declared p groups ∧
      groups.flatten.Perm (finiteObs obs) := by
  rw [buildTdigestChecked_eq fun o ho c hc => hnum.encoded c.1 _ (hobs o ho c hc), buildTdigest_eq]
  split_ifs with hnil
  · refine ⟨_, [], rfl, clusters_empty, ?_⟩
    rw [hnil]
    exact .refl _
  · have hstand : List.Forall₂ (Stands num D declared) ((finiteObs obs).map (obsRow declared))
        ((finiteObs obs).map fun o => [o]) := by
      rw [List.forall₂_map_left_iff, List.forall₂_map_right_iff, List.forall₂_same]
      intro o ho
      have henc := hobs o (List.mem_of_mem_filter ho)
      refine ⟨List.cons_ne_nil _ _, List.forall_mem_singleton.mpr henc, fun c hc => ?_, fun _ => ?_⟩
      · rw [List.map_singleton, (hnum.joins c.1).reduce_cons _ [] (henc c hc) nofun]
        exact getD_map_zipIdx declared _ 0 hc
      · show (1 : ℚ) = ((1 : Nat) : ℚ)
        rfl
    obtain ⟨groups, hclusters, hperm⟩ := exists_clusters_of_rows hnum delta
      (List.perm_insertionSort (fun x y : Row => x.mean ≤ y.mean) _) hstand
    refine ⟨_, groups, rfl, hclusters, hperm.trans ?_⟩
    rw [← List.flatMap_def, List.flatMap_singleton']

theorem exists_merge (delta : Nat) {a b : Part} {gs hs : List (List Obs)}
    (ha : Clusters num D declared a gs) (hb : Clusters num D declared b hs) :
    ∃ p groups, mergeTdigestsChecked num delta declared a b = .ok p ∧ Clusters num D declared p groups ∧
      groups.flatten.Perm (gs.flatten ++ hs.flatten) := by
  have hchecks : ∃ rs, (declared.zipIdx.mapM fun c => do
      let left ← checkWords s!"{c.1}1" (a.words.getD c.2 []) a.digest.length
      let right ← checkWords s!"{c.1}2" (b.words.getD c.2 []) b.digest.length
      return (left, right)) = .ok rs := by
    refine exists_mapM fun c hc => ⟨(a.words.getD c.2 [], b.words.getD c.2 []), ?_⟩
    rw [ha.checkWords_ok hnum hc, hb.checkWords_ok hnum hc]
    rfl
  obtain ⟨rs, hrs⟩ := hchecks
  suffices h : ∃ groups, Clusters num D declared (mergeTdigests num delta declared a b) groups ∧
      groups.flatten.Perm (gs.flatten ++ hs.flatten) by
    obtain ⟨groups, hclusters, hperm⟩ := h
    refine ⟨_, groups, ?_, hclusters, hperm⟩
    rw [mergeTdigestsChecked, hrs]
    rfl
  rw [mergeTdigests]
  split
  · next hleft hright =>
    obtain rfl := ha.digest_eq_nil.mp hleft
    obtain rfl := hb.digest_eq_nil.mp hright
    exact ⟨[], clusters_empty, .refl _⟩
  · next hright _ =>
    obtain rfl := hb.digest_eq_nil.mp hright
    refine ⟨gs, asFloat32_clusters hnum ha, ?_⟩
    rw [List.flatten_nil, List.append_nil]
  · next hleft _ =>
    obtain rfl := ha.digest_eq_nil.mp hleft
    exact ⟨hs, asFloat32_clusters hnum hb, .refl _⟩
  · obtain ⟨groups, hclusters, hperm⟩ := exists_clusters_of_rows hnum delta
      (List.perm_insertionSort (fun x y : Row => x.mean ≤ y.mean) _) (List.rel_append ha.rows_stand hb.rows_stand)
    refine ⟨groups, hclusters, hperm.trans ?_⟩
    rw [List.flatten_append]

theorem exists_mergeKway (delta : Nat) {parts : List Part} {gss : List (List (List Obs))}
    (h : List.Forall₂ (Clusters num D declared) parts gss) :
    ∃ groups, Clusters num D declared (mergeTdigestsKway num delta declared parts) groups ∧
      groups.flatten.Perm gss.flatten.flatten := by
  obtain ⟨kept, hkept, hflat⟩ := exists_kept h
  rw [← hflat, mergeTdigestsKway]
  generalize parts.filter (fun p => decide (p.digest ≠ [])) = nonempty at hkept
  cases hkept with
  | nil => exact ⟨[], clusters_empty, .refl _⟩
  | @cons p groups _ _ hp hrest =>
    cases hrest with
    | nil =>
      refine ⟨groups, asFloat32_clusters hnum hp, ?_⟩
      rw [List.flatten_singleton]
    | @cons q hs parts gss hq hrest =>
      have hrows : List.Forall₂ (Stands num D declared) ((p :: q :: parts).flatMap Part.rows)
          (groups :: hs :: gss).flatten := by
        rw [List.flatMap_def]
        refine List.rel_flatten (List.forall₂_map_left_iff.mpr ?_)
        exact (List.Forall₂.cons hp (.cons hq hrest)).imp fun _ _ hc => hc.rows_stand
      exact exists_clusters_of_rows hnum delta (List.perm_insertionSort (fun x y : Row => x.key ≤ y.key) _) hrows

theorem exists_mergeKwayChecked (delta : Nat) {parts : List Part} {gss : List (List (List Obs))}
    (h : List.Forall₂ (Clusters num D declared) parts gss) :
    ∃ p groups, mergeTdigestsKwayChecked num delta declared parts = .ok p ∧
      Clusters num D declared p groups ∧ groups.flatten.Perm gss.flatten.flatten := by
  have hchecks : ∃ rs, ((parts.zipIdx.filter fun p => p.1.digest ≠ []).mapM fun p =>
      declared.zipIdx.mapM fun c =>
        checkWords s!"{c.1}[{p.2}]" (p.1.words.getD c.2 []) p.1.digest.length) = .ok rs := by
    refine exists_mapM fun p hp => exists_mapM fun c hc => ?_
    have hmem : p.1 ∈ parts := List.fst_mem_of_mem_zipIdx (List.mem_of_mem_filter hp)
    obtain ⟨groups, -, hclusters⟩ := forall₂_exists_of_mem_right h.flip hmem
    exact ⟨_, Clusters.checkWords_ok hclusters hnum hc _⟩
  obtain ⟨rs, hrs⟩ := hchecks
  obtain ⟨groups, hclusters, hperm⟩ := exists_mergeKway hnum delta h
  refine ⟨_, groups, ?_, hclusters, hperm⟩
  rw [mergeTdigestsKwayChecked, hrs]
  rfl

end Lawful

mutual

theorem exists_eval (hnum : Lawful num D join) (t : MergeTree) (ht : ∀ o ∈ t.observations, o.Encoded D declared) :
    ∃ p groups, t.eval num declared = .ok p ∧ Clusters num D declared p groups ∧
      groups.flatten.Perm (finiteObs t.observations) :=
  match t, ht with
  | .build delta obs, ht => exists_build hnum delta ht
  | .pair delta left right, ht => by
    rw [MergeTree.observations] at ht ⊢
    obtain ⟨a, gs, ha, hgs, hperm⟩ :=
      exists_eval hnum left fun o ho => ht o (List.mem_append_left _ ho)
    obtain ⟨b, hs, hb, hhs, hperm'⟩ :=
      exists_eval hnum right fun o ho => ht o (List.mem_append_right _ ho)
    obtain ⟨p, groups, hp, hgroups, hall⟩ := exists_merge hnum delta hgs hhs
    refine ⟨p, groups, ?_, hgroups, ?_⟩
    · rw [MergeTree.eval, ha, hb]
      exact hp
    · rw [finiteObs, List.filter_append]
      exact hall.trans (hperm.append hperm')
  | .kway delta trees, ht => by
    rw [MergeTree.observations] at ht ⊢
    obtain ⟨ps, gss, hps, hgss, hperm⟩ := exists_evalAll hnum trees ht
    obtain ⟨p, groups, hp, hgroups, hall⟩ := exists_mergeKwayChecked hnum delta hgss
    refine ⟨p, groups, ?_, hgroups, hall.trans hperm⟩
    rw [MergeTree.eval, hps]
    exact hp

theorem exists_evalAll (hnum : Lawful num D join) (ts : List MergeTree)
    (hts : ∀ o ∈ MergeTree.allObservations ts, o.Encoded D declared) :
    ∃ ps gss, MergeTree.evalAll num declared ts = .ok ps ∧
      List.Forall₂ (Clusters num D declared) ps gss ∧
      gss.flatten.flatten.Perm (finiteObs (MergeTree.allObservations ts)) :=
  match ts, hts with
  | [], _ => ⟨[], [], rfl, .nil, .refl _⟩
  | t :: ts, hts => by
    rw [MergeTree.allObservations] at hts ⊢
    obtain ⟨p, groups, hp, hgroups, hperm⟩ :=
      exists_eval hnum t fun o ho => hts o (List.mem_append_left _ ho)
    obtain ⟨ps, gss, hps, hgss, hperm'⟩ :=
      exists_evalAll hnum ts fun o ho => hts o (List.mem_append_right _ ho)
    refine ⟨p :: ps, groups :: gss, ?_, .cons hgroups hgss, ?_⟩
    · rw [MergeTree.evalAll, hp, hps]
      rfl
    · rw [finiteObs, List.filter_append, List.flatten_cons, List.flatten_append]
      exact hperm.append hperm'

end

end Zagg.Stats
