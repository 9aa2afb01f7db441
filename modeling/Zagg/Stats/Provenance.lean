import Zagg.Stats.FoldTree

/-!
# Which observations a centroid holds

Every centroid of a counted digest holds a group of observations: one observation, which is then
the centroid's stored mean and has weight 1, or several, which weigh at least 2. Compressing and
storing keep this, so it holds of every tree of merges; the weights alone tell whether some
centroid holds more than one observation.
-/
namespace Zagg.Stats

open Zagg.Lib

/-- What the code relies on: storing rounds to the nearest `float32`, which has 1 and 2. -/
structure Rounds (num : Numerics) : Prop where
  mono : Monotone num.float32
  idem : ∀ q, num.float32 (num.float32 q) = num.float32 q
  one : num.float32 1 = 1
  two : num.float32 2 = 2

/-- A counted mean and weight hold a group of observations. -/
structure Holds (num : Numerics) (mean weight : ℚ) (group : List ℚ) : Prop where
  nonempty : group ≠ []
  one_le : 1 ≤ weight
  single : ∀ v, group = [v] → num.float32 mean = num.float32 v ∧ weight = 1
  merged : 2 ≤ group.length → 2 ≤ weight

/-- A counted digest holds groups of observations. -/
structure Made (num : Numerics) (digest : Digest) (groups : List (List ℚ)) : Prop where
  holds : List.Forall₂ (fun (c : Centroid) group =>
    Holds num c.mean c.weight group ∧ num.float32 c.mean = c.mean) digest groups
  sorted : (∀ c ∈ digest, c.weight ≤ 1) → digest.Pairwise fun c d => c.mean ≤ d.mean

section Runs
variable {num : Numerics}

theorem Holds.length_lt_two {mean weight : ℚ} {group : List ℚ} (h : Holds num mean weight group)
    (hlight : weight < 2) : ∃ v, group = [v] := by
  have hshort : ¬2 ≤ group.length := fun hlen => absurd (h.merged hlen) (not_le.mpr hlight)
  have hpos := List.length_pos_of_ne_nil h.nonempty
  exact List.length_eq_one_iff.mp (by omega)

/-- Counted rows weigh as much as there are of them. -/
theorem length_le_weight {run : List Row} {gs : List (List ℚ)}
    (h : List.Forall₂ (fun (r : Row) g => Holds num r.mean r.weight g) run gs) :
    (run.length : ℚ) ≤ (run.map Row.weight).sum := by
  induction h with
  | nil => simp
  | cons hr _ ih =>
    have hone := hr.one_le
    rw [List.map_cons, List.sum_cons, List.length_cons]
    push_cast
    linarith

/-- A run that holds several observations weighs at least 2. -/
theorem two_le_weight {run : List Row} {gs : List (List ℚ)}
    (h : List.Forall₂ (fun (r : Row) g => Holds num r.mean r.weight g) run gs)
    (hmany : 2 ≤ gs.flatten.length) : 2 ≤ (run.map Row.weight).sum := by
  cases h with
  | nil => simp at hmany
  | @cons r g run gs hr hrest =>
    cases hrest with
    | nil =>
      rw [List.flatten_singleton] at hmany
      rw [List.map_singleton, List.sum_singleton]
      exact hr.merged hmany
    | @cons r' g' run gs hr' hrest =>
      have hlen := length_le_weight (List.Forall₂.cons hr (.cons hr' hrest))
      rw [List.length_cons, List.length_cons] at hlen
      push_cast at hlen
      have hrun : (0 : ℚ) ≤ run.length := Nat.cast_nonneg _
      linarith

/-- A run that holds one observation is its row. -/
theorem run_single {run : List Row} {gs : List (List ℚ)}
    (h : List.Forall₂ (fun (r : Row) g => Holds num r.mean r.weight g) run gs) {v : ℚ}
    (hone : gs.flatten = [v]) : ∃ r, run = [r] ∧ Holds num r.mean r.weight [v] := by
  have hlen : gs.flatten.length = 1 := by rw [hone]; rfl
  cases h with
  | nil => cases hone
  | @cons r g run gs hr hrest =>
    have hg := List.length_pos_of_ne_nil hr.nonempty
    rw [List.flatten_cons, List.length_append] at hlen
    cases hrest with
    | nil =>
      rw [List.flatten_singleton] at hone
      exact ⟨r, rfl, hone ▸ hr⟩
    | @cons r' g' run gs hr' hrest =>
      have hg' := List.length_pos_of_ne_nil hr'.nonempty
      rw [List.flatten_cons, List.length_append] at hlen
      omega

theorem run_ne_nil {run : List Row} {gs : List (List ℚ)}
    (h : List.Forall₂ (fun (r : Row) g => Holds num r.mean r.weight g) run gs) (hne : run ≠ []) :
    gs.flatten ≠ [] := by
  cases h with
  | nil => exact absurd rfl hne
  | @cons r g run gs hr _ =>
    rw [List.flatten_cons]
    exact List.append_ne_nil_of_left_ne_nil hr.nonempty _

/-- The centroid of one row of weight 1. -/
theorem centroidOf_single (hnum : Rounds num) {r : Row} (h : r.weight = 1) :
    centroidOf num [r] = ⟨num.float32 r.mean, 1⟩ := by
  simp [centroidOf, h, hnum.one]

/-- A cut into single rows. -/
theorem runs_single {runs : List (List Row)} (h : ∀ run ∈ runs, ∃ r, run = [r]) :
    runs = runs.flatten.map fun r => [r] := by
  induction runs with
  | nil => rfl
  | cons run runs ih =>
    obtain ⟨r, rfl⟩ := h run (.head _)
    rw [List.flatten_cons, List.map_append, ← ih fun run hrun => h run (.tail _ hrun)]
    rfl

variable (hnum : Rounds num)
include hnum

theorem centroidOf_holds {run : List Row} {gs : List (List ℚ)} (hne : run ≠ [])
    (h : List.Forall₂ (fun (r : Row) g => Holds num r.mean r.weight g) run gs) :
    Holds num (centroidOf num run).mean (centroidOf num run).weight gs.flatten ∧
      num.float32 (centroidOf num run).mean = (centroidOf num run).mean := by
  refine ⟨⟨run_ne_nil h hne, ?_, fun v hone => ?_, fun hmany => ?_⟩, hnum.idem _⟩
  · have hlen : (1 : ℚ) ≤ run.length :=
      Nat.one_le_cast.mpr (List.length_pos_of_ne_nil hne)
    have hround := hnum.mono (hlen.trans (length_le_weight h))
    rw [hnum.one] at hround
    exact hround
  · obtain ⟨r, rfl, hr⟩ := run_single h hone
    obtain ⟨hmean, hweight⟩ := hr.single v rfl
    rw [centroidOf_single hnum hweight]
    exact ⟨(hnum.idem _).trans hmean, rfl⟩
  · have hround := hnum.mono (two_le_weight h hmany)
    rw [hnum.two] at hround
    exact hround

/-- Compressing rows in the order of their means. -/
theorem made_compress (delta : Nat) {rows : List Row} {groups : List (List ℚ)}
    (hsorted : rows.Pairwise fun r r' => r.mean ≤ r'.mean)
    (h : List.Forall₂ (fun (r : Row) g => Holds num r.mean r.weight g) rows groups) :
    ∃ groups', Made num ((compress num delta rows).map (centroidOf num)) groups' ∧
      groups'.flatten = groups.flatten := by
  have hne := ne_nil_of_mem_compress num delta rows
  have hflat := flatten_compress num delta rows
  generalize compress num delta rows = runs at hne hflat
  subst hflat
  obtain ⟨gss, rfl, hruns⟩ := forall₂_flatten h
  refine ⟨gss.map List.flatten, ⟨?_, fun hlight => ?_⟩, List.flatten_flatten.symm⟩
  · rw [List.forall₂_map_left_iff, List.forall₂_map_right_iff]
    have hboth := (List.forall₂_and_left _ _).mpr ⟨hne, hruns⟩
    exact hboth.imp fun run gs hrun => centroidOf_holds hnum hrun.1 hrun.2
  · have hsingle : ∀ run ∈ runs, ∃ r, run = [r] ∧ r.weight = 1 := by
      intro run hrun
      obtain ⟨gs, -, hgs⟩ := forall₂_exists_of_mem_right hruns.flip hrun
      have hholds := (centroidOf_holds hnum (hne run hrun) hgs).1
      have hle := hlight _ (List.mem_map_of_mem hrun)
      obtain ⟨v, hv⟩ := hholds.length_lt_two (by linarith)
      obtain ⟨r, hr, hone⟩ := run_single hgs hv
      exact ⟨r, hr, (hone.single v rfl).2⟩
    have hcut := runs_single fun run hrun => by
      obtain ⟨r, hr, -⟩ := hsingle run hrun
      exact ⟨r, hr⟩
    have hweights : ∀ r ∈ runs.flatten, r.weight = 1 := by
      intro r hr
      obtain ⟨run, hrun, hmem⟩ := List.mem_flatten.mp hr
      obtain ⟨r', rfl, hone⟩ := hsingle run hrun
      rw [List.mem_singleton.mp hmem]
      exact hone
    have hdigest : runs.map (centroidOf num) = runs.flatten.map fun r => ⟨num.float32 r.mean, 1⟩ := by
      conv_lhs => rw [hcut]
      rw [List.map_map]
      exact List.map_congr_left fun r hr => centroidOf_single hnum (hweights r hr)
    rw [hdigest, List.pairwise_map]
    exact hsorted.imp fun hle => hnum.mono hle

end Runs

section Trees
variable {num : Numerics} {declared : List Channel}

/-- The finite values of observations. -/
def finiteValues (obs : List Obs) : List ℚ := obs.filterMap Obs.value

/-- Every finite value becomes a row of weight 1. -/
theorem observationRows_holds (num : Numerics) (values : List Value) (channels : List Words) :
    List.Forall₂ (fun (r : Row) g => Holds num r.mean r.weight g) (observationRows values channels)
      ((values.filterMap id).map fun v => [v]) := by
  rw [observationRows]
  suffices h : ∀ start, List.Forall₂ (fun (r : Row) g => Holds num r.mean r.weight g)
      ((values.zipIdx start).filterMap fun v =>
        v.1.map fun x => ⟨x, 1, channels.map fun ws => ws.getD v.2 0⟩)
      ((values.filterMap id).map fun v => [v]) from h 0
  induction values with
  | nil => exact fun _ => .nil
  | cons v values ih =>
    intro start
    rw [List.zipIdx_cons, List.filterMap_cons, List.filterMap_cons]
    cases v with
    | none => exact ih (start + 1)
    | some x =>
      have hone : Holds num x 1 [x] :=
        ⟨List.cons_ne_nil _ _, le_rfl, fun v hv => by simp_all, fun hmany => absurd hmany (by simp)⟩
      exact .cons hone (ih (start + 1))

/-- A digest's rows hold what its centroids hold. -/
theorem Made.rows {p : Part} {groups : List (List ℚ)} (h : Made num p.digest groups) :
    List.Forall₂ (fun (r : Row) g => Holds num r.mean r.weight g) p.rows groups := by
  obtain ⟨hholds, -⟩ := h
  rw [Part.rows]
  generalize p.digest = digest at hholds
  suffices h : ∀ start, List.Forall₂ (fun (r : Row) g => Holds num r.mean r.weight g)
      ((digest.zipIdx start).map fun c =>
        ⟨c.1.mean, c.1.weight, p.words.map fun v => v.getD c.2 0⟩) groups from h 0
  induction hholds with
  | nil => exact fun _ => .nil
  | cons hc _ ih => exact fun start => .cons hc.1 (ih (start + 1))

theorem made_nil : Made num [] [] := ⟨.nil, fun _ => .nil⟩

theorem Made.digest_eq_nil {digest : Digest} {groups : List (List ℚ)} (h : Made num digest groups) :
    digest = [] ↔ groups = [] := by
  rw [← List.length_eq_zero_iff, h.holds.length_eq, List.length_eq_zero_iff]

theorem sortByMean_sorted (rows : List Row) :
    (sortByMean rows).Pairwise fun r r' => r.mean ≤ r'.mean := by
  have : Std.Total fun a b : Row => a.mean ≤ b.mean := ⟨fun a b => le_total a.mean b.mean⟩
  have : IsTrans Row fun a b : Row => a.mean ≤ b.mean := ⟨fun _ _ _ => le_trans⟩
  exact List.pairwise_insertionSort _ rows

theorem lexsort_sorted (rows : List Row) :
    (lexsort rows).Pairwise fun r r' => r.mean ≤ r'.mean := by
  have : Std.Total fun a b : Row => a.key ≤ b.key := ⟨fun a b => le_total a.key b.key⟩
  have : IsTrans Row fun a b : Row => a.key ≤ b.key := ⟨fun _ _ _ => le_trans⟩
  exact (List.pairwise_insertionSort (fun a b : Row => a.key ≤ b.key) rows).imp fun hle =>
    Prod.Lex.monotone_fst _ _ hle

/-- The nonempty digests hold all the observations. -/
theorem exists_made_kept {parts : List Part} {gss : List (List (List ℚ))}
    (h : List.Forall₂ (fun (p : Part) groups => Made num p.digest groups) parts gss) :
    ∃ kept, List.Forall₂ (fun (p : Part) groups => Made num p.digest groups)
        (parts.filter fun p => p.digest ≠ []) kept ∧ kept.flatten = gss.flatten := by
  induction h with
  | nil => exact ⟨[], .nil, rfl⟩
  | @cons p groups parts gss hp _ ih =>
    obtain ⟨kept, hkept, hflat⟩ := ih
    by_cases hnil : p.digest = []
    · obtain rfl := hp.digest_eq_nil.mp hnil
      refine ⟨kept, ?_, hflat⟩
      rw [List.filter_cons_of_neg (by simpa using hnil)]
      exact hkept
    · refine ⟨groups :: kept, ?_, by rw [List.flatten_cons, List.flatten_cons, hflat]⟩
      rw [List.filter_cons_of_pos (by simpa using hnil)]
      exact .cons hp hkept

section Merges
variable (hnum : Rounds num)
include hnum

/-- Storing keeps what the centroids hold. -/
theorem Made.asFloat32 {p : Part} {groups : List (List ℚ)} (h : Made num p.digest groups) :
    Made num (p.asFloat32 num).digest groups := by
  have hcentroid : ∀ {c : Centroid} {group}, Holds num c.mean c.weight group →
      Holds num (num.float32 c.mean) (num.float32 c.weight) group := by
    intro c group hc
    refine ⟨hc.nonempty, ?_, fun v hv => ?_, fun hmany => ?_⟩
    · exact hnum.one ▸ hnum.mono hc.one_le
    · obtain ⟨hmean, hweight⟩ := hc.single v hv
      exact ⟨(hnum.idem _).trans hmean, hweight ▸ hnum.one⟩
    · exact hnum.two ▸ hnum.mono (hc.merged hmany)
  constructor
  · rw [Part.asFloat32, List.forall₂_map_left_iff]
    exact h.holds.imp fun c group hc => ⟨hcentroid hc.1, hnum.idem _⟩
  · intro hlight
    rw [Part.asFloat32, List.pairwise_map]
    refine (h.sorted fun c hc => ?_).imp fun hle => hnum.mono hle
    obtain ⟨group, -, hgroup⟩ := forall₂_exists_of_mem_right h.holds.flip hc
    have hle := hlight _ (List.mem_map_of_mem hc)
    obtain ⟨v, hv⟩ := (hcentroid hgroup.1).length_lt_two (by linarith)
    exact (hgroup.1.single v hv).2.le

variable (declared) in
/-- Compressing a sorted arrangement of rows. -/
theorem made_compressed (delta : Nat) {rows sorted : List Row} {groups : List (List ℚ)}
    (hperm : sorted.Perm rows) (hsorted : sorted.Pairwise fun r r' => r.mean ≤ r'.mean)
    (h : List.Forall₂ (fun (r : Row) g => Holds num r.mean r.weight g) rows groups) :
    ∃ groups', Made num (compressed num delta declared sorted).digest groups' ∧
      groups'.flatten.Perm groups.flatten := by
  obtain ⟨groups₁, hrel, hgroups⟩ := List.perm_comp_forall₂ hperm h
  obtain ⟨groups', hmade, hflat⟩ := made_compress hnum delta hsorted hrel
  exact ⟨groups', hmade, hflat ▸ hgroups.flatten⟩

variable (declared) in
theorem made_build (delta : Nat) (values : List Value) (channels : List Words) :
    ∃ groups, Made num (buildTdigest num delta declared values channels).digest groups ∧
      groups.flatten.Perm (values.filterMap id) := by
  have hrows := observationRows_holds num values channels
  have hsingle : ((values.filterMap id).map fun v => [v]).flatten = values.filterMap id := by
    rw [← List.flatMap_def, List.flatMap_singleton']
  unfold buildTdigest
  split
  · next heq =>
    rw [heq] at hrows
    refine ⟨[], made_nil, ?_⟩
    rw [← hsingle, List.forall₂_nil_left_iff.mp hrows]
  · obtain ⟨groups, hmade, hperm⟩ := made_compressed declared hnum delta
      (List.perm_insertionSort _ _) (sortByMean_sorted _) hrows
    exact ⟨groups, hmade, hsingle ▸ hperm⟩

variable (declared) in
theorem made_merge (delta : Nat) {p q : Part} {gs hs : List (List ℚ)} (hp : Made num p.digest gs)
    (hq : Made num q.digest hs) :
    ∃ groups, Made num (mergeTdigests num delta declared p q).digest groups ∧
      groups.flatten.Perm (gs.flatten ++ hs.flatten) := by
  rw [mergeTdigests]
  split
  · next hleft hright =>
    obtain rfl := hp.digest_eq_nil.mp hleft
    obtain rfl := hq.digest_eq_nil.mp hright
    exact ⟨[], made_nil, .refl _⟩
  · next hright _ =>
    obtain rfl := hq.digest_eq_nil.mp hright
    refine ⟨gs, hp.asFloat32 hnum, ?_⟩
    rw [List.flatten_nil, List.append_nil]
  · next hleft _ =>
    obtain rfl := hp.digest_eq_nil.mp hleft
    exact ⟨hs, hq.asFloat32 hnum, .refl _⟩
  · obtain ⟨groups, hmade, hperm⟩ := made_compressed declared hnum delta
      (List.perm_insertionSort _ _) (sortByMean_sorted _) (List.rel_append hp.rows hq.rows)
    exact ⟨groups, hmade, List.flatten_append ▸ hperm⟩

variable (declared) in
theorem made_mergeKway (delta : Nat) {parts : List Part} {gss : List (List (List ℚ))}
    (h : List.Forall₂ (fun (p : Part) groups => Made num p.digest groups) parts gss) :
    ∃ groups, Made num (mergeTdigestsKway num delta declared parts).digest groups ∧
      groups.flatten.Perm gss.flatten.flatten := by
  obtain ⟨kept, hkept, hflat⟩ := exists_made_kept h
  rw [← hflat, mergeTdigestsKway]
  generalize parts.filter (fun p => decide (p.digest ≠ [])) = nonempty at hkept
  cases hkept with
  | nil => exact ⟨[], made_nil, .refl _⟩
  | @cons p groups _ _ hp hrest =>
    cases hrest with
    | nil =>
      refine ⟨groups, hp.asFloat32 hnum, ?_⟩
      rw [List.flatten_singleton]
    | @cons q hs parts gss hq hrest =>
      have hrows : List.Forall₂ (fun (r : Row) g => Holds num r.mean r.weight g)
          ((p :: q :: parts).flatMap Part.rows) (groups :: hs :: gss).flatten := by
        rw [List.flatMap_def]
        refine List.rel_flatten (List.forall₂_map_left_iff.mpr ?_)
        exact .cons hp.rows (.cons hq.rows (hrest.imp fun _ _ hc => hc.rows))
      exact made_compressed declared hnum delta (List.perm_insertionSort _ _)
        (lexsort_sorted _) hrows

end Merges

theorem buildTdigestChecked_ok {delta : Nat} {values : List Value} {words : List Words} {p : Part}
    (h : buildTdigestChecked num delta declared values words = .ok p) :
    ∃ channels, p = buildTdigest num delta declared values channels := by
  obtain ⟨channels, -, hp⟩ := bind_ok h
  exact ⟨channels, (Except.ok.inj hp).symm⟩

mutual

/-- Whatever the merges, a centroid holds a group of the leaves' finite observations. -/
theorem made_eval (hnum : Rounds num) (t : MergeTree) {p : Part} (h : t.eval num declared = .ok p) :
    ∃ groups, Made num p.digest groups ∧ groups.flatten.Perm (finiteValues t.observations) :=
  match t, h with
  | .build delta obs, h => by
    obtain ⟨channels, rfl⟩ := buildTdigestChecked_ok h
    obtain ⟨groups, hmade, hperm⟩ := made_build declared hnum delta (obs.map Obs.value) channels
    refine ⟨groups, hmade, hperm.trans ?_⟩
    rw [List.filterMap_map]
    exact .refl _
  | .pair delta left right, h => by
    obtain ⟨a, ha, h⟩ := bind_ok h
    obtain ⟨b, hb, h⟩ := bind_ok h
    obtain ⟨-, -, hp⟩ := bind_ok h
    obtain ⟨gs, hgs, hperm⟩ := made_eval hnum left ha
    obtain ⟨hs, hhs, hperm'⟩ := made_eval hnum right hb
    obtain ⟨groups, hmade, hall⟩ := made_merge declared hnum delta hgs hhs
    refine ⟨groups, Except.ok.inj hp ▸ hmade, hall.trans ?_⟩
    rw [MergeTree.observations, finiteValues, List.filterMap_append]
    exact hperm.append hperm'
  | .kway delta trees, h => by
    obtain ⟨ps, hps, h⟩ := bind_ok h
    obtain ⟨-, -, hp⟩ := bind_ok h
    obtain ⟨gss, hgss, hperm⟩ := made_evalAll hnum trees hps
    obtain ⟨groups, hmade, hall⟩ := made_mergeKway declared hnum delta hgss
    refine ⟨groups, Except.ok.inj hp ▸ hmade, hall.trans ?_⟩
    rw [MergeTree.observations]
    exact hperm

theorem made_evalAll (hnum : Rounds num) (ts : List MergeTree) {ps : List Part}
    (h : MergeTree.evalAll num declared ts = .ok ps) :
    ∃ gss, List.Forall₂ (fun (p : Part) groups => Made num p.digest groups) ps gss ∧
      gss.flatten.flatten.Perm (finiteValues (MergeTree.allObservations ts)) :=
  match ts, h with
  | [], h => by
    obtain rfl := Except.ok.inj h
    exact ⟨[], .nil, .refl _⟩
  | t :: ts, h => by
    obtain ⟨p, hp, h⟩ := bind_ok h
    obtain ⟨rest, hrest, h⟩ := bind_ok h
    obtain rfl := Except.ok.inj h
    obtain ⟨groups, hmade, hperm⟩ := made_eval hnum t hp
    obtain ⟨gss, hgss, hperm'⟩ := made_evalAll hnum ts hrest
    refine ⟨groups :: gss, .cons hmade hgss, ?_⟩
    rw [MergeTree.allObservations, finiteValues, List.filterMap_append, List.flatten_cons,
      List.flatten_append]
    exact hperm.append hperm'

end

/-- Where no centroid weighs more than 1, the means are the stored observations, in order. -/
theorem Made.lossless {digest : Digest} {groups : List (List ℚ)} (h : Made num digest groups)
    (hlight : ∀ c ∈ digest, c.weight ≤ 1) :
    digest.map Centroid.mean = groups.flatten.map num.float32 ∧
      (digest.map Centroid.mean).Pairwise (· ≤ ·) := by
  refine ⟨?_, List.pairwise_map.mpr (h.sorted hlight)⟩
  obtain ⟨hholds, -⟩ := h
  induction hholds with
  | nil => rfl
  | @cons c group digest groups hc _ ih =>
    have hle := hlight c (.head _)
    obtain ⟨v, rfl⟩ := hc.1.length_lt_two (by linarith)
    rw [List.map_cons, List.flatten_cons, List.map_append, ih fun c hc => hlight c (.tail _ hc),
      ← hc.2, (hc.1.single v rfl).1]
    rfl

theorem Made.nonempty {digest : Digest} {groups : List (List ℚ)} (h : Made num digest groups) :
    ∀ group ∈ groups, group ≠ [] := by
  intro group hgroup
  obtain ⟨c, -, hc⟩ := forall₂_exists_of_mem_right h.holds hgroup
  exact hc.1.nonempty

/-- Some centroid weighs more than 1 exactly when two observations share one. -/
theorem Made.heavy_iff {digest : Digest} {groups : List (List ℚ)} (h : Made num digest groups) :
    (∃ c ∈ digest, 1 < c.weight) ↔ digest.length < groups.flatten.length := by
  have hne := h.nonempty
  obtain ⟨hholds, -⟩ := h
  induction hholds with
  | nil => exact iff_of_false nofun (Nat.lt_irrefl 0)
  | @cons c group digest groups hc hrest ih =>
    have hpos := List.length_pos_of_ne_nil hc.1.nonempty
    have hne : ∀ group ∈ groups, group ≠ [] := fun group hgroup => hne group (.tail _ hgroup)
    have hle := hrest.length_eq.trans_le (length_le_length_flatten hne)
    have hiff : (∃ c ∈ digest, 1 < c.weight) ↔ digest.length < groups.flatten.length := ih hne
    rw [List.exists_mem_cons_iff, hiff, List.length_cons, List.flatten_cons, List.length_append]
    constructor
    · rintro (hheavy | hlt)
      · by_contra hshort
        obtain ⟨v, rfl⟩ := List.length_eq_one_iff.mp (show group.length = 1 by omega)
        exact absurd (hc.1.single v rfl).2 hheavy.ne'
      · omega
    · intro hlt
      rcases Nat.lt_or_ge group.length 2 with hone | hmany
      · exact .inr (by omega)
      · have hheavy := hc.1.merged hmany
        exact .inl (by linarith)

/-- Nonempty runs as many as their rows are single rows. -/
theorem single_of_length {runs : List (List Row)} (hne : ∀ run ∈ runs, run ≠ [])
    (hlen : runs.flatten.length ≤ runs.length) : ∀ run ∈ runs, ∃ r, run = [r] := by
  induction runs with
  | nil => exact nofun
  | cons run runs ih =>
    have hpos := List.length_pos_of_ne_nil (hne run (.head _))
    have hne : ∀ run ∈ runs, run ≠ [] := fun run hrun => hne run (.tail _ hrun)
    have hrest := length_le_length_flatten hne
    rw [List.length_cons, List.flatten_cons, List.length_append] at hlen
    intro run' hrun'
    rcases List.mem_cons.mp hrun' with rfl | hrun'
    · exact List.length_eq_one_iff.mp (by omega)
    · exact ih hne (by omega) run' hrun'

/-- A digest with a centroid for each of its weighted rows stores the rows. -/
theorem compressed_of_length {delta : Nat} {rows : List Row} (hpos : ∀ r ∈ rows, 0 < r.weight)
    (hlen : rows.length ≤ (compressed num delta declared rows).digest.length) :
    (compressed num delta declared rows).digest =
      rows.map fun r => ⟨num.float32 r.mean, num.float32 r.weight⟩ := by
  have hflat := flatten_compress num delta rows
  have hsingle := single_of_length (ne_nil_of_mem_compress num delta rows) (by
    rw [hflat]
    exact hlen.trans_eq (List.length_map _))
  show (compress num delta rows).map (centroidOf num) = _
  rw [runs_single hsingle, hflat, List.map_map]
  apply List.map_congr_left
  intro r hr
  simp [centroidOf, (hpos r hr).ne']

end Trees

end Zagg.Stats
