import Mathlib.Algebra.Order.Field.Basic
import Mathlib.Algebra.Order.Field.Rat
import Mathlib.Data.Nat.Cast.Order.Ring
import Mathlib.Data.List.TakeWhile
import Mathlib.Tactic.Ring
import Zagg.Stats.FoldTree

/-!
# The cell's envelope

Whatever the tree, a folded digest keeps the join of its finite observations' words and,
while `float32` holds them, their count.
-/
namespace Zagg.Stats

open Zagg.Lib

variable {num : Numerics} {D : Channel → Nat → Prop} {join : Channel → Nat → Nat → Nat}
  {declared : List Channel}

theorem sum_weights {digest : Digest} {groups : List (List Obs)}
    (h : List.Forall₂ (fun (centroid : Centroid) (group : List Obs) =>
      group.length ≤ exactCount → centroid.weight = group.length) digest groups)
    (hsize : ∀ group ∈ groups, group.length ≤ exactCount) :
    (digest.map Centroid.weight).sum = groups.flatten.length := by
  induction h with
  | nil => rfl
  | cons hw _ ih =>
    rw [List.map_cons, List.sum_cons, hw (hsize _ (.head _)), ih fun g hg => hsize g (.tail _ hg),
      List.flatten_cons, List.length_append, Rat.natCast_add]

/-- Whatever tree folds the observations, the result's words join to the join of the finite
observations' words, each centroid's word covers its observations, and the weights count
them while `float32` holds the counts. -/
theorem fold_tree_envelope (hnum : Lawful num D join) (t : MergeTree)
    (ht : ∀ o ∈ t.observations, o.Encoded D declared) :
    ∃ p groups, t.eval num declared = .ok p ∧ (∀ group ∈ groups, group ≠ []) ∧
      groups.flatten.Perm (finiteObs t.observations) ∧
      (∀ c ∈ declared.zipIdx,
        channelWord num c.1 (p.words.getD c.2 []) =
          channelWord num c.1 ((finiteObs t.observations).map (Obs.word c.2)) ∧
        List.Forall₂ (fun w group => ∀ o ∈ group, Under (join c.1) (o.word c.2) w)
          (p.words.getD c.2 []) groups) ∧
      List.Forall₂ (fun (centroid : Centroid) (group : List Obs) =>
        group.length ≤ exactCount → centroid.weight = group.length) p.digest groups ∧
      ((∀ group ∈ groups, group.length ≤ exactCount) →
        (p.digest.map Centroid.weight).sum = (finiteObs t.observations).length) := by
  obtain ⟨p, groups, heval, hclusters, hperm⟩ := exists_eval hnum t ht
  refine ⟨p, groups, heval, hclusters.nonempty, hperm, fun c hc => ?_, hclusters.weights, ?_⟩
  · have hwords := hclusters.wordsOf hc
    have hD : ∀ group ∈ groups, ∀ w ∈ group.map (Obs.word c.2), D c.1 w := by
      intro group hgroup w hw
      obtain ⟨o, ho, rfl⟩ := List.mem_map.mp hw
      exact hclusters.encoded group hgroup o ho c hc
    constructor
    · have hflatten : channelWord num c.1 (p.words.getD c.2 []) =
          channelWord num c.1 (groups.flatten.map (Obs.word c.2)) := by
        have hmap : p.words.getD c.2 [] =
            (groups.map (List.map (Obs.word c.2))).map (channelWord num c.1) := by
          rw [hwords, List.map_map]
          rfl
        rw [hmap, (hnum.joins c.1).reduce_flatten, List.map_flatten]
        · intro ws hws hnil
          obtain ⟨group, hgroup, rfl⟩ := List.mem_map.mp hws
          exact hclusters.nonempty group hgroup (List.map_eq_nil_iff.mp hnil)
        · intro ws hws
          obtain ⟨group, hgroup, rfl⟩ := List.mem_map.mp hws
          exact hD group hgroup
      rw [hflatten]
      refine (hnum.joins c.1).reduce_perm (hperm.map _) fun w hw => ?_
      obtain ⟨o, ho, rfl⟩ := List.mem_map.mp hw
      obtain ⟨group, hgroup, ho⟩ := List.mem_flatten.mp ho
      exact hclusters.encoded group hgroup o ho c hc
    · rw [hwords, List.forall₂_map_left_iff, List.forall₂_same]
      intro group hgroup o ho
      exact (hnum.joins c.1).under_reduce (hD group hgroup) (List.mem_map_of_mem ho)
  · intro hsize
    rw [← hperm.length_eq]
    exact sum_weights hclusters.weights hsize

/-- `float32` on the counts up to `2 ^ 25`: past `2 ^ 24` an odd one rounds to a multiple of 4. -/
def roundFloat32 (q : ℚ) : ℚ :=
  if q.den = 1 ∧ 2 ^ 24 < q.num ∧ q.num < 2 ^ 25 ∧ q.num % 2 = 1 then
    if q.num % 4 = 1 then q.num - 1 else q.num + 1
  else q

/-- The envelope of two words, a word holding a span's start and end. -/
def spanJoin (v w : Nat) : Nat :=
  min (v / 2 ^ 32) (w / 2 ^ 32) * 2 ^ 32 + max (v % 2 ^ 32) (w % 2 ^ 32)

/-- The `k1` scale at its ends, equal morton words, and toc words by their spans. -/
def spanNumerics : Numerics where
  k1 delta q := delta * q
  float32 := roundFloat32
  commonAncestor words := words.headD 0
  tocsReduce words := words.tail.foldl spanJoin (words.headD 0)

theorem spanJoin_halves (v w : Nat) :
    spanJoin v w / 2 ^ 32 = min (v / 2 ^ 32) (w / 2 ^ 32) ∧
      spanJoin v w % 2 ^ 32 = max (v % 2 ^ 32) (w % 2 ^ 32) := by
  rw [spanJoin]
  omega

theorem eq_of_halves {v w : Nat} (hstart : v / 2 ^ 32 = w / 2 ^ 32) (hstop : v % 2 ^ 32 = w % 2 ^ 32) :
    v = w := by
  omega

/-- The words of the two channels: one cell, and the nonempty spans. -/
def spanDomain (cell : Nat) : Channel → Nat → Prop
  | .locations, w => w = cell ∧ w ≠ 0
  | .temporal, w => w ≠ 0

def channelJoin : Channel → Nat → Nat → Nat
  | .locations, v, _ => v
  | .temporal, v, w => spanJoin v w

theorem roundFloat32_exact {n : Nat} (h : n ≤ 2 ^ 24) : roundFloat32 n = n := by
  have hnum : ((n : ℚ)).num = n := Rat.num_natCast n
  rw [roundFloat32, if_neg]
  intro ⟨_, hlt, _⟩
  rw [hnum] at hlt
  omega

instance (cell : Nat) (channel : Channel) (w : Nat) : Decidable (spanDomain cell channel w) :=
  match channel with
  | .locations => inferInstanceAs (Decidable (w = cell ∧ w ≠ 0))
  | .temporal => inferInstanceAs (Decidable (w ≠ 0))

theorem spanNumerics_lawful (cell : Nat) : Lawful spanNumerics (spanDomain cell) channelJoin where
  ancestor := {
    closed := fun _ _ hv _ => hv
    assoc := fun _ _ _ _ _ _ => rfl
    comm := fun _ _ hv hw => hv.1.trans hw.1.symm
    idem := fun _ _ => rfl
    reduce_cons := by
      intro w ws hw hws
      show w = ws.foldl (fun v _ => v) w
      clear hw hws
      induction ws with
      | nil => rfl
      | cons v ws ih => exact ih }
  envelope := {
    closed := by
      intro v w hv hw hzero
      have hv' : v ≠ 0 := hv
      have hw' : w ≠ 0 := hw
      have hjoin : spanJoin v w = 0 := hzero
      obtain ⟨hstart, hstop⟩ := spanJoin_halves v w
      omega
    assoc := by
      intro u v w _ _ _
      show spanJoin (spanJoin u v) w = spanJoin u (spanJoin v w)
      refine eq_of_halves ?_ ?_
      · rw [(spanJoin_halves _ _).1, (spanJoin_halves u v).1, (spanJoin_halves u _).1,
          (spanJoin_halves v w).1, min_assoc]
      · rw [(spanJoin_halves _ _).2, (spanJoin_halves u v).2, (spanJoin_halves u _).2,
          (spanJoin_halves v w).2, max_assoc]
    comm := by
      intro v w _ _
      show spanJoin v w = spanJoin w v
      rw [spanJoin, spanJoin, min_comm, max_comm]
    idem := by
      intro w _
      show spanJoin w w = w
      rw [spanJoin, min_self, max_self]
      omega
    reduce_cons := fun _ _ _ _ => rfl }
  encoded := by
    intro channel w hw
    cases channel with
    | locations => exact hw.2
    | temporal => exact hw
  exact := fun _ h => roundFloat32_exact h

theorem scanl_ones (a : ℚ) (n : Nat) :
    (List.replicate n (1 : ℚ)).scanl (· + ·) a = (List.range (n + 1)).map fun i : Nat => a + i := by
  induction n generalizing a with
  | zero => simp
  | succ n ih =>
    rw [List.replicate_succ, List.scanl_cons, ih, List.range_succ_eq_map (n := n + 1), List.map_cons,
      List.map_map]
    refine congrArg₂ _ (by simp) (List.map_congr_left fun i _ => ?_)
    simp only [Function.comp, Nat.cast_succ]
    ring

/-- At compression 1 equal weights make one centroid. -/
theorem compress_one {rows : List Row} {n : Nat} (hn : 0 < n)
    (hweights : rows.map Row.weight = List.replicate n 1) :
    compress spanNumerics 1 rows = [rows] := by
  have hlen : rows.length = n := by
    rw [← List.length_map (f := Row.weight), hweights, List.length_replicate]
  have hcum : cumsum (rows.map Row.weight) = (List.range n).map fun i : Nat => ((i + 1 : Nat) : ℚ) := by
    rw [cumsum, hweights, scanl_ones, List.range_succ_eq_map, List.map_cons, List.tail_cons, List.map_map]
    exact List.map_congr_left fun i _ => by simp
  have htotal : (cumsum (rows.map Row.weight)).getLastD 0 = n := by
    obtain ⟨m, rfl⟩ : ∃ m, n = m + 1 := ⟨n - 1, by omega⟩
    rw [hcum, List.range_succ, List.map_append, List.map_singleton, List.getLastD_concat]
  have hbound : ∀ k ∈ (cumsum (rows.map Row.weight)).map fun w => spanNumerics.k1 1 (w / n), k ≤ 0 + 1 := by
    intro k hk
    rw [hcum, List.map_map] at hk
    obtain ⟨i, hi, rfl⟩ := List.mem_map.mp hk
    have hi' := List.mem_range.mp hi
    show ((1 : Nat) : ℚ) * (((i + 1 : Nat) : ℚ) / n) ≤ 0 + 1
    have hpos : (0 : ℚ) < n := Nat.cast_pos.mpr hn
    have hle : ((i + 1 : Nat) : ℚ) ≤ n := Nat.cast_le.mpr hi'
    rw [Nat.cast_one, one_mul, zero_add, div_le_one hpos]
    exact hle
  have hzero : spanNumerics.k1 1 0 = 0 := by
    show ((1 : Nat) : ℚ) * 0 = 0
    exact mul_zero _
  rw [compress]
  simp only [htotal, hzero]
  generalize hkRight : (cumsum (rows.map Row.weight)).map (fun w => spanNumerics.k1 1 (w / n)) = kRight
    at hbound
  have hkLen : kRight.length = n := by
    rw [← hkRight, hcum, List.length_map, List.length_map, List.length_range]
  have htake : kRight.takeWhile (fun k => decide (k ≤ 0 + 1)) = kRight :=
    List.takeWhile_eq_self_iff.mpr fun k hk => decide_eq_true (hbound k hk)
  obtain ⟨m, hm⟩ : ∃ m, rows.length = m + 1 := ⟨rows.length - 1, by omega⟩
  rw [hm, starts, if_pos (by omega), if_pos rfl]
  simp only [htake]
  rw [if_neg (by omega), starts_of_ge le_rfl, segments, List.drop_zero]

/-- A leaf of `n` equal observations is one centroid. -/
theorem eval_replicate {n : Nat} (hn : 0 < n) {o : Obs} {v : ℚ} (hv : o.value = some v)
    (hword : o.word 0 ≠ 0) :
    ∃ p, (MergeTree.build 1 (List.replicate n o)).eval spanNumerics [.temporal] = .ok p ∧
      (p.digest.map Centroid.weight).sum = roundFloat32 n := by
  have hfinite : finiteObs (List.replicate n o) = List.replicate n o := by
    rw [finiteObs, List.filter_replicate, hv]
    rfl
  have hwords : ∀ o' ∈ List.replicate n o, ∀ c ∈ [Channel.temporal].zipIdx, o'.word c.2 ≠ 0 := by
    intro o' ho' c hc
    rw [List.eq_of_mem_replicate ho', List.mem_singleton.mp hc]
    exact hword
  have hne : List.replicate n o ≠ [] := by
    intro hnil
    have hlen := congrArg List.length hnil
    rw [List.length_replicate, List.length_nil] at hlen
    omega
  have hrows : (sortByMean ((finiteObs (List.replicate n o)).map (obsRow [.temporal]))).map
      Row.weight = List.replicate n 1 := by
    have hleaf : ((finiteObs (List.replicate n o)).map (obsRow [.temporal])).map Row.weight =
        List.replicate n 1 := by
      rw [hfinite, List.map_replicate, List.map_replicate]
      rfl
    have hperm := (List.perm_insertionSort (fun x y : Row => x.mean ≤ y.mean)
      ((finiteObs (List.replicate n o)).map (obsRow [.temporal]))).map Row.weight
    rw [hleaf] at hperm
    exact List.perm_replicate.mp hperm
  refine ⟨_, buildTdigestChecked_eq hwords, ?_⟩
  rw [buildTdigest_eq, if_neg (by rw [hfinite]; exact hne), compressed, compress_one hn hrows]
  show (centroidOf spanNumerics (sortByMean
    ((finiteObs (List.replicate n o)).map (obsRow [.temporal])))).weight + 0 = _
  rw [add_zero, centroidOf, hrows, List.sum_replicate, nsmul_one]
  rfl

/-- A word that is dropped with its value is missing from the envelope, and a centroid of
`2 ^ 24 + 1` observations weighs one less. -/
theorem fold_tree_drops :
    (∃ p, (MergeTree.build 1 [⟨some 0, [10 * 2 ^ 32 + 12]⟩, ⟨none, [20 * 2 ^ 32 + 22]⟩]).eval
        spanNumerics [.temporal] = .ok p ∧
      channelWord spanNumerics .temporal (p.words.getD 0 []) ≠
        channelWord spanNumerics .temporal [10 * 2 ^ 32 + 12, 20 * 2 ^ 32 + 22]) ∧
    ∃ p, (MergeTree.build 1 (List.replicate (2 ^ 24 + 1) ⟨some 0, [10 * 2 ^ 32 + 12]⟩)).eval
        spanNumerics [.temporal] = .ok p ∧
      (p.digest.map Centroid.weight).sum ≠ ((2 ^ 24 + 1 : Nat) : ℚ) := by
  constructor
  · exact ⟨_, rfl, by decide⟩
  · obtain ⟨p, hp, hsum⟩ := eval_replicate (n := 2 ^ 24 + 1) (Nat.succ_pos _)
      (o := ⟨some 0, [10 * 2 ^ 32 + 12]⟩) rfl (by decide)
    refine ⟨p, hp, ?_⟩
    rw [hsum]
    decide +kernel

theorem fold_tree_envelope_two :
    ∃ p groups, (MergeTree.pair 512 (.build 512 [⟨some 1, [7, 10 * 2 ^ 32 + 12]⟩,
          ⟨none, [7, 2 * 2 ^ 32 + 3]⟩])
        (.kway 256 [.build 512 [⟨some 3, [7, 20 * 2 ^ 32 + 22]⟩], .build 512 []])).eval spanNumerics
          [.locations, .temporal] = .ok p ∧ (∀ group ∈ groups, group ≠ []) ∧
      groups.flatten.Perm [⟨some 1, [7, 10 * 2 ^ 32 + 12]⟩, ⟨some 3, [7, 20 * 2 ^ 32 + 22]⟩] ∧
      (∀ c ∈ [Channel.locations, Channel.temporal].zipIdx,
        channelWord spanNumerics c.1 (p.words.getD c.2 []) =
          channelWord spanNumerics c.1 ([⟨some 1, [7, 10 * 2 ^ 32 + 12]⟩,
            ⟨some 3, [7, 20 * 2 ^ 32 + 22]⟩].map (Obs.word c.2)) ∧
        List.Forall₂ (fun w group => ∀ o ∈ group, Under (channelJoin c.1) (o.word c.2) w)
          (p.words.getD c.2 []) groups) ∧
      List.Forall₂ (fun (centroid : Centroid) (group : List Obs) =>
        group.length ≤ exactCount → centroid.weight = group.length) p.digest groups ∧
      ((∀ group ∈ groups, group.length ≤ exactCount) →
        (p.digest.map Centroid.weight).sum = (2 : Nat)) :=
  have hencoded : ∀ o ∈ (MergeTree.pair 512 (.build 512 [⟨some 1, [7, 10 * 2 ^ 32 + 12]⟩,
        ⟨none, [7, 2 * 2 ^ 32 + 3]⟩])
      (.kway 256 [.build 512 [⟨some 3, [7, 20 * 2 ^ 32 + 22]⟩], .build 512 []])).observations,
      ∀ c ∈ [Channel.locations, Channel.temporal].zipIdx, spanDomain 7 c.1 (o.word c.2) := by
    decide
  fold_tree_envelope (spanNumerics_lawful 7) _ hencoded

end Zagg.Stats
