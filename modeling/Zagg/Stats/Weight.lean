import Mathlib.Algebra.BigOperators.Group.List.Lemmas
import Mathlib.Algebra.Order.BigOperators.Group.List
import Mathlib.Data.List.Perm.Basic
import Mathlib.Data.Rat.Cast.Order
import Mathlib.Tactic.Linarith
import Zagg.Lib.GreedyCut
import Zagg.Stats.Composition
import Zagg.Stats.Tdigest

/-!
# Digest weights

`build_tdigest` gives every finite observation weight one; `_compress` only sums the
weights of neighbours, so a digest weighs what its members weigh. The stored weight is
a float32, which is exact on counts up to `2 ^ 24`.
-/
namespace Zagg.Stats

open Zagg.Lib

/-- A float64 observation, `none` when it is not finite. -/
abbrev Value := Option ℚ

variable (num : Numerics)

/-- `argsort(kind="stable")` on the means. -/
def sortByMean (rows : List Row) : List Row := rows.insertionSort fun a b => a.mean ≤ b.mean

/-- One unit-weight row per finite observation, with its words. -/
def observationRows (values : List Value) (channels : List Words) : List Row :=
  values.zipIdx.filterMap fun v => v.1.map fun x => ⟨x, 1, channels.map fun ws => ws.getD v.2 0⟩

/-- The compressed rows as a digest with its channels' words. -/
def compressed (delta : Nat) (declared : List Channel) (rows : List Row) : Part :=
  let runs := compress num delta rows
  ⟨runs.map (centroidOf num),
    declared.zipIdx.map fun c =>
      runs.map fun run => channelWord num c.1 (run.map fun r => r.words.getD c.2 0)⟩

def buildTdigest (delta : Nat) (declared : List Channel) (values : List Value)
    (channels : List Words) : Part :=
  match observationRows values channels with
  | [] => ⟨[], declared.map fun _ => []⟩
  | rows => compressed num delta declared (sortByMean rows)

/-- The stored copy of a digest that passes through a merge alone. -/
def Part.asFloat32 (p : Part) : Part :=
  ⟨p.digest.map fun c => ⟨num.float32 c.mean, num.float32 c.weight⟩, p.words⟩

def mergeTdigests (delta : Nat) (declared : List Channel) (p q : Part) : Part :=
  match p.digest, q.digest with
  | [], [] => ⟨[], declared.map fun _ => []⟩
  | _, [] => p.asFloat32 num
  | [], _ => q.asFloat32 num
  | _, _ => compressed num delta declared (sortByMean (p.rows ++ q.rows))

/-- The total weight of a digest. -/
def Digest.total (d : Digest) : ℚ := (d.map Centroid.weight).sum

/-- The number of finite observations. -/
def finiteCount (values : List Value) : Nat := values.countP Option.isSome

/-- The counts a float32 holds exactly. -/
def maxExact : Nat := 2 ^ 24

/-- `float32` is exact on the counts up to `2 ^ 24`. -/
def ExactCounts : Prop := ∀ n : Nat, n ≤ maxExact → num.float32 n = n

/-- Weights that are counts, `n` in all. -/
def Counts (weights : List ℚ) (n : Nat) : Prop :=
  ∃ ks : List Nat, weights = ks.map Nat.cast ∧ ks.sum = n

section Cover

theorem starts_of_ge {kLeft0 : ℚ} {kRight : List ℚ} {fuel s : Nat} (h : kRight.length ≤ s) :
    starts kLeft0 kRight fuel s = [] := by
  cases fuel with
  | zero => rfl
  | succ fuel => rw [starts, if_neg (Nat.not_lt.mpr h)]

/-- The bounded loop makes the greedy cut once its fuel covers the rows left. -/
theorem starts_eq_cuts {kLeft0 : ℚ} {kRight : List ℚ} {fuel s : Nat} (h : kRight.length ≤ s + fuel) :
    starts kLeft0 kRight fuel s = cuts kLeft0 kRight s := by
  induction fuel generalizing s with
  | zero =>
    rw [Nat.add_zero] at h
    rw [starts, cuts_of_ge kLeft0 kRight h]
  | succ fuel ih =>
    by_cases hs : s < kRight.length
    · have hlt := lt_cutEnd kLeft0 kRight s
      rw [cuts_of_lt kLeft0 kRight hs, ← ih (by omega), starts, if_pos hs]
      rfl
    · rw [cuts_of_ge kLeft0 kRight (Nat.not_lt.mp hs), starts, if_neg hs]

theorem segments_eq_pieces (rows : List Row) (ss : List Nat) : segments rows ss = pieces rows ss := by
  induction ss with
  | nil => rfl
  | cons s ss ih =>
    cases ss with
    | nil => rfl
    | cons e ss => rw [segments, pieces, ih]

/-- One right edge a row. -/
theorem length_edges (delta : Nat) (rows : List Row) :
    ((cumsum (rows.map Row.weight)).map fun c =>
      num.k1 delta (c / (cumsum (rows.map Row.weight)).getLastD 0)).length = rows.length := by
  rw [List.length_map, cumsum, List.length_tail, List.length_scanl, List.length_map]
  rfl

theorem exists_cuts (delta : Nat) (rows : List Row) : ∃ right : List ℚ, right.length = rows.length ∧
    compress num delta rows = pieces rows (cuts (num.k1 delta 0) right 0) := by
  have hlen := length_edges num delta rows
  refine ⟨_, hlen, ?_⟩
  rw [compress, segments_eq_pieces, starts_eq_cuts (by omega)]

/-- `_compress` loses no row and repeats none. -/
theorem flatten_compress (delta : Nat) (rows : List Row) :
    (compress num delta rows).flatten = rows := by
  obtain ⟨right, hlen, hcompress⟩ := exists_cuts num delta rows
  rw [hcompress, flatten_pieces hlen, List.drop_zero]

theorem ne_nil_of_mem_compress (delta : Nat) (rows : List Row) :
    ∀ run ∈ compress num delta rows, run ≠ [] := by
  obtain ⟨right, hlen, hcompress⟩ := exists_cuts num delta rows
  rw [hcompress]
  exact ne_nil_of_mem_pieces hlen 0

end Cover

section Counts

theorem counts_nil : Counts [] 0 := ⟨[], rfl, rfl⟩

theorem Counts.append {ws ws' : List ℚ} {m n : Nat} (h : Counts ws m) (h' : Counts ws' n) :
    Counts (ws ++ ws') (m + n) := by
  obtain ⟨ks, rfl, rfl⟩ := h
  obtain ⟨ks', rfl, rfl⟩ := h'
  exact ⟨ks ++ ks', List.map_append.symm, List.sum_append⟩

theorem Counts.perm {ws ws' : List ℚ} {n : Nat} (h : Counts ws n) (hp : ws.Perm ws') :
    Counts ws' n := by
  obtain ⟨ks, rfl, rfl⟩ := h
  have hcomp := congrFun (congrFun (List.eq_map_comp_perm (Nat.cast : Nat → ℚ)) ws') ks
  obtain ⟨ks', hks, hp'⟩ := hcomp.mpr hp.symm
  exact ⟨ks', hks, hp'.sum_eq⟩

theorem Counts.sum {ws : List ℚ} {n : Nat} (h : Counts ws n) : ws.sum = n := by
  obtain ⟨ks, rfl, rfl⟩ := h
  exact (map_list_sum (Nat.castAddMonoidHom ℚ) ks).symm

/-- The parts of a list of counts are counts that add up to its total. -/
theorem Counts.split {ws ws' : List ℚ} {n : Nat} (h : Counts (ws ++ ws') n) :
    ∃ m m', Counts ws m ∧ Counts ws' m' ∧ m + m' = n := by
  obtain ⟨ks, hks, rfl⟩ := h
  obtain ⟨l, l', rfl, h1, h2⟩ := List.append_eq_map_iff.mp hks
  exact ⟨l.sum, l'.sum, ⟨l, h1.symm, rfl⟩, ⟨l', h2.symm, rfl⟩, List.sum_append.symm⟩

theorem counts_replicate (n : Nat) : Counts (List.replicate n 1) n :=
  ⟨List.replicate n 1, by rw [List.map_replicate, Nat.cast_one], by simp⟩

variable {num}

/-- Summing neighbours keeps the weights counts with the same total. -/
theorem counts_centroids (hnum : ExactCounts num) {runs : List (List Row)} {n : Nat}
    (h : Counts (runs.flatten.map Row.weight) n) (hn : n ≤ maxExact) :
    Counts ((runs.map (centroidOf num)).map Centroid.weight) n := by
  induction runs generalizing n with
  | nil => exact h
  | cons run runs ih =>
    rw [List.flatten_cons, List.map_append] at h
    obtain ⟨m, m', hrun, hrest, rfl⟩ := h.split
    have hweight : (centroidOf num run).weight = (m : ℚ) :=
      (congrArg num.float32 hrun.sum).trans (hnum m (by omega))
    have hhead : Counts [(centroidOf num run).weight] m := ⟨[m], by rw [hweight]; rfl, by simp⟩
    exact hhead.append (ih hrest (by omega))

theorem counts_float32 (hnum : ExactCounts num) {d : Digest} {n : Nat}
    (h : Counts (d.map Centroid.weight) n) (hn : n ≤ maxExact) :
    Counts ((d.map fun c => (⟨num.float32 c.mean, num.float32 c.weight⟩ : Centroid)).map
      Centroid.weight) n := by
  obtain ⟨ks, hks, rfl⟩ := h
  refine ⟨ks, ?_, rfl⟩
  have hle : ∀ k ∈ ks, k ≤ maxExact := fun k hk => (List.single_le_sum (by simp) k hk).trans hn
  rw [List.map_map]
  calc d.map (fun c => num.float32 c.weight)
      = (d.map Centroid.weight).map num.float32 := by rw [List.map_map]; rfl
    _ = ks.map Nat.cast := by
      rw [hks, List.map_map]
      exact List.map_congr_left fun k hk => hnum k (hle k hk)

theorem map_weight_rows (p : Part) : p.rows.map Row.weight = p.digest.map Centroid.weight := by
  rw [Part.rows, List.map_map]
  conv_rhs => rw [← List.zipIdx_map_fst 0 p.digest, List.map_map]
  rfl

theorem counts_compressed (hnum : ExactCounts num) (delta : Nat) (declared : List Channel)
    {rows : List Row} {n : Nat} (h : Counts (rows.map Row.weight) n) (hn : n ≤ maxExact) :
    Counts ((compressed num delta declared rows).digest.map Centroid.weight) n := by
  refine counts_centroids hnum ?_ hn
  rw [flatten_compress]
  exact h

theorem map_weight_observationRows (values : List Value) (channels : List Words) :
    (observationRows values channels).map Row.weight =
      List.replicate (finiteCount values) 1 := by
  refine List.eq_replicate_iff.mpr ⟨?_, fun w hw => ?_⟩
  · rw [List.length_map, observationRows, List.length_filterMap_eq_countP, finiteCount]
    conv_rhs => rw [← List.zipIdx_map_fst 0 values, List.countP_map]
    exact List.countP_congr fun v _ => by simp
  · obtain ⟨r, hr, rfl⟩ := List.mem_map.mp hw
    obtain ⟨v, -, hv⟩ := List.mem_filterMap.mp hr
    obtain ⟨x, -, rfl⟩ := Option.map_eq_some_iff.mp hv
    rfl

/-- A built digest weighs its finite observations. -/
theorem counts_buildTdigest (hnum : ExactCounts num) (delta : Nat) (declared : List Channel)
    (values : List Value) (channels : List Words) (hn : finiteCount values ≤ maxExact) :
    Counts ((buildTdigest num delta declared values channels).digest.map Centroid.weight)
      (finiteCount values) := by
  have hrows : Counts ((observationRows values channels).map Row.weight) (finiteCount values) := by
    rw [map_weight_observationRows]
    exact counts_replicate _
  unfold buildTdigest
  split
  · next heq =>
    rw [heq] at hrows
    exact hrows
  · refine counts_compressed hnum delta declared (hrows.perm ?_) hn
    exact (List.perm_insertionSort _ _).symm.map _

/-- A pairwise merge weighs both its digests. -/
theorem counts_mergeTdigests (hnum : ExactCounts num) (delta : Nat) (declared : List Channel)
    {p q : Part} {m n : Nat} (hp : Counts (p.digest.map Centroid.weight) m)
    (hq : Counts (q.digest.map Centroid.weight) n) (hmn : m + n ≤ maxExact) :
    Counts ((mergeTdigests num delta declared p q).digest.map Centroid.weight) (m + n) := by
  have hrows : Counts ((p.rows ++ q.rows).map Row.weight) (m + n) := by
    rw [List.map_append, map_weight_rows, map_weight_rows]
    exact hp.append hq
  have hjoin := hp.append hq
  unfold mergeTdigests
  split
  · next h1 h2 =>
    rw [h1, h2] at hjoin
    exact hjoin
  · next h2 _ =>
    rw [h2, List.map_nil, List.append_nil] at hjoin
    exact counts_float32 hnum hjoin hmn
  · next h1 _ =>
    rw [h1, List.map_nil, List.nil_append] at hjoin
    exact counts_float32 hnum hjoin hmn
  · refine counts_compressed hnum delta declared (hrows.perm ?_) hmn
    exact (List.perm_insertionSort _ _).symm.map _

theorem flatMap_rows_filter (parts : List Part) :
    (parts.filter fun p => p.digest ≠ []).flatMap Part.rows = parts.flatMap Part.rows := by
  induction parts with
  | nil => rfl
  | cons p parts ih =>
    rw [List.filter_cons, List.flatMap_cons]
    split_ifs with hp
    · rw [List.flatMap_cons, ih]
    · have hnil : p.rows = [] := by
        have hd : p.digest = [] := by simpa using hp
        rw [Part.rows, hd]
        rfl
      rw [ih, hnil, List.nil_append]

theorem counts_flatMap_rows {parts : List Part} {ns : List Nat}
    (h : List.Forall₂ (fun p n => Counts (p.digest.map Centroid.weight) n) parts ns) :
    Counts ((parts.flatMap Part.rows).map Row.weight) ns.sum := by
  induction h with
  | nil => exact counts_nil
  | cons hp _ ih =>
    rw [List.flatMap_cons, List.map_append, map_weight_rows, List.sum_cons]
    exact hp.append ih

/-- A k-way merge weighs all its digests. -/
theorem counts_mergeTdigestsKway (hnum : ExactCounts num) (delta : Nat) (declared : List Channel)
    {parts : List Part} {ns : List Nat}
    (h : List.Forall₂ (fun p n => Counts (p.digest.map Centroid.weight) n) parts ns)
    (hn : ns.sum ≤ maxExact) :
    Counts ((mergeTdigestsKway num delta declared parts).digest.map Centroid.weight) ns.sum := by
  have hrows := counts_flatMap_rows h
  rw [← flatMap_rows_filter] at hrows
  unfold mergeTdigestsKway
  split
  · next heq =>
    rw [heq] at hrows
    exact hrows
  · next p heq =>
    rw [heq, List.flatMap_singleton, map_weight_rows] at hrows
    exact counts_float32 hnum hrows hn
  · refine counts_centroids hnum ?_ hn
    rw [flatten_compress]
    exact hrows.perm ((List.perm_insertionSort _ _).symm.map _)

end Counts

/-- A count stored in 24 significant bits, a tie going to the even neighbour. -/
def float32Count (n : Nat) : Nat :=
  let e := Nat.log2 n + 1 - 24
  2 ^ e * (rint ((n : ℚ) / 2 ^ e)).toNat

end Zagg.Stats
