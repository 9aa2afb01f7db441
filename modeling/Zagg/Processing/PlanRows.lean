import Zagg.Lib.Ragged
import Zagg.Processing.Owners
import Zagg.Processing.ReadPlan

/-!
# The rows of a plan

Where the records with rows follow each other in the base, a plan reads increasing base rows,
and all the rows of every record within `pad` records of a matched one.
-/
namespace Zagg.Processing

open Zagg.Lib

section Runs

/-- Half-open runs, in order, that hold every matched position from `lo` on. -/
structure Covers (mask : List Bool) (lo : Nat) (runs : List (Nat × Nat)) : Prop where
  covered : ∀ q, lo ≤ q → mask[q]? = some true → ∃ r ∈ runs, r.1 ≤ q ∧ q < r.2
  bounds : ∀ r ∈ runs, lo ≤ r.1 ∧ r.1 < r.2 ∧ r.2 ≤ mask.length
  sorted : runs.Pairwise fun a b => a.1 ≤ b.1

theorem Covers.shift {mask : List Bool} {lo : Nat} {runs : List (Nat × Nat)}
    (h : Covers mask lo runs) (b : Bool) :
    Covers (b :: mask) (lo + 1) (runs.map fun r => (r.1 + 1, r.2 + 1)) where
  covered q hq hm := by
    cases q with
    | zero => omega
    | succ q =>
      obtain ⟨r, hr, h1, h2⟩ := h.covered q (by omega) hm
      exact ⟨_, List.mem_map_of_mem hr, Nat.succ_le_succ h1, Nat.succ_lt_succ h2⟩
  bounds r hr := by
    obtain ⟨x, hx, rfl⟩ := List.mem_map.mp hr
    obtain ⟨h1, h2, h3⟩ := h.bounds x hx
    exact ⟨Nat.succ_le_succ h1, Nat.succ_lt_succ h2, Nat.succ_le_succ h3⟩
  sorted := List.pairwise_map.mpr (h.sorted.imp fun hab => Nat.succ_le_succ hab)

/-- The edges of the rest of a mask after `prev`. -/
def edgesFrom (prev : Bool) (mask : List Bool) : List Nat :=
  flatnonzero (List.zipWith (fun a b => a != b) (mask ++ [false]) (prev :: mask))

theorem edgesFrom_cons (prev b : Bool) (mask : List Bool) : edgesFrom prev (b :: mask) =
    if b = prev then (edgesFrom b mask).map (· + 1) else 0 :: (edgesFrom b mask).map (· + 1) := by
  rw [edgesFrom, List.cons_append, List.zipWith_cons_cons, flatnonzero_cons, ← edgesFrom]
  cases b <;> cases prev <;> rfl

theorem edgePairs_map_succ (l : List Nat) :
    edgePairs (l.map (· + 1)) = (edgePairs l).map fun r => (r.1 + 1, r.2 + 1) := by
  induction l using edgePairs.induct with
  | case1 a b l ih =>
    rw [List.map_cons, List.map_cons, edgePairs, edgePairs, ih, List.map_cons]
  | case2 l h =>
    cases l with
    | nil => rfl
    | cons a l =>
      cases l with
      | nil => rfl
      | cons b l => exact absurd rfl (h a b l)

/-- The pairs of edges cover the mask; inside a run, the first edge closes it. -/
theorem covers_edges (mask : List Bool) : Covers mask 0 (edgePairs (edgesFrom false mask)) ∧
    ∃ e rest, edgesFrom true mask = e :: rest ∧ e ≤ mask.length ∧ Covers mask e (edgePairs rest) := by
  induction mask with
  | nil => exact ⟨⟨nofun, nofun, .nil⟩, 0, [], rfl, le_rfl, nofun, nofun, .nil⟩
  | cons b mask ih =>
    obtain ⟨hout, e, rest, hedges, hle, hin⟩ := ih
    cases b with
    | false =>
      have houter : Covers (false :: mask) 0
          ((edgePairs (edgesFrom false mask)).map fun r => (r.1 + 1, r.2 + 1)) := by
        have hs := hout.shift false
        refine ⟨fun q _ hm => ?_, fun r hr => ⟨Nat.zero_le _, (hs.bounds r hr).2⟩, hs.sorted⟩
        cases q with
        | zero => cases hm
        | succ q => exact hs.covered (q + 1) (by omega) hm
      refine ⟨?_, 0, (edgesFrom false mask).map (· + 1), ?_, Nat.zero_le _, ?_⟩
      · rw [edgesFrom_cons, if_pos rfl, edgePairs_map_succ]
        exact houter
      · rw [edgesFrom_cons, if_neg Bool.false_ne_true]
      · rw [edgePairs_map_succ]
        exact houter
    | true =>
      have hs := hin.shift true
      refine ⟨?_, e + 1, rest.map (· + 1), ?_, Nat.succ_le_succ hle, ?_⟩
      · rw [edgesFrom_cons, if_neg Bool.false_ne_true.symm, hedges, List.map_cons, edgePairs,
          edgePairs_map_succ]
        refine ⟨fun q _ hm => ?_, ?_, ?_⟩
        · by_cases hq : q < e + 1
          · exact ⟨_, .head _, Nat.zero_le _, hq⟩
          · obtain ⟨r, hr, h⟩ := hs.covered q (by omega) hm
            exact ⟨r, .tail _ hr, h⟩
        · intro r hr
          rcases List.mem_cons.mp hr with rfl | hr
          · exact ⟨le_rfl, Nat.succ_pos e, Nat.succ_le_succ hle⟩
          · exact ⟨Nat.zero_le _, (hs.bounds r hr).2⟩
        · exact List.pairwise_cons.mpr ⟨fun _ _ => Nat.zero_le _, hs.sorted⟩
      · rw [edgesFrom_cons, if_pos rfl, hedges, List.map_cons]
      · rw [edgePairs_map_succ]
        exact hs

/-- Inclusive runs in order. -/
structure Ordered (n : Nat) (runs : List (Nat × Nat)) : Prop where
  bounds : ∀ r ∈ runs, r.1 ≤ r.2 ∧ r.2 < n
  sorted : runs.Pairwise fun a b => a.1 ≤ b.1

theorem ordered_padded (mask : List Bool) (pad : Nat) :
    Ordered mask.length (padRuns mask.length pad (rawRuns mask)) ∧
      ∀ q p, mask[q]? = some true → p < mask.length → p ≤ q + pad → q ≤ p + pad →
        ∃ r ∈ padRuns mask.length pad (rawRuns mask), r.1 ≤ p ∧ p ≤ r.2 := by
  have hcov : Covers mask 0 (edgePairs (edges mask)) := (covers_edges mask).1
  refine ⟨⟨fun r hr => ?_, ?_⟩, fun q p hm hp hpq hqp => ?_⟩
  · obtain ⟨y, hy, rfl⟩ := List.mem_map.mp hr
    obtain ⟨x, hx, rfl⟩ := List.mem_map.mp hy
    obtain ⟨-, h2, h3⟩ := hcov.bounds x hx
    dsimp only
    omega
  · rw [padRuns, rawRuns, List.map_map]
    exact List.pairwise_map.mpr (hcov.sorted.imp fun hab => Nat.sub_le_sub_right hab pad)
  · obtain ⟨r, hr, h1, h2⟩ := hcov.covered q (Nat.zero_le q) hm
    refine ⟨_, List.mem_map_of_mem (List.mem_map_of_mem hr), ?_⟩
    dsimp only
    omega

/-- Merged runs lie apart and hold what the runs held. -/
theorem mergeFrom_spec {n : Nat} (cur : Nat × Nat) (rs : List (Nat × Nat))
    (h : Ordered n (cur :: rs)) :
    (mergeFrom cur rs).Pairwise (fun a b => a.2 + 1 < b.1) ∧
      (∀ r ∈ mergeFrom cur rs, cur.1 ≤ r.1 ∧ r.1 ≤ r.2 ∧ r.2 < n) ∧
      ∀ q, (∃ r ∈ cur :: rs, r.1 ≤ q ∧ q ≤ r.2) → ∃ r ∈ mergeFrom cur rs, r.1 ≤ q ∧ q ≤ r.2 := by
  induction rs generalizing cur with
  | nil =>
    refine ⟨List.pairwise_singleton _ cur, fun r hr => ?_, fun q hq => hq⟩
    obtain rfl := List.mem_singleton.mp hr
    exact ⟨le_rfl, h.bounds r (.head _)⟩
  | cons r rs ih =>
    obtain ⟨hcur, hsorted⟩ := List.pairwise_cons.mp h.sorted
    have hb := h.bounds cur (.head _)
    have hbr := h.bounds r (.tail _ (.head _))
    have hle := hcur r (.head _)
    rw [mergeFrom]
    split_ifs with hjoin
    · have hnext : Ordered n ((cur.1, max cur.2 r.2) :: rs) := by
        refine ⟨fun x hx => ?_, List.pairwise_cons.mpr ⟨fun x hx => hcur x (.tail _ hx), hsorted.tail⟩⟩
        rcases List.mem_cons.mp hx with rfl | hx
        · dsimp only
          omega
        · exact h.bounds x (.tail _ (.tail _ hx))
      obtain ⟨h1, h2, h3⟩ := ih (cur.1, max cur.2 r.2) hnext
      refine ⟨h1, h2, fun q hq => h3 q ?_⟩
      obtain ⟨x, hx, hx1, hx2⟩ := hq
      rcases List.mem_cons.mp hx with rfl | hx
      · exact ⟨_, .head _, hx1, hx2.trans (le_max_left ..)⟩
      · rcases List.mem_cons.mp hx with rfl | hx
        · exact ⟨_, .head _, hle.trans hx1, hx2.trans (le_max_right ..)⟩
        · exact ⟨x, .tail _ hx, hx1, hx2⟩
    · obtain ⟨h1, h2, h3⟩ := ih r ⟨fun x hx => h.bounds x (.tail _ hx), hsorted⟩
      refine ⟨List.pairwise_cons.mpr ⟨fun x hx => ?_, h1⟩, fun x hx => ?_, fun q hq => ?_⟩
      · have := (h2 x hx).1
        omega
      · rcases List.mem_cons.mp hx with rfl | hx
        · exact ⟨le_rfl, hb⟩
        · exact ⟨hle.trans (h2 x hx).1, (h2 x hx).2⟩
      · obtain ⟨x, hx, hxq⟩ := hq
        rcases List.mem_cons.mp hx with rfl | hx
        · exact ⟨x, .head _, hxq⟩
        · obtain ⟨y, hy, hyq⟩ := h3 q ⟨x, hx, hxq⟩
          exact ⟨y, .tail _ hy, hyq⟩

theorem mergeRuns_spec {n : Nat} {rs : List (Nat × Nat)} (h : Ordered n rs) :
    (mergeRuns rs).Pairwise (fun a b => a.2 + 1 < b.1) ∧
      ∀ q, (∃ r ∈ rs, r.1 ≤ q ∧ q ≤ r.2) → ∃ r ∈ mergeRuns rs, r.1 ≤ q ∧ q ≤ r.2 := by
  cases rs with
  | nil => exact ⟨.nil, fun q hq => hq⟩
  | cons r rs =>
    obtain ⟨h1, -, h3⟩ := mergeFrom_spec r rs h
    exact ⟨h1, h3⟩

end Runs

section Slices
variable {link : Link}

/-- The records with rows start at or after the origin and follow each other in the base. -/
structure Link.Increasing (link : Link) : Prop where
  beg_nonneg : ∀ r ∈ link.nonempty, 0 ≤ r.beg
  stop_le_beg : ∀ a ∈ link.nonempty, ∀ b ∈ link.nonempty, a.index < b.index → a.stop ≤ b.beg

theorem pairwise_records (link : Link) : link.records.Pairwise fun a b => a.index < b.index := by
  refine List.pairwise_iff_getElem.mpr fun i j hi hj hij => ?_
  simp only [Link.records, List.getElem_map, List.getElem_zipIdx]
  omega

/-- The slice of a run runs from its first record with rows to its last. -/
theorem runSlice_spec (h : link.Increasing) {n : Nat} {run s : Nat × Nat}
    (hs : runSlice link n run = some s) :
    s.1 < s.2 ∧ s.2 ≤ n ∧
      ∃ first ∈ link.nonempty, ∃ last ∈ link.nonempty, run.1 ≤ first.index ∧ last.index ≤ run.2 ∧
        (s.1 : Int) = first.beg ∧ (s.2 : Int) ≤ last.stop := by
  obtain ⟨first, hfirst, hs⟩ := Option.bind_eq_some_iff.mp hs
  obtain ⟨last, hlast, hs⟩ := Option.bind_eq_some_iff.mp hs
  dsimp only at hs
  split_ifs at hs with hempty
  obtain rfl := Option.some.inj hs
  have hmem : ∀ r ∈ link.records.filter (fun r => decide (run.1 ≤ r.index ∧ r.index ≤ run.2 ∧ 0 < r.cnt)),
      r ∈ link.nonempty ∧ run.1 ≤ r.index ∧ r.index ≤ run.2 := by
    intro r hr
    obtain ⟨hr, hin⟩ := List.mem_filter.mp hr
    obtain ⟨h1, h2, h3⟩ := of_decide_eq_true hin
    exact ⟨List.mem_filter.mpr ⟨hr, decide_eq_true h3⟩, h1, h2⟩
  obtain ⟨hf, hf1, -⟩ := hmem first (List.mem_of_head? hfirst)
  obtain ⟨hl, -, hl2⟩ := hmem last (List.mem_of_getLast? hlast)
  have hbeg := h.beg_nonneg first hf
  have hlbeg := h.beg_nonneg last hl
  have hle := last.beg_le_stop
  refine ⟨by omega, by omega, first, hf, last, hl, hf1, hl2, ?_, ?_⟩
  · dsimp only
    omega
  · dsimp only
    omega

/-- The slice of a run holds the rows of its records. -/
theorem runSlice_covers (h : link.Increasing) {n : Nat} {run : Nat × Nat} {r : LinkRecord}
    (hr : r ∈ link.nonempty) (h1 : run.1 ≤ r.index) (h2 : r.index ≤ run.2) (hn : r.stop ≤ n) {row : Nat}
    (ho : r.owns row = true) :
    ∃ s, runSlice link n run = some s ∧ s.1 ≤ row ∧ row < s.2 := by
  obtain ⟨hmem, hpos⟩ := List.mem_filter.mp hr
  have hin : r ∈ link.records.filter fun r =>
      decide (run.1 ≤ r.index ∧ r.index ≤ run.2 ∧ 0 < r.cnt) :=
    List.mem_filter.mpr ⟨hmem, decide_eq_true ⟨h1, h2, of_decide_eq_true hpos⟩⟩
  have hsorted : (link.records.filter fun r =>
      decide (run.1 ≤ r.index ∧ r.index ≤ run.2 ∧ 0 < r.cnt)).Pairwise fun a b => a.index < b.index :=
    (pairwise_records link).filter _
  have hnonempty : ∀ x ∈ link.records.filter (fun r =>
      decide (run.1 ≤ r.index ∧ r.index ≤ run.2 ∧ 0 < r.cnt)), x ∈ link.nonempty := by
    intro x hx
    obtain ⟨hx, hxin⟩ := List.mem_filter.mp hx
    exact List.mem_filter.mpr ⟨hx, decide_eq_true (of_decide_eq_true hxin).2.2⟩
  rw [runSlice]
  generalize link.records.filter (fun r =>
    decide (run.1 ≤ r.index ∧ r.index ≤ run.2 ∧ 0 < r.cnt)) = inside at hin hsorted hnonempty ⊢
  have hfirst : ∃ first ∈ link.nonempty, inside.head? = some first ∧ first.beg ≤ r.beg := by
    cases inside with
    | nil => cases hin
    | cons first rest =>
      refine ⟨first, hnonempty first (.head _), rfl, ?_⟩
      rcases List.mem_cons.mp hin with rfl | hrest
      · exact le_rfl
      · have hlt := (List.pairwise_cons.mp hsorted).1 r hrest
        exact first.beg_le_stop.trans (h.stop_le_beg first (hnonempty first (.head _)) r hr hlt)
  have hlast : ∃ last ∈ link.nonempty, inside.getLast? = some last ∧ r.stop ≤ last.stop := by
    rcases List.eq_nil_or_concat' inside with rfl | ⟨rest, last, rfl⟩
    · cases hin
    · refine ⟨last, hnonempty last (by simp), List.getLast?_concat, ?_⟩
      rcases List.mem_append.mp hin with hrest | hlast
      · have hlt := (List.pairwise_append.mp hsorted).2.2 r hrest last (.head _)
        exact (h.stop_le_beg r hr last (hnonempty last (by simp)) hlt).trans last.beg_le_stop
      · rw [List.mem_singleton.mp hlast]
  obtain ⟨first, hf, hhead, hfle⟩ := hfirst
  obtain ⟨last, -, hget, hlle⟩ := hlast
  obtain ⟨ho1, ho2⟩ := owns_iff.mp ho
  have hbeg := h.beg_nonneg first hf
  refine ⟨((max 0 first.beg).toNat, (min (n : Int) last.stop).toNat), ?_, ?_⟩
  · rw [hhead, Option.bind_some, hget, Option.bind_some, if_neg (by omega)]
  · dsimp only
    omega

/-- A plan that does not fall back: increasing slices inside the base, over all the rows of the
records within `pad` of a matched one. -/
theorem planRead_spec (h : link.Increasing) {mask : List Bool} {n pad : Nat}
    {exceeds : Nat → Nat → Bool} {plan : ReadPlan} (hp : planRead mask link n pad exceeds = .ok plan)
    (hfull : plan.fullRead = false) :
    (∀ s ∈ plan.baseSlices, s.1 < s.2 ∧ s.2 ≤ n) ∧
      plan.baseSlices.Pairwise (fun s s' => s.2 ≤ s'.1) ∧
      plan.chunkLists = plan.baseSlices.map (fun s => [s]) ∧
      (plan.parentRuns = [] ↔ plan.baseSlices = []) ∧
      ∀ r ∈ link.nonempty, r.stop ≤ n → ∀ q, mask[q]? = some true → r.index ≤ q + pad →
        q ≤ r.index + pad → ∀ row, r.owns row = true → row ∈ plan.rows := by
  have hnothing : (∀ q : Nat, mask[q]? ≠ some true) ∨ (∀ r ∈ link.nonempty, r.stop ≤ n →
      ∀ row, r.owns row ≠ true) → plan = ReadPlan.nothing →
      (∀ s ∈ plan.baseSlices, s.1 < s.2 ∧ s.2 ≤ n) ∧
      plan.baseSlices.Pairwise (fun s s' => s.2 ≤ s'.1) ∧
      plan.chunkLists = plan.baseSlices.map (fun s => [s]) ∧
      (plan.parentRuns = [] ↔ plan.baseSlices = []) ∧
      ∀ r ∈ link.nonempty, r.stop ≤ n → ∀ q, mask[q]? = some true → r.index ≤ q + pad →
        q ≤ r.index + pad → ∀ row, r.owns row = true → row ∈ plan.rows := by
    rintro hno rfl
    refine ⟨nofun, .nil, rfl, ⟨fun _ => rfl, fun _ => rfl⟩, fun r hr hstop q hq _ _ row ho => ?_⟩
    rcases hno with hno | hno
    · exact absurd hq (hno q)
    · exact absurd ho (hno r hr hstop row)
  rw [planRead] at hp
  dsimp only at hp
  split_ifs at hp with hempty hlen hany
  · refine hnothing (.inr fun r hr hstop row ho => ?_) (Except.ok.inj hp).symm
    obtain ⟨h1, h2⟩ := owns_iff.mp ho
    rcases hempty with hnil | h0
    · rw [Link.nonempty, Link.records, hnil] at hr
      cases hr
    · omega
  · refine hnothing (.inl fun q hq => ?_) (Except.ok.inj hp).symm
    rw [Bool.not_eq_true', List.any_eq_false] at hany
    exact hany true (List.mem_of_getElem? hq) rfl
  · obtain rfl := (Except.ok.inj hp).symm
    cases hfull
  · obtain rfl := (Except.ok.inj hp).symm
    have hlen' : mask.length = link.rows.length := not_not.mp hlen
    obtain ⟨hordered, hcovers⟩ := ordered_padded mask pad
    rw [hlen'] at hordered hcovers
    obtain ⟨happart, hmerged⟩ := mergeRuns_spec hordered
    dsimp only [ReadPlan.rows]
    generalize mergeRuns (padRuns link.rows.length pad (rawRuns mask)) = merged at happart hmerged
    have hkept : ∀ k ∈ merged.filterMap (fun r => (runSlice link n r).map fun s => (r, s)),
        k.1 ∈ merged ∧ runSlice link n k.1 = some k.2 := by
      intro k hk
      obtain ⟨r, hr, hk⟩ := List.mem_filterMap.mp hk
      obtain ⟨s, hs, rfl⟩ := Option.map_eq_some_iff.mp hk
      exact ⟨hr, hs⟩
    refine ⟨fun s hs => ?_, ?_, ?_, ?_, ?_⟩
    · obtain ⟨k, hk, rfl⟩ := List.mem_map.mp hs
      obtain ⟨h1, h2, -⟩ := runSlice_spec h (hkept k hk).2
      exact ⟨h1, h2⟩
    · refine List.pairwise_map.mpr (happart.filterMap _ fun a b hab k hk k' hk' => ?_)
      obtain ⟨s, hs, rfl⟩ := Option.map_eq_some_iff.mp hk
      obtain ⟨s', hs', rfl⟩ := Option.map_eq_some_iff.mp hk'
      obtain ⟨-, -, -, -, last, hlast, -, hle, -, hstop⟩ := runSlice_spec h hs
      obtain ⟨-, -, first, hfirst, -, -, hge, -, hbeg, -⟩ := runSlice_spec h hs'
      have hsep := h.stop_le_beg last hlast first hfirst (by omega)
      dsimp only
      omega
    · rw [List.map_map]
      rfl
    · rw [List.map_eq_nil_iff, List.map_eq_nil_iff]
    · intro r hr hstop q hq hrq hqr row ho
      have hindex := index_lt hr
      obtain ⟨run, hrun, h1, h2⟩ := hmerged r.index (hcovers q r.index hq hindex hrq hqr)
      obtain ⟨s, hs, hs1, hs2⟩ := runSlice_covers h hr h1 h2 hstop ho
      refine List.mem_flatMap.mpr ⟨s, List.mem_map.mpr ⟨(run, s), ?_, rfl⟩, ?_⟩
      · exact List.mem_filterMap.mpr ⟨run, hrun, by rw [hs, Option.map_some]⟩
      · rw [List.mem_range'_1]
        omega

/-- The rows of a plan increase inside the base. -/
theorem pairwise_planRows {n : Nat} {slices : List (Nat × Nat)} (h : ∀ s ∈ slices, s.1 < s.2 ∧ s.2 ≤ n)
    (happart : slices.Pairwise fun s s' => s.2 ≤ s'.1) :
    (slices.flatMap fun r => List.range' r.1 (r.2 - r.1)).Pairwise (· < ·) ∧
      ∀ i ∈ slices.flatMap fun r => List.range' r.1 (r.2 - r.1), i < n := by
  constructor
  · induction slices with
    | nil => exact .nil
    | cons s slices ih =>
      obtain ⟨hhead, htail⟩ := List.pairwise_cons.mp happart
      rw [List.flatMap_cons]
      refine List.pairwise_append.mpr ⟨List.pairwise_lt_range' 1 (by omega),
        ih (fun s' hs' => h s' (.tail _ hs')) htail, ?_⟩
      intro i hi j hj
      obtain ⟨s', hs', hj⟩ := List.mem_flatMap.mp hj
      have hle := hhead s' hs'
      rw [List.mem_range'_1] at hi hj
      omega
  · intro i hi
    obtain ⟨s, hs, hi⟩ := List.mem_flatMap.mp hi
    have hle := (h s hs).2
    rw [List.mem_range'_1] at hi
    omega

/-- Executing a plan gathers its rows. -/
theorem executeReadPlan_eq {β : Type} {plan : ReadPlan} {n : Nat} (hfull : plan.fullRead = false)
    (h : ∀ s ∈ plan.baseSlices, s.1 < s.2 ∧ s.2 ≤ n)
    (hchunks : plan.chunkLists = plan.baseSlices.map fun s => [s])
    (hruns : plan.parentRuns = [] ↔ plan.baseSlices = []) {column : List β} (hn : n ≤ column.length) :
    executeReadPlan plan column = gather column plan.rows := by
  have hslices : ∀ slices : List (Nat × Nat), (∀ s ∈ slices, s.1 < s.2 ∧ s.2 ≤ n) →
      slices.flatMap (fun s => slice column s.1 s.2) =
        gather column (slices.flatMap fun r => List.range' r.1 (r.2 - r.1)) := by
    intro slices hs
    rw [gather, List.filterMap_flatMap]
    refine List.flatMap_congr fun s hmem => ?_
    obtain ⟨h1, h2⟩ := hs s hmem
    have hg := gather_range' column (s := s.1) (n := s.2 - s.1) (by omega)
    rw [Nat.add_sub_cancel' h1.le] at hg
    exact hg.symm
  rw [executeReadPlan, if_neg (by rw [hfull]; exact Bool.false_ne_true)]
  split_ifs with hnil
  · rw [ReadPlan.rows, hruns.mp hnil]
    rfl
  · rw [hchunks, List.flatMap_map, ReadPlan.rows, ← hslices plan.baseSlices h]
    exact List.flatMap_congr fun s _ => by rw [List.flatMap_singleton]

end Slices
end Zagg.Processing
