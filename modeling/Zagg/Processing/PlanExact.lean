import Zagg.Processing.PlannedRead

/-!
# What a plan reads

Over records that tile the base in their order, every slice of a plan is the rows of its run's
records, and a full read is the one slice of a run of all. A read function that serves a column
gives the rows of the slices, each of them once.
-/
namespace Zagg.Processing

open Zagg.Lib

section Execution
variable {β : Type}

/-- How a hyperslice is written in a message. -/
def renderSlice : Option (List (Nat × Nat)) → String
  | none => "None"
  | some chunk => "[" ++ ", ".intercalate (chunk.map fun s => s!"({s.1}, {s.2})") ++ "]"

/-- `_require_read`: `None` is a failed read. -/
def requireRead (raw : Option (List β)) (path : String) (hyperslice : Option (List (Nat × Nat))) :
    Except String (List β) :=
  match raw with
  | some rows => .ok rows
  | none => .error s!"read returned None for {path} (hyperslice={renderSlice hyperslice})"

/-- `execute_read_plan` with a caller's read function. -/
def executeReadPlanWith (readFn : String → Option (List (Nat × Nat)) → Option (List β))
    (path : String) (plan : ReadPlan) : Except String (List β) :=
  if plan.fullRead then requireRead (readFn path none) path none
  else if plan.parentRuns = [] then .ok []
  else do
    let parts ← plan.chunkLists.mapM fun chunk =>
      requireRead (readFn path (some chunk)) path (some chunk)
    return parts.flatten

/-- A read function that serves a column: whole, or one range of it. -/
structure Serves (readFn : String → Option (List (Nat × Nat)) → Option (List β)) (path : String)
    (column : List β) : Prop where
  whole : readFn path none = some column
  range : ∀ s : Nat × Nat, s.1 < s.2 → s.2 ≤ column.length →
    readFn path (some [s]) = some (slice column s.1 s.2)

/-- Reads of one column in memory. -/
def serveColumn (column : List β) (_path : String) : Option (List (Nat × Nat)) → Option (List β)
  | none => some column
  | some chunk => some (chunk.flatMap fun s => slice column s.1 s.2)

theorem serves_serveColumn (path : String) (column : List β) :
    Serves (serveColumn column) path column where
  whole := rfl
  range _ _ _ := congrArg some (List.flatMap_singleton ..)

end Execution

/-- What holds of a plan over matched records. -/
structure ExactPlan (link : Link) (mask : List Bool) (n pad : Nat) (plan : ReadPlan) : Prop where
  inside : ∀ s ∈ plan.baseSlices, s.1 < s.2 ∧ s.2 ≤ n
  apart : plan.baseSlices.Pairwise fun s s' => s.2 ≤ s'.1
  chunks : plan.chunkLists = plan.baseSlices.map fun s => [s]
  runs : List.Forall₂ (fun run s => ∀ row, s.1 ≤ row ∧ row < s.2 ↔
    ∃ r ∈ link.nonempty, run.1 ≤ r.index ∧ r.index ≤ run.2 ∧ r.owns row = true)
    plan.parentRuns plan.baseSlices
  matched : ∀ r ∈ link.nonempty, ∀ q, mask[q]? = some true → r.index ≤ q + pad →
    q ≤ r.index + pad → ∀ row, r.owns row = true → row ∈ plan.rows
  full : plan.fullRead = true → plan.baseSlices = [(0, n)]

section Tiled
variable {link : Link} {n : Nat}

/-- The slice of a run is the rows of its records. -/
theorem runSlice_rows (h : link.Tiles n) {run s : Nat × Nat} (hs : runSlice link n run = some s)
    (row : Nat) : s.1 ≤ row ∧ row < s.2 ↔
      ∃ r ∈ link.nonempty, run.1 ≤ r.index ∧ r.index ≤ run.2 ∧ r.owns row = true := by
  constructor
  · intro ⟨hlo, hhi⟩
    obtain ⟨-, hn, first, hfirst, last, hlast, hrun1, hrun2, hbeg, hstop⟩ :=
      runSlice_spec h.increasing hs
    obtain ⟨r, hr, ho⟩ := h.covers row (by omega)
    obtain ⟨ho1, ho2⟩ := owns_iff.mp ho
    -- A record before the run's first one ends before the slice, one behind its last starts after.
    have hafter : first.index ≤ r.index := by
      by_contra hlt
      have hsep := h.increasing.stop_le_beg r hr first hfirst (by omega)
      omega
    have hbefore : r.index ≤ last.index := by
      by_contra hlt
      have hsep := h.increasing.stop_le_beg last hlast r hr (by omega)
      omega
    exact ⟨r, hr, by omega, by omega, ho⟩
  · intro ⟨r, hr, h1, h2, ho⟩
    obtain ⟨s', hs', hlo, hhi⟩ := runSlice_covers h.increasing hr h1 h2 (h.within r hr) ho
    rw [hs] at hs'
    cases hs'
    exact ⟨hlo, hhi⟩

/-- The full read is one slice, over the run of all records. -/
theorem exact_full (h : link.Tiles n) (hn : n ≠ 0) (mask : List Bool) (pad : Nat) :
    ExactPlan link mask n pad ⟨[(0, link.rows.length - 1)], [(0, n)], [[(0, n)]], true⟩ where
  inside s hs := by
    rw [List.mem_singleton.mp hs]
    exact ⟨Nat.pos_of_ne_zero hn, le_rfl⟩
  apart := List.pairwise_singleton _ _
  chunks := rfl
  runs := by
    refine .cons (fun row => ?_) .nil
    constructor
    · intro ⟨_, hrow⟩
      obtain ⟨r, hr, ho⟩ := h.covers row hrow
      have hindex := index_lt hr
      exact ⟨r, hr, Nat.zero_le _, by omega, ho⟩
    · intro ⟨r, hr, _, _, ho⟩
      have hstop := h.within r hr
      have howns := (owns_iff.mp ho).2
      exact ⟨Nat.zero_le _, by omega⟩
  matched r hr _ _ _ _ row ho := by
    have hstop := h.within r hr
    have howns := (owns_iff.mp ho).2
    rw [ReadPlan.rows, List.flatMap_singleton, List.mem_range'_1]
    omega
  full _ := rfl

theorem forall₂_kept {α γ : Type} {R : α → γ → Prop} {f : α → Option γ} (l : List α)
    (h : ∀ a ∈ l, ∀ b, f a = some b → R a b) :
    List.Forall₂ R ((l.filterMap fun a => (f a).map fun b => (a, b)).map Prod.fst)
      ((l.filterMap fun a => (f a).map fun b => (a, b)).map Prod.snd) := by
  rw [List.forall₂_map_left_iff, List.forall₂_map_right_iff, List.forall₂_same]
  intro x hx
  obtain ⟨a, ha, hb⟩ := List.mem_filterMap.mp hx
  obtain ⟨b, hfa, rfl⟩ := Option.map_eq_some_iff.mp hb
  exact h a ha b hfa

/-- Over records that tile the base, every mask of one entry a record has its plan. -/
theorem exists_exactPlan (h : link.Tiles n) {mask : List Bool} (hmask : mask.length = link.rows.length)
    (pad : Nat) (exceeds : Nat → Nat → Bool) :
    ∃ plan, planRead mask link n pad exceeds = .ok plan ∧ ExactPlan link mask n pad plan := by
  cases hplan : planRead mask link n pad exceeds with
  | error e =>
    rw [planRead] at hplan
    dsimp only at hplan
    split_ifs at hplan with _ hlen
    exact absurd hmask hlen
  | ok plan =>
    refine ⟨plan, rfl, ?_⟩
    by_cases hfull : plan.fullRead = true
    · rw [planRead] at hplan
      dsimp only at hplan
      split_ifs at hplan with hempty
      all_goals cases hplan
      · exact absurd hfull Bool.false_ne_true
      · exact absurd hfull Bool.false_ne_true
      · exact exact_full h (fun hn => hempty (.inr hn)) mask pad
      · exact absurd hfull Bool.false_ne_true
    · obtain ⟨hinside, happart, hchunks, -, hmatched⟩ :=
        planRead_spec h.increasing hplan (Bool.eq_false_iff.mpr hfull)
      refine ⟨hinside, happart, hchunks, ?_, ?_, fun hf => absurd hf hfull⟩
      · rw [planRead] at hplan
        dsimp only at hplan
        split_ifs at hplan
        all_goals cases hplan
        · exact .nil
        · exact .nil
        · exact absurd rfl hfull
        · exact forall₂_kept _ fun run _ s hs row => runSlice_rows h hs row
      · intro r hr q hq h1 h2 row ho
        exact hmatched r hr (h.within r hr) q hq h1 h2 row ho

end Tiled

section Reads
variable {β : Type} {link : Link} {mask : List Bool} {n pad : Nat} {plan : ReadPlan}
  {readFn : String → Option (List (Nat × Nat)) → Option (List β)} {path : String} {column : List β}

theorem ExactPlan.runs_nil (h : ExactPlan link mask n pad plan) :
    plan.parentRuns = [] ↔ plan.baseSlices = [] := by
  have hlen := h.runs.length_eq
  rw [← List.length_eq_zero_iff, ← List.length_eq_zero_iff, hlen]

/-- The rows of a plan that is read whole are those of the base. -/
theorem ExactPlan.gather_full (h : ExactPlan link mask n pad plan) (hfull : plan.fullRead = true)
    (hlen : column.length = n) : gather column plan.rows = column := by
  have hrange := gather_range' column (s := 0) (n := n) (by omega)
  rw [ReadPlan.rows, h.full hfull, List.flatMap_singleton, Nat.sub_zero, hrange, slice, List.drop_zero,
    Nat.zero_add, Nat.sub_zero, ← hlen, List.take_length]

/-- Through a read function that serves the column, the plan's parts are its slices. -/
theorem ExactPlan.execute_eq (h : ExactPlan link mask n pad plan) (hserves : Serves readFn path column)
    (hlen : column.length = n) :
    executeReadPlanWith readFn path plan = .ok (gather column plan.rows) := by
  unfold executeReadPlanWith
  by_cases hfull : plan.fullRead = true
  · rw [if_pos hfull, hserves.whole, h.gather_full hfull hlen]
    rfl
  · have hpartly : plan.fullRead = false := Bool.eq_false_iff.mpr hfull
    have hgather := executeReadPlan_eq hpartly h.inside h.chunks h.runs_nil hlen.ge
    rw [if_neg hfull, ← hgather, executeReadPlan, if_neg hfull]
    by_cases hnil : plan.parentRuns = []
    · rw [if_pos hnil, if_pos hnil]
    · have hparts : plan.chunkLists.mapM (fun chunk =>
          requireRead (readFn path (some chunk)) path (some chunk)) =
            .ok (plan.chunkLists.map fun chunk => chunk.flatMap fun s => slice column s.1 s.2) := by
        apply mapM_ok
        intro chunk hchunk
        rw [h.chunks] at hchunk
        obtain ⟨s, hs, rfl⟩ := List.mem_map.mp hchunk
        obtain ⟨hlt, hle⟩ := h.inside s hs
        rw [hserves.range s hlt (by omega), List.flatMap_singleton]
        rfl
      rw [if_neg hnil, if_neg hnil, hparts]
      rfl

/-- Over records that tile the base in their order, every mask of one entry a record gets a plan:
slices inside the base, apart and increasing, each the rows of its run and its one chunk, that hold
the rows of every record within `pad` of a matched one; executing it gives these rows once each, in
their order. -/
theorem planRead_exact {link : Link} {n : Nat} (h : link.Tiles n) {mask : List Bool}
    (hmask : mask.length = link.rows.length) (pad : Nat) (exceeds : Nat → Nat → Bool) :
    ∃ plan, planRead mask link n pad exceeds = .ok plan ∧ ExactPlan link mask n pad plan ∧
      plan.rows.Pairwise (· < ·) ∧
      ∀ (β : Type) (readFn : String → Option (List (Nat × Nat)) → Option (List β)) (path : String)
        (column : List β), Serves readFn path column → column.length = n →
          executeReadPlanWith readFn path plan = .ok (gather column plan.rows) := by
  obtain ⟨plan, hplan, hexact⟩ := exists_exactPlan h hmask pad exceeds
  refine ⟨plan, hplan, hexact, (pairwise_planRows hexact.inside hexact.apart).1, ?_⟩
  intro β readFn path column hserves hlen
  exact hexact.execute_eq hserves hlen

/-- Two matched records of three, the first of them without rows. -/
theorem planRead_exact_sentinel :
    ∃ plan, planRead [false, true, true] ⟨[(1, 3), (0, 0), (4, 3)], 1⟩ 6 0
        (fun total n => 9 * n < 10 * total) = .ok plan ∧ plan.baseSlices = [(3, 6)] ∧
      executeReadPlanWith (serveColumn [10, 11, 12, 13, 14, 15]) "h" plan = .ok [13, 14, 15] := by
  obtain ⟨plan, hplan, -, -, hreads⟩ := planRead_exact smallLink_tiles
    (show [false, true, true].length = 3 from rfl) 0 (fun total n => decide (9 * n < 10 * total))
  have hvalue : plan = ⟨[(1, 2)], [(3, 6)], [[(3, 6)]], false⟩ := (Except.ok.inj hplan).symm
  have hread := hreads Nat (serveColumn [10, 11, 12, 13, 14, 15]) "h" _ (serves_serveColumn _ _) rfl
  refine ⟨plan, hplan, by rw [hvalue], ?_⟩
  rw [hread, hvalue]
  rfl

/-- Records that tile the base against their order: a slice that ends where it starts, and no row of
two matched records is read. -/
theorem planRead_unordered :
    (∀ row < 4, ((Link.mk [(2, 2), (0, 2)] 0).nonempty.filter fun r => r.owns row).length = 1) ∧
    planRead [true, true] ⟨[(2, 2), (0, 2)], 0⟩ 4 0 (fun total n => 9 * n < 10 * total) =
      .ok .nothing := by
  decide

end Reads

end Zagg.Processing
