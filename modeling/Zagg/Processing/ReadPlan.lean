import Mathlib.Algebra.GroupWithZero.Nat
import Zagg.Processing.Link

/-!
# Read plans

The records matched to an AOI are merged into padded runs, and each run becomes one slice of
base rows, bounded by its records with rows. A plan that would read most of the base falls
back to a full read.
-/
namespace Zagg.Processing

open Zagg.Lib

universe u

structure ReadPlan where
  parentRuns : List (Nat × Nat)
  baseSlices : List (Nat × Nat)
  chunkLists : List (List (Nat × Nat))
  fullRead : Bool
  deriving DecidableEq

def ReadPlan.nothing : ReadPlan := ⟨[], [], [], false⟩

/-- Where the padded mask changes: `flatnonzero(diff([False, *mask, False]))`. -/
def edges (mask : List Bool) : List Nat :=
  flatnonzero (List.zipWith (fun a b => a != b) (mask ++ [false]) (false :: mask))

/-- `zip(edges[::2], edges[1::2])`. -/
def edgePairs : List Nat → List (Nat × Nat)
  | a :: b :: l => (a, b) :: edgePairs l
  | _ => []

/-- Contiguous matched records, as inclusive pairs. -/
def rawRuns (mask : List Bool) : List (Nat × Nat) :=
  (edgePairs (edges mask)).map fun r => (r.1, r.2 - 1)

def padRuns (n pad : Nat) (runs : List (Nat × Nat)) : List (Nat × Nat) :=
  runs.map fun r => (r.1 - pad, min (n - 1) (r.2 + pad))

/-- Merging into the last run while the next one overlaps or adjoins it. -/
def mergeFrom (cur : Nat × Nat) : List (Nat × Nat) → List (Nat × Nat)
  | [] => [cur]
  | r :: rs =>
    if r.1 ≤ cur.2 + 1 then mergeFrom (cur.1, max cur.2 r.2) rs else cur :: mergeFrom r rs

def mergeRuns : List (Nat × Nat) → List (Nat × Nat)
  | [] => []
  | r :: rs => mergeFrom r rs

/-- The base rows of a run, from its first record with rows to its last. -/
def runSlice (link : Link) (n : Nat) (run : Nat × Nat) : Option (Nat × Nat) :=
  let inside := link.records.filter fun r =>
    decide (run.1 ≤ r.index ∧ r.index ≤ run.2 ∧ 0 < r.cnt)
  inside.head?.bind fun first => inside.getLast?.bind fun last =>
    let baseStart := max 0 first.beg
    let baseEnd := min (n : Int) last.stop
    if baseEnd ≤ baseStart then none else some (baseStart.toNat, baseEnd.toNat)

/-- `plan_read` with a `coarse_mask`. `exceeds` compares the planned rows with the threshold's
share of the base. -/
def planRead (coarseMask : List Bool) (link : Link) (n pad : Nat) (exceeds : Nat → Nat → Bool) :
    Except String ReadPlan :=
  if link.rows = [] ∨ n = 0 then .ok .nothing
  else if coarseMask.length ≠ link.rows.length then
    .error s!"coarse_mask shape ({coarseMask.length},) != ({link.rows.length},) parents"
  else if !coarseMask.any id then .ok .nothing
  else
    let merged := mergeRuns (padRuns link.rows.length pad (rawRuns coarseMask))
    let kept := merged.filterMap fun r => (runSlice link n r).map fun s => (r, s)
    let total := (kept.map fun k => k.2.2 - k.2.1).sum
    if exceeds total n then
      .ok ⟨[(0, link.rows.length - 1)], [(0, n)], [[(0, n)]], true⟩
    else .ok ⟨kept.map Prod.fst, kept.map Prod.snd, kept.map fun k => [k.2], false⟩

/-- `execute_read_plan` of a column. -/
def executeReadPlan {β : Type u} (plan : ReadPlan) (column : List β) : List β :=
  if plan.fullRead then column
  else if plan.parentRuns = [] then []
  else plan.chunkLists.flatMap fun chunk => chunk.flatMap fun s => slice column s.1 s.2

/-- The base rows of a plan: `concatenate([arange(s, e) for s, e in base_slices])`. -/
def ReadPlan.rows (plan : ReadPlan) : List Nat :=
  plan.baseSlices.flatMap fun r => List.range' r.1 (r.2 - r.1)

end Zagg.Processing
