import Zagg.Lib.Run
import Zagg.Sweep.RollupSpec

/-!
# Histories of leaf writes and sweep passes

One family over an append-only leaf store: a leaf may be written and rewritten but not
removed, and a pass may find any of its leaf reads failing. `merged` is a history
variable: the shard windows some pass has read and folded. The invariant ties it to the
`windows` every shard rollup records.
-/
namespace Zagg.Sweep

open Zagg.Lib

variable {L P T : Type}

/-- A product tree and the JSON family swept over it. -/
structure Product (L P T : Type) where
  root : String
  shardOrder : Nat
  family : String
  merge : List P → Decimal → Nat → Option P

/-- The leaf artifacts, the stored rollups and the tops `finish` was handed so far. -/
structure Hive (L P T : Type) where
  leaves : Decimal → Window L → Option (P × Option T)
  stores : Stores L P T
  handed : List (Envelope L P T)

inductive Event (L P T : Type)
  | write (leaf : Decimal) (window : Window L) (payload : P) (timestamp : Option T)
  | sweep (leaves : List (Decimal × Window L)) (partition : Option PartitionBlock)
      (fails : Decimal → Window L → Bool)

/-- The family as a pass finds it. -/
def Product.fam (pr : Product L P T) (h : Hive L P T) (fails : Decimal → Window L → Bool) :
    Family L P T where
  name := pr.family
  readLeaf d w :=
    if fails d w then .failed
    else match h.leaves d w with
      | some (p, ts) => .got p ts
      | none => .absent
  merge := pr.merge

def FamilyResult.tops (r : FamilyResult L P T) : List (Envelope L P T) :=
  match r.finish with
  | .tops ts => ts
  | .deferred _ => []

variable [DecidableEq P] [LinearOrder L] [LinearOrder T]

def Product.rollup (pr : Product L P T) (h : Hive L P T) (d : Decimal) :
    Option (Envelope L P T) := readRollup pr.family (h.stores pr.family d)

/-- A refused pass (a bad partition block) changes nothing. -/
def Product.sweep (pr : Product L P T) (h : Hive L P T) (leaves : List (Decimal × Window L))
    (partition : Option PartitionBlock) (fails : Decimal → Window L → Bool) : Hive L P T :=
  match runSweep pr.root (some pr.shardOrder) [pr.fam h fails] leaves partition h.stores with
  | .ok (stores, summary) =>
    { h with
      stores := stores
      handed := h.handed ++ summary.families.flatMap fun f => f.2.tops }
  | .error _ => h

def Product.apply (pr : Product L P T) (h : Hive L P T) : Event L P T → Hive L P T
  | .write leaf window payload timestamp =>
    { h with
      leaves := Function.update h.leaves leaf
        (Function.update (h.leaves leaf) window (some (payload, timestamp))) }
  | .sweep leaves partition fails => pr.sweep h leaves partition fails

/-- The work set and split order of a pass, unless it is refused. -/
def passPlan (shardOrder : Nat) (leaves : List (Decimal × Window L))
    (partition : Option PartitionBlock) : Option (Work L × Nat) :=
  match normalizePartition partition with
  | .error _ => none
  | .ok none => some ((normalizeLeaves leaves shardOrder).1, 0)
  | .ok (some (index, of)) =>
    match partitionSplitOrder of with
    | .error _ => none
    | .ok split =>
      if shardOrder < split then none
      else
        match selectPartition (normalizeLeaves leaves shardOrder).1 of index with
        | .error _ => none
        | .ok (work, _) => some (work, split)

/-- The windows of shard `d` a pass over `work` reads. -/
def passParts (fam : Family L P T) (work : Work L) (store : RollupStore L P T) (d : Decimal) :
    List (Window L × P × Option T) :=
  leafParts fam d (knownWindows (readRollup fam.name (store d)) (work.windowsOf d))

/-- The shard windows a pass over `work` reads and folds. -/
def passMerged (fam : Family L P T) (work : Work L) (shardOrder : Nat) (store : RollupStore L P T) :
    List (Decimal × Window L) :=
  work.shards.flatMap fun d =>
    let parts := passParts fam work store d
    if parts ≠ [] ∧ (fam.merge (parts.map (·.2.1)) d shardOrder).isSome then
      parts.map fun part => (d, part.1)
    else []

/-- A hive with the windows merged so far. -/
structure Tracked (L P T : Type) where
  hive : Hive L P T
  merged : List (Decimal × Window L)

/-- The shard windows an event merges. -/
def Product.mergedBy (pr : Product L P T) (h : Hive L P T) :
    Event L P T → List (Decimal × Window L)
  | .write _ _ _ _ => []
  | .sweep leaves partition fails =>
    match passPlan pr.shardOrder leaves partition with
    | some (work, _) => passMerged (pr.fam h fails) work pr.shardOrder (h.stores pr.family)
    | none => []

def Product.track (pr : Product L P T) (t : Tracked L P T) (e : Event L P T) :
    Option (Tracked L P T) :=
  some ⟨pr.apply t.hive e, t.merged ++ pr.mergedBy t.hive e⟩

/-- Some leaves, and nothing swept. -/
def Tracked.unswept (leaves : Decimal → Window L → Option (P × Option T)) : Tracked L P T :=
  ⟨⟨leaves, fun _ _ => none, []⟩, []⟩

/-- A pass is refused, or does what its plan says. -/
theorem sweep_cases (pr : Product L P T) (h : Hive L P T) (leaves : List (Decimal × Window L))
    (partition : Option PartitionBlock) (fails : Decimal → Window L → Bool) :
    (passPlan pr.shardOrder leaves partition = none ∧ pr.sweep h leaves partition fails = h) ∨
    ∃ work minOrder, passPlan pr.shardOrder leaves partition = some (work, minOrder) ∧
      work.AtOrder pr.shardOrder ∧ minOrder ≤ pr.shardOrder ∧
      let r := sweepFamily (pr.fam h fails) work pr.shardOrder minOrder (h.stores pr.family)
      pr.sweep h leaves partition fails =
        { h with
          stores := Function.update h.stores pr.family r.1
          handed := h.handed ++ r.2.tops } := by
  have hnorm : ∀ ref ∈ (normalizeLeaves leaves pr.shardOrder).1, ref.1.order = pr.shardOrder := by
    intro ref hr
    simp only [normalizeLeaves, List.mem_dedup, List.mem_filter, decide_eq_true_eq] at hr
    exact hr.2
  unfold Product.sweep runSweep passPlan
  simp only [bind, Except.bind, pure, Except.pure]
  cases normalizePartition partition with
  | error e => exact .inl ⟨rfl, rfl⟩
  | ok part =>
    cases part with
    | none =>
      refine .inr ⟨_, 0, rfl, hnorm, Nat.zero_le _, ?_⟩
      simp [sweepFamilies, Product.fam]
    | some p =>
      obtain ⟨index, of⟩ := p
      simp only
      cases partitionSplitOrder of with
      | error e => exact .inl ⟨rfl, rfl⟩
      | ok split =>
        simp only
        split
        · exact .inl ⟨rfl, rfl⟩
        · next hle =>
          cases hsel : selectPartition (normalizeLeaves leaves pr.shardOrder).1 of index with
          | error e => exact .inl ⟨rfl, rfl⟩
          | ok kept =>
            obtain ⟨work, foreign⟩ := kept
            refine .inr ⟨work, split, rfl, fun ref hr => hnorm ref (mem_of_selectPartition hsel hr),
              by omega, ?_⟩
            simp [sweepFamilies, Product.fam]

theorem passPlan_none (shardOrder : Nat) (leaves : List (Decimal × Window L)) :
    passPlan shardOrder leaves none = some ((normalizeLeaves leaves shardOrder).1, 0) := rfl

end Zagg.Sweep
