import Zagg.Lib.Dict
import Zagg.Lib.Run
import Zagg.Processing.Grouping
import Zagg.Stats.Weight

/-!
# The buffered aggregator

`StreamingAggregator` buffers the reads of a few granules; a flush groups them by cell
and folds every group into running counts and digests, cell by cell, and drops the
buffer at its end. The worker's loop tolerates an exception of a flush: it counts a
granule error and goes on with the next granule, whose flush finds whatever buffer the
failed one left. The final `flush` after the loop is outside that `try`.
-/
namespace Zagg.Streaming

open Zagg.Lib Zagg.Stats Zagg.Processing

/-- A ragged field: a digest of its source column. -/
structure DigestField where
  name : String
  source : String
  delta : Nat
deriving DecidableEq

inductive Handoff
  | pandas
  | arrow
deriving DecidableEq

/-- A validated configuration. Every digest field has a name of its own and reads a
column of the reads. -/
structure Config (κ ρ : Type) where
  cell : ρ → κ
  names : List String
  val : ρ → String → Value
  digestFields : List DigestField
  handoff : Handoff
  bufferGranules : Nat
  nodup : (digestFields.map DigestField.name).Nodup
  source_mem : ∀ f ∈ digestFields, f.source ∈ names

/-- The aggregator. `foldedCount` and `foldedDigest` are ghost: the rows each field has
taken, in the order it took them. -/
structure Aggregator (κ ρ : Type) where
  counts : List (κ × Nat) := []
  digests : String → List (κ × Digest) := fun _ => []
  nObsTotal : Nat := 0
  flushes : Nat := 0
  buffer : List (List ρ) := []
  bufferedGranules : Nat := 0
  foldedCount : List ρ := []
  foldedDigest : String → List ρ := fun _ => []

/-- What a flush will raise: in the grouping, before or after the arrow carrier emptied
the list of reads, or in the digest step after the first `before` of them. -/
inductive FlushFault
  | grouping (emptied : Bool)
  | digest (before : Nat)
deriving DecidableEq

/-- Where the fold of a flush stands: `left` digest steps to the one that raises. -/
structure Folding (κ ρ : Type) where
  state : Aggregator κ ρ
  left : Option Nat
  ok : Bool

variable {κ ρ : Type} [LinearOrder κ] (num : Numerics) (cfg : Config κ ρ)

/-- One digest step: `build_tdigest`, then `merge_tdigests` into the held digest. -/
def foldField (cols : Columns Value) (rows : List ρ) (r : κ × Nat × Nat) (a : Folding κ ρ)
    (f : DigestField) : Folding κ ρ :=
  if a.ok then
    match a.left with
    | some 0 => { a with left := none, ok := false }
    | left =>
      let fresh := buildTdigest num f.delta [] (slice ((cols.lookup f.source).getD []) r.2.1 r.2.2) []
      let merged :=
        match (a.state.digests f.name).lookup r.1 with
        | none => fresh.digest
        | some held => (mergeTdigests num f.delta [] ⟨held, []⟩ fresh).digest
      { a with
        state := { a.state with
          digests := Function.update a.state.digests f.name
            (put r.1 merged (a.state.digests f.name))
          foldedDigest := Function.update a.state.foldedDigest f.name
            (a.state.foldedDigest f.name ++ slice rows r.2.1 r.2.2) }
        left := left.map (· - 1) }
  else a

/-- One cell: its count, then its digests in field order. -/
def foldCell (cols : Columns Value) (rows : List ρ) (a : Folding κ ρ) (r : κ × Nat × Nat) :
    Folding κ ρ :=
  if a.ok then
    let count := (a.state.counts.lookup r.1).getD 0 + (r.2.2 - r.2.1)
    let counted := { a with state := { a.state with
      counts := put r.1 count a.state.counts
      foldedCount := a.state.foldedCount ++ slice rows r.2.1 r.2.2 } }
    cfg.digestFields.foldl (foldField num cols rows r) counted
  else a

/-- The arrow carrier clears the list of reads it is handed, which is the buffer itself. -/
def emptied (s : Aggregator κ ρ) : Aggregator κ ρ :=
  match cfg.handoff with
  | .pandas => s
  | .arrow => { s with buffer := [] }

/-- The loop of `flush` over the cells. The sorted rows are those the arrays hold. -/
def foldGroups (s : Aggregator κ ρ) (left : Option Nat) : Folding κ ρ :=
  let grouped := concatAndGroup cfg.names cfg.val cfg.cell s.buffer
  grouped.2.1.foldl (foldCell num cfg grouped.1 (sortRows cfg.cell s.buffer.flatten))
    ⟨{ emptied cfg s with nObsTotal := s.nObsTotal + grouped.2.2 }, left, true⟩

/-- `flush`, and whether it returned. -/
def flush (s : Aggregator κ ρ) (fault : Option FlushFault) : Aggregator κ ρ × Bool :=
  if s.buffer.isEmpty then ({ s with bufferedGranules := 0 }, true)
  else
    match fault with
    | some (.grouping false) => (s, false)
    | some (.grouping true) => (emptied cfg s, false)
    | _ =>
      let left := match fault with
        | some (.digest before) => some before
        | _ => none
      let a := foldGroups num cfg s left
      if a.ok then
        ({ a.state with flushes := s.flushes + 1, buffer := [], bufferedGranules := 0 }, true)
      else (a.state, false)

/-- One granule of the loop: `add_read` for its reads, then `granule_done`. -/
def granule (s : Aggregator κ ρ) (reads : List (List ρ)) (fault : Option FlushFault) :
    Aggregator κ ρ × Bool :=
  let added := { s with
    buffer := s.buffer ++ reads
    bufferedGranules := s.bufferedGranules + 1 }
  if cfg.bufferGranules ≤ added.bufferedGranules then flush num cfg added fault else (added, true)

/-- A granule of the loop, or the drain after it, each with what its flush will raise. -/
inductive Action (ρ : Type)
  | granule (reads : List (List ρ)) (fault : Option FlushFault)
  | drain (fault : Option FlushFault)

/-- The loop goes on after a granule whatever its flush did; the drain must return. -/
def step (s : Aggregator κ ρ) : Action ρ → Option (Aggregator κ ρ)
  | .granule reads fault => some (granule num cfg s reads fault).1
  | .drain fault =>
    match flush num cfg s fault with
    | (s', true) => some s'
    | (_, false) => none

def Action.reads : Action ρ → List (List ρ)
  | .granule reads _ => reads
  | .drain _ => []

def Action.fault : Action ρ → Option FlushFault
  | .granule _ fault => fault
  | .drain fault => fault

/-- The reads of a schedule, concatenated. -/
def rowsRead (as : List (Action ρ)) : List ρ := (as.flatMap Action.reads).flatten

def countAt (s : Aggregator κ ρ) (c : κ) : Nat := (s.counts.lookup c).getD 0

def digestAt (s : Aggregator κ ρ) (f : DigestField) (c : κ) : Digest :=
  ((s.digests f.name).lookup c).getD []

/-- The values of a column at one cell, in the order of the rows. -/
def valuesAt (rows : List ρ) (source : String) (c : κ) : List Value :=
  (rowsAt cfg.cell rows c).map (cfg.val · source)

/-- Every row is in each field at most once, in all of them or in none, and the running
state is that of the rows in it. -/
structure Once (s : Aggregator κ ρ) (read : List ρ) : Prop where
  atMostOnce : s.foldedCount.Subperm read
  allOrNone : ∀ f ∈ cfg.digestFields, (s.foldedDigest f.name).Perm s.foldedCount
  count : ∀ c, countAt s c = (rowsAt cfg.cell s.foldedCount c).length
  weight : ∀ f ∈ cfg.digestFields, ∀ c, (countAt s c : ℚ) =
    (digestAt s f c).total + ((valuesAt cfg s.foldedCount f.source c).countP Option.isNone : ℚ)
  nObsTotal : s.nObsTotal = (s.counts.map Prod.snd).sum

/-- The pooled path's count of each cell of the concatenated reads. -/
def pooledCounts (reads : List (List ρ)) : List (κ × Nat) :=
  (concatAndGroup cfg.names cfg.val cfg.cell reads).2.1.map fun r => (r.1, r.2.2 - r.2.1)

/-- The pooled path's digest of each cell of the concatenated reads. -/
def pooledDigests (reads : List (List ρ)) (f : DigestField) : List (κ × Digest) :=
  let grouped := concatAndGroup cfg.names cfg.val cfg.cell reads
  grouped.2.1.map fun r => (r.1, (buildTdigest num f.delta []
    (slice ((grouped.1.lookup f.source).getD []) r.2.1 r.2.2) []).digest)

/-- The counts and total digest weights are those of the pooled path. -/
structure EqPooled (s : Aggregator κ ρ) (reads : List (List ρ)) : Prop where
  counts : ∀ c, s.counts.lookup c = (pooledCounts cfg reads).lookup c
  weights : ∀ f ∈ cfg.digestFields, ∀ c, (digestAt s f c).total =
    (((pooledDigests num cfg reads f).lookup c).getD []).total

/-- The digest steps a flush of these rows makes. -/
def digestSteps (rows : List ρ) : Nat :=
  (runs ((sortRows cfg.cell rows).map cfg.cell)).length * cfg.digestFields.length

/-- The fault is no digest step of a flush of these rows. -/
def NoDigestRaises (rows : List ρ) (fault : Option FlushFault) : Prop :=
  ∀ before, fault = some (.digest before) → digestSteps cfg rows ≤ before

instance (rows : List ρ) (fault : Option FlushFault) : Decidable (NoDigestRaises cfg rows fault) :=
  match fault with
  | none => .isTrue nofun
  | some (.grouping _) => .isTrue nofun
  | some (.digest before) => decidable_of_iff (digestSteps cfg rows ≤ before)
      ⟨fun h _ he => by cases he; exact h, fun h => h before rfl⟩

/-- No digest build or merge of the step raises. -/
def Quiet (s : Aggregator κ ρ) : Action ρ → Prop
  | .granule reads fault => cfg.bufferGranules ≤ s.bufferedGranules + 1 →
      NoDigestRaises cfg (s.buffer ++ reads).flatten fault
  | .drain fault => NoDigestRaises cfg s.buffer.flatten fault

instance (s : Aggregator κ ρ) : DecidablePred (Quiet cfg s)
  | .granule _ _ => inferInstanceAs (Decidable (_ → NoDigestRaises cfg _ _))
  | .drain _ => inferInstanceAs (Decidable (NoDigestRaises cfg _ _))

end Zagg.Streaming
