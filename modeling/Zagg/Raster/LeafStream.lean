import Mathlib.Data.List.Sort
import Zagg.Lib.Run
import Zagg.Raster.StreamingHash

/-!
# Streaming a raster leaf

`process_and_write_raster_hive` hands every acquisition group to `_write_slab`, which
opens the leaf on its first call and writes one timestep row per band. With a
`write_buffer` above two, several of these calls are on worker threads at once, and
`_leaf` tests the box and fills it with no lock between. A call is a program counter
here; a schedule says which group completes next and which call moves.
-/
namespace Zagg.Raster

section TimeIndex

/-- A granule entry of the dispatched subset. -/
structure RasterEntry where
  id : String
  assets : List String
  datetime : Option String
  timeKey : Option String

/-- A value Python's `or` keeps. -/
def truthy (s : Option String) : Option String := s.filter (· != "")

/-- The acquisition group of an entry and the instant it contributes. -/
def acquisition (isoUs : String → Int) (e : RasterEntry) : Except String (String × Int) :=
  match truthy e.datetime with
  | none => .error ("raster granule entry " ++ e.id ++ " carries no datetime")
  | some d => .ok ((truthy e.timeKey).getD d, isoUs d)

/-- The `earliest` dict, one entry per group. -/
def noteEarliest (earliest : List (String × Int)) (a : String × Int) : List (String × Int) :=
  match earliest.lookup a.1 with
  | none => earliest ++ [a]
  | some us => earliest.map fun x => if x.1 = a.1 then (x.1, min us a.2) else x

/-- Row order: the group's earliest instant, then its key. -/
def rowLe (a b : String × Int) : Prop := a.2 < b.2 ∨ a.2 = b.2 ∧ a.1 ≤ b.1

instance : DecidableRel rowLe := fun _ _ => inferInstanceAs (Decidable (_ ∨ _))

/-- `raster_time_index`: the groups with their rows, in the order they were first seen. -/
def rasterTimeIndex (isoUs : String → Int) (granules : List RasterEntry) :
    Except String (List (String × Nat)) := do
  let acquired ← (granules.filter fun e => !e.assets.isEmpty).mapM (acquisition isoUs)
  let earliest := acquired.foldl noteEarliest []
  let ordered := (earliest.insertionSort rowLe).map Prod.fst
  return (earliest.map Prod.fst).map fun k => (k, ordered.idxOf k)

end TimeIndex

/-- The arrays of one leaf: the bands stream, the coordinates are written whole. -/
structure LeafSpec (β γ : Type) where
  bands : List β
  coords : List (β × List (List γ))
  nodup : (bands ++ coords.map Prod.fst).Nodup
  cells : Nat
  fill : β → γ
  cast : β → γ → γ

/-- Where a sink call stands: `arm` and `row` keep the members still to do. -/
inductive Pc (β : Type)
  | test
  | template
  | arm (left : List β)
  | row (left : List β)
  | feed (band : β) (left : List β)
  deriving DecidableEq

/-- One `_write_slab(t_idx, slab)`. -/
structure Call (β γ : Type) where
  t : Nat
  slab : β → List γ
  pc : Pc β

/-- The leaf, the closure's `box`, `staged` and `streams`, and the loop's tasks. -/
structure State (β γ : Type) where
  leaf : β → Option (List (List γ))
  box : Bool
  staged : List (β × List (List γ))
  streams : β → Option (StreamingArrayHash γ)
  waiting : List (Nat × (β → List γ))
  calls : List (Call β γ)
  pending : List Nat

/-- The loop hands over the group that completed, or a sink call moves. -/
inductive Action
  | emit (i : Nat)
  | step (call : Nat)
  | armFail (call : Nat)
  deriving DecidableEq

variable {β γ η : Type} [DecidableEq β]
variable (spec : LeafSpec β γ) (bytes : γ → List UInt8) (sha256 : List UInt8 → η)
variable (maxPending n writeBuffer : Nat)

namespace LeafSpec

def fillRow (b : β) : List γ := List.replicate spec.cells (spec.fill b)

def castRow (slab : β → List γ) (b : β) : List γ := (slab b).map (spec.cast b)

def members : List β := spec.bands ++ spec.coords.map Prod.fst

/-- `emit_raster_leaf_template`: every band all fill, every coordinate in place. -/
def template (p : β) : Option (List (List γ)) :=
  if p ∈ spec.bands then some (List.replicate n (spec.fillRow p)) else spec.coords.lookup p

/-- The accumulator `_arm_leaf_hashes` makes from the array's own metadata. -/
def accumulator (p : β) : StreamingArrayHash γ where
  rows := ((spec.template n p).getD []).length
  rowShape := if p ∈ spec.bands then spec.cells else 1
  fillValue := some (spec.fill p)

end LeafSpec

def State.setPc (s : State β γ) (i : Nat) (c : Call β γ) (pc : Pc β) : State β γ :=
  { s with calls := s.calls.set i { c with pc } }

/-- `_emit` awaits tasks until fewer than `write_buffer - 1` are pending; a buffer of
one runs the call in the loop, which is one call in flight. -/
def inFlight (writeBuffer : Nat) : Nat := max 1 (writeBuffer - 1)

def State.done (s : State β γ) (i : Nat) : Bool :=
  match s.calls[i]? with
  | some c => decide (c.pc = .row [])
  | none => false

def emit (s : State β γ) (i : Nat) : Option (State β γ) :=
  match s.waiting[i]? with
  | none => none
  | some g =>
    let awaited := s.pending.length + 1 - inFlight writeBuffer
    if (s.pending.take awaited).all s.done then
      some { s with
        waiting := s.waiting.eraseIdx i
        calls := s.calls ++ [⟨g.1, g.2, .test⟩]
        pending := s.pending.drop awaited ++ [s.calls.length] }
    else none

/-- One step of `_write_slab`: `_leaf`, then per band the row and its digest. -/
def callStep (s : State β γ) (i : Nat) (c : Call β γ) : Option (State β γ) :=
  match c.pc with
  | .test => some (s.setPc i c (if s.box then .row spec.bands else .template))
  | .template =>
    some ({ s with leaf := spec.template n, staged := spec.coords }.setPc i c (.arm spec.members))
  | .arm (p :: left) =>
    let streams :=
      if p ∈ s.staged.map Prod.fst then s.streams
      else Function.update s.streams p (some (spec.accumulator n p))
    some ({ s with streams }.setPc i c (.arm left))
  | .arm [] => some ({ s with box := true }.setPc i c (.row spec.bands))
  | .row (b :: left) =>
    match s.leaf b with
    | none => none
    | some arr =>
      if c.t < arr.length ∧ (c.slab b).length = spec.cells then
        let leaf := Function.update s.leaf b (some (arr.set c.t (spec.castRow c.slab b)))
        some ({ s with leaf }.setPc i c (.feed b left))
      else none
  | .feed b left =>
    let streams := Function.update s.streams b
      ((s.streams b).map fun st => st.update bytes maxPending c.t (spec.castRow c.slab b))
    some ({ s with streams }.setPc i c (.row left))
  | .row [] => none

/-- `_arm_leaf_hashes` is fail-open: any error drops both maps. -/
def armFail (s : State β γ) (i : Nat) (c : Call β γ) : Option (State β γ) :=
  match c.pc with
  | .arm _ => some ({ s with streams := fun _ => none, staged := [] }.setPc i c (.arm []))
  | _ => none

def step (s : State β γ) : Action → Option (State β γ)
  | .emit i => emit writeBuffer s i
  | .step i => (s.calls[i]?).bind (callStep spec bytes maxPending n s i)
  | .armFail i => (s.calls[i]?).bind (armFail s i)

/-- The leaf prefix may hold the debris of an earlier attempt. -/
def init (debris : β → Option (List (List γ))) (groups : List (Nat × (β → List γ))) :
    State β γ where
  leaf := debris
  box := false
  staged := []
  streams := fun _ => none
  waiting := groups
  calls := []
  pending := []

/-- `_finalize_leaf_hashes`: all arrays or no record. -/
def finalizeLeafHashes (s : State β γ) : Option (List (β × η)) :=
  if s.staged.isEmpty && spec.members.all fun p => (s.streams p).isNone then none
  else
    let digests := (spec.members.filterMap fun p => (s.streams p).map (p, ·)).mapM
      fun ps => (ps.2.finalize bytes sha256).map (ps.1, ·)
    digests.map fun ds => s.staged.map (fun ps => (ps.1, hashArray bytes sha256 ps.2)) ++ ds

/-- Every group was handed over and every call returned. -/
def Finished (s : State β γ) : Prop := s.waiting = [] ∧ ∀ c ∈ s.calls, c.pc = .row []

/-- Every band holds every group's slab at its row, and a hash recorded for a band of
the stamped leaf is the hash of its array. -/
structure Exact (groups : List (Nat × (β → List γ))) (s : State β γ) : Prop where
  rows : ∀ g ∈ groups, ∀ b ∈ spec.bands, ∃ arr, s.leaf b = some arr ∧ arr.length = n ∧
    arr[g.1]? = some (spec.castRow g.2 b)
  hashes : s.box = true → ∀ hs, finalizeLeafHashes spec bytes sha256 s = some hs → ∀ b ∈ spec.bands,
    ∀ d, (b, d) ∈ hs → ∃ arr, s.leaf b = some arr ∧ d = hashArray bytes sha256 arr

end Zagg.Raster
