import Zagg.Lib.Dict
import Zagg.Lib.LateFailure
import Zagg.Stats.CompanionCalls

/-!
# The batch of companion folds

Under `batched_companion_folds` a call leaves a placeholder of zeros for every fold and the
batch runs one fold a channel over everything deferred, at the exit or as soon as a channel
holds `_BATCH_ROW_CAP` rows. A destination is an array of the heap; `deferred` and `filled`
record which destinations were handed out and which were filled, in order.
-/
namespace Zagg.Stats

open Zagg.Lib

/-- Member words, shifted starts, destination and declared rows of one fold. -/
structure Deferred where
  words : Words
  starts : List Nat
  out : Addr
  n : Nat

/-- `_CompanionBatch`. -/
structure Batch where
  pending : List (Channel × List Deferred)
  rows : List (Channel × Nat)

def Batch.new : Batch := ⟨[], []⟩

/-- The heap and `_FOLD_BATCH`. -/
structure Ctx where
  heap : Heap
  batch : Option Batch
  deferred : List Addr
  filled : List Addr

namespace Ctx

def start (heap : Heap) : Ctx := ⟨heap, none, [], []⟩

def alloc (ctx : Ctx) (words : Words) : Addr × Ctx :=
  (ctx.heap.length, { ctx with heap := ctx.heap ++ [words] })

def fill (ctx : Ctx) (out : Addr) (words : Words) : Ctx :=
  { ctx with heap := ctx.heap.set out words, filled := ctx.filled ++ [out] }

/-- `out[:] = words`, where one word is repeated. -/
def assign (ctx : Ctx) (out : Addr) (words : Words) : Option Ctx :=
  let size := (ctx.heap.read out).length
  if words.length = size then some (ctx.fill out words)
  else match words with
    | [w] => some (ctx.fill out (List.replicate size w))
    | _ => none

/-- The slices of one fold, a destination each. -/
def scatter (reduced : Words) : (pos : Nat) → List Deferred → Ctx → Option Ctx
  | _, [], ctx => some ctx
  | pos, e :: entries, ctx => do
    let size := (ctx.heap.read e.out).length
    let ctx ← ctx.assign e.out (slice reduced pos (pos + size))
    scatter reduced (pos + size) entries ctx

end Ctx

section Batch
variable (m : WordFolds)

def flushChannel (channel : Channel) (rows : Nat) (ctx : Ctx) : List Deferred → Option Ctx
  | [e] => do ctx.assign e.out (← centroidFold m channel e.words e.starts e.n)
  | entries => do
    let reduced ← centroidFold m channel (entries.flatMap Deferred.words)
      (entries.flatMap Deferred.starts) rows
    ctx.scatter reduced 0 entries

def Batch.flush (batch : Batch) (ctx : Ctx) : Option Ctx :=
  batch.pending.foldlM (fun ctx e =>
    flushChannel m e.1 ((batch.rows.lookup e.1).getD 0) ctx e.2) ctx

/-- The folds of a flush inside the context run with the batch put aside. -/
def Batch.flushDetached (batch : Batch) (ctx : Ctx) : Option Ctx := do
  let ctx ← batch.flush m { ctx with batch := none }
  return { ctx with batch := some Batch.new }

variable (cap : Nat)

def Batch.defer (batch : Batch) (channel : Channel) (words : Words) (starts : List Nat) (n : Nat)
    (ctx : Ctx) : Option (Addr × Ctx) :=
  if starts.head?.any (· ≠ 0) then none
  else
    let out := ctx.heap.length
    let rows := (batch.rows.lookup channel).getD 0
    let entry : Deferred := ⟨words.take n, starts.map (· + rows), out, n⟩
    let batch : Batch :=
      ⟨put channel ((batch.pending.lookup channel).getD [] ++ [entry]) batch.pending,
        put channel (rows + n) batch.rows⟩
    let ctx : Ctx :=
      ⟨ctx.heap ++ [List.replicate starts.length 0], some batch, ctx.deferred ++ [out], ctx.filled⟩
    if cap ≤ rows + n then do return (out, ← batch.flushDetached m ctx)
    else some (out, ctx)

/-- One channel of a call: a copy, a deferral under a batch, or the fold itself. -/
def runOutput (o : Channel × Output) (ctx : Ctx) : Option (Addr × Ctx) :=
  match o.2 with
  | .copy words => some (ctx.alloc words)
  | .fold words starts n =>
    match ctx.batch with
    | some batch => batch.defer m cap o.1 words starts n ctx
    | none => do return ctx.alloc (← centroidFold m o.1 words starts n)

variable (num : Numerics)

def runCall (call : Call) (ctx : Ctx) : Option (Stored × Ctx) := do
  let plan ← (call.plan num ctx.heap).toOption
  let r ← runEach (runOutput m cap) plan.outputs ctx
  return (⟨plan.digest, r.1⟩, r.2)

def runCalls : List Call → Ctx → Option (List Stored × Ctx) := runEach (runCall m cap num)

/-- `batched_companion_folds`: the flush runs on a clean exit, with the batch put aside. -/
def batchedCompanionFolds {α : Type} (body : Ctx → Option (α × Ctx)) (ctx : Ctx) :
    Option (α × Ctx) :=
  match ctx.batch with
  | some _ => body ctx
  | none => do
    let r ← body { ctx with batch := some Batch.new }
    let ctx ← (r.2.batch.getD Batch.new).flush m { r.2 with batch := none }
    return (r.1, ctx)

def Ctx.pending (ctx : Ctx) : List Addr :=
  match ctx.batch with
  | some batch => batch.pending.flatMap fun e => e.2.map Deferred.out
  | none => []

/-- No call of the run reads a destination that is still pending. -/
def settled : List Call → Ctx → Bool
  | [], _ => true
  | call :: calls, ctx =>
    call.reads.all (fun a => a ∉ ctx.pending) &&
      match runCall m cap num call ctx with
      | some r => settled calls r.2
      | none => true

end Batch

end Zagg.Stats
