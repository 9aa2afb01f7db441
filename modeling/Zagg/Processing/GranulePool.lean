import Zagg.Lib.Run
import Mathlib.Data.List.Infix
import Mathlib.Tactic.Common

/-!
# Granule reads

The granules of a shard are read by a pool of a bounded width, or one after the other at width
one, and folded in the order they are listed. The reads of the pool finish in any order.
-/
namespace Zagg.Processing

open Zagg.Lib

variable {γ ρ ε σ : Type}

/-- A submitted read, by the place of its granule. -/
structure Future (γ : Type) where
  number : Nat
  entry : γ

/-- What folding the reads of a granule comes to: a failure is tolerated, a raise is not. -/
inductive FoldOutcome (σ : Type)
  | folded (state : σ)
  | failed (state : σ)
  | raised (state : σ)

/-- What the loop over the reads has done. -/
structure Totals (ρ σ : Type) where
  yielded : List (String × ρ)
  granuleErrors : Nat
  state : σ
  raised : Bool

/-- Where the generator is: taking granules while there is room and then yielding what it holds,
at the head of its loop, in `future.result()`, reading in this thread, or through. -/
inductive Control (γ ρ : Type)
  | filling (room : Nat) (held : Option (String × ρ))
  | looping
  | waiting (url : String) (future : Future γ)
  | serial
  | done
  | raised

structure PoolState (γ ρ σ : Type) where
  urls : List γ
  submitted : List (Future γ)
  inFlight : List (String × Future γ)
  finished : List Nat
  consumed : List (Future γ)
  totals : Totals ρ σ
  control : Control γ ρ

inductive PoolAction
  | main
  | finish (number : Nat)

section Steps
-- The url of an entry, the read of the granule at a place, and the fold of what is yielded.
variable (entryUrl : γ → String) (readGranule : Nat → γ → Except ε ρ)
  (fold : σ → String × ρ → FoldOutcome σ)

/-- One turn of the fold loop. -/
def foldYielded (t : Totals ρ σ) (item : String × ρ) : Totals ρ σ :=
  let yielded := t.yielded ++ [item]
  match fold t.state item with
  | .folded state => ⟨yielded, t.granuleErrors, state, false⟩
  | .failed state => ⟨yielded, t.granuleErrors + 1, state, false⟩
  | .raised state => ⟨yielded, t.granuleErrors, state, true⟩

/-- The generator goes on behind a `yield`, unless the fold loop raised. -/
def resume (s : PoolState γ ρ σ) (next : Control γ ρ) : PoolState γ ρ σ :=
  { s with control := if s.totals.raised then .raised else next }

def yieldHeld (s : PoolState γ ρ σ) (held : Option (String × ρ)) (next : Control γ ρ) :
    PoolState γ ρ σ :=
  match held with
  | none => { s with control := next }
  | some item => resume { s with totals := foldYielded fold s.totals item } next

/-- A result is taken: what there is to yield, or one error more. -/
def taken (s : PoolState γ ρ σ) (url : String) (future : Future γ) :
    PoolState γ ρ σ × Option (String × ρ) :=
  match readGranule future.number future.entry with
  | .ok reads => ({ s with consumed := s.consumed ++ [future] }, some (url, reads))
  | .error _ =>
    ({ s with
        consumed := s.consumed ++ [future]
        totals := { s.totals with granuleErrors := s.totals.granuleErrors + 1 } }, none)

/-- `pool.submit`. -/
def submit (s : PoolState γ ρ σ) (entry : γ) (rest : List γ) : PoolState γ ρ σ :=
  { s with urls := rest, submitted := s.submitted ++ [⟨s.submitted.length, entry⟩] }

def mainStep (s : PoolState γ ρ σ) : Option (PoolState γ ρ σ) :=
  match s.control with
  | .filling 0 held => some (yieldHeld fold s held .looping)
  | .filling (room + 1) held =>
    match s.urls with
    | [] => some (yieldHeld fold s held .looping)
    | entry :: rest =>
      some { submit s entry rest with
        inFlight := s.inFlight ++ [(entryUrl entry, ⟨s.submitted.length, entry⟩)]
        control := .filling room held }
  | .looping =>
    match s.inFlight with
    | [] => some { s with control := .done }
    | (url, future) :: rest => some { s with inFlight := rest, control := .waiting url future }
  | .waiting url future =>
    if future.number ∈ s.finished then
      let (s', held) := taken readGranule s url future
      -- the replacement of the head is submitted before its reads are yielded
      some { s' with control := .filling 1 held }
    else none
  | .serial =>
    match s.urls with
    | [] => some { s with control := .done }
    | entry :: rest =>
      let number := s.submitted.length
      let read := { submit s entry rest with finished := s.finished ++ [number] }
      let (s', held) := taken readGranule read (entryUrl entry) ⟨number, entry⟩
      some (yieldHeld fold s' held .serial)
  | .done => none
  | .raised => none

/-- A step of the loop, or a read of the pool that finishes. -/
def poolStep (s : PoolState γ ρ σ) : PoolAction → Option (PoolState γ ρ σ)
  | .main => mainStep entryUrl readGranule fold s
  | .finish number =>
    if number < s.submitted.length ∧ number ∉ s.finished then
      some { s with finished := s.finished ++ [number] }
    else none

def startPool (granuleWorkers : Nat) (granuleUrls : List γ) (init : σ) : PoolState γ ρ σ where
  urls := granuleUrls
  submitted := []
  inFlight := []
  finished := []
  consumed := []
  totals := ⟨[], 0, init, false⟩
  control := if granuleWorkers = 1 then .serial else .filling granuleWorkers none

end Steps

end Zagg.Processing
