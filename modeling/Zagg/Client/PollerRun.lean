import Zagg.Client.StatusPoller
import Zagg.Lib.Dict

/-!
# Runs of the poller

The poller's thread takes a tick apart into its resolve pass, the selection of a batch and one
invoke at a time. Shards register and status objects land between any two of these.
-/
namespace Zagg.Client

open Zagg.Lib

/-- The poller, the batch it has selected and not yet fired, the run's status objects with all
that were ever written, and what the poller did so far. -/
structure State where
  entries : List Entry
  refused : List Entry
  stopped : Bool
  batch : List StatusKey
  objects : List (StatusKey × Json)
  written : List (StatusKey × Json)
  events : List Event

def State.start : State := ⟨[], [], false, [], [], [], []⟩

inductive Act where
  | register (key : StatusKey) (label : String) (live : Bool) (granuleCount : Nat)
      (dispatchedAt : Option ℚ) (now : ℚ)
  | shutdown
  | land (key : StatusKey) (object : Json)
  | resolve (now : ℚ) (listFails : Bool) (unreadable : StatusKey → Bool) (clock : StatusKey → ℚ)
  | select (now : ℚ)
  | invoke (now : ℚ) (fault : Option String)

def State.reads (s : State) (now : ℚ) (unreadable : StatusKey → Bool) (clock : StatusKey → ℚ) :
    Reads :=
  ⟨now, fun key => s.objects.lookup key, unreadable, clock⟩

/-- One step. A key registers once; the thread resolves and selects with no batch in hand. -/
def step (cfg : Config) (s : State) : Act → Option State
  | .register key label live granuleCount dispatchedAt now =>
    if key ∈ s.entries.map Entry.key ∨ key ∈ s.refused.map Entry.key then none
    else
      let e := newEntry key label live granuleCount dispatchedAt now
      if s.stopped then
        let e := refuse now e
        some { s with refused := s.refused ++ [e], events := s.events ++ resolvedEvent e }
      else some { s with entries := s.entries ++ [e] }
  | .shutdown => some { s with stopped := true }
  | .land key object =>
    some { s with objects := put key object s.objects, written := (key, object) :: s.written }
  | .resolve now listFails unreadable clock =>
    if s.batch ≠ [] then none
    else if listFails then some s
    else
      let r := resolveLanded cfg (s.reads now unreadable clock) s.entries
      some { s with entries := r.1, events := s.events ++ r.2.1 }
  | .select now =>
    if s.batch ≠ [] then none
    else
      let batch := batchOf cfg now s.entries
      some { s with entries := unqueue batch s.entries, batch := batch }
  | .invoke now fault =>
    match s.batch with
    | [] => none
    | key :: batch =>
      some { s with
        entries := s.entries.map fun e => if e.key = key then fire cfg now fault e else e
        batch := batch
        events := s.events ++ (s.entries.filter fun e => e.key = key).flatMap fun e =>
          fireEvents fault e (fire cfg now fault e) }

end Zagg.Client
