import Mathlib.Logic.Function.Basic
import Zagg.Lib.Run

/-!
# The sweep-admission lease, one object operation at a time

The store-root intent object is a single register. `acquireLease`, `heartbeatLease`
and `releaseLease` are the sequences of GET, conditional create, PUT and DELETE the
code performs; `Pc` names the operation a run performs next, with the locals it
carries. The clock counts microseconds and the stored instants whole seconds, as
`_utcnow` truncates them.
-/
namespace Zagg.Sweep.Lease

open Zagg.Lib

variable {Run : Type} [DecidableEq Run]

/-- Heartbeat TTL, in seconds, of an intent that records none. -/
def defaultTtlS : Int := 900

/-- The intent payload. An unparsable heartbeat is `none`; a missing TTL is `none`. -/
structure Intent (Run : Type) where
  runId : Run
  scope : Option (List Nat)
  acquiredAt : Nat
  heartbeatAt : Option Nat
  ttlS : Option Int
  claimedFrom : Option Run
deriving DecidableEq

/-- What may stand at the register: an intent of this envelope version, or bytes
that do not parse as one. -/
inductive Obj (Run : Type)
  | intent (l : Intent Run)
  | debris
deriving DecidableEq

/-- The arguments one run passes to `acquire_lease`. -/
structure Args where
  scope : Option (List Nat)
  ttlS : Int

def utcnow (clock : Nat) : Nat := clock / 1000000

def payload (a : Args) (r : Run) (clock : Nat) : Intent Run where
  runId := r
  scope := a.scope
  acquiredAt := utcnow clock
  heartbeatAt := some (utcnow clock)
  ttlS := some a.ttlS
  claimedFrom := none

/-- Absent and unparsable objects both read free. -/
def readLease : Option (Obj Run) → Option (Intent Run)
  | some (.intent l) => some l
  | some .debris => none
  | none => none

/-- `int(lease.get("ttl_s") or DEFAULT_TTL_S)`: zero is falsy too. -/
def Intent.ttl (l : Intent Run) : Int :=
  match l.ttlS with
  | some t => if t = 0 then defaultTtlS else t
  | none => defaultTtlS

def expired (clock : Nat) (l : Intent Run) : Bool :=
  match l.heartbeatAt with
  | none => true
  | some beat => decide (l.ttl * 1000000 < (clock : Int) - beat * 1000000)

/-- The next operation of one run. `refused` carries the run its
`SweepRefusedError` names. -/
inductive Pc (Run : Type)
  | idle
  | create (lease : Intent Run)
  | readExisting
  | judge (existing : Option (Intent Run))
  | recheck (existing : Option (Intent Run))
  | claimDelete (existing : Option (Intent Run))
  | claimCreate (claim : Intent Run)
  | verify (claim : Intent Run)
  | held (lease : Intent Run)
  | beatPut (lease fresh : Intent Run)
  | releaseDelete (lease : Intent Run)
  | released (deleted : Bool)
  | refused (holder : Option Run)
deriving DecidableEq

/-- Between a successful return of `acquire_lease` and the end of the run's own
`release_lease`. -/
def Pc.holds : Pc Run → Bool
  | .held _ | .beatPut _ _ | .releaseDelete _ => true
  | _ => false

/-- `begin`, `beat` and `release` enter the three entry points; `proceed` performs
the pending operation. -/
inductive Move
  | begin
  | proceed
  | beat
  | release
deriving DecidableEq

def acquireStep (a : Args) (r : Run) (clock : Nat) (obj : Option (Obj Run)) :
    Pc Run → Option (Option (Obj Run) × Pc Run)
  | .create lease =>
    if obj.isNone then some (some (.intent lease), .held lease) else some (obj, .readExisting)
  | .readExisting => some (obj, .judge (readLease obj))
  | .judge (some l) =>
    if l.runId = r then some (obj, .held l)
    else if expired clock l then some (obj, .recheck (some l))
    else some (obj, .refused (some l.runId))
  | .judge none => some (obj, .recheck none)
  | .recheck existing =>
    if readLease obj = existing then some (obj, .claimDelete existing)
    else some (obj, .refused ((readLease obj).map (·.runId)))
  | .claimDelete existing =>
    -- the claim payload is built once the DELETE has returned
    some (none, .claimCreate { payload a r clock with claimedFrom := existing.map (·.runId) })
  | .claimCreate claim =>
    if obj.isNone then some (some (.intent claim), .verify claim) else some (obj, .verify claim)
  | .verify claim =>
    if (readLease obj).map (·.runId) = some r then some (obj, .held claim)
    else some (obj, .refused ((readLease obj).map (·.runId)))
  | _ => none

def heartbeatStep (clock : Nat) (obj : Option (Obj Run)) (lease : Intent Run) :
    Option (Obj Run) × Pc Run :=
  match readLease obj with
  | some current =>
    if current.runId = lease.runId then
      (obj, .beatPut lease { current with heartbeatAt := some (utcnow clock) })
    else (obj, .refused (some current.runId))
  | none => (obj, .refused none)

def releaseStep (r : Run) (obj : Option (Obj Run)) (lease : Intent Run) :
    Option (Obj Run) × Pc Run :=
  match readLease obj with
  | some current =>
    if current.runId = r then (obj, .releaseDelete lease) else (obj, .released false)
  | none => (obj, .released false)

/-- One atomic move of run `r`: the register and the run's next operation after it. -/
def advance (a : Args) (r : Run) (clock : Nat) (obj : Option (Obj Run)) :
    Move → Pc Run → Option (Option (Obj Run) × Pc Run)
  | .begin, .idle => some (obj, .create (payload a r clock))
  | .beat, .held lease => some (heartbeatStep clock obj lease)
  | .release, .held lease => some (releaseStep r obj lease)
  | .proceed, .beatPut lease fresh => some (some (.intent fresh), .held lease)
  | .proceed, .releaseDelete _ => some (none, .released true)
  | .proceed, pc => acquireStep a r clock obj pc
  | _, _ => none

structure State (Run : Type) where
  clock : Nat
  obj : Option (Obj Run)
  pc : Run → Pc Run

/-- No intent object, and no run has started. -/
def init (clock : Nat) : State Run := ⟨clock, none, fun _ => .idle⟩

inductive Act (Run : Type)
  | tick (d : Nat)
  | run (r : Run) (m : Move)

def step (args : Run → Args) (s : State Run) : Act Run → Option (State Run)
  | .tick d => some { s with clock := s.clock + d }
  | .run r m =>
    (advance (args r) r s.clock s.obj m (s.pc r)).map fun p =>
      { s with obj := p.1, pc := Function.update s.pc r p.2 }

/-- At most one run is between its admission and its release. -/
def Exclusive (s : State Run) : Prop :=
  ∀ r r', (s.pc r).holds = true → (s.pc r').holds = true → r = r'

/-- The intent of a run that holds the lease has not outlived its TTL. -/
def heldUnexpired (s : State Run) : Bool :=
  match s.obj with
  | some (.intent l) => !(s.pc l.runId).holds || !expired s.clock l
  | _ => true

/-- The claim's DELETE finds the register as its re-check GET read it. -/
def deleteSettled (s : State Run) : Act Run → Bool
  | .run r .proceed =>
    match s.pc r with
    | .claimDelete existing => decide (readLease s.obj = existing)
    | _ => true
  | _ => true

end Zagg.Sweep.Lease
