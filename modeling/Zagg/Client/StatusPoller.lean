import Zagg.Lib.Json
import Zagg.Lib.Run

/-!
# The status poller

One thread resolves every shard's future from the status objects workers write, and paces the
Event dispatch. A tick first resolves the landed objects and classifies the shards past their
deadline, then fires queued shards while the in-flight window has room.
-/
namespace Zagg.Client

open Zagg.Lib

section Config

/-- A status object's name under the run prefix: `shard-<key>.json`, the window suffixed. -/
structure StatusKey where
  shard : Int
  window : Option String
  deriving DecidableEq

/-- `_MAX_DROP_REFIRES`. -/
def maxDropRefires : Nat := 1

/-- `_RETRY_BACKOFF_CAP_S`. -/
def retryBackoffCap : ℚ := 30

structure Config where
  dropTimeout : ℚ
  maxRetries : Nat
  maxInFlight : Option Nat

/-- `max(1, int(max_retries))`. -/
def Config.retries (cfg : Config) : Nat := max 1 cfg.maxRetries

/-- A hashable attempt id under Python's equality, where `True` and `1` are one key. -/
inductive AttemptId where
  | none
  | num (q : ℚ)
  | inf (negative : Bool)
  | nan
  | str (s : String)
  deriving DecidableEq

def attemptId : Json → Except PyError AttemptId
  | .null => .ok .none
  | .bool b => .ok (.num (if b then 1 else 0))
  | .num q => .ok (.num q)
  | .inf negative => .ok (.inf negative)
  | .nan => .ok .nan
  | .str s => .ok (.str s)
  | .arr _ => .error .typeError
  | .obj _ => .error .typeError

/-- The per-shard result dict. -/
structure Result where
  shardKey : Int
  statusCode : Json
  body : Json
  wallTime : ℚ
  lambdaDuration : Json
  error : Json
  retries : Int
  timeout : Bool
  granuleCount : Nat
  outcome : Option String

/-- The method that gives a shard up: `_worker_failed`, `_drop_failed`, `_invoke_faulted`, or
`register` after the shutdown. -/
inductive FaultClass where
  | worker | drop | invoke | shutdown
  deriving DecidableEq

/-- How a future was resolved: `set_result`, or the `on_failed` policy. -/
inductive Resolution where
  | result (r : Result)
  | failure (cause : FaultClass) (r : Result)

/-- `_ShardEntry`. `live` says it has a `dispatch` closure. -/
structure Entry where
  key : StatusKey
  label : String
  live : Bool
  granuleCount : Nat
  future : Option Resolution
  attempts : Nat
  queued : Bool
  dropRefires : Nat
  retryNotBefore : ℚ
  dispatchedAt : Option ℚ
  firstDispatchedAt : Option ℚ
  consumed : List AttemptId

end Config

section Results

/-- `first_dispatched_at or clock()`. -/
def Entry.start (e : Entry) (now : ℚ) : ℚ :=
  match e.firstDispatchedAt with
  | some t => if t = 0 then now else t
  | none => now

/-- `_result`, given the body's `duration_s`. -/
def Entry.resultWith (e : Entry) (now : ℚ) (statusCode body duration error : Json)
    (outcome : Option String) : Result where
  shardKey := e.key.shard
  statusCode := statusCode
  body := body
  wallTime := now - e.start now
  lambdaDuration := duration
  error := error
  retries := (e.attempts : Int) - 1
  timeout := false
  granuleCount := e.granuleCount
  outcome := outcome

/-- `(body or {}).get("duration_s", 0)`. -/
def durationOf : Json → Except PyError Json
  | .obj fields => .ok ((fields.lookup "duration_s").getD (.num 0))
  | body => if body.truthy then .error .attributeError else .ok (.num 0)

/-- `format(seconds, ".0f")`. -/
def wholeSeconds (seconds : ℚ) : Int :=
  let low := seconds.floor
  if seconds - low < 1 / 2 ∨ (seconds - low = 1 / 2 ∧ low % 2 = 0) then low else low + 1

def dropText (cfg : Config) : String :=
  s!"failed-unknown: no status object within {wholeSeconds cfg.dropTimeout}s " ++
    "(function timeout + 60s max event age + margin) — the Event invoke " ++
    "was dropped under backpressure, or the worker died before its " ++
    "status write (check CloudWatch)"

end Results

section Resolve
variable (cfg : Config)

/-- `_resolve_failure`. -/
def resolveFailure (e : Entry) (cause : FaultClass) (r : Result) : Entry :=
  { e with future := some (.failure cause r) }

/-- What `_consume` did with a listed key: it raised, did not act, or acted on an object. -/
inductive Consumed where
  | raised (e : Entry) (err : PyError)
  | skipped
  | acted (e : Entry) (attempt : Json)

/-- The dedupe on `attempt_id`: nothing when the attempt was acted on before. A falsy id is
always new, and so is `nan`, which is in no set but by identity. -/
def noteAttempt (e : Entry) (attempt : Json) : Except PyError (Option Entry) :=
  if attempt.truthy then
    (attemptId attempt).map fun id =>
      if id ∈ e.consumed ∧ id ≠ .nan then none else some { e with consumed := id :: e.consumed }
  else .ok (some e)

/-- An object's terminal status: `set_result`, or `_worker_failed`. -/
def resolutionOf (now : ℚ) (e : Entry) (fields : List (String × Json)) (duration : Json) : Resolution :=
  let r := e.resultWith now (Json.field fields "status_code") (Json.field fields "body").orEmpty duration
    (Json.field fields "error") none
  if (Json.field fields "status").isOneOf ["ok", "no_data"] then .result r else .failure .worker r

/-- `_consume`. No object stands for a GET that failed. -/
def consume (now : ℚ) (e : Entry) : Option Json → Consumed
  | none => .skipped
  | some (.obj fields) =>
    match noteAttempt e (Json.field fields "attempt_id") with
    | .error err => .raised e err
    | .ok none => .skipped
    | .ok (some e) =>
      match durationOf (Json.field fields "body").orEmpty with
      | .error err => .raised e err
      | .ok duration =>
        .acted { e with future := some (resolutionOf now e fields duration) }
          (Json.field fields "attempt_id")
  | some _ => .raised e .attributeError

/-- `_dropped` with `_drop_failed`: one bounded re-fire. -/
def dropped (now : ℚ) (e : Entry) : Entry :=
  if e.live ∧ e.dropRefires < maxDropRefires ∧ e.attempts < cfg.retries then
    { e with dropRefires := e.dropRefires + 1, queued := true }
  else
    resolveFailure e .drop
      (e.resultWith now .null (.obj []) (.num 0) (.str (dropText cfg)) (some "failed-unknown"))

def pastDeadline (now : ℚ) (e : Entry) : Bool :=
  e.dispatchedAt.any fun t => decide (t + cfg.dropTimeout ≤ now)

/-- What one tick meets: the deadline clock, the objects standing under the prefix, the keys
whose GET fails, and the clock of each result. -/
structure Reads where
  now : ℚ
  standing : StatusKey → Option Json
  unreadable : StatusKey → Bool
  clock : StatusKey → ℚ

def Reads.listed (reads : Reads) (key : StatusKey) : Bool := (reads.standing key).isSome

def Reads.get (reads : Reads) (key : StatusKey) : Option Json :=
  if reads.unreadable key then none else reads.standing key

/-- What the poller did. A drop is noted with what stood at the shard's key and the attempts
acted on before. -/
inductive Event where
  | invoked (key : StatusKey) (fault : Option String)
  | acted (key : StatusKey) (attempt : Json)
  | dropped (key : StatusKey) (standing : Option Json) (consumed : List AttemptId)
  | resolved (key : StatusKey) (resolution : Resolution)

def resolvedEvent (e : Entry) : List Event := (e.future.map fun r => Event.resolved e.key r).toList

/-- The deadline branch of `_resolve_landed`. -/
def classify (reads : Reads) (e : Entry) : Entry × List Event :=
  if pastDeadline cfg reads.now e then
    let e' := dropped cfg (reads.clock e.key) e
    (e', .dropped e.key (reads.standing e.key) e.consumed :: resolvedEvent e')
  else (e, [])

/-- One pending entry of `_resolve_landed`. -/
def resolveEntry (reads : Reads) (e : Entry) : Entry × List Event × Option PyError :=
  let late := classify cfg reads e
  if reads.listed e.key then
    match consume (reads.clock e.key) e (reads.get e.key) with
    | .raised e' err => (e', [], some err)
    | .acted e' attempt => (e', .acted e.key attempt :: resolvedEvent e', none)
    | .skipped => (late.1, late.2, none)
  else (late.1, late.2, none)

def Entry.pending (e : Entry) : Bool := !e.queued && e.future.isNone

/-- The loop of `_resolve_landed`. What an entry raises ends it. -/
def resolveLanded (reads : Reads) : List Entry → List Entry × List Event × Option PyError
  | [] => ([], [], none)
  | e :: es =>
    if e.pending then
      match resolveEntry cfg reads e with
      | (e', evs, some err) => (e' :: es, evs, some err)
      | (e', evs, none) =>
        let rest := resolveLanded reads es
        (e' :: rest.1, evs ++ rest.2.1, rest.2.2)
    else
      let rest := resolveLanded reads es
      (e :: rest.1, rest.2.1, rest.2.2)

end Resolve

section Dispatch
variable (cfg : Config)

def Entry.eligible (now : ℚ) (e : Entry) : Bool :=
  e.queued && e.future.isNone && decide (e.retryNotBefore ≤ now)

def inFlight (es : List Entry) : Nat := es.countP Entry.pending

/-- The shards `_dispatch_up_to_window` takes off the queue in one pass. -/
def batchOf (now : ℚ) (es : List Entry) : List StatusKey :=
  let queued := es.filter (Entry.eligible now)
  let room := match cfg.maxInFlight with
    | none => queued.length
    | some m => m - inFlight es
  (queued.take room).map Entry.key

def unqueue (batch : List StatusKey) (es : List Entry) : List Entry :=
  es.map fun e => if e.key ∈ batch then { e with queued := false } else e

/-- `_invoke_faulted`: a backed-off retry. -/
def invokeFaulted (now : ℚ) (e : Entry) (r : Result) : Entry :=
  if e.live ∧ e.attempts < cfg.retries then
    { e with retryNotBefore := now + min (2 ^ e.attempts) retryBackoffCap, queued := true }
  else resolveFailure e .invoke r

/-- `_fire`: one invoke, which may fault. -/
def fire (now : ℚ) (fault : Option String) (e : Entry) : Entry :=
  if e.live then
    let e : Entry := { e with
      attempts := e.attempts + 1
      retryNotBefore := 0
      dispatchedAt := some now
      firstDispatchedAt := some (e.firstDispatchedAt.getD now) }
    match fault with
    | none => e
    | some msg => invokeFaulted cfg now e
        (e.resultWith now .null (.obj []) (.num 0) (.str s!"Event invoke failed: {msg}") none)
  else e

def fireEvents (fault : Option String) (e e' : Entry) : List Event :=
  if e.live then .invoked e.key fault :: resolvedEvent e' else []

end Dispatch

section Registration

/-- A new entry: queued with a closure, else observed from its dispatch time on. -/
def newEntry (key : StatusKey) (label : String) (live : Bool) (granuleCount : Nat)
    (dispatchedAt : Option ℚ) (now : ℚ) : Entry where
  key := key
  label := label
  live := live
  granuleCount := granuleCount
  future := none
  attempts := if live then 0 else 1
  queued := live
  dropRefires := 0
  retryNotBefore := 0
  dispatchedAt := if live then none else some (dispatchedAt.getD now)
  firstDispatchedAt := if live then none else some (dispatchedAt.getD now)
  consumed := []

/-- A registration the shutdown came before. -/
def refuse (now : ℚ) (e : Entry) : Entry :=
  resolveFailure { e with queued := false } .shutdown
    (e.resultWith now .null (.obj []) (.num 0)
      (.str (s!"shard {e.label} registered after the status poller shut " ++
        "down: no loop left to resolve it (issue #327)")) (some "not-dispatched"))

end Registration
end Zagg.Client
