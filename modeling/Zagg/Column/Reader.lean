import Mathlib.Data.List.Dedup
import Mathlib.Tactic.Common
import Zagg.Lib.Run

/-!
# One column prefix, its writer and a stamp-validated reader

A column is a prefix of single objects: the root metadata with the commit stamp, one
group object per resolution, and per array its metadata and its one chunk (not stored
when every cell is fill). The writer rewrites the prefix in the order of
`write_column`, one object operation a move; the reader's `read` is three GETs
bracketed by the stamp.
-/
namespace Zagg.Column

variable {V N R : Type}

/-- A commit stamp; only stage writers record a run. An empty stamp reads as none. -/
structure Stamp (R : Type) where
  writtenAt : Nat
  runId : Option R
deriving DecidableEq

abbrev Key (N : Type) := Nat × N

/-- What one rewrite publishes: its arrays in write order, their fill values and slabs. -/
structure Generation (V N R : Type) where
  stamp : Stamp R
  arrays : List (Key N)
  fill : Key N → V
  slab : Key N → V

inductive ObjKey (N : Type)
  | root
  | group (res : Nat)
  | array (key : Key N)
  | chunk (key : Key N)
deriving DecidableEq

inductive Obj (V R : Type)
  | root (stamp : Option (Stamp R))
  | group
  | array (fill : V)
  | chunk (values : V)
deriving DecidableEq

/-- The objects under the prefix. -/
abbrev Objects (V N R : Type) := List (ObjKey N × Obj V R)

section
variable [DecidableEq N]

def Objects.get (c : Objects V N R) (k : ObjKey N) : Option (Obj V R) :=
  (c.find? fun e => e.1 = k).map Prod.snd

def Objects.delete (c : Objects V N R) (k : ObjKey N) : Objects V N R :=
  c.filter fun e => e.1 ≠ k

def Objects.put (c : Objects V N R) (k : ObjKey N) (o : Obj V R) : Objects V N R :=
  (k, o) :: c.delete k

/-- The stamp a root GET sees; an absent root reads as unstamped. -/
def Objects.rootStamp (c : Objects V N R) : Option (Stamp R) :=
  match c.get .root with
  | some (.root s) => s
  | _ => none

/-- The template's objects; the root is not stamped yet. -/
def Generation.template (g : Generation V N R) : Objects V N R :=
  (.root, .root none) ::
    ((g.arrays.map Prod.fst).dedup.map fun res => (.group res, .group)) ++
    g.arrays.map fun k => (.array k, .array (g.fill k))

end

/-- The chunk an array write stores, if any cell is not fill. -/
def Generation.chunkOf [DecidableEq V] (g : Generation V N R) (k : Key N) : Option V :=
  if g.slab k = g.fill k then none else some (g.slab k)

/-- The array a generation wrote in full, if it declares one. -/
def Generation.content [DecidableEq N] (g : Generation V N R) (k : Key N) : Option V :=
  if k ∈ g.arrays then some (g.slab k) else none

/-- Where a rewrite stands; `template` and `arrays` list what is left to create. -/
inductive Phase (V N R : Type)
  | deleting
  | template (todo : Objects V N R)
  | arrays (todo : List (Key N))
  | attrs
  | stamp
  | settled

structure Writer (V N R : Type) where
  gen : Nat
  phase : Phase V N R

/-- `begin` calls `write_column` anew, also over an interrupted rewrite; `pick` is the
object a delete or a template creation reaches next, in no fixed order. -/
inductive WriterMove
  | begin
  | proceed (pick : Nat)

def writerStep [DecidableEq V] [DecidableEq N] (gens : Nat → Generation V N R)
    (w : Writer V N R) (objs : Objects V N R) : WriterMove → Option (Writer V N R × Objects V N R)
  | .begin => some ({ w with phase := .deleting }, objs)
  | .proceed pick =>
    match w.phase with
    | .deleting =>
      match objs[pick]? with
      | some e => some (w, objs.delete e.1)
      | none =>
        if objs.isEmpty then some (⟨w.gen + 1, .template (gens (w.gen + 1)).template⟩, objs) else none
    | .template todo =>
      match todo[pick]? with
      | some e => some ({ w with phase := .template (todo.eraseIdx pick) }, objs.put e.1 e.2)
      | none =>
        if todo.isEmpty then some ({ w with phase := .arrays (gens w.gen).arrays }, objs) else none
    | .arrays [] => some ({ w with phase := .attrs }, objs)
    | .arrays (k :: todo) =>
      some ({ w with phase := .arrays todo },
        match (gens w.gen).chunkOf k with
        | some v => objs.put (.chunk k) (.chunk v)
        | none => objs)
    | .attrs => some ({ w with phase := .stamp }, objs.put .root (.root none))
    | .stamp =>
      some ({ w with phase := .settled }, objs.put .root (.root (some (gens w.gen).stamp)))
    | .settled => none

def sameStamp [DecidableEq R] (a b : Option (Stamp R)) : Bool := a = b

/-- A stage stamp from another run, written since this run started. -/
def foreignFresh [DecidableEq R] (runId : R) (runStarted : Nat) : Option (Stamp R) → Bool
  | some s =>
    match s.runId with
    | some r => r ≠ runId && runStarted < s.writtenAt
    | none => false
  | none => false

/-- The next GET of a `read`; `foreign` and `moving` are its two errors. -/
inductive Pc (V N R : Type)
  | idle
  | openGroup (key : Key N) (attempt : Nat) (before : Option (Stamp R))
  | openArray (key : Key N) (attempt : Nat) (before : Option (Stamp R))
  | getChunk (key : Key N) (attempt : Nat) (before : Option (Stamp R)) (fill : V)
  | check (key : Key N) (attempt : Nat) (before : Option (Stamp R)) (fill : V) (chunk : Option V)
  | returned (key : Key N) (values : Option V)
  | foreign (stamp : Option (Stamp R))
  | moving

structure Reader (V N R : Type) where
  stamp : Option (Stamp R)
  revalidated : Nat
  pc : Pc V N R

inductive ReaderMove (N : Type)
  | call (key : Key N)
  | proceed

section
variable [DecidableEq N] [DecidableEq R]

def Reader.call (r : Reader V N R) (key : Key N) : Reader V N R :=
  { r with pc := .openGroup key 0 r.stamp }

def readerStep (runId : R) (runStarted : Nat) (r : Reader V N R) (c : Objects V N R) :
    ReaderMove N → Option (Reader V N R)
  | .call key =>
    match r.pc with
    | .idle | .returned _ _ => some (r.call key)
    | _ => none
  | .proceed =>
    match r.pc with
    | .openGroup key attempt before =>
      if (c.get (.group key.1)).isSome then some { r with pc := .openArray key attempt before }
      else some { r with pc := .returned key none }
    | .openArray key attempt before =>
      match c.get (.array key) with
      | some (.array fill) => some { r with pc := .getChunk key attempt before fill }
      | _ => some { r with pc := .returned key none }
    | .getChunk key attempt before fill =>
      -- an absent chunk decodes as fill
      let chunk := match c.get (.chunk key) with
        | some (.chunk v) => some v
        | _ => none
      some { r with pc := .check key attempt before fill chunk }
    | .check key attempt before fill chunk =>
      let after := c.rootStamp
      if sameStamp before after then
        some { r with pc := .returned key (some (chunk.getD fill)) }
      else if foreignFresh runId runStarted after then some { r with pc := .foreign after }
      else
        some {
          stamp := after
          revalidated := r.revalidated + 1
          pc := if attempt + 1 < 3 then .openGroup key (attempt + 1) after else .moving }
    | _ => none

/-- The constructor's root GET, on a committed column. -/
def construct (runId : R) (runStarted : Nat) (c : Objects V N R) : Option (Reader V N R) :=
  match c.rootStamp with
  | some s =>
    some ⟨some s, 0, if foreignFresh runId runStarted (some s) then .foreign (some s) else .idle⟩
  | none => none

structure State (V N R : Type) where
  writer : Writer V N R
  objects : Objects V N R
  reader : Option (Reader V N R)

inductive Act (N : Type)
  | write (m : WriterMove)
  | construct
  | read (m : ReaderMove N)

/-- An empty prefix, about to receive the first rewrite's template. -/
def init (gens : Nat → Generation V N R) : State V N R :=
  ⟨⟨0, .template (gens 0).template⟩, [], none⟩

def step [DecidableEq V] (gens : Nat → Generation V N R) (runId : R) (runStarted : Nat)
    (s : State V N R) : Act N → Option (State V N R)
  | .write m =>
    (writerStep gens s.writer s.objects m).map fun p =>
      { s with writer := p.1, objects := p.2 }
  | .construct =>
    match s.reader with
    | none => (construct runId runStarted s.objects).map fun r => { s with reader := some r }
    | some _ => none
  | .read m =>
    match s.reader with
    | some r => (readerStep runId runStarted r s.objects m).map fun r => { s with reader := some r }
    | none => none

end

end Zagg.Column
