import Zagg.Lib.Dict
import Zagg.Processing.ReadPlan

/-!
# Point reads

One HDF5 group is read for one shard: in full, hyperslicing the variables to the rows between
the shard's first and last, or over the slices of a plan. Both then filter by base predicates,
by predicates of coarser levels expanded through their links, and by expressions.
-/
namespace Zagg.Processing

open Zagg.Lib

section Config

/-- A dataset as read: a flat array, or the columns of a wide one. -/
inductive Dataset (β : Type) where
  | flat (values : List β)
  | wide (columns : List (List β))

inductive Op where
  | eq | ne | ge | le | lt | gt | isin | notIn
  deriving DecidableEq

/-- A normalized structured filter. -/
structure Predicate (β : Type) where
  dataset : String
  level : Option String
  column : Option Nat
  op : Op
  value : β
  values : List β
  keep : Bool

inductive FilterSpec (β : Type) where
  | structured (p : Predicate β)
  | expression (text : String)

/-- A `data_source.variables` entry: its column name, dataset and column selector. -/
structure Variable where
  name : String
  path : String
  column : Option Nat

structure LinkConfig where
  toLevel : String
  indexBeg : String
  count : String
  indexBase : Int

structure Level where
  latitude : String
  longitude : String
  link : Option LinkConfig
  vars : List (String × String)

/-- `data_source`, with its path templates resolved for the group. -/
structure DataSource (β : Type) where
  latitude : String
  longitude : String
  vars : List Variable
  filters : List (FilterSpec β)
  levels : List (String × Level)
  baseLevel : String
  spatialIndex : String
  pad : Nat

/-- The group's datasets by path. `fill` is the missing value of a dataset's dtype. -/
structure File (β : Type) where
  datasets : String → Dataset β
  scalars : String → List β
  starts : String → List Int
  counts : String → List Nat
  fill : String → β

inductive EvalError where
  | undefinedName (message : String)
  | raised (message : String)

/-- What the read calls: comparisons of the dataset values, the grid's point assignment, the
restricted `eval` of an expression over the columns, and the threshold's comparison. -/
structure Env (β C S : Type) where
  eq : β → β → Bool
  lt : β → β → Bool
  le : β → β → Bool
  assign : β → β → C
  shardOf : C → S
  evaluate : String → List (String × List β) → Except EvalError (List Bool)
  exceeds : Nat → Nat → Bool

/-- The columns read for a shard, beside each row's leaf cell. -/
structure Table (β C : Type) where
  columns : List (String × List β)
  leafId : List C

end Config

section Helpers
variable {β C S : Type} (env : Env β C S)

namespace Dataset

/-- An indexing of the rows. -/
def mapRows (f : List β → List β) : Dataset β → Dataset β
  | .flat l => .flat (f l)
  | .wide cs => .wide (cs.map f)

end Dataset

def outOfBounds (k size : Nat) : String :=
  s!"index {k} is out of bounds for axis 1 with size {size}"

def compare : Op → List β → β → β → Bool
  | .eq, _, v, a => env.eq a v
  | .ne, _, v, a => !env.eq a v
  | .ge, _, v, a => env.le v a
  | .le, _, v, a => env.le a v
  | .lt, _, v, a => env.lt a v
  | .gt, _, v, a => env.lt v a
  | .isin, vs, _, a => vs.any (env.eq a)
  | .notIn, vs, _, a => !vs.any (env.eq a)

/-- The column a predicate compares. -/
def predicateColumn (p : Predicate β) : Dataset β → Except String (List β)
  | .flat l =>
    if p.column.isSome then .error s!"filter on '{p.dataset}': 'column' set but array is 1-D"
    else .ok l
  | .wide cs =>
    match p.column with
    | none => .error s!"filter on '{p.dataset}': N-D array requires an integer 'column'"
    | some k => match cs[k]? with
      | none => .error (outOfBounds k cs.length)
      | some l => .ok l

/-- `_predicate_mask`. -/
def predicateMask (p : Predicate β) (d : Dataset β) : Except String (List Bool) :=
  (predicateColumn p d).map fun l => l.map fun a =>
    let hit := compare env p.op p.values p.value a
    if p.keep then hit else !hit

/-- `_select_column`. -/
def selectColumn (v : Variable) : Dataset β → Except String (List β)
  | .flat l =>
    if v.column.isSome then .error s!"variable '{v.name}': 'column' set but array is 1-D" else .ok l
  | .wide cs =>
    match v.column with
    | none => .error s!"variable '{v.name}': N-D dataset requires an integer 'column'"
    | some k => match cs[k]? with
      | none => .error (outOfBounds k cs.length)
      | some l => .ok l

/-- `keep_mask & mask`, from no mask at all. -/
def andMask : Option (List Bool) → List Bool → List Bool
  | none, m => m
  | some k, m => List.zipWith (· && ·) k m

def applyKeep {α : Type} (keep : Option (List Bool)) (l : List α) : List α :=
  match keep with
  | none => l
  | some k => select l k

/-- A mask was built and holds of nothing. -/
def keepsNothing : Option (List Bool) → Bool
  | none => false
  | some k => !k.any id

end Helpers

section Filters
variable {β C S : Type} (env : Env β C S) (src : DataSource β) (file : File β)

namespace DataSource

def structured (src : DataSource β) : List (Predicate β) := src.filters.filterMap fun f =>
  match f with
  | .structured p => some p
  | .expression _ => none

def baseStructured (src : DataSource β) : List (Predicate β) :=
  src.structured.filter fun p => p.level.all (· == src.baseLevel)

def coarseStructured (src : DataSource β) : List (Predicate β) :=
  src.structured.filter fun p => !p.level.all (· == src.baseLevel)

def expressions (src : DataSource β) : List String := src.filters.filterMap fun f =>
  match f with
  | .structured _ => none
  | .expression text => some text

/-- `_segment_level_variables`. -/
def segmentLevelVariables (src : DataSource β) : List (String × Level) :=
  src.levels.filter fun l => l.1 ≠ src.baseLevel ∧ l.2.vars ≠ []

/-- `levels[key]["link"]`. -/
def linkOf (src : DataSource β) (key : String) : Except String LinkConfig :=
  match src.levels.lookup key with
  | none => .error s!"'{key}'"
  | some lvl => match lvl.link with
    | none => .error "'link'"
    | some c => .ok c

end DataSource

def File.link (c : LinkConfig) : Link := ⟨(file.starts c.indexBeg).zip (file.counts c.count), c.indexBase⟩

/-- The base predicates over the shard's rows, ANDed. -/
def baseMask (decoded : String → Dataset β) (mask : List Bool) : Except String (Option (List Bool)) :=
  src.baseStructured.foldlM (fun keep p =>
    (predicateMask env p ((decoded p.dataset).mapRows fun l => select l mask)).map fun m =>
      some (andMask keep m)) none

/-- The coarse predicates expanded to the base rate, ANDed. -/
def crossMask (n : Nat) : Except String (Option (List Bool)) :=
  src.coarseStructured.foldlM (fun cross p =>
    (src.linkOf (p.level.getD "")).bind fun c =>
      (predicateMask env p (file.datasets p.dataset)).bind fun m =>
        (expandMaskToBase m (file.link c) n).map fun expanded => some (andMask cross expanded)) none

/-- `_read_segment_broadcasts`, at the base rate, or at `baseRows`. A level of `held` comes
with its owners. -/
def readSegmentBroadcasts (n : Nat) (baseRows : Option (List Nat))
    (held : String → Option (List (Option Nat))) : Except String (List (String × List β)) :=
  src.segmentLevelVariables.foldlM (fun out l =>
    let resolve : Except String (Option Link) := match held l.1 with
      | some _ => .ok none
      | none => match l.2.link with
        | none => .error "'link'"
        | some c => (validateLinkDisjoint l.1 (file.link c)).map fun _ => some (file.link c)
    resolve.bind fun link =>
      l.2.vars.foldlM (fun out var =>
        if src.vars.any fun v => v.name == var.1 then
          .error (s!"segment-level variable '{var.1}' on level '{l.1}' " ++
            "collides with a data_source.variables column")
        else
          let values : Except String (List β) := match held l.1, link, baseRows with
            | some parents, _, _ =>
              gatherSegmentAtParents (file.fill var.2) (file.scalars var.2) parents
            | none, none, _ => .ok []
            | none, some link, none =>
              broadcastSegmentToBase (file.fill var.2) (file.scalars var.2) link n
            | none, some link, some rows =>
              gatherSegmentAtRows (file.fill var.2) (file.scalars var.2) link n rows
          values.map fun vs => put var.1 vs out) out) []

/-- The variables' columns, at the shard's kept rows. -/
def variableColumns (decoded : String → Dataset β) (mask : List Bool) (keep : Option (List Bool)) :
    Except String (List (String × List β)) :=
  src.vars.foldlM (fun out v => (selectColumn v (decoded v.path)).map fun l =>
    put v.name (applyKeep keep (select l mask)) out) []

/-- The expression filters, in turn over the columns left. -/
def applyExpressions (names : List String) : List String → Table β C → Except String (Option (Table β C))
  | [], t => .ok (some t)
  | text :: rest, t =>
    let cols := names.filterMap fun name => (t.columns.lookup name).map fun l => (name, l)
    match env.evaluate text cols with
    | .error (.undefinedName e) =>
      .error s!"expression filter '{text}' references an undefined name: {e}"
    | .error (.raised e) => .error e
    | .ok emask =>
      if emask.length ≠ t.leafId.length then
        .error (s!"expression filter '{text}' must yield a per-row boolean mask " ++
          s!"(got shape ({emask.length},))")
      else if !emask.any id then .ok none
      else applyExpressions names rest
        ⟨t.columns.map fun x => (x.1, select x.2 emask), select t.leafId emask⟩

/-- The columns assembled and filtered by the expressions. -/
def assemble (decoded : String → Dataset β) (segments : List (String × List β)) (leafIds : List C)
    (mask : List Bool) (keep : Option (List Bool)) : Except String (Option (Table β C)) :=
  (variableColumns src decoded mask keep).bind fun cols =>
    let cols := segments.foldl (fun out s => put s.1 (applyKeep keep (select s.2 mask)) out) cols
    applyExpressions env (src.vars.map Variable.name ++ segments.map Prod.fst) src.expressions
      ⟨cols, applyKeep keep (select leafIds mask)⟩

end Filters

section Reads
variable {β C S : Type} [DecidableEq S] (env : Env β C S) (src : DataSource β) (file : File β)
variable (shardKey : S)

def shardMask (leafIds : List C) : List Bool := leafIds.map fun leaf => decide (env.shardOf leaf = shardKey)

/-- `_execute_plan_group`. -/
def executePlanGroup (plan : ReadPlan) (nBase : Nat) : Except String (Option (Table β C)) :=
  let lats := executeReadPlan plan (file.scalars src.latitude)
  let lons := executeReadPlan plan (file.scalars src.longitude)
  if lats = [] then .ok none
  else
    let leafIds := List.zipWith env.assign lats lons
    let mask := shardMask env shardKey leafIds
    if !mask.any id then .ok none
    else
      let decoded := fun path => (file.datasets path).mapRows (executeReadPlan plan)
      (baseMask env src decoded mask).bind fun keep =>
        (crossMask env src file nBase).bind fun cross =>
          let keep := match cross with
            | none => keep
            | some cross => some (andMask keep (select (gather cross plan.rows) mask))
          if keepsNothing keep then .ok none
          else
            (readSegmentBroadcasts src file nBase none fun _ => none).bind fun segments =>
              let segments := segments.map fun s => (s.1, gather s.2 plan.rows)
              assemble env src decoded segments leafIds mask keep

/-- `_read_group_full`. -/
def readGroupFull : Except String (Option (Table β C)) :=
  let lats := file.scalars src.latitude
  let lons := file.scalars src.longitude
  if lats = [] then .ok none
  else
    let leafIds := List.zipWith env.assign lats lons
    let mask := shardMask env shardKey leafIds
    if !mask.any id then .ok none
    else
      let indices := flatnonzero mask
      let minIdx := indices.headD 0
      let maxIdx := indices.getLastD 0 + 1
      (crossMask env src file lats.length).bind fun cross =>
        -- a cross mask empty over the window returns before the base predicates run
        if keepsNothing (cross.map fun c => slice c minIdx maxIdx) then .ok none
        else
          let decoded := fun path => (file.datasets path).mapRows fun l => slice l minIdx maxIdx
          let sliced := slice mask minIdx maxIdx
          (baseMask env src decoded sliced).bind fun keep =>
            let keep := match cross with
              | none => keep
              | some cross => some (andMask keep (select (slice cross minIdx maxIdx) sliced))
            if keepsNothing keep then .ok none
            else
              (readSegmentBroadcasts src file lats.length none fun _ => none).bind fun segments =>
                let segments := segments.map fun s => (s.1, slice s.2 minIdx maxIdx)
                assemble env src decoded segments (slice leafIds minIdx maxIdx) sliced keep

/-- `_planned_read_group`. -/
def plannedReadGroup : Except String (Option (Table β C)) :=
  match src.levels.lookup src.spatialIndex with
  | none => .error s!"'{src.spatialIndex}'"
  | some lvl =>
    match lvl.link with
    | none => .error s!"read_plan.spatial_index level '{src.spatialIndex}' requires a 'link'"
    | some c =>
      if c.toLevel ≠ src.baseLevel then
        .error (s!"read_plan.spatial_index level '{src.spatialIndex}' must link directly to base " ++
          s!"level '{src.baseLevel}' (got link.to='{c.toLevel}')")
      else
        let coarseLats := file.scalars lvl.latitude
        let coarseLons := file.scalars lvl.longitude
        let link := file.link c
        if coarseLats = [] then .ok none
        else if link.baseExtent ≤ 0 then .ok none
        else
          let nBase := link.baseExtent.toNat
          let coarseMask := shardMask env shardKey (List.zipWith env.assign coarseLats coarseLons)
          (planRead coarseMask link nBase src.pad env.exceeds).bind fun plan =>
            if plan.parentRuns = [] then .ok none
            else if plan.fullRead then readGroupFull env src file shardKey
            else executePlanGroup env src file shardKey plan nBase

end Reads
end Zagg.Processing
