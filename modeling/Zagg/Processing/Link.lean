import Zagg.Lib.Masks

/-!
# Record links

A coarse level's link gives each of its records a start and a count of base rows. The base
rate is filled from it by painting every record over its rows, or, at some rows only, by
looking each row's record up.
-/
namespace Zagg.Processing

open Zagg.Lib

universe u v

/-- A level's link as read: one stored start and count a record, and the starts' origin. -/
structure Link where
  rows : List (Int × Nat)
  indexBase : Int
  deriving DecidableEq

/-- A record with its stored start and its first base row. -/
structure LinkRecord where
  index : Nat
  start : Int
  beg : Int
  cnt : Nat
  deriving DecidableEq

namespace LinkRecord

def stop (r : LinkRecord) : Int := r.beg + r.cnt

def owns (r : LinkRecord) (row : Nat) : Bool := decide (r.beg ≤ row ∧ (row : Int) < r.stop)

end LinkRecord

namespace Link

def records (link : Link) : List LinkRecord :=
  link.rows.zipIdx.map fun x => ⟨x.2, x.1.1, x.1.1 - link.indexBase, x.1.2⟩

/-- The records with rows. An empty one's start is a sentinel. -/
def nonempty (link : Link) : List LinkRecord := link.records.filter fun r => decide (0 < r.cnt)

/-- `argsort(beg, kind="stable")` of the records with rows. -/
def sorted (link : Link) : List LinkRecord :=
  link.nonempty.insertionSort fun a b => a.beg ≤ b.beg

/-- `link_base_extent`. -/
def baseExtent (link : Link) : Int := (link.nonempty.map LinkRecord.stop).max?.getD 0

end Link

/-- `_validate_link_disjoint`. -/
def validateLinkDisjoint (level : String) (link : Link) : Except String Unit :=
  match (link.sorted.zip link.sorted.tail).find? fun x => decide (x.2.beg < x.1.stop) with
  | none => .ok ()
  | some (a, b) => .error (s!"link records on level '{level}' overlap: record {a.index} covers " ++
      s!"base rows [{a.beg}:{a.stop}] but record {b.index} starts at {b.beg}; the link grammar " ++
      "requires disjoint record ranges")

section Refusals
variable (link : Link)

def belowBase (r : LinkRecord) : Option String :=
  if r.beg < 0 then
    some s!"index_beg_arr[{r.index}]={r.start} is less than index_base={link.indexBase}"
  else none

def segmentPastEnd (n : Nat) (r : LinkRecord) : Option String :=
  if (n : Int) < r.stop then
    some (s!"segment {r.index} range [{r.beg}:{r.stop}] exceeds base size {n}; " ++
      "the segment-level variable's link does not tile the read's base extent")
  else none

end Refusals

section Paint
variable {α : Type u} {β : Type v}

/-- `out[beg : beg + cnt] = [f 0, f 1, ...]`. -/
def paint (out : List β) (beg cnt : Nat) (f : Nat → β) : List β :=
  out.mapIdx fun i x => if beg ≤ i ∧ i < beg + cnt then f (i - beg) else x

/-- The paint loops: records in order, the empty ones skipped, each checked and then painted
over its rows. -/
def paintRecords (refuse : LinkRecord → Option String) (value : α → Nat → β)
    (rs : List (LinkRecord × α)) (out : List β) : Except String (List β) :=
  rs.foldlM (fun out x =>
    if x.1.cnt = 0 then .ok out
    else match refuse x.1 with
      | some e => .error e
      | none => .ok (paint out x.1.beg.toNat x.1.cnt (value x.2))) out

/-- `_expand_mask_to_base`. -/
def expandMaskToBase (coarseMask : List Bool) (link : Link) (n : Nat) : Except String (List Bool) :=
  paintRecords (belowBase link) (fun _ _ => true) ((link.records.zip coarseMask).filter Prod.snd)
    (List.replicate n false)

/-- `_broadcast_segment_to_base`. `fill` is the dtype's missing value. -/
def broadcastSegmentToBase (fill : β) (segValues : List β) (link : Link) (n : Nat) :
    Except String (List β) :=
  paintRecords (fun r => (belowBase link r).or (segmentPastEnd n r)) (fun v _ => v)
    (link.records.zip segValues) (List.replicate n fill)

end Paint

section AtRows
variable {β : Type v}

/-- `_link_parent_at_rows`: the last record that starts at or before the row, if it reaches it. -/
def linkParentAtRows (link : Link) (rows : List Nat) : List (Option Nat) :=
  rows.map fun (row : Nat) =>
    let pos := (link.sorted.map LinkRecord.beg).findIdx fun b => decide ((row : Int) < b)
    if pos = 0 then none
    else (link.sorted[pos - 1]?).bind fun r =>
      if (row : Int) < r.stop then some r.index else none

/-- `values[where(valid, parent, 0)]`, and `fill` where there is no parent. -/
def gatherSegmentAtParents (fill : β) (segValues : List β) (parents : List (Option Nat)) :
    Except String (List β) :=
  parents.mapM fun parent =>
    match segValues[parent.getD 0]? with
    | none => .error (s!"index {parent.getD 0} is out of bounds for axis 0 with size " ++
        s!"{segValues.length}")
    | some v => .ok (if parent.isSome then v else fill)

/-- `_expand_mask_at_rows`. -/
def expandMaskAtRows (coarseMask : List Bool) (link : Link) (rows : List Nat) :
    Except String (List Bool) :=
  match ((link.records.zip coarseMask).filter Prod.snd).findSome? fun x =>
      if x.1.cnt = 0 then none else belowBase link x.1 with
  | some e => .error e
  | none => gatherSegmentAtParents false coarseMask (linkParentAtRows link rows)

/-- `_gather_segment_at_rows`. -/
def gatherSegmentAtRows (fill : β) (segValues : List β) (link : Link) (n : Nat) (rows : List Nat) :
    Except String (List β) :=
  match link.nonempty.findSome? (belowBase link) with
  | some e => .error e
  | none =>
    match link.nonempty.findSome? (segmentPastEnd n) with
    | some e => .error e
    | none => gatherSegmentAtParents fill segValues (linkParentAtRows link rows)

end AtRows
end Zagg.Processing
