import Mathlib.Data.Finset.Lattice.Fold
import Zagg.Lib.ReadProg
import Zagg.Column.Reader
import Zagg.Stage.Fields

/-!
# The stage fold

A stage worker folds one level of one node from its child columns. The children stand
in their dense rank order, one reader slot per window; a gather assigns each child's
member to its segment, a merge folds `factor` source cells into each output cell. The
reads are those of a `ReadProg`, so that a fold can run against columns that move.
-/
namespace Zagg.Stage

open Zagg.Lib Zagg.Stats

variable {χ V N : Type}

/-- One `_ColumnReader.read` call. -/
structure Query (χ N : Type) where
  reader : χ
  res : Nat
  key : ArrayKey N

abbrev Answer (V : Type) (q : Query χ N) : Type := Option (Slab V q.key)

abbrev Fold (χ V N β : Type) := ReadProg (Query χ N) (Answer V) β

def readArray (r : χ) (res : Nat) (k : ArrayKey N) : Fold χ V N (Option (Slab V k)) :=
  ReadProg.ask (⟨r, res, k⟩ : Query χ N)

/-- A child column as the constructor left it: read, absent, or not readable. -/
inductive Slot (χ : Type)
  | reader (r : χ)
  | missing
  | unreadable
deriving DecidableEq

/-- One slot per window. -/
abbrev Row (χ : Type) := List (Slot χ)

/-- The dense child range; `none` is a child no candidate leaf inhabits. -/
abbrev Rows (χ : Type) := List (Option (Row χ))

/-- A contributor refused while it was read: its child and window. -/
abbrev Broken := List (Nat × Nat)

structure SourceCounts where
  folded : Nat
  missing : Nat
  unreadable : Nat
deriving DecidableEq

def Slot.isReader : Slot χ → Bool
  | .reader _ => true
  | _ => false

def Slot.isMissing : Slot χ → Bool
  | .missing => true
  | _ => false

def Slot.reader? : Slot χ → Option χ
  | .reader r => some r
  | _ => none

/-- The reader of one window of a row, if there is one. -/
def slotReader (row : Option (Row χ)) (w : Nat) : Option χ :=
  (row.bind fun slots => slots[w]?).bind Slot.reader?

def sourceCounts (rows : Rows χ) (broken : Broken) : SourceCounts :=
  rows.zipIdx.foldl (fun n row =>
    match row.1 with
    | none => n
    | some slots =>
      if slots.zipIdx.any fun s => s.1.isReader && !broken.contains (row.2, s.2) then
        { n with folded := n.folded + 1 }
      else if slots.all Slot.isMissing then { n with missing := n.missing + 1 }
      else { n with unreadable := n.unreadable + 1 }) ⟨0, 0, 0⟩

/-- A payload with the words of its declared channels. -/
abbrev Group := Option (Nat → Digest) × List (Option (Nat → Words))

/-- `_companion_group`: the payload and every sibling, or nothing if only some are there. -/
def companionGroup (r : χ) (res : Nat) (name : N) (declared : List Channel) :
    Fold χ V N (Option Group) := do
  let payload : Option (Nat → Digest) ← readArray r res (.digest name)
  let siblings : List (Option (Nat → Words)) ←
    declared.mapM fun c => readArray r res (.sibling name c)
  let present := payload.isSome :: siblings.map Option.isSome
  if (!present.any id) || present.all id then return some (payload, siblings) else return none

section Gather
variable [DecidableEq N] [Inhabited V]

/-- Assign one validated group, or refuse every half of it. -/
def assignGroup (i span : Nat) (st : Slabs V N × Broken)
    (g : (N × List Channel) × Option Group) : Slabs V N × Broken :=
  match g.2 with
  | none => (st.1, st.2 ++ [(i, 0)])
  | some (payload, siblings) =>
    ((g.1.2.zip siblings).foldl (fun slabs c => slabs.assign (.sibling g.1.1 c.1) i span c.2)
      (st.1.assign (.digest g.1.1) i span payload), st.2)

/-- One child of a gather: every companion group is read before anything is assigned. -/
def gatherChild (fields : Fields V N) (res span i : Nat) (r : χ) (st : Slabs V N × Broken) :
    Fold χ V N (Slabs V N × Broken) := do
  let groups ← (fields.filter fun f => f.2.companions ≠ []).mapM fun f => do
    let g ← companionGroup r res f.1 f.2.companions
    return ((f.1, f.2.companions), g)
  let st := groups.foldl (assignGroup i span) st
  (fields.filter fun f => f.2.companions = []).foldlM (fun st f => do
    let values ← readArray r res (f.2.key f.1)
    return (st.1.assign (f.2.key f.1) i span values, st.2)) st

def gatherRow (fields : Fields V N) (res span : Nat) (st : Slabs V N × Broken)
    (row : Option (Row χ) × Nat) : Fold χ V N (Slabs V N × Broken) :=
  match slotReader row.1 0 with
  | some r => gatherChild fields res span row.2 r st
  | none => return st

/-- `_gather_slabs`: concatenate the child members at `res`. -/
def gatherSlabs (rows : Rows χ) (fields : Fields V N) (res span : Nat) :
    Fold χ V N (Slabs V N × SourceCounts) := do
  let st ← rows.zipIdx.foldlM (gatherRow fields res span) (emptySlabs fields, [])
  return (st.1, sourceCounts rows st.2)

end Gather

section Merge
variable [DecidableEq V]

def accumulateRow (res srcPerChild : Nat) (name : N) (w : Nat) (acc : Nat → V)
    (row : Option (Row χ) × Nat) : Fold χ V N (Nat → V) :=
  match slotReader row.1 w with
  | some r => do
    let values : Option (Nat → V) ← readArray r res (.exact name)
    return assignSegment row.2 srcPerChild values acc
  | none => return acc

/-- The dense source vector of one window. -/
def accumulate (rows : Rows χ) (res srcPerChild : Nat) (name : N) (fill : V) (w : Nat) :
    Fold χ V N (Nat → V) :=
  rows.zipIdx.foldlM (accumulateRow res srcPerChild name w) fun _ => fill

/-- The exact class: one dense fold a window, combined across windows. -/
def mergeExact (d : Dtype V) (law : Law) (fill : V) (rows : Rows χ)
    (res srcPerChild factor windows : Nat) (name : N) : Fold χ V N (Nat → V) := do
  let out ← (List.range windows).foldlM (fun out w => do
    let acc ← accumulate rows res srcPerChild name fill w
    let part := foldDense d law fill factor acc
    return some (match out with
      | none => part
      | some out => combineDense d law fill out part)) (none : Option (Nat → V))
  return out.getD fun _ => fill

/-- The digest class in progress: the open cells' digests and the closed cells. -/
structure OpenCells where
  pending : Nat → List Part
  out : Nat → Part

/-- `pending.setdefault(key, []).append(part)`. -/
def OpenCells.append (p : OpenCells) (key : Nat) (part : Part) : OpenCells :=
  { p with pending := Function.update p.pending key (p.pending key ++ [part]) }

/-- Add one child's non-empty payloads, each with its channels. -/
def OpenCells.add (p : OpenCells) (base factor srcPerChild : Nat) (slab : Nat → Digest)
    (siblings : List (Nat → Words)) : OpenCells :=
  (List.range srcPerChild).foldl (fun p pos =>
    if slab pos = [] then p
    else p.append ((base + pos) / factor) ⟨slab pos, siblings.map fun s => s pos⟩) p

/-- `_close` each of the cells. -/
def OpenCells.close (num : Numerics) (delta : Nat) (declared : List Channel) (p : OpenCells)
    (cells : List Nat) : Except String OpenCells :=
  cells.foldlM (fun p j => do
    let value ← foldDigests num delta declared (p.pending j)
    return ⟨Function.update p.pending j [], Function.update p.out j value⟩) p

/-- The open cells below `done`. -/
def OpenCells.below (p : OpenCells) (nOut done : Nat) : List Nat :=
  (List.range nOut).filter fun j => p.pending j ≠ [] ∧ j < done

/-- One contributor of the digest loop. -/
def mergeDigestSlot (res srcPerChild factor : Nat) (name : N) (declared : List Channel)
    (i : Nat) (st : OpenCells × Broken) (slot : Slot χ × Nat) :
    Fold χ V N (OpenCells × Broken) :=
  match slot.1.reader? with
  | some r => do
    match ← companionGroup r res name declared with
    | none => return (st.1, st.2 ++ [(i, slot.2)])
    | some (none, _) => return st
    | some (some slab, siblings) =>
      return (st.1.add (i * srcPerChild) factor srcPerChild slab
        (siblings.map fun s => s.getD fun _ => []), st.2)
  | none => return st

/-- One child of the digest loop; the cells it completes are closed. -/
def mergeDigestRow (num : Numerics) (delta : Nat) (declared : List Channel)
    (res srcPerChild factor nOut : Nat) (name : N) (st : OpenCells × Broken)
    (row : Option (Row χ) × Nat) : Fold χ V N (OpenCells × Broken) := do
  let st ← (row.1.getD []).zipIdx.foldlM
    (mergeDigestSlot res srcPerChild factor name declared row.2) st
  let done := (row.2 + 1) * srcPerChild / factor
  let p ← ReadProg.ofExcept (st.1.close num delta declared (st.1.below nOut done))
  return (p, st.2)

/-- The approximate class: cells wholly covered by the children so far are closed. -/
def mergeDigest (num : Numerics) (delta : Nat) (declared : List Channel) (rows : Rows χ)
    (res srcPerChild factor nOut : Nat) (name : N) (broken : Broken) :
    Fold χ V N ((Nat → Part) × Broken) := do
  let empty : OpenCells := ⟨fun _ => [], fun _ => ⟨[], declared.map fun _ => []⟩⟩
  let st ← rows.zipIdx.foldlM
    (mergeDigestRow num delta declared res srcPerChild factor nOut name) (empty, broken)
  let p ← ReadProg.ofExcept (st.1.close num delta declared (st.1.below nOut nOut))
  return (p.out, st.2)

/-- The packed class in progress. -/
structure Packing where
  parts : Nat → List (Word × Nat)
  poisoned : List Nat

/-- `parts_by_cell.setdefault(key, []).append(part)`. -/
def Packing.append (p : Packing) (key : Nat) (part : Word × Nat) : Packing :=
  { p with parts := Function.update p.parts key (p.parts key ++ [part]) }

/-- Add one child's words, each with its divisor's weight. -/
def Packing.add (p : Packing) (base factor srcPerChild : Nat) (words : Nat → Word)
    (of : Nat → Digest) : Packing :=
  (List.range srcPerChild).foldl (fun p pos =>
    let n := payloadWeight (of pos)
    if 0 < n then p.append ((base + pos) / factor) (words pos, n) else p) p

/-- Every output cell the child's span covers. -/
def coveredCells (base srcPerChild factor : Nat) : List Nat :=
  (List.range ((base + srcPerChild + factor - 1) / factor)).filter fun j => base / factor ≤ j

/-- One contributor of the packed loop: the word and its divisor's payload. -/
def mergePackedSlot (res srcPerChild factor : Nat) (name of : N) (i : Nat)
    (st : Packing × Broken) (slot : Slot χ × Nat) : Fold χ V N (Packing × Broken) :=
  match slot.1.reader? with
  | some r => do
    let words : Option (Nat → Word) ← readArray r res (.packed name)
    let ofValues : Option (Nat → Digest) ← readArray r res (.digest of)
    match words, ofValues with
    | some words, some ofValues =>
      return (st.1.add (i * srcPerChild) factor srcPerChild words ofValues, st.2)
    | none, some _ =>
      -- the divisor is folded above without this word: the cells keep the fill
      return ({ st.1 with poisoned :=
        st.1.poisoned ++ coveredCells (i * srcPerChild) srcPerChild factor },
        st.2 ++ [(i, slot.2)])
    | some _, none => return (st.1, st.2 ++ [(i, slot.2)])
    | none, none => return st
  | none => return st

def mergePackedRow (res srcPerChild factor : Nat) (name of : N) (st : Packing × Broken)
    (row : Option (Row χ) × Nat) : Fold χ V N (Packing × Broken) :=
  (row.1.getD []).zipIdx.foldlM (mergePackedSlot res srcPerChild factor name of row.2) st

def mergePacked (rows : Rows χ) (res srcPerChild factor : Nat) (name of : N) (broken : Broken) :
    Fold χ V N ((Nat → Word) × Broken) := do
  let st ← rows.zipIdx.foldlM (mergePackedRow res srcPerChild factor name of)
    (⟨fun _ => [], []⟩, broken)
  return (fun j => if st.1.poisoned.contains j then 0 else mergeCompositionKway (st.1.parts j),
    st.2)

variable [DecidableEq N] [Inhabited V]

/-- The number of windows of a row. -/
def windowsOf (rows : Rows χ) : Nat := ((rows.filterMap id).head?.map List.length).getD 1

/-- `slabs[name] = out` and the siblings' slabs beside it. -/
def setDigest (slabs : Slabs V N) (name : N) (declared : List Channel) (out : Nat → Part) :
    Slabs V N :=
  declared.foldl (fun slabs c => Function.update slabs (.sibling name c)
      fun j => (out j).words.getD (declared.idxOf c) [])
    (Function.update slabs (.digest name) fun j => (out j).digest)

def mergeExactField (rows : Rows χ) (resSrc srcPerChild factor : Nat) (slabs : Slabs V N)
    (f : N × FieldMeta V N) : Fold χ V N (Slabs V N) :=
  match f.2 with
  | .exact d law fill => do
    let out ← mergeExact d law fill rows resSrc srcPerChild factor (windowsOf rows) f.1
    return Function.update slabs (.exact f.1) out
  | _ => return slabs

def mergeDigestField (num : Numerics) (rows : Rows χ) (resSrc srcPerChild factor nOut : Nat)
    (st : Slabs V N × Broken) (f : N × FieldMeta V N) : Fold χ V N (Slabs V N × Broken) :=
  match f.2 with
  | .approximate delta _ _ => do
    let out ← mergeDigest num delta f.2.companions rows resSrc srcPerChild factor nOut f.1 st.2
    return (setDigest st.1 f.1 f.2.companions out.1, out.2)
  | _ => return st

def mergePackedField (rows : Rows χ) (resSrc srcPerChild factor : Nat)
    (st : Slabs V N × Broken) (f : N × FieldMeta V N) : Fold χ V N (Slabs V N × Broken) :=
  match f.2 with
  | .packed of => do
    let out ← mergePacked rows resSrc srcPerChild factor f.1 of st.2
    return (Function.update st.1 (.packed f.1) out.1, out.2)
  | _ => return st

/-- `_merge_slabs`: the k-way fold, class by class. -/
def mergeSlabs (num : Numerics) (rows : Rows χ) (fields : Fields V N)
    (resSrc srcPerChild factor nOut : Nat) : Fold χ V N (Slabs V N × SourceCounts) := do
  let slabs ← fields.foldlM (mergeExactField rows resSrc srcPerChild factor) (emptySlabs fields)
  let st ← fields.foldlM (mergeDigestField num rows resSrc srcPerChild factor nOut) (slabs, [])
  let st ← fields.foldlM (mergePackedField rows resSrc srcPerChild factor) st
  return (st.1, sourceCounts rows st.2)

end Merge

end Zagg.Stage
