import Mathlib.Data.List.DropRight
import Mathlib.Data.Nat.Digits.Defs
import Zagg.Lib.BlockArray
import Zagg.Lib.Pointwise
import Zagg.Spill.Block

/-!
# Ragged cells

A cell of a ragged field is stored as the little-endian bytes of its payload, and its companion
channels as words in sibling arrays. A chunk's entry lists payloads beside the cells they belong
to; the channels follow in the third and the fourth slot.
-/
namespace Zagg.Processing.Write

open Zagg.Lib
open Zagg.Spill (readInto readInto_encode)
open BoxIndex (Inside size ravel unravel)

abbrev Bytes := List UInt8

abbrev Name := List Char

theorem lawfulName : LawfulBEq Name := inferInstance

attribute [local instance] lawfulName

inductive WriteError where
  | rowCount (expected got : Nat)
  | reshape (size got : Nat)
  | trailingChunk (name : Name) (chunk trailing : List Nat)
  | blockShape (name : Name)
  | notChunkUniform (name : Name)
  | noRows (name : Name)
  | valuesAndCells (values cells : Nat)
  | channelLength (label : String) (channel values : Nat)
  | wordShape (label : String) (cell : Int) (name : Name) (shape : List Nat) (rows : Nat)
  | companionChannel (name : Name) (label : String)
  | doesNotTile (name : Name) (size : Nat) (innerShape : List Nat)
  | zeroDivision
  | unravelIndex (cell : Int)

/-- An array: its shape, and its elements row by row. -/
structure NdValues (ι : Type) where
  shape : List Nat
  items : List ι
  sized : items.length = shape.prod

/-- The values of a dtype in little-endian bytes. -/
structure Element (ι : Type) where
  itemsize : Nat
  Holds : ι → Prop
  encode : ι → Bytes
  decode : Bytes → ι
  itemsize_pos : 0 < itemsize
  length_encode : ∀ x, (encode x).length = itemsize
  decode_encode : ∀ x, Holds x → decode (encode x) = x

section Words

def wordBytes : Nat → Nat → Bytes
  | 0, _ => []
  | k + 1, n => UInt8.ofNat n :: wordBytes k (n / 256)

theorem length_wordBytes (k n : Nat) : (wordBytes k n).length = k := by
  induction k generalizing n with
  | zero => rfl
  | succ k ih => rw [wordBytes, List.length_cons, ih]

def bytesWord (bytes : Bytes) : Nat := Nat.ofDigits 256 (bytes.map UInt8.toNat)

theorem bytesWord_wordBytes (k n : Nat) : bytesWord (wordBytes k n) = n % 256 ^ k := by
  induction k generalizing n with
  | zero => rw [Nat.pow_zero, Nat.mod_one]; rfl
  | succ k ih =>
    have hrest : Nat.ofDigits 256 ((wordBytes k (n / 256)).map UInt8.toNat) = n / 256 % 256 ^ k := ih _
    have hbyte : (UInt8.ofNat n).toNat = n % 256 := UInt8.toNat_ofNat'
    rw [bytesWord, wordBytes, List.map_cons, Nat.ofDigits_cons, hrest, hbyte, Nat.pow_succ,
      Nat.mul_comm (256 ^ k), Nat.mod_mul]

def uint64 : Element Nat where
  itemsize := 8
  Holds n := n < 2 ^ 64
  encode := wordBytes 8
  decode := bytesWord
  itemsize_pos := by decide
  length_encode := length_wordBytes 8
  decode_encode n h := (bytesWord_wordBytes 8 n).trans (Nat.mod_eq_of_lt h)

end Words

/-- A ragged field's declared element. -/
structure RaggedSig (ι : Type) where
  innerShape : List Nat
  element : Element ι

def wordSig : RaggedSig Nat := ⟨[], uint64⟩

/-- The words of a channel, cell by cell. -/
abbrev Channel := List (Option (NdValues Nat))

/-- A ragged field's entry in the sink of a chunk. -/
inductive RaggedEntry (ι : Type) where
  | pair (values : List (NdValues ι)) (cellIds : List Int)
  | triple (values : List (NdValues ι)) (cellIds : List Int) (locations : Option Channel)
  | quad (values : List (NdValues ι)) (cellIds : List Int) (locations times : Option Channel)

structure RaggedParts (ι : Type) where
  values : List (NdValues ι)
  cellIds : List Int
  locations : Option Channel
  times : Option Channel

def raggedEntry {ι : Type} : RaggedEntry ι → RaggedParts ι
  | .quad values cellIds locations times => ⟨values, cellIds, locations, times⟩
  | .triple values cellIds locations => ⟨values, cellIds, locations, none⟩
  | .pair values cellIds => ⟨values, cellIds, none, none⟩

def raggedLocationsName (field : Name) : Name := field ++ "_locations".toList

def raggedTimesName (field : Name) : Name := field ++ "_times".toList

def raggedChannels : List String := ["locations", "times"]

/-- `_channel_entry`: the slots of the channels, up to the last declared one. -/
def channelEntry (channels : List (String × Channel)) : List (Option Channel) :=
  (raggedChannels.map fun label => channels.lookup label).rdropWhile Option.isNone

/-- `(values, cell_ids, *slots)`. -/
def sinkEntry {ι : Type} (values : List (NdValues ι)) (cellIds : List Int) : List (Option Channel) → RaggedEntry ι
  | [] => .pair values cellIds
  | [locations] => .triple values cellIds locations
  | locations :: times :: _ => .quad values cellIds locations times

/-- Each channel comes back from the slot it went to. -/
theorem raggedEntry_sinkEntry {ι : Type} (values : List (NdValues ι)) (cellIds : List Int)
    (channels : List (String × Channel)) : raggedEntry (sinkEntry values cellIds (channelEntry channels)) =
      ⟨values, cellIds, channels.lookup "locations", channels.lookup "times"⟩ := by
  rw [channelEntry, raggedChannels, List.map_cons, List.map_singleton]
  generalize channels.lookup "locations" = locations
  generalize channels.lookup "times" = times
  cases locations <;> cases times <;> rfl

section Slabs
variable {P ι : Type} [BoxIndex P] [DecidableEq P]

def noBytes : Name → Bytes := fun _ => []

def raggedPayloadBytes {ι : Type} (name : Name) (value : NdValues ι) (sig : RaggedSig ι) :
    Except WriteError Bytes :=
  let width := sig.innerShape.prod
  if width = 0 then .error .zeroDivision
  else if value.items.length % width ≠ 0 then
    .error (.doesNotTile name value.items.length sig.innerShape)
  else .ok (value.items.flatMap sig.element.encode)

/-- `np.unravel_index`. -/
def unravelIndex (shape : P) (cell : Int) : Except WriteError P :=
  if 0 ≤ cell ∧ cell < size shape then .ok (unravel shape cell.toNat) else .error (.unravelIndex cell)

/-- A companion channel and the sibling array it is stored in. -/
structure Companion where
  label : String
  sibling : Name
  channel : Channel

/-- The channels an entry carries. -/
def channelsOf (name : Name) (parts : RaggedParts ι) : List Companion :=
  (parts.locations.map fun c => ⟨"locations", raggedLocationsName name, c⟩).toList ++
    (parts.times.map fun c => ⟨"times", raggedTimesName name, c⟩).toList

def checkChannel (values : Nat) (c : Companion) : Except WriteError Companion :=
  if c.channel.length ≠ values then .error (.channelLength c.label c.channel.length values) else .ok c

/-- What a row leaves in a sibling; nothing when the cell has no words. -/
def companionBytes (name : Name) (sig : RaggedSig ι) (cell : Int) (value : NdValues ι) (row : Nat)
    (c : Companion) : Except WriteError (Option Bytes) :=
  match c.channel.getD row none with
  | none => .ok none
  | some words =>
    let nRows := value.items.length / sig.innerShape.prod
    if words.shape ≠ [nRows] then .error (.wordShape c.label cell name words.shape nRows)
    else if nRows = 0 then .ok none
    else (raggedPayloadBytes c.sibling words wordSig).map some

variable (shape : P) (sigOf : Name → RaggedSig ι) (chunkRes : List Name)

def writeCompanion (start : P) (name : Name) (row : (Int × NdValues ι) × Nat) (pos : P)
    (slabs : Slabs Name P Bytes) (c : Companion) : Except WriteError (Slabs Name P Bytes) :=
  (companionBytes name (sigOf name) row.1.1 row.1.2 row.2 c).map fun bytes =>
    bytes.elim slabs fun bytes => editSlab noBytes c.sibling [(start + pos, bytes)] slabs

/-- One row of an entry, in slabs where the chunk starts at `start`. -/
def writeRow (start : P) (name : Name) (companions : List Companion) (slabs : Slabs Name P Bytes)
    (row : (Int × NdValues ι) × Nat) : Except WriteError (Slabs Name P Bytes) :=
  (raggedPayloadBytes name row.1.2 (sigOf name)).bind fun payload =>
    (unravelIndex shape row.1.1).bind fun pos =>
      (companions.foldlM (writeCompanion sigOf start name row pos) slabs).map fun slabs =>
        if payload = [] then slabs else editSlab noBytes name [(start + pos, payload)] slabs

def accumulateEntry (start : P) (slabs : Slabs Name P Bytes) (e : Name × RaggedEntry ι) :
    Except WriteError (Slabs Name P Bytes) :=
  if e.1 ∈ chunkRes then .ok slabs
  else
    let parts := raggedEntry e.2
    if parts.values.length ≠ parts.cellIds.length then
      .error (.valuesAndCells parts.values.length parts.cellIds.length)
    else
      ((channelsOf e.1 parts).mapM (checkChannel parts.values.length)).bind fun companions =>
        (parts.cellIds.zip parts.values).zipIdx.foldlM (writeRow shape sigOf start e.1 companions)
          (companions.foldl (fun slabs c => editSlab noBytes c.sibling [] slabs)
            (editSlab noBytes e.1 [] slabs))

def accumulateRaggedSlabs (start : P) (ragged : List (Name × RaggedEntry ι)) (slabs : Slabs Name P Bytes) :
    Except WriteError (Slabs Name P Bytes) :=
  ragged.foldlM (accumulateEntry shape sigOf chunkRes start) slabs

def companionWrites (name : Name) (row : (Int × NdValues ι) × Nat) (pos : P) (c : Companion) :
    Except WriteError (List ((Name × P) × Bytes)) :=
  (companionBytes name (sigOf name) row.1.1 row.1.2 row.2 c).map fun bytes =>
    bytes.toList.map fun bytes => ((c.sibling, pos), bytes)

/-- The assignments of a row, in the chunk's own array. -/
def rowWrites (name : Name) (companions : List Companion) (row : (Int × NdValues ι) × Nat) :
    Except WriteError (List ((Name × P) × Bytes)) :=
  (raggedPayloadBytes name row.1.2 (sigOf name)).bind fun payload =>
    (unravelIndex shape row.1.1).bind fun pos =>
      (companions.mapM (companionWrites sigOf name row pos)).map fun found =>
        found.flatten ++ if payload = [] then [] else [((name, pos), payload)]

def entryWrites (e : Name × RaggedEntry ι) : Except WriteError (List ((Name × P) × Bytes)) :=
  if e.1 ∈ chunkRes then .ok []
  else
    let parts := raggedEntry e.2
    if parts.values.length ≠ parts.cellIds.length then
      .error (.valuesAndCells parts.values.length parts.cellIds.length)
    else
      ((channelsOf e.1 parts).mapM (checkChannel parts.values.length)).bind fun companions =>
        ((parts.cellIds.zip parts.values).zipIdx.mapM (rowWrites shape sigOf e.1 companions)).map
          List.flatten

/-- The assignments of a chunk's ragged cells. -/
def raggedWrites (ragged : List (Name × RaggedEntry ι)) : Except WriteError (List ((Name × P) × Bytes)) :=
  (ragged.mapM (entryWrites shape sigOf chunkRes)).map List.flatten

end Slabs

theorem map_ok {ε α β : Type} {x : Except ε α} {f : α → β} {b : β} (h : x.map f = .ok b) :
    ∃ a, x = .ok a ∧ f a = b := by
  cases x with
  | error e => cases h
  | ok a => exact ⟨a, rfl, Except.ok.inj h⟩

section Assigns
variable {P ι α : Type} [DecidableEq P]

theorem slabsAt_ensure (name : Name) (slabs : Slabs Name P Bytes) :
    slabsAt noBytes (editSlab noBytes name [] slabs) = slabsAt noBytes slabs := slabsAt_edit ..

theorem slabsAt_ensureAll (companions : List Companion) (slabs : Slabs Name P Bytes) :
    slabsAt noBytes (companions.foldl (fun slabs c => editSlab noBytes c.sibling [] slabs) slabs) =
      slabsAt noBytes slabs := by
  induction companions generalizing slabs with
  | nil => rfl
  | cons c companions ih => rw [List.foldl_cons, ih, slabsAt_ensure]

theorem slabsAt_cell (name : Name) (p : P) (bytes : Bytes) (slabs : Slabs Name P Bytes) :
    slabsAt noBytes (editSlab noBytes name [(p, bytes)] slabs) =
      Function.update (slabsAt noBytes slabs) (name, p) bytes := slabsAt_edit ..

variable [BoxIndex P]

/-- The step only assigns, and `found` is what, in an array of the chunk's own. -/
def Assigns (start : P) (step : Slabs Name P Bytes → Except WriteError (Slabs Name P Bytes))
    (found : Except WriteError (List ((Name × P) × Bytes))) : Prop :=
  ∀ slabs, (step slabs).map (slabsAt noBytes) =
    found.map fun ws => assignAll (shifted start ws) (slabsAt noBytes slabs)

theorem assigns_foldlM {start : P} {step : Slabs Name P Bytes → α → Except WriteError (Slabs Name P Bytes)}
    {found : α → Except WriteError (List ((Name × P) × Bytes))} {l : List α}
    (h : ∀ x ∈ l, Assigns start (fun slabs => step slabs x) (found x)) :
    Assigns start (fun slabs => l.foldlM step slabs) ((l.mapM found).map List.flatten) :=
  fun slabs => foldlM_assigns (fun x hx slabs => h x hx slabs) slabs

variable (shape : P) (sigOf : Name → RaggedSig ι) (chunkRes : List Name)

theorem writeCompanion_assigns (start : P) (name : Name) (row : (Int × NdValues ι) × Nat) (pos : P)
    (c : Companion) : Assigns start (fun slabs => writeCompanion sigOf start name row pos slabs c)
      (companionWrites sigOf name row pos c) := by
  intro slabs
  dsimp only
  rw [writeCompanion, companionWrites]
  cases companionBytes name (sigOf name) row.1.1 row.1.2 row.2 c with
  | error e => rfl
  | ok bytes =>
    cases bytes with
    | none => rfl
    | some bytes => exact congrArg Except.ok (slabsAt_cell ..)

theorem writeRow_assigns (start : P) (name : Name) (companions : List Companion)
    (row : (Int × NdValues ι) × Nat) :
    Assigns start (fun slabs => writeRow shape sigOf start name companions slabs row)
      (rowWrites shape sigOf name companions row) := by
  intro slabs
  dsimp only
  rw [writeRow, rowWrites]
  cases raggedPayloadBytes name row.1.2 (sigOf name) with
  | error e => rfl
  | ok payload =>
    cases unravelIndex shape row.1.1 with
    | error e => rfl
    | ok pos =>
      have hcompanions : (companions.foldlM (writeCompanion sigOf start name row pos) slabs).map
          (slabsAt noBytes) = ((companions.mapM (companionWrites sigOf name row pos)).map List.flatten).map
            fun ws => assignAll (shifted start ws) (slabsAt noBytes slabs) :=
        assigns_foldlM (fun c _ => writeCompanion_assigns sigOf start name row pos c) slabs
      show ((companions.foldlM (writeCompanion sigOf start name row pos) slabs).map _).map _ =
        ((companions.mapM (companionWrites sigOf name row pos)).map _).map _
      rcases eq_of_map_eq hcompanions with ⟨e, hfold, hfound⟩ | ⟨slabs', ws, hfold, hfound, hview⟩
      · rw [hfold]
        cases hmap : companions.mapM (companionWrites sigOf name row pos) with
        | error e' =>
          rw [hmap] at hfound
          exact (congrArg Except.error (Except.error.inj hfound)).symm
        | ok found =>
          rw [hmap] at hfound
          cases hfound
      · obtain ⟨found, hmap, hflat⟩ := map_ok hfound
        rw [hfold, hmap]
        apply congrArg Except.ok
        show slabsAt noBytes (if payload = [] then slabs' else _) = _
        dsimp only
        by_cases hpayload : payload = []
        · rw [if_pos hpayload, if_pos hpayload, List.append_nil, hview, hflat]
        · rw [if_neg hpayload, if_neg hpayload, shifted, List.map_append, assignAll_append, slabsAt_cell,
            hview, hflat]
          rfl

theorem accumulateEntry_assigns (start : P) (e : Name × RaggedEntry ι) :
    Assigns start (fun slabs => accumulateEntry shape sigOf chunkRes start slabs e)
      (entryWrites shape sigOf chunkRes e) := by
  intro slabs
  dsimp only
  rw [accumulateEntry, entryWrites]
  by_cases hres : e.1 ∈ chunkRes
  · rw [if_pos hres, if_pos hres]
    rfl
  · rw [if_neg hres, if_neg hres]
    dsimp only
    by_cases hlen : (raggedEntry e.2).values.length ≠ (raggedEntry e.2).cellIds.length
    · rw [if_pos hlen, if_pos hlen]
      rfl
    · rw [if_neg hlen, if_neg hlen]
      cases (channelsOf e.1 (raggedEntry e.2)).mapM (checkChannel (raggedEntry e.2).values.length) with
      | error err => rfl
      | ok companions =>
        have hrows := assigns_foldlM (fun row (_ : row ∈ ((raggedEntry e.2).cellIds.zip
          (raggedEntry e.2).values).zipIdx) => writeRow_assigns shape sigOf start e.1 companions row)
          (companions.foldl (fun slabs c => editSlab noBytes c.sibling [] slabs) (editSlab noBytes e.1 [] slabs))
        rw [slabsAt_ensureAll, slabsAt_ensure] at hrows
        exact hrows

/-- The slabs of a chunk hold what its ragged entries assign. -/
theorem accumulateRaggedSlabs_assigns (start : P) (ragged : List (Name × RaggedEntry ι)) :
    Assigns start (accumulateRaggedSlabs shape sigOf chunkRes start ragged)
      (raggedWrites shape sigOf chunkRes ragged) :=
  assigns_foldlM fun e _ => accumulateEntry_assigns shape sigOf chunkRes start e

end Assigns

end Zagg.Processing.Write
