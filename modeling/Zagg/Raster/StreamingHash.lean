import Mathlib.Data.List.Range
import Mathlib.Logic.Function.Basic
import Mathlib.Tactic.Common
import Zagg.Lib.Pointwise

/-!
# The row-by-row content hash

`StreamingArrayHash` digests a `(time, cells)` array from the rows written to it, in
any order. `Tracks` says which rows a running digest has consumed; a digest that
is still valid at the end is the hash of the array those rows make, the missing
ones read as fill (`finalize_eq_hashArray`).
-/
namespace Zagg.Raster

open Zagg.Lib

/-- What `_invalidate` records. -/
inductive InvalidReason
  | shape (index : Nat)
  | outside (index : Nat)
  | twice (index : Nat)
  | parking
  deriving DecidableEq, Repr

/-- `content_hash.StreamingArrayHash`. A row is its cells, the dtype being `γ`; `digest`
is what the running sha256 has been fed. -/
structure StreamingArrayHash (γ : Type) where
  rows : Nat
  rowShape : Nat
  fillValue : Option γ
  invalidReason : Option InvalidReason := none
  digest : List UInt8 := []
  next : Nat := 0
  pending : Nat → Option (List γ) := fun _ => none
  pendingBytes : Nat := 0

variable {γ η : Type} (bytes : γ → List UInt8) (sha256 : List UInt8 → η) (maxPending : Nat)

/-- `_row_bytes`: little-endian cells in C order. -/
def rowBytes (row : List γ) : List UInt8 := row.flatMap bytes

/-- `hash_array` of a fixed-width array. -/
def hashArray (arr : List (List γ)) : η := sha256 (arr.flatMap (rowBytes bytes))

namespace StreamingArrayHash

def invalidate (s : StreamingArrayHash γ) (reason : InvalidReason) : StreamingArrayHash γ :=
  { s with
    invalidReason := s.invalidReason.or (some reason)
    pending := fun _ => none
    pendingBytes := 0 }

/-- Hash the row the digest waits for. -/
def consume (s : StreamingArrayHash γ) (row : List γ) : StreamingArrayHash γ :=
  { s with digest := s.digest ++ rowBytes bytes row, next := s.next + 1 }

/-- The `while` loop that drains parked rows; at most `rows` of them are parked. -/
def drain : Nat → StreamingArrayHash γ → StreamingArrayHash γ
  | 0, s => s
  | fuel + 1, s =>
    match s.pending s.next with
    | none => s
    | some row =>
      drain fuel (consume bytes
        { s with
          pending := Function.update s.pending s.next none
          pendingBytes := s.pendingBytes - (rowBytes bytes row).length } row)

/-- A row that came before its turn waits, within the parking budget. -/
def park (s : StreamingArrayHash γ) (index : Nat) (values : List γ) : StreamingArrayHash γ :=
  if maxPending < s.pendingBytes + (rowBytes bytes values).length then s.invalidate .parking
  else
    { s with
      pending := Function.update s.pending index (some values)
      pendingBytes := s.pendingBytes + (rowBytes bytes values).length }

def update (s : StreamingArrayHash γ) (index : Nat) (values : List γ) : StreamingArrayHash γ :=
  if s.invalidReason.isSome then s
  else if values.length != s.rowShape then s.invalidate (.shape index)
  else if s.rows ≤ index then s.invalidate (.outside index)
  else if index < s.next ∨ (s.pending index).isSome then s.invalidate (.twice index)
  else if s.next < index then park bytes maxPending s index values
  else drain bytes s.rows (consume bytes s values)

/-- The bytes `finalize` takes for a row the digest has not reached. -/
def finalizeRow (s : StreamingArrayHash γ) (index : Nat) : Option (List UInt8) :=
  match s.pending index with
  | some row => some (rowBytes bytes row)
  | none => s.fillValue.map fun f => rowBytes bytes (List.replicate s.rowShape f)

def finalize (s : StreamingArrayHash γ) : Option η :=
  if s.invalidReason.isSome then none
  else ((List.range' s.next (s.rows - s.next)).mapM (finalizeRow bytes s)).map
    fun rest => sha256 (s.digest ++ rest.flatten)

/-- The digest has been fed exactly the rows of `fed`. -/
structure Tracks (s : StreamingArrayHash γ) (fed : Nat → Option (List γ)) : Prop where
  next_le : s.next ≤ s.rows
  fed_lt : ∀ {i v}, fed i = some v → i < s.rows
  done : ∀ i < s.next, (fed i).isSome
  digest : s.digest = (List.range s.next).flatMap fun i => rowBytes bytes ((fed i).getD [])
  parked : ∀ i, s.next ≤ i → s.pending i = fed i

variable {bytes sha256 maxPending} {s : StreamingArrayHash γ} {fed fed' : Nat → Option (List γ)}

/-- A fresh accumulator has been fed nothing. -/
theorem tracks_fresh (rows rowShape : Nat) (fillValue : Option γ) :
    Tracks bytes ⟨rows, rowShape, fillValue, none, [], 0, fun _ => none, 0⟩ fun _ => none where
  next_le := Nat.zero_le _
  fed_lt h := nomatch h
  done i hi := absurd hi (Nat.not_lt_zero i)
  digest := rfl
  parked _ _ := rfl

/-- Consuming the next row, whatever is parked above it. -/
theorem Tracks.consume {row : List γ} (h : Tracks bytes s fed) (hlt : s.next < s.rows)
    (hrow : fed' s.next = some row) (hfed : ∀ i, i ≠ s.next → fed' i = fed i)
    (pending : Nat → Option (List γ)) (hp : ∀ i, s.next < i → pending i = s.pending i)
    (pendingBytes : Nat) :
    Tracks bytes (StreamingArrayHash.consume bytes { s with pending, pendingBytes } row) fed' where
  next_le := hlt
  fed_lt := by
    intro i v hi
    by_cases hn : i = s.next
    · exact hn ▸ hlt
    · exact h.fed_lt (hfed i hn ▸ hi)
  done := by
    intro i hi
    by_cases hn : i = s.next
    · rw [hn, hrow]; rfl
    · have hi' : i < s.next + 1 := hi
      rw [hfed i hn]
      exact h.done i (by omega)
  digest := by
    show s.digest ++ rowBytes bytes row = (List.range (s.next + 1)).flatMap _
    rw [List.range_succ, List.flatMap_append, h.digest, List.flatMap_singleton, hrow]
    congr 1
    refine List.flatMap_congr fun i hi => ?_
    have hi := List.mem_range.mp hi
    rw [hfed i (by omega)]
  parked := by
    intro i hi
    have hi' : s.next + 1 ≤ i := hi
    show pending i = fed' i
    rw [hp i (by omega), hfed i (by omega)]
    exact h.parked i (by omega)

theorem Tracks.drain (n : Nat) (h : Tracks bytes s fed) :
    Tracks bytes (StreamingArrayHash.drain bytes n s) fed := by
  induction n generalizing s with
  | zero => exact h
  | succ n ih =>
    simp only [StreamingArrayHash.drain]
    cases hp : s.pending s.next with
    | none => exact h
    | some row =>
      have hrow : fed s.next = some row := (h.parked _ le_rfl).symm.trans hp
      refine ih (h.consume (h.fed_lt hrow) hrow (fun _ _ => rfl) _ (fun i hi => ?_) _)
      exact Function.update_of_ne (by omega) _ _

@[simp] theorem invalidate_invalidReason (reason : InvalidReason) :
    (s.invalidate reason).invalidReason.isSome = true := by
  unfold invalidate
  cases s.invalidReason <;> rfl

theorem drain_frame (n : Nat) :
    (drain bytes n s).rows = s.rows ∧ (drain bytes n s).rowShape = s.rowShape ∧
      (drain bytes n s).fillValue = s.fillValue ∧
      (drain bytes n s).invalidReason = s.invalidReason := by
  induction n generalizing s with
  | zero => exact ⟨rfl, rfl, rfl, rfl⟩
  | succ n ih =>
    simp only [drain]
    cases s.pending s.next with
    | none => exact ⟨rfl, rfl, rfl, rfl⟩
    | some row => exact ih

/-- Fuel `rows` drains the whole run of parked rows the new row unblocked. -/
theorem drain_stops (h : Tracks bytes s fed) {n : Nat} (hn : s.rows ≤ s.next + n) :
    (drain bytes n s).pending (drain bytes n s).next = none := by
  induction n generalizing s with
  | zero =>
    rw [drain, h.parked _ le_rfl]
    cases hf : fed s.next with
    | none => rfl
    | some v =>
      have := h.fed_lt hf
      omega
  | succ n ih =>
    simp only [drain]
    cases hp : s.pending s.next with
    | none => exact hp
    | some row =>
      have hrow : fed s.next = some row := (h.parked _ le_rfl).symm.trans hp
      refine ih (h.consume (h.fed_lt hrow) hrow (fun _ _ => rfl) _ (fun i hi => ?_) _) ?_
      · exact Function.update_of_ne (by omega) _ _
      · show s.rows ≤ s.next + 1 + n
        omega

/-- `update` keeps the declared extent and the fill, and never revives a digest. -/
theorem update_frame (index : Nat) (values : List γ) :
    (update bytes maxPending s index values).rows = s.rows ∧
      (update bytes maxPending s index values).rowShape = s.rowShape ∧
      (update bytes maxPending s index values).fillValue = s.fillValue := by
  unfold update
  split_ifs
  iterate 4 exact ⟨rfl, rfl, rfl⟩
  · unfold park
    split_ifs <;> exact ⟨rfl, rfl, rfl⟩
  · have hframe : (drain bytes s.rows (consume bytes s values)).rows = _ ∧ _ := drain_frame s.rows
    exact ⟨hframe.1, hframe.2.1, hframe.2.2.1⟩

theorem update_of_invalid {index : Nat} {values : List γ} (h : s.invalidReason.isSome = true) :
    update bytes maxPending s index values = s := by
  unfold update
  rw [if_pos h]

/-- A row that leaves the digest valid was new, in range and of the declared shape. -/
theorem Tracks.update {index : Nat} {values : List γ} (h : Tracks bytes s fed)
    (hv : (update bytes maxPending s index values).invalidReason = none) :
    Tracks bytes (update bytes maxPending s index values)
      (Function.update fed index (some values)) := by
  have key : ∀ {r : InvalidReason} {t : StreamingArrayHash γ},
      ¬ (t.invalidate r).invalidReason = none := by
    intro r t he
    have := invalidate_invalidReason (s := t) r
    rw [he] at this
    cases this
  unfold StreamingArrayHash.update at hv ⊢
  split_ifs at hv ⊢ with h1 h2 h3 h4 h5
  · rw [hv] at h1
    cases h1
  · exact absurd hv key
  · exact absurd hv key
  · exact absurd hv key
  · unfold park at hv ⊢
    split_ifs at hv ⊢ with h6
    · exact absurd hv key
    · refine ⟨h.next_le, ?_, ?_, ?_, ?_⟩
      · intro i v hi
        by_cases hn : i = index
        · rw [hn]; exact not_le.mp h3
        · rw [Function.update_of_ne hn] at hi
          exact h.fed_lt hi
      · intro i hi
        have hi' : i < s.next := hi
        rw [Function.update_of_ne (by omega)]
        exact h.done i hi'
      · show s.digest = _
        rw [h.digest]
        refine List.flatMap_congr fun i hi => ?_
        have hi := List.mem_range.mp hi
        rw [Function.update_of_ne (by omega)]
      · intro i hi
        show Function.update s.pending index (some values) i = _
        by_cases hn : i = index
        · rw [hn, Function.update_self, Function.update_self]
        · rw [Function.update_of_ne hn, Function.update_of_ne hn]
          exact h.parked i hi
  · push Not at h4 h5
    have he : index = s.next := le_antisymm h5 h4.1
    subst he
    refine Tracks.drain _ (h.consume (not_le.mp h3) (Function.update_self ..)
      (fun i hi => Function.update_of_ne hi _ _) s.pending (fun _ _ => rfl) s.pendingBytes)

/-- A digest that finalizes is the hash of the rows it was fed, with fill for the rest. -/
theorem finalize_eq {f : γ} {d : η} (h : Tracks bytes s fed) (hf : s.fillValue = some f)
    (hd : finalize bytes sha256 s = some d) :
    d = sha256 ((List.range s.rows).flatMap fun i =>
      rowBytes bytes ((fed i).getD (List.replicate s.rowShape f))) := by
  unfold finalize at hd
  split_ifs at hd
  have hrow : ∀ i, s.next ≤ i → finalizeRow bytes s i =
      some (rowBytes bytes ((fed i).getD (List.replicate s.rowShape f))) := by
    intro i hi
    unfold finalizeRow
    rw [h.parked i hi, hf]
    cases fed i <;> rfl
  have hrest : (List.range' s.next (s.rows - s.next)).mapM (finalizeRow bytes s) =
      some ((List.range' s.next (s.rows - s.next)).map fun i =>
        rowBytes bytes ((fed i).getD (List.replicate s.rowShape f))) := by
    exact mapM_some fun i hi => hrow i (List.mem_range'_1.mp hi).1
  rw [hrest] at hd
  rw [← Option.some.inj hd, h.digest]
  show sha256 (_ ++ (List.map _ _).flatten) = _
  rw [← List.flatMap_def]
  congr 1
  have hsplit : List.range s.rows = List.range s.next ++ List.range' s.next (s.rows - s.next) := by
    simpa only [List.range_eq_range', Nat.zero_add, Nat.add_sub_of_le h.next_le] using
      (List.range'_append_1 (s := 0) (m := s.next) (n := s.rows - s.next)).symm
  rw [hsplit, List.flatMap_append]
  congr 1
  refine List.flatMap_congr fun i hi => ?_
  have hi := List.mem_range.mp hi
  obtain ⟨v, hv⟩ := Option.isSome_iff_exists.mp (h.done i hi)
  rw [hv]
  rfl

theorem finalize_eq_hashArray {f : γ} {d : η} {arr : List (List γ)} (h : Tracks bytes s fed)
    (hf : s.fillValue = some f) (hl : arr.length = s.rows)
    (harr : ∀ i < s.rows, arr[i]? = some ((fed i).getD (List.replicate s.rowShape f)))
    (hd : finalize bytes sha256 s = some d) : d = hashArray bytes sha256 arr := by
  have he : arr = (List.range s.rows).map fun i =>
      (fed i).getD (List.replicate s.rowShape f) := by
    refine List.ext_getElem? fun i => ?_
    by_cases hi : i < s.rows
    · rw [harr i hi, List.getElem?_map, List.getElem?_range hi]
      rfl
    · rw [List.getElem?_eq_none (by omega), List.getElem?_eq_none (by simpa using hi)]
  rw [finalize_eq h hf hd, hashArray, he, List.flatMap_map]

end StreamingArrayHash
end Zagg.Raster
