import Mathlib.Data.List.Nodup
import Zagg.Content.ArrayHash

/-!
# What the digest of the rows hashes

A digest that was fed the writes is given up exactly when it cannot stand behind them. Otherwise
it hashes the written rows in little-endian order and the others as fill in the order of the
dtype; that is the hash of the array exactly when no such row is read differently in the two
orders.
-/
namespace Zagg.Content

open Zagg.Lib
open Zagg.Raster (rowAt parkedBytes rowBytes waits)
open Zagg.Raster.StreamingArrayHash (feed rowSize Settled Admits feed_settled settled_fresh)

section Bytes

theorem length_itemBytes {dtype : Dtype} {x : Item} (h : dtype.Holds x) :
    (itemBytes dtype x).length = dtype.itemsize := by
  have hsum : ∀ y : Item, y.length = dtype.units → (∀ word ∈ y, word.length = dtype.unit) →
      y.flatten.length = dtype.itemsize := by
    intro y hlen hword
    have hreplicate : y.map List.length = List.replicate dtype.units dtype.unit := by
      apply List.eq_replicate_iff.mpr
      refine ⟨(List.length_map _).trans hlen, fun b hb => ?_⟩
      obtain ⟨word, hmem, rfl⟩ := List.mem_map.mp hb
      exact hword word hmem
    rw [List.length_flatten, hreplicate, List.sum_replicate_nat, Dtype.itemsize]
  rw [itemBytes]
  split_ifs
  · apply hsum
    · rw [List.length_map, h.units]
    · intro word hword
      obtain ⟨word, hmem, rfl⟩ := List.mem_map.mp hword
      exact List.length_reverse.trans (h.unit word hmem)
  · exact hsum x h.units h.unit

/-- An array's canonical bytes are its elements' little-endian ones. -/
theorem tobytes_littleEndian (a : NdArray) :
    a.littleEndian.tobytes = rowBytes (itemBytes a.dtype) a.items := by
  rw [NdArray.littleEndian, rowBytes]
  unfold NdArray.tobytes
  by_cases hbig : a.dtype.order = .big
  · rw [if_pos hbig]
    show (a.items.map (List.map List.reverse)).flatMap List.flatten = _
    rw [List.flatMap_map]
    apply List.flatMap_congr
    intro x _
    rw [itemBytes, if_pos hbig]
  · rw [if_neg hbig]
    apply List.flatMap_congr
    intro x _
    rw [itemBytes, if_neg hbig]

theorem rowSize_items (a : NdArray) : rowSize (itemBytes a.dtype) a.items = a.nbytes := by
  have hreplicate : a.items.map (fun x => (itemBytes a.dtype x).length) =
      List.replicate a.items.length a.dtype.itemsize := by
    apply List.eq_replicate_iff.mpr
    refine ⟨List.length_map _, fun b hb => ?_⟩
    obtain ⟨x, hx, rfl⟩ := List.mem_map.mp hb
    exact length_itemBytes (a.held x hx)
  rw [rowSize, rowBytes, List.length_flatMap, hreplicate, List.sum_replicate_nat,
    NdArray.nbytes]

end Bytes

section Rows
variable {spec : ArraySpec} {budget : Nat} {ws : List (Int × NdArray)}

/-- The rows as the stream takes them. -/
def itemRows (ws : List (Int × NdArray)) : List (Nat × List Item) :=
  ws.map fun w => (w.1.toNat, w.2.items)

theorem rowAt_itemRows (ws : List (Int × NdArray)) (i : Nat) :
    rowAt (itemRows ws) i = (writtenRow ws i).map NdArray.items := by
  rw [writtenRow, rowAt, rowAt, itemRows, rowsOf, List.find?_map, List.find?_map, Option.map_map,
    Option.map_map, Option.map_map]
  rfl

theorem mem_of_writtenRow {i : Nat} {row : NdArray} (h : writtenRow ws i = some row) :
    ∃ w ∈ ws, w.2 = row := by
  obtain ⟨w, hw, rfl⟩ := Option.map_eq_some_iff.mp h
  obtain ⟨v, hv, rfl⟩ := List.mem_map.mp (List.mem_of_find?_eq_some hw)
  exact ⟨v, hv, rfl⟩

theorem parkedBytes_itemRows (htyped : ∀ w ∈ ws, w.2.dtype = spec.dtype) :
    parkedBytes (rowSize (itemBytes spec.dtype)) spec.rows (itemRows ws) =
      parkedBytes NdArray.nbytes spec.rows (rowsOf ws) := by
  have hwaits : ∀ i, waits (itemRows ws) i = waits (rowsOf ws) i := by
    intro i
    rw [waits, waits]
    congr 1
    funext j
    rw [rowAt_itemRows, Option.isNone_map]
    rfl
  rw [parkedBytes, parkedBytes]
  congr 1
  apply List.map_congr_left
  intro i _
  have hsize : ((rowAt (itemRows ws) i).map (rowSize (itemBytes spec.dtype))).getD 0 =
      ((rowAt (rowsOf ws) i).map NdArray.nbytes).getD 0 := by
    rw [rowAt_itemRows]
    show ((writtenRow ws i).map NdArray.items |>.map _).getD 0 = ((writtenRow ws i).map _).getD 0
    cases hrow : writtenRow ws i with
    | none => rfl
    | some row =>
      obtain ⟨w, hw, rfl⟩ := mem_of_writtenRow hrow
      show rowSize (itemBytes spec.dtype) w.2.items = w.2.nbytes
      rw [← htyped w hw, rowSize_items]
  rw [hwaits, hsize]

/-- The stream an array's digest starts with. -/
abbrev fresh (spec : ArraySpec) : Raster.StreamingArrayHash Item :=
  (StreamingArrayHash.init spec).stream

/-- Rows that pass the array's checks are accepted when the stream admits them. -/
theorem accepted_iff_admits (hnonneg : ∀ w ∈ ws, 0 ≤ w.1)
    (htyped : ∀ w ∈ ws, w.2.shape = spec.rowShape ∧ w.2.dtype = spec.dtype) :
    Accepted spec budget ws ↔ Admits (itemBytes spec.dtype) budget (fresh spec) (itemRows ws) := by
  have hbefore : ∀ p, p <+: ws →
      parkedBytes (rowSize (itemBytes spec.dtype)) spec.rows (itemRows p) =
        parkedBytes NdArray.nbytes spec.rows (rowsOf p) := fun p hp =>
    parkedBytes_itemRows fun w hw => (htyped w (hp.subset hw)).2
  have hfst : (itemRows ws).map Prod.fst = (ws.map Prod.fst).map Int.toNat := by
    rw [itemRows, List.map_map, List.map_map]
    rfl
  constructor
  · intro h
    refine ⟨?_, ?_, ?_, fun p hp => ?_⟩
    · rw [hfst]
      apply List.Nodup.map_on _ h.once
      intro a ha b hb hab
      obtain ⟨w, hw, rfl⟩ := List.mem_map.mp ha
      obtain ⟨v, hv, rfl⟩ := List.mem_map.mp hb
      have hw' := hnonneg w hw
      have hv' := hnonneg v hv
      omega
    · intro v hv
      obtain ⟨w, hw, rfl⟩ := List.mem_map.mp hv
      have hw' := h.inside w hw
      show w.1.toNat < spec.rows
      omega
    · intro v hv
      obtain ⟨w, hw, rfl⟩ := List.mem_map.mp hv
      exact w.2.count.trans (congrArg List.prod (htyped w hw).1)
    · obtain ⟨q, hq, rfl⟩ := List.prefix_map_iff.mp hp
      exact (hbefore q hq).trans_le (h.parked q hq)
  · intro h
    refine ⟨?_, fun w hw => ?_, htyped, fun p hp => ?_⟩
    · have honce := h.once
      rw [hfst] at honce
      exact List.Nodup.of_map _ honce
    · have hin : w.1.toNat < spec.rows :=
        h.inside (w.1.toNat, w.2.items) (List.mem_map_of_mem hw)
      have hw' := hnonneg w hw
      omega
    · exact (hbefore p hp).symm.trans_le (h.parked _ (hp.map _))

theorem Accepted.init {w : Int × NdArray} (h : Accepted spec budget (ws ++ [w])) :
    Accepted spec budget ws where
  once := by
    have honce := h.once
    rw [List.map_append, List.nodup_append] at honce
    exact honce.1
  inside v hv := h.inside v (List.mem_append_left _ hv)
  typed v hv := h.typed v (List.mem_append_left _ hv)
  parked p hp := h.parked p (hp.trans (List.prefix_append ws [w]))

theorem after_concat (spec : ArraySpec) (budget : Nat) (ws : List (Int × NdArray))
    (w : Int × NdArray) : StreamingArrayHash.after spec budget (ws ++ [w]) =
      (StreamingArrayHash.after spec budget ws).update spec budget w.1 w.2 :=
  List.foldl_concat _ _ _ _

/-- A digest between two writes: all of them reached its stream, or it is given up. -/
theorem after_accepted (spec : ArraySpec) (budget : Nat) (ws : List (Int × NdArray)) :
    (Accepted spec budget ws ∧ StreamingArrayHash.after spec budget ws =
        ⟨none, feed (itemBytes spec.dtype) budget (fresh spec) (itemRows ws)⟩ ∧
      Settled (itemBytes spec.dtype)
        (feed (itemBytes spec.dtype) budget (fresh spec) (itemRows ws)) (itemRows ws)) ∨
    (¬Accepted spec budget ws ∧ (StreamingArrayHash.after spec budget ws).invalid = true) := by
  have hfeed : ∀ vs, (∀ w ∈ vs, 0 ≤ w.1) →
      (∀ w ∈ vs, w.2.shape = spec.rowShape ∧ w.2.dtype = spec.dtype) →
      (Accepted spec budget vs ∧ Settled (itemBytes spec.dtype)
        (feed (itemBytes spec.dtype) budget (fresh spec) (itemRows vs)) (itemRows vs)) ∨
      (¬Accepted spec budget vs ∧
        (feed (itemBytes spec.dtype) budget (fresh spec) (itemRows vs)).invalidReason.isSome) := by
    intro vs hnonneg htyped
    rw [accepted_iff_admits hnonneg htyped]
    exact feed_settled (settled_fresh _ _ _) (itemRows vs)
  induction ws using List.reverseRecOn with
  | nil =>
    rcases hfeed [] nofun nofun with ⟨haccepted, hsettled⟩ | ⟨-, hinvalid⟩
    · exact .inl ⟨haccepted, rfl, hsettled⟩
    · cases hinvalid
  | append_singleton ws w ih =>
    have hmem : w ∈ ws ++ [w] := List.mem_append_right _ (.head _)
    rw [after_concat]
    rcases ih with ⟨haccepted, hstate, hsettled⟩ | ⟨hbad, hinvalid⟩
    · have hvalid : (StreamingArrayHash.after spec budget ws).invalid = false := by
        rw [hstate, StreamingArrayHash.invalid, hsettled.valid]
        rfl
      rw [StreamingArrayHash.update, hvalid, if_neg Bool.false_ne_true]
      by_cases htyped : w.2.shape = spec.rowShape ∧ w.2.dtype = spec.dtype
      · rw [if_neg (fun h => h.elim (fun h => h htyped.1) fun h => h htyped.2)]
        by_cases hneg : w.1 < 0
        · rw [if_pos hneg]
          exact .inr ⟨fun h => absurd (h.inside w hmem).1 (not_le.mpr hneg), rfl⟩
        · have hstream : (StreamingArrayHash.after spec budget ws).stream.update
              (itemBytes spec.dtype) budget w.1.toNat w.2.items =
              feed (itemBytes spec.dtype) budget (fresh spec) (itemRows (ws ++ [w])) := by
            rw [hstate, itemRows, itemRows, List.map_append]
            exact (Raster.StreamingArrayHash.feed_concat _ _ (w.1.toNat, w.2.items)).symm
          have hnext := hfeed (ws ++ [w])
            (fun v hv => (List.mem_append.mp hv).elim (fun hv => (haccepted.inside v hv).1)
              fun hv => List.mem_singleton.mp hv ▸ not_lt.mp hneg)
            (fun v hv => (List.mem_append.mp hv).elim (fun hv => haccepted.typed v hv)
              fun hv => List.mem_singleton.mp hv ▸ htyped)
          rw [if_neg hneg, hstream]
          rcases hnext with ⟨haccepted', hsettled'⟩ | ⟨hbad, hinvalid⟩
          · rw [hstate]
            exact .inl ⟨haccepted', rfl, hsettled'⟩
          · refine .inr ⟨hbad, ?_⟩
            rw [StreamingArrayHash.invalid, hinvalid, Bool.or_true]
      · rw [if_pos (by rwa [← not_and_or])]
        exact .inr ⟨fun h => htyped (h.typed w hmem), rfl⟩
    · rw [StreamingArrayHash.update, hinvalid, if_pos rfl]
      exact .inr ⟨fun h => hbad h.init, hinvalid⟩

end Rows

section Digest
variable {η : Type} {sha256 : List UInt8 → η} {spec : ArraySpec} {budget : Nat}
  {ws : List (Int × NdArray)}

/-- The bytes the digest takes for a row: those of the written row, or the fill as it is stored. -/
def streamedBytes (spec : ArraySpec) (ws : List (Int × NdArray)) (i : Nat) : List UInt8 :=
  match writtenRow ws i with
  | some row => row.littleEndian.tobytes
  | none => (List.replicate spec.rowShape.prod (spec.fillValue.getD [])).flatMap List.flatten

theorem rowAt_typed (h : Accepted spec budget ws) {i : Nat} {row : NdArray}
    (hrow : writtenRow ws i = some row) :
    rowBytes (itemBytes spec.dtype) row.items = row.littleEndian.tobytes := by
  obtain ⟨w, hw, rfl⟩ := mem_of_writtenRow hrow
  rw [tobytes_littleEndian, (h.typed w hw).2]

/-- Writes the digest stands behind: it hashes every row. -/
theorem finalize_stands (h : Stands spec budget ws) :
    (StreamingArrayHash.after spec budget ws).finalize sha256 spec =
      some (sha256 ((List.range spec.rows).flatMap (streamedBytes spec ws))) := by
  rcases after_accepted spec budget ws with ⟨-, hstate, hsettled⟩ | ⟨hbad, -⟩
  · have hframe := Raster.StreamingArrayHash.feed_frame (itemBytes spec.dtype)
      budget (fresh spec) (itemRows ws)
    have hrows := hframe.1
    rw [hstate]
    generalize feed (itemBytes spec.dtype) budget (fresh spec) (itemRows ws) = s at hsettled hrows
    have hrows : s.rows = spec.rows := hrows
    have hle : s.next ≤ spec.rows := hrows ▸ hsettled.tracks.next_le
    have hbytes : ∀ i, (writtenRow ws i).isSome → rowBytes (itemBytes spec.dtype)
        ((rowAt (itemRows ws) i).getD []) = streamedBytes spec ws i := by
      intro i hi
      obtain ⟨row, hrow⟩ := Option.isSome_iff_exists.mp hi
      rw [rowAt_itemRows, hrow, streamedBytes, hrow]
      exact rowAt_typed h.toAccepted hrow
    have hdone : s.digest = (List.range s.next).flatMap (streamedBytes spec ws) := by
      rw [hsettled.tracks.digest]
      apply List.flatMap_congr
      intro i hi
      have hsome := hsettled.tracks.done i (List.mem_range.mp hi)
      rw [rowAt_itemRows, Option.isSome_map] at hsome
      exact hbytes i hsome
    have hrest : ∀ i ∈ List.range' s.next (spec.rows - s.next),
        StreamingArrayHash.finalizeRow spec ⟨none, s⟩ i = some (streamedBytes spec ws i) := by
      intro i hi
      have hi := List.mem_range'_1.mp hi
      have hparked := hsettled.tracks.parked i hi.1
      rw [rowAt_itemRows] at hparked
      rw [StreamingArrayHash.finalizeRow, hparked]
      cases hrow : writtenRow ws i with
      | some row =>
        rw [streamedBytes, hrow]
        exact congrArg some (rowAt_typed h.toAccepted hrow)
      | none =>
        rw [streamedBytes, hrow]
        cases hfill : spec.fillValue with
        | some f =>
          show (spec.fillValue.map _) = _
          rw [hfill]
          rfl
        | none =>
          have hsome := h.filled hfill i (by omega)
          rw [hrow] at hsome
          cases hsome
    have hvalid : StreamingArrayHash.invalid ⟨none, s⟩ = false := by
      rw [StreamingArrayHash.invalid, hsettled.valid]
      rfl
    have hsplit : List.range spec.rows =
        List.range s.next ++ List.range' s.next (spec.rows - s.next) := by
      simpa only [List.range_eq_range', Nat.zero_add, Nat.add_sub_of_le hle] using
        (List.range'_append_1 (s := 0) (m := s.next) (n := spec.rows - s.next)).symm
    rw [StreamingArrayHash.finalize, hvalid, if_neg Bool.false_ne_true, mapM_some hrest, hsplit,
      List.flatMap_append, ← hdone]
    rfl
  · exact absurd h.toAccepted hbad

variable (sha256 spec budget ws) in
/-- The digest is given up exactly when it cannot stand behind the writes. -/
theorem finalize_eq_none_iff :
    (StreamingArrayHash.after spec budget ws).finalize sha256 spec = none ↔
      ¬Stands spec budget ws := by
  constructor
  · intro hnone hstands
    rw [finalize_stands hstands] at hnone
    cases hnone
  · intro hbad
    rcases after_accepted spec budget ws with ⟨haccepted, hstate, hsettled⟩ | ⟨-, hinvalid⟩
    · have hgap : ∃ i < spec.rows, spec.fillValue = none ∧ writtenRow ws i = none := by
        by_contra hno
        push Not at hno
        refine hbad ⟨haccepted, fun hfill i hi => ?_⟩
        exact Option.isSome_iff_ne_none.mpr (hno i hi hfill)
      obtain ⟨i, hi, hfill, hrow⟩ := hgap
      have hframe := Raster.StreamingArrayHash.feed_frame (itemBytes spec.dtype)
        budget (fresh spec) (itemRows ws)
      have hrows := hframe.1
      rw [hstate]
      generalize feed (itemBytes spec.dtype) budget (fresh spec) (itemRows ws) = s at hsettled hrows
      have hunwritten : rowAt (itemRows ws) i = none := by rw [rowAt_itemRows, hrow]; rfl
      have hreached : s.next ≤ i := by
        by_contra hlt
        have hdone := hsettled.tracks.done i (by omega)
        rw [hunwritten] at hdone
        cases hdone
      have hfail : StreamingArrayHash.finalizeRow spec ⟨none, s⟩ i = none := by
        rw [StreamingArrayHash.finalizeRow, hsettled.tracks.parked i hreached, hunwritten]
        show spec.fillValue.map _ = none
        rw [hfill]
        rfl
      have hmap : (List.range' s.next (spec.rows - s.next)).mapM
          (StreamingArrayHash.finalizeRow spec ⟨none, s⟩) = none := by
        by_contra hsome
        obtain ⟨rest, hrest⟩ := Option.ne_none_iff_exists'.mp hsome
        obtain ⟨b, -, hb⟩ := forall₂_exists_of_mem_right (forall₂_of_mapM_some hrest).flip
          (List.mem_range'_1.mpr ⟨hreached, by omega⟩)
        rw [hfail] at hb
        cases hb
      rw [StreamingArrayHash.finalize, hmap]
      exact ite_self _
    · rw [StreamingArrayHash.finalize, hinvalid, if_pos rfl]

end Digest

section Array
variable {spec : ArraySpec} {budget : Nat} {ws : List (Int × NdArray)}

theorem flatMap_inj {α β : Type} {f g : α → List β} {l : List α}
    (hlen : ∀ x ∈ l, (f x).length = (g x).length) (h : l.flatMap f = l.flatMap g) :
    ∀ x ∈ l, f x = g x := by
  induction l with
  | nil => exact nofun
  | cons x l ih =>
    rw [List.flatMap_cons, List.flatMap_cons] at h
    obtain ⟨hx, hrest⟩ := List.append_inj h (hlen x (.head _))
    intro y hy
    rcases List.mem_cons.mp hy with rfl | hy
    · exact hx
    · exact ih (fun z hz => hlen z (.tail _ hz)) hrest y hy

theorem length_itemBytes_flatten (dtype : Dtype) (x : Item) :
    (itemBytes dtype x).length = x.flatten.length := by
  rw [itemBytes]
  split_ifs
  · rw [List.length_flatten, List.length_flatten, List.map_map]
    congr 1
    exact List.map_congr_left fun word _ => List.length_reverse
  · rfl

/-- The little-endian bytes of a row of the assembled array. -/
def canonicalRow (spec : ArraySpec) (ws : List (Int × NdArray)) (i : Nat) : List UInt8 :=
  rowBytes (itemBytes spec.dtype) (assembledRow spec ws i)

theorem tobytes_assembles {arr : NdArray} (h : Assembles spec ws arr) :
    arr.littleEndian.tobytes = (List.range spec.rows).flatMap (canonicalRow spec ws) := by
  rw [tobytes_littleEndian, h.dtype, h.items, rowBytes, List.flatMap_assoc]
  rfl

/-- The writes a digest stands behind make up an array. -/
theorem exists_assembles (h : Stands spec budget ws) : ∃ arr, Assembles spec ws arr := by
  have hrow : ∀ i < spec.rows, (assembledRow spec ws i).length = spec.rowShape.prod ∧
      ∀ x ∈ assembledRow spec ws i, spec.dtype.Holds x := by
    intro i hi
    rw [assembledRow]
    cases hrow : writtenRow ws i with
    | some row =>
      obtain ⟨w, hw, rfl⟩ := mem_of_writtenRow hrow
      obtain ⟨hshape, hdtype⟩ := h.typed w hw
      exact ⟨hshape ▸ w.2.count, hdtype ▸ w.2.held⟩
    | none =>
      refine ⟨List.length_replicate, fun x hx => ?_⟩
      cases hfill : spec.fillValue with
      | some f =>
        rw [hfill] at hx
        rw [List.eq_of_mem_replicate hx]
        exact spec.fill_held f hfill
      | none =>
        have hsome := h.filled hfill i hi
        rw [hrow] at hsome
        cases hsome
  refine ⟨⟨spec.dtype, spec.rows :: spec.rowShape,
    (List.range spec.rows).flatMap (assembledRow spec ws), ?_, ?_⟩, rfl, rfl, rfl⟩
  · have hlens : (List.range spec.rows).map (fun i => (assembledRow spec ws i).length) =
        List.replicate spec.rows spec.rowShape.prod := by
      apply List.eq_replicate_iff.mpr
      refine ⟨by rw [List.length_map, List.length_range], fun b hb => ?_⟩
      obtain ⟨i, hi, rfl⟩ := List.mem_map.mp hb
      exact (hrow i (List.mem_range.mp hi)).1
    rw [List.length_flatMap, hlens, List.sum_replicate_nat, List.prod_cons]
  · intro x hx
    obtain ⟨i, hi, hx⟩ := List.mem_flatMap.mp hx
    exact (hrow i (List.mem_range.mp hi)).2 x hx

/-- Where the digest and the array may differ: some row is left to a fill whose bytes the two
orders read differently. -/
def SameFill (spec : ArraySpec) (ws : List (Int × NdArray)) : Prop :=
  (∀ i < spec.rows, (writtenRow ws i).isSome) ∨ spec.rowShape.prod = 0 ∨
    ∀ f ∈ spec.fillValue, itemBytes spec.dtype f = f.flatten

theorem streamed_eq_canonical_of_written (h : Accepted spec budget ws) {i : Nat} {row : NdArray}
    (hrow : writtenRow ws i = some row) : streamedBytes spec ws i = canonicalRow spec ws i := by
  rw [streamedBytes, canonicalRow, assembledRow, hrow]
  exact (rowAt_typed h hrow).symm

theorem canonicalRow_unwritten {i : Nat} (hrow : writtenRow ws i = none) :
    canonicalRow spec ws i = (List.replicate spec.rowShape.prod (spec.fillValue.getD [])).flatMap
      (itemBytes spec.dtype) := by
  rw [canonicalRow, assembledRow, hrow]
  rfl

theorem streamedBytes_unwritten {i : Nat} (hrow : writtenRow ws i = none) :
    streamedBytes spec ws i =
      (List.replicate spec.rowShape.prod (spec.fillValue.getD [])).flatMap List.flatten := by
  rw [streamedBytes, hrow]

theorem streamed_eq_canonical_iff (h : Stands spec budget ws) :
    (List.range spec.rows).flatMap (streamedBytes spec ws) =
        (List.range spec.rows).flatMap (canonicalRow spec ws) ↔ SameFill spec ws := by
  constructor
  · intro heq
    have hrows := flatMap_inj (fun i _ => ?_) heq
    · by_contra hdiff
      rw [SameFill, not_or, not_or] at hdiff
      obtain ⟨hgap, hitems, hswap⟩ := hdiff
      push Not at hgap hswap
      obtain ⟨i, hi, hnone⟩ := hgap
      obtain ⟨f, hf, hne⟩ := hswap
      have hrow : writtenRow ws i = none := Option.not_isSome_iff_eq_none.mp hnone
      have hi := hrows i (List.mem_range.mpr hi)
      rw [streamedBytes_unwritten hrow, canonicalRow_unwritten hrow, Option.mem_def.mp hf] at hi
      have hitem := flatMap_inj (fun x _ => (length_itemBytes_flatten spec.dtype x).symm) hi f
        (List.mem_replicate.mpr ⟨hitems, rfl⟩)
      exact hne hitem.symm
    · cases hrow : writtenRow ws i with
      | some row => rw [streamed_eq_canonical_of_written h.toAccepted hrow]
      | none =>
        rw [streamedBytes_unwritten hrow, canonicalRow_unwritten hrow, List.length_flatMap,
          List.length_flatMap]
        congr 1
        exact List.map_congr_left fun x _ => (length_itemBytes_flatten spec.dtype x).symm
  · intro hsame
    apply List.flatMap_congr
    intro i hi
    cases hrow : writtenRow ws i with
    | some row => exact streamed_eq_canonical_of_written h.toAccepted hrow
    | none =>
      rw [streamedBytes_unwritten hrow, canonicalRow_unwritten hrow]
      rcases hsame with hall | hitems | hfill
      · have hsome := hall i (List.mem_range.mp hi)
        rw [hrow] at hsome
        cases hsome
      · rw [hitems]
        rfl
      · apply List.flatMap_congr
        intro x hx
        rw [List.eq_of_mem_replicate hx]
        cases hvalue : spec.fillValue with
        | some f => exact (hfill f hvalue).symm
        | none =>
          have hsome := h.filled hvalue i (List.mem_range.mp hi)
          rw [hrow] at hsome
          cases hsome

end Array

section Exact
variable {η : Type} {sha256 : List UInt8 → η}

/-- The digest is the hash of the array the writes make, and is given up exactly when it cannot
stand behind them. -/
structure Meets (sha256 : List UInt8 → η) (spec : ArraySpec) (budget : Nat)
    (ws : List (Int × NdArray)) : Prop where
  none_iff : (StreamingArrayHash.after spec budget ws).finalize sha256 spec = none ↔
    ¬Stands spec budget ws
  digest : ∀ arr, Assembles spec ws arr → ∀ d,
    (StreamingArrayHash.after spec budget ws).finalize sha256 spec = some d → d = hashArray sha256 arr

/-- The rows make the whole array's hash exactly when the fill rows need no swap. -/
theorem streaming_meets_iff (hsha : Function.Injective sha256) (spec : ArraySpec) (budget : Nat)
    (ws : List (Int × NdArray)) :
    Meets sha256 spec budget ws ↔ ¬Stands spec budget ws ∨ SameFill spec ws := by
  have hnone := finalize_eq_none_iff sha256 spec budget ws
  constructor
  · intro hmeets
    by_cases hstands : Stands spec budget ws
    · obtain ⟨arr, harr⟩ := exists_assembles hstands
      have hdigest := hmeets.digest arr harr _ (finalize_stands hstands)
      rw [hashArray, tobytes_assembles harr] at hdigest
      exact .inr ((streamed_eq_canonical_iff hstands).mp (hsha hdigest))
    · exact .inl hstands
  · intro hsame
    refine ⟨hnone, fun arr harr d hd => ?_⟩
    by_cases hstands : Stands spec budget ws
    · rcases hsame with hbad | hsame
      · exact absurd hstands hbad
      · rw [finalize_stands hstands, Option.some.injEq] at hd
        rw [← hd, (streamed_eq_canonical_iff hstands).mpr hsame, hashArray, tobytes_assembles harr]
    · rw [hnone.mpr hstands] at hd
      cases hd

/-- `>u2`. -/
def bigUint16 : Dtype := ⟨'u', 1, 2, .big⟩

/-- One row of one element, filled with a value in two bytes. -/
def oneRow (fill : List UInt8) (h : fill.length = 2) : ArraySpec where
  rows := 1
  rowShape := [1]
  dtype := bigUint16
  fillValue := some [fill]
  fill_held f hf := by
    obtain rfl := Option.some.inj hf
    exact ⟨rfl, fun word hword => (List.mem_singleton.mp hword).symm ▸ h⟩

/-- Three rows of one element, zero where nothing is written. -/
def threeRows : ArraySpec := { oneRow [0, 0] rfl with rows := 3 }

def rowOf (item : List UInt8) (h : item.length = 2) : NdArray where
  dtype := bigUint16
  shape := [1]
  items := [[item]]
  count := rfl
  held x hx := by
    obtain rfl := List.mem_singleton.mp hx
    exact ⟨rfl, fun word hword => (List.mem_singleton.mp hword).symm ▸ h⟩

/-- The last row comes first and the middle one never does. -/
theorem streaming_meets_outOfOrder :
    (StreamingArrayHash.after threeRows streamPendingMaxBytes
      [(2, rowOf [7, 2] rfl), (0, rowOf [5, 1] rfl)]).finalize id threeRows =
        some [1, 5, 0, 0, 2, 7] ∧
    Meets id threeRows streamPendingMaxBytes [(2, rowOf [7, 2] rfl), (0, rowOf [5, 1] rfl)] :=
  ⟨by decide, (streaming_meets_iff Function.injective_id _ _ _).mpr (.inr (.inr (.inr
    (by decide))))⟩

/-- The fill value 1 as an element of the array. -/
def filledOne : NdArray where
  dtype := bigUint16
  shape := [1, 1]
  items := [[[0, 1]]]
  count := rfl
  held x hx := by
    obtain rfl := List.mem_singleton.mp hx
    exact ⟨rfl, fun word hword => (List.mem_singleton.mp hword).symm ▸ rfl⟩

/-- An unwritten big-endian row is hashed in the order it is stored in. -/
theorem finalize_big_endian_fill :
    (StreamingArrayHash.after (oneRow [0, 1] rfl) streamPendingMaxBytes []).finalize id
        (oneRow [0, 1] rfl) = some [0, 1] ∧
      Assembles (oneRow [0, 1] rfl) [] filledOne ∧ hashArray id filledOne = [1, 0] ∧
      ¬Meets id (oneRow [0, 1] rfl) streamPendingMaxBytes [] := by
  have hstream : (StreamingArrayHash.after (oneRow [0, 1] rfl) streamPendingMaxBytes []).finalize id
      (oneRow [0, 1] rfl) = some [0, 1] := by decide
  have harr : Assembles (oneRow [0, 1] rfl) [] filledOne := ⟨rfl, rfl, by decide⟩
  have hhash : hashArray id filledOne = [1, 0] := by decide
  refine ⟨hstream, harr, hhash, fun hmeets => ?_⟩
  have heq := hmeets.digest _ harr _ hstream
  rw [hhash] at heq
  exact absurd heq (by decide)

end Exact

end Zagg.Content
