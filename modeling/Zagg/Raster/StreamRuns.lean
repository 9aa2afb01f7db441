import Mathlib.Algebra.BigOperators.Group.List.Basic
import Mathlib.Data.List.Induction
import Mathlib.Tactic.Ring
import Zagg.Raster.StreamingHash

/-!
# Which rows keep a running digest valid

A digest that was fed a list of writes is valid exactly when no row was written twice, all were
in range and of the declared shape, and at no moment the rows waiting for their turn exceeded the
budget. While it is valid, the rows waiting are the written ones behind the first gap.
-/
namespace Zagg.Raster

section Rows
variable {ρ : Type}

/-- The row written at an index. -/
def rowAt (ws : List (Nat × ρ)) (i : Nat) : Option ρ :=
  (ws.find? fun w => w.1 = i).map Prod.snd

/-- Row `i` waits: a row before it is not written. -/
def waits (ws : List (Nat × ρ)) (i : Nat) : Bool :=
  (List.range i).any fun j => (rowAt ws j).isNone

/-- The bytes of the written rows that wait. -/
def parkedBytes (size : ρ → Nat) (rows : Nat) (ws : List (Nat × ρ)) : Nat :=
  ((List.range rows).map fun i => if waits ws i then ((rowAt ws i).map size).getD 0 else 0).sum

/-- The writes a digest stands behind. -/
structure Admitted (size : ρ → Nat) (rows budget : Nat) (shaped : ρ → Prop)
    (ws : List (Nat × ρ)) : Prop where
  once : (ws.map Prod.fst).Nodup
  inside : ∀ w ∈ ws, w.1 < rows
  shaped : ∀ w ∈ ws, shaped w.2
  parked : ∀ p, p <+: ws → parkedBytes size rows p ≤ budget

variable {size : ρ → Nat} {rows budget : Nat} {shaped : ρ → Prop} {ws : List (Nat × ρ)}

theorem rowAt_eq_none {i : Nat} : rowAt ws i = none ↔ i ∉ ws.map Prod.fst := by
  rw [rowAt, Option.map_eq_none_iff, List.find?_eq_none, List.mem_map]
  constructor
  · intro h ⟨w, hw, hi⟩
    exact h w hw (decide_eq_true hi)
  · intro h w hw hi
    exact h ⟨w, hw, of_decide_eq_true hi⟩

/-- A write at a new index is one more row. -/
theorem rowAt_concat {w : Nat × ρ} (h : rowAt ws w.1 = none) :
    rowAt (ws ++ [w]) = Function.update (rowAt ws) w.1 (some w.2) := by
  funext i
  by_cases hi : i = w.1
  · have hnone : ws.find? (fun v => v.1 = w.1) = none := Option.map_eq_none_iff.mp h
    have hself : [w].find? (fun v => v.1 = w.1) = some w :=
      List.find?_cons_of_pos (decide_eq_true rfl)
    rw [hi, Function.update_self, rowAt, List.find?_append, hnone, Option.none_or, hself]
    rfl
  · have hne : ¬decide (w.1 = i) = true := fun h => hi (of_decide_eq_true h).symm
    have hskip : [w].find? (fun v => v.1 = i) = none := List.find?_cons_of_neg hne
    rw [Function.update_of_ne hi, rowAt, rowAt, List.find?_append, hskip, Option.or_none]

theorem Admitted.init {w : Nat × ρ} (h : Admitted size rows budget shaped (ws ++ [w])) :
    Admitted size rows budget shaped ws where
  once := by
    have hmap := h.once
    rw [List.map_append, List.nodup_append] at hmap
    exact hmap.1
  inside v hv := h.inside v (List.mem_append_left _ hv)
  shaped v hv := h.shaped v (List.mem_append_left _ hv)
  parked p hp := h.parked p (hp.trans (List.prefix_append ws [w]))

theorem admitted_concat_iff {w : Nat × ρ} (h : Admitted size rows budget shaped ws) :
    Admitted size rows budget shaped (ws ++ [w]) ↔ shaped w.2 ∧ w.1 < rows ∧
      rowAt ws w.1 = none ∧ parkedBytes size rows (ws ++ [w]) ≤ budget := by
  have hmem : w ∈ ws ++ [w] := List.mem_append_right _ (.head _)
  constructor
  · intro h'
    refine ⟨h'.shaped w hmem, h'.inside w hmem, ?_, h'.parked _ (List.prefix_refl _)⟩
    have hmap := h'.once
    rw [List.map_append, List.map_singleton, List.nodup_append] at hmap
    exact rowAt_eq_none.mpr fun hin => hmap.2.2 _ hin _ (.head _) rfl
  · intro ⟨hshape, hin, hnew, hbytes⟩
    refine ⟨?_, ?_, ?_, fun p hp => ?_⟩
    · rw [List.map_append, List.map_singleton, List.nodup_append]
      refine ⟨h.once, List.pairwise_singleton _ _, fun a ha b hb hab => ?_⟩
      rw [List.mem_singleton.mp hb] at hab
      exact rowAt_eq_none.mp hnew (hab ▸ ha)
    · intro v hv
      rcases List.mem_append.mp hv with hv | hv
      · exact h.inside v hv
      · exact List.mem_singleton.mp hv ▸ hin
    · intro v hv
      rcases List.mem_append.mp hv with hv | hv
      · exact h.shaped v hv
      · exact List.mem_singleton.mp hv ▸ hshape
    · rcases List.prefix_concat_iff.mp hp with rfl | hp
      · exact hbytes
      · exact h.parked p hp

end Rows

section Waiting
variable {ρ : Type} (size : ρ → Nat) (fed : Nat → Option ρ)

/-- The bytes of the rows from an index on. -/
def bytesFrom (rows start : Nat) : Nat :=
  ((List.range' start (rows - start)).map fun i => ((fed i).map size).getD 0).sum

variable {size fed} {rows : Nat}

theorem bytesFrom_of_lt {start : Nat} (h : start < rows) :
    bytesFrom size fed rows start =
      ((fed start).map size).getD 0 + bytesFrom size fed rows (start + 1) := by
  have hsucc : rows - start = rows - (start + 1) + 1 := by omega
  rw [bytesFrom, hsucc, List.range'_succ, List.map_cons, List.sum_cons]
  rfl

theorem bytesFrom_of_ge {start : Nat} (h : rows ≤ start) : bytesFrom size fed rows start = 0 := by
  rw [bytesFrom, Nat.sub_eq_zero_of_le h]
  rfl

/-- Later suffixes hold no more. -/
theorem bytesFrom_le {start start' : Nat} (h : start ≤ start') :
    bytesFrom size fed rows start' ≤ bytesFrom size fed rows start := by
  induction start', h using Nat.le_induction with
  | base => exact le_rfl
  | succ start' _ ih =>
    apply le_trans _ ih
    rcases Nat.lt_or_ge start' rows with hlt | hge
    · rw [bytesFrom_of_lt hlt]
      omega
    · rw [bytesFrom_of_ge (by omega)]
      omega

variable (size) in
/-- One more row adds its bytes to the suffixes it lies in. -/
theorem bytesFrom_update {i start : Nat} (row : ρ) (hnone : fed i = none) (hin : i < rows)
    (hstart : start ≤ i) :
    bytesFrom size (Function.update fed i (some row)) rows start =
      bytesFrom size fed rows start + size row := by
  have hsplit : ∀ (f : Nat → Option ρ) (l : List Nat), l = List.range' start (i - start) ∨
      l = List.range' (i + 1) (rows - (i + 1)) →
      l.map (fun j => ((Function.update f i (some row) j).map size).getD 0) =
        l.map fun j => ((f j).map size).getD 0 := by
    intro f l hl
    apply List.map_congr_left
    intro j hj
    have hne : j ≠ i := by
      rcases hl with rfl | rfl
      · have hj := (List.mem_range'_1.mp hj).2
        omega
      · have hj := (List.mem_range'_1.mp hj).1
        omega
    rw [Function.update_of_ne hne]
  have hrange : List.range' start (rows - start) =
      List.range' start (i - start) ++ i :: List.range' (i + 1) (rows - (i + 1)) := by
    have hlen : rows - start = (i - start) + ((rows - (i + 1)) + 1) := by omega
    have hmid : start + (i - start) = i := by omega
    rw [hlen, ← List.range'_append_1, hmid, List.range'_succ]
  rw [bytesFrom, bytesFrom, hrange, List.map_append, List.map_append, List.map_cons, List.map_cons,
    hsplit fed _ (.inl rfl), hsplit fed _ (.inr rfl), Function.update_self, hnone, List.sum_append,
    List.sum_append, List.sum_cons, List.sum_cons]
  show _ + (size row + _) = _ + (0 + _) + size row
  omega

end Waiting

section Gap
variable {ρ : Type} {size : ρ → Nat} {rows : Nat} {ws : List (Nat × ρ)}

/-- Behind the first gap the written rows wait, and no others. -/
theorem parkedBytes_eq {gap : Nat} (hdone : ∀ i < gap, (rowAt ws i).isSome)
    (hgap : rowAt ws gap = none) (hle : gap ≤ rows) :
    parkedBytes size rows ws = bytesFrom size (rowAt ws) rows gap := by
  have hwaits : ∀ i, waits ws i = decide (gap < i) := by
    intro i
    rw [waits, Bool.eq_iff_iff, List.any_eq_true, decide_eq_true_iff]
    constructor
    · intro ⟨j, hj, hnone⟩
      have hj := List.mem_range.mp hj
      by_contra hle
      have hsome := hdone j (by omega)
      rw [Option.isNone_iff_eq_none.mp hnone] at hsome
      cases hsome
    · intro hlt
      exact ⟨gap, List.mem_range.mpr hlt, by rw [hgap]; rfl⟩
  have hrange : List.range rows = List.range gap ++ List.range' gap (rows - gap) := by
    simpa only [List.range_eq_range', Nat.zero_add, Nat.add_sub_of_le hle] using
      (List.range'_append_1 (s := 0) (m := gap) (n := rows - gap)).symm
  have hfront : ((List.range gap).map fun i =>
      if waits ws i then ((rowAt ws i).map size).getD 0 else 0).sum = 0 := by
    apply List.sum_eq_zero
    intro b hb
    obtain ⟨i, hi, rfl⟩ := List.mem_map.mp hb
    have hi := List.mem_range.mp hi
    rw [hwaits, decide_eq_false (by omega)]
    rfl
  rw [parkedBytes, hrange, List.map_append, List.sum_append, hfront, Nat.zero_add, bytesFrom]
  congr 1
  apply List.map_congr_left
  intro i hi
  have hi := (List.mem_range'_1.mp hi).1
  rw [hwaits]
  rcases Nat.eq_or_lt_of_le hi with rfl | hlt
  · rw [hgap]
    exact ite_self _
  · rw [decide_eq_true hlt]
    rfl

end Gap

namespace StreamingArrayHash
variable {γ : Type} {bytes : γ → List UInt8} {maxPending : Nat} {s : StreamingArrayHash γ}
  {ws : List (Nat × List γ)} {w : Nat × List γ}

variable (bytes maxPending) in
/-- The writes fed in turn. -/
def feed (s : StreamingArrayHash γ) (ws : List (Nat × List γ)) : StreamingArrayHash γ :=
  ws.foldl (fun s w => update bytes maxPending s w.1 w.2) s

variable (bytes) in
/-- The bytes one row is parked with. -/
def rowSize (row : List γ) : Nat := (rowBytes bytes row).length

variable (bytes) in
/-- A valid digest, between two writes: it waits for the first gap. -/
structure Settled (s : StreamingArrayHash γ) (ws : List (Nat × List γ)) : Prop where
  valid : s.invalidReason = none
  tracks : Tracks bytes s (rowAt ws)
  gap : rowAt ws s.next = none
  parked : s.pendingBytes = bytesFrom (rowSize bytes) (rowAt ws) s.rows s.next

variable (bytes maxPending s) in
/-- The writes the declared extent and the budget admit. -/
abbrev Admits (ws : List (Nat × List γ)) : Prop :=
  Admitted (rowSize bytes) s.rows maxPending (fun row => row.length = s.rowShape) ws

theorem Settled.parked_eq (h : Settled bytes s ws) :
    parkedBytes (rowSize bytes) s.rows ws = s.pendingBytes := by
  rw [h.parked]
  exact parkedBytes_eq h.tracks.done h.gap h.tracks.next_le

/-- Draining takes the bytes of the rows it hashes off the parking. -/
theorem drain_pendingBytes {fed : Nat → Option (List γ)} (n : Nat) (h : Tracks bytes s fed)
    (hparked : s.pendingBytes = bytesFrom (rowSize bytes) fed s.rows s.next) :
    (drain bytes n s).pendingBytes =
      bytesFrom (rowSize bytes) fed (drain bytes n s).rows (drain bytes n s).next := by
  induction n generalizing s with
  | zero => exact hparked
  | succ n ih =>
    simp only [drain]
    cases hp : s.pending s.next with
    | none => exact hparked
    | some row =>
      have hrow : fed s.next = some row := (h.parked _ le_rfl).symm.trans hp
      apply ih (h.consume (h.fed_lt hrow) hrow (fun _ _ => rfl) _ (fun i hi => ?_) _)
      · rw [bytesFrom_of_lt (h.fed_lt hrow), hrow] at hparked
        show s.pendingBytes - rowSize bytes row = bytesFrom (rowSize bytes) fed s.rows (s.next + 1)
        have hsize : ((some row).map (rowSize bytes)).getD 0 = rowSize bytes row := rfl
        omega
      · exact Function.update_of_ne (by omega) _ _

/-- A write the digest has no row for yet. -/
theorem Settled.unwritten_iff (h : Settled bytes s ws) {index : Nat} :
    rowAt ws index = none ↔ ¬(index < s.next ∨ (s.pending index).isSome) := by
  rcases Nat.lt_or_ge index s.next with hlt | hge
  · have hdone := h.tracks.done index hlt
    apply iff_of_false
    · intro hnone
      rw [hnone] at hdone
      cases hdone
    · exact not_not_intro (.inl hlt)
  · rw [h.tracks.parked index hge, or_iff_right (Nat.not_lt.mpr hge), Option.not_isSome_iff_eq_none]

theorem settled_fresh (rows rowShape : Nat) (fillValue : Option γ) :
    Settled bytes ⟨rows, rowShape, fillValue, none, [], 0, fun _ => none, 0⟩ [] where
  valid := rfl
  tracks := tracks_fresh rows rowShape fillValue
  gap := rfl
  parked := by
    symm
    apply List.sum_eq_zero
    intro b hb
    obtain ⟨i, -, rfl⟩ := List.mem_map.mp hb
    rfl

variable (maxPending) in
/-- A row before its turn: parked within the budget, or the digest is given up. -/
theorem Settled.park (h : Settled bytes s ws) (hin : w.1 < s.rows) (hturn : s.next < w.1)
    (hnew : rowAt ws w.1 = none) :
    (parkedBytes (rowSize bytes) s.rows (ws ++ [w]) ≤ maxPending ∧
      Settled bytes (park bytes maxPending s w.1 w.2) (ws ++ [w])) ∨
    (¬parkedBytes (rowSize bytes) s.rows (ws ++ [w]) ≤ maxPending ∧
      (park bytes maxPending s w.1 w.2).invalidReason.isSome) := by
  have hrows := rowAt_concat hnew
  have hmore := bytesFrom_update (rowSize bytes) w.2 hnew hin hturn.le
  have hgap : rowAt (ws ++ [w]) s.next = none := by
    rw [hrows, Function.update_of_ne hturn.ne]
    exact h.gap
  have hdone : ∀ i < s.next, (rowAt (ws ++ [w]) i).isSome := by
    intro i hi
    rw [hrows, Function.update_of_ne (by omega)]
    exact h.tracks.done i hi
  have hbytes : parkedBytes (rowSize bytes) s.rows (ws ++ [w]) = s.pendingBytes + rowSize bytes w.2 := by
    rw [parkedBytes_eq hdone hgap h.tracks.next_le, hrows, hmore, h.parked]
  rw [hbytes]
  unfold StreamingArrayHash.park
  by_cases hover : maxPending < s.pendingBytes + (rowBytes bytes w.2).length
  · rw [if_pos hover]
    exact .inr ⟨not_le.mpr hover, invalidate_invalidReason _⟩
  · rw [if_neg hover]
    refine .inl ⟨not_lt.mp hover, h.valid, ⟨h.tracks.next_le, ?_, hdone, ?_, ?_⟩, hgap, ?_⟩
    · intro i v hi
      by_cases heq : i = w.1
      · exact heq ▸ hin
      · rw [hrows, Function.update_of_ne heq] at hi
        exact h.tracks.fed_lt hi
    · show s.digest = _
      rw [h.tracks.digest]
      apply List.flatMap_congr
      intro i hi
      have hi := List.mem_range.mp hi
      rw [hrows, Function.update_of_ne (by omega)]
    · intro i hi
      show Function.update s.pending w.1 (some w.2) i = _
      rw [hrows]
      by_cases heq : i = w.1
      · rw [heq, Function.update_self, Function.update_self]
      · rw [Function.update_of_ne heq, Function.update_of_ne heq]
        exact h.tracks.parked i hi
    · show s.pendingBytes + rowSize bytes w.2 = bytesFrom (rowSize bytes) (rowAt (ws ++ [w])) s.rows s.next
      rw [hrows, hmore, h.parked]

/-- The row the digest waits for is hashed, with those it unblocks. -/
theorem Settled.turn (h : Settled bytes s ws) (hin : w.1 < s.rows) (hturn : w.1 = s.next)
    (hnew : rowAt ws w.1 = none) :
    parkedBytes (rowSize bytes) s.rows (ws ++ [w]) ≤ parkedBytes (rowSize bytes) s.rows ws ∧
      Settled bytes (drain bytes s.rows (consume bytes s w.2)) (ws ++ [w]) := by
  have hrows := rowAt_concat hnew
  have hself : rowAt (ws ++ [w]) s.next = some w.2 := by rw [hrows, ← hturn, Function.update_self]
  have hother : ∀ i, i ≠ s.next → rowAt (ws ++ [w]) i = rowAt ws i := by
    intro i hi
    rw [hrows, hturn, Function.update_of_ne hi]
  have htracks : Tracks bytes (consume bytes s w.2) (rowAt (ws ++ [w])) :=
    h.tracks.consume (hturn ▸ hin) hself hother s.pending (fun _ _ => rfl) s.pendingBytes
  have hrest : bytesFrom (rowSize bytes) (rowAt (ws ++ [w])) s.rows (s.next + 1) =
      bytesFrom (rowSize bytes) (rowAt ws) s.rows (s.next + 1) := by
    rw [bytesFrom, bytesFrom]
    congr 1
    apply List.map_congr_left
    intro i hi
    have hi := (List.mem_range'_1.mp hi).1
    rw [hother i (by omega)]
  have hparked : (consume bytes s w.2).pendingBytes =
      bytesFrom (rowSize bytes) (rowAt (ws ++ [w])) s.rows (s.next + 1) := by
    show s.pendingBytes = _
    rw [hrest, h.parked, bytesFrom_of_lt (hturn ▸ hin), h.gap]
    exact Nat.zero_add _
  have hframe : (drain bytes s.rows (consume bytes s w.2)).rows = s.rows ∧ _ :=
    drain_frame s.rows (s := consume bytes s w.2)
  have hstop := drain_stops htracks (n := s.rows) (Nat.le_add_left s.rows (s.next + 1))
  have hdrained := htracks.drain s.rows
  have hgap : rowAt (ws ++ [w]) (drain bytes s.rows (consume bytes s w.2)).next = none := by
    rw [← hdrained.parked _ le_rfl]
    exact hstop
  refine ⟨?_, hframe.2.2.2.trans h.valid, hdrained, hgap, drain_pendingBytes _ htracks hparked⟩
  have hbound : (drain bytes s.rows (consume bytes s w.2)).next ≤ s.rows :=
    hdrained.next_le.trans_eq hframe.1
  have hafter : s.next + 1 ≤ (drain bytes s.rows (consume bytes s w.2)).next := by
    by_contra hlt
    rcases Nat.lt_or_ge (drain bytes s.rows (consume bytes s w.2)).next s.next with hbefore | hge
    · have hsome := h.tracks.done _ hbefore
      rw [← hother _ hbefore.ne, hgap] at hsome
      cases hsome
    · have heq : (drain bytes s.rows (consume bytes s w.2)).next = s.next := by omega
      rw [heq, hself] at hgap
      cases hgap
  rw [parkedBytes_eq hdrained.done hgap hbound, h.parked_eq, h.parked]
  calc bytesFrom (rowSize bytes) (rowAt (ws ++ [w])) s.rows
        (drain bytes s.rows (consume bytes s w.2)).next ≤
      bytesFrom (rowSize bytes) (rowAt (ws ++ [w])) s.rows (s.next + 1) := bytesFrom_le hafter
    _ = bytesFrom (rowSize bytes) (rowAt ws) s.rows (s.next + 1) := hrest
    _ ≤ bytesFrom (rowSize bytes) (rowAt ws) s.rows s.next := bytesFrom_le (Nat.le_succ _)

variable (maxPending) in
/-- One write: the digest stays valid when the write is admitted, and is given up otherwise. -/
theorem Settled.update (h : Settled bytes s ws) (hws : Admits bytes maxPending s ws) :
    (Admits bytes maxPending s (ws ++ [w]) ∧
      Settled bytes (StreamingArrayHash.update bytes maxPending s w.1 w.2) (ws ++ [w])) ∨
    (¬Admits bytes maxPending s (ws ++ [w]) ∧
      (StreamingArrayHash.update bytes maxPending s w.1 w.2).invalidReason.isSome) := by
  rw [Admits, admitted_concat_iff hws]
  unfold StreamingArrayHash.update
  rw [if_neg (by rw [h.valid]; exact Bool.false_ne_true)]
  by_cases hshape : w.2.length = s.rowShape
  · rw [if_neg (by rw [bne_iff_ne]; exact not_not_intro hshape)]
    by_cases hin : w.1 < s.rows
    · rw [if_neg (Nat.not_le.mpr hin)]
      by_cases hnew : rowAt ws w.1 = none
      · rw [if_neg (h.unwritten_iff.mp hnew)]
        have hreached : s.next ≤ w.1 := by
          have hnot := h.unwritten_iff.mp hnew
          push Not at hnot
          exact hnot.1
        rcases Nat.eq_or_lt_of_le hreached with heq | hlt
        · rw [if_neg (by omega)]
          obtain ⟨hle, hsettled⟩ := h.turn hin heq.symm hnew
          exact .inl ⟨⟨hshape, hin, hnew, hle.trans (hws.parked ws (List.prefix_refl _))⟩, hsettled⟩
        · rw [if_pos hlt]
          rcases h.park maxPending hin hlt hnew with ⟨hle, hsettled⟩ | ⟨hover, hbad⟩
          · exact .inl ⟨⟨hshape, hin, hnew, hle⟩, hsettled⟩
          · exact .inr ⟨fun hall => hover hall.2.2.2, hbad⟩
      · rw [if_pos (not_not.mp (mt h.unwritten_iff.mpr hnew))]
        exact .inr ⟨fun hall => hnew hall.2.2.1, invalidate_invalidReason _⟩
    · rw [if_pos (Nat.not_lt.mp hin)]
      exact .inr ⟨fun hall => hin hall.2.1, invalidate_invalidReason _⟩
  · rw [if_pos (by rw [bne_iff_ne]; exact hshape)]
    exact .inr ⟨fun hall => hshape hall.1, invalidate_invalidReason _⟩

theorem feed_concat (s : StreamingArrayHash γ) (ws : List (Nat × List γ)) (w : Nat × List γ) :
    feed bytes maxPending s (ws ++ [w]) =
      StreamingArrayHash.update bytes maxPending (feed bytes maxPending s ws) w.1 w.2 :=
  List.foldl_concat _ _ _ _

variable (bytes maxPending) in
/-- A run keeps the declared extent and the fill. -/
theorem feed_frame (s : StreamingArrayHash γ) (ws : List (Nat × List γ)) :
    (feed bytes maxPending s ws).rows = s.rows ∧
      (feed bytes maxPending s ws).rowShape = s.rowShape ∧
      (feed bytes maxPending s ws).fillValue = s.fillValue := by
  induction ws using List.reverseRecOn with
  | nil => exact ⟨rfl, rfl, rfl⟩
  | append_singleton ws w ih =>
    rw [feed_concat]
    obtain ⟨hrows, hshape, hfill⟩ := update_frame w.1 w.2 (s := feed bytes maxPending s ws)
    exact ⟨hrows.trans ih.1, hshape.trans ih.2.1, hfill.trans ih.2.2⟩

/-- A run is valid exactly when its writes are admitted. -/
theorem feed_settled (hs : Settled bytes s []) (ws : List (Nat × List γ)) :
    (Admits bytes maxPending s ws ∧ Settled bytes (feed bytes maxPending s ws) ws) ∨
      (¬Admits bytes maxPending s ws ∧ (feed bytes maxPending s ws).invalidReason.isSome) := by
  induction ws using List.reverseRecOn with
  | nil =>
    refine .inl ⟨⟨List.nodup_nil, nofun, nofun, fun p hp => ?_⟩, hs⟩
    rw [List.prefix_nil.mp hp, hs.parked_eq, hs.parked]
    have hnone : bytesFrom (rowSize bytes) (rowAt []) s.rows s.next = 0 := by
      apply List.sum_eq_zero
      intro b hb
      obtain ⟨i, -, rfl⟩ := List.mem_map.mp hb
      rfl
    rw [hnone]
    exact Nat.zero_le _
  | append_singleton ws w ih =>
    obtain ⟨hrows, hshape, -⟩ := feed_frame bytes maxPending s ws
    rw [feed_concat]
    rcases ih with ⟨hadmits, hsettled⟩ | ⟨hbad, hinvalid⟩
    · have hstep := hsettled.update maxPending (w := w) (by
        rw [Admits, hrows, hshape]
        exact hadmits)
      rw [Admits, hrows, hshape] at hstep
      exact hstep
    · rw [update_of_invalid hinvalid]
      exact .inr ⟨fun hall => hbad hall.init, hinvalid⟩

end StreamingArrayHash

end Zagg.Raster
