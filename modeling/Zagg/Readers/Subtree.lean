import Mathlib.Data.List.Sort
import Zagg.Readers.Ragged

/-!
# A subtree read is the filtered sweep

Chunk starts are the multiples of the chunk size in a stored span, so cutting the span
down to whole chunks keeps the starts between the two alignments. A chunk that is kept
has the same cells as in the full sweep, and one that is not has no cell of the subtree.
-/
namespace Zagg.Readers

open Zagg.Lib Zagg.Stats

variable {m : Mortie} {arr : Ragged} {β : Type}

section Chunks

/-- The chunk starts of a span. -/
def starts (chunk : ℕ) (span : ℕ × ℕ) : List ℕ :=
  (steps (span.2 - span.1) chunk).map (span.1 + ·)

theorem mem_starts {chunk : ℕ} (hc : 0 < chunk) {span : ℕ × ℕ} (ha : chunk ∣ span.1) {x : ℕ} :
    x ∈ starts chunk span ↔ span.1 ≤ x ∧ x < span.2 ∧ chunk ∣ x := by
  have hsteps : ∀ j, j < (span.2 - span.1 + chunk - 1) / chunk ↔ j * chunk < span.2 - span.1 := by
    intro j
    rw [← Nat.succ_le_iff, Nat.le_div_iff_mul_le hc, Nat.succ_mul]
    omega
  simp only [starts, steps, List.map_map, List.mem_map, List.mem_range, Function.comp, hsteps]
  constructor
  · rintro ⟨j, hj, rfl⟩
    exact ⟨by omega, by omega, (Nat.dvd_add_right ha).mpr (Nat.dvd_mul_left ..)⟩
  · rintro ⟨hle, hlt, hdvd⟩
    obtain ⟨j, hj⟩ := (Nat.dvd_sub hdvd ha)
    rw [Nat.mul_comm] at hj
    exact ⟨j, by omega, by omega⟩

theorem pairwise_starts {chunk : ℕ} (hc : 0 < chunk) (span : ℕ × ℕ) :
    (starts chunk span).Pairwise (· < ·) := by
  rw [starts, steps, List.map_map, List.pairwise_map]
  refine List.pairwise_lt_range.imp fun {i j} hij => ?_
  have hmul := Nat.mul_lt_mul_of_pos_right hij hc
  simp only [Function.comp]
  omega

theorem starts_of_le (chunk : ℕ) {span : ℕ × ℕ} (h : span.2 ≤ span.1) : starts chunk span = [] := by
  have hzero : (0 + chunk - 1) / chunk = 0 := by
    rcases Nat.eq_zero_or_pos chunk with h | h
    · rw [h, Nat.div_zero]
    · exact Nat.div_eq_of_lt (by omega)
  rw [starts, Nat.sub_eq_zero_of_le h, steps, hzero]
  rfl

/-- The chunk that starts at `x` in a stored span, when it is populated. -/
def chunkAt (arr : Ragged) (stop x : ℕ) : Option (ℕ × List (ℕ × Bytes)) :=
  let populated := populatedCells (arr.slice arr.raw x (min (x + arr.chunk) stop))
  if populated = [] then none else some (x, populated)

theorem slice_drop_take {γ : Type} (values : ℕ → γ) (start stop offset chunk : ℕ) :
    ((arr.slice values start stop).drop offset).take chunk =
      arr.slice values (start + offset) (min (start + offset + chunk) stop) := by
  rw [Ragged.slice, Ragged.slice, ← List.map_drop, ← List.map_take, List.drop_range', Nat.mul_one]
  refine congrArg (List.map values) ?_
  rcases Nat.le_total (min stop arr.shape - start - offset) chunk with hle | hle
  · rw [List.take_range'_of_length_le hle]
    have hlen : min stop arr.shape - start - offset =
        min (min (start + offset + chunk) stop) arr.shape - (start + offset) := by omega
    rw [hlen]
  · rw [List.take_range'_of_length_ge hle]
    have hlen : chunk =
        min (min (start + offset + chunk) stop) arr.shape - (start + offset) := by omega
    rw [← hlen]

theorem spanChunks_eq (stored : ℕ × ℕ) :
    spanChunks arr stored = (starts arr.chunk stored).filterMap (chunkAt arr stored.2) := by
  rw [spanChunks, starts, List.filterMap_map]
  refine List.filterMap_congr fun offset _ => ?_
  simp only [Function.comp, chunkAt, slice_drop_take]

/-- Cutting a span between two bounds keeps the starts between them. -/
theorem starts_filter {chunk : ℕ} (hc : 0 < chunk) {stored : ℕ × ℕ} (ha : chunk ∣ stored.1)
    {lo : ℕ} (hlo : chunk ∣ lo) (hi : ℕ) :
    starts chunk (max stored.1 lo, min stored.2 hi) =
      (starts chunk stored).filter fun x => decide (lo ≤ x ∧ x < hi) := by
  have hmax : chunk ∣ max stored.1 lo := by
    rcases max_choice stored.1 lo with h | h
    · rwa [h]
    · rwa [h]
  have hsorted := pairwise_starts hc (max stored.1 lo, min stored.2 hi)
  have hsorted' := (pairwise_starts hc stored).filter fun x => decide (lo ≤ x ∧ x < hi)
  refine List.Perm.eq_of_pairwise' (hsorted.imp le_of_lt) (hsorted'.imp le_of_lt) ?_
  rw [List.perm_ext_iff_of_nodup (hsorted.imp ne_of_lt) (hsorted'.imp ne_of_lt)]
  intro x
  rw [mem_starts hc hmax, List.mem_filter, mem_starts hc ha, decide_eq_true_eq, max_le_iff,
    lt_min_iff]
  tauto

/-- The two alignments of a span: down for its start and up for its stop. -/
theorem coveringSpan_eq (hc : 0 < arr.chunk) (span : ℕ × ℕ) :
    ∃ lo hi, arr.chunk ∣ lo ∧ arr.chunk ∣ hi ∧ lo ≤ span.1 ∧ span.2 ≤ hi ∧
      ∀ stored, coveringSpan arr span stored = (max stored.1 lo, min stored.2 hi) := by
  refine ⟨span.1 - span.1 % arr.chunk, span.2 + (-(span.2 : ℤ) % arr.chunk).toNat,
    Nat.dvd_sub_mod span.1, ?_, Nat.sub_le .., Nat.le_add_right .., fun _ => rfl⟩
  have hdvd : (arr.chunk : ℤ) ∣ span.2 + -(span.2 : ℤ) % arr.chunk := by
    have h : (arr.chunk : ℤ) ∣ -(span.2 : ℤ) % arr.chunk - -span.2 := Int.dvd_emod_sub_self
    rwa [sub_neg_eq_add, add_comm] at h
  have hnonneg : 0 ≤ -(span.2 : ℤ) % arr.chunk := Int.emod_nonneg _ (by omega)
  rw [← Int.toNat_of_nonneg hnonneg, ← Nat.cast_add] at hdvd
  exact Int.natCast_dvd_natCast.mp hdvd

end Chunks

section Events
variable (m arr) (decode : ℕ → ℕ → Bytes → Except String β) (depth : ℕ)

/-- The events of one chunk. -/
def chunkEvents (span : Option (ℕ × ℕ)) (c : ℕ × List (ℕ × Bytes)) :
    List (Except String (Sample β)) :=
  match chunkWord m (arr.slice arr.morton c.1 (c.1 + arr.chunk)) arr.field c.1 with
  | .error e => [.error e]
  | .ok word => c.2.filterMap fun r =>
    if span.any fun span => ¬(span.1 ≤ c.1 + r.1 ∧ c.1 + r.1 < span.2) then none
    else some ((decode word r.1 r.2).map fun values =>
      ⟨c.1 + r.1, word, (m.rankToXy r.1 depth).2, (m.rankToXy r.1 depth).1, values⟩)

/-- The events of the chunk at a start, if it is populated. -/
def startEvents (span : Option (ℕ × ℕ)) (stop x : ℕ) : List (Except String (Sample β)) :=
  (chunkAt arr stop x).elim [] (chunkEvents m arr decode depth span)

theorem flatMap_spanChunks (span : Option (ℕ × ℕ)) (stored : ℕ × ℕ) :
    (spanChunks arr stored).flatMap (chunkEvents m arr decode depth span) =
      (starts arr.chunk stored).flatMap (startEvents m arr decode depth span stored.2) := by
  rw [spanChunks_eq]
  induction starts arr.chunk stored with
  | nil => rfl
  | cons x xs ih =>
    rw [List.filterMap_cons, List.flatMap_cons, ← ih]
    cases hx : chunkAt arr stored.2 x with
    | none => simp only [startEvents, hx, Option.elim_none, List.nil_append]
    | some c => simp only [startEvents, hx, Option.elim_some, List.flatMap_cons]

variable {m arr decode depth}

/-- The ranks of a chunk's cells lie in the chunk and on the axis. -/
theorem chunkAt_spec {stop x : ℕ} {c : ℕ × List (ℕ × Bytes)} (h : chunkAt arr stop x = some c) :
    c.1 = x ∧ ∀ r ∈ c.2, x + r.1 < x + arr.chunk ∧ x + r.1 < arr.shape := by
  simp only [chunkAt] at h
  split_ifs at h
  obtain rfl := Option.some.inj h
  refine ⟨rfl, fun r hr => ?_⟩
  obtain ⟨z, hz, hzr⟩ := List.mem_filterMap.mp hr
  split_ifs at hzr
  obtain rfl := Option.some.inj hzr
  have hlt := List.snd_lt_of_mem_zipIdx hz
  rw [Ragged.slice, List.length_map, List.length_range'] at hlt
  dsimp only
  omega

/-- The values of a chunk's events are at its cells. -/
theorem cell_of_chunkEvents {span : Option (ℕ × ℕ)} {stop x : ℕ} {c : ℕ × List (ℕ × Bytes)}
    (hc : chunkAt arr stop x = some c) {s : Sample β}
    (hs : .ok s ∈ chunkEvents m arr decode depth span c) :
    x ≤ s.cell ∧ s.cell < x + arr.chunk ∧ s.cell < arr.shape := by
  obtain ⟨rfl, hranks⟩ := chunkAt_spec hc
  simp only [chunkEvents] at hs
  split at hs
  · cases List.mem_singleton.mp hs
  · next word _ =>
    obtain ⟨r, hr, hrs⟩ := List.mem_filterMap.mp hs
    split_ifs at hrs
    cases hd : decode word r.1 r.2 with
    | error e => rw [hd] at hrs; cases hrs
    | ok values =>
      rw [hd] at hrs
      cases hrs
      exact ⟨Nat.le_add_right .., (hranks r hr).1, (hranks r hr).2⟩

/-- Filtering a chunk by the span prunes its events. -/
theorem chunkEvents_pruned {span : ℕ × ℕ} {p : Sample β → Bool} {stop x : ℕ}
    {c : ℕ × List (ℕ × Bytes)} (hc : chunkAt arr stop x = some c)
    (hp : ∀ s : Sample β, s.cell < arr.shape →
      (p s = true ↔ span.1 ≤ s.cell ∧ s.cell < span.2)) :
    Pruned p (chunkEvents m arr decode depth none c)
      (chunkEvents m arr decode depth (some span) c) := by
  obtain ⟨rfl, hranks⟩ := chunkAt_spec hc
  unfold chunkEvents
  cases chunkWord m (arr.slice arr.morton c.1 (c.1 + arr.chunk)) arr.field c.1 with
  | error e => exact .raise .nil
  | ok word =>
    refine .filterMap fun r hr => ?_
    rw [Option.any_none, if_neg Bool.false_ne_true, Option.any_some, decide_not,
      Option.toList_some]
    cases hd : decode word r.1 r.2 with
    | error e =>
      split_ifs
      · exact .skip .nil
      · exact .raise .nil
    | ok values =>
      have hcell := hp ⟨c.1 + r.1, word, (m.rankToXy r.1 depth).2, (m.rankToXy r.1 depth).1, values⟩
        (hranks r hr).2
      split_ifs with hin
      · refine .drop (Bool.eq_false_iff.mpr fun h => ?_) .nil
        simp only [decide_eq_true (hcell.mp h), Bool.not_true, Bool.false_eq_true] at hin
      · refine .keep (hcell.mpr ?_) .nil
        simpa using hin

/-- The chunks that cover the span, filtered by it, are the pruned sweep of a stored span. -/
theorem spanChunks_pruned (hc : 0 < arr.chunk) {span stored : ℕ × ℕ} {p : Sample β → Bool}
    (ha : arr.chunk ∣ stored.1)
    (hp : ∀ s : Sample β, s.cell < arr.shape →
      (p s = true ↔ span.1 ≤ s.cell ∧ s.cell < span.2)) :
    Pruned p ((spanChunks arr stored).flatMap (chunkEvents m arr decode depth none))
      ((spanChunks arr (coveringSpan arr span stored)).flatMap
        (chunkEvents m arr decode depth (some span))) := by
  obtain ⟨lo, hi, hlo, hhi, hstart, hstop, hcover⟩ := coveringSpan_eq hc span
  rw [hcover, flatMap_spanChunks, flatMap_spanChunks, starts_filter hc ha hlo]
  refine .flatMap_filter (fun x hx hkeep => ?_) fun x hx hout => ?_
  · have hdvd := ((mem_starts hc ha).mp hx).2.2
    obtain ⟨-, hlt⟩ := of_decide_eq_true hkeep
    -- the chunk ends before the upper alignment, so cutting the span does not shorten it
    have hfits : x + arr.chunk ≤ hi := by
      obtain ⟨i, rfl⟩ := hdvd
      obtain ⟨j, rfl⟩ := hhi
      rw [← Nat.mul_succ]
      exact Nat.mul_le_mul_left _ (Nat.lt_of_mul_lt_mul_left hlt)
    have hsame : chunkAt arr (min stored.2 hi) x = chunkAt arr stored.2 x := by
      unfold chunkAt
      rw [← min_assoc, min_right_comm, min_eq_left hfits]
    rw [startEvents, startEvents, hsame]
    cases hx : chunkAt arr stored.2 x with
    | none => exact .nil
    | some c => exact chunkEvents_pruned hx hp
  · have hdvd := ((mem_starts hc ha).mp hx).2.2
    rw [startEvents]
    cases hx : chunkAt arr stored.2 x with
    | none => exact .nil
    | some c =>
      refine .nothing fun s hs => Bool.eq_false_iff.mpr fun h => ?_
      obtain ⟨hge, hle, hshape⟩ := cell_of_chunkEvents hx hs
      obtain ⟨h1, h2⟩ := (hp s hshape).mp h
      refine of_decide_eq_false hout ⟨?_, by omega⟩
      -- a chunk that starts below the lower alignment ends at or below it
      by_contra hlt
      obtain ⟨i, rfl⟩ := hdvd
      obtain ⟨j, rfl⟩ := hlo
      have hij : i + 1 ≤ j := Nat.lt_of_mul_lt_mul_left (Nat.lt_of_not_le hlt)
      have hmul := Nat.mul_le_mul_left arr.chunk hij
      rw [Nat.mul_succ] at hmul
      omega

end Events

section Anchor
variable {cellOrder : ℕ}

/-- The first written cell of the first stored chunk, and its word. -/
def Ragged.anchor (arr : Ragged) : Option (ℕ × ℕ) :=
  (storedChunkSpans arr).head?.bind fun first =>
    let words := arr.slice arr.morton first.1 (first.1 + arr.chunk)
    words[words.findIdx (· ≠ 0)]?.map fun word => (first.1 + words.findIdx (· ≠ 0), word)

theorem find?_eq_findIdx {γ : Type} (p : γ → Bool) (l : List γ) :
    l.find? p = l[l.findIdx p]? := by
  induction l with
  | nil => rfl
  | cons a l ih =>
    rw [List.find?_cons, List.findIdx_cons]
    cases p a with
    | true => rfl
    | false => exact ih

/-- The reader's span is the span of its anchor. -/
theorem subtreeSpan_of_anchor {index word nested : ℕ} (ha : arr.anchor = some (index, word))
    (harea : Area m word cellOrder nested) (subtree : Subtree) :
    subtreeSpan m arr (some subtree) =
      (subtreeCellSpan m subtree word index cellOrder arr.shape arr.field).map fun span =>
        (some span, some (storedChunkSpans arr)) := by
  unfold Ragged.anchor at ha
  unfold subtreeSpan
  cases hspans : storedChunkSpans arr with
  | nil => rw [hspans] at ha; cases ha
  | cons first spans =>
    rw [hspans, List.head?_cons, Option.bind_some] at ha
    obtain ⟨word', hget, heq⟩ := Option.map_eq_some_iff.mp ha
    obtain ⟨rfl, rfl⟩ := Prod.mk.inj heq
    obtain ⟨label, hlabel, horder⟩ := mortonDecimal_of_area harea
    dsimp only
    generalize arr.slice arr.morton first.1 (first.1 + arr.chunk) = words at hget ⊢
    have horder : cellsOrder m words arr.field first.1 = .ok (cellOrder : ℤ) := by
      have hhead : (words.filter (· ≠ 0)).head? = some word' := by
        rw [List.head?_filter, find?_eq_findIdx, hget]
      unfold cellsOrder
      cases hf : words.filter (· ≠ 0) with
      | nil => rw [hf] at hhead; cases hhead
      | cons w ws =>
        rw [hf] at hhead
        obtain rfl := Option.some.inj hhead
        dsimp only
        rw [hlabel, Except.map, horder]
    have hword : words.getD (words.findIdx (· ≠ 0)) 0 = word' := by
      rw [List.getD_eq_getElem?_getD, hget, Option.getD_some]
    rw [horder, hword]
    rfl

/-- Every written cell carries the word its position names. -/
def Placed (m : Mortie) (arr : Ragged) (cellOrder : ℕ) (g : Geometry) : Prop :=
  ∀ i < arr.shape, arr.morton i ≠ 0 → Area m (arr.morton i) cellOrder (g.start + i)

/-- The dense coordinate write reached the first chunk of every stored object. -/
def Written (arr : Ragged) : Prop :=
  ∀ o ∈ arr.ordinals, ∃ i, o * arr.span ≤ i ∧ i < o * arr.span + arr.chunk ∧ i < arr.shape ∧
    arr.morton i ≠ 0

theorem exists_anchor (hw : Written arr) (hne : arr.ordinals ≠ []) :
    ∃ index, arr.anchor = some (index, arr.morton index) ∧ index < arr.shape ∧
      arr.morton index ≠ 0 := by
  unfold Ragged.anchor storedChunkSpans
  cases hsorted : arr.ordinals.insertionSort (· ≤ ·) with
  | nil => exact absurd (hsorted ▸ List.perm_insertionSort (· ≤ ·) arr.ordinals).nil_eq.symm hne
  | cons o os =>
    have hmem : o ∈ arr.ordinals :=
      (List.perm_insertionSort (· ≤ ·) arr.ordinals).mem_iff.mp (hsorted ▸ .head _)
    obtain ⟨i, hge, hlt, hshape, hnz⟩ := hw o hmem
    rw [List.map_cons, List.head?_cons, Option.bind_some]
    dsimp only
    generalize hwords : arr.slice arr.morton (o * arr.span) (o * arr.span + arr.chunk) = words
    have hget : ∀ j, words[j]? = if j < min (o * arr.span + arr.chunk) arr.shape - o * arr.span
        then some (arr.morton (o * arr.span + j)) else none := by
      intro j
      rw [← hwords, Ragged.slice, List.getElem?_map]
      split_ifs with hj
      · rw [List.getElem?_range' hj, Option.map_some, Nat.one_mul]
      · rw [List.getElem?_eq_none (by rw [List.length_range']; omega), Option.map_none]
    have hexists : ∃ x ∈ words, decide (x ≠ 0) = true := by
      have hi := hget (i - o * arr.span)
      rw [if_pos (by omega), Nat.add_sub_cancel' hge] at hi
      exact ⟨_, List.mem_of_getElem? hi, decide_eq_true hnz⟩
    have hidx := List.findIdx_lt_length_of_exists hexists
    have hfound := List.findIdx_getElem (w := hidx)
    have hlen : words.findIdx (· ≠ 0) < min (o * arr.span + arr.chunk) arr.shape -
        o * arr.span := by
      by_contra hno
      have hnone := hget (words.findIdx (· ≠ 0))
      rw [if_neg hno, List.getElem?_eq_none_iff] at hnone
      omega
    have hat := hget (words.findIdx (· ≠ 0))
    rw [if_pos hlen] at hat
    rw [List.getElem?_eq_getElem hidx] at hat
    rw [Option.some.inj hat] at hfound
    refine ⟨o * arr.span + words.findIdx (· ≠ 0), ?_, by omega, of_decide_eq_true hfound⟩
    rw [List.getElem?_eq_getElem hidx, hat, Option.map_some]

end Anchor

section Sweep
variable {cellOrder : ℕ} {g : Geometry} {decode : ℕ → ℕ → Bytes → Except String β}

/-- A chunk of a power of four cells has a tensor layout. -/
theorem tensorSide_four_pow {e : ℕ} (hc : arr.chunk = 4 ^ e) : tensorSide arr = .ok (2 ^ e, e) := by
  have hsqrt : Nat.sqrt arr.chunk = 2 ^ e := by
    have hsq : (4 : ℕ) ^ e = 2 ^ e * 2 ^ e := by rw [← Nat.mul_pow]
    rw [hc, hsq, Nat.sqrt_eq]
  have hsquare : 2 ^ e * 2 ^ e = arr.chunk := by rw [hc, ← Nat.mul_pow]
  have hpow : 2 ^ e &&& (2 ^ e - 1) = 0 := by
    rw [Nat.and_two_pow_sub_one_eq_mod, Nat.mod_self]
  unfold tensorSide
  rw [hsqrt]
  dsimp only
  rw [if_neg (by simp only [hsquare, hpow, ne_eq, not_true_eq_false, or_self, not_false_eq_true]),
    Nat.size_pow, Nat.add_sub_cancel]

theorem sweepCells_none (depth : ℕ) : sweepCells m arr decode depth none none =
    (storedChunkSpans arr).flatMap fun stored =>
      (spanChunks arr stored).flatMap (chunkEvents m arr decode depth none) := by
  rw [sweepCells, iterPopulatedChunks, List.flatMap_assoc]
  rfl

theorem cell_of_sweepCells {depth : ℕ} {s : Sample β}
    (hs : .ok s ∈ sweepCells m arr decode depth none none) : s.cell < arr.shape := by
  rw [sweepCells_none] at hs
  obtain ⟨stored, -, hs⟩ := List.mem_flatMap.mp hs
  rw [flatMap_spanChunks] at hs
  obtain ⟨x, -, hs⟩ := List.mem_flatMap.mp hs
  rw [startEvents] at hs
  cases hx : chunkAt arr stored.2 x with
  | none => rw [hx] at hs; cases hs
  | some c =>
    rw [hx] at hs
    exact (cell_of_chunkEvents hx hs).2.2

theorem sweepCells_some (depth : ℕ) (span : ℕ × ℕ) :
    sweepCells m arr decode depth (some span) (some (storedChunkSpans arr)) =
      (storedChunkSpans arr).flatMap fun stored =>
        (spanChunks arr (coveringSpan arr span stored)).flatMap
          (chunkEvents m arr decode depth (some span)) := by
  rw [sweepCells, iterPopulatedChunks, List.flatMap_assoc]
  refine List.flatMap_congr fun stored _ => ?_
  dsimp only
  split_ifs with hempty
  · rw [spanChunks_eq, starts_of_le _ hempty]
    rfl
  · rfl

/-- An empty span covers no chunk. -/
theorem sweepCells_empty (depth : ℕ) :
    sweepCells m arr decode depth (some (0, 0)) (some (storedChunkSpans arr)) = [] := by
  rw [sweepCells_some, List.flatMap_eq_nil_iff]
  intro stored _
  have hcover : (coveringSpan arr (0, 0) stored).2 = 0 := by simp [coveringSpan]
  rw [spanChunks_eq, starts_of_le _ (by rw [hcover]; exact Nat.zero_le _)]
  rfl

/-- The events of a restricted sweep are the pruned events of the full one. -/
theorem sweepCells_pruned (hc : 0 < arr.chunk) (hspan : arr.chunk ∣ arr.span) {span : ℕ × ℕ}
    {p : Sample β → Bool} (depth : ℕ)
    (hp : ∀ s : Sample β, s.cell < arr.shape →
      (p s = true ↔ span.1 ≤ s.cell ∧ s.cell < span.2)) :
    Pruned p (sweepCells m arr decode depth none none)
      (sweepCells m arr decode depth (some span) (some (storedChunkSpans arr))) := by
  rw [sweepCells_none, sweepCells_some]
  refine .flatMap fun stored hstored => spanChunks_pruned hc ?_ hp
  obtain ⟨o, -, rfl⟩ := List.mem_map.mp hstored
  exact Dvd.dvd.mul_left hspan o

variable (decode) in
/-- A restricted read and the full read are generators, one the other pruned. -/
theorem sweep_generate (hm : m.Lawful) (hfit : g.Fits cellOrder) {subtree : Subtree} {w k h e : ℕ}
    (hn : subtree.Names m w) (hw : Area m w k h) (hk : k ≤ cellOrder)
    (hshape : arr.shape = g.cells cellOrder) (hchunk : arr.chunk = 4 ^ e)
    (hspan : arr.chunk ∣ arr.span) (hplaced : Placed m arr cellOrder g) (hwritten : Written arr) :
    ∃ es es', sweep m arr decode none = generate es ∧
      sweep m arr decode (some subtree) = generate es' ∧
      Pruned (fun s : Sample β => below cellOrder k h (g.start + s.cell)) es es' ∧
      (∀ s, .ok s ∈ es → s.cell < arr.shape) ∧
      ((∀ i < arr.shape, below cellOrder k h (g.start + i) = false) → es' = []) := by
  have hside := tensorSide_four_pow hchunk
  have hpos : 0 < arr.chunk := hchunk ▸ by positivity
  refine ⟨sweepCells m arr decode e none none, ?_⟩
  by_cases hnone : arr.ordinals = []
  · have hspans : storedChunkSpans arr = [] := by rw [storedChunkSpans, hnone]; rfl
    obtain ⟨label, hnorm⟩ := normalizeSubtree_of_area hn hw
    have hpart : subtreeSpan m arr (some subtree) = .ok (some ((0, 0), none), some []) := by
      simp only [subtreeSpan, hspans, hnorm, Except.map]
    refine ⟨[], ?_, ?_, ?_, fun _ => cell_of_sweepCells, fun _ => rfl⟩
    · simp only [sweep, hside, subtreeSpan, Option.map_none]
    · simp only [sweep, hside, hpart]
      rfl
    · rw [sweepCells_none, hspans]
      exact .nil
  · obtain ⟨index, hanchor, hindex, hnz⟩ := exists_anchor hwritten hnone
    have harea := hplaced index hindex hnz
    obtain ⟨a, b, warning, hcell, hcover, hbounds⟩ := subtreeCellSpan_spec hm hfit hn hw hk
      (hshape ▸ hindex) harea arr.field
    have hpart : subtreeSpan m arr (some subtree) =
        .ok (some ((a, b), warning), some (storedChunkSpans arr)) := by
      rw [subtreeSpan_of_anchor hanchor harea, hshape, hcell]
      rfl
    refine ⟨sweepCells m arr decode e (some (a, b)) (some (storedChunkSpans arr)), ?_, ?_, ?_,
      fun _ => cell_of_sweepCells, ?_⟩
    · simp only [sweep, hside, subtreeSpan, Option.map_none]
    · simp only [sweep, hside, hpart, Option.map_some]
    · exact sweepCells_pruned hpos hspan e fun s hs => (hcover s.cell (hshape ▸ hs)).symm
    · intro hdisjoint
      rcases hbounds with ⟨rfl, rfl⟩ | ⟨hlt, hle⟩
      · exact sweepCells_empty e
      · have hin := (hcover a (by omega)).mp ⟨le_rfl, hlt⟩
        rw [hdisjoint a (hshape ▸ by omega)] at hin
        cases hin

/-- Being below a word is having it as the ancestor at its order. -/
theorem below_iff_clip (hm : m.Lawful) {w k h x nested : ℕ} (hw : Area m w k h) (hk : k ≤ cellOrder)
    (hx : Area m x cellOrder nested) :
    below cellOrder k h nested = true ↔ m.clip2order k x = .ok w := by
  obtain ⟨a, hclip, ha⟩ := hm.clip hx hk
  rw [below, beq_iff_eq, hclip]
  constructor
  · intro heq
    rw [heq] at ha
    rw [hm.unique ha hw]
  · intro heq
    obtain rfl := Except.ok.inj heq
    rw [← ha.healpix, hw.healpix]

/-- The cells under a root are below every ancestor of the root. -/
theorem below_of_root {depth root k h i : ℕ} (hk : k ≤ cellOrder - depth) (hd : depth ≤ cellOrder)
    (hroot : root / 4 ^ (cellOrder - depth - k) = h) (hi : i < 4 ^ depth) :
    below cellOrder k h (root * 4 ^ depth + i) = true := by
  have hsplit : cellOrder - k = depth + (cellOrder - depth - k) := by omega
  rw [below, beq_iff_eq, hsplit, pow_add, ← Nat.div_div_eq_div_mul, Nat.mul_comm,
    Nat.mul_add_div (by positivity), Nat.div_eq_of_lt hi, Nat.add_zero, hroot]

/-- A `subtree=` read, on every nested axis and for every word of order at most the cell
order: it yields what the unrestricted sweep yields below the word. -/
theorem sweep_subtree (hm : m.Lawful) (hfit : g.Fits cellOrder)
    (decode : ℕ → ℕ → Bytes → Except String β) (subtree : Subtree) {w k h : ℕ}
    (hn : subtree.Names m w) (hw : Area m w k h) (hk : k ≤ cellOrder) (arr : Ragged)
    (hshape : arr.shape = g.cells cellOrder) (hchunk : ∃ e, arr.chunk = 4 ^ e)
    (hspan : arr.chunk ∣ arr.span) :
    (Placed m arr cellOrder g → Written arr →
      let full := sweep m arr decode none
      let part := sweep m arr decode (some subtree)
      let kept := full.yields.filter fun s => below cellOrder k h (g.start + s.cell)
      (full.raised = none → part = ⟨kept, none⟩) ∧ kept <+: part.yields ∧
      ((∀ i < arr.shape, below cellOrder k h (g.start + i) = false) → part = ⟨[], none⟩) ∧
      (∀ depth root, g = .subtree depth root → k ≤ cellOrder - depth →
        root / 4 ^ (cellOrder - depth - k) = h → full.raised = none → part = full) ∧
      ∀ i < arr.shape, arr.morton i ≠ 0 →
        (below cellOrder k h (g.start + i) = true ↔ m.clip2order k (arr.morton i) = .ok w)) ∧
    ∀ index word nested, arr.anchor = some (index, word) → Area m word cellOrder nested →
      g.position nested ≠ index →
      ∃ label, sweep m arr decode (some subtree) =
        ⟨[], some (notNested arr.field index label (g.position nested))⟩ := by
  obtain ⟨e, he⟩ := hchunk
  refine ⟨fun hplaced hwritten => ?_, fun index word nested hanchor harea hbad => ?_⟩
  · obtain ⟨es, es', hfull, hpart, hpruned, hcells, hdisjoint⟩ := sweep_generate decode hm hfit hn
      hw hk hshape he hspan hplaced hwritten
    dsimp only
    rw [hfull, hpart]
    refine ⟨hpruned.ended, hpruned.initial, fun hno => ?_, fun depth root hg hk' hroot hok => ?_,
      fun i hi hnz => below_iff_clip hm hw hk (hplaced i hi hnz)⟩
    · rw [hdisjoint hno]
      rfl
    · subst hg
      have hall : ∀ s ∈ (generate es).yields,
          below cellOrder k h ((Geometry.subtree depth root).start + s.cell) = true := fun s hs =>
        below_of_root hk' hfit.1 hroot ((hcells s (mem_of_mem_generate hs)).trans_eq hshape)
      rw [hpruned.ended hok, List.filter_eq_self.mpr hall, ← hok]
  · obtain ⟨label, hspan⟩ := subtreeCellSpan_misplaced hm hfit hn hw hk harea hbad arr.field
    refine ⟨label, ?_⟩
    simp only [sweep, tensorSide_four_pow he, subtreeSpan_of_anchor hanchor harea, hshape, hspan,
      Except.map]

/-- The base cell and a digit for every order. -/
def numberedLabel : ℕ → ℕ → List Char
  | 0, h => [Char.ofNat (48 + h % 12)]
  | k + 1, h => numberedLabel k (h / 4) ++ [Char.ofNat (49 + h % 4)]

/-- The nested id a label spells. -/
def labelNested : List Char → ℕ
  | [] => 0
  | base :: digits => digits.foldl (fun h d => 4 * h + (d.toNat - 49)) (base.toNat - 48)

/-- Words that number the cells order by order, from one. -/
def numbered : Mortie where
  decimalRepr w := if w = 0 then .error "empty word"
    else .ok (numberedLabel (Nat.log2 (w + 3) / 2 - 1) (w + 3 - 4 ^ (Nat.log2 (w + 3) / 2)))
  fromDecimal label := .ok (4 ^ label.length - 3 + labelNested label)
  clip2order j w :=
    let order := Nat.log2 (w + 3) / 2 - 1
    if 0 ≤ j ∧ j.toNat ≤ order then
      .ok (4 ^ (j.toNat + 1) - 3 + (w + 3 - 4 ^ (order + 1)) / 4 ^ (order - j.toNat))
    else .error "order out of range"
  mort2healpix w := w + 3 - 4 ^ (Nat.log2 (w + 3) / 2)
  rankToXy rank _ := (rank, 0)

theorem log2_numbered {k h : ℕ} (hh : h < 12 * 4 ^ k) : Nat.log2 (4 ^ (k + 1) - 3 + h + 3) / 2 = k + 1 := by
  have h4 : (4 : ℕ) ^ (k + 1) = 2 ^ (2 * (k + 1)) := by rw [pow_mul]; norm_num
  have hge : 4 ≤ 4 ^ (k + 1) := Nat.le_self_pow (by omega) 4
  have hsucc : 4 ^ (k + 1) = 4 * 4 ^ k := by rw [pow_succ, Nat.mul_comm]
  have hlog : 2 * (k + 1) ≤ Nat.log2 (4 ^ (k + 1) - 3 + h + 3) :=
    (Nat.le_log2 (by omega)).mpr (by omega)
  have hlt : Nat.log2 (4 ^ (k + 1) - 3 + h + 3) < 2 * (k + 1) + 2 := by
    have h16 : 2 ^ (2 * (k + 1) + 2) = 4 * 4 ^ (k + 1) := by rw [h4, pow_add, Nat.mul_comm]; rfl
    refine (Nat.log2_lt (by omega)).mpr ?_
    rw [h16]
    omega
  omega

theorem length_numberedLabel (k h : ℕ) : (numberedLabel k h).length = k + 1 := by
  induction k generalizing h with
  | zero => rfl
  | succ k ih => rw [numberedLabel, List.length_append, ih, List.length_singleton]

theorem toNat_digit {v : ℕ} (h : v < 128) : (Char.ofNat v).toNat = v := by
  have hall : ∀ v < 128, (Char.ofNat v).toNat = v := by decide
  exact hall v h

theorem head_numberedLabel (k h : ℕ) : (numberedLabel k h).head? ≠ some '-' := by
  induction k generalizing h with
  | zero =>
    intro hhead
    have hcode := congrArg Char.toNat (Option.some.inj hhead)
    rw [toNat_digit (by omega)] at hcode
    have hdash : '-'.toNat = 45 := rfl
    omega
  | succ k ih =>
    have hne : numberedLabel k (h / 4) ≠ [] := by
      intro hnil
      have hlen := length_numberedLabel k (h / 4)
      rw [hnil] at hlen
      cases hlen
    rw [numberedLabel, List.head?_append_of_ne_nil _ hne]
    exact ih _

theorem labelNested_numberedLabel {k h : ℕ} (hh : h < 12 * 4 ^ k) :
    labelNested (numberedLabel k h) = h := by
  induction k generalizing h with
  | zero =>
    show (Char.ofNat (48 + h % 12)).toNat - 48 = h
    rw [toNat_digit (by omega)]
    omega
  | succ k ih =>
    have hquot : h / 4 < 12 * 4 ^ k := by
      rw [pow_succ] at hh
      omega
    have hlast : labelNested (numberedLabel k (h / 4) ++ [Char.ofNat (49 + h % 4)]) =
        4 * labelNested (numberedLabel k (h / 4)) + ((Char.ofNat (49 + h % 4)).toNat - 49) := by
      have hlen := length_numberedLabel k (h / 4)
      generalize numberedLabel k (h / 4) = label at hlen ⊢
      cases label with
      | nil => cases hlen
      | cons base digits => exact List.foldl_append
    rw [numberedLabel, hlast, ih hquot, toNat_digit (by omega)]
    omega

theorem area_numbered {w k h : ℕ} :
    Area numbered w k h ↔ w = 4 ^ (k + 1) - 3 + h ∧ h < 12 * 4 ^ k := by
  have hge : 4 ≤ 4 ^ (k + 1) := Nat.le_self_pow (by omega) 4
  constructor
  · rintro ⟨⟨label, hlabel, -, horder⟩, hhealpix, hrange⟩
    simp only [numbered] at hlabel hhealpix
    split_ifs at hlabel with hzero
    obtain rfl := Except.ok.inj hlabel
    rw [decimalOrder, if_neg (head_numberedLabel _ _), length_numberedLabel] at horder
    have hfour : 2 ≤ Nat.log2 (w + 3) := (Nat.le_log2 (by omega)).mpr (by omega)
    have hlog : Nat.log2 (w + 3) / 2 = k + 1 := by omega
    have hle : 2 ^ (2 * (k + 1)) ≤ w + 3 := (Nat.le_log2 (by omega)).mp (by omega)
    have h4 : (4 : ℕ) ^ (k + 1) = 2 ^ (2 * (k + 1)) := by rw [pow_mul]; norm_num
    rw [hlog] at hhealpix
    exact ⟨by omega, hrange⟩
  · rintro ⟨rfl, hrange⟩
    have hlog := log2_numbered hrange
    have hnested : 4 ^ (k + 1) - 3 + h + 3 - 4 ^ (k + 1) = h := by omega
    refine ⟨⟨numberedLabel k h, ?_, ?_, ?_⟩, ?_, hrange⟩
    · simp only [numbered, hlog, Nat.add_sub_cancel, hnested]
      rw [if_neg (by omega)]
    · simp only [numbered, length_numberedLabel, labelNested_numberedLabel hrange]
    · rw [decimalOrder, if_neg (head_numberedLabel k h), length_numberedLabel]
      omega
    · simp only [numbered, hlog, hnested]

theorem numbered_lawful : numbered.Lawful where
  unique h h' := by
    rw [(area_numbered.mp h).1, (area_numbered.mp h').1]
  clip {w k h j} hw hj := by
    obtain ⟨rfl, hrange⟩ := area_numbered.mp hw
    have hge : 4 ≤ 4 ^ (k + 1) := Nat.le_self_pow (by omega) 4
    refine ⟨4 ^ (j + 1) - 3 + h / 4 ^ (k - j), ?_, area_numbered.mpr ⟨rfl, ?_⟩⟩
    · have hid : 4 ^ (k + 1) - 3 + h + 3 - 4 ^ (k + 1) = h := by omega
      simp only [numbered, log2_numbered hrange, Int.toNat_natCast, Nat.add_sub_cancel, hid]
      rw [if_pos ⟨by omega, hj⟩]
    · refine Nat.div_lt_of_lt_mul ?_
      have hsplit : 4 ^ (k - j) * (12 * 4 ^ j) = 12 * 4 ^ k := by
        rw [Nat.mul_left_comm, ← Nat.pow_add, Nat.sub_add_cancel hj]
      rwa [hsplit]

/-- The subtree of the order-0 cell 3, in chunks of four cells and objects of two chunks. The
payload of cell `i` is the byte `i`; cell 5 has none. -/
def sixteenCells : Ragged where
  field := "h_tdigest"
  shape := 16
  chunk := 4
  shard := some 8
  ordinals := [1, 0]
  raw i := if i = 5 then [] else [UInt8.ofNat i]
  morton i := 4 ^ 3 - 3 + (48 + i)

/-- One centroid of weight one a byte. -/
def byteDigest (raw : Bytes) : Except String Digest := .ok (raw.map fun b => ⟨b.toNat, 1⟩)

theorem sweep_subtree_sixteenCells :
    ((readRawValues numbered sixteenCells byteDigest (some (.word 26))).yields.map
      fun s => (s.cell, s.values)) = [(4, [4]), (6, [6]), (7, [7])] := by
  have hnames : (Subtree.word 26).Names numbered 26 := rfl
  have harea : Area numbered 26 1 13 := area_numbered.mpr ⟨rfl, by decide⟩
  have hplaced : Placed numbered sixteenCells 2 (.subtree 2 3) := fun i hi _ =>
    area_numbered.mpr ⟨rfl, by
      have hi : i < 16 := hi
      have hstart : (Geometry.subtree 2 3).start = 48 := rfl
      omega⟩
  have hwritten : Written sixteenCells := by
    intro o ho
    refine ⟨o * 8, le_rfl, Nat.lt_add_of_pos_right (by decide), ?_, ?_⟩
    · rcases List.mem_pair.mp ho with rfl | rfl <;> decide
    · simp [sixteenCells]
  have hfits : (Geometry.subtree 2 3).Fits 2 := ⟨le_rfl, by decide⟩
  obtain ⟨hread, -⟩ := sweep_subtree numbered_lawful hfits (rawValues byteDigest)
    (.word 26) hnames harea (by decide) sixteenCells rfl ⟨1, rfl⟩ ⟨2, rfl⟩
  have hfull := (hread hplaced hwritten).1 (by decide +kernel)
  rw [readRawValues, hfull]
  decide +kernel

end Sweep

end Zagg.Readers
