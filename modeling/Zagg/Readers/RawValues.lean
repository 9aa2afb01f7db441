import Zagg.Readers.Subtree
import Zagg.Stats.Provenance
import Zagg.Stats.Waveform

/-!
# Raw value readout

The raw reader takes a digest for unmerged when no centroid weighs more than 1. For counted
digests, whatever the merges, that is so exactly when no two observations share a centroid, and
the means are then the stored observations. Flux weights are not counts: there the reader gives
the samples back where each has a centroid of its own.
-/
namespace Zagg.Readers

open Zagg.Lib Zagg.Stats

variable {m : Mortie} {arr : Ragged} {β : Type}

section Cells

/-- A chunk's ranks carry the bytes of their cells. -/
theorem raw_of_spanChunks {stored : ℕ × ℕ} {c : ℕ × List (ℕ × Bytes)} (hc : c ∈ spanChunks arr stored)
    {r : ℕ × Bytes} (hr : r ∈ c.2) : r.2 = arr.raw (c.1 + r.1) := by
  rw [spanChunks_eq] at hc
  obtain ⟨x, -, hx⟩ := List.mem_filterMap.mp hc
  simp only [chunkAt] at hx
  split_ifs at hx
  obtain rfl := Option.some.inj hx
  obtain ⟨z, hz, hzr⟩ := List.mem_filterMap.mp hr
  split_ifs at hzr
  obtain rfl := Option.some.inj hzr
  obtain ⟨hlt, hraw⟩ := List.mem_zipIdx' hz
  dsimp only
  rw [hraw]
  simp only [Ragged.slice, List.getElem_map, List.getElem_range', Nat.one_mul]

theorem raw_of_iterPopulatedChunks {span : Option (ℕ × ℕ)} {spans : Option (List (ℕ × ℕ))}
    {c : ℕ × List (ℕ × Bytes)} (hc : c ∈ iterPopulatedChunks arr span spans) {r : ℕ × Bytes}
    (hr : r ∈ c.2) : r.2 = arr.raw (c.1 + r.1) := by
  obtain ⟨stored, -, hc⟩ := List.mem_flatMap.mp hc
  cases span with
  | none => exact raw_of_spanChunks hc hr
  | some span =>
    dsimp only at hc
    split_ifs at hc
    · cases hc
    · exact raw_of_spanChunks hc hr

/-- A yielded tuple carries what its cell's bytes decode to. -/
theorem decode_of_sweep {decode : ℕ → ℕ → Bytes → Except String β} {subtree : Option Subtree}
    {s : Sample β} (hs : s ∈ (sweep m arr decode subtree).yields) :
    ∃ word rank, decode word rank (arr.raw s.cell) = .ok s.values := by
  unfold sweep at hs
  split at hs
  · cases hs
  · split at hs
    · cases hs
    · obtain ⟨c, hc, hs⟩ := List.mem_flatMap.mp (mem_of_mem_generate hs)
      split at hs
      · cases List.mem_singleton.mp hs
      · next word _ =>
        obtain ⟨r, hr, hrs⟩ := List.mem_filterMap.mp hs
        split_ifs at hrs
        have hraw := raw_of_iterPopulatedChunks hc hr
        cases hd : decode word r.1 r.2 with
        | error e => rw [hd] at hrs; cases hrs
        | ok values =>
          rw [hd] at hrs
          cases hrs
          exact ⟨word, r.1, hraw ▸ hd⟩

end Cells

section Values

/-- `rawValues` goes by the weights. -/
theorem rawValues_eq {element : Bytes → Except String Digest} (word rank : ℕ) {raw : Bytes}
    {digest : Digest} (h : element raw = .ok digest) :
    ((∀ c ∈ digest, c.weight ≤ 1) ∧
        rawValues element word rank raw = .ok (digest.map Centroid.mean)) ∨
      (∃ c ∈ digest, 1 < c.weight) ∧ ∃ e, rawValues element word rank raw = .error e := by
  rw [rawValues, h]
  simp only [bind, Except.bind, pure, Except.pure]
  by_cases hheavy : digest.any (fun c => 1 < c.weight) = true
  · rw [if_pos hheavy]
    obtain ⟨c, hc, hweight⟩ := List.any_eq_true.mp hheavy
    exact .inr ⟨⟨c, hc, of_decide_eq_true hweight⟩, _, rfl⟩
  · rw [if_neg hheavy]
    refine .inl ⟨fun c hc => ?_, rfl⟩
    by_contra hweight
    exact hheavy (List.any_eq_true.mpr ⟨c, hc, decide_eq_true (not_le.mp hweight)⟩)

/-- The stored observations in ascending order, one entry each. -/
structure Recovered (num : Numerics) (observations values : List ℚ) : Prop where
  perm : values.Perm (observations.map num.float32)
  sorted : values.Pairwise (· ≤ ·)

variable {num : Numerics} {declared : List Channel}

theorem recovered_of_eval (hnum : Rounds num) {t : MergeTree} {p : Part}
    (h : t.eval num declared = .ok p) (hlight : ∀ c ∈ p.digest, c.weight ≤ 1) :
    Recovered num (finiteValues t.observations) (p.digest.map Centroid.mean) := by
  obtain ⟨groups, hmade, hperm⟩ := made_eval hnum t h
  obtain ⟨hmeans, hsorted⟩ := hmade.lossless hlight
  exact ⟨hmeans ▸ hperm.map _, hsorted⟩

/-- The flux digest with a centroid for every surviving sample. -/
theorem recovered_of_flux (hnum : Rounds num) {delta : Nat} {w : Waveform ℚ}
    {kept : List (FluxRow ℚ)} {p : Part} (hkept : waveformRows w = .ok kept)
    (h : buildWaveformDigest num delta w = .ok p) (hlen : kept.length ≤ p.digest.length) :
    Recovered num (kept.map FluxRow.value) (p.digest.map Centroid.mean) := by
  rw [buildWaveformDigest, hkept] at h
  simp only [bind, Except.bind, pure, Except.pure] at h
  split_ifs at h with hnil
  · obtain rfl := Except.ok.inj h
    rw [hnil]
    exact ⟨.refl _, .nil⟩
  · obtain rfl := Except.ok.inj h
    generalize hrows : kept.map (fun r => (⟨r.value, r.weight, r.words⟩ : Row)) = rows at hlen
    have hperm : (sortByMean rows).Perm rows := List.perm_insertionSort _ _
    have hmeans : rows.map Row.mean = kept.map FluxRow.value := by
      rw [← hrows, List.map_map]
      rfl
    have hpos : ∀ r ∈ sortByMean rows, 0 < r.weight := by
      intro r hr
      obtain ⟨k, hk, rfl⟩ := List.mem_map.mp (hrows ▸ hperm.mem_iff.mp hr)
      exact pos_of_mem_waveformRows hkept hk
    have hcount : (sortByMean rows).length = kept.length := by
      rw [hperm.length_eq, ← hrows, List.length_map]
    rw [compressed_of_length hpos (hcount.trans_le hlen), List.map_map]
    constructor
    · rw [← hmeans, List.map_map]
      exact hperm.map _
    · rw [List.pairwise_map]
      exact (sortByMean_sorted rows).imp fun hle => hnum.mono hle

end Values

/-- What the raw reader yields for the payloads of the package's writers. A counted digest, under
any merges, is refused exactly when two finite observations share a centroid. -/
theorem raw_values_sound {num : Numerics} (hnum : Rounds num) (m : Mortie) (arr : Ragged)
    (element : Bytes → Except String Digest) (subtree : Option Subtree) :
    (∀ s ∈ (readRawValues m arr element subtree).yields, ∀ digest,
      element (arr.raw s.cell) = .ok digest →
        (∀ t declared p, MergeTree.eval num declared t = .ok p → p.digest = digest →
          Recovered num (finiteValues t.observations) s.values) ∧
        ∀ delta w kept p, waveformRows w = .ok kept → buildWaveformDigest num delta w = .ok p →
          p.digest = digest → kept.length ≤ digest.length →
          Recovered num (kept.map FluxRow.value) s.values) ∧
    ∀ t declared p, MergeTree.eval num declared t = .ok p →
      ∀ word rank raw, element raw = .ok p.digest →
        ((∃ e, rawValues element word rank raw = .error e) ↔
          p.digest.length < (finiteValues t.observations).length) := by
  constructor
  · intro s hs digest hdigest
    obtain ⟨word, rank, hvalues⟩ := decode_of_sweep hs
    rcases rawValues_eq word rank hdigest with ⟨hlight, hok⟩ | ⟨-, e, herror⟩
    · obtain hmeans := Except.ok.inj (hok.symm.trans hvalues)
      rw [← hmeans]
      refine ⟨?_, ?_⟩
      · rintro t declared p hp rfl
        exact recovered_of_eval hnum hp hlight
      · rintro delta w kept p hkept hp rfl hlen
        exact recovered_of_flux hnum hkept hp hlen
    · rw [herror] at hvalues
      cases hvalues
  · intro t declared p hp word rank raw hraw
    obtain ⟨groups, hmade, hperm⟩ := made_eval hnum t hp
    rw [← hperm.length_eq, ← hmade.heavy_iff]
    rcases rawValues_eq word rank hraw with ⟨hlight, hok⟩ | ⟨hheavy, herror⟩
    · refine iff_of_false ?_ ?_
      · rintro ⟨e, he⟩
        rw [hok] at he
        cases he
      · rintro ⟨c, hc, hweight⟩
        exact absurd hweight (not_lt.mpr (hlight c hc))
    · exact iff_of_true herror hheavy

theorem smallNumerics_rounds : Rounds smallNumerics :=
  ⟨monotone_id, fun _ => rfl, rfl, rfl⟩

theorem raw_values_sound_sixteenCells :
    Recovered smallNumerics (finiteValues [⟨some 4, []⟩, ⟨none, []⟩]) [4] ∧
      ((∃ e, rawValues (fun _ => .ok [⟨2, 2⟩]) 0 0 [7] = .error e) ↔ 1 < 2) := by
  have hsample : (4, [4]) ∈ (readRawValues numbered sixteenCells byteDigest none).yields.map
      fun s => (s.cell, s.values) := by decide +kernel
  obtain ⟨s, hs, hcell⟩ := List.mem_map.mp hsample
  obtain ⟨hcell, hvalues⟩ := Prod.mk.inj hcell
  rw [← hvalues]
  constructor
  · exact ((raw_values_sound smallNumerics_rounds numbered sixteenCells byteDigest none).1 s hs
      [⟨4, 1⟩] (by rw [hcell]; rfl)).1 (.build 5 [⟨some 4, []⟩, ⟨none, []⟩]) [] ⟨[⟨4, 1⟩], []⟩
      (by decide +kernel) rfl
  · exact (raw_values_sound smallNumerics_rounds numbered sixteenCells (fun _ => .ok [⟨2, 2⟩]) none).2
      (.build 1 [⟨some 1, []⟩, ⟨some 3, []⟩]) [] ⟨[⟨2, 2⟩], []⟩ (by decide +kernel) 0 0 [7] rfl

/-- A value of 25 significant bits is stored, and read out, rounded. -/
theorem raw_values_rounded :
    MergeTree.eval spanNumerics [] (.build 5 [⟨some 16777217, []⟩]) = .ok ⟨[⟨16777216, 1⟩], []⟩ ∧
      rawValues (fun _ => .ok [⟨16777216, 1⟩]) 0 0 [7] = .ok [16777216] ∧
      finiteValues [⟨some 16777217, []⟩] ≠ [16777216] := by
  decide +kernel

end Zagg.Readers
