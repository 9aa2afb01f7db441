import Mathlib.Data.List.Forall2
import Zagg.Spill.MergeFold

/-!
# The merged chunk outputs

Every row is in the buffer, the open block, the block in flight or the folded state,
through every flush and every close. When the last block is folded the running state is
that of all rows: the occupied cells and counts are exact, and a digest weighs the finite
selected values of its cell as long as a float32 holds that number.
-/
namespace Zagg.Spill

open Zagg.Lib Zagg.Processing Zagg.Stats

variable {κ ρ : Type} [LinearOrder κ] {num : Numerics} {cfg : MergeConfig κ ρ}

/-- The finite values of these rows that the field's mask selects. -/
def selectedCount (cfg : MergeConfig κ ρ) (f : DigestField) (rows : List ρ) : Nat :=
  rows.countP fun x => f.selects (observe cfg.layout x) &&
    (valueOf cfg f.source (observe cfg.layout x)).isSome

section Weights

omit [LinearOrder κ] in
theorem counts_buildField (hnum : ExactCounts num) (f : DigestField) {rows : List ρ}
    (hfit : selectedCount cfg f rows ≤ maxExact) :
    Counts ((buildField num cfg f (rows.map (observe cfg.layout))).digest.map Centroid.weight)
      (selectedCount cfg f rows) := by
  have hfinite : finiteCount (((rows.map (observe cfg.layout)).filter f.selects).map
      (valueOf cfg f.source)) = selectedCount cfg f rows := by
    rw [finiteCount, List.countP_map, List.countP_filter, List.countP_map, selectedCount]
    exact List.countP_congr fun x _ => by simp [and_comm]
  have h := counts_buildTdigest hnum f.delta f.channels
    (((rows.map (observe cfg.layout)).filter f.selects).map (valueOf cfg f.source))
    ((List.range f.channels.length).map fun j =>
      ((rows.map (observe cfg.layout)).filter f.selects).map
        fun x => (channelWords cfg f x).getD j 0) (hfinite ▸ hfit)
  rw [hfinite] at h
  exact h

omit [LinearOrder κ] in
theorem selectedCount_append (f : DigestField) (rows rows' : List ρ) :
    selectedCount cfg f (rows ++ rows') = selectedCount cfg f rows + selectedCount cfg f rows' :=
  List.countP_append ..

/-- What the blocks add for a cell, block by block, and in all. -/
theorem counts_blockParts (hnum : ExactCounts num) (f : DigestField) (c : κ)
    (blocks : List (List ρ))
    (hfit : selectedCount cfg f (rowsAt cfg.layout.cell blocks.flatten c) ≤ maxExact) :
    ∃ ns, List.Forall₂ (fun p n => Counts (p.digest.map Centroid.weight) n)
        (blocks.filterMap (blockPart num cfg f c)) ns ∧
      ns.sum = selectedCount cfg f (rowsAt cfg.layout.cell blocks.flatten c) := by
  induction blocks with
  | nil => exact ⟨[], .nil, rfl⟩
  | cons rows blocks ih =>
    rw [List.flatten_cons, rowsAt_append, selectedCount_append] at hfit ⊢
    obtain ⟨ns, hall, hsum⟩ := ih (by omega)
    by_cases hnil : rowsAt cfg.layout.cell rows c = []
    · have hpart : blockPart num cfg f c rows = none := if_pos hnil
      rw [List.filterMap_cons_none hpart]
      refine ⟨ns, hall, ?_⟩
      rw [hsum, hnil]
      exact (Nat.zero_add _).symm
    · have hpart : blockPart num cfg f c rows = some _ := if_neg hnil
      rw [List.filterMap_cons_some hpart]
      refine ⟨_ :: ns, .cons (counts_buildField hnum f
        (by omega : selectedCount cfg f (rowsAt cfg.layout.cell rows c) ≤ maxExact)) hall, ?_⟩
      rw [List.sum_cons, hsum]

theorem counts_mergedParts (hnum : ExactCounts num) (f : DigestField) {ps : List Part}
    {ns : List Nat} (h : List.Forall₂ (fun p n => Counts (p.digest.map Centroid.weight) n) ps ns)
    (hfit : ns.sum ≤ maxExact) :
    Counts (((mergedParts num f ps).elim [] Part.digest).map Centroid.weight) ns.sum := by
  have hfold : ∀ {ps : List Part} {ns : List Nat} {p : Part} {n : Nat},
      List.Forall₂ (fun p n => Counts (p.digest.map Centroid.weight) n) ps ns →
      Counts (p.digest.map Centroid.weight) n → n + ns.sum ≤ maxExact →
      Counts ((ps.foldl (mergeTdigests num f.delta f.channels) p).digest.map Centroid.weight)
        (n + ns.sum) := by
    intro ps ns p n h
    induction h generalizing p n with
    | nil => exact fun hp _ => hp
    | cons hq _ ih =>
      intro hp hle
      rw [List.sum_cons, ← Nat.add_assoc] at hle ⊢
      exact ih (counts_mergeTdigests hnum f.delta f.channels hp hq (by omega)) hle
  cases h with
  | nil => exact counts_nil
  | cons hp hps => exact hfold hps hp hfit

end Weights

section Collapse

/-- The digest of a cell. -/
def digestOf (run : Running κ) (f : DigestField) (c : κ) : Digest :=
  ((run.digests f.name).running c).elim [] Part.digest

omit [LinearOrder κ] in
theorem finalizeKway_kway {run : Running κ} {f : DigestField} (hf : f ∈ cfg.digestFields)
    (hp : f.pairwise = false) (c : κ) :
    ((finalizeKway num cfg run).digests f.name).running c =
      if (run.digests f.name).parts c = [] then (run.digests f.name).running c
      else some (mergeTdigestsKway num f.delta f.channels ((run.digests f.name).parts c)) := by
  have hmem : f ∈ cfg.digestFields.filter fun f => !f.pairwise :=
    List.mem_filter.mpr ⟨hf, by rw [hp]; rfl⟩
  have hnodup : ((cfg.digestFields.filter fun f => !f.pairwise).map DigestField.name).Nodup :=
    cfg.digestNames.sublist (List.filter_sublist.map _)
  dsimp only [finalizeKway]
  rw [foldl_update_of_mem DigestField.name (fun f (st : DigestState κ) =>
    { running := fun c => if st.parts c = [] then st.running c
        else some (mergeTdigestsKway num f.delta f.channels (st.parts c))
      parts := fun _ => [] }) hnodup _ hmem]

omit [LinearOrder κ] in
theorem finalizeKway_pairwise {run : Running κ} {f : DigestField} (hf : f ∈ cfg.digestFields)
    (hp : f.pairwise = true) :
    (finalizeKway num cfg run).digests f.name = run.digests f.name := by
  have hout : f.name ∉ (cfg.digestFields.filter fun f => !f.pairwise).map DigestField.name := by
    intro hmem
    obtain ⟨f', hf', hname⟩ := List.mem_map.mp hmem
    obtain ⟨hmem', hp'⟩ := List.mem_filter.mp hf'
    have hsame := List.inj_on_of_nodup_map cfg.digestNames hmem' hf hname
    rw [hsame, hp] at hp'
    cases hp'
  dsimp only [finalizeKway]
  rw [foldl_update_of_notMem DigestField.name (fun f (st : DigestState κ) =>
    { running := fun c => if st.parts c = [] then st.running c
        else some (mergeTdigestsKway num f.delta f.channels (st.parts c))
      parts := fun _ => [] }) _ _ hout]

omit [LinearOrder κ] in
theorem finalizeKway_composition {run : Running κ} {f : CompositionField}
    (hf : f ∈ cfg.compositionFields) (c : κ) :
    ((finalizeKway num cfg run).compositions f.name).packed c =
      if (run.compositions f.name).parts c = [] then (run.compositions f.name).packed c
      else some (mergeCompositionKway ((run.compositions f.name).parts c),
        (((run.compositions f.name).parts c).map Prod.snd).sum) := by
  dsimp only [finalizeKway]
  rw [foldl_update_of_mem CompositionField.name (fun _ (st : CompositionState κ) =>
    { packed := fun c => if st.parts c = [] then st.packed c
        else some (mergeCompositionKway (st.parts c), ((st.parts c).map Prod.snd).sum)
      parts := fun _ => [] }) cfg.compositionNames _ hf]

/-- A cell's digest weighs its finite selected values, up to what a float32 counts. -/
theorem total_digestOf (hnum : ExactCounts num) {run : Running κ} {blocks : List (List ρ)}
    (h : Folded num cfg run blocks) {f : DigestField} (hf : f ∈ cfg.digestFields) (c : κ)
    (hfit : selectedCount cfg f (rowsAt cfg.layout.cell blocks.flatten c) ≤ maxExact) :
    (digestOf (finalizeKway num cfg run) f c).total =
      selectedCount cfg f (rowsAt cfg.layout.cell blocks.flatten c) := by
  obtain ⟨ns, hall, hsum⟩ := counts_blockParts hnum f c blocks hfit
  rw [← hsum] at hfit ⊢
  have hrunning := h.running f hf c
  have hparts := h.parts f hf c
  unfold digestOf
  cases hp : f.pairwise with
  | true =>
    rw [hp, if_pos rfl] at hrunning
    rw [finalizeKway_pairwise hf hp, hrunning]
    exact (counts_mergedParts hnum f hall hfit).sum
  | false =>
    rw [hp, if_neg Bool.false_ne_true] at hrunning hparts
    rw [finalizeKway_kway hf hp, hrunning, hparts]
    split_ifs with hnil
    · rw [hnil] at hall
      rw [List.forall₂_nil_left_iff.mp hall]
      rfl
    · exact (counts_mergeTdigestsKway hnum f.delta f.channels hall hfit).sum

end Collapse

section Runs

variable (cfg) in
omit [LinearOrder κ] in
theorem closeBlock_sink {s : SpillSink κ ρ} (h : s.parked = false) :
    (closeBlock cfg.sink s).2 = .done ∧ (closeBlock cfg.sink s).1.parked = false ∧
      (closeBlock cfg.sink s).1.closed = s.closed ++ [s.block] := by
  unfold closeBlock MergeConfig.sink
  cases cfg.overlap with
  | false => exact ⟨rfl, h, rfl⟩
  | true =>
    dsimp only
    rw [h]
    exact ⟨rfl, rfl, rfl⟩

variable (cfg) in
/-- Without faults a flush returns, and closes at most the open block. -/
theorem flush_sink {s : SpillSink κ ρ} (h : s.parked = false) :
    (flush cfg.sink s none).2 = .done ∧ (flush cfg.sink s none).1.parked = false ∧
      ((flush cfg.sink s none).1.closed = s.closed ∨
        ∃ b, (flush cfg.sink s none).1.closed = s.closed ++ [b]) := by
  have hok := fun b rows => (append_spec cfg.sink.layout cfg.sink.partOf b rows none).1.mpr nofun
  unfold flush
  split_ifs with hbuf
  · exact ⟨rfl, h, .inl rfl⟩
  · dsimp only
    rw [if_pos (hok _ _)]
    split_ifs with hnil hclose
    · exact ⟨rfl, h, .inl rfl⟩
    · obtain ⟨h1, h2, h3⟩ := closeBlock_sink cfg (s := { s with
        nObsTotal := s.nObsTotal + (concatAndGroup (cfg.sink.layout.cols.map Dtype.name)
          cfg.sink.layout.item cfg.sink.layout.cell s.buffer).2.2
        flushes := s.flushes + 1
        buffer := []
        bufferedGranules := 0
        occupied := s.occupied ++ [(concatAndGroup (cfg.sink.layout.cols.map Dtype.name)
          cfg.sink.layout.item cfg.sink.layout.cell s.buffer).2.1.map Prod.fst]
        block := (s.block.append cfg.sink.layout cfg.sink.partOf
          (sortRows cfg.sink.layout.cell s.buffer.flatten) none).1
        spillBytes := s.spillBytes + (s.block.append cfg.sink.layout cfg.sink.partOf
          (sortRows cfg.sink.layout.cell s.buffer.flatten) none).2.1 }) h
      exact ⟨h1, h2, .inr ⟨_, h3⟩⟩
    · exact ⟨rfl, h, .inl rfl⟩

/-- The steps of a run without faults. -/
def Action.faultless : Action ρ → Prop
  | .granule _ f => f = none
  | .drain f => f = none

theorem Action.faultless.quiet {a : Action ρ} (h : a.faultless) (s : SpillSink κ ρ) :
    Quiet cfg.sink s a := by
  cases a with
  | granule reads f =>
    obtain rfl : f = none := h
    exact fun _ _ hf => by cases hf
  | drain f =>
    obtain rfl : f = none := h
    exact fun _ hf => by cases hf

/-- Without faults the sink takes every step. -/
theorem step_sink {s : SpillSink κ ρ} (h : s.parked = false) {a : Action ρ} (ha : a.faultless) :
    ∃ t, step cfg.sink s a = some t ∧ t.parked = false ∧
      (t.closed = s.closed ∨ ∃ b, t.closed = s.closed ++ [b]) := by
  cases a with
  | granule reads f =>
    obtain rfl : f = none := ha
    simp only [step, granule]
    split_ifs with hfull
    · obtain ⟨h1, h2, h3⟩ := flush_sink cfg (s := { s with
        buffer := s.buffer ++ reads, bufferedGranules := s.bufferedGranules + 1 }) h
      generalize flush cfg.sink _ none = r at h1 h2 h3 ⊢
      obtain ⟨t, o⟩ := r
      obtain rfl : o = .done := h1
      exact ⟨t, rfl, h2, h3⟩
    · exact ⟨_, rfl, h, .inl rfl⟩
  | drain f =>
    obtain rfl : f = none := ha
    obtain ⟨h1, h2, h3⟩ := flush_sink cfg h
    simp only [step]
    generalize flush cfg.sink _ none = r at h1 h2 h3 ⊢
    obtain ⟨t, o⟩ := r
    obtain rfl : o = .done := h1
    exact ⟨t, rfl, h2, h3⟩

variable (num cfg)

/-- The blocks the reducer has folded and the one in flight, by their rows. -/
structure Reduced (s : MergeSink κ ρ) (folded pending : List (List ρ)) : Prop where
  inFlight : List.Forall₂ (fun b rows => Holds cfg.layout cfg.partOf b.partitions rows)
    s.inFlight.toList pending
  inline : cfg.overlap = false → pending = []
  running : Folded num cfg s.running folded

/-- Where the rows read so far are: folded, in flight, in the open block or buffered. -/
structure Kept (s : MergeSink κ ρ) (folded pending : List (List ρ)) (last : List ρ) : Prop where
  blocks : Blocks cfg.sink s.sink (folded ++ pending) last
  reduced : Reduced num cfg s folded pending
  sound : Sound cfg.sink s.sink
  parked : s.sink.parked = false

variable {num cfg}

theorem kept_start : Kept num cfg {} [] [] [] where
  blocks := blocks_start
  reduced := ⟨.nil, fun _ => rfl, folded_start⟩
  sound := sound_start
  parked := rfl

/-- The join waits for the block in flight. -/
theorem joinReducer_reduced {s : MergeSink κ ρ} {folded pending : List (List ρ)}
    (h : Reduced num cfg s folded pending) :
    ∃ t, joinReducer num cfg s = some t ∧ t.sink = s.sink ∧
      Reduced num cfg t (folded ++ pending) [] := by
  unfold joinReducer
  have hflight := h.inFlight
  cases hs : s.inFlight with
  | none =>
    rw [hs] at hflight
    rw [List.forall₂_nil_left_iff.mp hflight, List.append_nil]
    exact ⟨s, rfl, rfl, hs ▸ .nil, fun _ => rfl, h.running⟩
  | some b =>
    rw [hs, Option.toList_some] at hflight
    obtain ⟨rows, rest, hb, hrest, rfl⟩ := List.forall₂_cons_left_iff.mp hflight
    obtain rfl := List.forall₂_nil_left_iff.mp hrest
    obtain ⟨run, hrun, hfolded⟩ := foldBlock_folded h.running hb
    dsimp only
    rw [hrun]
    exact ⟨_, rfl, rfl, .nil, fun _ => rfl, hfolded⟩

/-- The reducer takes the next block. -/
theorem handOver_reduced {s : MergeSink κ ρ} {folded pending : List (List ρ)}
    (h : Reduced num cfg s folded pending) {b : SpillBlock ρ} {rows : List ρ}
    (hb : Holds cfg.layout cfg.partOf b.partitions rows) :
    ∃ t folded' pending', handOver num cfg s b = some t ∧ t.sink = s.sink ∧
      Reduced num cfg t folded' pending' ∧
      folded' ++ pending' = folded ++ pending ++ [rows] := by
  unfold handOver
  cases hoverlap : cfg.overlap with
  | true =>
    obtain ⟨t, ht, hsink, hred⟩ := joinReducer_reduced h
    rw [if_pos rfl, ht]
    refine ⟨_, folded ++ pending, [rows], rfl, hsink, ⟨.cons hb .nil, fun hno => ?_, hred.running⟩,
      rfl⟩
    rw [hoverlap] at hno
    cases hno
  | false =>
    obtain rfl := h.inline hoverlap
    obtain ⟨run, hrun, hfolded⟩ := foldBlock_folded h.running hb
    rw [if_neg Bool.false_ne_true, hrun]
    refine ⟨_, folded ++ [rows], [], rfl, rfl, ⟨h.inFlight, fun _ => rfl, hfolded⟩, ?_⟩
    rw [List.append_nil, List.append_nil]

/-- A step of the loop moves rows along, and hands over the block it closed. -/
theorem advance_kept {s : MergeSink κ ρ} {folded pending : List (List ρ)} {last : List ρ}
    (h : Kept num cfg s folded pending last) {a : Action ρ} (ha : a.faultless) :
    ∃ t folded' pending' last', advance num cfg s a = some t ∧
      Kept num cfg t folded' pending' last' ∧
      (folded' ++ pending').flatten ++ last' ++ t.sink.buffer.flatten =
        (folded ++ pending).flatten ++ last ++ s.sink.buffer.flatten ++ a.reads.flatten ∧
      (∀ f, a = .drain f → t.sink.buffer = []) ∧ s.sink.closed <+: t.sink.closed := by
  obtain ⟨sink, hstep, hparked, hclosed⟩ := step_sink h.parked ha
  obtain ⟨⟨last', hrows, hmoved⟩, hdrain⟩ := step_blocks hstep (ha.quiet s.sink) h.blocks
  have hsound : Sound cfg.sink sink := by
    obtain ⟨rows, f, hf, hiff⟩ := step_flushed hstep
    exact hf.sound h.sound (hiff.mp (ha.quiet s.sink))
  unfold advance
  rw [hstep, Option.bind_some]
  rcases hmoved with ⟨hsame, hblocks⟩ | ⟨b, hone, hb, hblocks⟩
  · rw [hsame, List.drop_length]
    refine ⟨_, folded, pending, last', rfl, ⟨hblocks, ⟨h.reduced.inFlight, h.reduced.inline,
      h.reduced.running⟩, hsound, hparked⟩, ?_, hdrain, hsame ▸ List.prefix_rfl⟩
    rw [List.append_assoc, hrows]
    simp only [List.append_assoc]
  · obtain ⟨t, folded', pending', ht, hsink, hred, hcut⟩ := handOver_reduced
      (s := { s with sink }) ⟨h.reduced.inFlight, h.reduced.inline, h.reduced.running⟩ hb
    have hsink : t.sink = sink := hsink
    rw [hone, List.drop_left, List.foldlM_cons, ht]
    refine ⟨t, folded', pending', [], rfl, ⟨?_, hred, hsink ▸ hsound, hsink ▸ hparked⟩, ?_,
      hsink ▸ hdrain, ?_⟩
    · rw [hcut, hsink]
      exact hblocks
    · rw [hcut, hsink, List.flatten_append, List.flatten_singleton, List.append_nil,
        List.append_assoc, hrows]
      simp only [List.append_assoc]
    · rw [hsink, hone]
      exact List.prefix_append ..

/-- The reads of a step. -/
def MergeAction.reads : MergeAction ρ → List (List ρ)
  | .granule reads => reads
  | .drain => []
  | .reduced => []

/-- The reads of a run, concatenated. -/
def rowsGiven (as : List (MergeAction ρ)) : List ρ := (as.flatMap MergeAction.reads).flatten

theorem mergeStep_kept {s : MergeSink κ ρ} {folded pending : List (List ρ)} {last : List ρ}
    (h : Kept num cfg s folded pending last) (a : MergeAction ρ) :
    ∃ t folded' pending' last', mergeStep num cfg s a = some t ∧
      Kept num cfg t folded' pending' last' ∧
      (folded' ++ pending').flatten ++ last' ++ t.sink.buffer.flatten =
        (folded ++ pending).flatten ++ last ++ s.sink.buffer.flatten ++ a.reads.flatten ∧
      s.sink.closed <+: t.sink.closed := by
  cases a with
  | granule reads =>
    obtain ⟨t, folded', pending', last', ht, hkept, hrows, -, hpre⟩ :=
      advance_kept h (a := .granule reads none) rfl
    exact ⟨t, folded', pending', last', ht, hkept, hrows, hpre⟩
  | drain =>
    obtain ⟨t, folded', pending', last', ht, hkept, hrows, -, hpre⟩ :=
      advance_kept h (a := .drain none) rfl
    exact ⟨t, folded', pending', last', ht, hkept, hrows, hpre⟩
  | reduced =>
    obtain ⟨t, ht, hsink, hred⟩ := joinReducer_reduced h.reduced
    refine ⟨t, folded ++ pending, [], last, ht, ⟨?_, hred, hsink ▸ h.sound, hsink ▸ h.parked⟩, ?_,
      hsink ▸ List.prefix_rfl⟩
    · rw [List.append_nil, hsink]
      exact h.blocks
    · rw [List.append_nil, hsink]
      exact (List.append_nil _).symm

/-- Every schedule runs, and keeps every row it read. -/
theorem exec_kept (as : List (MergeAction ρ)) {s : MergeSink κ ρ} {folded pending : List (List ρ)}
    {last : List ρ} (h : Kept num cfg s folded pending last) :
    ∃ t folded' pending' last', exec (mergeStep num cfg) s as = some t ∧
      Kept num cfg t folded' pending' last' ∧
      (folded' ++ pending').flatten ++ last' ++ t.sink.buffer.flatten =
        (folded ++ pending).flatten ++ last ++ s.sink.buffer.flatten ++ rowsGiven as ∧
      s.sink.closed <+: t.sink.closed := by
  induction as generalizing s folded pending last with
  | nil => exact ⟨s, folded, pending, last, rfl, h, (List.append_nil _).symm, List.prefix_rfl⟩
  | cons a as ih =>
    obtain ⟨s', folded₁, pending₁, last₁, hs', hkept₁, hrows₁, hpre₁⟩ := mergeStep_kept h a
    obtain ⟨t, folded', pending', last', ht, hkept, hrows, hpre⟩ := ih hkept₁
    have hsplit : rowsGiven (a :: as) = a.reads.flatten ++ rowsGiven as := List.flatten_append
    refine ⟨t, folded', pending', last', ?_, hkept, ?_, hpre₁.trans hpre⟩
    · simp only [exec, hs']
      exact ht
    · rw [hrows, hrows₁, hsplit, List.append_assoc]

/-- The drain and the first emission fold what is left. -/
theorem finish_kept {s : MergeSink κ ρ} {folded pending : List (List ρ)} {last : List ρ}
    (h : Kept num cfg s folded pending last) :
    ∃ t run blocks, finish num cfg s = some (t, finalizeKway num cfg run) ∧
      Folded num cfg run blocks ∧ Sound cfg.sink t.sink ∧
      List.Forall₂ (fun b rows => Holds cfg.layout cfg.partOf b.partitions rows)
        (t.sink.closed ++ [t.sink.block]) blocks ∧
      blocks.flatten = (folded ++ pending).flatten ++ last ++ s.sink.buffer.flatten ∧
      s.sink.closed <+: t.sink.closed := by
  obtain ⟨t₁, folded₁, pending₁, last₁, ht₁, hkept, hrows, hdrain, hpre⟩ :=
    advance_kept h (a := .drain none) rfl
  obtain ⟨t, ht, hsink, hred⟩ := joinReducer_reduced hkept.reduced
  have hfilling : Holds cfg.layout cfg.partOf t.sink.block.partitions last₁ :=
    hsink ▸ hkept.blocks.filling
  obtain ⟨run, hrun, hfolded⟩ := foldBlock_folded hred.running hfilling
  refine ⟨t, run, folded₁ ++ pending₁ ++ [last₁], ?_, hfolded, hsink ▸ hkept.sound, ?_, ?_,
    hsink ▸ hpre⟩
  · unfold finish
    rw [ht₁, Option.bind_some, ht, Option.bind_some, hrun, Option.map_some]
  · refine List.rel_append ?_ (.cons hfilling .nil)
    rw [hsink]
    exact hkept.blocks.handed
  · rw [hdrain none rfl] at hrows
    rw [List.flatten_append, List.flatten_singleton]
    simpa only [List.flatten_nil, List.append_nil, Action.reads] using hrows

/-- The reducer leaves the sink as it is. -/
theorem joinReducer_sink {s t : MergeSink κ ρ} (h : joinReducer num cfg s = some t) :
    t.sink = s.sink := by
  unfold joinReducer at h
  cases hs : s.inFlight with
  | none =>
    rw [hs] at h
    rw [← Option.some.inj h]
  | some b =>
    rw [hs] at h
    obtain ⟨run, -, rfl⟩ := Option.map_eq_some_iff.mp h
    rfl

theorem handOver_sink {s t : MergeSink κ ρ} {b : SpillBlock ρ}
    (h : handOver num cfg s b = some t) : t.sink = s.sink := by
  unfold handOver at h
  split_ifs at h
  · obtain ⟨u, hu, rfl⟩ := Option.map_eq_some_iff.mp h
    exact (joinReducer_sink hu :)
  · obtain ⟨run, -, rfl⟩ := Option.map_eq_some_iff.mp h
    rfl

theorem foldlM_handOver_sink {bs : List (SpillBlock ρ)} {s t : MergeSink κ ρ}
    (h : bs.foldlM (handOver num cfg) s = some t) : t.sink = s.sink := by
  induction bs generalizing s with
  | nil => rw [← Option.some.inj h]
  | cons b bs ih =>
    rw [List.foldlM_cons] at h
    obtain ⟨u, hu, hrest⟩ := Option.bind_eq_some_iff.mp h
    exact (ih hrest).trans (handOver_sink hu)

theorem mergeStep_pinned {s t : MergeSink κ ρ} {a : MergeAction ρ}
    (hs : mergeStep num cfg s a = some t) (h : Pinned cfg.sink s.sink) :
    Pinned cfg.sink t.sink := by
  have hadvance : ∀ {a : Action ρ}, advance num cfg s a = some t → Pinned cfg.sink t.sink := by
    intro a ha
    obtain ⟨sink, hstep, hfold⟩ := Option.bind_eq_some_iff.mp ha
    exact foldlM_handOver_sink hfold ▸ step_pinned hstep h
  cases a with
  | granule reads => exact hadvance hs
  | drain => exact hadvance hs
  | reduced => exact joinReducer_sink hs ▸ h

/-- In every run the check says of each closed block what it says of the declared columns. -/
theorem foldBlockChecked_closed {as : List (MergeAction ρ)} {s : MergeSink κ ρ}
    (hrun : exec (mergeStep num cfg) {} as = some s) (run : Running κ) :
    ∀ b ∈ s.sink.closed, foldBlockChecked num cfg run b =
      (checkFoldColumns cfg.digestFields cfg.compositionFields (some cfg.layout.cols)).elim
        (.ok (foldBlock num cfg run b)) .error := by
  intro b hb
  have hreach := Reach.of_exec_forall (C := fun _ _ => True) (fun _ _ _ => trivial) hrun
  have hpinned : b.schema = some cfg.layout.cols :=
    (hreach.invariant pinned_start
      fun h _ hs => mergeStep_pinned hs h).closed b hb
  unfold foldBlockChecked
  rw [hpinned]
  cases checkFoldColumns cfg.digestFields cfg.compositionFields (some cfg.layout.cols) with
  | none => rfl
  | some e => rfl

end Runs

section Outputs

/-- The weight of the payload at one index of a ragged field; a missing payload weighs
nothing. -/
def payloadWeight (out : ChunkOutputs) (name : String) (i : Nat) : ℚ :=
  (((out.ragged.lookup name).getD []).lookup i).elim 0 fun p => p.digest.total

/-- The outputs of one chunk, when these are the rows read. A digest's weight is a
float32, exact on the cells that hold at most `maxExact` selected values. -/
structure OutputsOf (cfg : MergeConfig κ ρ) (rows : List ρ) (children : List κ)
    (out : ChunkOutputs) : Prop where
  counts : out.counts = cfg.countFields.map fun f =>
    (f.name, children.map fun c => f.store (rowsAt cfg.layout.cell rows c).length)
  cellsWithData : out.cellsWithData = children.countP fun c => rowsAt cfg.layout.cell rows c ≠ []
  weights : ∀ f ∈ cfg.digestFields, ∀ i (hi : i < children.length),
    selectedCount cfg f (rowsAt cfg.layout.cell rows children[i]) ≤ maxExact →
    payloadWeight out f.name i =
      (selectedCount cfg f (rowsAt cfg.layout.cell rows children[i]) : ℚ)

/-- Two outputs that agree on the fields merged in one k-way pass. -/
structure SameKway (cfg : MergeConfig κ ρ) (out out' : ChunkOutputs) : Prop where
  compositions : out'.compositions = out.compositions
  ragged : ∀ f ∈ cfg.digestFields, f.pairwise = false →
    out'.ragged.lookup f.name = out.ragged.lookup f.name

omit [LinearOrder κ] in
/-- The payloads of one digest field over a chunk. -/
theorem ragged_lookup (run : Running κ) (children : List κ) {f : DigestField}
    (hf : f ∈ cfg.digestFields) :
    (chunkOutputsMerged cfg run children).ragged.lookup f.name =
      some (children.zipIdx.filterMap fun c => ((run.counts c.1).bind fun _ =>
        ((run.digests f.name).running c.1).bind fun p =>
          if p.digest = [] then none else some p).map (Prod.mk c.2)) := by
  have hnames : ((chunkOutputsMerged cfg run children).ragged.map Prod.fst).Nodup := by
    have hfst : (chunkOutputsMerged cfg run children).ragged.map Prod.fst =
        cfg.digestFields.map DigestField.name := List.map_map ..
    rw [hfst]
    exact cfg.digestNames
  rw [lookup_of_nodup hnames (List.mem_map.mpr ⟨f, hf, rfl⟩)]
  refine congrArg some (List.filterMap_congr fun c _ => ?_)
  cases run.counts c.1 with
  | none => rfl
  | some n =>
    cases (run.digests f.name).running c.1 with
    | none => rfl
    | some p =>
      by_cases hp : p.digest = []
      · simp only [Option.bind_some, if_pos hp, Option.map_none]
      · simp only [Option.bind_some, if_neg hp, Option.map_some]

omit [LinearOrder κ] in
theorem payloadWeight_eq (run : Running κ) (children : List κ) {f : DigestField}
    (hf : f ∈ cfg.digestFields) {i : Nat} (hi : i < children.length)
    (hcount : run.counts children[i] = none → (digestOf run f children[i]).total = 0) :
    payloadWeight (chunkOutputsMerged cfg run children) f.name i =
      (digestOf run f children[i]).total := by
  have hat := lookup_filterMap_zipIdx (fun c => (run.counts c).bind fun _ =>
    ((run.digests f.name).running c).bind fun p => if p.digest = [] then none else some p)
    children 0 i
  rw [Nat.zero_add, List.getElem?_eq_getElem hi, Option.bind_some] at hat
  rw [payloadWeight, ragged_lookup run children hf, Option.getD_some, hat]
  unfold digestOf at hcount ⊢
  cases hn : run.counts children[i] with
  | none => exact (hcount hn).symm
  | some n =>
    cases (run.digests f.name).running children[i] with
    | none => rfl
    | some p =>
      by_cases hp : p.digest = []
      · simp only [Option.bind_some, hp, Option.elim_some]
        rfl
      · simp only [Option.bind_some, if_neg hp, Option.elim_some]

omit [LinearOrder κ] in
theorem finalizeKway_counts (run : Running κ) : (finalizeKway num cfg run).counts = run.counts := rfl

/-- What a chunk is handed once every block is folded. -/
theorem outputsOf_folded (hnum : ExactCounts num) {run : Running κ} {blocks : List (List ρ)}
    (h : Folded num cfg run blocks) (children : List κ) :
    OutputsOf cfg blocks.flatten children
      (chunkOutputsMerged cfg (finalizeKway num cfg run) children) where
  counts := by
    refine List.map_congr_left fun f _ => congrArg (Prod.mk f.name) ?_
    refine List.map_congr_left fun c _ => congrArg f.store ?_
    rw [finalizeKway_counts, h.counts]
    split_ifs with hnil
    · rw [hnil]
      rfl
    · rfl
  cellsWithData := by
    refine List.countP_congr fun c _ => ?_
    rw [finalizeKway_counts, h.counts]
    split_ifs with hnil
    · simp [hnil]
    · simp [hnil]
  weights f hf i hi hfit := by
    rw [payloadWeight_eq _ children hf hi]
    · exact total_digestOf hnum h hf children[i] hfit
    · intro hnone
      rw [finalizeKway_counts, h.counts] at hnone
      have hnil : rowsAt cfg.layout.cell blocks.flatten children[i] = [] := by
        by_contra hne
        rw [if_neg hne] at hnone
        cases hnone
      rw [total_digestOf hnum h hf children[i] hfit, hnil]
      rfl

/-- Folding more blocks, in the order given. -/
theorem foldlM_folded {bs : List (SpillBlock ρ)} {new : List (List ρ)}
    (hbs : List.Forall₂ (fun b rows => Holds cfg.layout cfg.partOf b.partitions rows) bs new)
    {run : Running κ} {blocks : List (List ρ)} (h : Folded num cfg run blocks) :
    ∃ run', bs.foldlM (foldBlock num cfg) run = some run' ∧
      Folded num cfg run' (blocks ++ new) := by
  induction hbs generalizing run blocks with
  | nil => exact ⟨run, rfl, (List.append_nil blocks).symm ▸ h⟩
  | cons hb _ ih =>
    obtain ⟨run₁, hrun₁, h₁⟩ := foldBlock_folded h hb
    obtain ⟨run', hrun', h'⟩ := ih h₁
    rw [List.foldlM_cons, hrun₁]
    refine ⟨run', hrun', ?_⟩
    rw [List.append_assoc] at h'
    exact h'

/-- A cell that received a row has a composition part. -/
theorem blockPairs_ne_nil (f : CompositionField) {c : κ} {blocks : List (List ρ)}
    (h : rowsAt cfg.layout.cell blocks.flatten c ≠ []) :
    blocks.filterMap (blockPair cfg f c) ≠ [] := by
  obtain ⟨x, hx⟩ := List.exists_mem_of_ne_nil _ h
  obtain ⟨hmem, hcell⟩ := List.mem_filter.mp hx
  obtain ⟨rows, hrows, hxr⟩ := List.mem_flatten.mp hmem
  have hne : rowsAt cfg.layout.cell rows c ≠ [] :=
    List.ne_nil_of_mem (List.mem_filter.mpr ⟨hxr, hcell⟩)
  exact List.ne_nil_of_mem (List.mem_filterMap.mpr ⟨rows, hrows, if_neg hne⟩)

/-- The k-way fields of two runs that folded the same blocks in different orders. -/
theorem sameKway_perm {run run' : Running κ} {blocks blocks' : List (List ρ)}
    (h : Folded num cfg run blocks) (h' : Folded num cfg run' blocks') (hp : blocks'.Perm blocks)
    (children : List κ) :
    SameKway cfg (chunkOutputsMerged cfg (finalizeKway num cfg run) children)
      (chunkOutputsMerged cfg (finalizeKway num cfg run') children) := by
  have hcell : ∀ c, run'.counts c = run.counts c := by
    intro c
    rw [h.counts, h'.counts]
    have hrows : (rowsAt cfg.layout.cell blocks'.flatten c).Perm
        (rowsAt cfg.layout.cell blocks.flatten c) := hp.flatten.filter _
    rw [hrows.length_eq]
    exact if_congr ⟨fun hn => (hn ▸ hrows).symm.eq_nil, fun hn => (hn ▸ hrows).eq_nil⟩ rfl rfl
  have hnil : ∀ {β : Type} {l l' : List β}, l'.Perm l → (l' = [] ↔ l = []) := fun hl =>
    ⟨fun hn => (hn ▸ hl).symm.eq_nil, fun hn => (hn ▸ hl).eq_nil⟩
  refine ⟨List.map_congr_left fun f hf => congrArg (Prod.mk f.name) ?_, fun f hf hkway => ?_⟩
  · refine List.map_congr_left fun c _ => ?_
    rw [finalizeKway_counts, finalizeKway_counts, hcell]
    have hparts : ((run'.compositions f.name).parts c).Perm ((run.compositions f.name).parts c) := by
      rw [h.compositions f hf, h'.compositions f hf]
      exact hp.filterMap _
    cases hc : run.counts c with
    | none => rfl
    | some n =>
      have hrows : rowsAt cfg.layout.cell blocks.flatten c ≠ [] := by
        intro hempty
        rw [h.counts, if_pos hempty] at hc
        cases hc
      have hne : (run.compositions f.name).parts c ≠ [] := by
        rw [h.compositions f hf]
        exact blockPairs_ne_nil f hrows
      rw [Option.bind_some, Option.bind_some, finalizeKway_composition hf,
        finalizeKway_composition hf, if_neg hne, if_neg fun hn => hne ((hnil hparts).mp hn),
        Option.map_some, Option.map_some, mergeCompositionKway_perm hparts]
  · rw [ragged_lookup _ children hf, ragged_lookup _ children hf]
    refine congrArg some (List.filterMap_congr fun c _ => ?_)
    have hparts : ((run'.digests f.name).parts c.1).Perm ((run.digests f.name).parts c.1) := by
      rw [h.parts f hf, h'.parts f hf, hkway]
      exact hp.filterMap _
    have hrunning : (run'.digests f.name).running c.1 = (run.digests f.name).running c.1 := by
      rw [h.running f hf, h'.running f hf, hkway]
      rfl
    rw [finalizeKway_counts, finalizeKway_counts, hcell, finalizeKway_kway hf hkway,
      finalizeKway_kway hf hkway, mergeTdigestsKway_perm num f.delta f.channels hparts, hrunning]
    simp only [hnil hparts]

/-- The cells of the blocks are those of their rows. -/
theorem exists_cell_blocks {bs : List (SpillBlock ρ)} {blocks : List (List ρ)}
    (h : List.Forall₂ (fun b rows => Holds cfg.layout cfg.partOf b.partitions rows) bs blocks)
    (c : κ) :
    (∃ x ∈ bs.flatMap fun b => rowsIn b.partitions, cfg.layout.cell x = c) ↔
      ∃ x ∈ blocks.flatten, cfg.layout.cell x = c := by
  induction h with
  | nil => rfl
  | cons hb _ ih =>
    simp only [List.flatMap_cons, List.flatten_cons, List.mem_append, or_and_right, exists_or]
    exact or_congr (hb.exists_cell c) ih

/-- Every row read is folded once, wherever the flushes and the blocks end: the merged
outputs are those of the rows read, and the k-way fields do not see the block order. -/
theorem mergedOutputs_of_rows (hnum : ExactCounts num) (cfg : MergeConfig κ ρ)
    (as : List (MergeAction ρ)) :
    ∃ s t run, exec (mergeStep num cfg) {} as = some s ∧ finish num cfg s = some (t, run) ∧
      (∀ c, c ∈ occupiedCells t.sink ↔ ∃ x ∈ rowsGiven as, cfg.layout.cell x = c) ∧
      (∀ children, OutputsOf cfg (rowsGiven as) children (chunkOutputsMerged cfg run children)) ∧
      ∀ blocks : List (SpillBlock ρ), blocks.Perm (t.sink.closed ++ [t.sink.block]) →
        ∃ run', blocks.foldlM (foldBlock num cfg) {} = some run' ∧
          ∀ children, SameKway cfg (chunkOutputsMerged cfg run children)
            (chunkOutputsMerged cfg (finalizeKway num cfg run') children) := by
  obtain ⟨s, folded, pending, last, hs, hkept, hrows, -⟩ := exec_kept as (kept_start : Kept num cfg {} [] [] [])
  obtain ⟨t, run, bs, ht, hfolded, hsound, hholds, hflat, -⟩ := finish_kept hkept
  have hgiven : bs.flatten = rowsGiven as := hflat.trans hrows
  refine ⟨s, t, _, hs, ht, fun c => ?_, fun children => ?_, fun blocks hp => ?_⟩
  · rw [← hgiven, ← exists_cell_blocks hholds c]
    exact (faithful_of_sound hsound).occupied c
  · exact hgiven ▸ outputsOf_folded hnum hfolded children
  · obtain ⟨new, hnew, hperm⟩ := List.perm_comp_forall₂ hp hholds
    obtain ⟨run', hrun', h'⟩ := foldlM_folded hnew folded_start
    exact ⟨run', hrun', sameKway_perm hfolded h' hperm⟩

/-- Heights with their count and one digest; every flush closes a block. -/
def countedHeights : MergeConfig (Fin (2 ^ 64)) Observation where
  layout := heights
  partOf := fun _ => 0
  bufferGranules := 1
  blockBytes := 1
  overlap := true
  countFields := [⟨"count", fun n => float32Count n⟩]
  digestFields := [⟨"h_tdigest", "h_li", 100, false, none, fun _ => true, false, none⟩]
  compositionFields := []
  number _ item := item.head?.map fun byte => (byte.toNat : ℚ)
  word _ := 0
  clock _ := 0
  digestNames := List.nodup_singleton _
  compositionNames := .nil

/-- A row of cell 9 in one granule, then `n` rows of cell 5 in the next. -/
def repeated (n : Nat) : List (MergeAction Observation) :=
  [.granule [[(9, 1)]], .granule [List.replicate n (5, 1)], .drain]

theorem rowsGiven_repeated (n : Nat) :
    rowsGiven (repeated n) = (9, 1) :: List.replicate n (5, 1) := by
  simp [rowsGiven, repeated, MergeAction.reads]

theorem mergedOutputs_of_rows_repeated :
    ∃ s t run, exec (mergeStep smallNumerics countedHeights) {} (repeated 2) = some s ∧
      finish smallNumerics countedHeights s = some (t, run) ∧
      (chunkOutputsMerged countedHeights run [5, 7, 9]).counts = [("count", [2, 0, 1])] ∧
      payloadWeight (chunkOutputsMerged countedHeights run [5, 7, 9]) "h_tdigest" 0 = 2 := by
  obtain ⟨s, t, run, hs, ht, -, hout, -⟩ :=
    mergedOutputs_of_rows (fun _ _ => rfl : ExactCounts smallNumerics) countedHeights (repeated 2)
  obtain ⟨hcounts, -, hweights⟩ := hout [5, 7, 9]
  refine ⟨s, t, run, hs, ht, hcounts.trans (by decide +kernel), ?_⟩
  exact hweights _ (.head _) 0 (by decide) (by decide +kernel)

/-- A float32 count field drops the last of `2 ^ 24 + 1` rows. -/
theorem not_exact_count_of_repeated :
    ∃ s t run, exec (mergeStep smallNumerics countedHeights) {} (repeated (maxExact + 1)) = some s ∧
      finish smallNumerics countedHeights s = some (t, run) ∧ t.sink.closed ≠ [] ∧
      (rowsAt heights.cell (rowsGiven (repeated (maxExact + 1))) 5).length = maxExact + 1 ∧
      (chunkOutputsMerged countedHeights run [5]).counts = [("count", [(maxExact : ℚ)])] := by
  have hlen : ∀ n, (rowsAt heights.cell (rowsGiven (repeated n)) 5).length = n := by
    intro n
    rw [rowsGiven_repeated, rowsAt, List.filter_cons_of_neg (by decide), List.filter_replicate,
      if_pos (by decide), List.length_replicate]
  have hfirst : (mergeStep smallNumerics countedHeights {} (.granule [[(9, 1)]])).map
      (fun s => s.sink.closed.length) = some 1 := by decide +kernel
  obtain ⟨s₁, folded₁, pending₁, last₁, hs₁, hkept₁, hrows₁, -⟩ :=
    mergeStep_kept (kept_start : Kept smallNumerics countedHeights {} [] [] [])
      (.granule [[(9, 1)]])
  rw [hs₁, Option.map_some] at hfirst
  obtain ⟨s, folded, pending, last, hs, hkept, hrows, hpre⟩ :=
    exec_kept [.granule [List.replicate (maxExact + 1) (5, 1)], .drain] hkept₁
  obtain ⟨t, run, blocks, ht, hfolded, -, -, hflat, hpre'⟩ := finish_kept hkept
  have hgiven : blocks.flatten = rowsGiven (repeated (maxExact + 1)) := by
    rw [hflat, hrows, hrows₁]
    rfl
  refine ⟨s, t, _, ?_, ht, fun hnil => ?_, hlen _, ?_⟩
  · simp only [repeated, exec, hs₁]
    exact hs
  · have hle := (hpre.trans hpre').length_le
    rw [hnil, Option.some.inj hfirst] at hle
    exact absurd hle (by decide)
  · have hcounts := (outputsOf_folded (fun _ _ => rfl) hfolded [5]).counts
    rw [hgiven] at hcounts
    rw [hcounts]
    simp only [countedHeights, List.map_cons, List.map_nil, hlen]
    rw [show float32Count (maxExact + 1) = maxExact by decide +kernel]

end Outputs

end Zagg.Spill
