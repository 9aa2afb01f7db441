import Mathlib.Data.List.Dedup
import Mathlib.Data.Fin.Basic
import Zagg.Spill.Sink

/-!
# A failed append

`flush` counts its rows and drops its buffer before the append, and a segment is several
raw writes into one file whose row count is recorded after the last. As long as no
write of a flush raises, every partition file is its segments and the sink's figures
are those of the rows on disk. A write that raises leaves rows counted that no segment
holds, for the rest of the run (`faithful_iff_quiet`).
-/
namespace Zagg.Spill

open Zagg.Lib Zagg.Processing

variable {κ ρ : Type} [LinearOrder κ] {cfg : Config κ ρ}

/-- Every partition file is exactly its segments. -/
def CleanBlocks (cfg : Config κ ρ) (s : SpillSink κ ρ) : Prop :=
  ∀ b ∈ s.closed ++ [s.block], ∀ e ∈ b.partitions, e.2.Clean cfg.layout

/-- The figures kept are those of the rows on disk, and the files are clean. -/
structure Sound (cfg : Config κ ρ) (s : SpillSink κ ρ) : Prop where
  clean : CleanBlocks cfg s
  count : s.nObsTotal = (readable s).length
  occupied : ∀ c, c ∈ s.occupied.flatten ↔ ∃ x ∈ readable s, cfg.layout.cell x = c

omit [LinearOrder κ] in
theorem readable_eq (s : SpillSink κ ρ) :
    readable s = s.closed.flatMap (fun b => rowsIn b.partitions) ++ rowsIn s.block.partitions := by
  rw [readable, List.flatMap_append, List.flatMap_singleton]

theorem faithful_of_sound {s : SpillSink κ ρ} (h : Sound cfg s) : Faithful cfg s where
  reads b hb e he := read_clean (h.clean b hb e he)
  nObsTotal := h.count
  occupied c := by
    rw [occupiedCells, List.mem_dedup, (List.perm_insertionSort _ _).mem_iff]
    exact h.occupied c

omit [LinearOrder κ] in
/-- Closing a block keeps its rows where they can be read. -/
theorem closeBlock_frame (cfg : Config κ ρ) (s : SpillSink κ ρ) :
    readable (closeBlock cfg s).1 = readable s ∧
      (closeBlock cfg s).1.nObsTotal = s.nObsTotal ∧
      (closeBlock cfg s).1.occupied = s.occupied ∧
      (CleanBlocks cfg s → CleanBlocks cfg (closeBlock cfg s).1) := by
  have hopened : ∀ parked, readable { s with
      block := {}, closed := s.closed ++ [s.block], parked } = readable s := by
    intro parked
    rw [readable, readable, List.flatMap_append, List.flatMap_singleton]
    exact List.append_nil _
  have hclean : ∀ parked, CleanBlocks cfg s → CleanBlocks cfg { s with
      block := {}, closed := s.closed ++ [s.block], parked } := by
    intro parked h b hb e he
    rcases List.mem_append.mp hb with hb | hb
    · exact h b hb e he
    · rw [List.mem_singleton.mp hb] at he
      cases he
  unfold closeBlock
  cases cfg.mergeable with
  | false => exact ⟨rfl, rfl, rfl, id⟩
  | true =>
    cases cfg.overlap with
    | false => exact ⟨hopened _, rfl, rfl, hclean _⟩
    | true =>
      dsimp only
      cases s.parked with
      | false => exact ⟨hopened _, rfl, rfl, hclean _⟩
      | true => exact ⟨hopened _, rfl, rfl, hclean _⟩

theorem beyond_nil (f : Option Fault) : Beyond (flushWrites cfg []) f := by
  have hzero : flushWrites cfg [] = 0 := Nat.zero_mul _
  rw [hzero]
  exact fun _ _ => Nat.zero_le _

/-- The effect of a flush on the rows on disk and the figures kept. -/
structure Flushed (cfg : Config κ ρ) (s : SpillSink κ ρ) (rows : List ρ) (f : Option Fault)
    (t : SpillSink κ ρ) : Prop where
  count : t.nObsTotal = s.nObsTotal + rows.length
  kept : Beyond (flushWrites cfg rows) f → (readable t).Perm (readable s ++ rows)
  clean : Beyond (flushWrites cfg rows) f → CleanBlocks cfg s → CleanBlocks cfg t
  occupied : ∀ c, c ∈ t.occupied.flatten ↔
    c ∈ s.occupied.flatten ∨ ∃ x ∈ rows, cfg.layout.cell x = c
  lost : ¬ Beyond (flushWrites cfg rows) f →
    (readable t).length < (readable s).length + rows.length

/-- A flush with no rows to append. -/
theorem flushed_nil {s t : SpillSink κ ρ} (f : Option Fault) (hn : t.nObsTotal = s.nObsTotal)
    (hb : t.block = s.block) (hc : t.closed = s.closed) (ho : t.occupied = s.occupied) :
    Flushed cfg s [] f t where
  count := hn
  kept _ := by rw [readable, readable, hb, hc, List.append_nil]
  clean _ h := by rw [CleanBlocks, hb, hc]; exact h
  occupied c := by
    rw [ho]
    exact ⟨.inl, fun h => h.elim id fun ⟨_, hx, _⟩ => nomatch hx⟩
  lost h := absurd (beyond_nil f) h

/-- The append of a flush, before the block threshold is looked at. -/
theorem flushed_append {s t : SpillSink κ ρ} {rows : List ρ} {f : Option Fault}
    (hn : t.nObsTotal = s.nObsTotal + rows.length)
    (hb : t.block = (s.block.append cfg.layout cfg.partOf (sortRows cfg.layout.cell rows) f).1)
    (hc : t.closed = s.closed)
    (ho : t.occupied = s.occupied ++
      [(runs ((sortRows cfg.layout.cell rows).map cfg.layout.cell)).map Prod.fst]) :
    Flushed cfg s rows f t := by
  obtain ⟨h1, h2, h3⟩ := append_spec cfg.layout cfg.partOf s.block
    (sortRows cfg.layout.cell rows) f
  have hreadable : readable t = s.closed.flatMap (fun b => rowsIn b.partitions) ++
      rowsIn (s.block.append cfg.layout cfg.partOf (sortRows cfg.layout.cell rows) f).1.partitions := by
    rw [readable_eq, hb, hc]
  refine ⟨hn, fun hq => ?_, fun hq hclean => ?_, fun c => ?_, fun hq => ?_⟩
  · obtain ⟨hp, -⟩ := h2 (h1.mpr hq)
    rw [hreadable, readable_eq, List.append_assoc]
    exact (hp.trans ((sortRows_perm rows).append_left _)).append_left _
  · obtain ⟨-, hcl⟩ := h2 (h1.mpr hq)
    intro b hmem e he
    rw [hb, hc] at hmem
    rcases List.mem_append.mp hmem with hmem | hmem
    · exact hclean b (List.mem_append_left _ hmem) e he
    · rw [List.mem_singleton.mp hmem] at he
      exact hcl (fun e he => hclean s.block (List.mem_append_right _ (.head _)) e he) e he
  · rw [ho, List.flatten_append, List.flatten_singleton, List.mem_append, mem_cells_group]
  · have hlt := h3 fun hok => hq (h1.mp hok)
    rw [hreadable, readable_eq, List.length_append, List.length_append]
    rw [(sortRows_perm rows).length_eq] at hlt
    omega

/-- Closing the block after the append changes none of it. -/
theorem flushed_close {s t : SpillSink κ ρ} {rows : List ρ} {f : Option Fault}
    (h : Flushed cfg s rows f t) : Flushed cfg s rows f (closeBlock cfg t).1 := by
  obtain ⟨hread, hcount, hocc, hclean⟩ := closeBlock_frame cfg t
  exact ⟨hcount.trans h.count, fun hq => hread ▸ h.kept hq, fun hq hs => hclean (h.clean hq hs),
    fun c => hocc ▸ h.occupied c, fun hq => hread ▸ h.lost hq⟩

variable (cfg) in
/-- What a flush does, whether or not a write of it raises. -/
theorem flush_spec (s : SpillSink κ ρ) (f : Option Fault) :
    Flushed cfg s s.buffer.flatten f (flush cfg s f).1 := by
  unfold flush
  by_cases hbuf : s.buffer.isEmpty = true
  · rw [if_pos hbuf, List.isEmpty_iff.mp hbuf]
    exact flushed_nil f rfl rfl rfl rfl
  · rw [if_neg hbuf]
    have hslices : (concatAndGroup (cfg.layout.cols.map Dtype.name) cfg.layout.item
        cfg.layout.cell s.buffer).2.1 =
        runs ((sortRows cfg.layout.cell s.buffer.flatten).map cfg.layout.cell) :=
      congrArg Prod.snd (groupColumns_table (cfg.layout.cols.map Dtype.name) cfg.layout.item
        cfg.layout.cell s.buffer.flatten)
    dsimp only
    rw [hslices]
    split_ifs with hnil hok hclose
    · have hrows := eq_nil_of_groups_isEmpty hnil
      rw [hrows]
      exact flushed_nil f (congrArg (s.nObsTotal + ·) (congrArg List.length hrows)) rfl rfl rfl
    · exact flushed_close (flushed_append rfl rfl rfl rfl)
    · exact flushed_append rfl rfl rfl rfl
    · exact flushed_append rfl rfl rfl rfl

theorem Flushed.sound {s t : SpillSink κ ρ} {rows : List ρ} {f : Option Fault}
    (h : Flushed cfg s rows f t) (hs : Sound cfg s) (hq : Beyond (flushWrites cfg rows) f) :
    Sound cfg t := by
  have hp := h.kept hq
  refine ⟨h.clean hq hs.clean, ?_, fun c => ?_⟩
  · rw [h.count, hs.count, hp.length_eq, List.length_append]
  · rw [h.occupied, hs.occupied]
    constructor
    · rintro (⟨x, hx, hc⟩ | ⟨x, hx, hc⟩)
      · exact ⟨x, hp.mem_iff.mpr (List.mem_append_left _ hx), hc⟩
      · exact ⟨x, hp.mem_iff.mpr (List.mem_append_right _ hx), hc⟩
    · rintro ⟨x, hx, hc⟩
      exact (List.mem_append.mp (hp.mem_iff.mp hx)).imp (fun hx => ⟨x, hx, hc⟩) fun hx => ⟨x, hx, hc⟩

/-- The rows counted and not on disk only grow in number, and grow when a write raises. -/
theorem Flushed.deficit {s t : SpillSink κ ρ} {rows : List ρ} {f : Option Fault}
    (h : Flushed cfg s rows f t) :
    (readable t).length + s.nObsTotal ≤ (readable s).length + t.nObsTotal ∧
      (¬ Beyond (flushWrites cfg rows) f →
        (readable t).length + s.nObsTotal < (readable s).length + t.nObsTotal) := by
  have hcount := h.count
  by_cases hq : Beyond (flushWrites cfg rows) f
  · have hlen := (h.kept hq).length_eq
    rw [List.length_append] at hlen
    exact ⟨by omega, fun hn => absurd hq hn⟩
  · have hlt := h.lost hq
    exact ⟨by omega, fun _ => by omega⟩

/-- Every step of the loop is a flush of some rows, possibly none. -/
theorem step_flushed {s s' : SpillSink κ ρ} {a : Action ρ} (h : step cfg s a = some s') :
    ∃ rows f, Flushed cfg s rows f s' ∧ (Quiet cfg s a ↔ Beyond (flushWrites cfg rows) f) := by
  cases a with
  | granule reads f =>
    by_cases hfull : cfg.bufferGranules ≤ s.bufferedGranules + 1
    · have hspec := flush_spec cfg
        { s with buffer := s.buffer ++ reads, bufferedGranules := s.bufferedGranules + 1 } f
      refine ⟨(s.buffer ++ reads).flatten, f, ?_, forall_prop_of_true hfull⟩
      have hs' : s' = (flush cfg { s with
          buffer := s.buffer ++ reads, bufferedGranules := s.bufferedGranules + 1 } f).1 := by
        simp only [step, granule, if_pos hfull] at h
        split at h
        · cases h
        · next heq => rw [← Option.some.inj h, heq]
      rw [hs']
      exact ⟨hspec.count, hspec.kept, hspec.clean, hspec.occupied, hspec.lost⟩
    · refine ⟨[], none, ?_, iff_of_true (fun hc => absurd hc hfull) (beyond_nil none)⟩
      simp only [step, granule, if_neg hfull] at h
      obtain rfl := Option.some.inj h
      exact flushed_nil none rfl rfl rfl rfl
  | drain f =>
    refine ⟨s.buffer.flatten, f, ?_, Iff.rfl⟩
    have hs' : s' = (flush cfg s f).1 := by
      simp only [step] at h
      split at h
      · next heq => rw [← Option.some.inj h, heq]
      · cases h
    rw [hs']
    exact flush_spec cfg s f

/-- A run whose writes all succeed keeps the sink sound. -/
theorem exec_sound {as : List (Action ρ)} {s t : SpillSink κ ρ} (hs : Sound cfg s)
    (hq : Along (step cfg) (fun s a => decide (Quiet cfg s a)) s as = true)
    (h : exec (step cfg) s as = some t) : Sound cfg t := by
  refine (Reach.of_exec hq h).invariant hs fun hinv hc he => ?_
  obtain ⟨rows, f, hf, hiff⟩ := step_flushed he
  exact hf.sound hinv (hiff.mp (of_decide_eq_true hc))

/-- The deficit never shrinks, and a raised write makes it positive. -/
theorem exec_deficit {as : List (Action ρ)} {s t : SpillSink κ ρ}
    (h : exec (step cfg) s as = some t) :
    (readable t).length + s.nObsTotal ≤ (readable s).length + t.nObsTotal ∧
      (Along (step cfg) (fun s a => decide (Quiet cfg s a)) s as = false →
        (readable t).length + s.nObsTotal < (readable s).length + t.nObsTotal) := by
  induction as generalizing s with
  | nil =>
    obtain rfl := Option.some.inj h
    exact ⟨le_rfl, nofun⟩
  | cons a as ih =>
    simp only [exec] at h
    cases hs : step cfg s a with
    | none => rw [hs] at h; cases h
    | some s' =>
      rw [hs] at h
      obtain ⟨rows, f, hf, hiff⟩ := step_flushed hs
      obtain ⟨hle, hlt⟩ := hf.deficit
      obtain ⟨ihle, ihlt⟩ := ih h
      refine ⟨by omega, fun hal => ?_⟩
      simp only [Along, hs, Bool.and_eq_false_iff, decide_eq_false_iff_not] at hal
      rcases hal with hq | hal
      · have := hlt fun hb => hq (hiff.mpr hb)
        omega
      · have := ihlt hal
        omega

omit [LinearOrder κ] in
theorem sound_start : Sound cfg {} where
  clean b hb e he := by
    rw [List.mem_singleton.mp hb] at he
    cases he
  count := rfl
  occupied c := ⟨nofun, fun ⟨_, hx, _⟩ => nomatch hx⟩

/-- A run of the read loop leaves a faithful spill exactly when no file write of a flush
raised in it. -/
theorem faithful_iff_quiet (cfg : Config κ ρ) (as : List (Action ρ)) (s : SpillSink κ ρ)
    (h : exec (step cfg) {} as = some s) :
    Faithful cfg s ↔
      Along (step cfg) (fun s a => decide (Quiet cfg s a)) {} as = true := by
  refine ⟨fun hf => ?_, fun hq => faithful_of_sound (exec_sound sound_start hq h)⟩
  by_contra hq
  have hlt : (readable s).length + 0 < 0 + s.nObsTotal :=
    (exec_deficit h).2 (Bool.eq_false_iff.mpr hq)
  have hcount := hf.nObsTotal
  omega

/-- Little-endian uint64. -/
def word64 (c : Fin (2 ^ 64)) : Item :=
  (List.range 8).map fun i => UInt8.ofNat (c.val / 256 ^ i)

def unword64 (bytes : Item) : Fin (2 ^ 64) :=
  Fin.ofNat (2 ^ 64) (bytes.foldr (fun b n => b.toNat + 256 * n) 0)

theorem unword64_word64 (c : Fin (2 ^ 64)) : unword64 (word64 c) = c := by
  refine Fin.ext ?_
  have hc := c.isLt
  simp only [unword64, word64, List.range, List.range.loop, List.map_cons, List.map_nil,
    List.foldr_cons, List.foldr_nil, UInt8.toNat_ofNat', Fin.val_ofNat]
  omega

/-- An observation with its cell and one float32 column besides `leaf_id`. -/
abbrev Observation := Fin (2 ^ 64) × UInt8

def heights : Layout (Fin (2 ^ 64)) Observation where
  cols := [⟨"leaf_id", 8⟩, ⟨"h_li", 4⟩]
  cellSize := 8
  word := word64
  unword := unword64
  cell := Prod.fst
  item x name := if name = "leaf_id" then word64 x.1 else [x.2, 0, 0, 0]
  length_word _ := rfl
  unword_word := unword64_word64
  length_item x d hd := by
    rcases List.mem_cons.mp hd with rfl | hd
    · rfl
    · rw [List.mem_singleton.mp hd]
      rfl

/-- One granule per flush, one partition, no threshold crossing. -/
def eachGranule : Config (Fin (2 ^ 64)) Observation where
  layout := heights
  partOf := fun _ => 0
  bufferGranules := 1
  blockBytes := 1000
  mergeable := true
  overlap := true
  foldRaises := fun _ => false

/-- Two granules of one row each; `f` is the write of the first flush that raises. -/
def twoGranules (f : Option Fault) : List (Action Observation) :=
  [.granule [[(5, 1)]] f, .granule [[(9, 2)]] none, .drain none]

theorem faithful_iff_quiet_twoGranules :
    ∃ s, exec (step eachGranule) {} (twoGranules none) = some s ∧ Faithful eachGranule s := by
  have hrun : (exec (step eachGranule) {} (twoGranules none)).isSome := by decide +kernel
  obtain ⟨s, hs⟩ := Option.isSome_iff_exists.mp hrun
  exact ⟨s, hs, (faithful_iff_quiet eachGranule _ s hs).mpr (by decide +kernel)⟩

/-- The first flush writes its cell word and raises on the first column: the second row
is read under the first row's cell, and two rows are counted where one is read back. -/
theorem not_faithful_of_raised_column :
    ∃ s, exec (step eachGranule) {} (twoGranules (some ⟨1, 0⟩)) = some s ∧
      ¬ Faithful eachGranule s ∧ s.nObsTotal = 2 ∧
      s.block.partitions.map (fun e => e.2.read heights) =
        [some ([5], [("leaf_id", [word64 9]), ("h_li", [[9, 0, 0, 0]])])] := by
  have hrun : (exec (step eachGranule) {} (twoGranules (some ⟨1, 0⟩))).isSome := by decide +kernel
  obtain ⟨s, hs⟩ := Option.isSome_iff_exists.mp hrun
  have hfigures : (exec (step eachGranule) {} (twoGranules (some ⟨1, 0⟩))).map
      (fun s => (s.nObsTotal, (readable s).length,
        s.block.partitions.map fun e => e.2.read heights)) =
      some (2, 1, [some ([5], [("leaf_id", [word64 9]), ("h_li", [[9, 0, 0, 0]])])]) := by
    rfl
  rw [hs] at hfigures
  obtain ⟨hobs, hread⟩ := Prod.mk.inj (Option.some.inj hfigures)
  obtain ⟨hlen, hpart⟩ := Prod.mk.inj hread
  refine ⟨s, hs, fun hf => ?_, hobs, hpart⟩
  have hcount := hf.nObsTotal
  omega

end Zagg.Spill
