import Zagg.Spill.Contents
import Zagg.Spill.FailedAppend

/-!
# The rows of a run

While no write raises, the rows read are those of the closed blocks, then those of the
open block, then the buffered ones: concatenated in this order they are the reads
(`exec_blocks`).
-/
namespace Zagg.Spill

open Zagg.Lib Zagg.Processing

variable {κ ρ : Type} [LinearOrder κ] {cfg : Config κ ρ}

/-- The rows of the closed blocks in close order, and those of the open block. -/
structure Blocks (cfg : Config κ ρ) (s : SpillSink κ ρ) (closed : List (List ρ))
    (last : List ρ) : Prop where
  handed : List.Forall₂ (fun b rows => Holds cfg.layout cfg.partOf b.partitions rows) s.closed closed
  filling : Holds cfg.layout cfg.partOf s.block.partitions last
  pinned : s.block.schema = some cfg.layout.cols ∨ s.block.schema = none ∧ last = []

theorem blocks_start : Blocks cfg {} [] [] where
  handed := .nil
  filling := holds_nil
  pinned := .inr ⟨rfl, rfl⟩

theorem Blocks.congr {s t : SpillSink κ ρ} {closed : List (List ρ)} {last : List ρ}
    (h : Blocks cfg s closed last) (hc : t.closed = s.closed) (hb : t.block = s.block) :
    Blocks cfg t closed last :=
  ⟨hc ▸ h.handed, hb ▸ h.filling, hb ▸ h.pinned⟩

/-- The open block was handed to the reducer, or stays open. -/
def Moved (cfg : Config κ ρ) (s t : SpillSink κ ρ) (closed : List (List ρ)) (last : List ρ) : Prop :=
  t.closed = s.closed ∧ Blocks cfg t closed last ∨
    ∃ b, t.closed = s.closed ++ [b] ∧ Holds cfg.layout cfg.partOf b.partitions last ∧
      Blocks cfg t (closed ++ [last]) []

/-- Handing the open block over keeps the rows and their order. -/
theorem closeBlock_blocks {s : SpillSink κ ρ} {closed : List (List ρ)} {last : List ρ}
    (h : Blocks cfg s closed last) :
    (closeBlock cfg s).1.buffer = s.buffer ∧ Moved cfg s (closeBlock cfg s).1 closed last := by
  have hnew : ∀ parked, Moved cfg s { s with
      block := {}, closed := s.closed ++ [s.block], parked } closed last := fun _ =>
    .inr ⟨s.block, rfl, h.filling, List.rel_append h.handed (.cons h.filling .nil), holds_nil,
      .inr ⟨rfl, rfl⟩⟩
  unfold closeBlock
  cases cfg.mergeable with
  | false => exact ⟨rfl, .inl ⟨rfl, h⟩⟩
  | true =>
    cases cfg.overlap with
    | false => exact ⟨rfl, hnew _⟩
    | true =>
      dsimp only
      cases s.parked with
      | false => exact ⟨rfl, hnew _⟩
      | true => exact ⟨rfl, hnew _⟩

omit [LinearOrder κ] in
theorem append_schema (b : SpillBlock ρ) (rows : List ρ) (f : Option Fault) :
    (b.append cfg.layout cfg.partOf rows f).1.schema = b.schema.or (some cfg.layout.cols) := by
  unfold SpillBlock.append
  dsimp only
  split_ifs <;> rfl

variable (cfg) in
/-- A flush moves the buffer to the end of the open block, which may then be handed over. -/
theorem flush_blocks {s : SpillSink κ ρ} {f : Option Fault} {closed : List (List ρ)} {last : List ρ}
    (h : Blocks cfg s closed last) (hq : Beyond (flushWrites cfg s.buffer.flatten) f) :
    (flush cfg s f).1.buffer = [] ∧
      Moved cfg s (flush cfg s f).1 closed (last ++ s.buffer.flatten) := by
  unfold flush
  by_cases hbuf : s.buffer.isEmpty = true
  · have hnil := List.isEmpty_iff.mp hbuf
    rw [if_pos hbuf]
    refine ⟨hnil, ?_⟩
    rw [hnil, List.flatten_nil, List.append_nil]
    exact .inl ⟨rfl, h.congr rfl rfl⟩
  rw [if_neg hbuf]
  have hslices : (concatAndGroup (cfg.layout.cols.map Dtype.name) cfg.layout.item
      cfg.layout.cell s.buffer).2.1 =
      runs ((sortRows cfg.layout.cell s.buffer.flatten).map cfg.layout.cell) :=
    congrArg Prod.snd (groupColumns_table (cfg.layout.cols.map Dtype.name) cfg.layout.item
      cfg.layout.cell s.buffer.flatten)
  have hok := (append_spec cfg.layout cfg.partOf s.block
    (sortRows cfg.layout.cell s.buffer.flatten) f).1.mpr hq
  have hheld := append_holds (f := f) h.filling hok
  have hpinned : (s.block.append cfg.layout cfg.partOf
      (sortRows cfg.layout.cell s.buffer.flatten) f).1.schema = some cfg.layout.cols := by
    rw [append_schema]
    rcases h.pinned with hs | ⟨hs, -⟩
    · rw [hs]
      rfl
    · rw [hs]
      rfl
  dsimp only
  rw [hslices, if_pos hok]
  split_ifs with hnil hclose
  · rw [eq_nil_of_groups_isEmpty hnil, List.append_nil]
    exact ⟨rfl, .inl ⟨rfl, h.congr rfl rfl⟩⟩
  · exact closeBlock_blocks ⟨h.handed, hheld, .inl hpinned⟩
  · exact ⟨rfl, .inl ⟨rfl, ⟨h.handed, hheld, .inl hpinned⟩⟩⟩

variable (cfg) in
/-- A block takes its schema from its first append, so a closed one has it. -/
structure Pinned (s : SpillSink κ ρ) : Prop where
  closed : ∀ b ∈ s.closed, b.schema = some cfg.layout.cols
  filling : ∀ cols ∈ s.block.schema, cols = cfg.layout.cols

omit [LinearOrder κ] in
theorem pinned_start : Pinned cfg {} := ⟨nofun, nofun⟩

omit [LinearOrder κ] in
theorem closeBlock_pinned {s : SpillSink κ ρ} (h : Pinned cfg s)
    (hb : s.block.schema = some cfg.layout.cols) : Pinned cfg (closeBlock cfg s).1 := by
  have hnew : ∀ parked, Pinned cfg { s with
      block := {}, closed := s.closed ++ [s.block], parked } := by
    refine fun parked => ⟨fun b hmem => ?_, nofun⟩
    rcases List.mem_append.mp hmem with hmem | hmem
    · exact h.closed b hmem
    · rw [List.mem_singleton.mp hmem]
      exact hb
  unfold closeBlock
  cases cfg.mergeable with
  | false => exact h
  | true =>
    cases cfg.overlap with
    | false => exact hnew s.parked
    | true =>
      dsimp only
      cases s.parked with
      | false => exact hnew (cfg.foldRaises s.block)
      | true => exact hnew true

theorem flush_pinned {s : SpillSink κ ρ} (h : Pinned cfg s) (f : Option Fault) :
    Pinned cfg (flush cfg s f).1 := by
  have happend : ∀ rows, (s.block.append cfg.layout cfg.partOf rows f).1.schema =
      some cfg.layout.cols := by
    intro rows
    rw [append_schema]
    cases hs : s.block.schema with
    | none => rfl
    | some cols => exact congrArg some (h.filling cols hs)
  have hfilling : ∀ rows, ∀ cols ∈ (s.block.append cfg.layout cfg.partOf rows f).1.schema,
      cols = cfg.layout.cols := fun rows cols hc =>
    (Option.some.inj ((happend rows).symm.trans hc)).symm
  unfold flush
  dsimp only
  split_ifs
  · exact ⟨h.closed, h.filling⟩
  · exact ⟨h.closed, h.filling⟩
  · exact closeBlock_pinned ⟨h.closed, hfilling _⟩ (happend _)
  · exact ⟨h.closed, hfilling _⟩
  · exact ⟨h.closed, hfilling _⟩

theorem step_pinned {s t : SpillSink κ ρ} {a : Action ρ} (hs : step cfg s a = some t)
    (h : Pinned cfg s) : Pinned cfg t := by
  cases a with
  | granule reads f =>
    have hgranule : Pinned cfg (granule cfg s reads f).1 := by
      unfold granule
      dsimp only
      split_ifs
      · exact flush_pinned (s := { s with
          buffer := s.buffer ++ reads, bufferedGranules := s.bufferedGranules + 1 })
          ⟨h.closed, h.filling⟩ f
      · exact ⟨h.closed, h.filling⟩
    simp only [step] at hs
    split at hs
    · cases hs
    · next heq =>
      rw [heq] at hgranule
      exact Option.some.inj hs ▸ hgranule
  | drain f =>
    have hflush := flush_pinned h f
    simp only [step] at hs
    split at hs
    · next heq =>
      rw [heq] at hflush
      exact Option.some.inj hs ▸ hflush
    · cases hs

def Action.reads : Action ρ → List (List ρ)
  | .granule reads _ => reads
  | .drain _ => []

/-- The reads of a schedule, concatenated. -/
def rowsRead (as : List (Action ρ)) : List ρ := (as.flatMap Action.reads).flatten

/-- A step of the loop moves rows along, from the buffer to the open block. -/
theorem step_blocks {s t : SpillSink κ ρ} {a : Action ρ} {closed : List (List ρ)} {last : List ρ}
    (hs : step cfg s a = some t) (hq : Quiet cfg s a) (h : Blocks cfg s closed last) :
    (∃ last', last' ++ t.buffer.flatten = last ++ s.buffer.flatten ++ a.reads.flatten ∧
        Moved cfg s t closed last') ∧
      (∀ f, a = .drain f → t.buffer = []) := by
  cases a with
  | granule reads f =>
    have hadded : (s.buffer ++ reads).flatten = s.buffer.flatten ++ reads.flatten :=
      List.flatten_append
    by_cases hfull : cfg.bufferGranules ≤ s.bufferedGranules + 1
    · have hspec := flush_blocks cfg (s := { s with
        buffer := s.buffer ++ reads, bufferedGranules := s.bufferedGranules + 1 })
        (h.congr rfl rfl) (hq hfull)
      have ht : t = (flush cfg { s with
          buffer := s.buffer ++ reads, bufferedGranules := s.bufferedGranules + 1 } f).1 := by
        simp only [step, granule, if_pos hfull] at hs
        split at hs
        · cases hs
        · next heq => rw [← Option.some.inj hs, heq]
      rw [← ht] at hspec
      refine ⟨⟨_, ?_, hspec.2⟩, fun _ h => by cases h⟩
      rw [hspec.1, List.flatten_nil, List.append_nil, hadded, List.append_assoc]
      rfl
    · simp only [step, granule, if_neg hfull] at hs
      obtain rfl := Option.some.inj hs
      refine ⟨⟨last, ?_, .inl ⟨rfl, h.congr rfl rfl⟩⟩, fun _ h => by cases h⟩
      rw [List.append_assoc]
      exact congrArg (last ++ ·) hadded
  | drain f =>
    have hspec := flush_blocks cfg h hq
    have ht : t = (flush cfg s f).1 := by
      simp only [step] at hs
      split at hs
      · next heq => rw [← Option.some.inj hs, heq]
      · cases hs
    rw [← ht] at hspec
    refine ⟨⟨_, ?_, hspec.2⟩, fun _ _ => hspec.1⟩
    rw [hspec.1]
    rfl

/-- In a run whose writes all succeed, the closed blocks, the open block and the buffer
hold the reads in order. -/
theorem exec_blocks {as : List (Action ρ)} {s t : SpillSink κ ρ} {closed : List (List ρ)}
    {last : List ρ} (h : Blocks cfg s closed last)
    (hq : Along (step cfg) (fun s a => decide (Quiet cfg s a)) s as = true)
    (hrun : exec (step cfg) s as = some t) :
    (∃ closed' last', Blocks cfg t closed' last' ∧
        closed'.flatten ++ last' ++ t.buffer.flatten =
          closed.flatten ++ last ++ s.buffer.flatten ++ rowsRead as) ∧
      (∀ f, as.getLast? = some (.drain f) → t.buffer = []) := by
  induction as generalizing s closed last with
  | nil =>
    obtain rfl := Option.some.inj hrun
    exact ⟨⟨closed, last, h, (List.append_nil _).symm⟩, nofun⟩
  | cons a as ih =>
    simp only [exec] at hrun
    cases hs : step cfg s a with
    | none => rw [hs] at hrun; cases hrun
    | some s' =>
      rw [hs] at hrun
      simp only [Along, hs, Bool.and_eq_true] at hq
      obtain ⟨⟨last₁, hrows, hmoved⟩, hlast⟩ := step_blocks hs (of_decide_eq_true hq.1) h
      -- where the rows of the open block are after the step
      obtain ⟨closed₂, last₂, hblocks, hcut⟩ : ∃ closed₂ last₂, Blocks cfg s' closed₂ last₂ ∧
          closed₂.flatten ++ last₂ = closed.flatten ++ last₁ := by
        rcases hmoved with ⟨-, hb⟩ | ⟨b, -, -, hb⟩
        · exact ⟨closed, last₁, hb, rfl⟩
        · refine ⟨closed ++ [last₁], [], hb, ?_⟩
          rw [List.flatten_append, List.flatten_singleton, List.append_nil]
      obtain ⟨⟨closed', last', hb, hall⟩, hdrain⟩ := ih hblocks hq.2 hrun
      have hsplit : rowsRead (a :: as) = a.reads.flatten ++ rowsRead as := List.flatten_append
      refine ⟨⟨closed', last', hb, ?_⟩, fun f hf => ?_⟩
      · rw [hall, hcut, hsplit, List.append_assoc closed.flatten, hrows]
        simp only [List.append_assoc]
      · cases as with
        | nil =>
          obtain rfl := Option.some.inj hrun
          exact hlast f (Option.some.inj hf)
        | cons b bs =>
          rw [List.getLast?_cons_cons] at hf
          exact hdrain f hf

end Zagg.Spill
