import Zagg.Hive.CoverQuantize
import Zagg.Lib.Intervals

/-!
# Range words by their bounds

A word of two halves, the start in units of `2 ^ 31` ns and the end in units of `2 ^ 32` ns,
with a list normalized through the buckets it covers.
-/
namespace Zagg.Hive

open Zagg.Lib
open Zagg.Catalog (Word unique mem_unique pairwise_unique eq_unique)

namespace PackedToc

def toc2time (w : Word) : Nat × Nat := (w / 2 ^ 32 * 2 ^ 31, w % 2 ^ 32 * 2 ^ 32)

def span2toc (lo last : Nat) : Nat := lo / 2 ^ 31 * 2 ^ 32 + (last / 2 ^ 32 + 1)

/-- The buckets of `2 ^ 32` ns that some words cover. -/
def cells (ws : List Word) : List Nat :=
  unique (ws.flatMap fun w => interval ((toc2time w).1 / 2 ^ 32, ((toc2time w).2 - 1) / 2 ^ 32))

def runWord (r : Nat × Nat) : Nat := span2toc (r.1 * 2 ^ 32) (r.2 * 2 ^ 32)

def normalize (ws : List Word) : List Word := (runEnds follows (cells ws)).map runWord

end PackedToc

open PackedToc in
def packedToc : Toc where
  toc2time := toc2time
  span2toc := span2toc
  normalize := normalize
  maxNs := 2 ^ 63 - 2 ^ 32

namespace PackedToc

theorem toc2time_span2toc {lo hi : Nat} (h : packedToc.Aligned 32 lo hi) :
    toc2time (span2toc lo (hi - 1)) = (lo, hi) := by
  have hmax : packedToc.maxNs = 2 ^ 63 - 2 ^ 32 := rfl
  obtain ⟨a, rfl⟩ := h.first
  obtain ⟨b, rfl⟩ : ∃ b, hi = 2 ^ 32 * b := by
    rcases h.last with ⟨b, hb⟩ | hb
    · exact ⟨b, hb⟩
    · exact ⟨2 ^ 31 - 1, by omega⟩
  have hlt := h.lt
  have hle := h.le
  rw [hmax] at hle
  refine Prod.ext ?_ ?_
  · change (2 ^ 32 * a / 2 ^ 31 * 2 ^ 32 + ((2 ^ 32 * b - 1) / 2 ^ 32 + 1)) / 2 ^ 32 * 2 ^ 31 = 2 ^ 32 * a
    omega
  · change (2 ^ 32 * a / 2 ^ 31 * 2 ^ 32 + ((2 ^ 32 * b - 1) / 2 ^ 32 + 1)) % 2 ^ 32 * 2 ^ 32 = 2 ^ 32 * b
    omega

variable {ws : List Word}

/-- An aligned word covers whole buckets. -/
theorem mem_cells (h : packedToc.AlignedWords 32 ws) (t : Nat) :
    t / 2 ^ 32 ∈ cells ws ↔ packedToc.Covered ws t := by
  rw [cells, mem_unique, List.mem_flatMap]
  refine exists_congr fun w => and_congr_right fun hw => ?_
  have hali := h w hw
  have hstart : packedToc.start w = (toc2time w).1 := rfl
  have hstop : packedToc.stop w = max (toc2time w).2 ((toc2time w).1 + 1) := rfl
  have hbound : (toc2time w).2 = w % 2 ^ 32 * 2 ^ 32 := rfl
  have hmax : packedToc.maxNs = 2 ^ 63 - 2 ^ 32 := rfl
  obtain ⟨a, ha⟩ := hali.first
  have hlast := hali.last
  rw [mem_interval]
  rw [hstart] at ha ⊢
  rw [hstop, hmax] at hlast
  rw [hstop]
  omega

theorem cells_lt (h : packedToc.AlignedWords 32 ws) {n : Nat} (hn : n ∈ cells ws) :
    n < 2 ^ 31 - 1 := by
  have hn' : n * 2 ^ 32 / 2 ^ 32 ∈ cells ws := by rwa [Nat.mul_div_cancel _ (Nat.two_pow_pos 32)]
  obtain ⟨w, hw, -, hlt⟩ := (mem_cells h _).mp hn'
  have hle := (h w hw).le
  have hmax : packedToc.maxNs = 2 ^ 63 - 2 ^ 32 := rfl
  omega

theorem runWord_bounds {r : Nat × Nat} (hle : r.1 ≤ r.2) (hlt : r.2 < 2 ^ 31 - 1) :
    packedToc.start (runWord r) = r.1 * 2 ^ 32 ∧ packedToc.stop (runWord r) = (r.2 + 1) * 2 ^ 32 ∧
      runWord r < 2 ^ 64 := by
  have hword : runWord r = r.1 * 2 ^ 33 + (r.2 + 1) := by
    rw [runWord, span2toc]
    omega
  have hhigh : runWord r / 2 ^ 32 = r.1 * 2 := by omega
  have hlow : runWord r % 2 ^ 32 = r.2 + 1 := by omega
  have hspan : packedToc.toc2time (runWord r) = (r.1 * 2 * 2 ^ 31, (r.2 + 1) * 2 ^ 32) := by
    rw [← hhigh, ← hlow]
    rfl
  rw [Toc.start, Toc.stop, hspan]
  refine ⟨?_, ?_, ?_⟩
  · omega
  · omega
  · omega

theorem run_bounds (h : packedToc.AlignedWords 32 ws) {r : Nat × Nat}
    (hr : r ∈ runEnds follows (cells ws)) : r.1 ≤ r.2 ∧ r.2 < 2 ^ 31 - 1 := by
  have hsorted : (cells ws).Pairwise (· < ·) := pairwise_unique _
  have hle := (runEnds_spec hsorted).2.2 r hr
  exact ⟨hle, cells_lt h ((mem_runEnds hsorted r.2).mpr ⟨r, hr, hle, le_rfl⟩)⟩

theorem covered_normalize (h : packedToc.AlignedWords 32 ws) (t : Nat) :
    packedToc.Covered (normalize ws) t ↔ packedToc.Covered ws t := by
  have hsorted : (cells ws).Pairwise (· < ·) := pairwise_unique _
  rw [← mem_cells h, mem_runEnds hsorted]
  constructor
  · intro ⟨w, hw, hlo, hhi⟩
    obtain ⟨r, hr, rfl⟩ := List.mem_map.mp hw
    obtain ⟨hle, hlt⟩ := run_bounds h hr
    obtain ⟨hstart, hstop, -⟩ := runWord_bounds hle hlt
    exact ⟨r, hr, by omega, by omega⟩
  · intro ⟨r, hr, hlo, hhi⟩
    obtain ⟨hle, hlt⟩ := run_bounds h hr
    obtain ⟨hstart, hstop, -⟩ := runWord_bounds hle hlt
    exact ⟨runWord r, List.mem_map_of_mem hr, by omega, by omega⟩

theorem apart_normalize (h : packedToc.AlignedWords 32 ws) :
    (normalize ws).Pairwise fun v w => packedToc.stop v < packedToc.start w := by
  have hsorted : (cells ws).Pairwise (· < ·) := pairwise_unique _
  refine List.pairwise_map.mpr ((runEnds_spec hsorted).2.1.imp_of_mem fun hr hr' hgap => ?_)
  obtain ⟨hle, hlt⟩ := run_bounds h hr
  obtain ⟨hle', hlt'⟩ := run_bounds h hr'
  obtain ⟨-, hstop, -⟩ := runWord_bounds hle hlt
  obtain ⟨hstart, -, -⟩ := runWord_bounds hle' hlt'
  omega

theorem normalize_congr {ws' : List Word} (h : packedToc.AlignedWords 32 ws)
    (h' : packedToc.AlignedWords 32 ws')
    (heq : ∀ t, packedToc.Covered ws t ↔ packedToc.Covered ws' t) : normalize ws = normalize ws' := by
  have hcells : cells ws = cells ws' := by
    refine eq_unique (pairwise_unique _) fun n => ?_
    have hn : n * 2 ^ 32 / 2 ^ 32 = n := Nat.mul_div_cancel _ (Nat.two_pow_pos 32)
    have hcell : n ∈ cells ws ↔ n ∈ cells ws' := by
      rw [← hn, mem_cells h, mem_cells h', heq]
    exact hcell.trans mem_unique
  rw [normalize, normalize, hcells]

end PackedToc

open PackedToc in
theorem packedToc_lawful : packedToc.Lawful where
  ceiling := by decide
  span := fun _ _ h => toc2time_span2toc h
  covered := fun _ h => covered_normalize h
  apart := fun _ h => apart_normalize h
  canonical := fun _ _ h h' heq => normalize_congr h h' heq
  word_lt := by
    intro ws h w hw
    obtain ⟨r, hr, rfl⟩ := List.mem_map.mp hw
    obtain ⟨hle, hlt⟩ := run_bounds h hr
    exact (runWord_bounds hle hlt).2.2

end Zagg.Hive
