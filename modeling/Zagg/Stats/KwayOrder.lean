import Zagg.Lib.Pointwise
import Zagg.Stats.Envelope

/-!
# The k-way merge does not see its inputs' order

The centroids are sorted on their content, mean first, then weight, then the channels' words:
rows that tie on all of it are equal, so one sorted arrangement is left whatever the order of
the digests. An empty digest contributes no row and its words are not read.
-/
namespace Zagg.Stats

open Zagg.Lib

variable {num : Numerics} {delta : Nat} {declared : List Channel}

/-- What the entry point checks of one contributor. -/
def Part.Checked (declared : List Channel) (p : Part) : Prop :=
  ∀ c ∈ declared.zipIdx, (p.words.getD c.2 []).length = p.digest.length ∧ 0 ∉ p.words.getD c.2 []

theorem checkWords_ok_iff {label : String} {words : Words} {n : Nat} :
    (∃ ws, checkWords label words n = .ok ws) ↔ words.length = n ∧ 0 ∉ words := by
  rw [checkWords]
  split_ifs with hlen hzero
  · exact iff_of_false (fun hex => by cases hex.choose_spec) fun h => hlen h.1
  · exact iff_of_false (fun hex => by cases hex.choose_spec) fun h => h.2 hzero
  · exact iff_of_true ⟨words, rfl⟩ ⟨not_not.mp hlen, hzero⟩

/-- The checks name a contributor by its position and ask the same of each. -/
theorem checks_ok_iff (parts : List Part) :
    (∃ rs, ((parts.zipIdx.filter fun p => p.1.digest ≠ []).mapM fun p =>
        declared.zipIdx.mapM fun c =>
          checkWords s!"{c.1}[{p.2}]" (p.1.words.getD c.2 []) p.1.digest.length) = .ok rs) ↔
      ∀ p ∈ parts, p.digest ≠ [] → p.Checked declared := by
  constructor
  · intro ⟨rs, hrs⟩ p hp hne c hc
    obtain ⟨i, hi, rfl⟩ := List.mem_iff_getElem.mp hp
    have hmem : (parts[i], i) ∈ parts.zipIdx.filter fun p => p.1.digest ≠ [] :=
      List.mem_filter.mpr ⟨List.mk_mem_zipIdx_iff_getElem?.mpr (List.getElem?_eq_getElem hi),
        by simpa using hne⟩
    obtain ⟨ws, -, hws⟩ := ok_of_mapM hrs hmem
    obtain ⟨word, -, hword⟩ := ok_of_mapM hws hc
    exact checkWords_ok_iff.mp ⟨word, hword⟩
  · intro h
    refine exists_mapM fun p hp => exists_mapM fun c hc => ?_
    obtain ⟨hmem, hne⟩ := List.mem_filter.mp hp
    have hin : p.1 ∈ parts := List.fst_mem_of_mem_zipIdx hmem
    exact checkWords_ok_iff.mpr (h p.1 hin (by simpa using hne) c hc)

theorem mergeTdigestsKwayChecked_ok_iff {parts : List Part} {p : Part} :
    mergeTdigestsKwayChecked num delta declared parts = .ok p ↔
      (∀ q ∈ parts, q.digest ≠ [] → q.Checked declared) ∧
        p = mergeTdigestsKway num delta declared parts := by
  rw [← checks_ok_iff, mergeTdigestsKwayChecked]
  constructor
  · intro h
    obtain ⟨rs, hrs, h⟩ := bind_ok h
    exact ⟨⟨rs, hrs⟩, (Except.ok.inj h).symm⟩
  · rintro ⟨⟨rs, hrs⟩, hp⟩
    rw [hrs, hp]
    rfl

/-- Two or more contributors: the merge compresses their rows sorted on content. -/
theorem mergeTdigestsKway_eq_compressed {parts : List Part} {rows : List Row}
    (hmany : 2 ≤ (parts.filter fun p => p.digest ≠ []).length)
    (hperm : rows.Perm ((parts.filter fun p => p.digest ≠ []).flatMap Part.rows))
    (hsorted : rows.Pairwise fun a b => a.key ≤ b.key) :
    mergeTdigestsKway num delta declared parts = compressed num delta declared rows := by
  have hrows : lexsort ((parts.filter fun p => p.digest ≠ []).flatMap Part.rows) = rows := by
    have : Std.Antisymm fun a b : Row => a.key ≤ b.key :=
      ⟨fun _ _ hle hge => Row.key_injective (le_antisymm hle hge)⟩
    have hlex : (lexsort rows).Perm rows := List.perm_insertionSort _ rows
    rw [← lexsort_perm hperm]
    have : Std.Total fun a b : Row => a.key ≤ b.key := ⟨fun a b => le_total a.key b.key⟩
    have : IsTrans Row fun a b : Row => a.key ≤ b.key := ⟨fun _ _ _ => le_trans⟩
    exact hlex.eq_of_pairwise' (List.pairwise_insertionSort _ rows) hsorted
  rw [mergeTdigestsKway, ← hrows]
  generalize (parts.filter fun p => p.digest ≠ []) = kept at hmany ⊢
  cases kept with
  | nil => exact absurd hmany (by decide)
  | cons p kept =>
    cases kept with
    | nil => exact absurd hmany (Nat.not_succ_le_self 1)
    | cons q kept => rfl

/-- The empty digests are dropped first. -/
theorem mergeTdigestsKway_filter (parts : List Part) :
    mergeTdigestsKway num delta declared (parts.filter fun p => p.digest ≠ []) =
      mergeTdigestsKway num delta declared parts := by
  rw [mergeTdigestsKway, mergeTdigestsKway, List.filter_filter]
  simp only [Bool.and_self]

/-- A permutation of the digests, with empty ones put in anywhere, merges to the same
centroids and words; with two contributors or more, the rows are compressed in the order of
their content. -/
theorem kway_order_independent (num : Numerics) (delta : Nat) (declared : List Channel)
    {parts parts' empties : List Part} (hempty : ∀ p ∈ empties, p.digest = [])
    (hperm : parts'.Perm (parts ++ empties)) :
    (∀ p, mergeTdigestsKwayChecked num delta declared parts' = .ok p ↔
      mergeTdigestsKwayChecked num delta declared parts = .ok p) ∧
    ∀ p, mergeTdigestsKwayChecked num delta declared parts = .ok p →
      2 ≤ (parts.filter fun q => q.digest ≠ []).length →
      ∀ rows : List Row, rows.Perm ((parts.filter fun q => q.digest ≠ []).flatMap Part.rows) →
        rows.Pairwise (fun a b => a.key ≤ b.key) → p = compressed num delta declared rows := by
  have hkept : (parts'.filter fun q => q.digest ≠ []).Perm (parts.filter fun q => q.digest ≠ []) := by
    have hnone : (empties.filter fun q => q.digest ≠ []) = [] := by
      rw [List.filter_eq_nil_iff]
      intro p hp
      simp [hempty p hp]
    have hfilter := hperm.filter fun q => decide (q.digest ≠ [])
    rw [List.filter_append, hnone, List.append_nil] at hfilter
    exact hfilter
  have hmerge : mergeTdigestsKway num delta declared parts' = mergeTdigestsKway num delta declared parts := by
    rw [← mergeTdigestsKway_filter parts', ← mergeTdigestsKway_filter parts]
    exact mergeTdigestsKway_perm num delta declared hkept
  constructor
  · intro p
    rw [mergeTdigestsKwayChecked_ok_iff, mergeTdigestsKwayChecked_ok_iff, hmerge]
    refine and_congr_left fun _ => ⟨fun h q hq hne => ?_, fun h q hq hne => ?_⟩
    · exact h q (hperm.mem_iff.mpr (List.mem_append_left _ hq)) hne
    · rcases List.mem_append.mp (hperm.mem_iff.mp hq) with hq | hq
      · exact h q hq hne
      · exact absurd (hempty q hq) hne
  · intro p hp hmany rows hrows hsorted
    rw [(mergeTdigestsKwayChecked_ok_iff.mp hp).2]
    exact mergeTdigestsKway_eq_compressed hmany hrows hsorted

/-- Two centroids that tie on mean and weight, with different words. -/
def tiedParts : List Part :=
  [⟨[⟨1, 2⟩], [[10 * 2 ^ 32 + 12]]⟩, ⟨[⟨1, 2⟩, ⟨4, 1⟩], [[3 * 2 ^ 32 + 7, 3 * 2 ^ 32 + 9]]⟩]

theorem kway_order_independent_tied :
    (∀ p, mergeTdigestsKwayChecked spanNumerics 512 [.temporal]
        (⟨[], []⟩ :: tiedParts.reverse) = .ok p ↔
      mergeTdigestsKwayChecked spanNumerics 512 [.temporal] tiedParts = .ok p) ∧
    ∀ p, mergeTdigestsKwayChecked spanNumerics 512 [.temporal] tiedParts = .ok p →
      2 ≤ (tiedParts.filter fun q => q.digest ≠ []).length →
      ∀ rows : List Row, rows.Perm ((tiedParts.filter fun q => q.digest ≠ []).flatMap Part.rows) →
        rows.Pairwise (fun a b => a.key ≤ b.key) →
          p = compressed spanNumerics 512 [.temporal] rows :=
  have hperm : (⟨[], []⟩ :: tiedParts.reverse).Perm (tiedParts ++ [⟨[], []⟩]) := by decide
  kway_order_independent spanNumerics 512 [.temporal] (by decide) hperm

end Zagg.Stats
