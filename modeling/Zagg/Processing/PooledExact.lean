import Mathlib.Data.List.Perm.Subperm
import Zagg.Lib.Json
import Zagg.Processing.PooledReads

/-!
# Runs of the pool

Every run of the pool ends, with the totals of the serial loop.
-/
namespace Zagg.Processing

open Zagg.Lib

variable {γ ρ ε σ : Type} {entryUrl : γ → String} {readGranule : Nat → γ → Except ε ρ}
  {fold : σ → String × ρ → FoldOutcome σ}

section Termination

def weight : Control γ ρ → Nat
  | .filling _ _ => 2
  | .looping => 1
  | .waiting _ _ => 3
  | .serial => 1
  | .done => 0
  | .raised => 0

/-- A bound on the steps that are left. -/
def stepsLeft (s : PoolState γ ρ σ) : Nat :=
  5 * s.urls.length + 3 * s.inFlight.length + weight s.control + (s.submitted.length - s.finished.length)

variable {width : Nat} {granules : List γ} {init : σ} {s s' : PoolState γ ρ σ}

theorem length_finished (h : Submissions entryUrl granules s) :
    s.finished.length ≤ s.submitted.length := by
  have hsub : s.finished ⊆ List.range s.submitted.length :=
    fun n hn => List.mem_range.mpr (h.finished.2 n hn)
  simpa only [List.length_range] using (List.subperm_of_subset h.finished.1 hsub).length_le

/-- Behind a yield no more is left than there was at the yield. -/
theorem stepsLeft_yieldHeld (s : PoolState γ ρ σ) (held : Option (String × ρ)) (next : Control γ ρ) :
    stepsLeft (yieldHeld fold s held next) ≤ stepsLeft { s with control := next } := by
  cases held with
  | none => exact le_rfl
  | some item =>
    show stepsLeft (resume _ next) ≤ _
    unfold resume stepsLeft
    dsimp only
    split_ifs
    · exact Nat.add_le_add_right (Nat.add_le_add_left (Nat.zero_le _) _) _
    · exact le_rfl

theorem stepsLeft_step (hwidth : 0 < width) {a : PoolAction}
    (h : PoolInv entryUrl readGranule fold width granules init s)
    (hs : poolStep entryUrl readGranule fold s a = some s') : stepsLeft s' < stepsLeft s := by
  have hlength := length_finished (poolInv_step hwidth h hs).toSubmissions
  cases a with
  | finish n =>
    unfold poolStep at hs
    dsimp only at hs
    split_ifs at hs
    obtain rfl := Option.some.inj hs
    rw [List.length_append, List.length_singleton] at hlength
    unfold stepsLeft
    dsimp only at hlength ⊢
    rw [List.length_append, List.length_singleton]
    omega
  | main =>
    unfold poolStep mainStep at hs
    dsimp only at hs
    split at hs
    case h_1 held hc =>
      obtain rfl := Option.some.inj hs
      refine (stepsLeft_yieldHeld s held .looping).trans_lt ?_
      simp only [stepsLeft, weight, hc]
      omega
    case h_2 room held hc =>
      split at hs
      case h_1 hurls =>
        obtain rfl := Option.some.inj hs
        refine (stepsLeft_yieldHeld s held .looping).trans_lt ?_
        simp only [stepsLeft, weight, hc]
        omega
      case h_2 entry rest hurls =>
        obtain rfl := Option.some.inj hs
        have hbefore := length_finished h.toSubmissions
        simp only [stepsLeft, weight, hc, hurls, submit, List.length_append, List.length_cons,
          List.length_nil]
        omega
    case h_3 hc =>
      split at hs
      case h_1 hflight =>
        obtain rfl := Option.some.inj hs
        simp only [stepsLeft, weight, hc]
        omega
      case h_2 url future rest hflight =>
        obtain rfl := Option.some.inj hs
        simp only [stepsLeft, weight, hc, hflight, List.length_cons]
        omega
    case h_4 url future hc =>
      split_ifs at hs
      obtain rfl := Option.some.inj hs
      obtain ⟨t, held, heq⟩ := exists_taken readGranule s url future
      rw [heq]
      simp only [stepsLeft, weight, hc]
      omega
    case h_5 hc =>
      split at hs
      case h_1 hurls =>
        obtain rfl := Option.some.inj hs
        simp only [stepsLeft, weight, hc]
        omega
      case h_2 entry rest hurls =>
        obtain rfl := Option.some.inj hs
        obtain ⟨t, held, heq⟩ := exists_taken readGranule
          { submit s entry rest with finished := s.finished ++ [s.submitted.length] } (entryUrl entry)
          ⟨s.submitted.length, entry⟩
        rw [heq]
        refine (stepsLeft_yieldHeld _ held .serial).trans_lt ?_
        simp only [stepsLeft, weight, hc, hurls, submit, List.length_append, List.length_cons,
          List.length_nil]
        omega
    case h_6 => cases hs
    case h_7 => cases hs

/-- Where the loop is not at its end some step is possible. -/
theorem poolStep_enabled (h : PoolInv entryUrl readGranule fold width granules init s)
    (hdone : s.control ≠ .done) (hraised : s.control ≠ .raised) :
    ∃ a s', poolStep entryUrl readGranule fold s a = some s' := by
  have hmain (hwait : ∀ url future, s.control = .waiting url future → future.number ∈ s.finished) :
      ∃ s', mainStep entryUrl readGranule fold s = some s' := by
    unfold mainStep
    split
    case h_1 => exact ⟨_, rfl⟩
    case h_2 =>
      split
      case h_1 => exact ⟨_, rfl⟩
      case h_2 => exact ⟨_, rfl⟩
    case h_3 =>
      split
      case h_1 => exact ⟨_, rfl⟩
      case h_2 => exact ⟨_, rfl⟩
    case h_4 url future hc =>
      rw [if_pos (hwait url future hc)]
      exact ⟨_, rfl⟩
    case h_5 =>
      split
      case h_1 => exact ⟨_, rfl⟩
      case h_2 => exact ⟨_, rfl⟩
    case h_6 hc => exact absurd hc hdone
    case h_7 hc => exact absurd hc hraised
  by_cases hwait : ∀ url future, s.control = .waiting url future → future.number ∈ s.finished
  · obtain ⟨s', hs'⟩ := hmain hwait
    exact ⟨.main, s', hs'⟩
  · push Not at hwait
    obtain ⟨url, future, hc, hnot⟩ := hwait
    have hqueued := h.queued
    rw [hc] at hqueued
    have hmem : future ∈ s.submitted := by
      rw [← hqueued]
      exact List.mem_append_left _ (List.mem_append_right _ (.head _))
    exact ⟨.finish future.number, { s with finished := s.finished ++ [future.number] },
      if_pos ⟨h.numbered future hmem, hnot⟩⟩

end Termination

section Results
variable {init : σ}

/-- A fold that raised takes nothing more. -/
theorem settled_append_of_raised {fs : List (Future γ)}
    (h : (settled entryUrl readGranule fold init fs).raised = true) (rest : List (Future γ)) :
    settled entryUrl readGranule fold init (fs ++ rest) = settled entryUrl readGranule fold init fs := by
  induction rest generalizing fs with
  | nil => rw [List.append_nil]
  | cons f rest ih =>
    have hstay : settled entryUrl readGranule fold init (fs ++ [f]) =
        settled entryUrl readGranule fold init fs := by
      rw [settled_concat, settle, if_pos h]
    rw [List.append_cons, ih (hstay ▸ h), hstay]

theorem yielded_foldYielded (t : Totals ρ σ) (item : String × ρ) :
    (foldYielded fold t item).yielded = t.yielded ++ [item] := by
  unfold foldYielded
  cases fold t.state item with
  | folded state => rfl
  | failed state => rfl
  | raised state => rfl

/-- What is yielded are the reads that do not fail, all of them unless the fold raised. -/
theorem yielded_settled (fs : List (Future γ)) :
    (settled entryUrl readGranule fold init fs).yielded <+: successes entryUrl readGranule fs ∧
      ((settled entryUrl readGranule fold init fs).raised = false →
        (settled entryUrl readGranule fold init fs).yielded = successes entryUrl readGranule fs) := by
  induction fs using List.reverseRecOn with
  | nil => exact ⟨List.prefix_rfl, fun _ => rfl⟩
  | append_singleton fs f ih =>
    obtain ⟨hsub, hall⟩ := ih
    have hsuccesses : successes entryUrl readGranule (fs ++ [f]) = successes entryUrl readGranule fs ++
        successes entryUrl readGranule [f] := List.filterMap_append
    rw [hsuccesses]
    cases hraised : (settled entryUrl readGranule fold init fs).raised with
    | true =>
      have hstay := settled_append_of_raised hraised [f]
      rw [hstay]
      refine ⟨hsub.trans (List.prefix_append _ _), fun h => ?_⟩
      rw [hraised] at h
      cases h
    | false =>
      have hsame : (settled entryUrl readGranule fold init (fs ++ [f])).yielded =
          successes entryUrl readGranule fs ++ successes entryUrl readGranule [f] := by
        rw [settled_concat, ← hall hraised]
        cases hread : readGranule f.number f.entry with
        | ok reads =>
          rw [settle_ok entryUrl readGranule fold hraised hread, yielded_foldYielded]
          simp only [successes, List.filterMap_cons, hread, List.filterMap_nil]
        | error err =>
          rw [settle_error entryUrl readGranule fold hraised hread]
          simp only [successes, List.filterMap_cons, hread, List.filterMap_nil, List.append_nil]
      exact ⟨hsame ▸ List.prefix_rfl, fun _ => hsame⟩

variable {width : Nat} {granules : List γ} {s : PoolState γ ρ σ}

theorem submitted_isPrefix (h : Submissions entryUrl granules s) :
    s.submitted <+: futuresFrom 0 granules := ⟨_, h.listed⟩

theorem consumed_isPrefix (h : PoolInv entryUrl readGranule fold width granules init s) :
    s.consumed <+: futuresFrom 0 granules := by
  refine List.IsPrefix.trans ⟨awaited s.control ++ s.inFlight.map Prod.snd, ?_⟩
    (submitted_isPrefix h.toSubmissions)
  rw [← List.append_assoc]
  exact h.queued

theorem window_le (h : PoolInv entryUrl readGranule fold width granules init s) :
    s.submitted.length ≤ s.consumed.length + width := by
  have hplaced := h.placed
  have hqueued := congrArg List.length h.queued
  rw [List.length_append, List.length_append, List.length_map] at hqueued
  cases hc : s.control with
  | filling room held =>
    simp only [hc, Placed, awaited, List.length_nil] at hplaced hqueued
    omega
  | looping =>
    simp only [hc, Placed, awaited, List.length_nil] at hplaced hqueued
    omega
  | waiting url future =>
    simp only [hc, Placed, awaited, List.length_cons, List.length_nil] at hplaced hqueued
    omega
  | serial =>
    simp only [hc, Placed, awaited, List.length_nil] at hplaced hqueued
    omega
  | done =>
    simp only [hc, Placed, awaited, List.length_nil] at hplaced hqueued
    omega
  | raised =>
    simp only [hc, Placed, awaited, List.length_nil] at hplaced hqueued
    omega

theorem successes_isPrefix {fs fs' : List (Future γ)} (h : fs <+: fs') :
    successes entryUrl readGranule fs <+: successes entryUrl readGranule fs' := by
  obtain ⟨rest, rfl⟩ := h
  rw [successes, successes, List.filterMap_append]
  exact List.prefix_append _ _

/-- The totals are those of some of the granules, in their order. -/
theorem exists_settled (h : PoolInv entryUrl readGranule fold width granules init s) :
    ∃ fs, fs <+: futuresFrom 0 granules ∧ s.totals = settled entryUrl readGranule fold init fs := by
  by_cases hraised : s.control = .raised
  · exact ⟨s.consumed, consumed_isPrefix h, (h.stopped hraised).1⟩
  · have haccounted := h.accounted hraised
    cases hheld : heldBy s.control with
    | none =>
      rw [hheld] at haccounted
      exact ⟨s.consumed, consumed_isPrefix h, haccounted.1⟩
    | some item =>
      rw [hheld] at haccounted
      obtain ⟨fs, f, reads, hconsumed, -, -, htotals, -⟩ := haccounted
      have hsub : fs <+: s.consumed := hconsumed ▸ List.prefix_append fs [f]
      exact ⟨fs, hsub.trans (consumed_isPrefix h), htotals⟩

theorem order_isPrefix (h : PoolInv entryUrl readGranule fold width granules init s) :
    s.totals.yielded <+: successes entryUrl readGranule (futuresFrom 0 granules) := by
  obtain ⟨fs, hfs, htotals⟩ := exists_settled h
  rw [htotals]
  exact (yielded_settled fs).1.trans (successes_isPrefix hfs)

/-- The loop ends with every granule submitted and taken. -/
theorem all_of_done (h : PoolInv entryUrl readGranule fold width granules init s)
    (hc : s.control = .done) : s.submitted = futuresFrom 0 granules ∧ s.consumed = futuresFrom 0 granules := by
  have hplaced := h.placed
  have hqueued := h.queued
  have hlisted := h.listed
  rw [hc] at hplaced hqueued
  rw [hplaced.2, futuresFrom, List.append_nil] at hlisted
  rw [List.length_eq_zero_iff.mp hplaced.1] at hqueued
  have hall : s.consumed = s.submitted := by simpa [awaited] using hqueued
  exact ⟨hlisted, hall.trans hlisted⟩

/-- At its end the loop has folded all that the serial one folds. -/
theorem totals_of_ended (h : PoolInv entryUrl readGranule fold width granules init s)
    (hend : s.control = .done ∨ s.control = .raised) :
    s.totals = settled entryUrl readGranule fold init (futuresFrom 0 granules) := by
  cases hend with
  | inl hdone =>
    have haccounted := h.accounted (hdone ▸ nofun)
    rw [hdone] at haccounted
    rw [← (all_of_done h hdone).2]
    exact haccounted.1
  | inr hraised =>
    obtain ⟨htotals, hstopped⟩ := h.stopped hraised
    obtain ⟨rest, hrest⟩ := consumed_isPrefix h
    rw [← hrest, settled_append_of_raised (htotals ▸ hstopped)]
    exact htotals

end Results

/-- What a run of the pool comes to. -/
structure PooledRun (entryUrl : γ → String) (readGranule : Nat → γ → Except ε ρ)
    (fold : σ → String × ρ → FoldOutcome σ) (width : Nat) (granules : List γ) (init : σ)
    (actions : List PoolAction) (s : PoolState γ ρ σ) : Prop where
  submits : s.submitted <+: futuresFrom 0 granules
  window : s.submitted.length ≤ s.consumed.length + width
  order : s.totals.yielded <+: successes entryUrl readGranule (futuresFrom 0 granules)
  bounded : actions.length ≤ 5 * granules.length + 2
  progress : s.control ≠ .done → s.control ≠ .raised →
    ∃ a s', poolStep entryUrl readGranule fold s a = some s'
  whole : s.control = .done → s.submitted = futuresFrom 0 granules ∧
    s.consumed = futuresFrom 0 granules ∧
      s.totals.yielded = successes entryUrl readGranule (futuresFrom 0 granules)
  serial : s.control = .done ∨ s.control = .raised → ∀ actions' s',
    exec (poolStep entryUrl readGranule fold) (startPool 1 granules init) actions' = some s' →
      s'.control = .done ∨ s'.control = .raised → s.totals = s'.totals

section Runs
variable {width : Nat} {granules : List γ} {init : σ} {actions : List PoolAction} {s : PoolState γ ρ σ}

theorem poolInv_run (hwidth : 0 < width)
    (h : exec (poolStep entryUrl readGranule fold) (startPool width granules init) actions = some s) :
    PoolInv entryUrl readGranule fold width granules init s ∧
      actions.length ≤ 5 * granules.length + 2 := by
  have hstart : stepsLeft (startPool (ρ := ρ) width granules init) ≤ 5 * granules.length + 2 := by
    unfold startPool stepsLeft
    dsimp only
    split_ifs
    · exact Nat.le_succ _
    · exact le_rfl
  obtain ⟨hinv, hle⟩ := exec_bounded stepsLeft (fun {s s' a} hs hstep =>
    ⟨poolInv_step hwidth hs hstep, stepsLeft_step hwidth hs hstep⟩) poolInv_start h
  exact ⟨hinv, (Nat.le_add_right _ _).trans (hle.trans hstart)⟩

/-- Reading the granules in a pool is reading them one after the other. -/
theorem iterGranuleReads_pooled (hwidth : 1 ≤ width)
    (h : exec (poolStep entryUrl readGranule fold) (startPool width granules init) actions = some s) :
    PooledRun entryUrl readGranule fold width granules init actions s := by
  obtain ⟨hinv, hbounded⟩ := poolInv_run hwidth h
  constructor
  · exact submitted_isPrefix hinv.toSubmissions
  · exact window_le hinv
  · exact order_isPrefix hinv
  · exact hbounded
  · exact poolStep_enabled hinv
  · intro hdone
    obtain ⟨hsubmitted, hconsumed⟩ := all_of_done hinv hdone
    have haccounted := hinv.accounted (hdone ▸ nofun)
    rw [hdone] at haccounted
    obtain ⟨htotals, hraised⟩ := haccounted
    refine ⟨hsubmitted, hconsumed, ?_⟩
    rw [← hconsumed, htotals]
    exact (yielded_settled s.consumed).2 (htotals ▸ hraised)
  · intro hend actions' s' h' hend'
    obtain ⟨hinv', -⟩ := poolInv_run Nat.one_pos h'
    rw [totals_of_ended hinv hend, totals_of_ended hinv' hend']

end Runs

section Sample

/-- The second granule of three cannot be read. -/
def sampleRead (number : Nat) (entry : String) : Except PyError Nat :=
  if number = 1 then .error .valueError else .ok entry.length

def sampleFold (state : Nat) (item : String × Nat) : FoldOutcome Nat := .folded (state + item.2)

/-- The reads of the first two finish in the other order. -/
def sampleActions : List PoolAction :=
  [.main, .main, .main, .finish 1, .main, .finish 0, .main, .main, .main, .main, .main, .main, .main,
    .finish 2, .main, .main, .main]

def sampleEnd : PoolState String Nat Nat :=
  (exec (poolStep id sampleRead sampleFold) (startPool 2 ["a", "b", "ccc"] 0) sampleActions).getD
    (startPool 2 [] 0)

theorem iterGranuleReads_pooled_sample :
    PooledRun id sampleRead sampleFold 2 ["a", "b", "ccc"] 0 sampleActions sampleEnd :=
  iterGranuleReads_pooled (by decide) rfl

end Sample

end Zagg.Processing
