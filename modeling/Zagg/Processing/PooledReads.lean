import Zagg.Processing.GranulePool

/-!
# Pooled reads are serial reads

Whatever order the reads of the pool finish in, what is folded is what the serial loop folds, and
the pool holds no more than its width.
-/
namespace Zagg.Processing

open Zagg.Lib

variable {γ ρ ε σ : Type} {entryUrl : γ → String} {readGranule : Nat → γ → Except ε ρ}
  {fold : σ → String × ρ → FoldOutcome σ}

section Serial
variable (entryUrl readGranule fold)

/-- The granules of a list as they are submitted, from a place on. -/
def futuresFrom (number : Nat) : List γ → List (Future γ)
  | [] => []
  | entry :: rest => ⟨number, entry⟩ :: futuresFrom (number + 1) rest

/-- One granule read and folded. -/
def settle (t : Totals ρ σ) (f : Future γ) : Totals ρ σ :=
  if t.raised then t
  else
    match readGranule f.number f.entry with
    | .ok reads => foldYielded fold t (entryUrl f.entry, reads)
    | .error _ => { t with granuleErrors := t.granuleErrors + 1 }

/-- Granules read and folded one after the other. -/
def settled (init : σ) (fs : List (Future γ)) : Totals ρ σ :=
  fs.foldl (settle entryUrl readGranule fold) ⟨[], 0, init, false⟩

/-- The reads of the granules that do not fail. -/
def successes (fs : List (Future γ)) : List (String × ρ) :=
  fs.filterMap fun f =>
    match readGranule f.number f.entry with
    | .ok reads => some (entryUrl f.entry, reads)
    | .error _ => none

theorem settle_ok {t : Totals ρ σ} {f : Future γ} {reads : ρ} (h : t.raised = false)
    (hread : readGranule f.number f.entry = .ok reads) :
    settle entryUrl readGranule fold t f = foldYielded fold t (entryUrl f.entry, reads) := by
  rw [settle, h, if_neg Bool.false_ne_true, hread]

theorem settle_error {t : Totals ρ σ} {f : Future γ} {err : ε} (h : t.raised = false)
    (hread : readGranule f.number f.entry = .error err) :
    settle entryUrl readGranule fold t f = { t with granuleErrors := t.granuleErrors + 1 } := by
  rw [settle, if_neg (by rw [h]; exact Bool.false_ne_true), hread]

theorem settled_concat (init : σ) (fs : List (Future γ)) (f : Future γ) :
    settled entryUrl readGranule fold init (fs ++ [f]) =
      settle entryUrl readGranule fold (settled entryUrl readGranule fold init fs) f := by
  rw [settled, List.foldl_append]
  rfl

end Serial

section Accounts
variable (entryUrl readGranule fold)

/-- The totals are those of the results taken, but for the one that is still to be yielded. -/
def Accounted (init : σ) (t : Totals ρ σ) (consumed : List (Future γ)) :
    Option (String × ρ) → Prop
  | none => t = settled entryUrl readGranule fold init consumed ∧ t.raised = false
  | some item => ∃ fs f reads, consumed = fs ++ [f] ∧ readGranule f.number f.entry = .ok reads ∧
      item = (entryUrl f.entry, reads) ∧ t = settled entryUrl readGranule fold init fs ∧
        t.raised = false

variable {entryUrl readGranule fold} {init : σ}

theorem accounted_taken {s : PoolState γ ρ σ} (f : Future γ)
    (h : Accounted entryUrl readGranule fold init s.totals s.consumed none) :
    Accounted entryUrl readGranule fold init
      (taken readGranule s (entryUrl f.entry) f).1.totals (s.consumed ++ [f])
      (taken readGranule s (entryUrl f.entry) f).2 := by
  obtain ⟨htotals, hraised⟩ := h
  unfold taken
  cases hread : readGranule f.number f.entry with
  | ok reads => exact ⟨s.consumed, f, reads, rfl, hread, rfl, htotals, hraised⟩
  | error err =>
    refine ⟨?_, hraised⟩
    rw [settled_concat, ← htotals, settle_error entryUrl readGranule fold hraised hread]

theorem exists_taken (readGranule : Nat → γ → Except ε ρ) (s : PoolState γ ρ σ) (url : String) (f : Future γ) : ∃ t held,
    taken readGranule s url f = ({ s with consumed := s.consumed ++ [f], totals := t }, held) := by
  unfold taken
  cases readGranule f.number f.entry with
  | ok reads => exact ⟨_, _, rfl⟩
  | error err => exact ⟨_, _, rfl⟩

/-- Behind the yield the totals are those of all the results taken. -/
theorem accounted_yieldHeld {s : PoolState γ ρ σ} {held : Option (String × ρ)} (next : Control γ ρ)
    (h : Accounted entryUrl readGranule fold init s.totals s.consumed held) :
    (yieldHeld fold s held next).totals = settled entryUrl readGranule fold init s.consumed ∧
      (yieldHeld fold s held next).control =
        if (yieldHeld fold s held next).totals.raised then .raised else next := by
  cases held with
  | none =>
    obtain ⟨htotals, hraised⟩ := h
    refine ⟨htotals, ?_⟩
    show next = if s.totals.raised then _ else _
    rw [hraised, if_neg Bool.false_ne_true]
  | some item =>
    obtain ⟨fs, f, reads, hconsumed, hread, rfl, htotals, hraised⟩ := h
    refine ⟨?_, rfl⟩
    show foldYielded fold s.totals _ = _
    rw [hconsumed, settled_concat, ← htotals, settle_ok entryUrl readGranule fold hraised hread]

end Accounts

section Invariant
variable (entryUrl readGranule fold)

/-- The read the generator waits for. -/
def awaited : Control γ ρ → List (Future γ)
  | .waiting _ future => [future]
  | _ => []

def heldBy : Control γ ρ → Option (String × ρ)
  | .filling _ held => held
  | _ => none

/-- How full the pool is wherever the generator is. -/
def Placed (width : Nat) (urls : List γ) (outstanding : Nat) : Control γ ρ → Prop
  | .filling room _ => outstanding + room ≤ width ∧ (urls = [] ∨ outstanding + room = width)
  | .looping => outstanding ≤ width ∧ (urls = [] ∨ outstanding = width)
  | .waiting _ _ => outstanding + 1 ≤ width ∧ (urls = [] ∨ outstanding + 1 = width)
  | .serial => outstanding = 0
  | .done => outstanding = 0 ∧ urls = []
  | .raised => outstanding ≤ width

/-- The granules are submitted in their order, and what is in flight goes by its url. -/
structure Submissions (granules : List γ) (s : PoolState γ ρ σ) : Prop where
  listed : s.submitted ++ futuresFrom s.submitted.length s.urls = futuresFrom 0 granules
  numbered : ∀ f ∈ s.submitted, f.number < s.submitted.length
  labelled : ∀ p ∈ s.inFlight, p.1 = entryUrl p.2.entry
  finished : s.finished.Nodup ∧ ∀ n ∈ s.finished, n < s.submitted.length

structure PoolInv (width : Nat) (granules : List γ) (init : σ) (s : PoolState γ ρ σ) : Prop
    extends Submissions entryUrl granules s where
  queued : s.consumed ++ awaited s.control ++ s.inFlight.map Prod.snd = s.submitted
  awaits : ∀ url f, s.control = .waiting url f → url = entryUrl f.entry
  placed : Placed width s.urls s.inFlight.length s.control
  accounted : s.control ≠ .raised →
    Accounted entryUrl readGranule fold init s.totals s.consumed (heldBy s.control)
  stopped : s.control = .raised →
    s.totals = settled entryUrl readGranule fold init s.consumed ∧ s.totals.raised = true

end Invariant

section Preservation
variable {width : Nat} {granules : List γ} {init : σ} {s s' : PoolState γ ρ σ}

theorem poolInv_start : PoolInv entryUrl readGranule fold width granules init
    (startPool width granules init) := by
  unfold startPool
  constructor
  · exact ⟨rfl, nofun, nofun, List.nodup_nil, nofun⟩
  · show ([] : List (Future γ)) ++ awaited _ ++ [] = []
    split_ifs <;> rfl
  · intro url f h
    dsimp only at h
    split_ifs at h
  · dsimp only
    split_ifs
    · rfl
    · exact ⟨(Nat.zero_add width).le, .inr (Nat.zero_add width)⟩
  · intro _
    dsimp only
    split_ifs
    · exact ⟨rfl, rfl⟩
    · exact ⟨rfl, rfl⟩
  · intro h
    dsimp only at h
    split_ifs at h

/-- A read that finishes changes nothing else. -/
theorem poolInv_finish (h : PoolInv entryUrl readGranule fold width granules init s) {n : Nat}
    (hs : poolStep entryUrl readGranule fold s (.finish n) = some s') :
    PoolInv entryUrl readGranule fold width granules init s' := by
  unfold poolStep at hs
  dsimp only at hs
  split_ifs at hs with hn
  obtain rfl := Option.some.inj hs
  refine { h with finished := ⟨?_, ?_⟩ }
  · exact List.nodup_append.mpr ⟨h.finished.1, List.pairwise_singleton _ n,
      fun a ha b hb => fun heq => hn.2 (List.mem_singleton.mp hb ▸ heq ▸ ha)⟩
  · exact List.forall_mem_append.mpr ⟨h.finished.2, List.forall_mem_singleton.mpr hn.1⟩

/-- The generator goes on behind what it yields. -/
theorem poolInv_yieldHeld (h : Submissions entryUrl granules s) {held : Option (String × ρ)}
    {next : Control γ ρ} (hqueued : s.consumed ++ s.inFlight.map Prod.snd = s.submitted)
    (haccounted : Accounted entryUrl readGranule fold init s.totals s.consumed held)
    (hnext : next = .looping ∨ next = .serial) (hplaced : Placed width s.urls s.inFlight.length next)
    (hle : s.inFlight.length ≤ width) :
    PoolInv entryUrl readGranule fold width granules init (yieldHeld fold s held next) := by
  obtain ⟨htotals, hcontrol⟩ := accounted_yieldHeld next haccounted
  obtain ⟨t, c, heq⟩ : ∃ t c, yieldHeld fold s held next = { s with totals := t, control := c } := by
    cases held with
    | none => exact ⟨_, _, rfl⟩
    | some item => exact ⟨_, _, rfl⟩
  rw [heq] at htotals hcontrol ⊢
  have hsubmissions : Submissions entryUrl granules { s with totals := t, control := c } :=
    ⟨h.listed, h.numbered, h.labelled, h.finished⟩
  cases hraised : t.raised with
  | true =>
    obtain rfl : c = .raised := hcontrol.trans (if_pos hraised)
    refine ⟨hsubmissions, ?_, nofun, hle, fun hne => absurd rfl hne, fun _ => ⟨htotals, hraised⟩⟩
    show s.consumed ++ [] ++ _ = _
    rw [List.append_nil]
    exact hqueued
  | false =>
    obtain rfl : c = next := hcontrol.trans (if_neg (ne_true_of_eq_false hraised))
    have hnone : awaited c = [] ∧ heldBy c = none ∧ ∀ url f, c ≠ .waiting url f := by
      obtain rfl | rfl := hnext
      · exact ⟨rfl, rfl, nofun⟩
      · exact ⟨rfl, rfl, nofun⟩
    refine ⟨hsubmissions, ?_, fun url f hwaiting => absurd hwaiting (hnone.2.2 url f), hplaced, ?_, ?_⟩
    · show s.consumed ++ awaited c ++ _ = _
      rw [hnone.1, List.append_nil]
      exact hqueued
    · intro _
      show Accounted entryUrl readGranule fold init t s.consumed (heldBy c)
      rw [hnone.2.1]
      exact ⟨htotals, hraised⟩
    · intro hc
      obtain rfl | rfl := hnext
      · cases hc
      · cases hc

theorem submissions_submit (h : Submissions entryUrl granules s) {entry : γ} {rest : List γ}
    (hurls : s.urls = entry :: rest) {inFlight : List (String × Future γ)} {finished : List Nat}
    (hlabelled : ∀ p ∈ inFlight, p.1 = entryUrl p.2.entry)
    (hfinished : finished.Nodup ∧ ∀ n ∈ finished, n < s.submitted.length + 1)
    {consumed : List (Future γ)} {totals : Totals ρ σ} {control : Control γ ρ} :
    Submissions entryUrl granules { submit s entry rest with
      inFlight := inFlight, finished := finished, consumed := consumed, totals := totals,
      control := control } := by
  have hlength : (s.submitted ++ [(⟨s.submitted.length, entry⟩ : Future γ)]).length =
      s.submitted.length + 1 := by rw [List.length_append, List.length_singleton]
  constructor
  · have hlisted := h.listed
    rw [hurls] at hlisted
    show s.submitted ++ [_] ++ futuresFrom (s.submitted ++ [_]).length rest = _
    rw [hlength, List.append_assoc]
    exact hlisted
  · intro f hf
    show f.number < (s.submitted ++ [_]).length
    rw [hlength]
    cases List.mem_append.mp hf with
    | inl hf => exact (h.numbered f hf).trans (Nat.lt_succ_self _)
    | inr hf =>
      rw [List.mem_singleton.mp hf]
      exact Nat.lt_succ_self _
  · exact hlabelled
  · rw [← hlength] at hfinished
    exact hfinished

/-- The loop takes a granule into the pool. -/
theorem poolInv_fill (h : PoolInv entryUrl readGranule fold width granules init s) {room : Nat}
    {held : Option (String × ρ)} (hc : s.control = .filling (room + 1) held) {entry : γ} {rest : List γ}
    (hurls : s.urls = entry :: rest) :
    PoolInv entryUrl readGranule fold width granules init { submit s entry rest with
      inFlight := s.inFlight ++ [(entryUrl entry, ⟨s.submitted.length, entry⟩)]
      control := .filling room held } := by
  have hplaced := h.placed
  have hqueued := h.queued
  have haccounted := h.accounted
  rw [hc] at hplaced hqueued haccounted
  obtain ⟨hle, hfull⟩ := hplaced
  have hlabelled : ∀ p ∈ s.inFlight ++ [(entryUrl entry, (⟨s.submitted.length, entry⟩ : Future γ))],
      p.1 = entryUrl p.2.entry :=
    List.forall_mem_append.mpr ⟨h.labelled, List.forall_mem_singleton.mpr rfl⟩
  refine ⟨submissions_submit h.toSubmissions hurls hlabelled
    ⟨h.finished.1, fun n hn => (h.finished.2 n hn).trans (Nat.lt_succ_self _)⟩, ?_, nofun, ?_, ?_, nofun⟩
  · show s.consumed ++ [] ++ (s.inFlight ++ [_]).map Prod.snd = s.submitted ++ [_]
    rw [List.map_append, ← List.append_assoc]
    exact congrArg (· ++ _) hqueued
  · show (s.inFlight ++ [_]).length + room ≤ width ∧ (rest = [] ∨ (s.inFlight ++ [_]).length + room = width)
    rw [List.length_append, List.length_singleton]
    have hne : s.urls ≠ [] := hurls ▸ List.cons_ne_nil entry rest
    have hwidth := hfull.resolve_left hne
    omega
  · exact fun _ => haccounted nofun

/-- The loop takes the head of the queue. -/
theorem poolInv_pop (h : PoolInv entryUrl readGranule fold width granules init s)
    (hc : s.control = .looping) {url : String} {future : Future γ} {rest : List (String × Future γ)}
    (hflight : s.inFlight = (url, future) :: rest) :
    PoolInv entryUrl readGranule fold width granules init
      { s with inFlight := rest, control := .waiting url future } := by
  have hplaced := h.placed
  have hqueued := h.queued
  have haccounted := h.accounted
  have hlabelled := h.labelled
  rw [hc] at hplaced hqueued haccounted
  rw [hflight] at hplaced hqueued hlabelled
  obtain ⟨hhead, hrest⟩ := List.forall_mem_cons.mp hlabelled
  refine ⟨⟨h.listed, h.numbered, hrest, h.finished⟩, ?_, ?_, hplaced, ?_, nofun⟩
  · show s.consumed ++ [future] ++ rest.map Prod.snd = s.submitted
    have hnone : awaited (.looping : Control γ ρ) = [] := rfl
    rw [← hqueued, hnone, List.append_nil, List.map_cons, List.append_assoc]
    rfl
  · intro url' f hwaiting
    obtain ⟨rfl, rfl⟩ := Control.waiting.inj hwaiting
    exact hhead
  · exact fun _ => haccounted nofun

/-- The loop takes the result of the head. -/
theorem poolInv_take (h : PoolInv entryUrl readGranule fold width granules init s) {url : String}
    {future : Future γ} (hc : s.control = .waiting url future) :
    PoolInv entryUrl readGranule fold width granules init
      { (taken readGranule s url future).1 with
        control := .filling 1 (taken readGranule s url future).2 } := by
  have hplaced := h.placed
  have hqueued := h.queued
  have haccounted := h.accounted (hc ▸ nofun)
  obtain rfl := h.awaits url future hc
  rw [hc] at hplaced hqueued haccounted
  have htaken := accounted_taken future haccounted
  obtain ⟨t, held, heq⟩ := exists_taken readGranule s (entryUrl future.entry) future
  rw [heq] at htaken ⊢
  refine ⟨⟨h.listed, h.numbered, h.labelled, h.finished⟩, ?_, nofun, hplaced, fun _ => htaken, nofun⟩
  show s.consumed ++ [future] ++ [] ++ s.inFlight.map Prod.snd = s.submitted
  rw [List.append_nil]
  exact hqueued

/-- A granule is read in the thread of the loop. -/
theorem poolInv_serial (h : PoolInv entryUrl readGranule fold width granules init s)
    (hc : s.control = .serial) {entry : γ} {rest : List γ} (hurls : s.urls = entry :: rest) :
    PoolInv entryUrl readGranule fold width granules init
      (yieldHeld fold
        (taken readGranule
          { submit s entry rest with finished := s.finished ++ [s.submitted.length] } (entryUrl entry)
          ⟨s.submitted.length, entry⟩).1
        (taken readGranule
          { submit s entry rest with finished := s.finished ++ [s.submitted.length] } (entryUrl entry)
          ⟨s.submitted.length, entry⟩).2 .serial) := by
  have hplaced := h.placed
  have hqueued := h.queued
  have haccounted := h.accounted (hc ▸ nofun)
  rw [hc] at hplaced hqueued haccounted
  have hnone : s.inFlight = [] := List.length_eq_zero_iff.mp hplaced
  have hfinished : (s.finished ++ [s.submitted.length]).Nodup ∧
      ∀ n ∈ s.finished ++ [s.submitted.length], n < s.submitted.length + 1 := by
    constructor
    · exact List.nodup_append.mpr ⟨h.finished.1, List.pairwise_singleton _ s.submitted.length,
        fun a ha b hb heq => (h.finished.2 a ha).ne (heq.trans (List.mem_singleton.mp hb))⟩
    · exact List.forall_mem_append.mpr ⟨fun n hn => (h.finished.2 n hn).trans (Nat.lt_succ_self _),
        List.forall_mem_singleton.mpr (Nat.lt_succ_self _)⟩
  generalize hread : { submit s entry rest with finished := s.finished ++ [s.submitted.length] } = read
  have haccount : Accounted entryUrl readGranule fold init read.totals read.consumed none :=
    hread ▸ haccounted
  have htaken := accounted_taken ⟨s.submitted.length, entry⟩ haccount
  obtain ⟨t, held, heq⟩ := exists_taken readGranule read (entryUrl entry)
    ⟨s.submitted.length, entry⟩
  rw [heq] at htaken ⊢
  subst hread
  apply poolInv_yieldHeld
  · exact submissions_submit h.toSubmissions hurls h.labelled hfinished
  · show s.consumed ++ [_] ++ s.inFlight.map Prod.snd = s.submitted ++ [_]
    rw [hnone] at hqueued ⊢
    rw [← hqueued]
    simp [awaited]
  · exact htaken
  · exact .inr rfl
  · exact hplaced
  · exact hplaced ▸ Nat.zero_le width

/-- The loop ends with nothing left. -/
theorem poolInv_done (h : PoolInv entryUrl readGranule fold width granules init s)
    (hc : s.control = .looping ∨ s.control = .serial) (hflight : s.inFlight = []) (hurls : s.urls = []) :
    PoolInv entryUrl readGranule fold width granules init { s with control := .done } := by
  have hqueued := h.queued
  have hnone : awaited s.control = [] ∧ heldBy s.control = none ∧ s.control ≠ .raised := by
    obtain hc | hc := hc
    · rw [hc]
      exact ⟨rfl, rfl, nofun⟩
    · rw [hc]
      exact ⟨rfl, rfl, nofun⟩
  have haccounted := h.accounted hnone.2.2
  rw [hnone.1] at hqueued
  rw [hnone.2.1] at haccounted
  exact ⟨⟨h.listed, h.numbered, h.labelled, h.finished⟩, hqueued, nofun,
    ⟨List.length_eq_zero_iff.mpr hflight, hurls⟩, fun _ => haccounted, nofun⟩

/-- The invariant is kept by every step. -/
theorem poolInv_step (hwidth : 0 < width) {a : PoolAction}
    (h : PoolInv entryUrl readGranule fold width granules init s)
    (hs : poolStep entryUrl readGranule fold s a = some s') :
    PoolInv entryUrl readGranule fold width granules init s' := by
  cases a with
  | finish n => exact poolInv_finish h hs
  | main =>
    have hplaced := h.placed
    have hqueued := h.queued
    have haccounted := h.accounted
    unfold poolStep mainStep at hs
    dsimp only at hs
    split at hs
    case h_1 held hc =>
      obtain rfl := Option.some.inj hs
      rw [hc] at hplaced hqueued haccounted
      exact poolInv_yieldHeld h.toSubmissions (List.append_nil s.consumed ▸ hqueued) (haccounted nofun)
        (.inl rfl) hplaced hplaced.1
    case h_2 room held hc =>
      rw [hc] at hplaced hqueued haccounted
      split at hs
      case h_1 hurls =>
        obtain rfl := Option.some.inj hs
        have hle : s.inFlight.length ≤ width := (Nat.le_add_right _ _).trans hplaced.1
        exact poolInv_yieldHeld h.toSubmissions (List.append_nil s.consumed ▸ hqueued) (haccounted nofun)
          (.inl rfl) ⟨hle, .inl hurls⟩ hle
      case h_2 entry rest hurls =>
        obtain rfl := Option.some.inj hs
        exact poolInv_fill h hc hurls
    case h_3 hc =>
      split at hs
      case h_1 hflight =>
        obtain rfl := Option.some.inj hs
        rw [hc, hflight] at hplaced
        have hurls := hplaced.2.resolve_right hwidth.ne
        exact poolInv_done h (.inl hc) hflight hurls
      case h_2 url future rest hflight =>
        obtain rfl := Option.some.inj hs
        exact poolInv_pop h hc hflight
    case h_4 url future hc =>
      split_ifs at hs
      obtain rfl := Option.some.inj hs
      exact poolInv_take h hc
    case h_5 hc =>
      split at hs
      case h_1 hurls =>
        obtain rfl := Option.some.inj hs
        rw [hc] at hplaced
        exact poolInv_done h (.inr hc) (List.length_eq_zero_iff.mp hplaced) hurls
      case h_2 entry rest hurls =>
        obtain rfl := Option.some.inj hs
        exact poolInv_serial h hc hurls
    case h_6 => cases hs
    case h_7 => cases hs

end Preservation

end Zagg.Processing
