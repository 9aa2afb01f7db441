import Mathlib.Tactic.Common
import Zagg.Sweep.Lease

/-!
# Mutual exclusion of sweep admission

A run that holds the lease owns the register: that is the invariant, and exclusion
follows because one register names one run. Every move keeps it except the claim's
unconditional DELETE, which is issued after a GET and may find another run's fresh
intent. `not_exclusive_of_absent_claim` is such a schedule, with no TTL elapsing;
`exclusive_of_deleteSettled` is the exclusion of every run that takes no such step.
-/
namespace Zagg.Sweep.Lease

open Zagg.Lib

section Facts
variable {Run : Type}

/-- The run whose intent stands at the register. -/
def holder (obj : Option (Obj Run)) : Option Run := (readLease obj).map (·.runId)

/-- The run has created its intent and has not yet given it up. -/
def Pc.posted (pc : Pc Run) : Bool :=
  match pc with
  | .verify _ => true
  | pc => pc.holds

/-- What the locals of one run are known to satisfy. An intent about to be claimed
was read as expired and stays so, since the clock only advances. -/
def LocalOk (r : Run) (clock : Nat) : Pc Run → Prop
  | .create l | .claimCreate l | .held l => l.runId = r
  | .beatPut l fresh => l.runId = r ∧ fresh.runId = r
  | .judge (some l) => l.runId ≠ r
  | .recheck (some l) | .claimDelete (some l) => expired clock l = true
  | .verify l => l.runId = r
  | _ => True

structure Inv (s : State Run) : Prop where
  locals : ∀ r, LocalOk r s.clock (s.pc r)
  owns : ∀ r, (s.pc r).holds = true → holder s.obj = some r
  posted : ∀ r, holder s.obj = some r → (s.pc r).posted = true

theorem exclusive_of_inv {s : State Run} (h : Inv s) : Exclusive s := by
  intro r r' hr hr'
  have he := (h.owns r hr).symm.trans (h.owns r' hr')
  exact Option.some.inj he

theorem inv_init (clock : Nat) : Inv (init clock : State Run) where
  locals _ := trivial
  owns _ h := by cases h
  posted _ h := by cases h

/-- Time only makes an intent older. -/
theorem expired_mono {c c' : Nat} (h : c ≤ c') {l : Intent Run}
    (he : expired c l = true) : expired c' l = true := by
  unfold expired at he ⊢
  cases hb : l.heartbeatAt with
  | none => rfl
  | some beat =>
    simp only [hb, decide_eq_true_eq] at he ⊢
    omega

theorem localOk_mono {r : Run} {c c' : Nat} (h : c ≤ c') {pc : Pc Run}
    (hl : LocalOk r c pc) : LocalOk r c' pc := by
  cases pc with
  | recheck e | claimDelete e =>
    cases e with
    | none => trivial
    | some l => exact expired_mono h hl
  | judge e => cases e <;> exact hl
  | _ => exact hl

@[simp] theorem holder_intent (l : Intent Run) : holder (some (.intent l)) = some l.runId := rfl

@[simp] theorem holder_none : holder (none : Option (Obj Run)) = none := rfl

theorem holder_of_readLease {o : Option (Obj Run)} {l : Intent Run}
    (h : readLease o = some l) : holder o = some l.runId := by rw [holder, h]; rfl

theorem holder_of_readLease_none {o : Option (Obj Run)} (h : readLease o = none) :
    holder o = none := by rw [holder, h]; rfl

/-- What one move of `r` does to the register, with what it tells about `r` itself. -/
inductive Effect (r : Run) (obj : Option (Obj Run)) (pc : Pc Run) :
    Option (Obj Run) → Pc Run → Prop
  | kept {pc' : Pc Run} (hh : pc'.holds = true → holder obj = some r)
      (hp : holder obj = some r → pc'.posted = true) : Effect r obj pc obj pc'
  | wrote {l : Intent Run} {pc' : Pc Run} (hl : l.runId = r)
      (ho : obj = none ∨ pc.holds = true) (hp : pc'.posted = true) :
      Effect r obj pc (some (.intent l)) pc'
  | dropped {pc' : Pc Run} (hh : pc'.holds = false)
      (ho : pc.holds = true ∨ ∃ e, pc = .claimDelete e) : Effect r obj pc none pc'

/-- A move that leaves the register alone and keeps the run from holding. -/
theorem Effect.idle {r : Run} {obj : Option (Obj Run)} {pc pc' : Pc Run}
    (hh : pc'.holds = false) (hp : pc.posted = false)
    (hposted : holder obj = some r → pc.posted = true) : Effect r obj pc obj pc' := by
  refine .kept (fun h => ?_) (fun h => ?_)
  · rw [hh] at h; cases h
  · rw [hposted h] at hp; cases hp

end Facts

variable {Run : Type} [DecidableEq Run]

theorem acquireStep_spec {a : Args} {r : Run} {clock : Nat} {obj obj' : Option (Obj Run)}
    {pc pc' : Pc Run} (hl : LocalOk r clock pc)
    (hposted : holder obj = some r → pc.posted = true)
    (h : acquireStep a r clock obj pc = some (obj', pc')) :
    LocalOk r clock pc' ∧ Effect r obj pc obj' pc' := by
  cases pc with
  | create lease =>
    simp only [acquireStep] at h
    split at h
    · next hn =>
      cases h
      exact ⟨hl, .wrote hl (.inl (Option.isNone_iff_eq_none.mp hn)) rfl⟩
    · cases h
      exact ⟨trivial, .idle rfl rfl hposted⟩
  | readExisting =>
    cases h
    refine ⟨?_, .idle rfl rfl hposted⟩
    cases hr : readLease obj with
    | none => trivial
    | some l =>
      -- an intent of `r` itself would mean that `r` had already posted one
      intro hlr
      have := hposted (by rw [holder_of_readLease hr, hlr])
      cases this
  | judge existing =>
    cases existing with
    | none => cases h; exact ⟨trivial, .idle rfl rfl hposted⟩
    | some l =>
      simp only [acquireStep, if_neg (show l.runId ≠ r from hl)] at h
      split at h
      · next he => cases h; exact ⟨he, .idle rfl rfl hposted⟩
      · cases h; exact ⟨trivial, .idle rfl rfl hposted⟩
  | recheck existing =>
    simp only [acquireStep] at h
    split at h
    · cases h
      refine ⟨?_, .idle rfl rfl hposted⟩
      cases existing <;> exact hl
    · cases h; exact ⟨trivial, .idle rfl rfl hposted⟩
  | claimDelete existing =>
    cases h
    exact ⟨rfl, .dropped rfl (.inr ⟨existing, rfl⟩)⟩
  | claimCreate claim =>
    simp only [acquireStep] at h
    split at h
    · next hn =>
      cases h
      exact ⟨hl, .wrote hl (.inl (Option.isNone_iff_eq_none.mp hn)) rfl⟩
    · cases h
      exact ⟨hl, .kept (fun hh => by cases hh) (fun _ => rfl)⟩
  | verify claim =>
    simp only [acquireStep] at h
    split at h
    · next hv => cases h; exact ⟨hl, .kept (fun _ => hv) (fun _ => rfl)⟩
    · next hv => cases h; exact ⟨trivial, .kept (fun hh => by cases hh) (fun ho => absurd ho hv)⟩
  | _ => cases h

theorem heartbeatStep_spec {r : Run} (clock : Nat) (obj : Option (Obj Run)) {lease : Intent Run}
    (hl : lease.runId = r) :
    LocalOk r clock (heartbeatStep clock obj lease).2 ∧
      Effect r obj (.held lease) (heartbeatStep clock obj lease).1
        (heartbeatStep clock obj lease).2 := by
  unfold heartbeatStep
  cases hr : readLease obj with
  | none =>
    refine ⟨trivial, .kept (fun hh => by cases hh) (fun ho => ?_)⟩
    rw [holder_of_readLease_none hr] at ho
    cases ho
  | some current =>
    have ho := holder_of_readLease hr
    by_cases hc : current.runId = lease.runId
    · simp only [hc, ↓reduceIte]
      exact ⟨⟨hl, hl⟩, .kept (fun _ => by rw [ho, hc, hl]) (fun _ => rfl)⟩
    · simp only [hc, ↓reduceIte]
      refine ⟨trivial, .kept (fun hh => by cases hh) (fun hr' => ?_)⟩
      rw [ho, ← hl] at hr'
      exact absurd (Option.some.inj hr') hc

theorem releaseStep_spec (r : Run) (clock : Nat) (obj : Option (Obj Run)) (lease : Intent Run) :
    LocalOk r clock (releaseStep r obj lease).2 ∧
      Effect r obj (.held lease) (releaseStep r obj lease).1 (releaseStep r obj lease).2 := by
  unfold releaseStep
  cases hr : readLease obj with
  | none =>
    refine ⟨trivial, .kept (fun hh => by cases hh) (fun ho => ?_)⟩
    rw [holder_of_readLease_none hr] at ho
    cases ho
  | some current =>
    have ho := holder_of_readLease hr
    by_cases hc : current.runId = r
    · simp only [hc, ↓reduceIte]
      exact ⟨trivial, .kept (fun _ => by rw [ho, hc]) (fun _ => rfl)⟩
    · simp only [hc, ↓reduceIte]
      refine ⟨trivial, .kept (fun hh => by cases hh) (fun hr' => ?_)⟩
      rw [ho] at hr'
      exact absurd (Option.some.inj hr') hc

/-- Every move of a run is one of the four effects on the register. -/
theorem advance_spec {a : Args} {r : Run} {clock : Nat} {obj obj' : Option (Obj Run)}
    {m : Move} {pc pc' : Pc Run} (hl : LocalOk r clock pc)
    (hposted : holder obj = some r → pc.posted = true)
    (h : advance a r clock obj m pc = some (obj', pc')) :
    LocalOk r clock pc' ∧ Effect r obj pc obj' pc' := by
  cases m with
  | begin =>
    cases pc with
    | idle => cases h; exact ⟨rfl, .idle rfl rfl hposted⟩
    | _ => cases h
  | beat =>
    cases pc with
    | held lease =>
      have hs := heartbeatStep_spec clock obj hl
      rw [show heartbeatStep clock obj lease = (obj', pc') from Option.some.inj h] at hs
      exact hs
    | _ => cases h
  | release =>
    cases pc with
    | held lease =>
      have hs := releaseStep_spec r clock obj lease
      rw [show releaseStep r obj lease = (obj', pc') from Option.some.inj h] at hs
      exact hs
    | _ => cases h
  | proceed =>
    cases pc with
    | beatPut lease fresh => cases h; exact ⟨hl.1, .wrote hl.2 (.inr rfl) rfl⟩
    | releaseDelete lease => cases h; exact ⟨trivial, .dropped rfl (.inl rfl)⟩
    | _ => exact acquireStep_spec (a := a) hl hposted h

/-- The claim's DELETE, where it finds what was re-checked, removes no held intent:
an intent it re-checked is expired, and a held one is not. -/
theorem no_holder_of_deleteSettled {s : State Run} (hi : Inv s)
    (hu : heldUnexpired s = true) {r : Run} {e : Option (Intent Run)}
    (hpc : s.pc r = .claimDelete e) (hd : deleteSettled s (.run r .proceed) = true) :
    ∀ r', (s.pc r').holds = false := by
  intro r'
  by_contra hh
  have hh' : (s.pc r').holds = true := by simpa using hh
  have hown := hi.owns r' hh'
  simp only [deleteSettled, hpc, decide_eq_true_eq] at hd
  cases e with
  | none => rw [holder_of_readLease_none hd] at hown; cases hown
  | some l =>
    have hexp : expired s.clock l = true := by
      have := hi.locals r
      rwa [hpc] at this
    rw [holder_of_readLease hd] at hown
    obtain rfl := Option.some.inj hown
    cases hobj : s.obj with
    | none => rw [hobj] at hd; cases hd
    | some o =>
      cases o with
      | debris => rw [hobj] at hd; cases hd
      | intent l' =>
        rw [hobj] at hd
        obtain rfl := Option.some.inj hd
        simp [heldUnexpired, hobj, hh', hexp] at hu

/-- What a run may do between its admission and its release, and a tick of the clock,
keep the invariant. -/
theorem inv_step {args : Run → Args} {s s' : State Run} {a : Act Run} (hi : Inv s)
    (hu : heldUnexpired s = true) (hd : deleteSettled s a = true)
    (h : step args s a = some s') : Inv s' := by
  cases a with
  | tick d =>
    cases h
    exact ⟨fun r => localOk_mono (Nat.le_add_right _ _) (hi.locals r), hi.owns, hi.posted⟩
  | run r m =>
    simp only [step, Option.map_eq_some_iff] at h
    obtain ⟨⟨obj', pc'⟩, hadv, rfl⟩ := h
    obtain ⟨hl, he⟩ := advance_spec (hi.locals r) (hi.posted r) hadv
    have hlocals : ∀ r', LocalOk r' s.clock (Function.update s.pc r pc' r') := by
      intro r'
      by_cases hr : r' = r
      · subst hr; rwa [Function.update_self]
      · rw [Function.update_of_ne hr]; exact hi.locals r'
    refine ⟨hlocals, fun r' hh => ?_, fun r' ho => ?_⟩
    · -- who holds after the move
      by_cases hr : r' = r
      · subst hr
        simp only [Function.update_self] at hh
        cases he with
        | kept hk _ => exact hk hh
        | wrote hlr _ _ => simp [hlr]
        | dropped hf _ => rw [hf] at hh; cases hh
      · simp only [Function.update_of_ne hr] at hh
        have hown := hi.owns r' hh
        cases he with
        | kept _ _ => exact hown
        | wrote hlr ho _ =>
          rcases ho with ho | ho
          · rw [ho] at hown; cases hown
          · exact absurd (Option.some.inj (hown.symm.trans (hi.owns r ho))) hr
        | dropped _ ho =>
          rcases ho with ho | ⟨e, ho⟩
          · exact absurd (Option.some.inj (hown.symm.trans (hi.owns r ho))) hr
          · have hm : m = .proceed := by cases m <;> first | rfl | (rw [ho] at hadv; cases hadv)
            subst hm
            rw [no_holder_of_deleteSettled hi hu ho hd r'] at hh
            cases hh
    · -- who posted the intent that stands after the move
      by_cases hr : r' = r
      · subst hr
        simp only [Function.update_self]
        cases he with
        | kept _ hp => exact hp ho
        | wrote _ _ hp => exact hp
        | dropped _ _ => cases ho
      · simp only [Function.update_of_ne hr]
        cases he with
        | kept _ _ => exact hi.posted r' ho
        | wrote hlr _ _ => exact absurd ((Option.some.inj ho).symm.trans hlr) hr
        | dropped _ _ => cases ho

/-- In every interleaving in which no held lease expires and no claim's DELETE finds
the register changed since its re-check, at most one run holds the lease. -/
theorem exclusive_of_deleteSettled (args : Run → Args) (clock : Nat) {s : State Run}
    (h : Reach (step args) (fun s a => heldUnexpired s = true ∧ deleteSettled s a = true)
      (init clock) s) : Exclusive s :=
  exclusive_of_inv (h.invariant (inv_init clock) fun hi hc hs => inv_step hi hc.1 hc.2 hs)

section Schedules

/-- Every run sweeps the whole store under the default TTL. -/
def defaultArgs : Nat → Args := fun _ => ⟨none, defaultTtlS⟩

/-- Run 1 expires nothing: it finds run 0's intent on its conditional create and none
on its two GETs, run 0 having released in between. Run 2 is admitted before run 1's
DELETE, which removes its intent. -/
def absentClaim : List (Act Nat) :=
  [.run 0 .begin, .run 0 .proceed,
   .run 1 .begin, .run 1 .proceed,
   .run 0 .release, .run 0 .proceed,
   .run 1 .proceed, .run 1 .proceed, .run 1 .proceed,
   .run 2 .begin, .run 2 .proceed,
   .run 1 .proceed, .run 1 .proceed, .run 1 .proceed]

theorem absentClaim_ends : ∃ s, exec (step defaultArgs) (init 0) absentClaim = some s ∧
    (s.pc 1).holds = true ∧ (s.pc 2).holds = true :=
  ⟨_, rfl, rfl, rfl⟩

/-- Exclusion fails in a schedule of three runs in which no held lease ever expires. -/
theorem not_exclusive_of_absent_claim :
    ¬ ∀ (args : Nat → Args) (clock : Nat) (as : List (Act Nat)) (s : State Nat),
      Along (step args) (fun s _ => heldUnexpired s) (init clock) as = true →
      exec (step args) (init clock) as = some s → Exclusive s := by
  intro h
  obtain ⟨s, he, h1, h2⟩ := absentClaim_ends
  have hx := h defaultArgs 0 absentClaim s (by decide) he
  exact absurd (hx 1 2 h1 h2) (by decide)

/-- Run 1 finds run 0's intent on its conditional create and, run 0 having released, none on its
two GETs: it deletes nothing, creates its claim and verifies it. Run 2 is then refused. -/
def claimAfterRelease : List (Act Nat) :=
  [.run 0 .begin, .run 0 .proceed, .run 0 .beat, .run 0 .proceed,
   .run 1 .begin, .run 1 .proceed,
   .run 0 .release, .run 0 .proceed,
   .run 1 .proceed, .run 1 .proceed, .run 1 .proceed, .run 1 .proceed, .run 1 .proceed, .run 1 .proceed,
   .run 2 .begin, .run 2 .proceed, .run 2 .proceed, .run 2 .proceed]

theorem exclusive_after_claim :
    ∃ s, exec (step defaultArgs) (init 0) claimAfterRelease = some s ∧ (s.pc 1).holds = true ∧
      s.pc 2 = .refused (some 1) ∧ Exclusive s := by
  refine ⟨_, rfl, rfl, rfl, exclusive_of_deleteSettled defaultArgs 0 ?_⟩
  have ha : Along (step defaultArgs) (fun s a => heldUnexpired s && deleteSettled s a)
      (init 0) claimAfterRelease = true := by decide
  simpa only [Bool.and_eq_true] using Reach.of_exec ha rfl

end Schedules

end Zagg.Sweep.Lease
