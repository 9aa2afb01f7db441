import Mathlib.Logic.Basic
import Mathlib.Order.Nat

/-!
# Runs of a labelled step function

A system is a partial step function: `none` says the label is not enabled in the
state. `Reach` collects the states a run reaches when every step it takes meets a
side condition on the state before the step; `exec` and `Along` are the same run
as a computation, so that a concrete schedule can be evaluated.
-/
namespace Zagg.Lib

universe u v

variable {σ : Type u} {α : Type v}

/-- States reached from `s₀` along enabled steps that each meet `C`. -/
inductive Reach (step : σ → α → Option σ) (C : σ → α → Prop) (s₀ : σ) : σ → Prop
  | start : Reach step C s₀ s₀
  | next {s s' : σ} {a : α} :
      Reach step C s₀ s → C s a → step s a = some s' → Reach step C s₀ s'

variable {step : σ → α → Option σ} {C D : σ → α → Prop} {s₀ s : σ}

/-- What holds at the start and is preserved by every step holds of the whole run. -/
theorem Reach.invariant {Inv : σ → Prop} (h : Reach step C s₀ s) (h₀ : Inv s₀)
    (hs : ∀ {s s' : σ} {a : α}, Inv s → C s a → step s a = some s' → Inv s') : Inv s := by
  induction h with
  | start => exact h₀
  | next _ hc he ih => exact hs ih hc he

theorem Reach.trans {t : σ} (h : Reach step C s₀ s) (h' : Reach step C s t) :
    Reach step C s₀ t := by
  induction h' with
  | start => exact h
  | next _ hc he ih => exact .next ih hc he

theorem Reach.mono (h : Reach step C s₀ s) (hCD : ∀ s a, C s a → D s a) :
    Reach step D s₀ s := by
  induction h with
  | start => exact .start
  | next _ hc he ih => exact .next ih (hCD _ _ hc) he

/-- The state a schedule of labels ends in, if every label is enabled in turn. -/
def exec (step : σ → α → Option σ) : σ → List α → Option σ
  | s, [] => some s
  | s, a :: as =>
    match step s a with
    | some s' => exec step s' as
    | none => none

/-- Every step of the schedule meets the condition in the state it is taken from. -/
def Along (step : σ → α → Option σ) (C : σ → α → Bool) : σ → List α → Bool
  | _, [] => true
  | s, a :: as =>
    C s a && match step s a with
      | some s' => Along step C s' as
      | none => true

/-- A schedule whose labels meet the condition in every state. -/
theorem Reach.of_exec_forall {as : List α} (hC : ∀ a ∈ as, ∀ s, C s a) :
    ∀ {s t : σ}, exec step s as = some t → Reach step C s t := by
  induction as with
  | nil =>
    intro s t he
    obtain rfl := Option.some.inj he
    exact .start
  | cons a as ih =>
    intro s t he
    simp only [exec] at he
    cases hs : step s a with
    | none => rw [hs] at he; cases he
    | some s' =>
      rw [hs] at he
      have h1 : Reach step C s s' := .next .start (hC a (.head _) s) hs
      exact h1.trans (ih (fun b hb => hC b (.tail _ hb)) he)

theorem Reach.of_exec {B : σ → α → Bool} {as : List α} :
    ∀ {s t : σ}, Along step B s as = true → exec step s as = some t →
      Reach step (fun s a => B s a = true) s t := by
  induction as with
  | nil =>
    intro s t _ he
    obtain rfl := Option.some.inj he
    exact .start
  | cons a as ih =>
    intro s t ha he
    simp only [Along, Bool.and_eq_true] at ha
    simp only [exec] at he
    cases hs : step s a with
    | none => rw [hs] at he; cases he
    | some s' =>
      rw [hs] at ha he
      have h1 : Reach step (fun s a => B s a = true) s s' := .next .start ha.1 hs
      exact h1.trans (ih ha.2 he)

/-- A run whose steps keep an invariant and lower a measure keeps it, and is no longer than the
measure it spends. -/
theorem exec_bounded {Inv : σ → Prop} (left : σ → Nat)
    (hs : ∀ {s s' : σ} {a : α}, Inv s → step s a = some s' → Inv s' ∧ left s' < left s) :
    ∀ {as : List α} {s t : σ}, Inv s → exec step s as = some t →
      Inv t ∧ as.length + left t ≤ left s := by
  intro as
  induction as with
  | nil =>
    intro s t h he
    obtain rfl := Option.some.inj he
    exact ⟨h, (Nat.zero_add _).le⟩
  | cons a as ih =>
    intro s t h he
    simp only [exec] at he
    cases hstep : step s a with
    | none => rw [hstep] at he; cases he
    | some s' =>
      rw [hstep] at he
      obtain ⟨h', hlt⟩ := hs h hstep
      obtain ⟨ht, hle⟩ := ih h' he
      refine ⟨ht, ?_⟩
      rw [List.length_cons]
      omega

end Zagg.Lib
