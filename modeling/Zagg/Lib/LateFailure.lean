import Mathlib.Tactic.Common

/-!
# Runs that fail late

Two runs take the same steps, and the second may notice a failure only later. `Follows` says
that where the first one returns, the second returns the same in a related state, and that
where the first one fails, the second has failed too or is in a doomed state.
-/
namespace Zagg.Lib

universe u

variable {σ τ α β : Type u}

/-- `[f(x) for x in xs]` with a state. -/
def runEach (f : α → σ → Option (β × σ)) : List α → σ → Option (List β × σ)
  | [], s => some ([], s)
  | x :: xs, s => do
    let r ← f x s
    let rs ← runEach f xs r.2
    return (r.1 :: rs.1, rs.2)

/-- What each step keeps, the whole loop keeps. -/
theorem runEach_keeps {f : α → σ → Option (β × σ)} {P : σ → Prop} {xs : List α}
    (step : ∀ x ∈ xs, ∀ s r, P s → f x s = some r → P r.2) {s : σ} (hs : P s)
    {r : List β × σ} (h : runEach f xs s = some r) : P r.2 := by
  induction xs generalizing s r with
  | nil => cases h; exact hs
  | cons x xs ih =>
    obtain ⟨y, hy, h⟩ := Option.bind_eq_some_iff.mp h
    obtain ⟨ys, hys, h⟩ := Option.bind_eq_some_iff.mp h
    cases h
    have hrest := ih (fun x hx => step x (.tail _ hx)) (step x (.head _) s y hs hy) hys
    exact hrest

def Follows (R : σ → τ → Prop) (D : τ → Prop) (x : Option (α × σ)) (y : Option (α × τ)) : Prop :=
  (∃ a s t, x = some (a, s) ∧ y = some (a, t) ∧ R s t) ∨ (x = none ∧ ∀ r, y = some r → D r.2)

section
variable {R : σ → τ → Prop} {D : τ → Prop}

theorem Follows.some {a : α} {s : σ} {t : τ} (h : R s t) :
    Follows R D (some (a, s)) (some (a, t)) := .inl ⟨a, s, t, rfl, rfl, h⟩

theorem Follows.bind {x : Option (α × σ)} {y : Option (α × τ)} {f : α × σ → Option (β × σ)}
    {g : α × τ → Option (β × τ)} (h : Follows R D x y)
    (hstep : ∀ a s t, R s t → Follows R D (f (a, s)) (g (a, t)))
    (hdoomed : ∀ r, D r.2 → ∀ r', g r = Option.some r' → D r'.2) :
    Follows R D (x.bind f) (y.bind g) := by
  rcases h with ⟨a, s, t, rfl, rfl, h⟩ | ⟨rfl, hy⟩
  · exact hstep a s t h
  · refine .inr ⟨rfl, fun r hr => ?_⟩
    obtain ⟨r', hr', hr⟩ := Option.bind_eq_some_iff.mp hr
    exact hdoomed r' (hy r' hr') r hr

theorem Follows.runEach {f : α → σ → Option (β × σ)} {g : α → τ → Option (β × τ)} {xs : List α}
    (hstep : ∀ x ∈ xs, ∀ s t, R s t → Follows R D (f x s) (g x t))
    (hdoomed : ∀ x ∈ xs, ∀ t r, D t → g x t = Option.some r → D r.2) {s : σ} {t : τ} (h : R s t) :
    Follows R D (runEach f xs s) (runEach g xs t) := by
  induction xs generalizing s t with
  | nil => exact .some h
  | cons x xs ih =>
    have hkeep : ∀ x ∈ xs, ∀ t r, D t → g x t = Option.some r → D r.2 :=
      fun x hx => hdoomed x (.tail _ hx)
    refine (hstep x (.head _) s t h).bind (fun a s t h => ?_) fun r hr r' hr' => ?_
    · refine (ih (fun x hx => hstep x (.tail _ hx)) hkeep h).bind (fun as s t h => .some h) ?_
      intro r hr r' hr'
      cases hr'
      exact hr
    · obtain ⟨rs, hrs, hr'⟩ := Option.bind_eq_some_iff.mp hr'
      cases hr'
      have hrest := runEach_keeps hkeep hr hrs
      exact hrest

end

end Zagg.Lib
