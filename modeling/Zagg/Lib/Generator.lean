import Mathlib.Data.List.Basic
import Mathlib.Data.List.Forall2

/-!
# Generators that may raise

A generator is the list of its events, each a yielded value or an error; it ends at the
first error. `Pruned p` relates a generator to one that leaves events out: it skips no
value of `p` and yields no other, and it may skip errors. Without an error the pruned
generator yields the values of `p`.
-/
namespace Zagg.Lib

universe u v

variable {ε : Type u} {α : Type v}

/-- What a generator yielded, and the error it ended with. -/
structure Ended (ε : Type u) (α : Type v) where
  yields : List α
  raised : Option ε
deriving DecidableEq

def generate : List (Except ε α) → Ended ε α
  | [] => ⟨[], none⟩
  | .error e :: _ => ⟨[], some e⟩
  | .ok a :: es => ⟨a :: (generate es).yields, (generate es).raised⟩

theorem mem_of_mem_generate {es : List (Except ε α)} {a : α} (h : a ∈ (generate es).yields) :
    .ok a ∈ es := by
  induction es with
  | nil => cases h
  | cons e es ih =>
    cases e with
    | error e => cases h
    | ok b =>
      rcases List.mem_cons.mp h with rfl | h
      · exact .head _
      · exact .tail _ (ih h)

/-- `es'` is `es` without the values outside `p` and without some of the errors. -/
inductive Pruned (p : α → Bool) : List (Except ε α) → List (Except ε α) → Prop
  | nil : Pruned p [] []
  | keep {a es es'} : p a = true → Pruned p es es' → Pruned p (.ok a :: es) (.ok a :: es')
  | drop {a es es'} : p a = false → Pruned p es es' → Pruned p (.ok a :: es) es'
  | raise {e es es'} : Pruned p es es' → Pruned p (.error e :: es) (.error e :: es')
  | skip {e es es'} : Pruned p es es' → Pruned p (.error e :: es) es'

variable {p : α → Bool} {es es' fs fs' : List (Except ε α)}

theorem Pruned.append (h : Pruned p es es') (h' : Pruned p fs fs') :
    Pruned p (es ++ fs) (es' ++ fs') := by
  induction h with
  | nil => exact h'
  | keep ha _ ih => exact .keep ha ih
  | drop ha _ ih => exact .drop ha ih
  | raise _ ih => exact .raise ih
  | skip _ ih => exact .skip ih

theorem Pruned.flatMap {β : Type*} {f f' : β → List (Except ε α)} {l : List β}
    (h : ∀ b ∈ l, Pruned p (f b) (f' b)) : Pruned p (l.flatMap f) (l.flatMap f') := by
  induction l with
  | nil => exact .nil
  | cons b l ih =>
    rw [List.flatMap_cons, List.flatMap_cons]
    exact (h b (.head _)).append (ih fun c hc => h c (.tail _ hc))

/-- Nothing is left of events that `p` does not want. -/
theorem Pruned.nothing (h : ∀ a, .ok a ∈ es → p a = false) : Pruned p es [] := by
  induction es with
  | nil => exact .nil
  | cons e es ih =>
    have htail := ih fun a ha => h a (.tail _ ha)
    cases e with
    | error e => exact .skip htail
    | ok a => exact .drop (h a (.head _)) htail

/-- Of the parts of a generator some are pruned and the others left out. -/
theorem Pruned.flatMap_filter {β : Type*} {f f' : β → List (Except ε α)} {q : β → Bool}
    {l : List β} (hin : ∀ b ∈ l, q b = true → Pruned p (f b) (f' b))
    (hout : ∀ b ∈ l, q b = false → Pruned p (f b) []) :
    Pruned p (l.flatMap f) ((l.filter q).flatMap f') := by
  induction l with
  | nil => exact .nil
  | cons b l ih =>
    have htail := ih (fun c hc => hin c (.tail _ hc)) fun c hc => hout c (.tail _ hc)
    rw [List.flatMap_cons]
    cases hb : q b with
    | true =>
      rw [List.filter_cons_of_pos hb, List.flatMap_cons]
      exact (hin b (.head _) hb).append htail
    | false =>
      rw [List.filter_cons_of_neg (Bool.eq_false_iff.mp hb)]
      exact (hout b (.head _) hb).append htail

/-- Pruning item by item. -/
theorem Pruned.filterMap {β : Type*} {f f' : β → Option (Except ε α)} {l : List β}
    (h : ∀ b ∈ l, Pruned p (f b).toList (f' b).toList) :
    Pruned p (l.filterMap f) (l.filterMap f') := by
  have hflat : ∀ f : β → Option (Except ε α), l.filterMap f = l.flatMap fun b => (f b).toList :=
    fun f => List.filterMap_eq_flatMap_toList f l
  rw [hflat, hflat]
  exact .flatMap h

/-- The values a generator yields before it raises reach the pruned one. -/
theorem Pruned.initial (h : Pruned p es es') :
    (generate es).yields.filter p <+: (generate es').yields := by
  induction h with
  | nil => exact List.prefix_rfl
  | keep ha _ ih =>
    simp only [generate, List.filter_cons_of_pos ha]
    exact (List.prefix_cons_inj _).mpr ih
  | drop ha _ ih =>
    simp only [generate, List.filter_cons_of_neg (Bool.eq_false_iff.mp ha)]
    exact ih
  | raise _ _ => exact List.nil_prefix
  | skip _ _ => exact List.nil_prefix

/-- A generator that ends without an error, pruned. -/
theorem Pruned.ended (h : Pruned p es es') (hok : (generate es).raised = none) :
    generate es' = ⟨(generate es).yields.filter p, none⟩ := by
  induction h with
  | nil => rfl
  | keep ha _ ih =>
    simp only [generate] at hok ⊢
    rw [ih hok, List.filter_cons_of_pos ha]
  | drop ha _ ih =>
    simp only [generate] at hok ⊢
    rw [ih hok, List.filter_cons_of_neg (Bool.eq_false_iff.mp ha)]
  | raise _ _ => cases hok
  | skip _ _ => cases hok

/-- A generator whose events are all yielded. -/
theorem generate_yields {β : Type*} {R : β → Except ε α → Prop} {S : β → α → Prop} {l : List β}
    {es : List (Except ε α)} (h : List.Forall₂ R l es) (hok : ∀ b ∈ l, ∀ e, R b e → ∃ a, e = .ok a ∧ S b a) :
    (generate es).raised = none ∧ List.Forall₂ S l (generate es).yields := by
  induction h with
  | nil => exact ⟨rfl, .nil⟩
  | cons hba _ ih =>
    obtain ⟨a, rfl, hs⟩ := hok _ (.head _) _ hba
    obtain ⟨hraised, hyields⟩ := ih fun b hb => hok b (.tail _ hb)
    exact ⟨hraised, .cons hs hyields⟩

end Zagg.Lib
