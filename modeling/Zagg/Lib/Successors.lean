import Mathlib.Data.List.Basic
import Mathlib.Order.Nat

/-!
# Walking by successors

Elements are ranked by natural numbers, and each but the greatest has a next one. Walking from
one element to a later one meets all of those between, each once and in order.
-/
namespace Zagg.Lib

variable {α : Type} {P : α → Prop} {rank : α → Nat} {next : α → Option α}

/-- `next` finds the least element above, if there is any. -/
structure Succeeds (P : α → Prop) (rank : α → Nat) (next : α → Option α) : Prop where
  inj : ∀ a b, P a → P b → rank a = rank b → a = b
  step : ∀ a b, P a → next a = some b →
    P b ∧ rank a < rank b ∧ ∀ d, P d → rank a < rank d → rank b ≤ rank d
  top : ∀ a, P a → next a = none → ∀ d, P d → rank d ≤ rank a

/-- The elements met from the first to the last. -/
inductive Walk (next : α → Option α) : α → α → List α → Prop
  | stop (a : α) : Walk next a a [a]
  | step {a b e : α} {l : List α} (hne : a ≠ e) (hnext : next a = some b) (h : Walk next b e l) :
    Walk next a e (a :: l)

theorem exists_walk_of_rank (h : Succeeds P rank next) {e : α} (he : P e) (n : Nat) :
    ∀ {a : α}, P a → rank a + n = rank e →
      ∃ l, Walk next a e l ∧ l.Pairwise (fun x y => rank x < rank y) ∧
        ∀ d, d ∈ l ↔ P d ∧ rank a ≤ rank d ∧ rank d ≤ rank e := by
  induction n using Nat.strongRecOn with
  | ind n ih =>
    intro a ha hn
    by_cases hae : a = e
    · subst hae
      refine ⟨[a], .stop a, List.pairwise_singleton .., fun d => ?_⟩
      rw [List.mem_singleton]
      constructor
      · intro hd
        subst hd
        exact ⟨ha, le_rfl, le_rfl⟩
      · intro ⟨hd, hle, hge⟩
        exact h.inj d a hd ha (le_antisymm hge hle)
    · have hlt : rank a < rank e := by
        refine Nat.lt_of_le_of_ne (by omega) fun heq => hae (h.inj a e ha he heq)
      cases hnext : next a with
      | none => exact absurd (h.top a ha hnext e he) (Nat.not_le.mpr hlt)
      | some b =>
        obtain ⟨hb, hab, hleast⟩ := h.step a b ha hnext
        have hbe := hleast e he hlt
        obtain ⟨l, hwalk, hsorted, hmem⟩ := ih (rank e - rank b) (by omega) hb (by omega)
        refine ⟨a :: l, .step hae hnext hwalk, List.pairwise_cons.mpr ⟨fun d hd => ?_, hsorted⟩,
          fun d => ?_⟩
        · exact hab.trans_le ((hmem d).mp hd).2.1
        · rw [List.mem_cons, hmem]
          constructor
          · intro hd
            cases hd with
            | inl hd =>
              subst hd
              exact ⟨ha, le_rfl, hlt.le⟩
            | inr hd => exact ⟨hd.1, hab.le.trans hd.2.1, hd.2.2⟩
          · intro ⟨hd, hle, hge⟩
            by_cases heq : rank d = rank a
            · exact .inl (h.inj d a hd ha heq)
            · exact .inr ⟨hd, hleast d hd (by omega), hge⟩

/-- A walk to a later element meets exactly those between. -/
theorem exists_walk (h : Succeeds P rank next) {a e : α} (ha : P a) (he : P e)
    (hle : rank a ≤ rank e) :
    ∃ l, Walk next a e l ∧ l.Pairwise (fun x y => rank x < rank y) ∧
      ∀ d, d ∈ l ↔ P d ∧ rank a ≤ rank d ∧ rank d ≤ rank e :=
  exists_walk_of_rank h he (rank e - rank a) ha (by omega)

/-- Of the elements up to `e` from one on that has a property, one has it last. -/
theorem exists_last (h : Succeeds P rank next) {p : α → Prop} (e : α) (n : Nat) :
    ∀ {a : α}, P a → p a → rank a + n = rank e →
      ∃ s, P s ∧ p s ∧ rank a ≤ rank s ∧ rank s ≤ rank e ∧
        ∀ b, next s = some b → rank b ≤ rank e → ¬p b := by
  induction n using Nat.strongRecOn with
  | ind n ih =>
    intro a ha hpa hn
    by_cases hmore : ∃ b, next a = some b ∧ rank b ≤ rank e ∧ p b
    · obtain ⟨b, hnext, hbe, hpb⟩ := hmore
      obtain ⟨hb, hab, -⟩ := h.step a b ha hnext
      obtain ⟨s, hs, hps, hbs, hse, hlast⟩ := ih (rank e - rank b) (by omega) hb hpb (by omega)
      exact ⟨s, hs, hps, hab.le.trans hbs, hse, hlast⟩
    · refine ⟨a, ha, hpa, le_rfl, by omega, fun b hnext hbe hpb => ?_⟩
      exact hmore ⟨b, hnext, hbe, hpb⟩

/-- `floor` finds the greatest element that is not above. -/
structure Floors (P : α → Prop) (rank : α → Nat) (next : α → Option α) (floor : α → α) : Prop where
  mem : ∀ d, P (floor d)
  le : ∀ d, rank (floor d) ≤ rank d
  lt : ∀ d e, next (floor d) = some e → rank d < rank e

/-- What is above an element is at or above the next one. -/
theorem exists_next (h : Succeeds P rank next) {a d : α} (ha : P a) (hd : P d)
    (hlt : rank a < rank d) : ∃ b, next a = some b ∧ rank b ≤ rank d := by
  cases hnext : next a with
  | none => exact absurd (h.top a ha hnext d hd) (Nat.not_le.mpr hlt)
  | some b => exact ⟨b, rfl, (h.step a b ha hnext).2.2 d hd hlt⟩

theorem floor_mono {floor : α → α} (h : Succeeds P rank next) (hf : Floors P rank next floor)
    {d e : α} (hle : rank d ≤ rank e) : rank (floor d) ≤ rank (floor e) := by
  by_contra hgt
  obtain ⟨b, hnext, hb⟩ := exists_next h (hf.mem e) (hf.mem d) (Nat.lt_of_not_le hgt)
  have hlt := hf.lt e b hnext
  have hfd := hf.le d
  omega

theorem floor_eq_iff {floor : α → α} (h : Succeeds P rank next) (hf : Floors P rank next floor)
    {s d : α} (hs : P s) :
    floor d = s ↔ rank s ≤ rank d ∧ ∀ e, next s = some e → rank d < rank e := by
  constructor
  · intro hfloor
    subst hfloor
    exact ⟨hf.le d, hf.lt d⟩
  · intro ⟨hle, hlt⟩
    apply h.inj _ _ (hf.mem d) hs
    have hfd := hf.le d
    refine le_antisymm (Nat.le_of_not_lt fun habove => ?_) (Nat.le_of_not_lt fun hbelow => ?_)
    · obtain ⟨b, hnext, hb⟩ := exists_next h hs (hf.mem d) habove
      have hdb := hlt b hnext
      omega
    · obtain ⟨b, hnext, hb⟩ := exists_next h (hf.mem d) hs hbelow
      have hdb := hf.lt d b hnext
      omega

end Zagg.Lib
