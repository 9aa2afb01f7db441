import Mathlib.Data.List.Forall2
import Mathlib.Tactic.Common

/-!
# Lists related entry by entry

A batch call answers every entry of its list on its own: its result is related to the list
by `List.Forall₂`, and so are the composition of two such calls and a loop whose steps may
fail.
-/
namespace Zagg.Lib

variable {α β γ ε : Type} {R : α → β → Prop}

theorem forall₂_comp {S : β → γ → Prop} {T : α → γ → Prop} (h : ∀ a b c, R a b → S b c → T a c)
    {l : List α} {l' : List β} {l'' : List γ} (hr : List.Forall₂ R l l')
    (hs : List.Forall₂ S l' l'') : List.Forall₂ T l l'' := by
  induction hr generalizing l'' with
  | nil => cases hs; exact .nil
  | cons ha _ ih =>
    cases hs with
    | cons hb hs => exact .cons (h _ _ _ ha hb) (ih hs)

theorem forall₂_exists_of_mem_right {α β : Type*} {R : α → β → Prop} {l : List α} {l' : List β}
    (h : List.Forall₂ R l l') {b : β} (hb : b ∈ l') : ∃ a ∈ l, R a b := by
  induction h with
  | nil => cases hb
  | cons hab _ ih =>
    rcases List.mem_cons.mp hb with rfl | hb
    · exact ⟨_, .head _, hab⟩
    · obtain ⟨a, ha, hr⟩ := ih hb
      exact ⟨a, .tail _ ha, hr⟩

/-- A list related to a concatenation is a concatenation, part by part. -/
theorem forall₂_flatten {parts : List (List α)} {l : List β}
    (h : List.Forall₂ R parts.flatten l) :
    ∃ ls : List (List β), ls.flatten = l ∧ List.Forall₂ (List.Forall₂ R) parts ls := by
  induction parts generalizing l with
  | nil =>
    cases h
    exact ⟨[], rfl, .nil⟩
  | cons part parts ih =>
    rw [List.flatten_cons] at h
    have hflip := h.flip
    have hpart := List.forall₂_take_append _ _ _ hflip
    obtain ⟨ls, hls, hrel⟩ := ih (List.forall₂_drop_append _ _ _ hflip).flip
    refine ⟨l.take part.length :: ls, ?_, .cons hpart.flip hrel⟩
    rw [List.flatten_cons, hls, List.take_append_drop]

/-- Nonempty parts are no more than what they hold. -/
theorem length_le_length_flatten {parts : List (List α)} (h : ∀ part ∈ parts, part ≠ []) :
    parts.length ≤ parts.flatten.length := by
  induction parts with
  | nil => exact Nat.le_refl 0
  | cons part parts ih =>
    have hpos := List.length_pos_of_ne_nil (h part (.head _))
    have hrest := ih fun part hpart => h part (.tail _ hpart)
    rw [List.length_cons, List.flatten_cons, List.length_append]
    omega

theorem exists_bind_ok {x : Except ε α} {f : α → Except ε β} :
    (∃ r, x >>= f = .ok r) ↔ ∃ a, x = .ok a ∧ ∃ r, f a = .ok r := by
  cases x with
  | error e => exact iff_of_false (fun ⟨_, h⟩ => nomatch h) fun ⟨_, h, _⟩ => nomatch h
  | ok a => exact ⟨fun h => ⟨a, rfl, h⟩, fun ⟨_, ha, h⟩ => Except.ok.inj ha ▸ h⟩

theorem mapM_ok {f : α → Except ε β} {g : α → β} {l : List α}
    (h : ∀ a ∈ l, f a = .ok (g a)) : l.mapM f = .ok (l.map g) := by
  induction l with
  | nil => rfl
  | cons a l ih =>
    rw [List.mapM_cons, h a List.mem_cons_self, ih fun b hb => h b (List.mem_cons_of_mem _ hb)]
    rfl

theorem mapM_congr {f f' : α → Except ε β} {l : List α} (h : ∀ a ∈ l, f a = f' a) :
    l.mapM f = l.mapM f' := by
  induction l with
  | nil => rfl
  | cons a l ih => rw [List.mapM_cons, List.mapM_cons, h a (.head _), ih fun b hb => h b (.tail _ hb)]

theorem anyM_map_ok {p : β → Except ε Bool} {f : α → β} {q : α → Bool} {l : List α}
    (h : ∀ a ∈ l, p (f a) = .ok (q a)) : (l.map f).anyM p = .ok (l.any q) := by
  induction l with
  | nil => rfl
  | cons a l ih =>
    have hl := ih fun b hb => h b (List.mem_cons_of_mem _ hb)
    rw [List.map_cons, List.anyM, h a List.mem_cons_self, List.any_cons]
    cases q a with
    | true => rfl
    | false => exact hl

theorem forall₂_mapM {f : α → Except ε β} {l : List α} {rs : List β} (h : l.mapM f = .ok rs) :
    List.Forall₂ (fun a r => f a = .ok r) l rs := by
  induction l generalizing rs with
  | nil => cases h; exact .nil
  | cons a l ih =>
    rw [List.mapM_cons] at h
    cases ha : f a with
    | error e => rw [ha] at h; cases h
    | ok r =>
      cases hl : l.mapM f with
      | error e => rw [ha, hl] at h; cases h
      | ok rs' =>
        rw [ha, hl] at h
        cases h
        exact .cons ha (ih hl)

theorem ok_of_mapM {f : α → Except ε β} {l : List α} {rs : List β} (h : l.mapM f = .ok rs) {a : α}
    (ha : a ∈ l) : ∃ r ∈ rs, f a = .ok r := by
  have hrel := forall₂_mapM h
  clear h
  induction hrel with
  | nil => cases ha
  | cons hr _ ih =>
    rcases List.mem_cons.mp ha with rfl | ha
    · exact ⟨_, .head _, hr⟩
    · obtain ⟨r, hmem, hr⟩ := ih ha
      exact ⟨r, .tail _ hmem, hr⟩

theorem bind_ok {x : Except ε β} {f : β → Except ε γ} {r : γ} (h : x.bind f = .ok r) :
    ∃ a, x = .ok a ∧ f a = .ok r := by
  cases x with
  | error e => cases h
  | ok a => exact ⟨a, rfl, h⟩

/-- What every step of a fallible loop keeps holds at its end. -/
theorem foldlM_inv {f : β → α → Except ε β} (I : β → Prop) {l : List α}
    (step : ∀ a ∈ l, ∀ b b', I b → f b a = .ok b' → I b') {b r : β} (hb : I b)
    (h : l.foldlM f b = .ok r) : I r := by
  induction l generalizing b with
  | nil => cases h; exact hb
  | cons a l ih =>
    rw [List.foldlM_cons] at h
    obtain ⟨b', hstep, hrest⟩ := bind_ok h
    exact ih (fun a' ha' => step a' (.tail _ ha')) (step a (.head _) b b' hb hstep) hrest

theorem mapM_error {f : α → Except ε β} {l : List α} {err : ε}
    (h : l.mapM f = .error err) : ∃ a ∈ l, f a = .error err := by
  induction l with
  | nil => cases h
  | cons a l ih =>
    rw [List.mapM_cons] at h
    cases hf : f a with
    | error e =>
      rw [hf] at h
      cases h
      exact ⟨a, .head _, hf⟩
    | ok b =>
      rw [hf] at h
      cases hl : l.mapM f with
      | error e =>
        rw [hl] at h
        cases h
        obtain ⟨a', ha', he⟩ := ih hl
        exact ⟨a', .tail _ ha', he⟩
      | ok bs =>
        rw [hl] at h
        cases h

/-- A fallible loop stops at its first fault. -/
theorem mapM_error_iff {f : α → Except ε β} {l : List α} {err : ε} : l.mapM f = .error err ↔
    ∃ before a after, l = before ++ a :: after ∧ (∀ b ∈ before, ∃ r, f b = .ok r) ∧ f a = .error err := by
  induction l with
  | nil => exact iff_of_false nofun fun ⟨_, _, _, h, _⟩ => absurd h (by simp)
  | cons a l ih =>
    rw [List.mapM_cons]
    cases hf : f a with
    | error e =>
      constructor
      · intro h
        cases h
        exact ⟨[], a, l, rfl, nofun, hf⟩
      · rintro ⟨before, b, after, hl, hbefore, hb⟩
        cases before with
        | nil =>
          obtain ⟨rfl, -⟩ := List.cons.inj hl
          rw [hf] at hb
          cases hb
          rfl
        | cons x before =>
          obtain ⟨rfl, -⟩ := List.cons.inj hl
          obtain ⟨r, hr⟩ := hbefore a (.head _)
          rw [hf] at hr
          cases hr
    | ok b =>
      have htail : (Except.ok b >>= fun b => l.mapM f >>= fun bs => pure (b :: bs)) = .error err ↔
          l.mapM f = .error err := by
        cases l.mapM f <;> simp [bind, Except.bind, pure, Except.pure]
      rw [htail, ih]
      constructor
      · rintro ⟨before, x, after, rfl, hbefore, hx⟩
        exact ⟨a :: before, x, after, rfl, List.forall_mem_cons.mpr ⟨⟨b, hf⟩, hbefore⟩, hx⟩
      · rintro ⟨before, x, after, hl, hbefore, hx⟩
        cases before with
        | nil =>
          obtain ⟨rfl, -⟩ := List.cons.inj hl
          rw [hf] at hx
          cases hx
        | cons y before =>
          obtain ⟨rfl, rfl⟩ := List.cons.inj hl
          exact ⟨before, x, after, rfl, fun z hz => hbefore z (.tail _ hz), hx⟩

/-- A loop of checks passes when every check does. -/
theorem forM_ok_iff {f : α → Except ε Unit} {l : List α} :
    l.forM f = .ok () ↔ ∀ a ∈ l, f a = .ok () := by
  induction l with
  | nil => exact iff_of_true rfl nofun
  | cons a l ih =>
    show (f a >>= fun _ => l.forM f) = .ok () ↔ _
    rw [List.forall_mem_cons, ← ih]
    cases hf : f a with
    | error e => exact iff_of_false nofun fun h => nomatch h.1
    | ok u => exact (and_iff_right rfl).symm

theorem forM_error {f : α → Except ε Unit} {l : List α} {err : ε} (h : l.forM f = .error err) :
    ∃ a ∈ l, f a = .error err := by
  induction l with
  | nil => cases h
  | cons a l ih =>
    have h : (f a >>= fun _ => l.forM f) = .error err := h
    cases hf : f a with
    | error e =>
      rw [hf] at h
      cases h
      exact ⟨a, .head _, hf⟩
    | ok u =>
      rw [hf] at h
      obtain ⟨b, hb, he⟩ := ih h
      exact ⟨b, .tail _ hb, he⟩

theorem exists_mapM {f : α → Except ε β} {l : List α} (h : ∀ a ∈ l, ∃ r, f a = .ok r) :
    ∃ rs, l.mapM f = .ok rs := by
  induction l with
  | nil => exact ⟨[], rfl⟩
  | cons a l ih =>
    obtain ⟨r, hr⟩ := h a (.head _)
    obtain ⟨rs, hrs⟩ := ih fun b hb => h b (.tail _ hb)
    refine ⟨r :: rs, ?_⟩
    rw [List.mapM_cons, hr, hrs]
    rfl

section Partial

theorem mapM_some {f : α → Option β} {g : α → β} {l : List α}
    (h : ∀ x ∈ l, f x = some (g x)) : l.mapM f = some (l.map g) := by
  induction l with
  | nil => rfl
  | cons x l ih =>
    rw [List.mapM_cons, h x (.head _), ih fun y hy => h y (.tail _ hy)]
    rfl

theorem mapM_option_congr {f f' : α → Option β} {l : List α}
    (h : ∀ x ∈ l, f x = f' x) : l.mapM f = l.mapM f' := by
  induction l with
  | nil => rfl
  | cons x l ih => rw [List.mapM_cons, List.mapM_cons, h x (.head _), ih fun y hy => h y (.tail _ hy)]

theorem forall₂_of_mapM_some {f : α → Option β} {l : List α} {rs : List β}
    (h : l.mapM f = some rs) : List.Forall₂ (fun x r => f x = some r) l rs := by
  induction l generalizing rs with
  | nil => cases h; exact .nil
  | cons x l ih =>
    rw [List.mapM_cons] at h
    obtain ⟨r, hr, h⟩ := Option.bind_eq_some_iff.mp h
    obtain ⟨rs', hrs, h⟩ := Option.bind_eq_some_iff.mp h
    cases h
    exact .cons hr (ih hrs)

theorem exists_none_of_mapM {f : α → Option β} {l : List α} (h : l.mapM f = none) :
    ∃ a ∈ l, f a = none := by
  induction l with
  | nil => cases h
  | cons a l ih =>
    rw [List.mapM_cons] at h
    cases ha : f a with
    | none => exact ⟨a, .head _, ha⟩
    | some r =>
      cases hl : l.mapM f with
      | none =>
        obtain ⟨x, hx, hnone⟩ := ih hl
        exact ⟨x, .tail _ hx, hnone⟩
      | some rs =>
        rw [ha, hl] at h
        cases h

end Partial

end Zagg.Lib
