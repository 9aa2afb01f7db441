import Mathlib.Data.List.Forall2
import Mathlib.Data.List.Perm.Basic

/-!
# Nested folds

A fold of lists is applied to items and to results of other applications. Where a result stands
for the items it was made of, neither the nesting nor the order of the items matters.
-/
namespace Zagg.Lib

universe u v w

/-- An item, or a call on some of what is nested in it. -/
inductive Nested (α : Type u) where
  | item (a : α)
  | call (first : Nested α) (rest : List (Nested α))

namespace Nested

variable {α : Type u} {ε : Type u}

mutual

def items : Nested α → List α
  | item a => [a]
  | call first rest => items first ++ itemsAll rest

def itemsAll : List (Nested α) → List α
  | [] => []
  | t :: ts => items t ++ itemsAll ts

end

mutual

/-- The result of the calls, the inner ones first. -/
def eval (f : List α → Except ε α) : Nested α → Except ε α
  | item a => .ok a
  | call first rest => do
    let a ← eval f first
    let as ← evalAll f rest
    f (a :: as)

def evalAll (f : List α → Except ε α) : List (Nested α) → Except ε (List α)
  | [] => .ok []
  | t :: ts => do
    let a ← eval f t
    let as ← evalAll f ts
    return a :: as

end

variable {f : List α → Except ε α} {Stands : List α → α → Prop} {Valid : α → Prop}

mutual

/-- The result of nested calls stands for its items. -/
theorem eval_stands (hitem : ∀ a, Valid a → Stands [a] a)
    (hcall : ∀ groups outs, outs ≠ [] → List.Forall₂ Stands groups outs →
      ∃ out, f outs = .ok out ∧ Stands groups.flatten out) :
    ∀ t : Nested α, (∀ a ∈ t.items, Valid a) → ∃ out, t.eval f = .ok out ∧ Stands t.items out
  | item a, h => ⟨a, by rw [eval], hitem a (h a (by rw [items]; exact .head _))⟩
  | call first rest, h => by
    rw [items] at h ⊢
    obtain ⟨hfirst, hrest⟩ := List.forall_mem_append.mp h
    obtain ⟨a, ha, hstands⟩ := eval_stands hitem hcall first hfirst
    obtain ⟨groups, as, has, hitems, hall⟩ := evalAll_stands hitem hcall rest hrest
    obtain ⟨out, hout, hall⟩ := hcall (first.items :: groups) (a :: as) (List.cons_ne_nil a as)
      (.cons hstands hall)
    refine ⟨out, ?_, hitems ▸ hall⟩
    rw [eval, ha, has]
    exact hout

theorem evalAll_stands (hitem : ∀ a, Valid a → Stands [a] a)
    (hcall : ∀ groups outs, outs ≠ [] → List.Forall₂ Stands groups outs →
      ∃ out, f outs = .ok out ∧ Stands groups.flatten out) :
    ∀ ts : List (Nested α), (∀ a ∈ itemsAll ts, Valid a) → ∃ groups as,
      evalAll f ts = .ok as ∧ groups.flatten = itemsAll ts ∧ List.Forall₂ Stands groups as
  | [], _ => ⟨[], [], by rw [evalAll], by rw [itemsAll]; rfl, .nil⟩
  | t :: ts, h => by
    rw [itemsAll] at h ⊢
    obtain ⟨ht, hts⟩ := List.forall_mem_append.mp h
    obtain ⟨a, ha, hstands⟩ := eval_stands hitem hcall t ht
    obtain ⟨groups, as, has, hitems, hall⟩ := evalAll_stands hitem hcall ts hts
    refine ⟨t.items :: groups, a :: as, ?_, ?_, .cons hstands hall⟩
    · rw [evalAll, ha, has]
      rfl
    · rw [List.flatten_cons, hitems]

end

/-- What an outermost call is applied to. -/
theorem eval_call (hitem : ∀ a, Valid a → Stands [a] a)
    (hcall : ∀ groups outs, outs ≠ [] → List.Forall₂ Stands groups outs →
      ∃ out, f outs = .ok out ∧ Stands groups.flatten out)
    (first : Nested α) (rest : List (Nested α)) (h : ∀ a ∈ (call first rest).items, Valid a) :
    ∃ groups outs, outs ≠ [] ∧ List.Forall₂ Stands groups outs ∧
      groups.flatten = (call first rest).items ∧ (call first rest).eval f = f outs := by
  rw [items] at h ⊢
  obtain ⟨hfirst, hrest⟩ := List.forall_mem_append.mp h
  obtain ⟨a, ha, hstands⟩ := eval_stands hitem hcall first hfirst
  obtain ⟨groups, as, has, hitems, hall⟩ := evalAll_stands hitem hcall rest hrest
  refine ⟨first.items :: groups, a :: as, List.cons_ne_nil a as, .cons hstands hall, ?_, ?_⟩
  · rw [List.flatten_cons, hitems]
  · rw [eval, ha, has]
    rfl

end Nested

section Observations
variable {α : Type u} {M : Type v} {op : M → M → M} {unit : M}
  [Std.Associative op] [Std.LawfulIdentity op unit]

theorem foldr_op_append (xs ys : List M) :
    (xs ++ ys).foldr op unit = op (xs.foldr op unit) (ys.foldr op unit) := by
  induction xs with
  | nil => exact (Std.LawfulLeftIdentity.left_id _).symm
  | cons x xs ih =>
    rw [List.cons_append, List.foldr_cons, ih, List.foldr_cons]
    exact (Std.Associative.assoc x _ _).symm

/-- What is observed of results is what is observed of their items. -/
theorem foldr_groups {obs : α → M} {groups : List (List α)} {outs : List α}
    (h : List.Forall₂ (fun group out => obs out = (group.map obs).foldr op unit) groups outs) :
    (outs.map obs).foldr op unit = (groups.flatten.map obs).foldr op unit := by
  induction h with
  | nil => rfl
  | cons hgroup _ ih =>
    rw [List.map_cons, List.foldr_cons, ih, hgroup, List.flatten_cons, List.map_append,
      foldr_op_append]

omit [Std.LawfulIdentity op unit] in
theorem foldr_perm [Std.Commutative op] {obs : α → M} {xs ys : List α} (h : xs.Perm ys) :
    (xs.map obs).foldr op unit = (ys.map obs).foldr op unit := by
  have hassoc : ∀ a b c, op (op a b) c = op a (op b c) := Std.Associative.assoc
  have hcomm : ∀ a b, op a b = op b a := Std.Commutative.comm
  have : LeftCommutative op := ⟨fun a b c => by rw [← hassoc, hcomm a b, hassoc]⟩
  exact (h.map obs).foldr_eq unit

/-- Values that may be missing are folded as the ones there are. -/
theorem foldr_merge_eq {op : M → M → M} [Std.Associative op] (xs : List (Option M)) :
    xs.foldr (Option.merge op) none =
      match xs.filterMap id with
      | [] => none
      | a :: as => some (as.foldl op a) := by
  induction xs with
  | nil => rfl
  | cons x xs ih =>
    rw [List.foldr_cons, ih]
    cases x with
    | none => exact Std.LawfulLeftIdentity.left_id _
    | some a =>
      have hcons : (some a :: xs).filterMap id = a :: xs.filterMap id := List.filterMap_cons_some rfl
      rw [hcons]
      cases xs.filterMap id with
      | nil => rfl
      | cons b bs =>
        show some (op a (bs.foldl op b)) = some (bs.foldl op (op a b))
        rw [List.foldl_assoc]

end Observations

end Zagg.Lib
