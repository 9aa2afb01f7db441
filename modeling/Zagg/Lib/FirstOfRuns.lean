import Mathlib.Data.List.Sort
import Mathlib.Order.Basic
import Mathlib.Tactic.Common

/-!
# The first row of every run

Of rows in the order of a key, those whose key differs from the row before. After a sort by the
key and, among equal keys, by a second order, they are the least rows of each key, so they
depend only on which rows there are.
-/
namespace Zagg.Lib

universe u v

variable {α : Type u} {κ : Type v}

section Runs
variable [DecidableEq κ] (key : α → κ)

/-- The rows whose key differs from that of the row before; `prev` is the key before the first. -/
def firstsFrom : Option κ → List α → List α
  | _, [] => []
  | prev, a :: l =>
    if prev = some (key a) then firstsFrom (some (key a)) l
    else a :: firstsFrom (some (key a)) l

theorem firstsFrom_sublist (prev : Option κ) (l : List α) : (firstsFrom key prev l).Sublist l := by
  induction l generalizing prev with
  | nil => exact .slnil
  | cons a l ih =>
    rw [firstsFrom]
    split_ifs
    · exact (ih _).cons _
    · exact (ih _).cons_cons _

/-- Every key is that of a first row, or the one before. -/
theorem exists_first {l : List α} {a : α} (ha : a ∈ l) (prev : Option κ) :
    prev = some (key a) ∨ ∃ b ∈ firstsFrom key prev l, key b = key a := by
  induction l generalizing prev with
  | nil => cases ha
  | cons a' l ih =>
    rw [firstsFrom]
    cases List.mem_cons.mp ha with
    | inl heq =>
      subst heq
      split_ifs with h
      · exact .inl h
      · exact .inr ⟨a, .head _, rfl⟩
    | inr hmem =>
      have hrest : (firstsFrom key (some (key a')) l).Sublist
          (if prev = some (key a') then firstsFrom key (some (key a')) l
            else a' :: firstsFrom key (some (key a')) l) := by
        split_ifs
        · exact .refl _
        · exact List.sublist_cons_self _ _
      rcases ih hmem (some (key a')) with h | ⟨b, hb, hkey⟩
      · split_ifs with hprev
        · exact .inl (hprev.trans h)
        · exact .inr ⟨a', .head _, Option.some.inj h⟩
      · exact .inr ⟨b, hrest.subset hb, hkey⟩

end Runs

section Sorted
variable [LinearOrder κ] (key : α → κ) {r : α → α → Prop}

/-- In rows sorted by key a first row is before all others of its key. -/
theorem first_least (hr : ∀ a, r a a) {l : List α} (hkey : l.Pairwise fun a b => key a ≤ key b)
    (hl : l.Pairwise r) {prev : Option κ} (hprev : ∀ k ∈ prev, ∀ a ∈ l, k ≤ key a) {b : α}
    (hb : b ∈ firstsFrom key prev l) :
    (∀ k ∈ prev, k < key b) ∧ ∀ a ∈ l, key a = key b → r b a := by
  induction l generalizing prev with
  | nil => cases hb
  | cons a' l ih =>
    rw [List.pairwise_cons] at hkey hl
    have hstep : ∀ k ∈ some (key a'), ∀ a ∈ l, k ≤ key a := by
      intro k hk a ha
      obtain rfl := Option.some.inj hk
      exact hkey.1 a ha
    rw [firstsFrom] at hb
    have htail : b ∈ firstsFrom key (some (key a')) l →
        (∀ k ∈ prev, k < key b) ∧ ∀ a ∈ a' :: l, key a = key b → r b a := by
      intro hb
      obtain ⟨hlt, hleast⟩ := ih hkey.2 hl.2 hstep hb
      have habove := hlt (key a') rfl
      refine ⟨fun k hk => (hprev k hk a' (.head _)).trans_lt habove, fun a ha hsame => ?_⟩
      rcases List.mem_cons.mp ha with rfl | ha
      · exact absurd hsame habove.ne
      · exact hleast a ha hsame
    split_ifs at hb with h
    · exact htail hb
    · rcases List.mem_cons.mp hb with rfl | hb
      · refine ⟨fun k hk => ?_, fun a ha hsame => ?_⟩
        · have hne : k ≠ key b := by
            rintro rfl
            exact h hk
          exact lt_of_le_of_ne (hprev k hk b (.head _)) hne
        · rcases List.mem_cons.mp ha with rfl | ha
          · exact hr a
          · exact hl.1 a ha
      · exact htail hb

/-- The keys of the first rows increase strictly. -/
theorem strictly_firsts {l : List α} (hkey : l.Pairwise fun a b => key a ≤ key b) {prev : Option κ}
    (hprev : ∀ k ∈ prev, ∀ a ∈ l, k ≤ key a) :
    (firstsFrom key prev l).Pairwise fun a b => key a < key b := by
  induction l generalizing prev with
  | nil => exact .nil
  | cons a l ih =>
    rw [List.pairwise_cons] at hkey
    have hstep : ∀ k ∈ some (key a), ∀ a ∈ l, k ≤ key a := by
      intro k hk b hb
      obtain rfl := Option.some.inj hk
      exact hkey.1 b hb
    have htail := ih hkey.2 hstep
    rw [firstsFrom]
    split_ifs
    · exact htail
    · refine List.pairwise_cons.mpr ⟨fun b hb => ?_, htail⟩
      exact (first_least key (r := fun _ _ => True) (fun _ => trivial) hkey.2
        (List.pairwise_of_forall fun _ _ => trivial) hstep hb).1 _ rfl

end Sorted

section Least
variable [LinearOrder κ] (key : α → κ) (r : α → α → Prop) [DecidableRel r]

/-- The least row of every key, in the order of the keys. -/
def firstRows (l : List α) : List α := firstsFrom key none (l.insertionSort r)

variable {key r} in
/-- Every key has its first row. -/
theorem exists_firstRow {l : List α} {a : α} (ha : a ∈ l) : ∃ b ∈ firstRows key r l, key b = key a :=
  (exists_first key ((List.perm_insertionSort r l).mem_iff.mpr ha) none).resolve_left nofun

variable {key r} [Std.Total r] [IsTrans α r] (hr : ∀ a b, r a b → key a ≤ key b)
include hr

theorem strictly_firstRows (l : List α) : (firstRows key r l).Pairwise fun a b => key a < key b :=
  strictly_firsts key ((List.pairwise_insertionSort r l).imp fun h => hr _ _ h) fun _ hk => nomatch hk

theorem mem_firstRows [Std.Antisymm r] {l : List α} {b : α} :
    b ∈ firstRows key r l ↔ b ∈ l ∧ ∀ a ∈ l, key a = key b → r b a := by
  have hsorted := List.pairwise_insertionSort r l
  have hperm := List.perm_insertionSort r l
  have hkey : (l.insertionSort r).Pairwise fun a b => key a ≤ key b := hsorted.imp fun h => hr _ _ h
  have hleast : ∀ b ∈ firstRows key r l, ∀ a ∈ l, key a = key b → r b a := fun b hb a ha =>
    (first_least key (fun a => (Std.Total.total a a).elim id id) hkey hsorted
      (by rintro _ ⟨⟩) hb).2 a (hperm.mem_iff.mpr ha)
  constructor
  · intro hb
    exact ⟨hperm.mem_iff.mp ((firstsFrom_sublist key none _).subset hb), hleast b hb⟩
  · rintro ⟨hb, hfirst⟩
    obtain ⟨b', hb', hsame⟩ := (exists_first key (hperm.mem_iff.mpr hb) none).resolve_left nofun
    have hmem' : b' ∈ l := hperm.mem_iff.mp ((firstsFrom_sublist key none _).subset hb')
    have heq : b = b' := Std.Antisymm.antisymm b b' (hfirst b' hmem' hsame) (hleast b' hb' b hb hsame.symm)
    exact heq ▸ hb'

/-- The first rows depend only on which rows there are. -/
theorem firstRows_congr [Std.Antisymm r] {l l' : List α} (h : ∀ a, a ∈ l ↔ a ∈ l') :
    firstRows key r l = firstRows key r l' := by
  have hstrict := strictly_firstRows hr l
  have hstrict' := strictly_firstRows hr l'
  have hmem : ∀ a, a ∈ firstRows key r l ↔ a ∈ firstRows key r l' := by
    intro a
    rw [mem_firstRows hr, mem_firstRows hr, h]
    exact and_congr_right fun _ => forall_congr' fun b => by rw [h]
  have hne : ∀ a b : α, key a < key b → a ≠ b := by
    rintro a b hlt rfl
    exact lt_irrefl _ hlt
  have hperm := (List.perm_ext_iff_of_nodup (hstrict.imp fun {a b} => hne a b)
    (hstrict'.imp fun {a b} => hne a b)).mpr hmem
  exact hperm.eq_of_pairwise (fun a b _ _ hlt hgt => absurd hlt hgt.asymm) hstrict hstrict'

end Least
end Zagg.Lib
