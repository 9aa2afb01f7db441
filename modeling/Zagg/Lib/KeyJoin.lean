import Mathlib.Order.WithBot
import Zagg.Lib.Masks
import Zagg.Lib.Nearest

/-!
# A join by sorted search

The keys of one column are searched for in another column's sorted keys. A position past the
end is clamped to the last key, so what is found has to be compared with what was sought. A key
may be missing: it is sorted last and equals no key.
-/
namespace Zagg.Lib

universe u v

/-- A key that may be missing. -/
abbrev Key (K : Type u) := WithTop K

section Join
variable {K : Type u} [LinearOrder K]

/-- Equality of keys; a missing one equals none. -/
def keyEq (a b : Key K) : Bool := decide (a ≠ ⊤ ∧ a = b)

/-- The least key that stands twice. -/
def duplicateKey (keys : List (Key K)) : Option (Key K) :=
  (((sortedKeys keys).zip (sortedKeys keys).tail).find? fun x => keyEq x.2 x.1).map Prod.fst

/-- The place of a key among the sorted ones, clamped to the last. -/
def clampedPos (keys : List (Key K)) (k : Key K) : Nat :=
  min (bisectLeft (sortedKeys keys) k) ((sortedKeys keys).length - 1)

/-- Which of the keys sought are found. -/
def joinMatched (keys sought : List (Key K)) : List Bool :=
  List.zipWith keyEq (gather (sortedKeys keys) (sought.map (clampedPos keys))) sought

/-- The rows at the places of the keys sought. -/
def joinRows (keys sought : List (Key K)) : List Nat :=
  gather (argsort keys) (sought.map (clampedPos keys))

theorem keyEq_iff {a b : Key K} : keyEq a b = true ↔ a ≠ ⊤ ∧ a = b := decide_eq_true_iff

/-- No key stands twice, apart from the missing ones. -/
def Distinct (keys : List (Key K)) : Prop := keys.Pairwise fun a b => keyEq a b = false

theorem find?_zip_tail {α : Type u} (p : α → α → Bool) (l : List α) :
    (l.zip l.tail).find? (fun x => p x.2 x.1) = none ↔ l.IsChain fun a b => p b a = false := by
  induction l with
  | nil => exact ⟨fun _ => .nil, fun _ => rfl⟩
  | cons a l ih =>
    cases l with
    | nil => exact ⟨fun _ => .singleton a, fun _ => rfl⟩
    | cons b l =>
      rw [List.isChain_cons_cons, List.tail_cons, List.zip_cons_cons, List.find?_cons]
      cases hp : p b a with
      | true => exact ⟨nofun, fun h => nomatch h.1⟩
      | false => exact ⟨fun h => ⟨rfl, ih.mp h⟩, fun h => ih.mpr h.2⟩

theorem duplicateKey_eq_none {keys : List (Key K)} : duplicateKey keys = none ↔ Distinct keys := by
  have hsymm : ∀ a b : Key K, keyEq a b = false ↔ keyEq b a = false := by
    intro a b
    rw [← Bool.not_eq_true, ← Bool.not_eq_true, keyEq_iff, keyEq_iff, not_iff_not]
    constructor
    · rintro ⟨ha, rfl⟩
      exact ⟨ha, rfl⟩
    · rintro ⟨ha, rfl⟩
      exact ⟨ha, rfl⟩
  have hsorted : (sortedKeys keys).Pairwise (· ≤ ·) := pairwise_sortedKeys keys
  rw [Distinct, duplicateKey, Option.map_eq_none_iff, find?_zip_tail,
    ← (perm_sortedKeys keys).pairwise_iff fun {a b} h => (hsymm a b).mp h]
  constructor
  · intro hchain
    -- In sorted keys a repetition further on is one between neighbours.
    have htrans : IsTrans (Key K) fun a b => a ≤ b ∧ keyEq b a = false := by
      refine ⟨fun a b c hab hbc => ⟨hab.1.trans hbc.1, ?_⟩⟩
      have hnot := hbc.2
      rw [← Bool.not_eq_true, keyEq_iff] at hnot ⊢
      rintro ⟨hc, rfl⟩
      exact hnot ⟨hc, le_antisymm hab.1 hbc.1⟩
    have hboth : (sortedKeys keys).IsChain fun a b => a ≤ b ∧ keyEq b a = false := by
      rw [List.isChain_iff_getElem] at hchain ⊢
      exact fun i hi => ⟨List.pairwise_iff_getElem.mp hsorted _ _ _ _ (Nat.lt_succ_self i), hchain i hi⟩
    exact (List.isChain_iff_pairwise.mp hboth).imp fun h => (hsymm _ _).mp h.2
  · intro hpair
    exact (hpair.imp fun h => (hsymm _ _).mp h).isChain

variable {keys sought : List (Key K)}

theorem length_sortedKeys (keys : List (Key K)) : (sortedKeys keys).length = keys.length :=
  (perm_sortedKeys keys).length_eq

theorem clampedPos_lt (hne : keys ≠ []) (k : Key K) : clampedPos keys k < keys.length := by
  have hpos := List.length_pos_iff.mpr hne
  rw [clampedPos, length_sortedKeys]
  omega

/-- The clamp does not move a key that is there. -/
theorem clampedPos_of_mem {k : Key K} (hk : k ∈ keys) :
    clampedPos keys k = bisectLeft (sortedKeys keys) k := by
  obtain ⟨hlt, -⟩ := getElem_bisectLeft (pairwise_sortedKeys keys)
    ((perm_sortedKeys keys).mem_iff.mpr hk)
  rw [clampedPos]
  omega

theorem length_joinMatched (hne : keys ≠ []) : (joinMatched keys sought).length = sought.length := by
  have hlt : ∀ i ∈ sought.map (clampedPos keys), i < (sortedKeys keys).length := by
    intro i hi
    obtain ⟨k, -, rfl⟩ := List.mem_map.mp hi
    exact (clampedPos_lt hne k).trans_eq (length_sortedKeys keys).symm
  rw [joinMatched, List.length_zipWith, length_gather hlt, List.length_map, Nat.min_self]

/-- A key sought is found when it is there, and not missing. -/
theorem joinMatched_spec (hne : keys ≠ []) {i : Nat} {k : Key K} (hi : sought[i]? = some k) :
    (joinMatched keys sought)[i]? = some (decide (k ≠ ⊤ ∧ k ∈ keys)) := by
  have hlt : clampedPos keys k < (sortedKeys keys).length :=
    (clampedPos_lt hne k).trans_eq (length_sortedKeys keys).symm
  have hall : ∀ j ∈ sought.map (clampedPos keys), j < (sortedKeys keys).length := by
    intro j hj
    obtain ⟨k', -, rfl⟩ := List.mem_map.mp hj
    exact (clampedPos_lt hne k').trans_eq (length_sortedKeys keys).symm
  have hget : (gather (sortedKeys keys) (sought.map (clampedPos keys)))[i]? =
      some ((sortedKeys keys)[clampedPos keys k]) := by
    rw [getElem?_gather hall, List.getElem?_map, hi]
    exact List.getElem?_eq_getElem hlt
  rw [joinMatched, List.getElem?_zipWith, hget, hi]
  have hiff : keyEq (sortedKeys keys)[clampedPos keys k] k = true ↔ k ≠ ⊤ ∧ k ∈ keys := by
    rw [keyEq_iff]
    constructor
    · rintro ⟨hmissing, heq⟩
      exact ⟨heq ▸ hmissing, heq ▸ (perm_sortedKeys keys).mem_iff.mp (List.getElem_mem hlt)⟩
    · rintro ⟨hmissing, hk⟩
      obtain ⟨_, hat⟩ := getElem_bisectLeft (pairwise_sortedKeys keys)
        ((perm_sortedKeys keys).mem_iff.mpr hk)
      have hfound : (sortedKeys keys)[clampedPos keys k] = k := by
        simp only [clampedPos_of_mem hk, hat]
      rw [hfound]
      exact ⟨hmissing, rfl⟩
  exact congrArg some (Bool.eq_iff_iff.mpr (hiff.trans decide_eq_true_iff.symm))

example : joinMatched [some 3, some 1] [some (5 : Nat), some 1] = [false, true] ∧
    joinRows [some 3, some 1] [some (5 : Nat), some 1] = [0, 1] := by decide

/-- A key that stands once leads to its row. -/
theorem joinRows_spec (hd : Distinct keys) {i j : Nat} {k : Key K} (hi : sought[i]? = some k)
    (hk : k ≠ ⊤) (hj : keys[j]? = some k) : (joinRows keys sought)[i]? = some j := by
  have hmem := List.mem_of_getElem? hj
  have hne := List.ne_nil_of_mem hmem
  have hall : ∀ p ∈ sought.map (clampedPos keys), p < (argsort keys).length := by
    intro p hp
    obtain ⟨k', -, rfl⟩ := List.mem_map.mp hp
    exact (clampedPos_lt hne k').trans_eq (length_argsort keys).symm
  obtain ⟨i', hat, hkey, -⟩ := argsort_bisectLeft hmem
  have hsame : i' = j := by
    by_contra hdiff
    have hpair := List.pairwise_iff_getElem.mp hd
    obtain ⟨hi', hki'⟩ := List.getElem?_eq_some_iff.mp hkey
    obtain ⟨hj', hkj⟩ := List.getElem?_eq_some_iff.mp hj
    rcases Nat.lt_or_gt_of_ne hdiff with hlt | hlt
    · have hfalse := hpair _ _ hi' hj' hlt
      rw [hki', hkj, ← Bool.not_eq_true, keyEq_iff] at hfalse
      exact hfalse ⟨hk, rfl⟩
    · have hfalse := hpair _ _ hj' hi' hlt
      rw [hki', hkj, ← Bool.not_eq_true, keyEq_iff] at hfalse
      exact hfalse ⟨hk, rfl⟩
  rw [joinRows, getElem?_gather hall, List.getElem?_map, hi, ← hsame, ← hat, ← clampedPos_of_mem hmem]
  rfl

/-- Every row found is a row of the keys. -/
theorem joinRows_lt {j : Nat} (hj : j ∈ joinRows keys sought) : j < keys.length := by
  obtain ⟨p, -, hp⟩ := List.mem_filterMap.mp hj
  have hmem := List.mem_of_getElem? hp
  obtain ⟨x, hx, rfl⟩ := List.mem_map.mp hmem
  have hzip := (List.perm_insertionSort _ _).mem_iff.mp hx
  exact (List.getElem?_eq_some_iff.mp (List.mk_mem_zipIdx_iff_getElem?.mp hzip)).1

theorem length_joinRows (hne : keys ≠ []) : (joinRows keys sought).length = sought.length := by
  have hall : ∀ p ∈ sought.map (clampedPos keys), p < (argsort keys).length := by
    intro p hp
    obtain ⟨k', -, rfl⟩ := List.mem_map.mp hp
    exact (clampedPos_lt hne k').trans_eq (length_argsort keys).symm
  rw [joinRows, length_gather hall, List.length_map]

end Join
end Zagg.Lib
