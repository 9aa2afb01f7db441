import Mathlib.Data.List.Sort
import Mathlib.Data.String.Basic
import Zagg.Lib.Dict
import Zagg.Lib.Json

/-!
# Equality of JSON values

`==` compares numbers and truth values by value and mappings without regard to order. On
values whose mappings have distinct keys it is an equivalence. `<` is defined between two
strings, two numbers, and two lists whose first different items it is defined between.
-/
namespace Zagg.Lib.Json

attribute [local simp] pyEq

/-- Every mapping in the value has distinct keys, and nothing in it is the float unequal to
itself. -/
inductive Distinct : Json → Prop where
  | null : Distinct null
  | bool (b : Bool) : Distinct (bool b)
  | num (q : ℚ) : Distinct (num q)
  | inf (negative : Bool) : Distinct (inf negative)
  | str (s : String) : Distinct (str s)
  | arr {items : List Json} (h : ∀ item ∈ items, Distinct item) : Distinct (arr items)
  | obj {fields : List (String × Json)} (hn : (fields.map Prod.fst).Nodup)
      (h : ∀ f ∈ fields, Distinct f.2) : Distinct (obj fields)

/-- Every mapping in the value has distinct keys, as every mapping of a parsed text has. -/
inductive Keyed : Json → Prop where
  | null : Keyed null
  | bool (b : Bool) : Keyed (bool b)
  | num (q : ℚ) : Keyed (num q)
  | inf (negative : Bool) : Keyed (inf negative)
  | nan : Keyed nan
  | str (s : String) : Keyed (str s)
  | arr {items : List Json} (h : ∀ item ∈ items, Keyed item) : Keyed (arr items)
  | obj {fields : List (String × Json)} (hn : (fields.map Prod.fst).Nodup)
      (h : ∀ f ∈ fields, Keyed f.2) : Keyed (obj fields)

theorem Distinct.keyed {v : Json} (hv : v.Distinct) : v.Keyed := by
  induction hv with
  | null => exact .null
  | bool b => exact .bool b
  | num q => exact .num q
  | inf n => exact .inf n
  | str s => exact .str s
  | arr _ ih => exact .arr ih
  | obj hn _ ih => exact .obj hn ih

theorem rec_mem {P : Json → Prop} (hnull : P null) (hbool : ∀ b, P (bool b)) (hnum : ∀ q, P (num q))
    (hinf : ∀ n, P (inf n)) (hnan : P nan) (hstr : ∀ s, P (str s))
    (harr : ∀ items, (∀ item ∈ items, P item) → P (arr items))
    (hobj : ∀ fields, (∀ f ∈ fields, P f.2) → P (obj fields)) : ∀ v, P v
  | null => hnull
  | bool b => hbool b
  | num q => hnum q
  | inf n => hinf n
  | nan => hnan
  | str s => hstr s
  | arr items => harr items fun item _ => rec_mem hnull hbool hnum hinf hnan hstr harr hobj item
  | obj fields => hobj fields fun f _ => rec_mem hnull hbool hnum hinf hnan hstr harr hobj f.2
termination_by v => sizeOf v
decreasing_by
  · have := List.sizeOf_lt_of_mem ‹_›
    simp only [arr.sizeOf_spec]
    omega
  · have hmem := List.sizeOf_lt_of_mem ‹_›
    have hpair : sizeOf f.2 < sizeOf f := by
      obtain ⟨key, value⟩ := f
      simp only [Prod.mk.sizeOf_spec]
      omega
    simp only [obj.sizeOf_spec]
    omega

theorem pyEqItems_iff {items others : List Json} :
    pyEqItems items others = true ↔ List.Forall₂ (fun a b => a.pyEq b = true) items others := by
  induction items generalizing others with
  | nil =>
    rw [pyEqItems, List.isEmpty_iff, List.forall₂_nil_left_iff]
  | cons item items ih =>
    cases others with
    | nil => exact iff_of_false (by simp [pyEqItems]) nofun
    | cons other others => rw [pyEqItems, Bool.and_eq_true, List.forall₂_cons, ih]

theorem pyEqFields_iff {fields others : List (String × Json)} : pyEqFields fields others = true ↔
    ∀ f ∈ fields, ∃ other, others.lookup f.1 = some other ∧ f.2.pyEq other = true := by
  induction fields with
  | nil => exact iff_of_true rfl nofun
  | cons f fields ih =>
    rw [pyEqFields, Bool.and_eq_true, List.forall_mem_cons, ih]
    refine and_congr_left fun _ => ?_
    cases others.lookup f.1 with
    | none => exact iff_of_false nofun nofun
    | some other => exact ⟨fun h => ⟨other, rfl, h⟩, fun ⟨_, ho, h⟩ => Option.some.inj ho ▸ h⟩

theorem pyEq_obj_iff {fields others : List (String × Json)} : (obj fields).pyEq (obj others) = true ↔
    fields.length = others.length ∧
      ∀ f ∈ fields, ∃ other, others.lookup f.1 = some other ∧ f.2.pyEq other = true := by
  rw [pyEq, Bool.and_eq_true, decide_eq_true_eq, pyEqFields_iff]

/-- A number equals the values of its own number. -/
theorem pyEq_of_number {v w : Json} {q : ℚ} (hv : v.number = some q) :
    v.pyEq w = true ↔ w.number = some q := by
  cases v with
  | num r => rw [pyEq, decide_eq_true_eq, ← hv]; rfl
  | bool b => rw [pyEq, decide_eq_true_eq, ← hv]; rfl
  | _ => cases hv

theorem number_eq_of_pyEq {v w : Json} (h : v.pyEq w = true) : v.number = w.number := by
  cases v with
  | num q => exact ((pyEq_of_number rfl).mp h).symm
  | bool b => exact ((pyEq_of_number rfl).mp h).symm
  | null => cases w <;> first | rfl | exact absurd h (by simp)
  | inf n => cases w <;> first | rfl | exact absurd h (by simp)
  | nan => exact absurd h (by simp)
  | str s => cases w <;> first | rfl | exact absurd h (by simp)
  | arr items => cases w <;> first | rfl | exact absurd h (by simp)
  | obj fields => cases w <;> first | rfl | exact absurd h (by simp)

theorem pyEq_refl {v : Json} (hv : v.Distinct) : v.pyEq v = true := by
  induction hv with
  | null => rfl
  | bool b => exact (pyEq_of_number rfl).mpr rfl
  | num q => exact (pyEq_of_number rfl).mpr rfl
  | inf n => exact decide_eq_true rfl
  | str s => exact decide_eq_true rfl
  | arr _ ih =>
    rw [pyEq, pyEqItems_iff, List.forall₂_same]
    exact ih
  | obj hn _ ih => exact pyEq_obj_iff.mpr ⟨rfl, fun f hf => ⟨f.2, lookup_of_nodup hn hf, ih f hf⟩⟩

theorem pyEq_trans : ∀ {a b d : Json}, a.pyEq b = true → b.pyEq d = true → a.pyEq d = true := by
  intro a
  induction a using rec_mem with
  | hnull =>
    intro b d h h'
    cases b <;> first | exact h' | exact absurd h (by simp)
  | hbool x =>
    intro b d h h'
    rw [pyEq_of_number rfl] at h ⊢
    exact (number_eq_of_pyEq h').symm.trans h
  | hnum q =>
    intro b d h h'
    rw [pyEq_of_number rfl] at h ⊢
    exact (number_eq_of_pyEq h').symm.trans h
  | hinf n =>
    intro b d h h'
    cases b with
    | inf n' =>
      rw [pyEq, decide_eq_true_eq] at h
      exact h ▸ h'
    | _ => exact absurd h (by simp)
  | hnan => exact fun h _ => absurd h (by simp)
  | hstr s =>
    intro b d h h'
    cases b with
    | str t =>
      rw [pyEq, decide_eq_true_eq] at h
      exact h ▸ h'
    | _ => exact absurd h (by simp)
  | harr items ih =>
    intro b d h h'
    cases b with
    | arr others =>
      cases d with
      | arr thirds =>
        rw [pyEq, pyEqItems_iff] at h h' ⊢
        induction h generalizing thirds with
        | nil => exact h'
        | cons hab _ ihl =>
          cases h' with
          | cons hbd h' =>
            exact .cons (ih _ (.head _) hab hbd) (ihl (fun x hx => ih x (.tail _ hx)) _ h')
      | _ => exact absurd h' (by simp)
    | _ => exact absurd h (by simp)
  | hobj fields ih =>
    intro b d h h'
    cases b with
    | obj others =>
      cases d with
      | obj thirds =>
        rw [pyEq_obj_iff] at h h' ⊢
        refine ⟨h.1.trans h'.1, fun f hf => ?_⟩
        obtain ⟨other, hother, heq⟩ := h.2 f hf
        obtain ⟨third, hthird, heq'⟩ := h'.2 (f.1, other) (mem_of_lookup hother)
        exact ⟨third, hthird, ih f hf heq heq'⟩
      | _ => exact absurd h' (by simp)
    | _ => exact absurd h (by simp)

theorem pyEq_symm : ∀ {a b : Json}, a.Keyed → b.Keyed → a.pyEq b = true → b.pyEq a = true := by
  intro a
  induction a using rec_mem with
  | hnull =>
    intro b _ _ h
    cases b <;> first | rfl | exact absurd h (by simp)
  | hbool x => exact fun _ _ h => (pyEq_of_number ((pyEq_of_number rfl).mp h)).mpr rfl
  | hnum q => exact fun _ _ h => (pyEq_of_number ((pyEq_of_number rfl).mp h)).mpr rfl
  | hinf n =>
    intro b _ _ h
    cases b with
    | inf n' =>
      rw [pyEq, decide_eq_true_eq] at h
      exact decide_eq_true h.symm
    | _ => exact absurd h (by simp)
  | hnan => exact fun _ _ h => absurd h (by simp)
  | hstr s =>
    intro b _ _ h
    cases b with
    | str t =>
      rw [pyEq, decide_eq_true_eq] at h
      exact decide_eq_true h.symm
    | _ => exact absurd h (by simp)
  | harr items ih =>
    intro b ha hb h
    cases b with
    | arr others =>
      cases ha with | arr ha =>
      cases hb with | arr hb =>
      rw [pyEq, pyEqItems_iff] at h ⊢
      induction h with
      | nil => exact .nil
      | cons hab _ ihl =>
        exact .cons (ih _ (.head _) (ha _ (.head _)) (hb _ (.head _)) hab)
          (ihl (fun x hx => ih x (.tail _ hx)) (fun x hx => ha x (.tail _ hx))
            fun x hx => hb x (.tail _ hx))
    | _ => exact absurd h (by simp)
  | hobj fields ih =>
    intro b ha hb h
    cases b with
    | obj others =>
      cases ha with | obj hn ha =>
      cases hb with | obj hn' hb =>
      rw [pyEq_obj_iff] at h ⊢
      obtain ⟨hlen, hall⟩ := h
      -- as many keys, all of them keys of the other mapping
      have hsub : fields.map Prod.fst ⊆ others.map Prod.fst := by
        intro key hkey
        obtain ⟨f, hf, rfl⟩ := List.mem_map.mp hkey
        obtain ⟨other, hother, -⟩ := hall f hf
        exact List.mem_map.mpr ⟨(f.1, other), mem_of_lookup hother, rfl⟩
      have hperm : (fields.map Prod.fst).Perm (others.map Prod.fst) :=
        (List.subperm_of_subset hn hsub).perm_of_length_le (by simp [hlen])
      refine ⟨hlen.symm, fun g hg => ?_⟩
      obtain ⟨f, hf, hkey⟩ := List.mem_map.mp (hperm.mem_iff.mpr (List.mem_map_of_mem hg))
      obtain ⟨other, hother, heq⟩ := hall f hf
      rw [hkey, lookup_of_nodup hn' hg] at hother
      obtain rfl := Option.some.inj hother
      exact ⟨f.2, hkey ▸ lookup_of_nodup hn hf, ih f hf (ha f hf) (hb g hg) heq⟩
    | _ => exact absurd h (by simp)

/-! ## Sorting -/

mutual

/-- Whether `value < other` is defined. -/
def comparable : Json → Json → Bool
  | str _, other => match other with
    | str _ => true
    | _ => false
  | arr items, other => match other with
    | arr others => comparableItems items others
    | _ => false
  | value, other => value.isNumber && other.isNumber

def comparableItems : List Json → List Json → Bool
  | [], _ => true
  | item :: items, others => match others with
    | [] => true
    | other :: others =>
      if item.pyEq other then comparableItems items others else comparable item other

end

mutual

/-- `value < other`, where it is defined. -/
def less : Json → Json → Bool
  | str s, other => match other with
    | str t => !decide (t ≤ s)
    | _ => false
  | arr items, other => match other with
    | arr others => lessItems items others
    | _ => false
  | value, other => value.numberLt other

def lessItems : List Json → List Json → Bool
  | [], others => !others.isEmpty
  | item :: items, others => match others with
    | [] => false
    | other :: others => if item.pyEq other then lessItems items others else less item other

end

/-- `sorted(items)`. -/
def sort (items : List Json) : Except PyError (List Json) :=
  if items.Pairwise fun a b => comparable a b then .ok (items.insertionSort fun a b => !less b a)
  else .error .typeError

theorem sort_ok_iff {items : List Json} :
    (∃ r, sort items = .ok r) ↔ items.Pairwise fun a b => comparable a b := by
  rw [sort]
  split_ifs with h
  · exact iff_of_true ⟨_, rfl⟩ h
  · exact iff_of_false nofun h

theorem sort_texts (names : List String) :
    sort (names.map .str) = .ok ((names.insertionSort (· ≤ ·)).map .str) := by
  have htext : (names.map Json.str).Pairwise fun a b => comparable a b :=
    List.pairwise_map.mpr (List.pairwise_of_forall fun _ _ => rfl)
  rw [sort, if_pos htext]
  refine congrArg Except.ok (List.map_insertionSort _ _ _ _ fun a _ b _ => ?_).symm
  simp [less]

end Zagg.Lib.Json
