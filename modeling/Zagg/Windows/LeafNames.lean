import Mathlib.Data.List.Basic
import Zagg.Windows.Labels

/-!
# Leaf names

A leaf is named by its cell's decimal id, with an underscore and a window's label behind it when
there is one. Neither has an underscore, so a name splits at its first one.
-/
namespace Zagg.Windows

open Zagg.Lib Zagg.Lib.DecimalText

/-- A cell's signed decimal id: the base digit and one digit for each order. -/
structure CellId where
  negative : Bool
  base : Fin 6
  digits : List (Fin 4)
deriving DecidableEq

namespace CellId

def digitText {n : Nat} (d : Fin n) : Char := PyText.digitChar (d.val + 1)

/-- `{sign+base}`. -/
def head (id : CellId) : List Char := (if id.negative then ['-'] else []) ++ [digitText id.base]

def text (id : CellId) : List Char := id.head ++ id.digits.map digitText

end CellId

def zarrSuffix : List Char := ".zarr".toList

/-- A leaf's name, with the `ValueError` of its label. -/
def leafName (fullId : List Char) : Option Label → Except WindowError (List Char)
  | none => .ok (fullId ++ zarrSuffix)
  | some window => do
    let _ ← validateLabel window .explicit
    return fullId ++ '_' :: (window ++ zarrSuffix)

inductive LeafError
  | notALeaf (name : List Char)
  | window (e : WindowError)
deriving DecidableEq

/-- `split_leaf_name`: at the first underscore. -/
def splitLeafName (name : List Char) : Except LeafError (List Char × Option Label) :=
  if ¬zarrSuffix <:+ name then .error (.notALeaf name)
  else
    let stem := name.take (name.length - zarrSuffix.length)
    if '_' ∉ stem then .ok (stem, none)
    else
      let window := (stem.dropWhile (· ≠ '_')).tail
      match validateLabel window .explicit with
      | .ok window => .ok (stem.takeWhile (· ≠ '_'), some window)
      | .error e => .error (.window e)

section Labels

theorem validateLabel_ok {label label' : Label} {schedule : Schedule} :
    validateLabel label schedule = .ok label' ↔
      label' = label ∧ matchesToEnd schedule.pattern label = true := by
  unfold validateLabel
  split
  · constructor
    · intro h
      cases h
      exact ⟨rfl, ‹_›⟩
    · intro ⟨h, _⟩
      rw [h]
  · exact ⟨nofun, fun h => absurd h.2 ‹_›⟩

theorem matchesToEnd_iff {pattern : List Char → Bool} {s : List Char} (h : s.getLast? ≠ some '\n') :
    matchesToEnd pattern s = true ↔ pattern s = true := by
  rw [matchesToEnd, beq_eq_false_iff_ne.mpr h, Bool.false_and, Bool.or_false]

theorem isLabelChar_of_digit {ch : Char} (h : isAsciiDigit ch = true) : isLabelChar ch = true := by
  rw [isLabelChar, h]
  rfl

/-- The characters of every schedule's labels are those of the explicit ones. -/
theorem isLabelChar_of_pattern (schedule : Schedule) {label : Label}
    (h : schedule.pattern label = true) : ∀ ch ∈ label, isLabelChar ch = true := by
  intro ch hch
  cases schedule with
  | generative c =>
    have hall : label.all isAsciiDigit = true := (Bool.and_eq_true_iff.mp h).2
    exact isLabelChar_of_digit (List.all_eq_true.mp hall ch hch)
  | none | explicit =>
    have hall : label.all isLabelChar = true := (Bool.and_eq_true_iff.mp h).2
    exact List.all_eq_true.mp hall ch hch

/-- What a matched label ends with: its last character, or one newline more. -/
theorem chars_of_matches {label : Label} (h : matchesToEnd labelPattern label = true) :
    ∀ ch ∈ label, isLabelChar ch = true ∨ ch = '\n' := by
  intro ch hch
  rw [matchesToEnd, Bool.or_eq_true, Bool.and_eq_true, beq_iff_eq] at h
  cases h with
  | inl h => exact .inl (isLabelChar_of_pattern .explicit h ch hch)
  | inr h =>
    have hsplit := List.dropLast_append_getLast? '\n' h.1
    rw [← hsplit, List.mem_append, List.mem_singleton] at hch
    cases hch with
    | inl hch => exact .inl (isLabelChar_of_pattern .explicit h.2 ch hch)
    | inr hch => exact .inr hch

end Labels

section Names

theorem isLabelChar_base : ∀ d : Fin 6, isLabelChar (CellId.digitText d) = true := by decide

theorem isLabelChar_digit : ∀ d : Fin 4, isLabelChar (CellId.digitText d) = true := by decide

theorem isLabelChar_head {id : CellId} {ch : Char} (h : ch ∈ id.head) : isLabelChar ch = true := by
  rw [CellId.head, List.mem_append, List.mem_singleton] at h
  cases h with
  | inl h =>
    split at h
    · rw [List.mem_singleton.mp h]
      decide
    · exact nomatch h
  | inr h =>
    rw [h]
    exact isLabelChar_base id.base

/-- Ids are written with the characters of labels. -/
theorem isLabelChar_text {id : CellId} {ch : Char} (h : ch ∈ id.text) : isLabelChar ch = true := by
  rw [CellId.text, List.mem_append] at h
  cases h with
  | inl h => exact isLabelChar_head h
  | inr h =>
    obtain ⟨d, -, rfl⟩ := List.mem_map.mp h
    exact isLabelChar_digit d

theorem not_mem_text (id : CellId) {ch : Char} (h : isLabelChar ch = false) : ch ∉ id.text :=
  fun hmem => Bool.false_ne_true (h.symm.trans (isLabelChar_text hmem))

theorem digitText_inj {n : Nat} (hn : n < 10) {d e : Fin n}
    (h : CellId.digitText d = CellId.digitText e) : d = e := by
  have hd := d.isLt
  have he := e.isLt
  have hnat := congrArg Char.toNat h
  rw [CellId.digitText, CellId.digitText, toNat_digitChar (by omega), toNat_digitChar (by omega)]
    at hnat
  exact Fin.ext (by omega)

theorem digitText_ne_minus : ∀ d : Fin 6, CellId.digitText d ≠ '-' := by decide

/-- An id is its text. -/
theorem text_inj {id id' : CellId} (h : id.text = id'.text) : id = id' := by
  obtain ⟨negative, base, digits⟩ := id
  obtain ⟨negative', base', digits'⟩ := id'
  have hrest (h : CellId.digitText base :: digits.map CellId.digitText =
      CellId.digitText base' :: digits'.map CellId.digitText) : base = base' ∧ digits = digits' :=
    ⟨digitText_inj (by decide) (List.cons.inj h).1,
      List.map_injective_iff.mpr (fun _ _ => digitText_inj (by decide)) (List.cons.inj h).2⟩
  cases negative with
  | true =>
    cases negative' with
    | true =>
      obtain ⟨rfl, rfl⟩ := hrest (List.cons.inj h).2
      rfl
    | false => exact absurd (List.cons.inj h).1.symm (digitText_ne_minus base')
  | false =>
    cases negative' with
    | true => exact absurd (List.cons.inj h).1 (digitText_ne_minus base)
    | false =>
      obtain ⟨rfl, rfl⟩ := hrest h
      rfl

/-- The names that leaves get: an id without an underscore, and a label behind one. -/
def nameOf (fullId : List Char) : Option Label → List Char
  | none => fullId ++ zarrSuffix
  | some window => fullId ++ '_' :: (window ++ zarrSuffix)

theorem leafName_ok {fullId : List Char} {window : Option Label} {name : List Char} :
    leafName fullId window = .ok name ↔ name = nameOf fullId window ∧
      ∀ w ∈ window, matchesToEnd labelPattern w = true := by
  cases window with
  | none =>
    constructor
    · intro h
      cases h
      exact ⟨rfl, nofun⟩
    · intro ⟨h, _⟩
      rw [h]
      rfl
  | some w =>
    show (validateLabel w .explicit >>= fun _ => .ok (nameOf fullId (some w))) = .ok name ↔ _
    have hsome : (∀ v ∈ some w, matchesToEnd labelPattern v = true) ↔
        matchesToEnd labelPattern w = true :=
      ⟨fun h => h w rfl, fun h v hv => Option.some.inj hv ▸ h⟩
    rw [hsome]
    cases hv : validateLabel w .explicit with
    | error e =>
      constructor
      · intro h
        exact nomatch h
      · intro ⟨_, h⟩
        have hok : validateLabel w .explicit = .ok w := validateLabel_ok.mpr ⟨rfl, h⟩
        rw [hok] at hv
        exact nomatch hv
    | ok w' =>
      constructor
      · intro h
        cases h
        exact ⟨rfl, (validateLabel_ok.mp hv).2⟩
      · intro ⟨h, _⟩
        rw [h]
        rfl

theorem stem_append (stem : List Char) :
    (stem ++ zarrSuffix).take ((stem ++ zarrSuffix).length - zarrSuffix.length) = stem := by
  rw [List.length_append, Nat.add_sub_cancel, List.take_left]

theorem takeWhile_underscore {id : List Char} (h : '_' ∉ id) (rest : List Char) :
    (id ++ '_' :: rest).takeWhile (· ≠ '_') = id ∧
      (id ++ '_' :: rest).dropWhile (· ≠ '_') = '_' :: rest := by
  have hid : ∀ ch ∈ id, decide (ch ≠ '_') = true := by
    intro ch hch
    exact decide_eq_true fun he => h (he ▸ hch)
  constructor
  · rw [List.takeWhile_append_of_pos hid, List.takeWhile_cons_of_neg (by decide), List.append_nil]
  · rw [List.dropWhile_append_of_pos hid, List.dropWhile_cons_of_neg (by decide)]

/-- A leaf's name splits back. -/
theorem splitLeafName_nameOf {fullId : List Char} (hid : '_' ∉ fullId) {window : Option Label}
    (hw : ∀ w ∈ window, matchesToEnd labelPattern w = true) :
    splitLeafName (nameOf fullId window) = .ok (fullId, window) := by
  cases window with
  | none =>
    unfold splitLeafName
    rw [nameOf, if_neg (not_not.mpr (List.suffix_append ..)), stem_append, if_pos hid]
  | some w =>
    have hname : nameOf fullId (some w) = (fullId ++ '_' :: w) ++ zarrSuffix := by
      rw [nameOf, List.append_assoc]
      rfl
    have hmem : ¬ '_' ∉ fullId ++ '_' :: w :=
      not_not.mpr (List.mem_append_right _ (List.mem_cons_self ..))
    obtain ⟨htake, hdrop⟩ := takeWhile_underscore hid w
    unfold splitLeafName
    rw [hname, if_neg (not_not.mpr (List.suffix_append ..)), stem_append, if_neg hmem]
    simp only [htake, hdrop, List.tail_cons]
    have hok : validateLabel w .explicit = .ok w := validateLabel_ok.mpr ⟨rfl, hw w rfl⟩
    rw [hok]

/-- A name that splits is the leaf name of what it splits into. -/
theorem of_splitLeafName {name fullId : List Char} {window : Option Label}
    (h : splitLeafName name = .ok (fullId, window)) :
    name = nameOf fullId window ∧ '_' ∉ fullId ∧
      ∀ w ∈ window, matchesToEnd labelPattern w = true := by
  unfold splitLeafName at h
  split at h
  · exact nomatch h
  · rename_i hsuffix
    obtain ⟨stem, rfl⟩ := not_not.mp hsuffix
    rw [stem_append] at h
    simp only at h
    split at h
    · cases h
      exact ⟨rfl, ‹_›, nofun⟩
    · rename_i hunder
      obtain ⟨id, rest, rfl, hid⟩ := List.eq_append_cons_of_mem (not_not.mp hunder)
      obtain ⟨htake, hdrop⟩ := takeWhile_underscore hid rest
      simp only [htake, hdrop, List.tail_cons] at h
      split at h
      · rename_i hv
        cases h
        obtain ⟨rfl, hmatch⟩ := validateLabel_ok.mp hv
        refine ⟨?_, hid, fun w hw => ?_⟩
        · rw [nameOf, List.append_assoc]
          rfl
        · cases hw
          exact hmatch
      · exact nomatch h

end Names

end Zagg.Windows
