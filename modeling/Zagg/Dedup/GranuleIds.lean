import Mathlib.Data.Char
import Mathlib.Data.List.DropRight
import Mathlib.Data.List.Lex
import Zagg.Lib.JsonEq
import Zagg.Lib.SortedSet

/-!
# Granule ids

A granule is known by its bare id, whatever path it is read by, and the granules of a leaf by the
digest of their sorted ids.
-/
namespace Zagg.Dedup

open Zagg.Lib

abbrev GranuleId := List Char

/-- What an entry is named by: a paired-asset mapping by its primary. -/
def primary : Json → Except PyError Json
  | .obj fields =>
    if (Json.field fields "url").truthy then .ok (Json.field fields "url") else .error .valueError
  | entry => .ok entry

def isEmptyEntry : Json → Bool
  | .null => true
  | .str s => s.toList.isEmpty
  | _ => false

/-- `text.rstrip("/")`. -/
def rstripSlash (text : List Char) : List Char := text.rdropWhile (· = '/')

/-- `text.rpartition("/")[2] or text`. -/
def basename (text : List Char) : List Char :=
  let name := text.rtakeWhile (· ≠ '/')
  if name = [] then text else name

/-- The text of an id, as a JSON value. -/
def idJson (id : GranuleId) : Json := .str (String.ofList id)

section Canonical
-- `str(entry)` of an entry that is no text.
variable (str : Json → List Char)

def entryText : Json → List Char
  | .str s => s.toList
  | entry => str entry

def canonicalGranuleId (entry : Json) : Except PyError GranuleId := do
  let named ← primary entry
  if isEmptyEntry named then .error .valueError
  else .ok (basename (rstripSlash (entryText str named)))

def canonicalGranuleIds (entries : List Json) : Except PyError (List GranuleId) :=
  entries.mapM (canonicalGranuleId str)

-- The hex digest of a text.
variable (sha256 : List Char → List Char)

/-- The digest of the sorted ids, and `None` of none. -/
def digestOf (ids : List GranuleId) : Option (List Char) :=
  if ids = [] then none else some (sha256 (['\n'].intercalate (ids.insertionSort (· ≤ ·))))

def granulesSha256 (entries : List Json) : Except PyError (Option (List Char)) := do
  let ids ← canonicalGranuleIds str entries
  return digestOf sha256 ids

end Canonical

section Names
variable {str : Json → List Char}

theorem rstripSlash_of_not_mem {text : List Char} (h : '/' ∉ text) : rstripSlash text = text := by
  apply List.rdropWhile_eq_self_iff.mpr
  intro hne hlast
  exact h (of_decide_eq_true hlast ▸ List.getLast_mem hne)

theorem basename_of_not_mem {text : List Char} (h : '/' ∉ text) : basename text = text := by
  have hname : text.rtakeWhile (· ≠ '/') = text := by
    apply List.rtakeWhile_eq_self_iff.mpr
    intro ch hch
    exact decide_eq_true fun heq => h (heq ▸ hch)
  rw [basename, hname]
  exact ite_self _

/-- A stripped text ends in no slash, so that without a name behind its last one it is empty. -/
theorem not_mem_basename (text : List Char) : '/' ∉ basename (rstripSlash text) := by
  unfold basename
  simp only
  split
  · rename_i hname
    have hempty : rstripSlash text = [] := by
      by_contra hne
      have hslash := List.rtakeWhile_eq_nil_iff.mp hname hne
      have hlast := List.rdropWhile_last_not (fun ch => decide (ch = '/')) text hne
      simp only [decide_eq_true_eq, not_not] at hslash hlast
      exact hlast hslash
    rw [hempty]
    exact List.not_mem_nil
  · intro hmem
    have hne := List.mem_rtakeWhile_imp hmem
    exact absurd rfl (of_decide_eq_true hne)

theorem canonicalGranuleId_slash {entry : Json} {id : GranuleId}
    (h : canonicalGranuleId str entry = .ok id) : '/' ∉ id := by
  obtain ⟨named, -, h⟩ := bind_ok h
  split at h
  · exact nomatch h
  · cases h
    exact not_mem_basename _

/-- A bare id is its own canonical form. -/
theorem canonicalGranuleId_idJson {id : GranuleId} (hne : id ≠ []) (hslash : '/' ∉ id) :
    canonicalGranuleId str (idJson id) = .ok id := by
  show (if (String.ofList id).toList.isEmpty then Except.error PyError.valueError
    else .ok (basename (rstripSlash (String.ofList id).toList))) = .ok id
  rw [String.toList_ofList, rstripSlash_of_not_mem hslash, basename_of_not_mem hslash, if_neg]
  rw [List.isEmpty_iff]
  exact hne

theorem canonicalGranuleIds_idJson {ids : List GranuleId} (h : ∀ id ∈ ids, id ≠ [] ∧ '/' ∉ id) :
    canonicalGranuleIds str (ids.map idJson) = .ok ids := by
  rw [canonicalGranuleIds, List.mapM_map]
  have hall := mapM_ok (f := fun id => canonicalGranuleId str (idJson id)) (g := id) (l := ids)
    fun id hid => canonicalGranuleId_idJson (h id hid).1 (h id hid).2
  rw [List.map_id] at hall
  exact hall

/-- Every text but the empty one has a canonical form. -/
theorem exists_canonicalGranuleIds (str : Json → List Char) {names : List (List Char)}
    (h : ∀ name ∈ names, name ≠ []) :
    ∃ ids, canonicalGranuleIds str (names.map idJson) = .ok ids := by
  rw [canonicalGranuleIds, List.mapM_map]
  apply exists_mapM
  intro name hname
  refine ⟨basename (rstripSlash (String.ofList name).toList), ?_⟩
  show (if (String.ofList name).toList.isEmpty then Except.error PyError.valueError
    else .ok (basename (rstripSlash (String.ofList name).toList))) = _
  rw [if_neg]
  rw [String.toList_ofList, List.isEmpty_iff]
  exact h name hname

theorem canonicalGranuleIds_slash {entries : List Json} {ids : List GranuleId}
    (h : canonicalGranuleIds str entries = .ok ids) : ∀ id ∈ ids, '/' ∉ id := by
  intro id hid
  obtain ⟨entry, -, hentry⟩ := forall₂_exists_of_mem_right (forall₂_mapM h) hid
  exact canonicalGranuleId_slash hentry

end Names

section Digests
variable {sha256 : List Char → List Char} {ids ids' : List GranuleId}

theorem insertionSort_eq_iff_perm :
    ids.insertionSort (· ≤ ·) = ids'.insertionSort (· ≤ ·) ↔ ids.Perm ids' := by
  constructor
  · intro h
    have hperm := List.perm_insertionSort (· ≤ ·) ids
    rw [h] at hperm
    exact hperm.symm.trans (List.perm_insertionSort (· ≤ ·) ids')
  · intro h
    have hperm := ((List.perm_insertionSort (· ≤ ·) ids).trans h).trans
      (List.perm_insertionSort (· ≤ ·) ids').symm
    exact hperm.eq_of_pairwise (fun _ _ _ _ hle hge => le_antisymm hle hge)
      (List.pairwise_insertionSort _ _) (List.pairwise_insertionSort _ _)

theorem digestOf_eq_none : digestOf sha256 ids = none ↔ ids = [] := by
  unfold digestOf
  split
  · exact iff_of_true rfl ‹_›
  · exact iff_of_false nofun ‹_›

/-- The digest does not see the order of the ids. -/
theorem digestOf_perm (h : ids.Perm ids') : digestOf sha256 ids = digestOf sha256 ids' := by
  rw [digestOf, digestOf, insertionSort_eq_iff_perm.mpr h]
  by_cases hempty : ids' = []
  · rw [if_pos hempty, if_pos (List.perm_nil.mp (hempty ▸ h))]
  · have hne : ids ≠ [] := by
      intro he
      rw [he] at h
      exact hempty (List.nil_perm.mp h)
    rw [if_neg hempty, if_neg hne]

/-- Where digests of different texts differ, those of different multisets of ids do. -/
theorem digestOf_inj (hsha : Function.Injective sha256) (hids : ∀ id ∈ ids, '\n' ∉ id)
    (hids' : ∀ id ∈ ids', '\n' ∉ id) : digestOf sha256 ids = digestOf sha256 ids' ↔ ids.Perm ids' := by
  constructor
  · intro h
    by_cases hempty : ids = []
    · rw [digestOf_eq_none.mpr hempty] at h
      rw [hempty, digestOf_eq_none.mp h.symm]
    · have hempty' : ids' ≠ [] := by
        intro he
        rw [digestOf_eq_none.mpr he] at h
        exact hempty (digestOf_eq_none.mp h)
      rw [digestOf, digestOf, if_neg hempty, if_neg hempty'] at h
      have hjoin := hsha (Option.some.inj h)
      have hsplit {l : List GranuleId} (hl : ∀ id ∈ l, '\n' ∉ id) (hne : l ≠ []) :
          (['\n'].intercalate (l.insertionSort (· ≤ ·))).splitOn '\n' =
            l.insertionSort (· ≤ ·) := by
        apply List.splitOn_intercalate
        · exact fun id hid => hl id ((List.mem_insertionSort _).mp hid)
        · intro he
          have hperm := List.perm_insertionSort (· ≤ ·) l
          rw [he] at hperm
          exact hne (List.nil_perm.mp hperm)
      have hsorted := congrArg (List.splitOn '\n') hjoin
      rw [hsplit hids hempty, hsplit hids' hempty'] at hsorted
      exact insertionSort_eq_iff_perm.mp hsorted
  · exact digestOf_perm

end Digests

end Zagg.Dedup
