import Zagg.Hive.Manifest
import Zagg.Windows.LeafNames

/-!
# Leaf paths

A leaf stands under its cell's digits, one directory each, and is named by the whole id. The
check that guards the tree takes a path apart at its slashes, without those around it, and
accepts what the path builder makes.
-/
namespace Zagg.Hive

open Zagg.Lib Zagg.Lib.DecimalText Zagg.Windows

inductive PathError
  | window (e : WindowError)
  | invariant (path : List Char)
deriving DecidableEq

/-- `str.strip("/")`. -/
def stripSlash (s : List Char) : List Char :=
  ((s.dropWhile (· = '/')).reverse.dropWhile (· = '/')).reverse

/-- A component of one digit of `1..4`. -/
def isDigitComponent (name : List Char) : Bool :=
  name.length = 1 && name.all ("1234".toList.contains ·)

/-- The id a leaf's name starts with, if its label is well formed. -/
def leafId (leaf : List Char) : Option (List Char) :=
  match splitLeafName leaf with
  | .ok (fullId, _) => some fullId
  | .error _ => none

/-- The test of `check_node_invariant`. -/
def isNode (relPath : List Char) : Bool :=
  let parts := (stripSlash relPath).splitOn '/'
  let leaf := parts.getLastD []
  let digits := parts.tail.dropLast
  2 ≤ parts.length && zarrSuffix.isSuffixOf leaf && isBaseComponent (String.ofList (parts.headD [])) &&
    digits.all isDigitComponent && leafId leaf = some (parts.headD [] ++ digits.flatten)

def checkNodeInvariant (relPath : List Char) : Except PathError Unit :=
  if isNode relPath then .ok () else .error (.invariant relPath)

/-- `str.removesuffix(".zarr")`. -/
def removeZarr (name : List Char) : List Char :=
  if zarrSuffix <:+ name then name.take (name.length - zarrSuffix.length) else name

/-- The components above a leaf. -/
def components (id : CellId) : List (List Char) := id.head :: id.digits.map fun d => [CellId.digitText d]

def nodePath (id : CellId) (window : Option Label) : List Char :=
  ['/'].intercalate (components id ++ [nameOf id.text window])

/-- The window's leaf at the node of a bare one. -/
def windowedRel (rel : List Char) : Option Label → Except PathError (List Char)
  | none => .ok rel
  | some window =>
    let parts := rel.splitOn '/'
    match leafName (removeZarr (parts.getLastD [])) (some window) with
    | .ok name => .ok (['/'].intercalate parts.dropLast ++ '/' :: name)
    | .error e => .error (.window e)

section Builder
variable (hivePath : CellId → List Char)

/-- The path of a leaf below the store root. -/
def shardLeafRel (id : CellId) (window : Option Label) : Except PathError (List Char) := do
  let rel ← windowedRel (hivePath id) window
  checkNodeInvariant rel
  return rel

/-- The layout that `mortie` owns: the bare leaf under one component a digit. -/
def HiveLayout : Prop := ∀ id, hivePath id = nodePath id none

end Builder

section Components

theorem isBaseComponent_iff {name : List Char} : isBaseComponent (String.ofList name) = true ↔
    ∃ negative base, name = CellId.head ⟨negative, base, []⟩ := by
  have hbase {ch : Char} (h : ch ∈ ['1', '2', '3', '4', '5', '6']) :
      ∃ d : Fin 6, ch = CellId.digitText d := by
    have hdigits : ['1', '2', '3', '4', '5', '6'] = (List.finRange 6).map CellId.digitText := by
      decide
    rw [hdigits, List.mem_map] at h
    obtain ⟨d, -, rfl⟩ := h
    exact ⟨d, rfl⟩
  constructor
  · intro h
    unfold isBaseComponent at h
    rw [String.toList_ofList] at h
    simp only at h
    split at h
    · rename_i ch hname
      obtain ⟨d, rfl⟩ := hbase (of_decide_eq_true h)
      split at hname
      · exact ⟨true, d, by rw [hname]; rfl⟩
      · exact ⟨false, d, hname⟩
    · exact nomatch h
  · intro ⟨negative, d, h⟩
    subst h
    revert negative d
    decide

theorem isDigitComponent_iff {name : List Char} : isDigitComponent name = true ↔
    ∃ d : Fin 4, name = [CellId.digitText d] := by
  constructor
  · intro h
    rw [isDigitComponent, Bool.and_eq_true, decide_eq_true_eq] at h
    obtain ⟨ch, rfl⟩ := List.length_eq_one_iff.mp h.1
    have hmem : ch ∈ "1234".toList := by simpa using h.2
    have hdigits : "1234".toList = (List.finRange 4).map CellId.digitText := by decide
    rw [hdigits, List.mem_map] at hmem
    obtain ⟨d, -, rfl⟩ := hmem
    exact ⟨d, rfl⟩
  · intro ⟨d, h⟩
    subst h
    revert d
    decide

theorem all_isDigitComponent {names : List (List Char)} : names.all isDigitComponent = true ↔
    ∃ ds : List (Fin 4), names = ds.map fun d => [CellId.digitText d] := by
  constructor
  · intro h
    induction names with
    | nil => exact ⟨[], rfl⟩
    | cons name names ih =>
      rw [List.all_cons, Bool.and_eq_true] at h
      obtain ⟨d, rfl⟩ := isDigitComponent_iff.mp h.1
      obtain ⟨ds, rfl⟩ := ih h.2
      exact ⟨d :: ds, rfl⟩
  · intro ⟨ds, h⟩
    rw [h, List.all_map, List.all_eq_true]
    intro d _
    exact isDigitComponent_iff.mpr ⟨d, rfl⟩

theorem flatten_digits (ds : List (Fin 4)) :
    (ds.map fun d => [CellId.digitText d]).flatten = ds.map CellId.digitText := by
  induction ds with
  | nil => rfl
  | cons d ds ih => rw [List.map_cons, List.flatten_cons, ih]; rfl

end Components

section Nodes

/-- A label that some schedule's grammar has. -/
def Legal (window : Label) : Prop := ∃ schedule : Schedule, schedule.pattern window = true

/-- The labels of the schedules are all of the explicit grammar. -/
theorem Legal.pattern {window : Label} (h : Legal window) : labelPattern window = true := by
  obtain ⟨schedule, h⟩ := h
  cases schedule with
  | none | explicit => exact h
  | generative c =>
    have hchars := isLabelChar_of_pattern _ h
    have hlen : window.length = c.width := beq_iff_eq.mp (Bool.and_eq_true_iff.mp h).1
    have hwidth : 1 ≤ c.width ∧ c.width ≤ 32 := by cases c <;> decide
    rw [labelPattern, List.all_eq_true.mpr hchars, Bool.and_true, Bool.and_eq_true,
      decide_eq_true_eq, decide_eq_true_eq]
    omega

/-- The labels that are matched, and those that are legal but for a newline behind them. -/
def Matched (window : Option Label) : Prop := ∀ w ∈ window, matchesToEnd labelPattern w = true

theorem Matched.of_legal {window : Option Label} (h : ∀ w ∈ window, Legal w) : Matched window := by
  intro w hw
  have hp := (h w hw).pattern
  rw [matchesToEnd, hp, Bool.true_or]

theorem not_mem_name {id : CellId} {window : Option Label} (h : Matched window) :
    '/' ∉ nameOf id.text window := by
  have hid := not_mem_text id (show isLabelChar '/' = false by decide)
  have hsuffix : '/' ∉ zarrSuffix := by decide
  cases window with
  | none =>
    rw [nameOf, List.mem_append]
    exact fun hmem => hmem.elim hid hsuffix
  | some w =>
    rw [nameOf, List.mem_append, List.mem_cons, List.mem_append]
    intro hmem
    rcases hmem with hmem | hmem | hmem | hmem
    · exact hid hmem
    · exact absurd hmem (by decide)
    · cases chars_of_matches (h w rfl) _ hmem with
      | inl hchar => exact absurd hchar (by decide)
      | inr hchar => exact absurd hchar (by decide)
    · exact hsuffix hmem

theorem not_mem_component {id : CellId} {name : List Char} (h : name ∈ components id) :
    '/' ∉ name := by
  intro hmem
  cases List.mem_cons.mp h with
  | inl h =>
    rw [h] at hmem
    exact absurd (isLabelChar_head hmem) (by decide)
  | inr h =>
    obtain ⟨d, -, rfl⟩ := List.mem_map.mp h
    rw [List.mem_singleton] at hmem
    have hchar := isLabelChar_digit d
    rw [← hmem] at hchar
    exact absurd hchar (by decide)

theorem splitOn_nodePath {id : CellId} {window : Option Label} (h : Matched window) :
    (nodePath id window).splitOn '/' = components id ++ [nameOf id.text window] := by
  apply List.splitOn_intercalate
  · intro name hname
    cases List.mem_append.mp hname with
    | inl hname => exact not_mem_component hname
    | inr hname =>
      rw [List.mem_singleton.mp hname]
      exact not_mem_name h
  · exact List.append_ne_nil_of_right_ne_nil _ (List.cons_ne_nil _ _)

theorem suffix_nameOf (fullId : List Char) (window : Option Label) :
    zarrSuffix <:+ nameOf fullId window := by
  cases window with
  | none => exact List.suffix_append ..
  | some w => exact ⟨fullId ++ '_' :: w, by rw [nameOf, List.append_assoc]; rfl⟩

theorem leafId_eq {leaf fullId : List Char} : leafId leaf = some fullId ↔
    ∃ window, splitLeafName leaf = .ok (fullId, window) := by
  unfold leafId
  split
  · rename_i h
    rw [h]
    constructor
    · intro he
      cases he
      exact ⟨_, rfl⟩
    · intro ⟨_, he⟩
      cases he
      rfl
  · rename_i h
    rw [h]
    exact ⟨nofun, fun ⟨_, he⟩ => nomatch he⟩

theorem text_eq (id : CellId) :
    id.text = id.head ++ (id.digits.map fun d => [CellId.digitText d]).flatten := by
  rw [flatten_digits]
  rfl

theorem parts_eq {α : Type} {parts : List α} {d : α} (h : 2 ≤ parts.length) :
    parts = parts.headD d :: (parts.tail.dropLast ++ [parts.getLastD d]) := by
  match parts, h with
  | first :: second :: rest, _ =>
    have hlast : (first :: second :: rest).getLastD d =
        (second :: rest).getLast (List.cons_ne_nil _ _) := rfl
    rw [hlast, List.tail_cons, List.dropLast_append_getLast]
    rfl

/-- Without the slashes around it, a node path is a built one. -/
theorem isNode_iff {path : List Char} : isNode path = true ↔
    ∃ id window, Matched window ∧ stripSlash path = nodePath id window := by
  have hjoin : ['/'].intercalate ((stripSlash path).splitOn '/') = stripSlash path :=
    List.intercalate_splitOn _
  constructor
  · intro h
    simp only [isNode, Bool.and_eq_true, decide_eq_true_eq] at h
    obtain ⟨⟨⟨⟨hlen, -⟩, hbase⟩, hdigits⟩, hid⟩ := h
    have hparts := parts_eq (d := []) hlen
    obtain ⟨negative, base, hfirst⟩ := isBaseComponent_iff.mp hbase
    obtain ⟨ds, hds⟩ := all_isDigitComponent.mp hdigits
    obtain ⟨window, hsplit⟩ := leafId_eq.mp hid
    obtain ⟨hleaf, -, hw⟩ := of_splitLeafName hsplit
    refine ⟨⟨negative, base, ds⟩, window, hw, ?_⟩
    rw [← hjoin, hparts, hleaf, hfirst, hds, nodePath, text_eq]
    rfl
  · intro ⟨id, window, hw, hpath⟩
    have hsplit : (nodePath id window).splitOn '/' = components id ++ [nameOf id.text window] :=
      splitOn_nodePath hw
    have hname := splitLeafName_nameOf (not_mem_text id (by decide)) hw
    rw [isNode, hpath, hsplit]
    have hlast : (components id ++ [nameOf id.text window]).getLastD [] = nameOf id.text window := by
      rw [List.getLastD_eq_getLast?, List.getLast?_concat]
      rfl
    have hdigits : (components id ++ [nameOf id.text window]).tail.dropLast =
        id.digits.map fun d => [CellId.digitText d] := by
      rw [components, List.cons_append, List.tail_cons, List.dropLast_concat]
    have hlen : 2 ≤ (components id ++ [nameOf id.text window]).length := by
      rw [List.length_append, components, List.length_cons, List.length_singleton]
      omega
    have hhead : (components id ++ [nameOf id.text window]).headD [] = id.head := rfl
    have hbase : isBaseComponent (String.ofList id.head) = true := isBaseComponent_iff.mpr ⟨_, _, rfl⟩
    have hsuffix : zarrSuffix.isSuffixOf (nameOf id.text window) = true :=
      List.isSuffixOf_iff_suffix.mpr (suffix_nameOf ..)
    have hleaf : leafId (nameOf id.text window) = some id.text := leafId_eq.mpr ⟨window, hname⟩
    simp only [hlast, hdigits, hhead, hbase, hsuffix, hleaf, ← text_eq, decide_eq_true hlen,
      all_isDigitComponent.mpr ⟨_, rfl⟩, decide_true, Bool.and_true]

end Nodes

section Builds

theorem stripSlash_eq {s : List Char} (hfirst : s.head? ≠ some '/') (hlast : s.getLast? ≠ some '/') :
    stripSlash s = s := by
  have hdrop {t : List Char} (h : t.head? ≠ some '/') : t.dropWhile (· = '/') = t := by
    cases t with
    | nil => rfl
    | cons ch t =>
      have hne : ¬decide (ch = '/') = true := fun he => h (congrArg some (of_decide_eq_true he))
      exact List.dropWhile_cons_of_neg hne
  have hreverse : s.reverse.head? ≠ some '/' := by
    rw [List.head?_reverse]
    exact hlast
  rw [stripSlash, hdrop hfirst, hdrop hreverse, List.reverse_reverse]

theorem intercalate_concat {α : Type} (sep : α) {parts : List (List α)} (h : parts ≠ [])
    (last : List α) :
    [sep].intercalate (parts ++ [last]) = [sep].intercalate parts ++ sep :: last := by
  induction parts with
  | nil => exact absurd rfl h
  | cons first parts ih =>
    cases parts with
    | nil =>
      rw [List.singleton_append, List.intercalate_cons_cons, List.intercalate_singleton,
        List.intercalate_singleton, List.append_assoc, List.singleton_append]
    | cons second parts =>
      rw [List.cons_append, List.cons_append, List.intercalate_cons_cons, ← List.cons_append,
        ih (List.cons_ne_nil _ _), List.intercalate_cons_cons, List.append_assoc, List.append_assoc,
        List.append_assoc]

theorem nodePath_eq (id : CellId) (window : Option Label) :
    nodePath id window = ['/'].intercalate (components id) ++ '/' :: nameOf id.text window :=
  intercalate_concat '/' (List.cons_ne_nil _ _) _

/-- A path below the components of an id starts with a sign or a digit. -/
theorem head_intercalate (id : CellId) {rest : List (List Char)} (h : rest ≠ []) :
    ∃ ch tail, ['/'].intercalate (id.head :: rest) = ch :: tail ∧ isLabelChar ch = true := by
  obtain ⟨ch, tail, hhead⟩ : ∃ ch tail, id.head = ch :: tail := by
    cases hneg : id.negative with
    | true => exact ⟨_, _, by rw [CellId.head, hneg]; rfl⟩
    | false => exact ⟨_, _, by rw [CellId.head, hneg]; rfl⟩
  have hchar : isLabelChar ch = true := isLabelChar_head (by rw [hhead]; exact List.mem_cons_self ..)
  rw [List.intercalate_cons_of_ne_nil h, hhead]
  exact ⟨ch, _, rfl, hchar⟩

theorem stripSlash_nodePath (id : CellId) (window : Option Label) :
    stripSlash (nodePath id window) = nodePath id window := by
  apply stripSlash_eq
  · obtain ⟨ch, tail, hpath, hchar⟩ := head_intercalate id
      (List.append_ne_nil_of_right_ne_nil (id.digits.map _) (List.cons_ne_nil (nameOf id.text window) _))
    rw [nodePath, components, List.cons_append, hpath, List.head?_cons]
    intro h
    rw [Option.some.inj h] at hchar
    exact absurd hchar (by decide)
  · obtain ⟨stem, hname⟩ := suffix_nameOf id.text window
    have hend : (stem ++ zarrSuffix).getLast? = some 'r' := by
      rw [List.getLast?_append]
      rfl
    rw [nodePath_eq, List.getLast?_append, List.getLast?_cons, ← hname, hend, Option.some_or]
    decide

theorem isNode_nodePath {id : CellId} {window : Option Label} (h : Matched window) :
    isNode (nodePath id window) = true :=
  isNode_iff.mpr ⟨id, window, h, stripSlash_nodePath id window⟩

theorem removeZarr_append (stem : List Char) : removeZarr (stem ++ zarrSuffix) = stem := by
  rw [removeZarr, if_pos (List.suffix_append ..), stem_append]

/-- A bare leaf's path becomes that of a window whose label is matched. -/
theorem windowedRel_nodePath {id : CellId} {window : Option Label} {rel : List Char} :
    windowedRel (nodePath id none) window = .ok rel ↔ rel = nodePath id window ∧ Matched window := by
  have hnone : Matched none := nofun
  cases window with
  | none => exact ⟨fun h => ⟨(Except.ok.inj h).symm, hnone⟩, fun h => congrArg Except.ok h.1.symm⟩
  | some w =>
    have hbare : removeZarr ((components id ++ [nameOf id.text none]).getLastD []) = id.text := by
      rw [List.getLastD_eq_getLast?, List.getLast?_concat]
      exact removeZarr_append id.text
    simp only [windowedRel, splitOn_nodePath hnone, hbare, List.dropLast_concat]
    cases hname : leafName id.text (some w) with
    | ok name =>
      obtain ⟨rfl, hw⟩ := leafName_ok.mp hname
      simp only [← nodePath_eq]
      exact ⟨fun h => ⟨(Except.ok.inj h).symm, hw⟩, fun h => congrArg Except.ok h.1.symm⟩
    | error e =>
      constructor
      · intro h
        exact nomatch h
      · intro ⟨_, hw⟩
        rw [leafName_ok.mpr ⟨rfl, hw⟩] at hname
        exact nomatch hname

/-- What the builder makes of the paths it is given: the node path of every matched label. -/
theorem shardLeafRel_ok {hivePath : CellId → List Char} (layout : HiveLayout hivePath) {id : CellId}
    {window : Option Label} {rel : List Char} :
    shardLeafRel hivePath id window = .ok rel ↔ rel = nodePath id window ∧ Matched window := by
  show (windowedRel (hivePath id) window >>= fun rel => checkNodeInvariant rel >>= fun _ => .ok rel) =
    .ok rel ↔ _
  rw [layout id]
  cases hrel : windowedRel (nodePath id none) window with
  | ok built =>
    obtain ⟨rfl, hw⟩ := windowedRel_nodePath.mp hrel
    have hcheck : checkNodeInvariant (nodePath id window) = .ok () := by
      rw [checkNodeInvariant, if_pos (isNode_nodePath hw)]
    show (checkNodeInvariant (nodePath id window) >>= fun _ => .ok (nodePath id window)) = _ ↔ _
    rw [hcheck]
    exact ⟨fun h => ⟨(Except.ok.inj h).symm, hw⟩, fun h => congrArg Except.ok h.1.symm⟩
  | error e =>
    constructor
    · intro h
      exact nomatch h
    · intro h
      rw [windowedRel_nodePath.mpr h] at hrel
      exact nomatch hrel

end Builds

section Grammar

/-- A matched label without a newline is legal. -/
theorem Matched.legal {window : Option Label} (h : Matched window)
    (hnewline : ∀ w ∈ window, '\n' ∉ w) : ∀ w ∈ window, Legal w := by
  intro w hw
  have hlast : w.getLast? ≠ some '\n' := fun hlast => hnewline w hw (List.mem_of_getLast? hlast)
  exact ⟨.explicit, (matchesToEnd_iff hlast).mp (h w hw)⟩

theorem mem_of_mem_stripSlash {s : List Char} {ch : Char} (h : ch ∈ stripSlash s) : ch ∈ s := by
  rw [stripSlash, List.mem_reverse] at h
  have hmem := (List.dropWhile_sublist _).mem h
  exact (List.dropWhile_sublist _).mem (List.mem_reverse.mp hmem)

theorem mem_nodePath {id : CellId} {w : Label} {ch : Char} (h : ch ∈ w) :
    ch ∈ nodePath id (some w) := by
  rw [nodePath_eq, nameOf]
  simp only [List.mem_append, List.mem_cons]
  exact .inr (.inr (.inr (.inr (.inl h))))

/-- The labels that are validated are those of the schedule's grammar; a leaf's name gives its id
and window back, so that no two leaves share one; and the paths that pass, but for the slashes
around them, are the built ones. -/
theorem leaf_grammar (hivePath : CellId → List Char) (layout : HiveLayout hivePath) :
    (∀ schedule label label', label.getLast? ≠ some '\n' →
      (validateLabel label schedule = .ok label' ↔
        label' = label ∧ schedule.pattern label = true)) ∧
    (∀ (id : CellId) window, (∀ w ∈ window, Legal w) →
      ∃ name, leafName id.text window = .ok name ∧ splitLeafName name = .ok (id.text, window)) ∧
    (∀ (id id' : CellId) window window', (∀ w ∈ window, Legal w) → (∀ w ∈ window', Legal w) →
      leafName id.text window = leafName id'.text window' → id = id' ∧ window = window') ∧
    ∀ path, '\n' ∉ path → (checkNodeInvariant path = .ok () ↔
      ∃ id window, (∀ w ∈ window, Legal w) ∧
        shardLeafRel hivePath id window = .ok (stripSlash path)) := by
  have hsplit (id : CellId) {window : Option Label} (h : ∀ w ∈ window, Legal w) :
      leafName id.text window = .ok (nameOf id.text window) ∧
        splitLeafName (nameOf id.text window) = .ok (id.text, window) :=
    ⟨leafName_ok.mpr ⟨rfl, Matched.of_legal h⟩,
      splitLeafName_nameOf (not_mem_text id (by decide)) (Matched.of_legal h)⟩
  refine ⟨?_, ?_, ?_, ?_⟩
  · intro schedule label label' hlast
    rw [validateLabel_ok, matchesToEnd_iff hlast]
  · intro id window h
    exact ⟨_, hsplit id h⟩
  · intro id id' window window' h h' hnames
    rw [(hsplit id h).1, (hsplit id' h').1] at hnames
    have hback := (hsplit id h).2
    rw [Except.ok.inj hnames, (hsplit id' h').2] at hback
    obtain ⟨htext, hwindow⟩ := Prod.mk.inj (Except.ok.inj hback)
    exact ⟨text_inj htext.symm, hwindow.symm⟩
  · intro path hpath
    have hcheck : checkNodeInvariant path = .ok () ↔ isNode path = true := by
      rw [checkNodeInvariant]
      split
      · exact iff_of_true rfl ‹_›
      · exact iff_of_false nofun ‹_›
    rw [hcheck, isNode_iff]
    constructor
    · intro ⟨id, window, hw, hnode⟩
      refine ⟨id, window, hw.legal ?_, (shardLeafRel_ok layout).mpr ⟨hnode, hw⟩⟩
      intro w hwindow hnewline
      apply hpath
      apply mem_of_mem_stripSlash
      rw [hnode, Option.mem_def.mp hwindow]
      exact mem_nodePath hnewline
    · intro ⟨id, window, _, hrel⟩
      obtain ⟨hnode, hw⟩ := (shardLeafRel_ok layout).mp hrel
      exact ⟨id, window, hw, hnode⟩

theorem leaf_grammar_windowed :
    validateLabel "2024".toList (.generative .yearly) = .ok "2024".toList ∧
    checkNodeInvariant "/-4/2/1/-421_2024.zarr".toList = .ok () := by
  have h := leaf_grammar (fun id => nodePath id none) fun _ => rfl
  constructor
  · exact (h.1 _ _ _ (by decide)).mpr ⟨rfl, by decide⟩
  · apply (h.2.2.2 _ (by decide)).mpr
    refine ⟨⟨true, 3, [1, 0]⟩, some "2024".toList, ?_, by decide⟩
    intro w hw
    cases hw
    exact ⟨.generative .yearly, by decide⟩

end Grammar

section Groupings

/-- The path of a leaf whose digits stand `grouping` to a component. -/
def groupedPath (grouping : Nat) (id : CellId) (window : Option Label) : List Char :=
  ['/'].intercalate
    (id.head :: (id.digits.map CellId.digitText).toChunks grouping ++ [nameOf id.text window])

/-- A path in slashes, which no layout builds, passes; one of two digits to a component does not. -/
theorem node_invariant_exact_fails :
    (checkNodeInvariant "/4/2/42.zarr".toList = .ok () ∧
      ∀ grouping id window, groupedPath grouping id window ≠ "/4/2/42.zarr".toList) ∧
    groupedPath 2 ⟨true, 3, [1, 0]⟩ none = "-4/21/-421.zarr".toList ∧
    checkNodeInvariant "-4/21/-421.zarr".toList = .error (.invariant "-4/21/-421.zarr".toList) := by
  refine ⟨⟨by decide, ?_⟩, by decide, by decide⟩
  intro grouping id window h
  obtain ⟨ch, tail, hpath, hchar⟩ := head_intercalate id (List.append_ne_nil_of_right_ne_nil
    ((id.digits.map CellId.digitText).toChunks grouping)
    (List.cons_ne_nil (nameOf id.text window) _))
  rw [groupedPath, List.cons_append, hpath] at h
  rw [(List.cons.inj h).1] at hchar
  exact absurd hchar (by decide)

end Groupings

end Zagg.Hive
