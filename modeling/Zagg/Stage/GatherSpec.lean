import Zagg.Stage.Fold

/-!
# What a gather computes

Against one store of answers a gather is the concatenation of the children's members:
cell `j` of an array is cell `j % span` of child `j / span`, or the fill where that
child has no usable member.
-/
namespace Zagg.Stage

open Zagg.Lib Zagg.Stats

variable {χ V N : Type}

/-- The field names of a declaration are the keys of a mapping. -/
def Fields.Names (fields : Fields V N) : Prop := (fields.map Prod.fst).Nodup

theorem companions_nodup (m : FieldMeta V N) : m.companions.Nodup := by
  cases m with
  | approximate delta location temporal =>
    cases location <;> cases temporal <;> simp [FieldMeta.companions]
  | exact | packed => exact List.nodup_nil

theorem name_of_mem_keys {name : N} {m : FieldMeta V N} {k : ArrayKey N} (h : k ∈ m.keys name) :
    k = m.key name ∨ ∃ c ∈ m.companions, k = .sibling name c := by
  rcases List.mem_cons.mp h with rfl | h
  · exact .inl rfl
  · obtain ⟨c, hc, rfl⟩ := List.mem_map.mp h
    exact .inr ⟨c, hc, rfl⟩

/-- The field an array belongs to. -/
def ArrayKey.name : ArrayKey N → N
  | .exact name | .digest name | .sibling name _ | .packed name => name

theorem key_name (name : N) (m : FieldMeta V N) : (m.key name).name = name := by
  cases m <;> rfl

theorem name_eq_of_mem_keys {name : N} {m : FieldMeta V N} {k : ArrayKey N}
    (h : k ∈ m.keys name) : k.name = name := by
  rcases name_of_mem_keys h with rfl | ⟨c, -, rfl⟩
  · exact key_name name m
  · rfl

theorem keys_nodup (name : N) (m : FieldMeta V N) : (m.keys name).Nodup := by
  refine List.nodup_cons.mpr ⟨fun h => ?_, (companions_nodup m).map fun _ _ h => by
    simpa using h⟩
  obtain ⟨c, -, hc⟩ := List.mem_map.mp h
  cases m <;> cases hc

theorem Fields.keys_nodup {fields : Fields V N} (h : fields.Names) : fields.keys.Nodup := by
  rw [Fields.keys, List.nodup_flatMap]
  refine ⟨fun f _ => Stage.keys_nodup f.1 f.2, ?_⟩
  rw [Fields.Names, List.Nodup, List.pairwise_map] at h
  refine h.imp fun {f g} hne => ?_
  rw [Function.onFun, List.disjoint_left]
  intro k hf hg
  exact hne ((name_eq_of_mem_keys hf).symm.trans (name_eq_of_mem_keys hg))

theorem mem_keys_iff {fields : Fields V N} {k : ArrayKey N} :
    k ∈ fields.keys ↔ ∃ f ∈ fields, k ∈ f.2.keys f.1 := List.mem_flatMap

/-- Segments assigned in order: cell `j` comes from segment `j / span`, if that has values. -/
theorem foldl_assignSegment {α β : Type} (g : α → Option (Nat → β)) {span : Nat}
    (hspan : 0 < span) (init : Nat → β) (j : Nat) (l : List α) :
    (l.zipIdx.foldl (fun slab p => assignSegment p.2 span (g p.1) slab) init) j =
      ((l[j / span]?).bind g).elim (init j) fun v => v (j % span) := by
  induction l using List.reverseRecOn with
  | nil => rfl
  | append_singleton l a ih =>
    rw [List.zipIdx_append, List.foldl_append]
    simp only [List.zipIdx_singleton, List.foldl_cons, List.foldl_nil, Nat.zero_add]
    by_cases hj : j / span = l.length
    · have hget : (l ++ [a])[j / span]? = some a := by rw [hj]; simp
      have hnone : l[j / span]? = none := by rw [hj]; simp
      rw [hnone] at ih
      rw [hget]
      have hlo : l.length * span ≤ j := hj ▸ Nat.div_mul_le_self j span
      have hhi : j < (l.length + 1) * span := by
        rw [← hj, Nat.mul_comm]
        exact Nat.lt_mul_div_succ j hspan
      cases hg : g a with
      | none => simpa [assignSegment, hg] using ih
      | some v =>
        have hmod : j - l.length * span = j % span := by
          rw [← hj, Nat.mod_def, Nat.mul_comm]
        simp [assignSegment, hg, hlo, hhi, hmod]
    · have hget : (l ++ [a])[j / span]? = l[j / span]? := by
        rcases Nat.lt_or_gt_of_ne hj with hlt | hgt
        · rw [List.getElem?_append_left hlt]
        · rw [List.getElem?_eq_none (by simp; omega), List.getElem?_eq_none (by omega)]
      rw [hget, ← ih]
      cases hg : g a with
      | none => rfl
      | some v =>
        refine if_neg fun hin => hj ?_
        exact Nat.div_eq_of_lt_le hin.1 hin.2

variable (f : (q : Query χ N) → Answer V q)

@[simp] theorem run_readArray (r : χ) (res : Nat) (k : ArrayKey N) :
    ReadProg.run f (readArray r res k) = .ok (f ⟨r, res, k⟩) := rfl

/-- Whether a field's arrays are all there or all absent. -/
def whole (r : χ) (res : Nat) (name : N) (declared : List Channel) : Bool :=
  let present := (f ⟨r, res, .digest name⟩).isSome ::
    declared.map fun c => (f ⟨r, res, .sibling name c⟩).isSome
  !present.any id || present.all id

theorem run_companionGroup (r : χ) (res : Nat) (name : N) (declared : List Channel) :
    ReadProg.run f (companionGroup r res name declared) =
      .ok (if whole f r res name declared then
        some (f ⟨r, res, .digest name⟩, declared.map fun c => f ⟨r, res, .sibling name c⟩)
      else none) := by
  simp only [companionGroup, ReadProg.run_bind, run_readArray, ReadProg.run_mapM]
  rw [ReadProg.mapM_ok]
  simp only [ReadProg.ok_bind, List.map_map]
  rw [apply_ite (ReadProg.run f), ReadProg.run_pure, ReadProg.run_pure]
  by_cases hw : whole f r res name declared = true
  · rw [if_pos hw]
    exact if_pos hw
  · rw [if_neg hw]
    exact if_neg hw

/-- The arrays that are read as a group. -/
def ArrayKey.grouped : ArrayKey N → Bool
  | .digest _ | .sibling _ _ => true
  | .exact _ | .packed _ => false

section Gather
variable [DecidableEq N]

def declaredChannels (fields : Fields V N) (name : N) : List Channel :=
  ((fields.lookup name).map FieldMeta.companions).getD []

/-- What a child contributes to one array of a gather: its member, or nothing where
the field's group is refused. -/
def member (fields : Fields V N) (r : χ) (res : Nat) (k : ArrayKey N) : Option (Slab V k) :=
  if !k.grouped || whole f r res k.name (declaredChannels fields k.name) then f ⟨r, res, k⟩
  else none

theorem lookup_of_mem {fields : Fields V N} (h : fields.Names) {g : N × FieldMeta V N}
    (hg : g ∈ fields) : fields.lookup g.1 = some g.2 := by
  induction fields with
  | nil => cases hg
  | cons e fields ih =>
    rw [Fields.Names, List.map_cons, List.nodup_cons] at h
    rw [List.lookup_cons]
    rcases List.mem_cons.mp hg with rfl | hmem
    · rw [beq_self_eq_true]
    · have hne : g.1 ≠ e.1 := fun he => h.1 (he ▸ List.mem_map_of_mem hmem)
      rw [beq_false_of_ne hne]
      exact ih h.2 hmem

theorem declaredChannels_of_mem {fields : Fields V N} (h : fields.Names) {g : N × FieldMeta V N}
    (hg : g ∈ fields) : declaredChannels fields g.1 = g.2.companions := by
  rw [declaredChannels, lookup_of_mem h hg]
  rfl

@[simp] theorem assign_none (slabs : Slabs V N) (k : ArrayKey N) (i span : Nat) :
    slabs.assign k i span none = slabs :=
  Function.update_eq_self k slabs

/-- Arrays assigned one after another, each key once. -/
theorem foldl_assign (i span : Nat) (v : (k : ArrayKey N) → Option (Slab V k))
    (ks : List (ArrayKey N)) (hnd : ks.Nodup) (k : ArrayKey N) : ∀ slabs : Slabs V N,
    ks.foldl (fun s k => s.assign k i span (v k)) slabs k =
      if k ∈ ks then assignSegment i span (v k) (slabs k) else slabs k := by
  induction ks with
  | nil => exact fun _ => rfl
  | cons k' ks ih =>
    intro slabs
    obtain ⟨hk', hnd⟩ := List.nodup_cons.mp hnd
    rw [List.foldl_cons, ih hnd]
    by_cases hk : k = k'
    · subst hk
      rw [if_neg hk', if_pos (List.mem_cons_self ..), assign_self]
    · rw [assign_of_ne _ hk]
      simp only [List.mem_cons, hk, false_or]

/-- The order in which a gather assigns a child's arrays. -/
def gatherKeys (fields : Fields V N) : List (ArrayKey N) :=
  ((fields.filter fun f => f.2.companions ≠ []).flatMap fun f => f.2.keys f.1) ++
    (fields.filter fun f => f.2.companions = []).map fun f => f.2.key f.1

omit [DecidableEq N] in
theorem gatherKeys_perm (fields : Fields V N) : (gatherKeys fields).Perm fields.keys := by
  induction fields with
  | nil => exact .nil
  | cons e fields ih =>
    rw [Fields.keys, List.flatMap_cons]
    by_cases he : e.2.companions = []
    · have hk : e.2.keys e.1 = [e.2.key e.1] := by rw [FieldMeta.keys, he, List.map_nil]
      have hg : gatherKeys (e :: fields) =
          ((fields.filter fun f => f.2.companions ≠ []).flatMap fun f => f.2.keys f.1) ++
            e.2.key e.1 :: (fields.filter fun f => f.2.companions = []).map fun f =>
              f.2.key f.1 := by simp [gatherKeys, he]
      rw [hg, hk]
      exact List.perm_middle.trans (ih.cons _)
    · have hg : gatherKeys (e :: fields) = e.2.keys e.1 ++ gatherKeys fields := by
        simp [gatherKeys, he]
      rw [hg]
      exact ih.append_left _

theorem assignGroup_slabs {fields : Fields V N} (hf : fields.Names) {g : N × FieldMeta V N}
    (hg : g ∈ fields) (hc : g.2.companions ≠ []) (i span : Nat) (r : χ) (res : Nat)
    (st : Slabs V N × Broken) :
    (assignGroup i span st ((g.1, g.2.companions),
      if whole f r res g.1 g.2.companions then
        some (f ⟨r, res, .digest g.1⟩, g.2.companions.map fun c => f ⟨r, res, .sibling g.1 c⟩)
      else none)).1 =
      (g.2.keys g.1).foldl (fun s k => s.assign k i span (member f fields r res k)) st.1 := by
  have hkey : g.2.key g.1 = .digest g.1 := by
    obtain ⟨n, m⟩ := g
    cases m with
    | approximate => rfl
    | exact | packed => exact absurd rfl hc
  have hch := declaredChannels_of_mem hf hg
  have hmem : ∀ k ∈ g.2.keys g.1, member f fields r res k =
      if whole f r res g.1 g.2.companions then f ⟨r, res, k⟩ else none := fun k hk => by
    have hgr : k.grouped = true := by
      rcases name_of_mem_keys hk with rfl | ⟨c, -, rfl⟩
      · rw [hkey]; rfl
      · rfl
    rw [member, name_eq_of_mem_keys hk, hch, hgr]
    rfl
  by_cases hw : whole f r res g.1 g.2.companions = true
  · simp only [hw, if_true] at hmem ⊢
    have hzip : ∀ sibling : Channel → Option (Nat → Words),
        g.2.companions.zip (g.2.companions.map sibling) =
          g.2.companions.map fun c => (c, sibling c) := fun sibling => by
      have hz : (g.2.companions.map id).zip (g.2.companions.map sibling) =
        g.2.companions.map fun c => (c, sibling c) := List.zip_map'
      rwa [List.map_id] at hz
    simp only [assignGroup]
    rw [hzip, List.foldl_map, FieldMeta.keys, List.foldl_cons, List.foldl_map]
    have hd := hmem _ (List.mem_cons_self ..)
    rw [hkey] at hd ⊢
    rw [hd]
    refine List.foldl_ext _ _ _ fun s c hcm => ?_
    rw [hmem _ (List.mem_cons_of_mem _ (List.mem_map_of_mem hcm))]
  · simp only [hw, if_false, Bool.false_eq_true] at hmem ⊢
    have hid : ∀ (ks : List (ArrayKey N)), (∀ k ∈ ks, member f fields r res k = none) →
        ∀ s : Slabs V N, ks.foldl (fun s k => s.assign k i span (member f fields r res k)) s = s := by
      intro ks
      induction ks with
      | nil => exact fun _ _ => rfl
      | cons k ks ih =>
        intro hks s
        rw [List.foldl_cons, hks k (.head _), assign_none]
        exact ih (fun k hk => hks k (.tail _ hk)) s
    exact (hid _ hmem st.1).symm

/-- The declared groups a child carries only in part. -/
def refused (fields : Fields V N) (r : χ) (res : Nat) : Fields V N :=
  (fields.filter fun g => g.2.companions ≠ []).filter fun g =>
    !whole f r res g.1 g.2.companions

/-- One child of a gather assigns its members. -/
theorem run_gatherChild {fields : Fields V N} (hf : fields.Names) (res span i : Nat) (r : χ)
    (st : Slabs V N × Broken) :
    ReadProg.run f (gatherChild fields res span i r st) =
      .ok ((gatherKeys fields).foldl
        (fun s k => s.assign k i span (member f fields r res k)) st.1,
        st.2 ++ (refused f fields r res).map fun _ => (i, 0)) := by
  have hgroups : ∀ (l : Fields V N), (∀ g ∈ l, g ∈ fields ∧ g.2.companions ≠ []) →
      ∀ st : Slabs V N × Broken,
      (l.map fun g => ((g.1, g.2.companions), if whole f r res g.1 g.2.companions then
        some (f ⟨r, res, .digest g.1⟩, g.2.companions.map fun c => f ⟨r, res, .sibling g.1 c⟩)
        else none)).foldl (assignGroup i span) st =
      ((l.flatMap fun g => g.2.keys g.1).foldl
        (fun s k => s.assign k i span (member f fields r res k)) st.1,
        st.2 ++ (l.filter fun g => !whole f r res g.1 g.2.companions).map fun _ => (i, 0)) := by
    intro l
    induction l with
    | nil => exact fun _ st => by simp
    | cons g l ih =>
      intro hl st
      obtain ⟨hg, hc⟩ := hl g (.head _)
      rw [List.map_cons, List.foldl_cons, ih (fun g hg => hl g (.tail _ hg)),
        assignGroup_slabs f hf hg hc, List.flatMap_cons, List.foldl_append]
      congr 1
      by_cases hw : whole f r res g.1 g.2.companions = true
      · simp [assignGroup, hw]
      · simp [assignGroup, hw]
  have hplain : ∀ (l : Fields V N), (∀ g ∈ l, g ∈ fields ∧ g.2.companions = []) →
      ∀ st : Slabs V N × Broken,
      l.foldl (fun st g => (st.1.assign (g.2.key g.1) i span (f ⟨r, res, g.2.key g.1⟩), st.2)) st =
      ((l.map fun g => g.2.key g.1).foldl
        (fun s k => s.assign k i span (member f fields r res k)) st.1, st.2) := by
    intro l
    induction l with
    | nil => exact fun _ _ => rfl
    | cons g l ih =>
      intro hl st
      obtain ⟨hg, hc⟩ := hl g (.head _)
      have hm : member f fields r res (g.2.key g.1) = f ⟨r, res, g.2.key g.1⟩ := by
        rw [member, key_name, declaredChannels_of_mem hf hg, hc]
        refine if_pos ?_
        cases hsome : (f ⟨r, res, .digest g.1⟩).isSome <;> simp [whole, hsome]
      rw [List.foldl_cons, ih (fun g hg => hl g (.tail _ hg)), List.map_cons, List.foldl_cons, hm]
  simp only [gatherChild, ReadProg.run_bind, ReadProg.run_mapM, run_companionGroup,
    ReadProg.run_foldlM, run_readArray, ReadProg.run_pure, ReadProg.ok_bind]
  rw [ReadProg.mapM_ok, ReadProg.ok_bind]
  rw [ReadProg.foldlM_ok, hgroups, hplain, gatherKeys, List.foldl_append]
  · rfl
  · intro g hg
    simpa using hg
  · intro g hg
    simpa using hg

variable [Inhabited V]

/-- Cell `j` of a gathered array is cell `j % span` of child `j / span`. -/
def gathered (rows : Rows χ) (fields : Fields V N) (res span : Nat) (k : ArrayKey N) : Slab V k :=
  fun j => ((rows[j / span]?).bind fun row =>
    (slotReader row 0).bind fun r => member f fields r res k).elim (emptySlabs fields k j)
      fun v => v (j % span)

/-- The contributors a gather refuses. -/
def gatherBroken (rows : Rows χ) (fields : Fields V N) (res : Nat) : Broken :=
  rows.zipIdx.flatMap fun row =>
    match slotReader row.1 0 with
    | some r => (refused f fields r res).map fun _ => (row.2, 0)
    | none => []

/-- A gathered row as a pure step. -/
def gatherStep (fields : Fields V N) (res span : Nat) (st : Slabs V N × Broken)
    (row : Option (Row χ) × Nat) : Slabs V N × Broken :=
  match slotReader row.1 0 with
  | some r => ((gatherKeys fields).foldl
      (fun s k => s.assign k row.2 span (member f fields r res k)) st.1,
    st.2 ++ (refused f fields r res).map fun _ => (row.2, 0))
  | none => st

omit [Inhabited V] in
theorem run_gatherRow {fields : Fields V N} (hf : fields.Names) (res span : Nat)
    (st : Slabs V N × Broken) (row : Option (Row χ) × Nat) :
    ReadProg.run f (gatherRow fields res span st row) =
      .ok (gatherStep f fields res span st row) := by
  simp only [gatherRow, gatherStep]
  cases slotReader row.1 0 with
  | some r => exact run_gatherChild f hf res span row.2 r st
  | none => rfl

omit [Inhabited V] in
theorem foldl_gatherStep {fields : Fields V N} (hf : fields.Names) (res span : Nat)
    {k : ArrayKey N} (hk : k ∈ fields.keys) (l : List (Option (Row χ) × Nat)) :
    ∀ st : Slabs V N × Broken,
      (l.foldl (gatherStep f fields res span) st).1 k =
        l.foldl (fun slab p => assignSegment p.2 span
          ((slotReader p.1 0).bind fun r => member f fields r res k) slab) (st.1 k) := by
  induction l with
  | nil => exact fun _ => rfl
  | cons row l ih =>
    intro st
    rw [List.foldl_cons, List.foldl_cons, ih]
    congr 1
    simp only [gatherStep]
    cases slotReader row.1 0 with
    | none => rfl
    | some r =>
      have hnd := (gatherKeys_perm fields).nodup_iff.mpr (Fields.keys_nodup hf)
      have hmem := (gatherKeys_perm fields).mem_iff.mpr hk
      simp only [Option.bind_some]
      rw [foldl_assign row.2 span (member f fields r res) _ hnd, if_pos hmem]

omit [Inhabited V] in
theorem foldl_gatherStep_broken (fields : Fields V N) (res span : Nat)
    (l : List (Option (Row χ) × Nat)) : ∀ st : Slabs V N × Broken,
      (l.foldl (gatherStep f fields res span) st).2 =
        st.2 ++ l.flatMap fun row =>
          match slotReader row.1 0 with
          | some r => (refused f fields r res).map fun _ => (row.2, 0)
          | none => [] := by
  induction l with
  | nil => exact fun st => (List.append_nil _).symm
  | cons row l ih =>
    intro st
    rw [List.foldl_cons, ih, List.flatMap_cons, ← List.append_assoc]
    congr 1
    simp only [gatherStep]
    cases slotReader row.1 0 with
    | none => exact (List.append_nil _).symm
    | some r => rfl

theorem run_gatherSlabs {fields : Fields V N} (hf : fields.Names) (rows : Rows χ) (res : Nat)
    {span : Nat} (hspan : 0 < span) :
    ∃ slabs, ReadProg.run f (gatherSlabs rows fields res span) =
        .ok (slabs, sourceCounts rows (gatherBroken f rows fields res)) ∧
      ∀ k ∈ fields.keys, slabs k = gathered f rows fields res span k := by
  simp only [gatherSlabs, ReadProg.run_bind, ReadProg.run_foldlM, run_gatherRow f hf,
    ReadProg.run_pure]
  rw [ReadProg.foldlM_ok]
  refine ⟨(rows.zipIdx.foldl (gatherStep f fields res span) (emptySlabs fields, [])).1, ?_,
    fun k hk => ?_⟩
  · have hb := foldl_gatherStep_broken f fields res span rows.zipIdx (emptySlabs fields, [])
    rw [List.nil_append] at hb
    simp only [ReadProg.ok_bind]
    rw [hb]
    rfl
  · rw [foldl_gatherStep f hf res span hk]
    funext j
    have h := foldl_assignSegment
      (fun row : Option (Row χ) => (slotReader row 0).bind fun r => member f fields r res k)
      hspan (emptySlabs fields k) j rows
    rw [gathered]
    exact h

end Gather

end Zagg.Stage
