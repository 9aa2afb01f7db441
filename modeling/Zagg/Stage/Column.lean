import Mathlib.Data.Finset.Lattice.Fold
import Zagg.Column.Reader
import Zagg.Stage.Fold

/-!
# Stored columns and their generation triple

A committed column records, beside its arrays, what the skip gate reads: a stage
column its summed `generation` block, a leaf column nothing but its stamp. A parent
sums the triples of its children: leaf counts add up, timestamps keep the newest, run
ids unite. The run ids are compared as a set, so a block is its own key.
-/
namespace Zagg.Stage

variable {V N R : Type}

/-- `time_range`, both ends in UTC. -/
abbrev TimeRange := Nat × Nat

def unionTimeRange (ranges : List TimeRange) : Option TimeRange :=
  match (ranges.map Prod.fst).min?, (ranges.map Prod.snd).max? with
  | some lo, some hi => some (lo, hi)
  | _, _ => none

/-- A column's commit stamp with the provenance it carries. -/
structure CommitStamp (R : Type) extends Column.Stamp R where
  granuleCount : Nat
  timeRange : Option TimeRange
deriving DecidableEq

/-- The `generation` block; its run ids are a set. -/
structure GenerationBlock (R : Type) where
  nLeaves : Nat
  maxLeafTimestamp : Option Nat
  runIds : Finset R
deriving DecidableEq

/-- A committed column; a leaf column records no `generation`. -/
structure StoredColumn (V N R : Type) where
  stamp : CommitStamp R
  generation : Option (GenerationBlock R)
  arrays : (res : Nat) → (k : ArrayKey N) → Option (Slab V k)

section
variable [DecidableEq R]

/-- One child's contribution: its block, or the leaf identity at its stamp's timestamp,
united with the run id that stamped the child itself. -/
def stampedGenerationKey (block : Option (GenerationBlock R)) (stamp : CommitStamp R) :
    GenerationBlock R :=
  let base := block.getD ⟨1, some stamp.writtenAt, ∅⟩
  { base with runIds := base.runIds ∪ stamp.runId.toFinset }

/-- `_ColumnReader.generation`. -/
def StoredColumn.key (c : StoredColumn V N R) : GenerationBlock R :=
  stampedGenerationKey c.generation c.stamp

/-- The ratchet key: the children's triples summed. -/
def summedGeneration (keys : List (GenerationBlock R)) : GenerationBlock R where
  nLeaves := (keys.map GenerationBlock.nLeaves).sum
  maxLeafTimestamp := (keys.filterMap GenerationBlock.maxLeafTimestamp).max?
  runIds := keys.foldr (fun k runs => k.runIds ∪ runs) ∅

theorem mem_runIds_summed {keys : List (GenerationBlock R)} {r : R} :
    r ∈ (summedGeneration keys).runIds ↔ ∃ k ∈ keys, r ∈ k.runIds := by
  induction keys with
  | nil => simp [summedGeneration]
  | cons k keys ih =>
    simp only [summedGeneration, List.foldr_cons, Finset.mem_union] at ih ⊢
    rw [ih]
    simp

/-- No child is newer than the sum. -/
theorem le_max_summed {keys : List (GenerationBlock R)} {k : GenerationBlock R} (hk : k ∈ keys)
    {t : Nat} (ht : k.maxLeafTimestamp = some t) :
    ∃ m, (summedGeneration keys).maxLeafTimestamp = some m ∧ t ≤ m := by
  have hmem : t ∈ keys.filterMap GenerationBlock.maxLeafTimestamp :=
    List.mem_filterMap.mpr ⟨k, hk, ht⟩
  cases hm : (keys.filterMap GenerationBlock.maxLeafTimestamp).max? with
  | none => rw [List.max?_eq_none_iff.mp hm] at hmem; cases hmem
  | some m => exact ⟨m, hm, (List.max?_eq_some_iff.mp hm).2 t hmem⟩

theorem runId_mem_key {c : StoredColumn V N R} {r : R} (h : c.stamp.runId = some r) :
    r ∈ c.key.runIds := by
  simp [StoredColumn.key, stampedGenerationKey, h]

theorem max_key_leaf {c : StoredColumn V N R} (h : c.generation = none) :
    c.key.maxLeafTimestamp = some c.stamp.writtenAt := by
  simp [StoredColumn.key, stampedGenerationKey, h]

/-- A column that no sum over the columns `seen` covers: a leaf column newer than all they
count, or one stamped by a run they do not name. -/
def NewerThan (seen : StoredColumn V N R → Prop) (c : StoredColumn V N R) : Prop :=
  (c.generation = none ∧
    ∀ s, seen s → ∀ t, s.key.maxLeafTimestamp = some t → t < c.stamp.writtenAt) ∨
    ∃ r, c.stamp.runId = some r ∧ ∀ s, seen s → r ∉ s.key.runIds

/-- A sum over a newer column is another triple than any sum over columns seen before. -/
theorem summed_ne_of_newer {seen : StoredColumn V N R → Prop} {c : StoredColumn V N R}
    (old : List (StoredColumn V N R)) {now : List (StoredColumn V N R)} (hc : c ∈ now) (h : NewerThan seen c)
    (hold : ∀ s ∈ old, seen s) :
    summedGeneration (now.map StoredColumn.key) ≠ summedGeneration (old.map StoredColumn.key) := by
  have hkey : c.key ∈ now.map StoredColumn.key := List.mem_map_of_mem hc
  intro heq
  rcases h with ⟨hleaf, hnew⟩ | ⟨r, hr, hnot⟩
  · obtain ⟨m, hm, hle⟩ := le_max_summed hkey (max_key_leaf hleaf)
    rw [heq] at hm
    obtain ⟨k, hk, hkm⟩ := List.mem_filterMap.mp (List.max?_mem hm)
    obtain ⟨s, hs, rfl⟩ := List.mem_map.mp hk
    have hlt := hnew s (hold s hs) m hkm
    omega
  · have hmem := mem_runIds_summed.mpr ⟨_, hkey, runId_mem_key hr⟩
    rw [heq] at hmem
    obtain ⟨k, hk, hrk⟩ := mem_runIds_summed.mp hmem
    obtain ⟨s, hs, rfl⟩ := List.mem_map.mp hk
    exact hnot s (hold s hs) hrk

/-- A column the fleet wrote. -/
structure StoredColumn.IsLeaf (c : StoredColumn V N R) : Prop where
  generation : c.generation = none
  runId : c.stamp.runId = none

theorem StoredColumn.IsLeaf.key_eq {c : StoredColumn V N R} (h : c.IsLeaf) :
    c.key = ⟨1, some c.stamp.writtenAt, ∅⟩ := by
  simp [StoredColumn.key, stampedGenerationKey, h.generation, h.runId]

/-- The sum over leaf columns counts them and keeps the newest stamp. -/
theorem summed_leaves {cs : List (StoredColumn V N R)} (h : ∀ c ∈ cs, c.IsLeaf) :
    summedGeneration (cs.map StoredColumn.key) =
      ⟨cs.length, (cs.map fun c => c.stamp.writtenAt).max?, ∅⟩ := by
  have hkeys : cs.map StoredColumn.key =
      cs.map fun c => (⟨1, some c.stamp.writtenAt, ∅⟩ : GenerationBlock R) :=
    List.map_congr_left fun c hc => (h c hc).key_eq
  rw [hkeys, summedGeneration]
  congr 1
  · simp [Function.comp_def]
  · rw [List.filterMap_map]
    exact congrArg List.max? (congrFun List.filterMap_eq_map cs)
  · induction cs with
    | nil => rfl
    | cons c cs ih =>
      rw [List.map_cons, List.foldr_cons, ih (fun c hc => h c (.tail _ hc)) ?_]
      · rfl
      · exact List.map_congr_left fun c hc => (h c (.tail _ hc)).key_eq

/-- Over leaf columns that were only replaced by newer ones, the sum stays iff none is
newer than all of the old ones. -/
theorem summed_leaves_eq_iff {χ : Type} {rs : List χ} (old now : χ → StoredColumn V N R)
    (hold : ∀ r ∈ rs, (old r).IsLeaf) (hnow : ∀ r ∈ rs, (now r).IsLeaf)
    (hle : ∀ r ∈ rs, (old r).stamp.writtenAt ≤ (now r).stamp.writtenAt) :
    summedGeneration (rs.map fun r => (now r).key) =
        summedGeneration (rs.map fun r => (old r).key) ↔
      ∀ r ∈ rs, ∃ r' ∈ rs, (now r).stamp.writtenAt ≤ (old r').stamp.writtenAt := by
  have hsum : ∀ f : χ → StoredColumn V N R, (∀ r ∈ rs, (f r).IsLeaf) →
      summedGeneration (rs.map fun r => (f r).key) =
        ⟨rs.length, (rs.map fun r => (f r).stamp.writtenAt).max?, ∅⟩ := by
    intro f hf
    have h := summed_leaves (List.forall_mem_map.mpr hf)
    rw [List.map_map, List.map_map, List.length_map] at h
    exact h
  rw [hsum now hnow, hsum old hold, GenerationBlock.mk.injEq]
  simp only [true_and, and_true]
  constructor
  · intro hmax r hr
    cases hm : (rs.map fun r => (old r).stamp.writtenAt).max? with
    | none => rw [List.max?_eq_none_iff, List.map_eq_nil_iff] at hm; rw [hm] at hr; cases hr
    | some m =>
      rw [hm] at hmax
      obtain ⟨r', hr', hstamp⟩ := List.mem_map.mp (List.max?_mem hm)
      exact ⟨r', hr', hstamp ▸ (List.max?_eq_some_iff.mp hmax).2 _ (List.mem_map_of_mem hr)⟩
  · intro hcovered
    cases hm : (rs.map fun r => (old r).stamp.writtenAt).max? with
    | none =>
      rw [List.max?_eq_none_iff, List.map_eq_nil_iff] at hm
      rw [hm]
      rfl
    | some m =>
      obtain ⟨r, hr, hstamp⟩ := List.mem_map.mp (List.max?_mem hm)
      have hold' := (List.max?_eq_some_iff.mp hm).2
      have hbound : ∀ r' ∈ rs, (now r').stamp.writtenAt ≤ m := fun r' hr' =>
        let ⟨r'', hr'', hle'⟩ := hcovered r' hr'
        hle'.trans (hold' _ (List.mem_map_of_mem hr''))
      have hsame : (now r).stamp.writtenAt = m :=
        Nat.le_antisymm (hbound r hr) (hstamp ▸ hle r hr)
      refine List.max?_eq_some_iff.mpr ⟨hsame ▸ List.mem_map_of_mem hr, fun b hb => ?_⟩
      obtain ⟨r', hr', rfl⟩ := List.mem_map.mp hb
      exact hbound r' hr'

end

end Zagg.Stage
