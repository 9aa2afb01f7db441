import Zagg.Processing.PlanRows
import Zagg.Processing.PointRead

/-!
# Equal selections

The two ways of reading differ in the rows they decode and in the mask over these. Where the
mask selects the same rows of every base-rate column, the filters and the assembled columns
are the same.
-/
namespace Zagg.Processing

open Zagg.Lib

section Columns
variable {β C S : Type} (env : Env β C S)

theorem predicateColumn_mapRows (p : Predicate β) (d : Dataset β) (f : List β → List β) :
    predicateColumn p (d.mapRows f) = (predicateColumn p d).map f := by
  cases d with
  | flat l =>
    simp only [Dataset.mapRows, predicateColumn]
    split_ifs <;> rfl
  | wide cs =>
    simp only [Dataset.mapRows, predicateColumn]
    cases p.column with
    | none => rfl
    | some k =>
      simp only [List.getElem?_map, List.length_map]
      cases cs[k]? <;> rfl

theorem selectColumn_mapRows (v : Variable) (d : Dataset β) (f : List β → List β) :
    selectColumn v (d.mapRows f) = (selectColumn v d).map f := by
  cases d with
  | flat l =>
    simp only [Dataset.mapRows, selectColumn]
    split_ifs <;> rfl
  | wide cs =>
    simp only [Dataset.mapRows, selectColumn]
    cases v.column with
    | none => rfl
    | some k =>
      simp only [List.getElem?_map, List.length_map]
      cases cs[k]? <;> rfl

namespace Dataset

def columns : Dataset β → List (List β)
  | .flat l => [l]
  | .wide cs => cs

/-- Every column has one value a row. -/
def HasRows (d : Dataset β) (n : Nat) : Prop := ∀ l ∈ d.columns, l.length = n

theorem mapRows_mapRows (d : Dataset β) (f g : List β → List β) : (d.mapRows f).mapRows g = d.mapRows (g ∘ f) := by
  cases d with
  | flat l => rfl
  | wide cs => rw [mapRows, mapRows, mapRows, List.map_map]

end Dataset

theorem mem_of_predicateColumn {p : Predicate β} {d : Dataset β} {l : List β}
    (h : predicateColumn p d = .ok l) : l ∈ d.columns := by
  cases d with
  | flat l' =>
    simp only [predicateColumn] at h
    split_ifs at h
    exact List.mem_singleton.mpr (Except.ok.inj h).symm
  | wide cs =>
    simp only [predicateColumn] at h
    cases hk : p.column with
    | none => rw [hk] at h; cases h
    | some k =>
      cases hc : cs[k]? with
      | none => simp only [hk, hc] at h; cases h
      | some l' =>
        simp only [hk, hc] at h
        exact Except.ok.inj h ▸ List.mem_of_getElem? hc

theorem mem_of_selectColumn {v : Variable} {d : Dataset β} {l : List β}
    (h : selectColumn v d = .ok l) : l ∈ d.columns := by
  cases d with
  | flat l' =>
    simp only [selectColumn] at h
    split_ifs at h
    exact List.mem_singleton.mpr (Except.ok.inj h).symm
  | wide cs =>
    simp only [selectColumn] at h
    cases hk : v.column with
    | none => rw [hk] at h; cases h
    | some k =>
      cases hc : cs[k]? with
      | none => simp only [hk, hc] at h; cases h
      | some l' =>
        simp only [hk, hc] at h
        exact Except.ok.inj h ▸ List.mem_of_getElem? hc

end Columns

section Congr
variable {β C S : Type} (env : Env β C S) {src : DataSource β} {file : File β}

/-- Two decodings and masks that select the same rows of every column of `n` values. -/
def SameRows (n : Nat) (f g : ∀ {α : Type}, List α → List α) (mask mask' : List Bool) : Prop :=
  ∀ {α : Type} (l : List α), l.length = n → select (f l) mask = select (g l) mask'

variable {n : Nat} {f g : ∀ {α : Type}, List α → List α} {mask mask' : List Bool}

theorem foldlM_congr {α κ ε : Type} {step step' : κ → α → Except ε κ} {l : List α}
    (h : ∀ a ∈ l, ∀ k, step k a = step' k a) (k : κ) : l.foldlM step k = l.foldlM step' k := by
  induction l generalizing k with
  | nil => rfl
  | cons a l ih =>
    rw [List.foldlM_cons, List.foldlM_cons, h a (.head _)]
    exact congrArg _ (funext fun k' => ih (fun b hb => h b (.tail _ hb)) k')

theorem baseMask_congr (h : SameRows n f g mask mask')
    (hrows : ∀ p ∈ src.baseStructured, (file.datasets p.dataset).HasRows n) :
    baseMask env src (fun path => (file.datasets path).mapRows f) mask =
      baseMask env src (fun path => (file.datasets path).mapRows g) mask' := by
  refine foldlM_congr (fun p hp keep => ?_) none
  simp only [predicateMask, Dataset.mapRows_mapRows, predicateColumn_mapRows]
  cases hl : predicateColumn p (file.datasets p.dataset) with
  | error e => rfl
  | ok l =>
    have hsel := h l (hrows p hp l (mem_of_predicateColumn hl))
    simp only [Except.map, Function.comp, hsel]

theorem variableColumns_congr (h : SameRows n f g mask mask')
    (hrows : ∀ v ∈ src.vars, (file.datasets v.path).HasRows n) (keep : Option (List Bool)) :
    variableColumns src (fun path => (file.datasets path).mapRows f) mask keep =
      variableColumns src (fun path => (file.datasets path).mapRows g) mask' keep := by
  refine foldlM_congr (fun v hv out => ?_) []
  simp only [selectColumn_mapRows]
  cases hl : selectColumn v (file.datasets v.path) with
  | error e => rfl
  | ok l =>
    have hsel := h l (hrows v hv l (mem_of_selectColumn hl))
    simp only [Except.map, hsel]

theorem assemble_congr (h : SameRows n f g mask mask')
    (hrows : ∀ v ∈ src.vars, (file.datasets v.path).HasRows n)
    {segments : List (String × List β)} (hseg : ∀ s ∈ segments, s.2.length = n)
    {leafIds : List C} (hleaf : leafIds.length = n) (keep : Option (List Bool)) :
    assemble env src (fun path => (file.datasets path).mapRows f)
        (segments.map fun s => (s.1, f s.2)) (f leafIds) mask keep =
      assemble env src (fun path => (file.datasets path).mapRows g)
        (segments.map fun s => (s.1, g s.2)) (g leafIds) mask' keep := by
  have hnames : ∀ k : ∀ {α : Type}, List α → List α,
      (segments.map fun s => (s.1, k s.2)).map Prod.fst = segments.map Prod.fst := by
    intro k
    rw [List.map_map]
    rfl
  have hfold : ∀ cols : List (String × List β),
      (segments.map fun s => (s.1, f s.2)).foldl
          (fun out s => put s.1 (applyKeep keep (select s.2 mask)) out) cols =
        (segments.map fun s => (s.1, g s.2)).foldl
          (fun out s => put s.1 (applyKeep keep (select s.2 mask')) out) cols := by
    intro cols
    induction segments generalizing cols with
    | nil => rfl
    | cons s segments ih =>
      rw [List.map_cons, List.foldl_cons, List.map_cons, List.foldl_cons, h s.2 (hseg s (.head _))]
      exact ih (fun s' hs' => hseg s' (.tail _ hs')) (fun k => by rw [List.map_map]; rfl) _
  rw [assemble, assemble, variableColumns_congr h hrows, hnames @f, hnames @g, h leafIds hleaf]
  cases variableColumns src (fun path => (file.datasets path).mapRows g) mask' keep with
  | error e => rfl
  | ok cols =>
    simp only [Except.bind]
    rw [hfold cols]

end Congr
end Zagg.Processing
