import Zagg.Lib.Collect
import Zagg.Lib.KeyJoin
import Zagg.Lib.Pointwise
import Zagg.Processing.Selection

/-!
# Sibling assets

A granule's sibling holds the records of the same shots under another product. They are joined
to the primary's records by key, filtered and read at record rate, and expanded to the samples
through the samples' owners. A record without a row in the sibling fails the filters, and its
variables are missing.
-/
namespace Zagg.Processing

open Zagg.Lib

section Model
variable {K β : Type}

namespace Dataset

/-- `len(np.asarray(d))`. -/
def rowCount : Dataset β → Nat
  | .flat l => l.length
  | .wide cs => (cs.headD []).length

end Dataset

/-- An open sibling granule, by dataset path. `zero` is the zero of a dataset's dtype. -/
structure SiblingFile (K β : Type) where
  keys : String → List (Key K)
  datasets : String → Dataset β
  zero : String → β
  rect : ∀ path, (datasets path).HasRows (datasets path).rowCount

/-- An asset's `join` block. -/
structure AssetJoin where
  left : String
  right : String

structure AssetFilter (β : Type) where
  asset : String
  predicate : Predicate β

structure AssetVariable where
  name : String
  asset : String
  path : String

/-- What a source says of its sibling assets, with its path templates resolved. -/
structure AssetSource (β : Type) where
  assets : List (String × AssetJoin)
  filters : List (AssetFilter β)
  vars : List AssetVariable
  nodup : (vars.map AssetVariable.name).Nodup

/-- A sibling's datasets in the order of the primary's records, and the records it has. -/
structure Joined (β : Type) where
  values : List (String × Dataset β)
  matched : List Bool

/-- What the reads call: the predicates' comparisons, the text of a key, the promotion of a
dataset's dtype to a floating one, and its NaN. -/
structure AssetEnv (K β C S : Type) extends Env β C S where
  keyText : Key K → String
  promote : String → β → β
  nan : β

end Model
section Code
variable {K β C S : Type} [LinearOrder K] (env : AssetEnv K β C S) (src : AssetSource β)
  (primary : String → List (Key K)) (siblings : List (String × SiblingFile K β)) (n : Nat)

/-- `_sibling_joined_values`. -/
def siblingJoinedValues (sibling : SiblingFile K β) (asset : String) (join : AssetJoin)
    (paths : List String) : Except String (Joined β) :=
  let left := primary join.left
  let right := sibling.keys join.right
  if left.length ≠ n then
    .error s!"assets.{asset}.join.left has {left.length} records; the coordinates level has {n}"
  else match paths.eraseDups.find? fun path => (sibling.datasets path).rowCount ≠ right.length with
    | some path =>
      let rows := (sibling.datasets path).rowCount
      .error (s!"assets.{asset} dataset '{path}' has {rows} rows; the join key " ++
        s!"'{join.right}' has {right.length}")
    | none =>
      if right.length = 0 then
        .ok ⟨paths.eraseDups.map fun path =>
          (path, (sibling.datasets path).mapRows fun _ => List.replicate n (sibling.zero path)),
          List.replicate n false⟩
      else match duplicateKey right with
        | some key =>
          let text := env.keyText key
          .error (s!"assets.{asset}.join.right '{join.right}' has duplicate key {text}; " ++
            "the record join requires unique sibling keys")
        | none =>
          .ok ⟨paths.eraseDups.map fun path =>
            (path, (sibling.datasets path).mapRows fun l => gather l (joinRows right left)),
            joinMatched right left⟩

/-- The dataset paths read from each asset. -/
def pathsByAsset : List (String × List String) :=
  collect (src.filters.map (fun f => (f.asset, [f.predicate.dataset])) ++
    src.vars.map fun v => (v.asset, [v.path]))

/-- One round of the loop of `_sibling_joins`. -/
def siblingJoin (e : String × List String) : Except String (Option (String × Joined β)) :=
  match src.assets.lookup e.1 with
  | none => .error s!"asset '{e.1}' is not declared in data_source.assets"
  | some join =>
    match siblings.lookup e.1 with
    | none =>
      if e.1 ∈ src.filters.map AssetFilter.asset then
        .error (s!"granule carries no open sibling handle for asset '{e.1}'; " ++
          "was the shard map built with the paired-asset join?")
      else .ok none
    | some sibling =>
      (siblingJoinedValues env primary n sibling e.1 join e.2).map fun joined => some (e.1, joined)

/-- `_sibling_joins`. -/
def siblingJoins : Except String (List (String × Joined β)) :=
  ((pathsByAsset src).mapM (siblingJoin env src primary siblings n)).map fun l => l.filterMap id

/-- One predicate over the joined values of its asset. -/
def filterMask (joined : Joined β) (p : Predicate β) : Except String (List Bool) :=
  match joined.values.lookup p.dataset with
  | none => .error s!"'{p.dataset}'"
  | some d => predicateMask env.toEnv p d

/-- The predicates of one asset, of which an unmatched record fails every one. -/
def assetMask (joins : List (String × Joined β)) (e : String × List (Predicate β)) :
    Except String (List Bool) :=
  match joins.lookup e.1 with
  | none => .error s!"'{e.1}'"
  | some joined => e.2.foldlM (fun mask p =>
      (filterMask env joined p).map fun m => List.zipWith (· && ·) mask m) joined.matched

/-- `_sibling_record_mask`. -/
def siblingRecordMask (joins : List (String × Joined β)) : Except String (List Bool) :=
  (collect (src.filters.map fun f => (f.asset, [f.predicate]))).foldlM (fun mask e =>
    (assetMask env joins e).map fun m => List.zipWith (· && ·) mask m) (List.replicate n true)

/-- A variable's values by record; those of an asset without a handle are all missing. -/
def assetRecordValues (joins : List (String × Joined β)) (v : AssetVariable) : Except String (List β) :=
  match joins.lookup v.asset with
  | none => .ok (List.replicate n env.nan)
  | some joined => match joined.values.lookup v.path with
    | none => .error s!"'{v.path}'"
    | some (.wide _) =>
      .error (s!"asset variable '{v.name}': dataset '{v.path}' is 2-D; the asset form takes no " ++
        "'column' selector yet (1-D datasets only; refs issue #465)")
    | some (.flat l) => .ok (List.zipWith (fun x m => if m then env.promote v.path x else env.nan) l
        joined.matched)

/-- The columns of one asset's variables at the samples. -/
def assetGroup (joins : List (String × Joined β)) (parents : List (Option Nat))
    (e : String × List AssetVariable) : Except String (List (String × List β)) := do
  let records ← e.2.mapM fun v => (assetRecordValues env n joins v).map fun vals => (v.name, vals)
  records.mapM fun r => (gatherSegmentAtParents env.nan r.2 parents).map fun vals => (r.1, vals)

/-- The record mask at the samples with these owners, where there is any filter. -/
def keepMask (joins : List (String × Joined β)) (parents : List (Option Nat)) :
    Except String (Option (List Bool)) :=
  if src.filters = [] then .ok none
  else do
    let records ← siblingRecordMask env src n joins
    let keep ← gatherSegmentAtParents false records parents
    return some keep

/-- The keep mask and the columns that the siblings give the samples with these owners. -/
def readAssets (parents : List (Option Nat)) :
    Except String (Option (List Bool) × List (String × List β)) := do
  let joins ← siblingJoins env src primary siblings n
  let mask ← keepMask env src n joins parents
  let cols ← (collect (src.vars.map fun v => (v.asset, [v]))).mapM (assetGroup env n joins parents)
  return (mask, cols.flatten)

end Code
section Join
variable {K β C S : Type} [LinearOrder K] {env : AssetEnv K β C S} {primary : String → List (Key K)}
  {n : Nat} {sibling : SiblingFile K β} {asset : String} {join : AssetJoin} {paths : List String}

/-- The datasets of a sibling's rows, at the records whose keys they have. -/
structure JoinedBy (left right : List (Key K)) (sibling : SiblingFile K β) (paths : List String)
    (joined : Joined β) : Prop where
  distinct : Distinct right
  length_eq : joined.matched.length = left.length
  matched : ∀ (i : Nat) k, left[i]? = some k → joined.matched[i]? = some (decide (k ≠ ⊤ ∧ k ∈ right))
  values : ∀ path ∈ paths, ∃ f : List β → List β,
    joined.values.lookup path = some ((sibling.datasets path).mapRows f) ∧
    (sibling.datasets path).HasRows right.length ∧
    ∀ l : List β, l.length = right.length → (f l).length = left.length ∧
      ∀ (i j : Nat) k, left[i]? = some k → k ≠ ⊤ → right[j]? = some k → (f l)[i]? = l[j]?

theorem siblingJoinedValues_ok {joined : Joined β}
    (h : siblingJoinedValues env primary n sibling asset join paths = .ok joined) :
    (primary join.left).length = n ∧
      JoinedBy (primary join.left) (sibling.keys join.right) sibling paths joined := by
  unfold siblingJoinedValues at h
  dsimp only at h
  have hlen : (primary join.left).length = n := by
    by_contra hlen
    rw [if_pos hlen] at h
    cases h
  rw [if_neg (not_not_intro hlen)] at h
  refine ⟨hlen, ?_⟩
  cases hrate : paths.eraseDups.find? fun path =>
      decide ((sibling.datasets path).rowCount ≠ (sibling.keys join.right).length) with
  | some path =>
    rw [hrate] at h
    cases h
  | none =>
    have hrows : ∀ path ∈ paths, (sibling.datasets path).HasRows (sibling.keys join.right).length := by
      intro path hpath
      have heq := List.find?_eq_none.mp hrate path (List.mem_eraseDups.mpr hpath)
      rw [decide_eq_true_iff, not_not] at heq
      exact heq ▸ sibling.rect path
    have hlookup : ∀ (f : String → Dataset β), ∀ path ∈ paths,
        (paths.eraseDups.map fun path => (path, f path)).lookup path = some (f path) := fun f path hpath =>
      (lookup_map_key _ _ _).trans (if_pos (List.mem_eraseDups.mpr hpath))
    rw [hrate] at h
    dsimp only at h
    by_cases hempty : (sibling.keys join.right).length = 0
    · rw [if_pos hempty] at h
      obtain rfl := Except.ok.inj h
      have hnil : sibling.keys join.right = [] := List.eq_nil_of_length_eq_zero hempty
      refine ⟨?_, ?_, fun i k hi => ?_, fun path hpath => ⟨_, hlookup _ path hpath, hrows path hpath, ?_⟩⟩
      · rw [hnil]
        exact List.Pairwise.nil
      · rw [List.length_replicate, hlen]
      · have hlt := (List.getElem?_eq_some_iff.mp hi).1
        rw [hlen] at hlt
        simp [hnil, hlt]
      · intro l _
        refine ⟨?_, fun i j k _ _ hj => ?_⟩
        · rw [List.length_replicate, hlen]
        · rw [hnil] at hj
          cases hj
    · rw [if_neg hempty] at h
      cases hdup : duplicateKey (sibling.keys join.right) with
      | some key =>
        rw [hdup] at h
        cases h
      | none =>
        rw [hdup] at h
        obtain rfl := Except.ok.inj h
        have hne : sibling.keys join.right ≠ [] := fun hnil => hempty (hnil ▸ rfl)
        have hd := duplicateKey_eq_none.mp hdup
        refine ⟨hd, length_joinMatched hne, fun i k hi => joinMatched_spec hne hi,
          fun path hpath => ⟨_, hlookup _ path hpath, hrows path hpath, fun l hl => ?_⟩⟩
        have hlt : ∀ j ∈ joinRows (sibling.keys join.right) (primary join.left), j < l.length :=
          fun j hj => (joinRows_lt hj).trans_eq hl.symm
        refine ⟨(length_gather hlt).trans (length_joinRows hne), fun i j k hi hk hj => ?_⟩
        rw [getElem?_gather hlt, joinRows_spec hd hi hk hj]
        rfl

/-- The join is refused for a key that stands twice, and for a column of another rate. -/
theorem siblingJoinedValues_isOk : (∃ joined,
      siblingJoinedValues env primary n sibling asset join paths = .ok joined) ↔
    (primary join.left).length = n ∧
      (∀ path ∈ paths, (sibling.datasets path).rowCount = (sibling.keys join.right).length) ∧
      Distinct (sibling.keys join.right) := by
  have hrate : (paths.eraseDups.find? fun path =>
      decide ((sibling.datasets path).rowCount ≠ (sibling.keys join.right).length)) = none ↔
      ∀ path ∈ paths, (sibling.datasets path).rowCount = (sibling.keys join.right).length := by
    simp [List.find?_eq_none]
  unfold siblingJoinedValues
  dsimp only
  by_cases hlen : (primary join.left).length = n
  · rw [if_neg (not_not_intro hlen), ← hrate, ← duplicateKey_eq_none]
    cases paths.eraseDups.find? fun path =>
        decide ((sibling.datasets path).rowCount ≠ (sibling.keys join.right).length) with
    | some path => exact ⟨fun ⟨_, h⟩ => (nomatch h), fun h => (nomatch h.2.1)⟩
    | none =>
      dsimp only
      by_cases hempty : (sibling.keys join.right).length = 0
      · rw [if_pos hempty, List.eq_nil_of_length_eq_zero hempty]
        exact ⟨fun _ => ⟨hlen, rfl, rfl⟩, fun _ => ⟨_, rfl⟩⟩
      · rw [if_neg hempty]
        cases duplicateKey (sibling.keys join.right) with
        | some key => exact ⟨fun ⟨_, h⟩ => (nomatch h), fun h => (nomatch h.2.2)⟩
        | none => exact ⟨fun _ => ⟨hlen, rfl, rfl⟩, fun _ => ⟨_, rfl⟩⟩
  · rw [if_pos hlen]
    exact ⟨fun ⟨_, h⟩ => (nomatch h), fun h => absurd h.1 hlen⟩

end Join

section Spec
variable {K β C S : Type} [LinearOrder K] (env : AssetEnv K β C S) (src : AssetSource β)
  (primary : String → List (Key K)) (siblings : List (String × SiblingFile K β))

/-- Row `j` of an asset's sibling has the key of record `i`. -/
def SameKey (asset : String) (i : Nat) (sibling : SiblingFile K β) (j : Nat) : Prop :=
  ∃ join k, src.assets.lookup asset = some join ∧ siblings.lookup asset = some sibling ∧ k ≠ ⊤ ∧
    (primary join.left)[i]? = some k ∧ (sibling.keys join.right)[j]? = some k

/-- A predicate holds of a value. -/
def Predicate.test (p : Predicate β) (a : β) : Bool :=
  let hit := compare env.toEnv p.op p.values p.value a
  if p.keep then hit else !hit

/-- Record `i` has a row in the sibling, and the predicate holds of that row. -/
def Passes (asset : String) (p : Predicate β) (i : Nat) : Prop :=
  ∃ sibling j l a, SameKey src primary siblings asset i sibling j ∧
    predicateColumn p (sibling.datasets p.dataset) = .ok l ∧ l[j]? = some a ∧ p.test env a = true

/-- A variable's value at record `i`: that of the record's row, or missing. -/
def Reads (v : AssetVariable) (i : Nat) (x : β) : Prop :=
  (∃ sibling j l a, SameKey src primary siblings v.asset i sibling j ∧
    sibling.datasets v.path = .flat l ∧ l[j]? = some a ∧ x = env.promote v.path a) ∨
  (∀ sibling j, ¬SameKey src primary siblings v.asset i sibling j) ∧ x = env.nan

end Spec

section Run
variable {K β C S : Type} [LinearOrder K] {env : AssetEnv K β C S} {src : AssetSource β}
  {primary : String → List (Key K)} {siblings : List (String × SiblingFile K β)} {n : Nat}
  {joins : List (String × Joined β)}

/-- Masks ANDed one by one hold where all of them do. -/
theorem foldlM_and {α ε : Type} {f : α → Except ε (List Bool)} {items : List α} {mask out : List Bool}
    (hmask : mask.length = n) (hf : ∀ a ∈ items, ∀ m, f a = .ok m → m.length = n)
    (h : items.foldlM (fun mask a => (f a).map fun m => List.zipWith (· && ·) mask m) mask = .ok out) :
    out.length = n ∧ (∀ a ∈ items, ∃ m, f a = .ok m) ∧ ∀ i : Nat, out[i]? = some true ↔
      mask[i]? = some true ∧ ∀ a ∈ items, ∃ m, f a = .ok m ∧ m[i]? = some true := by
  induction items generalizing mask with
  | nil =>
    obtain rfl := Except.ok.inj h
    exact ⟨hmask, nofun, fun i => ⟨fun hi => ⟨hi, nofun⟩, fun hi => hi.1⟩⟩
  | cons a items ih =>
    rw [List.foldlM_cons] at h
    obtain ⟨mask', hstep, hrest⟩ := bind_ok h
    cases hm : f a with
    | error e =>
      rw [hm] at hstep
      cases hstep
    | ok m =>
      rw [hm] at hstep
      obtain rfl := Except.ok.inj hstep
      have hlen := hf a (.head _) m hm
      obtain ⟨hout, hall, hiff⟩ := ih (by rw [List.length_zipWith, hmask, hlen, Nat.min_self])
        (fun b hb => hf b (.tail _ hb)) hrest
      refine ⟨hout, List.forall_mem_cons.mpr ⟨⟨m, hm⟩, hall⟩, fun i => ?_⟩
      have hand : (List.zipWith (· && ·) mask m)[i]? = some true ↔ mask[i]? = some true ∧ m[i]? = some true := by
        rw [List.getElem?_zipWith]
        cases mask[i]? <;> cases m[i]? <;> simp
      rw [hiff, hand, List.forall_mem_cons, and_assoc]
      apply and_congr_right
      intro _
      apply and_congr_left
      intro _
      exact ⟨fun hi => ⟨m, hm, hi⟩, fun ⟨m', hm', hi⟩ => Except.ok.inj (hm.symm.trans hm') ▸ hi⟩

variable (src) in
/-- The entry of an asset lists every path read from it. -/
theorem exists_paths {asset : String}
    (h : asset ∈ src.filters.map AssetFilter.asset ∨ asset ∈ src.vars.map AssetVariable.asset) :
    ∃ e ∈ pathsByAsset src, e.1 = asset ∧
      (∀ f ∈ src.filters, f.asset = e.1 → f.predicate.dataset ∈ e.2) ∧
      ∀ v ∈ src.vars, v.asset = e.1 → v.path ∈ e.2 := by
  have hkey : asset ∈ (pathsByAsset src).map Prod.fst := by
    rw [pathsByAsset, mem_keys_collect, List.map_append, List.mem_append, List.map_map, List.map_map]
    exact h
  obtain ⟨e, he, hasset⟩ := List.mem_map.mp hkey
  refine ⟨e, he, hasset, fun f hf hfe => ?_, fun v hv hve => ?_⟩
  · exact (mem_entry he).mpr ⟨(f.asset, [f.predicate.dataset]),
      List.mem_append_left _ (List.mem_map_of_mem hf), hfe, .head _⟩
  · exact (mem_entry he).mpr ⟨(v.asset, [v.path]), List.mem_append_right _ (List.mem_map_of_mem hv),
      hve, .head _⟩

/-- What the joins hold of an asset that is read. -/
theorem siblingJoins_ok (h : siblingJoins env src primary siblings n = .ok joins)
    {e : String × List String} (he : e ∈ pathsByAsset src) : ∃ join, src.assets.lookup e.1 = some join ∧
      ((siblings.lookup e.1 = none ∧ e.1 ∉ src.filters.map AssetFilter.asset ∧ joins.lookup e.1 = none) ∨
        ∃ sibling joined, siblings.lookup e.1 = some sibling ∧ joins.lookup e.1 = some joined ∧
          (primary join.left).length = n ∧
          JoinedBy (primary join.left) (sibling.keys join.right) sibling e.2 joined) := by
  cases hrun : (pathsByAsset src).mapM (siblingJoin env src primary siblings n) with
  | error err =>
    rw [siblingJoins, hrun] at h
    cases h
  | ok rs =>
    rw [siblingJoins, hrun] at h
    obtain rfl := Except.ok.inj h
    have hkey : ∀ e r, siblingJoin env src primary siblings n e = .ok (some r) → r.1 = e.1 := by
      intro e r hr
      unfold siblingJoin at hr
      split at hr
      · cases hr
      · split at hr
        · split_ifs at hr
          cases Except.ok.inj hr
        · cases hj : siblingJoinedValues env primary n _ e.1 _ e.2 with
          | error err =>
            rw [hj] at hr
            cases hr
          | ok joined =>
            rw [hj] at hr
            exact congrArg Prod.fst (Option.some.inj (Except.ok.inj hr)).symm
    obtain ⟨r, hr, hlookup⟩ := lookup_filterMap_of_forall₂ hkey (forall₂_mapM hrun) (nodup_collect _) he
    unfold siblingJoin at hr
    cases hassets : src.assets.lookup e.1 with
    | none =>
      rw [hassets] at hr
      cases hr
    | some join =>
      refine ⟨join, rfl, ?_⟩
      rw [hassets] at hr
      cases hsibling : siblings.lookup e.1 with
      | none =>
        rw [hsibling] at hr
        dsimp only at hr
        split_ifs at hr with hfilter
        obtain rfl := Except.ok.inj hr
        exact .inl ⟨rfl, hfilter, hlookup⟩
      | some sibling =>
        rw [hsibling] at hr
        cases hj : siblingJoinedValues env primary n sibling e.1 join e.2 with
        | error err =>
          simp only [hj] at hr
          cases hr
        | ok joined =>
          simp only [hj] at hr
          obtain rfl := Except.ok.inj hr
          exact .inr ⟨sibling, joined, rfl, hlookup, siblingJoinedValues_ok hj⟩

/-- Where a sibling was joined, its rows are found by their keys. -/
theorem JoinedBy.sameKey_iff {e : String × List String} {join : AssetJoin} {sibling : SiblingFile K β}
    {joined : Joined β} (h : JoinedBy (primary join.left) (sibling.keys join.right) sibling e.2 joined)
    (hassets : src.assets.lookup e.1 = some join) (hsibling : siblings.lookup e.1 = some sibling)
    {i : Nat} : joined.matched[i]? = some true ↔ ∃ s j, SameKey src primary siblings e.1 i s j := by
  constructor
  · intro hi
    have hlt := (List.getElem?_eq_some_iff.mp hi).1
    rw [h.length_eq] at hlt
    have hkey : (primary join.left)[i]? = some ((primary join.left)[i]) := List.getElem?_eq_getElem hlt
    rw [h.matched i _ hkey] at hi
    obtain ⟨hmissing, hmem⟩ := of_decide_eq_true (Option.some.inj hi)
    obtain ⟨j, hj⟩ := List.mem_iff_getElem?.mp hmem
    exact ⟨sibling, j, join, _, hassets, hsibling, hmissing, hkey, hj⟩
  · rintro ⟨s, j, join', k, hassets', hsibling', hmissing, hi, hj⟩
    obtain rfl := Option.some.inj (hassets.symm.trans hassets')
    obtain rfl := Option.some.inj (hsibling.symm.trans hsibling')
    rw [h.matched i k hi, decide_eq_true ⟨hmissing, List.mem_of_getElem? hj⟩]

/-- A predicate over the joined rows holds of a matched record by the value of its own row. -/
theorem filterMask_spec {e : String × List String} {join : AssetJoin} {sibling : SiblingFile K β}
    {joined : Joined β} (h : JoinedBy (primary join.left) (sibling.keys join.right) sibling e.2 joined)
    (hassets : src.assets.lookup e.1 = some join) (hsibling : siblings.lookup e.1 = some sibling)
    {p : Predicate β} (hp : p.dataset ∈ e.2) {m : List Bool} (hm : filterMask env joined p = .ok m) :
    m.length = (primary join.left).length ∧ ∀ i : Nat,
      (joined.matched[i]? = some true ∧ m[i]? = some true ↔ Passes env src primary siblings e.1 p i) := by
  obtain ⟨f, hlookup, hrows, hf⟩ := h.values p.dataset hp
  cases hl : predicateColumn p (sibling.datasets p.dataset) with
  | error err =>
    rw [filterMask, hlookup] at hm
    dsimp only at hm
    rw [predicateMask, predicateColumn_mapRows, hl] at hm
    cases hm
  | ok l =>
    have hmask : m = (f l).map (p.test env) := by
      rw [filterMask, hlookup] at hm
      dsimp only at hm
      rw [predicateMask, predicateColumn_mapRows, hl] at hm
      exact (Except.ok.inj hm).symm
    obtain ⟨hlen, hat⟩ := hf l (hrows l (mem_of_predicateColumn hl))
    refine ⟨by rw [hmask, List.length_map, hlen], fun i => ?_⟩
    have hrow : ∀ j, SameKey src primary siblings e.1 i sibling j → m[i]? = (l[j]?).map (p.test env) := by
      rintro j ⟨join', k, hassets', -, hmissing, hi, hj⟩
      obtain rfl := Option.some.inj (hassets.symm.trans hassets')
      rw [hmask, List.getElem?_map, hat i j k hi hmissing hj]
    rw [h.sameKey_iff hassets hsibling]
    constructor
    · rintro ⟨⟨s, j, hkey⟩, hi⟩
      obtain rfl : sibling = s := by
        obtain ⟨_, _, _, hsibling', -⟩ := hkey
        exact Option.some.inj (hsibling.symm.trans hsibling')
      rw [hrow j hkey] at hi
      obtain ⟨a, ha, htest⟩ := Option.map_eq_some_iff.mp hi
      exact ⟨sibling, j, l, a, hkey, hl, ha, htest⟩
    · rintro ⟨s, j, l', a, hkey, hl', ha, htest⟩
      obtain rfl : sibling = s := by
        obtain ⟨_, _, _, hsibling', -⟩ := hkey
        exact Option.some.inj (hsibling.symm.trans hsibling')
      obtain rfl := Except.ok.inj (hl.symm.trans hl')
      refine ⟨⟨sibling, j, hkey⟩, ?_⟩
      rw [hrow j hkey, ha, Option.map_some, htest]

/-- The record mask holds where every filter finds a row it passes. -/
theorem siblingRecordMask_spec (hjoins : siblingJoins env src primary siblings n = .ok joins)
    {mask : List Bool} (h : siblingRecordMask env src n joins = .ok mask) : mask.length = n ∧
      ∀ i : Nat, i < n → (mask[i]? = some true ↔
        ∀ f ∈ src.filters, Passes env src primary siblings f.asset f.predicate i) := by
  have hasset : ∀ e ∈ collect (src.filters.map fun f => (f.asset, [f.predicate])), ∀ m,
      assetMask env joins e = .ok m → m.length = n ∧ ∀ i : Nat, (m[i]? = some true ↔
        ∀ p ∈ e.2, Passes env src primary siblings e.1 p i) := by
    intro e he m hm
    obtain ⟨item, hitem, hkey⟩ := List.mem_map.mp ((mem_keys_collect _).mp (List.mem_map_of_mem he))
    obtain ⟨f, hf, rfl⟩ := List.mem_map.mp hitem
    obtain ⟨e', he', hsame, hpaths, -⟩ := exists_paths src (.inl (List.mem_map_of_mem hf))
    have hof : e'.1 = e.1 := hsame.trans hkey
    have hdataset : ∀ p ∈ e.2, p.dataset ∈ e'.2 := by
      intro p hp
      obtain ⟨item, hitem, hkey', hin⟩ := (mem_entry he).mp hp
      obtain ⟨f', hf', rfl⟩ := List.mem_map.mp hitem
      obtain rfl := List.mem_singleton.mp hin
      exact hpaths f' hf' (hkey'.trans hof.symm)
    obtain ⟨join, hassets, ⟨-, hnone, -⟩ | ⟨sibling, joined, hsibling, hjoined, hn, hby⟩⟩ :=
      siblingJoins_ok hjoins he'
    · exact absurd (hsame ▸ List.mem_map_of_mem hf) hnone
    · rw [assetMask, ← hof, hjoined] at hm
      have hspec : ∀ p ∈ e.2, ∀ m', filterMask env joined p = .ok m' → m'.length = n ∧ ∀ i : Nat,
          (joined.matched[i]? = some true ∧ m'[i]? = some true ↔ Passes env src primary siblings e'.1 p i) := by
        intro p hp m' hm'
        obtain ⟨hlen, hiff⟩ := filterMask_spec hby hassets hsibling (hdataset p hp) hm'
        exact ⟨hlen.trans hn, hiff⟩
      obtain ⟨hlen, hran, hiff⟩ := foldlM_and (hby.length_eq.trans hn)
        (fun p hp m' hm' => (hspec p hp m' hm').1) hm
      refine ⟨hlen, fun i => (hiff i).trans ⟨fun ⟨hmatched, hall⟩ p hp => ?_, fun hall => ⟨?_, fun p hp => ?_⟩⟩⟩
      · obtain ⟨m', hm', hi⟩ := hall p hp
        exact hof ▸ ((hspec p hp m' hm').2 i).mp ⟨hmatched, hi⟩
      · have hp : f.predicate ∈ e.2 :=
          (mem_entry he).mpr ⟨_, List.mem_map_of_mem hf, hkey, .head _⟩
        obtain ⟨m', hm'⟩ := hran _ hp
        exact (((hspec _ hp m' hm').2 i).mpr (hof ▸ hall _ hp)).1
      · obtain ⟨m', hm'⟩ := hran p hp
        exact ⟨m', hm', (((hspec p hp m' hm').2 i).mpr (hof ▸ hall p hp)).2⟩
  obtain ⟨hlen, hran, hiff⟩ := foldlM_and List.length_replicate (fun e he m hm => (hasset e he m hm).1) h
  refine ⟨hlen, fun i hi => (hiff i).trans ⟨fun ⟨_, hall⟩ f hf => ?_, fun hall => ⟨?_, fun e he => ?_⟩⟩⟩
  · obtain ⟨e, he, hkey⟩ := List.mem_map.mp ((mem_keys_collect (src.filters.map fun f =>
      (f.asset, [f.predicate]))).mpr (List.mem_map_of_mem (List.mem_map_of_mem hf)))
    obtain ⟨m, hm, hi⟩ := hall e he
    have hp : f.predicate ∈ e.2 := (mem_entry he).mpr ⟨_, List.mem_map_of_mem hf, hkey.symm, .head _⟩
    have hown : e.1 = f.asset := hkey
    exact hown ▸ ((hasset e he m hm).2 i).mp hi _ hp
  · rw [List.getElem?_replicate, if_pos hi]
  · obtain ⟨m, hm⟩ := hran e he
    refine ⟨m, hm, ((hasset e he m hm).2 i).mpr fun p hp => ?_⟩
    obtain ⟨item, hitem, hkey, hin⟩ := (mem_entry he).mp hp
    obtain ⟨f, hf, rfl⟩ := List.mem_map.mp hitem
    obtain rfl := List.mem_singleton.mp hin
    exact hkey ▸ hall f hf

/-- A variable reads the value of the record's own row, or nothing. -/
theorem assetRecordValues_spec (hjoins : siblingJoins env src primary siblings n = .ok joins)
    {v : AssetVariable} (hv : v ∈ src.vars) {vals : List β}
    (h : assetRecordValues env n joins v = .ok vals) : vals.length = n ∧
      ∀ i : Nat, i < n → ∃ x, vals[i]? = some x ∧ Reads env src primary siblings v i x := by
  obtain ⟨e, he, hkey, -, hpaths⟩ := exists_paths src (.inr (List.mem_map_of_mem hv))
  have hpath := hpaths v hv hkey.symm
  obtain ⟨join, hassets, ⟨hsibling, -, hjoined⟩ | ⟨sibling, joined, hsibling, hjoined, hn, hby⟩⟩ :=
    siblingJoins_ok hjoins he
  · rw [assetRecordValues, ← hkey, hjoined] at h
    obtain rfl := Except.ok.inj h
    refine ⟨List.length_replicate, fun i hi => ⟨env.nan, ?_, .inr ⟨fun s j hsame => ?_, rfl⟩⟩⟩
    · rw [List.getElem?_replicate, if_pos hi]
    · obtain ⟨_, _, _, hsome, -⟩ := hsame
      rw [← hkey, hsibling] at hsome
      cases hsome
  · obtain ⟨f, hlookup, hrows, hf⟩ := hby.values v.path hpath
    rw [assetRecordValues, ← hkey, hjoined] at h
    dsimp only at h
    rw [hlookup] at h
    cases hdata : sibling.datasets v.path with
    | wide cs =>
      rw [hdata] at h
      cases h
    | flat l =>
      rw [hdata] at h
      obtain rfl := Except.ok.inj h
      have hl : l.length = (sibling.keys join.right).length := by
        rw [hdata] at hrows
        exact hrows l (List.mem_singleton.mpr rfl)
      obtain ⟨hlen, hat⟩ := hf l hl
      have hmatched := hby.length_eq
      rw [hn] at hlen hmatched
      refine ⟨by rw [List.length_zipWith, hlen, hmatched, Nat.min_self], fun i hi => ?_⟩
      have hx : (f l)[i]? = some ((f l).get ⟨i, hlen.symm ▸ hi⟩) := List.getElem?_eq_getElem (hlen.symm ▸ hi)
      have hm : joined.matched[i]? = some (joined.matched.get ⟨i, hmatched.symm ▸ hi⟩) :=
        List.getElem?_eq_getElem (hmatched.symm ▸ hi)
      rw [List.getElem?_zipWith, hx, hm]
      refine ⟨_, rfl, ?_⟩
      have hiff := hby.sameKey_iff (i := i) hassets hsibling
      rw [hm, Option.some_inj] at hiff
      by_cases hrow : joined.matched.get ⟨i, hmatched.symm ▸ hi⟩ = true
      · obtain ⟨s, j, hsame⟩ := hiff.mp hrow
        obtain ⟨join', k, hassets', hsibling', hmissing, hki, hkj⟩ := id hsame
        obtain rfl := Option.some.inj (hassets.symm.trans hassets')
        obtain rfl := Option.some.inj (hsibling.symm.trans hsibling')
        have hval := hat i j k hki hmissing hkj
        rw [hx] at hval
        rw [if_pos hrow]
        exact .inl ⟨sibling, j, l, _, hkey ▸ hsame, hdata, hval.symm, rfl⟩
      · rw [if_neg hrow]
        exact .inr ⟨fun s j hsame => hrow (hiff.mpr ⟨s, j, hkey.symm ▸ hsame⟩), rfl⟩

/-- At a sample, the value of its record, or the fill. -/
theorem gatherSegmentAtParents_spec {α : Type} {fill : α} {vals out : List α} {parents : List (Option Nat)}
    (h : gatherSegmentAtParents fill vals parents = .ok out) :
    ∀ (r : Nat) parent, parents[r]? = some parent → ∃ v, out[r]? = some v ∧
      match parent with
      | none => v = fill
      | some i => vals[i]? = some v := by
  have hall := forall₂_mapM h
  clear h
  induction hall with
  | nil => exact fun r parent hr => (nomatch hr)
  | @cons p v parents out hv _ ih =>
    intro r parent hr
    cases r with
    | succ r => exact ih r parent hr
    | zero =>
      obtain rfl := Option.some.inj hr
      refine ⟨v, rfl, ?_⟩
      cases hget : vals[p.getD 0]? with
      | none =>
        rw [hget] at hv
        cases hv
      | some x =>
        rw [hget] at hv
        obtain rfl := Except.ok.inj hv
        cases p with
        | none => rfl
        | some i => exact hget

omit [LinearOrder K] in
theorem assetGroup_ok {parents : List (Option Nat)} {e : String × List AssetVariable}
    {cols : List (String × List β)} (h : assetGroup env n joins parents e = .ok cols) :
    cols.map Prod.fst = e.2.map AssetVariable.name ∧ ∀ v ∈ e.2, ∃ vals col, (v.name, col) ∈ cols ∧
      assetRecordValues env n joins v = .ok vals ∧ gatherSegmentAtParents env.nan vals parents = .ok col := by
  obtain ⟨asset, vs⟩ := e
  obtain ⟨records, hrecords, hcols⟩ := bind_ok h
  have hboth : List.Forall₂ (fun v (c : String × List β) => c.1 = v.name ∧ ∃ vals,
      assetRecordValues env n joins v = .ok vals ∧ gatherSegmentAtParents env.nan vals parents = .ok c.2)
      vs cols := by
    apply forall₂_comp _ (forall₂_mapM hrecords) (forall₂_mapM hcols)
    intro v record c hrecord hc
    cases hv : assetRecordValues env n joins v with
    | error err =>
      rw [hv] at hrecord
      cases hrecord
    | ok vals =>
      rw [hv] at hrecord
      obtain rfl := Except.ok.inj hrecord
      dsimp only at hc
      cases hg : gatherSegmentAtParents env.nan vals parents with
      | error err =>
        rw [hg] at hc
        cases hc
      | ok col =>
        rw [hg] at hc
        obtain rfl := Except.ok.inj hc
        exact ⟨rfl, vals, rfl, hg⟩
  clear h hcols hrecords
  induction hboth with
  | nil => exact ⟨rfl, nofun⟩
  | @cons v c vs cs hc _ ih =>
    obtain ⟨hname, vals, hvals, hcol⟩ := hc
    refine ⟨congrArg₂ List.cons hname ih.1, List.forall_mem_cons.mpr ⟨⟨vals, c.2, ?_, hvals, hcol⟩, ?_⟩⟩
    · exact hname ▸ List.mem_cons_self
    · intro v' hv'
      obtain ⟨vals', col', hmem, h'⟩ := ih.2 v' hv'
      exact ⟨vals', col', .tail _ hmem, h'⟩

omit [LinearOrder K] in
/-- A variable's column is the one column under its name. -/
theorem lookup_columns {parents : List (Option Nat)} {cols : List (List (String × List β))}
    (h : (collect (src.vars.map fun v => (v.asset, [v]))).mapM (assetGroup env n joins parents) = .ok cols)
    {v : AssetVariable} (hv : v ∈ src.vars) : ∃ vals col, cols.flatten.lookup v.name = some col ∧
      assetRecordValues env n joins v = .ok vals ∧ gatherSegmentAtParents env.nan vals parents = .ok col := by
  have hgroups := forall₂_mapM h
  have hnames : cols.flatten.map Prod.fst =
      ((collect (src.vars.map fun v => (v.asset, [v]))).flatMap Prod.snd).map AssetVariable.name := by
    have hall : ∀ {es : List (String × List AssetVariable)} {cols : List (List (String × List β))},
        List.Forall₂ (fun e c => assetGroup env n joins parents e = .ok c) es cols →
        cols.flatten.map Prod.fst = (es.flatMap Prod.snd).map AssetVariable.name := by
      intro es cols h
      induction h with
      | nil => rfl
      | cons hc _ ih =>
        rw [List.flatten_cons, List.map_append, ih, (assetGroup_ok hc).1, List.flatMap_cons, List.map_append]
    exact hall hgroups
  have hperm := (perm_collect (src.vars.map fun v => (v.asset, [v]))).map AssetVariable.name
  have hvars : ((src.vars.map fun v => (v.asset, [v])).flatMap Prod.snd) = src.vars := by
    rw [List.flatMap_map]
    exact List.flatMap_singleton' src.vars
  rw [hvars] at hperm
  have hnodup : (cols.flatten.map Prod.fst).Nodup := by
    rw [hnames]
    exact hperm.nodup_iff.mpr src.nodup
  obtain ⟨e, he, hkey⟩ := List.mem_map.mp ((mem_keys_collect (src.vars.map fun v => (v.asset, [v]))).mpr
    (List.mem_map_of_mem (List.mem_map_of_mem hv)))
  have hmem : v ∈ e.2 := (mem_entry he).mpr ⟨_, List.mem_map_of_mem hv, hkey.symm, .head _⟩
  obtain ⟨c, hc, hgroup⟩ := ok_of_mapM h he
  obtain ⟨vals, col, hcol, hvals, hgather⟩ := (assetGroup_ok hgroup).2 v hmem
  exact ⟨vals, col, lookup_of_nodup hnodup (List.mem_flatten.mpr ⟨c, hc, hcol⟩), hvals, hgather⟩

/-- A record takes from a sibling the values of the row with its own key, and nothing where there
is no such row; a sibling whose keys cannot tell is refused. -/
theorem sibling_join_by_key (env : AssetEnv K β C S) (src : AssetSource β)
    (primary : String → List (Key K)) (siblings : List (String × SiblingFile K β)) (n : Nat) :
    (∀ sibling asset join paths, (∃ joined,
        siblingJoinedValues env primary n sibling asset join paths = .ok joined) ↔
      (primary join.left).length = n ∧
        (∀ path ∈ paths, (sibling.datasets path).rowCount = (sibling.keys join.right).length) ∧
        Distinct (sibling.keys join.right)) ∧
    (∀ sibling asset join paths joined,
      siblingJoinedValues env primary n sibling asset join paths = .ok joined →
        JoinedBy (primary join.left) (sibling.keys join.right) sibling paths joined) ∧
    ∀ parents mask cols, readAssets env src primary siblings n parents = .ok (mask, cols) →
      (mask = none ↔ src.filters = []) ∧
      (∀ keep ∈ mask, ∀ (r : Nat) parent, parents[r]? = some parent → ∃ b, keep[r]? = some b ∧
        (b = true ↔ ∃ i, parent = some i ∧
          ∀ f ∈ src.filters, Passes env src primary siblings f.asset f.predicate i)) ∧
      ∀ v ∈ src.vars, ∃ col, cols.lookup v.name = some col ∧
        ∀ (r : Nat) parent, parents[r]? = some parent → ∃ x, col[r]? = some x ∧
          (parent = none ∧ x = env.nan ∨
            ∃ i, parent = some i ∧ Reads env src primary siblings v i x) := by
  refine ⟨fun _ _ _ _ => siblingJoinedValues_isOk, fun _ _ _ _ _ h => (siblingJoinedValues_ok h).2,
    fun parents mask cols h => ?_⟩
  obtain ⟨joins, hjoins, h⟩ := bind_ok h
  obtain ⟨mask', hmask, h⟩ := bind_ok h
  obtain ⟨groups, hgroups, h⟩ := bind_ok h
  obtain ⟨rfl, rfl⟩ := Prod.mk.inj (Except.ok.inj h)
  refine ⟨?_, fun keep hkeep r parent hr => ?_, fun v hv => ?_⟩
  · unfold keepMask at hmask
    split_ifs at hmask with hnil
    · obtain rfl := Except.ok.inj hmask
      exact ⟨fun _ => hnil, fun _ => rfl⟩
    · obtain ⟨records, -, hmask⟩ := bind_ok hmask
      obtain ⟨keep, -, hmask⟩ := bind_ok hmask
      obtain rfl := Except.ok.inj hmask
      exact ⟨nofun, fun h => absurd h hnil⟩
  · unfold keepMask at hmask
    split_ifs at hmask with hnil
    · obtain rfl := Except.ok.inj hmask
      cases hkeep
    · obtain ⟨records, hrecords, hmask⟩ := bind_ok hmask
      obtain ⟨keep', hgather, hmask⟩ := bind_ok hmask
      obtain rfl := Except.ok.inj hmask
      obtain rfl : keep' = keep := Option.some.inj hkeep
      obtain ⟨hlen, hiff⟩ := siblingRecordMask_spec hjoins hrecords
      obtain ⟨b, hb, hval⟩ := gatherSegmentAtParents_spec hgather r parent hr
      refine ⟨b, hb, ?_⟩
      cases parent with
      | none =>
        obtain rfl : b = false := hval
        exact ⟨nofun, fun ⟨_, hi, _⟩ => (nomatch hi)⟩
      | some i =>
        have hrec := hiff i (hlen ▸ (List.getElem?_eq_some_iff.mp hval).1)
        rw [hval, Option.some_inj] at hrec
        rw [hrec]
        exact ⟨fun hall => ⟨i, rfl, hall⟩, fun ⟨_, hi, hall⟩ => Option.some.inj hi ▸ hall⟩
  · obtain ⟨vals, col, hlookup, hvals, hgather⟩ := lookup_columns hgroups hv
    obtain ⟨hlen, hreads⟩ := assetRecordValues_spec hjoins hv hvals
    refine ⟨col, hlookup, fun r parent hr => ?_⟩
    obtain ⟨x, hx, hval⟩ := gatherSegmentAtParents_spec hgather r parent hr
    refine ⟨x, hx, ?_⟩
    cases parent with
    | none => exact .inl ⟨rfl, hval⟩
    | some i =>
      obtain ⟨x', hx', hread⟩ := hreads i (hlen ▸ (List.getElem?_eq_some_iff.mp hval).1)
      obtain rfl := Option.some.inj (hval.symm.trans hx')
      exact .inr ⟨i, rfl, hread⟩

end Run

section Shots

def shotsEnv : AssetEnv Nat Nat Nat Nat where
  eq a b := a == b
  lt a b := decide (a < b)
  le a b := decide (a ≤ b)
  assign lat _ := lat
  shardOf leaf := leaf
  evaluate _ _ := .error (.raised "no expressions")
  exceeds total n := decide (9 * n < 10 * total)
  keyText _ := "shot"
  promote _ x := x
  nan := 999

/-- Two shots of the primary and a missing number, in another order and beside a missing one. -/
def shotsSibling : SiblingFile Nat Nat where
  keys _ := [some 30, some 10, ⊤]
  datasets path := if path = "quality" then .flat [0, 1, 1] else .flat [300, 100, 0]
  zero _ := 0
  rect path := by
    split_ifs <;> exact fun l hl => List.mem_singleton.mp hl ▸ rfl

/-- The shots of good quality with their elevations. -/
def shotsSource : AssetSource Nat where
  assets := [("beside", ⟨"shot", "shot"⟩)]
  filters := [⟨"beside", ⟨"quality", none, none, .eq, 1, [], true⟩⟩]
  vars := [⟨"elev", "beside", "elev_lowestmode"⟩]
  nodup := List.nodup_singleton _

def shotsPrimary (_ : String) : List (Key Nat) := [some 10, some 20, some 30, ⊤]

/-- Samples of the records 0 to 3, and one of none. -/
def shotsParents : List (Option Nat) := [some 0, some 1, some 2, some 3, none]

/-- Only the first record's shot is of good quality; the second and the missing number have no
row. -/
theorem sibling_join_by_key_shots :
    ∃ keep col, readAssets shotsEnv shotsSource shotsPrimary [("beside", shotsSibling)] 4 shotsParents =
        .ok (some keep, [("elev", col)]) ∧
      keep = [true, false, false, false, false] ∧ col = [100, 999, 300, 999, 999] ∧
      ∀ (r : Nat) parent, shotsParents[r]? = some parent → ∃ x, col[r]? = some x ∧
        (parent = none ∧ x = shotsEnv.nan ∨ ∃ i, parent = some i ∧
          Reads shotsEnv shotsSource shotsPrimary [("beside", shotsSibling)]
            ⟨"elev", "beside", "elev_lowestmode"⟩ i x) := by
  have hread : readAssets shotsEnv shotsSource shotsPrimary [("beside", shotsSibling)] 4 shotsParents =
      .ok (some [true, false, false, false, false], [("elev", [100, 999, 300, 999, 999])]) := by
    decide +kernel
  refine ⟨_, _, hread, rfl, rfl, ?_⟩
  obtain ⟨-, -, hvars⟩ := (sibling_join_by_key shotsEnv shotsSource shotsPrimary
    [("beside", shotsSibling)] 4).2.2 _ _ _ hread
  obtain ⟨col, hlookup, hrows⟩ := hvars _ (.head _)
  obtain rfl := Option.some.inj hlookup
  exact hrows

end Shots
end Zagg.Processing
