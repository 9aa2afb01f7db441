import Zagg.Processing.Selection

/-!
# Planned and full point reads

A plan's rows and the window between the shard's first and last row are both increasing and
both hold every row of the shard, so masking either leaves the shard's rows in their order.
-/
namespace Zagg.Processing

open Zagg.Lib

section Rows
variable {α β C S : Type}

theorem gather_zipWith {δ : Type} (f : α → β → δ) {a : List α} {b : List β} {idx : List Nat}
    (ha : ∀ i ∈ idx, i < a.length) (hb : ∀ i ∈ idx, i < b.length) :
    List.zipWith f (gather a idx) (gather b idx) = gather (List.zipWith f a b) idx := by
  induction idx with
  | nil => rfl
  | cons i idx ih =>
    have hia := ha i (.head _)
    have hib := hb i (.head _)
    rw [gather_cons hia, gather_cons hib, List.zipWith_cons_cons,
      ih (fun j hj => ha j (.tail _ hj)) (fun j hj => hb j (.tail _ hj)),
      gather_cons (by rw [List.length_zipWith]; omega), List.getElem_zipWith]

/-- The window from the first row a mask holds of to the last. -/
theorem window_spec {mask : List Bool} (h : mask.any id = true) :
    (flatnonzero mask).headD 0 < (flatnonzero mask).getLastD 0 + 1 ∧
      (flatnonzero mask).getLastD 0 + 1 ≤ mask.length ∧
      ∀ i, mask[i]? = some true →
        (flatnonzero mask).headD 0 ≤ i ∧ i < (flatnonzero mask).getLastD 0 + 1 := by
  have hmem : ∀ i, i ∈ flatnonzero mask ↔ mask[i]? = some true := fun _ => mem_flatnonzero
  have hsorted := pairwise_flatnonzero mask
  obtain ⟨b, hb, hbt⟩ := List.any_eq_true.mp h
  obtain ⟨k, hk⟩ := List.mem_iff_getElem?.mp hb
  have hkmem : k ∈ flatnonzero mask := (hmem k).mpr (by rw [hk]; exact congrArg some hbt)
  have hlt : ∀ i ∈ flatnonzero mask, i < mask.length := fun i hi =>
    (List.getElem?_eq_some_iff.mp ((hmem i).mp hi)).1
  have hhead : ∀ i ∈ flatnonzero mask, (flatnonzero mask).headD 0 ≤ i := by
    generalize flatnonzero mask = l at hsorted
    intro i hi
    cases l with
    | nil => cases hi
    | cons a l =>
      rcases List.mem_cons.mp hi with rfl | hi
      · exact le_rfl
      · exact ((List.pairwise_cons.mp hsorted).1 i hi).le
  have hlast : ∀ i ∈ flatnonzero mask, i ≤ (flatnonzero mask).getLastD 0 := by
    generalize flatnonzero mask = l at hsorted
    intro i hi
    rcases List.eq_nil_or_concat' l with rfl | ⟨l, a, rfl⟩
    · cases hi
    · rw [List.getLastD_concat]
      rcases List.mem_append.mp hi with hi | hi
      · exact ((List.pairwise_append.mp hsorted).2.2 i hi a (.head _)).le
      · exact (List.mem_singleton.mp hi).le
  have hlastmem : (flatnonzero mask).getLastD 0 ∈ flatnonzero mask := by
    generalize flatnonzero mask = l at hkmem
    rcases List.eq_nil_or_concat' l with rfl | ⟨l, a, rfl⟩
    · cases hkmem
    · rw [List.getLastD_concat]
      simp
  refine ⟨Nat.lt_succ_of_le ((hhead k hkmem).trans (hlast k hkmem)), hlt _ hlastmem, fun i hi => ?_⟩
  exact ⟨hhead i ((hmem i).mpr hi), Nat.lt_succ_of_le (hlast i ((hmem i).mpr hi))⟩

theorem slice_eq_gather (l : List α) {s e : Nat} (hse : s ≤ e) (he : e ≤ l.length) :
    slice l s e = gather l (List.range' s (e - s)) := by
  have hg := gather_range' l (s := s) (n := e - s) (by omega)
  rw [Nat.add_sub_cancel' hse] at hg
  exact hg.symm

variable [DecidableEq S] (env : Env β C S) (shardKey : S)

/-- The row is of the shard. -/
def inShard (leafIds : List C) (i : Nat) : Bool :=
  (leafIds[i]?).elim false fun leaf => decide (env.shardOf leaf = shardKey)

theorem shardMask_gather {leafIds : List C} {idx : List Nat} (h : ∀ i ∈ idx, i < leafIds.length) :
    shardMask env shardKey (gather leafIds idx) = idx.map (inShard env shardKey leafIds) := by
  induction idx with
  | nil => rfl
  | cons i idx ih =>
    have hi := h i (.head _)
    have hrest := ih fun j hj => h j (.tail _ hj)
    rw [shardMask] at hrest
    rw [gather_cons hi, shardMask, List.map_cons, hrest, List.map_cons, inShard,
      List.getElem?_eq_getElem hi]
    rfl

theorem getElem?_shardMask (leafIds : List C) (i : Nat) :
    (shardMask env shardKey leafIds)[i]? = some true ↔ inShard env shardKey leafIds i = true := by
  rw [shardMask, List.getElem?_map, inShard]
  cases leafIds[i]? with
  | none => simp
  | some leaf => simp

theorem lt_of_inShard {leafIds : List C} {i : Nat} (h : inShard env shardKey leafIds i = true) :
    i < leafIds.length := by
  by_contra hge
  rw [inShard, List.getElem?_eq_none (not_lt.mp hge)] at h
  cases h

end Rows

section Segments
variable {β : Type} {src : DataSource β} {file : File β} {n : Nat}

theorem length_paintRecords {α γ : Type} {refuse : LinkRecord → Option String} {value : α → Nat → γ}
    {rs : List (LinkRecord × α)} {out out' : List γ} (h : paintRecords refuse value rs out = .ok out') :
    out'.length = out.length := by
  induction rs generalizing out with
  | nil => cases h; rfl
  | cons x rs ih =>
    rw [paintRecords, List.foldlM_cons] at h
    obtain ⟨mid, hmid, hrest⟩ := bind_ok h
    rw [ih hrest]
    split_ifs at hmid
    · rw [Except.ok.inj hmid]
    · cases hr : refuse x.1 with
      | some e => rw [hr] at hmid; cases hmid
      | none =>
        rw [hr] at hmid
        rw [← Except.ok.inj hmid, paint, List.length_mapIdx]

theorem crossMask_length {C S : Type} {env : Env β C S} {cross : Option (List Bool)}
    (h : crossMask env src file n = .ok cross) : ∀ m, cross = some m → m.length = n := by
  refine foldlM_inv (fun cross => ∀ m, cross = some m → m.length = n) ?_ nofun h
  intro p _ cross cross' hcross hstep m hm
  obtain ⟨link, -, hstep⟩ := bind_ok hstep
  obtain ⟨coarse, -, hstep⟩ := bind_ok hstep
  cases hexp : expandMaskToBase coarse (file.link link) n with
  | error e => rw [hexp] at hstep; cases hstep
  | ok expanded =>
    rw [hexp] at hstep
    have hlen := length_paintRecords hexp
    rw [List.length_replicate] at hlen
    rw [← Except.ok.inj hstep] at hm
    obtain rfl := Option.some.inj hm
    cases cross with
    | none => exact hlen
    | some c' => rw [andMask, List.length_zipWith, hcross c' rfl, hlen, Nat.min_self]

theorem readSegmentBroadcasts_length {segments : List (String × List β)}
    (h : readSegmentBroadcasts src file n none (fun _ => none) = .ok segments) :
    ∀ s ∈ segments, s.2.length = n := by
  refine foldlM_inv (fun out : List (String × List β) => ∀ s ∈ out, s.2.length = n) ?_
    (fun s hs => absurd hs List.not_mem_nil) h
  intro l _ out out' hout hstep
  obtain ⟨link, hlink, hstep⟩ := bind_ok hstep
  refine foldlM_inv (fun out : List (String × List β) => ∀ s ∈ out, s.2.length = n) ?_ hout hstep
  intro var _ out out' hout hstep
  have hsome : ∃ k, link = some k := by
    dsimp only at hlink
    cases hl : l.2.link with
    | none => rw [hl] at hlink; cases hlink
    | some c =>
      rw [hl] at hlink
      cases hv : validateLinkDisjoint l.1 (file.link c) with
      | error e => simp only [hv] at hlink; cases hlink
      | ok u =>
        simp only [hv] at hlink
        exact ⟨_, (Except.ok.inj hlink).symm⟩
  obtain ⟨k, rfl⟩ := hsome
  split_ifs at hstep
  dsimp only at hstep
  cases hb : broadcastSegmentToBase (file.fill var.2) (file.scalars var.2) k n with
  | error e => rw [hb] at hstep; cases hstep
  | ok values =>
    rw [hb] at hstep
    have hlen := length_paintRecords hb
    rw [List.length_replicate] at hlen
    intro s hs
    rw [← Except.ok.inj hstep] at hs
    rcases mem_put hs with rfl | hs
    · exact hlen
    · exact hout s hs

end Segments

theorem foldlM_error {α κ ε : Type} {step : κ → α → Except ε κ} {l : List α} {k : κ} {e : ε}
    (h : l.foldlM step k = .error e) : ∃ a ∈ l, ∃ k', step k' a = .error e := by
  induction l generalizing k with
  | nil => cases h
  | cons a l ih =>
    rw [List.foldlM_cons] at h
    cases hstep : step k a with
    | error e' =>
      rw [hstep] at h
      cases h
      exact ⟨a, .head _, k, hstep⟩
    | ok k' =>
      rw [hstep] at h
      obtain ⟨b, hb, hb'⟩ := ih h
      exact ⟨b, .tail _ hb, hb'⟩

section Order
variable {κ γ ρ ε : Type}

/-- Two orders of two fallible steps, the second returning early where the rest would return
nothing anyway. -/
theorem bind_swap (B : Except ε κ) (X : Except ε γ) (K : κ → γ → Except ε (Option ρ))
    (early : γ → Bool) (hearly : ∀ x, early x = true → ∀ k, K k x = .ok none) :
    (∀ r, (B.bind fun k => X.bind fun x => K k x) = .ok r →
      (X.bind fun x => if early x then .ok none else B.bind fun k => K k x) = .ok r) ∧
    ∀ r, (X.bind fun x => if early x then .ok none else B.bind fun k => K k x) = .ok r →
      (B.bind fun k => X.bind fun x => K k x) = .ok r ∨ (r = none ∧ ∃ e, B = .error e) := by
  cases B with
  | error e =>
    cases X with
    | error e' => exact ⟨nofun, nofun⟩
    | ok x =>
      refine ⟨nofun, fun r h => ?_⟩
      simp only [Except.bind] at h
      split_ifs at h
      exact .inr ⟨(Except.ok.inj h).symm, e, rfl⟩
  | ok k =>
    cases X with
    | error e' => exact ⟨nofun, nofun⟩
    | ok x =>
      simp only [Except.bind]
      split_ifs with he
      · rw [hearly x he k]
        exact ⟨fun r h => h, fun r h => .inl h⟩
      · exact ⟨fun r h => h, fun r h => .inl h⟩

end Order

section Routes
variable {β C S : Type} [DecidableEq S] (env : Env β C S) (shardKey : S)

/-- The records with rows tile the base rows below `n` in their order. -/
structure Link.Tiles (link : Link) (n : Nat) : Prop where
  increasing : link.Increasing
  within : ∀ r ∈ link.nonempty, r.stop ≤ n
  covers : ∀ row < n, ∃ r ∈ link.nonempty, r.owns row = true

theorem mem_of_max? {l : List Int} {a : Int} (h : l.max? = some a) : a ∈ l ∧ ∀ b ∈ l, b ≤ a :=
  List.max?_eq_some_iff.mp h

theorem Link.Tiles.baseExtent_eq {link : Link} {n : Nat} (h : link.Tiles n) : link.baseExtent = n := by
  have hle : ∀ stop ∈ link.nonempty.map LinkRecord.stop, 0 < stop ∧ stop ≤ n := by
    intro stop hstop
    obtain ⟨r, hr, rfl⟩ := List.mem_map.mp hstop
    have hbeg := h.increasing.beg_nonneg r hr
    have hcnt : 0 < r.cnt := of_decide_eq_true (List.mem_filter.mp hr).2
    refine ⟨?_, h.within r hr⟩
    show 0 < r.beg + r.cnt
    omega
  rw [Link.baseExtent]
  cases hmax : (link.nonempty.map LinkRecord.stop).max? with
  | none =>
    have hnil := List.max?_eq_none_iff.mp hmax
    have hzero : n = 0 := by
      by_contra hne
      obtain ⟨r, hr, -⟩ := h.covers 0 (Nat.pos_of_ne_zero hne)
      rw [List.map_eq_nil_iff.mp hnil] at hr
      cases hr
    rw [hzero]
    rfl
  | some stop =>
    obtain ⟨hmem, hall⟩ := mem_of_max? hmax
    obtain ⟨hpos, hstop⟩ := hle stop hmem
    obtain ⟨r, hr, ho⟩ := h.covers (n - 1) (by omega)
    have hlast := hall r.stop (List.mem_map_of_mem hr)
    have howns := (owns_iff.mp ho).2
    show stop = n
    omega

/-- The rows of one shard, in two increasing lists that both hold all of them, are selected
alike. -/
theorem sameRows_of {leafIds : List C} {n : Nat} {idx idx' : List Nat} (hlen : leafIds.length = n)
    (hidx : idx.Pairwise (· < ·)) (hidx' : idx'.Pairwise (· < ·)) (hlt : ∀ i ∈ idx, i < n)
    (hlt' : ∀ i ∈ idx', i < n) (hmem : ∀ i, inShard env shardKey leafIds i = true → i ∈ idx)
    (hmem' : ∀ i, inShard env shardKey leafIds i = true → i ∈ idx') {α : Type} {l : List α}
    (hl : l.length = n) :
    select (gather l idx) (shardMask env shardKey (gather leafIds idx)) =
      select (gather l idx') (shardMask env shardKey (gather leafIds idx')) := by
  rw [shardMask_gather env shardKey (hlen ▸ hlt), shardMask_gather env shardKey (hlen ▸ hlt'),
    select_gather (hl ▸ hlt), select_gather (hl ▸ hlt')]
  congr 1
  exact filter_eq_of_sorted hidx hidx' fun i hi => iff_of_true (hmem i hi) (hmem' i hi)

/-- A plan over slices of the base in their order. -/
structure ReadPlan.Slices (plan : ReadPlan) (n : Nat) : Prop where
  partly : plan.fullRead = false
  inside : ∀ s ∈ plan.baseSlices, s.1 < s.2 ∧ s.2 ≤ n
  apart : plan.baseSlices.Pairwise fun s s' => s.2 ≤ s'.1
  chunks : plan.chunkLists = plan.baseSlices.map fun s => [s]
  runs : plan.parentRuns = [] ↔ plan.baseSlices = []

namespace ReadPlan.Slices
variable {plan : ReadPlan} {n : Nat}

theorem pairwise_rows (h : plan.Slices n) : plan.rows.Pairwise (· < ·) :=
  (pairwise_planRows h.inside h.apart).1

theorem rows_lt (h : plan.Slices n) : ∀ i ∈ plan.rows, i < n := (pairwise_planRows h.inside h.apart).2

theorem execute_eq (h : plan.Slices n) {α : Type} {l : List α} (hl : l.length = n) :
    executeReadPlan plan l = gather l plan.rows :=
  executeReadPlan_eq h.partly h.inside h.chunks h.runs hl.ge

end ReadPlan.Slices

/-- A base filter does not fit its dataset. -/
def Misfit (src : DataSource β) (file : File β) : Prop :=
  ∃ p ∈ src.baseStructured, ∃ e, predicateColumn p (file.datasets p.dataset) = .error e

variable {src : DataSource β} {file : File β} {n : Nat}

omit [DecidableEq S] in
theorem misfit_of_baseMask {f : List β → List β} {mask : List Bool} {e : String}
    (h : baseMask env src (fun path => (file.datasets path).mapRows f) mask = .error e) :
    Misfit src file := by
  rw [baseMask] at h
  obtain ⟨p, hp, keep, hstep⟩ := foldlM_error h
  refine ⟨p, hp, e, ?_⟩
  rw [predicateMask, predicateColumn_mapRows, predicateColumn_mapRows] at hstep
  cases hcol : predicateColumn p (file.datasets p.dataset) with
  | ok l => rw [hcol] at hstep; cases hstep
  | error e' => rw [hcol] at hstep; cases hstep; rfl

/-- The base mask with the cross mask at the rows read. -/
def andCross (f : ∀ {α : Type}, List α → List α) (mask : List Bool) (keep : Option (List Bool)) :
    Option (List Bool) → Option (List Bool)
  | none => keep
  | some cross => some (andMask keep (select (f cross) mask))

/-- What follows the masks of a read. -/
def finishRead (src : DataSource β) (file : File β) (n : Nat) (f : ∀ {α : Type}, List α → List α)
    (leafIds : List C) (mask : List Bool) (keep : Option (List Bool)) : Except String (Option (Table β C)) :=
  if keepsNothing keep then .ok none
  else
    (readSegmentBroadcasts src file n none fun _ => none).bind fun segments =>
      assemble env src (fun path => (file.datasets path).mapRows f)
        (segments.map fun s => (s.1, f s.2)) (f leafIds) mask keep

variable {f g : ∀ {α : Type}, List α → List α} {mask mask' : List Bool}

theorem andCross_congr (h : SameRows n f g mask mask') (keep : Option (List Bool))
    {cross : Option (List Bool)} (hcross : ∀ m, cross = some m → m.length = n) :
    andCross f mask keep cross = andCross g mask' keep cross := by
  cases cross with
  | none => rfl
  | some m => rw [andCross, andCross, h m (hcross m rfl)]

omit [DecidableEq S] in
theorem finishRead_congr (h : SameRows n f g mask mask')
    (hrows : ∀ v ∈ src.vars, (file.datasets v.path).HasRows n) {leafIds : List C}
    (hleaf : leafIds.length = n) (keep : Option (List Bool)) :
    finishRead env src file n f leafIds mask keep = finishRead env src file n g leafIds mask' keep := by
  rw [finishRead, finishRead]
  split
  · rfl
  · cases hseg : readSegmentBroadcasts src file n none fun _ => none with
    | error e => rfl
    | ok segments => exact assemble_congr env h hrows (readSegmentBroadcasts_length hseg) hleaf keep

omit [DecidableEq S] in
/-- The base columns over a plan's rows. -/
theorem zipWith_execute {plan : ReadPlan} (hplan : plan.Slices n)
    (hlats : (file.scalars src.latitude).length = n) (hlons : (file.scalars src.longitude).length = n)
    {leafIds : List C}
    (hleaf : leafIds = List.zipWith env.assign (file.scalars src.latitude) (file.scalars src.longitude)) :
    List.zipWith env.assign (executeReadPlan plan (file.scalars src.latitude))
      (executeReadPlan plan (file.scalars src.longitude)) = gather leafIds plan.rows := by
  have hlt : ∀ {l : List β}, l.length = n → ∀ r ∈ plan.rows, r < l.length := fun hl r hr =>
    hl ▸ hplan.rows_lt r hr
  rw [hplan.execute_eq hlats, hplan.execute_eq hlons, gather_zipWith env.assign (hlt hlats) (hlt hlons),
    ← hleaf]

section Shard
variable {leafIds : List C}
  (hleaf : leafIds = List.zipWith env.assign (file.scalars src.latitude) (file.scalars src.longitude))
  {i : Nat} (hi : inShard env shardKey leafIds i = true)
include hleaf hi

/-- A plan over a row of the shard, read. -/
theorem executePlanGroup_eq {plan : ReadPlan} (hplan : plan.Slices n)
    (hlats : (file.scalars src.latitude).length = n) (hlons : (file.scalars src.longitude).length = n)
    (hrow : i ∈ plan.rows) :
    let mask := shardMask env shardKey (executeReadPlan plan leafIds)
    executePlanGroup env src file shardKey plan n =
      (baseMask env src (fun path => (file.datasets path).mapRows (executeReadPlan plan)) mask).bind fun keep =>
        (crossMask env src file n).bind fun cross =>
          finishRead env src file n (executeReadPlan plan) leafIds mask
            (andCross (executeReadPlan plan) mask keep cross) := by
  have hlen : leafIds.length = n := by rw [hleaf, List.length_zipWith, hlats, hlons, Nat.min_self]
  have hleafs := (zipWith_execute env hplan hlats hlons hleaf).trans (hplan.execute_eq hlen).symm
  have hrows : executeReadPlan plan (file.scalars src.latitude) ≠ [] := by
    intro hnil
    have hgather := length_gather (hlats ▸ hplan.rows_lt : ∀ r ∈ plan.rows, r < (file.scalars src.latitude).length)
    rw [← hplan.execute_eq hlats, hnil, List.length_nil] at hgather
    rw [List.length_eq_zero_iff.mp hgather.symm] at hrow
    cases hrow
  have hany : (shardMask env shardKey (executeReadPlan plan leafIds)).any id = true := by
    rw [hplan.execute_eq hlen, shardMask_gather env shardKey (hlen ▸ hplan.rows_lt)]
    exact List.any_eq_true.mpr ⟨true, List.mem_map.mpr ⟨i, hrow, hi⟩, rfl⟩
  have hfinish : ∀ keep, (if keepsNothing keep then .ok none
      else (readSegmentBroadcasts src file n none fun _ => none).bind fun segments =>
        assemble env src (fun path => (file.datasets path).mapRows (executeReadPlan plan))
          (segments.map fun s => (s.1, gather s.2 plan.rows)) (executeReadPlan plan leafIds)
          (shardMask env shardKey (executeReadPlan plan leafIds)) keep) =
      finishRead env src file n (executeReadPlan plan) leafIds
        (shardMask env shardKey (executeReadPlan plan leafIds)) keep := by
    intro keep
    rw [finishRead]
    split
    · rfl
    · cases hseg : readSegmentBroadcasts src file n none fun _ => none with
      | error e => rfl
      | ok segments =>
        have hsegments : segments.map (fun s => (s.1, executeReadPlan plan s.2)) =
            segments.map fun s => (s.1, gather s.2 plan.rows) :=
          List.map_congr_left fun s hs => by
            rw [hplan.execute_eq (readSegmentBroadcasts_length hseg s hs)]
        simp only [Except.bind]
        rw [hsegments]
  rw [executePlanGroup]
  dsimp only
  rw [if_neg hrows, hleafs, hany]
  show Except.bind _ _ = _
  congr 1
  funext keep
  cases hcross : crossMask env src file n with
  | error e => rfl
  | ok cross =>
    have hm := crossMask_length hcross
    cases cross with
    | none => exact hfinish keep
    | some m =>
      have hgather := hplan.execute_eq (hm m rfl)
      have hkeep := hfinish (some (andMask keep (select (gather m plan.rows)
        (shardMask env shardKey (executeReadPlan plan leafIds)))))
      rw [← hgather] at hkeep
      simp only [Except.bind, ← hgather]
      exact hkeep

/-- The full read through the window of the shard's rows. -/
theorem readGroupFull_eq (hlats : (file.scalars src.latitude).length = n) :
    ∃ lo hi, lo < hi ∧ hi ≤ leafIds.length ∧
      (∀ r, inShard env shardKey leafIds r = true → lo ≤ r ∧ r < hi) ∧
      let mask := shardMask env shardKey (slice leafIds lo hi)
      readGroupFull env src file shardKey = (crossMask env src file n).bind fun cross =>
        if keepsNothing (cross.map fun m => slice m lo hi) then .ok none
        else (baseMask env src (fun path => (file.datasets path).mapRows fun l => slice l lo hi) mask).bind
          fun keep => finishRead env src file n (fun l => slice l lo hi) leafIds mask
            (andCross (fun l => slice l lo hi) mask keep cross) := by
  have hany : (shardMask env shardKey leafIds).any id = true :=
    List.any_eq_true.mpr ⟨true, List.mem_of_getElem? ((getElem?_shardMask env shardKey leafIds i).mpr hi), rfl⟩
  obtain ⟨hlt, hle, hmem⟩ := window_spec hany
  have hlats' : file.scalars src.latitude ≠ [] := by
    intro hnil
    have hbound := lt_of_inShard env shardKey hi
    rw [hleaf, hnil] at hbound
    cases hbound
  refine ⟨_, _, hlt, ?_, fun r hr => hmem r ((getElem?_shardMask env shardKey leafIds r).mpr hr), ?_⟩
  · rw [shardMask, List.length_map] at hle
    exact hle
  · have hslice : ∀ lo hi, slice (shardMask env shardKey leafIds) lo hi =
        shardMask env shardKey (slice leafIds lo hi) := by
      intro lo hi
      rw [slice, slice, shardMask, shardMask, List.map_take, List.map_drop]
    rw [readGroupFull]
    dsimp only
    rw [if_neg hlats', ← hleaf, hany, hslice, hlats]
    rfl

end Shard

/-- The reads agree: what the first returns the second returns, and the other way round unless
the first one raises on a base filter where the second has returned nothing before. -/
def Agree (src : DataSource β) (file : File β) (planned full : Except String (Option (Table β C))) : Prop :=
  (∀ r, planned = .ok r → full = .ok r) ∧
    ∀ r, full = .ok r → planned = .ok r ∨ (r = none ∧ Misfit src file)

theorem agree_of_eq {x : Except String (Option (Table β C))} : Agree src file x x :=
  ⟨fun _ h => h, fun _ h => .inl h⟩

theorem keepsNothing_some {m : List Bool} : keepsNothing (some m) = true ↔ ∀ b ∈ m, b = false := by
  rw [keepsNothing, Bool.not_eq_true', List.any_eq_false]
  exact forall₂_congr fun b _ => Bool.eq_false_iff.symm

/-- A cross mask that holds of no row read leaves nothing. -/
theorem keepsNothing_andMask {m mask : List Bool} {keep : Option (List Bool)}
    (h : keepsNothing (some m) = true) : keepsNothing (some (andMask keep (select m mask))) = true := by
  rw [keepsNothing_some] at h ⊢
  have hselect : ∀ b ∈ select m mask, b = false := by
    intro b hb
    obtain ⟨p, hp, rfl⟩ := List.mem_map.mp hb
    exact h _ (List.of_mem_zip (List.mem_filter.mp hp).1).1
  cases keep with
  | none => exact hselect
  | some k =>
    intro b hb
    rw [andMask] at hb
    obtain ⟨i, hi, rfl⟩ := List.mem_iff_getElem.mp hb
    have hlt : i < (select m mask).length := by
      rw [List.length_zipWith] at hi
      omega
    rw [List.getElem_zipWith, hselect _ (List.getElem_mem hlt), Bool.and_false]

/-- Without a row of the shard nothing is read. -/
theorem readGroupFull_none {leafIds : List C}
    (hleaf : leafIds = List.zipWith env.assign (file.scalars src.latitude) (file.scalars src.longitude))
    (h : ∀ i, inShard env shardKey leafIds i ≠ true) : readGroupFull env src file shardKey = .ok none := by
  have hany : (shardMask env shardKey leafIds).any id = false := by
    refine List.any_eq_false.mpr fun b hb => ?_
    obtain ⟨i, hi⟩ := List.mem_iff_getElem?.mp hb
    intro htrue
    have hbt : b = true := htrue
    exact h i ((getElem?_shardMask env shardKey leafIds i).mp (hbt ▸ hi))
  rw [readGroupFull]
  dsimp only
  split
  · rfl
  · rw [← hleaf, hany]
    rfl

theorem executePlanGroup_none {plan : ReadPlan} (hplan : plan.Slices n)
    (hlats : (file.scalars src.latitude).length = n) (hlons : (file.scalars src.longitude).length = n)
    {leafIds : List C}
    (hleaf : leafIds = List.zipWith env.assign (file.scalars src.latitude) (file.scalars src.longitude))
    (h : ∀ i, inShard env shardKey leafIds i ≠ true) :
    executePlanGroup env src file shardKey plan n = .ok none := by
  have hlen : leafIds.length = n := by rw [hleaf, List.length_zipWith, hlats, hlons, Nat.min_self]
  have hany : (shardMask env shardKey (gather leafIds plan.rows)).any id = false := by
    rw [shardMask_gather env shardKey (hlen ▸ hplan.rows_lt)]
    refine List.any_eq_false.mpr fun b hb => ?_
    obtain ⟨i, -, rfl⟩ := List.mem_map.mp hb
    exact h i
  rw [executePlanGroup]
  dsimp only
  split
  · rfl
  · rw [zipWith_execute env hplan hlats hlons hleaf, hany]
    rfl

theorem executePlanGroup_agree {plan : ReadPlan} (hplan : plan.Slices n)
    (hlats : (file.scalars src.latitude).length = n) (hlons : (file.scalars src.longitude).length = n)
    {leafIds : List C}
    (hleaf : leafIds = List.zipWith env.assign (file.scalars src.latitude) (file.scalars src.longitude))
    (hrows : ∀ i, inShard env shardKey leafIds i = true → i ∈ plan.rows)
    (hvars : ∀ v ∈ src.vars, (file.datasets v.path).HasRows n)
    (hfilters : ∀ p ∈ src.baseStructured, (file.datasets p.dataset).HasRows n) :
    Agree src file (executePlanGroup env src file shardKey plan n) (readGroupFull env src file shardKey) := by
  have hlen : leafIds.length = n := by rw [hleaf, List.length_zipWith, hlats, hlons, Nat.min_self]
  by_cases hnone : ∀ i, inShard env shardKey leafIds i ≠ true
  · rw [executePlanGroup_none env shardKey hplan hlats hlons hleaf hnone,
      readGroupFull_none env shardKey hleaf hnone]
    exact agree_of_eq
  · obtain ⟨i, hi⟩ := not_forall.mp hnone
    have hi := not_not.mp hi
    obtain ⟨lo, hi', hlt, hle, hwindow, hfull⟩ := readGroupFull_eq env shardKey hleaf hi hlats
    have hexec := executePlanGroup_eq env shardKey hleaf hi hplan hlats hlons (hrows i hi)
    have hsame : SameRows n (executeReadPlan plan) (fun l => slice l lo hi')
        (shardMask env shardKey (executeReadPlan plan leafIds)) (shardMask env shardKey (slice leafIds lo hi')) := by
      intro α l hl
      show select (executeReadPlan plan l) _ = select (slice l lo hi') _
      rw [hplan.execute_eq hl, hplan.execute_eq hlen, slice_eq_gather leafIds hlt.le hle,
        slice_eq_gather l hlt.le (by omega)]
      refine sameRows_of env shardKey hlen hplan.pairwise_rows (List.pairwise_lt_range' 1 Nat.one_pos)
        hplan.rows_lt (fun r hr => ?_) hrows (fun r hr => ?_) hl
      · rw [List.mem_range'_1] at hr
        omega
      · rw [List.mem_range'_1]
        have hr := hwindow r hr
        omega
    dsimp only at hexec hfull
    rw [baseMask_congr env hsame hfilters] at hexec
    have hfinish : ∀ keep cross, crossMask env src file n = .ok cross →
        finishRead env src file n (executeReadPlan plan) leafIds
            (shardMask env shardKey (executeReadPlan plan leafIds))
            (andCross (executeReadPlan plan) (shardMask env shardKey (executeReadPlan plan leafIds)) keep cross) =
          finishRead env src file n (fun l => slice l lo hi') leafIds
            (shardMask env shardKey (slice leafIds lo hi'))
            (andCross (fun l => slice l lo hi') (shardMask env shardKey (slice leafIds lo hi')) keep cross) := by
      intro keep cross hcross
      rw [andCross_congr hsame keep (crossMask_length hcross)]
      exact finishRead_congr env hsame hvars hlen _
    rw [hexec, hfull]
    have hplanned : ∀ keep, ((crossMask env src file n).bind fun cross =>
        finishRead env src file n (executeReadPlan plan) leafIds
          (shardMask env shardKey (executeReadPlan plan leafIds))
          (andCross (executeReadPlan plan) (shardMask env shardKey (executeReadPlan plan leafIds)) keep cross)) =
        (crossMask env src file n).bind fun cross => finishRead env src file n (fun l => slice l lo hi') leafIds
          (shardMask env shardKey (slice leafIds lo hi'))
          (andCross (fun l => slice l lo hi') (shardMask env shardKey (slice leafIds lo hi')) keep cross) := by
      intro keep
      cases hcross : crossMask env src file n with
      | error e => rfl
      | ok cross => exact hfinish keep cross hcross
    have hearly : ∀ cross : Option (List Bool),
        keepsNothing (cross.map fun m => slice m lo hi') = true → ∀ keep,
          finishRead env src file n (fun l => slice l lo hi') leafIds
            (shardMask env shardKey (slice leafIds lo hi'))
            (andCross (fun l => slice l lo hi') (shardMask env shardKey (slice leafIds lo hi')) keep cross) =
          .ok none := by
      intro cross hnothing keep
      cases cross with
      | none => cases hnothing
      | some m =>
        rw [andCross, finishRead, if_pos]
        exact keepsNothing_andMask hnothing
    simp only [hplanned]
    obtain ⟨hforth, hback⟩ := bind_swap (baseMask env src
      (fun path => (file.datasets path).mapRows fun l => slice l lo hi')
      (shardMask env shardKey (slice leafIds lo hi'))) (crossMask env src file n) _ _ hearly
    refine ⟨hforth, fun r hr => (hback r hr).imp_right fun hmisfit => ⟨hmisfit.1, ?_⟩⟩
    obtain ⟨e, he⟩ := hmisfit.2
    exact misfit_of_baseMask env he

/-- The spatial index of a group: a level linked to the base, its records tiling the base rows
in their order, one representative point each. -/
structure SpatialIndex (src : DataSource β) (file : File β) (lvl : Level) (c : LinkConfig) (n : Nat) :
    Prop where
  level : src.levels.lookup src.spatialIndex = some lvl
  link : lvl.link = some c
  base : c.toLevel = src.baseLevel
  tiles : (file.link c).Tiles n
  latitude : (file.scalars lvl.latitude).length = (file.link c).rows.length
  longitude : (file.scalars lvl.longitude).length = (file.link c).rows.length

/-- Every base dataset the read uses has `n` rows. -/
structure BaseRate (src : DataSource β) (file : File β) (n : Nat) : Prop where
  latitude : (file.scalars src.latitude).length = n
  longitude : (file.scalars src.longitude).length = n
  vars : ∀ v ∈ src.vars, (file.datasets v.path).HasRows n
  filters : ∀ p ∈ src.baseStructured, (file.datasets p.dataset).HasRows n

/-- The leaf cells of the points at two coordinate paths. -/
def leafCells (file : File β) (latitude longitude : String) : List C :=
  List.zipWith env.assign (file.scalars latitude) (file.scalars longitude)

/-- Every base row of the shard lies in a record within `pad` records of one whose point is in
the shard. -/
def PadReaches (src : DataSource β) (file : File β) (lvl : Level) (c : LinkConfig) : Prop :=
  ∀ i, inShard env shardKey (leafCells env file src.latitude src.longitude) i = true →
    ∃ r ∈ (file.link c).nonempty, r.owns i = true ∧
      ∃ q, inShard env shardKey (leafCells env file lvl.latitude lvl.longitude) q = true ∧
        r.index ≤ q + src.pad ∧ q ≤ r.index + src.pad

omit [DecidableEq S] in
theorem planRead_ne_error {link : Link} {mask : List Bool} {pad : Nat} {exceeds : Nat → Nat → Bool}
    (h : mask.length = link.rows.length) (e : String) : planRead mask link n pad exceeds ≠ .error e := by
  intro herror
  rw [planRead, if_neg (not_not.mpr h)] at herror
  dsimp only at herror
  split_ifs at herror

theorem parentRuns_ne_nil {link : Link} {mask : List Bool} {pad : Nat} {exceeds : Nat → Nat → Bool}
    {plan : ReadPlan} (h : planRead mask link n pad exceeds = .ok plan) (hfull : plan.fullRead = true) :
    plan.parentRuns ≠ [] := by
  rw [planRead] at h
  dsimp only at h
  split_ifs at h <;> cases h
  · cases hfull
  · cases hfull
  · exact List.cons_ne_nil _ _
  · cases hfull

/-- Where the link's records tile the base and pads reach every row of the shard, the planned
read agrees with the full one. -/
theorem plannedReadGroup_agree {lvl : Level} {c : LinkConfig} (hindex : SpatialIndex src file lvl c n)
    (hrate : BaseRate src file n) (hpads : PadReaches env shardKey src file lvl c) :
    Agree src file (plannedReadGroup env src file shardKey) (readGroupFull env src file shardKey) := by
  have hextent := hindex.tiles.baseExtent_eq
  have hplanned : plannedReadGroup env src file shardKey =
      if file.scalars lvl.latitude = [] then .ok none
      else if (file.link c).baseExtent ≤ 0 then .ok none
      else
        (planRead (shardMask env shardKey (leafCells env file lvl.latitude lvl.longitude)) (file.link c)
          (file.link c).baseExtent.toNat src.pad env.exceeds).bind fun plan =>
            if plan.parentRuns = [] then .ok none
            else if plan.fullRead then readGroupFull env src file shardKey
            else executePlanGroup env src file shardKey plan (file.link c).baseExtent.toNat := by
    rw [plannedReadGroup]
    simp only [hindex.level, hindex.link]
    rw [if_neg (not_not.mpr hindex.base)]
    rfl
  rw [hplanned, hextent, Int.toNat_natCast]
  have hzero : n = 0 → readGroupFull env src file shardKey = .ok none := by
    intro hn
    have hnil := List.length_eq_zero_iff.mp (hrate.latitude.trans hn)
    rw [readGroupFull]
    dsimp only
    rw [if_pos hnil]
  split
  · next hnil =>
    have hrows : (file.link c).rows = [] :=
      List.length_eq_zero_iff.mp (hindex.latitude.symm.trans (congrArg List.length hnil))
    have hn : n = 0 := by
      by_contra hne
      obtain ⟨r, hr, -⟩ := hindex.tiles.covers 0 (Nat.pos_of_ne_zero hne)
      rw [Link.nonempty, Link.records, hrows] at hr
      cases hr
    rw [hzero hn]
    exact agree_of_eq
  · split
    · next hn =>
      rw [hzero (by omega)]
      exact agree_of_eq
    · cases hplan : planRead (shardMask env shardKey (leafCells env file lvl.latitude lvl.longitude))
          (file.link c) n src.pad env.exceeds with
      | error e =>
        have hlen : (shardMask env shardKey (leafCells env file lvl.latitude lvl.longitude)).length =
            (file.link c).rows.length := by
          rw [shardMask, List.length_map, leafCells, List.length_zipWith, hindex.latitude, hindex.longitude,
            Nat.min_self]
        exact absurd hplan (planRead_ne_error hlen e)
      | ok plan =>
        simp only [Except.bind]
        cases hfull : plan.fullRead with
        | true =>
          rw [if_neg (parentRuns_ne_nil hplan hfull), if_pos rfl]
          exact agree_of_eq
        | false =>
          obtain ⟨hinside, hapart, hchunks, hruns, hcovers⟩ :=
            planRead_spec hindex.tiles.increasing hplan hfull
          have hslices : plan.Slices n := ⟨hfull, hinside, hapart, hchunks, hruns⟩
          have hrows : ∀ i, inShard env shardKey (leafCells env file src.latitude src.longitude) i = true →
              i ∈ plan.rows := by
            intro i hi
            obtain ⟨r, hr, howns, q, hq, hrq, hqr⟩ := hpads i hi
            exact hcovers r hr (hindex.tiles.within r hr) q
              ((getElem?_shardMask env shardKey _ q).mpr hq) hrq hqr i howns
          split
          · next hnil =>
            have hnone : ∀ i, inShard env shardKey (leafCells env file src.latitude src.longitude) i ≠ true := by
              intro i hi
              have hmem := hrows i hi
              rw [ReadPlan.rows, hruns.mp hnil] at hmem
              cases hmem
            rw [readGroupFull_none env shardKey rfl hnone]
            exact agree_of_eq
          · exact executePlanGroup_agree env shardKey hslices hrate.latitude hrate.longitude rfl hrows
              hrate.vars hrate.filters

end Routes

section Small

/-- Cells are latitudes, shards are cells. -/
def smallEnv : Env Nat Nat Nat where
  eq a b := a == b
  lt a b := decide (a < b)
  le a b := decide (a ≤ b)
  assign lat _ := lat
  shardOf leaf := leaf
  evaluate _ _ := .error (.raised "no expressions")
  exceeds total n := decide (9 * n < 10 * total)

/-- Three records over six rows, one record empty, with filters at both rates. -/
def smallSource (pad : Nat) (column : Option Nat) : DataSource Nat where
  latitude := "lat"
  longitude := "lon"
  vars := [⟨"h", "h", none⟩]
  filters := [.structured ⟨"q", none, column, .ge, 2, [], true⟩,
    .structured ⟨"flag", some "segment", none, .eq, 1, [], true⟩]
  levels := [("segment", ⟨"slat", "slon", some ⟨"photon", "beg", "cnt", 1⟩, [("dem", "dem")]⟩)]
  baseLevel := "photon"
  spatialIndex := "segment"
  pad := pad

def smallFile (starts : List Int) (counts : List Nat) (flags : List Nat) : File Nat where
  datasets path :=
    if path = "h" then .flat [10, 11, 12, 13, 14, 15]
    else if path = "q" then .flat [1, 2, 3, 4, 5, 6]
    else .flat flags
  scalars path :=
    if path = "lat" ∨ path = "lon" then [1, 1, 1, 2, 2, 2]
    else if path = "dem" then [7, 0, 9]
    else [1, 1, 2]
  starts _ := starts
  counts _ := counts
  fill _ := 0

theorem smallLink_tiles : (Link.mk [(1, 3), (0, 0), (4, 3)] 1).Tiles 6 :=
  ⟨⟨by decide, by decide⟩, by decide, by decide⟩

theorem smallSource_index (pad : Nat) (column : Option Nat) (flags : List Nat) :
    SpatialIndex (smallSource pad column) (smallFile [1, 0, 4] [3, 0, 3] flags)
      ⟨"slat", "slon", some ⟨"photon", "beg", "cnt", 1⟩, [("dem", "dem")]⟩ ⟨"photon", "beg", "cnt", 1⟩ 6 where
  level := rfl
  link := rfl
  base := rfl
  tiles := smallLink_tiles
  latitude := rfl
  longitude := rfl

theorem smallSource_rate (pad : Nat) (column : Option Nat) (starts : List Int) (counts flags : List Nat) :
    BaseRate (smallSource pad column) (smallFile starts counts flags) 6 := by
  refine ⟨rfl, rfl, fun v hv l hl => ?_, fun p hp l hl => ?_⟩
  · rw [List.mem_singleton.mp hv] at hl
    rw [List.mem_singleton.mp hl]
    rfl
  · rw [List.mem_singleton.mp hp] at hl
    rw [List.mem_singleton.mp hl]
    rfl

/-- The shard's rows are the first three. -/
theorem lt_three {i : Nat} (h : inShard smallEnv 1 [1, 1, 1, 2, 2, 2] i = true) : i < 3 := by
  have hall : ∀ i < 6, inShard smallEnv 1 [1, 1, 1, 2, 2, 2] i = true → i < 3 := by decide
  exact hall i (lt_of_inShard smallEnv 1 h) h

theorem smallSource_pads (pad : Nat) (column : Option Nat) (flags : List Nat) :
    PadReaches smallEnv 1 (smallSource pad column) (smallFile [1, 0, 4] [3, 0, 3] flags)
      ⟨"slat", "slon", some ⟨"photon", "beg", "cnt", 1⟩, [("dem", "dem")]⟩ ⟨"photon", "beg", "cnt", 1⟩ := by
  intro i hi
  have hlt := lt_three hi
  refine ⟨⟨0, 1, 0, 3⟩, List.mem_cons_self, decide_eq_true ⟨Int.natCast_nonneg i, ?_⟩, 0, rfl, Nat.zero_le _,
    Nat.zero_le _⟩
  show (i : Int) < 0 + 3
  omega

theorem plannedReadGroup_small :
    Agree (smallSource 0 none) (smallFile [1, 0, 4] [3, 0, 3] [1, 1, 0])
        (plannedReadGroup smallEnv (smallSource 0 none) (smallFile [1, 0, 4] [3, 0, 3] [1, 1, 0]) 1)
        (readGroupFull smallEnv (smallSource 0 none) (smallFile [1, 0, 4] [3, 0, 3] [1, 1, 0]) 1) ∧
      plannedReadGroup smallEnv (smallSource 0 none) (smallFile [1, 0, 4] [3, 0, 3] [1, 1, 0]) 1 =
        .ok (some ⟨[("h", [11, 12]), ("dem", [7, 7])], [1, 1]⟩) :=
  ⟨plannedReadGroup_agree smallEnv 1 (smallSource_index 0 none _) (smallSource_rate 0 none _ _ _)
    (smallSource_pads 0 none _), rfl⟩

/-- Records that tile the base against their order, and a base filter that does not fit its
dataset, over rows that the cross filter drops. -/
theorem plannedReadGroup_differs :
    ((validateLinkDisjoint "segment" ⟨[(4, 3), (0, 0), (1, 3)], 1⟩ = .ok () ∧
        ∀ row < 6, ∃ r ∈ (Link.mk [(4, 3), (0, 0), (1, 3)] 1).nonempty, r.owns row = true) ∧
      PadReaches smallEnv 1 (smallSource 1 none) (smallFile [4, 0, 1] [3, 0, 3] [1, 1, 1])
        ⟨"slat", "slon", some ⟨"photon", "beg", "cnt", 1⟩, [("dem", "dem")]⟩ ⟨"photon", "beg", "cnt", 1⟩ ∧
      plannedReadGroup smallEnv (smallSource 1 none) (smallFile [4, 0, 1] [3, 0, 3] [1, 1, 1]) 1 = .ok none ∧
      readGroupFull smallEnv (smallSource 1 none) (smallFile [4, 0, 1] [3, 0, 3] [1, 1, 1]) 1 =
        .ok (some ⟨[("h", [11, 12]), ("dem", [9, 9])], [1, 1]⟩)) ∧
    SpatialIndex (smallSource 0 (some 0)) (smallFile [1, 0, 4] [3, 0, 3] [0, 1, 1])
        ⟨"slat", "slon", some ⟨"photon", "beg", "cnt", 1⟩, [("dem", "dem")]⟩ ⟨"photon", "beg", "cnt", 1⟩ 6 ∧
      BaseRate (smallSource 0 (some 0)) (smallFile [1, 0, 4] [3, 0, 3] [0, 1, 1]) 6 ∧
      PadReaches smallEnv 1 (smallSource 0 (some 0)) (smallFile [1, 0, 4] [3, 0, 3] [0, 1, 1])
        ⟨"slat", "slon", some ⟨"photon", "beg", "cnt", 1⟩, [("dem", "dem")]⟩ ⟨"photon", "beg", "cnt", 1⟩ ∧
      plannedReadGroup smallEnv (smallSource 0 (some 0)) (smallFile [1, 0, 4] [3, 0, 3] [0, 1, 1]) 1 =
        .error "filter on 'q': 'column' set but array is 1-D" ∧
      readGroupFull smallEnv (smallSource 0 (some 0)) (smallFile [1, 0, 4] [3, 0, 3] [0, 1, 1]) 1 = .ok none := by
  refine ⟨⟨⟨rfl, by decide⟩, fun i hi => ?_, rfl, rfl⟩, smallSource_index 0 (some 0) _,
    smallSource_rate 0 (some 0) _ _ _, smallSource_pads 0 (some 0) _, rfl, rfl⟩
  have hlt := lt_three hi
  refine ⟨⟨2, 1, 0, 3⟩, by decide, decide_eq_true ⟨Int.natCast_nonneg i, ?_⟩, 1, rfl, ?_⟩
  · show (i : Int) < 0 + 3
    omega
  · show 2 ≤ 1 + 1 ∧ 1 ≤ 2 + 1
    decide

end Small
end Zagg.Processing
