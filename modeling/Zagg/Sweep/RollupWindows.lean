import Zagg.Sweep.History

/-!
# The windows a shard rollup records

A shard rollup's `windows` are what the next pass re-reads beside its own dirty
windows. They are rebuilt from what was readable, so a transient failure on a recorded
window, in a pass that still folds another one, drops it: `recorded_window_lost` is
such a history. In a history without that step every window ever merged stays
recorded, and a later pass folds all of them.
-/
namespace Zagg.Sweep

open Zagg.Lib

variable {L P T : Type}

section
variable {fam : Family L P T} {d : Decimal}

theorem mem_leafParts {known : List (Window L)} {w : Window L} :
    (∃ x, (w, x) ∈ leafParts fam d known) ↔
      w ∈ known ∧ ∃ p ts, fam.readLeaf d w = .got p ts := by
  simp only [leafParts, List.mem_filterMap]
  constructor
  · rintro ⟨x, v, hv, hx⟩
    split at hx
    · next p ts hr =>
      obtain ⟨rfl, -⟩ := Prod.mk.inj (Option.some.inj hx)
      exact ⟨hv, p, ts, hr⟩
    · cases hx
  · rintro ⟨hw, p, ts, hr⟩
    exact ⟨(p, ts), w, hw, by rw [hr]⟩

theorem mem_windows_leafParts {known : List (Window L)} {w : Window L} :
    w ∈ (leafParts fam d known).map (·.1) ↔ w ∈ known ∧ ∃ p ts, fam.readLeaf d w = .got p ts := by
  rw [← mem_leafParts, List.mem_map]
  exact ⟨fun ⟨⟨_, x⟩, hx, he⟩ => ⟨x, he ▸ hx⟩, fun ⟨x, hx⟩ => ⟨(w, x), hx, rfl⟩⟩

theorem nodup_windows_leafParts {known : List (Window L)} (h : known.Nodup) :
    ((leafParts fam d known).map (·.1)).Nodup := by
  have hsub : ((leafParts fam d known).map (·.1)).Sublist known := by
    clear h
    induction known with
    | nil => exact List.Sublist.slnil
    | cons w known ih =>
      simp only [leafParts, List.filterMap_cons]
      split
      · exact ih.cons w
      · next hx =>
        split at hx
        · obtain rfl := Option.some.inj hx
          exact ih.cons_cons w
        · cases hx
  exact hsub.nodup h

theorem fam_got (pr : Product L P T) (h : Hive L P T) (fails : Decimal → Window L → Bool)
    {d : Decimal} {w : Window L} :
    (∃ p ts, (pr.fam h fails).readLeaf d w = .got p ts) ↔
      fails d w = false ∧ (h.leaves d w).isSome = true := by
  simp only [Product.fam]
  cases hf : fails d w <;> cases hl : h.leaves d w <;> simp

end

variable [DecidableEq P] [LinearOrder L] [LinearOrder T]

/-- The direct fold of one shard's windows. -/
def shardFold (fam : Family L P T) (d : Decimal) (ws : List (Window L)) (shardOrder : Nat) :
    Option (Generation T × P) :=
  let parts := leafParts fam d (sortedWindows ws)
  if parts = [] then none
  else (fam.merge (parts.map (·.2.1)) d shardOrder).map fun payload =>
    (generationOf parts.length (parts.map (·.2.2)), payload)

def Tracked.mergedAt (t : Tracked L P T) (d : Decimal) : List (Window L) :=
  (t.merged.filter fun ref => ref.1 = d).map Prod.snd

/-- Every window ever merged is still recorded by its shard's rollup. -/
def WindowsKept (pr : Product L P T) (t : Tracked L P T) : Prop :=
  ∀ d w, (d, w) ∈ t.merged → ∃ e, pr.rollup t.hive d = some e ∧ w ∈ e.windows

/-- A pass without read failures leaves, at every shard it touches, the direct fold of
its dirty windows and of all the windows ever merged there. -/
def RefoldsAll (pr : Product L P T) (t : Tracked L P T) : Prop :=
  ∀ leaves partition work minOrder,
    passPlan pr.shardOrder leaves partition = some (work, minOrder) → ∀ d ∈ work.shards, ∀ v,
    shardFold (pr.fam t.hive fun _ _ => false) d (work.windowsOf d ++ t.mergedAt d) pr.shardOrder
      = some v →
    (pr.rollup (pr.sweep t.hive leaves partition fun _ _ => false) d).map Envelope.view = some v

/-- At every shard it touches the pass reads all recorded windows, or folds nothing. -/
def SiblingsRead (pr : Product L P T) (t : Tracked L P T) : Event L P T → Prop
  | .write _ _ _ _ => True
  | .sweep leaves partition fails =>
    ∀ work minOrder, passPlan pr.shardOrder leaves partition = some (work, minOrder) →
      ∀ d ∈ work.shards, ∀ e, pr.rollup t.hive d = some e →
        (∀ w ∈ e.windows, fails d w = false) ∨
        let parts := passParts (pr.fam t.hive fails) work (t.hive.stores pr.family) d
        parts = [] ∨ pr.merge (parts.map (·.2.1)) d pr.shardOrder = none

section Shard
variable {fam : Family L P T} {d : Decimal}

/-- How a shard node ends, by what was readable and whether the fold raised. -/
theorem rollupShardNode_cases (fam : Family L P T) (work : Work L) (shardOrder : Nat)
    (store : RollupStore L P T) (d : Decimal) :
    let parts := passParts fam work store d
    let o := (rollupShardNode fam d (work.windowsOf d) shardOrder (store d)).1
    (parts = [] ∧ o = .empty) ∨
    (parts ≠ [] ∧ fam.merge (parts.map (·.2.1)) d shardOrder = none ∧ o = .failed) ∨
    ∃ payload, parts ≠ [] ∧ fam.merge (parts.map (·.2.1)) d shardOrder = some payload ∧
      let env := shardEnvelope fam d shardOrder parts payload
      (∃ e, readRollup fam.name (store d) = some e ∧ e.view = env.view ∧ o = .current e) ∨
      o = .written env := by
  intro parts o
  have ho : o = if parts = [] then .empty else
      (fam.merge (parts.map (·.2.1)) d shardOrder).elim .failed fun payload =>
        publish (readRollup fam.name (store d)) (shardEnvelope fam d shardOrder parts payload) := by
    simp only [o, parts, passParts, rollupShardNode]
    cases fam.merge ((leafParts fam d (knownWindows (readRollup fam.name (store d))
      (work.windowsOf d))).map (·.2.1)) d shardOrder <;> rfl
  by_cases hp : parts = []
  · rw [if_pos hp] at ho
    exact .inl ⟨hp, ho⟩
  · rw [if_neg hp] at ho
    refine .inr ?_
    cases hm : fam.merge (parts.map (·.2.1)) d shardOrder with
    | none =>
      rw [hm] at ho
      exact .inl ⟨hp, rfl, ho⟩
    | some payload =>
      rw [hm] at ho
      refine .inr ⟨payload, hp, rfl, ?_⟩
      simp only [publish] at ho
      cases hs : readRollup fam.name (store d) with
      | none =>
        rw [hs] at ho
        exact .inr ho
      | some e =>
        rw [hs] at ho
        simp only [Option.elim_some] at ho
        split at ho
        · next hv => exact .inl ⟨e, rfl, hv, ho⟩
        · exact .inr ho

omit [DecidableEq P] [LinearOrder L] in
theorem readRollup_shardEnvelope (shardOrder : Nat)
    (parts : List (Window L × P × Option T)) (payload : P) :
    readRollup fam.name (some (.envelope (shardEnvelope fam d shardOrder parts payload))) =
      some (shardEnvelope fam d shardOrder parts payload) :=
  if_pos ⟨rfl, rfl⟩

end Shard

section Pass
variable {pr : Product L P T} {h : Hive L P T} {leaves : List (Decimal × Window L)}
  {partition : Option PartitionBlock} {fails : Decimal → Window L → Bool}
  {work : Work L} {minOrder : Nat}

/-- The leaves a pass does not touch, and the shards it does. -/
theorem sweep_shard (hplan : passPlan pr.shardOrder leaves partition = some (work, minOrder))
    {d : Decimal} (hd : d.order = pr.shardOrder) :
    pr.rollup (pr.sweep h leaves partition fails) d =
      if d ∈ work.shards then
        readRollup pr.family ((rollupShardNode (pr.fam h fails) d (work.windowsOf d) pr.shardOrder
          (h.stores pr.family d)).1.stored (h.stores pr.family d))
      else pr.rollup h d := by
  rcases sweep_cases pr h leaves partition fails with ⟨hn, -⟩ | ⟨_, _, hp, hw, hm, hs⟩
  · rw [hn] at hplan
    cases hplan
  · rw [hp] at hplan
    obtain ⟨rfl, rfl⟩ := Prod.mk.inj (Option.some.inj hplan)
    rw [Product.rollup, hs]
    simp only [Function.update_self]
    rw [sweepFamily_store hw hm, if_pos (hd ▸ hm), settledAt, if_pos hd.le, hd, Nat.sub_self,
      settled]
    split <;> rfl

theorem sweep_leaves : (pr.sweep h leaves partition fails).leaves = h.leaves := by
  rcases sweep_cases pr h leaves partition fails with ⟨-, hs⟩ | ⟨_, _, -, -, -, hs⟩ <;> rw [hs]

theorem sweep_refused (hplan : passPlan pr.shardOrder leaves partition = none) :
    pr.sweep h leaves partition fails = h := by
  rcases sweep_cases pr h leaves partition fails with ⟨-, hs⟩ | ⟨_, _, hp, -⟩
  · exact hs
  · rw [hplan] at hp
    cases hp

theorem passPlan_atOrder (hplan : passPlan pr.shardOrder leaves partition = some (work, minOrder)) :
    work.AtOrder pr.shardOrder ∧ minOrder ≤ pr.shardOrder := by
  have h₀ : Hive L P T := ⟨fun _ _ => none, fun _ _ => none, []⟩
  rcases sweep_cases pr h₀ leaves partition fun _ _ => false with ⟨hn, -⟩ | ⟨_, _, hp, hw, hm, -⟩
  · rw [hn] at hplan
    cases hplan
  · rw [hp] at hplan
    obtain ⟨rfl, rfl⟩ := Prod.mk.inj (Option.some.inj hplan)
    exact ⟨hw, hm⟩

end Pass

/-- The recorded windows of the standing shard rollups are the merged ones, each still
on the leaf store, and a rollup counts as many leaves as it records. -/
structure WindowInv (pr : Product L P T) (t : Tracked L P T) : Prop where
  kept : WindowsKept pr t
  recorded : ∀ d e, d.order = pr.shardOrder → pr.rollup t.hive d = some e → ∀ w ∈ e.windows,
    (d, w) ∈ t.merged ∧ (t.hive.leaves d w).isSome = true
  counted : ∀ d e, d.order = pr.shardOrder → pr.rollup t.hive d = some e →
    e.generation.nLeaves = e.windows.length ∧ e.windows.Nodup
  atOrder : ∀ ref ∈ t.merged, ref.1.order = pr.shardOrder

omit [DecidableEq P] [LinearOrder L] [LinearOrder T] in
theorem windowInv_unswept (pr : Product L P T)
    (leaves : Decimal → Window L → Option (P × Option T)) :
    WindowInv pr (Tracked.unswept leaves) where
  kept _ _ h := by cases h
  recorded _ _ _ h := by cases h
  counted _ _ _ h := by cases h
  atOrder _ h := by cases h

section Step
variable {pr : Product L P T} {t : Tracked L P T} {leaves : List (Decimal × Window L)}
  {partition : Option PartitionBlock} {fails : Decimal → Window L → Bool}
  {work : Work L} {minOrder : Nat}

omit [DecidableEq P] [LinearOrder T] in
theorem mem_passMerged {fam : Family L P T} {shardOrder : Nat} {store : RollupStore L P T}
    {d : Decimal} {w : Window L} :
    (d, w) ∈ passMerged fam work shardOrder store ↔
      d ∈ work.shards ∧
      (fam.merge ((passParts fam work store d).map (·.2.1)) d shardOrder).isSome = true ∧
      w ∈ (passParts fam work store d).map (·.1) := by
  simp only [passMerged, List.mem_flatMap]
  constructor
  · rintro ⟨e, he, h⟩
    split at h
    · next hm =>
      obtain ⟨part, hp, hpe⟩ := List.mem_map.mp h
      obtain ⟨rfl, rfl⟩ := Prod.mk.inj hpe
      exact ⟨he, hm.2, List.mem_map_of_mem hp⟩
    · cases h
  · rintro ⟨hd, hm, hw⟩
    refine ⟨d, hd, ?_⟩
    obtain ⟨part, hp, rfl⟩ := List.mem_map.mp hw
    rw [if_pos ⟨List.ne_nil_of_mem hp, hm⟩]
    exact List.mem_map.mpr ⟨part, hp, rfl⟩

omit [DecidableEq P] [LinearOrder T] in
/-- The standing rollup's windows are all read, so the new rollup records them too. -/
theorem recorded_subset_parts (hi : WindowInv pr t) {d : Decimal} (hd : d.order = pr.shardOrder)
    {e : Envelope L P T} (he : pr.rollup t.hive d = some e)
    (hread : ∀ w ∈ e.windows, fails d w = false) :
    ∀ w ∈ e.windows,
      w ∈ (passParts (pr.fam t.hive fails) work (t.hive.stores pr.family) d).map (·.1) := by
  intro w hw
  refine mem_windows_leafParts.mpr ⟨?_, (fam_got _ _ _).mpr ⟨hread w hw, (hi.recorded d e hd he w hw).2⟩⟩
  have he' : readRollup (pr.fam t.hive fails).name (t.hive.stores pr.family d) = some e := he
  rw [he', knownWindows, mem_sortedWindows]
  exact List.mem_append_right _ hw

omit [DecidableEq P] [LinearOrder T] in
theorem nodup_windows_passParts (fam : Family L P T) (work : Work L) (store : RollupStore L P T)
    (d : Decimal) : ((passParts fam work store d).map (·.1)).Nodup :=
  nodup_windows_leafParts (nodup_sortedWindows _)

/-- One pass at one shard: what stands there afterwards, and that it records what was
recorded and what the pass merged. -/
theorem windowInv_shard (hi : WindowInv pr t)
    (hplan : passPlan pr.shardOrder leaves partition = some (work, minOrder))
    (hc : SiblingsRead pr t (.sweep leaves partition fails)) {d : Decimal} (hd : d ∈ work.shards) :
    let fam := pr.fam t.hive fails
    let parts := passParts fam work (t.hive.stores pr.family) d
    let folded := pr.merge (parts.map (·.2.1)) d pr.shardOrder
    let after := pr.rollup (pr.sweep t.hive leaves partition fails) d
    (¬(parts ≠ [] ∧ folded.isSome = true) ∧ after = pr.rollup t.hive d) ∨
    (folded.isSome = true ∧ ∃ e, after = some e ∧ e.windows.Perm (parts.map (·.1)) ∧
      e.generation.nLeaves = e.windows.length ∧
      ∀ e₀, pr.rollup t.hive d = some e₀ → ∀ w ∈ e₀.windows, w ∈ e.windows) := by
  intro fam parts folded after
  have hord := Work.order_of_mem_shards (passPlan_atOrder hplan).1 hd
  have hafter : after = readRollup pr.family ((rollupShardNode fam d (work.windowsOf d)
      pr.shardOrder (t.hive.stores pr.family d)).1.stored (t.hive.stores pr.family d)) := by
    rw [show after = _ from sweep_shard hplan hord, if_pos hd]
  have hnd : (parts.map (·.1)).Nodup := nodup_windows_passParts _ _ _ _
  rcases rollupShardNode_cases fam work pr.shardOrder (t.hive.stores pr.family) d with
    ⟨hp, ho⟩ | ⟨-, hm, ho⟩ | ⟨payload, hp, hm, ho⟩
  · rw [ho] at hafter
    exact .inl ⟨fun hne => hne.1 hp, hafter⟩
  · rw [ho] at hafter
    refine .inl ⟨fun hne => ?_, hafter⟩
    rw [show folded = none from hm] at hne
    cases hne.2
  · have hfolded : folded = some payload := hm
    have hmerged : folded.isSome = true := by rw [hfolded]; rfl
    have hold : ∀ e₀, pr.rollup t.hive d = some e₀ → ∀ w ∈ e₀.windows, w ∈ parts.map (·.1) := by
      intro e₀ he₀
      rcases hc work minOrder hplan d hd e₀ he₀ with hr | hr | hr
      · exact recorded_subset_parts hi hord he₀ hr
      · exact absurd hr hp
      · exact absurd (hfolded.symm.trans hr) (Option.some_ne_none _)
    refine .inr ⟨hmerged, ?_⟩
    rcases ho with ⟨e, he, hv, ho⟩ | ho
    · rw [ho] at hafter
      have he' : pr.rollup t.hive d = some e := he
      have hcount := hi.counted d e hord he'
      have hlen : e.windows.length = (parts.map (·.1)).length := by
        have hg : e.generation.nLeaves = parts.length := congrArg (·.1.nLeaves) hv
        rw [← hcount.1, hg, List.length_map]
      refine ⟨e, hafter.trans he, ?_, hcount.1, fun e₀ he₀ w hw => ?_⟩
      · exact (List.subperm_of_subset hcount.2 (hold e he')).perm_of_length_le hlen.ge
      · rw [he'] at he₀
        exact Option.some.inj he₀ ▸ hw
    · rw [ho] at hafter
      refine ⟨_, hafter.trans (readRollup_shardEnvelope _ _ _), List.Perm.refl _, ?_, hold⟩
      simp [shardEnvelope, generationOf]

theorem windowInv_step (hi : WindowInv pr t) {e : Event L P T} (hc : SiblingsRead pr t e)
    {t' : Tracked L P T} (ht : pr.track t e = some t') : WindowInv pr t' := by
  obtain rfl := Option.some.inj ht
  cases e with
  | write leaf window payload timestamp =>
    have hmb : t.merged ++ pr.mergedBy t.hive (.write leaf window payload timestamp) = t.merged :=
      List.append_nil _
    rw [hmb]
    refine ⟨fun d w hm => ?_, fun d e hd he w hw => ?_, fun d e hd he => hi.counted d e hd he,
      fun ref hr => ?_⟩
    · exact hi.kept d w hm
    · obtain ⟨hm, hl⟩ := hi.recorded d e hd he w hw
      refine ⟨hm, ?_⟩
      simp only [Product.apply]
      by_cases hdl : d = leaf
      · subst hdl
        by_cases hww : w = window
        · subst hww
          simp
        · simpa [hww] using hl
      · simpa [hdl] using hl
    · exact hi.atOrder ref hr
  | sweep leaves partition fails =>
    cases hplan : passPlan pr.shardOrder leaves partition with
    | none =>
      have hs : pr.apply t.hive (.sweep leaves partition fails) = t.hive := sweep_refused hplan
      simpa only [hs, Product.mergedBy, hplan, List.append_nil] using hi
    | some plan =>
      obtain ⟨work, minOrder⟩ := plan
      have hw := (passPlan_atOrder hplan).1
      have hkeep : ∀ d, d ∉ work.shards → d.order = pr.shardOrder →
          pr.rollup (pr.sweep t.hive leaves partition fails) d = pr.rollup t.hive d :=
        fun d hd hord => by rw [sweep_shard hplan hord, if_neg hd]
      have hmb : pr.mergedBy t.hive (.sweep leaves partition fails) =
          passMerged (pr.fam t.hive fails) work pr.shardOrder (t.hive.stores pr.family) := by
        simp only [Product.mergedBy, hplan]
      have hnew : ∀ d w, (d, w) ∈ passMerged (pr.fam t.hive fails) work pr.shardOrder
          (t.hive.stores pr.family) → d.order = pr.shardOrder := fun d w h =>
        Work.order_of_mem_shards hw (mem_passMerged.mp h).1
      rw [hmb]
      refine ⟨fun d w hm => ?_, fun d e hd he w hwe => ?_, fun d e hd he => ?_, fun ref hr => ?_⟩
      · change ∃ e, pr.rollup (pr.sweep t.hive leaves partition fails) d = some e ∧ w ∈ e.windows
        rw [List.mem_append] at hm
        have hord : d.order = pr.shardOrder := hm.elim (hi.atOrder (d, w)) (hnew d w)
        by_cases hd : d ∈ work.shards
        · rcases windowInv_shard hi hplan hc hd with ⟨hno, hs⟩ | ⟨-, e, hs, hperm, -, hold⟩
          · rcases hm with hm | hm
            · rw [hs]
              exact hi.kept d w hm
            · obtain ⟨-, hsome, hin⟩ := mem_passMerged.mp hm
              exact absurd ⟨List.ne_nil_of_mem (List.mem_map.mp hin).choose_spec.1, hsome⟩ hno
          · refine ⟨e, hs, ?_⟩
            rcases hm with hm | hm
            · obtain ⟨e₀, he₀, hw₀⟩ := hi.kept d w hm
              exact hold e₀ he₀ w hw₀
            · exact hperm.mem_iff.mpr (mem_passMerged.mp hm).2.2
        · rcases hm with hm | hm
          · obtain ⟨e₀, he₀, hw₀⟩ := hi.kept d w hm
            exact ⟨e₀, (hkeep d hd hord).trans he₀, hw₀⟩
          · exact absurd (mem_passMerged.mp hm).1 hd
      · rw [show (pr.apply t.hive (.sweep leaves partition fails)).leaves = t.hive.leaves from
          sweep_leaves]
        have he' : pr.rollup (pr.sweep t.hive leaves partition fails) d = some e := he
        by_cases hds : d ∈ work.shards
        · rcases windowInv_shard hi hplan hc hds with ⟨-, hs⟩ | ⟨hsome, e₁, hs, hperm, -⟩
          · rw [hs] at he'
            obtain ⟨hm, hl⟩ := hi.recorded d e hd he' w hwe
            exact ⟨List.mem_append_left _ hm, hl⟩
          · rw [hs] at he'
            obtain rfl := Option.some.inj he'
            have hin := hperm.mem_iff.mp hwe
            exact ⟨List.mem_append_right _ (mem_passMerged.mpr ⟨hds, hsome, hin⟩),
              ((fam_got _ _ _).mp (mem_windows_leafParts.mp hin).2).2⟩
        · rw [hkeep d hds hd] at he'
          obtain ⟨hm, hl⟩ := hi.recorded d e hd he' w hwe
          exact ⟨List.mem_append_left _ hm, hl⟩
      · have he' : pr.rollup (pr.sweep t.hive leaves partition fails) d = some e := he
        by_cases hds : d ∈ work.shards
        · rcases windowInv_shard hi hplan hc hds with ⟨-, hs⟩ | ⟨-, e₁, hs, hperm, hcount, -⟩
          · rw [hs] at he'
            exact hi.counted d e hd he'
          · rw [hs] at he'
            obtain rfl := Option.some.inj he'
            exact ⟨hcount, hperm.nodup_iff.mpr (nodup_windows_passParts _ _ _ _)⟩
        · rw [hkeep d hds hd] at he'
          exact hi.counted d e hd he'
      · rw [List.mem_append] at hr
        exact hr.elim (hi.atOrder ref) (hnew ref.1 ref.2)

/-- The rollup a shard is left with is the direct fold, if that fold does not raise. -/
theorem refoldsAll_of_inv (hi : WindowInv pr t) : RefoldsAll pr t := by
  intro leaves partition work minOrder hplan d hd v hv
  have hord := Work.order_of_mem_shards (passPlan_atOrder hplan).1 hd
  rw [sweep_shard hplan hord, if_pos hd]
  set fam := pr.fam t.hive fun _ _ => false
  have hknown : sortedWindows (work.windowsOf d ++ t.mergedAt d) =
      knownWindows (readRollup fam.name (t.hive.stores pr.family d)) (work.windowsOf d) := by
    refine sortedWindows_congr fun w => ?_
    have hm : w ∈ t.mergedAt d ↔ (d, w) ∈ t.merged := Work.mem_windowsOf
    rw [List.mem_append, List.mem_append, hm]
    refine or_congr Iff.rfl ⟨fun h => ?_, fun h => ?_⟩
    · obtain ⟨e, he, hw⟩ := hi.kept d w h
      rw [show readRollup fam.name (t.hive.stores pr.family d) = some e from he]
      exact hw
    · cases he : readRollup fam.name (t.hive.stores pr.family d) with
      | none => rw [he] at h; cases h
      | some e =>
        rw [he] at h
        exact (hi.recorded d e hord he w h).1
  have hparts : leafParts fam d (sortedWindows (work.windowsOf d ++ t.mergedAt d)) =
      passParts fam work (t.hive.stores pr.family) d := by rw [hknown]; rfl
  simp only [shardFold, hparts] at hv
  rcases rollupShardNode_cases fam work pr.shardOrder (t.hive.stores pr.family) d with
    ⟨hp, -⟩ | ⟨hp, hm, -⟩ | ⟨payload, hp, hm, ho⟩
  · rw [if_pos hp] at hv
    cases hv
  · rw [if_neg hp, hm] at hv
    cases hv
  · rw [if_neg hp, hm] at hv
    obtain rfl := Option.some.inj hv
    rcases ho with ⟨e, he, hview, ho⟩ | ho
    · rw [ho]
      have he' : readRollup pr.family (t.hive.stores pr.family d) = some e := he
      rw [show (Outcome.current e).stored (t.hive.stores pr.family d) =
        t.hive.stores pr.family d from rfl, he', Option.map_some, hview]
      rfl
    · rw [ho]
      exact congrArg (Option.map Envelope.view) (readRollup_shardEnvelope _ _ _)

end Step

theorem windowInv_reach {pr : Product L P T} {leaves : Decimal → Window L → Option (P × Option T)}
    {t : Tracked L P T} (h : Reach pr.track (SiblingsRead pr) (Tracked.unswept leaves) t) :
    WindowInv pr t :=
  h.invariant (windowInv_unswept pr leaves) fun hi hc ht => windowInv_step hi hc ht

/-- In every history whose passes read the recorded windows of the shards they touch,
no merged window is lost, and a pass without failures folds all of them. -/
theorem windowsKept_of_siblingsRead {pr : Product L P T}
    {leaves : Decimal → Window L → Option (P × Option T)} {t : Tracked L P T}
    (h : Reach pr.track (SiblingsRead pr) (Tracked.unswept leaves) t) :
    WindowsKept pr t ∧ RefoldsAll pr t :=
  ⟨(windowInv_reach h).kept, refoldsAll_of_inv (windowInv_reach h)⟩

section Runs

/-- Counts summed over the windows of one order-zero shard. -/
def countProduct : Product Nat Nat Nat := ⟨"store", 0, "stats", fun ps _ _ => some ps.sum⟩

def countShard : Decimal := .ofBase ⟨false, ⟨0, Base.cell_pos⟩⟩

def window (n : Nat) : Window Nat := WithBot.some n

/-- Two windows, swept one by one, the second one while reads of `broken` fail. -/
def twoWindowRun (broken : Window Nat → Bool) : List (Event Nat Nat Nat) :=
  [.write countShard (window 1) 10 (some 1),
   .sweep [(countShard, window 1)] none fun _ _ => false,
   .write countShard (window 2) 20 (some 2),
   .sweep [(countShard, window 2)] none fun _ w => broken w]

/-- A transient failure on the first window drops it: the rollup no longer records it,
and the next pass folds the second window alone. -/
theorem recorded_window_lost :
    ¬ ∀ t, Reach countProduct.track (fun _ _ => True) (Tracked.unswept fun _ _ => none) t →
      WindowsKept countProduct t ∨ RefoldsAll countProduct t := by
  intro h
  let t : Tracked Nat Nat Nat :=
    (exec countProduct.track (Tracked.unswept fun _ _ => none)
      (twoWindowRun fun w => w == window 1)).get (by rfl)
  have hr : Reach countProduct.track (fun _ _ => True) (Tracked.unswept fun _ _ => none) t :=
    Reach.of_exec_forall (fun _ _ _ => trivial) (Option.some_get _).symm
  rcases h t hr with hk | hk
  · obtain ⟨e, he, hw⟩ := hk countShard (window 1) (by decide)
    have hwin : (countProduct.rollup t.hive countShard).map Envelope.windows = some [window 2] := by
      decide
    rw [he] at hwin
    rw [Option.some.inj hwin] at hw
    exact absurd hw (by decide)
  · have hv := hk [(countShard, window 2)] none [(countShard, window 2)] 0 (by decide) countShard
      (by decide) (⟨2, some 2⟩, 30) (by decide)
    exact absurd hv (by decide)

/-- The same passes with every read succeeding. -/
theorem windowsKept_two_windows :
    ∃ t, exec countProduct.track (Tracked.unswept fun _ _ => none) (twoWindowRun fun _ => false)
      = some t ∧ WindowsKept countProduct t ∧ RefoldsAll countProduct t := by
  have ht := (Option.some_get (x := exec countProduct.track (Tracked.unswept fun _ _ => none)
    (twoWindowRun fun _ => false)) rfl).symm
  refine ⟨_, ht, windowsKept_of_siblingsRead (Reach.of_exec_forall (fun e he t => ?_) ht)⟩
  simp only [twoWindowRun, List.mem_cons, List.not_mem_nil, or_false] at he
  rcases he with rfl | rfl | rfl | rfl
  · trivial
  · exact fun _ _ _ _ _ _ _ => .inl fun _ _ => rfl
  · trivial
  · exact fun _ _ _ _ _ _ _ => .inl fun _ _ => rfl

end Runs

end Zagg.Sweep
