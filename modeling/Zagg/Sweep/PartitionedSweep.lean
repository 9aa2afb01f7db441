import Zagg.Sweep.RollupSpec

/-!
# Partitions decompose the rollup sweep

A pass reads and writes, below its split, inside one order-`k` subtree at a time. What
it leaves under a node therefore depends only on the rollups and the dirty leaves
there, and a pass with no dirty leaf there leaves it alone. Running the partitions in
any order thus agrees with the unpartitioned pass at every node of order at least `k`.
-/
namespace Zagg.Sweep

variable {L P T : Type}

/-- Two stores hold the same rollups under `n`. -/
def AgreeUnder (n : Decimal) (s s' : RollupStore L P T) : Prop :=
  ∀ d, d.startsWith n = true → s d = s' d

/-- Two work sets name the same leaves under `n`. -/
def Work.SameUnder (n : Decimal) (work work' : Work L) : Prop :=
  ∀ d w, d.startsWith n = true → ((d, w) ∈ work ↔ (d, w) ∈ work')

def Work.NoneUnder (n : Decimal) (work : Work L) : Prop :=
  ∀ s ∈ work.shards, s.startsWith n ≠ true

theorem AgreeUnder.mono {n m : Decimal} {s s' : RollupStore L P T} (h : AgreeUnder n s s')
    (hm : m.startsWith n = true) : AgreeUnder m s s' :=
  fun d hd => h d (Decimal.startsWith_trans hd hm)

theorem Work.SameUnder.mono {n m : Decimal} {work work' : Work L} (h : work.SameUnder n work')
    (hm : m.startsWith n = true) : work.SameUnder m work' :=
  fun d w hd => h d w (Decimal.startsWith_trans hd hm)

theorem Work.NoneUnder.mono {n m : Decimal} {work : Work L} (h : work.NoneUnder n)
    (hm : m.startsWith n = true) : work.NoneUnder m :=
  fun s hs hd => h s hs (Decimal.startsWith_trans hd hm)

variable [DecidableEq P] [LinearOrder L] [LinearOrder T]

theorem rollupShardNode_congr (fam : Family L P T) (d : Decimal) {ws vs : List (Window L)}
    (h : ∀ w, w ∈ ws ↔ w ∈ vs) (shardOrder : Nat) (stored : Option (RollupObject L P T)) :
    rollupShardNode fam d ws shardOrder stored = rollupShardNode fam d vs shardOrder stored := by
  rw [rollupShardNode, rollupShardNode, knownWindows_congr _ h]

/-- What a pass leaves at a node depends only on the subtree below it. -/
theorem settled_congr (fam : Family L P T) {work work' : Work L} (shardOrder : Nat)
    {s s' : RollupStore L P T} (height : Nat) :
    ∀ n, AgreeUnder n s s' → work.SameUnder n work' →
      settled fam work shardOrder s height n = settled fam work' shardOrder s' height n := by
  induction height with
  | zero =>
    intro n hs hw
    have hm : n ∈ work.shards ↔ n ∈ work'.shards := by
      simp only [Work.mem_shards, hw n _ n.startsWith_refl]
    have hws : ∀ w, w ∈ work.windowsOf n ↔ w ∈ work'.windowsOf n := fun w => by
      rw [Work.mem_windowsOf, Work.mem_windowsOf, hw n w n.startsWith_refl]
    have hr := rollupShardNode_congr fam n hws shardOrder (s' n)
    simp only [settled, hm, hs n n.startsWith_refl, hr]
  | succ height ih =>
    intro n hs hw
    have hb : ∀ c ∈ n.children, settled fam work shardOrder s height c =
        settled fam work' shardOrder s' height c := fun c hc =>
      ih c (hs.mono (Decimal.startsWith_of_mem_children hc))
        (hw.mono (Decimal.startsWith_of_mem_children hc))
    have hany : (n.children.any fun c => (settled fam work shardOrder s height c).2.isSome) =
        n.children.any fun c => (settled fam work' shardOrder s' height c).2.isSome := by
      rw [Bool.eq_iff_iff, List.any_eq_true, List.any_eq_true]
      constructor
      · rintro ⟨c, hc, h⟩
        exact ⟨c, hc, hb c hc ▸ h⟩
      · rintro ⟨c, hc, h⟩
        exact ⟨c, hc, (hb c hc).symm ▸ h⟩
    have hi : rollupInterior fam n (readsOf (settled fam work shardOrder s height) s n) =
        rollupInterior fam n (readsOf (settled fam work' shardOrder s' height) s' n) := by
      refine rollupInterior_congr fam (by simp [readsOf, hs n n.startsWith_refl]) fun c hc => ?_
      have hcn : c ≠ n := Decimal.ne_of_mem_children hc
      simp [readsOf, hcn, hb c hc]
    simp only [settled, hany, hi, hs n n.startsWith_refl]

theorem settled_of_noneUnder (fam : Family L P T) {work : Work L} (shardOrder : Nat)
    (s : RollupStore L P T) (height : Nat) :
    ∀ n, work.NoneUnder n → settled fam work shardOrder s height n = (s n, none) := by
  induction height with
  | zero =>
    intro n h
    rw [settled, if_neg fun hm => h n hm n.startsWith_refl]
  | succ height ih =>
    intro n h
    rw [settled, if_neg]
    rw [List.any_eq_true]
    rintro ⟨c, hc, hs⟩
    rw [ih c (h.mono (Decimal.startsWith_of_mem_children hc))] at hs
    cases hs

section
variable {shardOrder k : Nat} {work work' : Work L}

theorem sweepFamily_agree (fam : Family L P T) (hw : work.AtOrder shardOrder)
    (hw' : work'.AtOrder shardOrder) (hk : k ≤ shardOrder) {minOrder : Nat} (hm : minOrder ≤ k)
    {n : Decimal} (hn : n.order = k) (hsame : work.SameUnder n work')
    {s s' : RollupStore L P T} (h : AgreeUnder n s s') :
    AgreeUnder n (sweepFamily fam work shardOrder minOrder s).1
      (sweepFamily fam work' shardOrder k s').1 := by
  intro d hd
  have hord : k ≤ d.order := by
    obtain ⟨t, rfl⟩ := Decimal.startsWith_iff.mp hd
    rw [Decimal.order_extend]
    omega
  rw [sweepFamily_store hw (by omega), sweepFamily_store hw' hk, if_pos (by omega), if_pos hord,
    settledAt, settledAt]
  split
  · rw [settled_congr fam shardOrder _ d (h.mono hd) (hsame.mono hd)]
  · exact h d hd

theorem sweepFamily_noneUnder (fam : Family L P T) (hw : work.AtOrder shardOrder)
    (hk : k ≤ shardOrder) {n : Decimal} (hnone : work.NoneUnder n) (s : RollupStore L P T) :
    AgreeUnder n (sweepFamily fam work shardOrder k s).1 s := by
  intro d hd
  rw [sweepFamily_store hw hk]
  split
  · rw [settledAt]
    split
    · rw [settled_of_noneUnder fam shardOrder s _ d (hnone.mono hd)]
    · rfl
  · rfl

/-- The stores of every family agree under `n`. -/
def AllAgreeUnder (n : Decimal) (s s' : Stores L P T) : Prop :=
  ∀ name, AgreeUnder n (s name) (s' name)

omit [DecidableEq P] [LinearOrder L] [LinearOrder T] in
theorem AllAgreeUnder.trans {n : Decimal} {s s' s'' : Stores L P T} (h : AllAgreeUnder n s s')
    (h' : AllAgreeUnder n s' s'') : AllAgreeUnder n s s'' :=
  fun name d hd => (h name d hd).trans (h' name d hd)

omit [DecidableEq P] [LinearOrder L] [LinearOrder T] in
theorem AllAgreeUnder.update {n : Decimal} {s s' : Stores L P T} (h : AllAgreeUnder n s s')
    {name : String} {t t' : RollupStore L P T} (ht : AgreeUnder n t t') :
    AllAgreeUnder n (Function.update s name t) (Function.update s' name t') := by
  intro m
  by_cases hm : m = name
  · subst hm
    simpa using ht
  · simpa [hm] using h m

theorem sweepFamilies_agree (fams : List (Family L P T)) (hw : work.AtOrder shardOrder)
    (hw' : work'.AtOrder shardOrder) (hk : k ≤ shardOrder) {minOrder : Nat} (hm : minOrder ≤ k)
    {n : Decimal} (hn : n.order = k) (hsame : work.SameUnder n work') :
    ∀ {s s' : Stores L P T}, AllAgreeUnder n s s' →
      AllAgreeUnder n (sweepFamilies work shardOrder minOrder fams s).1
        (sweepFamilies work' shardOrder k fams s').1 := by
  induction fams with
  | nil => exact fun h => h
  | cons fam fams ih =>
    intro s s' h
    exact ih (h.update (sweepFamily_agree fam hw hw' hk hm hn hsame (h fam.name)))

theorem sweepFamilies_noneUnder (fams : List (Family L P T)) (hw : work.AtOrder shardOrder)
    (hk : k ≤ shardOrder) {n : Decimal} (hnone : work.NoneUnder n) :
    ∀ s : Stores L P T, AllAgreeUnder n (sweepFamilies work shardOrder k fams s).1 s := by
  induction fams with
  | nil => exact fun s _ _ _ => rfl
  | cons fam fams ih =>
    intro s name d hd
    rw [sweepFamilies, ih _ name d hd]
    by_cases hm : name = fam.name
    · subst hm
      rw [Function.update_self]
      exact sweepFamily_noneUnder fam hw hk hnone _ d hd
    · rw [Function.update_of_ne hm]

theorem sweepFamilies_puts (fams : List (Family L P T)) (hw : work.AtOrder shardOrder)
    (hk : k ≤ shardOrder) :
    ∀ s : Stores L P T, ∀ f ∈ (sweepFamilies work shardOrder k fams s).2, ∀ d ∈ f.2.puts,
      k ≤ d.order ∧ ∃ l ∈ work.shards, l.startsWith d = true := by
  induction fams with
  | nil => intro s f hf; cases hf
  | cons fam fams ih =>
    intro s f hf d hd
    rcases List.mem_cons.mp hf with rfl | hf
    · exact sweepFamily_puts hw hk _ hd
    · exact ih _ f hf d hd

end

/-- The leaves of a work set that partition `i` keeps, at the store's shard order. -/
def partitionWork (leaves : List (Decimal × Window L)) (shardOrder k i : Nat) : Work L :=
  (normalizeLeaves leaves shardOrder).1.filter fun ref => owner k ref.1 = i

section
variable (root : String) {shardOrder k : Nat} (fams : List (Family L P T))
  (leaves : List (Decimal × Window L))

omit [DecidableEq P] [LinearOrder T] in
theorem atOrder_normalizeLeaves (shardOrder : Nat) :
    Work.AtOrder (normalizeLeaves leaves shardOrder).1 shardOrder := by
  intro ref h
  simp only [normalizeLeaves, List.mem_dedup, List.mem_filter, decide_eq_true_eq] at h
  exact h.2

variable {leaves} in
omit [DecidableEq P] [LinearOrder T] in
theorem mem_partitionWork {i : Nat} {ref : Decimal × Window L} :
    ref ∈ partitionWork leaves shardOrder k i ↔
      ref ∈ leaves ∧ ref.1.order = shardOrder ∧ owner k ref.1 = i := by
  simp [partitionWork, normalizeLeaves, and_assoc]

theorem runSweep_none (shardOrder : Nat) (stores : Stores L P T) :
    ∃ summary, runSweep root (some shardOrder) fams leaves none stores =
      .ok ((sweepFamilies (normalizeLeaves leaves shardOrder).1 shardOrder 0 fams stores).1,
        summary) := by
  simp [runSweep, normalizePartition, bind, Except.bind, pure, Except.pure]

theorem runSweep_partition (hk : k ≤ shardOrder) {i : Nat} (hi : i < 4 ^ k)
    (stores : Stores L P T) :
    let r := sweepFamilies (partitionWork leaves shardOrder k i) shardOrder k fams stores
    ∃ summary, summary.families = r.2 ∧
      runSweep root (some shardOrder) fams leaves (some (partitionBlock i (4 ^ k : Nat))) stores =
        .ok (r.1, summary) := by
  have hord : ∀ ref ∈ (normalizeLeaves leaves shardOrder).1, k ≤ ref.1.order := by
    intro ref h
    rw [atOrder_normalizeLeaves leaves shardOrder ref h]
    exact hk
  refine ⟨{
    shardOrder := shardOrder
    nLeaves := (partitionWork leaves shardOrder k i).length
    skippedLeaves := (normalizeLeaves leaves shardOrder).2
    partition := some (i, (4 ^ k : Nat), k, (normalizeLeaves leaves shardOrder).1.length -
      (partitionWork leaves shardOrder k i).length)
    families := _ }, rfl, ?_⟩
  rw [runSweep, partitionBlock, normalizePartition_eq hi]
  simp only [bind, Except.bind, pure, Except.pure]
  rw [partitionSplitOrder_eq_ok_iff.mpr rfl]
  simp only
  rw [if_neg (by omega), selectPartition_eq hi hord]
  rfl

variable {root fams leaves} in
theorem index_lt_of_runSweep {i : Nat} {stores : Stores L P T} {r : Stores L P T × Summary L P T}
    (h : runSweep root (some shardOrder) fams leaves (some (partitionBlock i (4 ^ k : Nat))) stores
      = .ok r) : i < 4 ^ k := by
  by_contra hi
  have herr : normalizePartition (some (partitionBlock i (4 ^ k : Nat))) =
      .error s!"sweep partition index {(i : Int)} is out of range for of={((4 ^ k : Nat) : Int)}" := by
    simp only [normalizePartition, partitionBlock, partitionSplitOrder_eq_ok_iff.mpr rfl, bind,
      Except.bind]
    rw [if_neg (by omega)]
  rw [runSweep, herr] at h
  cases h

variable {leaves} in
/-- A pass over any other partition leaves the subtrees of this one alone. -/
theorem noneUnder_partitionWork {n : Decimal} (hn : n.order = k) {i : Nat}
    (hi : owner k n ≠ i) : Work.NoneUnder n (partitionWork leaves shardOrder k i) := by
  intro s hs hpre
  obtain ⟨w, hw⟩ := Work.mem_shards.mp hs
  have ho := (mem_partitionWork.mp hw).2.2
  rw [owner_of_startsWith hpre hn.ge] at ho
  exact hi ho

theorem atOrder_partitionWork (i : Nat) :
    Work.AtOrder (partitionWork leaves shardOrder k i) shardOrder :=
  fun _ h => (mem_partitionWork.mp h).2.1

/-- Under a node of order `k`, a run of distinct buckets leaves what the node's own
bucket leaves, and nothing changes when it has none. -/
theorem runBuckets_spec (hk : k ≤ shardOrder) :
    ∀ (buckets : List (Nat × List (Decimal × Window L))) (stores : Stores L P T),
      (buckets.map Prod.fst).Nodup → (∀ b ∈ buckets, b.1 < 4 ^ k) →
      ∃ r, runBuckets root (some shardOrder) fams (4 ^ k : Nat) buckets stores = .ok r ∧
        ∀ n, n.order = k →
          (owner k n ∉ buckets.map Prod.fst → AllAgreeUnder n r.1 stores) ∧
          ∀ ls, (owner k n, ls) ∈ buckets →
            AllAgreeUnder n r.1 (sweepFamilies (partitionWork ls shardOrder k (owner k n))
              shardOrder k fams stores).1 := by
  intro buckets
  induction buckets with
  | nil =>
    intro stores _ _
    refine ⟨(stores, []), rfl, fun n _ => ⟨fun _ _ _ _ => rfl, fun ls h => ?_⟩⟩
    cases h
  | cons b buckets ih =>
    intro stores hnd hlt
    obtain ⟨hb, hnd⟩ := List.nodup_cons.mp hnd
    obtain ⟨summary, -, hrun⟩ := runSweep_partition root fams b.2 hk (hlt b (.head _)) stores
    obtain ⟨rest, hrest, hspec⟩ := ih (sweepFamilies (partitionWork b.2 shardOrder k b.1)
      shardOrder k fams stores).1 hnd fun c hc => hlt c (.tail _ hc)
    refine ⟨(rest.1, summary :: rest.2), ?_, fun n hn => ⟨fun hout => ?_, fun ls hin => ?_⟩⟩
    · simp only [runBuckets, hrun, bind, Except.bind]
      rw [hrest]
      rfl
    · have hne : owner k n ≠ b.1 := fun he => hout (he ▸ .head _)
      refine ((hspec n hn).1 fun h => hout (.tail _ h)).trans ?_
      exact sweepFamilies_noneUnder fams (atOrder_partitionWork _ _) hk
        (noneUnder_partitionWork hn hne) stores
    · rcases List.mem_cons.mp hin with rfl | hin
      · exact (hspec n hn).1 hb
      · have hne : owner k n ≠ b.1 := fun he => hb (he ▸ List.mem_map_of_mem hin)
        refine ((hspec n hn).2 ls hin).trans ?_
        exact sweepFamilies_agree fams (atOrder_partitionWork _ _) (atOrder_partitionWork _ _) hk
          le_rfl hn (fun _ _ _ => Iff.rfl) (sweepFamilies_noneUnder fams
            (atOrder_partitionWork _ _) hk (noneUnder_partitionWork hn hne) stores)

variable {leaves} in
/-- Buckets that between them hold every leaf, each under its owner's index, leave at
order `k` and finer what the unpartitioned pass leaves. -/
theorem runBuckets_eq_runSweep (hk : k ≤ shardOrder)
    {buckets : List (Nat × List (Decimal × Window L))} (hnd : (buckets.map Prod.fst).Nodup)
    (hlt : ∀ b ∈ buckets, b.1 < 4 ^ k)
    (hall : ∀ ref ∈ leaves, ref.1.order = shardOrder → owner k ref.1 ∈ buckets.map Prod.fst)
    (hsame : ∀ b ∈ buckets, ∀ ref, ref.1.order = shardOrder → owner k ref.1 = b.1 →
      (ref ∈ b.2 ↔ ref ∈ leaves)) (stores : Stores L P T) :
    ∃ parts whole,
      runBuckets root (some shardOrder) fams (4 ^ k : Nat) buckets stores = .ok parts ∧
      runSweep root (some shardOrder) fams leaves none stores = .ok whole ∧
      ∀ name d, k ≤ d.order → parts.1 name d = whole.1 name d := by
  obtain ⟨parts, hparts, hspec⟩ := runBuckets_spec root fams hk buckets stores
    hnd hlt
  obtain ⟨summary, hwhole⟩ := runSweep_none root fams leaves shardOrder stores
  refine ⟨parts, _, hparts, hwhole, fun name d hd => ?_⟩
  have hn : (d.nodeAt k).order = k := by rw [Decimal.order_nodeAt, Nat.min_eq_left hd]
  have hpre := d.startsWith_nodeAt k
  have hown : ∀ e : Decimal, e.startsWith (d.nodeAt k) = true → owner k e = owner k (d.nodeAt k) :=
    fun e he => owner_of_startsWith he hn.ge
  by_cases hin : owner k (d.nodeAt k) ∈ buckets.map Prod.fst
  · obtain ⟨⟨i, ls⟩, hb, hi⟩ := List.mem_map.mp hin
    obtain rfl : i = owner k (d.nodeAt k) := hi
    have hws : Work.SameUnder (d.nodeAt k) (normalizeLeaves leaves shardOrder).1
        (partitionWork ls shardOrder k (owner k (d.nodeAt k))) := by
      intro e w he
      rw [mem_partitionWork]
      simp only [normalizeLeaves, List.mem_dedup, List.mem_filter, decide_eq_true_eq]
      have hiff := hsame _ hb (e, w)
      have := hown e he
      tauto
    have hagree := sweepFamilies_agree fams (atOrder_normalizeLeaves leaves shardOrder)
      (atOrder_partitionWork ls _) hk (Nat.zero_le k) hn hws (s := stores) fun _ _ _ => rfl
    exact ((hspec _ hn).2 ls hb name d hpre).trans (hagree name d hpre).symm
  · have hnone : Work.NoneUnder (d.nodeAt k) (normalizeLeaves leaves shardOrder).1 := by
      intro s hs he
      obtain ⟨w, hw⟩ := Work.mem_shards.mp hs
      simp only [normalizeLeaves, List.mem_dedup, List.mem_filter, decide_eq_true_eq] at hw
      have := hall _ hw.1 hw.2
      rw [hown s he] at this
      exact hin this
    have hkeep := sweepFamilies_noneUnder fams (atOrder_normalizeLeaves leaves shardOrder)
      (Nat.zero_le _) hnone stores
    exact ((hspec _ hn).1 hin name d hpre).trans (hkeep name d hpre).symm

variable {root fams leaves} in
/-- A partition's pass writes only nodes it owns. -/
theorem owner_of_mem_puts (hk : k ≤ shardOrder) {i : Nat} (hi : i < 4 ^ k) {stores : Stores L P T}
    {r : Stores L P T × Summary L P T}
    (h : runSweep root (some shardOrder) fams leaves (some (partitionBlock i (4 ^ k : Nat))) stores
      = .ok r) {name : String} {d : Decimal} (hd : (name, d) ∈ r.2.puts) :
    k ≤ d.order ∧ owner k d = i := by
  obtain ⟨summary, hfam, hrun⟩ := runSweep_partition root fams leaves hk hi stores
  rw [hrun] at h
  obtain rfl := Except.ok.inj h
  obtain ⟨f, hf, hd⟩ := List.mem_flatMap.mp hd
  obtain ⟨e, he, hed⟩ := List.mem_map.mp hd
  obtain rfl : e = d := (Prod.mk.inj hed).2
  rw [hfam] at hf
  obtain ⟨ho, s, hs, hpre⟩ := sweepFamilies_puts fams (atOrder_partitionWork _ _) hk stores f hf e he
  obtain ⟨w, hw⟩ := Work.mem_shards.mp hs
  refine ⟨ho, ?_⟩
  rw [← owner_of_startsWith hpre ho]
  exact (mem_partitionWork.mp hw).2.2

end

/-- The in-process fan-out over the dispatcher's buckets agrees with one pass too. -/
theorem sweepPartitions_eq {shardOrder k : Nat} (hk : k ≤ shardOrder) (root : String)
    (fams : List (Family L P T)) {leaves : List (Decimal × Window L)}
    (hleaves : ∀ ref ∈ leaves, k ≤ ref.1.order) (stores : Stores L P T) :
    ∃ parts whole,
      sweepPartitions root (some shardOrder) fams leaves (4 ^ k : Nat) stores = .ok parts ∧
      runSweep root (some shardOrder) fams leaves none stores = .ok whole ∧
      ∀ name d, k ≤ d.order → parts.1 name d = whole.1 name d := by
  obtain ⟨indices, hnd, hmem, hbuckets⟩ := partitionLeaves_spec hleaves
  let buckets := indices.map fun i => (i, leaves.filter fun ref => owner k ref.1 = i)
  have hfst : buckets.map Prod.fst = indices := by
    rw [List.map_map]
    exact List.map_id indices
  obtain ⟨parts, whole, hparts, hwhole, heq⟩ := runBuckets_eq_runSweep root fams hk
    (hfst.symm ▸ hnd)
    (fun b hb => by
      obtain ⟨i, hi, rfl⟩ := List.mem_map.mp hb
      obtain ⟨ref, hr, rfl⟩ := (hmem i).mp hi
      exact owner_lt (hleaves ref hr))
    (fun ref hr _ => by rw [hfst, hmem]; exact ⟨ref, hr, rfl⟩)
    (fun b hb ref _ ho => by
      obtain ⟨i, -, rfl⟩ := List.mem_map.mp hb
      simp [ho]) stores
  refine ⟨parts, whole, ?_, hwhole, heq⟩
  rw [sweepPartitions, hbuckets]
  exact hparts

/-- Three leaves in two of the four partitions. -/
theorem sweepPartitions_eq_two_partitions :
    let leaf (b : Base) (g h : Fin 4) : Decimal := ⟨b, [g, h]⟩
    let fam : Family Nat Nat Nat := ⟨"stats", fun _ _ => .got 1 (some 7), fun ps _ _ => some ps.sum⟩
    let leaves := [(leaf ⟨false, 0⟩ 3 1, ⊥), (leaf ⟨false, 0⟩ 1 2, ⊥), (leaf ⟨true, 4⟩ 3 0, ⊥)]
    ∀ stores, ∃ parts whole,
      sweepPartitions "store" (some 2) [fam] leaves (4 ^ 1 : Nat) stores = .ok parts ∧
      runSweep "store" (some 2) [fam] leaves none stores = .ok whole ∧
      ∀ name d, 1 ≤ d.order → parts.1 name d = whole.1 name d :=
  sweepPartitions_eq (k := 1) (by decide) _ _ (by decide)

/-- Partition decomposition of the rollup sweep: ownership is a partition of the
leaves, distinct partitions write disjoint rollups, and running all of them in any
order leaves at order `k` and finer what one unpartitioned pass leaves. -/
theorem partitioned_sweep {shardOrder k : Nat} (hk : k ≤ shardOrder) (root : String)
    (fams : List (Family L P T)) (leaves : List (Decimal × Window L)) :
    (∀ leaf : Decimal, leaf.order = shardOrder →
      ∃! i, i < 4 ^ k ∧ partitionIndex leaf (4 ^ k : Nat) = .ok i) ∧
    (∀ i j, i ≠ j → ∀ s s' r r',
      runSweep root (some shardOrder) fams leaves (some (partitionBlock i (4 ^ k : Nat))) s
        = .ok r →
      runSweep root (some shardOrder) fams leaves (some (partitionBlock j (4 ^ k : Nat))) s'
        = .ok r' →
      List.Disjoint r.2.puts r'.2.puts) ∧
    (∀ order : List Nat, order.Perm (List.range (4 ^ k)) → ∀ stores, ∃ parts whole,
      runBuckets root (some shardOrder) fams (4 ^ k : Nat) (order.map fun i => (i, leaves)) stores
        = .ok parts ∧
      runSweep root (some shardOrder) fams leaves none stores = .ok whole ∧
      ∀ name d, k ≤ d.order → parts.1 name d = whole.1 name d) := by
  refine ⟨fun leaf hl => ?_, fun i j hij s s' r r' hr hr' => ?_, fun order hperm stores => ?_⟩
  · have hle : k ≤ leaf.order := hl ▸ hk
    refine ⟨owner k leaf, ⟨owner_lt hle, partitionIndex_eq hle⟩, fun i hi => ?_⟩
    rw [partitionIndex_eq hle] at hi
    exact (Except.ok.inj hi.2).symm
  · rintro ⟨name, d⟩ hd hd'
    have hi := index_lt_of_runSweep hr
    have hj := index_lt_of_runSweep hr'
    exact hij ((owner_of_mem_puts hk hi hr hd).2.symm.trans (owner_of_mem_puts hk hj hr' hd').2)
  · have hmem : ∀ i, i ∈ order ↔ i < 4 ^ k := fun i => by rw [hperm.mem_iff, List.mem_range]
    have hfst : (order.map fun i => (i, leaves)).map Prod.fst = order := by
      rw [List.map_map]
      exact List.map_id order
    refine runBuckets_eq_runSweep root fams hk ?_ ?_ ?_ ?_ stores
    · rw [hfst]
      exact hperm.nodup_iff.mpr List.nodup_range
    · intro b hb
      obtain ⟨i, hi, rfl⟩ := List.mem_map.mp hb
      exact (hmem i).mp hi
    · intro ref _ ho
      rw [hfst, hmem]
      exact owner_lt (ho ▸ hk)
    · intro b hb ref _ _
      obtain ⟨i, _, rfl⟩ := List.mem_map.mp hb
      exact Iff.rfl

/-- Two base cells, a leaf in each half of the northern one, split four ways. -/
theorem partitioned_sweep_order_two :
    let leaf (b : Base) (g h : Fin 4) : Decimal := ⟨b, [g, h]⟩
    let fam : Family Nat Nat Nat := ⟨"stats", fun _ _ => .got 1 (some 7), fun ps _ _ => some ps.sum⟩
    let leaves := [(leaf ⟨false, 0⟩ 0 1, ⊥), (leaf ⟨false, 0⟩ 3 2, ⊥), (leaf ⟨true, 4⟩ 0 0, ⊥)]
    ∀ stores, ∃ parts whole,
      runBuckets "store" (some 2) [fam] (4 ^ 1 : Nat) ([2, 0, 3, 1].map fun i => (i, leaves)) stores
        = .ok parts ∧
      runSweep "store" (some 2) [fam] leaves none stores = .ok whole ∧
      ∀ name d, 1 ≤ d.order → parts.1 name d = whole.1 name d :=
  (partitioned_sweep (k := 1) (by decide) _ _ _).2.2 _ (by decide)

end Zagg.Sweep
