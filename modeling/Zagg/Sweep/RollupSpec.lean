import Zagg.Sweep.Rollup

/-!
# What a sweep pass leaves at each node

`settled` states the result of a walk by recursion on the height of a node: a dirty
shard folds its leaves, a node with a live child folds its four candidates, any other
node keeps what it had. `sweepFamily_store` is the walk computing exactly that, so
every later property of a pass is an induction on height.
-/
namespace Zagg.Sweep

variable {L P T : Type}

theorem Pass.settle_store_self (p : Pass L P T) (d : Decimal) (o : Outcome L P T) (n : Nat) :
    (p.settle d o n).store d = o.stored (p.store d) := by simp [settle]

theorem Pass.settle_computed_self (p : Pass L P T) (d : Decimal) (o : Outcome L P T) (n : Nat) :
    (p.settle d o n).computed d = o.result := by simp [settle]

theorem Pass.settle_store_ne (p : Pass L P T) {d e : Decimal} (o : Outcome L P T) (n : Nat)
    (h : e ≠ d) : (p.settle d o n).store e = p.store e := by simp [settle, h]

theorem Pass.settle_computed_ne (p : Pass L P T) {d e : Decimal} (o : Outcome L P T) (n : Nat)
    (h : e ≠ d) : (p.settle d o n).computed e = p.computed e := by simp [settle, h]

theorem Pass.mem_settle_puts {p : Pass L P T} {d e : Decimal} {o : Outcome L P T} {n : Nat}
    (h : e ∈ (p.settle d o n).puts) : e ∈ p.puts ∨ e = d := by
  cases o <;> simp [settle] at h <;> tauto

/-- Settling a list of nodes one after another, when no decision reads a node of the
list but its own: each node ends as if it had been settled alone. -/
theorem foldl_settle {F : Pass L P T → Decimal → Outcome L P T × Nat} {nodes : List Decimal}
    (hn : nodes.Nodup)
    (hF : ∀ p, ∀ m ∈ nodes, ∀ n ∈ nodes, n ≠ m → ∀ o k, F (p.settle m o k) n = F p n)
    (p : Pass L P T) :
    let q := nodes.foldl (fun p n => p.settle n (F p n).1 (F p n).2) p
    (∀ n ∈ nodes, q.store n = (F p n).1.stored (p.store n) ∧ q.computed n = (F p n).1.result) ∧
    (∀ n, n ∉ nodes → q.store n = p.store n ∧ q.computed n = p.computed n) ∧
    ∀ n ∈ q.puts, n ∈ p.puts ∨ n ∈ nodes := by
  induction nodes generalizing p with
  | nil => simp
  | cons m nodes ih =>
    obtain ⟨hm, hn⟩ := List.nodup_cons.mp hn
    have hF' : ∀ p, ∀ m ∈ nodes, ∀ n ∈ nodes, n ≠ m → ∀ o k, F (p.settle m o k) n = F p n :=
      fun p a ha n hn => hF p a (.tail _ ha) n (.tail _ hn)
    obtain ⟨h1, h2, h3⟩ := ih hn hF' (p.settle m (F p m).1 (F p m).2)
    refine ⟨fun n h => ?_, fun n h => ?_, fun n h => ?_⟩
    · rcases List.mem_cons.mp h with rfl | h
      · rw [List.foldl_cons, (h2 n hm).1, (h2 n hm).2, Pass.settle_store_self,
          Pass.settle_computed_self]
        exact ⟨rfl, rfl⟩
      · have hne : n ≠ m := fun he => hm (he ▸ h)
        have hs := h1 n h
        rw [hF p m (.head _) n (.tail _ h) hne, Pass.settle_store_ne _ _ _ hne] at hs
        exact hs
    · have hne : n ≠ m := fun he => h (he ▸ .head _)
      have hs := h2 n fun hin => h (.tail _ hin)
      rwa [Pass.settle_store_ne _ _ _ hne, Pass.settle_computed_ne _ _ _ hne] at hs
    · rcases h3 n h with h | h
      · rcases Pass.mem_settle_puts h with h | rfl
        · exact .inl h
        · exact .inr (.head _)
      · exact .inr (.tail _ h)

theorem mem_live {p : Pass L P T} {nodes : List Decimal} {d : Decimal} :
    d ∈ live p nodes ↔ d ∈ nodes ∧ (p.computed d).isSome = true := by simp [live]

theorem Work.mem_shards {work : Work L} {d : Decimal} :
    d ∈ work.shards ↔ ∃ w, (d, w) ∈ work := by simp [Work.shards]

theorem Work.mem_windowsOf {work : Work L} {d : Decimal} {w : Window L} :
    w ∈ work.windowsOf d ↔ (d, w) ∈ work := by
  simp only [Work.windowsOf, List.mem_map, List.mem_filter, decide_eq_true_eq]
  exact ⟨fun ⟨⟨_, _⟩, ⟨h, rfl⟩, rfl⟩ => h, fun h => ⟨(d, w), ⟨h, rfl⟩, rfl⟩⟩

/-- Every shard of the work set is at the store's shard order. -/
def Work.AtOrder (work : Work L) (shardOrder : Nat) : Prop :=
  ∀ ref ∈ work, ref.1.order = shardOrder

theorem Work.order_of_mem_shards {work : Work L} {n : Nat} (h : work.AtOrder n) {d : Decimal}
    (hd : d ∈ work.shards) : d.order = n := by
  obtain ⟨w, hw⟩ := Work.mem_shards.mp hd
  exact h _ hw

section
variable [LinearOrder L]

theorem mem_sortedWindows {ws : List (Window L)} {w : Window L} :
    w ∈ sortedWindows ws ↔ w ∈ ws := by
  rw [sortedWindows, List.mem_insertionSort, List.mem_dedup]

theorem nodup_sortedWindows (ws : List (Window L)) : (sortedWindows ws).Nodup :=
  (List.perm_insertionSort _ _).nodup_iff.mpr ws.nodup_dedup

theorem pairwise_sortedWindows (ws : List (Window L)) :
    (sortedWindows ws).Pairwise (· ≤ ·) := List.pairwise_insertionSort _ _

/-- Two window lists in window order with the same members are the same list. -/
theorem eq_of_sorted {xs ys : List (Window L)} (hx : xs.Pairwise (· ≤ ·)) (hy : ys.Pairwise (· ≤ ·))
    (nx : xs.Nodup) (ny : ys.Nodup) (h : ∀ w, w ∈ xs ↔ w ∈ ys) : xs = ys :=
  ((List.perm_ext_iff_of_nodup nx ny).mpr h).eq_of_pairwise' hx hy

theorem sortedWindows_congr {ws vs : List (Window L)} (h : ∀ w, w ∈ ws ↔ w ∈ vs) :
    sortedWindows ws = sortedWindows vs :=
  eq_of_sorted (pairwise_sortedWindows ws) (pairwise_sortedWindows vs) (nodup_sortedWindows ws)
    (nodup_sortedWindows vs) fun w => by rw [mem_sortedWindows, mem_sortedWindows, h]

theorem knownWindows_congr (e : Option (Envelope L P T)) {ws vs : List (Window L)}
    (h : ∀ w, w ∈ ws ↔ w ∈ vs) : knownWindows e ws = knownWindows e vs :=
  sortedWindows_congr fun w => by simp [h]

end

variable [DecidableEq P] [LinearOrder T]

/-- An interior fold only reads its own key and its children. -/
theorem rollupInterior_congr (fam : Family L P T) {n : Decimal} {p q : Pass L P T}
    (hs : p.store n = q.store n)
    (hc : ∀ c ∈ n.children, p.computed c = q.computed c ∧ p.store c = q.store c) :
    rollupInterior fam n p = rollupInterior fam n q := by
  have hch : childArtifacts fam n p = childArtifacts fam n q :=
    List.filterMap_congr fun c hin => by rw [(hc c hin).1, (hc c hin).2]
  rw [rollupInterior, rollupInterior, hch, hs]

variable [LinearOrder L]

/-- The part of the walk's state the fold of node `d` reads: its children as settled
`below`, and its own key. -/
def readsOf (below : Decimal → Option (RollupObject L P T) × Option (Envelope L P T))
    (store : RollupStore L P T) (d : Decimal) : Pass L P T where
  store := Function.update (fun c => (below c).1) d (store d)
  computed c := (below c).2
  counts := ⟨0, 0, 0, 0⟩
  puts := []

/-- The store and the `computed` entry a pass leaves at a node `height` orders above
the shards. -/
def settled (fam : Family L P T) (work : Work L) (shardOrder : Nat) (store : RollupStore L P T) :
    Nat → Decimal → Option (RollupObject L P T) × Option (Envelope L P T)
  | 0, d =>
    if d ∈ work.shards then
      let o := (rollupShardNode fam d (work.windowsOf d) shardOrder (store d)).1
      (o.stored (store d), o.result)
    else (store d, none)
  | height + 1, d =>
    let below := settled fam work shardOrder store height
    if d.children.any fun c => (below c).2.isSome then
      let o := rollupInterior fam d (readsOf below store d)
      (o.stored (store d), o.result)
    else (store d, none)

def settledAt (fam : Family L P T) (work : Work L) (shardOrder : Nat)
    (store : RollupStore L P T) (d : Decimal) :
    Option (RollupObject L P T) × Option (Envelope L P T) :=
  if d.order ≤ shardOrder then settled fam work shardOrder store (shardOrder - d.order) d
  else (store d, none)

/-- The walk after the levels of order `ord` and finer. -/
structure WalkedTo (fam : Family L P T) (work : Work L) (shardOrder : Nat)
    (store : RollupStore L P T) (ord : Nat) (frontier : List Decimal) (p : Pass L P T) : Prop where
  done : ∀ d, ord ≤ d.order →
    p.store d = (settledAt fam work shardOrder store d).1 ∧
    p.computed d = (settledAt fam work shardOrder store d).2
  untouched : ∀ d, d.order < ord → p.store d = store d ∧ p.computed d = none
  frontier_iff : ∀ d, d ∈ frontier ↔ d.order = ord ∧ (p.computed d).isSome = true
  nodup : frontier.Nodup
  covered : ∀ d, (p.computed d).isSome = true → ∃ s ∈ work.shards, s.startsWith d = true
  puts : ∀ d ∈ p.puts, ord ≤ d.order ∧ ∃ s ∈ work.shards, s.startsWith d = true

theorem walkedTo_shards (fam : Family L P T) {work : Work L} {shardOrder : Nat}
    (hw : work.AtOrder shardOrder) (store : RollupStore L P T) :
    let p := sweepShards fam work shardOrder ⟨store, fun _ => none, ⟨0, 0, 0, 0⟩, []⟩
    WalkedTo fam work shardOrder store shardOrder (live p work.shards) p := by
  intro p
  have hF : ∀ p : Pass L P T, ∀ m ∈ work.shards, ∀ n ∈ work.shards, n ≠ m → ∀ o k,
      rollupShardNode fam n (work.windowsOf n) shardOrder ((p.settle m o k).store n) =
        rollupShardNode fam n (work.windowsOf n) shardOrder (p.store n) := by
    intro p m _ n _ hne o k
    rw [Pass.settle_store_ne _ _ _ hne]
  obtain ⟨h1, h2, h3⟩ := foldl_settle
    (F := fun p d => rollupShardNode fam d (work.windowsOf d) shardOrder (p.store d))
    (Decimal.nodup_sorted _) hF ⟨store, fun _ => none, ⟨0, 0, 0, 0⟩, []⟩
  have hin : ∀ d, (p.computed d).isSome = true → d ∈ work.shards := by
    intro d hd
    by_contra hn
    have := (h2 d hn).2
    rw [show p.computed d = none from this] at hd
    cases hd
  refine ⟨fun d hd => ?_, fun d hd => ?_, fun d => ?_, ?_, fun d hd => ?_, fun d hd => ?_⟩
  · unfold settledAt
    by_cases hm : d ∈ work.shards
    · have ho := Work.order_of_mem_shards hw hm
      rw [if_pos ho.le, ho, Nat.sub_self, settled, if_pos hm]
      exact h1 d hm
    · have hs := h2 d hm
      split
      · rw [show shardOrder - d.order = 0 by omega, settled, if_neg hm]
        exact hs
      · exact hs
  · exact h2 d fun hm => by have := Work.order_of_mem_shards hw hm; omega
  · rw [mem_live]
    exact ⟨fun h => ⟨Work.order_of_mem_shards hw h.1, h.2⟩, fun h => ⟨hin d h.2, h.2⟩⟩
  · exact (Decimal.nodup_sorted _).filter _
  · exact ⟨d, hin d hd, d.startsWith_refl⟩
  · rcases h3 d hd with h | h
    · cases h
    · exact ⟨(Work.order_of_mem_shards hw h).ge, d, h, d.startsWith_refl⟩

/-- The parents of a frontier are the nodes with a child in it. -/
theorem mem_parents {frontier : List Decimal} {n : Decimal} :
    n ∈ Decimal.sorted (frontier.filterMap Decimal.ancestor) ↔ ∃ g, n.child g ∈ frontier := by
  simp only [Decimal.mem_sorted, List.mem_filterMap, Decimal.ancestor_eq_some]
  constructor
  · rintro ⟨c, hc, g, hg⟩
    exact ⟨g, hg ▸ hc⟩
  · rintro ⟨g, hg⟩
    exact ⟨_, hg, g, rfl⟩

omit [LinearOrder L] in
/-- Folding a level: no parent of one order is another's child, so each fold reads the
walk as it stood before the level. -/
theorem sweepLevel_settle (fam : Family L P T) {parents : List Decimal} {ord : Nat}
    (hn : parents.Nodup) (hord : ∀ n ∈ parents, n.order = ord) (p : Pass L P T) :
    let q := sweepLevel fam parents p
    (∀ n ∈ parents, q.store n = (rollupInterior fam n p).stored (p.store n) ∧
      q.computed n = (rollupInterior fam n p).result) ∧
    (∀ n, n ∉ parents → q.store n = p.store n ∧ q.computed n = p.computed n) ∧
    ∀ n ∈ q.puts, n ∈ p.puts ∨ n ∈ parents := by
  refine foldl_settle (F := fun p n => (rollupInterior fam n p, 0)) hn ?_ p
  intro p m hm n hn hnm o k
  refine Prod.ext (rollupInterior_congr fam (Pass.settle_store_ne _ _ _ hnm) fun c hc => ?_) rfl
  have hcm : c ≠ m := by
    rintro rfl
    obtain ⟨g, rfl⟩ := Decimal.mem_children.mp hc
    have hchild := hord _ hm
    rw [Decimal.order_child, hord n hn] at hchild
    omega
  exact ⟨Pass.settle_computed_ne _ _ _ hcm, Pass.settle_store_ne _ _ _ hcm⟩

section Level
variable {fam : Family L P T} {work : Work L} {shardOrder ord : Nat} {store : RollupStore L P T}
  {frontier : List Decimal} {p : Pass L P T} {n : Decimal}

theorem WalkedTo.order_parent (h : WalkedTo fam work shardOrder store (ord + 1) frontier p)
    (hn : n ∈ Decimal.sorted (frontier.filterMap Decimal.ancestor)) : n.order = ord := by
  obtain ⟨g, hg⟩ := mem_parents.mp hn
  have hchild := ((h.frontier_iff _).mp hg).1
  rw [Decimal.order_child] at hchild
  omega

theorem WalkedTo.covered_parent (h : WalkedTo fam work shardOrder store (ord + 1) frontier p)
    (hn : n ∈ Decimal.sorted (frontier.filterMap Decimal.ancestor)) :
    ∃ s ∈ work.shards, s.startsWith n = true := by
  obtain ⟨g, hg⟩ := mem_parents.mp hn
  obtain ⟨s, hs, ht⟩ := h.covered _ ((h.frontier_iff _).mp hg).2
  obtain ⟨t, rfl⟩ := Decimal.startsWith_iff.mp ht
  refine ⟨_, hs, Decimal.startsWith_iff.mpr ⟨g :: t, ?_⟩⟩
  rw [Decimal.child_eq_extend, Decimal.extend_extend]
  rfl

/-- The children one order down stand as settled. -/
theorem WalkedTo.child (h : WalkedTo fam work shardOrder store (ord + 1) frontier p)
    (ho : ord < shardOrder) (hn : n.order = ord) {c : Decimal} (hc : c ∈ n.children) :
    p.store c = (settled fam work shardOrder store (shardOrder - (ord + 1)) c).1 ∧
      p.computed c = (settled fam work shardOrder store (shardOrder - (ord + 1)) c).2 := by
  obtain ⟨g, rfl⟩ := Decimal.mem_children.mp hc
  have hco : (n.child g).order = ord + 1 := by rw [Decimal.order_child, hn]
  have hcd := h.done (n.child g) hco.ge
  rwa [settledAt, if_pos (by omega), hco] at hcd

theorem WalkedTo.live_child_iff (h : WalkedTo fam work shardOrder store (ord + 1) frontier p)
    (ho : ord < shardOrder) (hn : n.order = ord) :
    (n.children.any fun c =>
      (settled fam work shardOrder store (shardOrder - (ord + 1)) c).2.isSome) = true ↔
      n ∈ Decimal.sorted (frontier.filterMap Decimal.ancestor) := by
  rw [List.any_eq_true, mem_parents]
  constructor
  · rintro ⟨c, hc, hs⟩
    rw [← (h.child ho hn hc).2] at hs
    obtain ⟨g, rfl⟩ := Decimal.mem_children.mp hc
    exact ⟨g, (h.frontier_iff _).mpr ⟨by rw [Decimal.order_child, hn], hs⟩⟩
  · rintro ⟨g, hg⟩
    have hc : n.child g ∈ n.children := Decimal.mem_children.mpr ⟨g, rfl⟩
    exact ⟨_, hc, (h.child ho hn hc).2 ▸ ((h.frontier_iff _).mp hg).2⟩

/-- A node of the next level settles to its fold over the walk, or stays as it was. -/
theorem WalkedTo.settledAt_next (h : WalkedTo fam work shardOrder store (ord + 1) frontier p)
    (ho : ord < shardOrder) (hn : n.order = ord) :
    settledAt fam work shardOrder store n =
      if n ∈ Decimal.sorted (frontier.filterMap Decimal.ancestor) then
        ((rollupInterior fam n p).stored (p.store n), (rollupInterior fam n p).result)
      else (p.store n, p.computed n) := by
  have hun := h.untouched n (by omega)
  rw [settledAt, if_pos (by omega),
    show shardOrder - n.order = shardOrder - (ord + 1) + 1 by omega, settled]
  by_cases hm : n ∈ Decimal.sorted (frontier.filterMap Decimal.ancestor)
  · have hreads : rollupInterior fam n p = rollupInterior fam n
        (readsOf (settled fam work shardOrder store (shardOrder - (ord + 1))) store n) := by
      refine rollupInterior_congr fam (by simp [readsOf, hun.1]) fun c hc => ?_
      have hcn : c ≠ n := Decimal.ne_of_mem_children hc
      have hkid := h.child ho hn hc
      simp [readsOf, hcn, hkid.1, hkid.2]
    rw [if_pos ((h.live_child_iff ho hn).mpr hm), if_pos hm, hreads, hun.1]
  · rw [if_neg fun ha => hm ((h.live_child_iff ho hn).mp ha), if_neg hm, hun.1, hun.2]

/-- One level: the parents of the live nodes are exactly the nodes with a live child. -/
theorem walkedTo_level (h : WalkedTo fam work shardOrder store (ord + 1) frontier p)
    (ho : ord < shardOrder) :
    let parents := Decimal.sorted (frontier.filterMap Decimal.ancestor)
    let q := sweepLevel fam parents p
    WalkedTo fam work shardOrder store ord (live q parents) q := by
  intro parents q
  have hord : ∀ n ∈ parents, n.order = ord := fun n hn => h.order_parent hn
  obtain ⟨hfold, hkeep, hputs⟩ := sweepLevel_settle fam (Decimal.nodup_sorted _) hord p
  refine ⟨fun d hd => ?_, fun d hd => ?_, fun d => ?_, ?_, fun d hd => ?_, fun d hd => ?_⟩
  · by_cases hfine : ord + 1 ≤ d.order
    · have hs := hkeep d fun hm => by have := hord d hm; omega
      have hd' := h.done d hfine
      exact ⟨hs.1.trans hd'.1, hs.2.trans hd'.2⟩
    · rw [h.settledAt_next ho (by omega)]
      split
      · next hm => exact hfold d hm
      · next hm => exact hkeep d hm
  · have hs := hkeep d fun hm => by have := hord d hm; omega
    have hun := h.untouched d (by omega)
    exact ⟨hs.1.trans hun.1, hs.2.trans hun.2⟩
  · rw [mem_live]
    refine ⟨fun hd => ⟨hord d hd.1, hd.2⟩, fun hd => ⟨?_, hd.2⟩⟩
    by_contra hm
    have hs := (hkeep d hm).2
    rw [(h.untouched d (by omega)).2] at hs
    rw [show q.computed d = none from hs] at hd
    cases hd.2
  · exact (Decimal.nodup_sorted _).filter _
  · by_cases hm : d ∈ parents
    · exact h.covered_parent hm
    · rw [show q.computed d = p.computed d from (hkeep d hm).2] at hd
      exact h.covered d hd
  · rcases hputs d hd with hp | hm
    · have := h.puts d hp
      exact ⟨by omega, this.2⟩
    · exact ⟨(hord d hm).ge, h.covered_parent hm⟩

end Level

/-- Above an order with no live node, no node has a live child. -/
theorem settledAt_of_dead {fam : Family L P T} {work : Work L} {shardOrder ord : Nat}
    {store : RollupStore L P T} (ho : ord ≤ shardOrder)
    (hdead : ∀ d, d.order = ord → (settledAt fam work shardOrder store d).2 = none) :
    ∀ k d, d.order + k + 1 = ord → settledAt fam work shardOrder store d = (store d, none) := by
  intro k
  induction k with
  | zero =>
    intro d hd
    rw [settledAt, if_pos (by omega), show shardOrder - d.order = shardOrder - ord + 1 by omega,
      settled, if_neg]
    rw [List.any_eq_true]
    rintro ⟨c, hc, hs⟩
    obtain ⟨g, rfl⟩ := Decimal.mem_children.mp hc
    have hco : (d.child g).order = ord := by rw [Decimal.order_child]; omega
    have hnone := hdead _ hco
    rw [settledAt, if_pos (by omega), hco] at hnone
    rw [hnone] at hs
    cases hs
  | succ k ih =>
    intro d hd
    rw [settledAt, if_pos (by omega),
      show shardOrder - d.order = shardOrder - (d.order + 1) + 1 by omega, settled, if_neg]
    rw [List.any_eq_true]
    rintro ⟨c, hc, hs⟩
    obtain ⟨g, rfl⟩ := Decimal.mem_children.mp hc
    have hco : (d.child g).order = d.order + 1 := Decimal.order_child d g
    have hnone := ih (d.child g) (by omega)
    rw [settledAt, if_pos (by omega), hco] at hnone
    rw [hnone] at hs
    cases hs

/-- The order loop reaches the split order, whether or not it broke off early. -/
theorem walkedTo_climb {fam : Family L P T} {work : Work L} {shardOrder minOrder : Nat}
    {store : RollupStore L P T} : ∀ levels frontier (p : Pass L P T),
    minOrder + levels ≤ shardOrder →
    WalkedTo fam work shardOrder store (minOrder + levels) frontier p →
    WalkedTo fam work shardOrder store minOrder (climb fam levels frontier p).1
      (climb fam levels frontier p).2 := by
  intro levels
  induction levels with
  | zero => intro frontier p _ h; exact h
  | succ levels ih =>
    intro frontier p hle h
    have hq := walkedTo_level
      (show WalkedTo fam work shardOrder store (minOrder + levels + 1) frontier p from h) (by omega)
    rw [climb]
    split
    · next hemp =>
      have hdead : ∀ d, d.order = minOrder + levels →
          (settledAt fam work shardOrder store d).2 = none := by
        intro d hd
        rw [← (hq.done d hd.ge).2]
        by_contra hne
        have := (hq.frontier_iff d).mpr ⟨hd, Option.isSome_iff_ne_none.mpr hne⟩
        rw [hemp] at this
        cases this
      have habove : ∀ d, d.order < minOrder + levels →
          settledAt fam work shardOrder store d = (store d, none) := fun d hd =>
        settledAt_of_dead (by omega) hdead (minOrder + levels - d.order - 1) d (by omega)
      refine ⟨fun d hd => ?_, fun d hd => hq.untouched d (by omega), fun d => ?_, List.nodup_nil,
        hq.covered, fun d hd => ?_⟩
      · by_cases hf : minOrder + levels ≤ d.order
        · exact hq.done d hf
        · rw [habove d (by omega)]
          exact hq.untouched d (by omega)
      · refine ⟨fun hd => absurd hd List.not_mem_nil, fun hd => ?_⟩
        rcases Nat.eq_zero_or_pos levels with rfl | hpos
        · have := (hq.frontier_iff d).mpr hd
          rw [hemp] at this
          cases this
        · have := (hq.untouched d (by omega)).2
          rw [this] at hd
          cases hd.2
      · have := hq.puts d hd
        exact ⟨by omega, this.2⟩
    · exact ih _ _ (by omega) hq

section
variable (fam : Family L P T) {work : Work L} {shardOrder minOrder : Nat}

theorem walkedTo_sweepFamily (hw : work.AtOrder shardOrder) (hm : minOrder ≤ shardOrder)
    (store : RollupStore L P T) :
    let p := sweepShards fam work shardOrder ⟨store, fun _ => none, ⟨0, 0, 0, 0⟩, []⟩
    let walked := climb fam (shardOrder - minOrder) (live p work.shards) p
    WalkedTo fam work shardOrder store minOrder walked.1 walked.2 := by
  have h := walkedTo_shards fam hw store
  refine walkedTo_climb _ _ _ (by omega) ?_
  rwa [show minOrder + (shardOrder - minOrder) = shardOrder by omega]

variable {fam} in
/-- The store a pass leaves. -/
theorem sweepFamily_store (hw : work.AtOrder shardOrder) (hm : minOrder ≤ shardOrder)
    (store : RollupStore L P T) (d : Decimal) :
    (sweepFamily fam work shardOrder minOrder store).1 d =
      if minOrder ≤ d.order then (settledAt fam work shardOrder store d).1 else store d := by
  have h := walkedTo_sweepFamily fam hw hm store
  split
  · next hd => exact (h.done d hd).1
  · next hd => exact (h.untouched d (by omega)).1

variable {fam} in
/-- A pass only writes at or below its split, above leaves of its own work set. -/
theorem sweepFamily_puts (hw : work.AtOrder shardOrder) (hm : minOrder ≤ shardOrder)
    (store : RollupStore L P T) {d : Decimal}
    (hd : d ∈ (sweepFamily fam work shardOrder minOrder store).2.puts) :
    minOrder ≤ d.order ∧ ∃ s ∈ work.shards, s.startsWith d = true :=
  (walkedTo_sweepFamily fam hw hm store).puts d hd

/-- An unpartitioned pass hands `finish` the base rollups it computed. -/
theorem sweepFamily_tops (hw : work.AtOrder shardOrder) (store : RollupStore L P T) :
    ∃ bases : List Decimal, bases.Nodup ∧
      (∀ d, d ∈ bases ↔ d.order = 0 ∧ (settledAt fam work shardOrder store d).2.isSome = true) ∧
      (sweepFamily fam work shardOrder 0 store).2.finish =
        .tops (bases.filterMap fun d => (settledAt fam work shardOrder store d).2) := by
  have h := walkedTo_sweepFamily fam hw (Nat.zero_le _) store
  refine ⟨_, h.nodup, fun d => ?_, ?_⟩
  · rw [h.frontier_iff, (h.done d (Nat.zero_le _)).2]
  · simp only [sweepFamily, if_true]
    congr 1
    exact List.filterMap_congr fun d _ => (h.done d (Nat.zero_le _)).2

end

end Zagg.Sweep
