import Mathlib.Data.Set.Lattice
import Zagg.Sweep.RollupWindows

/-!
# Incremental sweeps equal one full sweep

`ideal` is the rollup tree of the leaf store as it stands: a shard folds all the
windows written there, an interior node folds its children. Up to an order a leaf is
pending from its write to the next pass that walks up to that order with the leaf in its
work set. The invariant of a history is that every node with nothing pending below holds
its ideal rollup; a pass from scratch over all leaves holds it everywhere.
-/
namespace Zagg.Sweep

open Zagg.Lib

variable {L P T : Type} [DecidableEq P] [LinearOrder L] [LinearOrder T]

/-- The fold of an interior node's children, on what parents and the skip test see. -/
def interiorFold (merge : List P → Decimal → Nat → Option P) (d : Decimal)
    (views : List (Generation T × P)) : Option (Generation T × P) :=
  if views = [] then none
  else (merge (views.map (·.2)) d d.order).map fun payload =>
    (generationOf (views.map (·.1.nLeaves)).sum (views.map (·.1.maxLeafTimestamp)), payload)

/-- The rollup at height `k` above the shards, when a shard folds the windows `ws`. -/
def idealFold (fam : Family L P T) (shardOrder : Nat) (ws : Decimal → List (Window L)) :
    Nat → Decimal → Option (Generation T × P)
  | 0, d => shardFold fam d (ws d) shardOrder
  | k + 1, d => interiorFold fam.merge d (d.children.filterMap (idealFold fam shardOrder ws k))

section Settled
variable {fam : Family L P T}

/-- A settled node holds the fold `v` in memory and on the store, or the fold was empty
and the node is untouched. -/
def Holds (fam : Family L P T) (d : Decimal) (before : Option (RollupObject L P T))
    (r : Option (RollupObject L P T) × Option (Envelope L P T)) :
    Option (Generation T × P) → Prop
  | none => r = (before, none)
  | some v => ∃ e, e.view = v ∧ r.2 = some e ∧ readRollup fam.name r.1 = some e ∧
      ((∀ e₀, readRollup fam.name before = some e₀ → e₀.node = d) → e.node = d)

omit [LinearOrder L] in
theorem holds_publish {d : Decimal} {before : Option (RollupObject L P T)} {env : Envelope L P T}
    (henv : readRollup fam.name (some (.envelope env)) = some env) (hnode : env.node = d) :
    let o := publish (readRollup fam.name before) env
    Holds fam d before (o.stored before, o.result) (some env.view) := by
  intro o
  cases hb : readRollup fam.name before with
  | none =>
    have ho : o = .written env := by simp only [o, publish, hb]
    rw [ho]
    exact ⟨env, rfl, rfl, henv, fun _ => hnode⟩
  | some e =>
    by_cases hv : e.view = env.view
    · have ho : o = .current e := by simp only [o, publish, hb, if_pos hv]
      rw [ho]
      exact ⟨e, hv, rfl, hb, fun h => h e hb⟩
    · have ho : o = .written env := by simp only [o, publish, hb, if_neg hv]
      rw [ho]
      exact ⟨env, rfl, rfl, henv, fun _ => hnode⟩

def recordedAt (fam : Family L P T) (store : RollupStore L P T) (d : Decimal) : List (Window L) :=
  ((readRollup fam.name (store d)).map (·.windows)).getD []

theorem settled_shard (fam : Family L P T) {work : Work L} (shardOrder : Nat) (store : RollupStore L P T) {d : Decimal}
    (hd : d ∈ work.shards) :
    Holds fam d (store d) (settled fam work shardOrder store 0 d)
      (shardFold fam d (work.windowsOf d ++ recordedAt fam store d) shardOrder) := by
  rw [settled, if_pos hd, rollupShardNode]
  simp only [shardFold]
  rw [show sortedWindows (work.windowsOf d ++ recordedAt fam store d) =
    knownWindows (readRollup fam.name (store d)) (work.windowsOf d) from rfl]
  split
  · rfl
  · cases fam.merge _ d shardOrder with
    | none => rfl
    | some payload => exact holds_publish (readRollup_shardEnvelope _ _ _) rfl

/-- Some child of the node was computed this pass. -/
def Visited (fam : Family L P T) (work : Work L) (shardOrder : Nat) (store : RollupStore L P T)
    (k : Nat) (d : Decimal) : Prop :=
  ∃ c ∈ d.children, (settled fam work shardOrder store k c).2.isSome = true

theorem settled_unvisited {work : Work L} {shardOrder : Nat} {store : RollupStore L P T} {k : Nat}
    {d : Decimal} (h : ¬Visited fam work shardOrder store k d) :
    settled fam work shardOrder store (k + 1) d = (store d, none) := by
  rw [settled, if_neg]
  rw [List.any_eq_true]
  exact h

/-- What a node's parent sees of it after the pass. -/
def settledView (fam : Family L P T) (work : Work L) (shardOrder : Nat) (store : RollupStore L P T)
    (k : Nat) (d : Decimal) : Option (Generation T × P) :=
  (readRollup fam.name (settled fam work shardOrder store k d).1).map Envelope.view

omit [DecidableEq P] [LinearOrder L] [LinearOrder T] in
theorem Holds.view_eq {d : Decimal} {before : Option (RollupObject L P T)}
    {r : Option (RollupObject L P T) × Option (Envelope L P T)} {v : Generation T × P}
    (h : Holds fam d before r (some v)) :
    (readRollup fam.name r.1).map Envelope.view = some v ∧ r.2.map Envelope.view = some v := by
  obtain ⟨e, hv, h2, h1, -⟩ := h
  rw [h1, h2]
  exact ⟨congrArg some hv, congrArg some hv⟩

omit [DecidableEq P] [LinearOrder L] [LinearOrder T] in
/-- A computed artifact is the one on the store. -/
theorem Holds.stored {d : Decimal} {before : Option (RollupObject L P T)}
    {r : Option (RollupObject L P T) × Option (Envelope L P T)} {v : Option (Generation T × P)}
    (h : Holds fam d before r v) {e : Envelope L P T} (he : r.2 = some e) :
    readRollup fam.name r.1 = some e := by
  cases v with
  | none =>
    rw [show r = (before, none) from h] at he
    cases he
  | some v =>
    obtain ⟨e', -, h2, h1, -⟩ := h
    rw [he] at h2
    rw [h1, Option.some.inj h2]

theorem interior_holds {work : Work L} {shardOrder : Nat} {store : RollupStore L P T} {k : Nat}
    {d : Decimal} (hv : Visited fam work shardOrder store k d)
    (hst : ∀ c ∈ d.children, ∀ e, (settled fam work shardOrder store k c).2 = some e →
      readRollup fam.name (settled fam work shardOrder store k c).1 = some e) :
    Holds fam d (store d) (settled fam work shardOrder store (k + 1) d)
      (interiorFold fam.merge d
        (d.children.filterMap (settledView fam work shardOrder store k))) := by
  have hany : (d.children.any fun c => (settled fam work shardOrder store k c).2.isSome) = true :=
    List.any_eq_true.mpr hv
  have hart : childArtifacts fam d (readsOf (settled fam work shardOrder store k) store d) =
      d.children.filterMap fun c =>
        readRollup fam.name (settled fam work shardOrder store k c).1 := by
    refine List.filterMap_congr fun c hc => ?_
    have hcd : c ≠ d := Decimal.ne_of_mem_children hc
    simp only [readsOf, Function.update_of_ne hcd]
    cases h2 : (settled fam work shardOrder store k c).2 with
    | none => rfl
    | some e => rw [hst c hc e h2]; rfl
  have hviews : d.children.filterMap (settledView fam work shardOrder store k) =
      (childArtifacts fam d (readsOf (settled fam work shardOrder store k) store d)).map
        Envelope.view := by
    rw [hart, List.map_filterMap]
    rfl
  rw [settled, if_pos hany, hviews, rollupInterior, interiorFold]
  simp only [List.map_eq_nil_iff, List.map_map]
  split
  · rfl
  · rw [show ((·.2 : Generation T × P → P) ∘ Envelope.view) = Envelope.payload (L := L) from rfl]
    cases fam.merge _ d d.order with
    | none => rfl
    | some payload =>
      have hstore : (readsOf (settled fam work shardOrder store k) store d).store d = store d := by
        simp [readsOf]
      simp only [hstore]
      exact holds_publish (if_pos ⟨rfl, rfl⟩) rfl

theorem settled_stored {work : Work L} (shardOrder : Nat) (store : RollupStore L P T) :
    ∀ k d e, (settled fam work shardOrder store k d).2 = some e →
      readRollup fam.name (settled fam work shardOrder store k d).1 = some e := by
  intro k
  induction k with
  | zero =>
    intro d e he
    by_cases hd : d ∈ work.shards
    · exact (settled_shard _ shardOrder store hd).stored he
    · rw [settled, if_neg hd] at he
      cases he
  | succ k ih =>
    intro d e he
    by_cases hv : Visited fam work shardOrder store k d
    · exact (interior_holds hv fun c _ => ih c).stored he
    · rw [settled_unvisited hv] at he
      cases he

theorem settled_interior {work : Work L} {shardOrder : Nat} {store : RollupStore L P T} {k : Nat}
    {d : Decimal} (hv : Visited fam work shardOrder store k d) :
    Holds fam d (store d) (settled fam work shardOrder store (k + 1) d)
      (interiorFold fam.merge d
        (d.children.filterMap (settledView fam work shardOrder store k))) :=
  interior_holds hv fun c _ => settled_stored shardOrder store k c

end Settled

section Folds
variable {fam fam' : Family L P T} {shardOrder : Nat}

omit [DecidableEq P] in
/-- Leaf reads of one shard, by the windows that read. -/
theorem shardFold_congr {d : Decimal} {ws vs : List (Window L)} (hmerge : fam.merge = fam'.merge)
    (hread : ∀ w, fam.readLeaf d w = fam'.readLeaf d w)
    (hmem : ∀ w, (∃ p ts, fam'.readLeaf d w = .got p ts) → (w ∈ ws ↔ w ∈ vs)) :
    shardFold fam d ws shardOrder = shardFold fam' d vs shardOrder := by
  let f : Window L → Option (Window L × P × Option T) := fun w => (leafParts fam' d [w]).head?
  have hfilter : ∀ known : List (Window L),
      known.filterMap f = (known.filter fun w => (f w).isSome).filterMap f := by
    intro known
    rw [List.filterMap_filter]
    refine List.filterMap_congr fun w _ => ?_
    cases f w <;> rfl
  have hsome : ∀ w, (f w).isSome = true → ∃ p ts, fam'.readLeaf d w = .got p ts := by
    intro w hw
    cases hr : fam'.readLeaf d w with
    | got p ts => exact ⟨p, ts, rfl⟩
    | _ => simp [f, leafParts, hr] at hw
  have heq : (sortedWindows ws).filter (fun w => (f w).isSome) =
      (sortedWindows vs).filter fun w => (f w).isSome := by
    refine eq_of_sorted ((pairwise_sortedWindows ws).filter _)
      ((pairwise_sortedWindows vs).filter _) ((nodup_sortedWindows ws).filter _)
      ((nodup_sortedWindows vs).filter _) fun w => ?_
    rw [List.mem_filter, List.mem_filter, mem_sortedWindows, mem_sortedWindows]
    exact and_congr_left fun hw => hmem w (hsome w hw)
  have hparts : leafParts fam d (sortedWindows ws) = leafParts fam' d (sortedWindows vs) := by
    have hsame : leafParts fam d (sortedWindows ws) = leafParts fam' d (sortedWindows ws) := by
      unfold leafParts
      simp only [hread]
    have hmap : ∀ known : List (Window L), leafParts fam' d known = known.filterMap f := by
      intro known
      refine List.filterMap_congr fun w _ => ?_
      cases hr : fam'.readLeaf d w <;> simp [f, leafParts, hr]
    rw [hsame, hmap, hmap, hfilter, heq, ← hfilter]
  rw [shardFold, shardFold, hparts, hmerge]

omit [DecidableEq P] in
/-- The ideal rollup of a node depends only on the leaves below it. -/
theorem idealFold_congr {ws vs : Decimal → List (Window L)} (hmerge : fam.merge = fam'.merge) :
    ∀ k d, d.order + k = shardOrder →
      (∀ s : Decimal, s.startsWith d = true → s.order = shardOrder → ∀ w,
        fam.readLeaf s w = fam'.readLeaf s w ∧
        ((∃ p ts, fam'.readLeaf s w = .got p ts) → (w ∈ ws s ↔ w ∈ vs s))) →
      idealFold fam shardOrder ws k d = idealFold fam' shardOrder vs k d := by
  intro k
  induction k with
  | zero =>
    intro d hd h
    have hs := h d d.startsWith_refl hd
    exact shardFold_congr hmerge (fun w => (hs w).1) fun w => (hs w).2
  | succ k ih =>
    intro d hd h
    rw [idealFold, idealFold, hmerge]
    congr 1
    refine List.filterMap_congr fun c hc => ?_
    obtain ⟨g, rfl⟩ := Decimal.mem_children.mp hc
    refine ih _ (by rw [Decimal.order_child]; omega) fun s hs => h s ?_
    exact Decimal.startsWith_trans hs (Decimal.startsWith_of_mem_children hc)

/-- The family's fold never raises on a non-empty list. -/
def Family.Total (fam : Family L P T) : Prop :=
  ∀ ps d o, ps ≠ [] → (fam.merge ps d o).isSome = true

omit [DecidableEq P] in
theorem shardFold_isSome (ht : fam.Total) (shardOrder : Nat) {d : Decimal} {ws : List (Window L)} {w : Window L}
    (hw : w ∈ ws) (hr : ∃ p ts, fam.readLeaf d w = .got p ts) :
    ∃ v, shardFold fam d ws shardOrder = some v := by
  obtain ⟨x, hx⟩ := mem_leafParts.mpr ⟨mem_sortedWindows.mpr hw, hr⟩
  have hne := List.ne_nil_of_mem hx
  obtain ⟨payload, hp⟩ := Option.isSome_iff_exists.mp
    (ht _ d shardOrder (mt List.map_eq_nil_iff.mp hne))
  exact ⟨_, by rw [shardFold, if_neg hne, hp]; rfl⟩

omit [DecidableEq P] [LinearOrder L] in
theorem interiorFold_isSome (ht : fam.Total) {d : Decimal} {views : List (Generation T × P)}
    (hne : views ≠ []) : ∃ v, interiorFold fam.merge d views = some v := by
  obtain ⟨payload, hp⟩ := Option.isSome_iff_exists.mp
    (ht _ d d.order (mt List.map_eq_nil_iff.mp hne))
  exact ⟨_, by rw [interiorFold, if_neg hne, hp]; rfl⟩

/-- A readable dirty leaf is folded into every node above it. -/
theorem settled_live (ht : fam.Total) {work : Work L} {store : RollupStore L P T} {w : Window L} :
    ∀ t d, (d.extend t, w) ∈ work → (∃ p ts, fam.readLeaf (d.extend t) w = .got p ts) →
      (settled fam work shardOrder store t.length d).2.isSome = true := by
  intro t
  induction t with
  | nil =>
    intro d hw hr
    have hd : d.extend [] = d := by simp [Decimal.extend]
    rw [hd] at hw hr
    have hds := Work.mem_shards.mpr ⟨w, hw⟩
    obtain ⟨v, hv⟩ := shardFold_isSome ht shardOrder
      (List.mem_append_left (recordedAt fam store d) (Work.mem_windowsOf.mpr hw)) hr
    have h := settled_shard fam shardOrder store hds
    rw [hv] at h
    obtain ⟨e, -, h2, -⟩ := h
    exact Option.isSome_iff_exists.mpr ⟨e, h2⟩
  | cons g t ih =>
    intro d hw hr
    have hgd : d.extend (g :: t) = (d.child g).extend t := by
      rw [Decimal.child_eq_extend, Decimal.extend_extend]
      rfl
    rw [hgd] at hw hr
    have hc : d.child g ∈ d.children := Decimal.mem_children.mpr ⟨g, rfl⟩
    have hlive := ih (d.child g) hw hr
    have hv : Visited fam work shardOrder store t.length d := ⟨_, hc, hlive⟩
    have hne : d.children.filterMap (settledView fam work shardOrder store t.length) ≠ [] := by
      obtain ⟨e, he⟩ := Option.isSome_iff_exists.mp hlive
      have hview : settledView fam work shardOrder store t.length (d.child g) = some e.view := by
        rw [settledView, settled_stored shardOrder store _ _ e he]
        rfl
      exact List.ne_nil_of_mem (List.mem_filterMap.mpr ⟨_, hc, hview⟩)
    have h := settled_interior hv
    obtain ⟨v, hv'⟩ := interiorFold_isSome ht (d := d) hne
    rw [hv'] at h
    obtain ⟨e, -, h2, -⟩ := h
    exact Option.isSome_iff_exists.mpr ⟨e, h2⟩

end Folds

section Histories

/-- No leaf read of a pass fails. -/
def Event.Clean : Event L P T → Prop
  | .write _ _ _ _ => True
  | .sweep _ _ fails => ∀ d w, fails d w = false

/-- A later pass walks up to order `k` with the leaf in its work set. An unpartitioned
pass walks up to every order, a partitioned one up to its split. -/
def SweptLater (shardOrder k : Nat) (ref : Decimal × Window L) (es : List (Event L P T)) : Prop :=
  ∃ leaves partition fails work minOrder, Event.sweep leaves partition fails ∈ es ∧
    passPlan shardOrder leaves partition = some (work, minOrder) ∧ minOrder ≤ k ∧ ref ∈ work

/-- Every leaf changed at the store's order at or below `d` is in the work set of a later
pass that walks up to `d`. -/
def Covered (shardOrder : Nat) (d : Decimal) : List (Event L P T) → Prop
  | [] => True
  | .write s w _ _ :: es =>
    (s.order = shardOrder → s.startsWith d = true → SweptLater shardOrder d.order (s, w) es) ∧
      Covered shardOrder d es
  | .sweep _ _ _ :: es => Covered shardOrder d es

def writtenBy : Event L P T → List (Decimal × Window L)
  | .write d w _ _ => [(d, w)]
  | .sweep _ _ _ => []

def written (es : List (Event L P T)) : List (Decimal × Window L) := es.flatMap writtenBy

def Product.replay (pr : Product L P T) (h : Hive L P T) (es : List (Event L P T)) : Hive L P T :=
  es.foldl pr.apply h

def emptyHive : Hive L P T := ⟨fun _ _ => none, fun _ _ => none, []⟩

/-- One pass over the given leaves with no rollup on the store. -/
def Product.fromScratch (pr : Product L P T) (h : Hive L P T)
    (leaves : List (Decimal × Window L)) : Hive L P T :=
  pr.sweep ⟨h.leaves, fun _ _ => none, []⟩ leaves none fun _ _ => false

/-- The top last handed to `finish` for a base component. -/
def lastTop (handed : List (Envelope L P T)) (b : Decimal) : Option (Envelope L P T) :=
  (handed.filter fun e => e.node = b).getLast?

/-- Leaves written since the last pass that walked up to order `k` with them. -/
def pendingAfter (shardOrder k : Nat) (pending : List (Decimal × Window L)) :
    Event L P T → List (Decimal × Window L)
  | .write d w _ _ => (d, w) :: pending
  | .sweep leaves partition _ =>
    match passPlan shardOrder leaves partition with
    | some (work, minOrder) =>
      if minOrder ≤ k then pending.filter fun ref => ref ∉ work else pending
    | none => pending

/-- No shard leaf at or below `d` is pending. -/
def Quiet (shardOrder : Nat) (pending : List (Decimal × Window L)) (d : Decimal) : Prop :=
  ∀ ref ∈ pending, ref.1.order = shardOrder → ref.1.startsWith d ≠ true

omit [DecidableEq P] [LinearOrder T] in
theorem mem_of_mem_pendingAfter {shardOrder k : Nat} {pending leaves : List (Decimal × Window L)}
    {partition : Option PartitionBlock} {fails : Decimal → Window L → Bool}
    {ref : Decimal × Window L}
    (h : ref ∈ pendingAfter shardOrder k pending (.sweep leaves partition fails : Event L P T)) :
    ref ∈ pending := by
  rw [pendingAfter] at h
  split at h
  · split at h
    · exact List.mem_of_mem_filter h
    · exact h
  · exact h

omit [DecidableEq P] [LinearOrder T] in
/-- What a pass takes off the pending leaves is in its work set, and its walk reaches. -/
theorem taken_by_pass {shardOrder k : Nat} {pending leaves : List (Decimal × Window L)}
    {partition : Option PartitionBlock} {fails : Decimal → Window L → Bool}
    {ref : Decimal × Window L} (h : ref ∈ pending)
    (hnot : ref ∉ pendingAfter shardOrder k pending
      (.sweep leaves partition fails : Event L P T)) :
    ∃ work minOrder, passPlan shardOrder leaves partition = some (work, minOrder) ∧
      minOrder ≤ k ∧ ref ∈ work := by
  rw [pendingAfter] at hnot
  split at hnot
  · next work minOrder hplan =>
    split at hnot
    · next hle =>
      refine ⟨work, minOrder, hplan, hle, ?_⟩
      by_contra hwork
      exact hnot (List.mem_filter.mpr ⟨h, by simpa using hwork⟩)
    · exact absurd h hnot
  · exact absurd h hnot

omit [DecidableEq P] [LinearOrder T] in
theorem quiet_of_covered {shardOrder : Nat} {d : Decimal} {es : List (Event L P T)} :
    ∀ pending : List (Decimal × Window L), Covered shardOrder d es →
      (∀ ref ∈ pending, ref.1.order = shardOrder → ref.1.startsWith d = true →
        SweptLater shardOrder d.order ref es) →
      Quiet shardOrder (es.foldl (pendingAfter shardOrder d.order) pending) d := by
  induction es with
  | nil =>
    intro pending _ hp ref hr ho hs
    obtain ⟨_, _, _, _, _, hin, -⟩ := hp ref hr ho hs
    cases hin
  | cons e es ih =>
    intro pending hc hp
    cases e with
    | write s w p ts =>
      refine ih _ hc.2 fun ref hr ho hs => ?_
      rcases List.mem_cons.mp hr with rfl | hr
      · exact hc.1 ho hs
      · obtain ⟨leaves, partition, fails, work, minOrder, hin, hplan⟩ := hp ref hr ho hs
        rcases List.mem_cons.mp hin with he | hin
        · cases he
        · exact ⟨leaves, partition, fails, work, minOrder, hin, hplan⟩
    | sweep leaves partition fails =>
      refine ih _ hc fun ref hr ho hs => ?_
      obtain ⟨leaves', partition', fails', work, minOrder, hin, hplan, hle, hwork⟩ :=
        hp ref (mem_of_mem_pendingAfter hr) ho hs
      rcases List.mem_cons.mp hin with he | hin
      · cases he
        simp only [pendingAfter, hplan, if_pos hle, List.mem_filter, decide_eq_true_eq] at hr
        exact absurd hwork hr.2
      · exact ⟨leaves', partition', fails', work, minOrder, hin, hplan, hle, hwork⟩

def Product.ideal (pr : Product L P T) (h : Hive L P T) (refs : List (Decimal × Window L)) :
    Nat → Decimal → Option (Generation T × P) :=
  idealFold (pr.fam h fun _ _ => false) pr.shardOrder (Work.windowsOf refs)

omit [DecidableEq P] in
theorem ideal_leaves (pr : Product L P T) {h h' : Hive L P T} (hl : h.leaves = h'.leaves)
    (refs : List (Decimal × Window L)) : pr.ideal h refs = pr.ideal h' refs := by
  rw [Product.ideal, Product.ideal, Product.fam, Product.fam, hl]

/-- The invariant of a clean history; `pending k` is what no pass took up to order `k`. -/
structure Synced (pr : Product L P T) (t : Tracked L P T) (refs : List (Decimal × Window L))
    (pending : Nat → List (Decimal × Window L)) : Prop where
  windows : WindowInv pr t
  present : ∀ d w, (t.hive.leaves d w).isSome = true ↔ (d, w) ∈ refs
  fresh : ∀ d w, d.order = pr.shardOrder → (d, w) ∈ refs →
    (d, w) ∈ t.merged ∨ (d, w) ∈ pending pr.shardOrder
  pendingRefs : ∀ k, ∀ ref ∈ pending k, ref ∈ refs
  coarser : ∀ k k', k ≤ k' → pending k' ⊆ pending k
  named : ∀ d e, pr.rollup t.hive d = some e → e.node = d
  deep : ∀ d, pr.shardOrder < d.order → pr.rollup t.hive d = none
  agree : ∀ k d, d.order + k = pr.shardOrder → Quiet pr.shardOrder (pending d.order) d →
    (pr.rollup t.hive d).map Envelope.view = pr.ideal t.hive refs k d
  tops : ∀ b, b.order = 0 → Quiet pr.shardOrder (pending 0) b →
    (lastTop t.hive.handed b).map Envelope.view = pr.ideal t.hive refs pr.shardOrder b

omit [DecidableEq P] in
theorem idealFold_nil (fam : Family L P T) (shardOrder : Nat) :
    ∀ k d, idealFold fam shardOrder (Work.windowsOf []) k d = none := by
  intro k
  induction k with
  | zero => intro d; rfl
  | succ k ih =>
    intro d
    have hnil : d.children.filterMap (idealFold fam shardOrder (Work.windowsOf []) k) = [] :=
      List.filterMap_eq_nil_iff.mpr fun c _ => ih c
    rw [idealFold, hnil]
    rfl

omit [DecidableEq P] in
theorem synced_empty (pr : Product L P T) : Synced pr ⟨emptyHive, []⟩ [] fun _ => [] where
  windows := windowInv_unswept pr _
  present d w := by simp [emptyHive]
  fresh _ _ _ h := by cases h
  pendingRefs _ _ h := by cases h
  coarser _ _ _ _ h := h
  named _ _ h := by cases h
  deep _ _ := rfl
  agree k d _ _ := (idealFold_nil (pr.fam emptyHive fun _ _ => false) pr.shardOrder k d).symm
  tops b _ _ := (idealFold_nil (pr.fam emptyHive fun _ _ => false) pr.shardOrder _ b).symm

variable {pr : Product L P T} {t : Tracked L P T} {refs : List (Decimal × Window L)}
  {pending : Nat → List (Decimal × Window L)}

/-- A write only changes the ideal rollups above its leaf. -/
theorem ideal_write (h : Hive L P T) (d : Decimal) (w : Window L) (p : P) (ts : Option T) {k : Nat}
    {e : Decimal} (he : e.order + k = pr.shardOrder)
    (hnot : d.order = pr.shardOrder → d.startsWith e ≠ true) :
    pr.ideal (pr.apply h (.write d w p ts)) (refs ++ [(d, w)]) k e = pr.ideal h refs k e := by
  have hmerge : (pr.fam (pr.apply h (.write d w p ts)) fun _ _ => false).merge =
      (pr.fam h fun _ _ => false).merge := rfl
  refine idealFold_congr hmerge k e he fun s hse hso v => ?_
  have hne : s ≠ d := by
    rintro rfl
    exact hnot hso hse
  refine ⟨?_, fun _ => ?_⟩
  · simp only [Product.fam, Product.apply, Function.update_of_ne hne]
  · rw [Work.mem_windowsOf, Work.mem_windowsOf, List.mem_append, List.mem_singleton]
    exact or_iff_left fun heq => hne (Prod.mk.inj heq).1

theorem synced_write (hs : Synced pr t refs pending) (d : Decimal) (w : Window L) (p : P)
    (ts : Option T) {t' : Tracked L P T} (ht : pr.track t (.write d w p ts) = some t') :
    Synced pr t' (refs ++ [(d, w)]) fun k =>
      pendingAfter pr.shardOrder k (pending k) (.write d w p ts : Event L P T) := by
  have hwin := windowInv_step hs.windows
    (show SiblingsRead pr t (.write d w p ts) from trivial) ht
  obtain rfl := Option.some.inj ht
  have hquiet : ∀ {k : Nat} {e : Decimal}, Quiet pr.shardOrder ((d, w) :: pending k) e →
      Quiet pr.shardOrder (pending k) e ∧ (d.order = pr.shardOrder → d.startsWith e ≠ true) :=
    fun h => ⟨fun ref hr => h ref (.tail _ hr), h (d, w) (.head _)⟩
  refine ⟨hwin, fun s v => ?_, fun s v ho hr => ?_, fun k ref hr => ?_, fun k k' hk ref hr => ?_,
    hs.named, hs.deep, fun k e he hq => ?_, fun b hb hq => ?_⟩
  · rw [List.mem_append, List.mem_singleton]
    by_cases hne : (s, v) = (d, w)
    · obtain ⟨rfl, rfl⟩ := Prod.mk.inj hne
      simp [Product.apply]
    · have hread : (pr.apply t.hive (.write d w p ts)).leaves s v = t.hive.leaves s v := by
        simp only [Product.apply]
        by_cases hd : s = d
        · subst hd
          have hv : v ≠ w := fun h => hne (h ▸ rfl)
          simp [hv]
        · simp [hd]
      rw [hread, hs.present]
      exact (or_iff_left hne).symm
  · rcases List.mem_append.mp hr with hr | hr
    · exact (hs.fresh s v ho hr).imp (List.mem_append_left _) (List.mem_cons_of_mem _)
    · exact .inr (List.mem_cons.mpr (.inl (List.mem_singleton.mp hr)))
  · rcases List.mem_cons.mp hr with rfl | hr
    · exact List.mem_append_right _ (.head _)
    · exact List.mem_append_left _ (hs.pendingRefs k ref hr)
  · exact List.cons_subset_cons _ (hs.coarser k k' hk) hr
  · exact (hs.agree k e he (hquiet hq).1).trans (ideal_write _ d w p ts he (hquiet hq).2).symm
  · exact (hs.tops b hb (hquiet hq).1).trans
      (ideal_write _ d w p ts (by omega) (hquiet hq).2).symm

/-- What leaves the pending leaves at order `o` is in the work set of a pass up to `o`. -/
def Clears (shardOrder : Nat) (pending pending' : Nat → List (Decimal × Window L)) (work : Work L)
    (minOrder : Nat) : Prop :=
  ∀ o, ∀ ref ∈ pending o, ref.1.order = shardOrder → ref ∉ pending' o →
    ref ∈ work ∧ minOrder ≤ o

section Pass
variable {pending' : Nat → List (Decimal × Window L)} {work : Work L} {minOrder : Nat}

/-- A pending leaf below an unpending node was dirty, so every node above it was
computed. -/
theorem live_of_cleared (hs : Synced pr t refs pending)
    (ht : (pr.fam t.hive fun _ _ => false).Total)
    (hc : Clears pr.shardOrder pending pending' work minOrder) {k : Nat} {d : Decimal}
    (hk : d.order + k = pr.shardOrder) (hq' : Quiet pr.shardOrder (pending' d.order) d)
    (hq : ¬Quiet pr.shardOrder (pending d.order) d) :
    (settled (pr.fam t.hive fun _ _ => false) work pr.shardOrder (t.hive.stores pr.family) k
      d).2.isSome = true ∧ minOrder ≤ d.order := by
  simp only [Quiet, not_forall, not_not] at hq
  obtain ⟨⟨s, w⟩, hr, ho, hpre⟩ := hq
  obtain ⟨hwork, hmin⟩ := hc _ _ hr ho fun hin => hq' _ hin ho hpre
  obtain ⟨u, rfl⟩ := Decimal.startsWith_iff.mp hpre
  have hu : u.length = k := by
    rw [Decimal.order_extend] at ho
    omega
  have hread := (fam_got pr t.hive fun _ _ => false).mpr
    ⟨rfl, (hs.present _ w).mpr (hs.pendingRefs _ _ hr)⟩
  exact ⟨hu ▸ settled_live ht u d hwork hread, hmin⟩

/-- A node the pass leaves alone was right before, unless leaves below it are pending. -/
theorem view_eq_ideal_of_kept (hs : Synced pr t refs pending)
    (ht : (pr.fam t.hive fun _ _ => false).Total)
    (hc : Clears pr.shardOrder pending pending' work minOrder) {k : Nat} {d : Decimal}
    (hk : d.order + k = pr.shardOrder) (hq' : Quiet pr.shardOrder (pending' d.order) d)
    (hsame : settled (pr.fam t.hive fun _ _ => false) work pr.shardOrder
      (t.hive.stores pr.family) k d = (t.hive.stores pr.family d, none)) :
    settledView (pr.fam t.hive fun _ _ => false) work pr.shardOrder (t.hive.stores pr.family) k d
      = pr.ideal t.hive refs k d := by
  rw [settledView, hsame]
  refine hs.agree k d hk ?_
  by_contra hq
  have hlive := (live_of_cleared hs ht hc hk hq' hq).1
  rw [hsame] at hlive
  cases hlive

omit [DecidableEq P] in
/-- A touched shard with nothing pending folds every window written there. -/
theorem shardFold_touched (hs : Synced pr t refs pending)
    (hc : Clears pr.shardOrder pending pending' work minOrder) {d : Decimal}
    (hd : d.order = pr.shardOrder) (hq' : Quiet pr.shardOrder (pending' d.order) d) :
    let fam := pr.fam t.hive fun _ _ => false
    shardFold fam d (work.windowsOf d ++ recordedAt fam (t.hive.stores pr.family) d) pr.shardOrder =
      shardFold fam d (Work.windowsOf refs d) pr.shardOrder := by
  intro fam
  refine shardFold_congr rfl (fun _ => rfl) fun w hr => ?_
  have href : (d, w) ∈ refs := (hs.present d w).mp ((fam_got _ _ _).mp hr).2
  refine ⟨fun _ => Work.mem_windowsOf.mpr href, fun _ => ?_⟩
  rw [List.mem_append, Work.mem_windowsOf]
  rcases hs.fresh d w hd href with hm | hp
  · obtain ⟨e, he, hw⟩ := hs.windows.kept d w hm
    have he' : readRollup fam.name (t.hive.stores pr.family d) = some e := he
    exact .inr (by rw [recordedAt, he']; exact hw)
  · rw [← hd] at hp
    exact .inl (hc _ _ hp hd fun hin => hq' _ hin hd d.startsWith_refl).1

/-- Wherever nothing stays pending, the pass leaves the ideal rollup. -/
theorem settledView_eq_ideal (hs : Synced pr t refs pending)
    (ht : (pr.fam t.hive fun _ _ => false).Total)
    (hc : Clears pr.shardOrder pending pending' work minOrder)
    (hcoarser : ∀ k k', k ≤ k' → pending' k' ⊆ pending' k) :
    ∀ k d, d.order + k = pr.shardOrder → Quiet pr.shardOrder (pending' d.order) d →
      settledView (pr.fam t.hive fun _ _ => false) work pr.shardOrder (t.hive.stores pr.family) k d
        = pr.ideal t.hive refs k d := by
  set fam := pr.fam t.hive fun _ _ => false with hfam
  set store := t.hive.stores pr.family with hstore
  intro k
  induction k with
  | zero =>
    intro d hk hq'
    by_cases hd : d ∈ work.shards
    · have h := settled_shard fam pr.shardOrder store hd
      rw [shardFold_touched hs hc hk hq'] at h
      cases hv : shardFold fam d (Work.windowsOf refs d) pr.shardOrder with
      | none =>
        rw [hv] at h
        exact view_eq_ideal_of_kept hs ht hc hk hq' h
      | some v =>
        rw [hv] at h
        exact h.view_eq.1.trans hv.symm
    · exact view_eq_ideal_of_kept hs ht hc hk hq' (by rw [settled, if_neg hd])
  | succ k ih =>
    intro d hk hq'
    by_cases hv : Visited fam work pr.shardOrder store k d
    · have hviews : d.children.filterMap (settledView fam work pr.shardOrder store k) =
          d.children.filterMap (pr.ideal t.hive refs k) := by
        refine List.filterMap_congr fun c hcin => ?_
        obtain ⟨g, rfl⟩ := Decimal.mem_children.mp hcin
        refine ih _ (by rw [Decimal.order_child]; omega) fun ref hr ho hpre => ?_
        refine hq' ref (hcoarser _ _ (by rw [Decimal.order_child]; omega) hr) ho ?_
        exact Decimal.startsWith_trans hpre (Decimal.startsWith_of_mem_children hcin)
      have h := settled_interior hv
      rw [hviews] at h
      cases hfold : interiorFold fam.merge d (d.children.filterMap (pr.ideal t.hive refs k)) with
      | none =>
        rw [hfold] at h
        exact view_eq_ideal_of_kept hs ht hc hk hq' h
      | some v =>
        rw [hfold] at h
        exact h.view_eq.1.trans hfold.symm
    · exact view_eq_ideal_of_kept hs ht hc hk hq' (settled_unvisited hv)

end Pass

/-- A computed envelope names the node it was computed for. -/
theorem settled_named (fam : Family L P T) (work : Work L) (shardOrder : Nat)
    {store : RollupStore L P T} (hn : ∀ d e, readRollup fam.name (store d) = some e → e.node = d) :
    ∀ k d, (∀ e, (settled fam work shardOrder store k d).2 = some e → e.node = d) ∧
      ∀ e, readRollup fam.name (settled fam work shardOrder store k d).1 = some e → e.node = d := by
  have hholds : ∀ {k : Nat} {d : Decimal} {v : Option (Generation T × P)},
      Holds fam d (store d) (settled fam work shardOrder store k d) v →
      (∀ e, (settled fam work shardOrder store k d).2 = some e → e.node = d) ∧
      ∀ e, readRollup fam.name (settled fam work shardOrder store k d).1 = some e → e.node = d := by
    intro k d v h
    cases v with
    | none =>
      rw [show settled fam work shardOrder store k d = (store d, none) from h]
      exact ⟨fun _ he => (nomatch he), hn d⟩
    | some v =>
      obtain ⟨e, -, h2, h1, hnode⟩ := h
      rw [h2, h1]
      exact ⟨fun e' he => Option.some.inj he ▸ hnode (hn d),
        fun e' he => Option.some.inj he ▸ hnode (hn d)⟩
  intro k d
  cases k with
  | zero =>
    by_cases hd : d ∈ work.shards
    · exact hholds (settled_shard _ shardOrder store hd)
    · rw [settled, if_neg hd]
      exact ⟨fun _ he => (nomatch he), hn d⟩
  | succ k =>
    by_cases hv : Visited fam work shardOrder store k d
    · exact hholds (settled_interior hv)
    · rw [settled_unvisited hv]
      exact ⟨fun _ he => (nomatch he), hn d⟩

omit [DecidableEq P] [LinearOrder L] [LinearOrder T] in
/-- Of the tops handed over together, the one for base `b` is the one computed there. -/
theorem filter_tops {bases : List Decimal} {C : Decimal → Option (Envelope L P T)}
    (hnd : bases.Nodup) (hn : ∀ d e, C d = some e → e.node = d) (b : Decimal) :
    (bases.filterMap C).filter (fun e => e.node = b) =
      if b ∈ bases then (C b).toList else [] := by
  induction bases with
  | nil => rfl
  | cons d bases ih =>
    obtain ⟨hd, hnd⟩ := List.nodup_cons.mp hnd
    have ih := ih hnd
    rw [List.filterMap_cons]
    by_cases hb : d = b
    · subst hb
      rw [if_neg hd] at ih
      rw [if_pos List.mem_cons_self]
      cases hc : C d with
      | none => exact ih
      | some e => rw [List.filter_cons_of_pos (by simpa using hn d e hc), ih]; rfl
    · have hmem : b ∈ d :: bases ↔ b ∈ bases := by
        rw [List.mem_cons]
        exact or_iff_right (Ne.symm hb)
      simp only [hmem]
      cases hc : C d with
      | none => exact ih
      | some e =>
        have hne : ¬(e.node = b) := fun h => hb ((hn d e hc).symm.trans h)
        rw [List.filter_cons_of_neg (by simpa using hne)]
        exact ih

omit [DecidableEq P] [LinearOrder L] [LinearOrder T] in
theorem lastTop_append (handed tops : List (Envelope L P T)) (b : Decimal) :
    lastTop (handed ++ tops) b = (lastTop tops b).or (lastTop handed b) := by
  simp only [lastTop, List.filter_append, List.getLast?_append]

section Planned
variable {h : Hive L P T} {leaves : List (Decimal × Window L)} {partition : Option PartitionBlock}
  {fails : Decimal → Window L → Bool} {work : Work L} {minOrder : Nat}

/-- What stands after a pass: the settled objects as far up as it walks. -/
theorem rollup_sweep (hplan : passPlan pr.shardOrder leaves partition = some (work, minOrder))
    (d : Decimal) :
    pr.rollup (pr.sweep h leaves partition fails) d =
      if minOrder ≤ d.order then
        readRollup pr.family
          (settledAt (pr.fam h fails) work pr.shardOrder (h.stores pr.family) d).1
      else pr.rollup h d := by
  rcases sweep_cases pr h leaves partition fails with ⟨hn, -⟩ | ⟨_, _, hp, hw, hmin, hafter⟩
  · rw [hn] at hplan
    cases hplan
  · rw [hp] at hplan
    obtain ⟨rfl, rfl⟩ := Prod.mk.inj (Option.some.inj hplan.symm)
    rw [Product.rollup, hafter]
    simp only [Function.update_self]
    rw [sweepFamily_store hw hmin]
    split <;> rfl

/-- The tops a pass hands over: those computed at the base cells, if it walks that far. -/
theorem handed_sweep (hplan : passPlan pr.shardOrder leaves partition = some (work, minOrder)) :
    ∃ bases : List Decimal, bases.Nodup ∧
      (∀ b ∈ bases, b.order = 0) ∧
      (∀ b, b.order = 0 → minOrder = 0 →
        (settled (pr.fam h fails) work pr.shardOrder (h.stores pr.family) pr.shardOrder b).2.isSome →
        b ∈ bases) ∧
      (minOrder ≠ 0 → bases = []) ∧
      (pr.sweep h leaves partition fails).handed = h.handed ++ bases.filterMap fun b =>
        (settled (pr.fam h fails) work pr.shardOrder (h.stores pr.family) pr.shardOrder b).2 := by
  rcases sweep_cases pr h leaves partition fails with ⟨hn, -⟩ | ⟨_, _, hp, hw, -, hafter⟩
  · rw [hn] at hplan
    cases hplan
  · rw [hp] at hplan
    obtain ⟨rfl, rfl⟩ := Prod.mk.inj (Option.some.inj hplan.symm)
    rw [hafter]
    set fam := pr.fam h fails
    set store := h.stores pr.family
    by_cases hmin0 : minOrder = 0
    · subst hmin0
      obtain ⟨bases, hnd, hmem, hfin⟩ := sweepFamily_tops fam hw store
      have hat : ∀ b : Decimal, b.order = 0 → settledAt fam work pr.shardOrder store b =
          settled fam work pr.shardOrder store pr.shardOrder b := by
        intro b hb
        rw [settledAt, if_pos (by omega), hb, Nat.sub_zero]
      refine ⟨bases, hnd, fun b hb => ((hmem b).mp hb).1, fun b hb _ hsome => ?_,
        fun hne => absurd rfl hne, ?_⟩
      · rw [← hat b hb] at hsome
        exact (hmem b).mpr ⟨hb, hsome⟩
      · rw [FamilyResult.tops, hfin]
        refine congrArg (h.handed ++ ·) (List.filterMap_congr fun b hb => ?_)
        rw [hat b ((hmem b).mp hb).1]
    · refine ⟨[], List.nodup_nil, List.forall_mem_nil _, fun b _ h0 => absurd h0 hmin0,
        fun _ => rfl, ?_⟩
      simp only [FamilyResult.tops, sweepFamily, if_neg hmin0, List.filterMap_nil]

/-- The top last handed over, after a pass that walks up to it or not. -/
theorem lastTop_sweep (hplan : passPlan pr.shardOrder leaves partition = some (work, minOrder))
    (hn : ∀ d e, pr.rollup h d = some e → e.node = d) {b : Decimal} (hb : b.order = 0) :
    lastTop (pr.sweep h leaves partition fails).handed b =
      if minOrder = 0 then
        (settled (pr.fam h fails) work pr.shardOrder (h.stores pr.family) pr.shardOrder b).2.or
          (lastTop h.handed b)
      else lastTop h.handed b := by
  obtain ⟨bases, hnd, -, hmem, hnil, hhanded⟩ := handed_sweep (h := h) hplan
  have hnames := fun d => (settled_named (pr.fam h fails) work pr.shardOrder hn pr.shardOrder d).1
  rw [hhanded, lastTop_append]
  by_cases hmin0 : minOrder = 0
  · rw [if_pos hmin0, lastTop, filter_tops hnd hnames]
    cases hc : (settled (pr.fam h fails) work pr.shardOrder (h.stores pr.family) pr.shardOrder b).2 with
    | none => split <;> rfl
    | some e => rw [if_pos (hmem b hb hmin0 (by rw [hc]; rfl))]; rfl
  · rw [if_neg hmin0, hnil hmin0]
    rfl

omit [DecidableEq P] [LinearOrder T] in
/-- A pass merges every standing leaf of its work set. -/
theorem mem_mergedBy (hm : ∀ ps d o, ps ≠ [] → (pr.merge ps d o).isSome = true)
    (hplan : passPlan pr.shardOrder leaves partition = some (work, minOrder)) {d : Decimal}
    {w : Window L} (hwork : (d, w) ∈ work) (hl : (h.leaves d w).isSome = true) :
    (d, w) ∈ pr.mergedBy h (.sweep leaves partition fun _ _ => false) := by
  have hpart : w ∈ (passParts (pr.fam h fun _ _ => false) work (h.stores pr.family) d).map (·.1) := by
    refine mem_windows_leafParts.mpr ⟨?_, (fam_got _ _ _).mpr ⟨rfl, hl⟩⟩
    rw [knownWindows, mem_sortedWindows]
    exact List.mem_append_left _ (Work.mem_windowsOf.mpr hwork)
  obtain ⟨part, hpt, -⟩ := List.mem_map.mp hpart
  simp only [Product.mergedBy, hplan]
  exact mem_passMerged.mpr ⟨Work.mem_shards.mpr ⟨w, hwork⟩,
    hm _ d _ (mt List.map_eq_nil_iff.mp (List.ne_nil_of_mem hpt)), hpart⟩

omit [DecidableEq P] [LinearOrder T] in
variable (pending fails) in
theorem clears_pendingAfter
    (hplan : passPlan pr.shardOrder leaves partition = some (work, minOrder)) :
    Clears pr.shardOrder pending
      (fun k => pendingAfter pr.shardOrder k (pending k)
        (.sweep leaves partition fails : Event L P T)) work minOrder := by
  intro o ref hr _ hnot
  obtain ⟨_, _, hp, hmin, hwork⟩ := taken_by_pass hr hnot
  rw [hplan] at hp
  obtain ⟨rfl, rfl⟩ := Prod.mk.inj (Option.some.inj hp)
  exact ⟨hwork, hmin⟩

omit [DecidableEq P] [LinearOrder T] in
variable (leaves partition fails) in
theorem pendingAfter_coarser (shardOrder : Nat)
    (hc : ∀ k k', k ≤ k' → pending k' ⊆ pending k) (k k' : Nat) (hk : k ≤ k') :
    pendingAfter shardOrder k' (pending k') (.sweep leaves partition fails : Event L P T) ⊆
      pendingAfter shardOrder k (pending k) (.sweep leaves partition fails : Event L P T) := by
  intro ref hr
  by_contra hnot
  obtain ⟨work, minOrder, hplan, hle, hwork⟩ :=
    taken_by_pass (hc k k' hk (mem_of_mem_pendingAfter hr)) hnot
  rw [pendingAfter, hplan] at hr
  simp only [if_pos (hle.trans hk), List.mem_filter, decide_eq_true_eq] at hr
  exact hr.2 hwork

end Planned

section Sweep
variable {leaves : List (Decimal × Window L)} {partition : Option PartitionBlock}
  {work : Work L} {minOrder : Nat} {pending' : Nat → List (Decimal × Window L)}

theorem agree_sweep (hs : Synced pr t refs pending) (ht : (pr.fam t.hive fun _ _ => false).Total)
    (hplan : passPlan pr.shardOrder leaves partition = some (work, minOrder))
    (hc : Clears pr.shardOrder pending pending' work minOrder)
    (hcoarser : ∀ k k', k ≤ k' → pending' k' ⊆ pending' k) {k : Nat} {d : Decimal}
    (hk : d.order + k = pr.shardOrder) (hq : Quiet pr.shardOrder (pending' d.order) d) :
    (pr.rollup (pr.sweep t.hive leaves partition fun _ _ => false) d).map Envelope.view =
      pr.ideal t.hive refs k d := by
  rw [rollup_sweep hplan]
  split
  · rw [settledAt, if_pos (by omega), show pr.shardOrder - d.order = k by omega]
    exact settledView_eq_ideal hs ht hc hcoarser k d hk hq
  · next hlt =>
    refine hs.agree k d hk ?_
    by_contra hnq
    exact hlt (live_of_cleared hs ht hc hk hq hnq).2

theorem tops_sweep (hs : Synced pr t refs pending) (ht : (pr.fam t.hive fun _ _ => false).Total)
    (hplan : passPlan pr.shardOrder leaves partition = some (work, minOrder))
    (hc : Clears pr.shardOrder pending pending' work minOrder)
    (hcoarser : ∀ k k', k ≤ k' → pending' k' ⊆ pending' k) {b : Decimal} (hb : b.order = 0)
    (hq : Quiet pr.shardOrder (pending' 0) b) :
    (lastTop (pr.sweep t.hive leaves partition fun _ _ => false).handed b).map Envelope.view =
      pr.ideal t.hive refs pr.shardOrder b := by
  have hq' : Quiet pr.shardOrder (pending' b.order) b := by rwa [hb]
  have hk : b.order + pr.shardOrder = pr.shardOrder := by omega
  -- without a top of this pass nothing below was pending before it either
  have hold : (settled (pr.fam t.hive fun _ _ => false) work pr.shardOrder
      (t.hive.stores pr.family) pr.shardOrder b).2 = none ∨ minOrder ≠ 0 →
      (lastTop t.hive.handed b).map Envelope.view = pr.ideal t.hive refs pr.shardOrder b := by
    intro hor
    refine hs.tops b hb ?_
    by_contra hnq
    obtain ⟨hlive, hmin⟩ := live_of_cleared hs ht hc hk hq' (by rwa [hb])
    rcases hor with hnone | hne
    · rw [hnone] at hlive
      cases hlive
    · exact hne (by omega)
  rw [lastTop_sweep hplan hs.named hb]
  by_cases hmin0 : minOrder = 0
  · rw [if_pos hmin0]
    have hview := settledView_eq_ideal hs ht hc hcoarser pr.shardOrder b hk hq'
    cases hsome : (settled (pr.fam t.hive fun _ _ => false) work pr.shardOrder
        (t.hive.stores pr.family) pr.shardOrder b).2 with
    | none => exact hold (.inl hsome)
    | some e =>
      rw [settledView, settled_stored _ _ _ _ e hsome] at hview
      exact hview
  · rw [if_neg hmin0]
    exact hold (.inr hmin0)

/-- A failure-free pass keeps the invariant, with what it took off the pending leaves. -/
theorem synced_sweep (hs : Synced pr t refs pending)
    (hm : ∀ ps d o, ps ≠ [] → (pr.merge ps d o).isSome = true)
    (leaves : List (Decimal × Window L)) (partition : Option PartitionBlock) {t' : Tracked L P T}
    (ht : pr.track t (.sweep leaves partition fun _ _ => false) = some t') :
    Synced pr t' refs fun k => pendingAfter pr.shardOrder k (pending k)
      (.sweep leaves partition fun _ _ => false : Event L P T) := by
  have hwin := windowInv_step hs.windows
    (show SiblingsRead pr t (.sweep leaves partition fun _ _ => false) from
      fun _ _ _ _ _ _ _ => .inl fun _ _ => rfl) ht
  obtain rfl := Option.some.inj ht
  cases hplan : passPlan pr.shardOrder leaves partition with
  | none =>
    have hsame : pr.apply t.hive (.sweep leaves partition fun _ _ => false) = t.hive :=
      sweep_refused hplan
    have hpending : (fun k => pendingAfter pr.shardOrder k (pending k)
        (.sweep leaves partition fun _ _ => false : Event L P T)) = pending := by
      funext k
      rw [pendingAfter, hplan]
    have hmerged : pr.mergedBy t.hive (.sweep leaves partition fun _ _ => false) = [] := by
      simp only [Product.mergedBy, hplan]
    rw [hpending, hsame, hmerged, List.append_nil]
    exact hs
  | some plan =>
    obtain ⟨work, minOrder⟩ := plan
    have hc := clears_pendingAfter pending (fun _ _ => false) hplan
    have hcoarser := pendingAfter_coarser (P := P) (T := T) leaves partition (fun _ _ => false)
      pr.shardOrder hs.coarser
    have hideal : pr.ideal (pr.sweep t.hive leaves partition fun _ _ => false) refs =
        pr.ideal t.hive refs := ideal_leaves pr sweep_leaves refs
    have hnamed := settled_named (pr.fam t.hive fun _ _ => false) work pr.shardOrder hs.named
    refine ⟨hwin, fun d w => ?_, fun d w ho href => ?_, fun k ref hr => ?_, hcoarser,
      fun d e he => ?_, fun d hd => ?_, fun k d hk hq => ?_, fun b hb hq => ?_⟩
    · change ((pr.sweep t.hive leaves partition fun _ _ => false).leaves d w).isSome = true ↔ _
      rw [sweep_leaves, hs.present]
    · by_cases hp' : (d, w) ∈ pendingAfter pr.shardOrder pr.shardOrder (pending pr.shardOrder)
          (.sweep leaves partition fun _ _ => false : Event L P T)
      · exact .inr hp'
      · refine .inl (List.mem_append.mpr ((hs.fresh d w ho href).imp_right fun hp => ?_))
        exact mem_mergedBy hm hplan (hc _ _ hp ho hp').1 ((hs.present d w).mpr href)
    · exact hs.pendingRefs k ref (mem_of_mem_pendingAfter hr)
    · change pr.rollup (pr.sweep t.hive leaves partition fun _ _ => false) d = some e at he
      rw [rollup_sweep hplan, settledAt] at he
      split at he
      · split at he
        · exact (hnamed _ d).2 e he
        · exact hs.named d e he
      · exact hs.named d e he
    · have hmin := (passPlan_atOrder hplan).2
      change pr.rollup (pr.sweep t.hive leaves partition fun _ _ => false) d = none
      rw [rollup_sweep hplan, if_pos (by omega), settledAt, if_neg (by omega)]
      exact hs.deep d hd
    · exact (agree_sweep hs hm hplan hc hcoarser hk hq).trans (congrFun₂ hideal k d).symm
    · exact (tops_sweep hs hm hplan hc hcoarser hb hq).trans (congrFun₂ hideal _ b).symm

end Sweep

omit [DecidableEq P] in
/-- Nothing written below a node: its ideal rollup is empty. -/
theorem ideal_of_quiet (pr : Product L P T) (h : Hive L P T) {refs : List (Decimal × Window L)}
    {k : Nat} {d : Decimal} (hk : d.order + k = pr.shardOrder)
    (hq : Quiet pr.shardOrder refs d) : pr.ideal h refs k d = none := by
  refine Eq.trans ?_ (idealFold_nil (pr.fam h fun _ _ => false) pr.shardOrder k d)
  refine idealFold_congr rfl k d hk fun s hs ho w => ⟨rfl, fun _ => ?_⟩
  rw [Work.mem_windowsOf, Work.mem_windowsOf]
  exact ⟨fun hin => absurd hs (hq _ hin ho), fun hin => by cases hin⟩

omit [DecidableEq P] in
/-- A store without rollups, all of whose leaves are pending. -/
theorem synced_scratch (hs : Synced pr t refs pending) :
    Synced pr ⟨⟨t.hive.leaves, fun _ _ => none, []⟩, []⟩ refs fun _ => refs where
  windows := windowInv_unswept pr _
  present := hs.present
  fresh _ _ _ h := .inr h
  pendingRefs _ _ h := h
  coarser _ _ _ _ h := h
  named _ _ h := by cases h
  deep _ _ := rfl
  agree k d hk hq := (ideal_of_quiet pr _ hk hq).symm
  tops b hb hq := (ideal_of_quiet pr _ (by omega) hq).symm

theorem synced_replay (hm : ∀ ps d o, ps ≠ [] → (pr.merge ps d o).isSome = true)
    {es : List (Event L P T)} (hclean : ∀ e ∈ es, e.Clean) :
    ∀ {t : Tracked L P T} {refs : List (Decimal × Window L)}
      {pending : Nat → List (Decimal × Window L)}, Synced pr t refs pending →
      ∃ t', t'.hive = pr.replay t.hive es ∧ Synced pr t' (refs ++ written es)
        fun k => es.foldl (pendingAfter pr.shardOrder k) (pending k) := by
  induction es with
  | nil =>
    intro t refs pending hs
    exact ⟨t, rfl, by simpa [written] using hs⟩
  | cons e es ih =>
    intro t refs pending hs
    have hstep : Synced pr ⟨pr.apply t.hive e, t.merged ++ pr.mergedBy t.hive e⟩
        (refs ++ writtenBy e) fun k => pendingAfter pr.shardOrder k (pending k) e := by
      cases e with
      | write d w p ts => exact synced_write hs d w p ts rfl
      | sweep leaves partition fails =>
        obtain rfl : fails = fun _ _ => false := funext₂ (hclean _ (.head _))
        simpa [writtenBy] using synced_sweep hs hm leaves partition rfl
    obtain ⟨t', hh, hs'⟩ := ih (fun e he => hclean e (.tail _ he)) hstep
    refine ⟨t', hh, ?_⟩
    rw [written, List.flatMap_cons, ← List.append_assoc]
    exact hs'

end Histories

section Words
variable {W : Type} (words : P → Set W) {pr : Product L P T}

/-- The fold's words are the union of its parts' words. -/
def UnionOfWords (merge : List P → Decimal → Nat → Option P) : Prop :=
  ∀ ps d o p, merge ps d o = some p → ∀ x, x ∈ words p ↔ ∃ q ∈ ps, x ∈ words q

/-- No rewrite of a leaf drops a word of it. -/
def Growing (pr : Product L P T) (h : Hive L P T) : List (Event L P T) → Prop
  | [] => True
  | e :: es =>
    (match e with
      | .write d w p _ => ∀ p₀ ts₀, h.leaves d w = some (p₀, ts₀) → words p₀ ⊆ words p
      | .sweep _ _ _ => True) ∧ Growing pr (pr.apply h e) es

/-- The union of the tops handed to `finish`. -/
def topsUnion (handed : List (Envelope L P T)) : Set W := {x | ∃ e ∈ handed, x ∈ words e.payload}

def leafWords (shardOrder : Nat) (h : Hive L P T) : Set W :=
  {x | ∃ d w p ts, d.order = shardOrder ∧ h.leaves d w = some (p, ts) ∧ x ∈ words p}

/-- Rollups and tops carry words of standing leaves only. -/
structure Grounded (pr : Product L P T) (h : Hive L P T) : Prop where
  rollups : ∀ d e, pr.rollup h d = some e → words e.payload ⊆ leafWords words pr.shardOrder h
  tops : ∀ e ∈ h.handed, words e.payload ⊆ leafWords words pr.shardOrder h

variable {words}

omit [DecidableEq P] in
theorem shardFold_words {fam : Family L P T} (hu : UnionOfWords words fam.merge) {d : Decimal}
    {ws : List (Window L)} {shardOrder : Nat} {v : Generation T × P}
    (hv : shardFold fam d ws shardOrder = some v) (x : W) :
    x ∈ words v.2 ↔ ∃ w ∈ ws, ∃ p ts, fam.readLeaf d w = .got p ts ∧ x ∈ words p := by
  simp only [shardFold] at hv
  split at hv
  · cases hv
  · obtain ⟨payload, hp, rfl⟩ := Option.map_eq_some_iff.mp hv
    rw [hu _ _ _ _ hp]
    simp only [leafParts, List.mem_map, List.mem_filterMap, mem_sortedWindows]
    constructor
    · rintro ⟨q, ⟨part, ⟨w, hw, hr⟩, rfl⟩, hx⟩
      split at hr
      · next p ts hread =>
        obtain rfl := Option.some.inj hr
        exact ⟨w, hw, p, ts, hread, hx⟩
      · cases hr
    · rintro ⟨w, hw, p, ts, hread, hx⟩
      exact ⟨p, ⟨(w, p, ts), ⟨w, hw, by rw [hread]⟩, rfl⟩, hx⟩

omit [DecidableEq P] [LinearOrder L] in
theorem interiorFold_words {fam : Family L P T} (hu : UnionOfWords words fam.merge) {d : Decimal}
    {views : List (Generation T × P)} {v : Generation T × P}
    (hv : interiorFold fam.merge d views = some v) (x : W) :
    x ∈ words v.2 ↔ ∃ u ∈ views, x ∈ words u.2 := by
  rw [interiorFold] at hv
  split at hv
  · cases hv
  · obtain ⟨payload, hp, rfl⟩ := Option.map_eq_some_iff.mp hv
    rw [hu _ _ _ _ hp]
    exact ⟨fun ⟨q, hq, hx⟩ => by obtain ⟨u, hu', rfl⟩ := List.mem_map.mp hq; exact ⟨u, hu', hx⟩,
      fun ⟨u, hu', hx⟩ => ⟨u.2, List.mem_map_of_mem hu', hx⟩⟩

/-- A pass folds words of readable leaves and of rollups already standing. -/
theorem settled_words {fam : Family L P T} (hu : UnionOfWords words fam.merge) (work : Work L)
    (shardOrder : Nat) {store : RollupStore L P T} {U : Set W}
    (hstore : ∀ d e, readRollup fam.name (store d) = some e → words e.payload ⊆ U)
    (hleaf : ∀ (d : Decimal) w p ts, d.order = shardOrder → fam.readLeaf d w = .got p ts →
      words p ⊆ U) :
    ∀ k d, d.order + k = shardOrder → ∀ e,
      readRollup fam.name (settled fam work shardOrder store k d).1 = some e →
      words e.payload ⊆ U := by
  have hholds : ∀ {k : Nat} {d : Decimal} {v : Option (Generation T × P)},
      Holds fam d (store d) (settled fam work shardOrder store k d) v →
      (∀ u, v = some u → words u.2 ⊆ U) →
      ∀ e, readRollup fam.name (settled fam work shardOrder store k d).1 = some e →
        words e.payload ⊆ U := by
    intro k d v h hv e he
    cases v with
    | none =>
      rw [show settled fam work shardOrder store k d = (store d, none) from h] at he
      exact hstore d e he
    | some u =>
      obtain ⟨e', hview, -, h1, -⟩ := h
      rw [he] at h1
      obtain rfl := Option.some.inj h1
      rw [show e.payload = u.2 from congrArg Prod.snd hview]
      exact hv u rfl
  intro k
  induction k with
  | zero =>
    intro d hd
    by_cases hds : d ∈ work.shards
    · refine hholds (settled_shard _ shardOrder store hds) fun u hfold x hx => ?_
      obtain ⟨w, -, p, ts, hr, hxp⟩ := (shardFold_words hu hfold x).mp hx
      exact hleaf d w p ts hd hr hxp
    · intro e he
      rw [settled, if_neg hds] at he
      exact hstore d e he
  | succ k ih =>
    intro d hd
    by_cases hv : Visited fam work shardOrder store k d
    · refine hholds (settled_interior hv) fun u hfold x hx => ?_
      obtain ⟨u', hu', hxu⟩ := (interiorFold_words hu hfold x).mp hx
      obtain ⟨c, hc, hview⟩ := List.mem_filterMap.mp hu'
      obtain ⟨e, he, rfl⟩ := Option.map_eq_some_iff.mp hview
      obtain ⟨g, rfl⟩ := Decimal.mem_children.mp hc
      exact ih _ (by rw [Decimal.order_child]; omega) e he hxu
    · intro e he
      rw [settled_unvisited hv] at he
      exact hstore d e he

omit [DecidableEq P] [LinearOrder L] [LinearOrder T] in
theorem fam_readLeaf_got (pr : Product L P T) {h : Hive L P T} {fails : Decimal → Window L → Bool}
    {d : Decimal} {w : Window L} {p : P} {ts : Option T} :
    (pr.fam h fails).readLeaf d w = .got p ts ↔ fails d w = false ∧ h.leaves d w = some (p, ts) := by
  simp only [Product.fam]
  cases fails d w with
  | true => simp
  | false =>
    simp only [Bool.false_eq_true, if_false, true_and]
    split
    · next p' ts' hl => simp [hl]
    · next hl => simp [hl]

theorem grounded_sweep (hu : UnionOfWords words pr.merge) {h : Hive L P T}
    (hg : Grounded words pr h) (leaves : List (Decimal × Window L))
    (partition : Option PartitionBlock) (fails : Decimal → Window L → Bool) :
    Grounded words pr (pr.sweep h leaves partition fails) := by
  cases hplan : passPlan pr.shardOrder leaves partition with
  | none => rwa [sweep_refused hplan]
  | some plan =>
    obtain ⟨work, minOrder⟩ := plan
    have hsettled := settled_words (show UnionOfWords words (pr.fam h fails).merge from hu)
      work pr.shardOrder (U := leafWords words pr.shardOrder h) hg.rollups
      fun d w p ts ho hr x hx => ⟨d, w, p, ts, ho, ((fam_readLeaf_got pr).mp hr).2, hx⟩
    have hwords : leafWords words pr.shardOrder (pr.sweep h leaves partition fails) =
        leafWords words pr.shardOrder h := by
      rw [leafWords, sweep_leaves, leafWords]
    refine ⟨fun d e he => ?_, fun e he => ?_⟩
    · rw [rollup_sweep hplan, settledAt] at he
      rw [hwords]
      split at he
      · split at he
        · exact hsettled _ d (by omega) e he
        · exact hg.rollups d e he
      · exact hg.rollups d e he
    · obtain ⟨bases, -, hbase, -, -, hhanded⟩ := handed_sweep (h := h) hplan
      rw [hwords]
      rw [hhanded] at he
      rcases List.mem_append.mp he with he | he
      · exact hg.tops e he
      · obtain ⟨b, hb, hbe⟩ := List.mem_filterMap.mp he
        have hb0 := hbase b hb
        exact hsettled _ b (by omega) e (settled_stored _ _ _ b e hbe)

theorem grounded_write {h : Hive L P T} (hg : Grounded words pr h) {d : Decimal} {w : Window L}
    {p : P} (ts : Option T)
    (hgrow : ∀ p₀ ts₀, h.leaves d w = some (p₀, ts₀) → words p₀ ⊆ words p) :
    Grounded words pr (pr.apply h (.write d w p ts)) := by
  have hmono : leafWords words pr.shardOrder h ⊆
      leafWords words pr.shardOrder (pr.apply h (.write d w p ts)) := by
    rintro x ⟨s, v, q, us, ho, hl, hx⟩
    by_cases hs : s = d
    · subst hs
      by_cases hv : v = w
      · subst hv
        exact ⟨s, v, p, ts, ho, by simp [Product.apply], hgrow q us hl hx⟩
      · exact ⟨s, v, q, us, ho, by simpa [Product.apply, hv] using hl, hx⟩
    · exact ⟨s, v, q, us, ho, by simpa [Product.apply, hs] using hl, hx⟩
  exact ⟨fun d e he => (hg.rollups d e he).trans hmono, fun e he => (hg.tops e he).trans hmono⟩

/-- Also where reads fail. -/
theorem grounded_replay (hu : UnionOfWords words pr.merge) {es : List (Event L P T)} :
    ∀ {h : Hive L P T}, Growing words pr h es → Grounded words pr h →
      Grounded words pr (pr.replay h es) := by
  induction es with
  | nil => exact fun _ hg => hg
  | cons e es ih =>
    intro h hgrow hg
    refine ih hgrow.2 ?_
    cases e with
    | write d w p ts => exact grounded_write hg ts hgrow.1
    | sweep leaves partition fails => exact grounded_sweep hu hg leaves partition fails

omit [DecidableEq P] in
/-- Every word of a leaf is a word of the ideal rollup of each node above it. -/
theorem ideal_words (hm : ∀ ps d o, ps ≠ [] → (pr.merge ps d o).isSome = true)
    (hu : UnionOfWords words pr.merge) {h : Hive L P T} (refs : List (Decimal × Window L))
    {w : Window L} {p : P} {ts : Option T} {x : W} (hx : x ∈ words p) :
    ∀ t d, (d.extend t, w) ∈ refs → h.leaves (d.extend t) w = some (p, ts) →
      ∃ v, pr.ideal h refs t.length d = some v ∧ x ∈ words v.2 := by
  intro t
  induction t with
  | nil =>
    intro d hr hl
    rw [show d.extend [] = d by simp [Decimal.extend]] at hr hl
    have hread : (pr.fam h fun _ _ => false).readLeaf d w = .got p ts :=
      (fam_readLeaf_got pr).mpr ⟨rfl, hl⟩
    have hin := Work.mem_windowsOf.mpr hr
    obtain ⟨v, hv⟩ := shardFold_isSome (show (pr.fam h fun _ _ => false).Total from hm)
      pr.shardOrder hin ⟨p, ts, hread⟩
    exact ⟨v, hv, (shardFold_words hu hv x).mpr ⟨w, hin, p, ts, hread, hx⟩⟩
  | cons g t ih =>
    intro d hr hl
    have hgd : d.extend (g :: t) = (d.child g).extend t := by
      rw [Decimal.child_eq_extend, Decimal.extend_extend]
      rfl
    rw [hgd] at hr hl
    obtain ⟨u, hu', hxu⟩ := ih _ hr hl
    have hin : u ∈ d.children.filterMap (pr.ideal h refs t.length) :=
      List.mem_filterMap.mpr ⟨_, Decimal.mem_children.mpr ⟨g, rfl⟩, hu'⟩
    obtain ⟨v, hv⟩ := interiorFold_isSome (show (pr.fam h fun _ _ => false).Total from hm)
      (d := d) (List.ne_nil_of_mem hin)
    exact ⟨v, hv, (interiorFold_words hu hv x).mpr ⟨u, hin, hxu⟩⟩

omit [DecidableEq P] in
theorem topsUnion_eq (hm : ∀ ps d o, ps ≠ [] → (pr.merge ps d o).isSome = true)
    (hu : UnionOfWords words pr.merge) {t : Tracked L P T} {refs : List (Decimal × Window L)}
    {pending : Nat → List (Decimal × Window L)} (hs : Synced pr t refs pending)
    (hq : ∀ b, Quiet pr.shardOrder (pending 0) (.ofBase b)) (hg : Grounded words pr t.hive) :
    topsUnion words t.hive.handed = leafWords words pr.shardOrder t.hive := by
  refine Set.Subset.antisymm (fun x ⟨e, he, hx⟩ => hg.tops e he hx) ?_
  rintro x ⟨d, w, p, ts, ho, hl, hx⟩
  have hd : (Decimal.ofBase d.base).extend d.digits = d := rfl
  obtain ⟨v, hv, hxv⟩ := ideal_words hm hu refs hx d.digits (.ofBase d.base)
    (hd.symm ▸ (hs.present d w).mp (by rw [hl]; rfl)) hl
  have htop := hs.tops (.ofBase d.base) rfl (hq d.base)
  rw [show pr.shardOrder = d.digits.length from ho.symm, hv] at htop
  obtain ⟨e, he, rfl⟩ := Option.map_eq_some_iff.mp htop
  exact ⟨e, List.mem_of_mem_filter (List.mem_of_getLast? he), hxv⟩

end Words

omit [DecidableEq P] [LinearOrder T] in
/-- A pass over all leaves leaves no shard leaf pending. -/
theorem quiet_pendingAfter_all (shardOrder k : Nat) (refs : List (Decimal × Window L)) (d : Decimal) :
    Quiet shardOrder (pendingAfter shardOrder k refs
      (.sweep refs none fun _ _ => false : Event L P T)) d := by
  intro ref hr ho
  simp only [pendingAfter, passPlan_none, if_pos (Nat.zero_le k), List.mem_filter,
    decide_eq_true_eq] at hr
  exact absurd (by simp [normalizeLeaves, hr.1, ho]) hr.2

/-- Incremental sweeps equal one full sweep. In a failure-free history of leaf writes and
passes, a node whose changed leaves are each in the work set of a later pass that walks up
to it has the rollup one pass over all leaves of a store without rollups would leave, a base
cell so covered was last handed over as that pass hands it over, and if all of them are and no
rewrite drops a word, the tops tell the same words. -/
theorem incremental_eq_scratch (pr : Product L P T)
    (hmerge : ∀ ps d o, ps ≠ [] → (pr.merge ps d o).isSome = true) (es : List (Event L P T))
    (hclean : ∀ e ∈ es, e.Clean) :
    let final := pr.replay emptyHive es
    let scratch := pr.fromScratch final (written es)
    (∀ d, Covered pr.shardOrder d es →
      (pr.rollup final d).map Envelope.view = (pr.rollup scratch d).map Envelope.view) ∧
    (∀ b, Covered pr.shardOrder (.ofBase b) es →
      (lastTop final.handed (.ofBase b)).map Envelope.view =
        (lastTop scratch.handed (.ofBase b)).map Envelope.view) ∧
    ((∀ b, Covered pr.shardOrder (.ofBase b) es) →
      ∀ (W : Type) (words : P → Set W), UnionOfWords words pr.merge →
        Growing words pr emptyHive es →
        topsUnion words final.handed = topsUnion words scratch.handed) := by
  obtain ⟨t, ht, hs⟩ := synced_replay hmerge hclean (synced_empty pr)
  rw [List.nil_append] at hs
  have hsc := synced_sweep (synced_scratch hs) hmerge (written es) none rfl
  have hquiet : ∀ {d}, Covered pr.shardOrder d es →
      Quiet pr.shardOrder (es.foldl (pendingAfter pr.shardOrder d.order) []) d :=
    fun hc => quiet_of_covered [] hc fun ref hr => by cases hr
  have hquiet' := fun k => quiet_pendingAfter_all (P := P) (T := T) pr.shardOrder k (written es)
  have hleaves : (pr.fromScratch t.hive (written es)).leaves = t.hive.leaves := sweep_leaves
  have hideal := ideal_leaves pr hleaves (written es)
  have hfinal : pr.replay emptyHive es = t.hive := ht.symm
  simp only [hfinal]
  refine ⟨fun d hc => ?_, fun b hc => ?_, fun hall W words hu hgrow => ?_⟩
  · by_cases hd : d.order ≤ pr.shardOrder
    · have hk : d.order + (pr.shardOrder - d.order) = pr.shardOrder := by omega
      have hview := hsc.agree _ d hk (hquiet' d.order d)
      exact (hs.agree _ d hk (hquiet hc)).trans (hview.trans (congrFun₂ hideal _ d)).symm
    · have hnone := hsc.deep d (by omega)
      exact congrArg (Option.map Envelope.view) ((hs.deep d (by omega)).trans hnone.symm)
  · have htop := hsc.tops (.ofBase b) rfl (hquiet' 0 _)
    exact (hs.tops (.ofBase b) rfl (hquiet hc)).trans (htop.trans (congrFun₂ hideal _ _)).symm
  · have hempty : ∀ leaves, Grounded words pr (⟨leaves, fun _ _ => none, []⟩ : Hive L P T) :=
      fun _ => ⟨fun _ _ he => (nomatch he), fun _ he => (nomatch he)⟩
    have hg := hfinal ▸ grounded_replay hu hgrow (hempty _)
    have hg' := grounded_sweep hu (hempty t.hive.leaves) (written es) none fun _ _ => false
    have htops := topsUnion_eq hmerge hu hsc (fun b => hquiet' 0 _) hg'
    rw [topsUnion_eq hmerge hu hs (fun b => hquiet (hall b)) hg]
    refine Eq.trans ?_ htops.symm
    rw [leafWords, leafWords]
    exact congrArg (fun l => {x | ∃ (d : Decimal) (w : Window L) (p : P) (ts : Option T),
      d.order = pr.shardOrder ∧ l d w = some (p, ts) ∧ x ∈ words p}) hleaves.symm

section Runs

/-- Every written leaf is in the dirty set of a later pass, however far up that one walks. -/
def DirtyLater : List (Event L P T) → Prop
  | [] => True
  | .write d w _ _ :: es =>
    (∃ leaves partition fails, Event.sweep leaves partition fails ∈ es ∧ (d, w) ∈ leaves) ∧
      DirtyLater es
  | .sweep _ _ _ :: es => DirtyLater es

/-- Sets of small numbers, held as the bits of one number and folded by their union. -/
def bitProduct (shardOrder : Nat) : Product Nat Nat Nat :=
  ⟨"store", shardOrder, "bits", fun ps _ _ => some (ps.foldr (· ||| ·) 0)⟩

def bits (p : Nat) : Set Nat := {i | p.testBit i = true}

theorem bitProduct_union (shardOrder : Nat) : UnionOfWords bits (bitProduct shardOrder).merge := by
  intro ps d o p hp i
  obtain rfl := Option.some.inj hp
  show (ps.foldr (· ||| ·) 0).testBit i = true ↔ ∃ q ∈ ps, q.testBit i = true
  induction ps with
  | nil => simp
  | cons q ps ih => simp [Nat.testBit_or, ih rfl]

/-- The first of the shards below `countShard`. -/
def quarterShard : Decimal := countShard.child ⟨0, Decimal.digit_pos⟩

/-- One of `of` partitions over that shard. -/
def blockPass (of : Int) : Event Nat Nat Nat :=
  .sweep [(quarterShard, ⊥)] (some ⟨some 0, some of, "index 0"⟩) fun _ _ => false

def quarterRun : List (Event Nat Nat Nat) := [.write quarterShard ⊥ 1 none, blockPass 4]

/-- A leaf swept, rewritten to another element, and swept again. -/
def rewrittenBits : List (Event Nat Nat Nat) :=
  [.write countShard ⊥ 1 none, .sweep [(countShard, ⊥)] none fun _ _ => false,
   .write countShard ⊥ 2 none, .sweep [(countShard, ⊥)] none fun _ _ => false]

omit [DecidableEq P] [LinearOrder T] in
theorem sweptLater_of_mem {shardOrder k : Nat} {ref : Decimal × Window L} {es : List (Event L P T)}
    {leaves : List (Decimal × Window L)} {fails : Decimal → Window L → Bool}
    (hin : Event.sweep leaves none fails ∈ es) (hr : ref ∈ leaves) (ho : ref.1.order = shardOrder) :
    SweptLater shardOrder k ref es :=
  ⟨leaves, none, fails, _, 0, hin, passPlan_none shardOrder leaves, Nat.zero_le k,
    by simp [normalizeLeaves, hr, ho]⟩

/-- A dirty set is not enough for the rollups above a partition's split, nor full coverage
for the tops' union once a leaf drops an element. -/
theorem incremental_ne_scratch :
    (¬ ∀ es, (∀ e ∈ es, e.Clean) → DirtyLater es →
      let final := (bitProduct 1).replay emptyHive es
      ∀ d, ((bitProduct 1).rollup final d).map Envelope.view =
        ((bitProduct 1).rollup ((bitProduct 1).fromScratch final (written es)) d).map
          Envelope.view) ∧
    ¬ ∀ es, (∀ e ∈ es, e.Clean) → DirtyLater es → (∀ d, Covered 0 d es) →
      let final := (bitProduct 0).replay emptyHive es
      topsUnion bits final.handed =
        topsUnion bits ((bitProduct 0).fromScratch final (written es)).handed := by
  constructor
  · intro h
    have hclean : ∀ e ∈ quarterRun, e.Clean := by
      intro e he
      simp only [quarterRun, List.mem_cons, List.not_mem_nil, or_false] at he
      rcases he with rfl | rfl <;> simp [Event.Clean, blockPass]
    have hdirty : DirtyLater quarterRun := ⟨⟨_, _, _, .head _, .head _⟩, trivial⟩
    have heq := h quarterRun hclean hdirty countShard
    have hne : (((bitProduct 1).rollup ((bitProduct 1).replay emptyHive quarterRun)
        countShard).map Envelope.view).isSome ≠
        (((bitProduct 1).rollup ((bitProduct 1).fromScratch
          ((bitProduct 1).replay emptyHive quarterRun) (written quarterRun)) countShard).map
          Envelope.view).isSome := by decide +kernel
    exact hne (congrArg Option.isSome heq)
  · intro h
    have hclean : ∀ e ∈ rewrittenBits, e.Clean := by
      intro e he
      simp only [rewrittenBits, List.mem_cons, List.not_mem_nil, or_false] at he
      rcases he with rfl | rfl | rfl | rfl <;> simp [Event.Clean]
    have hdirty : DirtyLater rewrittenBits :=
      ⟨⟨_, _, _, .head _, .head _⟩, ⟨_, _, _, .head _, .head _⟩, trivial⟩
    have hcovered : ∀ d, Covered 0 d rewrittenBits := fun d =>
      ⟨fun _ _ => sweptLater_of_mem (.head _) (.head _) rfl,
        fun _ _ => sweptLater_of_mem (.head _) (.head _) rfl, trivial⟩
    have heq := h rewrittenBits hclean hdirty hcovered
    have hfinal : ((bitProduct 0).replay emptyHive rewrittenBits).handed.map Envelope.payload =
        [1, 2] := by decide +kernel
    have hscratch : ((bitProduct 0).fromScratch ((bitProduct 0).replay emptyHive rewrittenBits)
        (written rewrittenBits)).handed.map Envelope.payload = [2] := by decide +kernel
    -- the first pass handed the element over that no leaf holds any more
    have hzero : (0 : Nat) ∈ topsUnion bits
        ((bitProduct 0).replay emptyHive rewrittenBits).handed := by
      obtain ⟨e, he, hp⟩ := List.mem_map.mp (hfinal ▸ List.mem_cons_self)
      exact ⟨e, he, by rw [hp]; rfl⟩
    rw [heq] at hzero
    obtain ⟨e, he, hx⟩ := hzero
    have hp : e.payload = 2 := List.mem_singleton.mp (hscratch ▸ List.mem_map_of_mem he)
    rw [hp] at hx
    exact absurd (show Nat.testBit 2 0 = true from hx) (by decide)

/-- A quarter of the partitions, then the leaf grows, and one pass with a single partition. -/
def grownRun : List (Event Nat Nat Nat) :=
  [.write quarterShard ⊥ 1 none, blockPass 4, .write quarterShard ⊥ 3 none, blockPass 1]

theorem incremental_eq_scratch_grown :
    let final := (bitProduct 1).replay emptyHive grownRun
    let scratch := (bitProduct 1).fromScratch final (written grownRun)
    (∀ d, ((bitProduct 1).rollup final d).map Envelope.view =
      ((bitProduct 1).rollup scratch d).map Envelope.view) ∧
    ((bitProduct 1).rollup final countShard).map Envelope.payload = some 3 ∧
    (∀ b, (lastTop final.handed (.ofBase b)).map Envelope.view =
      (lastTop scratch.handed (.ofBase b)).map Envelope.view) ∧
    topsUnion bits final.handed = topsUnion bits scratch.handed := by
  have hclean : ∀ e ∈ grownRun, e.Clean := by
    intro e he
    simp only [grownRun, List.mem_cons, List.not_mem_nil, or_false] at he
    rcases he with rfl | rfl | rfl | rfl <;> simp [Event.Clean, blockPass]
  have hplan : passPlan 1 [(quarterShard, (⊥ : Window Nat))]
      (some ⟨some 0, some 1, "index 0"⟩) = some ([(quarterShard, ⊥)], 0) := by decide +kernel
  have hcovered : ∀ d, Covered 1 d grownRun := by
    intro d
    have hlater : ∀ {es : List (Event Nat Nat Nat)}, blockPass 1 ∈ es →
        SweptLater 1 d.order (quarterShard, ⊥) es :=
      fun hin => ⟨_, _, _, _, 0, hin, hplan, Nat.zero_le _, .head _⟩
    exact ⟨fun _ _ => hlater (.tail _ (.tail _ (.head _))), fun _ _ => hlater (.head _), trivial⟩
  have hgrows : Growing bits (bitProduct 1) emptyHive grownRun := by
    refine ⟨fun _ _ h => (by cases h), trivial, fun p₀ ts₀ h => ?_, trivial, trivial⟩
    have hl : ((bitProduct 1).apply ((bitProduct 1).apply emptyHive
        (.write quarterShard ⊥ 1 none)) (blockPass 4)).leaves quarterShard ⊥ = some (1, none) := by
      decide +kernel
    rw [hl] at h
    obtain ⟨rfl, rfl⟩ := Prod.mk.inj (Option.some.inj h)
    intro i hi
    show (1 ||| 2 : Nat).testBit i = true
    rw [Nat.testBit_or, show Nat.testBit 1 i = true from hi, Bool.true_or]
  obtain ⟨hrollups, htops, hunion⟩ :=
    incremental_eq_scratch (bitProduct 1) (fun _ _ _ _ => rfl) grownRun hclean
  exact ⟨fun d => hrollups d (hcovered d), by decide +kernel, fun b => htops b (hcovered _),
    hunion (fun b => hcovered _) Nat bits (bitProduct_union 1) hgrows⟩

end Runs

end Zagg.Sweep
