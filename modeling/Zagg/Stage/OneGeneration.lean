import Zagg.Stage.StageFold

/-!
# A fold against columns that move

Between two reads of a fold any child column may be replaced by a newer committed one.
A read that finds its array brackets it with the stamp and adopts the standing column
when the stamp moved; a read that finds no array returns without looking at it. The
generation block is summed after the last read, from the columns the readers adopted
by then, while arrays adopted from earlier ones are already folded.
-/
namespace Zagg.Stage

open Zagg.Lib Zagg.Stats

variable {χ V N R : Type}

/-- The generations of each child column, the one its reader was opened on, and the one
that stands when the fold has made `t` reads. -/
structure Schedule (χ V N R : Type) where
  column : χ → Nat → StoredColumn V N R
  opened : χ → Nat
  standing : Nat → χ → Nat
  opened_le : ∀ r, opened r ≤ standing 0 r
  standing_le : ∀ t r, standing t r ≤ standing (t + 1) r

/-- The readers during one fold; `consumed` notes which generation each array is of. -/
structure Live (χ N : Type) where
  clock : Nat
  adopted : χ → Nat
  revalidated : Nat
  foreign : Bool
  consumed : List (Query χ N × Nat)

namespace Schedule

variable (sch : Schedule χ V N R)

def start : Live χ N := ⟨0, sch.opened, 0, false, []⟩

/-- The array read number `t` finds, if it is this query. -/
def found (t : Nat) (q : Query χ N) : Option (Slab V q.key) :=
  (sch.column q.reader (sch.standing t q.reader)).arrays q.res q.key

variable [DecidableEq χ] [DecidableEq R]

/-- `_ColumnReader.read`: nothing moves between its own GETs, so the second attempt at
the latest validates. -/
def serve (runId : R) (runStarted : Nat) (q : Query χ N) (s : Live χ N) :
    Answer V q × Live χ N :=
  let now := sch.standing s.clock q.reader
  let s' := { s with clock := s.clock + 1 }
  match sch.found s.clock q with
  | none => (none, s')
  | some values =>
    let after := (sch.column q.reader now).stamp
    let consumed := s.consumed ++ [(q, now)]
    if (sch.column q.reader (s.adopted q.reader)).stamp = after then
      (some values, { s' with consumed := consumed })
    else if Column.foreignFresh runId runStarted (some after.toStamp) then
      (none, { s' with foreign := true })
    else
      (some values, { s' with
        adopted := Function.update s.adopted q.reader now
        revalidated := s.revalidated + 1
        consumed := consumed })

/-- What a reader holds after it consumed an array of generation `g`. -/
def adopt (r : χ) (a g : Nat) : Nat :=
  if (sch.column r a).stamp = (sch.column r g).stamp then a else g

/-- The consumed generations of the reads `qs`. -/
def consumedOf (qs : List (Query χ N)) : List (Query χ N × Nat) :=
  (qs.zipIdx.filter fun p => (sch.found p.2 p.1).isSome).map
    fun p => (p.1, sch.standing p.2 p.1.reader)

/-- The generations consumed through one reader. -/
def generationsOf (c : List (Query χ N × Nat)) (r : χ) : List Nat :=
  (c.filter fun p => p.1.reader = r).map Prod.snd

/-- Read `i` of `qs` goes to `r` and finds its array. -/
def FoundAt (qs : List (Query χ N)) (i : Nat) (r : χ) : Prop :=
  ∃ q, qs[i]? = some q ∧ q.reader = r ∧ (sch.found i q).isSome

/-- No column is replaced between two reads that find their array in it, and one that
was replaced before its first such read carries another stamp. -/
def Undisturbed (qs : List (Query χ N)) : Prop :=
  (∀ r i j, sch.FoundAt qs i r → sch.FoundAt qs j r →
    ∀ t, i ≤ t → t < j → sch.standing t r = sch.standing (t + 1) r) ∧
  ∀ r i, sch.FoundAt qs i r → sch.standing i r = sch.opened r ∨
    (sch.column r (sch.standing i r)).stamp ≠ (sch.column r (sch.opened r)).stamp

/-- The generation read `t` consumes, if it finds its array. -/
def consumes (t : Nat) (q : Query χ N) : List (Query χ N × Nat) :=
  if (sch.found t q).isSome then [(q, sch.standing t q.reader)] else []

/-- One read that is not aborted: it consumes what stands and adopts it. -/
theorem serve_cases (runId : R) (runStarted : Nat) (q : Query χ N) (s : Live χ N)
    (h : (sch.serve runId runStarted q s).2.foreign = false) :
    s.foreign = false ∧ (sch.serve runId runStarted q s).2.clock = s.clock + 1 ∧
      (sch.serve runId runStarted q s).2.consumed = s.consumed ++ sch.consumes s.clock q ∧
      ∀ r, (sch.serve runId runStarted q s).2.adopted r =
        (generationsOf (sch.consumes s.clock q) r).foldl (sch.adopt r) (s.adopted r) := by
  revert h
  rw [serve, consumes]
  cases sch.found s.clock q with
  | none => exact fun h => ⟨h, rfl, (List.append_nil _).symm, fun _ => rfl⟩
  | some values =>
    simp only [Option.isSome_some, if_true]
    split
    · next hsame =>
      refine fun h => ⟨h, rfl, rfl, fun r => ?_⟩
      by_cases hr : q.reader = r
      · subst hr
        simp [generationsOf, adopt, hsame]
      · simp [generationsOf, hr]
    · next hmoved =>
      split
      · exact fun h => nomatch h
      · refine fun h => ⟨h, rfl, rfl, fun r => ?_⟩
        by_cases hr : q.reader = r
        · subst hr
          simp [generationsOf, adopt, hmoved]
        · simp [generationsOf, hr, Function.update_of_ne (Ne.symm hr)]

omit [DecidableEq χ] [DecidableEq R] in
theorem consumedOf_append (qs : List (Query χ N)) (q : Query χ N) :
    sch.consumedOf (qs ++ [q]) = sch.consumedOf qs ++ sch.consumes qs.length q := by
  rw [consumedOf, List.zipIdx_append, List.filter_append, List.map_append, ← consumedOf, consumes,
    List.zipIdx_singleton, Nat.zero_add]
  split
  · next h => simp [h]
  · next h => simp [h]

omit [DecidableEq R] in
theorem generationsOf_append (c d : List (Query χ N × Nat)) (r : χ) :
    generationsOf (c ++ d) r = generationsOf c r ++ generationsOf d r := by
  rw [generationsOf, List.filter_append, List.map_append, generationsOf, generationsOf]

/-- What the readers hold after the reads `qs`, unless a foreign stamp aborted them. -/
theorem foldl_serve (runId : R) (runStarted : Nat) (qs : List (Query χ N)) :
    (qs.foldl (fun s q => (sch.serve runId runStarted q s).2) sch.start).foreign = false →
    (qs.foldl (fun s q => (sch.serve runId runStarted q s).2) sch.start).clock = qs.length ∧
    (qs.foldl (fun s q => (sch.serve runId runStarted q s).2) sch.start).consumed =
      sch.consumedOf qs ∧
    ∀ r, (qs.foldl (fun s q => (sch.serve runId runStarted q s).2) sch.start).adopted r =
      (generationsOf (sch.consumedOf qs) r).foldl (sch.adopt r) (sch.opened r) := by
  induction qs using List.reverseRecOn with
  | nil => exact fun _ => ⟨rfl, rfl, fun _ => rfl⟩
  | append_singleton qs q ih =>
    rw [List.foldl_append, List.foldl_cons, List.foldl_nil]
    intro hforeign
    obtain ⟨hbefore, hclock, hconsumed, hadopted⟩ := sch.serve_cases runId runStarted q _ hforeign
    obtain ⟨ihclock, ihconsumed, ihadopted⟩ := ih hbefore
    rw [ihclock] at hclock hconsumed hadopted
    refine ⟨?_, ?_, fun r => ?_⟩
    · rw [hclock, List.length_append, List.length_singleton]
    · rw [hconsumed, ihconsumed, consumedOf_append]
    · rw [hadopted, ihadopted, consumedOf_append, generationsOf_append, List.foldl_append]

omit [DecidableEq χ] in
/-- Every consumed generation is the one the reader ends on iff they are all one, and
that one is told apart from the opened one by its stamp. -/
theorem foldl_adopt_iff (r : χ) (a : Nat) (gs : List Nat) :
    (∀ g ∈ gs, g = gs.foldl (sch.adopt r) a) ↔
      (∀ g ∈ gs, ∀ g' ∈ gs, g = g') ∧
        ∀ g ∈ gs, g = a ∨ (sch.column r g).stamp ≠ (sch.column r a).stamp := by
  have hrep : ∀ (n g : Nat), (List.replicate (n + 1) g).foldl (sch.adopt r) a =
      if (sch.column r a).stamp = (sch.column r g).stamp then a else g := by
    intro n g
    by_cases hs : (sch.column r a).stamp = (sch.column r g).stamp
    · rw [if_pos hs]
      generalize n + 1 = m
      induction m with
      | zero => rfl
      | succ m ih => rw [List.replicate_succ, List.foldl_cons, adopt, if_pos hs, ih]
    · rw [if_neg hs, List.replicate_succ, List.foldl_cons, adopt, if_neg hs]
      induction n with
      | zero => rfl
      | succ n ih => rw [List.replicate_succ, List.foldl_cons, adopt, if_pos rfl, ih]
  cases gs with
  | nil => simp
  | cons g₀ gs =>
    have hall : (∀ g ∈ g₀ :: gs, ∀ g' ∈ g₀ :: gs, g = g') →
        g₀ :: gs = List.replicate (gs.length + 1) g₀ := fun h =>
      List.eq_replicate_of_mem fun g hg => h g hg g₀ (.head _)
    constructor
    · intro h
      have hone : ∀ g ∈ g₀ :: gs, ∀ g' ∈ g₀ :: gs, g = g' :=
        fun g hg g' hg' => (h g hg).trans (h g' hg').symm
      refine ⟨hone, fun g hg => ?_⟩
      have hend := h g hg
      rw [hall hone, hrep, hone g₀ (.head _) g hg] at hend
      by_cases hs : (sch.column r a).stamp = (sch.column r g).stamp
      · exact .inl (by rwa [if_pos hs] at hend)
      · exact .inr (Ne.symm hs)
    · rintro ⟨hone, hstamp⟩ g hg
      rw [hall hone, hrep, hone g₀ (.head _) g hg]
      by_cases hs : (sch.column r a).stamp = (sch.column r g).stamp
      · rw [if_pos hs]
        exact (hstamp g hg).resolve_right fun hne => hne hs.symm
      · rw [if_neg hs]

omit [DecidableEq R] in
theorem mem_generationsOf {qs : List (Query χ N)} {r : χ} {g : Nat} :
    g ∈ generationsOf (sch.consumedOf qs) r ↔
      ∃ i, sch.FoundAt qs i r ∧ g = sch.standing i r := by
  simp only [generationsOf, consumedOf, List.mem_map, List.mem_filter, decide_eq_true_eq]
  constructor
  · rintro ⟨p, ⟨⟨e, ⟨he, hf⟩, rfl⟩, hr⟩, rfl⟩
    obtain ⟨q, i⟩ := e
    refine ⟨i, ⟨q, List.mem_zipIdx_iff_getElem?.mp he, hr, hf⟩, ?_⟩
    rw [← hr]
  · rintro ⟨i, ⟨q, hq, hr, hf⟩, rfl⟩
    exact ⟨_, ⟨⟨(q, i), ⟨List.mem_zipIdx_iff_getElem?.mpr hq, hf⟩, rfl⟩, hr⟩, by rw [hr]⟩

omit [DecidableEq χ] [DecidableEq R] in
theorem standing_le_of_le (r : χ) {i j : Nat} (h : i ≤ j) : sch.standing i r ≤ sch.standing j r := by
  induction h with
  | refl => exact Nat.le_refl _
  | step _ ih => exact ih.trans (sch.standing_le _ r)

omit [DecidableEq R] in
/-- In terms of the consumed generations: the reader's are all one, told apart from the
opened one by its stamp. -/
theorem undisturbed_iff (qs : List (Query χ N)) :
    sch.Undisturbed qs ↔ ∀ r,
      (∀ g ∈ generationsOf (sch.consumedOf qs) r, ∀ g' ∈ generationsOf (sch.consumedOf qs) r,
        g = g') ∧
      ∀ g ∈ generationsOf (sch.consumedOf qs) r, g = sch.opened r ∨
        (sch.column r g).stamp ≠ (sch.column r (sch.opened r)).stamp := by
  constructor
  · rintro ⟨hmove, hstamp⟩ r
    have hle : ∀ i j, sch.FoundAt qs i r → sch.FoundAt qs j r → i ≤ j →
        sch.standing i r = sch.standing j r := by
      intro i j hi hj hij
      have hstill : ∀ t, i ≤ t → t ≤ j → sch.standing i r = sch.standing t r := by
        intro t ht
        induction ht with
        | refl => exact fun _ => rfl
        | @step t hit ih =>
          exact fun hle => (ih (by omega)).trans (hmove r i j hi hj t hit (by omega))
      exact hstill j hij (Nat.le_refl j)
    constructor
    · intro g hg g' hg'
      obtain ⟨i, hi, rfl⟩ := sch.mem_generationsOf.mp hg
      obtain ⟨j, hj, rfl⟩ := sch.mem_generationsOf.mp hg'
      rcases Nat.le_total i j with hij | hij
      · exact hle i j hi hj hij
      · exact (hle j i hj hi hij).symm
    · intro g hg
      obtain ⟨i, hi, rfl⟩ := sch.mem_generationsOf.mp hg
      exact hstamp r i hi
  · intro h
    refine ⟨fun r i j hi hj t hit htj => ?_, fun r i hi => ?_⟩
    · have heq := (h r).1 _ (sch.mem_generationsOf.mpr ⟨i, hi, rfl⟩) _
        (sch.mem_generationsOf.mpr ⟨j, hj, rfl⟩)
      have h1 := sch.standing_le_of_le r hit
      have h2 := sch.standing_le t r
      have h3 := sch.standing_le_of_le r (show t + 1 ≤ j from htj)
      omega
    · exact (h r).2 _ (sch.mem_generationsOf.mpr ⟨i, hi, rfl⟩)

omit [DecidableEq χ] [DecidableEq R] in
theorem lt_length_of_foundAt {qs : List (Query χ N)} {i : Nat} {r : χ} (h : sch.FoundAt qs i r) :
    i < qs.length := by
  obtain ⟨q, hq, -, -⟩ := h
  exact (List.getElem?_eq_some_iff.mp hq).1

/-- The column a reader holds. -/
def held (s : Live χ N) (r : χ) : StoredColumn V N R := sch.column r (s.adopted r)

/-- The column that stands when the fold has made `t` reads. -/
def standingAt (t : Nat) (r : χ) : StoredColumn V N R := sch.column r (sch.standing t r)

/-- The column a reader saw last: the one it was opened on, or that of its last found
array, as far as the stamps tell them apart. -/
def lastSeen (qs : List (Query χ N)) (r : χ) : StoredColumn V N R :=
  sch.column r ((generationsOf (sch.consumedOf qs) r).foldl (sch.adopt r) (sch.opened r))

/-- Every read found what the column standing at `t` holds. -/
def Present (qs : List (Query χ N)) (t : Nat) : Prop :=
  ∀ i q, qs[i]? = some q → sch.found i q = answers (sch.standingAt t) q

/-- A column that some reader was opened on or that stood during `n` reads. -/
def Seen (rs : List χ) (n : Nat) (c : StoredColumn V N R) : Prop :=
  ∃ r ∈ rs, c = sch.column r (sch.opened r) ∨ ∃ t ≤ n, c = sch.standingAt t r

/-- After `n` reads a column is only replaced by one newer than all that stood before. -/
def NewerAfter (rs : List χ) (n : Nat) : Prop :=
  ∀ t, n ≤ t → ∀ r ∈ rs, sch.standing t r = sch.standing n r ∨
    NewerThan (sch.Seen rs n) (sch.standingAt t r)

omit [DecidableEq χ] in
theorem foldl_adopt_mem (r : χ) (a : Nat) (gs : List Nat) :
    gs.foldl (sch.adopt r) a = a ∨ gs.foldl (sch.adopt r) a ∈ gs := by
  induction gs generalizing a with
  | nil => exact .inl rfl
  | cons g gs ih =>
    rw [List.foldl_cons]
    have hstep : sch.adopt r a g = a ∨ sch.adopt r a g = g := by
      rw [adopt]
      split
      · exact .inl rfl
      · exact .inr rfl
    rcases ih (sch.adopt r a g) with h | h
    · rw [h]
      exact hstep.imp_right fun he => List.mem_cons.mpr (.inl he)
    · exact .inr (.tail _ h)

theorem seen_lastSeen (qs : List (Query χ N)) {rs : List χ} {r : χ} (hr : r ∈ rs) :
    sch.Seen rs qs.length (sch.lastSeen qs r) := by
  refine ⟨r, hr, ?_⟩
  rcases sch.foldl_adopt_mem r (sch.opened r) (generationsOf (sch.consumedOf qs) r) with h | h
  · exact .inl (congrArg (sch.column r) h)
  · obtain ⟨i, hi, heq⟩ := sch.mem_generationsOf.mp h
    exact .inr ⟨i, (sch.lt_length_of_foundAt hi).le, congrArg (sch.column r) heq⟩

/-- For columns the fleet wrote, each stamped later than the one it replaces: the sum tells
the standing columns from those seen last iff one is newer than all of these. -/
theorem summed_lastSeen_ne_iff (qs : List (Query χ N)) {rs : List χ}
    (hleaf : ∀ r g, (sch.column r g).IsLeaf)
    (hstamps : ∀ r, Monotone fun g => (sch.column r g).stamp.writtenAt) :
    summedGeneration (rs.map fun r => (sch.standingAt qs.length r).key) ≠
        summedGeneration (rs.map fun r => (sch.lastSeen qs r).key) ↔
      ∃ r ∈ rs, ∀ r' ∈ rs,
        (sch.lastSeen qs r').stamp.writtenAt < (sch.standingAt qs.length r).stamp.writtenAt := by
  have hle : ∀ r ∈ rs,
      (sch.lastSeen qs r).stamp.writtenAt ≤ (sch.standingAt qs.length r).stamp.writtenAt := by
    intro r _
    refine hstamps r ?_
    rcases sch.foldl_adopt_mem r (sch.opened r) (generationsOf (sch.consumedOf qs) r) with h | h
    · rw [h]
      exact (sch.opened_le r).trans (sch.standing_le_of_le r (Nat.zero_le _))
    · obtain ⟨i, hi, heq⟩ := sch.mem_generationsOf.mp h
      rw [heq]
      exact sch.standing_le_of_le r (sch.lt_length_of_foundAt hi).le
  rw [ne_eq, summed_leaves_eq_iff (sch.lastSeen qs) (sch.standingAt qs.length)
    (fun r _ => hleaf r _) (fun r _ => hleaf r _) hle]
  push Not
  rfl

/-- A read that is not aborted is answered by the standing column. -/
theorem serve_answer (runId : R) (runStarted : Nat) (q : Query χ N) (s : Live χ N)
    (h : (sch.serve runId runStarted q s).2.foreign = false) :
    (sch.serve runId runStarted q s).1 = sch.found s.clock q := by
  revert h
  rw [serve]
  cases sch.found s.clock q with
  | none => exact fun _ => rfl
  | some values =>
    simp only
    split
    · exact fun _ => rfl
    · split
      · exact fun h => nomatch h
      · exact fun _ => rfl

/-- An aborted fold stays aborted. -/
theorem foldl_serve_foreign (runId : R) (runStarted : Nat) (qs : List (Query χ N)) (s : Live χ N)
    (h : (qs.foldl (fun s q => (sch.serve runId runStarted q s).2) s).foreign = false) :
    s.foreign = false := by
  induction qs generalizing s with
  | nil => exact h
  | cons q qs ih => exact (sch.serve_cases runId runStarted q s (ih _ h)).1

section Fold
variable [DecidableEq N] [DecidableEq V] [Inhabited V]
variable (num : Numerics) (fields : Fields V N) (site : LevelSite) (rows : Rows χ)
  (runId : R) (runStarted : Nat)

/-- The reads of one fold under the schedule. -/
def liveFold : Except String (Slabs V N × SourceCounts) × Live χ N :=
  ReadProg.exec (sch.serve runId runStarted) (foldSlabs num fields site rows) sch.start

/-- The fold ends, and this is what it records. -/
def Records (fold : Folded V N R) : Prop :=
  ∃ out, (sch.liveFold num fields site rows runId runStarted).1 = .ok out ∧
    (sch.liveFold num fields site rows runId runStarted).2.foreign = false ∧
    finishFold site (sch.held (sch.liveFold num fields site rows runId runStarted).2) rows out =
      some fold

/-- All that was consumed of one column is of the generation its reader ends on, which
is the one that enters the recorded block. -/
def OneGeneration (s : Live χ N) : Prop := ∀ c ∈ s.consumed, c.2 = s.adopted c.1.reader

/-- What the readers hold when the fold has ended. -/
theorem liveFold_end {out : Slabs V N × SourceCounts}
    (hok : (sch.liveFold num fields site rows runId runStarted).1 = .ok out)
    (hf : (sch.liveFold num fields site rows runId runStarted).2.foreign = false) :
    (sch.liveFold num fields site rows runId runStarted).2.consumed =
      sch.consumedOf (foldReads fields site rows) ∧
    ∀ r, (sch.liveFold num fields site rows runId runStarted).2.adopted r =
      (generationsOf (sch.consumedOf (foldReads fields site rows)) r).foldl (sch.adopt r)
        (sch.opened r) := by
  have hend := (reads_foldSlabs num fields site rows).exec_ok hok
  rw [liveFold] at hf ⊢
  rw [hend] at hf ⊢
  exact (sch.foldl_serve runId runStarted _ hf).2

theorem oneGeneration_iff {out : Slabs V N × SourceCounts}
    (hok : (sch.liveFold num fields site rows runId runStarted).1 = .ok out)
    (hf : (sch.liveFold num fields site rows runId runStarted).2.foreign = false) :
    OneGeneration (sch.liveFold num fields site rows runId runStarted).2 ↔
      sch.Undisturbed (foldReads fields site rows) := by
  obtain ⟨hconsumed, hadopted⟩ := sch.liveFold_end num fields site rows runId runStarted hok hf
  rw [undisturbed_iff, OneGeneration, hconsumed]
  simp only [hadopted, ← foldl_adopt_iff]
  constructor
  · intro h r g hg
    obtain ⟨c, hc, rfl⟩ := List.mem_map.mp hg
    obtain ⟨hc, hr⟩ := List.mem_filter.mp hc
    rw [decide_eq_true_eq] at hr
    rw [← hr]
    exact h c hc
  · intro h c hc
    exact h _ _ (List.mem_map_of_mem (List.mem_filter.mpr ⟨hc, decide_eq_true rfl⟩))

/-- A fold whose every read found what `column` holds is the fold of `column`. -/
theorem liveFold_present {column : χ → StoredColumn V N R} {out : Slabs V N × SourceCounts}
    (hok : (sch.liveFold num fields site rows runId runStarted).1 = .ok out)
    (hf : (sch.liveFold num fields site rows runId runStarted).2.foreign = false)
    (h : ∀ i q, (foldReads fields site rows)[i]? = some q → sch.found i q = answers column q) :
    ReadProg.run (answers column) (foldSlabs num fields site rows) = .ok out := by
  set qs := foldReads fields site rows with hqs
  set move := fun s q => (sch.serve runId runStarted q s).2 with hmove
  have hreads := reads_foldSlabs num fields site rows
  have hend : (qs.foldl move sch.start).foreign = false := hreads.exec_ok hok ▸ hf
  -- no prefix of the reads is aborted
  have hhead : ∀ i, ((qs.take i).foldl move sch.start).foreign = false := by
    intro i
    refine sch.foldl_serve_foreign runId runStarted (qs.drop i) _ ?_
    rw [← List.foldl_append, List.take_append_drop]
    exact hend
  rw [← hok, liveFold]
  symm
  refine hreads.exec_run (I := fun i s => s = (qs.take i).foldl move sch.start)
    (fun i q s hq hs => ?_) rfl
  have hi : i < qs.length := (List.getElem?_eq_some_iff.mp hq).1
  have hnext : (sch.serve runId runStarted q s).2 = (qs.take (i + 1)).foldl move sch.start := by
    rw [List.take_add_one, hq, List.foldl_append, ← hs]
    rfl
  have hclock : s.clock = i := by
    rw [hs, (sch.foldl_serve runId runStarted (qs.take i) (hhead i)).1, List.length_take]
    omega
  refine ⟨?_, hnext⟩
  rw [sch.serve_answer runId runStarted q s (hnext ▸ hhead (i + 1)), hclock, h i q hq]

/-- What the fold records is the sum over the columns its readers saw last. -/
theorem Records.generation_eq {fold : Folded V N R}
    (h : sch.Records num fields site rows runId runStarted fold) :
    fold.generation = summedGeneration
      ((readersOf rows).map fun r => (sch.lastSeen (foldReads fields site rows) r).key) := by
  obtain ⟨out, hok, hf, hfold⟩ := h
  have hadopted := (sch.liveFold_end num fields site rows runId runStarted hok hf).2
  rw [finishFold] at hfold
  split at hfold
  · cases hfold
  · rw [← Option.some.inj hfold, List.map_map]
    refine congrArg summedGeneration (List.map_congr_left fun r _ => ?_)
    rw [Function.comp, held, hadopted, lastSeen]

omit [DecidableEq N] [DecidableEq V] [Inhabited V] in
/-- The consequence for every later state is decided when the fold ends. -/
theorem present_iff (hnewer : sch.NewerAfter (readersOf rows) (foldReads fields site rows).length) :
    (∀ t, (foldReads fields site rows).length ≤ t →
      summedGeneration ((readersOf rows).map fun r => (sch.standingAt t r).key) =
        summedGeneration
          ((readersOf rows).map fun r => (sch.lastSeen (foldReads fields site rows) r).key) →
      sch.Present (foldReads fields site rows) t) ↔
    sch.Present (foldReads fields site rows) (foldReads fields site rows).length ∨
      summedGeneration ((readersOf rows).map fun r =>
          (sch.standingAt (foldReads fields site rows).length r).key) ≠
        summedGeneration
          ((readersOf rows).map fun r => (sch.lastSeen (foldReads fields site rows) r).key) := by
  set qs := foldReads fields site rows with hqs
  constructor
  · intro h
    by_cases hsum : summedGeneration
        ((readersOf rows).map fun r => (sch.standingAt qs.length r).key) =
        summedGeneration ((readersOf rows).map fun r => (sch.lastSeen qs r).key)
    · exact .inl (h qs.length (Nat.le_refl _) hsum)
    · exact .inr hsum
  · intro h t ht hsum
    have hsame : ∀ r ∈ readersOf rows, sch.standing t r = sch.standing qs.length r := by
      intro r hr
      refine (hnewer t ht r hr).resolve_right fun hnew => ?_
      have hne := summed_ne_of_newer ((readersOf rows).map (sch.lastSeen qs))
        (List.mem_map_of_mem (f := sch.standingAt t) hr) hnew fun s hs => by
          obtain ⟨r', hr', rfl⟩ := List.mem_map.mp hs
          exact sch.seen_lastSeen qs hr'
      rw [List.map_map, List.map_map] at hne
      exact hne hsum
    have hstands : ∀ r ∈ readersOf rows, sch.standingAt t r = sch.standingAt qs.length r :=
      fun r hr => congrArg (sch.column r) (hsame r hr)
    have hpresent : sch.Present qs qs.length := by
      refine h.resolve_right fun hne => hne ?_
      rw [← hsum]
      exact congrArg summedGeneration
        (List.map_congr_left fun r hr => by rw [hstands r hr])
    intro i q hq
    have hreader := reader_mem_of_mem_foldReads (List.mem_of_getElem? hq)
    rw [hpresent i q hq, answers, answers, hstands q.reader hreader]

/-- A fold's arrays of one column are all of the generation it records exactly when no
replacement falls between two of its reads that find their array. When what replaces a
column after the fold is newer, a recorded triple that is the standing columns', now or
later, tells that every read found what they hold exactly when the reads found what
stands as the fold ends, or the columns standing then sum up to another triple than the
columns as they were seen last. The slabs are the fold of the columns the reads found. -/
theorem oneGeneration_iff_undisturbed {fold : Folded V N R}
    (h : sch.Records num fields site rows runId runStarted fold) :
    let reads := foldReads fields site rows
    let standingSum := fun t =>
      summedGeneration ((readersOf rows).map fun r => (sch.standingAt t r).key)
    (OneGeneration (sch.liveFold num fields site rows runId runStarted).2 ↔
      sch.Undisturbed reads) ∧
    (sch.NewerAfter (readersOf rows) reads.length →
      ((∀ t, reads.length ≤ t → standingSum t = fold.generation → sch.Present reads t) ↔
        sch.Present reads reads.length ∨ standingSum reads.length ≠
          summedGeneration ((readersOf rows).map fun r => (sch.lastSeen reads r).key))) ∧
    ∀ t, sch.Present reads t →
      ReadProg.run (answers (sch.standingAt t)) (foldSlabs num fields site rows) =
        .ok (fold.slabs, fold.sourceChildren) := by
  have hgen := Records.generation_eq sch num fields site rows runId runStarted h
  obtain ⟨out, hok, hf, hfold⟩ := h
  refine ⟨sch.oneGeneration_iff num fields site rows runId runStarted hok hf, fun hnewer => ?_,
    fun t hpresent => ?_⟩
  · rw [hgen]
    exact sch.present_iff fields site rows hnewer
  · have hout : fold.slabs = out.1 ∧ fold.sourceChildren = out.2 := by
      rw [finishFold] at hfold
      split at hfold
      · cases hfold
      · rw [← Option.some.inj hfold]
        exact ⟨rfl, rfl⟩
    rw [hout.1, hout.2]
    exact sch.liveFold_present num fields site rows runId runStarted hok hf hpresent

end Fold

end Schedule

section Examples

/-- Two fields of sums, read one after the other. -/
def twoSums : Fields Nat Nat := [(0, .exact natDtype .sum 0), (1, .exact natDtype .sum 0)]

/-- Generation `g` of one leaf column holds `g + 1` in every cell of every field. -/
def counting (g : Nat) : StoredColumn Nat Nat Nat where
  stamp := ⟨⟨g, none⟩, 1, none⟩
  generation := none
  arrays _
    | .exact _ => some fun _ => g + 1
    | .digest _ => none
    | .sibling _ _ => none
    | .packed _ => none

/-- The leaf column is rewritten after `n` reads of the fold. -/
def rewritten (n : Nat) : Schedule Unit Nat Nat Nat where
  column _ := counting
  opened _ := 0
  standing t _ := if t < n then 0 else 1
  opened_le _ := Nat.zero_le _
  standing_le t _ := by
    split
    · exact Nat.zero_le _
    · rw [if_neg (by omega)]

/-- One cell of the parent's level, gathered from its one child. -/
def oneChild : LevelSite := ⟨0, 1, 1, 1, false⟩

/-- Two leaf columns, read one after the other by two reads each. The second one is
rewritten before its first read, the first one, later, after its last. -/
def rewrittenApart : Schedule Bool Nat Nat Nat where
  column second g := counting (if second = true then g else 2 * g)
  opened _ := 0
  standing t _ := if t < 2 then 0 else 1
  opened_le _ := Nat.zero_le _
  standing_le t _ := by
    split
    · exact Nat.zero_le _
    · rw [if_neg (by omega)]

theorem rewrittenApart_stamps (second : Bool) :
    Monotone fun g => (rewrittenApart.column second g).stamp.writtenAt := by
  intro g g' hg
  cases second with
  | false => exact Nat.mul_le_mul_left 2 hg
  | true => exact hg

/-- Neither rewrite mixes generations, and the recorded triple is never again that of the
standing columns. -/
theorem oneGeneration_rewritten_apart :
    ∃ fold, rewrittenApart.Records smallNumerics twoSums oneChild
        [some [.reader false], some [.reader true]] 0 0 fold ∧
      Schedule.OneGeneration (rewrittenApart.liveFold smallNumerics twoSums oneChild
        [some [.reader false], some [.reader true]] 0 0).2 ∧
      fold.slabs (.exact 0) 1 = (2 : Nat) ∧
      ∀ t, 4 ≤ t → summedGeneration
          ([false, true].map fun r => (rewrittenApart.standingAt t r).key) = fold.generation →
        rewrittenApart.Present
          (foldReads twoSums oneChild [some [.reader false], some [.reader true]]) t := by
  let rows : Rows Bool := [some [.reader false], some [.reader true]]
  have hrecords : rewrittenApart.Records smallNumerics twoSums oneChild rows 0 0 _ :=
    ⟨_, rfl, rfl, rfl⟩
  obtain ⟨hone, hlater, -⟩ := rewrittenApart.oneGeneration_iff_undisturbed smallNumerics twoSums
    oneChild rows 0 0 hrecords
  have hbefore : ∀ t r, t < 2 → rewrittenApart.standing t r = 0 := fun t r ht => if_pos ht
  have hafter : ∀ t r, 2 ≤ t → rewrittenApart.standing t r = 1 := fun t r ht =>
    if_neg (Nat.not_lt.mpr ht)
  -- the first column is read before the rewrites, the second one after them
  have hside : ∀ r i, rewrittenApart.FoundAt (foldReads twoSums oneChild rows) i r →
      (r = false ∧ i < 2) ∨ (r = true ∧ 2 ≤ i) := by
    rintro r i ⟨q, hq, rfl, -⟩
    have hi : i < 4 := (List.getElem?_eq_some_iff.mp hq).1
    interval_cases i <;> obtain rfl := Option.some.inj hq <;> decide
  refine ⟨_, hrecords, hone.mpr ⟨fun r i j hi hj t ht htj => ?_, fun r i hi => ?_⟩, rfl, ?_⟩
  · rcases hside r i hi with ⟨rfl, -⟩ | ⟨rfl, h2⟩
    · rcases hside false j hj with ⟨-, hj2⟩ | ⟨hr, -⟩
      · rw [hbefore t _ (by omega), hbefore (t + 1) _ (by omega)]
      · cases hr
    · rw [hafter t _ (by omega), hafter (t + 1) _ (by omega)]
  · rcases hside r i hi with ⟨rfl, h2⟩ | ⟨rfl, h2⟩
    · exact .inl (hbefore i false h2)
    · rw [hafter i true h2]
      exact .inr (by decide)
  · refine (hlater fun t ht r _ => .inl ?_).mpr (.inr ?_)
    · have ht : 4 ≤ t := ht
      rw [hafter t r (by omega)]
      rfl
    · exact (rewrittenApart.summed_lastSeen_ne_iff _ (fun r g => by cases r <;> exact ⟨rfl, rfl⟩)
        rewrittenApart_stamps).mpr ⟨false, .head _, by decide⟩

/-- The first field is folded from the old column and the second from the new one, whose
generation is recorded; the new column still stands, and its own fold differs. -/
theorem mixed_generations :
    ¬Schedule.OneGeneration ((rewritten 1).liveFold smallNumerics twoSums oneChild
        [some [.reader ()]] 0 0).2 ∧
      (∃ fold, (rewritten 1).Records smallNumerics twoSums oneChild [some [.reader ()]] 0 0 fold ∧
        fold.generation = summedGeneration [(counting 1).key] ∧
        fold.slabs (.exact 0) 0 = (1 : Nat)) ∧
      ∃ out, ReadProg.run (answers fun _ => counting 1)
          (foldSlabs smallNumerics twoSums oneChild [some [.reader ()]]) = .ok out ∧
        out.1 (.exact 0) 0 = (2 : Nat) := by
  refine ⟨?_, ⟨_, ⟨_, rfl, rfl, rfl⟩, ?_, ?_⟩, _, rfl, ?_⟩
  · intro h
    exact absurd (h _ (.head _)) (by decide)
  · decide
  · rfl
  · rfl

end Examples

end Zagg.Stage
