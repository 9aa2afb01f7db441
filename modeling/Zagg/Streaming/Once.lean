import Zagg.Streaming.Aggregator

/-!
# Every row once

As long as no digest step of a flush raises, a flush folds its whole buffer or none of
it: a failed grouping leaves the running state alone, and the buffer is either folded
by the next flush or was emptied by the arrow carrier. So every field has taken the
same rows (`once_of_quiet`). A digest step that raises midway leaves counts without
digests, and the same buffer for the next flush.
-/
namespace Zagg.Streaming

open Zagg.Lib Zagg.Stats Zagg.Processing

variable {κ ρ : Type} [LinearOrder κ] {num : Numerics} {cfg : Config κ ρ}

section Fields
variable {cols : Columns Value} {rows : List ρ} {r : κ × Nat × Nat}

/-- More digest steps than `n` are left before the one that raises. -/
def Ample (n : Nat) (left : Option Nat) : Prop := ∀ k, left = some k → n ≤ k

omit [LinearOrder κ] in
theorem ample_later {m n : Nat} {left : Option Nat} (h : Ample (m + n) left) :
    Ample n (left.map (· - m)) := by
  intro k hk
  obtain ⟨j, hj, rfl⟩ := Option.map_eq_some_iff.mp hk
  have := h j hj
  omega

/-- What a digest step stores for the cell. -/
def mergedDigest (num : Numerics) (cols : Columns Value) (r : κ × Nat × Nat)
    (s : Aggregator κ ρ) (f : DigestField) : Digest :=
  let fresh := buildTdigest num f.delta [] (slice ((cols.lookup f.source).getD []) r.2.1 r.2.2) []
  match (s.digests f.name).lookup r.1 with
  | none => fresh.digest
  | some held => (mergeTdigests num f.delta [] ⟨held, []⟩ fresh).digest

variable (num cols rows r) in
/-- A digest step that does not raise. -/
theorem foldField_of_ample {a : Folding κ ρ} (hok : a.ok = true) {n : Nat}
    (h : Ample (1 + n) a.left) (f : DigestField) :
    foldField num cols rows r a f =
      ⟨{ a.state with
          digests := Function.update a.state.digests f.name
            (put r.1 (mergedDigest num cols r a.state f) (a.state.digests f.name))
          foldedDigest := Function.update a.state.foldedDigest f.name
            (a.state.foldedDigest f.name ++ slice rows r.2.1 r.2.2) },
        a.left.map (· - 1), true⟩ := by
  unfold foldField
  rw [if_pos hok]
  match hl : a.left with
  | none => rw [← hok]; rfl
  | some 0 => exact absurd (h 0 hl) (by omega)
  | some (k + 1) => rw [← hok]; rfl

variable (num cols rows r) in
/-- The digest steps of one cell: every field gains the cell's digest and rows, and
nothing else moves. -/
theorem foldFields_spec (fs : List DigestField) (hn : (fs.map DigestField.name).Nodup)
    {a : Folding κ ρ} (hok : a.ok = true) (h : Ample fs.length a.left) :
    let t := fs.foldl (foldField num cols rows r) a
    t.ok = true ∧ t.left = a.left.map (· - fs.length) ∧
      t.state = { a.state with
        digests := t.state.digests, foldedDigest := t.state.foldedDigest } ∧
      (∀ f ∈ fs, t.state.digests f.name =
          put r.1 (mergedDigest num cols r a.state f) (a.state.digests f.name) ∧
        t.state.foldedDigest f.name =
          a.state.foldedDigest f.name ++ slice rows r.2.1 r.2.2) ∧
      ∀ name ∉ fs.map DigestField.name, t.state.digests name = a.state.digests name ∧
        t.state.foldedDigest name = a.state.foldedDigest name := by
  induction fs generalizing a with
  | nil =>
    refine ⟨hok, ?_, rfl, nofun, fun _ _ => ⟨rfl, rfl⟩⟩
    simp only [List.foldl_nil, List.length_nil, Nat.sub_zero, Option.map_id']
  | cons f fs ih =>
    rw [List.map_cons, List.nodup_cons] at hn
    have h1 : Ample (1 + fs.length) a.left := by
      rw [Nat.add_comm]
      exact h
    have hstep := foldField_of_ample num cols rows r hok h1 f
    rw [List.foldl_cons, hstep]
    obtain ⟨hok', hleft, hframe, hin, hout⟩ := ih hn.2
      (a := ⟨{ a.state with
          digests := Function.update a.state.digests f.name
            (put r.1 (mergedDigest num cols r a.state f) (a.state.digests f.name))
          foldedDigest := Function.update a.state.foldedDigest f.name
            (a.state.foldedDigest f.name ++ slice rows r.2.1 r.2.2) },
        a.left.map (· - 1), true⟩) rfl (ample_later h1)
    refine ⟨hok', ?_, hframe, fun g hg => ?_, fun name hname => ?_⟩
    · rw [hleft]
      cases a.left with
      | none => rfl
      | some k => exact congrArg some (by simp only [List.length_cons]; omega)
    · rcases List.mem_cons.mp hg with rfl | hg
      · obtain ⟨hd, hl⟩ := hout g.name hn.1
        exact ⟨hd.trans (Function.update_self ..), hl.trans (Function.update_self ..)⟩
      · have hne : g.name ≠ f.name := fun he => hn.1 (he ▸ List.mem_map_of_mem hg)
        obtain ⟨hd, hl⟩ := hin g hg
        have hmerged : mergedDigest num cols r { a.state with
            digests := Function.update a.state.digests f.name
              (put r.1 (mergedDigest num cols r a.state f) (a.state.digests f.name))
            foldedDigest := Function.update a.state.foldedDigest f.name
              (a.state.foldedDigest f.name ++ slice rows r.2.1 r.2.2) } g =
            mergedDigest num cols r a.state g := by
          simp only [mergedDigest, Function.update_of_ne hne]
        rw [hmerged] at hd
        dsimp only at hd hl
        rw [Function.update_of_ne hne] at hd hl
        exact ⟨hd, hl⟩
    · rw [List.map_cons, List.mem_cons, not_or] at hname
      obtain ⟨hd, hl⟩ := hout name hname.2
      exact ⟨hd.trans (Function.update_of_ne hname.1 ..), hl.trans (Function.update_of_ne hname.1 ..)⟩

end Fields

/-- The running state is that of one list of rows, in every field. -/
structure Tallied (cfg : Config κ ρ) (s : Aggregator κ ρ) : Prop where
  logs : ∀ f ∈ cfg.digestFields, s.foldedDigest f.name = s.foldedCount
  counts : ∀ c, s.counts.lookup c =
    if rowsAt cfg.cell s.foldedCount c = [] then none else some (rowsAt cfg.cell s.foldedCount c).length
  total : (s.counts.map Prod.snd).sum = s.foldedCount.length
  digests : ∀ f ∈ cfg.digestFields, ∀ c, Counts ((digestAt s f c).map Centroid.weight)
    (finiteCount (valuesAt cfg s.foldedCount f.source c))

variable (cfg) in
theorem finiteCount_le (rows : List ρ) (source : String) (c : κ) :
    finiteCount (valuesAt cfg rows source c) ≤ (rowsAt cfg.cell rows c).length := by
  refine List.countP_le_length.trans_eq ?_
  rw [valuesAt, List.length_map]

theorem valuesAt_append (rows rows' : List ρ) (source : String) (c : κ) :
    valuesAt cfg (rows ++ rows') source c =
      valuesAt cfg rows source c ++ valuesAt cfg rows' source c := by
  rw [valuesAt, rowsAt_append, List.map_append]
  rfl

/-- A group of the sorted rows: all of one cell, and not empty. -/
structure Group (cfg : Config κ ρ) (rows : List ρ) (r : κ × Nat × Nat) : Prop where
  lt : r.2.1 < r.2.2
  le : r.2.2 ≤ rows.length
  cell : ∀ x ∈ slice rows r.2.1 r.2.2, cfg.cell x = r.1

theorem Group.rowsAt_self {rows : List ρ} {r : κ × Nat × Nat} (h : Group cfg rows r) :
    rowsAt cfg.cell (slice rows r.2.1 r.2.2) r.1 = slice rows r.2.1 r.2.2 :=
  List.filter_eq_self.mpr fun x hx => decide_eq_true (h.cell x hx)

theorem Group.rowsAt_of_ne {rows : List ρ} {r : κ × Nat × Nat} (h : Group cfg rows r) {c : κ}
    (hc : c ≠ r.1) : rowsAt cfg.cell (slice rows r.2.1 r.2.2) c = [] :=
  List.filter_eq_nil_iff.mpr fun x hx he => hc ((of_decide_eq_true he).symm.trans (h.cell x hx))

omit [LinearOrder κ] in
theorem Group.length {rows : List ρ} {r : κ × Nat × Nat} (h : Group cfg rows r) :
    (slice rows r.2.1 r.2.2).length = r.2.2 - r.2.1 := length_slice h.le

/-- Folding one cell's group tallies its rows. -/
theorem Tallied.foldCell (hnum : ExactCounts num) {rows : List ρ} {r : κ × Nat × Nat}
    (hr : Group cfg rows r) {a : Folding κ ρ} (hok : a.ok = true)
    (hample : Ample cfg.digestFields.length a.left) (h : Tallied cfg a.state)
    (hfit : ∀ c, (rowsAt cfg.cell (a.state.foldedCount ++ slice rows r.2.1 r.2.2) c).length ≤ maxExact) :
    let t := foldCell num cfg (table cfg.names cfg.val rows) rows a r
    t.ok = true ∧ t.left = a.left.map (· - cfg.digestFields.length) ∧
      t.state.foldedCount = a.state.foldedCount ++ slice rows r.2.1 r.2.2 ∧
      t.state.nObsTotal = a.state.nObsTotal ∧ Tallied cfg t.state := by
  have hlen := hr.length
  have hlt := hr.lt
  dsimp only [Streaming.foldCell]
  rw [if_pos hok]
  obtain ⟨hok', hleft, hframe, hin, -⟩ := foldFields_spec num
    (table cfg.names cfg.val rows) rows r cfg.digestFields cfg.nodup
    (a := { a with state := { a.state with
      counts := put r.1 ((a.state.counts.lookup r.1).getD 0 + (r.2.2 - r.2.1)) a.state.counts
      foldedCount := a.state.foldedCount ++ slice rows r.2.1 r.2.2 } }) hok hample
  generalize cfg.digestFields.foldl _ _ = t at hok' hleft hframe hin ⊢
  have hcounts : t.state.counts =
      put r.1 ((a.state.counts.lookup r.1).getD 0 + (r.2.2 - r.2.1)) a.state.counts := by
    rw [hframe]
  have hfolded : t.state.foldedCount = a.state.foldedCount ++ slice rows r.2.1 r.2.2 := by
    rw [hframe]
  refine ⟨hok', hleft, hfolded, by rw [hframe], ⟨fun f hf => ?_, fun c => ?_, ?_, fun f hf c => ?_⟩⟩
  · rw [(hin f hf).2, hfolded]
    exact congrArg (· ++ _) (h.logs f hf)
  · rw [hcounts, hfolded, rowsAt_append, lookup_put]
    by_cases hc : c = r.1
    · subst hc
      have hne : rowsAt cfg.cell a.state.foldedCount r.1 ++ slice rows r.2.1 r.2.2 ≠ [] := by
        intro hnil
        have hzero := congrArg List.length (List.append_eq_nil_iff.mp hnil).2
        rw [hlen, List.length_nil] at hzero
        omega
      rw [hr.rowsAt_self, if_pos rfl, if_neg hne, h.counts r.1, List.length_append, hlen]
      split_ifs with hnil
      · rw [hnil]
        rfl
      · rfl
    · rw [hr.rowsAt_of_ne hc, List.append_nil, if_neg hc]
      exact h.counts c
  · have hsum := sum_put r.1 ((a.state.counts.lookup r.1).getD 0 + (r.2.2 - r.2.1)) a.state.counts
    rw [hcounts, hfolded, List.length_append, hlen, ← h.total]
    omega
  · have hvalues : slice ((table cfg.names cfg.val rows).lookup f.source |>.getD []) r.2.1 r.2.2 =
        valuesAt cfg (slice rows r.2.1 r.2.2) f.source r.1 := by
      rw [lookup_table cfg.val rows (cfg.source_mem f hf), Option.getD_some, slice_map, valuesAt,
        hr.rowsAt_self]
    rw [hfolded, valuesAt_append, finiteCount, List.countP_append]
    by_cases hc : c = r.1
    · subst hc
      have hbound : finiteCount (valuesAt cfg a.state.foldedCount f.source r.1) +
          finiteCount (valuesAt cfg (slice rows r.2.1 r.2.2) f.source r.1) ≤ maxExact := by
        have h1 := finiteCount_le cfg
          (a.state.foldedCount ++ slice rows r.2.1 r.2.2) f.source r.1
        rw [valuesAt_append, finiteCount, List.countP_append] at h1
        exact h1.trans (hfit r.1)
      have hheld := h.digests f hf r.1
      have hfresh := counts_buildTdigest hnum f.delta []
        (valuesAt cfg (slice rows r.2.1 r.2.2) f.source r.1) [] (by omega)
      rw [digestAt, (hin f hf).1, lookup_put_self, Option.getD_some, mergedDigest, hvalues]
      rw [digestAt] at hheld
      dsimp only
      cases hl : (a.state.digests f.name).lookup r.1 with
      | none =>
        rw [hl] at hheld
        have hzero : finiteCount (valuesAt cfg a.state.foldedCount f.source r.1) = 0 := by
          have hsum := hheld.sum
          exact Nat.cast_eq_zero.mp hsum.symm
        rw [finiteCount] at hzero
        rw [hzero, Nat.zero_add]
        exact hfresh
      | some held =>
        rw [hl] at hheld
        exact counts_mergeTdigests hnum f.delta [] (p := ⟨held, []⟩) hheld hfresh hbound
    · have hnone : valuesAt cfg (slice rows r.2.1 r.2.2) f.source c = [] := by
        rw [valuesAt, hr.rowsAt_of_ne hc]
        rfl
      rw [hnone, List.countP_nil, Nat.add_zero, digestAt, (hin f hf).1, lookup_put_of_ne hc]
      exact h.digests f hf c

/-- Folding the groups of a flush one after another. -/
theorem Tallied.foldGroups (hnum : ExactCounts num) {rows : List ρ} (rs : List (κ × Nat × Nat))
    (hrs : ∀ r ∈ rs, Group cfg rows r) {a : Folding κ ρ} (hok : a.ok = true)
    (hample : Ample (rs.length * cfg.digestFields.length) a.left) (h : Tallied cfg a.state)
    (hfit : ∀ c, (rowsAt cfg.cell (a.state.foldedCount ++
      rs.flatMap fun r => slice rows r.2.1 r.2.2) c).length ≤ maxExact) :
    let t := rs.foldl (Streaming.foldCell num cfg (table cfg.names cfg.val rows) rows) a
    t.ok = true ∧
      t.state.foldedCount = a.state.foldedCount ++ rs.flatMap (fun r => slice rows r.2.1 r.2.2) ∧
      t.state.nObsTotal = a.state.nObsTotal ∧ Tallied cfg t.state := by
  induction rs generalizing a with
  | nil => exact ⟨hok, (List.append_nil _).symm, rfl, h⟩
  | cons r rs ih =>
    have hsteps : (r :: rs).length * cfg.digestFields.length =
        cfg.digestFields.length + rs.length * cfg.digestFields.length := by
      rw [List.length_cons, Nat.add_mul, Nat.one_mul, Nat.add_comm]
    rw [hsteps] at hample
    rw [List.flatMap_cons, ← List.append_assoc] at hfit ⊢
    have hfirst : ∀ c, (rowsAt cfg.cell (a.state.foldedCount ++ slice rows r.2.1 r.2.2) c).length ≤
        maxExact := by
      intro c
      have hc := hfit c
      rw [rowsAt_append, List.length_append] at hc
      omega
    obtain ⟨hok', hleft, hfolded, hobs, htallied⟩ := Tallied.foldCell hnum (hrs r (.head _)) hok
      (fun k hk => (Nat.le_add_right ..).trans (hample k hk)) h hfirst
    have hrest := ih (fun r' hr' => hrs r' (.tail _ hr')) hok' (hleft ▸ ample_later hample)
      htallied (hfolded ▸ hfit)
    obtain ⟨h1, h2, h3, h4⟩ := hrest
    exact ⟨h1, h2.trans (congrArg (· ++ _) hfolded), h3.trans hobs, h4⟩

/-- The groups of a flush. -/
theorem group_of_mem {rows : List ρ} {r : κ × Nat × Nat}
    (hr : r ∈ runs ((sortRows cfg.cell rows).map cfg.cell)) :
    Group cfg (sortRows cfg.cell rows) r where
  lt := (run_spec hr).1
  le := (run_spec hr).2.1.trans_eq (List.length_map _)
  cell x hx := by
    rw [slice_sortRows hr] at hx
    exact of_decide_eq_true (List.mem_filter.mp hx).2

/-- What holds between flushes: the fields agree, and the total is theirs. -/
structure Kept (cfg : Config κ ρ) (s : Aggregator κ ρ) : Prop where
  tallied : Tallied cfg s
  nObsTotal : s.nObsTotal = s.foldedCount.length

theorem Tallied.congr {s t : Aggregator κ ρ} (h : Tallied cfg s) (hc : t.counts = s.counts)
    (hd : t.digests = s.digests) (hf : t.foldedCount = s.foldedCount)
    (hl : t.foldedDigest = s.foldedDigest) : Tallied cfg t := by
  refine ⟨?_, ?_, ?_, ?_⟩
  · rw [hl, hf]
    exact h.logs
  · rw [hc, hf]
    exact h.counts
  · rw [hc, hf]
    exact h.total
  · intro f hf' c
    rw [digestAt, hd, hf]
    exact h.digests f hf' c

/-- The rows that are folded or still queued. -/
def held (s : Aggregator κ ρ) : List ρ := s.foldedCount ++ s.buffer.flatten

/-- What comes in and what the arrow carrier drops with a failed grouping. -/
def Moved (s t : Aggregator κ ρ) (added lost : List ρ) : Prop :=
  (held t ++ lost).Perm (held s ++ added)

open scoped List in
omit [LinearOrder κ] in
theorem Moved.trans {s t u : Aggregator κ ρ} {added added' lost lost' : List ρ}
    (h : Moved s t added lost) (h' : Moved t u added' lost') :
    Moved s u (added ++ added') (lost ++ lost') := by
  have hcomm : (held t ++ (added' ++ lost)).Perm (held t ++ (lost ++ added')) :=
    List.perm_append_comm.append_left _
  unfold Moved at h h' ⊢
  calc held u ++ (lost ++ lost')
      ~ held u ++ (lost' ++ lost) := List.perm_append_comm.append_left _
    _ = held u ++ lost' ++ lost := (List.append_assoc ..).symm
    _ ~ held t ++ added' ++ lost := h'.append_right _
    _ = held t ++ (added' ++ lost) := List.append_assoc ..
    _ ~ held t ++ (lost ++ added') := hcomm
    _ = held t ++ lost ++ added' := (List.append_assoc ..).symm
    _ ~ held s ++ added ++ added' := h.append_right _
    _ = held s ++ (added ++ added') := List.append_assoc ..

variable (cfg) in
theorem emptied_frame (s : Aggregator κ ρ) :
    (∀ n, Tallied cfg s → Tallied cfg { emptied cfg s with nObsTotal := n }) ∧
      (emptied cfg s).foldedCount = s.foldedCount ∧ (emptied cfg s).nObsTotal = s.nObsTotal ∧
      ((emptied cfg s).buffer = s.buffer ∨ (emptied cfg s).buffer = []) := by
  unfold emptied
  cases cfg.handoff with
  | pandas => exact ⟨fun _ h => h.congr rfl rfl rfl rfl, rfl, rfl, .inl rfl⟩
  | arrow => exact ⟨fun _ h => h.congr rfl rfl rfl rfl, rfl, rfl, .inr rfl⟩

/-- The loop over the cells of a flush, when no digest step raises. -/
theorem foldGroups_quiet (hnum : ExactCounts num) {s : Aggregator κ ρ} {left : Option Nat}
    (hample : Ample (digestSteps cfg s.buffer.flatten) left) (h : Kept cfg s)
    (hfit : ∀ c, (rowsAt cfg.cell (held s) c).length ≤ maxExact) :
    let a := foldGroups num cfg s left
    a.ok = true ∧ a.state.foldedCount = s.foldedCount ++ sortRows cfg.cell s.buffer.flatten ∧
      Kept cfg a.state := by
  have hgroup := groupColumns_table cfg.names cfg.val cfg.cell s.buffer.flatten
  have hcols : (concatAndGroup cfg.names cfg.val cfg.cell s.buffer).1 =
      table cfg.names cfg.val (sortRows cfg.cell s.buffer.flatten) := congrArg Prod.fst hgroup
  have hslices : (concatAndGroup cfg.names cfg.val cfg.cell s.buffer).2.1 =
      runs ((sortRows cfg.cell s.buffer.flatten).map cfg.cell) := congrArg Prod.snd hgroup
  have hcover : (runs ((sortRows cfg.cell s.buffer.flatten).map cfg.cell)).flatMap
      (fun r => slice (sortRows cfg.cell s.buffer.flatten) r.2.1 r.2.2) =
      sortRows cfg.cell s.buffer.flatten := flatMap_slice_runs _ _ (List.length_map _).symm
  have hsorted : (sortRows cfg.cell s.buffer.flatten).Perm s.buffer.flatten := sortRows_perm _
  obtain ⟨htallied, hfolded, -, -⟩ := emptied_frame cfg s
  have hfit' : ∀ c, (rowsAt cfg.cell ((emptied cfg s).foldedCount ++
      (runs ((sortRows cfg.cell s.buffer.flatten).map cfg.cell)).flatMap
        fun r => slice (sortRows cfg.cell s.buffer.flatten) r.2.1 r.2.2) c).length ≤ maxExact := by
    intro c
    rw [hcover, hfolded]
    exact ((hsorted.append_left _).filter _).length_eq.trans_le (hfit c)
  unfold foldGroups
  dsimp only
  rw [hcols, hslices]
  obtain ⟨hok, hrows, hcount, hall⟩ := Tallied.foldGroups hnum _ (fun r hr => group_of_mem hr)
    (a := ⟨{ emptied cfg s with nObsTotal := s.nObsTotal + s.buffer.flatten.length }, left, true⟩)
    rfl hample (htallied _ h.tallied) hfit'
  rw [hcover, hfolded] at hrows
  have hlen := congrArg List.length hrows
  rw [List.length_append, hsorted.length_eq, ← h.nObsTotal] at hlen
  exact ⟨hok, hrows, hall, hcount.trans hlen.symm⟩

/-- A flush no digest step of which raises folds its whole buffer, keeps it or drops it. -/
theorem flush_quiet (hnum : ExactCounts num) {s : Aggregator κ ρ} {fault : Option FlushFault}
    (hq : NoDigestRaises cfg s.buffer.flatten fault) (h : Kept cfg s)
    (hfit : ∀ c, (rowsAt cfg.cell (held s) c).length ≤ maxExact) :
    Kept cfg (flush num cfg s fault).1 ∧
      (∃ lost, Moved s (flush num cfg s fault).1 [] lost ∧ (fault = none → lost = [])) ∧
      ((flush num cfg s fault).2 = true → (flush num cfg s fault).1.buffer = []) ∧
      (fault = none → (flush num cfg s fault).2 = true) := by
  unfold flush
  by_cases hempty : s.buffer.isEmpty = true
  · rw [if_pos hempty]
    exact ⟨⟨h.tallied.congr rfl rfl rfl rfl, h.nObsTotal⟩, ⟨[], .refl _, fun _ => rfl⟩,
      fun _ => List.isEmpty_iff.mp hempty, fun _ => rfl⟩
  rw [if_neg hempty]
  -- what the loop over the cells leaves, for the faults that let it run
  have hloop : ∀ left, Ample (digestSteps cfg s.buffer.flatten) left →
      let a := foldGroups num cfg s left
      a.ok = true ∧ Kept cfg { a.state with
        flushes := s.flushes + 1, buffer := [], bufferedGranules := 0 } ∧
      (a.state.foldedCount ++ [] ++ []).Perm (held s ++ []) := by
    intro left hample
    obtain ⟨hok, hrows, hkept⟩ := foldGroups_quiet hnum hample h hfit
    refine ⟨hok, ⟨hkept.tallied.congr rfl rfl rfl rfl, hkept.nObsTotal⟩, ?_⟩
    rw [hrows, List.append_nil, List.append_nil, List.append_nil]
    exact (sortRows_perm _).append_left _
  match fault, hq with
  | none, _ =>
    obtain ⟨hok, hkept, hmoved⟩ := hloop none nofun
    dsimp only
    rw [if_pos hok]
    exact ⟨hkept, ⟨[], hmoved, fun _ => rfl⟩, fun _ => rfl, fun _ => rfl⟩
  | some (.digest before), hq =>
    obtain ⟨hok, hkept, hmoved⟩ := hloop (some before) fun k hk => Option.some.inj hk ▸ hq before rfl
    dsimp only
    rw [if_pos hok]
    exact ⟨hkept, ⟨[], hmoved, nofun⟩, fun _ => rfl, nofun⟩
  | some (.grouping false), _ => exact ⟨h, ⟨[], .refl _, nofun⟩, nofun, nofun⟩
  | some (.grouping true), _ =>
    obtain ⟨htallied, hfolded, hobs, hbuf⟩ := emptied_frame cfg s
    refine ⟨⟨htallied _ h.tallied, hobs.trans (h.nObsTotal.trans (congrArg _ hfolded.symm))⟩,
      ?_, nofun, nofun⟩
    dsimp only
    rcases hbuf with hbuf | hbuf
    · refine ⟨[], ?_, nofun⟩
      rw [Moved, held, held, hfolded, hbuf]
    · refine ⟨s.buffer.flatten, ?_, nofun⟩
      rw [Moved, held, held, hfolded, hbuf, List.flatten_nil, List.append_nil, List.append_nil]

/-- What one step of the loop does, when no digest step of it raises. -/
theorem step_quiet (hnum : ExactCounts num) {s t : Aggregator κ ρ} {a : Action ρ}
    (hs : step num cfg s a = some t) (hq : Quiet cfg s a) (h : Kept cfg s)
    (hfit : ∀ c, (rowsAt cfg.cell (held s ++ a.reads.flatten) c).length ≤ maxExact) :
    Kept cfg t ∧ (∃ lost, Moved s t a.reads.flatten lost ∧ (a.fault = none → lost = [])) ∧
      (∀ fault, a = .drain fault → t.buffer = []) := by
  cases a with
  | granule reads fault =>
    obtain rfl := Option.some.inj hs
    have hadded : Kept cfg { s with
        buffer := s.buffer ++ reads, bufferedGranules := s.bufferedGranules + 1 } :=
      ⟨h.tallied.congr rfl rfl rfl rfl, h.nObsTotal⟩
    have hheld : held { s with
        buffer := s.buffer ++ reads, bufferedGranules := s.bufferedGranules + 1 } =
        held s ++ reads.flatten := by
      rw [held, held, List.flatten_append, List.append_assoc]
    have hmoved : Moved s { s with
        buffer := s.buffer ++ reads, bufferedGranules := s.bufferedGranules + 1 }
        reads.flatten [] := by
      rw [Moved, hheld, List.append_nil]
    unfold granule
    dsimp only
    split_ifs with hfull
    · have hfits : ∀ c, (rowsAt cfg.cell (held { s with
          buffer := s.buffer ++ reads, bufferedGranules := s.bufferedGranules + 1 }) c).length ≤
          maxExact := by
        rw [hheld]
        exact hfit
      have hquiet : NoDigestRaises cfg (s.buffer ++ reads).flatten fault := hq hfull
      have hflush := flush_quiet (s := { s with
        buffer := s.buffer ++ reads, bufferedGranules := s.bufferedGranules + 1 })
        hnum hquiet hadded hfits
      obtain ⟨hkept, ⟨lost, hlost, hnone⟩, -, -⟩ := hflush
      refine ⟨hkept, ⟨lost, ?_, hnone⟩, nofun⟩
      have htrans := hmoved.trans hlost
      rwa [List.append_nil, List.nil_append] at htrans
    · exact ⟨hadded, ⟨[], hmoved, fun _ => rfl⟩, nofun⟩
  | drain fault =>
    have hfits : ∀ c, (rowsAt cfg.cell (held s) c).length ≤ maxExact := by
      intro c
      have hc := hfit c
      rw [rowsAt_append, List.length_append] at hc
      omega
    obtain ⟨hkept, hlost, hbuf, -⟩ := flush_quiet hnum hq h hfits
    simp only [step] at hs
    split at hs
    · next heq =>
      rw [heq] at hkept hlost hbuf
      obtain rfl := Option.some.inj hs
      exact ⟨hkept, hlost, fun _ _ => hbuf rfl⟩
    · cases hs

/-- What a run of the loop does, when no digest step of it raises. -/
theorem exec_quiet (hnum : ExactCounts num) {as : List (Action ρ)} {s t : Aggregator κ ρ}
    (hrun : exec (step num cfg) s as = some t) (h : Kept cfg s)
    (hfit : ∀ c, (rowsAt cfg.cell (held s ++ rowsRead as) c).length ≤ maxExact)
    (hq : Along (step num cfg) (fun s a => decide (Quiet cfg s a)) s as = true) :
    Kept cfg t ∧ (∃ lost, Moved s t (rowsRead as) lost ∧
        ((∀ a ∈ as, a.fault = none) → lost = [])) ∧
      (∀ fault, as.getLast? = some (.drain fault) → t.buffer = []) := by
  induction as generalizing s with
  | nil =>
    obtain rfl := Option.some.inj hrun
    exact ⟨h, ⟨[], .refl _, fun _ => rfl⟩, nofun⟩
  | cons a as ih =>
    simp only [exec] at hrun
    cases hs : step num cfg s a with
    | none => rw [hs] at hrun; cases hrun
    | some s' =>
      rw [hs] at hrun
      simp only [Along, hs, Bool.and_eq_true] at hq
      have hsplit : rowsRead (a :: as) = a.reads.flatten ++ rowsRead as := List.flatten_append
      rw [hsplit] at hfit
      have hfirst : ∀ c, (rowsAt cfg.cell (held s ++ a.reads.flatten) c).length ≤ maxExact := by
        intro c
        have hc := hfit c
        rw [← List.append_assoc, rowsAt_append, List.length_append] at hc
        omega
      obtain ⟨hkept, ⟨lost, hlost, hnone⟩, hlast⟩ :=
        step_quiet hnum hs (of_decide_eq_true hq.1) h hfirst
      -- what is held after the step is part of what was held and read
      have hrest : ∀ c, (rowsAt cfg.cell (held s' ++ rowsRead as) c).length ≤ maxExact := by
        intro c
        have hperm := (hlost.append_right (rowsRead as)).filter fun x => decide (cfg.cell x = c)
        have hlen : (rowsAt cfg.cell (held s' ++ lost ++ rowsRead as) c).length =
            (rowsAt cfg.cell (held s ++ a.reads.flatten ++ rowsRead as) c).length := hperm.length_eq
        have hc := hfit c
        rw [← List.append_assoc] at hc
        rw [rowsAt_append, rowsAt_append, List.length_append, List.length_append] at hlen
        rw [rowsAt_append, List.length_append]
        omega
      obtain ⟨hkept', ⟨lost', hlost', hnone'⟩, hlast'⟩ := ih hrun hkept hrest hq.2
      refine ⟨hkept', ⟨lost ++ lost', ?_, fun hall => ?_⟩, fun fault hf => ?_⟩
      · rw [hsplit]
        exact hlost.trans hlost'
      · rw [hnone (hall a (.head _)), hnone' fun b hb => hall b (.tail _ hb)]
        rfl
      · cases as with
        | nil =>
          obtain rfl := Option.some.inj hrun
          exact hlast fault (Option.some.inj hf)
        | cons b bs =>
          rw [List.getLast?_cons_cons] at hf
          exact hlast' fault hf

/-- The running state that has taken all rows is the pooled one. -/
theorem eqPooled_of_perm (hnum : ExactCounts num) {s : Aggregator κ ρ} (h : Tallied cfg s)
    {reads : List (List ρ)} (hp : s.foldedCount.Perm reads.flatten)
    (hfit : ∀ c, (rowsAt cfg.cell reads.flatten c).length ≤ maxExact) : EqPooled num cfg s reads := by
  have hgroup := groupColumns_table cfg.names cfg.val cfg.cell reads.flatten
  have hcols : (concatAndGroup cfg.names cfg.val cfg.cell reads).1 =
      table cfg.names cfg.val (sortRows cfg.cell reads.flatten) := congrArg Prod.fst hgroup
  have hslices : (concatAndGroup cfg.names cfg.val cfg.cell reads).2.1 =
      runs ((sortRows cfg.cell reads.flatten).map cfg.cell) := congrArg Prod.snd hgroup
  have hrows : ∀ c, (rowsAt cfg.cell s.foldedCount c).Perm (rowsAt cfg.cell reads.flatten c) :=
    fun c => hp.filter _
  refine ⟨fun c => ?_, fun f hf c => ?_⟩
  · rw [h.counts c, pooledCounts, hslices]
    rcases lookup_groups cfg.cell reads.flatten (fun r => r.2.2 - r.2.1) c with
      ⟨hnone, hnil⟩ | ⟨r, hr, rfl, hsome, hslice, hne⟩
    · have hz := hrows c
      rw [hnil] at hz
      rw [hnone, if_pos (List.perm_nil.mp (hnil ▸ hz))]
    · have hlen := (group_of_mem hr).length
      have hz : rowsAt cfg.cell s.foldedCount r.1 ≠ [] := by
        intro hnil
        have hz := hrows r.1
        rw [hnil] at hz
        exact hne (List.nil_perm.mp hz)
      rw [hsome, if_neg hz, (hrows r.1).length_eq, ← hslice, hlen]
  · have hfinite : finiteCount (valuesAt cfg s.foldedCount f.source c) =
        finiteCount (valuesAt cfg reads.flatten f.source c) :=
      ((hrows c).map _).countP_eq _
    rw [Digest.total, (h.digests f hf c).sum, hfinite, pooledDigests, hcols,
      hslices, lookup_table cfg.val _ (cfg.source_mem f hf), Option.getD_some]
    rcases lookup_groups cfg.cell reads.flatten (fun r => (buildTdigest num f.delta []
        (slice ((sortRows cfg.cell reads.flatten).map (cfg.val · f.source)) r.2.1 r.2.2) []).digest) c
      with ⟨hnone, hnil⟩ | ⟨r, -, rfl, hsome, hslice, -⟩
    · rw [hnone, valuesAt, hnil]
      rfl
    · rw [hsome, Option.getD_some, slice_map, hslice]
      have hbound : finiteCount (valuesAt cfg reads.flatten f.source r.1) ≤ maxExact :=
        (finiteCount_le _ _ _ _).trans (hfit r.1)
      exact (counts_buildTdigest hnum f.delta [] _ [] hbound).sum.symm

omit [LinearOrder κ] in
theorem kept_start [LinearOrder κ] : Kept cfg {} where
  tallied := ⟨fun _ _ => rfl, fun _ => rfl, rfl, fun _ _ _ => counts_nil⟩
  nObsTotal := rfl

theorem once_of_kept {s : Aggregator κ ρ} {read : List ρ} (h : Kept cfg s)
    (hsub : s.foldedCount.Subperm read) : Once cfg s read := by
  have hcount : ∀ c, countAt s c = (rowsAt cfg.cell s.foldedCount c).length := by
    intro c
    rw [countAt, h.tallied.counts c]
    split_ifs with hnil
    · rw [hnil]
      rfl
    · rfl
  refine ⟨hsub, fun f hf => .of_eq (h.tallied.logs f hf), hcount, fun f hf c => ?_, ?_⟩
  · have hsplit := List.length_eq_countP_add_countP Option.isSome
      (l := valuesAt cfg s.foldedCount f.source c)
    have hnone : (valuesAt cfg s.foldedCount f.source c).countP (fun v => decide ¬v.isSome = true) =
        (valuesAt cfg s.foldedCount f.source c).countP Option.isNone :=
      List.countP_congr fun v _ => by simp
    have hlen : (valuesAt cfg s.foldedCount f.source c).length =
        (rowsAt cfg.cell s.foldedCount c).length := List.length_map _
    have htotal : (rowsAt cfg.cell s.foldedCount c).length =
        finiteCount (valuesAt cfg s.foldedCount f.source c) +
          (valuesAt cfg s.foldedCount f.source c).countP Option.isNone := by
      rw [← hlen, hsplit, finiteCount]
      exact congrArg _ hnone
    rw [Digest.total, (h.tallied.digests f hf c).sum, hcount c, htotal, Nat.cast_add]
  · rw [h.nObsTotal, h.tallied.total]

/-- A run of the read loop none of whose digest steps raises folds every row at most
once, into all fields or into none; without failures and after the drain it has the
counts and weights of the pooled path. Counts stay exact in a float32. -/
theorem once_of_quiet (num : Numerics) (hnum : ExactCounts num) (cfg : Config κ ρ)
    (as : List (Action ρ)) (s : Aggregator κ ρ) (hrun : exec (step num cfg) {} as = some s)
    (hfit : ∀ c, (rowsAt cfg.cell (rowsRead as) c).length ≤ maxExact)
    (hquiet : Along (step num cfg) (fun s a => decide (Quiet cfg s a)) {} as = true) :
    Once cfg s (rowsRead as) ∧
      ((∀ a ∈ as, a.fault = none) → as.getLast? = some (.drain none) →
        EqPooled num cfg s (as.flatMap Action.reads)) := by
  obtain ⟨hkept, ⟨lost, hlost, hnone⟩, hlast⟩ := exec_quiet hnum hrun kept_start hfit hquiet
  have hmoved : (s.foldedCount ++ s.buffer.flatten ++ lost).Perm (rowsRead as) := hlost
  refine ⟨once_of_kept hkept ?_, fun hall hdrain => ?_⟩
  · rw [List.append_assoc] at hmoved
    exact (List.sublist_append_left ..).subperm.trans hmoved.subperm
  · refine eqPooled_of_perm hnum hkept.tallied ?_ hfit
    rw [hnone hall, hlast none hdrain, List.flatten_nil, List.append_nil, List.append_nil] at hmoved
    exact hmoved

/-- A height with the cell of its photon. -/
abbrev Photon := Nat × Value

/-- One digest of the heights; every granule is flushed. -/
def eachGranule : Config Nat Photon where
  cell := Prod.fst
  names := ["h_li"]
  val x _ := x.2
  digestFields := [⟨"h_tdigest", "h_li", 1⟩]
  handoff := .pandas
  bufferGranules := 1
  nodup := by decide
  source_mem := by decide

/-- Two photons in one granule and one in the next; `fault` strikes the first flush. -/
def twoGranules (fault : Option FlushFault) : List (Action Photon) :=
  [.granule [[(5, some 1), (9, some 2)]] fault, .granule [[(5, none)]] none, .drain none]

theorem exactCounts_smallNumerics : ExactCounts smallNumerics := fun _ _ => rfl

theorem once_of_quiet_twoGranules :
    ∃ s, exec (step smallNumerics eachGranule) {} (twoGranules (some (.grouping true))) = some s ∧
      Once eachGranule s (rowsRead (twoGranules (some (.grouping true)))) := by
  have hrun : (exec (step smallNumerics eachGranule) {}
      (twoGranules (some (.grouping true)))).isSome := by decide +kernel
  obtain ⟨s, hs⟩ := Option.isSome_iff_exists.mp hrun
  have hfit : ∀ c, (rowsAt eachGranule.cell (rowsRead (twoGranules (some (.grouping true)))) c).length ≤
      maxExact := fun c => (List.length_filter_le ..).trans (by decide)
  exact ⟨s, hs, (once_of_quiet smallNumerics exactCounts_smallNumerics eachGranule _ s hs hfit
    (by decide +kernel)).1⟩

/-- The digest of the second cell raises: both counts are taken, the digest of one cell
only, and the next flush folds the same two photons again. -/
theorem not_once_of_raised_digest :
    ∃ s, exec (step smallNumerics eachGranule) {} (twoGranules (some (.digest 1))) = some s ∧
      ¬ Once eachGranule s (rowsRead (twoGranules (some (.digest 1)))) ∧
      s.nObsTotal = 5 ∧ (rowsRead (twoGranules (some (.digest 1)))).length = 3 ∧
      s.counts = [(5, 3), (9, 2)] := by
  have hrun : (exec (step smallNumerics eachGranule) {}
      (twoGranules (some (.digest 1)))).isSome := by decide +kernel
  obtain ⟨s, hs⟩ := Option.isSome_iff_exists.mp hrun
  have hfigures : (exec (step smallNumerics eachGranule) {} (twoGranules (some (.digest 1)))).map
      (fun s => (s.nObsTotal, s.foldedCount.length, s.counts)) =
      some (5, 5, [(5, 3), (9, 2)]) := by decide +kernel
  rw [hs] at hfigures
  obtain ⟨hobs, hrest⟩ := Prod.mk.inj (Option.some.inj hfigures)
  obtain ⟨hfolded, hcounts⟩ := Prod.mk.inj hrest
  refine ⟨s, hs, fun honce => ?_, hobs, rfl, hcounts⟩
  have hle := honce.atMostOnce.length_le
  have hread : (rowsRead (twoGranules (some (.digest 1)))).length = 3 := rfl
  omega

end Zagg.Streaming
