import Zagg.Stage.GatherSpec

/-!
# What a merge computes

Against one store of answers a merge folds, per output cell, the contributions of the
source cells below it in child, window and position order, each class in its own way:
one k-way digest fold, one composition fold unless the cell is poisoned, one dense
fold a window.
-/
namespace Zagg.Stage

open Zagg.Lib Zagg.Stats

variable {χ V N : Type} (f : (q : Query χ N) → Answer V q)

/-- One source cell of a merge: the reader it is read through and where it stands. -/
structure Source (χ : Type) where
  reader : χ
  child : Nat
  window : Nat
  pos : Nat
deriving DecidableEq

/-- The source cells of one slot below output cell `j`. -/
def slotSources (srcPerChild factor j i : Nat) (slot : Slot χ × Nat) : List (Source χ) :=
  match slot.1.reader? with
  | some r => ((List.range srcPerChild).filter fun pos => (i * srcPerChild + pos) / factor = j).map
      fun pos => ⟨r, i, slot.2, pos⟩
  | none => []

def rowSources (srcPerChild factor j : Nat) (row : Option (Row χ) × Nat) : List (Source χ) :=
  (row.1.getD []).zipIdx.flatMap (slotSources srcPerChild factor j row.2)

/-- The source cells below output cell `j`, in the order the merge reads them. -/
def sources (rows : Rows χ) (srcPerChild factor j : Nat) : List (Source χ) :=
  rows.zipIdx.flatMap (rowSources srcPerChild factor j)

theorem rowSources_of_lt {srcPerChild factor j : Nat} (row : Option (Row χ) × Nat)
    (h : j < row.2 * srcPerChild / factor) : rowSources srcPerChild factor j row = [] := by
  rw [rowSources, List.flatMap_eq_nil_iff]
  intro slot _
  rw [slotSources]
  split
  · rw [List.map_eq_nil_iff, List.filter_eq_nil_iff]
    intro pos _
    have hle : row.2 * srcPerChild / factor ≤ (row.2 * srcPerChild + pos) / factor :=
      Nat.div_le_div_right (Nat.le_add_right _ _)
    simp only [decide_eq_true_eq]
    omega
  · rfl

theorem sources_append (rows : Rows χ) (row : Option (Row χ)) (srcPerChild factor j : Nat) :
    sources (rows ++ [row]) srcPerChild factor j =
      sources rows srcPerChild factor j ++ rowSources srcPerChild factor j (row, rows.length) := by
  simp [sources, List.zipIdx_append]

section Digest

def digestAt (r : χ) (res : Nat) (name : N) : Option (Nat → Digest) := f ⟨r, res, .digest name⟩

def siblingAt (r : χ) (res : Nat) (name : N) (c : Channel) : Option (Nat → Words) :=
  f ⟨r, res, .sibling name c⟩

/-- One cell of a group, when its payload is not empty. -/
def groupPart (slab : Nat → Digest) (siblings : List (Nat → Words)) (pos : Nat) : Option Part :=
  if slab pos = [] then none else some ⟨slab pos, siblings.map fun s => s pos⟩

/-- What a source cell adds to a digest cell. -/
def digestOf (res : Nat) (name : N) (declared : List Channel) (s : Source χ) : Option Part :=
  if whole f s.reader res name declared then
    (digestAt f s.reader res name).bind fun slab =>
      groupPart slab
        (declared.map fun c => (siblingAt f s.reader res name c).getD fun _ => []) s.pos
  else none

/-- The digests folded into output cell `j`. -/
def digestParts (rows : Rows χ) (res srcPerChild factor : Nat) (name : N)
    (declared : List Channel) (j : Nat) : List Part :=
  (sources rows srcPerChild factor j).filterMap (digestOf f res name declared)

/-- The contributors the digest loop refuses. -/
def digestBroken (rows : Rows χ) (res : Nat) (name : N) (declared : List Channel) : Broken :=
  rows.zipIdx.flatMap fun row => (row.1.getD []).zipIdx.flatMap fun slot =>
    match slot.1.reader? with
    | some r => if whole f r res name declared then [] else [(row.2, slot.2)]
    | none => []

theorem append_pending (p : OpenCells) (key j : Nat) (part : Part) :
    (p.append key part).pending j = p.pending j ++ if key = j then [part] else [] := by
  by_cases h : key = j
  · subst h
    rw [OpenCells.append, if_pos rfl]
    exact Function.update_self ..
  · rw [OpenCells.append, if_neg h, List.append_nil]
    exact Function.update_of_ne (Ne.symm h) ..

theorem add_succ (p : OpenCells) (base factor n : Nat) (slab : Nat → Digest)
    (siblings : List (Nat → Words)) :
    p.add base factor (n + 1) slab siblings =
      if slab n = [] then p.add base factor n slab siblings
      else (p.add base factor n slab siblings).append ((base + n) / factor)
        ⟨slab n, siblings.map fun s => s n⟩ := by
  rw [OpenCells.add, List.range_succ, List.foldl_append]
  rfl

theorem add_pending (base factor : Nat) (slab : Nat → Digest) (siblings : List (Nat → Words))
    (p : OpenCells) (j n : Nat) :
    (p.add base factor n slab siblings).pending j =
      p.pending j ++ ((List.range n).filter fun pos => (base + pos) / factor = j).filterMap
        (groupPart slab siblings) := by
  induction n with
  | zero => simp [OpenCells.add]
  | succ n ih =>
    rw [add_succ, List.range_succ, List.filter_append, List.filterMap_append, ← List.append_assoc,
      ← ih]
    by_cases hs : slab n = [] <;> by_cases hj : (base + n) / factor = j <;>
      simp [hs, hj, append_pending, groupPart]

theorem add_out (base factor : Nat) (slab : Nat → Digest) (siblings : List (Nat → Words))
    (n : Nat) (p : OpenCells) : (p.add base factor n slab siblings).out = p.out := by
  induction n with
  | zero => rfl
  | succ n ih =>
    rw [add_succ]
    split
    · exact ih
    · exact ih

/-- One contributor appends its digests to the open cells. -/
theorem run_mergeDigestSlot (res srcPerChild factor : Nat) (name : N) (declared : List Channel)
    (i : Nat) (st : OpenCells × Broken) (slot : Slot χ × Nat) :
    ∃ p, ReadProg.run f (mergeDigestSlot res srcPerChild factor name declared i st slot) =
        .ok (p, st.2 ++ match slot.1.reader? with
          | some r => if whole f r res name declared then [] else [(i, slot.2)]
          | none => []) ∧
      p.out = st.1.out ∧ ∀ j, p.pending j = st.1.pending j ++
        (slotSources srcPerChild factor j i slot).filterMap (digestOf f res name declared) := by
  simp only [mergeDigestSlot, slotSources]
  cases slot.1.reader? with
  | none => exact ⟨st.1, by simp, rfl, fun j => by simp⟩
  | some r =>
    simp only [ReadProg.run_bind, run_companionGroup, ReadProg.ok_bind]
    by_cases hw : whole f r res name declared = true
    · have hdig : ∀ pos, digestOf f res name declared ⟨r, i, slot.2, pos⟩ =
          (digestAt f r res name).bind fun slab => groupPart slab
            (declared.map fun c => (siblingAt f r res name c).getD fun _ => []) pos :=
        fun pos => by rw [digestOf, if_pos hw]
      simp only [hw, if_true, List.append_nil]
      cases hslab : digestAt f r res name with
      | none =>
        rw [hslab] at hdig
        rw [digestAt] at hslab
        simp only [hslab]
        refine ⟨st.1, rfl, rfl, fun j => ?_⟩
        simp [List.filterMap_map, hdig]
      | some slab =>
        rw [hslab] at hdig
        rw [digestAt] at hslab
        simp only [hslab]
        refine ⟨_, rfl, add_out .., fun j => ?_⟩
        rw [add_pending, List.filterMap_map, List.map_map]
        refine congrArg _ (List.filterMap_congr fun pos _ => ?_)
        exact (hdig pos).symm
    · have hdig : ∀ pos, digestOf f res name declared ⟨r, i, slot.2, pos⟩ = none :=
        fun pos => by rw [digestOf, if_neg hw]
      simp only [hw, if_false, Bool.false_eq_true]
      refine ⟨st.1, rfl, rfl, fun j => ?_⟩
      simp [List.filterMap_map, hdig]

/-- The slots of one child append their digests in window order. -/
theorem run_mergeDigestSlots (res srcPerChild factor : Nat) (name : N) (declared : List Channel)
    (i : Nat) (slots : List (Slot χ × Nat)) : ∀ st : OpenCells × Broken,
    ∃ p, slots.foldlM (fun st slot =>
        ReadProg.run f (mergeDigestSlot res srcPerChild factor name declared i st slot)) st =
        .ok (p, st.2 ++ slots.flatMap fun slot => match slot.1.reader? with
          | some r => if whole f r res name declared then [] else [(i, slot.2)]
          | none => []) ∧
      p.out = st.1.out ∧ ∀ j, p.pending j = st.1.pending j ++
        (slots.flatMap (slotSources srcPerChild factor j i)).filterMap
          (digestOf f res name declared) := by
  induction slots with
  | nil => exact fun st => ⟨st.1, by simp; rfl, rfl, fun j => by simp⟩
  | cons slot slots ih =>
    intro st
    obtain ⟨p, hp, hout, hpend⟩ := run_mergeDigestSlot f res srcPerChild factor name declared i st slot
    obtain ⟨p', hp', hout', hpend'⟩ := ih (p, st.2 ++ match slot.1.reader? with
      | some r => if whole f r res name declared then [] else [(i, slot.2)]
      | none => [])
    refine ⟨p', ?_, hout'.trans hout, fun j => ?_⟩
    · rw [List.foldlM_cons, hp, ReadProg.ok_bind, hp', List.flatMap_cons, List.append_assoc]
    · rw [hpend', hpend, List.flatMap_cons, List.filterMap_append, List.append_assoc]

variable (num : Numerics) (delta : Nat) (declared : List Channel)

theorem close_ok {cells : List Nat} (hnd : cells.Nodup) : ∀ {p p' : OpenCells},
    p.close num delta declared cells = .ok p' →
    (∀ j ∈ cells, foldDigests num delta declared (p.pending j) = .ok (p'.out j) ∧
      p'.pending j = []) ∧
    ∀ j ∉ cells, p'.pending j = p.pending j ∧ p'.out j = p.out j := by
  induction cells with
  | nil =>
    intro p p' h
    obtain rfl := Except.ok.inj h
    exact ⟨fun j hj => (nomatch hj), fun _ _ => ⟨rfl, rfl⟩⟩
  | cons c cells ih =>
    intro p p' h
    obtain ⟨hc, hnd⟩ := List.nodup_cons.mp hnd
    rw [OpenCells.close, List.foldlM_cons] at h
    cases hv : foldDigests num delta declared (p.pending c) with
    | error msg => rw [hv] at h; cases h
    | ok v =>
      rw [hv] at h
      obtain ⟨hin, hout⟩ := ih hnd h
      have hself := hout c hc
      simp only [Function.update_self] at hself
      refine ⟨fun j hj => ?_, fun j hj => ?_⟩
      · rcases List.mem_cons.mp hj with rfl | hj
        · exact ⟨by rw [hself.2, hv], hself.1⟩
        · have hne : j ≠ c := fun he => hc (he ▸ hj)
          have := hin j hj
          simpa only [Function.update_of_ne hne] using this
      · have hne : j ≠ c := fun he => hj (he ▸ List.mem_cons_self ..)
        have := hout j fun h => hj (List.mem_cons_of_mem _ h)
        simpa only [Function.update_of_ne hne] using this

theorem close_total {cells : List Nat} (hnd : cells.Nodup) : ∀ {p : OpenCells},
    (∀ j ∈ cells, ∃ v, foldDigests num delta declared (p.pending j) = .ok v) →
    ∃ p', p.close num delta declared cells = .ok p' := by
  induction cells with
  | nil => exact fun _ => ⟨_, rfl⟩
  | cons c cells ih =>
    intro p h
    obtain ⟨hc, hnd⟩ := List.nodup_cons.mp hnd
    obtain ⟨v, hv⟩ := h c (.head _)
    rw [OpenCells.close, List.foldlM_cons, hv]
    refine ih hnd fun j hj => ?_
    have hne : j ≠ c := fun he => hc (he ▸ hj)
    have := h j (.tail _ hj)
    simpa only [Function.update_of_ne hne] using this

theorem below_nodup (p : OpenCells) (nOut done : Nat) : (p.below nOut done).Nodup :=
  List.nodup_range.filter _

theorem mem_below {p : OpenCells} {nOut done j : Nat} :
    j ∈ p.below nOut done ↔ j < nOut ∧ p.pending j ≠ [] ∧ j < done := by
  simp [OpenCells.below]

/-- The digest loop between two children: the cells below `done` hold their fold, the
others their open digests. -/
structure DigestInv (nOut : Nat) (parts : Nat → List Part) (done : Nat) (p : OpenCells) : Prop where
  closed : ∀ j < nOut, j < done → p.pending j = [] ∧
    foldDigests num delta declared (parts j) = .ok (p.out j)
  pending : ∀ j < nOut, done ≤ j → p.pending j = parts j ∧
    p.out j = ⟨[], declared.map fun _ => []⟩

variable {num delta declared}

theorem foldDigests_nil : foldDigests num delta declared [] = .ok ⟨[], declared.map fun _ => []⟩ := by
  have h : misaligned declared [] = none := misaligned_eq_none fun p hp => by cases hp
  simp [foldDigests, h]

/-- Closing the open cells below `done'` leaves each cell below it with its fold. -/
theorem DigestInv.closed_close {nOut done done' : Nat} {parts : Nat → List Part}
    {p p' : OpenCells} (h : DigestInv num delta declared nOut parts done p)
    (hp : p.close num delta declared (p.below nOut done') = .ok p') {j : Nat} (hj : j < nOut)
    (hd : j < done') :
    p'.pending j = [] ∧ foldDigests num delta declared (parts j) = .ok (p'.out j) := by
  obtain ⟨hin, hout⟩ := close_ok num delta declared (below_nodup p nOut done') hp
  by_cases hempty : p.pending j = []
  · obtain ⟨hpj, hoj⟩ := hout j fun hmem => (mem_below.mp hmem).2.1 hempty
    rw [hpj, hoj]
    refine ⟨hempty, ?_⟩
    by_cases hdone : j < done
    · exact (h.closed j hj hdone).2
    · obtain ⟨hpend, hnil⟩ := h.pending j hj (Nat.le_of_not_lt hdone)
      rw [← hpend, hempty, hnil]
      exact foldDigests_nil
  · obtain ⟨hfold, hnil⟩ := hin j (mem_below.mpr ⟨hj, hempty, hd⟩)
    have hdone : done ≤ j := Nat.le_of_not_lt fun hlt => hempty (h.closed j hj hlt).1
    rw [(h.pending j hj hdone).1] at hfold
    exact ⟨hnil, hfold⟩

theorem DigestInv.close {nOut done done' : Nat} {parts : Nat → List Part} {p p' : OpenCells}
    (h : DigestInv num delta declared nOut parts done p) (hle : done ≤ done')
    (hp : p.close num delta declared (p.below nOut done') = .ok p') :
    DigestInv num delta declared nOut parts done' p' := by
  refine ⟨fun j hj hd => h.closed_close hp hj hd, fun j hj hd => ?_⟩
  obtain ⟨-, hout⟩ := close_ok num delta declared (below_nodup p nOut done') hp
  obtain ⟨hpj, hoj⟩ := hout j fun hmem => absurd (mem_below.mp hmem).2.2 (Nat.not_lt.mpr hd)
  rw [hpj, hoj]
  exact h.pending j hj (hle.trans hd)

/-- The open cells of an aligned accumulation can all be closed. -/
theorem DigestInv.close_total {nOut done done' : Nat} {parts : Nat → List Part} {p : OpenCells}
    (h : DigestInv num delta declared nOut parts done p)
    (hal : ∀ j, ∀ p ∈ parts j, p.Aligned declared) :
    ∃ p', p.close num delta declared (p.below nOut done') = .ok p' := by
  refine Stage.close_total num delta declared (below_nodup _ _ _) fun j hj => ?_
  obtain ⟨hj, hne, -⟩ := mem_below.mp hj
  have hdone : done ≤ j := Nat.le_of_not_lt fun hlt => hne (h.closed j hj hlt).1
  rw [(h.pending j hj hdone).1]
  exact ⟨_, foldDigests_aligned num delta (hal j)⟩

theorem run_mergeDigestRow {res srcPerChild factor nOut : Nat} {name : N} {rows : Rows χ}
    (row : Option (Row χ)) {st : OpenCells × Broken}
    (h : DigestInv num delta declared nOut (digestParts f rows res srcPerChild factor name declared)
      (rows.length * srcPerChild / factor) st.1) :
    ∃ p, ReadProg.run f (mergeDigestRow num delta declared res srcPerChild factor nOut name st
          (row, rows.length)) =
        (OpenCells.close num delta declared p
          (p.below nOut ((rows.length + 1) * srcPerChild / factor)) >>= fun p =>
          .ok (p, st.2 ++ (row.getD []).zipIdx.flatMap fun slot => match slot.1.reader? with
            | some r => if whole f r res name declared then [] else [(rows.length, slot.2)]
            | none => [])) ∧
      DigestInv num delta declared nOut
        (digestParts f (rows ++ [row]) res srcPerChild factor name declared)
        (rows.length * srcPerChild / factor) p := by
  obtain ⟨p, hp, hout, hpend⟩ := run_mergeDigestSlots f res srcPerChild factor name declared
    rows.length (row.getD []).zipIdx st
  have hparts : ∀ j, digestParts f (rows ++ [row]) res srcPerChild factor name declared j =
      digestParts f rows res srcPerChild factor name declared j ++
        (rowSources srcPerChild factor j (row, rows.length)).filterMap
          (digestOf f res name declared) := fun j => by
    rw [digestParts, sources_append, List.filterMap_append]
    rfl
  refine ⟨p, ?_, fun j hj hd => ?_, fun j hj hd => ?_⟩
  · simp only [mergeDigestRow, ReadProg.run_bind, ReadProg.run_foldlM, ReadProg.run_ofExcept,
      ReadProg.run_pure]
    rw [hp, ReadProg.ok_bind]
  · have hnone : rowSources srcPerChild factor j (row, rows.length) = [] := rowSources_of_lt _ hd
    have hslots : (row.getD []).zipIdx.flatMap (slotSources srcPerChild factor j rows.length) = [] :=
      hnone
    have hpj : p.pending j = st.1.pending j := by
      rw [hpend j, hslots, List.filterMap_nil, List.append_nil]
    rw [hparts, hnone, hpj, hout, List.filterMap_nil, List.append_nil]
    exact h.closed j hj hd
  · rw [hparts, hpend, hout, (h.pending j hj hd).1]
    exact ⟨rfl, (h.pending j hj hd).2⟩

variable (num delta declared) in
/-- The digest loop over the children seen so far. -/
theorem run_mergeDigestRows (res srcPerChild factor nOut : Nat) (name : N) (rows : Rows χ)
    (broken : Broken) :
    (∀ st, rows.zipIdx.foldlM (fun st row =>
        ReadProg.run f (mergeDigestRow num delta declared res srcPerChild factor nOut name st row))
        (⟨fun _ => [], fun _ => ⟨[], declared.map fun _ => []⟩⟩, broken) = .ok st →
      st.2 = broken ++ digestBroken f rows res name declared ∧
      DigestInv num delta declared nOut (digestParts f rows res srcPerChild factor name declared)
        (rows.length * srcPerChild / factor) st.1) ∧
    ((∀ j, ∀ p ∈ digestParts f rows res srcPerChild factor name declared j, p.Aligned declared) →
      ∃ st, rows.zipIdx.foldlM (fun st row =>
        ReadProg.run f (mergeDigestRow num delta declared res srcPerChild factor nOut name st row))
        (⟨fun _ => [], fun _ => ⟨[], declared.map fun _ => []⟩⟩, broken) = .ok st) := by
  induction rows using List.reverseRecOn with
  | nil =>
    refine ⟨fun st h => ?_, fun _ => ⟨_, rfl⟩⟩
    obtain rfl := Except.ok.inj h
    refine ⟨(List.append_nil _).symm, fun j _ hd => ?_, fun j _ _ => ⟨rfl, rfl⟩⟩
    simp at hd
  | append_singleton rows row ih =>
    have happend : (rows ++ [row]).zipIdx = rows.zipIdx ++ [(row, rows.length)] := by
      rw [List.zipIdx_append, Nat.zero_add]
      rfl
    have hlen : (rows ++ [row]).length = rows.length + 1 := by simp
    have hle : rows.length * srcPerChild / factor ≤ (rows.length + 1) * srcPerChild / factor :=
      Nat.div_le_div_right (Nat.mul_le_mul_right _ (Nat.le_succ _))
    have hbroken : digestBroken f (rows ++ [row]) res name declared =
        digestBroken f rows res name declared ++
          (row.getD []).zipIdx.flatMap fun slot => match slot.1.reader? with
            | some r => if whole f r res name declared then [] else [(rows.length, slot.2)]
            | none => [] := by
      rw [digestBroken, happend, List.flatMap_append, List.flatMap_singleton]
      rfl
    rw [happend, List.foldlM_append, hlen, hbroken]
    refine ⟨fun st h => ?_, fun hal => ?_⟩
    · cases hpre : rows.zipIdx.foldlM (fun st row =>
          ReadProg.run f (mergeDigestRow num delta declared res srcPerChild factor nOut name st row))
          (⟨fun _ => [], fun _ => ⟨[], declared.map fun _ => []⟩⟩, broken) with
      | error msg => rw [hpre] at h; cases h
      | ok st₀ =>
        obtain ⟨hb, hinv⟩ := ih.1 st₀ hpre
        obtain ⟨p, hp, hinv'⟩ := run_mergeDigestRow f row hinv
        rw [hpre, ReadProg.ok_bind, List.foldlM_cons, hp] at h
        cases hclose : OpenCells.close num delta declared p
            (p.below nOut ((rows.length + 1) * srcPerChild / factor)) with
        | error msg => rw [hclose] at h; cases h
        | ok p' =>
          rw [hclose] at h
          obtain rfl := Except.ok.inj h
          refine ⟨?_, hinv'.close hle hclose⟩
          rw [hb, List.append_assoc]
    · have hmono : ∀ j, ∀ p ∈ digestParts f rows res srcPerChild factor name declared j,
          p.Aligned declared := fun j p hp => hal j p (by
        rw [digestParts, sources_append, List.filterMap_append]
        exact List.mem_append_left _ hp)
      obtain ⟨st₀, hpre⟩ := ih.2 hmono
      obtain ⟨-, hinv⟩ := ih.1 st₀ hpre
      obtain ⟨p, hp, hinv'⟩ := run_mergeDigestRow f row hinv
      obtain ⟨p', hp'⟩ := hinv'.close_total hal
      rw [hpre, ReadProg.ok_bind, List.foldlM_cons, hp, hp']
      exact ⟨_, rfl⟩

variable (num delta declared) in
/-- The digest class, cell by cell: one fold of the cell's contributions. -/
theorem run_mergeDigest (res srcPerChild factor nOut : Nat) (name : N) (rows : Rows χ)
    (broken : Broken) :
    (∀ out, ReadProg.run f
        (mergeDigest num delta declared rows res srcPerChild factor nOut name broken) = .ok out →
      out.2 = broken ++ digestBroken f rows res name declared ∧
      ∀ j < nOut, foldDigests num delta declared
        (digestParts f rows res srcPerChild factor name declared j) = .ok (out.1 j)) ∧
    ((∀ j, ∀ p ∈ digestParts f rows res srcPerChild factor name declared j, p.Aligned declared) →
      ∃ out, ReadProg.run f
        (mergeDigest num delta declared rows res srcPerChild factor nOut name broken) = .ok out) := by
  obtain ⟨hok, htot⟩ :=
    run_mergeDigestRows f num delta declared res srcPerChild factor nOut name rows broken
  simp only [mergeDigest, ReadProg.run_bind, ReadProg.run_foldlM, ReadProg.run_ofExcept,
    ReadProg.run_pure]
  refine ⟨fun out h => ?_, fun hal => ?_⟩
  · cases hst : rows.zipIdx.foldlM (fun st row =>
        ReadProg.run f (mergeDigestRow num delta declared res srcPerChild factor nOut name st row))
        (⟨fun _ => [], fun _ => ⟨[], declared.map fun _ => []⟩⟩, broken) with
    | error msg => rw [hst] at h; cases h
    | ok st =>
      obtain ⟨hb, hinv⟩ := hok st hst
      rw [hst, ReadProg.ok_bind] at h
      cases hclose : OpenCells.close num delta declared st.1 (st.1.below nOut nOut) with
      | error msg => rw [hclose] at h; cases h
      | ok p =>
        rw [hclose] at h
        obtain rfl := Except.ok.inj h
        exact ⟨hb, fun j hj => (hinv.closed_close hclose hj hj).2⟩
  · obtain ⟨st, hst⟩ := htot hal
    obtain ⟨-, hinv⟩ := hok st hst
    obtain ⟨p, hp⟩ := hinv.close_total hal
    rw [hst, ReadProg.ok_bind, hp]
    exact ⟨_, rfl⟩

end Digest

section Packed

def wordAt (r : χ) (res : Nat) (name : N) : Option (Nat → Word) := f ⟨r, res, .packed name⟩

/-- One cell of a word and its divisor, when the divisor weighs anything. -/
def wordPart (words : Nat → Word) (of : Nat → Digest) (pos : Nat) : Option (Word × Nat) :=
  if 0 < payloadWeight (of pos) then some (words pos, payloadWeight (of pos)) else none

/-- What a source cell adds to a packed cell. -/
def packedOf (res : Nat) (name of : N) (s : Source χ) : Option (Word × Nat) :=
  (wordAt f s.reader res name).bind fun words =>
    (digestAt f s.reader res of).bind fun ofValues => wordPart words ofValues s.pos

/-- The parts folded into output cell `j`, if that is not poisoned. -/
def packedParts (rows : Rows χ) (res srcPerChild factor : Nat) (name of : N) (j : Nat) :
    List (Word × Nat) :=
  (sources rows srcPerChild factor j).filterMap (packedOf f res name of)

/-- A contributor with the divisor but not the word. -/
def skewed (res : Nat) (name of : N) (slot : Slot χ × Nat) : Bool :=
  match slot.1.reader? with
  | some r => (wordAt f r res name).isNone && (digestAt f r res of).isSome
  | none => false

def poisonedCells (rows : Rows χ) (res srcPerChild factor : Nat) (name of : N) : List Nat :=
  rows.zipIdx.flatMap fun row =>
    ((row.1.getD []).zipIdx.filter (skewed f res name of)).flatMap fun _ =>
      coveredCells (row.2 * srcPerChild) srcPerChild factor

/-- The contributors with one half of the pair. -/
def packedBroken (rows : Rows χ) (res : Nat) (name of : N) : Broken :=
  rows.zipIdx.flatMap fun row => (row.1.getD []).zipIdx.flatMap fun slot =>
    match slot.1.reader? with
    | some r =>
      if (wordAt f r res name).isSome = (digestAt f r res of).isSome then []
      else [(row.2, slot.2)]
    | none => []

theorem packing_append_parts (p : Packing) (key j : Nat) (part : Word × Nat) :
    (p.append key part).parts j = p.parts j ++ if key = j then [part] else [] := by
  by_cases h : key = j
  · subst h
    rw [Packing.append, if_pos rfl]
    exact Function.update_self ..
  · rw [Packing.append, if_neg h, List.append_nil]
    exact Function.update_of_ne (Ne.symm h) ..

theorem packing_add_succ (p : Packing) (base factor n : Nat) (words : Nat → Word)
    (of : Nat → Digest) :
    p.add base factor (n + 1) words of =
      if 0 < payloadWeight (of n) then (p.add base factor n words of).append
        ((base + n) / factor) (words n, payloadWeight (of n))
      else p.add base factor n words of := by
  rw [Packing.add, List.range_succ, List.foldl_append]
  rfl

theorem packing_add (base factor : Nat) (words : Nat → Word) (of : Nat → Digest)
    (p : Packing) (n : Nat) :
    (p.add base factor n words of).poisoned = p.poisoned ∧
    ∀ j, (p.add base factor n words of).parts j =
      p.parts j ++ ((List.range n).filter fun pos => (base + pos) / factor = j).filterMap
        (wordPart words of) := by
  induction n with
  | zero => exact ⟨rfl, fun j => by simp [Packing.add]⟩
  | succ n ih =>
    rw [packing_add_succ]
    refine ⟨?_, fun j => ?_⟩
    · split
      · exact ih.1
      · exact ih.1
    · rw [List.range_succ, List.filter_append, List.filterMap_append, ← List.append_assoc, ← ih.2]
      by_cases hs : 0 < payloadWeight (of n) <;> by_cases hj : (base + n) / factor = j <;>
        simp [hs, hj, packing_append_parts, wordPart]

/-- One contributor adds its parts, or poisons the cells it covers. -/
theorem run_mergePackedSlot (res srcPerChild factor : Nat) (name of : N) (i : Nat)
    (st : Packing × Broken) (slot : Slot χ × Nat) :
    ∃ p, ReadProg.run f (mergePackedSlot res srcPerChild factor name of i st slot) =
        .ok (p, st.2 ++ match slot.1.reader? with
          | some r => if (wordAt f r res name).isSome = (digestAt f r res of).isSome then []
            else [(i, slot.2)]
          | none => []) ∧
      p.poisoned = st.1.poisoned ++
        ([slot].filter (skewed f res name of)).flatMap
          (fun _ => coveredCells (i * srcPerChild) srcPerChild factor) ∧
      ∀ j, p.parts j = st.1.parts j ++
        (slotSources srcPerChild factor j i slot).filterMap (packedOf f res name of) := by
  rw [mergePackedSlot]
  cases hr : slot.1.reader? with
  | none =>
    have hsrc : ∀ j, slotSources srcPerChild factor j i slot = [] := fun j => by
      rw [slotSources, hr]
    exact ⟨st.1, by simp, by simp [skewed, hr], fun j => by simp [hsrc]⟩
  | some r =>
    have hsrc : ∀ j, (slotSources srcPerChild factor j i slot).filterMap (packedOf f res name of) =
        ((List.range srcPerChild).filter fun pos => (i * srcPerChild + pos) / factor = j).filterMap
          fun pos => (wordAt f r res name).bind fun words =>
            (digestAt f r res of).bind fun ofValues => wordPart words ofValues pos := fun j => by
      rw [slotSources, hr, List.filterMap_map]
      rfl
    have hread : ReadProg.run f (readArray r res (.packed name)) = .ok (wordAt f r res name) := rfl
    have hread' : ReadProg.run f (readArray r res (.digest of)) = .ok (digestAt f r res of) := rfl
    simp only [ReadProg.run_bind, hread, hread', ReadProg.ok_bind]
    cases hword : wordAt f r res name with
    | none =>
      cases hof : digestAt f r res of with
      | none =>
        refine ⟨st.1, by simp, by simp [skewed, hr, hword, hof], fun j => ?_⟩
        rw [hsrc, hword]
        simp
      | some ofValues =>
        refine ⟨_, rfl, by simp [skewed, hr, hword, hof], fun j => ?_⟩
        rw [hsrc, hword]
        simp
    | some words =>
      cases hof : digestAt f r res of with
      | none =>
        refine ⟨st.1, rfl, by simp [skewed, hr, hword], fun j => ?_⟩
        rw [hsrc, hword, hof]
        simp
      | some ofValues =>
        obtain ⟨hpoison, hparts⟩ :=
          packing_add (i * srcPerChild) factor words ofValues st.1 srcPerChild
        refine ⟨_, by simp; rfl, by simp [hpoison, skewed, hr, hword], fun j => ?_⟩
        rw [hparts, hsrc, hword, hof]
        rfl

/-- The packed class, cell by cell: the parts of its sources, unless it is poisoned. -/
theorem run_mergePacked (rows : Rows χ) (res srcPerChild factor : Nat) (name of : N)
    (broken : Broken) :
    ReadProg.run f (mergePacked rows res srcPerChild factor name of broken) =
      .ok (fun j =>
        if (poisonedCells f rows res srcPerChild factor name of).contains j then 0
        else mergeCompositionKway (packedParts f rows res srcPerChild factor name of j),
        broken ++ packedBroken f rows res name of) := by
  have hslots : ∀ (i : Nat) (slots : List (Slot χ × Nat)) (st : Packing × Broken),
      ∃ p, slots.foldlM (fun st slot =>
          ReadProg.run f (mergePackedSlot res srcPerChild factor name of i st slot)) st =
          .ok (p, st.2 ++ slots.flatMap fun slot => match slot.1.reader? with
            | some r => if (wordAt f r res name).isSome = (digestAt f r res of).isSome then []
              else [(i, slot.2)]
            | none => []) ∧
        p.poisoned = st.1.poisoned ++ (slots.filter (skewed f res name of)).flatMap
          (fun _ => coveredCells (i * srcPerChild) srcPerChild factor) ∧
        ∀ j, p.parts j = st.1.parts j ++
          (slots.flatMap (slotSources srcPerChild factor j i)).filterMap
            (packedOf f res name of) := by
    intro i slots
    induction slots with
    | nil => exact fun st => ⟨st.1, by simp; rfl, by simp, fun j => by simp⟩
    | cons slot slots ih =>
      intro st
      obtain ⟨p, hp, hpoison, hparts⟩ :=
        run_mergePackedSlot f res srcPerChild factor name of i st slot
      obtain ⟨p', hp', hpoison', hparts'⟩ := ih (p, _)
      refine ⟨p', ?_, ?_, fun j => ?_⟩
      · rw [List.foldlM_cons, hp, ReadProg.ok_bind, hp', List.flatMap_cons, List.append_assoc]
      · rw [hpoison', hpoison, List.append_assoc, ← List.flatMap_append, ← List.filter_append]
        rfl
      · rw [hparts', hparts, List.flatMap_cons, List.filterMap_append, List.append_assoc]
  have hrows : ∀ (l : List (Option (Row χ) × Nat)) (st : Packing × Broken),
      ∃ p, l.foldlM (fun st row =>
          ReadProg.run f (mergePackedRow res srcPerChild factor name of st row)) st =
          .ok (p, st.2 ++ l.flatMap fun row => (row.1.getD []).zipIdx.flatMap fun slot =>
            match slot.1.reader? with
            | some r => if (wordAt f r res name).isSome = (digestAt f r res of).isSome then []
              else [(row.2, slot.2)]
            | none => []) ∧
        p.poisoned = st.1.poisoned ++ l.flatMap (fun row =>
          ((row.1.getD []).zipIdx.filter (skewed f res name of)).flatMap fun _ =>
            coveredCells (row.2 * srcPerChild) srcPerChild factor) ∧
        ∀ j, p.parts j = st.1.parts j ++
          (l.flatMap (rowSources srcPerChild factor j)).filterMap (packedOf f res name of) := by
    intro l
    induction l with
    | nil => exact fun st => ⟨st.1, by simp; rfl, by simp, fun j => by simp⟩
    | cons row l ih =>
      intro st
      obtain ⟨p, hp, hpoison, hparts⟩ := hslots row.2 (row.1.getD []).zipIdx st
      obtain ⟨p', hp', hpoison', hparts'⟩ := ih (p, _)
      refine ⟨p', ?_, ?_, fun j => ?_⟩
      · rw [List.foldlM_cons, mergePackedRow, ReadProg.run_foldlM, hp, ReadProg.ok_bind, hp',
          List.flatMap_cons, List.append_assoc]
      · rw [hpoison', hpoison, List.flatMap_cons, List.append_assoc]
      · rw [hparts', hparts, List.flatMap_cons, List.filterMap_append, List.append_assoc]
        rfl
  obtain ⟨p, hp, hpoison, hparts⟩ := hrows rows.zipIdx (⟨fun _ => [], []⟩, broken)
  simp only [mergePacked, ReadProg.run_bind, ReadProg.run_foldlM, ReadProg.run_pure]
  rw [hp, ReadProg.ok_bind]
  simp only [List.nil_append] at hpoison hparts
  simp only [hpoison, hparts]
  rfl

end Packed

section Exact
variable [DecidableEq V]

def exactAt (r : χ) (res : Nat) (name : N) : Option (Nat → V) := f ⟨r, res, .exact name⟩

/-- One window's dense source vector, child after child. -/
def sourceSlab (rows : Rows χ) (res srcPerChild : Nat) (name : N) (fill : V) (w : Nat) : Nat → V :=
  fun j => ((rows[j / srcPerChild]?).bind fun row =>
    (slotReader row w).bind fun r => exactAt f r res name).elim fill fun v => v (j % srcPerChild)

/-- The exact class: the windows' folds combined in order. -/
def exactCells (d : Dtype V) (law : Law) (fill : V) (rows : Rows χ)
    (res srcPerChild factor windows : Nat) (name : N) : Nat → V :=
  ((List.range windows).foldl (fun out w =>
    let part := foldDense d law fill factor (sourceSlab f rows res srcPerChild name fill w)
    some (match out with
      | none => part
      | some out => combineDense d law fill out part)) none).getD fun _ => fill

omit [DecidableEq V] in
theorem run_accumulate (rows : Rows χ) (res : Nat) {srcPerChild : Nat} (hspc : 0 < srcPerChild)
    (name : N) (fill : V) (w : Nat) :
    ReadProg.run f (accumulate rows res srcPerChild name fill w) =
      .ok (sourceSlab f rows res srcPerChild name fill w) := by
  have hrow : ∀ (acc : Nat → V) (row : Option (Row χ) × Nat),
      ReadProg.run f (accumulateRow res srcPerChild name w acc row) =
        .ok (assignSegment row.2 srcPerChild
          ((slotReader row.1 w).bind fun r => exactAt f r res name) acc) := by
    intro acc row
    rw [accumulateRow]
    cases slotReader row.1 w <;> rfl
  simp only [accumulate, ReadProg.run_foldlM, hrow]
  rw [ReadProg.foldlM_ok]
  refine congrArg _ (funext fun j => ?_)
  exact foldl_assignSegment (fun row : Option (Row χ) =>
    (slotReader row w).bind fun r => exactAt f r res name) hspc (fun _ => fill) j rows

theorem run_mergeExact (d : Dtype V) (law : Law) (fill : V) (rows : Rows χ) (res : Nat)
    {srcPerChild : Nat} (hspc : 0 < srcPerChild) (factor windows : Nat) (name : N) :
    ReadProg.run f (mergeExact d law fill rows res srcPerChild factor windows name) =
      .ok (exactCells f d law fill rows res srcPerChild factor windows name) := by
  simp only [mergeExact, ReadProg.run_bind, ReadProg.run_foldlM, run_accumulate f rows res hspc,
    ReadProg.run_pure, ReadProg.ok_bind]
  rw [ReadProg.foldlM_ok, ReadProg.ok_bind]
  rfl

end Exact

section MergeSlabs
variable [DecidableEq N]

theorem setDigest_of_ne (slabs : Slabs V N) (name : N) (declared : List Channel)
    (out : Nat → Part) {k : ArrayKey N} (hd : k ≠ .digest name)
    (hs : ∀ c ∈ declared, k ≠ .sibling name c) :
    setDigest slabs name declared out k = slabs k := by
  have h : ∀ (l : List Channel), (∀ c ∈ l, k ≠ .sibling name c) → ∀ slabs : Slabs V N,
      l.foldl (fun slabs c => Function.update slabs (.sibling name c)
        fun j => (out j).words.getD (declared.idxOf c) []) slabs k = slabs k := by
    intro l
    induction l with
    | nil => exact fun _ _ => rfl
    | cons c l ih =>
      intro hl slabs
      rw [List.foldl_cons, ih fun c hc => hl c (.tail _ hc)]
      exact Function.update_of_ne (hl c (.head _)) ..
  rw [setDigest, h _ hs, Function.update_of_ne hd]

theorem setDigest_digest (slabs : Slabs V N) (name : N) (declared : List Channel)
    (out : Nat → Part) : setDigest slabs name declared out (.digest name) =
      fun j => (out j).digest := by
  have h : ∀ (l : List Channel) (slabs : Slabs V N),
      l.foldl (fun slabs c => Function.update slabs (.sibling name c)
        fun j => (out j).words.getD (declared.idxOf c) []) slabs (.digest name) =
          slabs (.digest name) := by
    intro l
    induction l with
    | nil => exact fun _ => rfl
    | cons c l ih => exact fun slabs => (ih _).trans (Function.update_of_ne (by simp) ..)
  rw [setDigest, h, Function.update_self]

theorem setDigest_sibling (slabs : Slabs V N) (name : N) {declared : List Channel}
    (out : Nat → Part) {c : Channel} (hc : c ∈ declared) :
    setDigest slabs name declared out (.sibling name c) =
      fun j => (out j).words.getD (declared.idxOf c) [] := by
  have h : ∀ (l : List Channel) (slabs : Slabs V N),
      l.foldl (fun slabs c => Function.update slabs (.sibling name c)
        fun j => (out j).words.getD (declared.idxOf c) []) slabs (.sibling name c) =
      if c ∈ l then (fun j => (out j).words.getD (declared.idxOf c) [])
      else slabs (.sibling name c) := by
    intro l
    induction l with
    | nil => exact fun _ => rfl
    | cons e l ih =>
      intro slabs
      rw [List.foldl_cons, ih]
      by_cases he : c = e
      · subst he
        rw [Function.update_self, if_pos (List.mem_cons_self ..), ite_self]
      · rw [Function.update_of_ne (by simpa using he)]
        simp only [List.mem_cons, he, false_or]
  rw [setDigest, h, if_pos hc]

variable [DecidableEq V]

/-- The contributors one field's loops refuse. -/
def fieldBroken (rows : Rows χ) (res : Nat) (g : N × FieldMeta V N) : Broken :=
  match g.2 with
  | .exact _ _ _ => []
  | .approximate _ _ _ => digestBroken f rows res g.1 g.2.companions
  | .packed of => packedBroken f rows res g.1 of

/-- What a merge leaves in the arrays of one field. -/
def FieldMerged (num : Numerics) (rows : Rows χ) (res srcPerChild factor nOut : Nat)
    (slabs : Slabs V N) (g : N × FieldMeta V N) : Prop :=
  match g.2 with
  | .exact d law fill => slabs (.exact g.1) =
      exactCells f d law fill rows res srcPerChild factor (windowsOf rows) g.1
  | .approximate delta _ _ => ∀ j < nOut, ∃ part,
      foldDigests num delta g.2.companions
        (digestParts f rows res srcPerChild factor g.1 g.2.companions j) = .ok part ∧
      slabs (.digest g.1) j = part.digest ∧
      ∀ c ∈ g.2.companions, slabs (.sibling g.1 c) j = part.words.getD (g.2.companions.idxOf c) []
  | .packed of => slabs (.packed g.1) = fun j =>
      if (poisonedCells f rows res srcPerChild factor g.1 of).contains j then 0
      else mergeCompositionKway (packedParts f rows res srcPerChild factor g.1 of j)

/-- Every payload the merge decodes has a word per centroid in each declared channel. -/
def RowAligned (rows : Rows χ) (res srcPerChild factor : Nat) (fields : Fields V N) : Prop :=
  ∀ g ∈ fields, ∀ j, ∀ p ∈ digestParts f rows res srcPerChild factor g.1 g.2.companions j,
    p.Aligned g.2.companions

omit [DecidableEq N] in
theorem fieldMerged_congr {num : Numerics} {rows : Rows χ} {res srcPerChild factor nOut : Nat}
    {slabs slabs' : Slabs V N} {g : N × FieldMeta V N}
    (h : ∀ k ∈ g.2.keys g.1, slabs' k = slabs k)
    (hm : FieldMerged f num rows res srcPerChild factor nOut slabs g) :
    FieldMerged f num rows res srcPerChild factor nOut slabs' g := by
  obtain ⟨name, m⟩ := g
  have hkey := h (m.key name) (List.mem_cons_self ..)
  cases m with
  | exact d law fill => exact hkey.trans hm
  | packed of => exact hkey.trans hm
  | approximate delta location temporal =>
    intro j hj
    obtain ⟨part, hfold, hd, hs⟩ := hm j hj
    refine ⟨part, hfold, (congrFun hkey j).trans hd, fun c hc => ?_⟩
    have hk := h _ (List.mem_cons_of_mem _ (List.mem_map_of_mem hc))
    exact (congrFun hk j).trans (hs c hc)

omit [DecidableEq N] in
/-- A loop that does the fields with `done g` and leaves the arrays of the others. -/
theorem foldlM_fields {σ : Type} (slabs : σ → Slabs V N) (done : N × FieldMeta V N → Prop)
    {step : σ → N × FieldMeta V N → Except String σ} {num : Numerics} {rows : Rows χ}
    {res srcPerChild factor nOut : Nat}
    (hstep : ∀ st g st', step st g = .ok st' →
      (∀ k, k ∉ g.2.keys g.1 → slabs st' k = slabs st k) ∧
      (done g → FieldMerged f num rows res srcPerChild factor nOut (slabs st') g) ∧
      (¬done g → slabs st' = slabs st))
    {l : Fields V N} (hl : l.Names) : ∀ {st st' : σ}, l.foldlM step st = .ok st' →
      (∀ g ∈ l, done g → FieldMerged f num rows res srcPerChild factor nOut (slabs st') g) ∧
      ∀ k, (∀ g ∈ l, done g → k ∉ g.2.keys g.1) → slabs st' k = slabs st k := by
  induction l with
  | nil =>
    intro st st' h
    obtain rfl := Except.ok.inj h
    exact ⟨fun g hg => (nomatch hg), fun _ _ => rfl⟩
  | cons g l ih =>
    intro st st' h
    rw [List.foldlM_cons] at h
    cases hs : step st g with
    | error msg => rw [hs] at h; cases h
    | ok st₁ =>
      rw [hs] at h
      rw [Fields.Names, List.map_cons, List.nodup_cons] at hl
      obtain ⟨hmerged, hframe⟩ := ih hl.2 h
      obtain ⟨hkeep, hdone, hskip⟩ := hstep st g st₁ hs
      refine ⟨fun e he hde => ?_, fun k hk => ?_⟩
      · rcases List.mem_cons.mp he with rfl | he
        · refine fieldMerged_congr f (fun k hk => hframe k fun g' hg' _ hk' => ?_) (hdone hde)
          have hname := (name_eq_of_mem_keys hk).symm.trans (name_eq_of_mem_keys hk')
          exact hl.1 (hname ▸ List.mem_map_of_mem hg')
        · exact hmerged e he hde
      · rw [hframe k fun g' hg' => hk g' (List.mem_cons_of_mem _ hg')]
        by_cases hg : done g
        · exact hkeep k (hk g (List.mem_cons_self ..) hg)
        · rw [hskip hg]

theorem run_mergeExactField (rows : Rows χ) (res : Nat) {srcPerChild : Nat}
    (hspc : 0 < srcPerChild) (factor : Nat) (num : Numerics) (nOut : Nat) (slabs : Slabs V N)
    (g : N × FieldMeta V N) :
    ∃ slabs', ReadProg.run f (mergeExactField rows res srcPerChild factor slabs g) = .ok slabs' ∧
      (∀ k, k ∉ g.2.keys g.1 → slabs' k = slabs k) ∧
      (g.2.cls = .exact → FieldMerged f num rows res srcPerChild factor nOut slabs' g) ∧
      (¬g.2.cls = .exact → slabs' = slabs) := by
  obtain ⟨name, m⟩ := g
  cases m with
  | exact d law fill =>
    simp only [mergeExactField, ReadProg.run_bind, run_mergeExact f d law fill rows res hspc,
      ReadProg.run_pure, ReadProg.ok_bind]
    refine ⟨_, rfl, fun k hk => ?_, fun _ => Function.update_self .., fun h => absurd rfl h⟩
    have hne : k ≠ .exact name := fun he => hk (by rw [he]; exact List.mem_cons_self ..)
    exact Function.update_of_ne hne ..
  | approximate | packed => exact ⟨slabs, rfl, fun _ _ => rfl, fun h => (nomatch h), fun _ => rfl⟩

theorem run_mergePackedField (num : Numerics) (rows : Rows χ) (res srcPerChild factor nOut : Nat)
    (st : Slabs V N × Broken) (g : N × FieldMeta V N) :
    ∃ st', ReadProg.run f (mergePackedField rows res srcPerChild factor st g) = .ok st' ∧
      st'.2 = st.2 ++ (if g.2.cls = .packed then fieldBroken f rows res g else []) ∧
      (∀ k, k ∉ g.2.keys g.1 → st'.1 k = st.1 k) ∧
      (g.2.cls = .packed → FieldMerged f num rows res srcPerChild factor nOut st'.1 g) ∧
      (¬g.2.cls = .packed → st'.1 = st.1) := by
  obtain ⟨name, m⟩ := g
  cases m with
  | packed of =>
    simp only [mergePackedField, ReadProg.run_bind, run_mergePacked, ReadProg.run_pure,
      ReadProg.ok_bind]
    refine ⟨_, rfl, rfl, fun k hk => ?_, fun _ => Function.update_self .., fun h => absurd rfl h⟩
    have hne : k ≠ .packed name := fun he => hk (by rw [he]; exact List.mem_cons_self ..)
    exact Function.update_of_ne hne ..
  | exact | approximate =>
    exact ⟨st, rfl, (List.append_nil _).symm, fun _ _ => rfl, fun h => (nomatch h), fun _ => rfl⟩

theorem run_mergeDigestField (num : Numerics) (rows : Rows χ) (res srcPerChild factor nOut : Nat)
    (st : Slabs V N × Broken) (g : N × FieldMeta V N) :
    (∀ st', ReadProg.run f (mergeDigestField num rows res srcPerChild factor nOut st g) = .ok st' →
      st'.2 = st.2 ++ (if g.2.cls = .approximate then fieldBroken f rows res g else []) ∧
      (∀ k, k ∉ g.2.keys g.1 → st'.1 k = st.1 k) ∧
      (g.2.cls = .approximate → FieldMerged f num rows res srcPerChild factor nOut st'.1 g) ∧
      (¬g.2.cls = .approximate → st'.1 = st.1)) ∧
    ((∀ j, ∀ p ∈ digestParts f rows res srcPerChild factor g.1 g.2.companions j,
      p.Aligned g.2.companions) →
      ∃ st', ReadProg.run f (mergeDigestField num rows res srcPerChild factor nOut st g) =
        .ok st') := by
  obtain ⟨name, m⟩ := g
  cases m with
  | approximate delta location temporal =>
    generalize hm : (FieldMeta.approximate delta location temporal : FieldMeta V N) = m
    have hkey : m.key name = .digest name := by rw [← hm]; rfl
    have hfield : ∀ st : Slabs V N × Broken,
        mergeDigestField num rows res srcPerChild factor nOut st (name, m) = do
          let out ← mergeDigest num delta m.companions rows res srcPerChild factor nOut name st.2
          return (setDigest st.1 name m.companions out.1, out.2) := by rw [← hm]; exact fun _ => rfl
    obtain ⟨hok, htot⟩ := run_mergeDigest f num delta m.companions res srcPerChild factor nOut name
      rows st.2
    simp only [hfield, ReadProg.run_bind, ReadProg.run_pure]
    refine ⟨fun st' h => ?_, fun hal => ?_⟩
    · cases hrun : ReadProg.run f
          (mergeDigest num delta m.companions rows res srcPerChild factor nOut name st.2) with
      | error msg => rw [hrun] at h; cases h
      | ok out =>
        rw [hrun] at h
        obtain rfl := Except.ok.inj h
        obtain ⟨hb, hcells⟩ := hok out hrun
        refine ⟨?_, fun k hk => ?_, fun _ => ?_, fun hne => ?_⟩
        · rw [hb, if_pos (by rw [← hm]; rfl), fieldBroken, ← hm]
        · refine setDigest_of_ne st.1 name m.companions out.1 (fun he => hk ?_) fun c hc he => hk ?_
          · rw [he, ← hkey]
            exact List.mem_cons_self ..
          · rw [he]
            exact List.mem_cons_of_mem _ (List.mem_map_of_mem hc)
        · have hfm : ∀ slabs : Slabs V N, (∀ j < nOut, ∃ part,
              foldDigests num delta m.companions
                (digestParts f rows res srcPerChild factor name m.companions j) = .ok part ∧
              slabs (.digest name) j = part.digest ∧ ∀ c ∈ m.companions,
                slabs (.sibling name c) j = part.words.getD (m.companions.idxOf c) []) →
              FieldMerged f num rows res srcPerChild factor nOut slabs (name, m) := by
            rw [← hm]
            exact fun _ h => h
          refine hfm _ fun j hj => ⟨out.1 j, hcells j hj, ?_, fun c hc => ?_⟩
          · exact congrFun (setDigest_digest st.1 name m.companions out.1) j
          · exact congrFun (setDigest_sibling st.1 name out.1 hc) j
        · exact absurd (by rw [← hm]; rfl) hne
    · obtain ⟨out, hout⟩ := htot hal
      rw [hout]
      exact ⟨_, rfl⟩
  | exact | packed =>
    refine ⟨fun st' h => ?_, fun _ => ⟨st, rfl⟩⟩
    obtain rfl := Except.ok.inj h
    exact ⟨(List.append_nil _).symm, fun _ _ => rfl, fun h => (nomatch h), fun _ => rfl⟩

/-- The contributors a merge refuses, in the order its loops meet them. -/
def mergeBroken (rows : Rows χ) (res : Nat) (fields : Fields V N) : Broken :=
  (fields.flatMap fun g => if g.2.cls = .approximate then fieldBroken f rows res g else []) ++
    fields.flatMap fun g => if g.2.cls = .packed then fieldBroken f rows res g else []

omit [DecidableEq N] [DecidableEq V] in
theorem foldlM_broken {step : Slabs V N × Broken → N × FieldMeta V N → Except String (Slabs V N × Broken)}
    {b : N × FieldMeta V N → Broken}
    (hstep : ∀ st g st', step st g = .ok st' → st'.2 = st.2 ++ b g) (l : Fields V N) :
    ∀ {st st'}, l.foldlM step st = .ok st' → st'.2 = st.2 ++ l.flatMap b := by
  intro st st' h
  have := ReadProg.foldlM_prefix (P := fun pre st'' => st''.2 = st.2 ++ pre.flatMap b)
    (fun pre g st₁ st₂ hp hs => by
      rw [hstep _ _ _ hs, hp, List.flatMap_append, List.flatMap_singleton, List.append_assoc])
    l [] st st' (List.append_nil _).symm h
  rwa [List.nil_append] at this

variable [Inhabited V]

/-- A merge, field by field. -/
theorem run_mergeSlabs {fields : Fields V N} (hf : fields.Names) (num : Numerics) (rows : Rows χ)
    (res : Nat) {srcPerChild : Nat} (hspc : 0 < srcPerChild) (factor nOut : Nat) :
    (∀ out, ReadProg.run f (mergeSlabs num rows fields res srcPerChild factor nOut) = .ok out →
      (∀ g ∈ fields, FieldMerged f num rows res srcPerChild factor nOut out.1 g) ∧
      out.2 = sourceCounts rows (mergeBroken f rows res fields)) ∧
    (RowAligned f rows res srcPerChild factor fields →
      ∃ out, ReadProg.run f (mergeSlabs num rows fields res srcPerChild factor nOut) = .ok out) := by
  let exactStep := fun slabs g =>
    ReadProg.run f (mergeExactField rows res srcPerChild factor slabs g)
  let digestStep := fun st g =>
    ReadProg.run f (mergeDigestField num rows res srcPerChild factor nOut st g)
  let packedStep := fun st g => ReadProg.run f (mergePackedField rows res srcPerChild factor st g)
  have hrun : ReadProg.run f (mergeSlabs num rows fields res srcPerChild factor nOut) = do
      let slabs ← fields.foldlM exactStep (emptySlabs fields)
      let st ← fields.foldlM digestStep (slabs, [])
      let st ← fields.foldlM packedStep st
      return (st.1, sourceCounts rows st.2) := by
    simp only [mergeSlabs, ReadProg.run_bind, ReadProg.run_foldlM, ReadProg.run_pure]
    rfl
  have hexact : ∀ slabs g slabs', exactStep slabs g = .ok slabs' →
      (∀ k, k ∉ g.2.keys g.1 → slabs' k = slabs k) ∧
      (g.2.cls = .exact → FieldMerged f num rows res srcPerChild factor nOut slabs' g) ∧
      (¬g.2.cls = .exact → slabs' = slabs) := fun slabs g slabs' h => by
    obtain ⟨s, hs, hrest⟩ := run_mergeExactField f rows res hspc factor num nOut slabs g
    obtain rfl := Except.ok.inj (hs.symm.trans h)
    exact hrest
  have hpacked : ∀ st g st', packedStep st g = .ok st' →
      st'.2 = st.2 ++ (if g.2.cls = .packed then fieldBroken f rows res g else []) ∧
      (∀ k, k ∉ g.2.keys g.1 → st'.1 k = st.1 k) ∧
      (g.2.cls = .packed → FieldMerged f num rows res srcPerChild factor nOut st'.1 g) ∧
      (¬g.2.cls = .packed → st'.1 = st.1) := fun st g st' h => by
    obtain ⟨s, hs, hrest⟩ := run_mergePackedField f num rows res srcPerChild factor nOut st g
    obtain rfl := Except.ok.inj (hs.symm.trans h)
    exact hrest
  have hdigest := fun st g => run_mergeDigestField f num rows res srcPerChild factor nOut st g
  -- the arrays of a field are those of its class
  have hother : ∀ (g e : N × FieldMeta V N), g ∈ fields → e ∈ fields → g.2.cls ≠ e.2.cls →
      ∀ k ∈ g.2.keys g.1, k ∉ e.2.keys e.1 := fun g e hg he hne k hk hk' => by
    have hname := (name_eq_of_mem_keys hk).symm.trans (name_eq_of_mem_keys hk')
    have hl := lookup_of_mem hf hg
    rw [hname, lookup_of_mem hf he] at hl
    exact hne (congrArg FieldMeta.cls (Option.some.inj hl).symm)
  rw [hrun]
  obtain ⟨slabs₁, h₁, -⟩ := ReadProg.foldlM_total (g := exactStep) (P := fun _ _ => True)
    (fun _ g _ slabs _ _ => by
      obtain ⟨s, hs, -⟩ := run_mergeExactField f rows res hspc factor num nOut slabs g
      exact ⟨s, hs, trivial⟩) fields [] (emptySlabs fields) rfl trivial
  obtain ⟨hm₁, -⟩ := foldlM_fields f id (fun g => g.2.cls = .exact) hexact hf h₁
  rw [h₁, ReadProg.ok_bind]
  have hlast : ∀ st₂, ∃ st₃, fields.foldlM packedStep st₂ = .ok st₃ := fun st₂ => by
    obtain ⟨st₃, h₃, -⟩ := ReadProg.foldlM_total (g := packedStep) (P := fun _ _ => True)
      (fun _ g _ st _ _ => by
        obtain ⟨s, hs, -⟩ := run_mergePackedField f num rows res srcPerChild factor nOut st g
        exact ⟨s, hs, trivial⟩) fields [] st₂ rfl trivial
    exact ⟨st₃, h₃⟩
  refine ⟨fun out h => ?_, fun hal => ?_⟩
  · cases h₂ : fields.foldlM digestStep (slabs₁, []) with
    | error msg => rw [h₂] at h; cases h
    | ok st₂ =>
      obtain ⟨st₃, h₃⟩ := hlast st₂
      rw [h₂, ReadProg.ok_bind, h₃] at h
      obtain rfl := Except.ok.inj h
      obtain ⟨hm₂, hk₂⟩ := foldlM_fields f Prod.fst (fun g => g.2.cls = .approximate)
        (fun st g st' h => (((hdigest st g).1 st' h).2)) hf h₂
      obtain ⟨hm₃, hk₃⟩ := foldlM_fields f Prod.fst (fun g => g.2.cls = .packed)
        (fun st g st' h => (hpacked st g st' h).2) hf h₃
      have hb₂ := foldlM_broken (fun st g st' h => ((hdigest st g).1 st' h).1) fields h₂
      have hb₃ := foldlM_broken (fun st g st' h => (hpacked st g st' h).1) fields h₃
      refine ⟨fun g hg => ?_, ?_⟩
      · cases hc : g.2.cls with
        | exact =>
          refine fieldMerged_congr f (fun k hk => ?_) (hm₁ g hg hc)
          rw [hk₃ k fun e he hce => hother g e hg he (by rw [hc, hce]; nofun) k hk,
            hk₂ k fun e he hce => hother g e hg he (by rw [hc, hce]; nofun) k hk]
          rfl
        | approximate =>
          refine fieldMerged_congr f (fun k hk => ?_) (hm₂ g hg hc)
          rw [hk₃ k fun e he hce => hother g e hg he (by rw [hc, hce]; nofun) k hk]
        | packed => exact hm₃ g hg hc
      · rw [hb₃, hb₂, List.nil_append, mergeBroken]
  · obtain ⟨st₂, h₂, -⟩ := ReadProg.foldlM_total (g := digestStep) (P := fun _ _ => True)
      (fun pre g post st he _ => by
        have hg : g ∈ fields := by
          rw [← List.nil_append fields, he]
          exact List.mem_append_right _ (List.mem_cons_self ..)
        obtain ⟨st', hs⟩ := (hdigest st g).2 (hal g hg)
        exact ⟨st', hs, trivial⟩) fields [] (slabs₁, []) rfl trivial
    obtain ⟨st₃, h₃⟩ := hlast st₂
    rw [h₂, ReadProg.ok_bind, h₃]
    exact ⟨_, rfl⟩

end MergeSlabs

end Zagg.Stage
