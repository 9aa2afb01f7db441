import Zagg.Stage.MergeSpec

/-!
# A packed word and its divisor

A composition word is fractions of its `of` digest's weight, so a level is readable
only if both were folded from the same source cells. Gather and merge fold the two
apart: the digest arm refuses a contributor whose companions are only partly there,
while the packed arm looks at the word and the payload alone.
-/
namespace Zagg.Stage

open Zagg.Lib Zagg.Stats

variable {χ V N : Type}

/-- What the children hold when nothing is missing: digests of counts with one word per
centroid in each channel, and a nonzero word only where its divisor counts something. -/
structure Content (χ : Type) (fields : Fields V N) where
  slab : (q : Query χ N) → Slab V q.key
  aligned : ∀ r res name c pos, (slab ⟨r, res, .sibling name c⟩ pos : Words).length =
    (slab ⟨r, res, .digest name⟩ pos : Digest).length
  counts : ∀ name of, (name, .packed of) ∈ fields → ∀ r res pos,
    ∀ c ∈ (slab ⟨r, res, .digest of⟩ pos : Digest), ∃ n : Nat, 0 < n ∧ c.weight = n
  paired : ∀ name of, (name, .packed of) ∈ fields → ∀ r res pos,
    (slab ⟨r, res, .packed name⟩ pos : Word) ≠ 0 → (slab ⟨r, res, .digest of⟩ pos : Digest) ≠ []

variable {fields : Fields V N}

/-- The arrays that are there, under any pattern of missing ones. -/
def Content.present (content : Content χ fields) (missing : Query χ N → Bool) :
    (q : Query χ N) → Answer V q :=
  fun q => if missing q then none else some (content.slab q)

variable (content : Content χ fields) (missing : Query χ N → Bool)

theorem digestAt_present (r : χ) (res : Nat) (name : N) :
    digestAt (content.present missing) r res name =
      if missing ⟨r, res, .digest name⟩ then none else some (content.slab ⟨r, res, .digest name⟩) :=
  rfl

theorem wordAt_present (r : χ) (res : Nat) (name : N) :
    wordAt (content.present missing) r res name =
      if missing ⟨r, res, .packed name⟩ then none else some (content.slab ⟨r, res, .packed name⟩) :=
  rfl

theorem siblingAt_present (r : χ) (res : Nat) (name : N) (c : Channel) :
    siblingAt (content.present missing) r res name c =
      if missing ⟨r, res, .sibling name c⟩ then none
      else some (content.slab ⟨r, res, .sibling name c⟩) := rfl

/-- A digest of counts weighs nothing only if it is empty. -/
theorem payloadWeight_pos {d : Digest} (hc : ∀ c ∈ d, ∃ n : Nat, 0 < n ∧ c.weight = n) :
    0 < payloadWeight d ↔ d ≠ [] := by
  have hsum : ∃ n : Nat, (d.map Centroid.weight).sum = n ∧ (d ≠ [] → 0 < n) := by
    induction d with
    | nil => exact ⟨0, by simp, fun h => absurd rfl h⟩
    | cons c d ih =>
      obtain ⟨n, hn, hw⟩ := hc c (.head _)
      obtain ⟨m, hm, -⟩ := ih fun c hc' => hc c (.tail _ hc')
      exact ⟨n + m, by simp [hw, hm], fun _ => by omega⟩
  obtain ⟨n, hn, hpos⟩ := hsum
  have hweight : payloadWeight d = n := by
    rw [payloadWeight, hn]
    have := rint_intCast (n : ℤ)
    rw [Int.cast_natCast] at this
    rw [this]
    rfl
  rw [hweight]
  refine ⟨fun h he => ?_, hpos⟩
  subst he
  rw [List.map_nil, List.sum_nil] at hn
  exact h.ne' (Nat.cast_eq_zero.mp hn.symm)

/-- A complete group of the divisor digest stands at the source cell's reader. -/
def Divisible (res : Nat) (of : N) (declared : List Channel) (s : Source χ) : Prop :=
  missing ⟨s.reader, res, .digest of⟩ = false ∧
    ∀ c ∈ declared, missing ⟨s.reader, res, .sibling of c⟩ = false

theorem whole_present (r : χ) (res : Nat) (of : N) (declared : List Channel) :
    (whole (content.present missing) r res of declared = true ∧
      missing ⟨r, res, .digest of⟩ = false) ↔
    missing ⟨r, res, .digest of⟩ = false ∧ ∀ c ∈ declared, missing ⟨r, res, .sibling of c⟩ = false := by
  have hsome : ∀ k, (content.present missing ⟨r, res, k⟩).isSome = !missing ⟨r, res, k⟩ := fun k => by
    rw [Content.present]
    cases missing ⟨r, res, k⟩ <;> rfl
  simp only [whole, hsome, List.any_cons, List.all_cons, id]
  constructor
  · rintro ⟨hw, hd⟩
    refine ⟨hd, fun c hc => ?_⟩
    simp only [hd, Bool.not_false, Bool.true_or, Bool.not_true, Bool.false_or, Bool.true_and,
      List.all_map, List.all_eq_true] at hw
    simpa using hw c hc
  · rintro ⟨hd, hs⟩
    refine ⟨?_, hd⟩
    simp only [hd, Bool.not_false, Bool.true_or, Bool.not_true, Bool.false_or, Bool.true_and,
      List.all_map, List.all_eq_true]
    exact fun c hc => by simp [hs c hc]

/-- A source cell counts in the digest iff its group is complete and it has a payload. -/
theorem digestOf_present (res : Nat) (of : N) (declared : List Channel) (s : Source χ) :
    (digestOf (content.present missing) res of declared s).isSome = true ↔
      Divisible missing res of declared s ∧
        (content.slab ⟨s.reader, res, .digest of⟩ s.pos : Digest) ≠ [] := by
  have hw := whole_present content missing s.reader res of declared
  rw [Divisible, ← hw, digestOf, digestAt_present]
  cases hwh : whole (content.present missing) s.reader res of declared <;>
    cases hm : missing ⟨s.reader, res, .digest of⟩ <;> simp [groupPart]

section
variable {name of : N} (hp : (name, .packed of) ∈ fields)
include hp

/-- A source cell counts in the word iff word and payload stand and the payload counts. -/
theorem packedOf_present (res : Nat) (s : Source χ) :
    packedOf (content.present missing) res name of s =
      if missing ⟨s.reader, res, .packed name⟩ = false ∧ missing ⟨s.reader, res, .digest of⟩ = false ∧
        (content.slab ⟨s.reader, res, .digest of⟩ s.pos : Digest) ≠ [] then
        some (content.slab ⟨s.reader, res, .packed name⟩ s.pos,
          payloadWeight (content.slab ⟨s.reader, res, .digest of⟩ s.pos))
      else none := by
  have hpos := payloadWeight_pos (content.counts name of hp s.reader res s.pos)
  rw [packedOf, wordAt_present, digestAt_present]
  cases missing ⟨s.reader, res, .packed name⟩ <;> cases missing ⟨s.reader, res, .digest of⟩ <;>
    simp [wordPart, hpos]

omit hp in
/-- A contributor with the payload but not the word poisons every cell it reaches. -/
theorem poisoned_of_skewed {rows : Rows χ} {res srcPerChild factor j : Nat} (hfac : 0 < factor)
    {s : Source χ} (hs : s ∈ sources rows srcPerChild factor j)
    (hw : missing ⟨s.reader, res, .packed name⟩ = true)
    (hd : missing ⟨s.reader, res, .digest of⟩ = false) :
    j ∈ poisonedCells (content.present missing) rows res srcPerChild factor name of := by
  obtain ⟨row, hrow, hs⟩ := List.mem_flatMap.mp hs
  obtain ⟨slot, hslot, hs⟩ := List.mem_flatMap.mp hs
  rw [slotSources] at hs
  split at hs
  · next r hr =>
    obtain ⟨pos, hpos, rfl⟩ := List.mem_map.mp hs
    obtain ⟨hlt, hj⟩ := List.mem_filter.mp hpos
    rw [List.mem_range] at hlt
    rw [decide_eq_true_eq] at hj
    refine List.mem_flatMap.mpr ⟨row, hrow, List.mem_flatMap.mpr ⟨slot, ?_, ?_⟩⟩
    · refine List.mem_filter.mpr ⟨hslot, ?_⟩
      rw [skewed, hr]
      simp only [wordAt_present, digestAt_present]
      simp only at hw hd
      simp [hw, hd]
    · rw [coveredCells, List.mem_filter, List.mem_range, decide_eq_true_eq]
      subst hj
      refine ⟨?_, Nat.div_le_div_right (Nat.le_add_right _ _)⟩
      rw [Nat.div_lt_iff_lt_mul hfac]
      have hup : (row.2 * srcPerChild + srcPerChild + factor - 1) / factor * factor + factor >
          row.2 * srcPerChild + srcPerChild + factor - 1 := by
        have := Nat.lt_div_mul_add (a := row.2 * srcPerChild + srcPerChild + factor - 1) hfac
        omega
      omega
  · cases hs

end

/-- The one source cell of a gathered cell. -/
def gatherSources (rows : Rows χ) (span j : Nat) : List (Source χ) :=
  match (rows[j / span]?).bind fun row => slotReader row 0 with
  | some r => [⟨r, j / span, 0, j % span⟩]
  | none => []

section Contributors
variable (f : (q : Query χ N) → Answer V q)

/-- The contributors of a gathered word: it is assigned from the child's word array. -/
def gatheredWords (res : Nat) (name : N) (cells : List (Source χ)) : List (Source χ) :=
  cells.filter fun s => (wordAt f s.reader res name).isSome

/-- The contributors of a merged word. -/
def mergedWords (res : Nat) (name of : N) (cells : List (Source χ)) : List (Source χ) :=
  cells.filter fun s => (packedOf f res name of s).isSome

/-- The contributors counted in the divisor digest's weight. -/
def divisors (res : Nat) (of : N) (declared : List Channel) (cells : List (Source χ)) :
    List (Source χ) :=
  cells.filter fun s => (digestOf f res of declared s).isSome

variable [DecidableEq N] [Inhabited V]

/-- A gather's nonzero words and their divisors have the same contributors. -/
def GatherPaired (rows : Rows χ) (fields : Fields V N) (res span : Nat) (name of : N)
    (declared : List Channel) : Prop :=
  ∀ out, ReadProg.run f (gatherSlabs rows fields res span) = .ok out →
    ∀ j < rows.length * span, (out.1 (.packed name) j : Word) ≠ 0 →
      gatheredWords f res name (gatherSources rows span j) =
        divisors f res of declared (gatherSources rows span j)

variable [DecidableEq V]

/-- A merge's nonzero words and their divisors have the same contributors. -/
def MergePaired (num : Numerics) (rows : Rows χ) (fields : Fields V N)
    (res srcPerChild factor nOut : Nat) (name of : N) (declared : List Channel) : Prop :=
  ∀ out, ReadProg.run f (mergeSlabs num rows fields res srcPerChild factor nOut) = .ok out →
    ∀ j < nOut, (out.1 (.packed name) j : Word) ≠ 0 →
      mergedWords f res name of (sources rows srcPerChild factor j) =
        divisors f res of declared (sources rows srcPerChild factor j)

end Contributors

theorem mem_gatherSources {rows : Rows χ} {span j : Nat} {s : Source χ} :
    s ∈ gatherSources rows span j ↔
      ((rows[j / span]?).bind fun row => slotReader row 0) = some s.reader ∧
        s = ⟨s.reader, j / span, 0, j % span⟩ := by
  rw [gatherSources]
  cases (rows[j / span]?).bind fun row => slotReader row 0 with
  | none => simp
  | some r =>
    rw [List.mem_singleton]
    constructor
    · rintro rfl
      exact ⟨rfl, rfl⟩
    · rintro ⟨hr, hs⟩
      rw [hs, Option.some.inj hr]

section Iff
variable [DecidableEq N] [Inhabited V] {name of : N} {m : FieldMeta V N}

omit [DecidableEq N] [Inhabited V] in
theorem packed_mem_keys (hp : (name, .packed of) ∈ fields) : .packed name ∈ fields.keys :=
  mem_keys_iff.mpr ⟨_, hp, List.mem_cons_self ..⟩

/-- The word a gather assigns to a cell. -/
theorem gathered_word (rows : Rows χ) (res span j : Nat) (name : N) :
    gathered (content.present missing) rows fields res span (.packed name) j =
      ((gatherSources rows span j).head?.bind fun s =>
        (wordAt (content.present missing) s.reader res name).map fun v => v s.pos).getD 0 := by
  rw [gathered, gatherSources]
  cases (rows[j / span]?) with
  | none => rfl
  | some row =>
    simp only [Option.bind_some]
    cases slotReader row 0 with
    | none => rfl
    | some r =>
      have hmem : member (content.present missing) fields r res (.packed name) =
          wordAt (content.present missing) r res name := if_pos rfl
      simp only [Option.bind_some, hmem, List.head?_cons]
      cases wordAt (content.present missing) r res name <;> rfl

theorem gatherPaired_iff (hf : fields.Names) (hp : (name, .packed of) ∈ fields)
    (declared : List Channel) (rows : Rows χ) (res : Nat) {span : Nat} (hspan : 0 < span) :
    GatherPaired (content.present missing) rows fields res span name of declared ↔
      ∀ j < rows.length * span, ∀ s ∈ gatherSources rows span j,
        missing ⟨s.reader, res, .packed name⟩ = false →
        (content.slab ⟨s.reader, res, .packed name⟩ s.pos : Word) ≠ 0 →
        Divisible missing res of declared s := by
  obtain ⟨slabs, hrun, hslabs⟩ := run_gatherSlabs (content.present missing) hf rows res hspan
  have hword : ∀ j, (slabs (.packed name) j : Word) = _ := fun j =>
    (congrFun (hslabs _ (packed_mem_keys hp)) j).trans (gathered_word content missing rows res span j name)
  constructor
  · intro h j hj s hs hw hne
    have hhead : (gatherSources rows span j).head? = some s := by
      obtain ⟨hr, he⟩ := mem_gatherSources.mp hs
      rw [gatherSources, hr, List.head?_cons, ← he]
    have hout : (slabs (.packed name) j : Word) = content.slab ⟨s.reader, res, .packed name⟩ s.pos := by
      rw [hword, hhead, Option.bind_some, wordAt_present, hw]
      rfl
    have heq := h _ hrun j hj (by simp only; rw [hout]; exact hne)
    have hin : s ∈ gatheredWords (content.present missing) res name (gatherSources rows span j) :=
      List.mem_filter.mpr ⟨hs, by rw [wordAt_present, hw]; rfl⟩
    rw [heq] at hin
    exact ((digestOf_present content missing res of declared s).mp (List.mem_filter.mp hin).2).1
  · intro h out hout j hj hne
    obtain rfl := Except.ok.inj (hrun.symm.trans hout)
    refine List.filter_congr fun s hs => ?_
    have hhead : (gatherSources rows span j).head? = some s := by
      obtain ⟨hr, he⟩ := mem_gatherSources.mp hs
      rw [gatherSources, hr, List.head?_cons, ← he]
    simp only at hne
    rw [hword, hhead, Option.bind_some, wordAt_present] at hne
    cases hw : missing ⟨s.reader, res, .packed name⟩ with
    | true => rw [hw] at hne; exact absurd rfl hne
    | false =>
      rw [hw] at hne
      have hdiv := h j hj s hs hw hne
      have hpay := content.paired name of hp s.reader res s.pos hne
      have hsome := (digestOf_present content missing res of declared s).mpr ⟨hdiv, hpay⟩
      rw [hsome, wordAt_present, hw]
      rfl

variable [DecidableEq V]

/-- A source cell with the word and a counting payload of its divisor. -/
def Contributes (res : Nat) (name of : N) (s : Source χ) : Prop :=
  missing ⟨s.reader, res, .packed name⟩ = false ∧ missing ⟨s.reader, res, .digest of⟩ = false ∧
    (content.slab ⟨s.reader, res, .digest of⟩ s.pos : Digest) ≠ []

omit [DecidableEq N] [Inhabited V] [DecidableEq V] in
theorem packedOf_isSome (hp : (name, .packed of) ∈ fields) (res : Nat) (s : Source χ) :
    (packedOf (content.present missing) res name of s).isSome = true ↔
      Contributes content missing res name of s := by
  rw [packedOf_present content missing hp]
  split
  · next h => exact iff_of_true rfl h
  · next h => exact iff_of_false (by simp) h

omit [DecidableEq N] [Inhabited V] [DecidableEq V] in
theorem packedOf_contributes (hp : (name, .packed of) ∈ fields) {res : Nat} {s : Source χ}
    (h : Contributes content missing res name of s) :
    packedOf (content.present missing) res name of s =
      some (content.slab ⟨s.reader, res, .packed name⟩ s.pos,
        payloadWeight (content.slab ⟨s.reader, res, .digest of⟩ s.pos)) :=
  (packedOf_present content missing hp res s).trans (if_pos h)

omit [DecidableEq N] [Inhabited V] [DecidableEq V] in
/-- The folded word is not zero iff a contributor's is not and the cell is not poisoned. -/
theorem mergedWord_ne_zero (hp : (name, .packed of) ∈ fields) (rows : Rows χ)
    (res srcPerChild factor j : Nat) :
    mergeCompositionKway
        (packedParts (content.present missing) rows res srcPerChild factor name of j) ≠ 0 ↔
      ∃ s ∈ sources rows srcPerChild factor j, Contributes content missing res name of s ∧
        (content.slab ⟨s.reader, res, .packed name⟩ s.pos : Word) ≠ 0 := by
  rw [mergeCompositionKway_ne_zero]
  constructor
  · rintro ⟨p, hpart, -, hne⟩
    obtain ⟨s, hs, hof⟩ := List.mem_filterMap.mp hpart
    have hcon := (packedOf_isSome content missing hp res s).mp (by rw [hof]; rfl)
    rw [packedOf_contributes content missing hp hcon] at hof
    exact ⟨s, hs, hcon, by rw [← Option.some.inj hof] at hne; exact hne⟩
  · rintro ⟨s, hs, hcon, hne⟩
    have hof := packedOf_contributes content missing hp hcon
    refine ⟨_, List.mem_filterMap.mpr ⟨s, hs, hof⟩, ?_, hne⟩
    exact Nat.ne_of_gt ((payloadWeight_pos (content.counts name of hp s.reader res s.pos)).mpr
      hcon.2.2)

omit [DecidableEq N] [Inhabited V] [DecidableEq V] in
/-- Against a pattern of missing arrays every decoded payload is row-aligned. -/
theorem rowAligned_present (rows : Rows χ) (res srcPerChild factor : Nat) :
    RowAligned (content.present missing) rows res srcPerChild factor fields := by
  intro g _ j p hp c hc
  obtain ⟨s, -, hs⟩ := List.mem_filterMap.mp hp
  have hdiv := (digestOf_present content missing res g.1 g.2.companions s).mp (by rw [hs]; rfl)
  obtain ⟨⟨hd, hsib⟩, hpay⟩ := hdiv
  have hw := ((whole_present content missing s.reader res g.1 g.2.companions).mpr ⟨hd, hsib⟩).1
  rw [digestOf, if_pos hw, digestAt_present, hd] at hs
  simp only [Bool.false_eq_true, if_false, Option.bind_some, groupPart, hpay,
    Option.some.injEq] at hs
  rw [← hs]
  have hmem : g.2.companions[c] ∈ g.2.companions := List.getElem_mem hc
  simp only [List.map_map]
  rw [List.getD_eq_getElem?_getD, List.getElem?_map, List.getElem?_eq_getElem hc]
  simp only [Option.map_some, Function.comp_apply, siblingAt_present, hsib _ hmem,
    Bool.false_eq_true, if_false, Option.getD_some]
  exact content.aligned ..

theorem mergePaired_iff (hf : fields.Names) (hp : (name, .packed of) ∈ fields)
    (declared : List Channel) (num : Numerics) (rows : Rows χ) (res : Nat) {srcPerChild factor : Nat}
    (hspc : 0 < srcPerChild) (hfac : 0 < factor) (nOut : Nat) :
    MergePaired (content.present missing) num rows fields res srcPerChild factor nOut name of
        declared ↔
      ∀ j < nOut, j ∉ poisonedCells (content.present missing) rows res srcPerChild factor name of →
        (∃ s ∈ sources rows srcPerChild factor j, Contributes content missing res name of s ∧
          (content.slab ⟨s.reader, res, .packed name⟩ s.pos : Word) ≠ 0) →
        ∀ s ∈ sources rows srcPerChild factor j, Contributes content missing res name of s →
          Divisible missing res of declared s := by
  obtain ⟨hok, htot⟩ :=
    run_mergeSlabs (content.present missing) hf num rows res hspc factor nOut
  obtain ⟨out, hrun⟩ := htot (rowAligned_present content missing rows res srcPerChild factor)
  have hword : ∀ j, (out.1 (.packed name) j : Word) ≠ 0 ↔
      j ∉ poisonedCells (content.present missing) rows res srcPerChild factor name of ∧
        ∃ s ∈ sources rows srcPerChild factor j, Contributes content missing res name of s ∧
          (content.slab ⟨s.reader, res, .packed name⟩ s.pos : Word) ≠ 0 := fun j => by
    have hmerged : out.1 (.packed name) = _ := (hok out hrun).1 _ hp
    rw [← mergedWord_ne_zero content missing hp, hmerged]
    by_cases hpoison : j ∈ poisonedCells (content.present missing) rows res srcPerChild factor name of
    · simp [hpoison]
    · simp [hpoison]
  constructor
  · intro h j hj hpoison hsome s hs hcon
    have heq := h out hrun j hj ((hword j).mpr ⟨hpoison, hsome⟩)
    have hin : s ∈ mergedWords (content.present missing) res name of
        (sources rows srcPerChild factor j) :=
      List.mem_filter.mpr ⟨hs, (packedOf_isSome content missing hp res s).mpr hcon⟩
    rw [heq] at hin
    exact ((digestOf_present content missing res of declared s).mp (List.mem_filter.mp hin).2).1
  · intro h out' hout' j hj hne
    obtain rfl := Except.ok.inj (hrun.symm.trans hout')
    obtain ⟨hpoison, hsome⟩ := (hword j).mp hne
    refine List.filter_congr fun s hs => ?_
    rw [Bool.eq_iff_iff, packedOf_isSome content missing hp, digestOf_present]
    constructor
    · exact fun hcon => ⟨h j hj hpoison hsome s hs hcon, hcon.2.2⟩
    · rintro ⟨⟨hd, -⟩, hpay⟩
      refine ⟨?_, hd, hpay⟩
      -- the word is there: a payload without it would have poisoned the cell
      cases hw : missing ⟨s.reader, res, .packed name⟩ with
      | false => rfl
      | true => exact absurd (poisoned_of_skewed content missing hfac hs hw hd) hpoison

omit [DecidableEq N] [Inhabited V] [DecidableEq V] in
theorem filterMap_divisors (f : (q : Query χ N) → Answer V q) (res : Nat) (of : N)
    (declared : List Channel) (cells : List (Source χ)) :
    (divisors f res of declared cells).filterMap (digestOf f res of declared) =
      cells.filterMap (digestOf f res of declared) := by
  rw [divisors, List.filterMap_filter]
  refine List.filterMap_congr fun s _ => ?_
  cases digestOf f res of declared s <;> rfl

/-- The merged divisor is the fold of its contributors' payloads. -/
theorem mergeSlabs_divisor (f : (q : Query χ N) → Answer V q) (hf : fields.Names)
    (hm : (of, m) ∈ fields) (hc : m.cls = .approximate) (num : Numerics) (rows : Rows χ) (res : Nat)
    {srcPerChild factor nOut : Nat} (hspc : 0 < srcPerChild) {out : Slabs V N × SourceCounts}
    (hrun : ReadProg.run f (mergeSlabs num rows fields res srcPerChild factor nOut) = .ok out)
    {j : Nat} (hj : j < nOut) :
    ∃ delta part, foldDigests num delta m.companions
        ((divisors f res of m.companions (sources rows srcPerChild factor j)).filterMap
          (digestOf f res of m.companions)) = .ok part ∧
      out.1 (.digest of) j = part.digest := by
  have hmerged := ((run_mergeSlabs f hf num rows res hspc factor nOut).1 out hrun).1 _ hm
  cases m with
  | approximate delta location temporal =>
    obtain ⟨part, hfold, hd, -⟩ := hmerged j hj
    refine ⟨delta, part, ?_, hd⟩
    rw [filterMap_divisors]
    exact hfold
  | exact | packed => cases hc

/-- Gather and merge fold a word and its divisor from the same source cells exactly when
no nonzero word stands beside a divisor group that is not complete; the merged divisor is
the fold of the contributors named here. -/
theorem paired_iff_divisible (hf : fields.Names) (hp : (name, .packed of) ∈ fields)
    (hm : (of, m) ∈ fields) (hc : m.cls = .approximate) (num : Numerics) (rows : Rows χ) (res : Nat)
    {span srcPerChild factor : Nat} (hspan : 0 < span) (hspc : 0 < srcPerChild)
    (hfac : 0 < factor) (nOut : Nat) :
    (GatherPaired (content.present missing) rows fields res span name of m.companions ↔
      ∀ j < rows.length * span, ∀ s ∈ gatherSources rows span j,
        missing ⟨s.reader, res, .packed name⟩ = false →
        (content.slab ⟨s.reader, res, .packed name⟩ s.pos : Word) ≠ 0 →
        Divisible missing res of m.companions s) ∧
    (MergePaired (content.present missing) num rows fields res srcPerChild factor nOut name of
        m.companions ↔
      ∀ j < nOut, j ∉ poisonedCells (content.present missing) rows res srcPerChild factor name of →
        (∃ s ∈ sources rows srcPerChild factor j, Contributes content missing res name of s ∧
          (content.slab ⟨s.reader, res, .packed name⟩ s.pos : Word) ≠ 0) →
        ∀ s ∈ sources rows srcPerChild factor j, Contributes content missing res name of s →
          Divisible missing res of m.companions s) ∧
    ∀ out, ReadProg.run (content.present missing)
        (mergeSlabs num rows fields res srcPerChild factor nOut) = .ok out →
      ∀ j < nOut, ∃ delta part, foldDigests num delta m.companions
          ((divisors (content.present missing) res of m.companions
            (sources rows srcPerChild factor j)).filterMap
            (digestOf (content.present missing) res of m.companions)) = .ok part ∧
        out.1 (.digest of) j = part.digest :=
  ⟨gatherPaired_iff content missing hf hp m.companions rows res hspan,
    mergePaired_iff content missing hf hp m.companions num rows res hspc hfac nOut,
    fun _ hrun _ hj => mergeSlabs_divisor _ hf hm hc num rows res hspc hrun hj⟩

end Iff

section Examples

/-- A located count digest and the composition word that divides by it. -/
def locatedFields : Fields Unit Nat := [(0, .approximate 512 true false), (1, .packed 0)]

theorem locatedFields_names : locatedFields.Names :=
  show (locatedFields.map Prod.fst).Nodup by decide

/-- Every child cell counts one photon, on land. -/
def onePhoton : Content Nat locatedFields where
  slab
    | ⟨_, _, .exact _⟩ => fun _ => ()
    | ⟨_, _, .digest _⟩ => fun _ => ([⟨100, 1⟩] : Digest)
    | ⟨_, _, .sibling _ _⟩ => fun _ => ([7] : Words)
    | ⟨_, _, .packed _⟩ => fun _ => (255 : Word)
  aligned _ _ _ _ _ := rfl
  counts _ _ _ _ _ _ c hc := ⟨1, Nat.one_pos, by rw [List.mem_singleton.mp hc]; rfl⟩
  paired _ _ _ _ _ _ _ := List.cons_ne_nil _ _

def fourChildren : Rows Nat := [some [.reader 0], some [.reader 1], some [.reader 2], some [.reader 3]]

/-- The second child holds none of the arrays, the fourth one all but the word. -/
def partly (q : Query Nat Nat) : Bool := q.reader = 1 ∨ q.reader = 3 ∧ q.key = .packed 1

/-- Where the word is there, so is its whole divisor. -/
theorem divisible_partly {s : Source Nat} (h : partly ⟨s.reader, 4, .packed 1⟩ = false) :
    Divisible partly 4 0 [.locations] s := by
  simp only [partly, and_true, decide_eq_false_iff_not, not_or] at h
  exact ⟨by simp [partly, h.1], fun c _ => by simp [partly, h.1]⟩

theorem paired_partly :
    GatherPaired (onePhoton.present partly) fourChildren locatedFields 4 1 1 0 [.locations] ∧
      MergePaired (onePhoton.present partly) smallNumerics fourChildren locatedFields 4 1 2 2 1 0
        [.locations] := by
  have h := paired_iff_divisible onePhoton partly locatedFields_names
    (.tail _ (.head _)) (.head _) rfl smallNumerics fourChildren 4
    Nat.one_pos Nat.one_pos Nat.two_pos 2
  exact ⟨h.1.mpr fun _ _ _ _ hword _ => divisible_partly hword,
    h.2.1.mpr fun _ _ _ _ _ _ hcon => divisible_partly hcon.1⟩

/-- The digest column is missing beside the word; at the merge only its locations are. -/
theorem unpaired_of_refused_divisor :
    ¬GatherPaired (onePhoton.present fun q => q.key = .digest 0) [some [.reader 0]]
        locatedFields 4 1 1 0 [.locations] ∧
      ¬MergePaired
        (onePhoton.present fun q => q.reader = 1 ∧ q.key = .sibling 0 .locations)
        smallNumerics [some [.reader 0], some [.reader 1]] locatedFields 4 1 2 1 1 0 [.locations] := by
  constructor
  · rw [gatherPaired_iff onePhoton _ locatedFields_names (.tail _ (.head _)) _ _ _ Nat.one_pos]
    intro h
    have hdiv := h 0 (by decide) ⟨0, 0, 0, 0⟩ (by decide) (by decide) (by decide)
    exact absurd hdiv.1 (by decide)
  · rw [mergePaired_iff onePhoton _ locatedFields_names (.tail _ (.head _)) _ _ _ _ Nat.one_pos Nat.two_pos]
    intro h
    have hdiv := h 0 (by decide) (by decide)
      ⟨⟨0, 0, 0, 0⟩, by decide, ⟨by decide, by decide, List.cons_ne_nil _ _⟩, by decide⟩
      ⟨1, 1, 0, 0⟩ (by decide) ⟨by decide, by decide, List.cons_ne_nil _ _⟩
    exact absurd (hdiv.2 .locations (.head _)) (by decide)

end Examples

end Zagg.Stage
