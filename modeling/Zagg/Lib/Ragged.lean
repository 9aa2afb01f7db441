import Mathlib.Algebra.BigOperators.Group.List.Basic
import Mathlib.Data.List.Forall2
import Zagg.Lib.Runs

/-!
# Blocks and ragged arrays

A loop over `range(0, n, size)` walks a list in blocks whose concatenation is the list.
A ragged array keeps its slots concatenated beside their offsets; a window of the offsets,
counted from its own base, is the ragged array of a slice of the slots, and a fancy index
gathers the slots of any list of rows.
-/
namespace Zagg.Lib

universe u v

variable {α : Type u} {β : Type v}

section Blocks

/-- `range(0, n, step)`. -/
def steps (n step : Nat) : List Nat := (List.range ((n + step - 1) / step)).map (· * step)

/-- `l[a : a + size]` for `a` in `range(0, len(l), size)`. -/
def blocks (l : List α) (size : Nat) : List (List α) :=
  (steps l.length size).map fun a => slice l a (a + size)

theorem flatMap_windows {size : Nat} (k : Nat) (l : List α) (h : l.length ≤ k * size) :
    (List.range k).flatMap (fun j => slice l (j * size) (j * size + size)) = l := by
  induction k generalizing l with
  | zero =>
    rw [Nat.zero_mul] at h
    rw [List.eq_nil_of_length_eq_zero (Nat.le_zero.mp h)]
    rfl
  | succ k ih =>
    have hrest : (List.range k).flatMap (fun j => slice l (j.succ * size) (j.succ * size + size)) =
        (List.range k).flatMap fun j => slice (l.drop size) (j * size) (j * size + size) := by
      refine List.flatMap_congr fun j _ => ?_
      simp only [slice, List.drop_drop, Nat.add_sub_cancel_left]
      rw [Nat.succ_mul, Nat.add_comm]
    rw [Nat.succ_mul] at h
    rw [List.range_succ_eq_map, List.flatMap_cons, List.flatMap_map, hrest,
      ih (l.drop size) (by rw [List.length_drop]; omega)]
    simp only [slice, Nat.zero_mul, Nat.zero_add, List.drop_zero, Nat.sub_zero,
      List.take_append_drop]

theorem flatten_blocks {size : Nat} (h : 0 < size) (l : List α) : (blocks l size).flatten = l := by
  rw [blocks, steps, List.map_map, ← List.flatMap_def]
  refine flatMap_windows _ l ?_
  have hdiv := Nat.lt_div_mul_add (a := l.length + size - 1) h
  omega

theorem mem_blocks {size : Nat} {l b : List α} (h : b ∈ blocks l size) : b.Sublist l := by
  obtain ⟨a, -, rfl⟩ := List.mem_map.mp h
  exact (List.take_sublist _ _).trans (List.drop_sublist _ _)

theorem mem_steps {n size a : Nat} (h : 0 < size) (ha : a ∈ steps n size) : a < n := by
  obtain ⟨j, hj, rfl⟩ := List.mem_map.mp ha
  have hle : (j + 1) * size ≤ n + size - 1 :=
    (Nat.mul_le_mul_right size (List.mem_range.mp hj)).trans (Nat.div_mul_le_self _ _)
  rw [Nat.succ_mul] at hle
  omega

/-- A call that works entry by entry on every block works entry by entry on the list. -/
theorem forall₂_blocks {R : α → β → Prop} {size : Nat} (h : 0 < size) {l : List α}
    {f : List α → List β} (hf : ∀ b ∈ blocks l size, List.Forall₂ R b (f b)) :
    List.Forall₂ R l ((blocks l size).flatMap f) := by
  have key : ∀ bs : List (List α), (∀ b ∈ bs, List.Forall₂ R b (f b)) →
      List.Forall₂ R bs.flatten (bs.flatMap f) := by
    intro bs hbs
    induction bs with
    | nil => exact .nil
    | cons b bs ih =>
      rw [List.flatten_cons, List.flatMap_cons]
      exact List.rel_append (hbs b (.head _)) (ih fun b' hb' => hbs b' (.tail _ hb'))
  have hall := key _ hf
  rwa [flatten_blocks h] at hall

theorem slice_min (l : List α) (a e : Nat) : slice l a (min e l.length) = slice l a e := by
  simp only [slice]
  rcases le_total e l.length with he | he
  · rw [Nat.min_eq_left he]
  · rw [Nat.min_eq_right he, List.take_of_length_le (by rw [List.length_drop]),
      List.take_of_length_le (by rw [List.length_drop]; omega)]

end Blocks

section Offsets

/-- The offsets of concatenated slots. -/
def offsetsOf (slots : List (List α)) : List Nat := (slots.map List.length).scanl (· + ·) 0

theorem scanl_add (c : Nat) (ns : List Nat) :
    ns.scanl (· + ·) c = (ns.scanl (· + ·) 0).map (c + ·) := by
  induction ns generalizing c with
  | nil => rfl
  | cons n ns ih =>
    rw [List.scanl_cons, List.scanl_cons, List.map_cons, ih, ih (0 + n), List.map_map]
    refine congrArg (c :: ·) (List.map_congr_left fun x _ => ?_)
    simp only [Function.comp]
    omega

@[simp] theorem offsetsOf_nil : offsetsOf ([] : List (List α)) = [0] := rfl

theorem offsetsOf_cons (s : List α) (slots : List (List α)) :
    offsetsOf (s :: slots) = 0 :: (offsetsOf slots).map (s.length + ·) := by
  rw [offsetsOf, List.map_cons, List.scanl_cons, Nat.zero_add, scanl_add]
  rfl

/-- The slots between consecutive offsets. -/
def slots (values : List α) (offsets : List Nat) : List (List α) :=
  (offsets.zip offsets.tail).map fun r => slice values r.1 r.2

/-- Offsets that stay in the values and never step back. -/
structure RowAligned (values : List α) (offsets : List Nat) : Prop where
  ne_nil : offsets ≠ []
  mono : offsets.Pairwise (· ≤ ·)
  le_length : ∀ o ∈ offsets, o ≤ values.length

theorem slots_cons_cons (values : List α) (o o' : Nat) (os : List Nat) :
    slots values (o :: o' :: os) = slice values o o' :: slots values (o' :: os) := rfl

/-- Consecutive slots are one slice of the values, and counting from the first offset gives
the slots' own offsets. -/
theorem RowAligned.rebase {values : List α} {o : Nat} {os : List Nat}
    (h : RowAligned values (o :: os)) :
    slice values o ((o :: os).getLastD 0) = (slots values (o :: os)).flatten ∧
      (o :: os).map (· - o) = offsetsOf (slots values (o :: os)) := by
  induction os generalizing o with
  | nil =>
    refine ⟨?_, ?_⟩
    · simp [slice, slots]
    · simp [slots]
  | cons o' os ih =>
    obtain ⟨hhead, htail⟩ := List.pairwise_cons.mp h.mono
    have hle : o ≤ o' := hhead o' (.head _)
    have hlen : o' ≤ values.length := h.le_length o' (.tail _ (.head _))
    obtain ⟨hflat, hoff⟩ := ih ⟨(fun h => by cases h), htail, fun x hx => h.le_length x (.tail _ hx)⟩
    have hlast : o' ≤ (o' :: os).getLastD 0 := by
      rw [List.getLastD_cons]
      rcases List.eq_nil_or_concat' os with rfl | ⟨l, x, rfl⟩
      · exact le_rfl
      · rw [List.getLastD_concat]
        exact (List.pairwise_cons.mp htail).1 x (by simp)
    rw [slots_cons_cons, List.flatten_cons, ← hflat, offsetsOf_cons, ← hoff, length_slice hlen]
    refine ⟨?_, ?_⟩
    · have hsame : (o :: o' :: os).getLastD 0 = (o' :: os).getLastD 0 := rfl
      rw [hsame]
      generalize (o' :: os).getLastD 0 = e at hlast
      simp only [slice]
      have hsplit : e - o = (o' - o) + (e - o') := by omega
      rw [hsplit, List.take_add, List.drop_drop, Nat.add_sub_cancel' hle]
    · rw [List.map_cons, Nat.sub_self, List.map_map]
      refine congrArg (0 :: ·) (List.map_congr_left fun x hx => ?_)
      have hx' : o' ≤ x := by
        rcases List.mem_cons.mp hx with rfl | hx
        · exact le_rfl
        · exact (List.pairwise_cons.mp htail).1 x hx
      simp only [Function.comp]
      omega

theorem length_slots (values : List α) (offsets : List Nat) :
    (slots values offsets).length = offsets.length - 1 := by
  rw [slots, List.length_map, List.length_zip, List.length_tail, Nat.min_eq_right (Nat.sub_le ..)]

theorem slots_append (s values : List α) (os : List Nat) :
    slots (s ++ values) (os.map (s.length + ·)) = slots values os := by
  rw [slots, slots, ← List.map_tail, List.zip_map, List.map_map]
  refine List.map_congr_left fun r _ => ?_
  simp only [Function.comp, slice, Prod.map, List.drop_append, Nat.add_sub_add_left]
  rw [List.drop_eq_nil_of_le (Nat.le_add_right ..), List.nil_append, Nat.add_sub_cancel_left]

/-- The slots of packed values are the slots. -/
theorem slots_offsetsOf (ss : List (List α)) : slots ss.flatten (offsetsOf ss) = ss := by
  induction ss with
  | nil => rfl
  | cons s ss ih =>
    obtain ⟨os, hos⟩ : ∃ os, offsetsOf ss = 0 :: os := by
      cases ss with
      | nil => exact ⟨[], rfl⟩
      | cons t ss => exact ⟨_, offsetsOf_cons t ss⟩
    have hshift := slots_append s ss.flatten (offsetsOf ss)
    rw [ih] at hshift
    rw [offsetsOf_cons, List.flatten_cons, hos, List.map_cons, slots_cons_cons]
    rw [hos, List.map_cons] at hshift
    rw [hshift, Nat.add_zero, slice, List.drop_zero, Nat.sub_zero, List.take_left]

theorem getElem?_slice (l : List α) (s e i : Nat) :
    (slice l s e)[i]? = if i < e - s then l[s + i]? else none := by
  rw [slice, List.getElem?_take, List.getElem?_drop]

theorem getElem?_slots (values : List α) (os : List Nat) (i : Nat) :
    (slots values os)[i]? = os[i]?.bind fun a => os[i + 1]?.map fun b => slice values a b := by
  rw [slots, List.getElem?_map, List.zip, List.getElem?_zipWith, List.getElem?_tail]
  cases os[i]? with
  | none => rfl
  | some a =>
    cases os[i + 1]? with
    | none => rfl
    | some b => rfl

/-- A window of the offsets holds a slice of the slots. -/
theorem slots_window (values : List α) (os : List Nat) (a b : Nat) :
    slots values (slice os a (b + 1)) = slice (slots values os) a b := by
  refine List.ext_getElem? fun i => ?_
  rw [getElem?_slots, getElem?_slice, getElem?_slice, getElem?_slice, getElem?_slots, Nat.add_assoc]
  by_cases hi : i < b - a
  · rw [if_pos hi, if_pos (by omega), if_pos (by omega)]
  · rw [if_neg hi, if_neg (by omega : ¬i + 1 < b + 1 - a)]
    split_ifs
    · cases os[a + i]? <;> rfl
    · rfl

theorem RowAligned.window {values : List α} {os : List Nat} (h : RowAligned values os) {a b : Nat}
    (hab : a ≤ b) (hb : b < os.length) :
    slice values (os.getD a 0) (os.getD b 0) = (slice (slots values os) a b).flatten ∧
      (slice os a (b + 1)).map (· - os.getD a 0) = offsetsOf (slice (slots values os) a b) := by
  have hsub : (slice os a (b + 1)).Sublist os := (List.take_sublist _ _).trans (List.drop_sublist _ _)
  have hlen : (slice os a (b + 1)).length = b + 1 - a := length_slice hb
  have hget : ∀ i, i ≤ b - a → (slice os a (b + 1))[i]? = os[a + i]? := by
    intro i hi
    rw [getElem?_slice, if_pos (by omega)]
  have hlast : (slice os a (b + 1)).getLastD 0 = os.getD b 0 := by
    rw [List.getLastD_eq_getLast?, List.getLast?_eq_getElem?, hlen,
      hget _ (by omega), List.getD_eq_getElem?_getD]
    congr 2
    omega
  rw [← slots_window]
  cases hw : slice os a (b + 1) with
  | nil => rw [hw] at hlen; simp at hlen; omega
  | cons o w =>
    have hhead : os.getD a 0 = o := by
      have h0 := hget 0 (Nat.zero_le _)
      rw [hw, List.getElem?_cons_zero, Nat.add_zero] at h0
      rw [List.getD_eq_getElem?_getD, ← h0, Option.getD_some]
    rw [hw] at hsub hlast
    rw [← hlast, hhead]
    exact RowAligned.rebase ⟨nofun, h.mono.sublist hsub, fun x hx => h.le_length x (hsub.subset hx)⟩

theorem rowAligned_pack (ss : List (List α)) : RowAligned ss.flatten (offsetsOf ss) := by
  induction ss with
  | nil => exact ⟨nofun, List.pairwise_singleton _ 0, fun o ho => (List.mem_singleton.mp ho).le⟩
  | cons s ss ih =>
    rw [offsetsOf_cons, List.flatten_cons]
    refine ⟨nofun, List.pairwise_cons.mpr ⟨fun _ _ => Nat.zero_le _, ?_⟩, fun o ho => ?_⟩
    · exact List.pairwise_map.mpr (ih.mono.imp fun h => Nat.add_le_add_left h s.length)
    · rw [List.length_append]
      rcases List.mem_cons.mp ho with rfl | ho
      · exact Nat.zero_le _
      · obtain ⟨o', ho', rfl⟩ := List.mem_map.mp ho
        exact Nat.add_le_add_left (ih.le_length o' ho') s.length

end Offsets

section Gather

/-- `np.repeat(l, counts)`. -/
def repeats (l : List α) (counts : List Nat) : List α :=
  (l.zip counts).flatMap fun x => List.replicate x.2 x.1

/-- The ragged fancy index: `np.repeat(starts - off[:-1], lens) + np.arange(off[-1])`. -/
def raggedIndex (starts lens : List Nat) : List Int :=
  let off : List Nat := lens.scanl (· + ·) 0
  List.zipWith (· + ·) (repeats (List.zipWith (fun (s o : Nat) => (s : Int) - o)
    starts off.dropLast) lens)
    ((List.range (off.getLastD 0)).map (Nat.cast : Nat → Int))

theorem repeats_cons (a : α) (l : List α) (n : Nat) (counts : List Nat) :
    repeats (a :: l) (n :: counts) = List.replicate n a ++ repeats l counts := by
  rw [repeats, List.zip_cons_cons, List.flatMap_cons]
  rfl

/-- The index lists each row's own range. -/
theorem raggedIndex_eq {starts lens : List Nat} (h : starts.length = lens.length) :
    raggedIndex starts lens =
      ((starts.zip lens).flatMap fun r => List.range' r.1 r.2).map (Nat.cast : Nat → Int) := by
  have key : ∀ (starts lens : List Nat) (c : Nat), starts.length = lens.length →
      List.zipWith (· + ·) (repeats (List.zipWith (fun (s o : Nat) => (s : Int) - o) starts
        (lens.scanl (· + ·) c).dropLast) lens)
        ((List.range' c lens.sum).map (Nat.cast : Nat → Int)) =
      ((starts.zip lens).flatMap fun r => List.range' r.1 r.2).map (Nat.cast : Nat → Int) := by
    intro starts lens
    induction lens generalizing starts with
    | nil =>
      intro c h
      rw [List.eq_nil_of_length_eq_zero h]
      rfl
    | cons n lens ih =>
      intro c h
      cases starts with
      | nil => cases h
      | cons s starts =>
        have hdrop : ((n :: lens).scanl (· + ·) c).dropLast =
            c :: (lens.scanl (· + ·) (c + n)).dropLast := by
          rw [List.scanl_cons, List.dropLast_cons_of_ne_nil List.scanl_ne_nil]
        have hrange : List.range' c (n :: lens).sum =
            List.range' c n ++ List.range' (c + n) lens.sum := by
          rw [List.sum_cons, ← List.range'_append_1]
        have hfirst : List.zipWith (· + ·) (List.replicate n ((s : Int) - c))
            ((List.range' c n).map (Nat.cast : Nat → Int)) =
            (List.range' s n).map (Nat.cast : Nat → Int) := by
          refine List.ext_getElem (by simp) fun i h1 h2 => ?_
          simp only [List.getElem_zipWith, List.getElem_replicate, List.getElem_map,
            List.getElem_range']
          omega
        rw [hdrop, List.zipWith_cons_cons, repeats_cons, hrange, List.map_append,
          List.zipWith_append (by simp), hfirst, ih starts (c + n) (Nat.succ.inj h),
          List.zip_cons_cons, List.flatMap_cons, List.map_append]
  have hlast : (lens.scanl (· + ·) 0).getLastD 0 = lens.sum := by
    rw [List.getLastD_eq_getLast?, List.getLast?_scanl, Option.getD_some, List.sum_eq_foldl]
  have h0 := key starts lens 0 h
  rw [← List.range_eq_range'] at h0
  rw [raggedIndex, hlast]
  exact h0

theorem gather_range' (values : List α) {s n : Nat} (h : s + n ≤ values.length) :
    gather values (List.range' s n) = slice values s (s + n) := by
  induction n generalizing s with
  | zero => simp [gather, slice]
  | succ n ih =>
    have hs : s < values.length := by omega
    have htail := ih (by omega : s + 1 + n ≤ values.length)
    rw [gather] at htail
    rw [List.range'_succ, gather, List.filterMap_cons, List.getElem?_eq_getElem hs]
    dsimp only
    rw [htail, slice, slice, List.drop_eq_getElem_cons hs]
    have hn : s + (n + 1) - s = (s + 1 + n - (s + 1)) + 1 := by omega
    rw [hn, List.take_succ_cons]

/-- The values at the index of some rows are the slots of these rows. -/
theorem RowAligned.gather_rows {values : List α} {os : List Nat} (h : RowAligned values os)
    {rows : List Nat} (hrows : ∀ r ∈ rows, r + 1 < os.length) :
    let starts := rows.map (os.getD · 0)
    let lens := List.zipWith (· - ·) (rows.map fun r => os.getD (r + 1) 0) starts
    gather values ((raggedIndex starts lens).map Int.toNat) =
        (rows.map fun r => (slots values os).getD r []).flatten ∧
      lens.scanl (· + ·) 0 = offsetsOf (rows.map fun r => (slots values os).getD r []) := by
  intro starts lens
  have hslot : ∀ r ∈ rows, os.getD r 0 ≤ os.getD (r + 1) 0 ∧ os.getD (r + 1) 0 ≤ values.length ∧
      (slots values os).getD r [] = slice values (os.getD r 0) (os.getD (r + 1) 0) := by
    intro r hr
    have hlt := hrows r hr
    have h0 : os.getD r 0 = os[r] := by
      rw [List.getD_eq_getElem?_getD, List.getElem?_eq_getElem, Option.getD_some]
    have h1 : os.getD (r + 1) 0 = os[r + 1] := by
      rw [List.getD_eq_getElem?_getD, List.getElem?_eq_getElem hlt, Option.getD_some]
    rw [h0, h1]
    refine ⟨List.pairwise_iff_getElem.mp h.mono r (r + 1) _ _ (Nat.lt_succ_self r),
      h.le_length _ (List.getElem_mem _), ?_⟩
    rw [List.getD_eq_getElem?_getD, getElem?_slots, List.getElem?_eq_getElem (by omega),
      List.getElem?_eq_getElem hlt]
    rfl
  have hlens : lens = rows.map fun r => os.getD (r + 1) 0 - os.getD r 0 := by
    simp only [lens, starts, List.zipWith_map, List.zipWith_self]
  constructor
  · have hidx : raggedIndex starts lens = _ := raggedIndex_eq (by simp [starts, hlens])
    rw [hidx, List.map_map]
    have hid : (Int.toNat ∘ (Nat.cast : Nat → Int)) = id := funext fun n => Int.toNat_natCast n
    rw [hid, List.map_id, hlens, List.zip_map', List.flatMap_map, gather, List.filterMap_flatMap,
      ← List.flatMap_def]
    refine List.flatMap_congr fun r hr => ?_
    obtain ⟨hle, hlen, hs⟩ := hslot r hr
    have hg := gather_range' values (s := os.getD r 0) (n := os.getD (r + 1) 0 - os.getD r 0)
      (by omega)
    rw [Nat.add_sub_cancel' hle] at hg
    rw [hs]
    exact hg
  · rw [hlens, offsetsOf, List.map_map]
    refine congrArg (List.scanl (· + ·) 0) (List.map_congr_left fun r hr => ?_)
    obtain ⟨-, hlen, hs⟩ := hslot r hr
    simp only [Function.comp, hs, length_slice hlen]

/-- An owner a slot, repeated over the slot's entries. -/
theorem repeats_diff_offsetsOf (owners : List β) (ss : List (List α)) :
    repeats owners (List.zipWith (· - ·) (offsetsOf ss).tail (offsetsOf ss)) =
      (owners.zip ss).flatMap fun x => List.replicate x.2.length x.1 := by
  have hdiff : List.zipWith (· - ·) (offsetsOf ss).tail (offsetsOf ss) = ss.map List.length := by
    induction ss with
    | nil => rfl
    | cons s ss ih =>
      rw [offsetsOf_cons, List.tail_cons]
      obtain ⟨os, hos⟩ : ∃ os, offsetsOf ss = 0 :: os := by
        cases ss with
        | nil => exact ⟨[], rfl⟩
        | cons t ss => exact ⟨_, offsetsOf_cons t ss⟩
      rw [hos, List.tail_cons] at ih
      have hshift : List.zipWith (· - ·) (os.map (s.length + ·)) ((0 :: os).map (s.length + ·)) =
          List.zipWith (· - ·) os (0 :: os) := by
        rw [List.zipWith_map]
        simp only [Nat.add_sub_add_left]
      rw [hos, List.map_cons, List.zipWith_cons_cons, List.map_cons, ← ih, ← hshift, Nat.sub_zero,
        List.map_cons, Nat.add_zero]
  rw [hdiff, repeats, List.zip_map_right, List.flatMap_map]
  rfl

end Gather

end Zagg.Lib
