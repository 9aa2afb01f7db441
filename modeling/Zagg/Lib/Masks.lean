import Mathlib.Data.List.Basic
import Mathlib.Data.List.Sort
import Zagg.Lib.Runs

/-!
# Masks and fancy indices

A boolean mask over the rows an index gathered selects the rows of that index the mask holds
of. Two increasing indices with the same kept rows select the same rows in the same order. Packed
eight to a byte, as many bits as were packed unpack again.
-/
namespace Zagg.Lib

universe u v

variable {α : Type u} {β : Type v}

/-- `np.flatnonzero`. -/
def flatnonzero (mask : List Bool) : List Nat := (mask.zipIdx.filter Prod.fst).map Prod.snd

/-- `arr[mask]`. -/
def select (arr : List β) (mask : List Bool) : List β := ((arr.zip mask).filter Prod.snd).map Prod.fst

section Flatnonzero

theorem flatnonzero_cons (b : Bool) (mask : List Bool) :
    flatnonzero (b :: mask) =
      if b then 0 :: (flatnonzero mask).map (· + 1) else (flatnonzero mask).map (· + 1) := by
  have htail : ((mask.zipIdx 1).filter Prod.fst).map Prod.snd = (flatnonzero mask).map (· + 1) := by
    have hshift : mask.zipIdx 1 = mask.zipIdx.map fun r => (r.1, r.2 + 1) :=
      List.zipIdx_succ
    rw [flatnonzero, hshift, List.filter_map, List.map_map, List.map_map]
    rfl
  rw [flatnonzero, List.zipIdx_cons, List.filter_cons]
  cases b with
  | true => rw [if_pos rfl, if_pos rfl, List.map_cons, htail]
  | false => rw [if_neg Bool.false_ne_true, if_neg Bool.false_ne_true, htail]

theorem mem_flatnonzero {mask : List Bool} {i : Nat} :
    i ∈ flatnonzero mask ↔ mask[i]? = some true := by
  rw [flatnonzero, List.mem_map]
  constructor
  · rintro ⟨⟨b, j⟩, hb, rfl⟩
    obtain ⟨hmem, hb⟩ := List.mem_filter.mp hb
    obtain rfl : b = true := hb
    exact List.mk_mem_zipIdx_iff_getElem?.mp hmem
  · intro h
    exact ⟨(true, i), List.mem_filter.mpr ⟨List.mk_mem_zipIdx_iff_getElem?.mpr h, rfl⟩, rfl⟩

theorem pairwise_flatnonzero (mask : List Bool) : (flatnonzero mask).Pairwise (· < ·) := by
  induction mask with
  | nil => exact .nil
  | cons b mask ih =>
    have hsucc : ((flatnonzero mask).map (· + 1)).Pairwise (· < ·) :=
      List.pairwise_map.mpr (ih.imp Nat.succ_lt_succ)
    rw [flatnonzero_cons]
    split_ifs
    · refine List.pairwise_cons.mpr ⟨fun j hj => ?_, hsucc⟩
      obtain ⟨j', -, rfl⟩ := List.mem_map.mp hj
      exact Nat.succ_pos j'
    · exact hsucc

end Flatnonzero

section Select

@[simp] theorem select_nil (mask : List Bool) : select ([] : List β) mask = [] := rfl

theorem select_cons (b : β) (arr : List β) (m : Bool) (mask : List Bool) :
    select (b :: arr) (m :: mask) = if m then b :: select arr mask else select arr mask := by
  cases m <;> rfl

/-- A mask computed from the rows themselves. -/
theorem select_map (f : α → β) (p : α → Bool) (l : List α) :
    select (l.map f) (l.map p) = (l.filter p).map f := by
  induction l with
  | nil => rfl
  | cons a l ih =>
    rw [List.map_cons, List.map_cons, select_cons, ih, List.filter_cons]
    split_ifs <;> rfl

theorem gather_cons {arr : List β} {i : Nat} (h : i < arr.length) (idx : List Nat) :
    gather arr (i :: idx) = arr[i] :: gather arr idx := by
  rw [gather, List.filterMap_cons, List.getElem?_eq_getElem h]
  rfl

/-- A mask over gathered rows. -/
theorem select_gather {arr : List β} {idx : List Nat} (h : ∀ i ∈ idx, i < arr.length)
    (p : Nat → Bool) : select (gather arr idx) (idx.map p) = gather arr (idx.filter p) := by
  induction idx with
  | nil => rfl
  | cons i idx ih =>
    have hi := h i (.head _)
    rw [gather_cons hi, List.map_cons, select_cons, List.filter_cons,
      ih fun j hj => h j (.tail _ hj)]
    split_ifs
    · rw [gather_cons hi]
    · rfl

theorem length_gather {arr : List β} {idx : List Nat} (h : ∀ i ∈ idx, i < arr.length) :
    (gather arr idx).length = idx.length := by
  induction idx with
  | nil => rfl
  | cons i idx ih =>
    rw [gather_cons (h i (.head _)), List.length_cons, List.length_cons,
      ih fun j hj => h j (.tail _ hj)]

theorem getElem?_gather {arr : List β} {idx : List Nat} (h : ∀ i ∈ idx, i < arr.length) (n : Nat) :
    (gather arr idx)[n]? = idx[n]?.bind (arr[·]?) := by
  induction idx generalizing n with
  | nil => rfl
  | cons i idx ih =>
    have hi : i < arr.length := h i (.head _)
    have htail := ih fun j hj => h j (.tail _ hj)
    rw [gather_cons hi]
    cases n with
    | zero => exact (List.getElem?_eq_getElem hi).symm
    | succ n => exact htail n

/-- Increasing indices that keep the same rows keep them in the same order. -/
theorem filter_eq_of_sorted {idx idx' : List Nat} (h : idx.Pairwise (· < ·))
    (h' : idx'.Pairwise (· < ·)) {p : Nat → Bool}
    (hmem : ∀ i, p i = true → (i ∈ idx ↔ i ∈ idx')) : idx.filter p = idx'.filter p := by
  refine List.Perm.eq_of_pairwise' ((h.filter p).imp le_of_lt) ((h'.filter p).imp le_of_lt) ?_
  rw [List.perm_ext_iff_of_nodup ((h.filter p).imp ne_of_lt) ((h'.filter p).imp ne_of_lt)]
  intro i
  rw [List.mem_filter, List.mem_filter]
  exact and_congr_left (hmem i)

/-- The indices a mask holds at gather what it selects. -/
theorem gather_flatnonzero (arr : List β) (p : β → Bool) :
    gather arr (flatnonzero (arr.map p)) = arr.filter p := by
  induction arr with
  | nil => rfl
  | cons b arr ih =>
    have hshift : gather (b :: arr) ((flatnonzero (arr.map p)).map (· + 1)) = arr.filter p := by
      rw [← ih, gather, List.filterMap_map]
      rfl
    rw [List.map_cons, flatnonzero_cons, List.filter_cons]
    split_ifs
    · rw [gather_cons (Nat.succ_pos _), hshift]
      rfl
    · exact hshift

/-- Increasing indices of the elements with a property gather those elements. -/
theorem gather_increasing {arr : List β} {p : β → Bool} {idx : List Nat}
    (h : idx.Pairwise (· < ·)) (hmem : ∀ i, i ∈ idx ↔ ∃ b, arr[i]? = some b ∧ p b = true) :
    gather arr idx = arr.filter p := by
  have hidx : idx = flatnonzero (arr.map p) := by
    have hkeep : ∀ l : List Nat, l.filter (fun _ => true) = l := fun l =>
      List.filter_eq_self.mpr fun _ _ => rfl
    rw [← hkeep idx, ← hkeep (flatnonzero (arr.map p))]
    apply filter_eq_of_sorted h (pairwise_flatnonzero _)
    intro i _
    rw [hmem, mem_flatnonzero, List.getElem?_map, Option.map_eq_some_iff]
  rw [hidx, gather_flatnonzero]

end Select

/-! ## Bits in bytes -/

/-- A byte of the first eight bits of a list. -/
def packByte (bits : List Bool) : UInt8 :=
  (List.range 8).foldl (fun byte i => byte * 2 + if bits.getD i false then 1 else 0) 0

def packBits (bits : List Bool) : List UInt8 :=
  (List.range ((bits.length + 7) / 8)).map fun i => packByte (bits.drop (8 * i))

def unpackByte (byte : UInt8) : List Bool := (List.range 8).map fun i => byte.toNat.testBit (7 - i)

/-- Bits past the end of the bytes are zero. -/
def unpackBits (raw : List UInt8) (count : Nat) : List Bool :=
  let bits := raw.flatMap unpackByte
  bits.take count ++ List.replicate (count - bits.length) false

theorem unpackByte_packByte (bits : List Bool) :
    unpackByte (packByte bits) = (List.range 8).map fun i => bits.getD i false := by
  have hbits : ∀ a b c d e f g h : Bool, unpackByte (packByte [a, b, c, d, e, f, g, h]) =
      [a, b, c, d, e, f, g, h] := by decide +kernel
  exact hbits (bits.getD 0 false) (bits.getD 1 false) (bits.getD 2 false) (bits.getD 3 false)
    (bits.getD 4 false) (bits.getD 5 false) (bits.getD 6 false) (bits.getD 7 false)

theorem flatMap_blocks {α : Type} (f : Nat → α) (width blocks : Nat) :
    ((List.range blocks).flatMap fun i => (List.range width).map fun j => f (width * i + j)) =
      (List.range (width * blocks)).map f := by
  induction blocks with
  | zero => rfl
  | succ blocks ih =>
    rw [List.range_succ, List.flatMap_append, ih, Nat.mul_succ, List.range_add, List.map_append,
      List.map_map]
    simp [Function.comp_def]

theorem map_getD_range (bits : List Bool) {n : Nat} (h : bits.length ≤ n) :
    (List.range n).map (fun i => bits.getD i false) =
      bits ++ List.replicate (n - bits.length) false := by
  apply List.ext_getElem?
  intro i
  rw [List.getElem?_map, List.getElem?_append, List.getElem?_replicate]
  by_cases hi : i < n
  · rw [List.getElem?_range hi]
    by_cases hb : i < bits.length
    · simp [hb]
    · rw [if_neg hb, if_pos (by omega)]
      simp [List.getElem?_eq_none (Nat.le_of_not_lt hb)]
  · rw [List.getElem?_eq_none (by simpa using hi), if_neg (by omega), if_neg (by omega)]
    rfl

theorem flatMap_packBits (bits : List Bool) : (packBits bits).flatMap unpackByte =
    bits ++ List.replicate (8 * ((bits.length + 7) / 8) - bits.length) false := by
  rw [← map_getD_range bits (by omega), ← flatMap_blocks, packBits, List.flatMap_map]
  simp only [unpackByte_packByte, List.getD_eq_getElem?_getD, List.getElem?_drop]

theorem unpackBits_packBits (bits : List Bool) : unpackBits (packBits bits) bits.length = bits := by
  have hlen : bits.length ≤ ((packBits bits).flatMap unpackByte).length := by
    rw [flatMap_packBits, List.length_append]
    omega
  rw [unpackBits]
  rw [Nat.sub_eq_zero_of_le hlen, flatMap_packBits, List.take_left, List.replicate_zero,
    List.append_nil]

theorem length_packBits (bits : List Bool) : (packBits bits).length = (bits.length + 7) / 8 := by
  rw [packBits, List.length_map, List.length_range]

end Zagg.Lib
